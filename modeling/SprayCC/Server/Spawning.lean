import Mathlib.Data.Nat.Count
import SprayCC.Async.Trace
import SprayCC.Server.Remotes

open Async Program

-- How many execs the loop of `start_execs_in_queue` spawns, and whether it comes to an end.

namespace SprayCC

-- The commands of the processes which were started in a run.
def hired (tr : Trace signature) : List String :=
  tr.filterMap fun
    | ⟨.spawn cmd, true⟩ => some cmd
    | _                  => none

theorem hired_append {tr tr' : Trace signature} : hired (tr ++ tr') = hired tr ++ hired tr' :=
  List.filterMap_append

theorem hired_eq_nil {tr : Trace signature} (h : ∀ x ∈ tr, ∀ cmd, x.fst ≠ .spawn cmd) :
    hired tr = [] := by
  apply List.filterMap_eq_nil_iff.mpr
  rintro ⟨c, a⟩ hx
  cases c
  case spawn cmd => exact absurd rfl <| h _ hx cmd
  all_goals rfl

-- The trace of `n` turns of the loop.
def attempts (cmd : String) (outcomes : Nat → Bool) (n : Nat) : Trace signature :=
  (List.range n).map fun i => ⟨.spawn cmd, outcomes i⟩

theorem attempts_succ {cmd : String} {outcomes : Nat → Bool} {n : Nat} :
    attempts cmd outcomes (n + 1) =
      ⟨.spawn cmd, outcomes 0⟩ :: attempts cmd (fun i => outcomes (i + 1)) n := by
  simp [attempts, List.range_succ_eq_map]

namespace ServerState

variable {s s' : ServerState} {q : Bool} {cmd : String} {keep fuel k n : Nat}
  {tr : Trace signature} {r : Except Fault ServerState} {outcomes : Nat → Bool}

def staffCount (s : ServerState) : Nat :=
  s.runningExecCount + s.pendingExecCount + s.secondPendingExecCount

theorem staffCount_eq : s.staffCount = s.runningExecCount + s.pending false + s.pending true :=
  rfl

-- How many execs must be spawned for the condition of the loop to fail.
def missing (s : ServerState) (q : Bool) (keep : Nat) : Nat :=
  min (min s.taskQueue.length s.userConfig.maxCount - s.staffCount) (keep - s.pending q)

def execsSpawned (s : ServerState) (q : Bool) (k : Nat) : ServerState :=
  if q then { s with secondPendingExecCount := s.secondPendingExecCount + k }
  else { s with pendingExecCount := s.pendingExecCount + k }

@[simp]
theorem execsSpawned_zero : s.execsSpawned q 0 = s := by
  cases q <;> rfl

theorem execSpawned_execsSpawned :
    (s.execSpawned q).execsSpawned q k = s.execsSpawned q (k + 1) := by
  cases q <;> simp [execSpawned, execsSpawned, Nat.add_assoc, Nat.add_comm 1 k]

theorem needsExec_iff : s.needsExec q keep ↔ 0 < s.missing q keep := by
  simp only [needsExec, missing, staffCount, Bool.and_eq_true, decide_eq_true_eq]
  cases q
  case false =>
    simp only [pending, Bool.not_false, Bool.false_eq_true, if_false, if_true]
    omega
  case true  =>
    simp only [pending, Bool.not_true, Bool.false_eq_true, if_false, if_true]
    omega

theorem staffCount_execsSpawned : (s.execsSpawned q k).staffCount = s.staffCount + k := by
  cases q
  case false =>
    have hc : (s.execsSpawned false k).staffCount =
        s.runningExecCount + (s.pendingExecCount + k) + s.secondPendingExecCount := rfl
    rw [hc, ← Nat.add_assoc, Nat.add_right_comm, staffCount]
  case true  => exact (Nat.add_assoc ..).symm

theorem pending_execsSpawned {q' : Bool} :
    (s.execsSpawned q' k).pending q = s.pending q + if q = q' then k else 0 := by
  cases q <;> cases q' <;> rfl

-- Execs which are started in either queue count for both.
theorem missing_execsSpawned_eq {q' : Bool} :
    (s.execsSpawned q' k).missing q keep =
      min (min s.taskQueue.length s.userConfig.maxCount - (s.staffCount + k))
        (keep - (s.pending q + if q = q' then k else 0)) := by
  rw [← staffCount_execsSpawned (q := q'), ← pending_execsSpawned]
  cases q' <;> rfl

theorem missing_execsSpawned : (s.execsSpawned q k).missing q keep = s.missing q keep - k := by
  rw [missing_execsSpawned_eq, if_pos rfl, Nat.sub_add_eq, Nat.sub_add_eq, Nat.sub_min_sub_right,
    missing]

theorem missing_execsSpawned_le {q' : Bool} :
    (s.execsSpawned q' k).missing q keep ≤ s.missing q keep := by
  rw [missing_execsSpawned_eq]
  exact min_le_min (Nat.sub_le_sub_left (Nat.le_add_right ..) _)
    (Nat.sub_le_sub_left (Nat.le_add_right ..) _)

theorem missing_execSpawned : (s.execSpawned q).missing q keep = s.missing q keep - 1 :=
  missing_execsSpawned

theorem spawnExecs_idle (h : s.missing q keep = 0) : spawnExecs q cmd keep fuel s = pure s := by
  have hn : ¬s.needsExec q keep := mt needsExec_iff.mp <| Nat.not_lt.mpr h.le
  cases fuel <;> exact if_neg hn

theorem spawnExecs_zero (h : 0 < s.missing q keep) :
    spawnExecs q cmd keep 0 s = .fail .spinning :=
  if_pos <| needsExec_iff.mpr h

theorem spawnExecs_succ (h : 0 < s.missing q keep) :
    spawnExecs q cmd keep (fuel + 1) s = spawn cmd >>= fun ok =>
      spawnExecs q cmd keep fuel (if ok then s.execSpawned q else s) := by
  refine (if_pos <| needsExec_iff.mpr h).trans <| congrArg (Program.call _) <| funext fun ok => ?_
  cases ok <;> rfl

-- A run of the loop spawns no more execs than are missing, and all of them if it returns.
structure Hires (s : ServerState) (q : Bool) (cmd : String) (keep : Nat) (tr : Trace signature)
    (r : Except Fault ServerState) (k : Nat) : Prop where
  le     : k ≤ s.missing q keep
  hired  : hired tr = List.replicate k cmd
  result : ∀ s', r = .ok s' → k = s.missing q keep ∧ s' = s.execsSpawned q k

theorem spawnExecs_runs_idle (hm : s.missing q keep = 0)
    (h : (spawnExecs q cmd keep fuel s).Runs tr r) : s.Hires q cmd keep tr r 0 := by
  have ⟨ht, hr⟩ := Runs.done_iff.mp <| spawnExecs_idle hm ▸ h
  subst ht hr
  exact ⟨Nat.zero_le _, rfl, fun s' hs => ⟨hm.symm, by simpa using hs.symm⟩⟩

theorem spawnExecs_runs (h : (spawnExecs q cmd keep fuel s).Runs tr r) :
    ∃ k, s.Hires q cmd keep tr r k := by
  induction fuel generalizing s tr with
  | zero =>
    rcases Nat.eq_zero_or_pos (s.missing q keep) with hm | hm
    case inl => exact ⟨0, spawnExecs_runs_idle hm h⟩
    case inr =>
      have ⟨ht, hr⟩ := Runs.fail_iff.mp <| spawnExecs_zero hm ▸ h
      exact ⟨0, Nat.zero_le _, ht ▸ rfl, fun s' hs => nomatch hr.symm.trans hs⟩
  | succ fuel hi =>
    rcases Nat.eq_zero_or_pos (s.missing q keep) with hm | hm
    case inl => exact ⟨0, spawnExecs_runs_idle hm h⟩
    case inr =>
      have ⟨ok, tr', ht, h⟩ := Runs.call_iff.mp <| spawnExecs_succ hm ▸ h
      have ⟨k, hk, hc, hs⟩ := hi h
      subst ht
      cases ok
      case false => exact ⟨k, hk, hc, hs⟩
      case true  =>
        simp only [if_true, missing_execSpawned, execSpawned_execsSpawned] at hk hs
        refine ⟨k + 1, by omega, ?_, fun s' hr => ⟨?_, (hs s' hr).right⟩⟩
        case refine_1 => simpa [SprayCC.hired, List.replicate_succ] using hc
        case refine_2 =>
          have hk := (hs s' hr).left
          omega

-- The loop is left after `n` turns at the latest, if the spawns have these outcomes.
def Leaves (s : ServerState) (q : Bool) (cmd : String) (keep : Nat) (outcomes : Nat → Bool)
    (n : Nat) : Prop :=
  ∃ k ≤ n, ∃ s', (spawnExecs q cmd keep n s).Runs (attempts cmd outcomes k) (.ok s')

theorem leaves_idle (hm : s.missing q keep = 0) : s.Leaves q cmd keep outcomes n :=
  ⟨0, Nat.zero_le _, s, spawnExecs_idle hm ▸ .done⟩

theorem leaves_succ (hm : 0 < s.missing q keep) :
    s.Leaves q cmd keep outcomes (n + 1) ↔
      (if outcomes 0 then s.execSpawned q else s).Leaves q cmd keep (outcomes <| · + 1) n := by
  constructor
  case mp =>
    intro ⟨k, hk, s', h⟩
    have ⟨ok, tr, ht, h⟩ := Runs.call_iff.mp <| spawnExecs_succ hm ▸ h
    cases k
    case zero => cases ht
    case succ k =>
      cases attempts_succ.symm.trans ht
      exact ⟨k, Nat.le_of_succ_le_succ hk, s', h⟩
  case mpr =>
    intro ⟨k, hk, s', h⟩
    exact ⟨k + 1, Nat.succ_le_succ hk, s', attempts_succ ▸ spawnExecs_succ hm ▸ .call h⟩

-- The loop needs as many spawns that succeed as there are execs missing.
theorem leaves_iff : s.Leaves q cmd keep outcomes n ↔ s.missing q keep ≤ n.count (outcomes ·) := by
  induction n generalizing s outcomes with
  | zero =>
    rcases Nat.eq_zero_or_pos (s.missing q keep) with hm | hm
    case inl => exact iff_of_true (leaves_idle hm) hm.le
    case inr =>
      refine iff_of_false ?_ (Nat.not_le.mpr hm)
      intro ⟨k, _, s', h⟩
      cases (Runs.fail_iff.mp <| spawnExecs_zero hm ▸ h).right
  | succ n hi =>
    rcases Nat.eq_zero_or_pos (s.missing q keep) with hm | hm
    case inl => exact iff_of_true (leaves_idle hm) (hm ▸ Nat.zero_le _)
    case inr =>
      rw [leaves_succ hm, hi, Nat.count_succ']
      cases outcomes 0
      case false => simp
      case true  => simp [missing_execSpawned]

-- How many execs `start_execs` wants to be pending in each queue.
def wanted (s : ServerState) : Nat :=
  let initNeeded := max s.userConfig.initialCount s.runningExecCount - s.runningExecCount
  let keepPending := max s.userConfig.keepPending initNeeded
  if s.secondStartCmd.isSome then (keepPending + 1) / 2 else keepPending

-- No loop of `start_execs` would be entered.
def Sized (s : ServerState) : Prop :=
  s.missing false s.wanted = 0 ∧ (s.secondStartCmd.isSome → s.missing true s.wanted = 0)

theorem missing_nil (h : s.taskQueue = []) : s.missing q keep = 0 := by
  simp [missing, h]

@[simp]
theorem wanted_execsSpawned : (s.execsSpawned q k).wanted = s.wanted := by
  cases q <;> rfl

@[simp]
theorem secondStartCmd_execsSpawned : (s.execsSpawned q k).secondStartCmd = s.secondStartCmd := by
  cases q <;> rfl

-- A run of `start_execs`, with the numbers of execs it spawns.
structure Recruits (s : ServerState) (tr : Trace signature) (r : Except Fault ServerState)
    (k₁ k₂ : Nat) : Prop where
  first  : k₁ ≤ s.missing false s.wanted
  second : k₂ ≤ (s.execsSpawned false k₁).missing true s.wanted
  hired  : hired tr = List.replicate k₁ s.startCmd ++ s.secondStartCmd.elim [] (List.replicate k₂)
  result : ∀ s', r = .ok s' → s' = (s.execsSpawned false k₁).execsSpawned true k₂ ∧ s'.Sized

theorem Recruits.idle (hq : s.taskQueue = []) : s.Recruits [] (.ok s) 0 0 := by
  refine ⟨Nat.zero_le _, Nat.zero_le _, ?_, fun s' hs => ?_⟩
  case refine_1 => cases s.secondStartCmd <;> rfl
  case refine_2 =>
    cases hs
    exact ⟨by simp, missing_nil hq, fun _ => missing_nil hq⟩

theorem startExecs_nil (hq : s.taskQueue = []) : startExecs fuel s = pure s :=
  if_pos <| List.isEmpty_iff.mpr hq

theorem startExecs_one (hc : s.secondStartCmd = none) :
    startExecs fuel s = spawnExecs false s.startCmd s.wanted fuel s := by
  have hw : s.wanted = _ := if_neg (by simp [hc])
  unfold startExecs
  split
  case isTrue hq => exact (spawnExecs_idle <| missing_nil <| List.isEmpty_iff.mp hq).symm
  case isFalse   => simp only [hc, Option.isSome_none, Bool.false_eq_true, if_false, hw]; rfl

theorem startExecs_two (hc : s.secondStartCmd = some cmd) (hq : s.taskQueue ≠ []) :
    startExecs fuel s = spawnExecs false s.startCmd s.wanted fuel s >>= fun s' =>
      startExecsInQueue fuel s' true s.wanted := by
  have hw : s.wanted = _ := if_pos (by simp [hc])
  unfold startExecs
  rw [if_neg (by simpa using hq)]
  simp only [hc, Option.isSome_some, if_true, hw]
  rfl

theorem startExecsInQueue_true (hc : s.secondStartCmd = some cmd) :
    startExecsInQueue fuel s true keep = spawnExecs true cmd keep fuel s := by
  simp [startExecsInQueue, hc]

theorem startExecs_runs (h : (startExecs fuel s).Runs tr r) : ∃ k₁ k₂, s.Recruits tr r k₁ k₂ := by
  by_cases hq : s.taskQueue = []
  case pos =>
    have ⟨ht, hr⟩ := Runs.done_iff.mp <| startExecs_nil hq ▸ h
    subst ht hr
    exact ⟨0, 0, .idle hq⟩
  case neg =>
    cases hc : s.secondStartCmd
    case none =>
      have ⟨k, h⟩ := spawnExecs_runs <| startExecs_one hc ▸ h
      refine ⟨k, 0, h.le, Nat.zero_le _, by simp [hc, h.hired], fun s' hs => ?_⟩
      have ⟨hk, hs⟩ := h.result s' hs
      subst hs
      exact ⟨execsSpawned_zero.symm, by simp [missing_execsSpawned, ← hk], by simp [hc]⟩
    case some cmd =>
      rcases Runs.bind_iff.mp <| startExecs_two hc hq ▸ h with
        ⟨e, h₁, hr⟩ | ⟨s₁, tr₁, tr₂, ht, h₁, h₂⟩
      case inl =>
        have ⟨k, h₁⟩ := spawnExecs_runs h₁
        refine ⟨k, 0, h₁.le, Nat.zero_le _, by simp [hc, h₁.hired], fun s' hs => ?_⟩
        exact nomatch hr.symm.trans hs
      case inr =>
        have ⟨k₁, h₁⟩ := spawnExecs_runs h₁
        have ⟨hk₁, hs₁⟩ := h₁.result _ rfl
        subst hs₁ ht
        have hc₁ : (s.execsSpawned false k₁).secondStartCmd = some cmd := by simp [hc]
        have ⟨k₂, h₂⟩ := spawnExecs_runs <| startExecsInQueue_true hc₁ ▸ h₂
        refine ⟨k₁, k₂, h₁.le, h₂.le, ?_, fun s' hs => ?_⟩
        case refine_1 => simp [hired_append, h₁.hired, h₂.hired, hc]
        case refine_2 =>
          have ⟨hk₂, hs⟩ := h₂.result s' hs
          subst hs
          refine ⟨rfl, ?_, fun _ => ?_⟩
          case refine_1 =>
            rw [wanted_execsSpawned, wanted_execsSpawned]
            refine Nat.eq_zero_of_le_zero <| missing_execsSpawned_le.trans ?_
            rw [missing_execsSpawned, hk₁, Nat.sub_self]
          case refine_2 =>
            rw [wanted_execsSpawned, wanted_execsSpawned, missing_execsSpawned, hk₂, Nat.sub_self]

-- Whatever the spawns return, `update` gets back to its caller.
def Returns (fuel : Nat) (s : ServerState) : Prop :=
  (update fuel s).Within (fun _ => True) (· ≠ .spinning)

theorem spawnExecs_spins (hm : 0 < s.missing q keep) :
    (spawnExecs q cmd keep fuel s).Runs (attempts cmd (fun _ => false) fuel)
      (.error .spinning) := by
  induction fuel with
  | zero         => exact spawnExecs_zero hm ▸ .fail
  | succ fuel hi => exact attempts_succ ▸ spawnExecs_succ hm ▸ .call hi

theorem Returns.spins (h : s.Returns fuel) :
    ¬(startExecs fuel s).Runs tr (.error .spinning) := by
  intro hr
  have hr : (update fuel s).Runs tr (.error .spinning) := Runs.bind_iff.mpr <| .inl ⟨_, hr, rfl⟩
  exact (h.runs hr).right _ rfl rfl

theorem Returns.sized (h : s.Returns fuel) : s.Sized := by
  by_cases hq : s.taskQueue = []
  case pos => exact ⟨missing_nil hq, fun _ => missing_nil hq⟩
  cases hc : s.secondStartCmd
  case none =>
    refine ⟨Nat.eq_zero_of_not_pos fun hm => ?_, by simp [hc]⟩
    exact h.spins <| startExecs_one hc ▸ spawnExecs_spins hm
  case some cmd =>
    have hf : s.missing false s.wanted = 0 := Nat.eq_zero_of_not_pos fun hm =>
      h.spins <| startExecs_two hc hq ▸ Runs.bind_iff.mpr (.inl ⟨_, spawnExecs_spins hm, rfl⟩)
    refine ⟨hf, fun _ => Nat.eq_zero_of_not_pos fun hm => ?_⟩
    have he : startExecs fuel s = spawnExecs true cmd s.wanted fuel s := by
      rw [startExecs_two hc hq, spawnExecs_idle hf, ← startExecsInQueue_true hc]
      rfl
    exact h.spins <| he ▸ spawnExecs_spins hm

theorem Sized.startExecs (h : s.Sized) : startExecs fuel s = pure s := by
  by_cases hq : s.taskQueue = []
  case pos => exact startExecs_nil hq
  cases hc : s.secondStartCmd
  case none     => rw [startExecs_one hc, spawnExecs_idle h.left]
  case some cmd =>
    rw [startExecs_two hc hq, spawnExecs_idle h.left]
    exact (startExecsInQueue_true hc).trans <| spawnExecs_idle <| h.right <| by simp [hc]

-- The rest of `update` neither starts processes nor spins.
abbrev Calm {α : Type} (p : Proc α) : Prop :=
  p.Within (fun c : Call => ∀ cmd, c ≠ .spawn cmd) (· ≠ .spinning)

theorem sendOrErr_calm {about dest : Nat} {msg : Message} : Calm (sendOrErr about dest msg) :=
  ⟨nofun, fun ok => by cases ok <;> [exact nofun; trivial]⟩

theorem checkedSub_calm {m : Nat} {panic : Panic} : Calm (checkedSub m n panic) := by
  unfold checkedSub
  split
  case isTrue  => trivial
  case isFalse => exact nofun

theorem assignTask_calm {clientId execId : Nat} {task : TaskDetails} :
    Calm (s.assignTask clientId execId task) := by
  rcases s.assignTask_cases with ⟨_, h⟩ | h <;> rw [h]
  case inl => exact nofun
  case inr => exact sendOrErr_calm.bind fun _ => trivial

theorem assignTasks_calm {queue : List Nat} : Calm (assignTasks queue s) := by
  induction queue generalizing s with
  | nil => trivial
  | cons execId rest hi =>
    rw [assignTasks_cons]
    split
    case isTrue  => trivial
    case isFalse => exact ⟨nofun, fun j => .of_get nofun fun _ => assignTask_calm.bind fun _ => hi⟩

theorem releaseExecs_calm {queue : List Nat} : Calm (releaseExecs queue s) := by
  induction queue generalizing s with
  | nil => trivial
  | cons execId rest hi =>
    apply Within.of_get nofun
    intro _
    exact sendOrErr_calm.bind fun _ => checkedSub_calm.bind fun _ => hi

theorem okToRelease_calm : Calm s.okToRelease := by
  unfold okToRelease
  split
  case h_1 => exact ⟨nofun, fun _ => trivial⟩
  case h_2 => trivial

theorem checkQueues_calm : Calm s.checkQueues := by
  refine assignTasks_calm.bind fun s => okToRelease_calm.bind fun ok => ?_
  split
  case isTrue  => exact releaseExecs_calm
  case isFalse => trivial

theorem returns_iff : s.Returns fuel ↔ s.Sized where
  mp      := Returns.sized
  mpr h   := by
    unfold Returns update
    rw [h.startExecs]
    exact checkQueues_calm.mono fun _ _ => trivial

theorem hired_update (h : (update fuel s).Runs tr r) :
    ∃ k₁ ≤ s.missing false s.wanted, ∃ k₂ ≤ s.missing true s.wanted,
      hired tr = List.replicate k₁ s.startCmd ++ s.secondStartCmd.elim [] (List.replicate k₂) := by
  rcases Runs.bind_iff.mp h with ⟨_, h₁, _⟩ | ⟨_, tr₁, tr₂, ht, h₁, h₂⟩
  case inl =>
    have ⟨k₁, k₂, h₁⟩ := startExecs_runs h₁
    exact ⟨k₁, h₁.first, k₂, h₁.second.trans missing_execsSpawned_le, h₁.hired⟩
  case inr =>
    have ⟨k₁, k₂, h₁⟩ := startExecs_runs h₁
    have h₂ : hired tr₂ = [] := hired_eq_nil (checkQueues_calm.runs h₂).left
    refine ⟨k₁, h₁.first, k₂, h₁.second.trans missing_execsSpawned_le, ?_⟩
    rw [ht, hired_append, h₂, List.append_nil, h₁.hired]

-- The loop comes to an end whatever the spawns return just if it is not entered, and else just if
-- enough of them succeed. So `update` is stuck if no process can be started.
theorem leaves_always_iff (s : ServerState) (q : Bool) (cmd : String) (keep : Nat) :
    ((∃ bound, ∀ outcomes, s.Leaves q cmd keep outcomes bound) ↔ ¬s.needsExec q keep) ∧
      (∀ outcomes, (∃ n, s.Leaves q cmd keep outcomes n) ↔
        ∃ n : Nat, s.missing q keep ≤ n.count (outcomes ·)) ∧
      ((∃ fuel, s.Returns fuel) ↔ s.Sized) := by
  refine ⟨?_, fun outcomes => exists_congr fun n => leaves_iff, ?_⟩
  case refine_1 =>
    simp only [leaves_iff, needsExec_iff, Nat.not_lt, Nat.le_zero]
    constructor
    case mp  =>
      intro ⟨bound, h⟩
      simpa using h fun _ => false
    case mpr => exact fun h => ⟨0, fun _ => h.le⟩
  case refine_2 => simp only [returns_iff, exists_const]

-- The first task has been submitted, and no process can be started.
theorem not_leaves_queued :
    ¬∃ bound, ∀ outcomes,
      ((start .default 0 "spraycc" none .default 0).addRemote.queueTask 0
        ⟨"/", "true", [], [], ∅, false⟩ (secs 1) 0).Leaves false "spraycc" 5 outcomes bound := by
  intro ⟨bound, h⟩
  have h := leaves_iff.mp <| h fun _ => false
  simp only [Bool.false_eq_true, Nat.count_false] at h
  exact absurd h (by decide)

end ServerState
end SprayCC
