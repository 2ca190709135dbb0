import SprayCC.Cluster.Theorems.Scheduling
import SprayCC.Cluster.Theorems.Staffing
import SprayCC.Server.Spawning

open Async Program

-- Whether there are enough execs for the queue, running or on their way, and which are spawned when
-- one of them phones home.

namespace SprayCC

-- Sends and spawns succeed, and the first entry of a queue is picked.
def obliging : (c : Call) → c.Answer
  | .send .. | .spawn _ => true
  | .now     | .pick _  => 0

namespace ServerState

variable {s s' : ServerState} {fuel connId : Nat} {q : Bool} {msg : Message} {ev : Event}

theorem Sized.fewer (h : s.Sized) (hs : s'.staff = s.staff)
    (hl : s'.taskQueue.length ≤ s.taskQueue.length) : s'.Sized := by
  simp only [staff, Prod.mk.injEq] at hs
  obtain ⟨hr, hp, hp', hc, _, hq⟩ := hs
  have hw : s'.wanted = s.wanted := by simp only [wanted, hr, hc, hq]
  have hm (q : Bool) : s'.missing q s'.wanted ≤ s.missing q s.wanted := by
    simp only [missing, staffCount, pending, hr, hp, hp', hc, hw]
    omega
  refine ⟨Nat.eq_zero_of_le_zero <| (hm false).trans_eq h.left, fun hs => ?_⟩
  exact Nat.eq_zero_of_le_zero <| (hm true).trans_eq <| h.right <| hq ▸ hs

theorem Sized.frame (h : s.Sized) (hs : s'.staff = s.staff) (hq : s'.taskQueue = s.taskQueue) :
    s'.Sized :=
  h.fewer hs <| congrArg List.length hq |>.le

-- The execs are as before, and no task has been added.
abbrev KeepsStaff (s : ServerState) (p : Proc ServerState) : Prop :=
  p.Always (fun s' => s'.staff = s.staff ∧ s'.taskQueue.length ≤ s.taskQueue.length) fun _ => True

theorem KeepsStaff.of_onlyRemotes {p : Proc ServerState} (hp : s.OnlyRemotes p) :
    s.KeepsStaff p := by
  refine hp.mono (fun s' hs => ?_) fun _ => id
  obtain ⟨_, rfl⟩ := hs
  exact ⟨rfl, le_rfl⟩

theorem assignTasks_keepsStaff {queue : List Nat} : s.KeepsStaff (assignTasks queue s) := by
  induction queue generalizing s with
  | nil => exact ⟨rfl, le_rfl⟩
  | cons execId rest hi =>
    rw [assignTasks_cons]
    split
    case isTrue  => exact ⟨rfl, le_rfl⟩
    case isFalse =>
      intro j
      apply Always.of_get fun _ => trivial
      intro _ _
      apply always_bind.mpr
      apply (KeepsStaff.of_onlyRemotes assignTask_onlyRemotes).mono _ fun _ => id
      intro s₁ ⟨hs₁, hl₁⟩
      apply hi.mono _ fun _ => id
      intro s₂ ⟨hs₂, hl₂⟩
      exact ⟨hs₂.trans hs₁, hl₂.trans <| hl₁.trans <| List.length_eraseIdx_le ..⟩

-- Execs are only released if no task is left.
theorem checkQueues_always :
    s.checkQueues.Always (fun s' => s'.taskQueue = [] ∨
      s'.staff = s.staff ∧ s'.taskQueue.length ≤ s.taskQueue.length) fun _ => True := by
  apply always_bind.mpr
  apply ((assignTasks_balances rfl).and assignTasks_keepsStaff).mono _ fun _ _ => trivial
  intro s' ⟨hb, hs⟩
  apply always_bind.mpr
  apply always_true.mono _ fun _ => id
  intro ok _
  split
  case isFalse => exact .inr hs
  case isTrue  =>
    rcases hb with hq | he
    case inl => exact (releaseExecs_idle hq).mono (fun _ => .inl) fun _ => id
    case inr => exact he ▸ .inr hs

theorem startExecs_always :
    (startExecs fuel s).Always (fun s' => s'.Sized ∧ s'.userConfig = s.userConfig)
      fun _ => True := by
  apply Always.of_runs
  intro tr s' h
  have ⟨k₁, k₂, h⟩ := startExecs_runs h
  have ⟨hs, hz⟩ := h.result s' rfl
  exact ⟨hz, hs ▸ rfl⟩

theorem update_always :
    (update fuel s).Always (fun s' => s'.Sized ∧
      (s'.taskQueue ≠ [] → s'.userConfig = s.userConfig)) fun _ => True := by
  apply always_bind.mpr
  apply startExecs_always.mono _ fun _ => id
  intro s₁ ⟨hz, hc⟩
  apply checkQueues_always.mono _ fun _ => id
  rintro s₂ (hq | ⟨hs, hl⟩)
  case inl => exact ⟨⟨missing_nil hq, fun _ => missing_nil hq⟩, fun hn => absurd hq hn⟩
  case inr =>
    refine ⟨hz.fewer hs hl, fun _ => ?_⟩
    simp only [staff, Prod.mk.injEq] at hs
    exact hs.right.right.right.left.trans hc

-- No task is left waiting with no exec which might take it.
theorem update_leaves_exec {tr : Trace signature} (hm : 1 ≤ s.userConfig.maxCount)
    (hk : 1 ≤ s.userConfig.keepPending ∨ 1 ≤ s.userConfig.initialCount)
    (h : (update fuel s).Runs tr (.ok s')) (hq : s'.taskQueue ≠ []) :
    1 ≤ s'.runningExecCount + s'.pendingExecCount + s'.secondPendingExecCount := by
  have ⟨hz, hc⟩ := update_always.runs h
  have hc := hc hq
  have hl := List.length_pos_iff.mpr hq
  by_contra hn
  have hr : s'.runningExecCount = 0 := by omega
  have hw : 1 ≤ s'.wanted := by
    simp only [wanted, hc, hr]
    split <;> omega
  have hz := hz.left
  simp only [missing, staffCount, pending, hc, Bool.false_eq_true, if_false] at hz
  omega

theorem update_leaves_exec_queued :
    ∃ tr s',
      (update 5 <| (Setup.plain.server.addRemote.queueTask 0 .plain (secs 1) 0)).Runs tr (.ok s') ∧
        s'.taskQueue ≠ [] ∧
          1 ≤ s'.runningExecCount + s'.pendingExecCount + s'.secondPendingExecCount := by
  have ⟨tr, s', h, hq⟩ := exists_runs_of_play (f := obliging) (g := (!·.taskQueue.isEmpty))
    (p := update 5 <| Setup.plain.server.addRemote.queueTask 0 .plain (secs 1) 0)
    (by decide +kernel)
  have hq : s'.taskQueue ≠ [] := by simpa using hq
  exact ⟨tr, s', h, hq, update_leaves_exec (by decide) (.inl (by decide)) h hq⟩

theorem pending_execStarted {q' : Bool} :
    (s.execStarted q).pending q' = s.pending q' - if q' = q then 1 else 0 := by
  unfold execStarted
  cases q <;> cases q' <;> simp [pending] <;> split <;> dsimp only <;> omega

theorem wanted_execStarted : (s.execStarted q).wanted ≤ s.wanted := by
  simp only [wanted, userConfig_execStarted, secondStartCmd_execStarted, running_execStarted]
  split <;> omega

-- When an exec from queue `q` has phoned home, at most one is missing, and this in queue `q`.
theorem Sized.missing_execStarted (h : s.Sized) (hc : s.secondStartCmd.isSome) (q' : Bool) :
    (s.execStarted q).missing q' (s.execStarted q).wanted ≤ if q' = q then 1 else 0 := by
  have hw := wanted_execStarted (s := s) (q := q)
  have hf := h.left
  have ht := h.right hc
  simp only [missing, staffCount_eq, pending_execStarted, taskQueue_execStarted,
    userConfig_execStarted, running_execStarted] at hf ht ⊢
  cases q <;> cases q' <;> simp <;> omega

-- The processes which are started when an exec from queue `q` has phoned home.
theorem Sized.hired_remoteIsExec {cmd : String} {tr : Trace signature}
    {r : Except Fault ServerState} (h : s.Sized) (hc : s.secondStartCmd = some cmd)
    (hr : (remoteIsExec fuel s connId q).Runs tr r) :
    hired tr = [] ∨ hired tr = [if q then cmd else s.startCmd] := by
  rcases hr.get_cases with ⟨ht, _⟩ | ⟨_, _, hr⟩
  case inl => exact .inl <| ht ▸ rfl
  rcases hr.get_cases with ⟨ht, _⟩ | ⟨_, _, hr⟩
  case inl => exact .inl <| ht ▸ rfl
  have ⟨k₁, h₁, k₂, h₂, ht⟩ := hired_update hr
  have hm := missing_execStarted (s := s.setConnType connId .exec) (q := q)
    (h.frame rfl rfl) (Option.isSome_iff_exists.mpr ⟨cmd, hc⟩)
  have h₁ := h₁.trans (hm false)
  have h₂ := h₂.trans (hm true)
  have hs : (((s.setConnType connId .exec).execStarted q).makeReady connId).startCmd = s.startCmd :=
    startCmd_execStarted
  have hc : (((s.setConnType connId .exec).execStarted q).makeReady connId).secondStartCmd =
      some cmd := secondStartCmd_execStarted.trans hc
  rw [hs, hc] at ht
  cases q
  case false =>
    have h₂ : k₂ = 0 := Nat.eq_zero_of_le_zero h₂
    rcases Nat.le_one_iff_eq_zero_or_eq_one.mp h₁ with h₁ | h₁
    case inl => exact .inl <| by simp [ht, h₁, h₂]
    case inr => exact .inr <| by simp [ht, h₁, h₂]
  case true =>
    have h₁ : k₁ = 0 := Nat.eq_zero_of_le_zero h₁
    rcases Nat.le_one_iff_eq_zero_or_eq_one.mp h₂ with h₂ | h₂
    case inl => exact .inl <| by simp [ht, h₁, h₂]
    case inr => exact .inr <| by simp [ht, h₁, h₂]

end ServerState

open ServerState

-- Whether no exec has been dropped since the last update, after the event.
def Event.steady (s : ServerState) (b : Bool) : Event → Bool
  | inbound connId .dropped       => b && s.kind connId ≠ .exec
  | inbound _      (.taskOutput ..) => b
  | _                             => true

namespace Cluster

def steady (σ : Cluster) (b : Bool) : Label → Bool
  | .recv _ =>
    match σ.main, σ.net.inbound with
    | .select s, (i, msg) :: _ => (Event.inbound i msg).steady s b
    | _, _                     => b
  | .tick _ => true
  | _       => b

-- The runs, with whether no exec has been dropped since the last update.
inductive Steady (S : Setup) : Cluster → Bool → Prop
  | start : Steady S (start S) true
  | step  : Steady S σ b → σ.step S l = some σ' → Steady S σ' (σ.steady b l)

end Cluster

variable {s : ServerState} {fuel connId : Nat} {msg : Message} {ev : Event} {b : Bool}

-- Whatever a program is answered, it comes to a server whose number of execs is as it should be.
abbrev Sizes (p : Proc ServerState) : Prop :=
  p.Always Sized fun _ => True

theorem update_sizes : Sizes (update fuel s) :=
  update_always.mono (fun _ => And.left) fun _ => id

theorem execIsReady_sizes : Sizes (execIsReady fuel s connId) :=
  .of_get (fun _ => trivial) fun _ _ => update_sizes

theorem taskIsDone_sizes {runTime sendTime : Duration} :
    Sizes (taskIsDone fuel s connId msg runTime sendTime) := by
  apply always_bind.mpr
  apply always_true.mono _ fun _ => id
  intro s' _
  apply always_bind.mpr
  exact execIsReady_sizes.mono (fun _ h => h.frame rfl rfl) fun _ => id

theorem handleDropped_sizes (h : s.Sized) (hk : s.kind connId ≠ .exec) :
    Sizes (s.handleDropped connId) := by
  apply Always.of_get fun _ => trivial
  intro remote hr
  rw [if_neg <| kindOf_eq hr ▸ hk]
  exact h.frame rfl rfl

theorem handleMsg_sizes (h : b → s.Sized) (hb : Event.steady s b (.inbound connId msg)) :
    Sizes (handleMsg fuel s connId msg) := by
  cases msg
  case yourObedientServant => exact .of_get (fun _ => trivial) fun _ _ => execIsReady_sizes
  case task =>
    apply Always.of_get fun _ => trivial
    intro targetId _
    apply Always.of_get fun _ => trivial
    intro _ _ now
    exact update_sizes
  case taskOutput _ content =>
    exact KeepsStaff.of_onlyRemotes sendToPairedRemote_onlyRemotes |>.mono
      (fun _ ⟨hs, hl⟩ => (h hb).fewer hs hl) fun _ => id
  case taskFailed =>
    apply always_bind.mpr
    exact always_true.mono (fun _ _ => execIsReady_sizes) fun _ => id
  case taskDone =>
    rw [handleMsg_taskDone]
    split
    case isTrue  => exact fun _ => taskIsDone_sizes
    case isFalse => exact taskIsDone_sizes
  case cancelTask => trivial
  case pissOff    => trivial
  case dropped    =>
    have ⟨hb, hk⟩ := Bool.and_eq_true_iff.mp hb
    exact handleDropped_sizes (h hb) (of_decide_eq_true hk)

theorem onEvent_sizes (h : b → s.Sized) (hb : ev.steady s b) : Sizes (onEvent fuel s ev) := by
  cases ev
  case inbound =>
    apply always_bind.mpr
    exact (handleMsg_sizes h hb).mono (fun _ h _ => h.frame rfl rfl) fun _ => id
  case watchdog =>
    apply always_bind.mpr
    apply update_sizes.mono _ fun _ => id
    intro s h
    apply always_bind.mpr
    exact always_true.mono (fun _ _ => h.frame rfl rfl) fun _ => id

namespace Cluster

variable {S : Setup} {σ σ' : Cluster} {l : Label}

def Sized (σ : Cluster) : Prop :=
  match σ.main with
  | .select s | .checking s | .shutdown s => s.Sized
  | .running _ _ _ p                      => Sizes p
  | .faulted _                            => True

theorem Turn.sized (t : σ.Turn S l σ') (h : b → σ.Sized) (hb : σ.steady b l) : σ'.Sized := by
  cases t
  case accept             => exact (h hb).frame rfl rfl
  case wait | done | act  => exact h hb
  case recv hi            => exact onEvent_sizes h (by simpa [steady, hi] using hb)
  case tick               => exact onEvent_sizes (b := false) nofun rfl
  case answer c _ _ _     => exact h (by cases c <;> exact hb) _
  case fail               => trivial
  case check s _ now      =>
    cases ho : s.okToShutdown now <;> simpa [Sized, ho] using h hb

theorem Steady.sized (h : Steady S σ b) (hb : b) : σ.Sized := by
  induction h with
  | start          => exact ⟨missing_nil rfl, fun _ => missing_nil rfl⟩
  | step _ hs hi   => exact (turn_of_step hs).sized hi hb

theorem Sized.resting (h : σ.Sized) (hs : σ.main.resting = some s) : s.Sized := by
  unfold Sized at h
  split at h <;> simp_all [Main.resting]

-- An exec which phones home is replaced by at most one, which is started in the same queue.
theorem Steady.replaces_exec {cmd : String} {q : Bool} {tr : Trace signature}
    {r : Except Fault ServerState} (h : Steady S σ true) (hs : σ.main.resting = some s)
    (hc : s.secondStartCmd = some cmd) (hr : (remoteIsExec fuel s connId q).Runs tr r) :
    hired tr = [] ∨ hired tr = [if q then cmd else s.startCmd] :=
  ((h.sized rfl).resting hs).hired_remoteIsExec hc hr

def steadily (S : Setup) : List Label → Cluster × Bool → Option (Cluster × Bool)
  | [],      c      => some c
  | l :: ls, (σ, b) => (σ.step S l).bind fun σ' => steadily S ls (σ', σ.steady b l)

theorem Steady.run {ls : List Label} {c : Cluster × Bool} (h : Steady S σ b)
    (hr : steadily S ls (σ, b) = some c) : Steady S c.fst c.snd := by
  induction ls generalizing σ b with
  | nil => cases hr; exact h
  | cons l ls hi =>
    have ⟨_, hs, hr⟩ := Option.bind_eq_some_iff.mp hr
    exact hi (h.step hs) hr

theorem Steady.of_run {f : ServerState → Bool} (ls : List Label)
    (h : (steadily S ls (Cluster.start S, true)).any fun (σ, b) => b && σ.main.resting.any f) :
    ∃ σ s, Steady S σ true ∧ σ.main.resting = some s ∧ f s := by
  have ⟨⟨σ, b⟩, hr, h⟩ := Option.any_eq_true .. |>.mp h
  have ⟨hb, h⟩ := Bool.and_eq_true_iff.mp h
  have ⟨s, hs, h⟩ := Option.any_eq_true .. |>.mp h
  exact ⟨σ, s, hb ▸ Steady.start.run hr, hs, h⟩

-- A server with two queues in each of which one exec is to be pending.
def onePending : Setup :=
  { twoQueues with
    config := { ExecConfig.default with initialCount := 1, keepPending := 2 } }

-- Three tasks are submitted, for which an exec is started in each queue, and one of them connects.
def await : List Label :=
  [.accept (.client .plain false), .check 0, .act (.speaks 0 (twoQueues.codes.submission .plain)),
    .recv 5, .clock 0, .spawned true, .clock 0, .clock 0, .finish, .check 0,
    .accept (.client .plain false), .check 0, .act (.speaks 1 (twoQueues.codes.submission .plain)),
    .recv 5, .clock 0, .spawned true, .clock 0, .clock 0, .finish, .check 0,
    .accept (.client .plain false), .check 0, .act (.speaks 2 (twoQueues.codes.submission .plain)),
    .recv 5, .clock 0, .clock 0, .clock 0, .finish, .check 0,
    .accept (.exec true .fresh 0), .check 0]

theorem replaces_exec_await :
    ∃ σ s cmd tr r, Steady onePending σ true ∧ σ.main.resting = some s ∧
      s.secondStartCmd = some cmd ∧ (remoteIsExec 5 s 3 true).Runs tr r ∧ hired tr = [cmd] ∧
      (hired tr = [] ∨ hired tr = [if true then cmd else s.startCmd]) := by
  have ⟨σ, s, h, hs, hr⟩ := Steady.of_run (S := onePending)
    (f := fun s => s.secondStartCmd = onePending.secondStartCmd ∧
      hired ((remoteIsExec 5 s 3 true).play obliging).fst = onePending.secondStartCmd.toList)
    await (by decide +kernel)
  have ⟨hc, hh⟩ := of_decide_eq_true hr
  exact ⟨σ, s, _, _, _, h, hs, hc, runs_play, hh, h.replaces_exec hs hc runs_play⟩

end Cluster
end SprayCC
