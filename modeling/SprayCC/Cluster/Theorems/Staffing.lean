import SprayCC.Cluster.Turns
import SprayCC.Server.Staff

open Async

-- How many execs there are, and how many of them are on their way.

namespace SprayCC

theorem getLast?_toString (n : Nat) :
    (toString n).toList.getLast? = some (Nat.digitChar (n % 10)) := by
  rw [show (toString n).toList = Nat.toDigits 10 n from Nat.toList_repr]
  rw [Nat.toDigits_eq_if (by decide)]
  split
  case isTrue h  => rw [Nat.mod_eq_of_lt h]; rfl
  case isFalse h => exact List.getLast?_concat

theorem getLast?_execCmd {cmd addr : String} {accessCode : UInt64} :
    (ServerState.execCmd cmd addr accessCode).toList.getLast? =
      some (Nat.digitChar (accessCode.toNat % 10)) := by
  have hl : (toString accessCode).toList.getLast? = _ := getLast?_toString accessCode.toNat
  unfold ServerState.execCmd
  simp only [String.toList_append]
  rw [List.getLast?_append, hl]
  rfl

-- The start commands of the two queues differ in whether the code at their end is odd.
theorem execCmd_ne {cmd cmd' addr : String} {accessCode : UInt64} (he : accessCode &&& 1 = 0) :
    ServerState.execCmd cmd addr accessCode ≠ ServerState.execCmd cmd' addr (accessCode + 1) := by
  intro h
  have h := congrArg (fun s : String => s.toList.getLast?) h
  simp only [getLast?_execCmd, Option.some.injEq] at h
  have hd : ∀ m < 10, ∀ n < 10, Nat.digitChar m = Nat.digitChar n → m = n := by decide
  have h := hd _ (Nat.mod_lt _ (by decide)) _ (Nat.mod_lt _ (by decide)) h
  have he := congrArg UInt64.toNat he
  have hl := accessCode.toNat_lt
  simp only [UInt64.toNat_and, UInt64.toNat_one, Nat.and_one_is_mod, UInt64.toNat_zero] at he
  simp only [UInt64.toNat_add, UInt64.toNat_one] at h
  omega

-- The server is one which `new` makes.
def Setup.Made (S : Setup) : Prop :=
  ∃ addr maxCpus altStartCmd bothQueues config,
    ServerState.new ⟨addr, S.codes.accessCode⟩ S.codes.userCode maxCpus altStartCmd
      bothQueues config
      S.priorHistory S.startTime = .ok S.server

-- The processes which have been spawned for each queue, and the hellos of execs from it which the
-- server has received, or which a connection has read and rejected.
@[ext]
structure Tally where
  spawned    : Bool → Nat
  registered : Bool → Nat
  refused    : Bool → Nat

namespace Tally

def start : Tally where
  spawned _    := 0
  registered _ := 0
  refused _    := 0

def after (S : Setup) (t : Tally) (σ : Cluster) : Label → Tally
  | .spawned true =>
    match σ.main with
    | .running _ _ _ (.call (.spawn cmd) _) =>
      { t with spawned := bump t.spawned (S.secondStartCmd = some cmd) }
    | _ => t
  | .recv _ =>
    match σ.main, σ.net.inbound with
    | .select _, (_, msg) :: _ => { t with registered := registering t.registered msg }
    | _, _                     => t
  | .act (.speaks _ msg) =>
    if S.codes.drops msg then { t with refused := registering t.refused msg } else t
  | _ => t

-- The processes which have not said hello yet.
def silent (t : Tally) (q : Bool) : Nat :=
  t.spawned q - (t.registered q + t.refused q)

-- Every exec which is registered has been spawned for its queue, and is registered once.
def Registers (t : Tally) : Prop :=
  ∀ q, t.registered q ≤ t.spawned q

-- Every exec which says hello has been spawned for its queue, and says it once.
def Greets (t : Tally) : Prop :=
  ∀ q, t.registered q + t.refused q ≤ t.spawned q

instance : DecidablePred Registers :=
  fun _ => inferInstanceAs <| Decidable (∀ _, _ ≤ _)

instance : DecidablePred Greets :=
  fun _ => inferInstanceAs <| Decidable (∀ _, _ ≤ _)

theorem Greets.registers {t : Tally} (h : t.Greets) : t.Registers :=
  fun q => (Nat.le_add_right ..).trans (h q)

-- The connections do not register anything.
theorem after_act {S : Setup} {σ : Cluster} {a : Act} (t : Tally) :
    (t.after S σ (.act a)).spawned = t.spawned ∧
      (t.after S σ (.act a)).registered = t.registered := by
  cases a
  case speaks =>
    unfold after
    dsimp only
    split <;> exact ⟨rfl, rfl⟩
  all_goals exact ⟨rfl, rfl⟩

end Tally

namespace Cluster

-- The runs in which the tally is as in `C` all the time.
inductive Tallied (S : Setup) (C : Tally → Prop) : Cluster → Tally → Prop
  | start : Tallied S C (start S) .start
  | step  : Tallied S C σ t → σ.step S l = some σ' → C (t.after S σ l) →
    Tallied S C σ' (t.after S σ l)

-- The server counts its execs as in the tally, or the main loop is on its way to such a state.
def Staffed (S : Setup) (σ : Cluster) (t : Tally) : Prop :=
  match σ.main with
  | .select s | .checking s | .shutdown s => s.Staffed S.secondStartCmd t.spawned t.registered
  | .running _ _ _ p                      =>
      ServerState.Staffs S.secondStartCmd t.registered p t.spawned
  | .faulted _                            => True

variable {S : Setup} {C : Tally → Prop} {σ σ' : Cluster} {l : Label} {t : Tally}
  {s : ServerState} {q : Bool}

theorem Turn.staffed (h : σ.Turn S l σ') (hs : Staffed S σ t) (hr : (t.after S σ l).Registers) :
    Staffed S σ' (t.after S σ l) := by
  cases h
  case accept     => exact ServerState.Staffed.frame hs rfl
  case tick =>
    show ServerState.Staffs _ (Event.watchdog.registering t.registered) _ _
    exact onEvent_staffs hs hr
  case wait       => exact hs
  case done       => exact hs
  case fail       => trivial
  case recv i msg _ _ _ _ hi =>
    simp only [Tally.after, hi] at hr ⊢
    show ServerState.Staffs _ (Event.registering t.registered (.inbound i msg)) _ _
    exact onEvent_staffs hs hr
  case answer c k a ha =>
    have hs (n' : Bool → Nat) (hn : (spawning S.secondStartCmd).answers t.spawned c a n') :
        ServerState.Staffs S.secondStartCmd t.registered (k a) n' := Program.Safe.answered hs hn
    cases c
    case spawn cmd =>
      cases a
      case true  => exact hs _ rfl
      case false => exact hs _ rfl
    all_goals exact hs _ rfl
  case check s _ now =>
    cases ho : s.okToShutdown now <;> simpa [Staffed, Tally.after, ho] using hs
  case act =>
    unfold Staffed at hs ⊢
    rw [t.after_act.left, t.after_act.right]
    exact hs

theorem start_staffed (h : S.Made) : Staffed S (start S) .start := by
  have ⟨addr, maxCpus, altStartCmd, bothQueues, config, h⟩ := h
  simp only [ServerState.new, S.codes.even, ne_eq, not_true_eq_false, if_false,
    Except.ok.injEq] at h
  have hc := congrArg ServerState.startCmd h
  have hs := congrArg ServerState.secondStartCmd h
  refine ⟨fun q => by cases q <;> rfl, Nat.zero_le _, fun he => ?_, rfl⟩
  rw [← hc, ← hs] at he
  have ⟨_, _, he⟩ := Option.map_eq_some_iff.mp he.symm
  exact execCmd_ne S.codes.even he.symm

theorem Tallied.tally (h : Tallied S C σ t) (hC : C .start) : C t := by
  cases h
  case start      => exact hC
  case step hc _  => exact hc

theorem Tallied.staffed (h : Tallied S C σ t) (hm : S.Made) (hC : ∀ t, C t → t.Registers) :
    Staffed S σ t := by
  induction h with
  | start           => exact start_staffed hm
  | step _ hs hc hi => exact (turn_of_step hs).staffed hi <| hC _ hc

theorem Staffed.resting (h : Staffed S σ t) (hs : σ.main.resting = some s) :
    s.Staffed S.secondStartCmd t.spawned t.registered := by
  unfold Staffed at h
  split at h <;> simp_all [Main.resting]

-- There are never more execs running or on their way than the configuration allows.
theorem Tallied.count_le_maxCount (h : Tallied S Tally.Registers σ t) (hm : S.Made)
    (hs : σ.main.resting = some s) :
    s.runningExecCount + s.pendingExecCount + s.secondPendingExecCount ≤ s.userConfig.maxCount :=
  ((h.staffed hm fun _ => id).resting hs).capped

-- What a run leads to can be found out by evaluation.

def tallied (S : Setup) (C : Tally → Prop) [DecidablePred C] :
    List Label → Cluster × Tally → Option (Cluster × Tally)
  | [],      c      => some c
  | l :: ls, (σ, t) =>
    if C (t.after S σ l) then (σ.step S l).bind fun σ' =>
      tallied S C ls (σ', t.after S σ l) else none

theorem Tallied.run [DecidablePred C] {ls : List Label} {c : Cluster × Tally} (h : Tallied S C σ t)
    (hr : tallied S C ls (σ, t) = some c) : Tallied S C c.fst c.snd := by
  induction ls generalizing σ t with
  | nil => cases hr; exact h
  | cons l ls hi =>
    have ⟨hc, hr⟩ := Option.ite_none_right_eq_some.mp hr
    have ⟨_, hs, hr⟩ := Option.bind_eq_some_iff.mp hr
    exact hi (h.step hs hc) hr

theorem Tallied.of_run [DecidablePred C] {f : ServerState → Tally → Bool} (ls : List Label)
    (h : (tallied S C ls (Cluster.start S, .start)).any fun (σ, t) => σ.main.resting.any (f · t)) :
    ∃ σ t s, Tallied S C σ t ∧ σ.main.resting = some s ∧ f s t := by
  have ⟨⟨σ, t⟩, hr, h⟩ := Option.any_eq_true .. |>.mp h
  have ⟨s, hs, h⟩ := Option.any_eq_true .. |>.mp h
  exact ⟨σ, t, s, Tallied.start.run hr, hs, h⟩

-- A server with two queues.
def twoQueues : Setup :=
  { Setup.plain with
    config         := { ExecConfig.default with altStartCmd := some "qsub" }
    startCmd       := ServerState.execCmd "spraycc" "farm:1" 2
    secondStartCmd := some (ServerState.execCmd "qsub" "farm:1" 3) }

theorem made_twoQueues : twoQueues.Made :=
  ⟨"farm:1", none, false, true, { ExecConfig.default with altStartCmd := some "qsub" }, rfl⟩

-- A task is submitted, for which an exec is started in the first queue.
def hire : List Label :=
  [.accept (.client .plain false), .check 0, .act (.speaks 0 (twoQueues.codes.submission .plain)),
    .recv 5, .clock 0, .spawned true, .clock 0, .clock 0, .finish, .check 0]

-- The exec says hello, and is given the task.
def arrive : List Label :=
  [.accept (.exec false .fresh 0), .check 0, .act (.speaks 1 (twoQueues.codes.hello false)),
    .recv 5, .picked 0, .send, .clock 0, .clock 0, .finish, .check 0]

-- The exec has read another user code.
def misread : List Label :=
  [.accept (.rogue []), .check 0, .act (.speaks 1 (.yourObedientServant 2 7)), .recv 5, .clock 0,
    .finish, .check 0]

theorem count_le_maxCount_hire :
    ∃ σ t s, Tallied twoQueues Tally.Registers σ t ∧ σ.main.resting = some s ∧
      s.runningExecCount = 1 ∧
      s.runningExecCount + s.pendingExecCount + s.secondPendingExecCount ≤ s.userConfig.maxCount :=
  have ⟨σ, t, s, h, hs, hr⟩ :=
    Tallied.of_run (f := fun s _ => s.runningExecCount = 1) (hire ++ arrive)
    (by decide +kernel)
  ⟨σ, t, s, h, hs, of_decide_eq_true hr, h.count_le_maxCount made_twoQueues hs⟩

-- The pending counters mean what they say just if no hello has been rejected.
theorem Tallied.pending_iff (h : Tallied S Tally.Greets σ t) (hm : S.Made)
    (hs : σ.main.resting = some s) : s.pending q = t.silent q ↔ t.refused q = 0 := by
  have hp := ((h.staffed hm fun _ => Tally.Greets.registers).resting hs).pending q
  have hg := h.tally (fun _ => le_rfl) q
  unfold Tally.silent
  omega

theorem pending_hire :
    ∃ σ t s, Tallied twoQueues Tally.Greets σ t ∧ σ.main.resting = some s ∧ s.pendingExecCount = 1 ∧
      (s.pending false = t.silent false ↔ t.refused false = 0) :=
  have ⟨σ, t, s, h, hs, hr⟩ := Tallied.of_run (f := fun s _ => s.pendingExecCount = 1) hire
    (by decide +kernel)
  ⟨σ, t, s, h, hs, of_decide_eq_true hr, h.pending_iff made_twoQueues hs⟩

-- An exec which was rejected stays pending.
theorem rejected_pending :
    ¬∀ S σ t s q, Tallied S Tally.Greets σ t → S.Made → σ.main.resting = some s →
      s.pending q = t.silent q := by
  intro h
  have ⟨σ, t, s, ht, hs, hr⟩ := Tallied.of_run (S := twoQueues) (C := Tally.Greets)
    (f := fun s t => s.pending false = 1 ∧ t.silent false = 0) (hire ++ misread) (by decide +kernel)
  have ⟨hp, hn⟩ := of_decide_eq_true hr
  have he := h _ _ _ _ false ht made_twoQueues hs
  omega

end Cluster
end SprayCC
