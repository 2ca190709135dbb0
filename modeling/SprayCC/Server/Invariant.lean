import SprayCC.Async.Safe
import SprayCC.Server.Remotes

open Async Program

-- Assertions about the server and its surroundings which hold for as long as it handles an event.

namespace SprayCC.ServerState

-- What the assertions are about.
def core (s : ServerState) :
    List Entry × History × Nat × Nat × Nat × ExecConfig × String × Option String × SystemTime :=
  (s.taskQueue, s.inTheMaking, s.runningExecCount, s.pendingExecCount, s.secondPendingExecCount,
    s.userConfig, s.startCmd, s.secondStartCmd, s.lastActivityTime)

def startCmdOf (s : ServerState) (q : Bool) : Option String :=
  if q then s.secondStartCmd else some s.startCmd

-- What an assertion has to stand up to.
structure Upholds {ω : Type} (W : World signature ω) (Inv : ServerState → ω → Prop) : Prop where
  still  : ¬W.moves w w'
  frame  : Inv s w → s'.core = s.core → Inv s' w
  fewer  : Inv s w → Inv { s with runningExecCount := s.runningExecCount - 1 } w
  send   : Inv s w → W.answers w (.send about dest msg) ok w' → Inv s w'
  now    : Inv s w → W.answers w .now t w' → Inv s w'
  active : Inv s w → W.answers w .now t w' → Inv (s.activityOccurred t) w'
  spawn  : Inv s w → s.needsExec q keepPending → s.startCmdOf q = some cmd →
    W.answers w (.spawn cmd) ok w' → Inv (if ok then s.execSpawned q else s) w'
  pick   : Inv s w → W.answers w (.pick s.taskQueue) j w' →
    Inv { s with taskQueue := s.taskQueue.eraseIdx j } w'

-- The assertion holds in the end, and of some server in between.
abbrev Upheld {ω : Type} (W : World signature ω) (Inv : ServerState → ω → Prop)
    (p : Proc ServerState) (w : ω) : Prop :=
  Safe W (fun w => ∃ s, Inv s w) Inv (fun _ w => ∃ s, Inv s w) p w

namespace Upholds

variable {ω : Type} {W : World signature ω} {Inv : ServerState → ω → Prop} {s : ServerState}
  {w : ω} {p : Proc ServerState}
variable {fuel connId execId : Nat} {msg : Message} {q : Bool} {α : Type}

-- The rules for the calls.

theorem call {c : Call} {k : c.Answer → Proc ServerState} (hU : Upholds W Inv) (hs : Inv s w)
    (h : ∀ a w', W.answers w c a w' → Upheld W Inv (k a) w') : Upheld W Inv (.call c k) w :=
  .of_call (J := (· = w)) (fun _ hm => absurd hm hU.still) rfl (fun _ he => ⟨s, he ▸ hs⟩)
    fun {_ _ _} he ha => h _ _ (he ▸ ha)

theorem get {o : Option α} {f : Fault} {k : α → Proc ServerState} (hs : Inv s w)
    (h : ∀ a, o = some a → Upheld W Inv (k a) w) : Upheld W Inv (.get o f >>= k) w :=
  .of_get (fun _ => ⟨s, hs⟩) h

theorem sendOrErr {about dest : Nat} {k : Unit → Proc ServerState} (hU : Upholds W Inv)
    (hs : Inv s w) (h : ∀ w', Inv s w' → Upheld W Inv (k ()) w') :
    Upheld W Inv (SprayCC.sendOrErr about dest msg >>= k) w := by
  refine hU.call hs fun ok w' ha => ?_
  have hs := hU.send hs ha
  cases ok
  case true  => exact h w' hs
  case false => exact ⟨s, hs⟩

theorem checkedSub {panic : Panic} {k : Nat → Proc ServerState} (hs : Inv s w)
    (h : Upheld W Inv (k (s.runningExecCount - 1)) w) :
    Upheld W Inv (SprayCC.checkedSub s.runningExecCount 1 panic >>= k) w := by
  unfold SprayCC.checkedSub
  split
  case isTrue  => exact h
  case isFalse => exact ⟨s, hs⟩

theorem sendToPairedRemote (hU : Upholds W Inv) (hs : Inv s w) :
    Upheld W Inv (s.sendToPairedRemote connId msg) w := by
  refine get hs fun remote _ => get hs fun otherId _ => get hs fun other _ => ?_
  split
  case isFalse => exact hs
  case isTrue  =>
    refine hU.call hs fun ok w' ha => ?_
    have hs := hU.send hs ha
    cases ok
    case true  => exact hs
    case false => exact hU.frame hs rfl

theorem handleDropped (hU : Upholds W Inv) (hs : Inv s w) :
    Upheld W Inv (s.handleDropped connId) w := by
  refine get hs fun remote _ => ?_
  split
  case isFalse => exact hU.frame hs rfl
  case isTrue  =>
    have hr {w} (hs : Inv s w) :
        Upheld W Inv (SprayCC.checkedSub s.runningExecCount 1 .runningUnderflow >>= fun running =>
          pure <| { s with runningExecCount := running }.setConnType connId .dead) w :=
      checkedSub hs <| hU.frame (hU.fewer hs) rfl
    unfold notifyPaired
    split
    case h_1 =>
      rw [Program.bind_assoc]
      exact get hs fun _ _ => hU.sendOrErr hs fun _ hs => hr hs
    case h_2 => exact hr hs

theorem assignTask {task : TaskDetails} (hU : Upholds W Inv) (hs : Inv s w) :
    Upheld W Inv (s.assignTask connId execId task) w := by
  rcases s.assignTask_cases with ⟨_, h⟩ | h <;> rw [h]
  case inl => exact ⟨s, hs⟩
  case inr => exact hU.sendOrErr hs fun _ hs => hU.frame hs rfl

theorem assignTasks {queue : List Nat} (hU : Upholds W Inv) (hs : Inv s w) :
    Upheld W Inv (SprayCC.ServerState.assignTasks queue s) w := by
  induction queue generalizing s w with
  | nil => exact hs
  | cons execId rest hi =>
    rw [assignTasks_cons]
    split
    case isTrue  => exact hs
    case isFalse =>
      refine hU.call hs fun j w' ha => ?_
      have hs := hU.pick hs ha
      refine get hs fun ⟨⟨clientId, task⟩, _⟩ _ => ?_
      have hs : Inv (s.pop j rest) w' := hU.frame hs rfl
      exact .bind <| (hU.assignTask hs).mono fun _ _ => hi

theorem releaseExecs {queue : List Nat} (hU : Upholds W Inv) (hs : Inv s w) :
    Upheld W Inv (SprayCC.ServerState.releaseExecs queue s) w := by
  induction queue generalizing s w with
  | nil => exact hs
  | cons execId rest hi =>
    refine get hs fun _ _ => ?_
    let s' := { s with execQueue := rest }.setConnType execId .dead
    have hs : Inv s' w := hU.frame hs rfl
    exact hU.sendOrErr hs fun _ hs => checkedSub hs <| hi <| hU.fewer hs

theorem checkQueues (hU : Upholds W Inv) (hs : Inv s w) : Upheld W Inv s.checkQueues w := by
  refine .bind <| (hU.assignTasks hs).mono fun s w hs => ?_
  unfold okToRelease
  split
  case h_2 => exact hs
  case h_1 =>
    rw [Program.bind_assoc]
    refine hU.call hs fun t w' ha => ?_
    have hs := hU.now hs ha
    show Upheld W Inv (if decide _ then ServerState.releaseExecs s.execQueue s else pure s) w'
    split
    case isTrue  => exact hU.releaseExecs hs
    case isFalse => exact hs

theorem spawnExecs {cmd : String} {keepPending : Nat} (hU : Upholds W Inv) (hs : Inv s w)
    (hc : s.startCmdOf q = some cmd) :
    Upheld W Inv (SprayCC.ServerState.spawnExecs q cmd keepPending fuel s) w := by
  induction fuel generalizing s w with
  | zero =>
    unfold ServerState.spawnExecs
    split
    case isTrue  => exact ⟨s, hs⟩
    case isFalse => exact hs
  | succ fuel hi =>
    unfold ServerState.spawnExecs
    split
    case isFalse => exact hs
    case isTrue hn =>
      refine hU.call hs fun ok w' ha => ?_
      have hs := hU.spawn hs hn hc ha
      cases ok
      case false => exact hi hs hc
      case true  => exact hi hs <| by cases q <;> exact hc

theorem startExecsInQueue {keepPending : Nat} (hU : Upholds W Inv) (hs : Inv s w) :
    Upheld W Inv (SprayCC.ServerState.startExecsInQueue fuel s q keepPending) w := by
  unfold ServerState.startExecsInQueue
  cases q
  case false => exact hU.spawnExecs hs rfl
  case true  => exact get hs fun _ hc => hU.spawnExecs hs hc

theorem update (hU : Upholds W Inv) (hs : Inv s w) :
    Upheld W Inv (SprayCC.ServerState.update fuel s) w := by
  refine .bind <| Safe.mono ?_ fun _ _ => hU.checkQueues
  unfold startExecs
  split
  case isTrue  => exact hs
  case isFalse =>
    dsimp only
    split
    case isTrue  =>
      exact .bind <| (hU.startExecsInQueue hs).mono fun _ _ => hU.startExecsInQueue
    case isFalse => exact hU.startExecsInQueue hs

theorem execIsReady (hU : Upholds W Inv) (hs : Inv s w) :
    Upheld W Inv (SprayCC.ServerState.execIsReady fuel s connId) w :=
  get hs fun _ _ => hU.update <| hU.frame hs rfl

theorem reportStatus {period : Nat} {k : Option Status → Proc ServerState} (hs : Inv s w)
    (h : ∀ status, Upheld W Inv (k status) w) : Upheld W Inv (s.reportStatus period >>= k) w := by
  have hc {m n : Nat} {panic : Panic} {k : Nat → Proc ServerState}
      (h : ∀ m, Upheld W Inv (k m) w) : Upheld W Inv (SprayCC.checkedSub m n panic >>= k) w := by
    unfold SprayCC.checkedSub
    split
    case isTrue  => exact h _
    case isFalse => exact ⟨s, hs⟩
  unfold ServerState.reportStatus
  rw [Program.bind_assoc]
  refine hc fun _ => ?_
  rw [Program.bind_assoc]
  refine hc fun _ => ?_
  split
  case isTrue  => exact h _
  case isFalse => exact h _

theorem taskIsDone {run send : Duration} (hU : Upholds W Inv) (hs : Inv s w) :
    Upheld W Inv (SprayCC.taskIsDone fuel s connId msg run send) w := by
  refine .bind <| (hU.sendToPairedRemote hs).mono fun s w hs => .bind ?_
  have hs : Inv s.countFinished w := hU.frame hs rfl
  exact (hU.execIsReady hs).mono fun s w hs => hU.frame hs rfl

-- A message which does not say what would be written down, and does not open a session.
theorem handleMsg (hU : Upholds W Inv) (hs : Inv s w) (hm : ¬msg.Opens)
    (hd : ∀ target run send, msg ≠ .taskDone (some 0) target run send) :
    Upheld W Inv (SprayCC.handleMsg fuel s connId msg) w := by
  cases msg
  case yourObedientServant | task => exact absurd trivial hm
  case taskOutput          => exact hU.sendToPairedRemote <| hU.frame hs rfl
  case taskFailed          =>
    refine .bind <| (hU.sendToPairedRemote hs).mono fun s w hs => ?_
    exact hU.execIsReady <| hU.frame hs rfl
  case taskDone code target run send =>
    rw [handleMsg_taskDone, if_neg fun hc => hd target run send (by rw [hc])]
    exact hU.taskIsDone hs
  case cancelTask | pissOff => exact ⟨s, hs⟩
  case dropped             => exact hU.handleDropped hs

-- What is left of an event once the message is handled.
theorem activity (hU : Upholds W Inv) (h : Upheld W Inv p w) :
    Upheld W Inv (p >>= fun s => s.activityOccurred <$> SprayCC.now) w :=
  .bind <| h.mono fun _ _ hs => hU.call hs fun _ _ => hU.active hs

theorem watchdog (hU : Upholds W Inv) (hs : Inv s w) :
    Upheld W Inv (onEvent fuel s .watchdog) w :=
  .bind <| (hU.update hs).mono fun _ _ hs => reportStatus hs fun _ => hU.frame hs rfl

end Upholds
end SprayCC.ServerState
