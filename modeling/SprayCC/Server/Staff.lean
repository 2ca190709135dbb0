import SprayCC.Server.Invariant

open Async Program

-- How many execs the server counts, while it handles an event.

namespace SprayCC

-- One more for queue `q`.
def bump (n : Bool → Nat) (q : Bool) : Bool → Nat :=
  Function.update n q (n q + 1)

-- The processes which are spawned for each queue, which is told by the start command.
def spawning (secondStartCmd : Option String) : World signature (Bool → Nat) where
  moves _ _ := False
  answers n
    | .spawn cmd, ok, n' => n' = if ok then bump n (secondStartCmd = some cmd) else n
    | _,          _,  n' => n' = n

namespace ServerState

-- Each exec which was spawned for a queue is pending there until it is registered.
structure Staffed (second : Option String) (n registered : Bool → Nat) (s : ServerState) :
    Prop where
  pending : ∀ q, s.pending q + registered q = n q
  capped  :
    s.runningExecCount + s.pendingExecCount + s.secondPendingExecCount ≤ s.userConfig.maxCount
  command : some s.startCmd ≠ s.secondStartCmd
  second  : s.secondStartCmd = second

-- What counts for that.
def staff (s : ServerState) : Nat × Nat × Nat × ExecConfig × String × Option String :=
  (s.runningExecCount, s.pendingExecCount, s.secondPendingExecCount, s.userConfig, s.startCmd,
    s.secondStartCmd)

-- Whatever is spawned while the program runs, it comes to a server which counts it.
abbrev Staffs (second : Option String) (registered : Bool → Nat) (p : Proc ServerState)
    (n : Bool → Nat) : Prop :=
  Safe (spawning second) (fun _ => True) (fun s n => s.Staffed second n registered)
    (fun _ _ => True) p n

variable {second : Option String} {n n' registered : Bool → Nat} {s s' : ServerState}
  {p : Proc ServerState}
variable {i e fuel : Nat} {q : Bool} {α : Type}

namespace Staffed

-- Most changes to the server do not concern what is counted here.
theorem frame (h : s.Staffed second n registered) (hs : s'.staff = s.staff) :
    s'.Staffed second n registered := by
  simp only [staff, Prod.mk.injEq] at hs
  have ⟨hr, hp, hp', hm, hc, hq⟩ := hs
  refine ⟨fun q => ?_, ?_, hc ▸ hq ▸ h.command, hq ▸ h.second⟩
  case refine_1 =>
    have hq : s'.pending q = s.pending q := by simp only [ServerState.pending, hp, hp']
    exact hq ▸ h.pending q
  case refine_2 => exact hr ▸ hp ▸ hp' ▸ hm ▸ h.capped

theorem fewer {running : Nat} (h : s.Staffed second n registered)
    (hr : running ≤ s.runningExecCount) :
    Staffed second n registered { s with runningExecCount := running } where
  pending q := h.pending q
  capped    := by
    have hl := h.capped
    dsimp only
    omega
  command   := h.command
  second    := h.second

theorem execSpawned (h : s.Staffed second n registered)
    (hl : s.runningExecCount + s.pendingExecCount + s.secondPendingExecCount <
      s.userConfig.maxCount) :
    (s.execSpawned q).Staffed second (bump n q) registered := by
  have hf := h.pending false
  have ht := h.pending true
  simp only [ServerState.pending, Bool.false_eq_true, if_false, if_true] at hf ht
  unfold ServerState.execSpawned
  cases q
  case false =>
    refine ⟨fun q => ?_, ?_, h.command, h.second⟩
    case refine_1 => cases q <;> simp [ServerState.pending, bump] <;> omega
    case refine_2 => simp only [Bool.false_eq_true, if_false]; omega
  case true =>
    refine ⟨fun q => ?_, ?_, h.command, h.second⟩
    case refine_1 => cases q <;> simp [ServerState.pending, bump] <;> omega
    case refine_2 => simp only [if_true]; omega

-- An exec which was spawned is pending when it says hello, and so it stays within the cap.
theorem execStarted (h : s.Staffed second n registered) (hn : bump registered q q ≤ n q) :
    (s.execStarted q).Staffed second n (bump registered q) := by
  have hf := h.pending false
  have ht := h.pending true
  have hl := h.capped
  simp only [ServerState.pending, Bool.false_eq_true, if_false, if_true] at hf ht
  simp only [bump, Function.update_self] at hn
  unfold ServerState.execStarted
  cases q
  case false =>
    have hp : 0 < s.pendingExecCount := by omega
    simp only [hp, Bool.not_false, decide_true, Bool.and_self, if_true]
    refine ⟨fun q => ?_, ?_, h.command, h.second⟩
    case refine_1 => cases q <;> simp [ServerState.pending, bump] <;> omega
    case refine_2 => dsimp only; omega
  case true =>
    have hp : 0 < s.secondPendingExecCount := by omega
    simp only [hp, Bool.not_true, Bool.false_and, Bool.false_eq_true, if_false, decide_true,
      Bool.and_self, if_true]
    refine ⟨fun q => ?_, ?_, h.command, h.second⟩
    case refine_1 => cases q <;> simp [ServerState.pending, bump] <;> omega
    case refine_2 => dsimp only; omega

end Staffed

theorem staffed_upholds :
    Upholds (spawning second) fun s n => s.Staffed second n registered where
  still       := id
  frame h hs  := by
    simp only [core, Prod.mk.injEq] at hs
    exact h.frame <| by simp only [staff, hs]
  fewer h     := h.fewer <| Nat.sub_le ..
  send h ha   := ha ▸ h
  now h ha    := ha ▸ h
  active h ha := ha ▸ h.frame rfl
  pick h ha   := ha ▸ h.frame rfl
  spawn {s n q keepPending cmd ok n'} h hn hc ha := by
    cases ok
    case false => exact ha ▸ h
    case true  =>
      have hq : decide (s.secondStartCmd = some cmd) = q := by
        cases q
        case false => exact decide_eq_false fun he => h.command <| hc.trans he.symm
        case true  => exact decide_eq_true hc
      have ha : n' = bump n (s.secondStartCmd = some cmd) := h.second ▸ ha
      have hl := h.capped
      simp only [needsExec, Bool.and_eq_true, decide_eq_true_eq] at hn
      rw [ha, hq]
      refine h.execSpawned ?_
      cases q <;> simp [ServerState.pending] at hn <;> omega

end ServerState

open ServerState

-- The queue of an exec which says hello.
def Message.hello? : Message → Option Bool
  | yourObedientServant accessCode _ => some (accessCode &&& 1 ≠ 0)
  | _                                => none

-- The execs which are registered once the server has handled a message.
def registering (registered : Bool → Nat) (msg : Message) : Bool → Nat :=
  match msg.hello? with
  | some q => bump registered q
  | none   => registered

variable {second : Option String} {n registered : Bool → Nat} {s : ServerState} {fuel connId : Nat}
variable {msg : Message} {ev : Event}

theorem handleMsg_staffs (h : s.Staffed second n registered)
    (hn : ∀ q, registering registered msg q ≤ n q) :
    Upheld (spawning second) (fun s n => s.Staffed second n (registering registered msg))
      (handleMsg fuel s connId msg) n := by
  have hU := @staffed_upholds second (registering registered msg)
  have hr (hm : ¬msg.Opens) : registering registered msg = registered := by
    cases msg <;> first | rfl | exact absurd trivial hm
  cases msg
  case yourObedientServant accessCode _ =>
    have hs : (s.setConnType connId .exec).Staffed second n registered := h.frame rfl
    have hs := hs.execStarted <| hn (accessCode &&& 1 ≠ 0)
    refine Safe.of_get (fun _ => ⟨_, hs⟩) fun _ _ => hU.execIsReady hs
  case task =>
    refine Upholds.get (s := s) h fun _ _ => Upholds.get (s := s) h fun _ _ => ?_
    exact hU.call (s := s) h fun _ _ ha => hU.update <| ha ▸ h.frame rfl
  case taskDone code target run send =>
    rw [handleMsg_taskDone]
    split
    case isFalse => exact hU.taskIsDone (hr id ▸ h)
    case isTrue  =>
      exact hU.call (s := s) (hr id ▸ h) fun _ _ ha => hU.taskIsDone <| ha ▸ h.frame rfl
  all_goals exact hU.handleMsg (hr id ▸ h) id nofun

-- What the server has received at an event.
def Event.registering (registered : Bool → Nat) : Event → Bool → Nat
  | inbound _ msg => SprayCC.registering registered msg
  | watchdog      => registered

theorem onEvent_staffs (h : s.Staffed second n registered)
    (hn : ∀ q, ev.registering registered q ≤ n q) :
    Staffs second (ev.registering registered) (onEvent fuel s ev) n := by
  have hs : Upheld (spawning second)
      (fun s n => s.Staffed second n (ev.registering registered)) (onEvent fuel s ev) n := by
    cases ev
    case inbound  => exact staffed_upholds.activity <| handleMsg_staffs h hn
    case watchdog => exact staffed_upholds.watchdog h
  exact hs.weaken (fun _ _ => trivial) fun _ _ _ => trivial

end SprayCC
