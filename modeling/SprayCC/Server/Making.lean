import SprayCC.Server.Invariant

open Async Program

-- The run times which the server writes down for the next session.

namespace SprayCC

-- The run time which a message brings for a target.
def Message.runTime (target : String) : Message → Option Duration
  | taskDone exitCode targetId runTime _ =>
    if exitCode = some 0 ∧ targetId = target then some runTime else none
  | _ => none

-- The last one of the run times which the messages bring for a target.
def lastRunTime (msgs : List Message) (target : String) : Option Duration :=
  msgs.reverse.findSome? (·.runTime target)

theorem lastRunTime_concat {msgs : List Message} {msg : Message} {target : String} :
    lastRunTime (msgs ++ [msg]) target = (msg.runTime target).or (lastRunTime msgs target) := by
  simp only [lastRunTime, List.reverse_append, List.reverse_singleton, List.singleton_append,
    List.findSome?_cons]
  cases msg.runTime target <;> rfl

namespace History

-- The history has exactly what the messages bring, all of it since `start`.
structure Holds (h : History) (start : SystemTime) (msgs : List Message) : Prop where
  last  : ∀ target, h.get target = lastRunTime msgs target
  since : ∀ (target : String) (entry : Duration × SystemTime), h.history[target]? = some entry →
    start ≤ entry.snd

namespace Holds

variable {h : History} {start now : SystemTime} {msgs : List Message} {msg : Message}

theorem default : History.default.Holds start [] where
  last _    := by simp [History.get, History.default, lastRunTime]
  since _ _ := by simp [History.default]

-- A message which brings nothing.
theorem skip (hh : h.Holds start msgs) (hm : ∀ target, msg.runTime target = none) :
    h.Holds start (msgs ++ [msg]) where
  last target := by rw [hh.last, lastRunTime_concat, hm, Option.none_or]
  since       := hh.since

theorem update {target : String} {run send : Duration} (hh : h.Holds start msgs)
    (hs : start ≤ now) :
    (h.update target run now).Holds start (msgs ++ [.taskDone (some 0) target run send]) where
  last target' := by
    rw [lastRunTime_concat, ← hh.last]
    by_cases ht : target = target'
    case pos => simp [History.get, History.update, Message.runTime, ht]
    case neg =>
      simp [History.get, History.update, Message.runTime, ht, Std.ExtTreeMap.getElem?_insert]
  since target' entry he := by
    simp only [History.update, Std.ExtTreeMap.getElem?_insert] at he
    split at he
    case isTrue  => cases he; exact hs
    case isFalse => exact hh.since _ _ he

end Holds
end History

-- No time is read which is before `start`.
def clocked (start : SystemTime) : World signature Unit where
  moves _ _ := False
  answers _
    | .now, t, _ => start ≤ t
    | _,    _, _ => True

-- What has been written down is what the messages have brought.
abbrev ServerState.Made (start : SystemTime) (msgs : List Message) (s : ServerState) (_ : Unit) :
    Prop :=
  s.inTheMaking.Holds start msgs

-- The program comes to a server which has written down what the messages bring.
abbrev Makes (start : SystemTime) (msgs : List Message) (p : Proc ServerState) : Prop :=
  Safe (clocked start) (fun _ => True) (ServerState.Made start msgs) (fun _ _ => True) p ()

open ServerState

variable {s : ServerState} {fuel connId : Nat} {msg : Message} {start : SystemTime}
variable {msgs : List Message} {p : Proc ServerState}

theorem ServerState.Made.of_eq {s' : ServerState} {u : Unit} (h : s.Made start msgs u)
    (hs : s'.inTheMaking = s.inTheMaking) : s'.Made start msgs u := by
  rw [Made, hs]
  exact h

theorem made_upholds : Upholds (clocked start) (Made start msgs) where
  still       := id
  frame h hs  := by
    simp only [core, Prod.mk.injEq] at hs
    exact h.of_eq hs.right.left
  fewer h     := h
  send h _    := h
  now h _     := h
  active h _  := h
  spawn {_ _ _ _ _ ok _} h _ _ _ := by
    cases ok
    case true  => exact h.of_eq inTheMaking_execSpawned
    case false => exact h
  pick h _    := h

theorem Makes.of_upheld (h : Upheld (clocked start) (Made start msgs) p ()) : Makes start msgs p :=
  h.weaken (fun _ _ => trivial) fun _ _ _ => trivial

theorem handleMsg_makes (h : s.Made start msgs ()) :
    Upheld (clocked start) (Made start (msgs ++ [msg])) (handleMsg fuel s connId msg) () := by
  have hU : Upholds (clocked start) (Made start (msgs ++ [msg])) := made_upholds
  by_cases hd : ∃ target run send, msg = .taskDone (some 0) target run send
  case pos =>
    obtain ⟨target, run, send, rfl⟩ := hd
    rw [handleMsg_taskDone, if_pos rfl]
    refine Safe.of_call (J := fun _ => True) (fun _ h => h.elim) trivial
      (fun _ _ => ⟨s.recordElapsed target run start, h.update le_rfl⟩) ?_
    intro _ t _ _ (ht : start ≤ t)
    exact hU.taskIsDone (s := s.recordElapsed target run t) <| h.update ht
  case neg =>
    have hn target : msg.runTime target = none := by
      cases msg <;> try rfl
      case taskDone code _ run send =>
        refine if_neg fun ⟨hc, _⟩ => hd ⟨_, run, send, by rw [hc]⟩
    have h : s.Made start (msgs ++ [msg]) () := h.skip hn
    cases msg
    case yourObedientServant =>
      exact Upholds.get h fun _ _ => hU.execIsReady <| h.of_eq inTheMaking_execStarted
    case task =>
      refine Upholds.get (s := s) h fun _ _ => Upholds.get (s := s) h fun _ _ => ?_
      exact hU.call (s := s) h fun _ _ _ => hU.update h
    all_goals
      exact hU.handleMsg h id fun target run send he => hd ⟨target, run, send, he⟩

-- What the server has received at an event.
def Event.heard : Event → List Message
  | inbound _ msg => [msg]
  | watchdog      => []

theorem onEvent_makes (ev : Event) (h : s.Made start msgs ()) :
    Makes start (msgs ++ ev.heard) (onEvent fuel s ev) := by
  refine .of_upheld ?_
  cases ev
  case inbound  => exact made_upholds.activity <| handleMsg_makes h
  case watchdog => exact made_upholds.watchdog <| (List.append_nil msgs).symm ▸ h

end SprayCC
