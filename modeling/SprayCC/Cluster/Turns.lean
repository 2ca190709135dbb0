import SprayCC.Cluster.Basic

open Async

-- What a step of a cluster is, case by case.

namespace SprayCC

-- The step which answers a call.
def Label.answer : (c : Call) → c.Answer → Label
  | .send .., _  => .send
  | .now,     t  => .clock t
  | .spawn _, ok => .spawned ok
  | .pick _,  k  => .picked k

-- The answers to a call, with the net after it.
def Net.Answers (S : Setup) (w : Net) : (c : Call) → c.Answer → Net → Prop
  | .send about dest msg, ok, w' => w.send S about dest msg = some (ok, w')
  | .pick queue,          k,  w' => Picks queue k ∧ w' = w
  | .now,                 _,  w' => w' = w
  | .spawn _,             _,  w' => w' = w

namespace Cluster

inductive Turn (S : Setup) : Cluster → Label → Cluster → Prop
  | accept :
    peer.Fresh → Turn S ⟨.select s, w⟩ (.accept peer) ⟨.checking s.addRemote, w.accept peer⟩
  | recv :
    w.inbound = (i, msg) :: rest →
    Turn S ⟨.select s, w⟩ (.recv fuel)
      ⟨.running (.inbound i msg) s false (onEvent fuel s (.inbound i msg)),
        { w with inbound := rest }⟩
  | tick :
    Turn S ⟨.select s, w⟩ (.tick fuel) ⟨.running .watchdog s false (onEvent fuel s .watchdog), w⟩
  | wait :
    Turn S ⟨.running ev s false p, w⟩ .wait ⟨.running ev s true p, w⟩
  | answer {c : Call} {k : c.Answer → Proc ServerState} {a : c.Answer} :
    w.Answers S c a w' →
    Turn S ⟨.running ev s waits (.call c k), w⟩ (.answer c a) ⟨.running ev s false (k a), w'⟩
  | done :
    Turn S ⟨.running ev s waits (.done s'), w⟩ .finish ⟨.checking s', w⟩
  | fail :
    Turn S ⟨.running ev s waits (.fail f), w⟩ .finish ⟨.faulted f, w⟩
  | check (now : SystemTime) :
    Turn S ⟨.checking s, w⟩ (.check now)
      ⟨if s.okToShutdown now then .shutdown s else .select s, w⟩
  | act :
    w.step S a = some w' → Turn S ⟨m, w⟩ (.act a) ⟨m, w'⟩

theorem turn_of_step {S : Setup} {σ σ' : Cluster} {l : Label} (h : σ.step S l = some σ') :
    σ.Turn S l σ' := by
  obtain ⟨main, w⟩ := σ
  cases l <;> simp only [step] at h
  case accept =>
    split at h <;> [skip; cases h]
    have ⟨hf, h⟩ := Option.ite_none_right_eq_some.mp h
    exact Option.some.inj h ▸ .accept hf
  case recv =>
    obtain ⟨_ | _, _, _⟩ := w <;> cases main <;> cases h
    exact .recv rfl
  case tick =>
    split at h <;> cases h
    exact .tick
  case wait =>
    split at h <;> [skip; cases h]
    exact Option.some.inj (Option.ite_none_right_eq_some.mp h).right ▸ .wait
  case send =>
    split at h <;> [skip; cases h]
    obtain ⟨⟨ok, w'⟩, hw, rfl⟩ := Option.map_eq_some_iff.mp h
    exact .answer (c := .send _ _ _) (a := ok) hw
  case clock now =>
    split at h <;> cases h
    exact .answer (c := .now) (a := now) rfl
  case spawned ok =>
    split at h <;> cases h
    exact .answer (c := .spawn _) (a := ok) rfl
  case picked j =>
    split at h <;> [skip; cases h]
    have ⟨hp, h⟩ := Option.ite_none_right_eq_some.mp h
    exact Option.some.inj h ▸ .answer (c := .pick _) (a := j) ⟨hp, rfl⟩
  case finish =>
    split at h <;> cases h
    case h_1 => exact .done
    case h_2 => exact .fail
  case check now =>
    split at h <;> cases h
    exact .check now
  case act =>
    obtain ⟨w', hw, rfl⟩ := Option.map_eq_some_iff.mp h
    exact .act hw

-- The events which the main loop begins to handle in a step.
def handles (σ : Cluster) : Label → List Event
  | .recv _ =>
    match σ.main, σ.net.inbound with
    | .select _, (i, msg) :: _ => [.inbound i msg]
    | _, _                     => []
  | .tick _ => [.watchdog]
  | _       => []

-- The runs, with the events which the main loop has handled.
inductive Handled (S : Setup) : Cluster → List Event → Prop
  | start : Handled S (start S) []
  | step  : Handled S σ evs → σ.step S l = some σ' → Handled S σ' (evs ++ σ.handles l)

theorem Handled.reaches {S : Setup} {σ : Cluster} {evs : List Event} (h : Handled S σ evs) :
    Reaches S .any σ := by
  induction h with
  | start        => exact .start
  | step _ hs hi => exact hi.step allows_any hs

def handleAlong (S : Setup) : List Label → Cluster × List Event → Option (Cluster × List Event)
  | [],      c        => some c
  | l :: ls, (σ, evs) => (σ.step S l).bind fun σ' => handleAlong S ls (σ', evs ++ σ.handles l)

theorem Handled.run {S : Setup} {σ : Cluster} {evs : List Event} {ls : List Label}
    {c : Cluster × List Event} (h : Handled S σ evs)
    (hr : handleAlong S ls (σ, evs) = some c) : Handled S c.fst c.snd := by
  induction ls generalizing σ evs with
  | nil => cases hr; exact h
  | cons l ls hi =>
    have ⟨_, hs, hr⟩ := Option.bind_eq_some_iff.mp hr
    exact hi (h.step hs) hr

end Cluster
end SprayCC
