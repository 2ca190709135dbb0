import Mathlib.Logic.Relation
import SprayCC.Cluster.Manners
import SprayCC.Farm.Basic

open Async Relation

-- When a link of the farm is one of the connections of a cluster.

namespace SprayCC

-- In a cluster, a message which is about to be written is still on its channel.
def Setup.roomier (S : Setup) : Setup :=
  { S with
    outboundCap  := S.outboundCap + 1
    outbound_pos := Nat.succ_pos _ }

namespace Connection

-- A turn of the loop, after the `select!`.
def handleArm (codes : Codes) (connId fuel : Nat) : Arm → Proc Unit
  | .message msg =>
    sendOrErr connId (codes.forwards msg) >>= fun _ => handleConnection codes connId fuel
  | .outbound msg => writeOrErr msg >>= fun _ => handleConnection codes connId fuel
  | .undecodable  => .fail (.panic "Unable to decode message")
  | .closed | .error | .hungUp => sendOrErr connId .dropped

theorem handleConnection_succ {codes : Codes} {connId fuel : Nat} :
    handleConnection codes connId (fuel + 1) = .call .select (handleArm codes connId fuel) := by
  show Program.call _ _ = Program.call _ _
  refine congrArg _ <| funext fun arm => ?_
  cases arm <;> rfl

end Connection

-- How far a connection task is, with the message it has read but not forwarded, and the one it has
-- taken from its channel but not written.
inductive Stands (codes : Codes) (i : Nat) :
    Connection.Proc Unit → Bool → ConnTask → List Message → List (Nat × Message) → Prop
  | select (fuel : Nat) :
    Stands codes i (Connection.handleConnection codes i fuel) true .select [] []
  | forwards (fuel : Nat) (msg : Message) :
    Stands codes i
      (Connection.sendOrErr i (codes.forwards msg) >>= fun _ =>
        Connection.handleConnection codes i fuel) true .select [msg] []
  | ending :
    Stands codes i (Connection.sendOrErr i .dropped) true .select [] []
  | writes (fuel about : Nat) (msg : Message) :
    Stands codes i
      (Connection.writeOrErr msg >>= fun _ => Connection.handleConnection codes i fuel) true
      .select [] [(about, msg)]
  | broken (m : Nat × Message) :
    Stands codes i (.fail .error) true .select [] [m]
  | noticed :
    Stands codes i (.done ()) true .noticed [] []
  | closed :
    Stands codes i (.done ()) false .closed [] []
  | failed :
    Stands codes i (.fail .error) false .failed [] []

namespace Stands

variable {codes : Codes} {i : Nat} {opened : Bool} {task : ConnTask} {held : List Message}
variable {flying : List (Nat × Message)} {msg : Message}

theorem of_select {k : Connection.Arm → Connection.Proc Unit}
    (h : Stands codes i (.call .select k) opened task held flying) :
    ∃ fuel, k = Connection.handleArm codes i fuel ∧ opened = true ∧ task = .select ∧ held = [] ∧
      flying = [] := by
  generalize hp : Program.call (S := Connection.signature) .select k = p at h
  cases h
  case select fuel =>
    cases fuel
    case zero      => cases hp
    case succ fuel =>
      rw [Connection.handleConnection_succ] at hp
      cases hp
      exact ⟨fuel, rfl, rfl, rfl, rfl, rfl⟩
  all_goals cases hp

theorem of_write {k : Bool → Connection.Proc Unit}
    (h : Stands codes i (.call (.write msg) k) opened task held flying) :
    ∃ fuel about, k true = Connection.handleConnection codes i fuel ∧ k false = .fail .error ∧
      opened = true ∧ task = .select ∧ held = [] ∧ flying = [(about, msg)] := by
  generalize hp : Program.call (S := Connection.signature) (.write msg) k = p at h
  cases h
  case writes fuel about msg =>
    cases hp
    exact ⟨fuel, about, rfl, rfl, rfl, rfl, rfl, rfl⟩
  case select fuel => cases fuel <;> cases hp
  all_goals cases hp

theorem of_send {j : Nat} {k : Bool → Connection.Proc Unit}
    (h : Stands codes i (.call (.send j msg) k) opened task held flying) :
    j = i ∧ opened = true ∧ task = .select ∧ flying = [] ∧
      ((∃ m fuel, held = [m] ∧ msg = codes.forwards m ∧
          k true = Connection.handleConnection codes i fuel) ∨
        held = [] ∧ msg = .dropped ∧ k true = .done ()) := by
  generalize hp : Program.call (S := Connection.signature) (.send j msg) k = p at h
  cases h
  case forwards fuel m =>
    cases hp
    exact ⟨rfl, rfl, rfl, rfl, .inl ⟨m, fuel, rfl, rfl, rfl⟩⟩
  case ending =>
    cases hp
    exact ⟨rfl, rfl, rfl, rfl, .inr ⟨rfl, rfl, rfl⟩⟩
  case select fuel => cases fuel <;> cases hp
  all_goals cases hp

theorem of_done (h : Stands codes i (.done ()) true task held flying) :
    task = .noticed ∧ held = [] ∧ flying = [] := by
  generalize hp : Program.done (S := Connection.signature) () = p at h
  cases h
  case select fuel => cases fuel <;> cases hp
  case noticed     => exact ⟨rfl, rfl, rfl⟩
  all_goals cases hp

theorem of_fail (h : Stands codes i (.fail .error) true task held flying) :
    task = .select ∧ held = [] ∧ ∃ m, flying = [m] := by
  generalize hp : Program.fail (S := Connection.signature) Connection.Fault.error = p at h
  cases h
  case select fuel => cases fuel <;> cases hp
  case broken m    => exact ⟨rfl, rfl, m, rfl⟩
  all_goals cases hp

-- The receiver of the channel is there just if it is there in the cluster.
theorem open_iff {p : Connection.Proc Unit} (h : Stands codes i p opened task held flying) :
    task.Open ↔ opened = true := by
  cases h <;> simp [ConnTask.Open]

end Stands

-- The number of messages which an exec has heard is known from where it is.
def Peer.At (n : Nat) : Peer → Prop
  | exec _ .fresh read      => read = n ∧ n = 0
  | exec _ (.busy job) read => read = n ∧ job + 1 = n
  | exec _ _ read           => read = n
  | _                       => True

-- What has been said after each of the messages which were heard, the first one of which is the one
-- with number `n`, if `n` were heard before.
def answers : Nat → List Process.Event → List (Nat × Message)
  | _,     []               => []
  | n,     .heard _ :: d    => answers (n + 1) d
  | 0,     .said _ :: d     => answers 0 d
  | n + 1, .said msg :: d   => (n, msg) :: answers (n + 1) d

-- What is left of a peer which has spoken.
inductive Peer.Speaks (codes : Codes) (msg : Message) : Peer → Peer → Prop
  | client : Speaks codes msg (.client details false) (.client details true)
  | fresh  : Speaks codes msg (.exec second .fresh n) (.exec second .idle n)
  | busy   : stage = .busy job ∨ stage = .idle →
    Speaks codes msg (.exec second (.busy job) n) (.exec second stage n)
  | rogue  : Speaks codes msg (.rogue ms) (.rogue (ms ++ [msg]))

-- What is left of a peer which has heard something.
inductive Peer.Hears (msg : Message) : Peer → Peer → Prop
  | client : Hears msg (.client details submitted) (.client details submitted)
  | starts : msg = .task a u details →
    Hears msg (.exec second .idle n) (.exec second (.busy n) (n + 1))
  | leaves : msg = .pissOff → Hears msg (.exec second .idle n) (.exec second .done (n + 1))

section Events

variable {codes : Codes} {peer peer' : Peer} {n : Nat} {d d' : List Process.Event}
variable {ev : Process.Event} {ms : List Message}

theorem answers_append :
    answers n (d ++ d') = answers n d ++ answers (n + (Process.heard d).length) d' := by
  induction d generalizing n with
  | nil          => rfl
  | cons ev d hi =>
    cases ev
    case heard => simpa [answers, Nat.add_assoc, Nat.add_comm] using hi (n := n + 1)
    case said  => cases n <;> simp [answers, hi]

theorem answers_heard : answers n (ms.map .heard) = [] := by
  induction ms generalizing n with
  | nil         => rfl
  | cons _ _ hi => exact hi

theorem Peer.speaks_of_some {msg : Message} (h : peer.speaks codes msg = some peer') :
    Peer.Speaks codes msg peer peer' := by
  unfold Peer.speaks at h
  split at h
  case h_1 => cases (Option.ite_none_right_eq_some.mp h).right; exact .client
  case h_2 => cases (Option.ite_none_right_eq_some.mp h).right; exact .fresh
  case h_3 =>
    cases (Option.ite_none_right_eq_some.mp h).right
    refine .busy ?_
    split
    case isTrue  => exact .inr rfl
    case isFalse => exact .inl rfl
  case h_4 => cases h; exact .rogue
  case h_5 => cases h

theorem Peer.hears_of_some {msg : Message} (h : peer.hears msg = some peer') :
    Peer.Hears msg peer peer' := by
  unfold Peer.hears at h
  split at h <;> cases h
  case h_1 => exact .client
  case h_2 => exact .starts rfl
  case h_3 => exact .leaves rfl

theorem Peer.converses_role (h : peer.converses codes ev = some peer') :
    peer'.role = peer.role := by
  cases ev
  case said  => cases Peer.speaks_of_some h <;> rfl
  case heard => cases Peer.hears_of_some h <;> rfl

theorem Peer.At.converses (h : peer.At n) (hc : peer.converses codes ev = some peer') :
    peer'.At (n + (Process.heard [ev]).length) := by
  cases ev
  case said =>
    cases Peer.speaks_of_some hc
    case client | rogue => trivial
    case fresh          => exact h.left
    case busy hs        =>
      rcases hs with rfl | rfl
      case inl => exact h
      case inr => exact h.left
  case heard =>
    cases Peer.hears_of_some hc
    case client => trivial
    case starts => cases h; exact ⟨rfl, rfl⟩
    case leaves => cases h; rfl

theorem Caller.fresh_at {caller : Caller} : caller.peer.At 0 := by
  cases caller
  case client => trivial
  case exec   => exact ⟨rfl, rfl⟩

theorem Peer.At.fold (h : peer.At n) (hc : d.foldlM (Peer.converses codes) peer = some peer') :
    peer'.At (n + (Process.heard d).length) ∧ peer'.role = peer.role := by
  induction d generalizing peer n with
  | nil          => exact Option.some.inj hc ▸ ⟨h, rfl⟩
  | cons ev d hi =>
    have ⟨_, hp, hc⟩ := Option.bind_eq_some_iff.mp hc
    have ⟨ha, hr⟩ := hi (h.converses hp) hc
    refine ⟨?_, hr.trans <| Peer.converses_role hp⟩
    have hl : Process.heard (ev :: d) = Process.heard [ev] ++ Process.heard d :=
      Process.heard_append (d := [ev])
    rwa [hl, List.length_append, ← Nat.add_assoc]

end Events
end SprayCC
