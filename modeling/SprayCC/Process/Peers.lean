import SprayCC.Cluster.Ledger
import SprayCC.Process.Client
import SprayCC.Process.Exec

open Async Program

-- The processes are peers of the server: what they say and hear is what peers say and read.

namespace SprayCC

-- The messages with which the server puts an exec to work or sends it away. They do not give any of
-- the codes away.
def Message.Order : Message → Prop
  | task accessCode userCode _ => accessCode = 0 ∧ userCode = 0
  | pissOff                    => True
  | _                          => False

namespace Peer

-- What is left of a peer once it has heard a message, if it goes on after that.
def hears : Peer → Message → Option Peer
  | client details submitted, _      => some (client details submitted)
  | exec second .idle read, .task .. => some (exec second (.busy read) (read + 1))
  | exec second .idle read, .pissOff => some (exec second .done (read + 1))
  | _, _                             => none

def converses (codes : Codes) (peer : Peer) : Process.Event → Option Peer
  | .said msg  => peer.speaks codes msg
  | .heard msg => peer.hears msg

end Peer

-- A process which is about to call the server.
inductive Caller
  | client (details : TaskDetails) (fuel : Nat)
  | exec (secondQueue : Bool) (turns : List Exec.Turn)

namespace Caller

def peer : Caller → Peer
  | client details _ => .client details false
  | exec second _    => .exec second .fresh 0

-- What the process does once it is connected. An exec which returns has a status of zero.
def process (codes : Codes) : Caller → Process.Proc Int32
  | client details fuel => Client.session codes.accessCode codes.userCode details fuel
  | exec second turns   =>
    Exec.session (codes.queueCode second) codes.userCode turns >>= fun _ => pure 0

theorem exists_exec {caller : Caller} (h : caller.peer.role.Exec) :
    ∃ second turns, caller = .exec second turns := by
  cases caller
  case client    => exact h.elim
  case exec s ts => exact ⟨s, ts, rfl⟩

theorem exists_client {caller : Caller} {details : TaskDetails}
    (h : caller.peer.role = .client details) : ∃ fuel, caller = .client details fuel := by
  cases caller
  case client _ fuel => cases h; exact ⟨fuel, rfl⟩
  case exec          => cases h

theorem fresh_peer {caller : Caller} : caller.peer.Fresh := by
  cases caller
  case client => rfl
  case exec   => exact ⟨rfl, rfl⟩

end Caller

namespace Exec

variable {codes : Codes} {second : Bool} {job read : Nat} {turn : Turn} {turns : List Turn}
variable {ms : List Message} {msg : Message} {d : List Process.Event}

theorem foldlM_said {peer : Peer} :
    (ms.map Process.Event.said).foldlM (Peer.converses codes) peer =
      ms.foldlM (Peer.speaks codes) peer := by
  rw [List.foldlM_map]
  rfl

theorem Turn.Begins.speaks (h : turn.Begins ms msg) (hm : msg.Order) :
    ∃ peer, (Process.Event.heard msg :: ms.map .said).foldlM (Peer.converses codes)
      (.exec second .idle read) = some peer := by
  cases msg
  case task details =>
    obtain ⟨tr, p, ha, rfl⟩ := h
    have ⟨outs, ends, ht, ho, he⟩ := after_handles ha
    have hs : (sent tr).foldlM (Peer.speaks codes) (.exec second (.busy read) (read + 1)) =
        ends.foldlM (Peer.speaks codes) (.exec second (.busy read) (read + 1)) := by
      rw [ht, List.foldlM_append, ho.speaks]
      rfl
    show ∃ peer, ((sent tr).map _).foldlM _ (Peer.exec second (.busy read) (read + 1)) = _
    rw [foldlM_said, hs]
    rcases he with rfl | ⟨last, _, rfl, hl, _⟩
    case inl => exact ⟨_, rfl⟩
    case inr => exact ⟨.exec second .idle (read + 1), by simp [Peer.speaks, hl, hl.result]⟩
  case pissOff =>
    cases (show ms = [] from h)
    exact ⟨_, rfl⟩
  all_goals exact hm.elim

theorem Turn.Ends.speaks (h : turn.Ends ms msg) :
    (Process.Event.heard msg :: ms.map .said).foldlM (Peer.converses codes)
      (.exec second .idle read) = some (.exec second .idle (read + 1)) := by
  cases msg
  case task details =>
    obtain ⟨tr, hr, rfl⟩ := h
    show ((sent tr).map _).foldlM _ (Peer.exec second (.busy read) (read + 1)) = _
    rw [foldlM_said]
    exact handleNewTask_speaks hr
  all_goals exact h.elim

theorem Jobs.converses (h : Jobs turns d) (hm : ∀ msg ∈ Process.heard d, msg.Order) :
    ∃ peer, d.foldlM (Peer.converses codes) (.exec second .idle read) = some peer := by
  induction h generalizing read with
  | idle          => exact ⟨_, rfl⟩
  | current hb    => exact hb.speaks <| hm _ (.head _)
  | next he _ hi  =>
    rw [← List.cons_append, List.foldlM_append, he.speaks]
    refine hi fun msg hd => hm msg ?_
    simp [hd]

end Exec

namespace Caller

variable {codes : Codes} {caller : Caller} {tr : Trace Process.signature} {q : Process.Proc Int32}

theorem hears_client {details : TaskDetails} {submitted : Bool} {ms : List Message} :
    (ms.map Process.Event.heard).foldlM (Peer.converses codes) (.client details submitted) =
      some (.client details submitted) := by
  induction ms with
  | nil         => rfl
  | cons _ _ hi => exact hi

theorem exec_dialogue {second : Bool} {turns : List Exec.Turn}
    (h : ((exec second turns).process codes).After tr q) :
    Process.dialogue tr = [] ∨ ∃ d, Exec.Jobs turns d ∧
      Process.dialogue tr = .said (codes.hello second) :: d := by
  rcases h.of_bind with ⟨_, hs, _⟩ | ⟨_, tr₁, tr₂, rfl, h₁, h₂⟩
  case inl => exact Exec.session_dialogue hs
  case inr =>
    rw [(After.done_iff.mp h₂).left, List.append_nil]
    exact Exec.session_dialogue h₁

-- A process never says what its peer could not say.
theorem converses (h : (caller.process codes).After tr q)
    (ho : caller.peer.role.Exec → ∀ msg ∈ Process.heard (Process.dialogue tr), msg.Order) :
    ∃ peer, (Process.dialogue tr).foldlM (Peer.converses codes) caller.peer = some peer := by
  cases caller
  case client details fuel =>
    rcases Client.session_dialogue h with hd | ⟨ms, hd⟩ <;> rw [hd]
    case inl => exact ⟨_, rfl⟩
    case inr =>
      refine ⟨.client details true, ?_⟩
      have hs : Peer.converses codes (.client details false) (.said (codes.submission details)) =
          some (.client details true) := by simp [Peer.converses, Peer.speaks]
      exact Option.bind_eq_some_iff.mpr ⟨_, hs, hears_client⟩
  case exec second turns =>
    rcases exec_dialogue h with hd | ⟨d, hj, hd⟩
    case inl => exact ⟨_, by rw [hd]; rfl⟩
    case inr =>
      have ho := ho trivial
      rw [hd] at ho ⊢
      obtain ⟨peer, hp⟩ : ∃ peer, d.foldlM (Peer.converses codes) (.exec second .idle 0) =
          some peer := hj.converses ho
      have hs : Peer.converses codes (.exec second .fresh 0) (.said (codes.hello second)) =
          some (.exec second .idle 0) := by simp [Peer.converses, Peer.speaks]
      exact ⟨peer, Option.bind_eq_some_iff.mpr ⟨_, hs, hp⟩⟩

end Caller
end SprayCC
