import SprayCC.Async.Runs
import SprayCC.Cluster.Turns
import SprayCC.Cluster.Wire
import SprayCC.Server.Remotes

open Async

-- What becomes of a connection on which the wrong codes were shown.

namespace SprayCC

namespace Codes

variable {codes : Codes} {msg : Message}

theorem drops_hello (secondQueue : Bool) : codes.drops (codes.hello secondQueue) = false := by
  simp [drops, hello, queueCode_masked]

theorem drops_submission (details : TaskDetails) :
    codes.drops (codes.submission details) = false := by
  simp [drops, submission]

theorem drops_result (h : msg.Result) : codes.drops msg = false := by
  cases msg <;> first | rfl | exact h.elim

end Codes

namespace Peer

-- What was read of a program which may be any.
def said : Peer → List Message
  | rogue said => said
  | _          => []

-- One of the messages which were read was rejected.
def Rejected (codes : Codes) (p : Peer) : Prop :=
  ∃ m ∈ p.said, codes.drops m

theorem Fresh.not_rejected {codes : Codes} {p : Peer} (h : p.Fresh) : ¬p.Rejected codes := by
  cases p
  case client | exec => nofun
  case rogue         => cases h; nofun

end Peer

def Act.Rejects (codes : Codes) (k : Nat) : Act → Prop
  | speaks i msg => i = k ∧ codes.drops msg
  | _            => False

-- The task of connection `k` reads a message which it rejects.
def Label.Rejects (codes : Codes) (k : Nat) : Label → Prop
  | act a => a.Rejects codes k
  | _     => False

namespace Conn

variable {codes : Codes} {c c' : Conn} {a : Act} {i : Nat} {msg : Message} {ms : List Message}

theorem Spoke.rejected_iff (h : c.Spoke codes msg c') :
    c'.peer.Rejected codes ↔ c.peer.Rejected codes ∨ codes.drops msg := by
  cases h
  case task hp           => simp [Peer.Rejected, Peer.said, hp, Codes.drops_submission]
  case hello hp          => simp [Peer.Rejected, Peer.said, hp, Codes.drops_hello]
  case output hp hm _    => simp [Peer.Rejected, Peer.said, hp, Codes.drops_result hm]
  case result hp hm      => simp [Peer.Rejected, Peer.said, hp, Codes.drops_result hm.result]
  case rogue hp          => simp [Peer.Rejected, Peer.said, hp, or_and_right, exists_or]

theorem Step.rejected_iff (h : c.Step codes a ms c') :
    c'.peer.Rejected codes ↔ c.peer.Rejected codes ∨ a.Rejects codes a.conn := by
  cases h
  case speaks hs _                      => simpa [Act.Rejects, Act.conn] using hs.rejected_iff
  case starts hp _ | leaves hp _        => simp [Peer.Rejected, Peer.said, hp, Act.Rejects]
  case pushes | notices | ends | closes | takes | breaks => simp [Act.Rejects]

theorem Step.not_hungUp (h : c.Step codes (.speaks i msg) ms c') : ¬c'.task.HungUp := by
  cases h
  case speaks ht => rcases ht with rfl | rfl <;> exact id

end Conn

-- What the main loop does with the net does not concern what was read.
theorem Net.Answers.peer_eq {S : Setup} {w w' : Net} {c : Call} {a : c.Answer} {i : Nat}
    (h : w.Answers S c a w') : w'.size = w.size ∧ (w'.conns i).peer = (w.conns i).peer := by
  cases c
  case send about dest msg =>
    simp only [Answers, send] at h
    split at h <;> [cases h; skip]
    split at h
    case isTrue  => cases h; exact ⟨rfl, Net.peer_put⟩
    case isFalse => cases h; exact ⟨rfl, rfl⟩
  case pick       => exact h.right ▸ ⟨rfl, rfl⟩
  case now | spawn => exact (show w' = w from h) ▸ ⟨rfl, rfl⟩

namespace Cluster

variable {S : Setup} {σ σ' : Cluster} {l : Label} {ls : List Label} {k : Nat}

def Rejected (S : Setup) (k : Nat) (σ : Cluster) : Prop :=
  k < σ.net.size ∧ (σ.net.conns k).peer.Rejected S.codes

-- What is to be seen of a connection which ends with the message which was rejected.
structure Closed (S : Setup) (k : Nat) (σ : Cluster) : Prop where
  -- No message is read after it.
  last   : ∀ m ∈ (σ.net.conns k).peer.said.dropLast, ¬S.codes.drops m
  -- One `Dropped` is forwarded for it, and nothing more.
  flight : σ.net.flight k <:+ (σ.net.conns k).peer.said.map S.codes.forwards
  -- The task has left its loop. It returns as soon as the `Dropped` is on the inbound channel, and
  -- the peer reads the end of the stream.
  left   : (σ.net.conns k).task.HungUp
  -- Once the server has received the `Dropped`, the remote is neither a client nor an exec.
  remote : σ.net.flight k = [] → ∀ s, σ.main.resting = some s →
    s.kind k ≠ .client ∧ s.kind k ≠ .exec

def Closes (S : Setup) (k : Nat) (σ : Cluster) : Prop :=
  σ.Rejected S k → σ.Closed S k

theorem not_rejected_start : ¬(start S).Rejected S k :=
  fun h => Nat.not_lt_zero _ h.left

theorem rejected_step (hn : ¬σ.Rejected S k) (hs : σ.step S l = some σ') :
    σ'.Rejected S k ↔ l.Rejects S.codes k := by
  cases turn_of_step hs
  case accept s w peer hf =>
    refine iff_of_false (fun ⟨hk, hr⟩ => ?_) id
    rcases Nat.lt_succ_iff_lt_or_eq.mp hk with hk | rfl
    case inl =>
      have hr : (w.conns k).peer.Rejected S.codes :=
        Net.conns_accept_ne (Nat.ne_of_lt hk) ▸ hr
      exact hn ⟨hk, hr⟩
    case inr =>
      have hr : (Conn.fresh peer).peer.Rejected S.codes := Net.conns_accept_size ▸ hr
      exact hf.not_rejected hr
  case answer ha =>
    have ⟨hz, hp⟩ := ha.peer_eq (i := k)
    refine iff_of_false (fun ⟨hk, hr⟩ => hn ⟨hz ▸ hk, hp ▸ hr⟩) ?_
    rename Call => c
    cases c <;> exact id
  case act w' m w a ha =>
    have ⟨_, c, hm⟩ := Net.step_moved ha
    by_cases hk : k = a.conn
    case pos =>
      subst hk
      have hc : (w'.conns a.conn).peer.Rejected S.codes ↔ a.Rejects S.codes a.conn := by
        rw [hm.conns, Function.update_self, hm.conn.rejected_iff]
        exact or_iff_right fun hr => hn ⟨hm.present, hr⟩
      exact (and_iff_right <| hm.size.symm ▸ hm.present).trans hc
    case neg =>
      have hc : w'.conns k = w.conns k := by rw [hm.conns, Function.update_of_ne hk]
      refine iff_of_false (fun ⟨hz, hr⟩ => hn ⟨hm.size ▸ hz, hc ▸ hr⟩) fun hr => ?_
      cases a <;> first | exact hr | exact hk hr.left.symm
  all_goals exact iff_of_false hn id

theorem not_hungUp_of_rejects (hs : σ.step S l = some σ') (hl : l.Rejects S.codes k) :
    ¬(σ'.net.conns k).task.HungUp := by
  cases turn_of_step hs
  case act w' m w a ha =>
    have ⟨_, c, hm⟩ := Net.step_moved ha
    cases a <;> try exact hl.elim
    case speaks i msg =>
      obtain ⟨rfl, _⟩ := hl
      have hc : w'.conns i = c := by rw [hm.conns]; exact Function.update_self ..
      exact hc ▸ hm.conn.not_hungUp
  case answer =>
    rename Call => c
    cases c <;> exact hl.elim
  all_goals exact hl.elim

theorem closes_step (hn : ¬σ.Rejected S k) (hs : σ.step S l = some σ') :
    σ'.Closes S k ↔ ¬l.Rejects S.codes k where
  mp hc hl  := not_hungUp_of_rejects hs hl (hc <| (rejected_step hn hs).mpr hl).left
  mpr hl hr := absurd ((rejected_step hn hs).mp hr) hl

-- A rejected connection is not closed, whatever comes after.
theorem closes_iff :
    Throughout (Cluster.step S) (Closes S k) ls (start S) ↔
      Along (Cluster.step S) (fun _ l => ¬l.Rejects S.codes k) ls (start S) :=
  throughout_iff_along_of (I := fun σ => ¬σ.Rejected S k) (fun hn hr => absurd hr hn) closes_step
    (fun hn hs hl => mt (rejected_step hn hs).mp hl) not_rejected_start

-- A program shows no code which is right, is dropped, and then says hello as an exec.
def secondTry : List Label :=
  [.accept (.rogue []), .check 0, .act (.speaks 0 (.yourObedientServant 0 0)), .recv 0, .clock 0,
    .finish, .check 0, .act (.speaks 0 (Setup.plain.codes.hello false)), .recv 0, .clock 0,
    .finish, .check 0]

theorem not_closes_secondTry :
    ¬∀ S k ls, Throughout (Cluster.step S) (Closes S k) ls (start S) := by
  intro h
  have hr : (secondTry.foldlM (Cluster.step .plain) (start .plain)).any fun σ =>
      σ.net.size = 1 ∧ σ.net.flight 0 = [] ∧ σ.main.resting.any (·.kind 0 = .exec) ∧
        ∃ m ∈ (σ.net.conns 0).peer.said, Setup.plain.codes.drops m := by
    decide +kernel
  have ⟨σ, hσ, hr⟩ := (Option.any_eq_true _ _).mp hr
  have ⟨hz, hf, hk, hd⟩ := of_decide_eq_true hr
  have ⟨s, hs, hk⟩ := (Option.any_eq_true _ _).mp hk
  have hc := (h .plain 0 secondTry).last hσ ⟨hz ▸ Nat.one_pos, hd⟩
  exact (hc.remote hf s hs).right (of_decide_eq_true hk)

end Cluster
end SprayCC
