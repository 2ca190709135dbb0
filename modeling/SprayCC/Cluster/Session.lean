import SprayCC.Cluster.Ledger
import SprayCC.Cluster.Moves

open Async

-- The sessions of well-behaved remotes: how the messages between a remote and the server take the
-- server's view of the session to where the session is.

namespace SprayCC

theorem Role.Says.not_gone {codes : Codes} {role : Role} {msg : Message} {phase : Phase} :
    ¬role.Says codes .gone msg phase := by
  intro h
  cases h
  contradiction

theorem Role.Says.of_idle {codes : Codes} {role : Role} {msg : Message} {phase : Phase}
    (h : role.Says codes .idle msg phase) : msg = .dropped ∧ phase = .gone := by
  cases h
  exact ⟨rfl, rfl⟩

theorem Role.Says.of_gone {codes : Codes} {role : Role} {view : Phase} {msg : Message}
    (h : role.Says codes view msg .gone) : msg = .dropped := by
  cases h
  rfl

namespace Conn

variable {c : Conn} {about : Nat} {msg : Message} {phase : Phase}

theorem ahead_eq_gone_iff : c.ahead = .gone ↔ c.task.HungUp where
  mp h  := not_not.mp fun ht => ahead_ne_gone ht h
  mpr h := by simp [ahead, h]

-- An exec which waits for the server has read everything.
theorem of_ahead_idle (ho : c.Orderly) (ha : c.ahead = .idle) :
    ¬c.task.HungUp ∧ ∃ second, c.peer = .exec second .idle c.sent.length := by
  have ht : ¬c.task.HungUp := fun ht => by simp [ahead_eq_gone_iff.mpr ht] at ha
  have ho := ho ht
  refine ⟨ht, ?_⟩
  simp only [ahead, ht, if_false] at ha
  split at ha <;> try cases ha
  rename_i second n hp
  split at ha <;> cases ha
  rename_i hs
  simp only [hp] at ho
  have hl := List.getElem?_eq_none_iff.mp hs
  exact ⟨second, by rw [hp, show n = c.sent.length by omega]⟩

theorem ahead_send (ho : c.Orderly) (ha : c.ahead = .idle)
    (hm : (∃ details, msg = .task 0 0 details ∧ phase = .busy) ∨ msg = .pissOff ∧
      phase = .released) :
    ahead { c with sent := c.sent ++ [(about, msg)] } = phase ∧
      Orderly { c with sent := c.sent ++ [(about, msg)] } := by
  have ⟨ht, _, hp⟩ := of_ahead_idle ho ha
  rcases hm with ⟨_, rfl, rfl⟩ | ⟨rfl, rfl⟩ <;>
    exact ⟨by simp [ahead, ht, hp], fun _ => by simp [hp]⟩

end Conn

-- A connection whose messages the server has handled up to those which are `unheard`.
structure Line (codes : Codes) (c : Conn) (view : Phase) (unheard : List Message) : Prop where
  behaved : c.role ≠ .rogue
  orderly : c.Orderly
  flow    : Follows (c.role.Says codes) view unheard c.ahead

namespace Line

variable {codes : Codes} {c c' : Conn} {view phase : Phase} {unheard ms : List Message}
variable {about : Nat} {msg : Message}

theorem fresh {peer : Peer} (hp : peer.Fresh) (hr : peer.role ≠ .rogue) :
    Line codes (.fresh peer) .pending [] := by
  cases peer
  case client => cases hp; exact ⟨hr, fun _ => trivial, .nil⟩
  case exec   => obtain ⟨rfl, rfl⟩ := hp; exact ⟨hr, fun _ => ⟨rfl, rfl⟩, .nil⟩
  case rogue  => exact absurd rfl hr

theorem step {a : Act} (h : Line codes c view unheard) (hs : c.Step codes a ms c') :
    Line codes c' view (unheard ++ ms) :=
  have ⟨hf, ho, hr⟩ := hs.follows h.orderly h.behaved
  ⟨hr ▸ h.behaved, ho, hr ▸ h.flow.append hf⟩

theorem hear (h : Line codes c view (msg :: unheard)) :
    ∃ phase, c.role.Says codes view msg phase ∧ Line codes c phase unheard :=
  have ⟨phase, hs, hf⟩ := h.flow.hear
  ⟨phase, hs, h.behaved, h.orderly, hf⟩

theorem eq_gone_iff (h : Line codes c view unheard) :
    view = .gone ↔ c.task.HungUp ∧ unheard = [] := by
  constructor
  case mp =>
    rintro rfl
    cases unheard with
    | nil => exact ⟨Conn.ahead_eq_gone_iff.mp <| Eq.symm <| Follows.nil_iff.mp h.flow, rfl⟩
    | cons =>
      have ⟨_, hs, _⟩ := h.hear
      exact hs.not_gone.elim
  case mpr =>
    rintro ⟨ht, rfl⟩
    exact (Follows.nil_iff.mp h.flow).trans <| Conn.ahead_eq_gone_iff.mpr ht

-- The `Dropped` of a connection is on its way until it is handled.
theorem dropped_mem (h : Line codes c view unheard) (hv : view ≠ .gone) (ht : c.task.HungUp) :
    .dropped ∈ unheard := by
  have ha := Conn.ahead_eq_gone_iff.mpr ht
  obtain ⟨_, hm, _, _, hs, _, rfl⟩ := h.flow.exists_turn (P := (· = .gone)) hv ha
  exact hs.of_gone ▸ hm

-- An exec whose view is idle has nothing to say, apart from that it is gone.
theorem of_idle (h : Line codes c .idle unheard) :
    unheard = [] ∧ c.ahead = .idle ∨ unheard = [.dropped] ∧ c.ahead = .gone := by
  cases unheard with
  | nil => exact .inl ⟨rfl, (Follows.nil_iff.mp h.flow).symm⟩
  | cons =>
    have ⟨_, hs, h⟩ := h.hear
    obtain ⟨rfl, rfl⟩ := hs.of_idle
    have ⟨ht, hu⟩ := h.eq_gone_iff.mp rfl
    exact .inr ⟨hu ▸ rfl, Conn.ahead_eq_gone_iff.mpr ht⟩

-- A message for a client does not change its session.
theorem send_client (h : Line codes c view unheard) (hr : ¬c.role.Exec) :
    Line codes { c with sent := c.sent ++ [(about, msg)] } view unheard := by
  have hb := h.behaved
  have ha : Conn.ahead { c with sent := c.sent ++ [(about, msg)] } = c.ahead := by
    cases hp : c.peer
    case client _ submitted => cases submitted <;> simp [Conn.ahead, hp]
    case exec               => simp [Conn.role, Peer.role, Role.Exec, hp] at hr
    case rogue              => simp [Conn.ahead, hp]
  refine ⟨hb, fun _ => ?_, ha ▸ h.flow⟩
  cases hp : c.peer <;> simp_all [Conn.role, Peer.role, Role.Exec]

-- A message for an exec takes it out of its idle phase, unless it is gone.
theorem send_exec (h : Line codes c view unheard) (hv : view = .idle ∨ view = .gone)
    (hm : (∃ details, msg = .task 0 0 details ∧ phase = .busy) ∨ msg = .pissOff ∧
      phase = .released) :
    Line codes { c with sent := c.sent ++ [(about, msg)] } (if view = .gone then .gone else phase)
      unheard := by
  have hg (hg : c.task.HungUp) : Conn.Orderly { c with sent := c.sent ++ [(about, msg)] } ∧
      Conn.ahead { c with sent := c.sent ++ [(about, msg)] } = .gone :=
    ⟨fun hn => absurd hg hn, Conn.ahead_eq_gone_iff.mpr hg⟩
  rcases hv with rfl | rfl
  case inl =>
    rcases h.of_idle with ⟨rfl, ha⟩ | ⟨rfl, ha⟩
    case inl =>
      have ⟨ha, ho⟩ := @Conn.ahead_send _ about _ _ h.orderly ha hm
      exact ⟨h.behaved, ho, by simp [ha]⟩
    case inr =>
      have ⟨ho, ha⟩ := hg <| Conn.ahead_eq_gone_iff.mp ha
      have hp : phase ≠ .gone := by rcases hm with ⟨_, _, rfl⟩ | ⟨_, rfl⟩ <;> simp
      have hf : Follows (c.role.Says codes) phase [.dropped] .gone := .single (.dropped hp)
      exact ⟨h.behaved, ho, by simpa [ha] using hf⟩
  case inr =>
    have ⟨ht, hu⟩ := h.eq_gone_iff.mp rfl
    have ⟨ho, ha⟩ := hg ht
    exact ⟨h.behaved, ho, by simp [ha, hu]⟩

end Line

-- The messages of connection `i` which the server has not handled yet, the oldest first.
def Net.unheard (w : Net) (hand : Option (Nat × Message)) (i : Nat) : List Message :=
  (hand.toList.filter (·.fst = i)).map Prod.snd ++ w.flight i

namespace Net

variable {w : Net} {hand : Option (Nat × Message)} {i j about : Nat} {msg : Message}

theorem unheard_hand : w.unheard (some (i, msg)) i = msg :: w.unheard none i := by
  simp [unheard]

theorem unheard_ne (h : j ≠ i) : w.unheard (some (i, msg)) j = w.unheard none j := by
  simp [unheard, h.symm]

theorem unheard_accept {peer : Peer} (h : w.unheard none w.size = []) :
    (w.accept peer).unheard none j = w.unheard none j := by
  by_cases hj : j = w.size
  case neg => simp [unheard, flight, accept, set, hj]
  case pos =>
    subst hj
    rw [h]
    simp only [unheard, flight, List.append_eq_nil_iff] at h
    simp [unheard, flight, accept, set, Conn.fresh, ConnTask.held, h.right.left]

theorem unheard_recv {rest : List (Nat × Message)} (h : w.inbound = (i, msg) :: rest) :
    unheard { w with inbound := rest } (some (i, msg)) j = w.unheard none j := by
  simp only [unheard, flight, h]
  by_cases hj : i = j <;> simp [hj]

theorem Moved.unheard {codes : Codes} {a : Act} {w' : Net} {ms : List Message} {c : Conn}
    (h : w.Moved codes a w' ms c) :
    w'.unheard hand j = w.unheard hand j ++ if j = a.conn then ms else [] := by
  simp [Net.unheard, h.flight]

theorem unheard_put : (w.put about j msg).unheard hand i = w.unheard hand i := by
  simp [unheard]

end Net

structure Wired (S : Setup) (hand : Option (Nat × Message)) (w : Net) (view : Nat → Phase) :
    Prop where
  absent : w.size ≤ i → w.unheard hand i = []
  line   : i < w.size → Line S.codes (w.conns i) (view i) (w.unheard hand i)

namespace Wired

variable {S : Setup} {hand : Option (Nat × Message)} {w w' : Net} {view : Nat → Phase}
variable {i j about : Nat} {msg : Message} {rest : List (Nat × Message)} {phase : Phase}

theorem start : Wired S none .empty view where
  absent _ := rfl
  line h   := absurd h <| Nat.not_lt_zero _

theorem act {a : Act} {ms : List Message} {c : Conn} (h : Wired S hand w view)
    (hm : w.Moved S.codes a w' ms c) : Wired S hand w' view := by
  constructor <;> intro j hj <;> rw [hm.size] at hj <;> rw [hm.unheard]
  case absent =>
    have hn : j ≠ a.conn := by rintro rfl; exact not_lt.mpr hj hm.present
    simp [h.absent hj, hn]
  case line =>
    rw [hm.conns]
    by_cases hn : j = a.conn
    case pos => subst hn; simpa using (h.line hj).step hm.conn
    case neg => simpa [hn] using h.line hj

theorem accept {peer : Peer} (h : Wired S none w view) (hp : peer.Fresh) (hr : peer.role ≠ .rogue)
    (hv : view w.size = .pending) : Wired S none (w.accept peer) view := by
  have hu {j} : (w.accept peer).unheard none j = w.unheard none j :=
    Net.unheard_accept <| h.absent le_rfl
  constructor <;> intro j hj
  case absent =>
    have hj : w.size < j := hj
    exact hu ▸ h.absent hj.le
  case line =>
    have hj : j < w.size + 1 := hj
    by_cases hjs : j = w.size
    case pos =>
      subst hjs
      rw [hu, h.absent le_rfl, hv]
      exact Net.conns_accept_size ▸ .fresh hp hr
    case neg =>
      rw [hu]
      exact Net.conns_accept_ne hjs ▸ h.line (by omega)

theorem recv (h : Wired S none w view) (hi : w.inbound = (i, msg) :: rest) :
    Wired S (some (i, msg)) { w with inbound := rest } view :=
  ⟨fun hj => Net.unheard_recv hi ▸ h.absent hj, fun hj => Net.unheard_recv hi ▸ h.line hj⟩

-- The server handles the message in its hand, which takes its view of the session further.
theorem hear (h : Wired S (some (i, msg)) w view) :
    i < w.size ∧ ∃ phase, (w.conns i).role.Says S.codes (view i) msg phase ∧
      Wired S none w (Function.update view i phase) := by
  have hi : w.unheard (some (i, msg)) i = msg :: w.unheard none i := Net.unheard_hand
  have hn {j} (hj : j ≠ i) : w.unheard (some (i, msg)) j = w.unheard none j := Net.unheard_ne hj
  have hl : i < w.size := not_le.mp fun hl => by simpa [hi] using h.absent hl
  have ⟨phase, hs, hp⟩ := (hi ▸ h.line hl).hear
  refine ⟨hl, phase, hs, ⟨fun {j} hj => ?_, fun {j} hj => ?_⟩⟩
  case refine_1 =>
    have hj' : j ≠ i := (hl.trans_le hj).ne'
    exact hn hj' ▸ h.absent hj
  case refine_2 =>
    by_cases hj' : j = i
    case pos => subst hj'; simpa using hp
    case neg => simpa [hj'] using hn hj' ▸ h.line hj

theorem eq_gone_iff (h : Wired S hand w view) (hi : i < w.size) :
    view i = .gone ↔ (w.conns i).task.HungUp ∧ w.unheard hand i = [] :=
  (h.line hi).eq_gone_iff

theorem put (h : Wired S none w view) (hl : Line S.codes { w.conns j with
    sent := (w.conns j).sent ++ [(about, msg)] } phase (w.unheard none j)) :
    Wired S none (w.put about j msg) (Function.update view j phase) where
  absent hi := Net.unheard_put.trans <| h.absent hi
  line {i} hi := by
    rw [Net.unheard_put]
    by_cases hj : i = j
    case pos => subst hj; simpa [Net.put, Net.set] using hl
    case neg => simpa [Net.put, Net.set, hj] using h.line hi

theorem put_client (h : Wired S none w view) (hj : j < w.size) (hr : ¬(w.conns j).role.Exec) :
    Wired S none (w.put about j msg) view := by
  simpa using h.put <| (h.line hj).send_client hr

theorem put_exec (h : Wired S none w view) (hj : j < w.size)
    (hv : view j = .idle ∨ view j = .gone)
    (hm : (∃ details, msg = .task 0 0 details ∧ phase = .busy) ∨ msg = .pissOff ∧
      phase = .released) :
    Wired S none (w.put about j msg)
      (Function.update view j (if view j = .gone then .gone else phase)) :=
  h.put <| (h.line hj).send_exec hv hm

end Wired
end SprayCC
