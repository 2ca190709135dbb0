import SprayCC.Cluster.Wire

-- A connection task and its channels, when both of these are full.

namespace SprayCC

-- The task waits for room on the inbound channel.
def ConnTask.Waits : ConnTask → Prop
  | forwarding _ | ending => True
  | _                     => False

instance : DecidablePred ConnTask.Waits
  | .forwarding _ | .ending                       => .isTrue trivial
  | .select | .noticed | .closed | .failed        => .isFalse id

theorem ConnTask.Waits.opened {t : ConnTask} (h : t.Waits) : t.Open := by
  cases t <;> first | exact trivial | exact h.elim

theorem Conn.Step.taken_eq {codes : Codes} {c c' : Conn} {a : Act} {ms : List Message}
    (h : c.Step codes a ms c') (hw : c'.task.Waits) : c'.taken = c.taken := by
  cases h
  case speaks hs _             => cases hs <;> rfl
  case takes ht _ | breaks _ _ => simp_all [ConnTask.Waits]
  all_goals rfl

theorem Conn.Step.task_eq {codes : Codes} {c c' : Conn} {a : Act} {ms : List Message}
    (h : c.Step codes a ms c') (hw : c.task.Waits) (hp : ∀ i, a ≠ .pushes i) :
    c'.task = c.task := by
  cases h
  case pushes | notices            => exact absurd rfl <| hp _
  case starts hc _ _ | leaves hc _ _ => rfl
  all_goals simp_all [ConnTask.Waits]

-- The connection task reads from its socket.
def Act.Hears : Act → Prop
  | speaks .. | ends _ => True
  | _                  => False

-- The connection task has a message for the server.
def Act.Offers : Act → Prop
  | speaks .. | ends _ | pushes _ => True
  | _                             => False

instance : DecidablePred Act.Hears
  | .speaks .. | .ends _ => .isTrue trivial
  | .pushes _ | .closes _ | .takes _ | .breaks _ | .reads _ => .isFalse id

instance : DecidablePred Act.Offers
  | .speaks .. | .ends _ | .pushes _ => .isTrue trivial
  | .closes _ | .takes _ | .breaks _ | .reads _ => .isFalse id

namespace Net

variable {S : Setup} {w w' : Net} {a : Act} {i r : Nat} {c : Conn} {msg : Message}
  {next wait : ConnTask}

theorem length_inbound_offer :
    (w.offer S i c msg next wait).inbound.length =
      w.inbound.length + if w.Room S then 1 else 0 := by
  unfold offer
  split <;> simp [set]

theorem task_offer :
    ((w.offer S i c msg next wait).conns i).task = if w.Room S then next else wait := by
  unfold offer
  split <;> simp [set]

theorem length_inbound (hs : w.step S a = some w') :
    w'.inbound.length = w.inbound.length + if a.Offers ∧ w.Room S then 1 else 0 := by
  cases a <;> simp only [step, Option.ite_none_right_eq_some] at hs
  case speaks =>
    obtain ⟨c, _, hw⟩ := Option.map_eq_some_iff.mp hs.right
    simpa [Act.Offers] using hw ▸ length_inbound_offer
  case ends =>
    simpa [Act.Offers] using Option.some.inj hs.right ▸ length_inbound_offer
  case pushes =>
    obtain ⟨_, hs⟩ := hs
    split at hs
    case h_1 | h_2 => simpa [Act.Offers] using Option.some.inj hs ▸ length_inbound_offer
    case h_3       => cases hs
  case closes | takes | breaks => simp [← Option.some.inj hs.right, Act.Offers, set]
  case reads =>
    obtain ⟨c, _, hw⟩ := Option.map_eq_some_iff.mp hs.right
    simp [← hw, Act.Offers, set]

-- A task waits after its own step if it hears something for which there is no room, or if the step
-- has not been about what the task has waited with.
theorem waits_iff (hs : w.step S a = some w') :
    (w'.conns a.conn).task.Waits ↔
      a.Hears ∧ ¬w.Room S ∨ ¬a.Offers ∧ (w.conns a.conn).task.Waits := by
  cases a <;> simp only [step, Option.ite_none_right_eq_some] at hs <;> rw [Act.conn]
  case speaks =>
    obtain ⟨c, _, hw⟩ := Option.map_eq_some_iff.mp hs.right
    rw [← hw, task_offer]
    split <;> simp_all [ConnTask.Waits, Act.Hears, Act.Offers]
  case ends =>
    rw [← Option.some.inj hs.right, task_offer]
    split <;> simp_all [ConnTask.Waits, Act.Hears, Act.Offers]
  case pushes =>
    obtain ⟨⟨_, hr⟩, hs⟩ := hs
    split at hs
    case h_1 | h_2 =>
      rw [← Option.some.inj hs, task_offer, if_pos hr]
      simp [ConnTask.Waits, Act.Hears, Act.Offers]
    case h_3 => cases hs
  case closes | takes | breaks =>
    rw [← Option.some.inj hs.right]
    simp [set, ConnTask.Waits, Act.Hears, hs.left.right]
  case reads =>
    obtain ⟨c, hc, hw⟩ := Option.map_eq_some_iff.mp hs.right
    simp [← hw, set, Conn.task_of_reads hc, Act.Hears, Act.Offers]

theorem full_iff (hs : w.step S a = some w') (hw : (w'.conns r).task.Waits) :
    w'.Full S r ↔ w.Full S r := by
  have ⟨_, c, hm⟩ := step_moved hs
  simp only [Full, hm.conns] at hw ⊢
  by_cases hr : r = a.conn
  case neg => simp [hr]
  case pos =>
    subst hr
    simp only [Function.update_self] at hw ⊢
    rw [hm.conn.sent_eq, hm.conn.taken_eq hw]
    simp [hw.opened, hm.conn.open_of hw.opened]

theorem pushes_isSome (h : r < w.size) (ht : (w.conns r).task.Waits) (hr : w.Room S) :
    (w.step S (.pushes r)).isSome := by
  cases hc : (w.conns r).task <;> simp_all [step, ConnTask.Waits]

theorem send_isSome (h : ¬w.Full S r) (about : Nat) (msg : Message) :
    (w.send S about r msg).isSome := by
  unfold send
  split <;> [contradiction; split <;> rfl]

-- The step of a connection after which both remote `r` and the main loop would wait for each other,
-- if the main loop already waits for the remote: either the remote itself has something to say for
-- which there is no room, or it waits already and another one takes the last room.
def Traps (S : Setup) (w : Net) (r : Nat) (a : Act) : Prop :=
  if a.conn = r then a.Hears ∧ ¬w.Room S
  else a.Offers ∧ (w.conns r).task.Waits ∧ w.inbound.length + 1 = S.inboundCap

-- Both channels between remote `r` and the main loop are full, and the remote waits for room.
structure Jam (S : Setup) (w : Net) (r : Nat) : Prop where
  waits  : (w.conns r).task.Waits
  full   : w.Full S r
  noRoom : ¬w.Room S

theorem jam_iff (hs : w.step S a = some w') (hn : ¬w.Jam S r) :
    w'.Jam S r ↔ w.Full S r ∧ w.Traps S r a := by
  have hl := length_inbound hs
  unfold Traps
  split
  case isTrue ha =>
    subst ha
    constructor
    case mp =>
      intro ⟨ht, hf, hr⟩
      have hf := (full_iff hs ht).mp hf
      rcases (waits_iff hs).mp ht with hh | ⟨ho, hw⟩
      case inl => exact ⟨hf, hh⟩
      case inr => exact absurd ⟨hw, hf, by simpa [Room, hl, ho] using hr⟩ hn
    case mpr =>
      intro ⟨hf, hh, hr⟩
      have ht := (waits_iff hs).mpr <| .inl ⟨hh, hr⟩
      have hl : w'.inbound.length = w.inbound.length := by simpa [hr] using hl
      exact ⟨ht, (full_iff hs ht).mpr hf, by simpa [Room, hl] using hr⟩
  case isFalse ha =>
    have ⟨_, c, hm⟩ := step_moved hs
    have hc : w'.conns r = w.conns r := by simp [hm.conns, Ne.symm ha]
    constructor
    case mp =>
      intro ⟨ht, hf, hr⟩
      have hf := (full_iff hs ht).mp hf
      have ht := hc ▸ ht
      have hr' : w.Room S := by_contra fun hr => hn ⟨ht, hf, hr⟩
      refine ⟨hf, ?_⟩
      unfold Room at *
      split at hl
      case isTrue h  => exact ⟨h.left, ht, by omega⟩
      case isFalse h => omega
    case mpr =>
      intro ⟨hf, ho, ht, hr⟩
      have ht' := hc ▸ ht
      have hr' : w.Room S := by unfold Room; omega
      have hl : w'.inbound.length = w.inbound.length + 1 := by simpa [ho, hr'] using hl
      exact ⟨ht', (full_iff hs ht').mpr hf, by simp [Room, hl, hr]⟩

-- No step of a connection gets the channels going again.
theorem Jam.step (h : w.Jam S r) (hs : w.step S a = some w') :
    w'.Jam S r ∧ (w'.conns r).task = (w.conns r).task := by
  have ⟨hw, hf, hr⟩ := h
  have ⟨_, c, hm⟩ := step_moved hs
  have hl : w'.inbound.length = w.inbound.length := by simpa [hr] using length_inbound hs
  have ht : (w'.conns r).task = (w.conns r).task := by
    by_cases ha : r = a.conn
    case neg => simp [hm.conns, ha]
    case pos =>
      subst ha
      rw [hm.conns, Function.update_self]
      refine hm.conn.task_eq hw fun i ha => ?_
      subst ha
      simp only [step, Option.ite_none_right_eq_some] at hs
      exact hr hs.left.right
  have hw' : (w'.conns r).task.Waits := ht ▸ hw
  exact ⟨⟨hw', (full_iff hs hw').mpr hf, by simpa [Room, hl] using hr⟩, ht⟩

end Net

end SprayCC
