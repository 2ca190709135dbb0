import SprayCC.Cluster.Refinement
import SprayCC.Cluster.Invariant
import SprayCC.Process.Peers

-- What kinds of messages the server puts on the channels of its remotes.

namespace SprayCC

-- An exec is only sent orders, and a client only results.
structure Conn.Mannered (c : Conn) : Prop where
  order  : c.role.Exec → ∀ m ∈ c.sent, m.snd.Order
  result : ¬c.role.Exec → ∀ m ∈ c.sent, m.snd.Result

def Net.Mannered (w : Net) : Prop :=
  ∀ i, (w.conns i).Mannered

namespace Net.Mannered

variable {w w' : Net} {about dest : Nat} {msg : Message}

theorem put (h : w.Mannered) (ho : (w.conns dest).role.Exec → msg.Order)
    (hr : ¬(w.conns dest).role.Exec → msg.Result) : (w.put about dest msg).Mannered := by
  intro i
  have hs {m} (hm : m ∈ ((w.put about dest msg).conns i).sent) :
      m ∈ (w.conns i).sent ∨ i = dest ∧ m.snd = msg := by
    rw [Net.sent_put] at hm
    split at hm
    case isFalse   => exact .inl hm
    case isTrue hd =>
      subst hd
      exact (List.mem_append.mp hm).imp_right fun hm => ⟨rfl, by rw [List.mem_singleton.mp hm]⟩
  constructor <;> rw [Net.role_put] <;> intro hi m hm
  case order =>
    rcases hs hm with hm | ⟨rfl, he⟩
    case inl => exact (h i).order hi m hm
    case inr => exact he ▸ ho hi
  case result =>
    rcases hs hm with hm | ⟨rfl, he⟩
    case inl => exact (h i).result hi m hm
    case inr => exact he ▸ hr hi

theorem accept {peer : Peer} (h : w.Mannered) : (w.accept peer).Mannered := by
  intro i
  by_cases hi : i = w.size
  case pos => exact hi ▸ Net.conns_accept_size ▸ ⟨nofun, nofun⟩
  case neg => exact Net.conns_accept_ne hi ▸ h i

theorem act {S : Setup} {a : Act} (h : w.Mannered) (ha : w.step S a = some w') : w'.Mannered := by
  intro i
  have ⟨_, _, hm⟩ := Net.step_moved ha
  have hr : (w'.conns i).role = (w.conns i).role :=
    hm.forall_conns (P := fun c c' => c'.role = c.role) (fun _ => rfl) Conn.Step.role_eq i
  have hn : (w'.conns i).sent = (w.conns i).sent :=
    hm.forall_conns (P := fun c c' => c'.sent = c.sent) (fun _ => rfl) Conn.Step.sent_eq i
  exact ⟨fun he => hn ▸ (h i).order (hr ▸ he), fun he => hn ▸ (h i).result (hr ▸ he)⟩

end Net.Mannered

namespace Config.Sound

variable {S : Setup} {P : Policy} {c c' : Config} {s s' : ServerState} {w w' : Net} {i j : Nat}
variable {msg : Message} {view : Nat → Phase} {hand : Option (Nat × Message)}

-- A message for the partner of a busy exec is one for a client.
theorem put_partner {about : Nat} (hs : Sound S ⟨s, hand, w⟩ view) (hm : w.Mannered)
    (hv : view i = .busy) (hp : s.partner i = some j) (hr : msg.Result) :
    (w.put about j msg).Mannered := by
  have ⟨_, _, hj, _⟩ := hs.serves hv hp
  exact hm.put (fun he => by simp [hj] at he) fun _ => hr

theorem forwards_mannered (hs : Sound S ⟨s, some (i, msg), w⟩ view) (hm : w.Mannered)
    (hr : msg.Result) (hf : Forwards P i msg s w s' w') : w'.Mannered := by
  have ⟨_, _, hspoke, _⟩ := hs.wired.hear
  have hv := (hspoke.of_result hr).right.left
  cases hf
  case sent hp _ _ _  => exact hs.put_partner hm hv hp hr
  case lost | skipped => exact hm

theorem move_mannered (hs : c.Sound S view) (hm : c.net.Mannered) (m : Move S P c c') :
    c'.net.Mannered := by
  cases m
  case act ha                => exact hm.act ha
  case accept                => exact hm.accept
  case output hr _ hf        => exact hs.forwards_mannered hm hr hf
  case complete ht hf        => exact hs.forwards_mannered hm ht.result hf
  case dropBusy hk hp _ _    => exact hs.put_partner hm (hs.busy hk hp) hp trivial
  case assign he _ _ _ _ _ _ _ =>
    exact hm.put (fun _ => ⟨rfl, rfl⟩) fun hn => absurd (hs.queued he).left hn
  case release he _ _ _      =>
    exact hm.put (fun _ => trivial) fun hn => absurd (hs.queued he).left hn
  all_goals exact hm

end Config.Sound

theorem Reach.mannered {S : Setup} {P : Policy} {c : Config} (h : Reach S P c) (ht : P.Tame) :
    c.net.Mannered := by
  induction h with
  | start       => exact fun _ => ⟨nofun, nofun⟩
  | move h m hi => exact have ⟨_, hs⟩ := h.sound ht; hs.move_mannered hi m

end SprayCC
