import SprayCC.Cluster.Delivery
import SprayCC.Cluster.Refinement

namespace SprayCC

theorem Transcript.account {ms : List Message} {ended : Bool} (h : Transcript ms) :
    Transcript (account ms ended) := by
  unfold SprayCC.account
  split
  case isTrue hn => exact h.snoc hn.right trivial
  case isFalse   => exact h

-- What client `i` has been sent about the task it has submitted, which was the message at position
-- `n` on the channel of exec `e`.
structure Delivered (w : Net) (i : Nat) (details : TaskDetails) (e n : Nat) : Prop where
  job        : (w.conns e).sent[n]? = some (i, .task 0 0 details)
  only       : ∀ {e' n' details'}, (w.conns e').sent[n']? = some (i, .task 0 0 details') →
    e' = e ∧ n' = n
  origin     : ∀ m ∈ (w.conns i).sent, m.fst = e
  transcript : Transcript (account ((w.conns e).results n) (w.conns e).task.HungUp)
  told       : (w.conns i).sent.map Prod.snd <+:
    account ((w.conns e).results n) (w.conns e).task.HungUp

theorem Config.Delivers.told_of_sent {c : Config} {i : Nat} {details : TaskDetails} (h : c.Delivers)
    (hw : c.net.Works) (hr : (c.net.conns i).role = .client details) :
    (c.net.conns i).sent = [] ∨ ∃ e n, Delivered c.net i details e n := by
  cases hs : (c.net.conns i).sent
  case nil => exact .inl rfl
  case cons m _ =>
    have hm : m ∈ (c.net.conns i).sent := by simp [hs]
    have ⟨n, hj⟩ := h.known hr hm
    refine .inr ⟨m.fst, n, hj, h.once hj, fun m' hm' => ?_, ?_, h.told hj⟩
    · exact have ⟨_, hj'⟩ := h.known hr hm'; (h.once hj hj').left
    · exact (hw _).transcript n |>.account

namespace Cluster

variable {S : Setup} {σ : Cluster} {i : Nat} {details : TaskDetails}

-- At any time a client has been sent the first of the messages about its task.
theorem Reaches.delivered (h : Reaches S (.and .wellBehaved (.goneSpared (· = droppedNotice))) σ)
    (hr : (σ.net.conns i).role = .client details) :
    (σ.net.conns i).sent = [] ∨ ∃ e n, Delivered σ.net i details e n := by
  have ⟨s, hand, hc⟩ := h.reached
  have hd := hc.delivers Policy.tame_and (.and_right <| Policy.goneSpared_spares rfl)
  exact hd.told_of_sent hc.works hr

theorem delivered_tour :
    ∃ σ, Reaches .plain (.and .wellBehaved (.goneSpared (· = droppedNotice))) σ ∧ σ.net.size = 3 ∧
      ((σ.net.conns 1).sent = [] ∨ ∃ e n, Delivered σ.net 1 .plain e n) :=
  have ⟨σ, h, hs⟩ := Reaches.of_run
    (f := fun σ => σ.net.size = 3 ∧ (σ.net.conns 1).role = .client .plain) tour (by decide +kernel)
  have ⟨hn, hr⟩ := of_decide_eq_true hs
  ⟨σ, h, hn, h.delivered hr⟩

-- A client drops its connection while its task runs, and so it is not sent an output of the task.
-- Then the exec drops its connection too, and the client is sent a notice of that.
theorem gone_client_notified :
    ¬∀ S σ i details, Reaches S .wellBehaved σ → (σ.net.conns i).role = .client details →
      (σ.net.conns i).sent = [] ∨ ∃ e n, Delivered σ.net i details e n := by
  intro h
  have ⟨σ, hr, hs⟩ := Reaches.of_run (S := .plain) (P := .wellBehaved)
    (f := fun σ => (σ.net.conns 1).role = .client .plain ∧
      (σ.net.conns 1).sent = [(0, droppedNotice)] ∧
      (σ.net.conns 0).sent = [(1, .task 0 0 .plain)] ∧
      (σ.net.conns 0).results 0 = [.taskOutput .stdout [104, 105]])
    (tour.take 20 ++ [.act (.ends 1), .recv 0, .clock 0, .finish, .check 0,
      .act (.speaks 0 (.taskOutput .stdout [104, 105])), .recv 0, .clock 0, .finish, .check 0,
      .act (.ends 0), .recv 0, .send, .clock 0, .finish]) (by decide +kernel)
  have ⟨hp, hc, he, hm⟩ := of_decide_eq_true hs
  rcases h _ _ _ _ hr hp with hn | ⟨e, n, hd⟩
  case inl => simp [hc] at hn
  case inr =>
    obtain rfl : 0 = e := hd.origin (0, droppedNotice) (by simp [hc])
    have hj : (σ.net.conns 0).sent[0]? = some (1, .task 0 0 .plain) := by simp [he]
    have ⟨_, hn⟩ := hd.only hj
    have ht := hd.told
    simp only [hc, ← hn, hm, account] at ht
    split at ht <;> simp [droppedNotice] at ht

end Cluster
end SprayCC
