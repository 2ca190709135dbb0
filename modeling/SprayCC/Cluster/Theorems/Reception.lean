import SprayCC.Cluster.Listening
import SprayCC.Cluster.Theorems.Delivery

-- What is written to the socket of a client, whether it listens or not.

namespace SprayCC

-- What the connection task of client `i` has taken from its channel is about the task which the
-- client has submitted, which was the message at position `n` on the channel of exec `e`.
structure Received (w : Net) (i : Nat) (details : TaskDetails) (e n : Nat) : Prop where
  present    : e < w.size
  exec       : (w.conns e).role.Exec
  job        : (w.conns e).sent[n]? = some (i, .task 0 0 details)
  only       : ∀ {e' n' details'}, (w.conns e').sent[n']? = some (i, .task 0 0 details') →
    e' = e ∧ n' = n
  origin     : ∀ m ∈ (w.conns i).sent.take (w.conns i).taken, m.fst = e
  transcript : Transcript (account ((w.conns e).results n) (w.conns e).task.HungUp)
  told       : ((w.conns i).sent.take (w.conns i).taken).map Prod.snd <+:
    account ((w.conns e).results n) (w.conns e).task.HungUp

namespace Config.Tells

variable {c : Config} {i e n : Nat} {details : TaskDetails} {view : Nat → Phase}

theorem exec_of_job (hm : c.net.Mannered)
    (h : (c.net.conns e).sent[n]? = some (i, .task 0 0 details)) : (c.net.conns e).role.Exec := by
  by_contra hr
  exact (hm e).result hr _ (List.mem_of_getElem? h)

theorem job_iff (hm : c.net.Mannered) {e n i details} :
    ((c.server.ledger c.net view).heard c.net.deaf c.net.got).Job e n i details ↔
      (c.net.conns e).sent[n]? = some (i, .task 0 0 details) where
  mp h  := h.of_prefix Ledger.sent_heard_prefix
  mpr h := by
    have hr := exec_of_job hm h
    have hs : ((c.server.ledger c.net view).heard c.net.deaf c.net.got).sent e =
        (c.net.conns e).sent := Ledger.sent_heard_of_exec (fun _ => not_exec) hr
    exact (congrArg (·[n]?) hs).trans h

theorem received (h : c.Tells) (hm : c.net.Mannered) (hw : c.net.Works)
    (hr : (c.net.conns i).role = .client details) :
    (c.net.conns i).sent.take (c.net.conns i).taken = [] ∨ ∃ e n, Received c.net i details e n := by
  have hp : (c.net.conns i).sent.take (c.net.conns i).taken <+:
      ((c.server.ledger c.net fun _ => .pending).heard c.net.deaf c.net.got).sent i := by
    show _ <+: (if _ then _ else _)
    split
    case isTrue  => exact List.prefix_rfl
    case isFalse => exact List.take_prefix ..
  cases hs : (c.net.conns i).sent.take (c.net.conns i).taken
  case nil => exact .inl rfl
  case cons m _ =>
    have hk {m} (hm : m ∈ (c.net.conns i).sent.take (c.net.conns i).taken) :=
      h.known hr (hp.subset hm)
    have ⟨n, hj⟩ := hk (m := m) (by simp [hs])
    have hn := (job_iff hm).mp hj
    have hz : m.fst < c.net.size := by
      by_contra hz
      have hs := h.absent (not_lt.mp hz)
      rw [Ledger.Job, hs] at hj
      cases hj
    refine .inr ⟨m.fst, n, hz, exec_of_job hm hn, hn, fun hj' => h.once hj ((job_iff hm).mpr hj'),
      fun m' hm' => ?_, (hw _).transcript n |>.account, (hp.map _).trans (h.told hj)⟩
    exact have ⟨_, hj'⟩ := hk hm'; (h.once hj hj').left

end Config.Tells

namespace Cluster

variable {S : Setup} {σ : Cluster} {i : Nat} {details : TaskDetails}

-- Also a client which has dropped its connection has only got the first of the messages about its
-- task, although the server may go on to send it others.
theorem Reaches.received_first (h : Reaches S .wellBehaved σ)
    (hr : (σ.net.conns i).role = .client details) :
    (σ.net.conns i).sent.take (σ.net.conns i).taken = [] ∨
      ∃ e n, Received σ.net i details e n := by
  have ⟨_, _, hc⟩ := h.reached
  have hm := hc.mannered Policy.tame_wellBehaved
  exact (hc.tells Policy.tame_wellBehaved).received hm hc.works hr

-- The first client of `tour` drops its connection once it has got what there is.
theorem received_tour :
    ∃ σ, Reaches .plain .wellBehaved σ ∧ (σ.net.conns 1).task = .closed ∧
      (σ.net.conns 1).taken = 2 ∧
      ((σ.net.conns 1).sent.take (σ.net.conns 1).taken = [] ∨
        ∃ e n, Received σ.net 1 .plain e n) := by
  have ⟨σ, h, hs⟩ := Reaches.of_run (S := .plain) (P := .wellBehaved)
    (f := fun σ => (σ.net.conns 1).task = .closed ∧ (σ.net.conns 1).taken = 2 ∧
      (σ.net.conns 1).role = .client .plain) tour (by decide +kernel)
  have ⟨ht, hn, hr⟩ := of_decide_eq_true hs
  exact ⟨σ, h, ht, hn, h.received_first hr⟩

end Cluster
end SprayCC
