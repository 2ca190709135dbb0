import SprayCC.Cluster.Strangers
import SprayCC.Farm.Finish

open Async Program

-- How often the tasks are run.

namespace SprayCC

-- A client which has been heard of has submitted its task.
theorem Peer.said_of_submitted {codes : Codes} {details : TaskDetails} {d : List Process.Event}
    (h : d.foldlM (Peer.converses codes) (.client details false) = some (.client details true)) :
    codes.submission details ∈ Process.said d := by
  induction d with
  | nil          => cases h
  | cons ev d hi =>
    obtain ⟨peer, hp, h⟩ := Option.bind_eq_some_iff.mp h
    cases ev
    case heard msg =>
      cases (hp : some _ = some peer)
      exact hi h
    case said msg  =>
      obtain ⟨rfl, _⟩ := Option.ite_none_right_eq_some.mp hp
      exact .head _

-- A client with a partner has submitted its task.
theorem Reach.submitted {S : Setup} {P : Policy} {c : Config} {i : Nat} {details : TaskDetails}
    (h : Reach S P c) (hr : (c.net.conns i).role = .client details)
    (hp : c.server.partner i ≠ none) :
    i < c.net.size ∧ (c.net.conns i).peer = .client details true := by
  have hl : i < c.net.size := by
    obtain ⟨j, hj⟩ := Option.ne_none_iff_exists'.mp hp
    exact h.length ▸ lt_length_of_partnerOf hj
  refine ⟨hl, ?_⟩
  cases hc : (c.net.conns i).peer
  case client details' submitted =>
    obtain rfl : details' = details := by simpa [Conn.role, hc, Peer.role] using hr
    cases submitted
    case true  => rfl
    case false =>
      have hs : c.net.Stranger S.codes i := fun _ => by rw [hc]; rfl
      exact absurd (h.deaf hs).server.partner hp
  case exec | rogue => simp [Conn.role, hc, Peer.role] at hr

theorem Matched.submission {codes : Codes} {i : Nat} {l : Link} {c : Conn} {details : TaskDetails}
    (h : Matched codes i l c) (hp : c.peer = .client details true) :
    (∃ fuel, l.caller = .client details fuel) ∧
      codes.submission details ∈ Process.said (Process.dialogue l.trace) := by
  have hr := h.role_eq
  obtain ⟨_, _, past, coming, h⟩ := h
  have hd := h.peer
  rw [hp] at hd
  cases hc : l.caller
  case client details' fuel =>
    obtain rfl : details = details' := by simpa [Conn.role, hp, hc, Peer.role, Caller.peer] using hr
    rw [hc] at hd
    refine ⟨⟨fuel, rfl⟩, ?_⟩
    rw [h.dialogue, Process.said_append]
    exact List.mem_append_left _ <| Peer.said_of_submitted hd
  case exec => simp [Conn.role, hp, hc, Peer.role, Caller.peer] at hr

namespace Farm

variable {S : Setup} {F : Farm} {e n : Nat} {details : TaskDetails}

-- The client on whose account an exec has been sent a task has submitted the task.
theorem Simulated.owner {σ : Cluster} (hσ : F.Simulated S σ)
    (hr : Cluster.Reaches S.roomier .wellBehaved σ) (hs : F.Starts e n details) :
    ∃ i, (σ.net.conns e).sent[n]? = some (i, .task 0 0 details) ∧ i < F.size ∧
      (∃ fuel, (F.links i).caller = .client details fuel) ∧
        S.codes.submission details ∈ Process.said (Process.dialogue (F.links i).trace) := by
  have hw := hσ.right
  have ⟨_, _, hreach⟩ := hr.reached
  have hman := hreach.mannered Policy.tame_wellBehaved
  obtain ⟨he, hc, a, u, hn⟩ := hs
  have ⟨i, hi⟩ := (hw.links he).sent_of_heard hn
  obtain ⟨rfl, rfl⟩ := (hw.links he).orders (hman e) hc (List.mem_of_getElem? hn)
  have htells := hreach.tells Policy.tame_wellBehaved
  have ⟨hrole, hp⟩ := htells.owned ((Config.Tells.job_iff hman).mpr hi)
  have ⟨hl, hp⟩ := hreach.submitted hrole hp
  exact ⟨i, hi, hw.size ▸ hl, (hw.links (hw.size ▸ hl)).submission hp⟩

-- Each time an exec is sent a task, this is for another client, which has submitted the task
-- before.
theorem Reaches.started_once (h : F.Reaches S) :
    ∃ owner : Nat → Nat → Nat,
      (∀ e n details, F.Starts e n details → owner e n < F.size ∧
        (∃ fuel, (F.links (owner e n)).caller = .client details fuel) ∧
        S.codes.submission details ∈
          Process.said (Process.dialogue (F.links (owner e n)).trace)) ∧
      ∀ e n details e' n' details', F.Starts e n details → F.Starts e' n' details' →
        owner e' n' = owner e n → e' = e ∧ n' = n := by
  have ⟨σ, hr, hσ⟩ := h.simulated
  have ⟨_, _, hreach⟩ := hr.reached
  have hman := hreach.mannered Policy.tame_wellBehaved
  have htells := hreach.tells Policy.tame_wellBehaved
  refine ⟨fun e n => ((σ.net.conns e).sent[n]?.map Prod.fst).getD 0, ?_, ?_⟩
  case refine_1 =>
    intro e n details hs
    have ⟨i, hi, ho⟩ := hσ.owner hr hs
    simpa only [hi, Option.map_some, Option.getD_some] using ho
  case refine_2 =>
    intro e n details e' n' details' hs hs' he
    obtain ⟨i, hi, _⟩ := hσ.owner hr hs
    obtain ⟨i', hi', _⟩ := hσ.owner hr hs'
    simp only [hi, hi', Option.map_some, Option.getD_some] at he
    subst he
    exact htells.once ((Config.Tells.job_iff hman).mpr hi) ((Config.Tells.job_iff hman).mpr hi')

-- The exec of `tour` is sent the task of the client.
theorem started_once_tour :
    ∃ F, Reaches .plain F ∧ F.Starts 0 0 tourTask ∧ ∃ owner : Nat → Nat → Nat,
      ∀ n e' n' details', F.Starts 0 n tourTask → F.Starts e' n' details' →
        owner e' n' = owner 0 n → e' = 0 ∧ n' = n := by
  have ⟨F, h, hs⟩ := Reaches.of_run (S := .plain) (f := fun F => 1 ≤ F.size ∧
    (F.links 0).caller.peer.role = .exec false ∧
      (Process.heard (Process.dialogue (F.links 0).trace))[0]? = some (.task 0 0 tourTask))
    tour (by decide +kernel)
  have ⟨owner, _, ho⟩ := h.started_once
  refine ⟨F, h, .of_heard (of_decide_eq_true hs), owner, fun n e' n' details' hs hs' he => ?_⟩
  exact ho 0 n tourTask e' n' details' hs hs' he

end Farm
end SprayCC
