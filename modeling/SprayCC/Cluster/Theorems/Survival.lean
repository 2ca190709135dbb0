import SprayCC.Cluster.Attachment

namespace SprayCC

-- Whenever a send is one whose failure is passed up, the receiver of the channel is still there.
theorem Reach.not_error {S : Setup} {c : Config} {text : String}
    (h : Reach S (.and .wellBehaved .lossSpared) c) :
    ¬Fails (.and .wellBehaved .lossSpared) c (.error text) := by
  have ha := h.attached
  have ⟨_, hs⟩ := h.sound Policy.tame_and
  intro hf
  cases hf
  case assign he ho _  => exact ho (ha.there <| ha.idle <| he ▸ .head _).opened
  case release he ho _ => exact ho (ha.there <| ha.idle <| he ▸ .head _).opened
  case notice e _ s hk hp ho _ =>
    -- The exec is gone, and so the task which it was sent last is not finished.
    have hv := hs.busy hk hp
    have ⟨_, hsv, _⟩ := hs.serves hv hp
    have ⟨hl, phase, hr, hw⟩ := hs.wired.hear
    obtain ⟨_, rfl⟩ := hr.of_dropped
    have ⟨hg, hu⟩ := hw.eq_gone_iff hl |>.mp (Function.update_self ..)
    have hn : e ∉ s.execQueue := fun he => by
      rcases (hs.ledger.queued (i := e) he).right.right with hi | hi
      case inl => exact nomatch hi.symm.trans hv
      case inr => exact nomatch hi.symm.trans hv
    have hb := (ha.busy hk hn).resolve_right fun ⟨m, hm, ht⟩ => by
      rw [Net.unheard_hand, hu] at hm
      exact (List.mem_singleton.mp hm ▸ ht : Message.dropped.Terminal)
    refine ho <| ha.apart hl hg ?_ fun ⟨m, hm, ht⟩ => hsv.unsolved m hm ht
    rw [Conn.client, if_pos hb]
    exact congrArg (Option.map Prod.fst) hsv.last

namespace Cluster

variable {S : Setup} {σ : Cluster}

-- The server does not fail for as long as the losses are spared.
theorem Reaches.error_eq_none (h : Reaches S (.and .wellBehaved .lossSpared) σ) :
    σ.main.error = none := by
  cases hm : σ.main
  case faulted f =>
    have ⟨c, hc, hf⟩ := h.explained hm
    cases f
    case error text => exact absurd hf hc.not_error
    all_goals rfl
  all_goals rfl

theorem error_eq_none_tour :
    ∃ σ, Reaches .plain (.and .wellBehaved .lossSpared) σ ∧ σ.net.size = 3 ∧
      σ.main.error = none :=
  have ⟨σ, h, hs⟩ := Reaches.of_run (f := fun σ => σ.net.size = 3) tour (by decide +kernel)
  ⟨σ, h, of_decide_eq_true hs, h.error_eq_none⟩

-- An idle exec drops its connection. It is still queued, and so it is the one which is sent the
-- next task, on a channel whose receiver is gone.
theorem idle_exec_lost :
    ¬∀ S σ, Reaches S .wellBehaved σ → σ.main.error = none := by
  intro h
  have ⟨σ, hr, he⟩ :=
    Reaches.of_run (S := .plain) (P := .wellBehaved) (f := fun σ => σ.main.error.isSome)
    [.accept (.exec false .fresh 0), .check 0, .act (.speaks 0 (Setup.plain.codes.hello false)),
      .recv 0, .clock 0, .finish, .check 0,
      .act (.ends 0), .act (.closes 0), .recv 0, .clock 0, .finish, .check 0,
      .accept (.client .plain false), .check 0,
        .act (.speaks 1 (Setup.plain.codes.submission .plain)),
      .recv 1, .clock 0, .spawned true, .picked 0, .send, .finish] (by decide +kernel)
  simp [h _ _ hr] at he

end Cluster
end SprayCC
