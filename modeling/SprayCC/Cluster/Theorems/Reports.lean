import SprayCC.Cluster.Turns
import SprayCC.Server.Figures

open Async Program

-- What the server reports over a session.

namespace SprayCC

namespace ServerState

-- The line of a report has the figures of the server.
def Status.Has (line : Status) (f : Figures) (period : Nat) : Prop :=
  line.finished = f.finished ∧ line.submitted = f.submitted ∧ line.perSecond = f.period / period

theorem reportStatus_has {s : ServerState} {period : Nat} :
    (s.reportStatus period).Always (fun status => ∀ line ∈ status, line.Has s.figures period)
      fun _ => True := by
  apply always_bind.mpr
  apply always_true.mono _ fun _ => id
  intro _ _
  apply always_bind.mpr
  apply always_true.mono _ fun _ => id
  intro _ _
  split
  case isTrue  => exact fun _ he => Option.some.inj he ▸ ⟨rfl, rfl, rfl⟩
  case isFalse => exact nofun

end ServerState

open ServerState

namespace Cluster

def Figured (f : Figures) (σ : Cluster) : Prop :=
  match σ.main with
  | .select s | .checking s | .shutdown s => s.figures = f
  | .running _ _ _ p                      => Prints f p
  | .faulted _                            => True

variable {S : Setup} {σ σ' : Cluster} {l : Label} {evs : List Event} {s : ServerState}
variable {f : Figures}

theorem Turn.figured (t : σ.Turn S l σ') (h : σ.Figured (.of evs)) :
    σ'.Figured (.of (evs ++ σ.handles l)) := by
  cases t
  case recv i msg _ _ _ _ hi =>
    simp only [handles, hi, Figures.of_concat]
    exact h ▸ onEvent_prints
  case tick              =>
    simp only [handles, Figures.of_concat]
    exact h ▸ onEvent_prints
  case answer c _ a _    => cases c <;> exact (List.append_nil evs).symm ▸ h a
  case fail              => trivial
  case check s _ now     =>
    cases ho : s.okToShutdown now <;> simpa [Figured, handles, ho] using h
  all_goals exact (List.append_nil evs).symm ▸ h

theorem Handled.figured (h : Handled S σ evs) : σ.Figured (.of evs) := by
  induction h with
  | start         => rfl
  | step _ hs hi  => exact (turn_of_step hs).figured hi

theorem Figured.resting (h : σ.Figured f) (hs : σ.main.resting = some s) : s.figures = f := by
  unfold Figured at h
  split at h <;> simp_all [Main.resting]

-- Whatever its remotes do, the server counts what it has received, and this is what it reports
-- whenever its watchdog goes off.
theorem Handled.reports (h : Handled S σ evs) (hs : σ.main.resting = some s) :
    s.figures = .of evs ∧ ∀ fuel, (update fuel s >>= fun s => s.reportStatus 5).Always
      (fun status => ∀ line ∈ status, line.Has (.of evs) 5) fun _ => True := by
  have hf := h.figured.resting hs
  refine ⟨hf, fun _ => always_bind.mpr <| (update_prints hf).mono (fun s' hs' => ?_) fun _ => id⟩
  exact hs' ▸ reportStatus_has

-- Of the two tasks of the tour, one is finished.
theorem reports_tour :
    ∃ σ s evs, Handled .plain σ evs ∧ σ.main.resting = some s ∧
      Figures.of evs = ⟨2, 1, 2, 2, 7, 8, 8⟩ ∧ s.figures = .of evs ∧
        ∀ fuel, (update fuel s >>= fun s => s.reportStatus 5).Always
          (fun status => ∀ line ∈ status, line.Has (.of evs) 5) fun _ => True := by
  have hr : (handleAlong .plain tour (Cluster.start .plain, [])).any fun (σ, evs) =>
      σ.main.resting.isSome && Figures.of evs = ⟨2, 1, 2, 2, 7, 8, 8⟩ := by decide +kernel
  have ⟨⟨σ, evs⟩, hr, hf⟩ := Option.any_eq_true .. |>.mp hr
  have ⟨hs, hf⟩ := Bool.and_eq_true_iff.mp hf
  have ⟨s, hs⟩ := Option.isSome_iff_exists.mp hs
  have h := Handled.start.run hr
  have ⟨ht, hu⟩ := h.reports hs
  exact ⟨σ, s, evs, h, hs, of_decide_eq_true hf, ht, hu⟩

end Cluster
end SprayCC
