import SprayCC.Cluster.Assignment
import SprayCC.Cluster.Turns

open Async Program

-- Which tasks are assigned, and to which execs.

namespace SprayCC
namespace ServerState

-- No task waits while there is an exec for it.
def Balanced (s : ServerState) : Prop :=
  s.taskQueue = [] ∨ s.execQueue = []

-- Whatever a program is answered, it comes to a server in which no task waits while there is an
-- exec.
abbrev Balances (p : Proc ServerState) : Prop :=
  p.Always Balanced fun _ => True

-- The program does not touch the queues of a server.
abbrev KeepsQueues (s : ServerState) (p : Proc ServerState) : Prop :=
  p.Always (fun s' => s'.taskQueue = s.taskQueue ∧ s'.execQueue = s.execQueue) fun _ => True

variable {s : ServerState} {fuel connId : Nat} {msg : Message} {ev : Event}

theorem Balanced.of_keeps {p : Proc ServerState} (h : s.Balanced) (hp : s.KeepsQueues p) :
    Balances p :=
  hp.mono (fun _ ⟨ht, he⟩ => by rwa [Balanced, ht, he]) fun _ => id

theorem KeepsQueues.of_onlyRemotes {p : Proc ServerState} (hp : s.OnlyRemotes p) :
    s.KeepsQueues p := by
  refine hp.mono (fun s' hs => ?_) fun _ => id
  obtain ⟨_, rfl⟩ := hs
  exact ⟨rfl, rfl⟩

theorem handleDropped_keepsQueues : s.KeepsQueues (s.handleDropped connId) := by
  apply Always.of_get fun _ => trivial
  intro remote _
  split
  case isFalse => exact ⟨rfl, rfl⟩
  case isTrue  =>
    apply always_bind.mpr
    apply always_true.mono _ fun _ => id
    intro _ _
    unfold checkedSub
    split
    case isTrue  => exact ⟨rfl, rfl⟩
    case isFalse => trivial

theorem assignTasks_balances {queue : List Nat} (he : s.execQueue = queue) :
    Balances (assignTasks queue s) := by
  induction queue generalizing s with
  | nil => exact .inr he
  | cons execId rest hi =>
    rw [assignTasks_cons]
    split
    case isTrue h => exact .inl <| List.isEmpty_iff.mp h
    case isFalse =>
      intro k
      apply Always.of_get fun _ => trivial
      intro _ _
      apply always_bind.mpr
      refine assignTask_onlyRemotes.mono (fun s' hs => hi ?_) fun _ => id
      obtain ⟨_, rfl⟩ := hs
      rfl

theorem releaseExecs_balances {queue : List Nat} (he : s.execQueue = queue) (h : s.Balanced) :
    Balances (releaseExecs queue s) := by
  induction queue generalizing s with
  | nil => exact h
  | cons execId rest hi =>
    have ht : s.taskQueue = [] := h.resolve_right <| he ▸ List.cons_ne_nil _ _
    apply Always.of_get fun _ => trivial
    intro _ _ ok
    cases ok
    case false => trivial
    case true  =>
      show Balances (checkedSub _ _ _ >>= _)
      unfold checkedSub
      split
      case isTrue  => exact hi rfl (.inl ht)
      case isFalse => trivial

theorem checkQueues_balances : Balances s.checkQueues := by
  apply always_bind.mpr
  apply (assignTasks_balances rfl).mono _ fun _ => id
  intro s h
  apply always_bind.mpr
  apply always_true.mono _ fun _ => id
  intro ok _
  split
  case isTrue  => exact releaseExecs_balances rfl h
  case isFalse => exact h

theorem update_balances : Balances (update fuel s) := by
  apply always_bind.mpr
  exact always_true.mono (fun _ _ => checkQueues_balances) fun _ => id

theorem execIsReady_balances : Balances (execIsReady fuel s connId) :=
  .of_get (fun _ => trivial) fun _ _ => update_balances

theorem taskIsDone_balances {runTime sendTime : Duration} :
    Balances (taskIsDone fuel s connId msg runTime sendTime) := by
  apply always_bind.mpr
  apply always_true.mono _ fun _ => id
  intro s' _
  apply always_bind.mpr
  exact execIsReady_balances.mono (fun _ h => h) fun _ => id

theorem handleMsg_balances (h : s.Balanced) : Balances (handleMsg fuel s connId msg) := by
  cases msg
  case yourObedientServant => exact .of_get (fun _ => trivial) fun _ _ => execIsReady_balances
  case task =>
    apply Always.of_get fun _ => trivial
    intro targetId _
    apply Always.of_get fun _ => trivial
    intro _ _ now
    exact update_balances
  case taskOutput _ content =>
    have h : (s.countBytes content.length).Balanced := h
    exact h.of_keeps <| .of_onlyRemotes sendToPairedRemote_onlyRemotes
  case taskFailed =>
    apply always_bind.mpr
    exact always_true.mono (fun _ _ => execIsReady_balances) fun _ => id
  case taskDone =>
    rw [handleMsg_taskDone]
    split
    case isTrue  => exact fun _ => taskIsDone_balances
    case isFalse => exact taskIsDone_balances
  case cancelTask => trivial
  case pissOff    => trivial
  case dropped    => exact h.of_keeps handleDropped_keepsQueues

theorem onEvent_balances (h : s.Balanced) : Balances (onEvent fuel s ev) := by
  cases ev
  case inbound =>
    apply always_bind.mpr
    exact (handleMsg_balances h).mono (fun _ h _ => h) fun _ => id
  case watchdog =>
    apply always_bind.mpr
    apply update_balances.mono _ fun _ => id
    intro s h
    apply always_bind.mpr
    exact always_true.mono (fun _ _ => h) fun _ => id

theorem onEvent_execQueue :
    (onEvent fuel s ev).Always (·.execQueue <:+ s.execQueue ++ ev.readies.toList)
      fun _ => True := by
  by_cases hu : ev.Updates
  case pos =>
    refine (onEvent_calls hu).always fun s₁ h₁ => always_bind.mpr ?_
    refine checkQueues_execQueue.mono (fun s₂ h₂ => ?_) fun _ => id
    exact rest_execQueue.mono (fun s₃ h₃ => h₃ ▸ h₁ ▸ h₂) fun _ => id
  case neg =>
    have hk {p : Proc ServerState} (hp : s.KeepsQueues p) :
        (p >>= fun s => s.activityOccurred <$> now).Always (·.execQueue <:+ s.execQueue ++ [])
          fun _ => True :=
      always_bind.mpr <| hp.mono
        (fun s' ⟨_, he⟩ _ => show s'.execQueue <:+ _ by simp [he]) fun _ => id
    cases ev
    case watchdog => exact absurd trivial hu
    case inbound i msg =>
      cases msg
      case dropped              => exact hk handleDropped_keepsQueues
      case taskOutput _ content =>
        have hs {msg : Message} :
            (s.countBytes content.length).KeepsQueues
              ((s.countBytes content.length).sendToPairedRemote i msg) :=
          .of_onlyRemotes sendToPairedRemote_onlyRemotes
        exact hk hs
      case cancelTask | pissOff => trivial
      case task                 => exact absurd trivial hu
      all_goals exact absurd rfl hu

end ServerState

namespace Cluster

open ServerState

variable {S : Setup} {P : Policy} {σ σ' : Cluster} {l : Label} {evs : List Event}

-- No task waits while there is an exec for it, or the main loop is on its way to such a state.
def Balanced (σ : Cluster) : Prop :=
  match σ.main with
  | .select s | .checking s | .shutdown s => s.Balanced
  | .running _ _ _ p                      => Balances p
  | .faulted _                            => True

theorem Turn.balanced (t : σ.Turn S l σ') (h : σ.Balanced) : σ'.Balanced := by
  cases t
  case accept | wait | done | act => exact h
  case recv   => exact onEvent_balances h
  case tick   => exact onEvent_balances h
  case answer => exact h _
  case fail   => trivial
  case check s _ now =>
    cases ho : s.okToShutdown now <;> simpa [Balanced, ho] using h

theorem Reaches.balanced (h : Reaches S P σ) : σ.Balanced := by
  induction h with
  | start          => exact .inl rfl
  | step _ _ hs hi => exact (turn_of_step hs).balanced hi

-- The execs in the queue are those which have become ready last, in the order of the events.
def Lined (σ : Cluster) (evs : List Event) : Prop :=
  match σ.main with
  | .select s | .checking s | .shutdown s => s.execQueue <:+ evs.filterMap Event.readies
  | .running _ _ _ p                      =>
    p.Always (·.execQueue <:+ evs.filterMap Event.readies) fun _ => True
  | .faulted _                            => True

theorem suffix_readies {s : ServerState} {ev : Event}
    (h : s.execQueue <:+ evs.filterMap Event.readies) :
    s.execQueue ++ ev.readies.toList <:+ (evs ++ [ev]).filterMap Event.readies := by
  have he : [ev].filterMap Event.readies = ev.readies.toList := by
    cases hr : ev.readies <;> simp [hr]
  rw [List.filterMap_append, he]
  exact List.suffix_append_self_iff.mpr h

theorem Turn.lined (t : σ.Turn S l σ') (h : σ.Lined evs) : σ'.Lined (evs ++ σ.handles l) := by
  cases t
  case recv i msg _ _ _ _ hi =>
    simp only [handles, hi]
    exact onEvent_execQueue.mono (fun _ hs => hs.trans <| suffix_readies h) fun _ => id
  case tick               =>
    exact onEvent_execQueue.mono (fun _ hs => hs.trans <| suffix_readies h) fun _ => id
  case answer c _ a _     => cases c <;> exact (List.append_nil evs).symm ▸ h a
  case fail               => trivial
  case check s _ now      =>
    cases ho : s.okToShutdown now <;> simpa [Lined, handles, ho] using h
  all_goals exact (List.append_nil evs).symm ▸ h

theorem Handled.lined (h : Handled S σ evs) : σ.Lined evs := by
  induction h with
  | start        => exact List.nil_suffix
  | step _ hs hi => exact (turn_of_step hs).lined hi

-- The tasks with the highest priorities go to the execs which have waited the longest, and between
-- two events no task waits while there is an exec for it.
structure WorkConserving (σ : Cluster) (evs : List Event) : Prop where
  balanced : σ.main.resting = some s → s.Balanced
  -- The first exec in the queue is the one which has been ready for the longest time.
  waiting  : σ.main.resting = some s → s.execQueue <:+ evs.filterMap Event.readies
  -- The same holds where `check_queues` is called while the next event is handled.
  calls    : σ.main = .select s → ev.Updates →
    Calls (·.execQueue <:+ (evs ++ [ev]).filterMap Event.readies) ev.rest (onEvent fuel s ev)
  assigns  : ∀ {s s' : ServerState} {tr}, s.checkQueues.Runs tr (.ok s') → Pops tr →
    ∃ taken, s.Assigns tr s' taken

theorem Handled.workConserving (h : Handled S σ evs) : WorkConserving σ evs where
  balanced hm := by
    have hb := h.reaches.balanced
    unfold Balanced at hb
    split at hb <;> simp_all [Main.resting]
  waiting hm := by
    have hl := h.lined
    unfold Lined at hl
    split at hl <;> simp_all [Main.resting]
  calls {s ev fuel} hm hu := by
    have hl := h.lined
    simp only [Lined, hm] at hl
    exact (onEvent_calls hu).mono fun s' hs => hs ▸ suffix_readies hl
  assigns := checkQueues_runs

theorem workConserving_tour :
    ∃ σ evs, Handled .plain σ evs ∧ σ.net.size = 3 ∧ σ.main.resting.isSome ∧
      evs.filterMap Event.readies = [0, 0] ∧ WorkConserving σ evs := by
  have hr : (handleAlong .plain tour (Cluster.start .plain, [])).any fun (σ, evs) =>
      (σ.net.size = 3 ∧ σ.main.resting.isSome) ∧ evs.filterMap Event.readies = [0, 0] := by
    decide +kernel
  have ⟨⟨σ, evs⟩, hr, hf⟩ := Option.any_eq_true .. |>.mp hr
  have ⟨⟨hn, hm⟩, he⟩ := of_decide_eq_true hf
  have h := Handled.start.run hr
  exact ⟨σ, evs, h, hn, hm, he, h.workConserving⟩

end Cluster
end SprayCC
