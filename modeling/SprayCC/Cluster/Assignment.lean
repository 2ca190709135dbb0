import Mathlib.Data.List.Perm.Basic
import SprayCC.Async.Trace
import SprayCC.Cluster.Basic
import SprayCC.Server.Spawning

open Async Program

-- What the calls of `check_queues` assign, and on which queues it is called.

namespace SprayCC

-- The entries which are taken off a queue are the ones with the highest priorities, in this order.
structure Longest (queue taken rest : List Entry) : Prop where
  perm   : (taken ++ rest).Perm queue
  sorted : taken.Pairwise fun e e' => e'.snd ≤ e.snd
  above  : ∀ e ∈ taken, ∀ e' ∈ rest, e'.snd ≤ e.snd

namespace Longest

variable {queue taken rest : List Entry} {k : Nat} {e : Entry}

theorem nil : Longest queue [] queue :=
  ⟨.refl _, .nil, nofun⟩

theorem cons (hp : Picks queue k) (he : queue[k]? = some e)
    (h : Longest (queue.eraseIdx k) taken rest) : Longest queue (e :: taken) rest := by
  have ⟨hk, he⟩ := List.getElem?_eq_some_iff.mp he
  have hq : (e :: (taken ++ rest)).Perm queue :=
    he ▸ (h.perm.cons _).trans (List.getElem_cons_eraseIdx_perm hk)
  have hm : ∀ e' ∈ queue, e'.snd ≤ e.snd := by
    simpa [Picks, List.getElem?_eq_getElem hk, he] using hp
  have hl {e'} (h' : e' ∈ taken ++ rest) : e'.snd ≤ e.snd := hm e' <| hq.subset <| .tail _ h'
  refine ⟨hq, .cons (fun e' h' => hl <| List.mem_append_left _ h') h.sorted, ?_⟩
  exact List.forall_mem_cons.mpr ⟨fun e' h' => hl <| List.mem_append_right _ h', h.above⟩

end Longest

-- The priority queue pops entries of maximal priority.
def Pops (tr : Trace signature) : Prop :=
  ∀ queue k, ⟨.pick queue, k⟩ ∈ tr → Picks queue k

-- The execs to which tasks were sent in a run, each with its task.
def assigned (tr : Trace signature) : List (Nat × Nat × TaskDetails) :=
  tr.filterMap fun
    | ⟨.send clientId execId (.task _ _ task), true⟩ => some (execId, clientId, task)
    | _                                              => none

variable {s s' : ServerState} {tr tr' : Trace signature}

theorem assigned_append : assigned (tr ++ tr') = assigned tr ++ assigned tr' :=
  List.filterMap_append

theorem runs_sendOrErr {about dest : Nat} {msg : Message} {k : Unit → Proc ServerState}
    (h : (sendOrErr about dest msg >>= k).Runs tr (.ok s')) :
    ∃ tr', tr = ⟨.send about dest msg, true⟩ :: tr' ∧ (k ()).Runs tr' (.ok s') := by
  have ⟨ok, tr', ht, hk⟩ := Runs.call_iff.mp h
  cases ok
  case true  => exact ⟨tr', ht, hk⟩
  case false => cases (Runs.fail_iff.mp hk).right

namespace ServerState

-- A run of `check_queues` that returns.
structure Assigns (s : ServerState) (tr : Trace signature) (s' : ServerState) (taken : List Entry) :
    Prop where
  count    : taken.length = min s.taskQueue.length s.execQueue.length
  longest  : Longest s.taskQueue taken s'.taskQueue
  assigned : assigned tr = List.zipWith (fun execId e => (execId, e.fst)) s.execQueue taken

theorem assignTask_runs {clientId execId : Nat} {task : TaskDetails}
    (h : (s.assignTask clientId execId task).Runs tr (.ok s')) :
    tr = [⟨.send clientId execId (.task 0 0 task), true⟩] ∧ s'.taskQueue = s.taskQueue ∧
      s'.execQueue = s.execQueue := by
  rcases s.assignTask_cases with ⟨_, ha⟩ | ha <;> rw [ha] at h
  case inl => cases (Runs.fail_iff.mp h).right
  case inr =>
    have ⟨tr', ht, h⟩ := runs_sendOrErr h
    have ⟨ht', h⟩ := Runs.done_iff.mp h
    cases h
    exact ⟨ht' ▸ ht, rfl, rfl⟩

theorem assignTasks_runs {queue : List Nat} (he : s.execQueue = queue)
    (h : (assignTasks queue s).Runs tr (.ok s')) (hp : Pops tr) :
    ∃ taken, s.Assigns tr s' taken := by
  induction queue generalizing s tr with
  | nil =>
    have ⟨ht, h⟩ := Runs.done_iff.mp h
    cases h
    exact ⟨[], by simp [he], .nil, by simp [assigned, ht]⟩
  | cons execId rest hi =>
    rw [assignTasks_cons] at h
    split at h
    case isTrue hq =>
      have ⟨ht, h⟩ := Runs.done_iff.mp h
      cases h
      exact ⟨[], by simp [List.isEmpty_iff.mp hq], .nil, by simp [assigned, ht]⟩
    case isFalse hq =>
      have ⟨k, tr₁, ht, h₁⟩ := Runs.call_iff.mp h
      subst ht
      have ⟨⟨⟨clientId, task⟩, prior⟩, hk, h₁⟩ := h₁.of_get
      rcases Runs.bind_iff.mp h₁ with ⟨_, _, h₁⟩ | ⟨s₁, tr₂, tr₃, rfl, h₂, h₃⟩
      case inl => cases h₁
      case inr =>
        have ⟨ht, hq₁, he₁⟩ := assignTask_runs h₂
        subst ht
        replace hq₁ : s₁.taskQueue = s.taskQueue.eraseIdx k := hq₁
        replace he₁ : s₁.execQueue = rest := he₁
        have ⟨taken, ha⟩ := hi he₁ h₃ fun queue j hj => hp queue j <| by simp [hj]
        have hk' := List.length_eraseIdx_add_one (List.getElem?_eq_some_iff.mp hk).choose
        refine ⟨((clientId, task), prior) :: taken, ?_, ?_, ?_⟩
        case refine_1 =>
          have hc := ha.count
          simp only [hq₁, he₁, he, List.length_cons] at hc ⊢
          omega
        case refine_2 => exact .cons (hp _ _ <| .head _) hk (hq₁ ▸ ha.longest)
        case refine_3 => simpa [assigned, he] using he₁ ▸ ha.assigned

theorem releaseExecs_runs {queue : List Nat} (h : (releaseExecs queue s).Runs tr (.ok s')) :
    s'.taskQueue = s.taskQueue ∧ assigned tr = [] := by
  induction queue generalizing s tr with
  | nil =>
    have ⟨ht, h⟩ := Runs.done_iff.mp h
    cases h
    exact ⟨rfl, by rw [ht]; rfl⟩
  | cons execId rest hi =>
    have ⟨_, _, h₁⟩ := h.of_get
    have ⟨tr₁, ht, h₂⟩ := runs_sendOrErr h₁
    unfold checkedSub at h₂
    split at h₂
    case isTrue  =>
      have ⟨hq, ha⟩ := hi h₂
      exact ⟨hq, ht ▸ ha⟩
    case isFalse => cases (Runs.fail_iff.mp h₂).right

theorem okToRelease_runs {ok : Bool} (h : s.okToRelease.Runs tr (.ok ok)) : assigned tr = [] := by
  unfold okToRelease at h
  split at h
  case h_1 =>
    have ⟨_, _, ht, h₁⟩ := Runs.call_iff.mp h
    rw [ht, (Runs.done_iff.mp h₁).left]
    rfl
  case h_2 =>
    rw [(Runs.done_iff.mp h).left]
    rfl

theorem checkQueues_runs (h : s.checkQueues.Runs tr (.ok s')) (hp : Pops tr) :
    ∃ taken, s.Assigns tr s' taken := by
  rcases Runs.bind_iff.mp h with ⟨_, _, h⟩ | ⟨s₁, tr₁, tr₂, rfl, h₁, h₂⟩
  case inl => cases h
  rcases Runs.bind_iff.mp h₂ with ⟨_, _, h⟩ | ⟨ok, tr₃, tr₄, rfl, h₃, h₄⟩
  case inl => cases h
  have ⟨taken, ha⟩ := assignTasks_runs rfl h₁ fun queue k hk => hp queue k <|
    List.mem_append_left _ hk
  have ht₃ := okToRelease_runs h₃
  have ⟨hq, ht₄⟩ : s'.taskQueue = s₁.taskQueue ∧ assigned tr₄ = [] := by
    split at h₄
    case isTrue  => exact releaseExecs_runs h₄
    case isFalse =>
      have ⟨ht, h₄⟩ := Runs.done_iff.mp h₄
      cases h₄
      exact ⟨rfl, by rw [ht]; rfl⟩
  refine ⟨taken, ha.count, hq ▸ ha.longest, ?_⟩
  rw [assigned_append, assigned_append, ht₃, ht₄, List.append_nil, List.append_nil]
  exact ha.assigned

end ServerState

-- The remote which becomes ready for a task by the event.
def Event.readies : Event → Option Nat
  | inbound i (.yourObedientServant ..) | inbound i (.taskDone ..) | inbound i (.taskFailed _) =>
    some i
  | _ => none

-- The events on which the queues are updated.
def Event.Updates : Event → Prop
  | inbound _ (.task ..) | watchdog => True
  | ev                              => ev.readies.isSome

-- What is left to do in `handle_msg` when the queues have been updated.
def Message.rest (s : ServerState) : Message → ServerState
  | taskDone _ _ runTime sendTime => s.countTimes runTime sendTime
  | _                             => s

-- What is left to do in an arm of the loop of `run` when the queues have been updated.
def Event.rest : Event → ServerState → Proc ServerState
  | inbound _ msg, s => (msg.rest s).activityOccurred <$> now
  | watchdog,      s => do
    let _ ← s.reportStatus 5
    pure { s with bytesThisPeriod := 0 }

-- Whatever the program is answered, it calls `check_queues` of a server in `Q` and then goes on
-- with `f`, unless it fails before.
inductive Calls {α : Type} (Q : ServerState → Prop) (f : ServerState → Proc α) : Proc α → Prop
  | here {s : ServerState} : Q s → Calls Q f (s.checkQueues >>= f)
  | fail : Calls Q f (.fail e)
  | call {c : Call} {k : c.Answer → Proc α} : (∀ a, Calls Q f (k a)) → Calls Q f (.call c k)

namespace Calls

variable {α β : Type} {Q : ServerState → Prop} {f : ServerState → Proc α} {p : Proc α}

theorem bind {g : α → Proc β} (h : Calls Q f p) : Calls Q (fun s => f s >>= g) (p >>= g) := by
  induction h with
  | here hs   => exact bind_assoc (p := ServerState.checkQueues _) ▸ .here hs
  | fail      => exact .fail
  | call _ hi => exact .call hi

theorem of_bind {R : β → Prop} {q : Proc β} {k : β → Proc α} (hq : q.Always R fun _ => True)
    (hk : ∀ b, R b → Calls Q f (k b)) : Calls Q f (q >>= k) := by
  induction q with
  | done b      => exact hk b hq
  | fail        => exact .fail
  | call c _ hi => exact .call fun a => hi a (hq a)

theorem of_get {o : Option β} {e : Fault} {k : β → Proc α} (hk : ∀ b, Calls Q f (k b)) :
    Calls Q f (.get o e >>= k) :=
  .of_bind always_true fun b _ => hk b

theorem mono {Q' : ServerState → Prop} (h : Calls Q f p) (hq : ∀ s, Q s → Q' s) :
    Calls Q' f p := by
  induction h with
  | here hs   => exact .here (hq _ hs)
  | fail      => exact .fail
  | call _ hi => exact .call hi

theorem always {R : α → Prop} (h : Calls Q f p)
    (hf : ∀ s, Q s → (s.checkQueues >>= f).Always R fun _ => True) :
    p.Always R fun _ => True := by
  induction h with
  | here hs   => exact hf _ hs
  | fail      => trivial
  | call _ hi => exact hi

end Calls

namespace ServerState

variable {fuel connId : Nat} {queue : List Nat} {msg : Message} {ev : Event}

theorem startExecs_execQueue :
    (startExecs fuel s).Always (·.execQueue = s.execQueue) fun _ => True := by
  apply Always.of_runs
  intro tr s' h
  have ⟨_, _, h⟩ := startExecs_runs h
  exact (h.result s' rfl).left ▸ rfl

-- The program calls `check_queues` of a server with these execs in its queue.
abbrev CallsWith (queue : List Nat) (f : ServerState → Proc ServerState) (p : Proc ServerState) :
    Prop :=
  Calls (·.execQueue = queue) f p

theorem update_calls (h : s.execQueue = queue) : CallsWith queue done (update fuel s) := by
  refine .of_bind startExecs_execQueue fun s' hs => ?_
  exact bind_done (p := s'.checkQueues) ▸ .here (hs.trans h)

theorem execIsReady_calls (h : s.execQueue = queue) :
    CallsWith (queue ++ [connId]) done (execIsReady fuel s connId) :=
  .of_get fun _ => update_calls <| congrArg (· ++ [connId]) h

theorem sendToPairedRemote_execQueue :
    (s.sendToPairedRemote connId msg).Always (·.execQueue = s.execQueue) fun _ => True :=
  sendToPairedRemote_onlyRemotes.mono (fun _ hs => by obtain ⟨_, rfl⟩ := hs; rfl) fun _ => id

theorem taskIsDone_calls {runTime sendTime : Duration} (h : s.execQueue = queue) :
    CallsWith (queue ++ [connId]) (fun s => pure (s.countTimes runTime sendTime))
      (taskIsDone fuel s connId msg runTime sendTime) := by
  refine .of_bind sendToPairedRemote_execQueue fun s' hs => ?_
  have hc : CallsWith (queue ++ [connId]) done (execIsReady fuel s'.countFinished connId) :=
    execIsReady_calls (hs.trans h)
  exact hc.bind

theorem handleMsg_calls (hu : (Event.inbound connId msg).Updates) :
    CallsWith (s.execQueue ++ (Event.inbound connId msg).readies.toList)
      (fun s => pure (msg.rest s)) (handleMsg fuel s connId msg) := by
  cases msg
  case yourObedientServant => exact .of_get fun _ => execIsReady_calls execQueue_execStarted
  case task =>
    refine .of_get fun targetId => .of_get fun _ => .call fun _ => ?_
    exact update_calls (List.append_nil _).symm
  case taskFailed =>
    refine .of_bind sendToPairedRemote_execQueue fun s' hs => ?_
    have hs : s'.countFinished.execQueue = s.execQueue := hs
    exact execIsReady_calls hs
  case taskDone =>
    rw [handleMsg_taskDone]
    split
    case isTrue  => exact .call fun _ => taskIsDone_calls rfl
    case isFalse => exact taskIsDone_calls rfl
  case taskOutput | cancelTask | pissOff | dropped => cases hu

theorem onEvent_calls (hu : ev.Updates) :
    CallsWith (s.execQueue ++ ev.readies.toList) ev.rest (onEvent fuel s ev) := by
  cases ev
  case inbound  => exact (handleMsg_calls hu).bind (g := fun s => s.activityOccurred <$> now)
  case watchdog => exact (update_calls (List.append_nil _).symm).bind

-- Execs leave their queue at its front only.

theorem assignTasks_execQueue (h : s.execQueue = queue) :
    (assignTasks queue s).Always (·.execQueue <:+ queue) fun _ => True := by
  have hs : s.execQueue <:+ queue := h ▸ List.suffix_rfl
  induction queue generalizing s with
  | nil => exact hs
  | cons execId rest hi =>
    rw [assignTasks_cons]
    split
    case isTrue  => exact hs
    case isFalse =>
      intro k
      apply Always.of_get fun _ => trivial
      intro _ _
      apply always_bind.mpr
      refine assignTask_onlyRemotes.mono (fun s' hs => ?_) fun _ => id
      have he : s'.execQueue = rest := by obtain ⟨_, rfl⟩ := hs; rfl
      exact (hi he <| he ▸ List.suffix_rfl).mono
        (fun _ h => h.trans <| List.suffix_cons ..) fun _ => id

theorem releaseExecs_execQueue (h : s.execQueue = queue) :
    (releaseExecs queue s).Always (·.execQueue <:+ queue) fun _ => True := by
  have hs : s.execQueue <:+ queue := h ▸ List.suffix_rfl
  induction queue generalizing s with
  | nil => exact hs
  | cons execId rest hi =>
    apply Always.of_get fun _ => trivial
    intro _ _
    apply always_bind.mpr
    apply always_true.mono _ fun _ => id
    intro _ _
    apply always_bind.mpr
    refine always_true.mono (fun _ _ => ?_) fun _ => id
    exact (hi rfl List.suffix_rfl).mono (fun _ h => h.trans <| List.suffix_cons ..) fun _ => id

theorem checkQueues_execQueue :
    s.checkQueues.Always (·.execQueue <:+ s.execQueue) fun _ => True := by
  apply always_bind.mpr
  refine (assignTasks_execQueue rfl).mono (fun s' hs => ?_) fun _ => id
  apply always_bind.mpr
  refine always_true.mono (fun ok _ => ?_) fun _ => id
  split
  case isTrue  => exact (releaseExecs_execQueue rfl).mono (fun _ h => h.trans hs) fun _ => id
  case isFalse => exact hs

-- No task is queued while execs are released.
theorem releaseExecs_idle {queue : List Nat} (h : s.taskQueue = []) :
    (releaseExecs queue s).Always (·.taskQueue = []) fun _ => True := by
  induction queue generalizing s with
  | nil => exact h
  | cons execId rest hi =>
    apply Always.of_get fun _ => trivial
    intro _ _ ok
    cases ok
    case false => trivial
    case true  =>
      show (checkedSub _ _ _ >>= _).Always _ _
      exact always_bind.mpr <| always_true.mono (fun _ _ => hi h) fun _ => id

theorem rest_execQueue : (ev.rest s).Always (·.execQueue = s.execQueue) fun _ => True := by
  cases ev
  case inbound i msg => cases msg <;> exact fun _ => rfl
  case watchdog      => exact always_bind.mpr <| always_true.mono (fun _ _ => rfl) fun _ => id

end ServerState
end SprayCC
