import SprayCC.Async.Runs
import SprayCC.Cluster.Theorems.Priorities
import SprayCC.Server.Queue

open Async Program Collections

-- In which order tasks of the same priority are assigned.

namespace SprayCC

-- The heap of the task queue, the tasks in the order in which they were submitted and in which they
-- were taken off the queue for an exec, and whether one of them was when there were more than two.
structure Order where
  heap      : List Entry
  submitted : List (Nat × TaskDetails)
  assigned  : List (Nat × TaskDetails)
  shuffled  : Bool

def Message.IsPriority : Message → Bool
  | task _ _ details => details.priorityTask
  | _                => false

namespace Order

def start : Order :=
  ⟨[], [], [], false⟩

variable (Q : PriorityQueue) (t : Order)

-- A task which is still in the queue is not submitted anew.
def submit (e : Entry) : Order :=
  { t with
    heap      := Q.push t.heap e
    submitted := if t.heap.any (·.fst = e.fst) then t.submitted else t.submitted ++ [e.fst] }

def assign : Order :=
  match Q.pop t.heap with
  | some (e, heap) =>
    { t with heap, assigned := t.assigned ++ [e.fst], shuffled := t.shuffled || 2 < t.heap.length }
  | none => t

def after (σ : Cluster) : Label → Order
  | .recv _ =>
    match σ.main, σ.net.inbound with
    | .select s, (i, msg) :: _ => (s.entryOf i msg).elim t (t.submit Q)
    | _, _                     => t
  | .picked _ => t.assign Q
  | _         => t

-- There are no priority tasks, and the entry which is taken is the one which the heap gives out.
def allows (σ : Cluster) : Label → Bool
  | .recv _ => σ.net.inbound.head?.all (!·.snd.IsPriority)
  | .picked j =>
    match σ.main with
    | .running _ _ _ (.call (.pick queue) _) => queue[j]? = (Q.pop t.heap).map Prod.fst
    | _                                      => true
  | _ => true

def InOrder : Prop :=
  t.assigned <+: t.submitted

end Order

def Label.Takes : Label → Prop
  | picked _ => True
  | _        => False

-- The cluster, with the queue as its heap has it.
def queueStep (S : Setup) (Q : PriorityQueue) : Cluster × Order → Label → Option (Cluster × Order)
  | (σ, t), l => if t.allows Q σ l then (σ.step S l).map (·, t.after Q σ l) else none

namespace Order

-- What is left in the heap are the tasks which are not assigned yet, in their order as long as the
-- heap is not shuffled. Else the next one to be assigned is not the next one which was submitted.
structure Sound (t : Order) : Prop where
  flat  : Flat (secs 1) t.heap
  nodup : (t.heap.map Prod.fst).Nodup
  kept  : t.shuffled = false → t.submitted = t.assigned ++ t.heap.map Prod.fst
  lost  : t.shuffled = true → ∃ e heap task rest,
    t.heap = e :: heap ∧ t.submitted = t.assigned ++ task :: rest ∧ task ≠ e.fst

-- What a step does to the tasks: one of them is submitted or assigned, or none.
inductive Changed (Q : PriorityQueue) (t : Order) : Label → Order → Prop
  | submit : e.snd = secs 1 → Changed Q t (.recv fuel) (t.submit Q e)
  | assign : Changed Q t (.picked j) (t.assign Q)
  | none   : ¬l.Takes → Changed Q t l t

variable {Q : PriorityQueue} {t t' : Order} {e : Entry} {l : Label}

theorem assign_of_pop {heap : List Entry} (h : Q.pop t.heap = some (e, heap)) :
    t.assign Q =
      { t with
        heap
        assigned := t.assigned ++ [e.fst]
        shuffled := t.shuffled || 2 < t.heap.length } := by
  simp only [assign, h]

namespace Sound

theorem start : start.Sound where
  flat   := nofun
  nodup  := .nil
  kept _ := rfl
  lost   := nofun

theorem inOrder (h : t.Sound) : t.InOrder := by
  cases hs : t.shuffled
  case false => exact ⟨_, (h.kept hs).symm⟩
  case true  =>
    have ⟨_, _, _, _, _, ht, _⟩ := h.lost hs
    exact ⟨_, ht.symm⟩

theorem submit (hQ : Q.Binary) (h : t.Sound) (he : e.snd = secs 1) : (t.submit Q e).Sound := by
  have hf : Flat e.snd t.heap := he ▸ h.flat
  cases hf.fresh_or_mem
  case inr hm =>
    have ht : t.submit Q e = t := by
      have ha : t.heap.any (·.fst = e.fst) := List.any_eq_true.mpr ⟨e, hm, decide_eq_true rfl⟩
      simp only [Order.submit, hQ.keep hf hm, if_pos ha]
    exact ht.symm ▸ h
  case inl hn =>
    have ht : t.submit Q e =
        { t with heap := t.heap ++ [e], submitted := t.submitted ++ [e.fst] } := by
      have ha : ¬t.heap.any (·.fst = e.fst) := fun ha =>
        have ⟨e', he, hi⟩ := List.any_eq_true.mp ha
        hn e' he <| of_decide_eq_true hi
      simp only [Order.submit, hQ.push hf hn, if_neg ha]
    rw [ht]
    constructor
    case flat  => exact h.flat.concat he
    case nodup =>
      simp only [List.map_append, List.map_cons, List.map_nil]
      refine h.nodup.append (List.nodup_singleton _) (List.disjoint_singleton.mpr fun hi => ?_)
      have ⟨e', he, hi⟩ := List.mem_map.mp hi
      exact hn e' he hi
    case kept  => exact fun hs => by simp [h.kept hs]
    case lost  =>
      intro hs
      have ⟨e', heap, task, rest, hh, ht, hd⟩ := h.lost hs
      exact ⟨e', heap ++ [e], task, rest ++ [e.fst], by simp [hh], by simp [ht], hd⟩

-- The entry which comes first is taken. If there are more than two, the last one comes first then.
theorem assign (hQ : Q.Binary) (h : t.Sound) (hs : t.shuffled = false) : (t.assign Q).Sound := by
  cases hh : t.heap
  case nil         =>
    have hp : Q.pop t.heap = none := (hQ.pop h.flat).trans <| by rw [hh]; rfl
    have ht : t.assign Q = t := by simp only [Order.assign, hp]
    exact ht.symm ▸ h
  case cons e heap =>
    have hf := h.flat
    have hn := h.nodup
    have hk := h.kept hs
    rw [hh] at hf hn hk
    have hp : Q.pop t.heap = some (e, Heap.lastFirst heap) := hh ▸ hQ.pop_cons hf
    rw [assign_of_pop hp, hh, hs, Bool.false_or]
    have hl : (Heap.lastFirst heap).Perm heap := Heap.lastFirst_perm
    constructor
    case flat  => exact fun e' he => hf e' <| .tail _ <| hl.mem_iff.mp he
    case nodup => exact (hl.map _).nodup_iff.mpr hn.of_cons
    case kept  =>
      intro hl
      have hl : heap.length ≤ 1 := by simpa using hl
      rw [hk, Heap.lastFirst_short hl]
      simp
    case lost  =>
      intro hl
      have hl : 1 < heap.length := Nat.lt_of_succ_lt_succ <| of_decide_eq_true hl
      obtain ⟨a, rest, z, rfl, hz⟩ := Heap.lastFirst_long hl
      refine ⟨z, a :: rest, a.fst, rest.map Prod.fst ++ [z.fst], hz, by simp [hk], fun hz => ?_⟩
      have hm : z.fst ∈ (rest ++ [z]).map Prod.fst := by simp
      exact (List.nodup_cons.mp hn.of_cons).left (hz ▸ hm)

-- A task which is taken off the heap when it is shuffled is not the next one.
theorem not_inOrder_assign (hQ : Q.Binary) (h : t.Sound) (hs : t.shuffled = true) :
    ¬(t.assign Q).InOrder := by
  have ⟨e, heap, task, rest, hh, ht, hd⟩ := h.lost hs
  have hf := h.flat
  rw [hh] at hf
  have hp : Q.pop t.heap = some (e, Heap.lastFirst heap) := hh ▸ hQ.pop_cons hf
  intro hi
  simp only [InOrder, assign_of_pop hp, ht, List.prefix_append_right_inj] at hi
  exact hd (List.cons_prefix_cons.mp hi).left.symm

end Sound

theorem Changed.sound (hQ : Q.Binary) (hc : Changed Q t l t') (h : t.Sound)
    (hl : l.Takes → t.shuffled = false) : t'.Sound := by
  cases hc
  case submit he => exact h.submit hQ he
  case assign    => exact h.assign hQ <| hl trivial
  case none      => exact h

theorem Changed.inOrder_iff (hQ : Q.Binary) (hc : Changed Q t l t') (h : t.Sound) :
    t'.InOrder ↔ (l.Takes → t.shuffled = false) where
  mp hi hl := by
    cases hc
    case submit     => exact hl.elim
    case assign     =>
      exact Bool.eq_false_iff.mpr fun hs => h.not_inOrder_assign hQ hs hi
    case none hn    => exact absurd hl hn
  mpr hl   := (hc.sound hQ h hl).inOrder

end Order

open ServerState

-- The states which the cluster and its queue come to.
inductive Ordered (S : Setup) (Q : PriorityQueue) : Cluster × Order → Prop
  | start : Ordered S Q (Cluster.start S, .start)
  | step  : Ordered S Q c → queueStep S Q c l = some c' → Ordered S Q c'

-- The heap has the entries of the queue whenever the server is between two events.
def Queued (Q : PriorityQueue) (c : Cluster × Order) : Prop :=
  match c.fst.main with
  | .select s | .checking s | .shutdown s => s.Heaped (secs 1) c.snd.heap
  | .running _ _ _ p                      => Upheld (heaped Q) (Heaped (secs 1)) p c.snd.heap
  | .faulted _                            => True

variable {S : Setup} {Q : PriorityQueue} {c c' : Cluster × Order} {l : Label} {ls : List Label}
variable {s : ServerState} {connId : Nat} {msg : Message} {e : Entry}

theorem step_of_queueStep (h : queueStep S Q c l = some c') :
    c.snd.allows Q c.fst l ∧ c.fst.step S l = some c'.fst ∧ c'.snd = c.snd.after Q c.fst l := by
  have ⟨ha, h⟩ := Option.ite_none_right_eq_some.mp h
  obtain ⟨σ, hs, rfl⟩ := Option.map_eq_some_iff.mp h
  exact ⟨ha, hs, rfl⟩

theorem Ordered.reaches (h : Ordered S Q c) : c.fst.Reaches S .any := by
  induction h with
  | start          => exact .start
  | step _ hs hi   => exact hi.step Cluster.allows_any (step_of_queueStep hs).right.left

-- Without a history, all tasks which are no priority tasks have the same priority.
theorem priority_of_isEmpty {details : TaskDetails} {target : String}
    (hp : s.priorHistory.isEmpty) (hd : details.priorityTask = false) :
    s.priority details target = secs 1 := by
  have hn : s.priorHistory.get target = none := by
    by_contra ht
    exact Bool.noConfusion <| hp.symm.trans <| History.isEmpty_of_get ht
  simp [priority, hn, hd, secs]

theorem snd_of_entryOf (hp : s.priorHistory.isEmpty) (hm : msg.IsPriority = false)
    (he : s.entryOf connId msg = some e) : e.snd = secs 1 := by
  cases msg <;> try cases he
  case task details =>
    obtain ⟨target, _, rfl⟩ := Option.map_eq_some_iff.mp he
    exact priority_of_isEmpty hp hm

theorem Ordered.isEmpty (hp : S.priorHistory.isEmpty) (h : Ordered S Q c)
    (hm : c.fst.main.resting = some s) : s.priorHistory.isEmpty :=
  (h.reaches.settled hm).ranked.history ▸ hp

theorem Queued.step (hQ : Q.Binary) (hp : S.priorHistory.isEmpty) (hc : Ordered S Q c)
    (h : Queued Q c) (hs : queueStep S Q c l = some c') : Queued Q c' := by
  have ⟨ha, ht, hs⟩ := step_of_queueStep hs
  obtain ⟨σ, t⟩ := c
  obtain ⟨σ', t'⟩ := c'
  dsimp only at ha ht hs
  subst hs
  cases Cluster.turn_of_step ht
  case accept            => exact h.of_eq rfl
  case recv i msg _ s w fuel hi =>
    have hm : msg.IsPriority = false := by simpa [Order.allows, hi] using ha
    have he {e} : s.entryOf i msg = some e → e.snd = secs 1 := snd_of_entryOf (hc.isEmpty hp rfl) hm
    have hh : (t.after Q ⟨.select s, w⟩ (.recv fuel)).heap =
        (s.entryOf i msg).elim t.heap (Q.push t.heap) := by
      simp only [Order.after, hi]
      cases s.entryOf i msg <;> rfl
    unfold Queued
    dsimp only
    rw [hh]
    exact onEvent_heaped hQ h fun e => he
  case tick              => exact (heaped_upholds hQ).watchdog h
  case answer c k a hw =>
    have hk {heap} (hw : (heaped Q).answers t.heap c a heap) :
        Upheld (heaped Q) (Heaped (secs 1)) (k a) heap := Safe.answered h hw
    cases c
    case pick queue =>
      have hj : queue[a]? = (Q.pop t.heap).map Prod.fst := of_decide_eq_true ha
      obtain ⟨e, he⟩ := hw.left.exists_entry
      obtain ⟨⟨e, heap⟩, ht, rfl⟩ := Option.map_eq_some_iff.mp <| hj.symm.trans he
      rw [Queued, Label.answer, Order.after, Order.assign_of_pop ht]
      exact hk ⟨_, he, ht⟩
    all_goals exact hk rfl
  case fail              => trivial
  case check s _ now     =>
    cases ho : s.okToShutdown now <;> simpa [Queued, Order.after, ho] using h
  all_goals exact h

namespace Ordered

theorem queued (hQ : Q.Binary) (hp : S.priorHistory.isEmpty) (h : Ordered S Q c) : Queued Q c := by
  induction h with
  | start         => exact ⟨.nil, nofun⟩
  | step hc hs hi => exact hi.step hQ hp hc hs

theorem heaped (hQ : Q.Binary) (hp : S.priorHistory.isEmpty) (h : Ordered S Q c)
    (hm : c.fst.main.resting = some s) : s.Heaped (secs 1) c.snd.heap := by
  have h := h.queued hQ hp
  unfold Queued at h
  split at h <;> simp_all [Main.resting]

end Ordered

theorem changed_of_queueStep (hp : S.priorHistory.isEmpty) (hc : Ordered S Q c)
    (h : queueStep S Q c l = some c') : c.snd.Changed Q l c'.snd := by
  have ⟨ha, hs, ht⟩ := step_of_queueStep h
  rw [ht]
  cases l
  case recv fuel =>
    simp only [Order.after]
    split
    case h_2                    => exact .none id
    case h_1 s i msg rest hs hi =>
      cases he : s.entryOf i msg
      case none   => exact .none id
      case some e =>
        have hs : c.fst.main.resting = some s := hs ▸ rfl
        have hm : msg.IsPriority = false := by simpa [Order.allows, hi] using ha
        exact .submit <| snd_of_entryOf (hc.isEmpty hp hs) hm he
  case picked => exact .assign
  all_goals exact .none id

-- Tasks are assigned in the order in which they were submitted just if none is assigned once one
-- was while there were more than two of them in the queue.
theorem inOrder_iff_along (hQ : Q.Binary) (hp : S.priorHistory.isEmpty) :
    Throughout (queueStep S Q) (·.snd.InOrder) ls (Cluster.start S, .start) ↔
      Along (queueStep S Q) (fun c l => l.Takes → c.snd.shuffled = false) ls
        (Cluster.start S, .start) := by
  have hc {c l c'} : Ordered S Q c → queueStep S Q c l = some c' → c.snd.Changed Q l c'.snd :=
    changed_of_queueStep hp
  exact throughout_iff_along_of (I := fun c => Ordered S Q c ∧ c.snd.Sound)
    (fun h => h.right.inOrder)
    (fun h hs => (hc h.left hs).inOrder_iff hQ h.right)
    (fun h hs hl => ⟨h.left.step hs, (hc h.left hs).sound hQ h.right hl⟩)
    ⟨.start, .start⟩

-- A client submits its task, for which a process is started, but no exec has phoned home yet.
def enqueue (i : Nat) : List Label :=
  [.accept (.client .plain false), .check 0, .act (.speaks i (Setup.plain.codes.submission .plain)),
    .recv 1, .clock 0, .spawned true, .clock 0, .clock 0, .finish, .check 0]

-- Three tasks are submitted before there is an exec, which is then given the first and the third.
def threeTasks : List Label :=
  enqueue 0 ++ enqueue 1 ++ enqueue 2 ++
  [.accept (.exec false .fresh 0), .check 0, .act (.speaks 3 (Setup.plain.codes.hello false)),
    .recv 1, .picked 0, .send, .clock 0, .clock 0, .finish, .check 0,
    .act (.takes 3), .act (.reads 3), .act (.speaks 3 (.taskDone (some 0) "/;true" 7 8)),
    .recv 1, .clock 0, .send, .picked 1, .send, .clock 0, .clock 0, .finish, .check 0]

theorem inOrder_iff_along_threeTasks :
    Throughout (queueStep .plain .ofHeap) (·.snd.InOrder) threeTasks
        (Cluster.start .plain, .start) ↔
      Along (queueStep .plain .ofHeap) (fun c l => l.Takes → c.snd.shuffled = false) threeTasks
        (Cluster.start .plain, .start) :=
  inOrder_iff_along PriorityQueue.ofHeap_binary (by decide +kernel)

theorem not_inOrder_threeTasks :
    ¬∀ S (Q : PriorityQueue) ls, Q.Binary → S.priorHistory.isEmpty →
      Throughout (queueStep S Q) (·.snd.InOrder) ls (Cluster.start S, .start) := by
  intro h
  have hr : (threeTasks.foldlM (queueStep .plain .ofHeap) (Cluster.start .plain, .start)).any
      fun c => ¬c.snd.assigned <+: c.snd.submitted := by
    decide +kernel
  have ⟨c, hc, hr⟩ := (Option.any_eq_true _ _).mp hr
  have ht := h .plain .ofHeap threeTasks PriorityQueue.ofHeap_binary (by decide +kernel)
  exact of_decide_eq_true hr (ht.last hc)

end SprayCC
