import Mathlib.Data.List.Perm.Basic
import SprayCC.Collections.Heap
import SprayCC.Server.Invariant

open Async Program Collections

-- In which order a priority queue gives out tasks of the same priority.

namespace SprayCC

-- What the server uses of the priority queue. Its entries are in the order of the heap.
structure PriorityQueue where
  push : List Entry → Entry → List Entry
  pop  : List Entry → Option (Entry × List Entry)

def Flat (prior : Duration) (heap : List Entry) : Prop :=
  ∀ e ∈ heap, e.snd = prior

namespace PriorityQueue

-- A binary heap moves no entry past one with the same priority.
structure Binary (Q : PriorityQueue) : Prop where
  push : Flat e.snd heap → (∀ e' ∈ heap, e'.fst ≠ e.fst) → Q.push heap e = heap ++ [e]
  keep : Flat e.snd heap → e ∈ heap → Q.push heap e = heap
  -- The root is taken off, and the last entry is put in its place.
  pop  : Flat prior heap → Q.pop heap = heap.head?.map (·, Heap.lastFirst heap.tail)

def ofHeap : PriorityQueue where
  push heap e :=
    match heap.findIdx? (·.fst = e.fst) with
    | some i => Heap.change Prod.snd heap i e
    | none   => Heap.push Prod.snd heap e
  pop := Heap.pop Prod.snd

theorem ofHeap_binary : ofHeap.Binary where
  push {heap e} hf hn := by
    have hi : heap.findIdx? (·.fst = e.fst) = none :=
      List.findIdx?_eq_none_iff.mpr fun e' he => decide_eq_false (hn e' he)
    simp only [ofHeap, hi]
    exact Heap.push_flat hf rfl
  keep {heap e} hf he := by
    cases hi : heap.findIdx? (·.fst = e.fst)
    case none   =>
      have hn := List.findIdx?_eq_none_iff.mp hi e he
      exact absurd rfl (of_decide_eq_false hn)
    case some i =>
      have ⟨hl, hp, _⟩ := List.findIdx?_eq_some_iff_getElem.mp hi
      have he : heap[i] = e := Prod.ext (of_decide_eq_true hp) (hf _ <| List.getElem_mem hl)
      simp only [ofHeap, hi]
      exact Heap.change_flat hf <| he ▸ List.getElem?_eq_getElem hl
  pop hf := Heap.pop_flat hf

end PriorityQueue

open PriorityQueue

variable {Q : PriorityQueue} {heap heap' queue : List Entry} {e : Entry} {prior : Duration}

namespace Flat

theorem concat (hf : Flat prior heap) (he : e.snd = prior) : Flat prior (heap ++ [e]) := by
  intro e' h
  rcases List.mem_append.mp h with h | h
  case inl => exact hf e' h
  case inr => exact List.mem_singleton.mp h ▸ he

-- An entry of the same priority is either new or there already.
theorem fresh_or_mem (hf : Flat e.snd heap) : (∀ e' ∈ heap, e'.fst ≠ e.fst) ∨ e ∈ heap := by
  by_cases h : ∃ e' ∈ heap, e'.fst = e.fst
  case pos =>
    have ⟨e', he, hi⟩ := h
    exact .inr <| (Prod.ext hi (hf e' he) : e' = e) ▸ he
  case neg =>
    exact .inl fun e' he hi => h ⟨e', he, hi⟩

end Flat

theorem pushEntry_fresh {item : Nat × TaskDetails} (hn : ∀ e ∈ queue, e.fst ≠ item) :
    pushEntry queue item prior = queue ++ [(item, prior)] :=
  if_neg fun h =>
    have ⟨e, he, hi⟩ := List.any_eq_true.mp h
    hn e he <| of_decide_eq_true hi

theorem pushEntry_keep (hf : Flat e.snd queue) (he : e ∈ queue) :
    pushEntry queue e.fst e.snd = queue := by
  have hm (e') (h : e' ∈ queue) : (if e'.fst = e.fst then (e.fst, e.snd) else e') = e' := by
    split
    case isTrue hi => exact Prod.ext hi.symm (hf e' h).symm
    case isFalse   => rfl
  refine (if_pos <| List.any_eq_true.mpr ⟨e, he, decide_eq_true rfl⟩).trans ?_
  exact (List.map_congr_left hm).trans (List.map_id' queue)

namespace PriorityQueue.Binary

theorem of_pop (hQ : Q.Binary) (hf : Flat prior heap) (h : Q.pop heap = some (e, heap')) :
    ∃ rest, heap = e :: rest ∧ heap' = Heap.lastFirst rest := by
  rw [hQ.pop hf] at h
  cases heap
  case nil         => cases h
  case cons e rest => cases h; exact ⟨rest, rfl, rfl⟩

theorem pop_cons {rest : List Entry} (hQ : Q.Binary) (hf : Flat prior (e :: rest)) :
    Q.pop (e :: rest) = some (e, Heap.lastFirst rest) :=
  hQ.pop hf

theorem flat_push (hQ : Q.Binary) (hf : Flat e.snd heap) : Flat e.snd (Q.push heap e) := by
  cases hf.fresh_or_mem
  case inl hn => exact hQ.push hf hn ▸ hf.concat rfl
  case inr he => exact (hQ.keep hf he).symm ▸ hf

theorem push_perm (hQ : Q.Binary) (hp : heap.Perm queue) (hf : Flat e.snd heap) :
    (Q.push heap e).Perm (pushEntry queue e.fst e.snd) := by
  cases hf.fresh_or_mem
  case inl hn =>
    rw [hQ.push hf hn, pushEntry_fresh fun e' he => hn e' <| hp.mem_iff.mpr he]
    exact hp.append_right _
  case inr he =>
    rw [hQ.keep hf he, pushEntry_keep (fun e' he => hf e' <| hp.mem_iff.mpr he) (hp.mem_iff.mp he)]
    exact hp

end PriorityQueue.Binary

-- The queue gives out the entry which is on top of the heap.
def heaped (Q : PriorityQueue) : World signature (List Entry) where
  moves _ _ := False
  answers
    | heap, .pick queue, j, heap' => ∃ e, queue[j]? = some e ∧ Q.pop heap = some (e, heap')
    | heap, _,           _, heap' => heap' = heap

namespace ServerState

-- The entry which the server adds to its queue for a message.
def entryOf (s : ServerState) (connId : Nat) : Message → Option Entry
  | .task _ _ details =>
    details.getTargetId.map fun targetId => ((connId, details), s.priority details targetId)
  | _ => none

-- The heap has the entries of the queue.
structure Heaped (prior : Duration) (s : ServerState) (heap : List Entry) : Prop where
  perm : heap.Perm s.taskQueue
  flat : Flat prior heap

variable {s s' : ServerState} {fuel connId j : Nat} {msg : Message} {p : Proc ServerState}

namespace Heaped

theorem of_eq (h : s.Heaped prior heap) (hs : s'.taskQueue = s.taskQueue) : s'.Heaped prior heap :=
  ⟨hs ▸ h.perm, h.flat⟩

theorem push {item : Nat × TaskDetails} (hQ : Q.Binary) (h : s.Heaped prior heap)
    (hs : s'.taskQueue = pushEntry s.taskQueue item prior) :
    s'.Heaped prior (Q.push heap (item, prior)) where
  perm := hs ▸ hQ.push_perm (e := (item, prior)) h.perm h.flat
  flat := hQ.flat_push (e := (item, prior)) h.flat

theorem pop (hQ : Q.Binary) (h : s.Heaped prior heap) (he : s.taskQueue[j]? = some e)
    (hp : Q.pop heap = some (e, heap')) :
    { s with taskQueue := s.taskQueue.eraseIdx j }.Heaped prior heap' := by
  obtain ⟨rest, rfl, rfl⟩ := hQ.of_pop h.flat hp
  have ⟨hj, hs⟩ := List.getElem?_eq_some_iff.mp he
  constructor
  case perm =>
    have hp : (e :: s.taskQueue.eraseIdx j).Perm s.taskQueue :=
      hs ▸ List.getElem_cons_eraseIdx_perm hj
    exact Heap.lastFirst_perm.trans (h.perm.trans hp.symm).cons_inv
  case flat =>
    exact fun e' he => h.flat e' <| .tail _ <| Heap.lastFirst_perm.mem_iff.mp he

end Heaped

theorem heaped_upholds (hQ : Q.Binary) : Upholds (heaped Q) (Heaped prior) where
  still       := id
  frame h hs  := by
    simp only [core, Prod.mk.injEq] at hs
    exact h.of_eq hs.left
  fewer h     := h.of_eq rfl
  send h hw   := (show _ = _ from hw) ▸ h
  now h hw    := (show _ = _ from hw) ▸ h
  active h hw := (show _ = _ from hw) ▸ h.of_eq rfl
  spawn {_ _ _ _ _ ok _} h _ _ hw := by
    have hw : _ = _ := hw
    cases ok
    case true  => exact hw ▸ h.of_eq taskQueue_execSpawned
    case false => exact hw ▸ h
  pick h hw   :=
    have ⟨_, he, hp⟩ := hw
    h.pop hQ he hp

theorem task_heaped {details : TaskDetails} {accessCode userCode : UInt64} {target : String}
    (hQ : Q.Binary) (h : s.Heaped prior heap) (ht : details.getTargetId = some target)
    (hp : s.priority details target = prior) :
    Upheld (heaped Q) (Heaped prior) (handleMsg fuel s connId (.task accessCode userCode details))
      (Q.push heap ((connId, details), prior)) := by
  have hU : Upholds (heaped Q) (Heaped prior) := heaped_upholds hQ
  have hs (now : SystemTime) :
      (queueTask { s with submitCount := s.submitCount + 1 } connId details prior now).Heaped prior
        (Q.push heap ((connId, details), prior)) :=
    h.push hQ rfl
  refine Upholds.get (hs 0) fun target' ht' => ?_
  cases ht.symm.trans ht'
  refine Upholds.get (hs 0) fun _ _ => hU.call (hs 0) fun now heap' hw => ?_
  exact hU.update <| (show heap' = _ from hw) ▸ hp.symm ▸ hs now

theorem handleMsg_heaped (hQ : Q.Binary) (h : s.Heaped prior heap)
    (hp : ∀ e, s.entryOf connId msg = some e → e.snd = prior) :
    Upheld (heaped Q) (Heaped prior) (handleMsg fuel s connId msg)
      ((s.entryOf connId msg).elim heap (Q.push heap)) := by
  have hU : Upholds (heaped Q) (Heaped prior) := heaped_upholds hQ
  cases msg
  case task accessCode userCode details =>
    cases ht : details.getTargetId
    case none        =>
      have he : s.entryOf connId (.task accessCode userCode details) = none := by
        simp [entryOf, ht]
      rw [he]
      exact Upholds.get (s := s) h fun _ ha => nomatch ht.symm.trans ha
    case some target =>
      have he : s.entryOf connId (.task accessCode userCode details) =
          some ((connId, details), s.priority details target) := by simp [entryOf, ht]
      have hp : s.priority details target = prior := hp _ he
      rw [he, hp]
      exact task_heaped hQ h ht hp
  case yourObedientServant =>
    exact Upholds.get (s := s) h fun _ _ => hU.execIsReady <| h.of_eq taskQueue_execStarted
  case taskDone code target run send =>
    rw [handleMsg_taskDone]
    split
    case isTrue  =>
      refine hU.call (s := s) h fun t heap' hw => ?_
      have h : s.Heaped prior heap' := (show heap' = _ from hw) ▸ h
      exact hU.taskIsDone (s := s.recordElapsed target run t) <| h.of_eq rfl
    case isFalse => exact hU.taskIsDone h
  all_goals exact hU.handleMsg h id nofun

theorem onEvent_heaped (hQ : Q.Binary) (h : s.Heaped prior heap)
    (hp : ∀ e, s.entryOf connId msg = some e → e.snd = prior) :
    Upheld (heaped Q) (Heaped prior) (onEvent fuel s (.inbound connId msg))
      ((s.entryOf connId msg).elim heap (Q.push heap)) :=
  (heaped_upholds hQ).activity <| handleMsg_heaped hQ h hp

end ServerState
end SprayCC
