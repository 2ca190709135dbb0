import Mathlib.Data.List.Basic
import Mathlib.Order.WithBot

-- Binary heaps in arrays, where the entries with the greatest keys are on top.

namespace Collections.Heap

variable {α β : Type} [LinearOrder β]

section Operations

variable (key : α → β)

def parent (i : Nat) : Nat :=
  (i - 1) / 2

-- The key at a position, which is below all keys if there is no entry.
def rank (heap : List α) (i : Nat) : WithBot β :=
  match heap[i]? with
  | some a => (key a : WithBot β)
  | none   => ⊥

-- Moves the entry at position `i` up as long as its key is greater than the one of its parent.
def siftUp : Nat → List α → Nat → List α
  | 0,        heap, _ => heap
  | fuel + 1, heap, i =>
    if rank key heap (parent i) < rank key heap i then
      siftUp fuel (heap.swap (parent i) i) (parent i)
    else heap

-- The position of the greatest key among those of an entry and its children.
def largest (heap : List α) (i : Nat) : Nat :=
  let j := if rank key heap i < rank key heap (2 * i + 1) then 2 * i + 1 else i
  if rank key heap j < rank key heap (2 * i + 2) then 2 * i + 2 else j

-- Moves the entry at position `i` down as long as one of its children has a greater key.
def siftDown : Nat → List α → Nat → List α
  | 0,        heap, _ => heap
  | fuel + 1, heap, i =>
    if largest key heap i = i then heap
    else siftDown fuel (heap.swap i (largest key heap i)) (largest key heap i)

def push (heap : List α) (a : α) : List α :=
  siftUp key heap.length (heap ++ [a]) heap.length

-- Replaces the entry at position `i`, which then finds its place.
def change (heap : List α) (i : Nat) (a : α) : List α :=
  siftDown key heap.length (siftUp key i (heap.set i a) i) i

-- Moves the last entry to the front.
def lastFirst (heap : List α) : List α :=
  heap.getLast?.toList ++ heap.dropLast

-- The root is replaced by the last entry, which then finds its place.
def pop : List α → Option (α × List α)
  | []        => none
  | a :: heap => some (a, siftDown key heap.length (lastFirst heap) 0)

end Operations

variable {key : α → β} {heap : List α} {a b : α}

theorem lastFirst_perm : (lastFirst heap).Perm heap := by
  cases h : heap.getLast?
  case none   => simp [lastFirst, List.getLast?_eq_none_iff.mp h]
  case some z =>
    have hd : heap.dropLast ++ [z] = heap := List.dropLast_append_getLast? z h
    rw [lastFirst, h]
    exact (List.perm_append_comm).trans (.of_eq hd)

theorem lastFirst_concat : lastFirst (heap ++ [a]) = a :: heap := by
  simp [lastFirst]

theorem lastFirst_short (h : heap.length ≤ 1) : lastFirst heap = heap := by
  match heap, h with
  | [],  _ => rfl
  | [_], _ => rfl

theorem lastFirst_long (h : 1 < heap.length) :
    ∃ a rest z, heap = a :: (rest ++ [z]) ∧ lastFirst heap = z :: a :: rest := by
  match heap, h with
  | a :: heap, h =>
    have hn : heap ≠ [] := List.ne_nil_of_length_pos <| Nat.lt_of_succ_lt_succ h
    obtain ⟨rest, z, rfl⟩ : ∃ rest z, heap = rest ++ [z] :=
      ⟨_, _, (List.dropLast_append_getLast hn).symm⟩
    have hl : lastFirst ((a :: rest) ++ [z]) = z :: a :: rest := lastFirst_concat
    exact ⟨a, rest, z, rfl, hl⟩

section Flat

-- As long as all keys are the same, no entry is moved by its key.

variable {k : β}

theorem rank_le (h : ∀ a ∈ heap, key a = k) (i : Nat) : rank key heap i ≤ k := by
  unfold rank
  split
  case h_1 hi => rw [h _ <| List.mem_of_getElem? hi]
  case h_2    => exact bot_le

theorem le_rank (h : ∀ a ∈ heap, key a = k) {i : Nat} (hi : i < heap.length) :
    (k : WithBot β) ≤ rank key heap i := by
  simp [rank, List.getElem?_eq_getElem hi, h _ <| List.getElem_mem hi]

theorem siftUp_flat {fuel i : Nat} (h : ∀ a ∈ heap, key a = k) (hi : i < heap.length) :
    siftUp key fuel heap i = heap := by
  cases fuel with
  | zero      => rfl
  | succ fuel =>
    have hp : parent i < heap.length := by
      unfold parent
      omega
    rw [siftUp, if_neg <| not_lt.mpr <| (rank_le h _).trans (le_rank h hp)]

theorem siftDown_flat {fuel i : Nat} (h : ∀ a ∈ heap, key a = k) (hi : i < heap.length) :
    siftDown key fuel heap i = heap := by
  cases fuel with
  | zero      => rfl
  | succ fuel =>
    have hr (j : Nat) : ¬rank key heap i < rank key heap j :=
      not_lt.mpr <| (rank_le h _).trans (le_rank h hi)
    have hm : largest key heap i = i := by simp only [largest, if_neg (hr _)]
    rw [siftDown, if_pos hm]

theorem push_flat (h : ∀ a ∈ heap, key a = k) (ha : key a = k) :
    push key heap a = heap ++ [a] :=
  siftUp_flat (k := k) (by simpa [or_imp, forall_and] using ⟨h, ha⟩) (by simp)

-- An entry which is replaced by itself stays where it is.
theorem change_flat {i : Nat} (h : ∀ a ∈ heap, key a = k) (hi : heap[i]? = some a) :
    change key heap i a = heap := by
  have ⟨hl, he⟩ := List.getElem?_eq_some_iff.mp hi
  have hs : heap.set i a = heap := by rw [← he, List.set_getElem_self]
  rw [change, hs, siftUp_flat h hl, siftDown_flat h hl]

theorem pop_flat (h : ∀ a ∈ heap, key a = k) :
    pop key heap = heap.head?.map (·, lastFirst heap.tail) := by
  cases heap with
  | nil         => rfl
  | cons a heap =>
    have hs : siftDown key heap.length (lastFirst heap) 0 = lastFirst heap := by
      cases hl : heap.length
      case zero   => rfl
      case succ n =>
        have h₀ : 0 < (lastFirst heap).length := by
          rw [lastFirst_perm.length_eq, hl]
          exact n.succ_pos
        exact siftDown_flat (fun a' ha => h a' <| .tail _ <| lastFirst_perm.mem_iff.mp ha) h₀
    exact congrArg (fun heap => some (a, heap)) hs

end Flat
end Collections.Heap
