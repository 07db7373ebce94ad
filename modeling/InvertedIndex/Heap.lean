import InvertedIndex.Fault

/-! Binary heaps in a fixed number of slots. The children of slot `i` are slots `2 * i + 1` and `2 * i + 2`. -/

namespace InvertedIndex

structure Heap (α : Type u) where
  slots : Array α
  capacity : Nat
  size_le : slots.size ≤ capacity

namespace Heap

variable {α : Type u} {n : Nat} (before : α → α → Bool)

def parent (i : Nat) : Nat := (i - 1) / 2

theorem parent_lt {i : Nat} (h : 0 < i) : parent i < i := by
  unfold parent; omega

def firstChild (slots : Vector α n) (i : Nat) (h : 2 * i + 1 < n) : Nat :=
  if hr : 2 * i + 2 < n then
    if before slots[2 * i + 2] slots[2 * i + 1] then 2 * i + 2 else 2 * i + 1
  else 2 * i + 1

theorem lt_firstChild (slots : Vector α n) (i : Nat) (h : 2 * i + 1 < n) : i < firstChild before slots i h := by
  unfold firstChild; split <;> (try split) <;> omega

theorem firstChild_lt (slots : Vector α n) (i : Nat) (h : 2 * i + 1 < n) : firstChild before slots i h < n := by
  unfold firstChild; split <;> (try split) <;> omega

def siftDown (slots : Vector α n) (i : Nat) : Vector α n :=
  if h : 2 * i + 1 < n then
    let child := firstChild before slots i h
    have hlt : i < child := lt_firstChild before slots i h
    have hn : child < n := firstChild_lt before slots i h
    if before slots[child] slots[i] then siftDown (slots.swap i child) child else slots
  else slots
termination_by n - i

def siftUp (slots : Vector α n) (i : Nat) (h : i < n) : Vector α n :=
  if hi : 0 < i then
    have hp : parent i < n := Nat.lt_trans (parent_lt hi) h
    if before slots[i] slots[parent i] then siftUp (slots.swap i (parent i)) (parent i) hp else slots
  else slots
termination_by i
decreasing_by exact parent_lt hi

def siftDownBelow (slots : Vector α n) : (count : Nat) → Vector α n
  | 0 => slots
  | i + 1 => siftDownBelow (siftDown before slots i) i

def Ordered (slots : Vector α n) : Prop :=
  ∀ i (h : i < n) (hi : 0 < i), before slots[i] (slots.get ⟨parent i, Nat.lt_trans (parent_lt hi) h⟩) = false

instance (slots : Vector α n) : Decidable (Ordered before slots) := by
  unfold Ordered; infer_instance

def empty (capacity : Nat) : Heap α := ⟨#[], capacity, Nat.zero_le _⟩

def pairBytes : Nat := 16

/-- An empty heap whose slots are set aside as one block, which has to take less than half of the addresses. -/
def reserve (slotBytes capacity : Nat) : Except Fault (Heap α) :=
  if 2 * (slotBytes * capacity) < UInt64.size then .ok (empty capacity) else .error .capacityOverflow

def size (heap : Heap α) : Nat := heap.slots.size

def isEmpty (heap : Heap α) : Bool := heap.slots.isEmpty

def peek? (heap : Heap α) : Option α := heap.slots[0]?

def toList (heap : Heap α) : List α := heap.slots.toList

def rearrange (heap : Heap α) (f : Vector α heap.slots.size → Vector α heap.slots.size) : Heap α :=
  ⟨(f heap.slots.toVector).toArray, heap.capacity, by simpa using heap.size_le⟩

def isHeap (heap : Heap α) : Bool := decide (Ordered before heap.slots.toVector)

def heapify (heap : Heap α) : Heap α :=
  heap.rearrange fun slots => siftDownBelow before slots (heap.size / 2)

def ofArray (items : Array α) : Heap α := heapify before ⟨items, items.size, Nat.le_refl _⟩

def siftDownFrom (i : Nat) (heap : Heap α) : Heap α := heap.rearrange fun slots => siftDown before slots i

def adjustFront (heap : Heap α) : Heap α := heap.siftDownFrom before 0

/-- Slots are counted in 64 bits, which the number of a left child has to fit. -/
def siftDownAt (i : UInt64) (heap : Heap α) : Except Fault (Heap α) :=
  if 2 * i.toNat < UInt64.size then .ok (heap.siftDownFrom before i.toNat) else .error .productOverflow

def push (item : α) (heap : Heap α) : Except Fault (Heap α) :=
  if h : heap.slots.size < heap.capacity then
    let slots := siftUp before (heap.slots.push item).toVector heap.slots.size
      (by rw [Array.size_push]; exact Nat.lt_succ_self _)
    .ok ⟨slots.toArray, heap.capacity, by simp only [Vector.size_toArray, Array.size_push]; omega⟩
  else .error (.heapFull heap.capacity)

def dropFront (heap : Heap α) (h : 0 < heap.slots.size) : Heap α :=
  ⟨(heap.slots.swap 0 (heap.slots.size - 1) h (by omega)).pop, heap.capacity, by
    have := heap.size_le
    simp only [Array.size_pop, Array.size_swap]; omega⟩

def removeFront? (heap : Heap α) : Option (α × Heap α) :=
  if h : 0 < heap.slots.size then some (heap.slots[0], (heap.dropFront h).adjustFront before) else none

def setFront (item : α) (heap : Heap α) : Heap α :=
  ⟨heap.slots.setIfInBounds 0 item, heap.capacity, by simpa using heap.size_le⟩

def replaceFront (item : α) (heap : Heap α) : Heap α := (heap.setFront item).adjustFront before

def clear (heap : Heap α) : Heap α := ⟨#[], heap.capacity, Nat.zero_le _⟩

theorem size_of_removeFront? {heap rest : Heap α} {item : α} (h : heap.removeFront? before = some (item, rest)) :
    rest.size + 1 = heap.size := by
  unfold removeFront? at h
  split at h
  · obtain ⟨-, rfl⟩ := Prod.mk.inj (Option.some.inj h)
    simp only [adjustFront, siftDownFrom, rearrange, dropFront, size, Vector.size_toArray, Array.size_pop,
      Array.size_swap]
    omega
  · simp at h

def removalOrder (heap : Heap α) : List α :=
  match _h : heap.removeFront? before with
  | none => []
  | some (item, rest) => item :: removalOrder rest
termination_by heap.size
decreasing_by have := size_of_removeFront? before ‹_›; omega

def describe (item : α → String) (heap : Heap α) : String :=
  "CursorHeap \x7b capacity: " ++ toString heap.capacity ++ ", slots: [" ++
    ", ".intercalate (heap.toList.map item) ++ "] \x7d"

end Heap

end InvertedIndex
