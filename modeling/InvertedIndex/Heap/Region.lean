import InvertedIndex.Heap

namespace InvertedIndex.Heap.Region

variable (on : Nat → Bool)

/-- The next slot once everything below `i` has been seen: the right neighbour of the nearest left child above. -/
def climb (i : Nat) : Option Nat :=
  if hi : 0 < i then
    if i % 2 = 1 ∧ on (i + 1) then some (i + 1) else climb (parent i)
  else none
termination_by i
decreasing_by exact parent_lt hi

def successor (i : Nat) : Option Nat :=
  if on (2 * i + 1) then some (2 * i + 1)
  else if on (2 * i + 2) then some (2 * i + 2)
  else climb on i

def walkFrom : (limit i : Nat) → List Nat
  | 0, _ => []
  | limit + 1, i => i :: (successor on i).elim [] (walkFrom limit)

/-- The slots of the region of slot 0, which itself is taken unseen. Each of the `size` slots comes at most once. -/
def walk (size : Nat) : List Nat := walkFrom on size 0

end InvertedIndex.Heap.Region
