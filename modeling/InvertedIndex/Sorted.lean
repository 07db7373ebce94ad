namespace InvertedIndex.Sorted

variable {α : Type u} {κ : Type v}

section Distinct

variable [BEq κ] (key : α → κ)

def firstsAfter (k : κ) : List α → List α
  | [] => []
  | a :: xs => if key a == k then firstsAfter k xs else a :: firstsAfter (key a) xs

def firsts : List α → List α
  | [] => []
  | a :: xs => a :: firstsAfter key (key a) xs

end Distinct

def ofList [Ord κ] [BEq κ] (key : α → κ) (xs : List α) : List α :=
  firsts key (xs.mergeSort fun a b => (compare (key a) (key b)).isLE)

/-- Narrows `size` positions from `base` on to one, by halves: `base` moves up to every probe that is not above. -/
def narrow (above : Nat → Bool) (base size : Nat) : Nat :=
  if size ≤ 1 then base
  else
    let half := size / 2
    if above (base + half) then narrow above base (size - half) else narrow above (base + half) (size - half)
termination_by size

def lowerBound (below : α → Bool) (xs : Array α) (start : Nat) : Nat :=
  if xs.size ≤ start then start
  else
    let at? (i : Nat) : Bool := xs[i]?.any below
    let i := narrow (fun i => !at? i) start (xs.size - start)
    if at? i then i + 1 else i

/-- The entry for which `place` is `eq`; it is `lt` for entries before that one and `gt` for those after it. -/
def find? (place : α → Ordering) (xs : Array α) : Option α :=
  xs[narrow (fun i => xs[i]?.any fun a => place a == .gt) 0 xs.size]?.filter fun a => place a == .eq

end InvertedIndex.Sorted
