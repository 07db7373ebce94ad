import InvertedIndex.Fault

namespace InvertedIndex

class DocCursor (C : Type) where
  doc : C → DocId
  next : C → Outcome C Unit
  seek : DocId → C → Outcome C Unit
  cost : C → UInt64
  /-- A number of calls of `next` that is enough to reach the end. -/
  bound : C → Nat

class ScoredCursor (C : Type) extends DocCursor C where
  score : C → Float32

namespace DocCursor

variable {C : Type} [DocCursor C]

def isExhausted (c : C) : Bool := doc c == DocId.exhausted

/-- The answer to a move is the document that it leads to. -/
def answer : Outcome C Unit → Outcome C DocId
  | .done c () => .done c (doc c)
  | .failed c e => .failed c e
  | .fault x => .fault x

def drainWithin (note : C → α) : (limit : Nat) → C → Outcome C (List α × Option Error)
  | 0, c => .done c ([], none)
  | limit + 1, c =>
    if isExhausted c then .done c ([], none)
    else
      match next c with
      | .done c' () => (drainWithin note limit c').map fun (notes, e) => (note c :: notes, e)
      | .failed c' e => .done c' ([note c], some e)
      | .fault x => .fault x

def drain (note : C → α) (c : C) : Outcome C (List α × Option Error) := drainWithin note (bound c) c

end DocCursor

end InvertedIndex
