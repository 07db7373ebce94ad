import InvertedIndex.Fault

namespace InvertedIndex

structure Closing where
  labels : List String := []
  error : Option Error := none

namespace TermCursor

section Walk

variable {C : Type} (term? : C → Option Term) (next : C → Outcome C Bool)

def walkTo (target : Term) : (limit : Nat) → C → Outcome C Bool
  | 0, c => .done c false
  | limit + 1, c =>
    match term? c with
    | none => .done c false
    | some t =>
      if (compare target t).isLE then .done c true
      else
        match next c with
        | .done c true => walkTo target limit c
        | .done c false => .done c false
        | .failed c e => .failed c e
        | .fault x => .fault x

def seekByNext (bound : C → Nat) (target : Term) (c : C) : Outcome C Bool :=
  match term? c with
  | none => .fault .termSeekExhausted
  | some current =>
    if compare target current = .lt then .fault (.termSeekBehind target current)
    else walkTo term? next target (bound c) c

end Walk

end TermCursor

class TermCursor (C : Type) where
  term? : C → Option Term
  docFreq : C → UInt64
  /-- Moves to the following term, and claims whether there is one. -/
  next : C → Outcome C Bool
  closing : C → Closing
  bound : C → Nat
  seek : Term → C → Outcome C Bool := TermCursor.seekByNext term? next bound

end InvertedIndex
