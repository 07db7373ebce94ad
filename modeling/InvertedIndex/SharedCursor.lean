import InvertedIndex.DocCursor

namespace InvertedIndex

/-- A cursor that several handles, numbered from 0, pull from in turns. -/
structure SharedCursor (C : Type) where
  cursor : C
  started : Bool := false
  handles : Nat := 1

namespace SharedCursor

variable {C : Type} [ScoredCursor C]

def clone (s : SharedCursor C) : SharedCursor C := { s with handles := s.handles + 1 }

def current? (c : C) : Option (DocId × Float32) :=
  if DocCursor.isExhausted c then none else some (DocCursor.doc c, ScoredCursor.score c)

def move (s : SharedCursor C) (f : C → Outcome C Unit) : Outcome (SharedCursor C) Unit :=
  (f s.cursor).mapState fun c => { s with cursor := c }

def pull (s : SharedCursor C) : Outcome (SharedCursor C) (Option (DocId × Float32)) :=
  if !s.started then .done { s with started := true } (current? s.cursor)
  else if DocCursor.isExhausted s.cursor then .done s none
  else
    match s.move DocCursor.next with
    | .done s () => .done s (current? s.cursor)
    | .failed s e => .failed s e
    | .fault x => .fault x

end SharedCursor

end InvertedIndex
