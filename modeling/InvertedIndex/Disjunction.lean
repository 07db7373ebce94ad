import InvertedIndex.DocCursor
import InvertedIndex.Heap.Region
import InvertedIndex.Settings

/-! The union of several scored cursors. A document scores as its best match and a share of the other ones. -/

namespace InvertedIndex

structure Disjunction (C : Type) where
  live : Heap C
  tieBreaker : Float32
  doc : DocId
  cost : UInt64

namespace Disjunction

variable {C : Type} [ScoredCursor C]

def docBefore (a b : C) : Bool := DocCursor.doc a < DocCursor.doc b

def frontDoc (live : Heap C) : DocId := live.peek?.elim DocId.exhausted DocCursor.doc

def ofChildren (settings : UnionSettings) (children : List C) : Except Failure (Disjunction C) := do
  let settings ← settings.validate.mapError .error
  let live := children.filter (!DocCursor.isExhausted ·)
  let cost ← (Count.sum (live.map DocCursor.cost)).mapError .fault
  let heap := Heap.ofArray docBefore live.toArray
  return { live := heap, tieBreaker := settings.tieBreaker, doc := frontDoc heap, cost := cost }

/-- Moves the front cursor for as long as it stands on a document that is `behind`, at most `limit` times. -/
def moveFront (behind : DocId → Bool) (move : C → Outcome C Unit) :
    (limit : Nat) → Heap C → Outcome (Heap C) Unit
  | 0, live => .done live ()
  | limit + 1, live =>
    match live.peek? with
    | none => .done live ()
    | some front =>
      if behind (DocCursor.doc front) then
        match move front with
        | .done front () =>
          if DocCursor.isExhausted front then
            moveFront behind move limit ((live.removeFront? docBefore).elim live Prod.snd)
          else moveFront behind move limit (live.replaceFront docBefore front)
        | .failed front e => .failed (live.setFront front) e
        | .fault x => .fault x
      else .done live ()

/-- A move of the cursors that are behind, each of which has to move once. After an error the document stays. -/
def moveLive (d : Disjunction C) (behind : DocId → Bool) (move : C → Outcome C Unit) :
    Outcome (Disjunction C) Unit :=
  match moveFront behind move d.live.size d.live with
  | .done live () => .done { d with live := live, doc := frontDoc live } ()
  | .failed live e => .failed { d with live := live } e
  | .fault x => .fault x

def exhaust (d : Disjunction C) : Disjunction C := { d with doc := DocId.exhausted }

def next (d : Disjunction C) : Outcome (Disjunction C) Unit :=
  if d.live.isEmpty then .done d.exhaust () else d.moveLive (· == d.doc) DocCursor.next

def seek (target : DocId) (d : Disjunction C) : Outcome (Disjunction C) Unit :=
  if d.live.isEmpty then .done d.exhaust ()
  else if target < d.doc then .fault (.docSeekBehind target d.doc)
  else d.moveLive (· < target) (DocCursor.seek target)

def matching (d : Disjunction C) : List C :=
  if d.live.isEmpty ∨ d.doc = DocId.exhausted then []
  else
    let on (i : Nat) : Bool := d.live.slots[i]?.any (DocCursor.doc · == d.doc)
    (Heap.Region.walk on d.live.size).filterMap (d.live.slots[·]?)

/-- The larger number, and of two zeros the second; what is not a number does not count. -/
def larger (a b : Float32) : Float32 := if b.isNaN then a else if b < a then a else b

def combine (tieBreaker : Float32) (scores : List Float32) : Float32 :=
  let sum := scores.foldl (· + ·) 0
  let best := scores.foldl larger (-1 / 0)
  if best == -1 / 0 then 0 else best + (sum - best) * tieBreaker

def score (d : Disjunction C) : Float32 := combine d.tieBreaker (d.matching.map ScoredCursor.score)

def isHeap (d : Disjunction C) : Bool := d.live.isHeap docBefore

def children (d : Disjunction C) : List C := d.live.toList

instance : ScoredCursor (Disjunction C) where
  doc := doc
  next := next
  seek := seek
  cost := cost
  bound d := Count.total (d.children.map DocCursor.bound) + 1
  score := score

end Disjunction

end InvertedIndex
