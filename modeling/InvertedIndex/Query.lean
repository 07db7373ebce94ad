import InvertedIndex.Disjunction
import InvertedIndex.Posting
import InvertedIndex.Similarity

namespace InvertedIndex

inductive Scoring where
  | bm25 (weight : Bm25.Weight)
  | table (scores : List (DocId × Float32)) (fallback : Float32)

def Scoring.score (s : Scoring) (c : PostingCursor) : Float32 :=
  match s with
  | .bm25 w => c.current?.elim 0 fun p => w.score p.frequency p.fieldLength
  | .table scores fallback => (scores.find? (·.1 == c.doc)).elim fallback Prod.snd

structure Leaf where
  postings : PostingCursor
  scoring : Scoring
  declaredCost : Option UInt64 := none

namespace Leaf

def lift (l : Leaf) (o : Outcome PostingCursor Unit) : Outcome Leaf Unit :=
  o.mapState fun postings => { l with postings := postings }

instance : ScoredCursor Leaf where
  doc l := l.postings.doc
  next l := l.lift l.postings.next
  seek target l := l.lift (l.postings.seek target)
  cost l := l.declaredCost.getD (DocCursor.cost l.postings)
  bound l := DocCursor.bound l.postings
  score l := l.scoring.score l.postings

end Leaf

/-- A cursor whose moves may fail; one that fails leaves the cursor inside where it is. -/
structure Unreliable (C : Type) where
  inner : C
  outages : Outages
  calls : Nat := 0

namespace Unreliable

variable {C : Type}

def attempt (u : Unreliable C) (move : C → Outcome C Unit) : Outcome (Unreliable C) Unit :=
  match u.outages u.calls with
  | some e => .failed { u with calls := u.calls + 1 } e
  | none => (move u.inner).mapState fun c => { u with inner := c, calls := u.calls + 1 }

instance [ScoredCursor C] : ScoredCursor (Unreliable C) where
  doc u := DocCursor.doc u.inner
  next u := u.attempt DocCursor.next
  seek target u := u.attempt (DocCursor.seek target)
  cost u := DocCursor.cost u.inner
  bound u := DocCursor.bound u.inner
  score u := ScoredCursor.score u.inner

end Unreliable

inductive Layer (C : Type) where
  | leaf (l : Leaf)
  | unreliable (u : Unreliable C)
  | union (d : Disjunction C)

namespace Layer

variable {C : Type} [ScoredCursor C]

def doc : Layer C → DocId
  | .leaf l => DocCursor.doc l
  | .unreliable u => DocCursor.doc u
  | .union d => d.doc

def next : Layer C → Outcome (Layer C) Unit
  | .leaf l => (DocCursor.next l).mapState .leaf
  | .unreliable u => (DocCursor.next u).mapState .unreliable
  | .union d => d.next.mapState .union

def seek (target : DocId) : Layer C → Outcome (Layer C) Unit
  | .leaf l => (DocCursor.seek target l).mapState .leaf
  | .unreliable u => (DocCursor.seek target u).mapState .unreliable
  | .union d => (d.seek target).mapState .union

def cost : Layer C → UInt64
  | .leaf l => DocCursor.cost l
  | .unreliable u => DocCursor.cost u
  | .union d => d.cost

def bound : Layer C → Nat
  | .leaf l => DocCursor.bound l
  | .unreliable u => DocCursor.bound u
  | .union d => DocCursor.bound d

def score : Layer C → Float32
  | .leaf l => ScoredCursor.score l
  | .unreliable u => ScoredCursor.score u
  | .union d => d.score

instance : ScoredCursor (Layer C) where
  doc := doc
  next := next
  seek := seek
  cost := cost
  bound := bound
  score := score

end Layer

def QueryCursor : (height : Nat) → Type
  | 0 => Empty
  | height + 1 => Layer (QueryCursor height)

instance : ScoredCursor Empty where
  doc := nofun
  next := nofun
  seek _ := nofun
  cost := nofun
  bound := nofun
  score := nofun

instance QueryCursor.scoredCursor : (height : Nat) → ScoredCursor (QueryCursor height)
  | 0 => inferInstanceAs (ScoredCursor Empty)
  | height + 1 =>
    have := scoredCursor height
    inferInstanceAs (ScoredCursor (Layer (QueryCursor height)))

inductive SettingsSource where
  | given (settings : UnionSettings)
  | json (text : String)

def SettingsSource.read : SettingsSource → Except Error UnionSettings
  | .given settings => settings.validate
  | .json text => UnionSettings.read text

inductive Query where
  | leaf (postings : List Posting) (scoring : Scoring) (declaredCost : Option UInt64)
  | unreliable (inner : Query) (outages : Outages)
  | union (children : List Query) (settings : SettingsSource)

namespace Query

mutual

def height : Query → Nat
  | .leaf .. => 1
  | .unreliable inner _ => inner.height + 1
  | .union children _ => maxHeight children + 1

def maxHeight : List Query → Nat
  | [] => 0
  | q :: qs => max q.height (maxHeight qs)

end

theorem height_le_maxHeight {q : Query} {qs : List Query} (h : q ∈ qs) : q.height ≤ maxHeight qs := by
  induction h with
  | head => simp only [maxHeight]; omega
  | tail _ _ ih => simp only [maxHeight]; omega

theorem height_ne_zero (q : Query) : q.height ≠ 0 := by
  cases q <;> simp [height]

/-- The cursor of a query, on its first document. A union starts its children in order before it reads its settings. -/
def cursorUpTo :
    (height : Nat) → (q : Query) → q.height ≤ height → Except Failure (QueryCursor height)
  | 0, q, h => absurd (Nat.le_zero.mp h) q.height_ne_zero
  | _ + 1, .leaf postings scoring declaredCost, _ => do
    let cursor ← (PostingCursor.ofList postings).mapError .fault
    return .leaf ⟨cursor, scoring, declaredCost⟩
  | n + 1, .unreliable inner outages, h => do
    let cursor ← cursorUpTo n inner (by simpa [height] using h)
    return .unreliable ⟨cursor, outages, 0⟩
  | n + 1, .union children settings, h => do
    let cursors ← children.attach.mapM fun ⟨q, hq⟩ =>
      cursorUpTo n q (Nat.le_trans (height_le_maxHeight hq) (by simpa [height] using h))
    let settings ← settings.read.mapError .error
    let union ← Disjunction.ofChildren settings cursors
    return .union union

def cursor (q : Query) : Except Failure (QueryCursor q.height) := q.cursorUpTo q.height (Nat.le_refl _)

end Query

end InvertedIndex
