import InvertedIndex.DictionaryCursor

namespace InvertedIndex

/-- A cursor over entries in the order in which they are given. It may be moved on past the end. -/
structure ListingCursor where
  entries : Array TermEntry
  position : Nat := 0

namespace ListingCursor

def current? (c : ListingCursor) : Option TermEntry := c.entries[c.position]?

instance : TermCursor ListingCursor where
  term? c := c.current?.map TermEntry.term
  docFreq c := c.current?.elim 0 TermEntry.docFreq
  next c := .done { c with position := c.position + 1 } (c.position + 1 < c.entries.size)
  closing _ := {}
  bound c := c.entries.size - c.position

end ListingCursor

structure Script where
  label : String
  outages : Outages
  closeError : Option Error
  claimsMore : Bool
  claimsDone : Bool

namespace Script

def claim (s : Script) (more : Bool) : Bool := (more || s.claimsMore) && !s.claimsDone

/-- A cursor that fails to close does not close the one inside. -/
def closing (s : Script) (inner : Closing) : Closing :=
  match s.closeError with
  | some e => ⟨[s.label], some e⟩
  | none => ⟨s.label :: inner.labels, inner.error⟩

end Script

inductive SegmentCursor where
  | dictionary (c : DictionaryCursor)
  | listing (c : ListingCursor)
  | scripted (script : Script) (calls : Nat) (inner : SegmentCursor)

namespace SegmentCursor

def term? : SegmentCursor → Option Term
  | .dictionary c => TermCursor.term? c
  | .listing c => TermCursor.term? c
  | .scripted _ _ inner => inner.term?

def docFreq : SegmentCursor → UInt64
  | .dictionary c => TermCursor.docFreq c
  | .listing c => TermCursor.docFreq c
  | .scripted _ _ inner => inner.docFreq

def next : SegmentCursor → Outcome SegmentCursor Bool
  | .dictionary c => (TermCursor.next c).mapState .dictionary
  | .listing c => (TermCursor.next c).mapState .listing
  | .scripted script calls inner =>
    match script.outages calls with
    | some e => .failed (.scripted script (calls + 1) inner) e
    | none => (inner.next.mapState (.scripted script (calls + 1))).map script.claim

def closing : SegmentCursor → Closing
  | .dictionary c => TermCursor.closing c
  | .listing c => TermCursor.closing c
  | .scripted script _ inner => script.closing inner.closing

def bound : SegmentCursor → Nat
  | .dictionary c => TermCursor.bound c
  | .listing c => TermCursor.bound c
  | .scripted _ _ inner => inner.bound

def seek (target : Term) : SegmentCursor → Outcome SegmentCursor Bool
  | .dictionary c => (TermCursor.seek target c).mapState .dictionary
  | .listing c => (TermCursor.seek target c).mapState .listing
  | .scripted script calls inner => TermCursor.seekByNext term? next bound target (.scripted script calls inner)

instance : TermCursor SegmentCursor where
  term? := term?
  docFreq := docFreq
  next := next
  closing := closing
  bound := bound
  seek := seek

end SegmentCursor

end InvertedIndex
