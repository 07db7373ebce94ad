import InvertedIndex.DocCursor
import InvertedIndex.Sorted

namespace InvertedIndex

structure Posting where
  doc : DocId
  frequency : UInt32 := 1
  fieldLength : UInt32 := 1
  deriving DecidableEq, Inhabited

structure PostingCursor where
  postings : Array Posting
  position : Nat := 0

namespace PostingCursor

def ofList (postings : List Posting) : Except Fault PostingCursor :=
  if postings.any (·.doc == DocId.exhausted) then .error .reservedDoc
  else .ok ⟨(Sorted.ofList Posting.doc postings).toArray, 0⟩

def current? (c : PostingCursor) : Option Posting := c.postings[c.position]?

def doc (c : PostingCursor) : DocId := c.current?.elim DocId.exhausted Posting.doc

def frequency (c : PostingCursor) : UInt32 := c.current?.elim 0 Posting.frequency

def size (c : PostingCursor) : Nat := c.postings.size

def rest (c : PostingCursor) : List Posting := c.postings.toList.drop c.position

def next (c : PostingCursor) : Outcome PostingCursor Unit :=
  if c.position < c.postings.size then .done { c with position := c.position + 1 } ()
  else .fault .docNextExhausted

def seek (target : DocId) (c : PostingCursor) : Outcome PostingCursor Unit :=
  if c.doc = DocId.exhausted then .fault .docSeekExhausted
  else if target < c.doc then .fault (.docSeekBehind target c.doc)
  else .done { c with position := Sorted.lowerBound (·.doc < target) c.postings c.position } ()

instance : DocCursor PostingCursor where
  doc := doc
  next := next
  seek := seek
  cost c := c.size.toUInt64
  bound c := c.size - c.position

end PostingCursor

end InvertedIndex
