import InvertedIndex.Sorted
import InvertedIndex.TermCursor

namespace InvertedIndex

structure TermEntry where
  term : Term
  docFreq : UInt64
  deriving DecidableEq, Inhabited

structure DictionaryCursor where
  entries : Array TermEntry
  position : Nat := 0

namespace DictionaryCursor

def ofList (entries : List TermEntry) : DictionaryCursor := ⟨(Sorted.ofList TermEntry.term entries).toArray, 0⟩

def ofField (field : String) (terms : List (String × UInt64)) : DictionaryCursor :=
  ofList (terms.map fun (text, docFreq) => ⟨⟨field, text⟩, docFreq⟩)

def size (c : DictionaryCursor) : Nat := c.entries.size

def isEmpty (c : DictionaryCursor) : Bool := c.entries.isEmpty

def current? (c : DictionaryCursor) : Option TermEntry := c.entries[c.position]?

def term? (c : DictionaryCursor) : Option Term := c.current?.map TermEntry.term

def rest (c : DictionaryCursor) : List TermEntry := c.entries.toList.drop c.position

def next (c : DictionaryCursor) : Outcome DictionaryCursor Bool :=
  if c.position < c.entries.size then
    .done { c with position := c.position + 1 } (c.position + 1 < c.entries.size)
  else .fault .termNextExhausted

def seek (target : Term) (c : DictionaryCursor) : Outcome DictionaryCursor Bool :=
  match c.term? with
  | none => .fault .termSeekExhausted
  | some current =>
    if compare target current = .lt then .fault (.termSeekBehind target current)
    else
      let position := Sorted.lowerBound (fun e => compare e.term target == .lt) c.entries c.position
      .done { c with position := position } (position < c.entries.size)

instance : TermCursor DictionaryCursor where
  term? := term?
  docFreq c := c.current?.elim 0 TermEntry.docFreq
  next := next
  closing _ := {}
  bound c := c.entries.size - c.position
  seek := seek

end DictionaryCursor

end InvertedIndex
