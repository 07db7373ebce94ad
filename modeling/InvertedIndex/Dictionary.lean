import InvertedIndex.DictionaryCursor

namespace InvertedIndex

structure MergedTerm where
  term : Term
  docFreq : UInt64
  origins : List UInt64
  deriving DecidableEq, Inhabited

structure Dictionary where
  terms : Array MergedTerm := #[]
  deriving DecidableEq, Inhabited

namespace Dictionary

def add (entry : MergedTerm) (d : Dictionary) : Dictionary := ⟨d.terms.push entry⟩

def toList (d : Dictionary) : List MergedTerm := d.terms.toList

def get? (t : Term) (d : Dictionary) : Option MergedTerm := Sorted.find? (fun e => compare e.term t) d.terms

def cursor (d : Dictionary) : DictionaryCursor := .ofList (d.toList.map fun e => ⟨e.term, e.docFreq⟩)

end Dictionary

class DictionaryWriter (W : Type) where
  add : MergedTerm → W → Outcome W Unit

instance : DictionaryWriter Dictionary where
  add entry d := .done (d.add entry) ()

structure UnreliableDictionary where
  dictionary : Dictionary := {}
  outages : Outages
  calls : Nat := 0

instance : DictionaryWriter UnreliableDictionary where
  add entry d :=
    match d.outages d.calls with
    | some e => .failed { d with calls := d.calls + 1 } e
    | none => .done { d with dictionary := d.dictionary.add entry, calls := d.calls + 1 } ()

end InvertedIndex
