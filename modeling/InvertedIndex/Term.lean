namespace InvertedIndex

structure Term where
  field : String
  text : String
  deriving DecidableEq, Inhabited

namespace Term

instance : Ord Term where
  compare a b := (compare a.field b.field).then (compare a.text b.text)

def display (t : Term) : String := t.field ++ ":" ++ t.text

def sort (ts : List Term) : List Term := ts.mergeSort fun a b => (compare a b).isLE

end Term

end InvertedIndex
