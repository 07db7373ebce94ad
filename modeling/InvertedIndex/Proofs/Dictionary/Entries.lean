import InvertedIndex.DictionaryCursor
import InvertedIndex.Proofs.Sorted
import InvertedIndex.Proofs.Term

namespace InvertedIndex

def DictionaryCursor.IsSorted (c : DictionaryCursor) : Prop := Sorted.Increasing TermEntry.term c.entries.toList

namespace DictionaryCursor

variable {c : DictionaryCursor}

lemma rest_ne_nil_iff (c : DictionaryCursor) : c.rest ≠ [] ↔ c.position < c.entries.size := by
  simp [rest]

lemma length_rest (c : DictionaryCursor) : c.rest.length = c.entries.size - c.position := by
  simp [rest]

lemma current?_eq (c : DictionaryCursor) : c.current? = c.rest.head? := by
  simp [current?, rest]

lemma next_eq (h : c.rest ≠ []) : c.next = .done { c with position := c.position + 1 } (decide (c.rest.tail ≠ [])) := by
  rw [next, if_pos (c.rest_ne_nil_iff.mp h)]
  simp [rest]

lemma next_rest (c : DictionaryCursor) : { c with position := c.position + 1 }.rest = c.rest.tail := by
  simp [rest]

lemma rest_ofList (entries : List TermEntry) : (ofList entries).rest = Sorted.ofList TermEntry.term entries := by
  simp [rest, ofList]

lemma isSorted_ofList (entries : List TermEntry) : (ofList entries).IsSorted := Sorted.ofList_increasing entries

lemma IsSorted.rest {c : DictionaryCursor} (h : c.IsSorted) : Sorted.Increasing TermEntry.term c.rest :=
  List.Pairwise.drop h

end DictionaryCursor

end InvertedIndex
