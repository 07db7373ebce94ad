import InvertedIndex.DictionaryMerge
import InvertedIndex.Similarity

namespace InvertedIndex

open Json

def version : String := "0.1.0"

namespace Term

def ofDocument? (d : Document) : Option Term := do
  let [field, text] ← d.fields? ["field", "text"] | none
  return { field := ← field.bind Document.text?, text := ← text.bind Document.text? }

def toValue (t : Term) : Value := .object [("field", .text t.field), ("text", .text t.text)]

end Term

namespace MergedTerm

def ofDocument? (d : Document) : Option MergedTerm := do
  let [term, docFreq, origins] ← d.fields? ["term", "doc_freq", "origins"] | none
  return {
    term := ← term.bind Term.ofDocument?
    docFreq := ← docFreq.bind Document.count?
    origins := ← origins.bind (Document.list? Document.count?) }

def toValue (e : MergedTerm) : Value :=
  .object [("term", e.term.toValue), ("doc_freq", .count e.docFreq.toNat),
    ("origins", .array (e.origins.map (.count ·.toNat)))]

end MergedTerm

namespace Dictionary

def ofDocument? (d : Document) : Option Dictionary := do
  let [terms] ← d.fields? ["terms"] | none
  return ⟨(← terms.bind (Document.list? MergedTerm.ofDocument?)).toArray⟩

def toValue (d : Dictionary) : Value := .object [("terms", .array (d.toList.map MergedTerm.toValue))]

end Dictionary

namespace MergeStatistics

def ofDocument? (d : Document) : Option MergeStatistics := do
  let [sources, termsMerged, termsDropped, sharedTerms, totalDocFreq] ←
    d.fields? ["sources", "terms_merged", "terms_dropped", "shared_terms", "total_doc_freq"] | none
  let count (d : Option Document) : Option Nat := (d.bind Document.count?).map UInt64.toNat
  return {
    sources := ← count sources
    termsMerged := ← count termsMerged
    termsDropped := ← count termsDropped
    sharedTerms := ← count sharedTerms
    totalDocFreq := ← totalDocFreq.bind Document.count? }

def toValue (s : MergeStatistics) : Value :=
  .object [("sources", .count s.sources), ("terms_merged", .count s.termsMerged),
    ("terms_dropped", .count s.termsDropped), ("shared_terms", .count s.sharedTerms),
    ("total_doc_freq", .count s.totalDocFreq.toNat)]

end MergeStatistics

namespace Bm25.Params

def ofDocument? (d : Document) : Option Params := do
  let [k1, b] ← d.fields? ["k1", "b"] | none
  return { k1 := ← k1.bind Document.single?, b := ← b.bind Document.single? }

def toValue (p : Params) : Value := .object [("k1", .ofSingle p.k1), ("b", .ofSingle p.b)]

end Bm25.Params

end InvertedIndex
