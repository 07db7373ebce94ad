import InvertedIndex.Proofs.Merge.Drain
import Mathlib.Data.List.Permutation

namespace InvertedIndex

open Heap MergeSource

namespace DictionaryMerge

open MergeQueue TermList

variable {C : Type} [TermCursor C] [ListedCursor C] {q : MergeQueue C} {p : Progress Dictionary}

lemma troubles_eq_nil (q : MergeQueue C) (d : Dictionary) : troubles q d = [] :=
  List.append_eq_nil_iff.mpr ⟨moveErrors_eq_nil _, rfl⟩

lemma drain_done (settings : MergeSettings) (h : IsListed q)
    (hlast : ∀ u ∈ p.last, ∀ t ∈ terms q.left, compare u t = .lt)
    (hsum : p.statistics.totalDocFreq.toNat + weigh (fun e => e.docFreq.toNat) q.left < UInt64.size) :
    ∃ q' p', q.drain (fun _ => visit settings) p = .done (q', p') () ∧ q'.held = q.retired ∧
      Wrote settings.dropEmpty (dictionary q.left) p p' := by
  have hres := drain_result settings ⟨h, hlast, hsum, troubles_eq_nil q p.writer⟩
  cases ho : q.drain (fun _ => visit settings) p with
  | done s u =>
    rw [ho] at hres
    obtain ⟨hw, hheld, -⟩ := hres
    exact ⟨s.1, s.2, rfl, hheld, hw⟩
  | failed s x =>
    rw [ho] at hres
    rcases hres.2 with hone | ⟨-, hclose⟩
    · rw [troubles_eq_nil] at hone
      cases hone
    · exact absurd (closeErrors_eq_nil _) hclose
  | fault x =>
    rw [ho] at hres
    exact hres.elim

lemma ofSources_listed (sources : List (MergeSource C))
    (hinc : ∀ s ∈ sources, Sorted.Increasing TermEntry.term s.listed.entries) :
    ∃ q, MergeQueue.ofSources sources = .ok q ∧ IsListed q ∧ q.retired = [] ∧ q.sourceCount = sources.length ∧
      q.left.Perm ((sources.map listed).filter (·.entries ≠ [])) := by
  obtain ⟨q, hq⟩ := ofSources_eq_ok (closeErrors_eq_nil (sources.filter (·.term?.isNone)))
  obtain ⟨-, -, hretired, hcount, -⟩ := ofSources_spec hq
  exact ⟨q, hq, isListed_ofSources hq (fun _ _ => trivial) hinc, hretired, hcount, left_ofSources hq⟩

lemma merge_of_drain {settings : MergeSettings} {q' : MergeQueue C} {p' : Progress Dictionary}
    (h : q.drain (fun _ => visit settings) ⟨{}, { sources := q.sourceCount }, none⟩ = .done (q', p') ()) :
    merge settings q ({} : Dictionary) = .done (q'.release, p'.writer) p'.statistics := by
  rw [merge, h]
  simp only [close, closeErrors_eq_nil]
  rfl

lemma merge_listed (settings : MergeSettings) (sources : List (MergeSource C))
    (hinc : ∀ s ∈ sources, Sorted.Increasing TermEntry.term s.listed.entries)
    (hsum : weigh (fun e => e.docFreq.toNat) (sources.map listed) < UInt64.size) :
    ∃ q q' p, MergeQueue.ofSources sources = .ok q ∧
      merge settings q ({} : Dictionary) = .done (q', p.writer) p.statistics ∧
      Wrote settings.dropEmpty (dictionary (sources.map listed)) ⟨{}, { sources := sources.length }, none⟩ p := by
  obtain ⟨q, hq, hlisted, -, hcount, hleft⟩ := ofSources_listed sources hinc
  have hweigh (f : TermEntry → Nat) : weigh f q.left = weigh f (sources.map listed) := by
    rw [weigh_perm f hleft, weigh_filter]
  obtain ⟨q', p, hdrain, -, hw⟩ := drain_done settings (p := ⟨{}, { sources := q.sourceCount }, none⟩)
    hlisted nofun (by
      rw [hweigh]
      simpa using hsum)
  refine ⟨q, q'.release, p, hq, merge_of_drain hdrain, ?_⟩
  rwa [hcount, dictionary_perm hleft, dictionary_filter] at hw

end DictionaryMerge

namespace TermList

def source (l : TermList) : MergeSource DictionaryCursor := ⟨l.origin, .ofList l.entries⟩

lemma contribution?_source (t : Term) (l : TermList) : contribution? t l.source.listed = contribution? t l :=
  congrArg (Option.map _) (Sorted.find?_ofList t l.entries)

lemma dictionary_sources (ls : List TermList) : dictionary ((ls.map source).map listed) = dictionary ls := by
  rw [List.map_map]
  refine dictionary_congr (fun t => ?_) fun t _ => ?_
  · have hterm (l : TermList) : (∃ e ∈ l.source.listed.entries, e.term = t) ↔ ∃ e ∈ l.entries, e.term = t :=
      Sorted.exists_key_ofList_iff
    simp only [List.mem_map, Function.comp_apply, exists_exists_and_eq_and, hterm]
  · rw [contributions, contributions, List.filterMap_map]
    exact List.Perm.of_eq (List.filterMap_congr fun l _ => contribution?_source t l)

lemma toNat_merged {ls : List TermList}
    (h : weigh (fun e => e.docFreq.toNat) ((ls.map source).map listed) < UInt64.size) (t : Term) :
    (merged ls t).docFreq.toNat = docFreq t ls := by
  have hle := total_contributions_le t ((ls.map source).map listed)
  have heq : docFreq t ((ls.map source).map listed) = docFreq t ls := by
    rw [docFreq, docFreq, contributions, contributions, List.map_map, List.filterMap_map]
    congr 2
    exact List.filterMap_congr fun l _ => contribution?_source t l
  exact UInt64.toNat_ofNat_of_lt' (by omega)

end TermList

namespace DictionaryMerge

open TermList

lemma keeps_iff {b : Bool} {e : MergedTerm} : keeps b e = true ↔ ¬ (b = true ∧ e.docFreq.toNat = 0) := by
  rw [keeps, Bool.not_eq_true', Bool.and_eq_false_iff, beq_eq_false_iff_ne, ne_eq, ← UInt64.toNat_inj]
  cases b <;> simp

lemma mem_written_dictionary {b : Bool} {inputs : List TermList} {e : MergedTerm}
    (h : weigh (fun e => e.docFreq.toNat) ((inputs.map source).map listed) < UInt64.size) :
    e ∈ written b (dictionary inputs) ↔ (∃ l ∈ inputs, ∃ x ∈ l.entries, x.term = e.term) ∧
      e.docFreq.toNat = docFreq e.term inputs ∧ e.origins = origins e.term inputs ∧
      ¬ (b = true ∧ docFreq e.term inputs = 0) := by
  rw [written, List.mem_filter, keeps_iff, dictionary, List.mem_map]
  constructor
  · rintro ⟨⟨t, ht, rfl⟩, hk⟩
    rw [toNat_merged h t] at hk
    exact ⟨mem_terms.mp ht, toNat_merged h t, rfl, hk⟩
  · rintro ⟨ht, hfreq, horigins, hk⟩
    refine ⟨⟨e.term, mem_terms.mpr ht, ?_⟩, hfreq ▸ hk⟩
    have hf : (merged inputs e.term).docFreq = e.docFreq :=
      UInt64.toNat_inj.mp ((toNat_merged h e.term).trans hfreq.symm)
    cases e with
    | mk t f os => exact MergedTerm.mk.injEq _ _ _ _ _ _ ▸ ⟨rfl, hf, horigins.symm⟩

/-- The dictionary that a merge writes has one entry for each term of the segments, with the sum of its frequencies
and its origins in order, and the statistics agree with it. -/
theorem merge_writes_dictionary (settings : MergeSettings) (inputs : List TermList)
    (hsum : Count.total (inputs.map fun l =>
      Count.total ((DictionaryCursor.ofList l.entries).rest.map fun e => e.docFreq.toNat)) < UInt64.size) :
    ∃ q q' d statistics, MergeQueue.ofSources (inputs.map source) = .ok q ∧
      merge settings q ({} : Dictionary) = .done (q', d) statistics ∧
      Sorted.Increasing MergedTerm.term d.toList ∧
      (∀ e, e ∈ d.toList ↔ (∃ l ∈ inputs, ∃ x ∈ l.entries, x.term = e.term) ∧
        e.docFreq.toNat = docFreq e.term inputs ∧ e.origins = origins e.term inputs ∧
        ¬ (settings.dropEmpty = true ∧ docFreq e.term inputs = 0)) ∧
      statistics.sources = inputs.length ∧
      statistics.termsMerged = d.toList.length ∧
      statistics.termsMerged + statistics.termsDropped =
        (inputs.flatMap fun l => l.entries.map TermEntry.term).dedup.length ∧
      statistics.sharedTerms = d.toList.countP (1 < ·.origins.length) ∧
      statistics.totalDocFreq.toNat = Count.total (d.toList.map fun e => e.docFreq.toNat) := by
  have hweigh : weigh (fun e => e.docFreq.toNat) ((inputs.map source).map listed) < UInt64.size := by
    rwa [weigh, List.map_map, List.map_map]
  obtain ⟨q, q', p, hq, hmerge, hw⟩ := merge_listed settings (inputs.map source) (fun s hs => by
    obtain ⟨l, -, rfl⟩ := List.mem_map.mp hs
    exact Sorted.ofList_increasing l.entries) hweigh
  rw [dictionary_sources] at hw
  have hterms : p.writer.toList = written settings.dropEmpty (dictionary inputs) :=
    hw.terms.trans (List.nil_append _)
  refine ⟨q, q', p.writer, p.statistics, hq, hmerge, ?_⟩
  rw [hterms]
  refine ⟨?_, ?_, ?_, ?_, ?_, ?_, ?_⟩
  · exact (dictionary_increasing inputs).filter _
  · exact fun e => mem_written_dictionary hweigh
  · exact hw.sources.trans (List.length_map _)
  · exact hw.termsMerged.trans (Nat.zero_add _)
  · rw [hw.termsMerged, hw.termsDropped, Nat.zero_add, Nat.zero_add, length_written_add_length_dropped, ← length_terms,
      ← map_term_dictionary, List.length_map]
  · exact hw.sharedTerms.trans (Nat.zero_add _)
  · exact hw.totalDocFreq.trans (Nat.zero_add _)

theorem merge_writes_shared_term :
    ∃ q q' d statistics,
      MergeQueue.ofSources ([⟨7, [⟨⟨"f", "b"⟩, 2⟩, ⟨⟨"f", "a"⟩, 0⟩, ⟨⟨"f", "b"⟩, 9⟩]⟩,
        ⟨3, [⟨⟨"f", "b"⟩, 4⟩]⟩].map source) = .ok q ∧
      merge {} q ({} : Dictionary) = .done (q', d) statistics ∧
      ⟨⟨"f", "b"⟩, 6, [3, 7]⟩ ∈ d.toList ∧ (∀ e ∈ d.toList, e.term ≠ ⟨"f", "a"⟩) ∧
      statistics.termsMerged + statistics.termsDropped = 2 := by
  obtain ⟨q, q', d, statistics, hq, hmerge, -, hmem, -, -, hcount, -⟩ := merge_writes_dictionary {}
    [⟨7, [⟨⟨"f", "b"⟩, 2⟩, ⟨⟨"f", "a"⟩, 0⟩, ⟨⟨"f", "b"⟩, 9⟩]⟩, ⟨3, [⟨⟨"f", "b"⟩, 4⟩]⟩] (by cbv)
  refine ⟨q, q', d, statistics, hq, hmerge, ?_, ?_, hcount.trans (by decide)⟩
  · rw [hmem]
    refine ⟨by simp, by decide, ?_, by decide⟩
    cbv
  · rintro e he hterm
    rw [hmem, hterm] at he
    exact he.2.2.2 ⟨rfl, by decide⟩

end DictionaryMerge

end InvertedIndex
