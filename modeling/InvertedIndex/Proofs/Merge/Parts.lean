import InvertedIndex.Proofs.Merge.Permuted
import Mathlib.Algebra.BigOperators.Group.List.Basic
import Mathlib.Data.List.Perm.Subperm

namespace InvertedIndex

namespace TermList

variable {ls ms : List TermList} {parts : List (List TermList)} {b : Bool} {t : Term}

def IsKept (b : Bool) (t : Term) (ls : List TermList) : Prop :=
  (∃ l ∈ ls, ∃ e ∈ l.entries, e.term = t) ∧ ¬ (b = true ∧ docFreq t ls = 0)

structure Sums (b : Bool) (ls : List TermList) (es : List TermEntry) : Prop where
  increasing : Sorted.Increasing TermEntry.term es
  terms (t : Term) : (∃ e ∈ es, e.term = t) ↔ IsKept b t ls
  frequencies (e : TermEntry) : e ∈ es → e.docFreq.toNat = docFreq e.term ls

lemma docFreq_append (t : Term) (ls ms : List TermList) : docFreq t (ls ++ ms) = docFreq t ls + docFreq t ms := by
  simp [docFreq, contributions]

lemma docFreq_perm (h : ls.Perm ms) (t : Term) : docFreq t ls = docFreq t ms :=
  Count.total_perm ((h.filterMap _).map _)

lemma docFreq_singleton (t : Term) (l : TermList) :
    docFreq t [l] = Count.total ((l.entry? t).toList.map fun e => e.docFreq.toNat) := by
  rw [docFreq, contributions]
  cases h : l.entry? t <;> simp [contribution?, h]

lemma exists_entry_of_docFreq_ne_zero (h : docFreq t ls ≠ 0) : ∃ l ∈ ls, ∃ e ∈ l.entries, e.term = t := by
  by_contra hnone
  have hc : contributions t ls = [] := by
    refine List.filterMap_eq_nil_iff.mpr fun l hl => ?_
    rw [contribution?, Option.map_eq_none_iff, entry?, List.find?_eq_none]
    exact fun e he ht => hnone ⟨l, hl, e, he, beq_iff_eq.mp ht⟩
  rw [docFreq, hc] at h
  exact h rfl

lemma isKept_of_docFreq_ne_zero (h : docFreq t ls ≠ 0) : IsKept b t ls :=
  ⟨exists_entry_of_docFreq_ne_zero h, fun hdropped => h hdropped.2⟩

lemma isKept_true_iff : IsKept true t ls ↔ docFreq t ls ≠ 0 :=
  ⟨fun h hzero => h.2 ⟨rfl, hzero⟩, isKept_of_docFreq_ne_zero⟩

lemma isKept_false_iff : IsKept false t ls ↔ ∃ l ∈ ls, ∃ e ∈ l.entries, e.term = t := by
  simp [IsKept]

lemma isKept_perm (h : ls.Perm ms) : IsKept b t ls ↔ IsKept b t ms := by
  simp only [IsKept, docFreq_perm h, h.mem_iff]

section Weight

lemma weigh_append (f : TermEntry → Nat) (ls ms : List TermList) : weigh f (ls ++ ms) = weigh f ls + weigh f ms := by
  rw [weigh, List.map_append, Count.total_append]
  rfl

lemma total_docFreq_singleton_le {ts : List Term} (h : ts.Nodup) (l : TermList) :
    Count.total (ts.map fun t => docFreq t [l]) ≤ Count.total (l.entries.map fun e => e.docFreq.toNat) := by
  have hfound : Count.total (ts.map fun t => docFreq t [l]) =
      Count.total ((ts.filterMap (fun t => l.entry? t)).map fun e => e.docFreq.toNat) := by
    clear h
    induction ts with
    | nil => rfl
    | cons t ts ih =>
      rw [List.map_cons, Count.total_cons, ih, docFreq_singleton, ← Count.total_append, ← List.map_append]
      cases ht : l.entry? t <;> simp [ht]
  have hnodup : (ts.filterMap (fun t => l.entry? t)).Nodup := by
    refine h.filterMap fun t u e ht hu => ?_
    exact (entry?_mem ht).2.symm.trans (entry?_mem hu).2
  have hsub : ts.filterMap (fun t => l.entry? t) ⊆ l.entries := by
    intro e he
    obtain ⟨t, -, ht⟩ := List.mem_filterMap.mp he
    exact (entry?_mem ht).1
  obtain ⟨es, hperm, hes⟩ := List.subperm_of_subset hnodup hsub
  rw [hfound, ← Count.total_perm (hperm.map _)]
  exact Count.total_sublist (hes.map _)

lemma total_docFreq_le {ts : List Term} (h : ts.Nodup) (ls : List TermList) :
    Count.total (ts.map fun t => docFreq t ls) ≤ weigh (fun e => e.docFreq.toNat) ls := by
  induction ls with
  | nil => exact Nat.le_of_eq (List.sum_map_zero)
  | cons l ls ih =>
    have hcons (t : Term) : docFreq t (l :: ls) = docFreq t [l] + docFreq t ls := docFreq_append t [l] ls
    simp only [hcons, Count.total_map_add, weigh_cons]
    exact Nat.add_le_add (total_docFreq_singleton_le h l) ih

end Weight

namespace Sums

variable {es es₂ : List TermEntry}

lemma docFreq_eq {l : TermList} (h : Sums b ls l.entries) (t : Term) : docFreq t [l] = docFreq t ls := by
  rw [docFreq_singleton]
  cases he : l.entry? t with
  | some e =>
    obtain ⟨hmem, rfl⟩ := entry?_mem he
    rw [← h.frequencies e hmem]
    rfl
  | none =>
    by_contra hne
    obtain ⟨e, hmem, ht⟩ := (h.terms t).mpr (isKept_of_docFreq_ne_zero fun hzero => hne hzero.symm)
    exact List.find?_eq_none.mp he e hmem (beq_iff_eq.mpr ht)

lemma subset (h : Sums b ls es) (h₂ : Sums b ls es₂) : es ⊆ es₂ := by
  intro e he
  obtain ⟨x, hx, hterm⟩ := (h₂.terms e.term).mpr ((h.terms e.term).mp ⟨e, he, rfl⟩)
  have hfreq : x.docFreq = e.docFreq := by
    rw [← UInt64.toNat_inj, h₂.frequencies x hx, h.frequencies e he, hterm]
  cases e
  cases x
  cases hterm
  cases hfreq
  exact hx

lemma unique (h : Sums b ls es) (h₂ : Sums b ls es₂) : es = es₂ :=
  h.increasing.eq_of_mem_iff h₂.increasing fun _ => ⟨fun he => h.subset h₂ he, fun he => h₂.subset h he⟩

lemma perm (h : Sums b ls es) (hp : ls.Perm ms) : Sums b ms es where
  increasing := h.increasing
  terms t := (h.terms t).trans (isKept_perm hp)
  frequencies e he := (h.frequencies e he).trans (docFreq_perm hp e.term)

lemma total_le (h : Sums b ls es) :
    Count.total (es.map fun e => e.docFreq.toNat) ≤ weigh (fun e => e.docFreq.toNat) ls := by
  have hterms : Sorted.Increasing id (es.map TermEntry.term) := List.pairwise_map.mpr h.increasing
  calc Count.total (es.map fun e => e.docFreq.toNat)
      = Count.total ((es.map TermEntry.term).map fun t => docFreq t ls) := by
        rw [List.map_map]
        exact congrArg Count.total (List.map_congr_left h.frequencies)
    _ ≤ weigh (fun e => e.docFreq.toNat) ls := total_docFreq_le hterms.nodup ls

end Sums

section Parts

variable (h : List.Forall₂ (fun ls m => Sums b ls (entries m)) parts ms)

include h

lemma docFreq_parts (t : Term) : docFreq t ms = docFreq t parts.flatten := by
  induction h with
  | nil => rfl
  | cons hl _ ih =>
    rw [List.flatten_cons, docFreq_append, ← ih, ← hl.docFreq_eq t, ← docFreq_append, List.singleton_append]

lemma weigh_parts_le : weigh (fun e => e.docFreq.toNat) ms ≤ weigh (fun e => e.docFreq.toNat) parts.flatten := by
  induction h with
  | nil => exact Nat.le_refl _
  | cons hl _ ih =>
    rw [List.flatten_cons, weigh_append, weigh_cons]
    exact Nat.add_le_add hl.total_le ih

lemma exists_entry_parts : (∃ m ∈ ms, ∃ e ∈ m.entries, e.term = t) ↔ ∃ ls ∈ parts, IsKept b t ls := by
  induction h with
  | nil => simp
  | cons hl _ ih => simp only [List.exists_mem_cons_iff, hl.terms, ih]

-- A part may leave out a term that another part keeps. Then its frequency is not zero, so that no merge of all leaves
-- it out.
lemma isKept_parts : IsKept b t ms ↔ IsKept b t parts.flatten := by
  cases b with
  | true => rw [isKept_true_iff, isKept_true_iff, docFreq_parts h]
  | false =>
    rw [isKept_false_iff, isKept_false_iff, exists_entry_parts h]
    simp only [isKept_false_iff, List.mem_flatten]
    constructor
    · rintro ⟨ls, hls, l, hl, he⟩
      exact ⟨l, ⟨ls, hls, hl⟩, he⟩
    · rintro ⟨l, ⟨ls, hls, hl⟩, he⟩
      exact ⟨ls, hls, l, hl, he⟩

lemma Sums.flatten {es : List TermEntry} (hm : Sums b ms es) : Sums b parts.flatten es where
  increasing := hm.increasing
  terms t := (hm.terms t).trans (isKept_parts h)
  frequencies e he := (hm.frequencies e he).trans (docFreq_parts h e.term)

end Parts

end TermList

namespace Dictionary

def entries (d : Dictionary) : List TermEntry := d.toList.map fun e => ⟨e.term, e.docFreq⟩

lemma rest_cursor {d : Dictionary} (h : Sorted.Increasing TermEntry.term d.entries) : d.cursor.rest = d.entries :=
  h.ofList_eq

end Dictionary

namespace DictionaryMerge

open TermList MergeSource

variable {b : Bool} {ls : List TermList} {settings : MergeSettings} {sources : List (MergeSource DictionaryCursor)}

section Written

variable (h : weigh (fun e => e.docFreq.toNat) ls < UInt64.size)

include h

lemma toNat_docFreq_merged (t : Term) : (merged ls t).docFreq.toNat = docFreq t ls :=
  UInt64.toNat_ofNat_of_lt' (Nat.lt_of_le_of_lt (total_contributions_le t ls) h)

lemma exists_written_iff {t : Term} : (∃ e ∈ written b (dictionary ls), e.term = t) ↔ IsKept b t ls := by
  constructor
  · rintro ⟨e, he, rfl⟩
    obtain ⟨hmem, hk⟩ := List.mem_filter.mp he
    obtain ⟨t, ht, rfl⟩ := List.mem_map.mp hmem
    rw [keeps_iff, toNat_docFreq_merged h] at hk
    exact ⟨mem_terms.mp ht, hk⟩
  · rintro ⟨ht, hk⟩
    refine ⟨merged ls t, List.mem_filter.mpr ⟨List.mem_map_of_mem (mem_terms.mpr ht), ?_⟩, rfl⟩
    rwa [keeps_iff, toNat_docFreq_merged h]

lemma sums_of_written {d : Dictionary} (hd : d.toList = written b (dictionary ls)) : Sums b ls d.entries where
  increasing := by
    rw [Dictionary.entries, hd]
    exact List.pairwise_map.mpr ((dictionary_increasing ls).filter _)
  terms t := by
    rw [← exists_written_iff h, ← hd]
    simp [Dictionary.entries]
  frequencies x hx := by
    obtain ⟨e, he, rfl⟩ := List.mem_map.mp hx
    rw [hd] at he
    obtain ⟨t, -, rfl⟩ := List.mem_map.mp (List.mem_of_mem_filter he)
    exact toNat_docFreq_merged h t

end Written

def Merges (settings : MergeSettings) (sources : List (MergeSource DictionaryCursor)) (d : Dictionary)
    (statistics : MergeStatistics) : Prop :=
  ∃ q q', MergeQueue.ofSources sources = .ok q ∧ merge settings q ({} : Dictionary) = .done (q', d) statistics

lemma Merges.unique {d d₂ : Dictionary} {statistics statistics₂ : MergeStatistics}
    (h : Merges settings sources d statistics) (h₂ : Merges settings sources d₂ statistics₂) :
    d = d₂ ∧ statistics = statistics₂ := by
  obtain ⟨q, q', hq, hm⟩ := h
  obtain ⟨q₂, q₂', hq₂, hm₂⟩ := h₂
  obtain rfl := Except.ok.inj (hq.symm.trans hq₂)
  rw [hm, Outcome.done.injEq, Prod.mk.injEq] at hm₂
  exact ⟨hm₂.1.2, hm₂.2⟩

structure SumsUp (settings : MergeSettings) (sources : List (MergeSource DictionaryCursor)) (d : Dictionary)
    (statistics : MergeStatistics) : Prop where
  merges : Merges settings sources d statistics
  sums : Sums settings.dropEmpty (sources.map listed) d.entries
  termsMerged : statistics.termsMerged = d.entries.length
  totalDocFreq : statistics.totalDocFreq.toNat = Count.total (d.entries.map fun e => e.docFreq.toNat)

lemma exists_sumsUp (settings : MergeSettings) (hs : ∀ s ∈ sources, s.cursor.IsSorted)
    (hsum : weigh (fun e => e.docFreq.toNat) (sources.map listed) < UInt64.size) :
    ∃ d statistics, SumsUp settings sources d statistics := by
  obtain ⟨q, q', p, hq, hmerge, hw⟩ := merge_listed settings sources (fun s hm => (hs s hm).rest) hsum
  have hterms : p.writer.toList = written settings.dropEmpty (dictionary (sources.map listed)) :=
    hw.terms.trans (List.nil_append _)
  refine ⟨p.writer, p.statistics, ⟨q, q', hq, hmerge⟩, sums_of_written hsum hterms, ?_, ?_⟩
  · rw [hw.termsMerged, Dictionary.entries, List.length_map, hterms]
    exact Nat.zero_add _
  · rw [hw.totalDocFreq, Dictionary.entries, List.map_map, hterms]
    exact Nat.zero_add _

lemma exists_sumsUp_parts (settings : MergeSettings) {parts : List (List (MergeSource DictionaryCursor))}
    (hs : ∀ s ∈ parts.flatten, s.cursor.IsSorted)
    (hsum : weigh (fun e => e.docFreq.toNat) (parts.flatten.map listed) < UInt64.size) :
    ∃ ds, List.Forall₂ (fun part d => ∃ statistics, SumsUp settings part d statistics) parts ds := by
  induction parts with
  | nil => exact ⟨[], .nil⟩
  | cons part parts ih =>
    rw [List.flatten_cons, List.map_append, weigh_append] at hsum
    rw [List.flatten_cons] at hs
    have hpart : ∀ s ∈ part, s.cursor.IsSorted := fun s hm => hs s (List.mem_append_left _ hm)
    obtain ⟨d, hd⟩ := exists_sumsUp settings hpart (by omega)
    obtain ⟨ds, hds⟩ := ih (fun s hm => hs s (List.mem_append_right _ hm)) (by omega)
    exact ⟨d :: ds, .cons hd hds⟩

lemma sums_partials {parts : List (List (MergeSource DictionaryCursor))} {ds : List Dictionary}
    {partials : List (MergeSource DictionaryCursor)}
    (hds : List.Forall₂ (fun part d => ∃ statistics, SumsUp settings part d statistics) parts ds)
    (hcursors : partials.map MergeSource.cursor = ds.map Dictionary.cursor) :
    List.Forall₂ (fun ls m => Sums settings.dropEmpty ls (entries m)) (parts.map (List.map listed))
      (partials.map listed) := by
  induction hds generalizing partials with
  | nil =>
    obtain rfl := List.map_eq_nil_iff.mp hcursors
    exact .nil
  | cons hd _ ih =>
    obtain ⟨m, ms, rfl, hm, hms⟩ := List.map_eq_cons_iff.mp hcursors
    obtain ⟨statistics, hd⟩ := hd
    refine .cons ?_ (ih hms)
    have hentries : m.listed.entries = Dictionary.entries _ :=
      (congrArg DictionaryCursor.rest hm).trans (Dictionary.rest_cursor hd.sums.increasing)
    rw [hentries]
    exact hd.sums

lemma isSorted_partials {ds : List Dictionary} {partials : List (MergeSource DictionaryCursor)}
    (hcursors : partials.map MergeSource.cursor = ds.map Dictionary.cursor) : ∀ s ∈ partials, s.cursor.IsSorted := by
  intro s hs
  have hmem : s.cursor ∈ ds.map Dictionary.cursor := hcursors ▸ List.mem_map_of_mem hs
  obtain ⟨d, -, hd⟩ := List.mem_map.mp hmem
  exact hd ▸ DictionaryCursor.isSorted_ofList _

/-- Merging the dictionaries of the parts, under any origins, yields the terms, the frequencies and the counts of
merging all sources at once. -/
theorem merge_of_merged_parts (settings : MergeSettings) {sources : List (MergeSource DictionaryCursor)}
    (hs : ∀ s ∈ sources, s.cursor.IsSorted)
    (hsum : Count.total (sources.map fun s => Count.total (s.cursor.rest.map fun e => e.docFreq.toNat)) < UInt64.size)
    {parts : List (List (MergeSource DictionaryCursor))} (hp : parts.flatten.Perm sources) :
    ∃ d statistics ds, Merges settings sources d statistics ∧
      List.Forall₂ (fun part d => ∃ statistics, Merges settings part d statistics) parts ds ∧
      ∀ partials : List (MergeSource DictionaryCursor), partials.map MergeSource.cursor = ds.map Dictionary.cursor →
        ∃ d₂ statistics₂, Merges settings partials d₂ statistics₂ ∧ d₂.entries = d.entries ∧
          statistics₂.termsMerged = statistics.termsMerged ∧ statistics₂.totalDocFreq = statistics.totalDocFreq := by
  have hweigh : weigh (fun e => e.docFreq.toNat) (sources.map listed) < UInt64.size := by
    rwa [weigh, List.map_map]
  have hweigh_parts : weigh (fun e => e.docFreq.toNat) (parts.flatten.map listed) < UInt64.size := by
    rwa [weigh_perm _ (hp.map listed)]
  obtain ⟨d, statistics, hd⟩ := exists_sumsUp settings hs hweigh
  obtain ⟨ds, hds⟩ := exists_sumsUp_parts settings (fun s hm => hs s (hp.subset hm)) hweigh_parts
  refine ⟨d, statistics, ds, hd.merges, hds.imp fun _ _ h => h.imp fun _ => SumsUp.merges, ?_⟩
  intro partials hcursors
  have hlists := sums_partials hds hcursors
  have hflatten : (parts.map (List.map listed)).flatten = parts.flatten.map (listed (C := DictionaryCursor)) :=
    List.map_flatten.symm
  obtain ⟨d₂, statistics₂, hd₂⟩ := exists_sumsUp settings (isSorted_partials hcursors)
    (Nat.lt_of_le_of_lt (weigh_parts_le hlists) (hflatten ▸ hweigh_parts))
  have hsums : Sums settings.dropEmpty (sources.map listed) d₂.entries :=
    (hflatten ▸ hd₂.sums.flatten hlists).perm (hp.map listed)
  have hentries : d₂.entries = d.entries := hsums.unique hd.sums
  refine ⟨d₂, statistics₂, hd₂.merges, hentries, ?_, ?_⟩
  · rw [hd₂.termsMerged, hd.termsMerged, hentries]
  · rw [← UInt64.toNat_inj, hd₂.totalDocFreq, hd.totalDocFreq, hentries]

def divided : List (List (MergeSource DictionaryCursor)) :=
  -- The first part leaves out a term that the last one keeps.
  [[⟨1, .ofList [⟨⟨"f", "b"⟩, 0⟩, ⟨⟨"f", "a"⟩, 1⟩]⟩, ⟨2, .ofList [⟨⟨"f", "a"⟩, 2⟩]⟩], [],
    [⟨3, .ofList [⟨⟨"f", "b"⟩, 5⟩, ⟨⟨"f", "c"⟩, 0⟩]⟩]]

theorem merge_of_merged_parts_divided :
    ∃ ds, List.Forall₂ (fun part d => ∃ statistics, Merges {} part d statistics) divided ds ∧
      ∃ d statistics, Merges {} (ds.map fun d => ⟨0, d.cursor⟩) d statistics ∧
        d.entries = [⟨⟨"f", "a"⟩, 3⟩, ⟨⟨"f", "b"⟩, 5⟩] ∧ statistics.termsMerged = 2 := by
  have hs : ∀ s ∈ divided.flatten, s.cursor.IsSorted := by
    simp only [divided, List.flatten_cons, List.flatten_nil, List.append_nil, List.cons_append, List.nil_append,
      List.mem_cons, List.not_mem_nil, or_false, forall_eq_or_imp, forall_eq]
    exact ⟨DictionaryCursor.isSorted_ofList _, DictionaryCursor.isSorted_ofList _, DictionaryCursor.isSorted_ofList _⟩
  obtain ⟨q, q', p, hq, hmerge, hw⟩ := merge_listed {} divided.flatten (fun s hm => (hs s hm).rest) (by cbv)
  obtain ⟨d, statistics, ds, hd, hds, hmerged⟩ := merge_of_merged_parts {} hs (by cbv) (List.Perm.refl divided.flatten)
  obtain ⟨d₂, statistics₂, hd₂, hentries, hcount, -⟩ := hmerged (ds.map fun d => ⟨0, d.cursor⟩) (by simp)
  obtain ⟨rfl, rfl⟩ := hd.unique ⟨q, q', hq, hmerge⟩
  refine ⟨ds, hds, d₂, statistics₂, hd₂, ?_, ?_⟩
  · rw [hentries, Dictionary.entries]
    exact (congrArg _ hw.terms).trans (by cbv)
  · exact hcount.trans (hw.termsMerged.trans (by cbv))

end DictionaryMerge

end InvertedIndex
