import InvertedIndex.Proofs.Merge.Closing
import InvertedIndex.Proofs.Merge.Parts

namespace InvertedIndex

namespace TermCursor

variable {C : Type} [TermCursor C]

def listWithin : (limit : Nat) → C → Outcome C (List TermEntry)
  | 0, c => .done c []
  | limit + 1, c =>
    match TermCursor.term? c with
    | none => .done c []
    | some t =>
      match TermCursor.next c with
      | .done c' _ => (listWithin limit c').map (⟨t, TermCursor.docFreq c⟩ :: ·)
      | .failed c' e => .failed c' e
      | .fault x => .fault x

lemma listWithin_done [ListedCursor C] {limit : Nat} {c : C} (h : (ListedCursor.entries c).length ≤ limit) :
    ∃ c', listWithin limit c = .done c' (ListedCursor.entries c) ∧ TermCursor.term? c' = none := by
  have hterm := ListedCursor.term?_eq c
  induction limit generalizing c with
  | zero =>
    have hnil := List.length_eq_zero_iff.mp (Nat.le_zero.mp h)
    rw [hnil] at hterm ⊢
    exact ⟨c, rfl, hterm⟩
  | succ limit ih =>
    rw [listWithin, hterm]
    cases he : ListedCursor.entries c with
    | nil =>
      rw [he] at hterm
      exact ⟨c, rfl, hterm⟩
    | cons e es =>
      have hfreq := ListedCursor.docFreq_eq c
      obtain ⟨c₁, hnext, hes⟩ := ListedCursor.next_done (he ▸ List.cons_ne_nil e es)
      rw [he, List.tail_cons] at hes
      obtain ⟨c', hlist, hend⟩ := ih (c := c₁) (by simpa [hes, he] using h) (ListedCursor.term?_eq c₁)
      refine ⟨c', ?_, hend⟩
      simp [hnext, hlist, hes, hfreq, he, Outcome.map]

end TermCursor

lemma MergeQueue.drainWithin_keeps {C σ : Type} [TermCursor C] {visit : MergeQueue C → TermGroup C → σ → Outcome σ Unit}
    {P : σ → Prop} (hv : ∀ q g s s', P s → (visit q g s).after = .ok s' → P s') {limit : Nat} {q q' : MergeQueue C}
    {s s' : σ} (hs : P s) (hd : (drainWithin visit limit q s).after = .ok (q', s')) : P s' := by
  induction limit generalizing q s with
  | zero =>
    obtain ⟨-, rfl⟩ := Prod.mk.inj (Except.ok.inj hd)
    exact hs
  | succ limit ih =>
    rw [drainWithin] at hd
    split at hd
    · obtain ⟨-, rfl⟩ := Prod.mk.inj (Except.ok.inj hd)
      exact hs
    · next g q₁ _ =>
      have hvisit := hv q₁ g s
      split at hd
      · next s₁ hdone =>
        rw [hdone] at hvisit
        have hs₁ : P s₁ := hvisit s₁ hs rfl
        split at hd
        · exact ih hs₁ hd
        · obtain ⟨-, rfl⟩ := Prod.mk.inj (Except.ok.inj hd)
          exact hs₁
        · cases hd
      · next s₁ e hfailed =>
        rw [hfailed] at hvisit
        obtain ⟨-, rfl⟩ := Prod.mk.inj (Except.ok.inj hd)
        exact hvisit s₁ hs rfl
      · cases hd

namespace DictionaryMerge

variable {C : Type} [TermCursor C] {g : TermGroup C} {b : Bool} {p p' : Progress Dictionary} {settings : MergeSettings}

lemma write_wrote (h : (write b g p).after = .ok p') :
    ∃ e : MergedTerm, e.term = g.term ∧ Wrote b [e] p p' ∧ p'.last = p.last := by
  cases hg : g.docFreq with
  | error x =>
    rw [write, hg] at h
    cases h
  | ok f =>
    by_cases hf : p.statistics.totalDocFreq.toNat + f.toNat < UInt64.size
    · have hres := write_result (b := b) hg hf
      cases hw : write b g p with
      | done p₁ u =>
        rw [hw] at h hres
        obtain rfl := Except.ok.inj h
        exact ⟨_, rfl, hres⟩
      | failed p₁ x =>
        rw [hw] at hres
        exact absurd hres (Dictionary.isReliable _ _ _ _)
      | fault x =>
        rw [hw] at h
        cases h
    · have hne : ¬ (f = 0 ∧ b = true) := by
        rintro ⟨rfl, -⟩
        exact hf p.statistics.totalDocFreq.toNat_lt
      rw [write, hg] at h
      simp only [if_neg hne, DictionaryWriter.add, MergeStatistics.countWritten, Count.add] at h
      cases hc : Count.ofNat (p.statistics.totalDocFreq.toNat + f.toNat) with
      | ok total => exact absurd (Count.ofNat_eq_ok_iff.mp hc ▸ total.toNat_lt) hf
      | error x =>
        rw [hc] at h
        cases h

structure IsOrdered (dropEmpty : Bool) (p : Progress Dictionary) : Prop where
  increasing : Sorted.Increasing MergedTerm.term p.writer.toList
  seen : ∀ e ∈ p.writer.toList, ∃ u ∈ p.last, (compare e.term u).isLE
  kept : ∀ e ∈ p.writer.toList, keeps dropEmpty e = true
  totalFreq_eq : totalFreq p.writer.toList = p.statistics.totalDocFreq.toNat

lemma IsOrdered.lt_of_last {t : Term} {e : MergedTerm} (h : IsOrdered b p) (hlast : ∀ u ∈ p.last, compare u t = .lt)
    (he : e ∈ p.writer.toList) : compare e.term t = .lt := by
  obtain ⟨u, hu, hle⟩ := h.seen e he
  exact Std.TransCmp.lt_of_isLE_of_lt hle (hlast u hu)

lemma IsOrdered.wrote {e : MergedTerm} (h : IsOrdered b p) (hlast : ∀ u ∈ p.last, compare u e.term = .lt)
    (hw : Wrote b [e] { p with last := some e.term } p') (hl : p'.last = some e.term) : IsOrdered b p' := by
  have hlist : p'.writer.toList = p.writer.toList ++ written b [e] := hw.terms
  have hnew (x : MergedTerm) (hx : x ∈ written b [e]) : x = e ∧ keeps b x = true := by
    simpa [written] using hx
  constructor
  · rw [hlist]
    refine List.pairwise_append.mpr ⟨h.increasing, (List.pairwise_singleton _ e).filter _, fun x hx y hy => ?_⟩
    rw [(hnew y hy).1]
    exact h.lt_of_last hlast hx
  · intro x hx
    rw [hlist] at hx
    refine ⟨e.term, hl, ?_⟩
    rcases List.mem_append.mp hx with hx | hx
    · simp [h.lt_of_last hlast hx]
    · simp [(hnew x hx).1, Std.ReflCmp.compare_self]
  · intro x hx
    rw [hlist] at hx
    rcases List.mem_append.mp hx with hx | hx
    · exact h.kept x hx
    · exact (hnew x hx).2
  · rw [hw.totalDocFreq, hlist, totalFreq, List.map_append, Count.total_append]
    exact congrArg (· + totalFreq (written b [e])) h.totalFreq_eq

lemma IsOrdered.visit (hverify : settings.verifyOrder = true) (h : IsOrdered settings.dropEmpty p)
    (hv : (visit settings g p).after = .ok p') : IsOrdered settings.dropEmpty p' := by
  by_cases hlast : ∀ u ∈ p.last, compare u g.term = .lt
  · rw [visit_eq_write hlast, lastAfter, if_pos hverify] at hv
    obtain ⟨e, he, hw, hl⟩ := write_wrote hv
    rw [← he] at hlast hw hl
    exact h.wrote hlast hw hl
  · simp only [not_forall] at hlast
    obtain ⟨u, hu, hlt⟩ := hlast
    rw [visit_outOfOrder hverify hu hlt] at hv
    obtain rfl := Except.ok.inj hv
    exact h

lemma isOrdered_of_merge {q q' : MergeQueue C} {d : Dictionary} (hverify : settings.verifyOrder = true)
    (h : (merge settings q ({} : Dictionary)).after = .ok (q', d)) :
    ∃ p, IsOrdered settings.dropEmpty p ∧ p.writer = d := by
  rw [MergeQueue.merge_after] at h
  cases hd : (q.drain (fun _ => visit settings) ⟨({} : Dictionary), { sources := q.sourceCount }, none⟩).after with
  | ok s =>
    rw [hd] at h
    refine ⟨s.2, ?_, (Prod.mk.inj (Except.ok.inj h)).2⟩
    refine MergeQueue.drainWithin_keeps (fun _ _ _ _ hp hv => hp.visit hverify hv) ?_ hd
    exact ⟨.nil, nofun, nofun, rfl⟩
  | error x =>
    rw [hd] at h
    cases h

end DictionaryMerge

lemma TermList.dictionary_singleton {l : TermList} (h : Sorted.Increasing TermEntry.term l.entries) :
    dictionary [l] = l.entries.map fun e => ⟨e.term, e.docFreq, [l.origin]⟩ := by
  have hterms : terms [l] = l.entries.map TermEntry.term := by
    have hinc : Sorted.Increasing id (l.entries.map TermEntry.term) := List.pairwise_map.mpr h
    simpa [terms] using hinc.ofList_eq
  rw [dictionary, hterms, List.map_map]
  refine List.map_congr_left fun e he => ?_
  have hc : contributions e.term [l] = [(l.origin, e.docFreq)] := by
    simp [contributions, contribution?, entry?, h.find?_eq he]
  simp [merged, docFreq, origins, hc]

namespace Dictionary

variable {d : Dictionary} {t : Term} {e : MergedTerm} (h : Sorted.Increasing MergedTerm.term d.toList)

include h

lemma get?_eq_some_iff : d.get? t = some e ↔ e ∈ d.toList ∧ e.term = t := by
  rw [get?, Sorted.Increasing.find?_eq_find?_toList h t]
  constructor
  · exact fun hf => ⟨List.mem_of_find?_eq_some hf, by simpa using List.find?_some hf⟩
  · rintro ⟨he, rfl⟩
    exact h.find?_eq he

lemma entries_increasing : Sorted.Increasing TermEntry.term d.entries := List.pairwise_map.mpr h

end Dictionary

namespace DictionaryMerge

open MergeSource

variable {C : Type} [TermCursor C] {b : Bool} {p : Progress Dictionary} {settings : MergeSettings}

lemma merges_singleton (settings : MergeSettings) {s : MergeSource DictionaryCursor}
    (hinc : Sorted.Increasing TermEntry.term s.listed.entries)
    (hkeep : ∀ e ∈ s.listed.entries, keeps settings.dropEmpty ⟨e.term, e.docFreq, [s.origin]⟩ = true)
    (hsum : Count.total (s.listed.entries.map fun e => e.docFreq.toNat) < UInt64.size) :
    ∃ d statistics, Merges settings [s] d statistics ∧
      d.toList = s.listed.entries.map fun e => ⟨e.term, e.docFreq, [s.origin]⟩ := by
  obtain ⟨q, q', p, hq, hmerge, hw⟩ := merge_listed settings [s] (by simpa using hinc) hsum
  refine ⟨p.writer, p.statistics, ⟨q, q', hq, hmerge⟩, (hw.terms.trans (List.nil_append _)).trans ?_⟩
  rw [List.map_singleton, TermList.dictionary_singleton hinc]
  refine List.filter_eq_self.mpr fun e he => ?_
  obtain ⟨x, hx, rfl⟩ := List.mem_map.mp he
  exact hkeep x hx

lemma IsOrdered.merges_again (h : IsOrdered b p) (origin : UInt64) (hb : settings.dropEmpty = b) :
    ∃ d statistics, Merges settings [⟨origin, p.writer.cursor⟩] d statistics ∧
      d.toList = p.writer.toList.map fun e => { e with origins := [origin] } := by
  have hinc := Dictionary.entries_increasing h.increasing
  have hentries : (⟨origin, p.writer.cursor⟩ : MergeSource DictionaryCursor).listed.entries = p.writer.entries :=
    Dictionary.rest_cursor hinc
  have hmerges := merges_singleton settings (s := ⟨origin, p.writer.cursor⟩)
  rw [hentries, Dictionary.entries, List.map_map, List.map_map] at hmerges
  refine hmerges hinc (List.forall_mem_map.mpr fun e he => hb ▸ h.kept e he) ?_
  exact lt_of_eq_of_lt h.totalFreq_eq p.statistics.totalDocFreq.toNat_lt

/-- However a merge that verifies the order of its terms ends, the dictionary that it leaves has its terms in order, so
that each of them is found, a cursor on it lists its entries as they were written, and a merge of that cursor alone
writes them again. -/
theorem verified_merge_reusable (hverify : settings.verifyOrder = true) {q q' : MergeQueue C} {d : Dictionary}
    (h : (merge settings q ({} : Dictionary)).after = .ok (q', d)) :
    Sorted.Increasing MergedTerm.term d.toList ∧
      (∀ t e, d.get? t = some e ↔ e ∈ d.toList ∧ e.term = t) ∧
      (∀ limit, d.toList.length ≤ limit → ∃ c, TermCursor.listWithin limit d.cursor =
        .done c (d.toList.map fun e => ⟨e.term, e.docFreq⟩) ∧ TermCursor.term? c = none) ∧
      ∀ origin (settings₂ : MergeSettings), settings₂.dropEmpty = settings.dropEmpty → ∃ d₂ statistics,
        Merges settings₂ [⟨origin, d.cursor⟩] d₂ statistics ∧
          d₂.toList = d.toList.map fun e => { e with origins := [origin] } := by
  obtain ⟨p, hp, rfl⟩ := isOrdered_of_merge hverify h
  refine ⟨hp.increasing, fun t e => Dictionary.get?_eq_some_iff hp.increasing, fun limit hl => ?_,
    fun origin settings₂ hb => hp.merges_again origin hb⟩
  have hrest : ListedCursor.entries p.writer.cursor = p.writer.entries :=
    Dictionary.rest_cursor (Dictionary.entries_increasing hp.increasing)
  have hlength : (ListedCursor.entries p.writer.cursor).length ≤ limit := by
    rw [hrest, Dictionary.entries, List.length_map]
    exact hl
  obtain ⟨c, hlist, hend⟩ := TermCursor.listWithin_done hlength
  rw [hrest] at hlist
  exact ⟨c, hlist, hend⟩

def repetitive : List (MergeSource ListingCursor) :=
  [⟨5, { entries := #[⟨⟨"f", "a"⟩, 2⟩, ⟨⟨"f", "c"⟩, 1⟩, ⟨⟨"f", "c"⟩, 4⟩] }⟩, ⟨3, { entries := #[⟨⟨"f", "c"⟩, 1⟩] }⟩]

theorem verified_merge_reusable_after_failure :
    ∃ q q' d e, MergeQueue.ofSources repetitive = .ok q ∧ merge {} q ({} : Dictionary) = .failed (q', d) e ∧
      d.get? ⟨"f", "c"⟩ = some ⟨⟨"f", "c"⟩, 2, [3, 5]⟩ ∧ d.get? ⟨"f", "b"⟩ = none ∧
      ∃ d₂ statistics, Merges {} [⟨9, d.cursor⟩] d₂ statistics ∧
        d₂.toList = [⟨⟨"f", "a"⟩, 2, [9]⟩, ⟨⟨"f", "c"⟩, 2, [9]⟩] := by
  have hrun : ((MergeQueue.ofSources repetitive).toOption.bind fun q => (merge {} q ({} : Dictionary)).failed?).map
      (·.1.2.toList) = some [⟨⟨"f", "a"⟩, 2, [5]⟩, ⟨⟨"f", "c"⟩, 2, [3, 5]⟩] := by decide +kernel
  obtain ⟨⟨⟨q', d⟩, e⟩, hbind, hlist⟩ := Option.map_eq_some_iff.mp hrun
  obtain ⟨q, hq, hfailed⟩ := Option.bind_eq_some_iff.mp hbind
  have hmerge := Outcome.failed?_eq_some_iff.mp hfailed
  have hverify : ({} : MergeSettings).verifyOrder = true := rfl
  obtain ⟨-, hget, -, hagain⟩ := verified_merge_reusable hverify (congrArg Outcome.after hmerge)
  obtain ⟨d₂, statistics, hmerges, hlist₂⟩ := hagain 9 {} rfl
  rw [hlist] at hlist₂
  refine ⟨q, q', d, e, toOption_eq_some_iff.mp hq, hmerge, ?_, ?_, d₂, statistics, hmerges, hlist₂⟩
  · rw [hget, hlist]
    decide
  · refine Option.eq_none_iff_forall_ne_some.mpr fun x hx => ?_
    obtain ⟨hmem, hterm⟩ := (hget _ _).mp hx
    rw [hlist] at hmem
    have habsent : ∀ y ∈ ([⟨⟨"f", "a"⟩, 2, [5]⟩, ⟨⟨"f", "c"⟩, 2, [3, 5]⟩] : List MergedTerm), y.term ≠ ⟨"f", "b"⟩ := by
      decide
    exact habsent x hmem hterm

end DictionaryMerge

end InvertedIndex
