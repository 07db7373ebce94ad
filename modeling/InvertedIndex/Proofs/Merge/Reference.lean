import InvertedIndex.Dictionary
import InvertedIndex.Proofs.Count
import InvertedIndex.Proofs.Sorted
import InvertedIndex.Proofs.Term
import Mathlib.Data.List.Dedup

/-! What the dictionaries of several segments have to merge into, read off the entries of the segments. -/

namespace InvertedIndex

structure TermList where
  origin : UInt64
  entries : List TermEntry

namespace TermList

def entry? (t : Term) (l : TermList) : Option TermEntry := l.entries.find? (·.term == t)

def contribution? (t : Term) (l : TermList) : Option (UInt64 × UInt64) :=
  (l.entry? t).map fun e => (l.origin, e.docFreq)

def tail (l : TermList) : TermList := { l with entries := l.entries.tail }

def terms (ls : List TermList) : List Term := Sorted.ofList id (ls.flatMap fun l => l.entries.map TermEntry.term)

def contributions (t : Term) (ls : List TermList) : List (UInt64 × UInt64) := ls.filterMap (contribution? t)

def docFreq (t : Term) (ls : List TermList) : Nat := Count.total ((contributions t ls).map fun c => c.2.toNat)

def origins (t : Term) (ls : List TermList) : List UInt64 :=
  ((contributions t ls).map Prod.fst).mergeSort fun a b => a ≤ b

def merged (ls : List TermList) (t : Term) : MergedTerm := ⟨t, (docFreq t ls).toUInt64, origins t ls⟩

def dictionary (ls : List TermList) : List MergedTerm := (terms ls).map (merged ls)

variable {ls ms rs : List TermList} {l : TermList} {t u : Term}

lemma mem_terms : t ∈ terms ls ↔ ∃ l ∈ ls, ∃ e ∈ l.entries, e.term = t := by
  simp [terms, Sorted.mem_ofList_id]

lemma entry?_mem {e : TermEntry} (h : l.entry? t = some e) : e ∈ l.entries ∧ e.term = t := by
  have hterm := List.find?_some h
  exact ⟨List.mem_of_find?_eq_some h, beq_iff_eq.mp hterm⟩

lemma terms_increasing (ls : List TermList) : Sorted.Increasing id (terms ls) := Sorted.ofList_increasing _

@[simp] lemma dictionary_nil : dictionary [] = [] := by
  rw [dictionary, terms, List.flatMap_nil, Sorted.ofList, List.mergeSort_nil]
  rfl

lemma length_terms (ls : List TermList) :
    (terms ls).length = (ls.flatMap fun l => l.entries.map TermEntry.term).dedup.length := by
  refine List.Perm.length_eq ((List.perm_ext_iff_of_nodup (terms_increasing ls).nodup (List.nodup_dedup _)).mpr ?_)
  intro t
  rw [terms, Sorted.mem_ofList_id, List.mem_dedup]

lemma map_term_dictionary (ls : List TermList) : (dictionary ls).map MergedTerm.term = terms ls := by
  rw [dictionary, List.map_map]
  exact List.map_id _

lemma dictionary_increasing (ls : List TermList) : Sorted.Increasing MergedTerm.term (dictionary ls) :=
  List.pairwise_map.mpr (terms_increasing ls)

lemma mergeSort_origins {xs : List UInt64} (h : xs.Pairwise (· ≤ ·)) : (xs.mergeSort fun a b => a ≤ b) = xs :=
  List.mergeSort_of_pairwise (h.imp decide_eq_true)

lemma mergeSort_origins_perm {xs ys : List UInt64} (h : xs.Perm ys) :
    (xs.mergeSort fun a b => a ≤ b) = ys.mergeSort fun a b => a ≤ b := by
  have hsorted (zs : List UInt64) : (zs.mergeSort fun a b => a ≤ b).Pairwise (· ≤ ·) := by
    refine (List.pairwise_mergeSort ?_ ?_ zs).imp fun {a b} hab => of_decide_eq_true hab
    · intro a b c hab hbc
      exact decide_eq_true (UInt64.le_trans (of_decide_eq_true hab) (of_decide_eq_true hbc))
    · intro a b
      rw [Bool.or_eq_true, decide_eq_true_eq, decide_eq_true_eq]
      exact UInt64.le_total a b
  refine List.Perm.eq_of_pairwise (fun a b _ _ hab hba => UInt64.le_antisymm hab hba) (hsorted xs) (hsorted ys) ?_
  exact (List.mergeSort_perm xs _).trans (h.trans (List.mergeSort_perm ys _).symm)

lemma merged_congr (h : (contributions t ls).Perm (contributions t ms)) : merged ls t = merged ms t := by
  rw [merged, merged, docFreq, docFreq, Count.total_perm (h.map fun c => c.2.toNat), origins, origins,
    mergeSort_origins_perm (h.map Prod.fst)]

lemma terms_congr (h : ∀ t, (∃ l ∈ ls, ∃ e ∈ l.entries, e.term = t) ↔ ∃ l ∈ ms, ∃ e ∈ l.entries, e.term = t) :
    terms ls = terms ms :=
  (terms_increasing ls).eq_of_mem_iff (terms_increasing ms) fun t => by rw [mem_terms, mem_terms, h]

lemma dictionary_congr (h : ∀ t, (∃ l ∈ ls, ∃ e ∈ l.entries, e.term = t) ↔ ∃ l ∈ ms, ∃ e ∈ l.entries, e.term = t)
    (hc : ∀ t ∈ terms ls, (contributions t ls).Perm (contributions t ms)) : dictionary ls = dictionary ms := by
  rw [dictionary, dictionary, ← terms_congr h]
  exact List.map_congr_left fun t ht => merged_congr (hc t ht)

lemma dictionary_perm (h : ls.Perm ms) : dictionary ls = dictionary ms :=
  dictionary_congr (fun _ => ⟨fun ⟨l, hl, he⟩ => ⟨l, h.subset hl, he⟩, fun ⟨l, hl, he⟩ => ⟨l, h.symm.subset hl, he⟩⟩)
    fun _ _ => h.filterMap _

lemma contribution?_of_nil (h : l.entries = []) : contribution? t l = none := by
  rw [contribution?, entry?, h, List.find?_nil, Option.map_none]

lemma dictionary_filter (ls : List TermList) : dictionary (ls.filter (·.entries ≠ [])) = dictionary ls := by
  refine dictionary_congr (fun t => ⟨?_, ?_⟩) fun t _ => ?_
  · rintro ⟨l, hl, he⟩
    exact ⟨l, List.mem_of_mem_filter hl, he⟩
  · rintro ⟨l, hl, e, he, ht⟩
    exact ⟨l, List.mem_filter.mpr ⟨hl, decide_eq_true (List.ne_nil_of_mem he)⟩, e, he, ht⟩
  · rw [contributions, contributions, List.filterMap_filter]
    refine List.Perm.of_eq (List.filterMap_congr fun l _ => ?_)
    by_cases h : l.entries = []
    · simp [h, contribution?_of_nil h]
    · simp [h]

section Front

structure StartsWith (t : Term) (l : TermList) : Prop where
  increasing : Sorted.Increasing TermEntry.term l.entries
  front : l.entries.head?.map TermEntry.term = some t

lemma StartsWith.exists_cons (h : StartsWith t l) : ∃ e es, l.entries = e :: es ∧ e.term = t := by
  have hf := h.front
  cases he : l.entries with
  | nil =>
    rw [he] at hf
    cases hf
  | cons e es =>
    rw [he] at hf
    exact ⟨e, es, rfl, Option.some.inj hf⟩

lemma StartsWith.lt_of_mem_tail (h : StartsWith t l) {e : TermEntry} (he : e ∈ l.tail.entries) :
    compare t e.term = .lt := by
  obtain ⟨d, es, hl, rfl⟩ := h.exists_cons
  have hinc := h.increasing
  rw [hl] at hinc
  rw [tail, hl] at he
  exact (List.pairwise_cons.mp hinc).1 e he

lemma StartsWith.contribution?_eq (h : StartsWith t l) :
    contribution? t l = some (l.origin, l.entries.head?.elim 0 TermEntry.docFreq) := by
  obtain ⟨e, es, hl, rfl⟩ := h.exists_cons
  simp [contribution?, entry?, hl]

lemma StartsWith.contribution?_tail (h : StartsWith t l) (hu : t ≠ u) :
    contribution? u l.tail = contribution? u l := by
  obtain ⟨e, es, hl, rfl⟩ := h.exists_cons
  simp [contribution?, entry?, tail, hl, hu]

lemma contribution?_of_later (h : ∀ e ∈ l.entries, compare t e.term = .lt) : contribution? t l = none := by
  have hnone : l.entries.find? (·.term == t) = none := by
    rw [List.find?_eq_none]
    intro e he het
    exact Term.ne_of_lt (h e he) (beq_iff_eq.mp het).symm
  rw [contribution?, entry?, hnone, Option.map_none]

variable (hm : ∀ m ∈ ms, StartsWith t m) (hr : ∀ r ∈ rs, ∀ e ∈ r.entries, compare t e.term = .lt)

include hm hr

lemma contributions_front : contributions t (ms ++ rs) =
    ms.map fun m => (m.origin, m.entries.head?.elim 0 TermEntry.docFreq) := by
  have hlater : contributions t rs = [] := by
    rw [contributions, List.filterMap_eq_nil_iff]
    exact fun r hrs => contribution?_of_later (hr r hrs)
  have hfront : contributions t ms = ms.map fun m => (m.origin, m.entries.head?.elim 0 TermEntry.docFreq) := by
    rw [contributions, ← List.filterMap_eq_map]
    exact List.filterMap_congr fun m hms => (hm m hms).contribution?_eq
  rw [contributions, List.filterMap_append]
  change contributions t ms ++ contributions t rs = _
  rw [hlater, hfront, List.append_nil]

lemma lt_of_mem_terms_tail (hu : u ∈ terms (ms.map tail ++ rs)) : compare t u = .lt := by
  obtain ⟨l, hl, e, he, rfl⟩ := mem_terms.mp hu
  rcases List.mem_append.mp hl with hl | hl
  · obtain ⟨m, hms, rfl⟩ := List.mem_map.mp hl
    exact (hm m hms).lt_of_mem_tail he
  · exact hr l hl e he

lemma terms_front (hne : ms ≠ []) : terms (ms ++ rs) = t :: terms (ms.map tail ++ rs) := by
  have hinc : Sorted.Increasing id (t :: terms (ms.map tail ++ rs)) :=
    List.pairwise_cons.mpr ⟨fun u hu => lt_of_mem_terms_tail hm hr hu, terms_increasing _⟩
  refine (terms_increasing _).eq_of_mem_iff hinc fun u => ?_
  rw [mem_terms, List.mem_cons, mem_terms]
  constructor
  · rintro ⟨l, hl, e, he, rfl⟩
    rcases List.mem_append.mp hl with hl | hl
    · obtain ⟨d, es, hd, rfl⟩ := (hm l hl).exists_cons
      rw [hd] at he
      rcases List.mem_cons.mp he with rfl | he
      · exact Or.inl rfl
      · exact Or.inr ⟨l.tail, List.mem_append_left _ (List.mem_map_of_mem hl), e, by rwa [tail, hd], rfl⟩
    · exact Or.inr ⟨l, List.mem_append_right _ hl, e, he, rfl⟩
  · rintro (rfl | ⟨l, hl, e, he, rfl⟩)
    · obtain ⟨m, ms', rfl⟩ := List.exists_cons_of_ne_nil hne
      obtain ⟨d, es, hd, hdt⟩ := (hm m List.mem_cons_self).exists_cons
      exact ⟨m, List.mem_cons_self, d, by simp [hd], hdt⟩
    · rcases List.mem_append.mp hl with hl | hl
      · obtain ⟨m, hms, rfl⟩ := List.mem_map.mp hl
        exact ⟨m, List.mem_append_left _ hms, e, List.mem_of_mem_tail he, rfl⟩
      · exact ⟨l, List.mem_append_right _ hl, e, he, rfl⟩

lemma dictionary_front (hne : ms ≠ []) :
    dictionary (ms ++ rs) = merged (ms ++ rs) t :: dictionary (ms.map tail ++ rs) := by
  rw [dictionary, terms_front hm hr hne, List.map_cons, dictionary]
  congr 1
  refine List.map_congr_left fun u hu => merged_congr (List.Perm.of_eq ?_)
  have htu : t ≠ u := Term.ne_of_lt (lt_of_mem_terms_tail hm hr hu)
  rw [contributions, contributions, List.filterMap_append, List.filterMap_append, List.filterMap_map]
  congr 1
  exact List.filterMap_congr fun m hms => ((hm m hms).contribution?_tail htu).symm

end Front

section Weight

def weigh (f : TermEntry → Nat) (ls : List TermList) : Nat :=
  Count.total (ls.map fun l => Count.total (l.entries.map f))

variable (f : TermEntry → Nat)

lemma weigh_perm (h : ls.Perm ms) : weigh f ls = weigh f ms := Count.total_perm (h.map _)

lemma weigh_cons (l : TermList) (ls : List TermList) :
    weigh f (l :: ls) = Count.total (l.entries.map f) + weigh f ls := rfl

lemma weigh_filter (ls : List TermList) : weigh f (ls.filter (·.entries ≠ [])) = weigh f ls := by
  induction ls with
  | nil => rfl
  | cons l ls ih =>
    by_cases h : l.entries = []
    · rw [List.filter_cons_of_neg (by simp [h]), ih, weigh_cons, h, List.map_nil, Count.total_nil, Nat.zero_add]
    · rw [List.filter_cons_of_pos (by simp [h]), weigh_cons, weigh_cons, ih]

lemma weigh_front (ms rs : List TermList) : weigh f (ms ++ rs) =
    Count.total (ms.map fun m => m.entries.head?.elim 0 f) + weigh f (ms.map tail ++ rs) := by
  induction ms with
  | nil => simp
  | cons m ms ih =>
    have hm : Count.total (m.entries.map f) = m.entries.head?.elim 0 f + Count.total (m.tail.entries.map f) := by
      rw [tail]
      cases m.entries <;> simp
    simp only [List.cons_append, List.map_cons, weigh_cons, Count.total_cons, ih, hm]
    omega

lemma total_contributions_le (t : Term) (ls : List TermList) :
    docFreq t ls ≤ weigh (fun e => e.docFreq.toNat) ls := by
  induction ls with
  | nil => exact Nat.le_refl 0
  | cons l ls ih =>
    rw [docFreq, contributions] at *
    rw [weigh_cons]
    cases hc : contribution? t l with
    | none =>
      rw [List.filterMap_cons_none hc]
      exact Nat.le_add_left_of_le ih
    | some c =>
      rw [List.filterMap_cons_some hc, List.map_cons, Count.total_cons]
      obtain ⟨e, he, rfl⟩ := Option.map_eq_some_iff.mp hc
      have hle : Count.total [e.docFreq.toNat] ≤ Count.total (l.entries.map fun e => e.docFreq.toNat) :=
        Count.total_sublist (List.singleton_sublist.mpr (List.mem_map.mpr ⟨e, (entry?_mem he).1, rfl⟩))
      exact Nat.add_le_add (by simpa using hle) ih

end Weight

end TermList

end InvertedIndex
