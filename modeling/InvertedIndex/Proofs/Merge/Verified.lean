import InvertedIndex.Proofs.Merge.Progress
import InvertedIndex.Proofs.Merge.Rounds

/-!
A merge that verifies the order of its terms only compares each group with the one before it. That is enough to find
every segment whose own terms are not in order.
-/

namespace InvertedIndex.DictionaryMerge

open Heap MergeSource MergeQueue TermList LoggedWriter

def Follows (last : Option Term) (ts : List Term) : Prop := Sorted.Increasing id (last.toList ++ ts)

variable {last : Option Term} {t u : Term} {ts us : List Term} {l : TermList}

lemma follows_nil (last : Option Term) : Follows last [] := by
  cases last with
  | none => exact .nil
  | some u => exact List.pairwise_singleton _ u

lemma follows_cons_iff (hlast : ∀ u ∈ last, compare u t = .lt) :
    Follows last (t :: ts) ↔ Sorted.Increasing id (t :: ts) := by
  cases last with
  | none => exact Iff.rfl
  | some u =>
    refine ⟨fun h => (List.pairwise_cons.mp h).2, fun h => List.pairwise_cons.mpr ⟨fun v hv => ?_, h⟩⟩
    rcases List.mem_cons.mp hv with rfl | hv
    · exact hlast u rfl
    · exact Std.TransCmp.lt_trans (hlast u rfl) ((List.pairwise_cons.mp h).1 v hv)

lemma Follows.lt_of_mem (h : Follows last (t :: ts)) : ∀ u ∈ last, compare u t = .lt := by
  rintro u ⟨⟩
  exact (List.pairwise_cons.mp h).1 t List.mem_cons_self

lemma Follows.sublist (h : Follows last ts) (hs : us.Sublist ts) : Follows last us :=
  List.Pairwise.sublist (hs.append_left _) h

lemma follows_front_iff (hlast : ∀ u ∈ last, compare u t = .lt) (hl : l.entries.head?.map TermEntry.term = some t) :
    Follows last (l.entries.map TermEntry.term) ↔ Follows (some t) (l.tail.entries.map TermEntry.term) := by
  rw [tail]
  cases he : l.entries with
  | nil =>
    rw [he] at hl
    cases hl
  | cons e es =>
    rw [he] at hl
    obtain rfl := Option.some.inj hl
    exact follows_cons_iff hlast

lemma follows_later_iff (hlast : ∀ u ∈ last, compare u t = .lt) (hl : l.entries.head?.map TermEntry.term = some u)
    (hu : compare t u = .lt) :
    Follows last (l.entries.map TermEntry.term) ↔ Follows (some t) (l.entries.map TermEntry.term) := by
  cases he : l.entries with
  | nil =>
    rw [he] at hl
    cases hl
  | cons e es =>
    rw [he] at hl
    obtain rfl := Option.some.inj hl
    rw [List.map_cons, follows_cons_iff fun v hv => Std.TransCmp.lt_trans (hlast v hv) hu, follows_cons_iff]
    rintro v ⟨⟩
    exact hu

lemma forall_follows_filter_iff {ls : List TermList} :
    (∀ l ∈ ls.filter (·.entries ≠ []), Follows last (l.entries.map TermEntry.term)) ↔
      ∀ l ∈ ls, Follows last (l.entries.map TermEntry.term) := by
  refine ⟨fun h l hl => ?_, fun h l hl => h l (List.mem_of_mem_filter hl)⟩
  by_cases hn : l.entries = []
  · rw [hn]
    exact follows_nil last
  · exact h l (List.mem_filter.mpr ⟨hl, decide_eq_true hn⟩)

section Queue

variable {C : Type} [TermCursor C] [WalkingCursor C] {q q' : MergeQueue C} {g : TermGroup C}
  {heap : Heap (MergeSource C)}

def LeftFollows (last : Option Term) (q : MergeQueue C) : Prop :=
  ∀ l ∈ q.left, Follows last (l.entries.map TermEntry.term)

lemma leftFollows_iff_of_advanced (ht : Taken g.term q.heap g.members heap)
    (hv : ∀ s ∈ g.members, WalkingCursor.IsValid s.cursor) (hm : ∀ s ∈ g.members, s.Moves)
    (ha : Advanced { q with heap := heap } g.members q') (hlast : ∀ u ∈ last, compare u g.term = .lt) :
    LeftFollows last q ↔ LeftFollows (some g.term) q' := by
  have hfront : ∀ s ∈ g.members, Follows last (s.listed.entries.map TermEntry.term) ↔
      Follows (some g.term) (s.listed.tail.entries.map TermEntry.term) := fun s hs =>
    follows_front_iff hlast (s.term?_eq ▸ ht.onTerm s hs)
  have hlater : ∀ s ∈ heap.toList, Follows last (s.listed.entries.map TermEntry.term) ↔
      Follows (some g.term) (s.listed.entries.map TermEntry.term) := fun s hs => by
    obtain ⟨u, hu, htu⟩ := ht.later s hs
    exact follows_later_iff hlast (s.term?_eq ▸ hu) htu
  rw [LeftFollows, LeftFollows]
  simp only [ht.left_perm.mem_iff, (ht.advanced_left hv hm ha).mem_iff]
  rw [forall_follows_filter_iff]
  simp only [List.map_map, List.forall_mem_append, List.forall_mem_map, Function.comp_apply]
  exact and_congr (forall₂_congr hfront) (forall₂_congr hlater)

lemma LeftFollows.lt_term (h : LeftFollows last q) (ht : Taken g.term q.heap g.members heap) (hne : g.members ≠ []) :
    ∀ u ∈ last, compare u g.term = .lt := by
  obtain ⟨s, members, hs⟩ := List.exists_cons_of_ne_nil hne
  have hmem : s ∈ g.members := by simp [hs]
  obtain ⟨e, es, he⟩ := List.exists_cons_of_ne_nil (ht.entries_ne_nil s hmem)
  have hterm := s.term?_eq ▸ ht.onTerm s hmem
  have hf := h s.listed (ht.left_perm.symm.subset (List.mem_append_left _ (List.mem_map_of_mem hmem)))
  rw [he] at hterm hf
  exact Option.some.inj hterm ▸ hf.lt_of_mem

lemma leftFollows_ofSources {sources : List (MergeSource C)} (h : ofSources sources = .ok q) :
    LeftFollows none q ↔ ∀ s ∈ sources, Sorted.Increasing TermEntry.term s.listed.entries := by
  rw [LeftFollows]
  simp only [(left_ofSources h).mem_iff]
  rw [forall_follows_filter_iff]
  simp only [List.forall_mem_map]
  exact forall₂_congr fun s _ => List.pairwise_map

end Queue

variable {C W : Type} [TermCursor C] [ListedCursor C] [DictionaryWriter W] [LoggedWriter W] {q : MergeQueue C}
  {p : Progress W} {g : TermGroup C} {heap : Heap (MergeSource C)} {settings : MergeSettings}

lemma verified_round (hw : IsReliable W) (hverify : settings.verifyOrder = true) (hq : q.IsSound)
    (ht : Taken g.term q.heap g.members heap) (hne : g.members ≠ []) (hlast : ∀ u ∈ p.last, compare u g.term = .lt)
    (hsum : p.statistics.totalDocFreq.toNat + weigh (fun e => e.docFreq.toNat) q.left < UInt64.size) :
    ∃ q₁ p₁ es, visit settings g p = .done p₁ () ∧ advance g { q with heap := heap } = .done q₁ () ∧
      q₁.IsSound ∧ weigh (fun _ => 1) q₁.left < weigh (fun _ => 1) q.left ∧
      p₁.statistics.totalDocFreq.toNat + weigh (fun e => e.docFreq.toNat) q₁.left < UInt64.size ∧
      accepted p₁.writer = accepted p.writer ++ es ∧ (es.map MergedTerm.term).Sublist [g.term] ∧
      p₁.last = some g.term ∧ (LeftFollows p.last q ↔ LeftFollows (some g.term) q₁) := by
  obtain ⟨q₁, hadv, ha⟩ := advance_done (ht.sound hq) ht.entries_ne_nil ht.room
  have hv : ∀ s ∈ g.members, WalkingCursor.IsValid s.cursor := fun _ _ => trivial
  have hm : ∀ s ∈ g.members, s.Moves := fun s hs => moves (ht.entries_ne_nil s hs)
  obtain ⟨hg, hf⟩ := ht.docFreq_fits hsum
  obtain ⟨p₁, hvisit, hwrote, hl⟩ := visit_done hw settings hlast hg hf
  rw [lastAfter, if_pos hverify] at hl
  exact ⟨q₁, p₁, _, hvisit, hadv, ha.sound (ht.sound hq), ht.shorter hv hm hne ha,
    hwrote.fits (ht.weigh_docFreq hv hm ha ▸ hsum), hwrote.terms, List.filter_sublist.map MergedTerm.term, hl,
    leftFollows_iff_of_advanced ht hv hm ha hlast⟩

lemma drainWithin_verified (hw : IsReliable W) (hverify : settings.verifyOrder = true) {limit : Nat}
    (hq : q.IsSound) (hlimit : weigh (fun _ => 1) q.left < limit)
    (hsum : p.statistics.totalDocFreq.toNat + weigh (fun e => e.docFreq.toNat) q.left < UInt64.size) :
    ∃ q' p' es, accepted p'.writer = accepted p.writer ++ es ∧ Follows p.last (es.map MergedTerm.term) ∧
      (LeftFollows p.last q ∧ drainWithin (fun _ => visit settings) limit q p = .done (q', p') () ∨
        ¬ LeftFollows p.last q ∧
          ∃ text, drainWithin (fun _ => visit settings) limit q p = .failed (q', p') (.dataSource text)) := by
  induction limit generalizing q p with
  | zero => omega
  | succ limit ih =>
    rcases pop_taken hq with ⟨hnil, hpop⟩ | ⟨g, heap, hpop, hne, ht⟩
    · refine ⟨q, p, [], (List.append_nil _).symm, follows_nil _, Or.inl ⟨fun l hl => ?_, by rw [drainWithin, hpop]⟩⟩
      rw [left, hnil] at hl
      exact absurd hl List.not_mem_nil
    · by_cases hlast : ∀ u ∈ p.last, compare u g.term = .lt
      · obtain ⟨q₁, p₁, es₁, hvisit, hadv, hsound, hshorter, hfits, haccepted₁, hes₁, hl, hleft⟩ :=
          verified_round hw hverify hq ht hne hlast hsum
        obtain ⟨q', p', es, haccepted, hfollows, hcases⟩ := ih hsound (by omega) hfits
        rw [hl] at hfollows hcases
        refine ⟨q', p', es₁ ++ es, by rw [haccepted, haccepted₁, List.append_assoc], ?_, ?_⟩
        · rw [List.map_append]
          exact ((follows_cons_iff hlast).mpr hfollows).sublist (hes₁.append_right _)
        · rw [hleft, drainWithin, hpop]
          simpa only [hvisit, hadv] using hcases
      · simp only [not_forall] at hlast
        obtain ⟨u, hu, hlt⟩ := hlast
        refine ⟨abandon g { q with heap := heap }, p, [], (List.append_nil _).symm, follows_nil _,
          Or.inr ⟨fun h => hlt ?_, "term " ++ g.term.display ++ " follows " ++ u.display ++ " out of order", ?_⟩⟩
        · exact h.lt_term ht hne u hu
        · rw [drainWithin, hpop]
          simp only [visit_outOfOrder hverify hu hlt, outOfOrder]

/-- If the order of its terms is verified, a merge succeeds exactly if the terms of each segment are in order. The
terms that it writes are in order in any case. -/
theorem verified_merge_succeeds_iff (hw : IsReliable W) (dropEmpty : Bool) (sources : List (MergeSource C)) {w : W}
    (hnew : accepted w = []) (hsum : weigh (fun e => e.docFreq.toNat) (sources.map listed) < UInt64.size) :
    ∃ q q' w', ofSources sources = .ok q ∧ Sorted.Increasing MergedTerm.term (accepted w') ∧
      ((∀ s ∈ sources, Sorted.Increasing TermEntry.term (ListedCursor.entries s.cursor)) ∧
          (∃ statistics, merge ⟨true, dropEmpty⟩ q w = .done (q', w') statistics) ∨
        ¬ (∀ s ∈ sources, Sorted.Increasing TermEntry.term (ListedCursor.entries s.cursor)) ∧
          ∃ text, merge ⟨true, dropEmpty⟩ q w = .failed (q', w') (.dataSource text)) := by
  obtain ⟨q, hq⟩ := ofSources_eq_ok (closeErrors_eq_nil (sources.filter (·.term?.isNone)))
  obtain ⟨hsound, -⟩ := ofSources_spec hq
  obtain ⟨q', p, es, haccepted, hfollows, hcases⟩ := drainWithin_verified hw
    (show (⟨true, dropEmpty⟩ : MergeSettings).verifyOrder = true from rfl)
    (p := ⟨w, { sources := q.sourceCount }, none⟩) hsound (Nat.lt_succ_of_le (weigh_left_le_bound q)) (by
      rw [weigh_perm _ (left_ofSources hq), weigh_filter]
      simpa using hsum)
  rw [hnew, List.nil_append] at haccepted
  rw [leftFollows_ofSources hq] at hcases
  refine ⟨q, q'.release, p.writer, hq, ?_, hcases.imp (And.imp_right fun hd => ?_) (And.imp_right ?_)⟩
  · rw [haccepted]
    exact List.pairwise_map.mp hfollows
  · refine ⟨p.statistics, ?_⟩
    rw [merge, drain, hd]
    simp only [close, closeErrors_eq_nil]
    rfl
  · rintro ⟨text, hd⟩
    refine ⟨text, ?_⟩
    rw [merge, drain, hd]

theorem verified_merge_refuses_descending_terms :
    ∃ (q q' : MergeQueue ListingCursor) (d : Dictionary) (text : String),
      ofSources [⟨3, { entries := #[⟨⟨"f", "c"⟩, 1⟩, ⟨⟨"f", "a"⟩, 1⟩] }⟩, ⟨1, { entries := #[⟨⟨"f", "b"⟩, 2⟩] }⟩] =
        .ok q ∧
      merge ⟨true, true⟩ q ({} : Dictionary) = .failed (q', d) (.dataSource text) ∧
      Sorted.Increasing MergedTerm.term d.toList := by
  obtain ⟨q, q', d, hq, hinc, ⟨hall, -⟩ | ⟨-, text, hmerge⟩⟩ := verified_merge_succeeds_iff Dictionary.isReliable true
    [(⟨3, { entries := #[⟨⟨"f", "c"⟩, 1⟩, ⟨⟨"f", "a"⟩, 1⟩] }⟩ : MergeSource ListingCursor),
      ⟨1, { entries := #[⟨⟨"f", "b"⟩, 2⟩] }⟩] (w := {}) rfl (by decide)
  · have hlt := (List.pairwise_cons.mp (hall _ List.mem_cons_self)).1 _ List.mem_cons_self
    exact absurd hlt (by decide)
  · exact ⟨q, q', d, text, hq, hmerge, hinc⟩

end InvertedIndex.DictionaryMerge
