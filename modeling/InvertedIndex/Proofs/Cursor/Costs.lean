import InvertedIndex.Proofs.Cursor.PostingList
import InvertedIndex.Proofs.Cursor.Levels

namespace InvertedIndex

open FaithfulCursor

lemma DocId.length_lt_size {docs : List DocId} (h : docs.Nodup) (hx : exhausted ∉ docs) :
    docs.length < UInt64.size := by
  have hnodup : ((exhausted :: docs).map UInt64.toNat).Nodup :=
    (List.nodup_cons.mpr ⟨hx, h⟩).map fun _ _ => UInt64.toNat_inj.mp
  have hsub : (exhausted :: docs).map UInt64.toNat ⊆ List.range UInt64.size := by
    intro n hn
    obtain ⟨x, -, rfl⟩ := List.mem_map.mp hn
    exact List.mem_range.mpr x.toNat_lt_size
  have hle := (List.subperm_of_subset hnodup hsub).length_le
  rwa [List.length_map, List.length_cons, List.length_range] at hle

namespace Disjunction

variable {C : Type} [ScoredCursor C] {d d' : Disjunction C} {m : Move}

lemma cost_of_moveLive {behind : DocId → Bool} {move : C → Outcome C Unit}
    (h : d.moveLive behind move = .done d' () ∨ ∃ e, d.moveLive behind move = .failed d' e) : d'.cost = d.cost := by
  rw [moveLive] at h
  cases ho : moveFront behind move d.live.size d.live with
  | done live u =>
    rw [ho] at h
    obtain h | ⟨e, h⟩ := h
    · exact (Outcome.done.inj h).1 ▸ rfl
    · cases h
  | failed live e =>
    rw [ho] at h
    obtain h | ⟨e', h⟩ := h
    · cases h
    · exact (Outcome.failed.inj h).1 ▸ rfl
  | fault x =>
    rw [ho] at h
    obtain h | ⟨e, h⟩ := h <;> cases h

lemma cost_of_endsAt (h : m.EndsAt d d') : d'.cost = d.cost := by
  by_cases hn : d.children = []
  · have hm : m.apply d = .done d.exhaust () := by
      have hemp := Heap.isEmpty_iff.mpr hn
      cases m <;> simp [Move.apply, DocCursor.next, DocCursor.seek, next, seek, hemp]
    rw [Move.EndsAt, hm] at h
    obtain h | ⟨e, h⟩ := h
    · exact (Outcome.done.inj h).1 ▸ rfl
    · cases h
  · rw [Move.EndsAt, apply_eq_moveLive hn (isForward_of_endsAt hn h)] at h
    exact cost_of_moveLive h

lemma cost_ofChildren {settings : UnionSettings} {children : List C} (h : ofChildren settings children = .ok d) :
    d.cost.toNat = Count.total (d.children.map fun c => (DocCursor.cost c).toNat) := by
  rw [Count.total_perm ((children_ofChildren h).map _)]
  obtain ⟨-, _, cost, -, hsum, rfl⟩ := ofChildren_eq_ok_iff.mp h
  rw [Count.ofNat_eq_ok_iff.mp hsum, List.map_map]
  rfl

end Disjunction

lemma PostingCursor.postings_of_endsAt {c c' : PostingCursor} {m : Move} (h : m.EndsAt c c') :
    c'.postings = c.postings := by
  rcases h with hm | ⟨e, hm⟩
  · exact postings_of_apply hm
  · obtain ⟨position, hd⟩ | ⟨x, hx⟩ := c.apply_eq_done_or_fault m
    · cases hd.symm.trans hm
    · cases hx.symm.trans hm

lemma PostingCursor.IsSorted.size_lt {c : PostingCursor} (h : c.IsSorted) : c.size < UInt64.size := by
  have hinc : Sorted.Increasing id (c.postings.toList.map Posting.doc) := List.pairwise_map.mpr h.increasing
  have hlt := DocId.length_lt_size hinc.nodup fun hx => by
    obtain ⟨p, hp, hd⟩ := List.mem_map.mp hx
    exact h.real p hp hd
  rwa [List.length_map, Array.length_toList] at hlt

namespace QueryCursor

variable {n : Nat} {c c' : QueryCursor n} {m : Move}

lemma cost_of_endsAt (h : m.EndsAt c c') : DocCursor.cost c' = DocCursor.cost c := by
  induction n, c using inductionOn with
  | leaf n l =>
    obtain ⟨l', hl, rfl⟩ := h.of_mapState (Layer.apply_leaf m l)
    obtain ⟨postings, hp, rfl⟩ := hl.of_mapState (f := fun c => ({ l with postings := c } : Leaf)) (Leaf.apply_eq m l)
    have hsame : postings.postings = l.postings.postings := PostingCursor.postings_of_endsAt hp
    change l.declaredCost.getD postings.postings.size.toUInt64 = l.declaredCost.getD l.postings.postings.size.toUInt64
    rw [hsame]
  | unreliable n u ih =>
    obtain ⟨u', hu, rfl⟩ := h.of_mapState (Layer.apply_unreliable m u)
    change DocCursor.cost u'.inner = DocCursor.cost u.inner
    rcases Unreliable.inner_of_endsAt hu with hsame | hinner
    · rw [hsame]
    · exact ih hinner
  | union n d _ =>
    obtain ⟨d', hd, rfl⟩ := h.of_mapState (Layer.apply_union m d)
    exact Disjunction.cost_of_endsAt hd

variable {left : List DocId}

lemma forward_or_eq_of_apply (h : IsValid c) (hm : m.apply c = .done c' ()) :
    DocCursor.doc c ≠ DocId.exhausted ∧ m.IsForward (DocCursor.doc c) ∨ c' = c := by
  cases n with
  | zero => exact c.elim
  | succ n =>
    cases c with
    | leaf l =>
      have hsorted : l.postings.IsSorted := h
      obtain ⟨l', hl, -⟩ := Outcome.mapState_eq_done ((Layer.apply_leaf m l).symm.trans hm)
      obtain ⟨postings, hp, -⟩ := Outcome.mapState_eq_done ((Leaf.apply_eq m l).symm.trans hl)
      exact .inl ((hsorted.apply_eq_done_iff m).mp ⟨postings, hp⟩)
    | unreliable u => exact h.elim
    | union d =>
      have hvalid : d.IsValid := h
      obtain ⟨d', hd, rfl⟩ := Outcome.mapState_eq_done ((Layer.apply_union m d).symm.trans hm)
      by_cases hn : d.children = []
      · rw [Disjunction.eq_of_endsAt (hvalid.doc_eq_exhausted_iff.mpr hn) hn (.inl hd)]
        exact .inr rfl
      · exact .inl ⟨mt hvalid.doc_eq_exhausted_iff.mp hn, Disjunction.isForward_of_endsAt hn (.inl hd)⟩

lemma sublist_of_apply (h : Represents c left) (hm : m.apply c = .done c' ()) :
    ∃ left', Represents c' left' ∧ left'.Sublist left := by
  rcases forward_or_eq_of_apply h.valid hm with ⟨he, hf⟩ | rfl
  · obtain ⟨c₁, hm₁, hv, hmem⟩ := FaithfulCursor.apply_done h.valid he hf
    obtain rfl : c₁ = c' := (Outcome.done.inj (hm₁.symm.trans hm)).1
    exact ⟨_, h.move hv hmem, List.filter_sublist⟩
  · exact ⟨left, h, .refl left⟩

lemma sublist_of_run {ms : List Move} {docs : List DocId} (h : Represents c left)
    (hrun : DocCursor.run ms c = .done c' docs) : ∃ left', Represents c' left' ∧ left'.Sublist left := by
  induction ms generalizing c left docs with
  | nil =>
    obtain rfl := (Outcome.done.inj hrun).1
    exact ⟨left, h, .refl left⟩
  | cons m ms ih =>
    obtain ⟨c₁, docs₁, hm, hrun₁⟩ := DocCursor.run_cons_done hrun
    obtain ⟨left₁, h₁, hsub₁⟩ := sublist_of_apply h hm
    obtain ⟨left', h', hsub⟩ := ih h₁ hrun₁
    exact ⟨left', h', hsub.trans hsub₁⟩

lemma cost_of_run {ms : List Move} {docs : List DocId} (hrun : DocCursor.run ms c = .done c' docs) :
    DocCursor.cost c' = DocCursor.cost c := by
  induction ms generalizing c docs with
  | nil => rw [(Outcome.done.inj hrun).1]
  | cons m ms ih =>
    obtain ⟨c₁, docs₁, hm, hrun₁⟩ := DocCursor.run_cons_done hrun
    exact (ih hrun₁).trans (cost_of_endsAt (.inl hm))

inductive IsCountedTree : {n : Nat} → QueryCursor n → Prop
  | leaf {n : Nat} {postings : List Posting} {cursor : PostingCursor} (scoring : Scoring) :
    PostingCursor.ofList postings = .ok cursor → IsCountedTree (leaf (n := n) ⟨cursor, scoring, none⟩)
  | union {n : Nat} {children : List (QueryCursor n)} {settings : UnionSettings} {d : Disjunction (QueryCursor n)} :
    (∀ c ∈ children, IsCountedTree c) → Disjunction.ofChildren settings children = .ok d → IsCountedTree (union d)
  | moved {n : Nat} {c c' : QueryCursor n} {m : Move} : IsCountedTree c → m.apply c = .done c' () → IsCountedTree c'

lemma IsCountedTree.isTree (h : IsCountedTree c) : IsTree c := by
  induction h with
  | leaf scoring h => exact .leaf scoring none h
  | union _ h ih => exact .union ih h
  | moved _ hm ih =>
    rcases forward_or_eq_of_apply ih.isValid hm with ⟨he, hf⟩ | rfl
    · exact ih.moved he hf hm
    · exact ih

def IsCovered (c : QueryCursor n) : Prop := ∃ left, Represents c left ∧ left.length ≤ (DocCursor.cost c).toNat

lemma IsCovered.of_apply (h : IsCovered c) (hm : m.apply c = .done c' ()) : IsCovered c' := by
  obtain ⟨left, hr, hle⟩ := h
  obtain ⟨left', hr', hsub⟩ := sublist_of_apply hr hm
  refine ⟨left', hr', ?_⟩
  rw [cost_of_endsAt (.inl hm)]
  exact Nat.le_trans hsub.length_le hle

lemma isCovered_leaf {l : Leaf} (h : l.postings.IsSorted) (hcost : l.declaredCost = none) :
    IsCovered (leaf (n := n) l) := by
  refine ⟨l.postings.documents, ⟨h, ?_, fun x => Iff.rfl⟩, ?_⟩
  · exact List.pairwise_map.mpr (List.Pairwise.drop h.increasing)
  · change _ ≤ (l.declaredCost.getD l.postings.size.toUInt64).toNat
    rw [hcost, Option.getD_none, UInt64.toNat_ofNat_of_lt' h.size_lt]
    simp [PostingCursor.documents, PostingCursor.rest, PostingCursor.size]

lemma exists_all_documents {cs : List (QueryCursor n)} (h : ∀ c ∈ cs, IsCovered c) :
    ∃ all : List DocId, (∀ x, x ∈ all ↔ ∃ c ∈ cs, x ∈ documents c) ∧
      all.length ≤ Count.total (cs.map fun c => (DocCursor.cost c).toNat) := by
  induction cs with
  | nil => exact ⟨[], by simp, Nat.le_refl 0⟩
  | cons c cs ih =>
    rw [List.forall_mem_cons] at h
    obtain ⟨left, hr, hle⟩ := h.1
    obtain ⟨all, hmem, hlength⟩ := ih h.2
    refine ⟨left ++ all, fun x => ?_, ?_⟩
    · rw [List.mem_append, List.exists_mem_cons_iff, hmem, hr.mem_iff]
    · rw [List.length_append, List.map_cons, Count.total_cons]
      exact Nat.add_le_add hle hlength

lemma isCovered_union {children : List (QueryCursor n)} {settings : UnionSettings} {d : Disjunction (QueryCursor n)}
    (hc : ∀ c ∈ children, IsCovered c) (h : Disjunction.ofChildren settings children = .ok d) :
    IsCovered (union d) := by
  have hcovered : ∀ c ∈ d.children, IsCovered c := fun c hcd =>
    hc c (List.mem_of_mem_filter ((Disjunction.children_ofChildren h).subset hcd))
  have hvalid : d.IsValid := Disjunction.isValid_ofChildren (fun c hcc => (hc c hcc).elim fun _ hr => hr.1.valid) h
  obtain ⟨all, hmem, hlength⟩ := exists_all_documents hcovered
  have hsubset : Sorted.ofList id d.documents ⊆ all := fun x hx =>
    (hmem x).mpr (Disjunction.mem_documents.mp (Sorted.mem_ofList_id.mp hx))
  have hincreasing : Sorted.Increasing id (Sorted.ofList id d.documents) := Sorted.ofList_increasing _
  refine ⟨Sorted.ofList id d.documents, ⟨hvalid, hincreasing, fun x => Sorted.mem_ofList_id.symm⟩, ?_⟩
  calc (Sorted.ofList id d.documents).length
      ≤ all.length := (List.subperm_of_subset hincreasing.nodup hsubset).length_le
    _ ≤ Count.total (d.children.map fun c => (DocCursor.cost c).toNat) := hlength
    _ = d.cost.toNat := (Disjunction.cost_ofChildren h).symm

lemma IsCountedTree.isCovered (h : IsCountedTree c) : IsCovered c := by
  induction h with
  | leaf scoring h => exact isCovered_leaf (PostingCursor.isSorted_of_ofList h) rfl
  | union _ h ih => exact isCovered_union ih h
  | moved _ hm ih => exact ih.of_apply hm

/-- However far calls have moved a tree, its cost is the one from the start, and draining it yields no more documents
than that. -/
theorem cost_bounds_documents_left {ms : List Move} {docs : List DocId} (h : IsCountedTree c)
    (hrun : DocCursor.run ms c = .done c' docs) :
    DocCursor.cost c' = DocCursor.cost c ∧
      ∃ left c'', DocCursor.drain DocCursor.doc c' = .done c'' (left, none) ∧
        DocCursor.doc c'' = DocId.exhausted ∧ Sorted.Increasing id left ∧
        (∀ x, x ∈ left ↔ x ∈ documents c') ∧ left.length ≤ (DocCursor.cost c').toNat := by
  obtain ⟨left, hr, hle⟩ := h.isCovered
  obtain ⟨left', hr', hsub⟩ := sublist_of_run hr hrun
  obtain ⟨c'', hdrain, he⟩ := hr'.drainWithin_done hr'.length_le_bound
  have hcost := cost_of_run hrun
  refine ⟨hcost, left', c'', hdrain, he, hr'.increasing, fun x => (hr'.mem_iff x).symm, ?_⟩
  rw [hcost]
  exact Nat.le_trans hsub.length_le hle

lemma isCountedTree_leafOn {docs : Array DocId} {score : Float32} (hd : docs.toList.Pairwise (· < ·))
    (hx : DocId.exhausted ∉ docs.toList) : IsCountedTree (leafOn (n := n) docs score) := .leaf _ (ofList_leafOn hd hx)

def overlapping : Except Failure (Disjunction (QueryCursor 2)) := do
  let inner ← Disjunction.ofChildren { tieBreaker := 0.25 } [leafOn #[2, 6] 1, leafOn #[6] 1]
  Disjunction.ofChildren { tieBreaker := 1 } [union inner, leafOn #[4, 6, 8] 1]

lemma exists_children_overlapping {d : Disjunction (QueryCursor 2)} (h : overlapping = .ok d) :
    ∃ children, (∀ c ∈ children, IsCountedTree c) ∧ Disjunction.ofChildren { tieBreaker := 1 } children = .ok d := by
  rw [overlapping] at h
  cases hi : Disjunction.ofChildren { tieBreaker := 0.25 } [leafOn (n := 0) #[2, 6] 1, leafOn #[6] 1] with
  | error x =>
    rw [hi] at h
    cases h
  | ok inner =>
    rw [hi] at h
    refine ⟨[union inner, leafOn #[4, 6, 8] 1], fun c hc => ?_, h⟩
    simp only [List.mem_cons, List.not_mem_nil, or_false] at hc
    rcases hc with rfl | rfl
    · refine .union (fun c hc => ?_) hi
      simp only [List.mem_cons, List.not_mem_nil, or_false] at hc
      rcases hc with rfl | rfl <;> exact isCountedTree_leafOn (by decide) (by decide)
    · exact isCountedTree_leafOn (by decide) (by decide)

theorem cost_bounds_documents_left_overlapping :
    ∃ d c c' left, overlapping = .ok d ∧ DocCursor.run [.seek 5] (union d) = .done c [6] ∧ DocCursor.cost c = 6 ∧
      DocCursor.drain DocCursor.doc c = .done c' (left, none) ∧ left.length ≤ 6 := by
  have hrun : (overlapping.toOption.bind fun d => (DocCursor.run [.seek 5] (union d)).done?.map fun p =>
      (DocCursor.cost (union d), p.2)) = some (6, [6]) := by decide +kernel
  obtain ⟨d, hd, hrun⟩ := Option.bind_eq_some_iff.mp hrun
  obtain ⟨⟨c, docs⟩, hdone, hc⟩ := Option.map_eq_some_iff.mp hrun
  obtain ⟨hcost₀, rfl⟩ := Prod.mk.inj hc
  have hd := toOption_eq_some_iff.mp hd
  have hrun := Outcome.done?_eq_some_iff.mp hdone
  obtain ⟨children, hc, hchildren⟩ := exists_children_overlapping hd
  obtain ⟨hcost, left, c', hdrain, -, -, -, hle⟩ := cost_bounds_documents_left (.union hc hchildren) hrun
  rw [hcost, hcost₀] at hle
  exact ⟨d, c, c', left, hd, hrun, hcost.trans hcost₀, hdrain, hle⟩

end QueryCursor

end InvertedIndex
