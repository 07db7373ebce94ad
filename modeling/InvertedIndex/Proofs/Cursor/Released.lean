import InvertedIndex.Proofs.Cursor.Costs
import InvertedIndex.Proofs.Cursor.Follow
import InvertedIndex.Proofs.Cursor.Matching

namespace InvertedIndex

open FaithfulCursor

namespace Remaining

variable {m : Move} {ms : List Move} {left : List DocId} {x : DocId}

lemma front_le (h : Sorted.Increasing id left) (hx : x ∈ left) : front left ≤ x := by
  cases left with
  | nil => cases hx
  | cons y ys =>
    rcases List.mem_cons.mp hx with rfl | hx
    · exact UInt64.le_refl _
    · exact UInt64.le_of_lt (DocId.compare_eq_lt.mp ((List.pairwise_cons.mp h).1 x hx))

lemma front_mem (h : front left ≤ x) (hx : x ≠ DocId.exhausted) : front left ∈ left := by
  cases left with
  | nil => exact absurd (UInt64.le_antisymm (DocId.le_exhausted x) h) hx
  | cons y ys => exact List.mem_cons_self

lemma mem_moves_iff (h : Sorted.Increasing id left) (hx : x ≠ DocId.exhausted) :
    x ∈ moves ms left ↔ x ∈ left ∧ front (moves ms left) ≤ x := by
  induction ms generalizing left with
  | nil => exact ⟨fun hm => ⟨hm, front_le h hm⟩, And.left⟩
  | cons m ms ih =>
    have h₁ : Sorted.Increasing id (move m left) := List.Pairwise.filter _ h
    rw [moves_cons, ih h₁]
    refine and_congr_left fun hle => ?_
    -- The document that the moves lead to is kept by the first of them, and so are those after it.
    have hkept : m.keeps (front left) (front (moves ms (move m left))) = true :=
      List.of_mem_filter ((moves_sublist ms _).subset (front_mem hle hx))
    have hkeeps : m.keeps (front left) x = true := by
      cases m with
      | next => exact decide_eq_true (UInt64.lt_of_lt_of_le (of_decide_eq_true hkept) hle)
      | seek target => exact decide_eq_true (UInt64.le_trans (of_decide_eq_true hkept) hle)
    exact ⟨List.mem_of_mem_filter, fun hm => List.mem_filter.mpr ⟨hm, hkeeps⟩⟩

end Remaining

namespace Disjunction

variable {C : Type} [ScoredCursor C] [FaithfulCursor C] {d d' : Disjunction C} {m : Move} {c : C}

structure Resumes (x : DocId) (c c' : C) : Prop where
  reaches : DocCursor.Reaches c c'
  doc_mem : DocCursor.doc c' ∈ FaithfulCursor.documents c
  le_doc : x ≤ DocCursor.doc c'
  doc_le {y : DocId} : y ∈ FaithfulCursor.documents c → x ≤ y → DocCursor.doc c' ≤ y

lemma children_resume {ms : List Move} {left docs : List DocId} (h : Represents d left)
    (hf : DocCursor.GoesForward ms d) (hrun : DocCursor.run ms d = .done d' docs) :
    d'.children.Perm ((having (d'.doc ≤ ·) d.children).map (follows ms left)) ∧
      ∀ c ∈ having (d'.doc ≤ ·) d.children, Resumes d'.doc c (follows ms left c) := by
  obtain ⟨-, h'⟩ := h.of_run hf hrun
  obtain ⟨hperm, hfollows⟩ := children_run h hf hrun
  have hdoc : d'.doc = Remaining.front (Remaining.moves ms left) := h'.doc_eq
  have hmoves (c : C) (hc : c ∈ d.children) (x : DocId) (hx : x ∈ FaithfulCursor.documents c) :
      x ∈ Remaining.moves ms left ↔ d'.doc ≤ x := by
    have hmem : x ∈ FaithfulCursor.documents d := mem_documents.mpr ⟨c, hc, hx⟩
    have hne : x ≠ DocId.exhausted := fun he => exhausted_notMem h.valid (he ▸ hmem)
    rw [hdoc, Remaining.mem_moves_iff h.increasing hne]
    exact and_iff_right ((h.mem_iff x).mp hmem)
  have hhaving : having (· ∈ Remaining.moves ms left) d.children = having (d'.doc ≤ ·) d.children :=
    having_congr fun c hc x hx => by simpa using hmoves c hc x hx
  rw [hhaving] at hperm
  refine ⟨hperm, fun c hc => ?_⟩
  have hvalid : d'.IsValid := h'.valid
  have hmem : follows ms left c ∈ d'.children := hperm.symm.subset (List.mem_map_of_mem hc)
  obtain ⟨hcd, x, hx, hle⟩ := mem_having.mp hc
  obtain ⟨hreach, hdocs⟩ := hfollows c hcd x hx ((hmoves c hcd x hx).mpr (of_decide_eq_true hle))
  obtain ⟨hdoc_mem, hdoc_moves⟩ := (hdocs _).mp (doc_mem (hvalid.valid _ hmem) (hvalid.live _ hmem))
  refine ⟨hreach, hdoc_mem, (hmoves c hcd _ hdoc_mem).mp hdoc_moves, fun {y} hy hley => ?_⟩
  exact FaithfulCursor.doc_le (hvalid.valid _ hmem) ((hdocs y).mpr ⟨hy, (hmoves c hcd y hy).mpr hley⟩)

variable {e : Disjunction C}

def standing (d : Disjunction C) : DocId × Nat × Nat := (d.doc, d.matching.length, d.live.size)

structure Alike (d e : Disjunction C) : Prop where
  valid : d.IsValid
  valid' : e.IsValid
  perm : d.children.Perm e.children

lemma IsValid.doc_le_of_subset (hd : d.IsValid) (he : e.IsValid) (hsub : e.children ⊆ d.children) : d.doc ≤ e.doc := by
  by_cases hn : e.children = []
  · rw [he.doc_eq_exhausted_iff.mpr hn]
    exact DocId.le_exhausted _
  · obtain ⟨c, hc, hdoc⟩ := he.exists_on_doc hn
    exact hdoc ▸ hd.doc_le (hsub hc)

lemma Alike.doc_eq (h : d.Alike e) : d.doc = e.doc :=
  UInt64.le_antisymm (h.valid.doc_le_of_subset h.valid' h.perm.symm.subset)
    (h.valid'.doc_le_of_subset h.valid h.perm.subset)

lemma Alike.length_matching (h : d.Alike e) : d.matching.length = e.matching.length := by
  by_cases he : d.doc = DocId.exhausted
  · have hd : d.matching = [] := if_pos (.inr he)
    have he : e.matching = [] := if_pos (.inr (h.doc_eq ▸ he))
    rw [hd, he]
  · have hperm := h.valid'.matching_perm (h.doc_eq ▸ he)
    rw [(h.valid.matching_perm he).length_eq, hperm.length_eq, ← h.doc_eq]
    exact (h.perm.filter _).length_eq

lemma Alike.standing_eq (h : d.Alike e) : d.standing = e.standing := by
  rw [standing, standing, h.doc_eq, h.length_matching]
  exact congrArg (fun size => (e.doc, e.matching.length, size)) h.perm.length_eq

lemma Alike.apply (h : d.Alike e) (hf : d.doc ≠ DocId.exhausted → m.IsForward d.doc) :
    ∃ d' e', m.apply d = .done d' () ∧ m.apply e = .done e' () ∧ d'.Alike e' := by
  have hf' : e.doc ≠ DocId.exhausted → m.IsForward e.doc := h.doc_eq ▸ hf
  obtain ⟨d', hd, hv, -⟩ := h.valid.apply_done hf
  obtain ⟨e', he, hv', -⟩ := h.valid'.apply_done hf'
  refine ⟨d', e', hd, he, hv, hv', (children_apply h.valid hf hd).trans ?_⟩
  refine List.Perm.trans ?_ (children_apply h.valid' hf' he).symm
  rw [← h.doc_eq]
  exact (h.perm.filter _).map _

lemma Alike.run {ms : List Move} (h : d.Alike e) (hf : DocCursor.GoesForward ms d) :
    DocCursor.GoesForward ms e ∧ ∃ d' e' notes, DocCursor.runNoting standing ms d = .done d' notes ∧
      DocCursor.runNoting standing ms e = .done e' notes ∧ d'.Alike e' := by
  induction ms generalizing d e with
  | nil => exact ⟨trivial, d, e, [], rfl, rfl, h⟩
  | cons m ms ih =>
    obtain ⟨d₁, e₁, hd, he, h₁⟩ := h.apply hf.1
    obtain ⟨hf', d', e', notes, hd', he', h'⟩ := ih h₁ (hf.2 d₁ hd)
    refine ⟨⟨fun hne => ?_, fun e₂ he₂ => ?_⟩, d', e', d₁.standing :: notes, ?_, ?_, h'⟩
    · have hdoc : DocCursor.doc d = DocCursor.doc e := h.doc_eq
      exact hdoc ▸ hf.1 (hdoc ▸ hne)
    · obtain rfl : e₁ = e₂ := (Outcome.done.inj (he.symm.trans he₂)).1
      exact hf'
    · rw [DocCursor.runNoting_cons_of_done hd, hd', Outcome.map]
    · rw [DocCursor.runNoting_cons_of_done he, he', Outcome.map, h₁.standing_eq]

lemma IsValid.goesForward_of_runNoting {ρ : Type*} {note : Disjunction C → ρ} {ms : List Move} {notes : List ρ}
    (h : d.IsValid) (hrun : DocCursor.runNoting note ms d = .done d' notes) : DocCursor.GoesForward ms d := by
  induction ms generalizing d notes with
  | nil => trivial
  | cons m ms ih =>
    obtain ⟨d₁, notes₁, hm, hrun₁, -⟩ := DocCursor.runNoting_cons_done hrun
    have hf (he : d.doc ≠ DocId.exhausted) : m.IsForward d.doc :=
      isForward_of_endsAt (mt h.doc_eq_exhausted_iff.mpr he) (.inl hm)
    refine ⟨hf, fun d₂ hd₂ => ?_⟩
    obtain ⟨d₃, hd₃, hv, -⟩ := h.apply_done hf
    obtain rfl : d₁ = d₂ := (Outcome.done.inj (hm.symm.trans hd₂)).1
    obtain rfl : d₁ = d₃ := (Outcome.done.inj (hm.symm.trans hd₃)).1
    exact ih hv hrun₁

omit [FaithfulCursor C] in
lemma tieBreaker_ofChildren {settings : UnionSettings} {children : List C} (h : ofChildren settings children = .ok d) :
    d.tieBreaker = settings.tieBreaker := by
  obtain ⟨-, _, _, -, -, rfl⟩ := ofChildren_eq_ok_iff.mp h
  rfl

lemma exists_alike {settings : UnionSettings} {order : List C} (h : d.IsValid) (hp : order.Perm d.children)
    (hs : settings.IsValid) (hcost : Count.total (d.children.map fun c => (DocCursor.cost c).toNat) < UInt64.size) :
    ∃ e, ofChildren settings order = .ok e ∧ d.Alike e := by
  have hlive : order.filter (!DocCursor.isExhausted ·) = order := by
    refine List.filter_eq_self.mpr fun c hc => ?_
    simpa [DocCursor.isExhausted] using h.live c (hp.subset hc)
  have hsum : Count.total ((order.filter (!DocCursor.isExhausted ·)).map fun c => (DocCursor.cost c).toNat) <
      UInt64.size := by
    rwa [hlive, Count.total_perm (hp.map _)]
  obtain ⟨e, he⟩ := ofChildren_eq_ok hs hsum
  have hchildren := children_ofChildren he
  rw [hlive] at hchildren
  exact ⟨e, he, h, isValid_ofChildren (fun c hc => h.valid c (hp.subset hc)) he, (hchildren.trans hp).symm⟩

end Disjunction

namespace QueryCursor

open Disjunction

variable {n : Nat} {c c' : QueryCursor n} {children : List (QueryCursor n)} {settings : UnionSettings}
  {d : Disjunction (QueryCursor n)} {ms : List Move}

lemma cost_of_reaches (h : DocCursor.Reaches c c') : DocCursor.cost c' = DocCursor.cost c := by
  induction h with
  | refl => rfl
  | step _ _ _ hm ih => exact (cost_of_endsAt (.inl hm)).trans ih

/-- The children of a union that has moved are those it started with that have a document left, each on the first of
these. Put together again, in whatever order, they go on as the union itself does. -/
theorem released_children_continue (ht : ∀ c ∈ children, IsTree c) (h : ofChildren settings children = .ok d)
    (hms : DocCursor.GoesForward ms d) :
    ∃ d' docs, DocCursor.run ms d = .done d' docs ∧
      (∃ f : QueryCursor n → QueryCursor n, d'.children.Perm ((having (d'.doc ≤ ·) children).map f) ∧
        ∀ c ∈ having (d'.doc ≤ ·) children, Resumes d'.doc c (f c)) ∧
      ∀ order, order.Perm d'.children → ∃ e, ofChildren settings order = .ok e ∧ e.tieBreaker = d'.tieBreaker ∧
        standing e = standing d' ∧ ∀ ms', DocCursor.GoesForward ms' d' → DocCursor.GoesForward ms' e ∧
          ∃ d'' e'' notes, DocCursor.runNoting standing ms' d' = .done d'' notes ∧
            DocCursor.runNoting standing ms' e = .done e'' notes := by
  have hr := represents_remaining ht h
  obtain ⟨d', hrun, hr'⟩ := hr.run_done hms
  obtain ⟨hperm, hresumes⟩ := children_resume hr hms hrun
  have hstart : (having (d'.doc ≤ ·) d.children).Perm (having (d'.doc ≤ ·) children) :=
    having_filter_live (fun c hc => (ht c hc).isValid) ▸ (children_ofChildren h).filter _
  refine ⟨d', _, hrun, ⟨follows ms (remaining children), hperm.trans (hstart.map _), fun c hc =>
    hresumes c (hstart.symm.subset hc)⟩, fun order hp => ?_⟩
  have hcost : Count.total (d'.children.map fun c => (DocCursor.cost c).toNat) < UInt64.size := by
    calc Count.total (d'.children.map fun c => (DocCursor.cost c).toNat)
        = Count.total ((having (d'.doc ≤ ·) d.children).map fun c => (DocCursor.cost c).toNat) := by
          rw [Count.total_perm (hperm.map _), List.map_map]
          refine congrArg Count.total (List.map_congr_left fun c hc => ?_)
          exact congrArg UInt64.toNat (cost_of_reaches (hresumes c hc).reaches)
      _ ≤ Count.total (d.children.map fun c => (DocCursor.cost c).toNat) :=
          Count.total_sublist (List.filter_sublist.map _)
      _ = d.cost.toNat := (cost_ofChildren h).symm
      _ < UInt64.size := d.cost.toNat_lt_size
  obtain ⟨hs, -⟩ := ofChildren_eq_ok_iff.mp h
  obtain ⟨e, he, halike⟩ := exists_alike hr'.valid hp hs hcost
  refine ⟨e, he, ?_, halike.standing_eq.symm, fun ms' hms' => ?_⟩
  · rw [tieBreaker_of_run hr hms hrun, tieBreaker_ofChildren h, tieBreaker_ofChildren he]
  · obtain ⟨hf, d'', e'', notes, hd, he, -⟩ := halike.run hms'
    exact ⟨hf, d'', e'', notes, hd, he⟩

theorem released_children_continue_overlapping :
    ∃ d d' docs e e', overlapping = .ok d ∧ DocCursor.run [.next] d = .done d' docs ∧
      ofChildren { tieBreaker := 1 } d'.children.reverse = .ok e ∧ standing e = (4, 1, 2) ∧
      DocCursor.runNoting standing [.next, .seek 7, .next] e =
        .done e' [(6, 2, 2), (8, 1, 1), (DocId.exhausted, 0, 0)] := by
  have hnotes : (overlapping.toOption.bind fun d => (DocCursor.run [.next] d).done?.bind fun p =>
      (DocCursor.runNoting standing [.next, .seek 7, .next] p.1).done?.map fun r => (standing p.1, r.2)) =
      some ((4, 1, 2), [(6, 2, 2), (8, 1, 1), (DocId.exhausted, 0, 0)]) := by decide +kernel
  obtain ⟨d, hd, hnotes⟩ := Option.bind_eq_some_iff.mp hnotes
  obtain ⟨⟨d', docs⟩, hrun, hnotes⟩ := Option.bind_eq_some_iff.mp hnotes
  obtain ⟨⟨d'', notes⟩, hnoted, heq⟩ := Option.map_eq_some_iff.mp hnotes
  obtain ⟨hstanding, rfl⟩ := Prod.mk.inj heq
  have hd := toOption_eq_some_iff.mp hd
  have hrun := Outcome.done?_eq_some_iff.mp hrun
  have hnoted := Outcome.done?_eq_some_iff.mp hnoted
  obtain ⟨children, hc, hchildren⟩ := exists_children_overlapping hd
  have ht : ∀ c ∈ children, IsTree c := fun c hcc => (hc c hcc).isTree
  have hms : DocCursor.GoesForward [.next] d := ⟨fun _ => trivial, fun _ _ => trivial⟩
  have hvalid := ((represents_remaining ht hchildren).of_run hms hrun).2.valid
  obtain ⟨d₁, docs₁, hrun₁, -, hreleased⟩ := released_children_continue ht hchildren hms
  obtain rfl : d' = d₁ := (Outcome.done.inj (hrun.symm.trans hrun₁)).1
  obtain ⟨e, he, -, hsame, hfuture⟩ := hreleased d'.children.reverse (List.reverse_perm _)
  obtain ⟨-, d₂, e', notes, hd₂, he'⟩ := hfuture _ (hvalid.goesForward_of_runNoting hnoted)
  obtain rfl := (Outcome.done.inj (hnoted.symm.trans hd₂)).2
  exact ⟨d, d', docs, e, e', hd, hrun, he, hsame.trans hstanding, he'⟩

end QueryCursor

end InvertedIndex
