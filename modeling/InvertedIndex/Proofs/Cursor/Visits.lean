import InvertedIndex.Proofs.Cursor.Scores

namespace InvertedIndex.QueryCursor

open FaithfulCursor Disjunction

variable {n : Nat} {x : DocId}

lemma apply_leaf (m : Move) (l : Leaf) : m.apply (leaf (n := n) l) = (m.apply l).mapState leaf :=
  Layer.apply_leaf m l

lemma reaches_leaf {l : Leaf} {c : QueryCursor (n + 1)} (h : DocCursor.Reaches (leaf l) c) :
    ∃ l', c = leaf l' ∧ ∀ x, l'.onDoc x = l.onDoc x := by
  generalize hl : leaf l = c₀ at h
  induction h with
  | refl => exact ⟨l, hl.symm, fun _ => rfl⟩
  | @step c₁ c₂ m _ _ _ hm ih =>
    obtain ⟨l₁, rfl, hon⟩ := ih
    rw [apply_leaf] at hm
    obtain ⟨l₂, hl₂, rfl⟩ := Outcome.mapState_eq_done hm
    exact ⟨l₂, rfl, fun x => (Leaf.onDoc_of_apply hl₂ x).trans (hon x)⟩

structure IsVisit (x : DocId) (c c' : QueryCursor n) : Prop where
  reaches : DocCursor.Reaches c c'
  doc_eq : DocCursor.doc c' = x
  mayScore : ScoringCursor.MayScore c x (ScoredCursor.score c')

lemma IsVisit.eq_leaf {l : Leaf} {c : QueryCursor (n + 1)} (h : IsVisit x (leaf l) c)
    (hv : FaithfulCursor.IsValid l) (hx : x ≠ DocId.exhausted) : c = leaf (l.onDoc x) := by
  obtain ⟨l', rfl, hon⟩ := reaches_leaf h.reaches
  have hv' : FaithfulCursor.IsValid l' := ScoringCursor.isValid_of_reaches (C := QueryCursor (n + 1)) h.reaches hv
  have hd : DocCursor.doc l' = x := h.doc_eq
  have hself : l'.onDoc x = l' := by
    rw [← hd] at hx ⊢
    exact Leaf.onDoc_doc hv' hx
  rw [← hon, hself]

variable {children : List (QueryCursor n)} {settings : UnionSettings} {d d' : Disjunction (QueryCursor n)}
  {ms : List Move} {left docs : List DocId}

lemma isVisit_follows (h : Represents d left) (hf : DocCursor.GoesForward ms d)
    (hrun : DocCursor.run ms d = .done d' docs) (hd : d'.doc ≠ DocId.exhausted) {c : QueryCursor n}
    (hc : c ∈ containing d'.doc d.children) : IsVisit d'.doc c (follows ms left c) := by
  obtain ⟨-, h'⟩ := h.of_run hf hrun
  have hx : d'.doc ∈ FaithfulCursor.documents d' := doc_mem h'.valid hd
  obtain ⟨hperm, hreach⟩ := containing_run h hf hrun hx
  have hmem : follows ms left c ∈ containing d'.doc d'.children :=
    hperm.symm.subset (List.mem_map_of_mem hc)
  obtain ⟨hchild, hxc⟩ := mem_containing.mp hmem
  have hvalid : d'.IsValid := h'.valid
  have hdoc := (hvalid.doc_eq_iff_mem hchild).mpr hxc
  have hscore := ScoringCursor.mayScore_doc (hvalid.valid _ hchild) (hvalid.live _ hchild)
  have hold : d.IsValid := h.valid
  rw [hdoc] at hscore
  exact ⟨hreach c hc, hdoc,
    ScoringCursor.mayScore_of_reaches (hreach c hc) (hold.valid c (mem_containing.mp hc).1) hxc hscore⟩

def visits (ms : List Move) (children : List (QueryCursor n)) (x : DocId) : List (QueryCursor n) :=
  (containing x children).map (follows ms (remaining children))

lemma remaining_perm {children₂ : List (QueryCursor n)} (h : children.Perm children₂) :
    remaining children = remaining children₂ := by
  refine (remaining_increasing children).eq_of_mem_iff (remaining_increasing children₂) fun x => ?_
  simp only [mem_remaining, h.mem_iff]

lemma visits_perm {children₂ : List (QueryCursor n)} (h : children.Perm children₂) (ms : List Move) (x : DocId) :
    (visits ms children x).Perm (visits ms children₂ x) := by
  rw [visits, visits, remaining_perm h]
  exact (containing_perm x h).map _

lemma containing_children_perm (ht : ∀ c ∈ children, IsTree c) (h : ofChildren settings children = .ok d) (x : DocId) :
    (containing x d.children).Perm (containing x children) := by
  refine (containing_perm x (children_ofChildren h)).trans (List.Perm.of_eq ?_)
  rw [containing_eq_having, containing_eq_having, having_filter_live fun c hc => (ht c hc).isValid]

lemma matching_perm_visits (ht : ∀ c ∈ children, IsTree c) (h : ofChildren settings children = .ok d)
    (hf : DocCursor.GoesForward ms d) (hrun : DocCursor.run ms d = .done d' docs) (hd : d'.doc ≠ DocId.exhausted) :
    d'.matching.Perm (visits ms children d'.doc) ∧
      ∀ c ∈ containing d'.doc children, IsVisit d'.doc c (follows ms (remaining children) c) := by
  have hr := represents_remaining ht h
  obtain ⟨-, hr'⟩ := hr.of_run hf hrun
  have hvalid : d'.IsValid := hr'.valid
  have hstart := containing_children_perm ht h d'.doc
  obtain ⟨hperm, -⟩ := containing_run hr hf hrun (doc_mem hr'.valid hd)
  refine ⟨?_, fun c hc => isVisit_follows hr hf hrun hd (hstart.symm.subset hc)⟩
  exact (hvalid.matching_perm_documents hd).trans (hperm.trans (hstart.map _))

lemma exists_run_of_perm {children₂ : List (QueryCursor n)} (ht : ∀ c ∈ children, IsTree c)
    (h : ofChildren settings children = .ok d) (hf : DocCursor.GoesForward ms d)
    (hrun : DocCursor.run ms d = .done d' docs) (hp : children.Perm children₂) :
    ∃ d₂ d₂', ofChildren settings children₂ = .ok d₂ ∧ DocCursor.GoesForward ms d₂ ∧
      DocCursor.run ms d₂ = .done d₂' docs ∧ d₂'.doc = d'.doc := by
  obtain ⟨d₂, h₂⟩ := exists_ofChildren_of_perm h hp
  have hr := represents_remaining ht h
  have hr₂ := represents_remaining (fun c hc => ht c (hp.mem_iff.mpr hc)) h₂
  rw [← remaining_perm hp] at hr₂
  have hf₂ := hr₂.goesForward_iff.mpr (hr.goesForward_iff.mp hf)
  obtain ⟨rfl, hr'⟩ := hr.of_run hf hrun
  obtain ⟨d₂', hrun₂, hr₂'⟩ := hr₂.run_done hf₂
  exact ⟨d₂, d₂', h₂, hf₂, hrun₂, hr₂'.doc_eq.trans hr'.doc_eq.symm⟩

lemma visits_eq_of_leaves {children : List (QueryCursor (n + 1))} {ms₁ ms₂ : List Move} (hx : x ≠ DocId.exhausted)
    (ht : ∀ c ∈ children, IsTree c) (hl : ∀ c ∈ containing x children, ∃ l, c = leaf l)
    (h₁ : ∀ c ∈ containing x children, IsVisit x c (follows ms₁ (remaining children) c))
    (h₂ : ∀ c ∈ containing x children, IsVisit x c (follows ms₂ (remaining children) c)) :
    visits ms₁ children x = visits ms₂ children x := by
  refine List.map_congr_left fun c hc => ?_
  obtain ⟨l, rfl⟩ := hl c hc
  have hv : FaithfulCursor.IsValid l := (ht _ (mem_containing.mp hc).1).isValid
  rw [(h₁ _ hc).eq_leaf hv hx, (h₂ _ hc).eq_leaf hv hx]

def seen {C : Type} [ScoredCursor C] (ms : List Move) (d : Disjunction C) : Option (DocId × List Float32) :=
  match DocCursor.run ms d with
  | .done d _ => some (d.doc, d.matching.map ScoredCursor.score)
  | .failed .. => none
  | .fault _ => none

lemma run_of_seen {C : Type} [ScoredCursor C] {ms : List Move} {d : Disjunction C} {x : DocId} {scores : List Float32}
    (h : seen ms d = some (x, scores)) :
    ∃ d' docs, DocCursor.run ms d = .done d' docs ∧ d'.doc = x ∧ d'.matching.map ScoredCursor.score = scores := by
  rw [seen] at h
  cases hrun : DocCursor.run ms d with
  | done d' docs =>
    rw [hrun, Option.some.injEq, Prod.mk.injEq] at h
    exact ⟨d', docs, rfl, h⟩
  | failed d' e =>
    rw [hrun] at h
    cases h
  | fault e =>
    rw [hrun] at h
    cases h

/-- On each document that a union reaches, its score combines the scores of the trees that have the document left,
each of them once and in some order. The order of the trees does not matter, and neither does the way to the document
as long as the trees with the document are posting lists; the score of a nested union may depend on it. -/
theorem union_scores_children {n : Nat} {children : List (QueryCursor (n + 1))} {settings : UnionSettings}
    {d d' : Disjunction (QueryCursor (n + 1))} {ms : List Move} {docs : List DocId} (ht : ∀ c ∈ children, IsTree c)
    (h : ofChildren settings children = .ok d) (hf : DocCursor.GoesForward ms d)
    (hrun : DocCursor.run ms d = .done d' docs) (hd : d'.doc ≠ DocId.exhausted) :
    d'.matching.Perm (visits ms children d'.doc) ∧
      d'.matching.length = (containing d'.doc children).length ∧
      (∀ c ∈ containing d'.doc children, IsVisit d'.doc c (follows ms (remaining children) c) ∧
        (∀ l, c = leaf l → follows ms (remaining children) c = leaf (l.onDoc d'.doc)) ∧
        ∀ u, c = union u → u.MayScore d'.doc (ScoredCursor.score (follows ms (remaining children) c))) ∧
      (∃ scores : List Float32, scores.Perm ((visits ms children d'.doc).map ScoredCursor.score) ∧
        d'.score =
          if scores.foldl larger (-1 / 0) == -1 / 0 then 0
          else scores.foldl larger (-1 / 0) +
            (scores.foldl (· + ·) 0 - scores.foldl larger (-1 / 0)) * settings.tieBreaker) ∧
      (∀ children₂, children.Perm children₂ →
        ∃ d₂ d₂', ofChildren settings children₂ = .ok d₂ ∧ DocCursor.run ms d₂ = .done d₂' docs ∧
          d₂'.doc = d'.doc ∧ d₂'.matching.Perm d'.matching) ∧
      ∀ ms₂ d₂' docs₂, DocCursor.GoesForward ms₂ d → DocCursor.run ms₂ d = .done d₂' docs₂ → d₂'.doc = d'.doc →
        (∀ c ∈ containing d'.doc children, ∃ l, c = leaf l) → d₂'.matching.Perm d'.matching := by
  obtain ⟨hperm, hvisit⟩ := matching_perm_visits ht h hf hrun hd
  refine ⟨hperm, hperm.length_eq.trans (List.length_map _), fun c hc => ⟨hvisit c hc, ?_, ?_⟩, ?_, ?_, ?_⟩
  · rintro l rfl
    exact (hvisit _ hc).eq_leaf (ht _ (mem_containing.mp hc).1).isValid hd
  · rintro u rfl
    exact (hvisit _ hc).mayScore
  · refine ⟨d'.matching.map ScoredCursor.score, hperm.map _, ?_⟩
    obtain ⟨-, _, _, rfl, -, rfl⟩ := ofChildren_eq_ok_iff.mp h
    rw [Disjunction.score, combine, tieBreaker_of_run (represents_remaining ht h) hf hrun]
  · intro children₂ hp
    obtain ⟨d₂, d₂', h₂, hf₂, hrun₂, hdoc⟩ := exists_run_of_perm ht h hf hrun hp
    obtain ⟨hperm₂, -⟩ := matching_perm_visits (fun c hc => ht c (hp.mem_iff.mpr hc)) h₂ hf₂ hrun₂ (hdoc ▸ hd)
    rw [hdoc] at hperm₂
    exact ⟨d₂, d₂', h₂, hrun₂, hdoc, (hperm₂.trans (visits_perm hp ms d'.doc).symm).trans hperm.symm⟩
  · intro ms₂ d₂' docs₂ hf₂ hrun₂ hdoc hl
    obtain ⟨hperm₂, hvisit₂⟩ := matching_perm_visits ht h hf₂ hrun₂ (hdoc ▸ hd)
    rw [hdoc] at hperm₂ hvisit₂
    rw [visits_eq_of_leaves hd ht hl hvisit₂ hvisit] at hperm₂
    exact hperm₂.trans hperm.symm

theorem union_scores_shared_document :
    ∃ (d d' : Disjunction (QueryCursor 1)) (docs : List DocId),
      ofChildren { tieBreaker := 0.25 } [leafOn #[2, 6] 1, leafOn #[6] 0.5, leafOn #[2, 8] 4] = .ok d ∧
      DocCursor.run [.seek 5] d = .done d' docs ∧ d'.doc = 6 ∧ d'.matching.length = 2 ∧
      (d'.matching.map ScoredCursor.score).Perm [1, 0.5] := by
  obtain ⟨children, hchildren⟩ :
    ∃ children, children = [leafOn (n := 0) #[2, 6] 1, leafOn #[6] 0.5, leafOn #[2, 8] 4] := ⟨_, rfl⟩
  have htrees : ∀ c ∈ children, IsTree c := by
    simp only [hchildren, List.mem_cons, List.not_mem_nil, or_false, forall_eq_or_imp, forall_eq]
    exact ⟨isTree_leafOn (by decide) (by decide), isTree_leafOn (by decide) (by decide),
      isTree_leafOn (by decide) (by decide)⟩
  obtain ⟨d, hd⟩ : ∃ d, ofChildren { tieBreaker := 0.25 } children = .ok d := by
    rw [hchildren]
    exact ofChildren_eq_ok (by decide) (by decide +kernel)
  have hseen : ((ofChildren { tieBreaker := 0.25 } children).toOption.map fun d =>
      (seen [] d, seen [.seek 5] d)) = some (some (2, [1, 4]), some (6, [0.5, 1])) := by
    rw [hchildren]
    decide +kernel
  simp only [hd, Except.toOption, Option.map_some, Option.some.injEq, Prod.mk.injEq] at hseen
  obtain ⟨d₀, docs₀, hrun₀, hdoc₀, -⟩ := run_of_seen hseen.1
  obtain ⟨d', docs, hrun, hdoc, -⟩ := run_of_seen hseen.2
  obtain rfl := (Outcome.done.inj hrun₀).1
  have hforward : DocCursor.GoesForward [.seek 5] d := by
    refine ⟨fun _ => ?_, fun _ _ => trivial⟩
    change d.doc ≤ 5
    rw [hdoc₀]
    decide
  have hreal : d'.doc ≠ DocId.exhausted := by
    rw [hdoc]
    decide
  obtain ⟨hperm, hlength, -⟩ := union_scores_children htrees hd hforward hrun hreal
  rw [hdoc, hchildren] at hperm hlength
  refine ⟨d, d', docs, hchildren ▸ hd, hrun, hdoc, hlength.trans (by decide +kernel), ?_⟩
  refine (hperm.map ScoredCursor.score).trans (List.Perm.of_eq ?_)
  decide +kernel

lemma exists_union_of_single {c : QueryCursor n} (hs : settings.IsValid) :
    ∃ d, ofChildren settings [c] = .ok d := by
  refine ofChildren_eq_ok hs (Nat.lt_of_le_of_lt (Count.total_sublist (List.filter_sublist.map _)) ?_)
  exact (DocCursor.cost c).toNat_lt

/-- A nested union adds its three scores in the order of its heap. Rounded to single precision they add up to `2 ^ 24`
after three moves to the next document and to `2 ^ 24 + 2` after one seek for the same document. -/
theorem nested_scores_depend_on_moves :
    ∃ (inner : Disjunction (QueryCursor 1)) (outer d₁ d₂ : Disjunction (QueryCursor 2)) (docs₁ docs₂ : List DocId),
      ofChildren { tieBreaker := 1 } [leafOn #[4] 1, leafOn #[1, 3, 4] 16777216, leafOn #[2, 4] 1] = .ok inner ∧
      IsTree (union inner) ∧ ofChildren {} [union inner] = .ok outer ∧
      DocCursor.GoesForward [.next, .next, .next] outer ∧ DocCursor.run [.next, .next, .next] outer = .done d₁ docs₁ ∧
      DocCursor.GoesForward [.seek 4] outer ∧ DocCursor.run [.seek 4] outer = .done d₂ docs₂ ∧
      d₁.doc = 4 ∧ d₂.doc = 4 ∧
      ¬ (d₁.matching.map ScoredCursor.score).Perm (d₂.matching.map ScoredCursor.score) := by
  obtain ⟨children, hchildren⟩ :
    ∃ children, children = [leafOn (n := 0) #[4] 1, leafOn #[1, 3, 4] 16777216, leafOn #[2, 4] 1] := ⟨_, rfl⟩
  have htrees : ∀ c ∈ children, IsTree c := by
    simp only [hchildren, List.mem_cons, List.not_mem_nil, or_false, forall_eq_or_imp, forall_eq]
    exact ⟨isTree_leafOn (by decide) (by decide), isTree_leafOn (by decide) (by decide),
      isTree_leafOn (by decide) (by decide)⟩
  have hseen : ((ofChildren { tieBreaker := 1 } children).toOption.bind fun inner =>
      (ofChildren {} [union inner]).toOption.map fun outer =>
        (seen [] outer, seen [.next, .next, .next] outer, seen [.seek 4] outer)) =
      some (some (1, [16777216]), some (4, [16777216]), some (4, [16777218])) := by
    rw [hchildren]
    decide +kernel
  obtain ⟨inner, hinner⟩ : ∃ inner, ofChildren { tieBreaker := 1 } children = .ok inner := by
    rw [hchildren]
    exact ofChildren_eq_ok (by decide) (by decide +kernel)
  have hsingle : ∃ outer, ofChildren {} [union inner] = .ok outer := exists_union_of_single (by decide)
  obtain ⟨outer, houter⟩ := hsingle
  simp only [hinner, houter, Except.toOption, Option.bind_some, Option.map_some, Option.some.injEq,
    Prod.mk.injEq] at hseen
  obtain ⟨d₀, docs₀, hrun₀, hdoc₀, -⟩ := run_of_seen hseen.1
  obtain ⟨d₁, docs₁, hrun₁, hdoc₁, hscores₁⟩ := run_of_seen hseen.2.1
  obtain ⟨d₂, docs₂, hrun₂, hdoc₂, hscores₂⟩ := run_of_seen hseen.2.2
  obtain rfl := (Outcome.done.inj hrun₀).1
  refine ⟨inner, outer, d₁, d₂, docs₁, docs₂, hchildren ▸ hinner, .union htrees hinner, houter, ?_, hrun₁, ?_, hrun₂,
    hdoc₁, hdoc₂, ?_⟩
  · simp [DocCursor.GoesForward, Move.IsForward]
  · refine ⟨fun _ => ?_, fun _ _ => trivial⟩
    change outer.doc ≤ 4
    rw [hdoc₀]
    decide
  · rw [hscores₁, hscores₂, List.singleton_perm_singleton]
    decide +kernel

end InvertedIndex.QueryCursor
