import InvertedIndex.Proofs.Cursor.Reliable

namespace InvertedIndex

open Outages (faults)

namespace DocCursor

variable {C : Type} {ρ : Type v} [DocCursor C]

inductive Retries (m : Move) : C → C → Prop
  | done {c c' : C} : m.apply c = .done c' () → Retries m c c'
  | failed {c c₁ c' : C} {e : Error} : m.apply c = .failed c₁ e → Retries m c₁ c' → Retries m c c'

inductive Persists (note : C → ρ) : List Move → C → List ρ → C → Prop
  | nil (c : C) : Persists note [] c [] c
  | cons {m : Move} {ms : List Move} {c c₁ c' : C} {notes : List ρ} : Retries m c c₁ →
    Persists note ms c₁ notes c' → Persists note (m :: ms) c (note c₁ :: notes) c'

def runNoting (note : C → ρ) : List Move → C → Outcome C (List ρ)
  | [], c => .done c []
  | m :: ms, c =>
    match m.apply c with
    | .done c () => (runNoting note ms c).map (note c :: ·)
    | .failed c e => .failed c e
    | .fault x => .fault x

lemma runNoting_cons_of_done {note : C → ρ} {m : Move} {ms : List Move} {c c' : C} (h : m.apply c = .done c' ()) :
    runNoting note (m :: ms) c = (runNoting note ms c').map (note c' :: ·) := by
  rw [runNoting, h]

lemma runNoting_cons_done {note : C → ρ} {m : Move} {ms : List Move} {c c' : C} {notes : List ρ}
    (h : runNoting note (m :: ms) c = .done c' notes) : ∃ c₁ notes₁,
      m.apply c = .done c₁ () ∧ runNoting note ms c₁ = .done c' notes₁ ∧ notes = note c₁ :: notes₁ := by
  cases hm : m.apply c with
  | done c₁ u =>
    rw [runNoting_cons_of_done hm] at h
    obtain ⟨notes₁, hrun, rfl⟩ := Outcome.map_eq_done h
    exact ⟨c₁, notes₁, rfl, hrun, rfl⟩
  | failed c₁ e =>
    rw [runNoting, hm] at h
    cases h
  | fault x =>
    rw [runNoting, hm] at h
    cases h

end DocCursor

namespace RetriableCursor

open DocCursor

variable {C : Type} [ScoredCursor C] [ForwardCursor C] [RetriableCursor C] {c c' x x' : C} {m : Move}

lemma isSound_of_endsAt (h : ForwardCursor.IsSound c) (hm : m.EndsAt c c') : ForwardCursor.IsSound c' := by
  rcases hm with hm | ⟨e, hm⟩
  · exact isSound_of_done h hm
  · exact (isSound_of_failed h hm).1

lemma isSound_of_attempts (h : ForwardCursor.IsSound c) (ha : Attempts c c') : ForwardCursor.IsSound c' := by
  induction ha with
  | start => exact h
  | done _ hm ih => exact isSound_of_endsAt ih (.inl hm)
  | failed _ hm ih => exact isSound_of_endsAt ih (.inr ⟨_, hm⟩)

lemma retries_done (h : ForwardCursor.IsSound c) (hr : Retries m c c') :
    ForwardCursor.IsSound c' ∧ m.steady reliable c = .done (reliable c') () ∧
      faults (outages c') ≤ faults (outages c) := by
  induction hr with
  | done hm => exact ⟨isSound_of_done h hm, resumes_done h hm⟩
  | failed hm _ ih =>
    obtain ⟨hsteady, -, hspent⟩ := resumes_failed h hm
    obtain ⟨hsound, hs, hle⟩ := ih (isSound_of_failed h hm).1
    exact ⟨hsound, hsteady ▸ hs, hle.trans (le_self_add.trans hspent)⟩

lemma exists_retries {r : C} (h : ForwardCursor.IsSound c) (hq : faults (outages c) ≠ ⊤)
    (hs : m.steady reliable c = .done r ()) : ∃ c', Retries m c c' := by
  induction hk : faults (outages c) using WellFoundedLT.induction generalizing c with
  | _ k ih =>
    cases hm : m.apply c with
    | done c' u => exact ⟨c', .done hm⟩
    | failed c' e =>
      obtain ⟨hsteady, -, hspent⟩ := resumes_failed h hm
      have hq' : faults (outages c') ≠ ⊤ := ne_top_of_le_ne_top hq (le_self_add.trans hspent)
      have hlt : faults (outages c') < k := hk ▸ (ENat.add_one_le_iff hq').mp hspent
      obtain ⟨c₁, hr⟩ := ih _ hlt (isSound_of_failed h hm).1 hq' (hsteady.trans hs) rfl
      exact ⟨c₁, .failed hm hr⟩
    | fault x =>
      have hres := resumes m h
      rw [hm, Move.Resumes, hs] at hres
      cases hres

structure Mirrors (x c : C) : Prop where
  sound : ForwardCursor.IsSound c
  sound' : ForwardCursor.IsSound x
  faultless : faults (outages x) = 0
  same : reliable x = reliable c

lemma mirrors_reliable (h : ForwardCursor.IsSound c) : Mirrors (reliable c) c :=
  ⟨h, isSound_reliable h, faults_reliable c, reliable_reliable c⟩

lemma Mirrors.step (h : Mirrors x c) (hr : Retries m c c') : ∃ x', m.apply x = .done x' () ∧ Mirrors x' c' := by
  obtain ⟨hsound, hs, -⟩ := retries_done h.sound hr
  rw [Move.steady, ← h.same, ← Move.steady] at hs
  have hres := resumes m h.sound'
  cases hm : m.apply x with
  | done x' u =>
    obtain ⟨hs', hle⟩ := resumes_done h.sound' hm
    rw [hs'] at hs
    exact ⟨x', rfl, hsound, isSound_of_done h.sound' hm, nonpos_iff_eq_zero.mp (h.faultless ▸ hle),
      (Outcome.done.inj hs).1⟩
  | failed x' e =>
    obtain ⟨-, -, hspent⟩ := resumes_failed h.sound' hm
    simp [h.faultless] at hspent
  | fault y =>
    rw [hm, Move.Resumes, hs] at hres
    cases hres

variable {ρ : Type v} {note : C → ρ} {ms : List Move} {notes : List ρ}

lemma Mirrors.run (hnote : ∀ c, note (reliable c) = note c) (h : Mirrors x c) (hp : Persists note ms c notes c') :
    ∃ x', runNoting note ms x = .done x' notes ∧ Mirrors x' c' := by
  induction hp generalizing x with
  | nil c => exact ⟨x, rfl, h⟩
  | cons hr _ ih =>
    obtain ⟨x₁, hm, h₁⟩ := h.step hr
    obtain ⟨x', hrun, h'⟩ := ih h₁
    refine ⟨x', ?_, h'⟩
    rw [runNoting_cons_of_done hm, hrun, Outcome.map, ← hnote x₁, h₁.same, hnote]

lemma Mirrors.exists_persists (hnote : ∀ c, note (reliable c) = note c) (h : Mirrors x c)
    (hq : faults (outages c) ≠ ⊤) (hrun : runNoting note ms x = .done x' notes) :
    ∃ c', Persists note ms c notes c' := by
  induction ms generalizing x c notes with
  | nil =>
    obtain ⟨-, rfl⟩ := Outcome.done.inj hrun
    exact ⟨c, .nil c⟩
  | cons m ms ih =>
    obtain ⟨x₁, notes₁, hm, hrest, rfl⟩ := runNoting_cons_done hrun
    obtain ⟨hs, -⟩ := resumes_done h.sound' hm
    rw [Move.steady, h.same, ← Move.steady] at hs
    obtain ⟨c₁, hr⟩ := exists_retries h.sound hq hs
    obtain ⟨x₂, hm₂, h₁⟩ := h.step hr
    obtain rfl : x₁ = x₂ := (Outcome.done.inj (hm.symm.trans hm₂)).1
    obtain ⟨-, -, hle⟩ := retries_done h.sound hr
    obtain ⟨c', hp⟩ := ih h₁ (ne_top_of_le_ne_top hq hle) hrest
    refine ⟨c', ?_⟩
    rw [← hnote x₁, h₁.same, hnote]
    exact .cons hr hp

end RetriableCursor

namespace QueryCursor

open DocCursor RetriableCursor

inductive IsFallibleTree : {n : Nat} → QueryCursor n → Prop
  | leaf {n : Nat} {postings : List Posting} {cursor : PostingCursor} (scoring : Scoring) (cost : Option UInt64) :
    PostingCursor.ofList postings = .ok cursor → IsFallibleTree (leaf (n := n) ⟨cursor, scoring, cost⟩)
  | unreliable {n : Nat} {c : QueryCursor n} (outages : Outages) (calls : Nat) :
    IsFallibleTree c → IsFallibleTree (unreliable ⟨c, outages, calls⟩)
  | union {n : Nat} {children : List (QueryCursor n)} {settings : UnionSettings} {d : Disjunction (QueryCursor n)} :
    (∀ c ∈ children, IsFallibleTree c) → Disjunction.ofChildren settings children = .ok d → IsFallibleTree (union d)
  | moved {n : Nat} {c c' : QueryCursor n} : IsFallibleTree c → Attempts c c' → IsFallibleTree c'

lemma IsFallibleTree.isSound {n : Nat} {c : QueryCursor n} (h : IsFallibleTree c) : ForwardCursor.IsSound c := by
  induction h with
  | leaf scoring cost h => exact PostingCursor.isSorted_of_ofList h
  | unreliable outages calls _ ih => exact ih
  | union _ h ih => exact Disjunction.isSound_ofChildren ih h
  | moved _ ha ih => exact isSound_of_attempts ih ha

lemma IsTree.isFallibleTree {n : Nat} {c : QueryCursor n} (h : IsTree c) : IsFallibleTree c := by
  induction h with
  | leaf scoring cost h => exact .leaf scoring cost h
  | union _ h ih => exact .union ih h
  | moved _ _ _ hm ih => exact ih.moved (Attempts.start.done hm)

inductive IsUnion : {n : Nat} → QueryCursor n → Prop
  | union {n : Nat} (d : Disjunction (QueryCursor n)) : IsUnion (union d)
  | unreliable {n : Nat} {c : QueryCursor n} (outages : Outages) (calls : Nat) :
    IsUnion c → IsUnion (unreliable ⟨c, outages, calls⟩)

def counts : {n : Nat} → QueryCursor n → Nat × Nat
  | 0, c => c.elim
  | _ + 1, .leaf _ => (0, 0)
  | _ + 1, .unreliable u => counts u.inner
  | _ + 1, .union d => (d.matching.length, d.live.size)

def reading {n : Nat} (c : QueryCursor n) : DocId × (Nat × Nat) × Float32 :=
  (DocCursor.doc c, counts c, ScoredCursor.score c)

lemma counts_reliable {n : Nat} (c : QueryCursor n) : counts (reliable c) = counts c := by
  induction n, c using inductionOn with
  | leaf n l => rfl
  | unreliable n u ih => exact ih
  | union n d _ =>
    refine congrArg₂ Prod.mk ?_ (Heap.size_map _ _)
    exact (congrArg List.length (Disjunction.matching_reliable d)).trans (List.length_map _)

lemma reading_reliable {n : Nat} (c : QueryCursor n) : reading (reliable c) = reading c := by
  rw [reading, doc_reliable, counts_reliable, score_reliable, reading]

variable {n : Nat} {c c' : QueryCursor n} {m : Move}

lemma IsUnion.reliable (h : IsUnion c) : IsUnion (reliable c) := by
  induction h with
  | union d => exact .union _
  | unreliable outages calls _ ih => exact .unreliable _ _ ih

lemma IsUnion.of_endsAt (h : IsUnion c) (hm : m.EndsAt c c') : IsUnion c' := by
  induction h with
  | union d =>
    obtain ⟨d', -, rfl⟩ := hm.of_mapState (Layer.apply_union m d)
    exact .union d'
  | unreliable outages calls h ih =>
    obtain ⟨u, hu, rfl⟩ := hm.of_mapState (Layer.apply_unreliable m _)
    refine .unreliable u.outages u.calls ?_
    rcases Unreliable.inner_of_endsAt hu with hsame | hinner
    · exact hsame ▸ h
    · exact ih hinner

lemma IsUnion.of_attempts (h : IsUnion c) (ha : Attempts c c') : IsUnion c' := by
  induction ha with
  | start => exact h
  | done _ hm ih => exact ih.of_endsAt (.inl hm)
  | failed _ hm ih => exact ih.of_endsAt (.inr ⟨_, hm⟩)

lemma IsUnion.apply_ne_fault (h : IsUnion c) (hs : ForwardCursor.IsSound c)
    (hf : DocCursor.doc c ≠ DocId.exhausted → m.IsForward (DocCursor.doc c)) (x : Fault) : m.apply c ≠ .fault x := by
  intro hm
  by_cases he : DocCursor.doc c = DocId.exhausted
  · induction h with
    | union d =>
      have hnone := (Disjunction.IsSound.doc_eq_exhausted_iff hs).mp he
      have hd := Outcome.mapState_eq_fault ((Layer.apply_union m d).symm.trans hm)
      rw [Disjunction.apply_of_children_eq_nil he hnone] at hd
      cases hd
    | unreliable outages calls _ ih =>
      have hu := Outcome.mapState_eq_fault ((Layer.apply_unreliable m _).symm.trans hm)
      exact ih hs hf (Unreliable.apply_inner_eq_fault hu) he
  · have hgoes := ForwardCursor.goes hs he (hf he)
    rw [hm] at hgoes
    exact hgoes

lemma IsUnion.exists_run {ρ : Type v} {note : QueryCursor n → ρ} {ms : List Move} (h : IsUnion c)
    (hs : ForwardCursor.IsSound c) (hq : faults (outages c) = 0) (hms : GoesForward ms c) :
    ∃ c' notes, runNoting note ms c = .done c' notes := by
  induction ms generalizing c with
  | nil => exact ⟨c, [], rfl⟩
  | cons m ms ih =>
    obtain ⟨hlegal, hrest⟩ := hms
    cases hm : m.apply c with
    | done c₁ u =>
      obtain ⟨-, hle⟩ := resumes_done hs hm
      obtain ⟨c', notes, hrun⟩ :=
        ih (h.of_endsAt (.inl hm)) (isSound_of_done hs hm) (nonpos_iff_eq_zero.mp (hq ▸ hle)) (hrest c₁ hm)
      exact ⟨c', _, by rw [runNoting_cons_of_done hm, hrun, Outcome.map]⟩
    | failed c₁ e =>
      obtain ⟨-, -, hspent⟩ := resumes_failed hs hm
      simp [hq] at hspent
    | fault x => exact absurd hm (h.apply_ne_fault hs hlegal x)

/-- A failed move reports the error of the part that failed and leaves the document. If each failed move is repeated
until it succeeds, the union reads as it does without failures. -/
theorem retried_moves_lose_nothing {ms : List Move} (hc : IsFallibleTree c) (hu : IsUnion c)
    (hms : GoesForward ms (reliable c)) :
    (∀ (c₁ c₂ : QueryCursor n) (m : Move) (e : Error), Attempts c c₁ → m.apply c₁ = .failed c₂ e →
      DocCursor.doc c₂ = DocCursor.doc c₁ ∧ ∃ p ∈ outages c₁, p.1 p.2 = some e) ∧
    ∃ c₀ notes, runNoting reading ms (reliable c) = .done c₀ notes ∧
      (faults (outages c) ≠ ⊤ → ∃ c', Persists reading ms c notes c') ∧
      ∀ notes' c', Persists reading ms c notes' c' → notes' = notes := by
  refine ⟨fun c₁ c₂ m e ha hm => ?_, ?_⟩
  · have hs := isSound_of_attempts hc.isSound ha
    obtain ⟨-, hp, -⟩ := resumes_failed hs hm
    exact ⟨(isSound_of_failed hs hm).2, hp⟩
  · have hmirrors := mirrors_reliable hc.isSound
    obtain ⟨c₀, notes, hrun⟩ : ∃ c₀ notes, runNoting reading ms (reliable c) = .done c₀ notes :=
      hu.reliable.exists_run hmirrors.sound' hmirrors.faultless hms
    refine ⟨c₀, notes, hrun, fun hq => hmirrors.exists_persists reading_reliable hq hrun, fun notes' c' hp => ?_⟩
    obtain ⟨x', hrun', -⟩ := hmirrors.run reading_reliable hp
    rw [hrun] at hrun'
    exact (Outcome.done.inj hrun').2.symm

def brittleUnion (start : Disjunction (QueryCursor 2)) : QueryCursor 4 :=
  unreliable ⟨union start, Outages.ofCalls [1] (.dataSource "connection reset"), 0⟩

lemma isFallibleTree_brittlePair (calls : List Nat) : ∀ c ∈ brittlePair calls, IsFallibleTree c := by
  simp only [brittlePair, List.mem_cons, List.not_mem_nil, or_false, forall_eq_or_imp, forall_eq]
  exact ⟨(isTree_leafOn (by decide) (by decide)).isFallibleTree,
    .unreliable _ _ (isTree_leafOn (by decide) (by decide)).isFallibleTree⟩

lemma isFallibleTree_brittleUnion {calls : List Nat} {start : Disjunction (QueryCursor 2)}
    (h : Disjunction.ofChildren {} (brittlePair calls) = .ok start) : IsFallibleTree (brittleUnion start) :=
  .unreliable _ _ (.union (isFallibleTree_brittlePair calls) h)

lemma faults_brittleUnion {calls : List Nat} {start : Disjunction (QueryCursor 2)}
    (h : Disjunction.ofChildren {} (brittlePair calls) = .ok start) : faults (outages (brittleUnion start)) ≠ ⊤ := by
  refine Outages.faults_ne_top fun p hp => ?_
  rcases List.mem_cons.mp hp with rfl | hp
  · exact Outages.toCome_ofCalls_ne_top _ _ _
  obtain ⟨c, hc, hp⟩ := List.mem_flatMap.mp hp
  have hpair := (List.mem_filter.mp ((Disjunction.children_ofChildren h).subset hc)).1
  rcases List.mem_cons.mp hpair with rfl | hpair
  · cases hp
  · obtain rfl := List.mem_singleton.mp hpair
    obtain rfl := List.mem_singleton.mp hp
    exact Outages.toCome_ofCalls_ne_top _ _ _

theorem retried_seek_loses_nothing :
    ∃ start, Disjunction.ofChildren {} (brittlePair [0]) = .ok start ∧
      (∃ c e, (Move.seek 10).apply (brittleUnion start) = .failed c e) ∧
      ∃ c₀ notes c', runNoting reading [.seek 10, .next] (reliable (brittleUnion start)) = .done c₀ notes ∧
        Persists reading [.seek 10, .next] (brittleUnion start) notes c' := by
  -- The first attempt fails on the second list after the first one has moved; the next one does not get to the lists.
  obtain ⟨start, hstart⟩ : ∃ start, Disjunction.ofChildren {} (brittlePair [0]) = .ok start :=
    Disjunction.ofChildren_eq_ok (by decide) (by decide +kernel)
  have hrun : ((Disjunction.ofChildren {} (brittlePair [0])).toOption.bind fun start =>
      ((Move.seek 10).apply (brittleUnion start)).failed?.map fun (r : _ × Error) =>
        (start.doc, DocCursor.doc r.1)) = some (1, 1) := by
    decide +kernel
  rw [hstart] at hrun
  simp only [Except.toOption, Option.bind_some, Option.map_eq_some_iff, Prod.exists, Outcome.failed?_eq_some_iff,
    Prod.mk.injEq] at hrun
  obtain ⟨c, e, hfailed, hdoc, -⟩ := hrun
  have hle : start.doc ≤ 10 := by
    rw [hdoc]
    decide
  have hlegal : GoesForward [.seek 10, .next] (reliable (brittleUnion start)) :=
    ⟨fun _ => hle, fun _ _ => ⟨fun _ => trivial, fun _ _ => trivial⟩⟩
  obtain ⟨-, c₀, notes, hsteady, hretried, -⟩ := retried_moves_lose_nothing (isFallibleTree_brittleUnion hstart)
    (.unreliable _ _ (.union start)) hlegal
  obtain ⟨c', hp⟩ := hretried (faults_brittleUnion hstart)
  exact ⟨start, hstart, ⟨c, e, hfailed⟩, c₀, notes, c', hsteady, hp⟩

end QueryCursor

end InvertedIndex
