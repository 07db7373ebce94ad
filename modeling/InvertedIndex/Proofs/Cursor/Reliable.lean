import InvertedIndex.Proofs.Cursor.Resume

namespace InvertedIndex

open Outages (faults)

namespace Disjunction

open Heap RetriableCursor

variable {C : Type} [ScoredCursor C] [ForwardCursor C] [RetriableCursor C] {d : Disjunction C} {m : Move}

def reliable (d : Disjunction C) : Disjunction C := { d with live := d.live.map RetriableCursor.reliable }

def outages (d : Disjunction C) : List (Outages × Nat) := d.children.flatMap RetriableCursor.outages

lemma children_reliable (d : Disjunction C) : d.reliable.children = d.children.map RetriableCursor.reliable :=
  toList_map _ _

lemma frontDoc_reliable (live : Heap C) : frontDoc (live.map RetriableCursor.reliable) = frontDoc live := by
  rw [frontDoc, frontDoc, peek?_map]
  cases live.peek? with
  | none => rfl
  | some front => exact doc_reliable front

lemma onDoc_reliable (d : Disjunction C) : d.reliable.onDoc = d.onDoc := by
  funext i
  rw [onDoc, onDoc, reliable, map, Array.getElem?_map, Option.any_map]
  simp only [doc_reliable]

lemma matching_reliable (d : Disjunction C) : d.reliable.matching = d.matching.map RetriableCursor.reliable := by
  by_cases h : d.live.isEmpty = true ∨ d.doc = DocId.exhausted
  · have h' : d.reliable.live.isEmpty = true ∨ d.reliable.doc = DocId.exhausted := by
      refine h.imp_left fun hemp => Heap.isEmpty_iff.mpr ?_
      rw [reliable, toList_map, Heap.isEmpty_iff.mp hemp, List.map_nil]
    rw [matching, matching, if_pos h, if_pos h', List.map_nil]
  · rw [not_or, Heap.isEmpty_iff] at h
    obtain ⟨hne, he⟩ := h
    rw [matching_eq he hne, matching_eq (d := d.reliable) he, onDoc_reliable, List.map_filterMap]
    · simp [reliable, map, Heap.size]
    · rw [children_reliable]
      exact mt List.map_eq_nil_iff.mp hne

lemma score_reliable (d : Disjunction C) : d.reliable.score = d.score := by
  rw [score, score, matching_reliable, List.map_map]
  congr 1
  exact List.map_congr_left fun c _ => RetriableCursor.score_reliable c

lemma isSound_reliable (h : d.IsSound) : d.reliable.IsSound where
  ordered := (isOrdered_map docBefore_reliable d.live).mpr h.ordered
  sound := by
    rw [children_reliable, List.forall_mem_map]
    exact fun c hc => RetriableCursor.isSound_reliable (h.sound c hc)
  live := by
    simp only [children_reliable, List.forall_mem_map, doc_reliable]
    exact h.live
  doc_le := by
    simp only [children_reliable, List.forall_mem_map, doc_reliable]
    exact h.doc_le
  doc_eq_exhausted hn := by
    rw [children_reliable, List.map_eq_nil_iff] at hn
    exact h.doc_eq_exhausted hn

lemma faults_reliable (d : Disjunction C) : faults d.reliable.outages = 0 := by
  rw [outages, children_reliable, Outages.faults_flatMap, List.map_map]
  refine List.sum_eq_zero fun n hn => ?_
  obtain ⟨c, -, rfl⟩ := List.mem_map.mp hn
  exact RetriableCursor.faults_reliable c

lemma mapState_settled (d : Disjunction C) (o : Outcome (Heap C) Unit) :
    (d.reliable.settled o).mapState reliable = d.settled (o.mapState (map RetriableCursor.reliable)) := by
  cases o with
  | done live u => simp only [settled, Outcome.mapState, reliable, frontDoc_reliable]
  | failed live e => rfl
  | fault x => rfl

lemma IsSound.steady_eq (h : d.IsSound) (hne : d.children ≠ []) (hf : m.IsForward d.doc) {limit : Nat}
    (hl : d.children.countP (fun c => m.behind d.doc (DocCursor.doc c)) ≤ limit) :
    m.steady reliable d = d.settled (steadyPass m d.doc limit (d.live.map RetriableCursor.reliable)) := by
  have hne' : d.reliable.children ≠ [] := by rwa [children_reliable, ne_eq, List.map_eq_nil_iff]
  have hcount : d.reliable.children.countP (fun c => m.behind d.doc (DocCursor.doc c)) ≤ limit := by
    simpa only [children_reliable, List.countP_map, Function.comp_def, doc_reliable] using hl
  rw [Move.steady, apply_eq_settled hne' hf, mapState_settled, steadyPass]
  have hlimit := moveFront_eq_of_limit (onePass_of_isAhead (m := m) (isSteady_map h.isAhead).ahead)
    List.countP_le_length hcount
  exact congrArg (fun o => d.settled (o.mapState (map RetriableCursor.reliable))) hlimit

lemma faults_settle_le {current : DocId} {c : C} (h : IsAhead current c) :
    faults ((settle (m.behind current) m.apply c).flatMap RetriableCursor.outages) ≤
      faults (RetriableCursor.outages c) := by
  by_cases hb : m.behind current (DocCursor.doc c) = true
  · cases hm : m.apply c with
    | done c' u =>
      obtain ⟨-, hle⟩ := RetriableCursor.resumes_done h.sound hm
      by_cases hx : DocCursor.isExhausted c' = true
      · simp [settle, hb, hm, hx]
      · simpa [settle, hb, hm, hx] using hle
    | failed c' e => simp [settle, hb, hm]
    | fault x => simp [settle, hb, hm]
  · simp [settle, hb]

lemma faults_flatMap_settle_le {current : DocId} {cs : List C} (h : ∀ c ∈ cs, IsAhead current c) :
    faults ((cs.flatMap (settle (m.behind current) m.apply)).flatMap RetriableCursor.outages) ≤
      faults (cs.flatMap RetriableCursor.outages) := by
  rw [List.flatMap_assoc, Outages.faults_flatMap, Outages.faults_flatMap]
  exact List.sum_le_sum fun c hc => faults_settle_le (h c hc)

lemma faults_of_failsOn {current : DocId} {cs : List C} {live : Heap C} {e : Error}
    (h : ∀ c ∈ cs, IsAhead current c) (hf : FailsOn (m.behind current) m.apply cs live e) :
    (∃ p ∈ cs.flatMap RetriableCursor.outages, p.1 p.2 = some e) ∧
      faults (live.toList.flatMap RetriableCursor.outages) + 1 ≤ faults (cs.flatMap RetriableCursor.outages) := by
  obtain ⟨c, front, moved, rest, hcs, hb, hmc, -, -, hlive, -⟩ := hf
  have hc : c ∈ cs := hcs.symm.subset List.mem_cons_self
  obtain ⟨-, ⟨p, hp, hpe⟩, hspent⟩ := RetriableCursor.resumes_failed (h c hc).sound hmc
  have hmoved : ∀ b ∈ moved, IsAhead current b := fun b hbm =>
    h b (hcs.symm.subset (List.mem_cons_of_mem c (List.mem_append_left rest hbm)))
  refine ⟨⟨p, List.mem_flatMap.mpr ⟨c, hc, hp⟩, hpe⟩, ?_⟩
  rw [Outages.faults_perm (hlive.flatMap_right _), Outages.faults_perm (hcs.flatMap_right _)]
  simp only [List.flatMap_cons, List.flatMap_append, Outages.faults_append]
  rw [add_right_comm]
  gcongr
  exact faults_flatMap_settle_le hmoved

lemma IsSound.resumes (h : d.IsSound) (m : Move) : m.Resumes reliable outages d (m.apply d) := by
  by_cases hn : d.children = []
  · have hn' : d.reliable.children = [] := by rw [children_reliable, hn, List.map_nil]
    rw [apply_of_children_eq_nil (h.doc_eq_exhausted hn) hn]
    refine ⟨?_, le_rfl⟩
    rw [Move.steady, apply_of_children_eq_nil (d := d.reliable) (h.doc_eq_exhausted hn) hn', Outcome.mapState]
    simp only [reliable, map_reliable_map]
  by_cases hf : m.IsForward d.doc
  · have hpass := passResumes (m := m) d.live.size h.isAhead List.countP_le_length
    have hres := moveFront_result d.live.size d.live h.ordered (h.onePass m) List.countP_le_length
    rw [apply_eq_settled hn hf]
    cases ho : moveFront (m.behind d.doc) m.apply d.live.size d.live with
    | done live u =>
      rw [ho] at hpass hres
      refine ⟨?_, (Outages.faults_perm (hres.2.flatMap_right _)).trans_le (faults_flatMap_settle_le h.isAhead)⟩
      rw [h.steady_eq hn hf List.countP_le_length]
      exact (congrArg d.settled hpass).trans (by rw [settled, frontDoc_reliable]; rfl)
    | failed live e =>
      rw [ho] at hpass hres
      obtain ⟨limit, hl, hsame⟩ := hpass
      obtain ⟨hsound, -, -, front, hfront, -⟩ := h.of_failsOn hres
      have hlive : live.toList ≠ [] := fun hnil => by
        rw [peek?_eq_none_iff.mpr hnil] at hfront
        cases hfront
      refine ⟨?_, faults_of_failsOn h.isAhead hres⟩
      rw [hsound.steady_eq hlive hf hl, h.steady_eq hn hf List.countP_le_length]
      exact congrArg d.settled hsame
    | fault x =>
      rw [ho] at hres
      obtain ⟨c, hc, hb, hmc⟩ := hres
      have hgoes := h.child_goes hc hb
      rw [hmc] at hgoes
      exact hgoes.elim
  · cases m with
    | next => exact absurd trivial hf
    | seek target =>
      have hlt : target < d.doc := UInt64.not_le.mp hf
      have hn' : d.reliable.children ≠ [] := by rwa [children_reliable, ne_eq, List.map_eq_nil_iff]
      rw [apply_seek_behind hn hlt, Move.Resumes, Move.steady, apply_seek_behind (d := d.reliable) hn' hlt]
      rfl

instance : RetriableCursor (Disjunction C) where
  reliable := reliable
  outages := outages
  doc_reliable _ := rfl
  score_reliable := score_reliable
  reliable_reliable d := by simp only [reliable, map_reliable_map]
  isSound_reliable h := isSound_reliable h
  faults_reliable := faults_reliable
  isSound_of_done h hm := IsSound.apply_done h hm
  isSound_of_failed h hm := let ⟨hs, hd, _⟩ := IsSound.apply_failed h hm; ⟨hs, hd⟩
  resumes m h := IsSound.resumes h m

end Disjunction

lemma Move.Resumes.mapState {B C : Type} [DocCursor B] [DocCursor C] {reliable : B → B}
    {outages : B → List (Outages × Nat)} {reliable' : C → C} {outages' : C → List (Outages × Nat)} {f : B → C}
    {m : Move} {b : B} {o : Outcome B Unit}
    (h : m.Resumes reliable outages b o) (happly : ∀ b, m.apply (f b) = (m.apply b).mapState f)
    (hreliable : ∀ b, reliable' (f b) = f (reliable b)) (houtages : ∀ b, outages' (f b) = outages b) :
    m.Resumes reliable' outages' (f b) (o.mapState f) := by
  have hsteady (b : B) : m.steady reliable' (f b) = (m.steady reliable b).mapState f := by
    rw [steady, steady, hreliable, happly]
    cases m.apply (reliable b) <;> simp [Outcome.mapState, hreliable]
  cases o with
  | done b' u =>
    obtain ⟨hs, hq⟩ := h
    refine ⟨?_, by rwa [houtages, houtages]⟩
    rw [hsteady, hs, hreliable]
    rfl
  | failed b' e =>
    obtain ⟨hs, hp, hq⟩ := h
    refine ⟨?_, by rwa [houtages], by rwa [houtages, houtages]⟩
    rw [hsteady, hsteady, hs]
  | fault x => exact (hsteady b).trans (congrArg (Outcome.mapState f) h)

namespace Leaf

lemma apply_ne_failed (m : Move) (l l' : Leaf) (e : Error) : m.apply l ≠ .failed l' e := by
  obtain ⟨position, hm⟩ | ⟨x, hm⟩ := l.postings.apply_eq_done_or_fault m <;>
  · rw [apply_eq, hm]
    nofun

instance : ForwardCursor Leaf where
  IsSound := FaithfulCursor.IsValid
  goes := FaithfulCursor.goes

instance : RetriableCursor Leaf where
  reliable := id
  outages _ := []
  doc_reliable _ := rfl
  score_reliable _ := rfl
  reliable_reliable _ := rfl
  isSound_reliable := id
  faults_reliable _ := rfl
  isSound_of_done h hm := by
    obtain ⟨c, hc, rfl⟩ := Outcome.mapState_eq_done ((apply_eq _ _).symm.trans hm)
    exact PostingCursor.IsSorted.of_apply h hc
  isSound_of_failed _ hm := absurd hm (apply_ne_failed _ _ _ _)
  resumes {l} m _ := by
    cases hm : m.apply l with
    | done l' u => exact ⟨by rw [Move.steady, id, hm]; rfl, le_rfl⟩
    | failed l' e => exact absurd hm (apply_ne_failed m l l' e)
    | fault x => rw [Move.Resumes, Move.steady, id, hm]; rfl

end Leaf

namespace Unreliable

variable {C : Type} [ScoredCursor C] {u : Unreliable C} {m : Move}

lemma apply_of_none (h : u.outages u.calls = none) :
    m.apply u = (m.apply u.inner).mapState fun c => { u with inner := c, calls := u.calls + 1 } := by
  rw [apply_eq, attempt, h]

lemma apply_of_some {e : Error} (h : u.outages u.calls = some e) :
    m.apply u = .failed { u with calls := u.calls + 1 } e := by
  rw [apply_eq, attempt, h]

lemma exists_of_apply_done {u' : Unreliable C} (h : m.apply u = .done u' ()) :
    ∃ c, m.apply u.inner = .done c () ∧ { u with inner := c, calls := u.calls + 1 } = u' := by
  cases ho : u.outages u.calls with
  | none => exact Outcome.mapState_eq_done ((apply_of_none ho).symm.trans h)
  | some e =>
    rw [apply_of_some ho] at h
    cases h

lemma inner_of_endsAt {u' : Unreliable C} (h : m.EndsAt u u') : u'.inner = u.inner ∨ m.EndsAt u.inner u'.inner := by
  cases ho : u.outages u.calls with
  | none =>
    obtain hm | ⟨e, hm⟩ := h
    · obtain ⟨c, hc, rfl⟩ := Outcome.mapState_eq_done ((apply_of_none ho).symm.trans hm)
      exact .inr (.inl hc)
    · obtain ⟨c, hc, rfl⟩ := Outcome.mapState_eq_failed ((apply_of_none ho).symm.trans hm)
      exact .inr (.inr ⟨e, hc⟩)
  | some e =>
    rw [Move.EndsAt, apply_of_some ho] at h
    obtain hm | ⟨e', hm⟩ := h
    · cases hm
    · obtain rfl := (Outcome.failed.inj hm).1
      exact .inl rfl

lemma apply_inner_eq_fault {x : Fault} (h : m.apply u = .fault x) : m.apply u.inner = .fault x := by
  cases ho : u.outages u.calls with
  | none => exact Outcome.mapState_eq_fault ((apply_of_none ho).symm.trans h)
  | some e =>
    rw [apply_of_some ho] at h
    cases h

variable [ForwardCursor C] [RetriableCursor C]

def reliable (u : Unreliable C) : Unreliable C := ⟨RetriableCursor.reliable u.inner, Outages.none, 0⟩

def allOutages (u : Unreliable C) : List (Outages × Nat) :=
  (u.outages, u.calls) :: RetriableCursor.outages u.inner

lemma steady_eq (u : Unreliable C) : m.steady reliable u =
    (m.steady RetriableCursor.reliable u.inner).mapState fun c => ⟨c, Outages.none, 0⟩ := by
  rw [Move.steady, Move.steady, apply_eq]
  simp only [attempt, reliable, Outages.none]
  cases m.apply (RetriableCursor.reliable u.inner) <;> rfl

lemma resumes (h : ForwardCursor.IsSound u.inner) (m : Move) : m.Resumes reliable allOutages u (m.apply u) := by
  cases ho : u.outages u.calls with
  | some e =>
    rw [apply_of_some ho]
    refine ⟨by rw [steady_eq, steady_eq], ⟨_, List.mem_cons_self, ho⟩, ?_⟩
    rw [allOutages, allOutages, Outages.faults_cons, Outages.faults_cons, ← Outages.toCome_succ_add_one ho,
      add_right_comm]
  | none =>
    rw [apply_of_none ho]
    have hcalls := u.outages.toCome_succ_le u.calls
    have hinner := RetriableCursor.resumes m h
    cases hm : m.apply u.inner with
    | done c v =>
      rw [hm] at hinner
      exact ⟨by rw [steady_eq, hinner.1]; rfl, add_le_add hcalls hinner.2⟩
    | failed c e =>
      rw [hm] at hinner
      obtain ⟨hsteady, ⟨p, hp, hpe⟩, hspent⟩ := hinner
      refine ⟨by rw [steady_eq, steady_eq, hsteady], ⟨p, List.mem_cons_of_mem _ hp, hpe⟩, ?_⟩
      rw [allOutages, allOutages, Outages.faults_cons, Outages.faults_cons, add_assoc]
      exact add_le_add hcalls hspent
    | fault x =>
      rw [hm] at hinner
      exact (steady_eq u).trans (congrArg (Outcome.mapState _) hinner)

instance : RetriableCursor (Unreliable C) where
  reliable := reliable
  outages := allOutages
  doc_reliable u := RetriableCursor.doc_reliable u.inner
  score_reliable u := RetriableCursor.score_reliable u.inner
  reliable_reliable u := by simp only [reliable, RetriableCursor.reliable_reliable]
  isSound_reliable h := RetriableCursor.isSound_reliable (C := C) h
  faults_reliable u := by
    rw [allOutages, reliable, Outages.faults_cons, Outages.toCome_none, RetriableCursor.faults_reliable, add_zero]
  isSound_of_done {u _ m} h hm := by
    obtain ⟨c, hc, rfl⟩ := exists_of_apply_done hm
    exact RetriableCursor.isSound_of_done (C := C) h hc
  isSound_of_failed {u _ m _} h hm := by
    cases ho : u.outages u.calls with
    | some e =>
      rw [apply_of_some ho] at hm
      obtain ⟨rfl, -⟩ := Outcome.failed.inj hm
      exact ⟨h, rfl⟩
    | none =>
      rw [apply_of_none ho] at hm
      obtain ⟨c, hc, rfl⟩ := Outcome.mapState_eq_failed hm
      exact RetriableCursor.isSound_of_failed (C := C) h hc
  resumes m h := resumes h m

end Unreliable

namespace Layer

variable {C : Type} [ScoredCursor C] [ForwardCursor C] [RetriableCursor C] {m : Move}

def reliable : Layer C → Layer C
  | .leaf l => .leaf l
  | .unreliable u => .unreliable (RetriableCursor.reliable u)
  | .union d => .union (RetriableCursor.reliable d)

def outages : Layer C → List (Outages × Nat)
  | .leaf l => RetriableCursor.outages l
  | .unreliable u => RetriableCursor.outages u
  | .union d => RetriableCursor.outages d

instance : RetriableCursor (Layer C) where
  reliable := reliable
  outages := outages
  doc_reliable c := by
    cases c with
    | leaf l => rfl
    | unreliable u => exact RetriableCursor.doc_reliable u
    | union d => rfl
  score_reliable c := by
    cases c with
    | leaf l => rfl
    | unreliable u => exact RetriableCursor.score_reliable u
    | union d => exact RetriableCursor.score_reliable d
  reliable_reliable c := by
    cases c with
    | leaf l => rfl
    | unreliable u => exact congrArg unreliable (RetriableCursor.reliable_reliable u)
    | union d => exact congrArg union (RetriableCursor.reliable_reliable d)
  isSound_reliable {c} h := by
    cases c with
    | leaf l => exact h
    | unreliable u => exact RetriableCursor.isSound_reliable (C := Unreliable C) h
    | union d => exact RetriableCursor.isSound_reliable (C := Disjunction C) h
  faults_reliable c := by
    cases c with
    | leaf l => rfl
    | unreliable u => exact RetriableCursor.faults_reliable u
    | union d => exact RetriableCursor.faults_reliable d
  isSound_of_done {c _ m} h hm := by
    cases c with
    | leaf l =>
      obtain ⟨l', hl, rfl⟩ := Outcome.mapState_eq_done ((apply_leaf m l).symm.trans hm)
      exact RetriableCursor.isSound_of_done (C := Leaf) h hl
    | unreliable u =>
      obtain ⟨u', hu, rfl⟩ := Outcome.mapState_eq_done ((apply_unreliable m u).symm.trans hm)
      exact RetriableCursor.isSound_of_done (C := Unreliable C) h hu
    | union d =>
      obtain ⟨d', hd, rfl⟩ := Outcome.mapState_eq_done ((apply_union m d).symm.trans hm)
      exact RetriableCursor.isSound_of_done (C := Disjunction C) h hd
  isSound_of_failed {c _ m _} h hm := by
    cases c with
    | leaf l =>
      obtain ⟨l', hl, rfl⟩ := Outcome.mapState_eq_failed ((apply_leaf m l).symm.trans hm)
      exact RetriableCursor.isSound_of_failed (C := Leaf) h hl
    | unreliable u =>
      obtain ⟨u', hu, rfl⟩ := Outcome.mapState_eq_failed ((apply_unreliable m u).symm.trans hm)
      exact RetriableCursor.isSound_of_failed (C := Unreliable C) h hu
    | union d =>
      obtain ⟨d', hd, rfl⟩ := Outcome.mapState_eq_failed ((apply_union m d).symm.trans hm)
      exact RetriableCursor.isSound_of_failed (C := Disjunction C) h hd
  resumes {c} m h := by
    cases c with
    | leaf l =>
      rw [apply_leaf]
      exact (RetriableCursor.resumes (C := Leaf) m h).mapState (apply_leaf m) (fun _ => rfl) fun _ => rfl
    | unreliable u =>
      rw [apply_unreliable]
      exact (RetriableCursor.resumes (C := Unreliable C) m h).mapState (apply_unreliable m) (fun _ => rfl) fun _ => rfl
    | union d =>
      rw [apply_union]
      exact (RetriableCursor.resumes (C := Disjunction C) m h).mapState (apply_union m) (fun _ => rfl) fun _ => rfl

end Layer

namespace QueryCursor

instance : RetriableCursor Empty where
  reliable := id
  outages := nofun
  doc_reliable c := c.elim
  score_reliable c := c.elim
  reliable_reliable c := c.elim
  isSound_reliable {c} := c.elim
  faults_reliable c := c.elim
  isSound_of_done {c} := c.elim
  isSound_of_failed {c} := c.elim
  resumes {c} := c.elim

instance retriableCursor : (height : Nat) → RetriableCursor (QueryCursor height)
  | 0 => inferInstanceAs (RetriableCursor Empty)
  | height + 1 =>
    have := retriableCursor height
    inferInstanceAs (RetriableCursor (Layer (QueryCursor height)))

end QueryCursor

end InvertedIndex
