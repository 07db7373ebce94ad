import InvertedIndex.Proofs.Cursor.Retry
import Mathlib.Data.List.Forall2

namespace InvertedIndex

namespace Disjunction

open Heap

variable {C : Type} [ScoredCursor C] {d d' : Disjunction C} {m : Move}

structure IsInOrder (d : Disjunction C) : Prop where
  isHeap : d.isHeap = true
  live : ∀ c ∈ d.children, DocCursor.doc c ≠ DocId.exhausted
  doc_le : ∀ c ∈ d.children, d.doc ≤ DocCursor.doc c
  doc_eq_exhausted_iff : d.doc = DocId.exhausted ↔ d.children = []
  asks_forward {m : Move} {move : C → Outcome C Unit} : d.children ≠ [] → m.IsForward d.doc →
    (∀ c, DocCursor.doc c ≠ DocId.exhausted → m.IsForward (DocCursor.doc c) → move c = m.apply c) →
    m.apply d = d.moveLive (m.behind d.doc) move

lemma moveFront_congr {behind : DocId → Bool} {move move' : C → Outcome C Unit} {low : DocId} (limit : Nat)
    {live : Heap C} (hp : OnePass behind move low live.toList)
    (h : ∀ c ∈ live.toList, behind (DocCursor.doc c) = true → move' c = move c) :
    moveFront behind move' limit live = moveFront behind move limit live := by
  induction limit generalizing live with
  | zero => rfl
  | succ limit ih =>
    rcases exists_behind_or behind live with ⟨front, hf, hb⟩ | hnone
    · obtain ⟨others, hlive⟩ := peek?_eq_some_iff.mp hf
      have hsame := h front (by simp [hlive]) hb
      cases hm : move front with
      | done c u =>
        obtain ⟨hp', -⟩ := hp.settleFront hf hb hm
        rw [moveFront_of_front hf hb (hsame.trans hm), moveFront_of_front hf hb hm]
        refine ih hp' fun b hmem hbb => ?_
        rcases mem_settleFront hf hmem with hold | ⟨rfl, -⟩
        · exact h b hold hbb
        · rw [(hp.enough front (by simp [hlive]) hb b hm).1] at hbb
          cases hbb
      | failed c e => simp [moveFront, hf, hb, hsame, hm]
      | fault x => simp [moveFront, hf, hb, hsame, hm]
    · rw [moveFront_of_not_behind hnone, moveFront_of_not_behind hnone]

def Dwindles (R : C → C → Prop) (cs cs' : List C) : Prop := ∃ kept, kept.Subperm cs ∧ List.Forall₂ R kept cs'

section Dwindles

variable {R : C → C → Prop} {cs cs' ds ds' : List C}

omit [ScoredCursor C] in
lemma Dwindles.length_le (h : Dwindles R cs cs') : cs'.length ≤ cs.length := by
  obtain ⟨kept, hsub, hr⟩ := h
  exact hr.length_eq ▸ hsub.length_le

omit [ScoredCursor C] in
lemma dwindles_nil (cs : List C) : Dwindles R cs [] := ⟨[], List.nil_subperm, .nil⟩

omit [ScoredCursor C] in
lemma dwindles_self (h : ∀ c ∈ cs, R c c) : Dwindles R cs cs := ⟨cs, .refl cs, List.forall₂_same.mpr h⟩

omit [ScoredCursor C] in
lemma Dwindles.append (h₁ : Dwindles R cs cs') (h₂ : Dwindles R ds ds') : Dwindles R (cs ++ ds) (cs' ++ ds') := by
  obtain ⟨kept₁, hsub₁, hr₁⟩ := h₁
  obtain ⟨kept₂, hsub₂, hr₂⟩ := h₂
  exact ⟨kept₁ ++ kept₂, hsub₁.append hsub₂, List.rel_append hr₁ hr₂⟩

omit [ScoredCursor C] in
lemma Dwindles.perm (h : Dwindles R cs cs') (hp : cs.Perm ds) (hp' : cs'.Perm ds') : Dwindles R ds ds' := by
  obtain ⟨kept, hsub, hr⟩ := h
  obtain ⟨kept', hr', hkept⟩ := List.perm_comp_forall₂ hp'.symm hr.flip
  exact ⟨kept', (hkept.subperm.trans hsub).trans hp.subperm, hr'.flip⟩

omit [ScoredCursor C] in
lemma Dwindles.exists_of_mem (h : Dwindles R cs cs') {c' : C} (hc : c' ∈ cs') : ∃ c ∈ cs, R c c' := by
  obtain ⟨kept, hsub, hr⟩ := h
  obtain ⟨i, hi, rfl⟩ := List.mem_iff_getElem.mp hc
  have hlen := hr.length_eq
  exact ⟨kept[i], hsub.subset (List.getElem_mem _), hr.get (by omega) hi⟩

lemma dwindles_settle {behind : DocId → Bool} {move : C → Outcome C Unit} {c : C} (hsame : R c c)
    (hmoved : ∀ c', move c = .done c' () → R c c') : Dwindles R [c] (settle behind move c) := by
  rw [settle]
  split
  · split
    · next c' hm =>
      split
      · exact dwindles_nil _
      · exact ⟨[c], .refl _, .cons (hmoved c' hm) .nil⟩
    · exact dwindles_nil _
  · exact dwindles_self (List.forall_mem_singleton.mpr hsame)

lemma dwindles_flatMap_settle {behind : DocId → Bool} {move : C → Outcome C Unit} (hsame : ∀ c ∈ cs, R c c)
    (hmoved : ∀ c ∈ cs, ∀ c', move c = .done c' () → R c c') :
    Dwindles R cs (cs.flatMap (settle behind move)) := by
  induction cs with
  | nil => exact dwindles_nil _
  | cons c cs ih =>
    rw [List.forall_mem_cons] at hsame hmoved
    exact (dwindles_settle hsame.1 hmoved.1).append (ih hsame.2 hmoved.2)

end Dwindles

lemma eq_of_endsAt (he : d.doc = DocId.exhausted) (hn : d.children = []) (h : m.EndsAt d d') : d' = d := by
  rw [Move.EndsAt, apply_of_children_eq_nil he hn] at h
  obtain hm | ⟨e, hm⟩ := h
  · exact (Outcome.done.inj hm).1.symm
  · cases hm

variable [ForwardCursor C]

lemma IsSound.isInOrder (h : d.IsSound) : d.IsInOrder where
  isHeap := isHeap_iff.mpr h.ordered
  live := h.live
  doc_le := h.doc_le
  doc_eq_exhausted_iff := h.doc_eq_exhausted_iff
  asks_forward {m move} hne hf hmove := by
    rw [apply_eq_settled hne hf, moveLive_eq_settled]
    refine congrArg d.settled (moveFront_congr _ (h.onePass m) fun c hc hb => ?_).symm
    exact hmove c (h.live c hc) (Move.isForward_of_behind hb)

lemma IsSound.dwindles {R : C → C → Prop} (h : d.IsSound) (hm : m.EndsAt d d') (hsame : ∀ c ∈ d.children, R c c)
    (hdone : ∀ c ∈ d.children, ∀ c', m.apply c = .done c' () → R c c')
    (hfailed : ∀ c ∈ d.children, ∀ c' e, m.apply c = .failed c' e → m.apply d = .failed d' e → R c c') :
    Dwindles R d.children d'.children := by
  by_cases hn : d.children = []
  · rw [eq_of_endsAt (h.doc_eq_exhausted hn) hn hm]
    exact dwindles_self hsame
  have hpass := apply_eq_settled hn (isForward_of_endsAt hn hm)
  have hres := moveFront_result d.live.size d.live h.ordered (h.onePass m) List.countP_le_length
  rw [Move.EndsAt, hpass] at hm
  cases ho : moveFront (m.behind d.doc) m.apply d.live.size d.live with
  | done live u =>
    rw [ho] at hm hres
    obtain hm | ⟨e, hm⟩ := hm
    · obtain rfl := (Outcome.done.inj hm).1
      exact (dwindles_flatMap_settle hsame hdone).perm .rfl hres.2.symm
    · cases hm
  | failed live e =>
    rw [ho] at hm hres hpass
    obtain hm | ⟨e', hm⟩ := hm
    · cases hm
    · obtain rfl := (Outcome.failed.inj hm).1
      obtain ⟨c, front, moved, rest, hcs, -, hmc, -, -, hlive, -⟩ := hres
      have hmem : ∀ b ∈ c :: (moved ++ rest), b ∈ d.children := fun b hb => hcs.symm.subset hb
      simp only [List.forall_mem_cons, List.forall_mem_append] at hmem
      obtain ⟨hc, hmoved, hrest⟩ := hmem
      have hfront : Dwindles R [c] [front] := ⟨[c], .refl _, .cons (hfailed c hc front e hmc hpass) .nil⟩
      have hsettled : Dwindles R moved (moved.flatMap (settle (m.behind d.doc) m.apply)) :=
        dwindles_flatMap_settle (fun b hb => hsame b (hmoved b hb)) fun b hb => hdone b (hmoved b hb)
      have hstay : Dwindles R rest rest := dwindles_self fun b hb => hsame b (hrest b hb)
      exact (hfront.append (hsettled.append hstay)).perm hcs.symm hlive.symm
  | fault x =>
    rw [ho] at hm
    obtain hm | ⟨e, hm⟩ := hm <;> cases hm

def IsSettled (d : Disjunction C) : Prop := d.doc = frontDoc d.live

lemma IsSound.isSettled_of_done (h : d.IsSound) (hd : d.IsSettled) (hm : m.apply d = .done d' ()) : d'.IsSettled := by
  by_cases hn : d.children = []
  · exact eq_of_endsAt (h.doc_eq_exhausted hn) hn (.inl hm) ▸ hd
  · rw [apply_eq_settled hn (isForward_of_endsAt hn (.inl hm))] at hm
    cases ho : moveFront (m.behind d.doc) m.apply d.live.size d.live with
    | done live u =>
      rw [ho] at hm
      exact (Outcome.done.inj hm).1 ▸ rfl
    | failed live e =>
      rw [ho] at hm
      cases hm
    | fault x =>
      rw [ho] at hm
      cases hm

lemma IsSound.isSettled_of_next_failed {e : Error} (h : d.IsSound) (hm : Move.next.apply d = .failed d' e) :
    d'.IsSettled := by
  -- The child whose move failed is in front, on the document that it did not get off.
  obtain ⟨-, hdoc, c, -, front, hf, hb, -, hfc⟩ := h.apply_failed hm
  rw [IsSettled, frontDoc, hf, hdoc]
  exact (hfc.trans (beq_iff_eq.mp hb)).symm

lemma IsSound.matching_perm (h : d.IsSound) (hd : d.IsSettled) :
    d.matching.Perm (d.children.filter (DocCursor.doc · == d.doc)) := by
  cases hf : d.live.peek? with
  | none =>
    have hn : d.children = [] := peek?_eq_none_iff.mp hf
    have hmatching : d.matching = [] := if_pos (.inl (Heap.isEmpty_iff.mpr hn))
    rw [hmatching, hn, List.filter_nil]
  | some front =>
    have he : d.doc ≠ DocId.exhausted := fun he => by
      rw [peek?_eq_none_iff.mpr (h.doc_eq_exhausted_iff.mp he)] at hf
      cases hf
    have hfd : DocCursor.doc front = d.doc := by rw [hd, frontDoc, hf, Option.elim_some]
    exact matching_perm_of_front h.ordered h.doc_le he hf hfd

omit [ForwardCursor C] in
lemma isSettled_ofChildren {settings : UnionSettings} {children : List C} (h : ofChildren settings children = .ok d) :
    d.IsSettled := by
  obtain ⟨-, _, _, -, -, rfl⟩ := ofChildren_eq_ok_iff.mp h
  rfl

end Disjunction

namespace QueryCursor

open DocCursor RetriableCursor

def EveryUnion (P : (n : Nat) → Disjunction (QueryCursor n) → Prop) : {n : Nat} → QueryCursor n → Prop
  | 0, c => c.elim
  | _ + 1, .leaf _ => True
  | _ + 1, .unreliable u => EveryUnion P u.inner
  | n + 1, .union d => P n d ∧ ∀ c ∈ d.children, EveryUnion P c

/-- No union of the tree has more children than before, and those it has come from different ones of the earlier
ones. -/
def Shrinks : {n : Nat} → QueryCursor n → QueryCursor n → Prop
  | 0, c, _ => c.elim
  | _ + 1, .leaf _, .leaf _ => True
  | _ + 1, .unreliable u, .unreliable u' => Shrinks u.inner u'.inner
  | _ + 1, .union d, .union d' =>
    d'.live.size ≤ d.live.size ∧ Disjunction.Dwindles (fun c c' => Shrinks c c') d.children d'.children
  | _ + 1, _, _ => False

variable {n : Nat} {c c' : QueryCursor n} {m : Move}

lemma EveryUnion.imp {P Q : (n : Nat) → Disjunction (QueryCursor n) → Prop} (h : EveryUnion P c)
    (hPQ : ∀ n d, P n d → Q n d) : EveryUnion Q c := by
  induction n, c using inductionOn with
  | leaf n l => trivial
  | unreliable n u ih => exact ih h
  | union n d ih => exact ⟨hPQ n d h.1, fun c hc => ih c hc (h.2 c hc)⟩

lemma EveryUnion.and {P Q : (n : Nat) → Disjunction (QueryCursor n) → Prop} (hP : EveryUnion P c)
    (hQ : EveryUnion Q c) : EveryUnion (fun n d => P n d ∧ Q n d) c := by
  induction n, c using inductionOn with
  | leaf n l => trivial
  | unreliable n u ih => exact ih hP hQ
  | union n d ih => exact ⟨⟨hP.1, hQ.1⟩, fun c hc => ih c hc (hP.2 c hc) (hQ.2 c hc)⟩

lemma everyUnion_isSound (h : ForwardCursor.IsSound c) : EveryUnion (fun _ d => d.IsSound) c := by
  induction n, c using inductionOn with
  | leaf n l => trivial
  | unreliable n u ih => exact ih h
  | union n d ih =>
    have hd : d.IsSound := h
    exact ⟨hd, fun c hc => ih c hc (hd.sound c hc)⟩

lemma everyUnion_isInOrder (h : ForwardCursor.IsSound c) : EveryUnion (fun _ d => d.IsInOrder) c :=
  (everyUnion_isSound h).imp fun _ _ hd => hd.isInOrder

lemma shrinks_self (c : QueryCursor n) : Shrinks c c := by
  induction n, c using inductionOn with
  | leaf n l => trivial
  | unreliable n u ih => exact ih
  | union n d ih => exact ⟨le_rfl, Disjunction.dwindles_self ih⟩

lemma shrinks_of_endsAt (h : ForwardCursor.IsSound c) (hm : m.EndsAt c c') : Shrinks c c' := by
  induction n, c using inductionOn with
  | leaf n l =>
    obtain ⟨l', -, rfl⟩ := hm.of_mapState (Layer.apply_leaf m l)
    trivial
  | unreliable n u ih =>
    obtain ⟨u', hu, rfl⟩ := hm.of_mapState (Layer.apply_unreliable m u)
    rcases Unreliable.inner_of_endsAt hu with hsame | hinner
    · change Shrinks u.inner u'.inner
      rw [hsame]
      exact shrinks_self u.inner
    · exact ih h hinner
  | union n d ih =>
    obtain ⟨d', hd', rfl⟩ := hm.of_mapState (Layer.apply_union m d)
    have hd : d.IsSound := h
    have hdwindles := hd.dwindles hd' (fun c _ => shrinks_self c)
      (fun c hc c' hm => ih c hc (hd.sound c hc) (.inl hm))
      fun c hc c' e hm _ => ih c hc (hd.sound c hc) (.inr ⟨e, hm⟩)
    exact ⟨hdwindles.length_le, hdwindles⟩

/-- Whatever calls have been made of a tree of unions, and whichever of them have failed, every union in it is in order,
and no further call of the tree is a fault or adds a child to any union. -/
theorem unions_stay_in_order (hc : IsFallibleTree c) (hu : IsUnion c) (ha : Attempts c c') :
    EveryUnion (fun _ d => d.IsInOrder) c' ∧
      ∀ m : Move, (DocCursor.doc c' ≠ DocId.exhausted → m.IsForward (DocCursor.doc c')) →
        ∃ c'', m.EndsAt c' c'' ∧ EveryUnion (fun _ d => d.IsInOrder) c'' ∧ Shrinks c' c'' := by
  have hs := isSound_of_attempts hc.isSound ha
  refine ⟨everyUnion_isInOrder hs, fun m hf => ?_⟩
  obtain ⟨c'', hm⟩ : ∃ c'', m.EndsAt c' c'' := by
    cases hm : m.apply c' with
    | done c'' u => exact ⟨c'', .inl hm⟩
    | failed c'' e => exact ⟨c'', .inr ⟨e, hm⟩⟩
    | fault x => exact absurd hm ((hu.of_attempts ha).apply_ne_fault hs hf x)
  exact ⟨c'', hm, everyUnion_isInOrder (isSound_of_endsAt hs hm), shrinks_of_endsAt hs hm⟩

theorem unions_stay_in_order_after_failed_seek :
    ∃ (inner : Disjunction (QueryCursor 2)) (outer : Disjunction (QueryCursor 3)) (c : QueryCursor 4) (e : Error),
      Disjunction.ofChildren {} (brittlePair [0]) = .ok inner ∧
      Disjunction.ofChildren {} [union inner, leafOn #[2, 20] 1] = .ok outer ∧
      (Move.seek 10).apply (union outer) = .failed c e ∧ DocCursor.doc c = 1 ∧
      EveryUnion (fun _ d => d.IsInOrder) c ∧ ∃ c', Move.next.EndsAt c c' ∧ Shrinks c c' := by
  have hrun : ((Disjunction.ofChildren {} (brittlePair [0])).toOption.bind fun inner =>
      (Disjunction.ofChildren {} [union inner, leafOn #[2, 20] 1]).toOption.bind fun outer =>
        ((Move.seek 10).apply (union outer)).failed?.map fun (r : _ × Error) => DocCursor.doc r.1) = some 1 := by
    decide +kernel
  simp only [Option.bind_eq_some_iff, toOption_eq_some_iff, Option.map_eq_some_iff, Prod.exists,
    Outcome.failed?_eq_some_iff] at hrun
  obtain ⟨inner, hinner, outer, houter, c, e, hm, hdoc⟩ := hrun
  have htree : IsFallibleTree (union outer) := by
    refine .union ?_ houter
    simp only [List.mem_cons, List.not_mem_nil, or_false, forall_eq_or_imp, forall_eq]
    exact ⟨.union (isFallibleTree_brittlePair [0]) hinner, (isTree_leafOn (by decide) (by decide)).isFallibleTree⟩
  obtain ⟨horder, hcalls⟩ := unions_stay_in_order htree (.union outer) (Attempts.start.failed hm)
  obtain ⟨c', hc', -, hshrinks⟩ := hcalls .next fun _ => trivial
  exact ⟨inner, outer, c, e, hinner, houter, hm, hdoc, horder, c', hc', hshrinks⟩

lemma everyUnion_isSettled_union {children : List (QueryCursor n)} {settings : UnionSettings}
    {d : Disjunction (QueryCursor n)} (hc : ∀ c ∈ children, EveryUnion (fun _ d => d.IsSettled) c)
    (h : Disjunction.ofChildren settings children = .ok d) : EveryUnion (fun _ d => d.IsSettled) (union d) :=
  ⟨Disjunction.isSettled_ofChildren h, fun c hcd =>
    hc c (List.mem_of_mem_filter ((Disjunction.children_ofChildren h).subset hcd))⟩

lemma everyUnion_isSettled_of_done (h : ForwardCursor.IsSound c) (hc : EveryUnion (fun _ d => d.IsSettled) c)
    (hm : m.apply c = .done c' ()) : EveryUnion (fun _ d => d.IsSettled) c' := by
  induction n, c using inductionOn with
  | leaf n l =>
    obtain ⟨l', -, rfl⟩ := Outcome.mapState_eq_done ((Layer.apply_leaf m l).symm.trans hm)
    trivial
  | unreliable n u ih =>
    obtain ⟨u', hu, rfl⟩ := Outcome.mapState_eq_done ((Layer.apply_unreliable m u).symm.trans hm)
    obtain ⟨inner, hinner, rfl⟩ := Unreliable.exists_of_apply_done hu
    exact ih h hc hinner
  | union n d ih =>
    obtain ⟨d', hd', rfl⟩ := Outcome.mapState_eq_done ((Layer.apply_union m d).symm.trans hm)
    have hd : d.IsSound := h
    refine ⟨hd.isSettled_of_done hc.1 hd', fun b' hb' => ?_⟩
    have hdwindles := hd.dwindles (R := fun b b' => EveryUnion (fun _ d => d.IsSettled) b →
      EveryUnion (fun _ d => d.IsSettled) b') (.inl hd') (fun b _ hb => hb)
      (fun b hb b' hm hsettled => ih b hb (hd.sound b hb) hsettled hm) fun b hb b' e hm hfailed => by
        rw [hd'] at hfailed
        cases hfailed
    obtain ⟨b, hb, hsettles⟩ := hdwindles.exists_of_mem hb'
    exact hsettles (hc.2 b hb)

lemma everyUnion_isSettled_of_next_failed {e : Error} (h : ForwardCursor.IsSound c)
    (hc : EveryUnion (fun _ d => d.IsSettled) c) (hm : Move.next.apply c = .failed c' e) :
    EveryUnion (fun _ d => d.IsSettled) c' := by
  induction n, c using inductionOn generalizing e with
  | leaf n l =>
    obtain ⟨l', -, rfl⟩ := Outcome.mapState_eq_failed ((Layer.apply_leaf .next l).symm.trans hm)
    trivial
  | unreliable n u ih =>
    obtain ⟨u', hu, rfl⟩ := Outcome.mapState_eq_failed ((Layer.apply_unreliable .next u).symm.trans hm)
    cases ho : u.outages u.calls with
    | some e =>
      rw [Unreliable.apply_of_some ho] at hu
      obtain rfl := (Outcome.failed.inj hu).1
      exact hc
    | none =>
      obtain ⟨inner, hinner, rfl⟩ := Outcome.mapState_eq_failed ((Unreliable.apply_of_none ho).symm.trans hu)
      exact ih h hc hinner
  | union n d ih =>
    obtain ⟨d', hd', rfl⟩ := Outcome.mapState_eq_failed ((Layer.apply_union .next d).symm.trans hm)
    have hd : d.IsSound := h
    refine ⟨hd.isSettled_of_next_failed hd', fun b' hb' => ?_⟩
    have hdwindles := hd.dwindles (R := fun b b' => EveryUnion (fun _ d => d.IsSettled) b →
      EveryUnion (fun _ d => d.IsSettled) b') (.inr ⟨e, hd'⟩) (fun b _ hb => hb)
      (fun b hb b' hm hsettled => everyUnion_isSettled_of_done (hd.sound b hb) hsettled hm)
      fun b hb b' e hm _ hsettled => ih b hb (hd.sound b hb) hsettled hm
    obtain ⟨b, hb, hsettles⟩ := hdwindles.exists_of_mem hb'
    exact hsettles (hc.2 b hb)

end QueryCursor

end InvertedIndex
