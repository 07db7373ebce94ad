import InvertedIndex.Proofs.Cursor.Tree

namespace InvertedIndex

namespace Disjunction

open Heap

variable {C : Type} [ScoredCursor C] {d d' : Disjunction C} {m : Move} {e : Error}

lemma apply_seek_behind {target : DocId} (hne : d.children ≠ []) (hlt : target < d.doc) :
    (Move.seek target).apply d = .fault (.docSeekBehind target d.doc) := by
  have hemp : d.live.isEmpty = false := Bool.eq_false_iff.mpr (mt isEmpty_iff.mp hne)
  simp [Move.apply, DocCursor.seek, seek, hemp, hlt]

lemma isForward_of_apply (hne : d.children ≠ []) (h : ∀ x, m.apply d ≠ .fault x) : m.IsForward d.doc := by
  cases m with
  | next => trivial
  | seek target =>
    by_contra hlt
    exact h _ (apply_seek_behind hne (UInt64.not_le.mp hlt))

lemma isForward_of_endsAt (hne : d.children ≠ []) (h : m.EndsAt d d') : m.IsForward d.doc :=
  isForward_of_apply hne fun x hx => by
    rw [Move.EndsAt, hx] at h
    obtain hm | ⟨e, hm⟩ := h <;> cases hm

variable [ForwardCursor C]

/-- Every child is on a document, and none on one before that of the union. After a failed move all of them may be
behind it. -/
structure IsSound (d : Disjunction C) : Prop where
  ordered : d.live.IsOrdered docBefore
  sound : ∀ c ∈ d.children, ForwardCursor.IsSound c
  live : ∀ c ∈ d.children, DocCursor.doc c ≠ DocId.exhausted
  doc_le : ∀ c ∈ d.children, d.doc ≤ DocCursor.doc c
  doc_eq_exhausted : d.children = [] → d.doc = DocId.exhausted

lemma IsSound.doc_eq_exhausted_iff (h : d.IsSound) : d.doc = DocId.exhausted ↔ d.children = [] := by
  refine ⟨fun he => List.eq_nil_iff_forall_not_mem.mpr fun c hc => ?_, h.doc_eq_exhausted⟩
  have hle := h.doc_le c hc
  rw [he] at hle
  exact h.live c hc (UInt64.le_antisymm (DocId.le_exhausted _) hle)

lemma IsSound.of_frontDoc (hd : d.doc = frontDoc d.live) (ho : d.live.IsOrdered docBefore)
    (hs : ∀ c ∈ d.children, ForwardCursor.IsSound c ∧ DocCursor.doc c ≠ DocId.exhausted) : d.IsSound where
  ordered := ho
  sound c hc := (hs c hc).1
  live c hc := (hs c hc).2
  doc_le _ hc := hd ▸ frontDoc_le ho hc
  doc_eq_exhausted hn := by
    rw [hd, frontDoc, peek?_eq_none_iff.mpr hn]
    rfl

lemma IsSound.child_goes (h : d.IsSound) {c : C} (hc : c ∈ d.children) (hb : m.behind d.doc (DocCursor.doc c) = true) :
    m.Goes ForwardCursor.IsSound (DocCursor.doc c) (m.apply c) :=
  ForwardCursor.goes (h.sound c hc) (h.live c hc) (Move.isForward_of_behind hb)

lemma IsSound.onePass (h : d.IsSound) (m : Move) : OnePass (m.behind d.doc) m.apply d.doc d.children :=
  onePass_of_goes h.doc_le fun _ => h.child_goes

lemma IsSound.of_settle (h : d.IsSound) {b c : C} (hb : b ∈ d.children)
    (hc : c ∈ settle (m.behind d.doc) m.apply b) :
    (ForwardCursor.IsSound c ∧ DocCursor.doc c ≠ DocId.exhausted) ∧ d.doc ≤ DocCursor.doc c ∧
      m.keeps d.doc (DocCursor.doc c) = true := by
  have hkeeps (hnb : m.behind d.doc (DocCursor.doc c) = false) (hle : d.doc ≤ DocCursor.doc c) :
      m.keeps d.doc (DocCursor.doc c) = true := by
    rwa [Move.behind_eq_not_keeps hle, Bool.not_eq_false'] at hnb
  rcases mem_settle hc with ⟨hnb, rfl⟩ | ⟨hbb, hm, hx⟩
  · exact ⟨⟨h.sound c hb, h.live c hb⟩, h.doc_le c hb, hkeeps hnb (h.doc_le c hb)⟩
  · have hgoes := h.child_goes hb hbb
    rw [hm] at hgoes
    obtain ⟨hnb, hle⟩ := Move.passes_of_keeps hbb (h.doc_le b hb) hgoes.2
    exact ⟨⟨hgoes.1, mt DocCursor.isExhausted_iff.mpr (Bool.eq_false_iff.mp hx)⟩, hle, hkeeps hnb hle⟩

lemma IsSound.of_failsOn (h : d.IsSound) {live : Heap C} (hf : FailsOn (m.behind d.doc) m.apply d.children live e) :
    IsSound { d with live := live } ∧ ∃ c ∈ d.children, ∃ front, live.peek? = some front ∧
      m.behind d.doc (DocCursor.doc c) = true ∧ m.apply c = .failed front e ∧
      DocCursor.doc front = DocCursor.doc c := by
  obtain ⟨c, front, moved, rest, hcs, hb, hmc, -, hfront, hlive, hord⟩ := hf
  have hmem : c ∈ d.children := hcs.symm.subset List.mem_cons_self
  have hmoved : ∀ b ∈ moved ++ rest, b ∈ d.children := fun b hb => hcs.symm.subset (List.mem_cons_of_mem c hb)
  have hgoes := h.child_goes hmem hb
  rw [hmc] at hgoes
  obtain ⟨hsound, hdoc⟩ := hgoes
  have hall : ∀ a ∈ live.toList,
      (ForwardCursor.IsSound a ∧ DocCursor.doc a ≠ DocId.exhausted) ∧ d.doc ≤ DocCursor.doc a := by
    intro a ha
    rcases List.mem_cons.mp (hlive.subset ha) with rfl | ha
    · rw [hdoc]
      exact ⟨⟨hsound, h.live c hmem⟩, h.doc_le c hmem⟩
    rcases List.mem_append.mp ha with ha | ha
    · obtain ⟨b, hbm, hab⟩ := List.mem_flatMap.mp ha
      obtain ⟨hs, hle, -⟩ := h.of_settle (hmoved b (List.mem_append_left _ hbm)) hab
      exact ⟨hs, hle⟩
    · have hac := hmoved a (List.mem_append_right _ ha)
      exact ⟨⟨h.sound a hac, h.live a hac⟩, h.doc_le a hac⟩
  refine ⟨⟨hord hdoc, fun a ha => (hall a ha).1.1, fun a ha => (hall a ha).1.2, fun a ha => (hall a ha).2,
    fun hn => ?_⟩, c, hmem, front, hfront, hb, hmc, hdoc⟩
  rw [peek?_eq_none_iff.mpr hn] at hfront
  cases hfront

lemma IsSound.apply_failed (h : d.IsSound) (hm : m.apply d = .failed d' e) :
    d'.IsSound ∧ d'.doc = d.doc ∧ ∃ c ∈ d.children, ∃ front, d'.live.peek? = some front ∧
      m.behind d.doc (DocCursor.doc c) = true ∧ m.apply c = .failed front e ∧
      DocCursor.doc front = DocCursor.doc c := by
  have hne : d.children ≠ [] := by
    intro hn
    rw [apply_of_children_eq_nil (h.doc_eq_exhausted hn) hn] at hm
    cases hm
  have hf := isForward_of_endsAt hne (.inr ⟨e, hm⟩)
  rw [apply_eq_moveLive hne hf, moveLive_eq_failed_iff] at hm
  obtain ⟨live, ho, rfl⟩ := hm
  have hres := moveFront_result d.live.size d.live h.ordered (h.onePass m) List.countP_le_length
  rw [ho] at hres
  obtain ⟨hsound, hchild⟩ := h.of_failsOn hres
  exact ⟨hsound, rfl, hchild⟩

lemma IsSound.goes (h : d.IsSound) (he : d.doc ≠ DocId.exhausted) (hf : m.IsForward d.doc) :
    m.Goes IsSound d.doc (m.apply d) := by
  have hne : d.children ≠ [] := mt h.doc_eq_exhausted he
  have hres := moveFront_result d.live.size d.live h.ordered (h.onePass m) List.countP_le_length
  rw [apply_eq_moveLive hne hf, moveLive]
  cases ho : moveFront (m.behind d.doc) m.apply d.live.size d.live with
  | done live u =>
    rw [ho] at hres
    obtain ⟨hord, hperm⟩ := hres
    have hall : ∀ c ∈ live.toList, (ForwardCursor.IsSound c ∧ DocCursor.doc c ≠ DocId.exhausted) ∧
        m.keeps d.doc (DocCursor.doc c) = true := by
      intro c hc
      obtain ⟨b, hb, hcb⟩ := List.mem_flatMap.mp (hperm.subset hc)
      obtain ⟨hs, -, hk⟩ := h.of_settle hb hcb
      exact ⟨hs, hk⟩
    refine ⟨.of_frontDoc rfl hord fun c hc => (hall c hc).1, ?_⟩
    change m.keeps d.doc (frontDoc live) = true
    rw [frontDoc]
    cases hfront : live.peek? with
    | none => exact Move.keeps_exhausted he
    | some front =>
      obtain ⟨others, hlive⟩ := peek?_eq_some_iff.mp hfront
      exact (hall front (by simp [hlive])).2
  | failed live e =>
    rw [ho] at hres
    exact ⟨(h.of_failsOn hres).1, rfl⟩
  | fault x =>
    rw [ho] at hres
    obtain ⟨c, hc, hb, hmc⟩ := hres
    have hgoes := h.child_goes hc hb
    rw [hmc] at hgoes
    exact hgoes

instance : ForwardCursor (Disjunction C) where
  IsSound := IsSound
  goes h he hf := h.goes he hf

lemma isSound_ofChildren {settings : UnionSettings} {children : List C} (hc : ∀ c ∈ children, ForwardCursor.IsSound c)
    (h : ofChildren settings children = .ok d) : d.IsSound := by
  have hperm := children_ofChildren h
  obtain ⟨-, _, _, rfl, -, rfl⟩ := ofChildren_eq_ok_iff.mp h
  refine .of_frontDoc rfl (ofArray_isOrdered docBefore_isWeakOrder _) fun c hcd => ?_
  have hmem := List.mem_filter.mp (hperm.subset hcd)
  exact ⟨hc c hmem.1, by simpa [DocCursor.isExhausted] using hmem.2⟩

end Disjunction

namespace Unreliable

variable {C : Type} [ScoredCursor C]

lemma apply_eq (m : Move) (u : Unreliable C) : m.apply u = u.attempt m.apply := by
  cases m <;> rfl

instance [ForwardCursor C] : ForwardCursor (Unreliable C) where
  IsSound u := ForwardCursor.IsSound u.inner
  goes {u m} h he hf := by
    rw [apply_eq, attempt]
    cases u.outages u.calls with
    | some e => exact ⟨h, rfl⟩
    | none => exact (ForwardCursor.goes h he hf).mapState (fun _ hc => hc) fun _ => rfl

end Unreliable

namespace Layer

variable {C : Type} [ScoredCursor C]

lemma apply_unreliable (m : Move) (u : Unreliable C) :
    m.apply (.unreliable u : Layer C) = (m.apply u).mapState .unreliable := by
  cases m <;> rfl

variable [ForwardCursor C]

def IsSound : Layer C → Prop
  | .leaf l => FaithfulCursor.IsValid l
  | .unreliable u => ForwardCursor.IsSound u
  | .union d => ForwardCursor.IsSound d

instance : ForwardCursor (Layer C) where
  IsSound := IsSound
  goes {c m} h he hf := by
    cases c with
    | leaf l =>
      rw [apply_leaf]
      exact (FaithfulCursor.goes (C := Leaf) h he hf).mapState (fun _ hl => hl) fun _ => rfl
    | unreliable u =>
      rw [apply_unreliable]
      exact (ForwardCursor.goes (C := Unreliable C) h he hf).mapState (fun _ hu => hu) fun _ => rfl
    | union d =>
      rw [apply_union]
      exact (ForwardCursor.goes (C := Disjunction C) h he hf).mapState (fun _ hd => hd) fun _ => rfl

end Layer

namespace QueryCursor

instance : ForwardCursor Empty where
  IsSound := nofun
  goes {c} := c.elim

instance forwardCursor : (height : Nat) → ForwardCursor (QueryCursor height)
  | 0 => inferInstanceAs (ForwardCursor Empty)
  | height + 1 =>
    have := forwardCursor height
    inferInstanceAs (ForwardCursor (Layer (QueryCursor height)))

def unreliable {n : Nat} (u : Unreliable (QueryCursor n)) : QueryCursor (n + 1) := Layer.unreliable u

@[elab_as_elim]
lemma inductionOn {motive : (n : Nat) → QueryCursor n → Prop} (leaf : ∀ n l, motive (n + 1) (leaf l))
    (unreliable : ∀ n u, motive n u.inner → motive (n + 1) (unreliable u))
    (union : ∀ n d, (∀ c ∈ d.children, motive n c) → motive (n + 1) (union d)) (n : Nat) (c : QueryCursor n) :
    motive n c := by
  induction n with
  | zero => exact c.elim
  | succ n ih =>
    cases c with
    | leaf l => exact leaf n l
    | unreliable u => exact unreliable n u (ih u.inner)
    | union d => exact union n d fun c _ => ih c

end QueryCursor

end InvertedIndex
