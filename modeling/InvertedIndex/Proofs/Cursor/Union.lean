import InvertedIndex.Proofs.Count
import InvertedIndex.Proofs.Cursor.Forward
import InvertedIndex.Proofs.Cursor.Front

namespace InvertedIndex

def Move.behind (m : Move) (current x : DocId) : Bool :=
  match m with
  | .next => x == current
  | .seek target => x < target

lemma Move.behind_eq_not_keeps {m : Move} {current x : DocId} (h : current ≤ x) :
    m.behind current x = !m.keeps current x := by
  cases m <;> grind [Move.behind, Move.keeps]

lemma Move.isForward_of_behind {m : Move} {current x : DocId} (h : m.behind current x = true) : m.IsForward x := by
  cases m <;> grind [Move.IsForward, Move.behind]

lemma Move.passes_of_keeps {m : Move} {current x y : DocId} (hb : m.behind current x = true) (hle : current ≤ x)
    (hk : m.keeps x y = true) : m.behind current y = false ∧ current ≤ y := by
  cases m <;> grind [Move.behind, Move.keeps]

namespace Disjunction

open Heap FaithfulCursor

variable {C : Type} [ScoredCursor C]

lemma apply_eq_moveLive {d : Disjunction C} {m : Move} (hne : d.children ≠ []) (hf : m.IsForward d.doc) :
    m.apply d = d.moveLive (m.behind d.doc) m.apply := by
  have hemp : d.live.isEmpty = false := by
    rw [Bool.eq_false_iff]
    exact mt isEmpty_iff.mp hne
  cases m with
  | next => simp only [Move.apply, DocCursor.next, next, hemp, Bool.false_eq_true, if_false]; rfl
  | seek target =>
    have hnb : ¬ target < d.doc := UInt64.not_lt.mpr hf
    simp only [Move.apply, DocCursor.seek, seek, hemp, hnb, Bool.false_eq_true, if_false]
    rfl

lemma moveLive_eq_failed_iff {d d' : Disjunction C} {behind : DocId → Bool} {move : C → Outcome C Unit} {e : Error} :
    d.moveLive behind move = .failed d' e ↔
      ∃ live, moveFront behind move d.live.size d.live = .failed live e ∧ { d with live := live } = d' := by
  rw [moveLive]
  cases moveFront behind move d.live.size d.live with
  | done live u => simp
  | failed live e' => simp [and_comm]
  | fault x => simp

lemma apply_of_children_eq_nil {d : Disjunction C} (he : d.doc = DocId.exhausted) (hn : d.children = []) (m : Move) :
    m.apply d = .done d () := by
  have hemp : d.live.isEmpty = true := isEmpty_iff.mpr hn
  have hx : d.exhaust = d := by rw [exhaust, ← he]
  cases m <;> simp [Move.apply, DocCursor.next, DocCursor.seek, next, seek, hemp, hx]

lemma onePass_of_goes {P : C → Prop} {m : Move} {current : DocId} {cs : List C}
    (hle : ∀ c ∈ cs, current ≤ DocCursor.doc c)
    (hg : ∀ c ∈ cs, m.behind current (DocCursor.doc c) = true → m.Goes P (DocCursor.doc c) (m.apply c)) :
    OnePass (m.behind current) m.apply current cs := by
  refine ⟨hle, fun x y hx hxy hb => ?_, fun c hc hb c' hm => ?_⟩
  · cases m <;> grind [Move.behind]
  · have hgoes := hg c hc hb
    rw [hm] at hgoes
    exact Move.passes_of_keeps hb (hle c hc) hgoes.2

lemma frontDoc_le {live : Heap C} (ho : live.IsOrdered docBefore) {c : C} (hc : c ∈ live.toList) :
    frontDoc live ≤ DocCursor.doc c := by
  rw [frontDoc]
  cases hf : live.peek? with
  | none =>
    rw [peek?_eq_none_iff.mp hf] at hc
    cases hc
  | some front => exact docBefore_eq_false_iff.mp (peek?_least docBefore_isWeakOrder ho hf hc)

lemma ofChildren_eq_ok_iff {settings : UnionSettings} {children : List C} {d : Disjunction C} :
    ofChildren settings children = .ok d ↔
      settings.IsValid ∧ ∃ live cost,
        live = Heap.ofArray docBefore (children.filter (!DocCursor.isExhausted ·)).toArray ∧
        Count.sum ((children.filter (!DocCursor.isExhausted ·)).map DocCursor.cost) = .ok cost ∧
        d = { live := live, tieBreaker := settings.tieBreaker, doc := frontDoc live, cost := cost } := by
  rw [ofChildren]
  by_cases hs : settings.IsValid
  · simp only [UnionSettings.validate, if_pos hs]
    cases Count.sum ((children.filter (!DocCursor.isExhausted ·)).map DocCursor.cost) with
    | error x => exact ⟨nofun, nofun⟩
    | ok cost =>
      constructor
      · exact fun h => ⟨hs, _, cost, rfl, rfl, (Except.ok.inj h).symm⟩
      · rintro ⟨-, _, _, rfl, ⟨⟩, rfl⟩
        rfl
  · simp only [UnionSettings.validate, if_neg hs]
    exact ⟨nofun, fun h => absurd h.1 hs⟩

lemma ofChildren_eq_ok {settings : UnionSettings} {children : List C} (hs : settings.IsValid)
    (hcost : Count.total ((children.filter (!DocCursor.isExhausted ·)).map fun c => (DocCursor.cost c).toNat) <
      UInt64.size) : ∃ d, ofChildren settings children = .ok d := by
  have hsum : Count.total (((children.filter (!DocCursor.isExhausted ·)).map DocCursor.cost).map UInt64.toNat) <
      UInt64.size := by rwa [List.map_map]
  exact ⟨_, ofChildren_eq_ok_iff.mpr ⟨hs, _, _, rfl, Count.sum_eq_ok hsum, rfl⟩⟩

lemma exists_ofChildren_of_perm {settings : UnionSettings} {children children₂ : List C} {d : Disjunction C}
    (h : ofChildren settings children = .ok d) (hp : children.Perm children₂) :
    ∃ d₂, ofChildren settings children₂ = .ok d₂ := by
  obtain ⟨hs, -, cost, -, hsum, -⟩ := ofChildren_eq_ok_iff.mp h
  rw [Count.sum_perm ((hp.filter _).map _)] at hsum
  exact ⟨_, ofChildren_eq_ok_iff.mpr ⟨hs, _, cost, rfl, hsum, rfl⟩⟩

lemma children_ofChildren {settings : UnionSettings} {children : List C} {d : Disjunction C}
    (h : ofChildren settings children = .ok d) :
    d.children.Perm (children.filter (!DocCursor.isExhausted ·)) := by
  obtain ⟨-, _, _, rfl, -, rfl⟩ := ofChildren_eq_ok_iff.mp h
  exact ofArray_perm docBefore _

variable [FaithfulCursor C]

structure IsValid (d : Disjunction C) : Prop where
  ordered : d.live.IsOrdered docBefore
  valid : ∀ c ∈ d.children, FaithfulCursor.IsValid c
  live : ∀ c ∈ d.children, DocCursor.doc c ≠ DocId.exhausted
  doc_eq : d.doc = frontDoc d.live

def documents (d : Disjunction C) : List DocId := d.children.flatMap FaithfulCursor.documents

lemma mem_documents {d : Disjunction C} {x : DocId} :
    x ∈ d.documents ↔ ∃ c ∈ d.children, x ∈ FaithfulCursor.documents c := List.mem_flatMap

lemma IsValid.doc_le {d : Disjunction C} (h : d.IsValid) {c : C} (hc : c ∈ d.children) : d.doc ≤ DocCursor.doc c :=
  h.doc_eq ▸ frontDoc_le h.ordered hc

lemma IsValid.exists_on_doc {d : Disjunction C} (h : d.IsValid) (hne : d.children ≠ []) :
    ∃ c ∈ d.children, DocCursor.doc c = d.doc := by
  rw [h.doc_eq, frontDoc]
  cases hf : d.live.peek? with
  | none => exact absurd (peek?_eq_none_iff.mp hf) hne
  | some front =>
    obtain ⟨others, hlive⟩ := peek?_eq_some_iff.mp hf
    exact ⟨front, by simp [children, hlive], rfl⟩

lemma IsValid.doc_eq_exhausted_iff {d : Disjunction C} (h : d.IsValid) :
    d.doc = DocId.exhausted ↔ d.children = [] := by
  constructor
  · intro he
    by_contra hne
    obtain ⟨c, hc, hd⟩ := h.exists_on_doc hne
    exact h.live c hc (hd.trans he)
  · intro hn
    rw [h.doc_eq, frontDoc, peek?_eq_none_iff.mpr hn]
    rfl

lemma child_apply_done {d : Disjunction C} (h : d.IsValid) {m : Move} {c : C} (hc : c ∈ d.children)
    (hb : m.behind d.doc (DocCursor.doc c) = true) :
    ∃ c', m.apply c = .done c' () ∧ FaithfulCursor.IsValid c' ∧
      ∀ x, x ∈ FaithfulCursor.documents c' ↔ x ∈ FaithfulCursor.documents c ∧ m.keeps d.doc x = true := by
  obtain ⟨c', hm, hv, hmem⟩ := apply_done (h.valid c hc) (h.live c hc) (Move.isForward_of_behind hb)
  refine ⟨c', hm, hv, fun x => (hmem x).trans ?_⟩
  cases m with
  | next => rw [beq_iff_eq.mp hb]
  | seek target => rfl

lemma child_onePass {d : Disjunction C} (h : d.IsValid) (m : Move) :
    OnePass (m.behind d.doc) m.apply d.doc d.children :=
  onePass_of_goes (fun _ => h.doc_le) fun c hc hb =>
    FaithfulCursor.goes (h.valid c hc) (h.live c hc) (Move.isForward_of_behind hb)

lemma settle_spec {d : Disjunction C} (h : d.IsValid) (m : Move) {c : C} (hc : c ∈ d.children) :
    (∀ c' ∈ settle (m.behind d.doc) m.apply c,
      FaithfulCursor.IsValid c' ∧ DocCursor.doc c' ≠ DocId.exhausted) ∧
    ∀ x, (∃ c' ∈ settle (m.behind d.doc) m.apply c, x ∈ FaithfulCursor.documents c') ↔
      x ∈ FaithfulCursor.documents c ∧ m.keeps d.doc x = true := by
  by_cases hb : m.behind d.doc (DocCursor.doc c) = true
  · obtain ⟨c', hm, hv, hmem⟩ := child_apply_done h hc hb
    by_cases he : DocCursor.doc c' = DocId.exhausted
    · have hs : settle (m.behind d.doc) m.apply c = [] := by simp [settle, hb, hm, DocCursor.isExhausted_iff, he]
      have hnone := (FaithfulCursor.doc_eq_exhausted_iff hv).mp he
      rw [hs]
      refine ⟨fun c'' hc'' => absurd hc'' List.not_mem_nil, fun x => ?_⟩
      rw [← hmem]
      simpa using hnone x
    · have hs : settle (m.behind d.doc) m.apply c = [c'] := by simp [settle, hb, hm, DocCursor.isExhausted_iff, he]
      rw [hs]
      refine ⟨fun c'' hc'' => ?_, fun x => ?_⟩
      · obtain rfl := List.mem_singleton.mp hc''
        exact ⟨hv, he⟩
      · simpa using hmem x
  · rw [Bool.not_eq_true] at hb
    rw [settle_of_not_behind hb]
    refine ⟨fun c' hc' => ?_, fun x => ?_⟩
    · obtain rfl := List.mem_singleton.mp hc'
      exact ⟨h.valid c' hc, h.live c' hc⟩
    · simp only [List.mem_singleton, exists_eq_left, iff_self_and]
      intro hx
      have hle := FaithfulCursor.doc_le (h.valid c hc) hx
      have hdc := h.doc_le hc
      cases m <;> grind [Move.behind, Move.keeps]

lemma apply_settles {d : Disjunction C} (h : d.IsValid) (hne : d.children ≠ []) {m : Move} (hf : m.IsForward d.doc) :
    ∃ live, m.apply d = .done { d with live := live, doc := frontDoc live } () ∧ live.IsOrdered docBefore ∧
      live.toList.Perm (d.children.flatMap (settle (m.behind d.doc) m.apply)) := by
  have hlimit : d.children.countP (fun c => m.behind d.doc (DocCursor.doc c)) ≤ d.live.size := List.countP_le_length
  have hres := moveFront_result d.live.size d.live h.ordered (child_onePass h m) hlimit
  rw [apply_eq_moveLive hne hf, moveLive]
  cases ho : moveFront (m.behind d.doc) m.apply d.live.size d.live with
  | done live u =>
    rw [ho] at hres
    exact ⟨live, rfl, hres⟩
  | failed live e =>
    rw [ho] at hres
    obtain ⟨c, c', moved, rest, hperm, hb, hmc, -⟩ := hres
    obtain ⟨c'', hm, -⟩ := child_apply_done h (hperm.symm.subset List.mem_cons_self) hb
    rw [hm] at hmc
    cases hmc
  | fault x =>
    rw [ho] at hres
    obtain ⟨c, hc, hb, hmc⟩ := hres
    obtain ⟨c'', hm, -⟩ := child_apply_done h hc hb
    rw [hm] at hmc
    cases hmc

lemma IsValid.apply_done {d : Disjunction C} (h : d.IsValid) {m : Move}
    (hf : d.doc ≠ DocId.exhausted → m.IsForward d.doc) :
    ∃ d', m.apply d = .done d' () ∧ d'.IsValid ∧
      ∀ x, x ∈ d'.documents ↔ x ∈ d.documents ∧ m.keeps d.doc x = true := by
  by_cases hn : d.children = []
  · refine ⟨d, apply_of_children_eq_nil (h.doc_eq_exhausted_iff.mpr hn) hn m, h, fun x => ?_⟩
    simp [documents, hn]
  · obtain ⟨live, hm, hord, hperm⟩ := apply_settles h hn (hf (mt h.doc_eq_exhausted_iff.mp hn))
    have hspec := fun c hc => settle_spec h m (c := c) hc
    refine ⟨_, hm, ⟨hord, fun c hc => ?_, fun c hc => ?_, rfl⟩, fun x => ?_⟩
    · obtain ⟨b, hb, hcb⟩ := List.mem_flatMap.mp (hperm.subset hc)
      exact ((hspec b hb).1 c hcb).1
    · obtain ⟨b, hb, hcb⟩ := List.mem_flatMap.mp (hperm.subset hc)
      exact ((hspec b hb).1 c hcb).2
    · rw [mem_documents, mem_documents]
      constructor
      · rintro ⟨c, hc, hx⟩
        obtain ⟨b, hb, hcb⟩ := List.mem_flatMap.mp (hperm.subset hc)
        obtain ⟨hxb, hk⟩ := ((hspec b hb).2 x).mp ⟨c, hcb, hx⟩
        exact ⟨⟨b, hb, hxb⟩, hk⟩
      · rintro ⟨⟨b, hb, hxb⟩, hk⟩
        obtain ⟨c, hcb, hx⟩ := ((hspec b hb).2 x).mpr ⟨hxb, hk⟩
        exact ⟨c, hperm.symm.subset (List.mem_flatMap.mpr ⟨b, hb, hcb⟩), hx⟩

lemma documents_length_le (cs : List C) (h : ∀ c ∈ cs, FaithfulCursor.IsValid c) :
    (cs.flatMap FaithfulCursor.documents).length ≤ Count.total (cs.map DocCursor.bound) := by
  induction cs with
  | nil => exact Nat.le_refl 0
  | cons c cs ih =>
    have hc := length_le_bound (h c List.mem_cons_self)
    have hcs := ih fun d hd => h d (List.mem_cons_of_mem c hd)
    simp only [List.flatMap_cons, List.length_append, Count.total, List.map_cons, List.foldr_cons] at hcs ⊢
    omega

instance : FaithfulCursor (Disjunction C) where
  IsValid := IsValid
  documents := documents
  doc_mem {d} h he := by
    obtain ⟨c, hc, hd⟩ := h.exists_on_doc (mt h.doc_eq_exhausted_iff.mpr he)
    refine mem_documents.mpr ⟨c, hc, ?_⟩
    change d.doc ∈ _
    rw [← hd]
    exact doc_mem (h.valid c hc) (h.live c hc)
  doc_le {d x} h hx := by
    obtain ⟨c, hc, hxc⟩ := mem_documents.mp hx
    exact UInt64.le_trans (h.doc_le hc) (FaithfulCursor.doc_le (h.valid c hc) hxc)
  exhausted_notMem {d} h hx := by
    obtain ⟨c, hc, hxc⟩ := mem_documents.mp hx
    exact exhausted_notMem (h.valid c hc) hxc
  length_le_bound {d} h := Nat.le_succ_of_le (documents_length_le d.children h.valid)
  apply_done h _ hf := h.apply_done fun _ => hf

lemma isValid_ofChildren {settings : UnionSettings} {children : List C} {d : Disjunction C}
    (hc : ∀ c ∈ children, FaithfulCursor.IsValid c) (h : ofChildren settings children = .ok d) : d.IsValid := by
  have hperm := children_ofChildren h
  obtain ⟨-, _, _, rfl, -, rfl⟩ := ofChildren_eq_ok_iff.mp h
  refine ⟨ofArray_isOrdered docBefore_isWeakOrder _, fun c hcd => ?_, fun c hcd => ?_, rfl⟩
  · exact hc c (List.mem_of_mem_filter (hperm.subset hcd))
  · have hne := List.of_mem_filter (hperm.subset hcd)
    simpa [DocCursor.isExhausted] using hne

lemma mem_documents_ofChildren {settings : UnionSettings} {children : List C} {d : Disjunction C}
    (hc : ∀ c ∈ children, FaithfulCursor.IsValid c) (h : ofChildren settings children = .ok d) (x : DocId) :
    x ∈ d.documents ↔ ∃ c ∈ children, x ∈ FaithfulCursor.documents c := by
  have hperm := children_ofChildren h
  rw [mem_documents]
  constructor
  · rintro ⟨c, hcd, hx⟩
    exact ⟨c, List.mem_of_mem_filter (hperm.subset hcd), hx⟩
  · rintro ⟨c, hcc, hx⟩
    exact ⟨c, hperm.symm.subset (List.mem_filter.mpr ⟨hcc, not_isExhausted_of_mem (hc c hcc) hx⟩), hx⟩

end Disjunction

end InvertedIndex
