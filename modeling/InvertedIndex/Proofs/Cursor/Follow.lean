import InvertedIndex.Proofs.Cursor.Stream
import Mathlib.Data.List.Perm.Basic

namespace InvertedIndex

open FaithfulCursor

inductive DocCursor.Reaches {C : Type} [DocCursor C] : C → C → Prop
  | refl (c : C) : Reaches c c
  | step {c c₁ c₂ : C} {m : Move} : Reaches c c₁ → DocCursor.doc c₁ ≠ DocId.exhausted →
    m.IsForward (DocCursor.doc c₁) → m.apply c₁ = .done c₂ () → Reaches c c₂

lemma DocCursor.Reaches.trans {C : Type} [DocCursor C] {a b c : C} (hab : Reaches a b) (hbc : Reaches b c) :
    Reaches a c := by
  induction hbc with
  | refl => exact hab
  | step _ he hf hm ih => exact ih.step he hf hm

namespace Remaining

lemma moves_sublist (ms : List Move) (left : List DocId) : (moves ms left).Sublist left := by
  induction ms generalizing left with
  | nil => exact .refl left
  | cons m ms ih => exact (ih _).trans List.filter_sublist

end Remaining

namespace FaithfulCursor

variable {C : Type} [DocCursor C] [FaithfulCursor C] {p : DocId → Bool} {x : DocId} {c : C} {cs ds : List C}

def containing (x : DocId) (cs : List C) : List C := cs.filter (x ∈ documents ·)

lemma mem_containing : c ∈ containing x cs ↔ c ∈ cs ∧ x ∈ documents c := by
  rw [containing, List.mem_filter, decide_eq_true_iff]

lemma containing_perm (x : DocId) (h : cs.Perm ds) : (containing x cs).Perm (containing x ds) := h.filter _

def having (p : DocId → Bool) (cs : List C) : List C := cs.filter fun c => (documents c).any p

lemma mem_having : c ∈ having p cs ↔ c ∈ cs ∧ ∃ x ∈ documents c, p x = true := by
  simp [having]

lemma having_cons_of_mem {x : DocId} (hx : x ∈ documents c) (hp : p x = true) (cs : List C) :
    having p (c :: cs) = c :: having p cs :=
  List.filter_cons_of_pos (List.any_eq_true.mpr ⟨x, hx, hp⟩)

lemma having_cons_of_none (h : ∀ x ∈ documents c, p x = false) (cs : List C) : having p (c :: cs) = having p cs :=
  List.filter_cons_of_neg (by simpa using h)

lemma having_congr {q : DocId → Bool} (h : ∀ c ∈ cs, ∀ x ∈ documents c, p x = true ↔ q x = true) :
    having p cs = having q cs := by
  refine List.filter_congr fun c hc => ?_
  rw [Bool.eq_iff_iff, List.any_eq_true, List.any_eq_true]
  exact exists_congr fun x => and_congr_right (h c hc x)

lemma having_eq_self (h : ∀ c ∈ cs, ∃ x ∈ documents c, p x = true) : having p cs = cs :=
  List.filter_eq_self.mpr fun c hc => List.any_eq_true.mpr (h c hc)

lemma having_filter_live (h : ∀ c ∈ cs, IsValid c) :
    having p (cs.filter (!DocCursor.isExhausted ·)) = having p cs := by
  rw [having, List.filter_filter]
  refine List.filter_congr fun c hc => ?_
  rw [Bool.and_eq_left_iff_imp, List.any_eq_true]
  rintro ⟨x, hx, -⟩
  exact not_isExhausted_of_mem (h c hc) hx

lemma containing_eq_having (x : DocId) (cs : List C) : containing x cs = having (· == x) cs := by
  refine List.filter_congr fun c _ => ?_
  rw [Bool.eq_iff_iff, decide_eq_true_iff, List.any_eq_true]
  simp

end FaithfulCursor

namespace Disjunction

variable {C : Type} [ScoredCursor C]

def follow (m : Move) (current : DocId) (c : C) : C := (settle (m.behind current) m.apply c).headD c

def follows : List Move → List DocId → C → C
  | [], _, c => c
  | m :: ms, left, c => follows ms (Remaining.move m left) (follow m (Remaining.front left) c)

variable [FaithfulCursor C] {d d' : Disjunction C} {m : Move} {c : C} {x : DocId}

lemma settle_of_mem (h : d.IsValid) (hc : c ∈ d.children) (hx : x ∈ FaithfulCursor.documents c)
    (hk : m.keeps d.doc x = true) :
    settle (m.behind d.doc) m.apply c = [follow m d.doc c] ∧ x ∈ FaithfulCursor.documents (follow m d.doc c) ∧
      DocCursor.Reaches c (follow m d.doc c) := by
  obtain ⟨c', hc', hxc'⟩ := ((settle_spec h m hc).2 x).mpr ⟨hx, hk⟩
  have hone : settle (m.behind d.doc) m.apply c = [c'] ∧ DocCursor.Reaches c c' := by
    by_cases hb : m.behind d.doc (DocCursor.doc c) = true
    · have hf := Move.isForward_of_behind hb
      obtain ⟨c'', hm, -⟩ := child_apply_done h hc hb
      rw [settle, if_pos hb, hm] at hc' ⊢
      dsimp only at hc' ⊢
      split at hc'
      · cases hc'
      · next hne =>
        obtain rfl := List.mem_singleton.mp hc'
        exact ⟨if_neg hne, (DocCursor.Reaches.refl c).step (h.live c hc) hf hm⟩
    · rw [settle, if_neg hb] at hc' ⊢
      obtain rfl := List.mem_singleton.mp hc'
      exact ⟨rfl, .refl _⟩
  have hfollow : follow m d.doc c = c' := by rw [follow, hone.1, List.headD_cons]
  rw [hfollow]
  exact ⟨hone.1, hxc', hone.2⟩

lemma documents_follow {x : DocId} (h : d.IsValid) (hc : c ∈ d.children) (hx : x ∈ FaithfulCursor.documents c)
    (hk : m.keeps d.doc x = true) (y : DocId) :
    y ∈ FaithfulCursor.documents (follow m d.doc c) ↔ y ∈ FaithfulCursor.documents c ∧ m.keeps d.doc y = true := by
  rw [← (settle_spec h m hc).2, (settle_of_mem h hc hx hk).1]
  simp

lemma settle_eq_nil (h : d.IsValid) (hc : c ∈ d.children)
    (hnone : ∀ x ∈ FaithfulCursor.documents c, m.keeps d.doc x = false) :
    settle (m.behind d.doc) m.apply c = [] := by
  obtain ⟨hvalid, hmem⟩ := settle_spec h m hc
  refine List.eq_nil_iff_forall_not_mem.mpr fun c' hc' => ?_
  obtain ⟨hv, hlive⟩ := hvalid c' hc'
  obtain ⟨hx, hk⟩ := (hmem _).mp ⟨c', hc', doc_mem hv hlive⟩
  rw [hnone _ hx] at hk
  cases hk

lemma flatMap_settle_eq (h : d.IsValid) {cs : List C} (hcs : ∀ c ∈ cs, c ∈ d.children) :
    cs.flatMap (settle (m.behind d.doc) m.apply) = (having (m.keeps d.doc) cs).map (follow m d.doc) := by
  induction cs with
  | nil => rfl
  | cons c cs ih =>
    rw [List.forall_mem_cons] at hcs
    rw [List.flatMap_cons, ih hcs.2]
    by_cases hx : ∃ x ∈ FaithfulCursor.documents c, m.keeps d.doc x = true
    · obtain ⟨x, hx, hk⟩ := hx
      rw [(settle_of_mem h hcs.1 hx hk).1, having_cons_of_mem hx hk, List.map_cons, List.singleton_append]
    · have hnone : ∀ x ∈ FaithfulCursor.documents c, m.keeps d.doc x = false := by simpa using hx
      rw [settle_eq_nil h hcs.1 hnone, having_cons_of_none hnone, List.nil_append]

lemma children_apply (h : d.IsValid) (hf : d.doc ≠ DocId.exhausted → m.IsForward d.doc)
    (hm : m.apply d = .done d' ()) :
    d'.children.Perm ((having (m.keeps d.doc) d.children).map (follow m d.doc)) := by
  by_cases hn : d.children = []
  · rw [apply_of_children_eq_nil (h.doc_eq_exhausted_iff.mpr hn) hn m, Outcome.done.injEq] at hm
    obtain rfl := hm.1
    rw [hn]
    exact .refl _
  · obtain ⟨live, hm', -, hperm⟩ := apply_settles h hn (hf (mt h.doc_eq_exhausted_iff.mp hn))
    rw [hm, Outcome.done.injEq] at hm'
    obtain rfl := hm'.1
    exact hperm.trans (List.Perm.of_eq (flatMap_settle_eq h fun _ => id))

lemma having_follow {p : DocId → Bool} (h : d.IsValid) (hp : ∀ x, p x = true → m.keeps d.doc x = true) :
    having p ((having (m.keeps d.doc) d.children).map (follow m d.doc)) =
      (having p d.children).map (follow m d.doc) := by
  rw [having, List.filter_map, having, having, List.filter_filter]
  refine congrArg _ (List.filter_congr fun c hc => ?_)
  rw [Bool.eq_iff_iff, Function.comp_apply, Bool.and_eq_true, List.any_eq_true, List.any_eq_true, List.any_eq_true]
  constructor
  · rintro ⟨⟨y, hy, hpy⟩, x, hx, hk⟩
    exact ⟨y, ((documents_follow h hc hx hk y).mp hy).1, hpy⟩
  · rintro ⟨x, hx, hpx⟩
    exact ⟨⟨x, (documents_follow h hc hx (hp x hpx) x).mpr ⟨hx, hp x hpx⟩, hpx⟩, x, hx, hp x hpx⟩

lemma containing_apply (h : d.IsValid) (hf : d.doc ≠ DocId.exhausted → m.IsForward d.doc)
    (hm : m.apply d = .done d' ()) (hk : m.keeps d.doc x = true) :
    (containing x d'.children).Perm ((containing x d.children).map (follow m d.doc)) := by
  have hp (y : DocId) (hy : (y == x) = true) : m.keeps d.doc y = true := beq_iff_eq.mp hy ▸ hk
  refine (containing_perm x (children_apply h hf hm)).trans (List.Perm.of_eq ?_)
  rw [containing_eq_having, containing_eq_having, having_follow h hp]

lemma tieBreaker_of_apply (h : d.IsValid) {m : Move} (hf : d.doc ≠ DocId.exhausted → m.IsForward d.doc)
    (hm : m.apply d = .done d' ()) : d'.tieBreaker = d.tieBreaker := by
  by_cases hn : d.children = []
  · rw [apply_of_children_eq_nil (h.doc_eq_exhausted_iff.mpr hn) hn m, Outcome.done.injEq] at hm
    rw [hm.1]
  · obtain ⟨live, hm', -, -⟩ := apply_settles h hn (hf (mt h.doc_eq_exhausted_iff.mp hn))
    rw [hm, Outcome.done.injEq] at hm'
    rw [hm'.1]

lemma tieBreaker_of_run {ms : List Move} {left docs : List DocId} (h : Represents d left)
    (hf : DocCursor.GoesForward ms d) (hrun : DocCursor.run ms d = .done d' docs) : d'.tieBreaker = d.tieBreaker := by
  induction ms generalizing d left docs with
  | nil => rw [(Outcome.done.inj hrun).1]
  | cons m ms ih =>
    obtain ⟨d₁, docs₁, hm, hrun₁⟩ := DocCursor.run_cons_done hrun
    exact (ih (h.of_apply hf.1 hm) (hf.2 d₁ hm) hrun₁).trans (tieBreaker_of_apply h.valid hf.1 hm)

/-- After a run, the children are those that had one of the documents left, each on its own ones of them. -/
lemma children_run {ms : List Move} {left docs : List DocId} (h : Represents d left) (hf : DocCursor.GoesForward ms d)
    (hrun : DocCursor.run ms d = .done d' docs) :
    d'.children.Perm ((having (· ∈ Remaining.moves ms left) d.children).map (follows ms left)) ∧
      ∀ c ∈ d.children, ∀ x ∈ FaithfulCursor.documents c, x ∈ Remaining.moves ms left →
        DocCursor.Reaches c (follows ms left c) ∧ ∀ y, y ∈ FaithfulCursor.documents (follows ms left c) ↔
          y ∈ FaithfulCursor.documents c ∧ y ∈ Remaining.moves ms left := by
  induction ms generalizing d left docs with
  | nil =>
    obtain rfl := (Outcome.done.inj hrun).1
    have hleft (c : C) (hc : c ∈ d.children) (x : DocId) (hx : x ∈ FaithfulCursor.documents c) : x ∈ left :=
      (h.mem_iff x).mp (mem_documents.mpr ⟨c, hc, hx⟩)
    constructor
    · rw [having_eq_self fun c hc => ?_]
      · exact List.Perm.of_eq (List.map_id _).symm
      · have hx := doc_mem (h.valid.valid c hc) (h.valid.live c hc)
        exact ⟨_, hx, decide_eq_true (hleft c hc _ hx)⟩
    · exact fun c hc _ _ _ => ⟨.refl c, fun y => ⟨fun hy => ⟨hy, hleft c hc y hy⟩, And.left⟩⟩
  | cons m ms ih =>
    obtain ⟨d₁, docs₁, hm, hrun₁⟩ := DocCursor.run_cons_done hrun
    have h₁ := h.of_apply hf.1 hm
    obtain ⟨hperm, hfollows⟩ := ih h₁ (hf.2 d₁ hm) hrun₁
    have hstep := children_apply h.valid hf.1 hm
    have hfront : d.doc = Remaining.front left := h.doc_eq
    have hkeeps (x : DocId) (hx : x ∈ Remaining.moves (m :: ms) left) : m.keeps d.doc x = true := by
      rw [hfront]
      exact List.of_mem_filter ((Remaining.moves_sublist ms _).subset hx)
    constructor
    · have hhaving := having_follow (p := (· ∈ Remaining.moves (m :: ms) left)) h.valid
        fun x hx => hkeeps x (of_decide_eq_true hx)
      refine hperm.trans (((hstep.filter _).map _).trans (List.Perm.of_eq ?_))
      change ((having (· ∈ Remaining.moves (m :: ms) left) _).map _) = _
      rw [hhaving, List.map_map, hfront]
      rfl
    · intro c hc x hx hxm
      obtain ⟨-, hxf, hreach⟩ := settle_of_mem h.valid hc hx (hkeeps x hxm)
      have hdocs := documents_follow h.valid hc hx (hkeeps x hxm)
      have hmem : follow m d.doc c ∈ d₁.children :=
        hstep.symm.subset (List.mem_map_of_mem (mem_having.mpr ⟨hc, x, hx, hkeeps x hxm⟩))
      obtain ⟨hreach', hdocs'⟩ := hfollows _ hmem x hxf hxm
      rw [hfront] at hreach hreach' hdocs hdocs'
      refine ⟨hreach.trans hreach', fun y => (hdocs' y).trans ?_⟩
      rw [hdocs, ← hfront, and_assoc]
      exact and_congr_right fun _ => and_iff_right_of_imp (hkeeps y)

lemma containing_run {ms : List Move} {left docs : List DocId} (h : Represents d left)
    (hf : DocCursor.GoesForward ms d) (hrun : DocCursor.run ms d = .done d' docs)
    (hx : x ∈ FaithfulCursor.documents d') :
    (containing x d'.children).Perm ((containing x d.children).map (follows ms left)) ∧
      ∀ c ∈ containing x d.children, DocCursor.Reaches c (follows ms left c) := by
  obtain ⟨hperm, hfollows⟩ := children_run h hf hrun
  have hxm : x ∈ Remaining.moves ms left := ((h.of_run hf hrun).2.mem_iff x).mp hx
  refine ⟨(containing_perm x hperm).trans (List.Perm.of_eq ?_), fun c hc => ?_⟩
  · rw [containing, List.filter_map, having, List.filter_filter, containing]
    refine congrArg _ (List.filter_congr fun c hc => ?_)
    rw [Bool.eq_iff_iff, Bool.and_eq_true, Function.comp_apply, decide_eq_true_iff, decide_eq_true_iff,
      List.any_eq_true]
    constructor
    · rintro ⟨hxf, y, hy, hym⟩
      exact (((hfollows c hc y hy (of_decide_eq_true hym)).2 x).mp hxf).1
    · exact fun hxc => ⟨((hfollows c hc x hxc hxm).2 x).mpr ⟨hxc, hxm⟩, x, hxc, decide_eq_true hxm⟩
  · obtain ⟨hcd, hxc⟩ := mem_containing.mp hc
    exact (hfollows c hcd x hxc hxm).1

end Disjunction

end InvertedIndex
