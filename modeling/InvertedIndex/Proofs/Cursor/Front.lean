import InvertedIndex.Disjunction
import InvertedIndex.Proofs.Heap.Operations
import InvertedIndex.Proofs.Cursor.Moves

namespace InvertedIndex.Disjunction

open Heap

variable {C : Type} [ScoredCursor C] {behind : DocId → Bool} {move : C → Outcome C Unit}

lemma docBefore_eq_false_iff {a b : C} : docBefore b a = false ↔ DocCursor.doc a ≤ DocCursor.doc b := by
  rw [docBefore, decide_eq_false_iff_not, UInt64.not_lt]

lemma docBefore_isWeakOrder : IsWeakOrder (docBefore (C := C)) where
  irrefl a := by simp [docBefore]
  trans a b c := by
    simp only [docBefore, decide_eq_true_eq]
    exact UInt64.lt_trans
  incomp_trans a b c := by
    simp only [docBefore, decide_eq_true_eq]
    grind

def settle (behind : DocId → Bool) (move : C → Outcome C Unit) (c : C) : List C :=
  if behind (DocCursor.doc c) then
    match move c with
    | .done c' () => if DocCursor.isExhausted c' then [] else [c']
    | _ => []
  else [c]

lemma settle_of_not_behind {c : C} (h : behind (DocCursor.doc c) = false) : settle behind move c = [c] := by
  simp [settle, h]

lemma flatMap_settle_eq_self {cs : List C} (h : ∀ c ∈ cs, behind (DocCursor.doc c) = false) :
    cs.flatMap (settle behind move) = cs := by
  induction cs with
  | nil => rfl
  | cons c cs ih =>
    rw [List.flatMap_cons, settle_of_not_behind (h c List.mem_cons_self),
      ih fun d hd => h d (List.mem_cons_of_mem c hd)]
    rfl

lemma mem_settle {b c : C} (h : c ∈ settle behind move b) :
    (behind (DocCursor.doc b) = false ∧ c = b) ∨
      (behind (DocCursor.doc b) = true ∧ move b = .done c () ∧ DocCursor.isExhausted c = false) := by
  rw [settle] at h
  split at h
  · next hb =>
    split at h
    · next c' hm =>
      split at h
      · cases h
      · next hx =>
        obtain rfl := List.mem_singleton.mp h
        exact .inr ⟨hb, hm, Bool.eq_false_iff.mpr hx⟩
    · cases h
  · next hb =>
    obtain rfl := List.mem_singleton.mp h
    exact .inl ⟨Bool.eq_false_iff.mpr hb, rfl⟩

structure OnePass (behind : DocId → Bool) (move : C → Outcome C Unit) (low : DocId) (cs : List C) : Prop where
  low_le : ∀ c ∈ cs, low ≤ DocCursor.doc c
  down : ∀ x y, low ≤ x → x ≤ y → behind y = true → behind x = true
  enough : ∀ c ∈ cs, behind (DocCursor.doc c) = true → ∀ c', move c = .done c' () →
    behind (DocCursor.doc c') = false ∧ low ≤ DocCursor.doc c'

lemma OnePass.of_subset {low : DocId} {cs ds : List C} (h : OnePass behind move low cs) (hd : ∀ d ∈ ds, d ∈ cs) :
    OnePass behind move low ds :=
  ⟨fun d hds => h.low_le d (hd d hds), h.down, fun d hds => h.enough d (hd d hds)⟩

lemma OnePass.cons_moved {low : DocId} {c c' : C} {cs ds : List C} (h : OnePass behind move low (c :: cs))
    (hb : behind (DocCursor.doc c) = true) (hm : move c = .done c' ()) (hd : ds.Perm (c' :: cs)) :
    OnePass behind move low ds := by
  obtain ⟨hnb, hlow⟩ := h.enough c List.mem_cons_self hb c' hm
  refine ⟨fun d hds => ?_, h.down, fun d hds hbd => ?_⟩ <;>
    rcases List.mem_cons.mp (hd.subset hds) with rfl | hmem
  · exact hlow
  · exact h.low_le d (List.mem_cons_of_mem c hmem)
  · rw [hnb] at hbd
    cases hbd
  · exact h.enough d (List.mem_cons_of_mem c hmem) hbd

/-- A failed pass has moved some of the cursors that were behind, and the failing one stays in front. The order is lost
only if the failure changed its document. -/
def FailsOn (behind : DocId → Bool) (move : C → Outcome C Unit) (cs : List C) (live : Heap C) (e : Error) : Prop :=
  ∃ c front moved rest, cs.Perm (c :: (moved ++ rest)) ∧ behind (DocCursor.doc c) = true ∧ move c = .failed front e ∧
    (∀ m ∈ moved, behind (DocCursor.doc m) = true) ∧ live.peek? = some front ∧
    live.toList.Perm (front :: (moved.flatMap (settle behind move) ++ rest)) ∧
    (DocCursor.doc front = DocCursor.doc c → live.IsOrdered docBefore)

lemma FailsOn.cons {cs : List C} {live : Heap C} {e : Error} {c : C} (h : FailsOn behind move cs live e)
    (hb : behind (DocCursor.doc c) = true) (hs : settle behind move c = []) :
    FailsOn behind move (c :: cs) live e := by
  obtain ⟨f, front, moved, rest, hcs, hf, hmf, hmoved, hfront, hlive, hord⟩ := h
  refine ⟨f, front, c :: moved, rest, (hcs.cons c).trans (.swap f c _), hf, hmf, ?_, hfront, ?_, hord⟩
  · exact List.forall_mem_cons.mpr ⟨hb, hmoved⟩
  · simpa [hs] using hlive

lemma FailsOn.cons_moved {cs : List C} {live : Heap C} {e : Error} {c c' : C}
    (h : FailsOn behind move (c' :: cs) live e) (hb : behind (DocCursor.doc c) = true)
    (hb' : behind (DocCursor.doc c') = false) (hs : settle behind move c = [c']) :
    FailsOn behind move (c :: cs) live e := by
  obtain ⟨f, front, moved, rest, hcs, hf, hmf, hmoved, hfront, hlive, hord⟩ := h
  have hmem : c' ∈ rest := by
    rcases List.mem_cons.mp (hcs.subset List.mem_cons_self) with rfl | hmem
    · rw [hb'] at hf
      cases hf
    · rcases List.mem_append.mp hmem with hm | hr
      · rw [hmoved c' hm] at hb'
        cases hb'
      · exact hr
  obtain ⟨left, right, rfl⟩ := List.append_of_mem hmem
  have hrest : (left ++ c' :: right).Perm (c' :: (left ++ right)) := List.perm_middle
  refine ⟨f, front, c :: moved, left ++ right, ?_, hf, hmf, List.forall_mem_cons.mpr ⟨hb, hmoved⟩, hfront, ?_, hord⟩
  · have hcs' : cs.Perm (f :: (moved ++ (left ++ right))) := by
      apply List.Perm.cons_inv (a := c')
      refine hcs.trans (List.Perm.trans ?_ (.swap c' f _))
      exact ((hrest.append_left moved).trans List.perm_middle).cons f
    exact (hcs'.cons c).trans (.swap f c _)
  · refine hlive.trans ?_
    rw [List.flatMap_cons, hs]
    exact ((hrest.append_left _).trans List.perm_middle).cons front

def PassResult (behind : DocId → Bool) (move : C → Outcome C Unit) (cs : List C) : Outcome (Heap C) Unit → Prop
  | .done live () => live.IsOrdered docBefore ∧ live.toList.Perm (cs.flatMap (settle behind move))
  | .failed live e => FailsOn behind move cs live e
  | .fault x => ∃ c ∈ cs, behind (DocCursor.doc c) = true ∧ move c = .fault x

lemma PassResult.cons {cs : List C} {c : C} {o : Outcome (Heap C) Unit} (h : PassResult behind move cs o)
    (hb : behind (DocCursor.doc c) = true) (hs : settle behind move c = []) :
    PassResult behind move (c :: cs) o := by
  cases o with
  | done live u => exact ⟨h.1, by simpa [hs] using h.2⟩
  | failed live e => exact FailsOn.cons h hb hs
  | fault x =>
    obtain ⟨d, hd, hbd⟩ := h
    exact ⟨d, List.mem_cons_of_mem c hd, hbd⟩

lemma PassResult.cons_moved {cs : List C} {c c' : C} {o : Outcome (Heap C) Unit}
    (h : PassResult behind move (c' :: cs) o) (hb : behind (DocCursor.doc c) = true)
    (hb' : behind (DocCursor.doc c') = false) (hs : settle behind move c = [c']) :
    PassResult behind move (c :: cs) o := by
  cases o with
  | done live u =>
    refine ⟨h.1, ?_⟩
    rw [List.flatMap_cons, hs]
    have hperm := h.2
    rwa [List.flatMap_cons, settle_of_not_behind hb'] at hperm
  | failed live e => exact FailsOn.cons_moved h hb hb' hs
  | fault x =>
    obtain ⟨d, hd, hbd, hx⟩ := h
    rcases List.mem_cons.mp hd with rfl | hd
    · rw [hb'] at hbd
      cases hbd
    · exact ⟨d, List.mem_cons_of_mem c hd, hbd, hx⟩

lemma PassResult.of_perm {cs ds : List C} {o : Outcome (Heap C) Unit} (h : PassResult behind move cs o)
    (hp : cs.Perm ds) : PassResult behind move ds o := by
  cases o with
  | done live u => exact ⟨h.1, h.2.trans (hp.flatMap_right _)⟩
  | failed live e =>
    obtain ⟨f, front, moved, rest, hcs, hf⟩ := h
    exact ⟨f, front, moved, rest, hp.symm.trans hcs, hf⟩
  | fault x =>
    obtain ⟨d, hd, hbd⟩ := h
    exact ⟨d, hp.subset hd, hbd⟩

lemma PassResult.stop {live : Heap C} (ho : live.IsOrdered docBefore)
    (h : ∀ c ∈ live.toList, behind (DocCursor.doc c) = false) :
    PassResult behind move live.toList (.done live ()) :=
  ⟨ho, by rw [flatMap_settle_eq_self h]⟩

lemma PassResult.stop_of_front {low : DocId} {live : Heap C} {front : C} (ho : live.IsOrdered docBefore)
    (hp : OnePass behind move low live.toList) (hf : live.peek? = some front)
    (hb : ¬ behind (DocCursor.doc front) = true) : PassResult behind move live.toList (.done live ()) := by
  apply PassResult.stop ho
  intro c hc
  rw [Bool.eq_false_iff]
  intro hbc
  obtain ⟨others, hlive⟩ := peek?_eq_some_iff.mp hf
  have hle := docBefore_eq_false_iff.mp (peek?_least docBefore_isWeakOrder ho hf hc)
  exact hb (hp.down _ _ (hp.low_le front (by simp [hlive])) hle hbc)

lemma moveFront_result {low : DocId} (limit : Nat) (live : Heap C) (ho : live.IsOrdered docBefore)
    (hp : OnePass behind move low live.toList)
    (hl : live.toList.countP (fun c => behind (DocCursor.doc c)) ≤ limit) :
    PassResult behind move live.toList (moveFront behind move limit live) := by
  -- Every round settles the front cursor, so that the others make up what is left of the pass.
  induction limit generalizing live with
  | zero =>
    apply PassResult.stop ho
    intro c hc
    simpa using List.countP_eq_zero.mp (Nat.le_zero.mp hl) c hc
  | succ limit ih =>
    rw [moveFront]
    cases hf : live.peek? with
    | none =>
      apply PassResult.stop ho
      simp [peek?_eq_none_iff.mp hf]
    | some front =>
      obtain ⟨others, hlive⟩ := peek?_eq_some_iff.mp hf
      dsimp only
      split
      · next hb =>
        rw [hlive] at hp hl ⊢
        rw [List.countP_cons_of_pos (p := fun c => behind (DocCursor.doc c)) hb, Nat.add_le_add_iff_right] at hl
        cases hm : move front with
        | done c' u =>
          obtain ⟨hb', -⟩ := hp.enough front List.mem_cons_self hb c' hm
          dsimp only
          split
          · next hx =>
            have hs : settle behind move front = [] := by simp [settle, hb, hm, hx]
            obtain ⟨rest, hr, hrest⟩ := exists_removeFront? docBefore hlive
            have hrec := ih rest (removeFront?_isOrdered docBefore_isWeakOrder ho hr)
              (hp.of_subset fun d hd => List.mem_cons_of_mem front (hrest.subset hd)) (by rwa [hrest.countP_eq])
            rw [hr]
            exact (hrec.of_perm hrest).cons hb hs
          · next hx =>
            have hs : settle behind move front = [c'] := by simp [settle, hb, hm, hx]
            have hperm := replaceFront_perm docBefore hlive c'
            have hrec := ih _ (replaceFront_isOrdered docBefore_isWeakOrder ho c') (hp.cons_moved hb hm hperm) (by
              rw [hperm.countP_eq, List.countP_cons_of_neg (by simp [hb'])]
              exact hl)
            exact (hrec.of_perm hperm).cons_moved hb hb' hs
        | failed c' e =>
          have hset : (live.setFront c').toList = c' :: others := by simp [setFront_toList, hlive]
          refine ⟨front, c', [], others, .rfl, hb, hm, nofun, peek?_eq_some_iff.mpr ⟨others, hset⟩, .of_eq hset, ?_⟩
          exact fun hd => setFront_isOrdered ho hf fun d => by rw [docBefore, docBefore, hd]
        | fault x => exact ⟨front, List.mem_cons_self, hb, hm⟩
      · next hb => exact PassResult.stop_of_front ho hp hf hb

end InvertedIndex.Disjunction
