import InvertedIndex.Proofs.Merge.Advance

namespace InvertedIndex

def Outcome.after {σ : Type u} {α : Type v} : Outcome σ α → Except Fault σ
  | .done s _ => .ok s
  | .failed s _ => .ok s
  | .fault x => .error x

lemma Outcome.after_map {σ : Type u} {α : Type v} {β : Type w} (f : α → β) (o : Outcome σ α) :
    (o.map f).after = o.after := by
  cases o <;> rfl

namespace MergeQueue

open Heap MergeSource

section Tally

variable {C : Type} (tag : C → Nat) (n : Nat)

def tally (xs : List (MergeSource C)) : Nat := xs.countP (tag ·.cursor == n)

@[simp] lemma tally_nil : tally tag n [] = 0 := rfl

@[simp] lemma tally_append (xs ys : List (MergeSource C)) : tally tag n (xs ++ ys) = tally tag n xs + tally tag n ys :=
  List.countP_append

lemma tally_cons (s : MergeSource C) (xs : List (MergeSource C)) :
    tally tag n (s :: xs) = tally tag n [s] + tally tag n xs := tally_append tag n [s] xs

lemma tally_perm {xs ys : List (MergeSource C)} (h : xs.Perm ys) : tally tag n xs = tally tag n ys := h.countP_eq _

def tags (xs : List (MergeSource C)) : List Nat := xs.map (tag ·.cursor)

lemma count_tags (xs : List (MergeSource C)) : (tags tag xs).count n = tally tag n xs := by
  rw [tags, List.count_eq_countP, List.countP_map]
  rfl

def sources (q : MergeQueue C) : List (MergeSource C) := q.held ++ q.closed

end Tally

variable {C : Type} [TermCursor C]

def IsKept (tag : C → Nat) : Prop := ∀ c c', (TermCursor.next c).after = .ok c' → tag c' = tag c

section Tally

variable {tag : C → Nat} (n : Nat) {members : List (MergeSource C)}

lemma IsKept.tally_next (ht : IsKept tag) {s : MergeSource C} {c : C} (h : (TermCursor.next s.cursor).after = .ok c) :
    tally tag n [{ s with cursor := c }] = tally tag n [s] := by
  simp [tally, List.countP_cons, ht s.cursor c h]

lemma IsKept.tally_moved (ht : IsKept tag) {s : MergeSource C} (hs : s.Moves) :
    tally tag n s.requeued + tally tag n s.finished = tally tag n [s] := by
  obtain ⟨c, more, hm⟩ := hs
  have hc := ht.tally_next n (s := s) (c := c) (by rw [hm]; rfl)
  by_cases h : (more && (TermCursor.term? c).isSome) = true
  · rw [(requeued_eq hm h).1, (requeued_eq hm h).2, hc, tally_nil, Nat.add_zero]
  · rw [(finished_eq hm h).1, (finished_eq hm h).2, hc, tally_nil, Nat.zero_add]

lemma IsKept.tally_flatMap (ht : IsKept tag) (h : ∀ s ∈ members, s.Moves) :
    tally tag n (members.flatMap requeued) + tally tag n (members.flatMap finished) = tally tag n members := by
  induction members with
  | nil => rfl
  | cons s members ih =>
    have hs := ht.tally_moved n (h s List.mem_cons_self)
    have hrest := ih fun m hm => h m (List.mem_cons_of_mem s hm)
    rw [List.flatMap_cons, List.flatMap_cons, tally_append, tally_append, tally_cons tag n s members]
    omega

lemma length_requeued_le (s : MergeSource C) : s.requeued.length ≤ 1 := by
  rw [requeued]
  split
  · split <;> simp
  · simp

lemma length_flatMap_requeued_le (members : List (MergeSource C)) :
    (members.flatMap requeued).length ≤ members.length := by
  induction members with
  | nil => exact Nat.le_refl 0
  | cons s members ih =>
    have hs := length_requeued_le s
    rw [List.flatMap_cons, List.length_append, List.length_cons]
    omega

end Tally

structure TakenBack (tag : C → Nat) (q : MergeQueue C) (members : List (MergeSource C)) (q' : MergeQueue C) : Prop where
  sound : q.IsSound → q'.IsSound
  capacity : q'.heap.capacity = q.heap.capacity
  length_le : q'.heap.toList.length ≤ q.heap.toList.length + members.length
  balance : ∀ n, tally tag n q'.sources = tally tag n q.sources + tally tag n members

variable {tag : C → Nat} {q q₁ q' : MergeQueue C} {g : TermGroup C} {members kept rest : List (MergeSource C)}

lemma Advanced.takenBack (ht : IsKept tag) (h : ∀ s ∈ members, s.Moves) (ha : Advanced q members q') :
    TakenBack tag q members q' where
  sound := ha.sound
  capacity := ha.capacity
  length_le := by
    have hle := length_flatMap_requeued_le members
    rw [ha.perm.length_eq, List.length_append]
    omega
  balance n := by
    have hsum := ht.tally_flatMap n h
    have hheap := tally_perm tag n ha.perm
    simp only [sources, held, ha.retired, ha.closed, tally_append] at hheap ⊢
    omega

lemma TakenBack.retire (h : TakenBack tag q members q₁) (hr : ∀ n, tally tag n rest = tally tag n kept) :
    TakenBack tag q (members ++ kept) { q₁ with retired := q₁.retired ++ rest } where
  sound hq := ⟨(h.sound hq).queued, (h.sound hq).spare⟩
  capacity := h.capacity
  length_le := by
    have hle := h.length_le
    change q₁.heap.toList.length ≤ _
    rw [List.length_append]
    omega
  balance n := by
    have hb := h.balance n
    have hn := hr n
    simp only [sources, held, tally_append] at hb ⊢
    omega

lemma takenBack_refl (q : MergeQueue C) : TakenBack tag q [] q := ⟨id, rfl, Nat.le_refl _, fun _ => rfl⟩

lemma takenBack_abandon (q : MergeQueue C) (g : TermGroup C) : TakenBack tag q g.members (q.abandon g) :=
  (takenBack_refl q).retire fun _ => rfl

lemma isQueued_clear (heap : Heap (MergeSource C)) : IsQueued heap.clear :=
  ⟨fun i h => absurd h (Nat.not_lt_zero i), nofun⟩

lemma takenBack_release (q : MergeQueue C) : TakenBack tag q [] q.release where
  sound h := ⟨isQueued_clear q.heap, h.spare⟩
  capacity := rfl
  length_le := Nat.zero_le _
  balance n := by
    simp only [sources, held, release, clear_toList, tally_append, tally_nil]
    omega

lemma after_advance (h : q.IsSound) (g : TermGroup C) :
    (q.advance g).after = (q.advanceMembers g.members).after := by
  cases hd : q.advanceMembers g.members with
  | done q' errors =>
    rw [advance_of_done h hd]
    cases Error.joint? errors <;> rfl
  | failed q' e => rw [advance, hd]; rfl
  | fault x => rw [advance, hd]; rfl

lemma after_close (q : MergeQueue C) : q.close.after = .ok q.release := by
  rw [close]
  cases Error.joint? (closeErrors q.held) <;> rfl

lemma advance_takenBack (ht : IsKept tag) (hq : q.IsSound)
    (hroom : q.heap.toList.length + g.members.length ≤ q.heap.capacity) :
    (∃ q', (q.advance g).after = .ok q' ∧ TakenBack tag q g.members q') ∨
      ∃ s ∈ g.members, ∃ x, (q.advance g).after = .error x ∧ TermCursor.next s.cursor = .fault x := by
  have hres := advanceMembers_result g.members q hroom
  rw [after_advance hq]
  cases ho : q.advanceMembers g.members with
  | done q' errors =>
    rw [ho] at hres
    exact Or.inl ⟨q', rfl, hres.2.1.takenBack ht hres.1⟩
  | failed q' e =>
    rw [ho] at hres
    obtain ⟨moved, s, rest, c, q₁, hmembers, hmoves, hs, ha, rfl⟩ := hres
    refine Or.inl ⟨_, rfl, ?_⟩
    rw [hmembers]
    refine (ha.takenBack ht hmoves).retire fun n => ?_
    rw [tally_cons, tally_cons tag n s rest, ht.tally_next n (by rw [hs]; rfl)]
  | fault x =>
    rw [ho] at hres
    obtain ⟨s, hs, hx⟩ := hres
    exact Or.inr ⟨s, List.mem_of_mem_take hs, x, rfl, hx⟩

end MergeQueue

end InvertedIndex
