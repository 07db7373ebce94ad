import InvertedIndex.DictionaryMerge
import InvertedIndex.Proofs.Merge.Session

namespace InvertedIndex

structure Numbered (C : Type) where
  number : Nat
  cursor : C

namespace Numbered

variable {C : Type} [TermCursor C]

instance : TermCursor (Numbered C) where
  term? c := TermCursor.term? c.cursor
  docFreq c := TermCursor.docFreq c.cursor
  next c := (TermCursor.next c.cursor).mapState fun cursor => { c with cursor := cursor }
  closing c := TermCursor.closing c.cursor
  bound c := TermCursor.bound c.cursor
  seek t c := (TermCursor.seek t c.cursor).mapState fun cursor => { c with cursor := cursor }

end Numbered

namespace MergeQueue

open Heap MergeSource

section Drop

variable {C : Type}

lemma release_release (q : MergeQueue C) : q.release.release = q.release := by
  rw [release, show q.release.held = [] from rfl, List.append_nil]
  rfl

lemma drop_eq_release (q : MergeQueue C) : q.drop = q.release := by
  rw [drop]
  split
  · next h =>
    simp only [Bool.and_eq_true, List.isEmpty_iff] at h
    obtain ⟨⟨hclosed, hheap⟩, hretired⟩ := h
    have hheld : q.held = [] := by
      rw [held, hretired, Heap.isEmpty_iff.mp hheap]
      rfl
    rw [release, hheld, Heap.clear_of_isEmpty hheap, List.append_nil]
    cases q
    cases hclosed
    cases hretired
    rfl
  · rfl

lemma drop_drop (q : MergeQueue C) : q.drop.drop = q.drop := by
  rw [drop_eq_release, drop_eq_release, release_release]

end Drop

section Accounts

variable {C : Type} [TermCursor C] {tag : C → Nat} {sources : List (MergeSource C)}

lemma tally_live_add_tally_empty (tag : C → Nat) (n : Nat) (sources : List (MergeSource C)) :
    tally tag n (sources.filter (·.term?.isSome)) + tally tag n (sources.filter (·.term?.isNone)) =
      tally tag n sources := by
  rw [← tally_append]
  refine tally_perm tag n ?_
  simp only [← Option.not_isSome]
  exact List.filter_append_perm _ sources

lemma accounts_ofSources {q : MergeQueue C} (h : ofSources sources = .ok q) :
    Accounts tag (tally tag · sources) q [] := by
  obtain ⟨hsound, hperm, hretired, -, hclosed⟩ := ofSources_spec h
  refine ⟨hsound, q.heap.toList_length_le, fun n => ?_⟩
  have hlive := tally_perm tag n hperm
  have hall := tally_live_add_tally_empty tag n sources
  simp only [MergeQueue.sources, held, hretired, hclosed, List.append_nil, tally_append, List.flatMap_nil, tally_nil]
  omega

lemma tally_refusal {refusal : Refusal C} (h : ofSources sources = .error refusal) (n : Nat) :
    tally tag n refusal.closed = tally tag n sources := by
  cases hc : closeErrors (sources.filter (·.term?.isNone)) with
  | nil =>
    rw [ofSources, hc] at h
    cases h
  | cons e es =>
    rw [ofSources, hc] at h
    obtain rfl := Except.error.inj h
    rw [tally_append, Nat.add_comm]
    exact tally_live_add_tally_empty tag n sources

lemma drainWithin_accounts {σ : Type} (ht : IsKept tag) {total : Nat → Nat}
    (visit : MergeQueue C → TermGroup C → σ → Outcome σ Unit) (limit : Nat) {q q' : MergeQueue C} {s s' : σ}
    (h : Accounts tag total q []) (hd : (drainWithin visit limit q s).after = .ok (q', s')) :
    Accounts tag total q' [] := by
  induction limit generalizing q s with
  | zero =>
    obtain ⟨rfl, -⟩ := Prod.mk.inj (Except.ok.inj hd)
    exact h
  | succ limit ih =>
    have hpopped := h.pop
    rw [drainWithin] at hd
    split at hd
    · next q₁ hpop =>
      rw [hpop] at hpopped
      obtain ⟨rfl, -⟩ := Prod.mk.inj (Except.ok.inj hd)
      exact hpopped
    · next g q₁ hpop =>
      rw [hpop] at hpopped
      split at hd
      · next s₁ hv =>
        cases hadv : q₁.advance g with
        | done q₂ u =>
          rw [hadv] at hd
          exact ih (hpopped.advance ht (congrArg Outcome.after hadv)) hd
        | failed q₂ e =>
          rw [hadv] at hd
          obtain ⟨rfl, -⟩ := Prod.mk.inj (Except.ok.inj hd)
          exact hpopped.advance ht (congrArg Outcome.after hadv)
        | fault x =>
          rw [hadv] at hd
          cases hd
      · next s₁ e hv =>
        obtain ⟨rfl, -⟩ := Prod.mk.inj (Except.ok.inj hd)
        exact hpopped.takeBack (takenBack_abandon q₁ g)
      · cases hd

lemma close_drop (q : MergeQueue C) : q.drop.close = .done q.drop () := by
  rw [drop_eq_release, close, release_release]
  rfl

lemma Accounts.tally_drop {total : Nat → Nat} {q : MergeQueue C} {gs : List (TermGroup C)}
    (h : Accounts tag total q gs) (n : Nat) :
    tally tag n (q.drop.closed ++ gs.flatMap TermGroup.members) = total n := by
  have hb := h.release.balance n
  rw [drop_eq_release, tally_append]
  simpa [MergeQueue.sources, show q.release.held = [] from rfl] using hb

lemma merge_after {W : Type} [DictionaryWriter W] (settings : MergeSettings) (q : MergeQueue C) (w : W) :
    (DictionaryMerge.merge settings q w).after =
      (q.drain (fun _ => DictionaryMerge.visit settings) ⟨w, { sources := q.sourceCount }, none⟩).after.map
        fun (q, p) => (q.release, p.writer) := by
  rw [DictionaryMerge.merge]
  cases q.drain (fun _ => DictionaryMerge.visit settings) ⟨w, { sources := q.sourceCount }, none⟩ with
  | done s u =>
    have hclose := after_close s.1
    cases hc : s.1.close <;> rw [hc] at hclose <;> cases hclose <;> simp only [hc] <;> rfl
  | failed s e => rfl
  | fault x => rfl

end Accounts

section Numbers

variable {C : Type}

lemma isKept_number [TermCursor C] : IsKept (Numbered.number : Numbered C → Nat) := by
  intro c c' h
  change ((TermCursor.next c.cursor).mapState _).after = .ok c' at h
  cases hn : TermCursor.next c.cursor <;> rw [hn] at h <;> cases h <;> rfl

def numbered (sources : List (MergeSource C)) : List (MergeSource (Numbered C)) :=
  sources.mapIdx fun i s => ⟨s.origin, ⟨i, s.cursor⟩⟩

def numbers (sources : List (MergeSource (Numbered C))) : List Nat := sources.map (·.cursor.number)

lemma numbers_numbered (sources : List (MergeSource C)) : numbers (numbered sources) = List.range sources.length := by
  refine List.ext_getElem (by simp [numbers, numbered]) fun i h h' => ?_
  simp [numbers, numbered]

lemma count_numbers (n : Nat) (sources : List (MergeSource (Numbered C))) :
    (numbers sources).count n = tally Numbered.number n sources := count_tags Numbered.number n sources

lemma numbers_perm_range {sources : List (MergeSource C)} {all : List (MergeSource (Numbered C))}
    (h : ∀ n, tally Numbered.number n all = tally Numbered.number n (numbered sources)) :
    (numbers all).Perm (List.range sources.length) := by
  rw [← numbers_numbered, List.perm_iff_count]
  intro n
  rw [count_numbers, count_numbers, h]

end Numbers

/-- Every source is always in one place: in the heap, retired, in one group that has not been handed back, or closed.
Closing the queue and dropping it come to the same, and doing so once more closes nothing. Every source that has been
handed back has been closed once when the queue has been dropped, and when a merge ends. -/
theorem closed_exactly_once {C : Type} [TermCursor C] (sources : List (MergeSource C)) :
    (∀ refusal, ofSources (numbered sources) = .error refusal →
      (numbers refusal.closed).Perm (List.range sources.length)) ∧
    ∀ q, ofSources (numbered sources) = .ok q →
      (∀ rs : List (Request (Numbered C)), (∀ r ∈ rs, r.Keeps Numbered.number) →
        (∃ s, Session.run rs { queue := q } = .ok s ∧
          (numbers (s.queue.heap.toList ++ s.queue.retired ++ s.queue.closed ++
            (s.outstanding ++ s.discarded).flatMap TermGroup.members)).Perm (List.range sources.length) ∧
          s.queue.close.after = .ok s.queue.drop ∧ s.queue.drop.close = .done s.queue.drop () ∧
          s.queue.drop.drop = s.queue.drop ∧ s.queue.drop.held = [] ∧
          (numbers (s.queue.drop.closed ++ (s.outstanding ++ s.discarded).flatMap TermGroup.members)).Perm
            (List.range sources.length) ∧
          ((∀ i, .discard i ∉ rs) → s.outstanding = [] →
            (numbers s.queue.drop.closed).Perm (List.range sources.length))) ∨
        ∃ (c : Numbered C) (x : Fault), Session.run rs { queue := q } = .error x ∧ TermCursor.next c = .fault x) ∧
      ∀ (W : Type) [DictionaryWriter W] (settings : MergeSettings) (w w' : W) (q' : MergeQueue (Numbered C)),
        (DictionaryMerge.merge settings q w).after = .ok (q', w') →
          q'.drop = q' ∧ q'.held = [] ∧ (numbers q'.closed).Perm (List.range sources.length) := by
  refine ⟨fun refusal h => numbers_perm_range fun n => tally_refusal h n, fun q hq => ?_⟩
  have hstart : Accounts Numbered.number (tally Numbered.number · (numbered sources)) q [] := accounts_ofSources hq
  refine ⟨fun rs hrs => ?_, fun W _ settings w w' q' hm => ?_⟩
  · rcases Session.run_accounts isKept_number (s := { queue := q }) hstart hrs with ⟨s, hs, ha⟩ | hfault
    · have hdropped : (numbers (s.queue.drop.closed ++ (s.outstanding ++ s.discarded).flatMap TermGroup.members)).Perm
          (List.range sources.length) := numbers_perm_range ha.tally_drop
      refine .inl ⟨s, hs, numbers_perm_range fun n => ?_, ?_, close_drop _, drop_drop _, ?_, hdropped, ?_⟩
      · rw [tally_append]
        exact ha.balance n
      · rw [after_close, drop_eq_release]
      · rw [drop_eq_release]
        rfl
      · intro hnone hout
        rwa [hout, Session.run_discarded hnone hs, List.append_nil, List.flatMap_nil, List.append_nil] at hdropped
    · exact .inr hfault
  · rw [merge_after] at hm
    cases hd : (q.drain (fun _ => DictionaryMerge.visit settings) ⟨w, { sources := q.sourceCount }, none⟩).after with
    | ok s =>
      rw [hd] at hm
      obtain ⟨rfl, -⟩ := Prod.mk.inj (Except.ok.inj hm)
      have ha := drainWithin_accounts isKept_number _ _ hstart hd
      refine ⟨by rw [drop_eq_release, release_release], rfl, numbers_perm_range fun n => ?_⟩
      rw [← ha.tally_drop n, drop_eq_release, List.flatMap_nil, List.append_nil]
    | error x =>
      rw [hd] at hm
      cases hm

end MergeQueue

end InvertedIndex
