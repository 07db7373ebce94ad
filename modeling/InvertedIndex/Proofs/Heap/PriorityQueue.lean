import InvertedIndex.Proofs.Heap.Operations

namespace InvertedIndex.Heap

variable {α : Type u} {before : α → α → Bool}

inductive Request (α : Type u) where
  | push (item : α)
  | removeFront
  | replaceFront (item : α)
  | heapify
  | drain

structure Effect (α : Type u) where
  put : List α := []
  taken : List α := []
  refusal : Option Fault := none

def perform (before : α → α → Bool) (r : Request α) (heap : Heap α) : Heap α × Effect α :=
  match r with
  | .push item =>
    match heap.push before item with
    | .ok heap' => (heap', { put := [item] })
    | .error x => (heap, { refusal := some x })
  | .removeFront =>
    match heap.removeFront? before with
    | some (front, rest) => (rest, { taken := [front] })
    | none => (heap, {})
  | .replaceFront item =>
    match heap.peek? with
    | some front => (heap.replaceFront before item, { put := [item], taken := [front] })
    | none => (heap, {})
  | .heapify => (heap.heapify before, {})
  | .drain => (heap.clear, { taken := heap.toList })

def run (before : α → α → Bool) : List (Request α) → Heap α → Heap α × List (Effect α)
  | [], heap => (heap, [])
  | r :: rs, heap =>
    let (heap, effect) := perform before r heap
    let (heap, effects) := run before rs heap
    (heap, effect :: effects)

inductive Opens (before : α → α → Bool) : Heap α → List α → Prop
  | ofArray (items : Array α) : Opens before (ofArray before items) items.toList
  | reserve {slotBytes capacity : Nat} {heap : Heap α} : reserve slotBytes capacity = .ok heap → Opens before heap []

lemma Opens.perm {heap : Heap α} {items : List α} (h : Opens before heap items) : heap.toList.Perm items := by
  cases h with
  | ofArray items => exact ofArray_perm before items
  | reserve h =>
    rw [Heap.reserve] at h
    split at h
    · obtain rfl := Except.ok.inj h
      exact .rfl
    · cases h

lemma Opens.isOrdered (hw : IsWeakOrder before) {heap : Heap α} {items : List α} (h : Opens before heap items) :
    heap.IsOrdered before := by
  cases h with
  | ofArray items => exact ofArray_isOrdered hw items
  | reserve h =>
    have hopens : Opens before heap [] := .reserve h
    have hnil : heap.toList = [] := hopens.perm.eq_nil
    rw [isOrdered_iff]
    intro p c hp hc hpc
    have hlen : heap.slots.size = 0 := congrArg List.length hnil
    omega

structure Served (before : α → α → Bool) (heap : Heap α) (put taken : List α) (heap' : Heap α) : Prop where
  capacity : heap'.capacity = heap.capacity
  perm : (taken ++ heap'.toList).Perm (heap.toList ++ put)
  ordered : IsWeakOrder before → heap.IsOrdered before → heap'.IsOrdered before

variable {heap heap₁ heap₂ : Heap α} {put put₁ put₂ taken taken₁ taken₂ : List α}

lemma perm_of_taken {held held₁ held₂ : List α} (h₁ : (taken₁ ++ held₁).Perm (held ++ put₁))
    (h₂ : (taken₂ ++ held₂).Perm (held₁ ++ put₂)) :
    (taken₁ ++ taken₂ ++ held₂).Perm (held ++ (put₁ ++ put₂)) := by
  have hfirst := h₁.append_right put₂
  have hsecond := h₂.append_left taken₁
  rw [← List.append_assoc, ← List.append_assoc] at hsecond
  rw [List.append_assoc held] at hfirst
  exact hsecond.trans hfirst

lemma Served.refl (heap : Heap α) : Served before heap [] [] heap :=
  ⟨rfl, by simp, fun _ h => h⟩

lemma Served.trans (h₁ : Served before heap put₁ taken₁ heap₁) (h₂ : Served before heap₁ put₂ taken₂ heap₂) :
    Served before heap (put₁ ++ put₂) (taken₁ ++ taken₂) heap₂ where
  capacity := h₂.capacity.trans h₁.capacity
  perm := perm_of_taken h₁.perm h₂.perm
  ordered hw h := h₂.ordered hw (h₁.ordered hw h)

lemma push_of_full (before : α → α → Bool) (item : α) (h : heap.size = heap.capacity) :
    heap.push before item = .error (.heapFull heap.capacity) :=
  dif_neg (by rw [size] at h; omega)

lemma push_served (before : α → α → Bool) (item : α) (h : heap.size < heap.capacity) :
    ∃ heap', perform before (.push item) heap = (heap', { put := [item] }) ∧ Served before heap [item] [] heap' := by
  obtain ⟨heap', hpush, hperm, hcapacity, hordered⟩ := push_eq_ok before item h
  refine ⟨heap', by rw [perform, hpush], hcapacity, ?_, hordered⟩
  exact hperm.trans (List.perm_append_singleton item heap.toList).symm

lemma perform_served (before : α → α → Bool) (r : Request α) (heap : Heap α) :
    Served before heap (perform before r heap).2.put (perform before r heap).2.taken (perform before r heap).1 := by
  cases r with
  | push item =>
    rcases Nat.lt_or_eq_of_le heap.size_le with hroom | hfull
    · obtain ⟨heap', hperform, hserved⟩ := push_served before item hroom
      rwa [hperform]
    · rw [perform, push_of_full before item hfull]
      exact .refl heap
  | removeFront =>
    rw [perform]
    cases hr : heap.removeFront? before with
    | none => exact .refl heap
    | some p =>
      refine ⟨removeFront?_capacity hr, ?_, fun hw ho => removeFront?_isOrdered hw ho hr⟩
      simpa using removeFront?_perm hr
  | replaceFront item =>
    rw [perform]
    cases hf : heap.peek? with
    | none => exact .refl heap
    | some front =>
      obtain ⟨others, hlive⟩ := peek?_eq_some_iff.mp hf
      refine ⟨rfl, ?_, fun hw ho => replaceFront_isOrdered hw ho item⟩
      rw [hlive]
      refine (List.Perm.cons front (replaceFront_perm before hlive item)).trans ?_
      exact List.Perm.cons front (List.perm_append_singleton item others).symm
  | heapify =>
    refine ⟨rfl, ?_, fun hw _ => heapify_isOrdered hw heap⟩
    simpa [perform] using heapify_perm before heap
  | drain =>
    refine ⟨rfl, by simp [perform], fun _ _ => ?_⟩
    rw [isOrdered_iff]
    exact fun p c hp => absurd hp (Nat.not_lt_zero p)

lemma run_served (before : α → α → Bool) (rs : List (Request α)) (heap : Heap α) :
    Served before heap ((run before rs heap).2.flatMap Effect.put) ((run before rs heap).2.flatMap Effect.taken)
      (run before rs heap).1 := by
  induction rs generalizing heap with
  | nil => exact .refl heap
  | cons r rs ih => exact (perform_served before r heap).trans (ih (perform before r heap).1)

lemma removalOrder_spec (hw : IsWeakOrder before) (h : heap.IsOrdered before) :
    (heap.removalOrder before).Perm heap.toList ∧
      (heap.removalOrder before).Pairwise fun a b => before b a = false := by
  fun_induction removalOrder before heap with
  | case1 heap hr =>
    rw [removeFront?_eq_none_iff.mp hr]
    exact ⟨.nil, .nil⟩
  | case2 heap front rest hr ih =>
    obtain ⟨hperm, hsorted⟩ := ih (removeFront?_isOrdered hw h hr)
    have hwhole := removeFront?_perm hr
    refine ⟨(hperm.cons front).trans hwhole, List.pairwise_cons.mpr ⟨fun item hitem => ?_, hsorted⟩⟩
    exact peek?_least hw h (peek?_of_removeFront? hr)
      (hwhole.subset (List.mem_cons_of_mem front (hperm.subset hitem)))

/-- Whatever the requests, the heap stays in order and within its capacity, it holds the items that were put in and not
taken out, and its front is the one to be removed, before which no other item comes. Only a push onto a full heap is
refused. What is removed until the heap is empty are all of its items in order. -/
theorem requests_keep_least_in_front (hw : IsWeakOrder before) {start : Heap α} {items : List α}
    (hs : Opens before start items) (rs : List (Request α)) :
    (∃ heap effects, run before rs start = (heap, effects) ∧
      heap.IsOrdered before ∧ heap.size ≤ heap.capacity ∧ heap.capacity = start.capacity ∧
      (effects.flatMap Effect.taken ++ heap.toList).Perm (items ++ effects.flatMap Effect.put) ∧
      (heap.toList = [] ∧ heap.peek? = none ∧ heap.removeFront? before = none ∨
        ∃ front rest, heap.peek? = some front ∧ heap.removeFront? before = some (front, rest) ∧
          (front :: rest.toList).Perm heap.toList ∧ ∀ item ∈ heap.toList, before item front = false) ∧
      (∀ item, heap.size < heap.capacity ∧ (∃ heap', perform before (.push item) heap = (heap', { put := [item] })) ∨
        heap.size = heap.capacity ∧
          perform before (.push item) heap = (heap, { refusal := some (.heapFull heap.capacity) }))) ∧
    (start.removalOrder before).Perm items ∧ (start.removalOrder before).Pairwise fun a b => before b a = false := by
  have hstart := hs.isOrdered hw
  obtain ⟨hperm, hsorted⟩ := removalOrder_spec hw hstart
  refine ⟨⟨_, _, rfl, ?_⟩, hperm.trans hs.perm, hsorted⟩
  have hserved := run_served before rs start
  have hordered := hserved.ordered hw hstart
  generalize (run before rs start).1 = heap at *
  refine ⟨hordered, heap.size_le, hserved.capacity, hserved.perm.trans (hs.perm.append_right _), ?_, fun item => ?_⟩
  · cases hr : heap.removeFront? before with
    | none =>
      have hnil := removeFront?_eq_none_iff.mp hr
      exact .inl ⟨hnil, peek?_eq_none_iff.mpr hnil, rfl⟩
    | some p =>
      have hfront := peek?_of_removeFront? hr
      exact .inr ⟨p.1, p.2, hfront, rfl, removeFront?_perm hr, fun item => peek?_least hw hordered hfront⟩
  · rcases Nat.lt_or_eq_of_le heap.size_le with hroom | hfull
    · obtain ⟨heap', hperform, -⟩ := push_served before item hroom
      exact .inl ⟨hroom, heap', hperform⟩
    · exact .inr ⟨hfull, by rw [perform, push_of_full before item hfull]⟩

def keyBefore (a b : Nat × Nat) : Bool := a.1 < b.1

lemma keyBefore_isWeakOrder : IsWeakOrder keyBefore where
  irrefl a := by simp [keyBefore]
  trans a b c := by
    simp only [keyBefore, decide_eq_true_eq]
    exact Nat.lt_trans
  incomp_trans a b c := by
    simp only [keyBefore, decide_eq_true_eq]
    omega

def tiedItems : Array (Nat × Nat) := #[(3, 0), (2, 1), (3, 2), (2, 3)]

def tiedRequests : List (Request (Nat × Nat)) :=
  [.push (1, 4), .removeFront, .push (2, 5), .replaceFront (3, 6), .heapify]

theorem requests_keep_least_of_ties :
    ∃ heap effects, run keyBefore tiedRequests (ofArray keyBefore tiedItems) = (heap, effects) ∧
      effects.map Effect.refusal = [some (.heapFull 4), none, none, none, none] ∧
      heap.IsOrdered keyBefore ∧ heap.capacity = 4 ∧
      (effects.flatMap Effect.taken ++ heap.toList).Perm (tiedItems.toList ++ [(2, 5), (3, 6)]) ∧
      ∃ front, heap.peek? = some front ∧ ∀ item ∈ heap.toList, keyBefore item front = false := by
  obtain ⟨⟨heap, effects, hrun, hordered, -, hcapacity, hperm, hfront, -⟩, -⟩ :=
    requests_keep_least_in_front keyBefore_isWeakOrder (.ofArray tiedItems) tiedRequests
  have hrefusals : (run keyBefore tiedRequests (ofArray keyBefore tiedItems)).2.map Effect.refusal =
      [some (.heapFull 4), none, none, none, none] := by decide +kernel
  have hput : (run keyBefore tiedRequests (ofArray keyBefore tiedItems)).2.flatMap Effect.put = [(2, 5), (3, 6)] := by
    decide +kernel
  have hne : (run keyBefore tiedRequests (ofArray keyBefore tiedItems)).1.toList ≠ [] := by decide +kernel
  rw [hrun] at hrefusals hput hne
  dsimp only at hrefusals hput hne
  rw [hput] at hperm
  refine ⟨heap, effects, hrun, hrefusals, hordered, hcapacity, hperm, ?_⟩
  rcases hfront with ⟨hnil, -⟩ | ⟨front, -, hpeek, -, -, hleast⟩
  · exact absurd hnil hne
  · exact ⟨front, hpeek, hleast⟩

end InvertedIndex.Heap
