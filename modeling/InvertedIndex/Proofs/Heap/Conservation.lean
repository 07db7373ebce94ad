import InvertedIndex.Proofs.Heap.PriorityQueue

namespace InvertedIndex.Heap

variable {α : Type u}

inductive Operation (α : Type u) where
  | push (item : α)
  | removeFront
  | adjustFront
  | siftDown (i : UInt64)
  | heapify
  | drain

namespace Operation

def pushed : Operation α → List α
  | .push item => [item]
  | .removeFront | .adjustFront | .siftDown _ | .heapify | .drain => []

def sizeAfter (n : Nat) : Operation α → Nat
  | .push _ => n + 1
  | .removeFront => n - 1
  | .drain => 0
  | .adjustFront | .siftDown _ | .heapify => n

def IsAllowed (capacity n : Nat) : Operation α → Prop
  | .push _ => n < capacity
  | .siftDown i => i.toNat < n
  | .removeFront | .adjustFront | .heapify | .drain => True

instance (capacity n : Nat) : (o : Operation α) → Decidable (o.IsAllowed capacity n)
  | .push _ => inferInstanceAs (Decidable (n < capacity))
  | .siftDown i => inferInstanceAs (Decidable (i.toNat < n))
  | .removeFront | .adjustFront | .heapify | .drain => instDecidableTrue

end Operation

def operate (before : α → α → Bool) (o : Operation α) (heap : Heap α) : Except Fault (Heap α × List α) :=
  match o with
  | .push item => (heap.push before item).map fun heap' => (heap', [])
  | .removeFront =>
    match heap.removeFront? before with
    | some (front, rest) => .ok (rest, [front])
    | none => .ok (heap, [])
  | .adjustFront => .ok (heap.adjustFront before, [])
  | .siftDown i => (heap.siftDownAt before i).map fun heap' => (heap', [])
  | .heapify => .ok (heap.heapify before, [])
  | .drain => .ok (heap.clear, heap.toList)

variable {heap heap₁ heap₂ : Heap α} {pushed pushed₁ pushed₂ taken taken₁ taken₂ : List α}

structure Conserves (heap : Heap α) (pushed taken : List α) (heap' : Heap α) : Prop where
  capacity : heap'.capacity = heap.capacity
  perm : (taken ++ heap'.toList).Perm (heap.toList ++ pushed)

lemma Conserves.refl (heap : Heap α) : Conserves heap [] [] heap := ⟨rfl, by simp⟩

lemma Conserves.of_perm (hcapacity : heap₁.capacity = heap.capacity) (h : heap₁.toList.Perm heap.toList) :
    Conserves heap [] [] heap₁ := ⟨hcapacity, by simpa using h⟩

lemma Conserves.trans (h₁ : Conserves heap pushed₁ taken₁ heap₁) (h₂ : Conserves heap₁ pushed₂ taken₂ heap₂) :
    Conserves heap (pushed₁ ++ pushed₂) (taken₁ ++ taken₂) heap₂ :=
  ⟨h₂.capacity.trans h₁.capacity, perm_of_taken h₁.perm h₂.perm⟩

lemma operate_conserves (before : α → α → Bool) (o : Operation α) (hfits : 2 * heap.capacity < UInt64.size)
    (h : o.IsAllowed heap.capacity heap.size) : ∃ heap' taken, operate before o heap = .ok (heap', taken) ∧
      Conserves heap o.pushed taken heap' ∧ heap'.size = o.sizeAfter heap.size := by
  cases o with
  | push item =>
    obtain ⟨heap', hpush, hperm, hcapacity, -⟩ := push_eq_ok before item h
    refine ⟨heap', [], by rw [operate, hpush]; rfl, ⟨hcapacity, ?_⟩, hperm.length_eq⟩
    exact hperm.trans (List.perm_append_singleton item heap.toList).symm
  | removeFront =>
    rw [operate]
    cases hr : heap.removeFront? before with
    | none =>
      have hnil : heap.size = 0 := congrArg List.length (removeFront?_eq_none_iff.mp hr)
      exact ⟨heap, [], rfl, .refl heap, by rw [hnil]; rfl⟩
    | some p =>
      have hsize := size_of_removeFront? before hr
      refine ⟨p.2, [p.1], rfl, ⟨removeFront?_capacity hr, ?_⟩, Nat.eq_sub_of_add_eq hsize⟩
      simpa [Operation.pushed] using removeFront?_perm hr
  | adjustFront =>
    have hperm := adjustFront_perm before heap
    exact ⟨_, [], rfl, .of_perm rfl hperm, hperm.length_eq⟩
  | siftDown i =>
    have hperm := siftDownFrom_perm before heap i.toNat
    have hsift : heap.siftDownAt before i = .ok (heap.siftDownFrom before i.toNat) := by
      have hi : i.toNat < heap.size := h
      have hle : heap.size ≤ heap.capacity := heap.size_le
      exact if_pos (by omega)
    exact ⟨heap.siftDownFrom before i.toNat, [], by rw [operate, hsift]; rfl, .of_perm rfl hperm, hperm.length_eq⟩
  | heapify =>
    have hperm := heapify_perm before heap
    exact ⟨_, [], rfl, .of_perm rfl hperm, hperm.length_eq⟩
  | drain => exact ⟨_, _, rfl, ⟨rfl, by simp [Operation.pushed]⟩, rfl⟩

def operateAll : List ((α → α → Bool) × Operation α) → Heap α → Except Fault (Heap α × List α)
  | [], heap => .ok (heap, [])
  | (before, o) :: os, heap =>
    match operate before o heap with
    | .ok (heap', taken) => (operateAll os heap').map fun (heap'', others) => (heap'', taken ++ others)
    | .error x => .error x

def AllAllowed (capacity : Nat) : List ((α → α → Bool) × Operation α) → (n : Nat) → Prop
  | [], _ => True
  | (_, o) :: os, n => o.IsAllowed capacity n ∧ AllAllowed capacity os (o.sizeAfter n)

instance decidableAllAllowed (capacity : Nat) :
    (os : List ((α → α → Bool) × Operation α)) → (n : Nat) → Decidable (AllAllowed capacity os n)
  | [], _ => instDecidableTrue
  | (_, o) :: os, n =>
    have := decidableAllAllowed capacity os (o.sizeAfter n)
    inferInstanceAs (Decidable (o.IsAllowed capacity n ∧ AllAllowed capacity os (o.sizeAfter n)))

lemma operateAll_conserves (os : List ((α → α → Bool) × Operation α)) (hfits : 2 * heap.capacity < UInt64.size)
    (h : AllAllowed heap.capacity os heap.size) : ∃ heap' taken, operateAll os heap = .ok (heap', taken) ∧
      Conserves heap (os.flatMap fun o => o.2.pushed) taken heap' ∧
      heap'.size = os.foldl (fun n o => o.2.sizeAfter n) heap.size := by
  induction os generalizing heap with
  | nil => exact ⟨heap, [], rfl, .refl heap, rfl⟩
  | cons o os ih =>
    obtain ⟨before, o⟩ := o
    obtain ⟨hallowed, hrest⟩ := h
    obtain ⟨heap₁, taken, hop, hstep, hsize⟩ := operate_conserves before o hfits hallowed
    rw [← hsize, ← hstep.capacity] at hrest
    obtain ⟨heap₂, others, hops, hrun, hsizes⟩ := ih (by rwa [hstep.capacity]) hrest
    refine ⟨heap₂, taken ++ others, by simp only [operateAll, hop, hops]; rfl, hstep.trans hrun, ?_⟩
    rw [hsizes, hsize, List.foldl_cons]

/-- Operations that are allowed do not fail, whatever the answers of their predicates. The items taken out and the ones
left are those that were there at first and those pushed. The slots set aside take up less than half of the
addresses. -/
theorem operations_conserve_items (heap : Heap α) (hfits : 2 * heap.capacity < UInt64.size)
    (os : List ((α → α → Bool) × Operation α)) (h : AllAllowed heap.capacity os heap.size) :
    ∃ heap' taken, operateAll os heap = .ok (heap', taken) ∧
      (taken ++ heap'.toList).Perm (heap.toList ++ os.flatMap fun o => o.2.pushed) ∧
      heap'.size = os.foldl (fun n o => o.2.sizeAfter n) heap.size ∧
      heap'.size ≤ heap'.capacity ∧ heap'.capacity = heap.capacity := by
  obtain ⟨heap', taken, hops, hconserves, hsize⟩ := operateAll_conserves os hfits h
  exact ⟨heap', taken, hops, hconserves.perm, hsize, heap'.size_le, hconserves.capacity⟩

def disorderly : List ((Nat → Nat → Bool) × Operation Nat) :=
  [(fun _ _ => true, .push 4), (fun a b => a ≤ b, .heapify), (fun a b => a != b, .siftDown 1),
    (fun _ _ => true, .removeFront), (fun a b => a % 2 ≤ b % 2, .adjustFront), (fun a b => b ≤ a, .push 4),
    (fun _ _ => true, .drain), (fun _ _ => false, .removeFront), (fun a b => a ≤ b, .push 7)]

theorem operations_conserve_items_of_disorderly :
    ∃ heap taken, operateAll disorderly ⟨#[2, 4, 2, 3], 5, by decide⟩ = .ok (heap, taken) ∧
      (taken ++ heap.toList).Perm [2, 4, 2, 3, 4, 4, 7] ∧ taken.length = 6 ∧ heap.toList = [7] ∧ heap.capacity = 5 := by
  obtain ⟨heap, taken, hops, hperm, hsize, -, hcapacity⟩ :=
    operations_conserve_items ⟨#[2, 4, 2, 3], 5, by decide⟩ (by decide) disorderly (by decide +kernel)
  have hends : (operateAll disorderly ⟨#[2, 4, 2, 3], 5, by decide⟩).toOption.map
      (fun r => (r.2.length, r.1.toList)) = some (6, [7]) := by decide +kernel
  rw [hops] at hends
  obtain ⟨hlen, hleft⟩ := Prod.mk.inj (Option.some.inj hends)
  exact ⟨heap, taken, hops, hperm, hlen, hleft, hcapacity⟩

end InvertedIndex.Heap
