import InvertedIndex.Proofs.Cursor.Interrupted
import InvertedIndex.Proofs.Heap.Map
import InvertedIndex.Proofs.Outages
import Mathlib.Algebra.Order.BigOperators.Group.List

/-!
Cursors whose moves may fail, next to the same cursors without failures. A move that fails halfway has done a part of
its work; the move without failures ends in the same state from before that part and from after it.
-/

namespace InvertedIndex

namespace Outages

/-- The number of failures to come, where each of the outages stands at the number of a call. -/
noncomputable def faults (ps : List (Outages × Nat)) : ℕ∞ := (ps.map fun p => p.1.toCome p.2).sum

@[simp] lemma faults_nil : faults [] = 0 := rfl

@[simp] lemma faults_cons (p : Outages × Nat) (ps : List (Outages × Nat)) :
    faults (p :: ps) = p.1.toCome p.2 + faults ps := by
  rw [faults, List.map_cons, List.sum_cons, faults]

@[simp] lemma faults_append (ps qs : List (Outages × Nat)) : faults (ps ++ qs) = faults ps + faults qs := by
  rw [faults, List.map_append, List.sum_append, faults, faults]

lemma faults_ne_top {ps : List (Outages × Nat)} (h : ∀ p ∈ ps, p.1.toCome p.2 ≠ ⊤) : faults ps ≠ ⊤ := by
  induction ps with
  | nil => exact ENat.zero_ne_top
  | cons p ps ih =>
    rw [faults_cons]
    exact WithTop.add_ne_top.mpr ⟨h p List.mem_cons_self, ih fun q hq => h q (List.mem_cons_of_mem p hq)⟩

lemma faults_flatMap {α : Type} (f : α → List (Outages × Nat)) (as : List α) :
    faults (as.flatMap f) = (as.map fun a => faults (f a)).sum := by
  induction as with
  | nil => rfl
  | cons a as ih => rw [List.flatMap_cons, faults_append, ih, List.map_cons, List.sum_cons]

lemma faults_perm {ps qs : List (Outages × Nat)} (h : ps.Perm qs) : faults ps = faults qs := (h.map _).sum_eq

end Outages

open Outages (faults)

namespace Move

variable {C : Type} [DocCursor C] (reliable : C → C) (outages : C → List (Outages × Nat))

def steady (m : Move) (c : C) : Outcome C Unit := (m.apply (reliable c)).mapState reliable

def Resumes (m : Move) (c : C) : Outcome C Unit → Prop
  | .done c' () => m.steady reliable c = .done (reliable c') () ∧ faults (outages c') ≤ faults (outages c)
  | .failed c' e => m.steady reliable c' = m.steady reliable c ∧ (∃ p ∈ outages c, p.1 p.2 = some e) ∧
    faults (outages c') + 1 ≤ faults (outages c)
  | .fault x => m.steady reliable c = .fault x

end Move

class RetriableCursor (C : Type) [ScoredCursor C] [ForwardCursor C] where
  reliable : C → C
  outages : C → List (Outages × Nat)
  doc_reliable (c : C) : DocCursor.doc (reliable c) = DocCursor.doc c
  score_reliable (c : C) : ScoredCursor.score (reliable c) = ScoredCursor.score c
  reliable_reliable (c : C) : reliable (reliable c) = reliable c
  isSound_reliable {c : C} : ForwardCursor.IsSound c → ForwardCursor.IsSound (reliable c)
  faults_reliable (c : C) : faults (outages (reliable c)) = 0
  isSound_of_done {c c' : C} {m : Move} : ForwardCursor.IsSound c → m.apply c = .done c' () → ForwardCursor.IsSound c'
  isSound_of_failed {c c' : C} {m : Move} {e : Error} : ForwardCursor.IsSound c → m.apply c = .failed c' e →
    ForwardCursor.IsSound c' ∧ DocCursor.doc c' = DocCursor.doc c
  resumes {c : C} (m : Move) : ForwardCursor.IsSound c → m.Resumes reliable outages c (m.apply c)

namespace RetriableCursor

variable {C : Type} [ScoredCursor C] [ForwardCursor C] [RetriableCursor C] {c c' : C} {m : Move} {e : Error}

lemma resumes_done (h : ForwardCursor.IsSound c) (hm : m.apply c = .done c' ()) :
    m.steady reliable c = .done (reliable c') () ∧ faults (outages c') ≤ faults (outages c) := by
  have hres := resumes m h
  rwa [hm] at hres

lemma resumes_failed (h : ForwardCursor.IsSound c) (hm : m.apply c = .failed c' e) :
    m.steady reliable c' = m.steady reliable c ∧ (∃ p ∈ outages c, p.1 p.2 = some e) ∧
      faults (outages c') + 1 ≤ faults (outages c) := by
  have hres := resumes m h
  rwa [hm] at hres

lemma exists_done_of_faultless (h : ForwardCursor.IsSound c) (he : DocCursor.doc c ≠ DocId.exhausted)
    (hf : m.IsForward (DocCursor.doc c)) (hq : faults (outages c) = 0) :
    ∃ c', m.apply c = .done c' () ∧ ForwardCursor.IsSound c' ∧ faults (outages c') = 0 ∧
      m.keeps (DocCursor.doc c) (DocCursor.doc c') = true := by
  have hgoes := ForwardCursor.goes h he hf
  cases hm : m.apply c with
  | done c' u =>
    rw [hm] at hgoes
    obtain ⟨-, hle⟩ := resumes_done h hm
    exact ⟨c', rfl, hgoes.1, nonpos_iff_eq_zero.mp (hq ▸ hle), hgoes.2⟩
  | failed c' e =>
    obtain ⟨-, -, hspent⟩ := resumes_failed h hm
    simp [hq] at hspent
  | fault x =>
    rw [hm] at hgoes
    exact hgoes.elim

end RetriableCursor

namespace Disjunction

open Heap RetriableCursor

variable {C : Type} [ScoredCursor C]

def settled (d : Disjunction C) : Outcome (Heap C) Unit → Outcome (Disjunction C) Unit
  | .done live () => .done { d with live := live, doc := frontDoc live } ()
  | .failed live e => .failed { d with live := live } e
  | .fault x => .fault x

lemma moveLive_eq_settled (d : Disjunction C) (behind : DocId → Bool) (move : C → Outcome C Unit) :
    d.moveLive behind move = d.settled (moveFront behind move d.live.size d.live) := by
  rw [moveLive]
  cases moveFront behind move d.live.size d.live <;> rfl

lemma apply_eq_settled {d : Disjunction C} {m : Move} (hne : d.children ≠ []) (hf : m.IsForward d.doc) :
    m.apply d = d.settled (moveFront (m.behind d.doc) m.apply d.live.size d.live) := by
  rw [apply_eq_moveLive hne hf, moveLive_eq_settled]

def settleFront (live : Heap C) (front : C) : Heap C :=
  if DocCursor.isExhausted front then (live.removeFront? docBefore).elim live Prod.snd
  else live.replaceFront docBefore front

lemma settleFront_perm {live : Heap C} {front : C} {others : List C} (h : live.toList = front :: others) (c : C) :
    (settleFront live c).toList.Perm (if DocCursor.isExhausted c then others else c :: others) := by
  rw [settleFront]
  split
  · obtain ⟨rest, hr, hrest⟩ := exists_removeFront? docBefore h
    rw [hr]
    exact hrest
  · exact replaceFront_perm docBefore h c

lemma mem_settleFront {live : Heap C} {front b c : C} (hf : live.peek? = some front)
    (h : b ∈ (settleFront live c).toList) : b ∈ live.toList ∨ b = c ∧ ¬ DocCursor.isExhausted c = true := by
  obtain ⟨others, hlive⟩ := peek?_eq_some_iff.mp hf
  have hmem := (settleFront_perm hlive c).subset h
  rw [hlive]
  split at hmem
  · exact .inl (List.mem_cons_of_mem front hmem)
  · next hx => exact (List.mem_cons.mp hmem).symm.imp (List.mem_cons_of_mem front) fun hb => ⟨hb, hx⟩

lemma settleFront_setFront (live : Heap C) (item c : C) :
    settleFront (live.setFront item) c = settleFront live c := by
  rw [settleFront, settleFront]
  split
  · by_cases h : 0 < live.slots.size
    · have h' : 0 < (live.setFront item).slots.size := by simpa [setFront] using h
      rw [removeFront?, removeFront?, dif_pos h, dif_pos h', dropFront_setFront live item h' h]
      rfl
    · have hsame : live.setFront item = live := by
        have hnil : live.slots = #[] := Array.eq_empty_of_size_eq_zero (by omega)
        cases live
        simp_all [setFront]
      rw [hsame]
  · rw [replaceFront, replaceFront, setFront_setFront]

lemma moveFront_of_front {behind : DocId → Bool} {move : C → Outcome C Unit} {live : Heap C} {front c : C}
    (hf : live.peek? = some front) (hb : behind (DocCursor.doc front) = true) (hm : move front = .done c ())
    (limit : Nat) : moveFront behind move (limit + 1) live = moveFront behind move limit (settleFront live c) := by
  rw [moveFront, hf]
  simp only [hb, if_true, hm]
  rw [settleFront]
  split <;> rfl

lemma moveFront_of_not_behind {behind : DocId → Bool} {move : C → Outcome C Unit} {live : Heap C}
    (h : ∀ front, live.peek? = some front → behind (DocCursor.doc front) = false) (limit : Nat) :
    moveFront behind move limit live = .done live () := by
  cases limit with
  | zero => rfl
  | succ limit =>
    rw [moveFront]
    cases hf : live.peek? with
    | none => rfl
    | some front => simp [h front hf]

lemma exists_behind_or (behind : DocId → Bool) (live : Heap C) :
    (∃ front, live.peek? = some front ∧ behind (DocCursor.doc front) = true) ∨
      ∀ front, live.peek? = some front → behind (DocCursor.doc front) = false := by
  cases hf : live.peek? with
  | none => exact .inr nofun
  | some front => cases hb : behind (DocCursor.doc front) <;> simp [hb]

section Limit

variable {behind : DocId → Bool} {move : C → Outcome C Unit} {low : DocId}

lemma OnePass.settleFront {live : Heap C} {front c : C} (h : OnePass behind move low live.toList)
    (hf : live.peek? = some front) (hb : behind (DocCursor.doc front) = true) (hm : move front = .done c ()) :
    OnePass behind move low (settleFront live c).toList ∧
      (settleFront live c).toList.countP (fun c => behind (DocCursor.doc c)) + 1 =
        live.toList.countP (fun c => behind (DocCursor.doc c)) := by
  obtain ⟨others, hlive⟩ := peek?_eq_some_iff.mp hf
  have hperm := settleFront_perm hlive c
  rw [hlive] at h
  obtain ⟨hnb, -⟩ := h.enough front List.mem_cons_self hb c hm
  rw [hperm.countP_eq, hlive, List.countP_cons_of_pos (p := fun c => behind (DocCursor.doc c)) hb]
  split at hperm
  · exact ⟨h.of_subset fun d hd => List.mem_cons_of_mem front (hperm.subset hd), by rw [if_pos ‹_›]⟩
  · refine ⟨h.cons_moved hb hm hperm, ?_⟩
    rw [if_neg ‹_›, List.countP_cons_of_neg (by simp [hnb])]

lemma moveFront_eq_of_limit {limit limit' : Nat} {live : Heap C} (hp : OnePass behind move low live.toList)
    (hl : live.toList.countP (fun c => behind (DocCursor.doc c)) ≤ limit)
    (hl' : live.toList.countP (fun c => behind (DocCursor.doc c)) ≤ limit') :
    moveFront behind move limit live = moveFront behind move limit' live := by
  induction limit generalizing limit' live with
  | zero =>
    rw [moveFront_of_not_behind, moveFront_of_not_behind] <;>
    · intro front hf
      obtain ⟨others, hlive⟩ := peek?_eq_some_iff.mp hf
      have hnone := List.countP_eq_zero.mp (Nat.le_zero.mp hl) front (by simp [hlive])
      simpa using hnone
  | succ limit ih =>
    rcases exists_behind_or behind live with ⟨front, hf, hb⟩ | hnone
    · obtain ⟨others, hlive⟩ := peek?_eq_some_iff.mp hf
      obtain ⟨limit', rfl⟩ : ∃ k, limit' = k + 1 := by
        refine Nat.exists_eq_add_one_of_ne_zero fun h0 => ?_
        rw [h0, Nat.le_zero] at hl'
        exact List.countP_eq_zero.mp hl' front (by simp [hlive]) hb
      cases hm : move front with
      | done c u =>
        obtain ⟨hp', hcount⟩ := hp.settleFront hf hb hm
        rw [moveFront_of_front hf hb hm, moveFront_of_front hf hb hm]
        exact ih hp' (by omega) (by omega)
      | failed c e => simp [moveFront, hf, hb, hm]
      | fault x => simp [moveFront, hf, hb, hm]
    · rw [moveFront_of_not_behind hnone, moveFront_of_not_behind hnone]

end Limit

section Pass

variable [ForwardCursor C] {m : Move} {current : DocId} {c c' : C} {e : Error}

structure IsAhead (current : DocId) (c : C) : Prop where
  sound : ForwardCursor.IsSound c
  live : DocCursor.doc c ≠ DocId.exhausted
  le : current ≤ DocCursor.doc c

lemma IsAhead.goes (h : IsAhead current c) (hb : m.behind current (DocCursor.doc c) = true) :
    m.Goes ForwardCursor.IsSound (DocCursor.doc c) (m.apply c) :=
  ForwardCursor.goes h.sound h.live (Move.isForward_of_behind hb)

lemma IsAhead.done (h : IsAhead current c) (hb : m.behind current (DocCursor.doc c) = true)
    (hm : m.apply c = .done c' ()) (hx : ¬ DocCursor.isExhausted c' = true) : IsAhead current c' := by
  have hgoes := h.goes hb
  rw [hm] at hgoes
  exact ⟨hgoes.1, mt DocCursor.isExhausted_iff.mpr hx, (Move.passes_of_keeps hb h.le hgoes.2).2⟩

lemma IsAhead.failed (h : IsAhead current c) (hb : m.behind current (DocCursor.doc c) = true)
    (hm : m.apply c = .failed c' e) : IsAhead current c' ∧ DocCursor.doc c' = DocCursor.doc c := by
  have hgoes := h.goes hb
  rw [hm] at hgoes
  obtain ⟨hsound, hdoc⟩ := hgoes
  exact ⟨⟨hsound, hdoc ▸ h.live, hdoc ▸ h.le⟩, hdoc⟩

lemma IsSound.isAhead {d : Disjunction C} (h : d.IsSound) : ∀ c ∈ d.live.toList, IsAhead d.doc c :=
  fun c hc => ⟨h.sound c hc, h.live c hc, h.doc_le c hc⟩

lemma onePass_of_isAhead {live : Heap C} (h : ∀ c ∈ live.toList, IsAhead current c) :
    OnePass (m.behind current) m.apply current live.toList :=
  onePass_of_goes (fun c hc => (h c hc).le) fun c hc hb => (h c hc).goes hb

lemma isAhead_settleFront {live : Heap C} {front : C} (h : ∀ b ∈ live.toList, IsAhead current b)
    (hf : live.peek? = some front) (hb : m.behind current (DocCursor.doc front) = true)
    (hm : m.apply front = .done c ()) : ∀ b ∈ (settleFront live c).toList, IsAhead current b := by
  obtain ⟨others, hlive⟩ := peek?_eq_some_iff.mp hf
  intro b hmem
  rcases mem_settleFront hf hmem with hold | ⟨rfl, hx⟩
  · exact h b hold
  · exact (h front (by simp [hlive])).done hb hm hx

lemma isAhead_setFront {live : Heap C} {front : C} (h : ∀ b ∈ live.toList, IsAhead current b)
    (hf : live.peek? = some front) (hb : m.behind current (DocCursor.doc front) = true)
    (hm : m.apply front = .failed c e) : ∀ b ∈ (live.setFront c).toList, IsAhead current b := by
  obtain ⟨others, hlive⟩ := peek?_eq_some_iff.mp hf
  intro b hmem
  rw [setFront_toList, hlive] at hmem
  rcases List.mem_cons.mp hmem with rfl | hold
  · exact ((h front (by simp [hlive])).failed hb hm).1
  · exact h b (hlive ▸ List.mem_cons_of_mem front hold)

variable [RetriableCursor C]

lemma docBefore_reliable (a b : C) : docBefore (reliable a) (reliable b) = docBefore a b := by
  rw [docBefore, docBefore, doc_reliable, doc_reliable]

lemma isExhausted_reliable (c : C) : DocCursor.isExhausted (reliable c) = DocCursor.isExhausted c := by
  rw [DocCursor.isExhausted, DocCursor.isExhausted, doc_reliable]

lemma map_settleFront (live : Heap C) (c : C) :
    (settleFront live c).map reliable = settleFront (live.map reliable) (reliable c) := by
  rw [settleFront, settleFront, isExhausted_reliable]
  split
  · rw [removeFront?_map docBefore_reliable]
    cases live.removeFront? docBefore <;> rfl
  · exact map_replaceFront docBefore_reliable live c

lemma IsAhead.reliable (h : IsAhead current c) : IsAhead current (reliable c) :=
  ⟨isSound_reliable h.sound, doc_reliable c ▸ h.live, doc_reliable c ▸ h.le⟩

lemma IsAhead.exists_done (h : IsAhead current c) (hq : faults (outages c) = 0)
    (hb : m.behind current (DocCursor.doc c) = true) :
    ∃ c', m.apply c = .done c' () ∧ m.steady RetriableCursor.reliable c = .done (RetriableCursor.reliable c') () ∧
      faults (outages c') = 0 := by
  obtain ⟨c', hm, -, hq', -⟩ := exists_done_of_faultless h.sound h.live (Move.isForward_of_behind hb) hq
  exact ⟨c', hm, (resumes_done h.sound hm).1, hq'⟩

structure IsSteady (current : DocId) (live : Heap C) : Prop where
  ahead : ∀ c ∈ live.toList, IsAhead current c
  faultless : ∀ c ∈ live.toList, faults (outages c) = 0

lemma IsSteady.settleFront {live : Heap C} {front : C} (h : IsSteady current live) (hf : live.peek? = some front)
    (hb : m.behind current (DocCursor.doc front) = true) :
    ∃ c, m.apply front = .done c () ∧ m.steady RetriableCursor.reliable front = .done (RetriableCursor.reliable c) () ∧
      IsSteady current (settleFront live c) := by
  obtain ⟨others, hlive⟩ := peek?_eq_some_iff.mp hf
  have hmem : front ∈ live.toList := by simp [hlive]
  obtain ⟨c, hm, hs, hq⟩ := (h.ahead front hmem).exists_done (h.faultless front hmem) hb
  refine ⟨c, hm, hs, fun b hb' => ?_, fun b hb' => ?_⟩ <;> rcases mem_settleFront hf hb' with hold | ⟨rfl, hx⟩
  · exact h.ahead b hold
  · exact (h.ahead front hmem).done hb hm hx
  · exact h.faultless b hold
  · exact hq

lemma isSteady_map {live : Heap C} (h : ∀ c ∈ live.toList, IsAhead current c) :
    IsSteady current (live.map reliable) := by
  refine ⟨fun c hc => ?_, fun c hc => ?_⟩ <;> rw [toList_map] at hc <;> obtain ⟨b, hb, rfl⟩ := List.mem_map.mp hc
  · exact (h b hb).reliable
  · exact faults_reliable b

def steadyPass (m : Move) (current : DocId) (limit : Nat) (live : Heap C) : Outcome (Heap C) Unit :=
  (moveFront (m.behind current) m.apply limit live).mapState (map reliable)

lemma steadyPass_of_front {live₁ live₂ : Heap C} {front₁ front₂ : C} {limit : Nat} (h₁ : IsSteady current live₁)
    (h₂ : IsSteady current live₂) (hf₁ : live₁.peek? = some front₁) (hf₂ : live₂.peek? = some front₂)
    (hb₁ : m.behind current (DocCursor.doc front₁) = true) (hb₂ : m.behind current (DocCursor.doc front₂) = true)
    (hsteady : m.steady reliable front₁ = m.steady reliable front₂)
    (hlive : ∀ c, settleFront (live₁.map reliable) c = settleFront (live₂.map reliable) c)
    (hrest : ∀ {rest₁ rest₂ : Heap C}, IsSteady current rest₁ → IsSteady current rest₂ →
      rest₁.map reliable = rest₂.map reliable → steadyPass m current limit rest₁ = steadyPass m current limit rest₂) :
    steadyPass m current (limit + 1) live₁ = steadyPass m current (limit + 1) live₂ := by
  obtain ⟨c₁, hm₁, hs₁, hrest₁⟩ := h₁.settleFront hf₁ hb₁
  obtain ⟨c₂, hm₂, hs₂, hrest₂⟩ := h₂.settleFront hf₂ hb₂
  have hc : reliable c₁ = reliable c₂ := by
    rw [hs₁, hs₂] at hsteady
    exact (Outcome.done.inj hsteady).1
  rw [steadyPass, steadyPass, moveFront_of_front hf₁ hb₁ hm₁, moveFront_of_front hf₂ hb₂ hm₂]
  exact hrest hrest₁ hrest₂ (by rw [map_settleFront, map_settleFront, hc, hlive])

lemma steadyPass_congr {limit : Nat} {live₁ live₂ : Heap C} (h₁ : IsSteady current live₁)
    (h₂ : IsSteady current live₂) (hmap : live₁.map reliable = live₂.map reliable) :
    steadyPass m current limit live₁ = steadyPass m current limit live₂ := by
  induction limit generalizing live₁ live₂ with
  | zero => rw [steadyPass, steadyPass, moveFront, moveFront, Outcome.mapState, Outcome.mapState, hmap]
  | succ limit ih =>
    have hfront : live₁.peek?.map reliable = live₂.peek?.map reliable := by rw [← peek?_map, hmap, peek?_map]
    cases hf₁ : live₁.peek? with
    | none =>
      have hf₂ : live₂.peek? = none := by simpa [hf₁] using hfront.symm
      rw [steadyPass, steadyPass, moveFront, moveFront, hf₁, hf₂]
      simp only [Outcome.mapState, hmap]
    | some front₁ =>
      obtain ⟨front₂, hf₂, hfr⟩ : ∃ front₂, live₂.peek? = some front₂ ∧ reliable front₂ = reliable front₁ := by
        simpa [hf₁] using hfront.symm
      have hdoc : DocCursor.doc front₂ = DocCursor.doc front₁ := by
        rw [← doc_reliable front₂, hfr, doc_reliable]
      by_cases hb : m.behind current (DocCursor.doc front₁) = true
      · exact steadyPass_of_front h₁ h₂ hf₁ hf₂ hb (hdoc ▸ hb) (by rw [Move.steady, Move.steady, hfr])
          (fun c => by rw [hmap]) ih
      · simp only [steadyPass, moveFront, hf₁, hf₂, hdoc, if_neg hb, Outcome.mapState, hmap]

lemma map_reliable_map (live : Heap C) : (live.map reliable).map reliable = live.map reliable := by
  rw [map_map]
  congr 1
  exact funext reliable_reliable

lemma steadyPass_of_done {live : Heap C} {front : C} (h : ∀ b ∈ live.toList, IsAhead current b)
    (hf : live.peek? = some front) (hb : m.behind current (DocCursor.doc front) = true)
    (hm : m.apply front = .done c ()) (limit : Nat) :
    steadyPass m current (limit + 1) (live.map reliable) =
      steadyPass m current limit ((settleFront live c).map reliable) := by
  obtain ⟨others, hlive⟩ := peek?_eq_some_iff.mp hf
  obtain ⟨hs, -⟩ := resumes_done (h front (by simp [hlive])).sound hm
  have hfr : (live.map reliable).peek? = some (reliable front) := by rw [peek?_map, hf, Option.map_some]
  have hbr : m.behind current (DocCursor.doc (reliable front)) = true := by rwa [doc_reliable]
  obtain ⟨b, hmb, hsb, hrest⟩ := (isSteady_map h).settleFront hfr hbr
  have hbc : reliable b = reliable c := by
    rw [Move.steady, reliable_reliable, ← Move.steady, hs] at hsb
    exact (Outcome.done.inj hsb).1.symm
  rw [steadyPass, moveFront_of_front hfr hbr hmb]
  refine steadyPass_congr hrest (isSteady_map (isAhead_settleFront h hf hb hm)) ?_
  rw [map_reliable_map, map_settleFront, hbc, map_reliable_map, map_settleFront]

lemma steadyPass_of_failed {live : Heap C} {front : C} (h : ∀ b ∈ live.toList, IsAhead current b)
    (hf : live.peek? = some front) (hb : m.behind current (DocCursor.doc front) = true)
    (hm : m.apply front = .failed c e) (limit : Nat) :
    steadyPass m current (limit + 1) ((live.setFront c).map reliable) =
      steadyPass m current (limit + 1) (live.map reliable) := by
  obtain ⟨others, hlive⟩ := peek?_eq_some_iff.mp hf
  have hmem : front ∈ live.toList := by simp [hlive]
  obtain ⟨hs, -⟩ := resumes_failed (h front hmem).sound hm
  obtain ⟨-, hdoc⟩ := (h front hmem).failed hb hm
  have hfc : (live.setFront c).peek? = some c :=
    peek?_eq_some_iff.mpr ⟨others, by simp [setFront_toList, hlive]⟩
  refine steadyPass_of_front (isSteady_map (isAhead_setFront h hf hb hm)) (isSteady_map h)
    (by rw [peek?_map, hfc, Option.map_some]) (by rw [peek?_map, hf, Option.map_some])
    (by rwa [doc_reliable, hdoc]) (by rwa [doc_reliable]) ?_ (fun b => ?_) steadyPass_congr
  · rw [Move.steady, reliable_reliable, Move.steady, reliable_reliable]
    exact hs
  · rw [map_reliable_map, map_reliable_map, map_setFront, settleFront_setFront]

def PassResumes (m : Move) (current : DocId) (target : Outcome (Heap C) Unit) : Outcome (Heap C) Unit → Prop
  | .done live () => target = .done (live.map reliable) ()
  | .failed live _ => ∃ limit, live.toList.countP (fun c => m.behind current (DocCursor.doc c)) ≤ limit ∧
    steadyPass m current limit (live.map reliable) = target
  | .fault _ => True

lemma passResumes (limit : Nat) {live : Heap C} (h : ∀ b ∈ live.toList, IsAhead current b)
    (hl : live.toList.countP (fun b => m.behind current (DocCursor.doc b)) ≤ limit) :
    PassResumes m current (steadyPass m current limit (live.map reliable))
      (moveFront (m.behind current) m.apply limit live) := by
  induction limit generalizing live with
  | zero => exact congrArg (Outcome.done · ()) (map_reliable_map live)
  | succ limit ih =>
    rcases exists_behind_or (m.behind current) live with ⟨front, hf, hb⟩ | hnone
    · cases hm : m.apply front with
      | done c u =>
        obtain ⟨-, hcount⟩ := (onePass_of_isAhead h).settleFront hf hb hm
        rw [moveFront_of_front hf hb hm, steadyPass_of_done h hf hb hm]
        exact ih (isAhead_settleFront h hf hb hm) (by omega)
      | failed c e =>
        simp only [moveFront, hf, hb, hm, if_true]
        refine ⟨limit + 1, ?_, steadyPass_of_failed h hf hb hm limit⟩
        obtain ⟨others, hlive⟩ := peek?_eq_some_iff.mp hf
        have hdoc := ((h front (by simp [hlive])).failed hb hm).2
        rw [setFront_toList, hlive]
        rw [hlive] at hl
        simpa [List.countP_cons, hdoc] using hl
      | fault x => simp only [moveFront, hf, hb, hm, if_true, PassResumes]
    · have hnone' : ∀ front, (live.map reliable).peek? = some front →
          m.behind current (DocCursor.doc front) = false := by
        intro front hfr
        rw [peek?_map, Option.map_eq_some_iff] at hfr
        obtain ⟨front, hf, rfl⟩ := hfr
        rw [doc_reliable]
        exact hnone front hf
      rw [moveFront_of_not_behind hnone, steadyPass, moveFront_of_not_behind hnone']
      exact congrArg (Outcome.done · ()) (map_reliable_map live)

end Pass

end Disjunction

end InvertedIndex
