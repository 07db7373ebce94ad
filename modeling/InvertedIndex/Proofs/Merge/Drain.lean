import InvertedIndex.Proofs.Merge.Balance
import InvertedIndex.Proofs.Merge.Progress
import InvertedIndex.Proofs.Merge.Rounds

namespace InvertedIndex

open Heap MergeSource

namespace MergeSource

variable {C : Type} [TermCursor C] [WalkingCursor C]

def moveErrors (sources : List (MergeSource C)) : List Error :=
  sources.flatMap fun s => WalkingCursor.failures s.cursor

variable {sources others : List (MergeSource C)}

lemma moveErrors_eq_nil_iff : moveErrors sources = [] ↔ ∀ s ∈ sources, WalkingCursor.failures s.cursor = [] :=
  List.flatMap_eq_nil_iff

lemma moveErrors_append (sources others : List (MergeSource C)) :
    moveErrors (sources ++ others) = moveErrors sources ++ moveErrors others := List.flatMap_append

lemma moveErrors_perm (h : sources.Perm others) : (moveErrors sources).Perm (moveErrors others) := h.flatMap_right _

lemma moveErrors_eq_nil {C : Type} [TermCursor C] [ListedCursor C] (sources : List (MergeSource C)) :
    moveErrors sources = [] := moveErrors_eq_nil_iff.mpr fun _ _ => rfl

end MergeSource

namespace MergeQueue

variable {C : Type} [TermCursor C] [WalkingCursor C] {q q' : MergeQueue C} {g : TermGroup C}
  {heap : Heap (MergeSource C)} {members : List (MergeSource C)}

lemma Taken.moveErrors_eq_nil (ht : Taken g.term q.heap g.members heap) (h : moveErrors q.sources = []) :
    moveErrors (sources { q with heap := heap } ++ g.members) = [] := by
  rw [moveErrors_eq_nil_iff] at h ⊢
  intro s hs
  refine h s ?_
  simp only [sources, held, List.mem_append, ← ht.perm.mem_iff] at hs ⊢
  tauto

lemma moveErrors_abandon (h : moveErrors (q.sources ++ g.members) = []) : moveErrors (q.abandon g).sources = [] := by
  rw [moveErrors_eq_nil_iff] at h ⊢
  intro s hs
  refine h s ?_
  simp only [sources, held, abandon, List.mem_append] at hs ⊢
  tauto

lemma Advanced.moveErrors_eq_nil (ha : Advanced q members q') (hv : ∀ s ∈ members, WalkingCursor.IsValid s.cursor)
    (hne : ∀ s ∈ members, s.listed.entries ≠ []) (h : moveErrors (q.sources ++ members) = []) :
    moveErrors q'.sources = [] := by
  rw [moveErrors_eq_nil_iff] at h ⊢
  have hold (s : MergeSource C) (hs : s ∈ q.sources) : WalkingCursor.failures s.cursor = [] :=
    h s (List.mem_append_left _ hs)
  have hmoved (s m : MergeSource C) (hm : m ∈ members) (hs : s ∈ m.requeued ++ m.finished) :
      WalkingCursor.failures s.cursor = [] :=
    (walked (hv m hm) (hne m hm) hs).2.trans (h m (List.mem_append_right _ hm))
  intro s hs
  simp only [sources, held, ha.retired, ha.closed, List.mem_append, ha.perm.mem_iff, List.mem_flatMap] at hs
  rcases hs with ((hs | ⟨m, hm, hs⟩) | hs) | hs | ⟨m, hm, hs⟩
  · exact hold s (by simp [sources, held, hs])
  · exact hmoved s m hm (List.mem_append_left _ hs)
  · exact hold s (by simp [sources, held, hs])
  · exact hold s (by simp [sources, held, hs])
  · exact hmoved s m hm (List.mem_append_right _ hs)

def AdvanceOutcome (q : MergeQueue C) (g : TermGroup C) : Outcome (MergeQueue C) Unit → Prop
  | .done q' () => (∀ s ∈ g.members, s.Moves) ∧ Advanced q g.members q' ∧ moveErrors q'.sources = []
  | .failed q' e => moveErrors q'.sources = [e] ∨ moveErrors q'.sources = [] ∧ closeErrors q'.closed ≠ []
  | .fault _ => False

lemma moveErrors_failed {moved rest : List (MergeSource C)} {s : MergeSource C} {c : C} {e : Error}
    (hv : ∀ m ∈ moved ++ s :: rest, WalkingCursor.IsValid m.cursor)
    (hne : ∀ m ∈ moved ++ s :: rest, m.listed.entries ≠ []) (h : moveErrors (q.sources ++ (moved ++ s :: rest)) = [])
    (hs : TermCursor.next s.cursor = .failed c e) (ha : Advanced q moved q') :
    moveErrors (sources { q' with retired := q'.retired ++ { s with cursor := c } :: rest }) = [e] := by
  have hmem : s ∈ moved ++ s :: rest := List.mem_append_right _ List.mem_cons_self
  simp only [moveErrors_append, List.append_eq_nil_iff] at h
  obtain ⟨hold, hmoved, hsrest⟩ := h
  have hq' := ha.moveErrors_eq_nil (fun m hm => hv m (List.mem_append_left _ hm))
    (fun m hm => hne m (List.mem_append_left _ hm)) (by simp only [moveErrors_append, hold, hmoved, List.append_nil])
  have hwalks := WalkingCursor.walks (hv s hmem) (hne s hmem)
  rw [hs] at hwalks
  obtain ⟨-, -, hperm⟩ := hwalks
  rw [moveErrors, List.flatMap_cons, List.append_eq_nil_iff] at hsrest
  rw [hsrest.1] at hperm
  have hfailure : WalkingCursor.failures c = [e] := List.perm_singleton.mp hperm
  simp only [sources, held, moveErrors_append, List.append_eq_nil_iff] at hq' ⊢
  rw [hq'.1.1, hq'.1.2, hq'.2, List.append_nil, List.nil_append, List.nil_append, moveErrors, List.flatMap_cons,
    hfailure, hsrest.2]
  rfl

lemma advance_outcome (hq : q.IsSound) (hv : ∀ s ∈ g.members, WalkingCursor.IsValid s.cursor)
    (hne : ∀ s ∈ g.members, s.listed.entries ≠ [])
    (hroom : q.heap.toList.length + g.members.length ≤ q.heap.capacity)
    (h : moveErrors (q.sources ++ g.members) = []) : AdvanceOutcome q g (q.advance g) := by
  have hres := advanceMembers_result g.members q hroom
  cases ho : q.advanceMembers g.members with
  | done q' errors =>
    rw [ho] at hres
    obtain ⟨hm, ha, rfl⟩ := hres
    rw [advance_of_done hq ho]
    have hnone := ha.moveErrors_eq_nil hv hne h
    cases herrors : closeErrors (g.members.flatMap finished) with
    | nil => exact ⟨hm, ha, hnone⟩
    | cons e es =>
      refine Or.inr ⟨hnone, ?_⟩
      rw [ha.closed, closeErrors_append, herrors]
      exact List.append_ne_nil_of_right_ne_nil _ (List.cons_ne_nil e es)
  | failed q' e =>
    rw [ho] at hres
    obtain ⟨moved, s, rest, c, q₁, hmembers, -, hs, ha, rfl⟩ := hres
    rw [advance, ho]
    rw [hmembers] at hv hne h
    exact Or.inl (moveErrors_failed hv hne h hs ha)
  | fault x =>
    rw [ho] at hres
    obtain ⟨s, htake, hx⟩ := hres
    have hs := List.mem_of_mem_take htake
    have hwalks := WalkingCursor.walks (hv s hs) (hne s hs)
    rw [hx] at hwalks
    exact hwalks.elim

end MergeQueue

namespace DictionaryMerge

open MergeQueue TermList LoggedWriter

variable {C W : Type} [TermCursor C] [WalkingCursor C] [DictionaryWriter W] [LoggedWriter W] {b : Bool}
  {q q₁ : MergeQueue C} {p p₁ : Progress W} {g : TermGroup C} {heap : Heap (MergeSource C)} {settings : MergeSettings}
  {e : MergedTerm} {x : Error}

def troubles (q : MergeQueue C) (w : W) : List Error := moveErrors q.sources ++ refusals w

omit [DictionaryWriter W] [LoggedWriter W] in
lemma lt_term (h : IsListed q) (hlater : ∀ u ∈ p.last, ∀ t ∈ terms q.left, compare u t = .lt)
    (ht : Taken g.term q.heap g.members heap) (hne : g.members ≠ []) : ∀ u ∈ p.last, compare u g.term = .lt := by
  have hterm : g.term ∈ terms q.left := by
    rw [← map_term_dictionary, ht.dictionary_left h hne]
    exact List.mem_cons_self
  exact fun u hu => hlater u hu g.term hterm

omit [DictionaryWriter W] [LoggedWriter W] in
lemma later_after_round (hr : Round q g q₁) (hlater : ∀ u ∈ p.last, ∀ t ∈ terms q.left, compare u t = .lt)
    (hl : p₁.last = lastAfter settings g.term p.last) : ∀ u ∈ p₁.last, ∀ t ∈ terms q₁.left, compare u t = .lt := by
  intro u hu t ht
  have hterms := terms_increasing q.left
  rw [hr.terms] at hterms
  rcases mem_lastAfter (hl ▸ hu) with hu | rfl
  · exact hlater u hu t (hr.terms ▸ List.mem_cons_of_mem _ ht)
  · exact (List.pairwise_cons.mp hterms).1 t ht

structure Ready (q : MergeQueue C) (p : Progress W) : Prop where
  listed : IsListed q
  later : ∀ u ∈ p.last, ∀ t ∈ terms q.left, compare u t = .lt
  fits : p.statistics.totalDocFreq.toNat + weigh (fun e => e.docFreq.toNat) q.left < UInt64.size
  untroubled : troubles q p.writer = []

lemma Ready.visit_result (h : Ready q p) (ht : Taken g.term q.heap g.members heap) (hne : g.members ≠ [])
    (settings : MergeSettings) :
    VisitResult settings.dropEmpty (lastAfter settings g.term p.last)
      ⟨g.term, (Count.total (g.members.map fun s => s.docFreq.toNat)).toUInt64, g.origins⟩ p
      (visit settings g p) := by
  obtain ⟨hg, hf⟩ := ht.docFreq_fits h.fits
  exact DictionaryMerge.visit_result settings (lt_term h.listed h.later ht hne) hg hf

lemma Ready.advance_outcome (h : Ready q p) (ht : Taken g.term q.heap g.members heap) :
    AdvanceOutcome { q with heap := heap } g (advance g { q with heap := heap }) :=
  MergeQueue.advance_outcome (ht.sound h.listed.sound) (ht.valid_members h.listed) ht.entries_ne_nil ht.room
    (ht.moveErrors_eq_nil (List.append_eq_nil_iff.mp h.untroubled).1)

lemma Ready.round (h : Ready q p) (hr : Round q g q₁) (hl : p₁.last = lastAfter settings g.term p.last)
    (hw : Wrote b [⟨g.term, (Count.total (g.members.map fun s => s.docFreq.toNat)).toUInt64, g.origins⟩] p p₁)
    (hm : moveErrors q₁.sources = []) : Ready q₁ p₁ where
  listed := hr.listed
  later := later_after_round hr h.later hl
  fits := hw.fits (hr.docFreq ▸ h.fits)
  untroubled := by
    rw [troubles, hm, hw.refusals]
    exact (List.append_eq_nil_iff.mp h.untroubled).2

def DrainResult (b : Bool) (q : MergeQueue C) (p : Progress W) : Outcome (MergeQueue C × Progress W) Unit → Prop
  | .done (q', p') () => Wrote b (dictionary q.left) p p' ∧ q'.held = q.retired ∧ troubles q' p'.writer = []
  | .failed (q', p') x =>
    (∃ es, es <+: written b (dictionary q.left) ∧ accepted p'.writer = accepted p.writer ++ es) ∧
      (troubles q' p'.writer = [x] ∨ troubles q' p'.writer = [] ∧ closeErrors q'.closed ≠ [])
  | .fault _ => False

lemma DrainResult.cons {o : Outcome (MergeQueue C × Progress W) Unit} (h : DrainResult b q₁ p₁ o)
    (hd : dictionary q.left = e :: dictionary q₁.left) (hr : q₁.retired = q.retired) (hw : Wrote b [e] p p₁) :
    DrainResult b q p o := by
  cases o with
  | done s u =>
    obtain ⟨hwrote, hheld, htroubles⟩ := h
    exact ⟨hd ▸ hw.cons hwrote, hheld.trans hr, htroubles⟩
  | failed s x =>
    obtain ⟨⟨es, hes, haccepted⟩, htroubles⟩ := h
    refine ⟨⟨written b [e] ++ es, ?_, ?_⟩, htroubles⟩
    · rw [hd, written_cons b e (dictionary _)]
      exact (List.prefix_append_right_inj _).mpr hes
    · rw [haccepted, hw.terms, List.append_assoc]
  | fault x => exact h

lemma Ready.emptied (h : Ready q p) (hq : q.heap.toList = []) : DrainResult b q p (.done (q, p) ()) := by
  refine ⟨?_, by rw [held, hq, List.nil_append], h.untroubled⟩
  rw [left, hq, List.map_nil, dictionary_nil]
  exact Wrote.refl b p

lemma Ready.stopped (h : Ready q p) {rest : List TermList} (hd : dictionary q.left = e :: dictionary rest)
    (hw : Wrote b [e] p p₁) (ha : AdvanceOutcome { q with heap := heap } g (.failed q₁ x)) :
    DrainResult b q p (.failed (q₁, p₁) x) := by
  refine ⟨⟨_, ?_, hw.terms⟩, ?_⟩
  · rw [hd, written_cons b e (dictionary _)]
    exact List.prefix_append _ _
  · have hrefusals : refusals p₁.writer = [] := hw.refusals.trans (List.append_eq_nil_iff.mp h.untroubled).2
    rw [troubles, hrefusals, List.append_nil]
    exact ha

lemma Ready.refused (h : Ready q p) (ht : Taken g.term q.heap g.members heap) {last : Option Term}
    (hv : VisitResult b last e p (.failed p₁ x)) :
    DrainResult b q p (.failed (abandon g { q with heap := heap }, p₁) x) := by
  obtain ⟨hmoves, hrefusals⟩ := List.append_eq_nil_iff.mp h.untroubled
  have hlogs := logs e p.writer
  rw [show DictionaryWriter.add e p.writer = .failed p₁.writer x from hv] at hlogs
  refine ⟨⟨[], List.nil_prefix, hlogs.1.trans (List.append_nil _).symm⟩, Or.inl ?_⟩
  rw [troubles, moveErrors_abandon (ht.moveErrors_eq_nil hmoves), hlogs.2, hrefusals]
  rfl

lemma drainWithin_result (settings : MergeSettings) {limit : Nat} (h : Ready q p)
    (hlimit : weigh (fun _ => 1) q.left < limit) :
    DrainResult settings.dropEmpty q p (drainWithin (fun _ => visit settings) limit q p) := by
  induction limit generalizing q p with
  | zero => omega
  | succ limit ih =>
    rw [drainWithin]
    rcases pop_taken h.listed.sound with ⟨hnil, hpop⟩ | ⟨g, heap, hpop, hne, ht⟩
    · rw [hpop]
      exact h.emptied hnil
    · have hvisit := h.visit_result ht hne settings
      have hadvance := h.advance_outcome ht
      rw [hpop]
      dsimp only
      cases hv : visit settings g p with
      | done p₁ u =>
        rw [hv] at hvisit
        obtain ⟨hwrote, hlast⟩ := hvisit
        dsimp only
        cases ha : advance g { q with heap := heap } with
        | done q₁ u =>
          rw [ha] at hadvance
          obtain ⟨hm, hadvanced, hnone⟩ := hadvance
          have hround := ht.round h.listed hne hm hadvanced
          have hshorter := hround.shorter
          exact (ih (h.round hround hlast hwrote hnone) (by omega)).cons hround.dictionary hround.retired hwrote
        | failed q₁ x => exact h.stopped (ht.dictionary_left h.listed hne) hwrote (ha ▸ hadvance)
        | fault x =>
          rw [ha] at hadvance
          exact hadvance
      | failed p₁ x => exact h.refused ht (hv ▸ hvisit)
      | fault x =>
        rw [hv] at hvisit
        exact hvisit

lemma drain_result (settings : MergeSettings) (h : Ready q p) :
    DrainResult settings.dropEmpty q p (q.drain (fun _ => visit settings) p) :=
  drainWithin_result settings h (Nat.lt_succ_of_le (weigh_left_le_bound q))

end DictionaryMerge

end InvertedIndex
