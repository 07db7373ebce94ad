import InvertedIndex.SharedCursor
import InvertedIndex.Proofs.Cursor.Levels

namespace InvertedIndex

namespace SharedCursor

open RetriableCursor

variable {C : Type} [ScoredCursor C]

inductive Event where
  | cloned
  | handed (answer : Option (DocId × Float32))
  | refused (error : Error)
  | moved (m : Move)

inductive Step : SharedCursor C → Event → SharedCursor C → Prop
  | clone (s : SharedCursor C) : Step s .cloned s.clone
  | hand {s s' : SharedCursor C} {answer : Option (DocId × Float32)} : s.pull = .done s' answer →
    Step s (.handed answer) s'
  | refuse {s s' : SharedCursor C} {e : Error} : s.pull = .failed s' e → Step s (.refused e) s'
  | move {s s' : SharedCursor C} {m : Move} : DocCursor.doc s.cursor ≠ DocId.exhausted →
    m.IsForward (DocCursor.doc s.cursor) → s.move m.apply = .done s' () → Step s (.moved m) s'

inductive History (start : SharedCursor C) : List (Nat × Event) → SharedCursor C → Prop
  | start : History start [] start
  | step {events : List (Nat × Event)} {s s' : SharedCursor C} {handle : Nat} {event : Event} :
    History start events s → handle < s.handles → Step s event s' → History start (events ++ [(handle, event)]) s'

def Event.document? : Event → Option (DocId × Float32)
  | .handed answer => answer
  | .cloned | .refused _ | .moved _ => none

def handedOut (events : List (Nat × Event)) : List (DocId × Float32) := events.filterMap (·.2.document?)

lemma handedOut_concat (events : List (Nat × Event)) (handle : Nat) (event : Event) :
    handedOut (events ++ [(handle, event)]) = handedOut events ++ event.document?.toList := by
  rw [handedOut, List.filterMap_append, handedOut]
  cases h : event.document? <;> simp [h]

variable {s s' : SharedCursor C} {answer : Option (DocId × Float32)} {e : Error}

lemma current?_of_exhausted {c : C} (h : DocCursor.doc c = DocId.exhausted) : current? c = none :=
  if_pos (DocCursor.isExhausted_iff.mpr h)

lemma current?_of_ne {c : C} (h : DocCursor.doc c ≠ DocId.exhausted) :
    current? c = some (DocCursor.doc c, ScoredCursor.score c) :=
  if_neg (mt DocCursor.isExhausted_iff.mp h)

lemma current?_eq_some_iff {c : C} {p : DocId × Float32} : current? c = some p ↔
    DocCursor.doc c ≠ DocId.exhausted ∧ (DocCursor.doc c, ScoredCursor.score c) = p := by
  by_cases h : DocCursor.doc c = DocId.exhausted
  · simp [current?_of_exhausted h, h]
  · simp [current?_of_ne h, h]

def IsResting (s : SharedCursor C) : Prop := s.started = false ∨ DocCursor.doc s.cursor = DocId.exhausted

lemma pull_of_isResting (h : s.IsResting) : s.pull = .done { s with started := true } (current? s.cursor) := by
  cases hs : s.started with
  | false => simp only [pull, hs, Bool.not_false, if_true]
  | true =>
    have he : DocCursor.doc s.cursor = DocId.exhausted := h.resolve_left (by simp [hs])
    have hsame : { s with started := true } = s := by rw [← hs]
    rw [hsame, current?_of_exhausted he, pull, hs, DocCursor.isExhausted_iff.mpr he]
    rfl

lemma pull_of_not_isResting (h : ¬ s.IsResting) :
    s.pull =
      match Move.next.apply s.cursor with
      | .done c () => .done { s with cursor := c } (current? c)
      | .failed c e => .failed { s with cursor := c } e
      | .fault x => .fault x := by
  rw [IsResting, not_or, Bool.not_eq_false] at h
  simp only [pull, h.1, mt DocCursor.isExhausted_iff.mp h.2, Bool.not_true, Bool.false_eq_true, if_false, move,
    Move.apply]
  cases DocCursor.next s.cursor <;> rfl

lemma pull_eq_done (h : s.pull = .done s' answer) : answer = current? s'.cursor ∧
    (s.IsResting ∧ s' = { s with started := true } ∨
      ¬ s.IsResting ∧ ∃ c, Move.next.apply s.cursor = .done c () ∧ s' = { s with cursor := c }) := by
  by_cases hr : s.IsResting
  · rw [pull_of_isResting hr] at h
    obtain ⟨rfl, rfl⟩ := Outcome.done.inj h
    exact ⟨rfl, .inl ⟨hr, rfl⟩⟩
  · rw [pull_of_not_isResting hr] at h
    cases hm : Move.next.apply s.cursor with
    | done c u =>
      rw [hm] at h
      obtain ⟨rfl, rfl⟩ := Outcome.done.inj h
      exact ⟨rfl, .inr ⟨hr, c, rfl, rfl⟩⟩
    | failed c e =>
      rw [hm] at h
      cases h
    | fault x =>
      rw [hm] at h
      cases h

lemma pull_eq_failed (h : s.pull = .failed s' e) :
    ¬ s.IsResting ∧ ∃ c, Move.next.apply s.cursor = .failed c e ∧ s' = { s with cursor := c } := by
  by_cases hr : s.IsResting
  · rw [pull_of_isResting hr] at h
    cases h
  · rw [pull_of_not_isResting hr] at h
    cases hm : Move.next.apply s.cursor with
    | done c u =>
      rw [hm] at h
      cases h
    | failed c e =>
      rw [hm] at h
      obtain ⟨rfl, rfl⟩ := Outcome.failed.inj h
      exact ⟨hr, c, rfl, rfl⟩
    | fault x =>
      rw [hm] at h
      cases h

variable [ForwardCursor C]

lemma pull_ne_fault (h : ForwardCursor.IsSound s.cursor) (x : Fault) : s.pull ≠ .fault x := by
  intro hx
  by_cases hr : s.IsResting
  · rw [pull_of_isResting hr] at hx
    cases hx
  · have hgoes := ForwardCursor.goes (m := .next) h (mt .inr hr) trivial
    rw [pull_of_not_isResting hr] at hx
    cases hm : Move.next.apply s.cursor with
    | done c u =>
      rw [hm] at hx
      cases hx
    | failed c e =>
      rw [hm] at hx
      cases hx
    | fault y =>
      rw [hm] at hgoes
      exact hgoes

structure HasGiven (s : SharedCursor C) (given : List (DocId × Float32)) : Prop where
  sound : ForwardCursor.IsSound s.cursor
  increasing : given.Pairwise fun p q => p.1 < q.1
  le : ∀ p ∈ given, p.1 ≤ DocCursor.doc s.cursor
  fresh : s.started = false → given = []

variable {given : List (DocId × Float32)} {event : Event}

lemma HasGiven.rest (h : s.HasGiven given) (hr : s.IsResting) :
    HasGiven { s with started := true } (given ++ (current? s.cursor).toList) := by
  by_cases he : DocCursor.doc s.cursor = DocId.exhausted
  · rw [current?_of_exhausted he, Option.toList_none, List.append_nil]
    exact ⟨h.sound, h.increasing, h.le, nofun⟩
  · rw [h.fresh (hr.resolve_right he), current?_of_ne he]
    exact ⟨h.sound, List.pairwise_singleton _ _, by simp, nofun⟩

lemma HasGiven.advance {c : C} (h : s.HasGiven given) (hr : ¬ s.IsResting)
    (hm : Move.next.apply s.cursor = .done c ()) :
    HasGiven { s with cursor := c } (given ++ (current? c).toList) := by
  obtain ⟨hstarted, he⟩ := not_or.mp hr
  have hgoes := ForwardCursor.goes (m := .next) h.sound he trivial
  rw [hm] at hgoes
  have hlt : DocCursor.doc s.cursor < DocCursor.doc c := of_decide_eq_true hgoes.2
  have hle : ∀ p ∈ given, p.1 < DocCursor.doc c := fun p hp => UInt64.lt_of_le_of_lt (h.le p hp) hlt
  refine ⟨hgoes.1, ?_, fun p hp => ?_, fun hs => absurd hs hstarted⟩
  · refine List.pairwise_append.mpr ⟨h.increasing, ?_, fun p hp q hq => ?_⟩
    · cases current? c <;> simp
    · obtain ⟨-, rfl⟩ := current?_eq_some_iff.mp (Option.mem_toList.mp hq)
      exact hle p hp
  · rcases List.mem_append.mp hp with hp | hp
    · exact UInt64.le_of_lt (hle p hp)
    · obtain ⟨-, rfl⟩ := current?_eq_some_iff.mp (Option.mem_toList.mp hp)
      exact UInt64.le_refl _

lemma HasGiven.onto {c : C} (h : s.HasGiven given) (hc : ForwardCursor.IsSound c)
    (hle : DocCursor.doc s.cursor ≤ DocCursor.doc c) : HasGiven { s with cursor := c } given :=
  ⟨hc, h.increasing, fun p hp => UInt64.le_trans (h.le p hp) hle, h.fresh⟩

lemma HasGiven.step (h : s.HasGiven given) (hs : Step s event s') :
    s'.HasGiven (given ++ event.document?.toList) := by
  cases hs with
  | clone =>
    rw [Event.document?, Option.toList_none, List.append_nil]
    exact ⟨h.sound, h.increasing, h.le, h.fresh⟩
  | hand hp =>
    obtain ⟨rfl, ⟨hr, rfl⟩ | ⟨hr, c, hm, rfl⟩⟩ := pull_eq_done hp
    · exact h.rest hr
    · exact h.advance hr hm
  | refuse hp =>
    obtain ⟨hr, c, hm, rfl⟩ := pull_eq_failed hp
    have hgoes := ForwardCursor.goes (m := .next) h.sound (mt .inr hr) trivial
    rw [hm] at hgoes
    rw [Event.document?, Option.toList_none, List.append_nil]
    exact h.onto hgoes.1 (UInt64.le_of_eq hgoes.2.symm)
  | @move _ m he hf hp =>
    obtain ⟨c, hm, rfl⟩ := Outcome.mapState_eq_done hp
    have hgoes := ForwardCursor.goes h.sound he hf
    rw [hm] at hgoes
    rw [Event.document?, Option.toList_none, List.append_nil]
    refine h.onto hgoes.1 ?_
    cases m with
    | next => exact UInt64.le_of_lt (of_decide_eq_true hgoes.2)
    | seek target => exact UInt64.le_trans hf (of_decide_eq_true hgoes.2)

lemma hasGiven_of_history {c : C} {events : List (Nat × Event)} (hc : ForwardCursor.IsSound c)
    (h : History { cursor := c } events s) : s.HasGiven (handedOut events) := by
  induction h with
  | start => exact ⟨hc, .nil, nofun, fun _ => rfl⟩
  | step _ _ hs ih =>
    rw [handedOut_concat]
    exact ih.step hs

def Delivers (c : C) (stream : List (DocId × Float32)) : Prop :=
  ∃ limit c', DocCursor.drainWithin (fun c => (DocCursor.doc c, ScoredCursor.score c)) limit c =
    .done c' (stream, none) ∧ DocCursor.doc c' = DocId.exhausted

omit [ForwardCursor C] in
lemma delivers_of_exhausted {c : C} {stream : List (DocId × Float32)} (h : DocCursor.doc c = DocId.exhausted) :
    Delivers c stream ↔ stream = [] := by
  have hx := DocCursor.isExhausted_iff.mpr h
  constructor
  · rintro ⟨limit, c', hd, -⟩
    cases limit with
    | zero => exact (Prod.mk.inj (Outcome.done.inj hd).2).1.symm
    | succ limit =>
      rw [DocCursor.drainWithin, if_pos hx] at hd
      exact (Prod.mk.inj (Outcome.done.inj hd).2).1.symm
  · rintro rfl
    exact ⟨0, c, rfl, h⟩

omit [ForwardCursor C] in
lemma delivers_of_done {c c' : C} {stream : List (DocId × Float32)} (h : DocCursor.doc c ≠ DocId.exhausted)
    (hm : Move.next.apply c = .done c' ()) :
    Delivers c stream ↔ ∃ rest, stream = (DocCursor.doc c, ScoredCursor.score c) :: rest ∧ Delivers c' rest := by
  have hx := mt DocCursor.isExhausted_iff.mp h
  have hstep (limit : Nat) : DocCursor.drainWithin (fun c => (DocCursor.doc c, ScoredCursor.score c)) (limit + 1) c =
      (DocCursor.drainWithin (fun c => (DocCursor.doc c, ScoredCursor.score c)) limit c').map
        fun r => ((DocCursor.doc c, ScoredCursor.score c) :: r.1, r.2) := by
    rw [DocCursor.drainWithin, if_neg hx]
    change (match Move.next.apply c with | .done c' () => _ | .failed c' e => _ | .fault x => _) = _
    rw [hm]
  constructor
  · rintro ⟨limit, c₁, hd, he⟩
    cases limit with
    | zero => exact absurd ((Outcome.done.inj hd).1 ▸ he) h
    | succ limit =>
      rw [hstep] at hd
      obtain ⟨⟨rest, e⟩, hrest, heq⟩ := Outcome.map_eq_done hd
      obtain ⟨rfl, rfl⟩ := Prod.mk.inj heq
      exact ⟨rest, rfl, limit, c₁, hrest, he⟩
  · rintro ⟨rest, rfl, limit, c₁, hd, he⟩
    exact ⟨limit + 1, c₁, by rw [hstep, hd, Outcome.map], he⟩

section Pending

open Outages (faults)

variable [RetriableCursor C] {x c : C} {stream left : List (DocId × Float32)}

lemma exists_delivers (h : ForwardCursor.IsSound x) (hq : faults (outages x) = 0) :
    ∃ stream, Delivers x stream ∧ (∀ p ∈ stream, DocCursor.doc x ≤ p.1) ∧ stream.Pairwise fun p q => p.1 < q.1 := by
  -- The documents grow, and there are only finitely many numbers for them.
  induction hk : DocId.exhausted.toNat - (DocCursor.doc x).toNat using Nat.strong_induction_on generalizing x with
  | _ k ih =>
    by_cases he : DocCursor.doc x = DocId.exhausted
    · exact ⟨[], (delivers_of_exhausted he).mpr rfl, nofun, .nil⟩
    · obtain ⟨x', hm, hs, hq', hkeeps⟩ := exists_done_of_faultless (m := .next) h he trivial hq
      have hlt : DocCursor.doc x < DocCursor.doc x' := of_decide_eq_true hkeeps
      have hmeasure : DocId.exhausted.toNat - (DocCursor.doc x').toNat < k := by
        have hle := UInt64.le_iff_toNat_le.mp (DocId.le_exhausted (DocCursor.doc x'))
        have hlt' := UInt64.lt_iff_toNat_lt.mp hlt
        omega
      obtain ⟨rest, hrest, hge, hinc⟩ := ih _ hmeasure hs hq' rfl
      have hahead : ∀ p ∈ rest, DocCursor.doc x < p.1 := fun p hp => UInt64.lt_of_lt_of_le hlt (hge p hp)
      refine ⟨_, (delivers_of_done he hm).mpr ⟨rest, rfl, hrest⟩, fun p hp => ?_, hinc.cons hahead⟩
      rcases List.mem_cons.mp hp with rfl | hp
      · exact UInt64.le_refl _
      · exact UInt64.le_of_lt (hahead p hp)

lemma Delivers.head? (h : ForwardCursor.IsSound x) (hq : faults (outages x) = 0) (hd : Delivers x stream) :
    stream.head? = current? x := by
  by_cases he : DocCursor.doc x = DocId.exhausted
  · rw [(delivers_of_exhausted he).mp hd, current?_of_exhausted he, List.head?_nil]
  · obtain ⟨x', hm, -⟩ := exists_done_of_faultless (m := .next) h he trivial hq
    obtain ⟨rest, rfl, -⟩ := (delivers_of_done he hm).mp hd
    rw [current?_of_ne he, List.head?_cons]

lemma current?_reliable (c : C) : current? (reliable c) = current? c := by
  rw [current?, current?, DocCursor.isExhausted, DocCursor.isExhausted, doc_reliable, score_reliable]

lemma current?_of_mirrors (h : Mirrors x c) : current? x = current? c := by
  rw [← current?_reliable x, h.same, current?_reliable]

lemma doc_of_mirrors (h : Mirrors x c) : DocCursor.doc x = DocCursor.doc c := by
  rw [← doc_reliable x, h.same, doc_reliable]

/-- What is left to hand out. A cursor that does not fail tells it, the mirror of what the cursor inside was before its
moves began to fail. -/
inductive Pending : SharedCursor C → List (DocId × Float32) → Prop
  | fresh {s : SharedCursor C} {x : C} {left : List (DocId × Float32)} : s.started = false → Mirrors x s.cursor →
    Delivers x left → Pending s left
  | going {s : SharedCursor C} {c x : C} {stream : List (DocId × Float32)} : s.started = true →
    ForwardCursor.IsSound s.cursor → DocCursor.doc s.cursor = DocCursor.doc c → Mirrors x c →
    (∀ c', DocCursor.Retries .next s.cursor c' → DocCursor.Retries .next c c') → Delivers x stream →
    Pending s stream.tail

lemma Pending.hand (h : Pending s left) (hp : s.pull = .done s' answer) :
    answer = left.head? ∧ Pending s' left.tail := by
  obtain ⟨rfl, hcases⟩ := pull_eq_done hp
  cases h with
  | fresh hs hx hd =>
    obtain ⟨-, rfl⟩ | ⟨hr, -⟩ := hcases
    · refine ⟨?_, .going rfl hx.sound rfl hx (fun _ hr => hr) hd⟩
      rw [hd.head? hx.sound' hx.faultless, current?_of_mirrors hx]
    · exact absurd (.inl hs) hr
  | @going c x stream hs hsound hdoc hx hretry hd =>
    obtain ⟨hr, rfl⟩ | ⟨hr, c', hm, rfl⟩ := hcases
    · have he : DocCursor.doc s.cursor = DocId.exhausted := hr.resolve_left (by simp [hs])
      obtain rfl := (delivers_of_exhausted ((doc_of_mirrors hx).trans (hdoc.symm.trans he))).mp hd
      exact ⟨current?_of_exhausted he, .going rfl hsound hdoc hx hretry hd⟩
    · have he : DocCursor.doc x ≠ DocId.exhausted := by
        rw [doc_of_mirrors hx, ← hdoc]
        exact mt .inr hr
      obtain ⟨x', hm', hx'⟩ := hx.step (hretry c' (.done hm))
      obtain ⟨rest, rfl, hrest⟩ := (delivers_of_done he hm').mp hd
      refine ⟨?_, .going hs hx'.sound rfl hx' (fun _ hr => hr) hrest⟩
      rw [List.tail_cons, hrest.head? hx'.sound' hx'.faultless, current?_of_mirrors hx']

lemma Pending.refuse (h : Pending s left) (hp : s.pull = .failed s' e) : Pending s' left := by
  obtain ⟨hr, c', hm, rfl⟩ := pull_eq_failed hp
  cases h with
  | fresh hs hx hd => exact absurd (.inl hs) hr
  | going hs hsound hdoc hx hretry hd =>
    obtain ⟨hsound', hdoc'⟩ := isSound_of_failed hsound hm
    exact .going hs hsound' (hdoc'.trans hdoc) hx (fun c₁ hc₁ => hretry c₁ (.failed hm hc₁)) hd

lemma Pending.clone (h : Pending s left) : Pending s.clone left := by
  cases h with
  | fresh hs hx hd => exact .fresh hs hx hd
  | going hs hsound hdoc hx hretry hd => exact .going hs hsound hdoc hx hretry hd

lemma pending_of_history {events : List (Nat × Event)} (hc : ForwardCursor.IsSound c)
    (hd : Delivers (reliable c) stream) (h : History { cursor := c } events s)
    (hmoves : ∀ e ∈ events, ∀ m, e.2 ≠ .moved m) : ∃ left, stream = handedOut events ++ left ∧ Pending s left := by
  induction h with
  | start => exact ⟨stream, rfl, .fresh rfl (mirrors_reliable hc) hd⟩
  | @step events s s' handle event _ _ hs ih =>
    obtain ⟨left, rfl, hp⟩ := ih fun e he => hmoves e (List.mem_append_left _ he)
    rw [handedOut_concat]
    cases hs with
    | clone => exact ⟨left, by simp [Event.document?], hp.clone⟩
    | hand h =>
      obtain ⟨rfl, hp'⟩ := hp.hand h
      refine ⟨left.tail, ?_, hp'⟩
      cases left <;> simp [Event.document?]
    | refuse h => exact ⟨left, by simp [Event.document?], hp.refuse h⟩
    | @move _ m => exact absurd rfl (hmoves (handle, .moved m) (by simp) m)

end Pending

end SharedCursor

namespace QueryCursor

open SharedCursor RetriableCursor

variable {n : Nat} {c : QueryCursor n} {s s' : SharedCursor (QueryCursor n)} {event : Event}

lemma everyUnion_isSettled_of_step (hsound : ForwardCursor.IsSound s.cursor)
    (h : EveryUnion (fun _ d => d.IsSettled) s.cursor) (hs : Step s event s') :
    EveryUnion (fun _ d => d.IsSettled) s'.cursor := by
  cases hs with
  | clone => exact h
  | hand hp =>
    obtain ⟨-, ⟨-, rfl⟩ | ⟨-, c', hm, rfl⟩⟩ := pull_eq_done hp
    · exact h
    · exact everyUnion_isSettled_of_done hsound h hm
  | refuse hp =>
    obtain ⟨-, c', hm, rfl⟩ := pull_eq_failed hp
    exact everyUnion_isSettled_of_next_failed hsound h hm
  | move _ _ hp =>
    obtain ⟨c', hm, rfl⟩ := Outcome.mapState_eq_done hp
    exact everyUnion_isSettled_of_done hsound h hm

lemma everyUnion_isSettled_of_history {events : List (Nat × Event)} (hc : ForwardCursor.IsSound c)
    (h : EveryUnion (fun _ d => d.IsSettled) c) (hs : History { cursor := c } events s) :
    EveryUnion (fun _ d => d.IsSettled) s.cursor := by
  induction hs with
  | start => exact h
  | step hs _ hstep ih => exact everyUnion_isSettled_of_step (hasGiven_of_history hc hs).sound ih hstep

/-- Whichever handles pull in turns, and whichever pulls fail, they hand out the documents and scores of the cursor that
does not fail, from the front. If the cursor is moved as well, the documents still grow. A score is read on its
document, where every union counts exactly the children on the document of that union, unless a seek of it has failed
before. -/
theorem pulls_hand_out_each_document_once (hc : IsFallibleTree c) :
    ∃ stream, Delivers (reliable c) stream ∧ (stream.Pairwise fun p q => p.1 < q.1) ∧
      ∀ (events : List (Nat × Event)) (s : SharedCursor (QueryCursor n)), History { cursor := c } events s →
        (∀ x, s.pull ≠ .fault x) ∧
        (DocCursor.doc s.cursor = DocId.exhausted → s.pull = .done { s with started := true } none) ∧
        (∀ s', s.pull = .done s' none → DocCursor.doc s'.cursor = DocId.exhausted) ∧
        (∀ s' e, s.pull = .failed s' e →
          DocCursor.doc s'.cursor = DocCursor.doc s.cursor ∧ ∃ p ∈ outages s.cursor, p.1 p.2 = some e) ∧
        ((∀ e ∈ events, ∀ m, e.2 ≠ .moved m) → ∃ left, stream = handedOut events ++ left ∧
          ∀ s' answer, s.pull = .done s' answer → answer = left.head?) ∧
        ((handedOut events).Pairwise fun p q => p.1 < q.1) ∧
        ∀ s' p, s.pull = .done s' (some p) → p = (DocCursor.doc s'.cursor, ScoredCursor.score s'.cursor) ∧
          (EveryUnion (fun _ d => d.IsSettled) c →
            EveryUnion (fun _ d => d.matching.Perm (d.children.filter (DocCursor.doc · == d.doc))) s'.cursor) := by
  have hsound := hc.isSound
  obtain ⟨stream, hd, -, hinc⟩ := exists_delivers (isSound_reliable hsound) (faults_reliable c)
  refine ⟨stream, hd, hinc, fun events s hs => ?_⟩
  have hgiven := hasGiven_of_history hsound hs
  refine ⟨pull_ne_fault hgiven.sound, fun he => ?_, fun s' hp => ?_, fun s' e hp => ?_, fun hmoves => ?_,
    hgiven.increasing, fun s' p hp => ⟨?_, fun hsettled => ?_⟩⟩
  · rw [pull_of_isResting (.inr he), current?_of_exhausted he]
  · by_contra he
    have hnone := (pull_eq_done hp).1
    rw [current?_of_ne he] at hnone
    cases hnone
  · obtain ⟨-, c', hm, rfl⟩ := pull_eq_failed hp
    obtain ⟨-, herror, -⟩ := resumes_failed hgiven.sound hm
    exact ⟨(isSound_of_failed hgiven.sound hm).2, herror⟩
  · obtain ⟨left, rfl, hpending⟩ := pending_of_history hsound hd hs hmoves
    exact ⟨left, rfl, fun s' answer hp => (hpending.hand hp).1⟩
  · obtain ⟨-, hpair⟩ := current?_eq_some_iff.mp (pull_eq_done hp).1.symm
    exact hpair.symm
  · have hsettled' := everyUnion_isSettled_of_history hsound hsettled hs
    have hsound' := everyUnion_isSound (hgiven.step (.hand hp)).sound
    exact (hsound'.and (everyUnion_isSettled_of_step hgiven.sound hsettled' (.hand hp))).imp fun _ _ hd =>
      hd.1.matching_perm hd.2

theorem refused_document_goes_to_next_pull :
    ∃ (start : Disjunction (QueryCursor 2)) (s : SharedCursor (QueryCursor 3)) (e : Error)
      (stream left : List (DocId × Float32)), Disjunction.ofChildren {} (brittlePair [0]) = .ok start ∧
      History { cursor := union start }
        [(0, .cloned), (1, .handed (some (1, 2))), (0, .handed (some (3, 5))), (1, .refused e),
          (0, .handed (some (12, 2)))] s ∧
      Delivers (reliable (union start)) stream ∧ stream = [(1, 2), (3, 5), (12, 2)] ++ left ∧
      ∀ s' p, s.pull = .done s' (some p) →
        EveryUnion (fun _ d => d.matching.Perm (d.children.filter (DocCursor.doc · == d.doc))) s'.cursor := by
  have hrun : ((Disjunction.ofChildren {} (brittlePair [0])).toOption.bind fun start =>
      ({ cursor := union start } : SharedCursor (QueryCursor 3)).clone.pull.done?.bind fun (r₁ : _ × _) =>
        r₁.1.pull.done?.bind fun (r₂ : _ × _) => r₂.1.pull.failed?.bind fun (r₃ : _ × _) =>
          r₃.1.pull.done?.map fun (r₄ : _ × _) =>
            ([r₁.2, r₂.2, r₄.2], [r₁.1.handles, r₂.1.handles, r₃.1.handles])) =
      some ([some (1, 2), some (3, 5), some (12, 2)], [2, 2, 2]) := by
    decide +kernel
  simp only [Option.bind_eq_some_iff, toOption_eq_some_iff, Option.map_eq_some_iff, Prod.exists,
    Outcome.done?_eq_some_iff, Outcome.failed?_eq_some_iff, Prod.mk.injEq, List.cons.injEq, and_true] at hrun
  obtain ⟨start, hstart, s₁, _, h₁, s₂, _, h₂, s₃, e, h₃, s, _, h₄, ⟨rfl, rfl, rfl⟩, hh₁, hh₂, hh₃⟩ := hrun
  have hhistory : History { cursor := union start }
      [(0, .cloned), (1, .handed (some (1, 2))), (0, .handed (some (3, 5))), (1, .refused e),
        (0, .handed (some (12, 2)))] s := by
    have hcloned := History.start.step Nat.zero_lt_one (.clone { cursor := union start })
    have hfirst := hcloned.step Nat.one_lt_two (.hand h₁)
    have hsecond := hfirst.step (Nat.two_pos.trans_eq hh₁.symm) (.hand h₂)
    have hrefused := hsecond.step (Nat.one_lt_two.trans_eq hh₂.symm) (.refuse h₃)
    exact hrefused.step (Nat.two_pos.trans_eq hh₃.symm) (.hand h₄)
  have hleaves := isFallibleTree_brittlePair [0]
  obtain ⟨stream, hdelivers, -, hpulls⟩ := pulls_hand_out_each_document_once (.union hleaves hstart)
  obtain ⟨-, -, -, -, hstream, -, hscores⟩ := hpulls _ s hhistory
  obtain ⟨left, hleft, -⟩ := hstream (by simp)
  have hsettled : EveryUnion (fun _ d => d.IsSettled) (union start) := by
    refine everyUnion_isSettled_union (fun c hc => ?_) hstart
    simp only [brittlePair, List.mem_cons, List.not_mem_nil, or_false] at hc
    rcases hc with rfl | rfl <;> trivial
  exact ⟨start, s, e, stream, left, hstart, hhistory, hdelivers, hleft, fun s' p hp => (hscores s' p hp).2 hsettled⟩

end QueryCursor

end InvertedIndex
