import InvertedIndex.DictionaryMerge
import InvertedIndex.Proofs.Count
import InvertedIndex.Proofs.Merge.Writer
import Mathlib.Data.List.Basic

namespace InvertedIndex.DictionaryMerge

def keeps (dropEmpty : Bool) (e : MergedTerm) : Bool := !(dropEmpty && e.docFreq == 0)

def written (dropEmpty : Bool) (entries : List MergedTerm) : List MergedTerm := entries.filter (keeps dropEmpty)

def dropped (dropEmpty : Bool) (entries : List MergedTerm) : List MergedTerm := entries.filter (!keeps dropEmpty ·)

lemma written_cons (b : Bool) (e : MergedTerm) (es : List MergedTerm) :
    written b (e :: es) = written b [e] ++ written b es := by
  rw [written, written, written, ← List.filter_append, List.singleton_append]

lemma dropped_cons (b : Bool) (e : MergedTerm) (es : List MergedTerm) :
    dropped b (e :: es) = dropped b [e] ++ dropped b es := by
  rw [dropped, dropped, dropped, ← List.filter_append, List.singleton_append]

lemma length_written_add_length_dropped (b : Bool) (entries : List MergedTerm) :
    (written b entries).length + (dropped b entries).length = entries.length := by
  induction entries with
  | nil => rfl
  | cons e es ih =>
    rw [written, dropped] at *
    cases hk : keeps b e <;> simp [hk] <;> omega

def totalFreq (entries : List MergedTerm) : Nat := Count.total (entries.map fun e => e.docFreq.toNat)

lemma totalFreq_singleton (e : MergedTerm) : totalFreq [e] = e.docFreq.toNat := Nat.add_zero _

lemma totalFreq_written_le (b : Bool) (entries : List MergedTerm) :
    totalFreq (written b entries) ≤ totalFreq entries :=
  Count.total_sublist (List.filter_sublist.map fun e : MergedTerm => e.docFreq.toNat)

variable {W : Type} [DictionaryWriter W] [LoggedWriter W]

open LoggedWriter

structure Wrote (dropEmpty : Bool) (entries : List MergedTerm) (p p' : Progress W) : Prop where
  terms : accepted p'.writer = accepted p.writer ++ written dropEmpty entries
  refusals : LoggedWriter.refusals p'.writer = LoggedWriter.refusals p.writer
  sources : p'.statistics.sources = p.statistics.sources
  termsMerged : p'.statistics.termsMerged = p.statistics.termsMerged + (written dropEmpty entries).length
  termsDropped : p'.statistics.termsDropped = p.statistics.termsDropped + (dropped dropEmpty entries).length
  sharedTerms : p'.statistics.sharedTerms =
    p.statistics.sharedTerms + (written dropEmpty entries).countP (1 < ·.origins.length)
  totalDocFreq : p'.statistics.totalDocFreq.toNat =
    p.statistics.totalDocFreq.toNat + totalFreq (written dropEmpty entries)

variable {b : Bool} {e : MergedTerm} {es : List MergedTerm} {p p₁ p₂ : Progress W}

lemma Wrote.refl (b : Bool) (p : Progress W) : Wrote b [] p p :=
  ⟨(List.append_nil _).symm, rfl, rfl, rfl, rfl, rfl, rfl⟩

lemma Wrote.totalDocFreq_le (h : Wrote b [e] p p₁) :
    p₁.statistics.totalDocFreq.toNat ≤ p.statistics.totalDocFreq.toNat + e.docFreq.toNat := by
  rw [h.totalDocFreq, ← totalFreq_singleton]
  exact Nat.add_le_add_left (totalFreq_written_le b [e]) _

lemma Wrote.fits {t : Term} {origins : List UInt64} {f later : Nat} (h : Wrote b [⟨t, f.toUInt64, origins⟩] p p₁)
    (hsum : p.statistics.totalDocFreq.toNat + (f + later) < UInt64.size) :
    p₁.statistics.totalDocFreq.toNat + later < UInt64.size := by
  have hle : p₁.statistics.totalDocFreq.toNat ≤ p.statistics.totalDocFreq.toNat + f.toUInt64.toNat := h.totalDocFreq_le
  have hf : f.toUInt64.toNat ≤ f := Nat.mod_le _ _
  omega

lemma Wrote.cons (h : Wrote b [e] p p₁) (hs : Wrote b es p₁ p₂) : Wrote b (e :: es) p p₂ where
  terms := by rw [hs.terms, h.terms, List.append_assoc, written_cons b e es]
  refusals := hs.refusals.trans h.refusals
  sources := hs.sources.trans h.sources
  termsMerged := by rw [hs.termsMerged, h.termsMerged, written_cons b e es, List.length_append, Nat.add_assoc]
  termsDropped := by rw [hs.termsDropped, h.termsDropped, dropped_cons b e es, List.length_append, Nat.add_assoc]
  sharedTerms := by rw [hs.sharedTerms, h.sharedTerms, written_cons b e es, List.countP_append, Nat.add_assoc]
  totalDocFreq := by
    rw [hs.totalDocFreq, h.totalDocFreq, written_cons b e es, totalFreq, totalFreq, totalFreq, List.map_append,
      Count.total_append, Nat.add_assoc]

variable {C : Type} [TermCursor C] {g : TermGroup C} {f : UInt64}

def VisitResult (dropEmpty : Bool) (last : Option Term) (e : MergedTerm) (p : Progress W) :
    Outcome (Progress W) Unit → Prop
  | .done p' () => Wrote dropEmpty [e] p p' ∧ p'.last = last
  | .failed p' x => DictionaryWriter.add e p.writer = .failed p'.writer x
  | .fault _ => False

lemma write_result (hg : g.docFreq = .ok f) (hf : p.statistics.totalDocFreq.toNat + f.toNat < UInt64.size) :
    VisitResult b p.last ⟨g.term, f, g.origins⟩ p (write b g p) := by
  rw [write, hg]
  dsimp only
  by_cases hd : f = 0 ∧ b = true
  · rw [if_pos hd]
    have hk : keeps b ⟨g.term, f, g.origins⟩ = false := by simp [keeps, hd]
    refine ⟨?_, rfl⟩
    constructor <;> simp [written, dropped, hk, totalFreq, MergeStatistics.countDropped]
  · have hk : keeps b ⟨g.term, f, g.origins⟩ = true := by
      rw [keeps, Bool.not_eq_true', Bool.and_eq_false_iff, beq_eq_false_iff_ne]
      by_cases hb : b = true
      · exact Or.inr fun hf => hd ⟨hf, hb⟩
      · exact Or.inl (Bool.eq_false_iff.mpr hb)
    have hcount : p.statistics.countWritten f g.members.length = .ok { p.statistics with
        termsMerged := p.statistics.termsMerged + 1
        sharedTerms := if 1 < g.members.length then p.statistics.sharedTerms + 1 else p.statistics.sharedTerms
        totalDocFreq := (p.statistics.totalDocFreq.toNat + f.toNat).toUInt64 } := by
      rw [MergeStatistics.countWritten, Count.add, Count.ofNat_eq_ok hf]
      rfl
    have hlogs := logs ⟨g.term, f, g.origins⟩ p.writer
    simp only [if_neg hd]
    cases ha : DictionaryWriter.add ⟨g.term, f, g.origins⟩ p.writer with
    | done w u =>
      rw [ha] at hlogs
      simp only [hcount]
      refine ⟨?_, rfl⟩
      constructor
      · simp [written, hk, hlogs.1]
      · exact hlogs.2
      · rfl
      · simp [written, hk]
      · simp [dropped, hk]
      · have horigins : g.origins.length = g.members.length := List.length_map _
        by_cases hm : 1 < g.members.length <;> simp [written, hk, horigins, hm]
      · rw [UInt64.toNat_ofNat_of_lt' hf]
        simp [written, hk, totalFreq]
    | failed w x => exact ha
    | fault x =>
      rw [ha] at hlogs
      exact hlogs

def lastAfter (settings : MergeSettings) (t : Term) (last : Option Term) : Option Term :=
  if settings.verifyOrder then some t else last

lemma mem_lastAfter {settings : MergeSettings} {t u : Term} {last : Option Term} (h : u ∈ lastAfter settings t last) :
    u ∈ last ∨ u = t := by
  rw [lastAfter] at h
  split at h
  · exact Or.inr (Option.some.inj h).symm
  · exact Or.inl h

omit [LoggedWriter W] in
lemma visit_eq_write {settings : MergeSettings} (hlast : ∀ u ∈ p.last, compare u g.term = .lt) :
    visit settings g p = write settings.dropEmpty g { p with last := lastAfter settings g.term p.last } := by
  rw [visit, lastAfter]
  split
  · cases hpl : p.last with
    | none => rfl
    | some previous => exact if_pos (hlast previous hpl)
  · rfl

lemma visit_result (settings : MergeSettings) (hlast : ∀ u ∈ p.last, compare u g.term = .lt) (hg : g.docFreq = .ok f)
    (hf : p.statistics.totalDocFreq.toNat + f.toNat < UInt64.size) :
    VisitResult settings.dropEmpty (lastAfter settings g.term p.last) ⟨g.term, f, g.origins⟩ p
      (visit settings g p) := by
  rw [visit_eq_write hlast]
  have hres := write_result (b := settings.dropEmpty)
    (p := { p with last := lastAfter settings g.term p.last }) hg hf
  cases hw : write settings.dropEmpty g { p with last := lastAfter settings g.term p.last } with
  | done p' u =>
    rw [hw] at hres
    obtain ⟨⟨hterms, hrefusals, hsources, hmerged, hdropped, hshared, htotal⟩, hl⟩ := hres
    exact ⟨⟨hterms, hrefusals, hsources, hmerged, hdropped, hshared, htotal⟩, hl⟩
  | failed p' x =>
    rw [hw] at hres
    exact hres
  | fault x =>
    rw [hw] at hres
    exact hres

omit [LoggedWriter W] in
lemma visit_outOfOrder {settings : MergeSettings} (hv : settings.verifyOrder = true) {u : Term} (hu : p.last = some u)
    (h : compare u g.term ≠ .lt) : visit settings g p = .failed p (outOfOrder g.term u) := by
  rw [visit, if_pos hv, hu]
  exact if_neg h

lemma visit_done (hw : IsReliable W) (settings : MergeSettings) (hlast : ∀ u ∈ p.last, compare u g.term = .lt)
    (hg : g.docFreq = .ok f) (hf : p.statistics.totalDocFreq.toNat + f.toNat < UInt64.size) :
    ∃ p', visit settings g p = .done p' () ∧ Wrote settings.dropEmpty [⟨g.term, f, g.origins⟩] p p' ∧
      p'.last = lastAfter settings g.term p.last := by
  have hres := visit_result settings hlast hg hf
  cases hv : visit settings g p with
  | done p' u =>
    rw [hv] at hres
    exact ⟨p', rfl, hres⟩
  | failed p' x =>
    rw [hv] at hres
    exact absurd hres (hw _ _ _ _)
  | fault x =>
    rw [hv] at hres
    exact hres.elim

end InvertedIndex.DictionaryMerge
