import InvertedIndex.Dictionary
import InvertedIndex.MergeQueue
import InvertedIndex.Settings

namespace InvertedIndex

/-- Only frequencies are summed with a check. The terms are counted one at a time, after the sources have moved on to
them, and no run gets as far as the 2 ^ 64th one. -/
structure MergeStatistics where
  sources : Nat := 0
  termsMerged : Nat := 0
  termsDropped : Nat := 0
  sharedTerms : Nat := 0
  totalDocFreq : UInt64 := 0
  deriving DecidableEq, Inhabited

namespace MergeStatistics

def countDropped (s : MergeStatistics) : MergeStatistics := { s with termsDropped := s.termsDropped + 1 }

def countWritten (docFreq : UInt64) (segments : Nat) (s : MergeStatistics) : Except Fault MergeStatistics := do
  let total ← Count.add s.totalDocFreq docFreq
  return { s with
    termsMerged := s.termsMerged + 1
    sharedTerms := if 1 < segments then s.sharedTerms + 1 else s.sharedTerms
    totalDocFreq := total }

end MergeStatistics

namespace DictionaryMerge

structure Progress (W : Type) where
  writer : W
  statistics : MergeStatistics
  last : Option Term

variable {C W : Type} [TermCursor C] [DictionaryWriter W]

def outOfOrder (t previous : Term) : Error :=
  .dataSource ("term " ++ t.display ++ " follows " ++ previous.display ++ " out of order")

def write (dropEmpty : Bool) (g : TermGroup C) (p : Progress W) : Outcome (Progress W) Unit :=
  match g.docFreq with
  | .error x => .fault x
  | .ok docFreq =>
    if docFreq = 0 ∧ dropEmpty then
      .done { p with statistics := p.statistics.countDropped } ()
    else
      match DictionaryWriter.add ⟨g.term, docFreq, g.origins⟩ p.writer with
      | .done w () =>
        match p.statistics.countWritten docFreq g.members.length with
        | .ok statistics => .done { p with writer := w, statistics := statistics } ()
        | .error x => .fault x
      | .failed w e => .failed { p with writer := w } e
      | .fault x => .fault x

def visit (settings : MergeSettings) (g : TermGroup C) (p : Progress W) : Outcome (Progress W) Unit :=
  if settings.verifyOrder then
    match p.last with
    | some previous =>
      if compare previous g.term = .lt then write settings.dropEmpty g { p with last := some g.term }
      else .failed p (outOfOrder g.term previous)
    | none => write settings.dropEmpty g { p with last := some g.term }
  else write settings.dropEmpty g p

/-- Writes the terms of a queue and closes the queue. An error in writing hides those in closing. -/
def merge (settings : MergeSettings) (q : MergeQueue C) (w : W) : Outcome (MergeQueue C × W) MergeStatistics :=
  match q.drain (fun _ => visit settings) ⟨w, { sources := q.sourceCount }, none⟩ with
  | .done (q, p) () => ((q.close).mapState (·, p.writer)).map fun () => p.statistics
  | .failed (q, p) e => .failed (q.release, p.writer) e
  | .fault x => .fault x

end DictionaryMerge

end InvertedIndex
