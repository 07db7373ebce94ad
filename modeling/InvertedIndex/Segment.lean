import InvertedIndex.DictionaryMerge
import InvertedIndex.SegmentCursor

namespace InvertedIndex

inductive MergeSettingsSource where
  | given (settings : MergeSettings)
  | json (text : String)

def MergeSettingsSource.read : MergeSettingsSource → Except Error MergeSettings
  | .given settings => .ok settings
  | .json text => MergeSettings.read text

mutual

inductive Segment where
  | dictionary (entries : List TermEntry)
  | field (name : String) (terms : List (String × UInt64))
  | listing (entries : List TermEntry)
  | scripted (script : Script) (inner : Segment)
  | merged (sources : List NumberedSegment) (settings : MergeSettingsSource)

inductive NumberedSegment where
  | mk (origin : UInt64) (segment : Segment)

end

abbrev Assembly := ExceptT Failure (StateM (List String))

namespace Assembly

def announce (labels : List String) : Assembly Unit := modify (· ++ labels)

def run (a : Assembly α) : Except Failure α × List String := StateT.run (ExceptT.run a) []

end Assembly

namespace MergeSource

def labels {C : Type} [TermCursor C] (closed : List (MergeSource C)) : List String :=
  closed.flatMap (·.closing.labels)

end MergeSource

namespace MergeQueue

def assemble {C : Type} [TermCursor C] (sources : List (MergeSource C)) : Assembly (MergeQueue C) :=
  match MergeQueue.ofSources sources with
  | .ok q => do
    Assembly.announce (MergeSource.labels q.closed)
    return q
  | .error refusal => do
    Assembly.announce (MergeSource.labels refusal.closed)
    throw (.error refusal.error)

def assembleDictionary {C : Type} [TermCursor C] (settings : MergeSettings) (q : MergeQueue C) :
    Assembly Dictionary :=
  let announceNew (after : MergeQueue C) : Assembly Unit :=
    Assembly.announce (MergeSource.labels (after.closed.drop q.closed.length))
  match DictionaryMerge.merge settings q ({} : Dictionary) with
  | .done (after, d) _ => do
    announceNew after
    return d
  | .failed (after, _) e => do
    announceNew after
    throw (.error e)
  | .fault x => throw (.fault x)

end MergeQueue

namespace Segment

mutual

def cursor : Segment → Assembly SegmentCursor
  | .dictionary entries => return .dictionary (.ofList entries)
  | .field name terms => return .dictionary (.ofField name terms)
  | .listing entries => return .listing ⟨entries.toArray, 0⟩
  | .scripted script inner => return .scripted script 0 (← inner.cursor)
  | .merged sources settings => do
    let settings ← MonadExcept.ofExcept (settings.read.mapError .error)
    let q ← MergeQueue.assemble (← cursors sources)
    let d ← q.assembleDictionary settings
    return .dictionary d.cursor

def cursors : List NumberedSegment → Assembly (List (MergeSource SegmentCursor))
  | [] => return []
  | .mk origin segment :: rest => do
    let c ← segment.cursor
    return ⟨origin, c⟩ :: (← cursors rest)

end

def queue (sources : List NumberedSegment) : Assembly (MergeQueue SegmentCursor) := do
  MergeQueue.assemble (← cursors sources)

end Segment

end InvertedIndex
