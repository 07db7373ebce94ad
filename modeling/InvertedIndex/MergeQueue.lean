import InvertedIndex.Heap
import InvertedIndex.TermCursor

namespace InvertedIndex

structure MergeSource (C : Type) where
  origin : UInt64
  cursor : C

namespace MergeSource

variable {C : Type} [TermCursor C]

def term? (s : MergeSource C) : Option Term := TermCursor.term? s.cursor

def docFreq (s : MergeSource C) : UInt64 := TermCursor.docFreq s.cursor

def closing (s : MergeSource C) : Closing := TermCursor.closing s.cursor

def before (a b : MergeSource C) : Bool :=
  match a.term?, b.term? with
  | some x, some y => (compare x y).then (compare a.origin b.origin) == .lt
  | some _, none => true
  | none, _ => false

def closeErrors (sources : List (MergeSource C)) : List Error := sources.filterMap (·.closing.error)

end MergeSource

structure TermGroup (C : Type) where
  term : Term
  members : List (MergeSource C)

namespace TermGroup

variable {C : Type} [TermCursor C]

def docFreq (g : TermGroup C) : Except Fault UInt64 := Count.sum (g.members.map MergeSource.docFreq)

def origins (g : TermGroup C) : List UInt64 := g.members.map MergeSource.origin

def moveMember (i : Nat) (g : TermGroup C) (h : i < g.members.length) : Outcome (TermGroup C) Bool :=
  (TermCursor.next g.members[i].cursor).mapState fun c =>
    { g with members := g.members.set i { g.members[i] with cursor := c } }

end TermGroup

structure MergeQueue (C : Type) where
  heap : Heap (MergeSource C)
  /-- The list that the members of the next group are added to. -/
  spare : List (MergeSource C)
  retired : List (MergeSource C)
  sourceCount : Nat
  isClosed : Bool
  closed : List (MergeSource C)

namespace MergeQueue

variable {C : Type} [TermCursor C]

/-- What remains of a queue that could not be built: all of its sources have been closed. -/
structure Refusal (C : Type) where
  error : Error
  closed : List (MergeSource C)

/-- Empty sources are closed at once. If that fails, so are all the others. -/
def ofSources (sources : List (MergeSource C)) : Except (Refusal C) (MergeQueue C) :=
  let live := sources.filter (·.term?.isSome)
  let empty := sources.filter (·.term?.isNone)
  match MergeSource.closeErrors empty with
  | [] =>
    .ok { heap := Heap.ofArray MergeSource.before live.toArray, spare := [], retired := [],
          sourceCount := sources.length, isClosed := false, closed := empty }
  | e :: es => .error ⟨Error.joint e (es ++ MergeSource.closeErrors live), empty ++ live⟩

def size (q : MergeQueue C) : Nat := q.heap.size

def isEmpty (q : MergeQueue C) : Bool := q.heap.isEmpty

def peekTerm? (q : MergeQueue C) : Option Term := q.heap.peek?.bind MergeSource.term?

def isHeap (q : MergeQueue C) : Bool := q.heap.isHeap MergeSource.before

def takeOn (t : Term) (heap : Heap (MergeSource C)) : List (MergeSource C) × Heap (MergeSource C) :=
  if heap.peek?.bind MergeSource.term? = some t then
    match _h : heap.removeFront? MergeSource.before with
    | none => ([], heap)
    | some (s, rest) => let (more, heap) := takeOn t rest; (s :: more, heap)
  else ([], heap)
termination_by heap.size
decreasing_by have := Heap.size_of_removeFront? MergeSource.before ‹_›; omega

def pop (q : MergeQueue C) : Option (TermGroup C) × MergeQueue C :=
  match q.heap.removeFront? MergeSource.before with
  | none => (none, q)
  | some (first, heap) =>
    match first.term? with
    | none => (none, { q with heap := heap, retired := q.retired ++ [first] })
    | some t =>
      let (more, heap) := takeOn t heap
      (some ⟨t, q.spare ++ first :: more⟩, { q with heap := heap, spare := [] })

def advanceMembers (q : MergeQueue C) : List (MergeSource C) → Outcome (MergeQueue C) (List Error)
  | [] => .done q []
  | s :: rest =>
    match TermCursor.next s.cursor with
    | .done c more =>
      let s := { s with cursor := c }
      if more && s.term?.isSome then
        match q.heap.push MergeSource.before s with
        | .ok heap => advanceMembers { q with heap := heap } rest
        | .error x => .fault x
      else (advanceMembers { q with closed := q.closed ++ [s] } rest).map (s.closing.error.toList ++ ·)
    | .failed c e => .failed { q with retired := q.retired ++ { s with cursor := c } :: rest } e
    | .fault x => .fault x

/-- Queues the members of a group again on their next terms. A failed move ends this, and hides failures to close. If
there is none, the list of the group is used again, without the members that were taken out of it. -/
def advance (g : TermGroup C) (q : MergeQueue C) : Outcome (MergeQueue C) Unit :=
  match q.advanceMembers g.members with
  | .done q errors =>
    let q := { q with spare := g.members.drop g.members.length }
    match Error.joint? errors with
    | none => .done q ()
    | some e => .failed q e
  | .failed q e => .failed q e
  | .fault x => .fault x

def abandon (g : TermGroup C) (q : MergeQueue C) : MergeQueue C := { q with retired := q.retired ++ g.members }

def held (q : MergeQueue C) : List (MergeSource C) := q.heap.toList ++ q.retired

/-- The queue after all it holds has been closed, whether or not that fails. -/
def release (q : MergeQueue C) : MergeQueue C :=
  { q with heap := q.heap.clear, retired := [], isClosed := true, closed := q.closed ++ q.held }

def close (q : MergeQueue C) : Outcome (MergeQueue C) Unit :=
  match Error.joint? (MergeSource.closeErrors q.held) with
  | none => .done q.release ()
  | some e => .failed q.release e

/-- What dropping a queue does. A queue that has been closed is closed again only if it has taken sources back. -/
def drop (q : MergeQueue C) : MergeQueue C :=
  if q.isClosed && q.heap.isEmpty && q.retired.isEmpty then q else q.release

def drainWithin (visit : MergeQueue C → TermGroup C → σ → Outcome σ Unit) :
    (limit : Nat) → MergeQueue C → σ → Outcome (MergeQueue C × σ) Unit
  | 0, q, s => .done (q, s) ()
  | limit + 1, q, s =>
    match q.pop with
    | (none, q) => .done (q, s) ()
    | (some g, q) =>
      match visit q g s with
      | .done s () =>
        match q.advance g with
        | .done q () => drainWithin visit limit q s
        | .failed q e => .failed (q, s) e
        | .fault x => .fault x
      | .failed s e => .failed (q.abandon g, s) e
      | .fault x => .fault x

def drain (visit : MergeQueue C → TermGroup C → σ → Outcome σ Unit) (q : MergeQueue C) (s : σ) :
    Outcome (MergeQueue C × σ) Unit :=
  -- Each group moves a cursor.
  drainWithin visit (Count.total (q.heap.toList.map fun s => TermCursor.bound s.cursor) + 1) q s

end MergeQueue

end InvertedIndex
