import Mathlib

/-!
# The undo stack of chain_kv

A model of `b1::chain_kv::undo_stack` and `write_session`
(libraries/chain_kv/include/b1/chain_kv/chain_kv.hpp) over one rocksdb database.

The database holds the keys of the users, outside the prefix of the undo stack, and under the
prefix the undo segments, whose keys (`create_segment_key`) sort as their numbers. The model
keeps the first as a function from keys to optional values and the second as the list of the
segments in the order of their keys; the state of the undo stack, which the source writes
under its prefix with every change (`write_state`), is kept beside them.

`undo_state::undo_stack` counts, for each revision, the segments written since its `push`. The
model keeps it with the top revision first, the vector of the source reversed.

A `write_session` keeps what it reads and writes in a cache: for each key, the value in the
database when it was first read (`orig_value`) and the value now (`current_value`), and the
list of changed keys, the most recent first (`change_list`). `write_changes` writes the changed
values, and, when there is a revision to undo to, the undo records `(key, orig_value,
current_value)` packed into segments of about `target_segment_size` bytes.
-/

namespace B1.ChainKv

/-- `bytes`. -/
abbrev Bytes := List UInt8

/-- The size of `fc::unsigned_int` packed: seven bits a byte. -/
def unsignedIntSize (n : ℕ) : ℕ :=
  if n < 2 ^ 7 then 1 else if n < 2 ^ 14 then 2 else if n < 2 ^ 21 then 3
  else if n < 2 ^ 28 then 4 else 5

/-- The size of `pack_bytes`. -/
def packBytesSize (b : Bytes) : ℕ :=
  unsignedIntSize b.length + b.length

/-- The size of `pack_optional_bytes`. -/
def packOptionalBytesSize : Option Bytes → ℕ
  | none => 1
  | some b => 1 + packBytesSize b

/-- One record of an undo segment: `pack_undo_segment(key, old_value, new_value)`. -/
structure UndoRecord where
  key : Bytes
  oldValue : Option Bytes
  newValue : Option Bytes
deriving DecidableEq, Repr

/-- The size of the packed record. -/
def UndoRecord.packedSize (r : UndoRecord) : ℕ :=
  packBytesSize r.key + packOptionalBytesSize r.oldValue + packOptionalBytesSize r.newValue

/-- `undo_state`, with `undo_stack` top first. -/
structure UndoState where
  revision : ℤ
  undoStack : List ℕ
  nextUndoSegment : ℕ
deriving DecidableEq, Repr

/-- The database: the keys outside the prefix of the undo stack, and the undo segments in the
order of their keys. -/
structure Database where
  values : Bytes → Option Bytes
  segments : List (ℕ × List UndoRecord)

/-- `undo_stack` over its database. -/
structure UndoStack where
  db : Database
  targetSegmentSize : ℕ
  state : UndoState

/-- `rocksdb::WriteBatch::DeleteRange(create_segment_key(lo), create_segment_key(hi))`. -/
def deleteRange (segments : List (ℕ × List UndoRecord)) (lo hi : ℕ) : List (ℕ × List UndoRecord) :=
  segments.filter fun seg => !(lo ≤ seg.1 && seg.1 < hi)

/-- The undo records of a segment applied to the values, in order: `Put(key, old_value)`, or
`Delete(key)` when there was none. -/
def applyUndoSegment (values : Bytes → Option Bytes) (segment : List UndoRecord) :
    Bytes → Option Bytes :=
  segment.foldl (fun values r => Function.update values r.key r.oldValue) values

namespace UndoStack

variable (u : UndoStack)

/-- `push()`: a new revision with no segment. -/
def push : UndoStack :=
  { u with state := { u.state with undoStack := 0 :: u.state.undoStack, revision := u.state.revision + 1 } }

/-- `squash()`: the last revision drops its segments; otherwise the top revision's segments join
the one below. -/
def squash : UndoStack :=
  match u.state.undoStack with
  | [] => u
  | [_] =>
    { db := { u.db with segments := deleteRange u.db.segments 0 u.state.nextUndoSegment }
      targetSegmentSize := u.targetSegmentSize
      state := { u.state with undoStack := [], revision := u.state.revision - 1 } }
  | n :: m :: rest =>
    { u with state := { u.state with undoStack := (m + n) :: rest, revision := u.state.revision - 1 } }

/-- `undo()`: going back from the last segment to the first one of the top revision, put back the
old values of its records and delete it; "nothing to undo" without a revision. -/
def undo : Option UndoStack :=
  match u.state.undoStack with
  | [] => none
  | back :: rest =>
    let first := u.state.nextUndoSegment - back
    let undone := u.db.segments.reverse.takeWhile fun seg => first ≤ seg.1
    some
      { db :=
          { values := undone.foldl (fun values seg => applyUndoSegment values seg.2) u.db.values
            segments := (u.db.segments.reverse.dropWhile fun seg => first ≤ seg.1).reverse }
        targetSegmentSize := u.targetSegmentSize
        state := { u.state with
          nextUndoSegment := u.state.nextUndoSegment - back
          undoStack := rest
          revision := u.state.revision - 1 } }

/-- `commit(revision)`: forget the revisions up to `revision` and delete their segments. -/
def commit (revision : ℤ) : UndoStack :=
  let revision := min revision u.state.revision
  let firstRevision := u.state.revision - u.state.undoStack.length
  if firstRevision < revision then
    let undoStack := u.state.undoStack.take (u.state.undoStack.length - (revision - firstRevision).toNat)
    let keepUndoSegment := u.state.nextUndoSegment - undoStack.sum
    { db := { u.db with segments := deleteRange u.db.segments 0 keepUndoSegment }
      targetSegmentSize := u.targetSegmentSize
      state := { u.state with undoStack } }
  else u

end UndoStack

/-- `cached_value`, without the count of erases that only invalidates iterators. -/
structure CachedValue where
  origValue : Option Bytes
  currentValue : Option Bytes
deriving DecidableEq, Repr

/-- `write_session`: the cache, and the changed keys, the most recent first. -/
structure WriteSession where
  cache : Bytes → Option CachedValue
  changeList : List Bytes

/-- The operations of a `write_session`. -/
inductive SessionOp
  /-- `set(k, v)`. -/
  | set (k v : Bytes)
  /-- `erase(k)`. -/
  | erase (k : Bytes)
deriving DecidableEq, Repr

namespace WriteSession

/-- A session that has read nothing. -/
def empty : WriteSession :=
  ⟨fun _ => none, []⟩

variable (values : Bytes → Option Bytes) (ws : WriteSession)

/-- `changed(it)`: add the key to the change list unless it is there. -/
def changed (k : Bytes) : List Bytes :=
  if k ∈ ws.changeList then ws.changeList else k :: ws.changeList

/-- `set(k, v)`: a cached key changes when it has no value or another one; an uncached key is read
from the database first. -/
def set (k v : Bytes) : WriteSession :=
  match ws.cache k with
  | some cv =>
    if cv.currentValue = none ∨ cv.currentValue ≠ some v then
      ⟨Function.update ws.cache k (some { cv with currentValue := some v }), ws.changed k⟩
    else ws
  | none =>
    match values k with
    | none => ⟨Function.update ws.cache k (some ⟨none, some v⟩), ws.changed k⟩
    | some origV =>
      if v ≠ origV then ⟨Function.update ws.cache k (some ⟨some origV, some v⟩), ws.changed k⟩
      else { ws with cache := Function.update ws.cache k (some ⟨some origV, some origV⟩) }

/-- `erase(k)`. -/
def erase (k : Bytes) : WriteSession :=
  match ws.cache k with
  | some cv =>
    if cv.currentValue.isSome then
      ⟨Function.update ws.cache k (some { cv with currentValue := none }), ws.changed k⟩
    else ws
  | none =>
    match values k with
    | none => { ws with cache := Function.update ws.cache k (some ⟨none, none⟩) }
    | some origV => ⟨Function.update ws.cache k (some ⟨some origV, none⟩), ws.changed k⟩

/-- One operation. -/
def apply : SessionOp → WriteSession
  | .set k v => ws.set values k v
  | .erase k => ws.erase values k

/-- A session on the database running the operations in order. -/
def run (ops : List SessionOp) : WriteSession :=
  ops.foldl (fun ws op => ws.apply values op) empty

/-- The undo records `write_changes` goes through: the keys of the change list, in its order,
whose value changed. -/
def changes : List UndoRecord :=
  ws.changeList.filterMap fun k =>
    (ws.cache k).bind fun cv =>
      if cv.origValue ≠ cv.currentValue then some ⟨k, cv.origValue, cv.currentValue⟩ else none

end WriteSession

/-- What `write_changes` builds: the batch's values and segments, the state, and the segment being
packed. -/
structure WriteBatch where
  values : Bytes → Option Bytes
  segments : List (ℕ × List UndoRecord)
  state : UndoState
  segment : List UndoRecord

namespace WriteBatch

variable (w : WriteBatch)

/-- `write_segment`: a nonempty segment is put under the next segment key and counted for the top
revision. -/
def writeSegment : WriteBatch :=
  if w.segment = [] then w
  else
    { values := w.values
      segments := w.segments ++ [(w.state.nextUndoSegment, w.segment)]
      state := { w.state with
        nextUndoSegment := w.state.nextUndoSegment + 1
        undoStack := match w.state.undoStack with
          | [] => []
          | n :: rest => (n + 1) :: rest }
      segment := [] }

/-- `append_segment`: the segment is written first when the record would take it past the target
size. -/
def appendSegment (targetSegmentSize : ℕ) (r : UndoRecord) : WriteBatch :=
  let w := if (w.segment.map UndoRecord.packedSize).sum + r.packedSize > targetSegmentSize then
    w.writeSegment else w
  { w with segment := w.segment ++ [r] }

/-- One changed key of `write_changes`: the new value, and the undo record when there is a revision
to undo to. -/
def writeChange (targetSegmentSize : ℕ) (r : UndoRecord) : WriteBatch :=
  let w := { w with values := Function.update w.values r.key r.newValue }
  if w.state.undoStack ≠ [] then w.appendSegment targetSegmentSize r else w

end WriteBatch

namespace UndoStack

variable (u : UndoStack)

/-- `write_changes(cache, change_list)` of a session. -/
def writeChanges (ws : WriteSession) : UndoStack :=
  let w := ws.changes.foldl (fun (w : WriteBatch) r => w.writeChange u.targetSegmentSize r)
    ⟨u.db.values, u.db.segments, u.state, []⟩
  let w := w.writeSegment
  ⟨⟨w.values, w.segments⟩, u.targetSegmentSize, w.state⟩

end UndoStack

/-- The operations on a database with an undo stack. -/
inductive KvEvent
  /-- `undo_stack::push()`. -/
  | push
  /-- A `write_session` running the operations, then `write_changes`. -/
  | write (ops : List SessionOp)
  /-- `undo_stack::squash()`. -/
  | squash
  /-- `undo_stack::undo()`. -/
  | undo
  /-- `undo_stack::commit(revision)`. -/
  | commit (revision : ℤ)
deriving DecidableEq, Repr

namespace UndoStack

/-- An undo stack on a database with no segment, and no revision to undo to. -/
def init (values : Bytes → Option Bytes) (targetSegmentSize : ℕ) (revision : ℤ) : UndoStack :=
  ⟨⟨values, []⟩, targetSegmentSize, ⟨revision, [], 0⟩⟩

/-- One operation; `none` where the source throws. -/
def step (u : UndoStack) : KvEvent → Option UndoStack
  | .push => some u.push
  | .write ops => some (u.writeChanges (WriteSession.run u.db.values ops))
  | .squash => some u.squash
  | .undo => u.undo
  | .commit revision => some (u.commit revision)

/-- A sequence of operations, none of which throws. -/
def run (u : UndoStack) (events : List KvEvent) : Option UndoStack :=
  events.foldlM step u

end UndoStack

end B1.ChainKv
