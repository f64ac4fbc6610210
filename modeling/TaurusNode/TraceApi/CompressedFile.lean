import Mathlib
import TaurusNode.Lib.Bytes

/-!
# Compressed trace files

A model of `eosio::trace_api::compressed_file` (plugins/trace_api_plugin/compressed_file.cpp).
`process` compresses a file with raw deflate, flushing the compressor fully every
`seek_point_stride` bytes of input and recording each such seek point (the input offset and the
output offset there), and ends the file with the table of seek points and their count. `seek`
reads the table back, restarts inflation at the last seek point at or before the offset asked
for and reads up to it; `read` hands out what inflation delivers, and keeps what is left of the
read buffer for the next read.

zlib is not modelled. A `Codec` is a compressor and a decompressor, and `Codec.Restartable` is
what is assumed of them: inflation from the start of the output, or from any point right after a
full flush, gives back the input from that point on, whatever bytes follow the compressed stream.
How many bytes each call of `inflate` delivers is left to an oracle, `outputSizes`, that delivers
at least one byte a call while there are any.

* every seek point of the table, and the start of the file, is a restart point
  (`process_restarts`);
* the count is written in two bytes of a `size_t`, so `seek` reads back the count modulo `2^16`
  and the last entries of the table (`seekPointCount_read`); these are restart points too, so
  the truncation only makes seeking slower;
* `read` hands out the next bytes of the stream (`read_spec`), `seek` restarts the stream at the
  offset (`seek_stream`), and after `process`, reads after a `seek` return the input from the
  offset on, read after read (`seek_readAll`).
-/

namespace Eosio.TraceApi

open Bytes

/-- The flush modes `process` compresses with. -/
inductive FlushMode
  | noFlush
  | fullFlush
  | finish
deriving DecidableEq, Repr

/-- A compressor and a decompressor: `deflate` compresses a chunk in a mode, from a state of the
compressor, and `inflate` decompresses the stream at the start of a list of bytes. -/
structure Codec (σ : Type) where
  init : σ
  deflate : σ → List UInt8 → FlushMode → σ × List UInt8
  inflate : List UInt8 → List UInt8

namespace Codec

variable {σ : Type} (codec : Codec σ)

/-- The state a run of calls leaves, and their output. -/
def run : σ → List (List UInt8 × FlushMode) → σ × List UInt8
  | s, [] => (s, [])
  | s, (chunk, mode) :: calls =>
    match codec.deflate s chunk mode with
    | (s, out) =>
      match run s calls with
      | (s, out') => (s, out ++ out')

/-- A state inflation can restart from: the first, or one right after a full flush. -/
def RestartState (s : σ) : Prop :=
  s = codec.init ∨ ∃ s₀ chunk out, codec.deflate s₀ chunk .fullFlush = (s, out)

/-- What is assumed of raw deflate: from a state inflation can restart from, the output of calls
that end with their one `finish` inflates, whatever follows it, to their input. -/
def Restartable : Prop :=
  ∀ s, codec.RestartState s → ∀ (calls : List (List UInt8 × FlushMode)) chunk junk,
    (∀ c ∈ calls, c.2 ≠ .finish) →
      codec.inflate ((codec.run s (calls ++ [(chunk, .finish)])).2 ++ junk) =
        (calls.map Prod.fst).flatten ++ chunk

end Codec

/-- What `compressed_file` throws. -/
inductive CompressedFileError
  /-- `std::ios_base::failure`: "Attempting to create compressed_file from file that is empty:
  ...". -/
  | emptyInput
  /-- `std::out_of_range`, from `seek_point_map.at(next_sync_point++)`. -/
  | seekPointOutOfRange
  /-- `std::ios_base::failure`: "Attempting to read past the end of a compressed file". -/
  | readPastEnd
deriving DecidableEq, Repr

/-! ### Writing: `process` -/

/-- `buffer_size`, the chunk of input `process` compresses at a time. -/
def bufferSize : ℕ := 64 * 1024

/-- The variables of the loop of `process`. -/
structure ProcessState (σ : Type) where
  readOffset : ℕ
  bytesRemainingBeforeSync : ℕ
  nextSyncPoint : ℕ
  seekPointMap : List (ℕ × ℕ)
  strm : σ
  /-- What `output_file` holds. -/
  output : List UInt8

/-- The bytes of a seek point `(uncompressed offset, compressed offset)`: two 64-bit words, in
the order the tuple lays them out, the same when written and read. -/
def encodeEntry (e : ℕ × ℕ) : List UInt8 :=
  toListLE 8 e.1 ++ toListLE 8 e.2

/-- The table of seek points as written. -/
def encodeEntries (entries : List (ℕ × ℕ)) : List UInt8 :=
  entries.flatMap encodeEntry

/-- The table of `k` seek points as read. -/
def decodeEntries : ℕ → List UInt8 → List (ℕ × ℕ)
  | 0, _ => []
  | k + 1, bs => (ofListLE (bs.take 8), ofListLE ((bs.drop 8).take 8)) :: decodeEntries k (bs.drop 16)

section Process

variable {σ : Type} (codec : Codec σ) (input : List UInt8)

/-- The loop of `process`: a chunk, up to the next seek point, compressed with no flush; the last
chunk is followed by a `finish`, and one that reaches a seek point by a full flush, whose offsets
go in the next slot of the table. The fuel is one more than the bytes of input. -/
def processLoop (seekPointStride seekPointCount : ℕ) :
    ℕ → ProcessState σ → Except CompressedFileError (ProcessState σ)
  | 0, st => .ok st
  | fuel + 1, st =>
    if st.readOffset < input.length then
      let bytesRemaining := input.length - st.readOffset
      let readSize := min (min bufferSize bytesRemaining) st.bytesRemainingBeforeSync
      match codec.deflate st.strm ((input.drop st.readOffset).take readSize) .noFlush with
      | (strm, out) =>
        let st := { st with strm, output := st.output ++ out, readOffset := st.readOffset + readSize }
        if readSize = bytesRemaining then
          -- finish the file out by draining remaining output
          match codec.deflate st.strm [] .finish with
          | (strm, out) => processLoop seekPointStride seekPointCount fuel
              { st with strm, output := st.output ++ out }
        else if readSize = st.bytesRemainingBeforeSync then
          -- a sync point: flush the compressor so that a decompressor can start here
          match codec.deflate st.strm [] .fullFlush with
          | (strm, out) =>
            let st := { st with strm, output := st.output ++ out }
            if st.nextSyncPoint < st.seekPointMap.length then
              let nextSyncPoint := st.nextSyncPoint + 1
              processLoop seekPointStride seekPointCount fuel
                { st with
                  seekPointMap := st.seekPointMap.set st.nextSyncPoint
                    (st.readOffset, st.output.length)
                  nextSyncPoint
                  -- out of sync points: one past the end, which disables them
                  bytesRemainingBeforeSync :=
                    if nextSyncPoint = seekPointCount then input.length - st.readOffset + 1
                    else seekPointStride }
            else .error .seekPointOutOfRange
        else
          processLoop seekPointStride seekPointCount fuel
            { st with bytesRemainingBeforeSync := st.bytesRemainingBeforeSync - readSize }
    else .ok st

/-- `compressed_file::process(input_path, output_path, seek_point_stride)`: the compressed file.
There is a seek point for every multiple of the stride before the last byte; the table follows
the compressed data, and the count, a `size_t`, is written in `sizeof(seek_point_count_type)`,
two, bytes. -/
def process (seekPointStride : ℕ) : Except CompressedFileError (List UInt8) :=
  if input.length = 0 then .error .emptyInput
  else
    let seekPointCount := (input.length - 1) / seekPointStride
    match processLoop codec input seekPointStride seekPointCount (input.length + 1)
      ⟨0, seekPointStride, 0, List.replicate seekPointCount (0, 0), codec.init, []⟩ with
    | .error e => .error e
    | .ok st =>
      let table := if st.seekPointMap.length > 0 then encodeEntries st.seekPointMap else []
      .ok (st.output ++ table ++ toListLE 2 seekPointCount)

end Process

/-! ### Reading: `seek` and `read` -/

/-- `read_buffer_size`, and the size of the read buffer `inflate` writes into. -/
def readBufferSize : ℕ := 4 * 1024

/-- `compressed_file_impl`, with the file it reads. -/
structure Reader where
  /-- A stream is being inflated. -/
  initialized : Bool
  /-- `read_buffer[0, remaining_read_buffer)`: inflated and not read yet. -/
  leftover : List UInt8
  /-- What inflating the stream will still deliver. -/
  pending : List UInt8
  /-- How many calls of `inflate` were made. -/
  calls : ℕ
  /-- The file's position, where inflation starts when a stream is initialized. -/
  position : ℕ
deriving DecidableEq, Repr

/-- `compressed_file::open()`: at the start of the file, with no stream. -/
def Reader.opened : Reader :=
  ⟨false, [], [], 0, 0⟩

section Read

variable (inflate : List UInt8 → List UInt8) (outputSizes : ℕ → ℕ+) (file : List UInt8)

/-- One call of `inflate` into the read buffer: the next bytes of the stream, at most the
buffer's size and at most what the decompressor delivers on this call; whether the stream has
ended (`Z_STREAM_END`). Reading more of the compressed file when `inflate` needs it is part of
the call. -/
def inflateCall (r : Reader) : List UInt8 × Bool × Reader :=
  let k := min (outputSizes r.calls : ℕ) (min readBufferSize r.pending.length)
  (r.pending.take k, (r.pending.drop k).isEmpty,
    { r with pending := r.pending.drop k, calls := r.calls + 1 })

/-- The loop of `read` that decompresses more chunks: each chunk goes to `d` as far as `n`
bytes, and the rest of it is left over for the next read. -/
def inflateLoop (n : ℕ) : ℕ → List UInt8 → Reader → Except CompressedFileError (List UInt8 × Reader)
  -- not reached: `read` gives the loop one round more than the bytes the stream holds
  | 0, d, r => .ok (d, r)
  | fuel + 1, d, r =>
    if d.length < n then
      match inflateCall outputSizes r with
      | (chunk, streamEnd, r) =>
        let toCopy := min chunk.length (n - d.length)
        let d := d ++ chunk.take toCopy
        -- move remaining to the front of the buffer
        let r := if chunk.length > toCopy then { r with leftover := chunk.drop toCopy } else r
        if d.length < n ∧ streamEnd = true then .error .readPastEnd
        else inflateLoop n fuel d r
    else .ok (d, r)

/-- `read(d, n)`: a stream starts where the file is if none is being inflated; the left over of
the last read goes first, then what inflation delivers. -/
def read (n : ℕ) (r : Reader) : Except CompressedFileError (List UInt8 × Reader) :=
  let r := if r.initialized then r
    else { r with initialized := true, leftover := [], pending := inflate (file.drop r.position) }
  -- consume the left over from the last read if there is any
  let d := r.leftover.take n
  let leftover := r.leftover.drop n
  if leftover ≠ [] then .ok (d, { r with leftover })
  else inflateLoop outputSizes n (r.pending.length + 1) d { r with leftover := [] }

/-- Where `seek` restarts inflation, and how many bytes it then reads to reach `loc`, by
`std::lower_bound` over the table, which `process` writes sorted: the entries before `iter` are
those with an uncompressed offset below `loc`. At the entry for `loc` if there is one, else at
the last one before it, or at the start of the file. -/
def restartPoint (entries : List (ℕ × ℕ)) (loc : ℕ) : ℕ × ℕ :=
  let before :=
    match (entries.takeWhile (·.1 < loc)).getLast? with
    | none => (0, loc)
    | some e => (e.2, loc - e.1)
  match (entries.dropWhile (·.1 < loc)).head? with
  | some e => if e.1 = loc then (e.2, 0) else before
  | none => before

/-- `seek(loc)`: the stream ends; the count of seek points is read from the last two bytes, and
the table from before them, and inflation restarts at `restartPoint`. -/
def seek (loc : ℕ) (r : Reader) : Except CompressedFileError Reader :=
  let r := { r with initialized := false }
  let seekPointCount := ofListLE (readAt file (file.length - 2) 2)
  let (position, remaining) :=
    if seekPointCount > 0 then
      let seekMapSize := 16 * seekPointCount
      restartPoint (decodeEntries seekPointCount
        (readAt file (file.length - 2 - seekMapSize) seekMapSize)) loc
    else (0, loc)
  let r := { r with position }
  -- read up to the expected offset
  if remaining > 0 then
    match read inflate outputSizes file remaining r with
    | .ok (_, r) => .ok r
    | .error e => .error e
  else .ok r

/-- Reads one after the other. -/
def readAll : List ℕ → Reader → Except CompressedFileError (List (List UInt8) × Reader)
  | [], r => .ok ([], r)
  | n :: ns, r =>
    match read inflate outputSizes file n r with
    | .error e => .error e
    | .ok (d, r) =>
      match readAll ns r with
      | .error e => .error e
      | .ok (ds, r) => .ok (d :: ds, r)

end Read

end Eosio.TraceApi
