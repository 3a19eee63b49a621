import FerricCache.Lib.BigEndian
import FerricCache.Commands

/-!
# `FerricCache.Persistence.Wal` — the write-ahead log

The entry format, the files on disk, and the operations of `WriteAheadLog`: opening, appending,
rotating, truncating, and the two readers, `replay_file` and `read_last_sequence`. The directory is a
`Disk` with one file for each path the log uses; the writer is a `BufWriter` over a handle that either
appends or writes at its own offset, because rotation and truncation reopen the file without `O_APPEND`.

`bincode` and `crc32fast` are third-party code and enter as the parameter `Codec`.
-/

namespace FerricCache

open Lib

/-- `bincode::serialize` / `deserialize` of commands (an error is its text), and `crc32fast::hash`. -/
class Codec where
  encode : Command → Bytes
  decode : Bytes → Except Bytes Command
  crc32 : Bytes → UInt32

/-- What the log relies on: this command is decoded back from its encoding, which fits the size field
    of an entry. -/
structure Encodes [Codec] (c : Command) : Prop where
  decode_encode : Codec.decode (Codec.encode c) = .ok c
  size_lt : (Codec.encode c).length < 2 ^ 32

/-- One bit of the reflected CRC-32 polynomial division. -/
def crc32Bit (c : UInt32) : UInt32 :=
  if c &&& 1 = 1 then (c >>> 1) ^^^ 0xEDB88320 else c >>> 1

/-- `crc32fast::hash`. -/
def crc32 (b : Bytes) : UInt32 :=
  ~~~(b.foldl (fun c x => crc32Bit^[8] (c ^^^ x.toUInt32)) 0xFFFFFFFF)

example : crc32 (utf8 "123456789") = 0xCBF43926 := by decide +kernel

/-- `bincode` of an `INCR`: variant index, length, key. -/
def encodeIncr : Command → Bytes
  | .incr key => 3 :: 0 :: 0 :: 0 :: ((BigEndian.toBytes 8 key.length).reverse ++ key)
  | _ => []

/-- Its decoder. -/
def decodeIncr : Bytes → Except Bytes Command
  | 3 :: 0 :: 0 :: 0 :: rest =>
      let n := BigEndian.ofBytes (rest.take 8).reverse
      if rest.length < 8 + n then .error (utf8 "io error: unexpected end of file")
      else .ok (.incr ((rest.drop 8).take n))
  | _ => .error (utf8 "io error: unexpected end of file")

/-- The codec of the concrete runs, whose commands are `INCR`s. -/
@[reducible] def incrCodec : Codec := ⟨encodeIncr, decodeIncr, crc32⟩

theorem length_encodeIncr (key : Bytes) : (encodeIncr (.incr key)).length = 12 + key.length := by
  simp only [encodeIncr, List.length_cons, List.length_append, List.length_reverse, BigEndian.length_toBytes]
  omega

/-- The decoder undoes the encoder for any key in memory. -/
theorem decodeIncr_encodeIncr (key : Bytes) (h : key.length < 2 ^ 64) :
    decodeIncr (encodeIncr (.incr key)) = .ok (.incr key) := by
  have hlen : ((BigEndian.toBytes 8 key.length).reverse).length = 8 := by simp
  have hroom : ¬ ((BigEndian.toBytes 8 key.length).reverse ++ key).length < 8 + key.length := by
    rw [List.length_append, hlen]
    exact lt_irrefl _
  have hwidth : (256 : Nat) ^ 8 = 2 ^ 64 := by norm_num
  simp only [encodeIncr, decodeIncr]
  rw [List.take_left' hlen, List.drop_left' hlen, List.reverse_reverse,
    BigEndian.ofBytes_toBytes_of_lt (by rwa [hwidth]), if_neg hroom, List.take_length]

theorem encodes_incr (key : Bytes) (h : key.length < 2 ^ 31) : @Encodes incrCodec (.incr key) := by
  refine @Encodes.mk incrCodec _ (decodeIncr_encodeIncr key (h.trans (by norm_num))) ?_
  show (encodeIncr (.incr key)).length < 2 ^ 32
  rw [length_encodeIncr]
  omega

/-- `WALError`. -/
inductive WALError
  | ioError
  | corruptedEntry (text : Bytes)
  deriving DecidableEq

/-! ## Entries -/

/-- `WALEntry`. -/
structure WALEntry where
  sequence : UInt64
  timestamp : UInt64
  command : Command

section Entries

variable [Codec]

namespace WALEntry

/-- The entry up to its checksum: sequence, timestamp, command size (cut to 32 bits), command. -/
def body (e : WALEntry) : Bytes :=
  BigEndian.toBytes 8 e.sequence.toNat ++ BigEndian.toBytes 8 e.timestamp.toNat ++
    BigEndian.toBytes 4 (Codec.encode e.command).length ++ Codec.encode e.command

/-- `serialize`. -/
def serialize (e : WALEntry) : Bytes :=
  e.body ++ BigEndian.toBytes 4 (Codec.crc32 e.body).toNat

/-- `deserialize`. -/
def deserialize (data : Bytes) : Except WALError WALEntry :=
  if data.length < 24 then .error (.corruptedEntry (utf8 "Entry too short"))
  else
    let body := data.take (data.length - 4)
    if (Codec.crc32 body).toNat ≠ BigEndian.ofBytes (data.drop (data.length - 4)) then
      .error (.corruptedEntry (utf8 "Checksum mismatch"))
    else
      let cmdSize := BigEndian.ofBytes ((data.drop 16).take 4)
      if (data.drop 20).length < cmdSize + 4 then
        .error (.corruptedEntry (utf8 "Invalid command size"))
      else
        match Codec.decode ((data.drop 20).take cmdSize) with
        | .ok command =>
            .ok ⟨UInt64.ofNat (BigEndian.ofBytes (data.take 8)),
              UInt64.ofNat (BigEndian.ofBytes ((data.drop 8).take 8)), command⟩
        | .error e => .error (.corruptedEntry (utf8 "bincode decode failed: " ++ e))

end WALEntry

/-! ## The two readers -/

/-- The command size in a 20-byte header. -/
def headerSize (data : Bytes) : Nat := BigEndian.ofBytes ((data.drop 16).take 4)

/-- The sequence number in a 20-byte header. -/
def headerSequence (data : Bytes) : UInt64 := UInt64.ofNat (BigEndian.ofBytes (data.take 8))

/-- The loop of `replay_file`: a header that cannot be read ends it, a body that cannot be read is an
    I/O error, an entry that does not deserialize is skipped. Returns the entries given to the callback
    and the result. Each round reads at least 24 bytes, so `fuel` is never used up. -/
def replayLoop : Nat → Bytes → List WALEntry × Except WALError Nat
  | 0, _ => ([], .ok 0)
  | fuel + 1, data =>
      if data.length < 20 then ([], .ok 0)
      else if (data.drop 20).length < headerSize data + 4 then ([], .error .ioError)
      else
        let rest := replayLoop fuel (data.drop (20 + (headerSize data + 4)))
        match WALEntry.deserialize (data.take (20 + (headerSize data + 4))) with
        | .ok e => (e :: rest.1, rest.2.map (· + 1))
        | .error _ => rest

/-- `replay_file` on a file with these contents. -/
def replayFile (data : Bytes) : List WALEntry × Except WALError Nat := replayLoop data.length data

/-- The loop of `read_last_sequence` over one file, with its running maximum and `found_any`. -/
def lastSequenceLoop : Nat → UInt64 × Bool → Bytes → Except WALError (UInt64 × Bool)
  | 0, acc, _ => .ok acc
  | fuel + 1, acc, data =>
      if data.length < 20 then .ok acc
      else if (data.drop 20).length < headerSize data + 4 then .error .ioError
      else
        lastSequenceLoop fuel (max (headerSequence data) acc.1, true)
          (data.drop (20 + (headerSize data + 4)))

end Entries

/-! ## Files -/

/-- The files of the persistence directory: the active log, its backup segments, the snapshot. -/
structure Disk where
  active : Option Bytes
  segment : Nat → Option Bytes
  snapshot : Option Bytes

/-- `BufWriter<File>` over the active log: the handle's mode and offset, and what is buffered. -/
structure Writer where
  append : Bool
  pos : Nat
  buf : Bytes

namespace Writer

/-- The capacity of a `BufWriter`. -/
def capacity : Nat := 8192

/-- Contents after writing `b` at offset `pos`, with a hole of zeros past the end. -/
def writeAt (pos : Nat) (contents b : Bytes) : Bytes :=
  contents.take pos ++ List.replicate (pos - contents.length) 0 ++ b ++ contents.drop (pos + b.length)

/-- Write straight through the handle; nothing to write is no write at all. -/
def emit (w : Writer) (b contents : Bytes) : Writer × Bytes :=
  if b.isEmpty then (w, contents)
  else if w.append then (w, contents ++ b)
  else ({ w with pos := w.pos + b.length }, writeAt w.pos contents b)

/-- `flush`. -/
def flush (w : Writer) (contents : Bytes) : Writer × Bytes :=
  let r := w.emit w.buf contents
  ({ r.1 with buf := [] }, r.2)

/-- `write_all`: into the buffer while it fits; else the buffer goes out first, and what does not fit
    the empty buffer either is written through. -/
def writeAll (w : Writer) (b contents : Bytes) : Writer × Bytes :=
  if w.buf.length + b.length < capacity then ({ w with buf := w.buf ++ b }, contents)
  else
    let r := if capacity < w.buf.length + b.length then w.flush contents else (w, contents)
    if capacity ≤ b.length then r.1.emit b r.2 else ({ r.1 with buf := r.1.buf ++ b }, r.2)

end Writer

/-- `WALSyncPolicy`. -/
inductive WALSyncPolicy
  | always
  | everySecond
  | manual
  deriving DecidableEq

/-- The fields of `PersistenceConfig` the log reads. -/
structure PersistenceConfig where
  walSyncPolicy : WALSyncPolicy
  maxWalSizeBytes : UInt64
  walBackupCount : UInt32

/-- `WriteAheadLog`. -/
structure WriteAheadLog where
  writer : Writer
  sequence : UInt64
  syncPolicy : WALSyncPolicy
  currentSize : UInt64
  maxSize : UInt64
  backupCount : UInt32

/-- `segments_to_keep`. -/
def segmentsToKeep (backupCount : UInt32) : Nat := max backupCount.toNat 1

/-- The contents of the files `1..=keep` that exist, highest number first. -/
def segmentsInReplayOrder (keep : Nat) (disk : Disk) : List Bytes :=
  ((List.range' 1 keep).reverse.map disk.segment).reduceOption

namespace WriteAheadLog

/-- `files_in_replay_order`: the contents of the files that exist, oldest first. -/
def filesInReplayOrder (wal : WriteAheadLog) (disk : Disk) : List Bytes :=
  segmentsInReplayOrder (segmentsToKeep wal.backupCount) disk ++ disk.active.toList

section Reading

variable [Codec]

/-- The loop of `replay` over the files left: an error of one file ends it. -/
def replayFiles : List Bytes → List WALEntry × Except WALError Nat
  | [] => ([], .ok 0)
  | data :: files =>
      match replayFile data with
      | (es, .ok n) =>
          let rest := replayFiles files
          (es ++ rest.1, rest.2.map (n + ·))
      | (es, .error e) => (es, .error e)

/-- `replay`: the entries given to the callback, in order, and the result. -/
def replay (wal : WriteAheadLog) (disk : Disk) : List WALEntry × Except WALError Nat :=
  replayFiles (wal.filesInReplayOrder disk)

omit [Codec] in
/-- The loop of `read_last_sequence` over the files left. -/
def lastSequenceFiles : UInt64 × Bool → List Bytes → Except WALError (UInt64 × Bool)
  | acc, [] => .ok acc
  | acc, data :: files =>
      match lastSequenceLoop data.length acc data with
      | .ok acc' => lastSequenceFiles acc' files
      | .error e => .error e

omit [Codec] in
/-- `read_last_sequence`: the active file, then the segments; `+ 1` wraps. -/
def readLastSequence (config : PersistenceConfig) (disk : Disk) : Except WALError UInt64 :=
  let segments := (List.range' 1 (segmentsToKeep config.walBackupCount)).map disk.segment
  match lastSequenceFiles (0, false) (disk.active :: segments).reduceOption with
  | .ok (last, true) => .ok (last + 1)
  | .ok (_, false) => .ok 0
  | .error e => .error e

end Reading

/-- `new`: the active file is opened for appending, and created if it does not exist. -/
def new (config : PersistenceConfig) (disk : Disk) : Except WALError WriteAheadLog × Disk :=
  let disk' := { disk with active := some (disk.active.getD []) }
  match readLastSequence config disk' with
  | .error e => (.error e, disk')
  | .ok sequence =>
      (.ok
        { writer := ⟨true, 0, []⟩
          sequence
          syncPolicy := config.walSyncPolicy
          currentSize := UInt64.ofNat (disk.active.getD []).length
          maxSize := config.maxWalSizeBytes
          backupCount := config.walBackupCount }, disk')

/-- Let the writer work on the active file. -/
def onActive (wal : WriteAheadLog) (disk : Disk) (f : Writer → Bytes → Writer × Bytes) :
    WriteAheadLog × Disk :=
  let r := f wal.writer (disk.active.getD [])
  ({ wal with writer := r.1 }, { disk with active := some r.2 })

/-- The locked part of `append_command`: write the entry, and flush under `Always`. -/
def writeEntry (wal : WriteAheadLog) (disk : Disk) (bytes : Bytes) : WriteAheadLog × Disk :=
  let r := wal.onActive disk fun w contents => w.writeAll bytes contents
  if r.1.syncPolicy = .always then r.1.onActive r.2 Writer.flush else r

/-- `sync`. -/
def sync (wal : WriteAheadLog) (disk : Disk) : WriteAheadLog × Disk := wal.onActive disk Writer.flush

/-- `should_rotate`. -/
def shouldRotate (wal : WriteAheadLog) : Bool := wal.maxSize ≤ wal.currentSize

/-- `remove_file` of the oldest segment, then `.n` renamed to `.n+1` from `keep - 1` down to `1`. -/
def ageSegments (keep : Nat) (segment : Nat → Option Bytes) : Nat → Option Bytes :=
  (List.range' 1 (keep - 1)).reverse.foldl
    (fun seg n =>
      match seg n with
      | some contents => Function.update (Function.update seg n none) (n + 1) (some contents)
      | none => seg)
    (Function.update segment keep none)

/-- The locked part of `rotate`: flush, age the segments, copy the active file to `.1`, truncate it and
    reopen it without `O_APPEND`. -/
def rotateFiles (wal : WriteAheadLog) (disk : Disk) : WriteAheadLog × Disk :=
  let r := wal.onActive disk Writer.flush
  let aged := ageSegments (segmentsToKeep wal.backupCount) r.2.segment
  ({ r.1 with writer := ⟨false, 0, []⟩ },
    { r.2 with segment := Function.update aged 1 r.2.active, active := some [] })

/-- `rotate`. -/
def rotate (wal : WriteAheadLog) (disk : Disk) : WriteAheadLog × Disk :=
  let r := wal.rotateFiles disk
  ({ r.1 with currentSize := 0 }, r.2)

/-- `append_command` up to its size test, the entry stamped `timestamp`: number the entry, write it
    under the lock, add to the size. -/
def logCommand [Codec] (wal : WriteAheadLog) (disk : Disk) (timestamp : UInt64) (c : Command) :
    WriteAheadLog × Disk :=
  let bytes := (WALEntry.mk wal.sequence timestamp c).serialize
  let r := writeEntry { wal with sequence := wal.sequence + 1 } disk bytes
  ({ r.1 with currentSize := r.1.currentSize + UInt64.ofNat bytes.length }, r.2)

/-- `append_command` run to its end. -/
def appendCommand [Codec] (wal : WriteAheadLog) (disk : Disk) (timestamp : UInt64) (c : Command) :
    WriteAheadLog × Disk :=
  let r := wal.logCommand disk timestamp c
  if r.1.shouldRotate then r.1.rotate r.2 else r

/-- `truncate_after_snapshot`: the file is truncated before the old writer is dropped, and dropping it
    flushes what it still buffers. -/
def truncateAfterSnapshot (wal : WriteAheadLog) (disk : Disk) : WriteAheadLog × Disk :=
  let r := wal.onActive { disk with active := some [] } Writer.flush
  ({ r.1 with writer := ⟨false, 0, []⟩, currentSize := 0 }, r.2)

end WriteAheadLog

end FerricCache
