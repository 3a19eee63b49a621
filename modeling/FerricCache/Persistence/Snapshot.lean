import FerricCache.Persistence.Wal
import FerricCache.Server.Steady

/-!
# `FerricCache.Persistence.Snapshot` — snapshot files

A snapshot holds, for each key, the commands that rebuild its value and its absolute deadline; loading
one applies these commands through `apply_write_command`. Neither looks at one moment only: a save reads
the monotonic clock, then the wall clock, and every value but a string its clock again; a load reads the
wall clock once and the monotonic clock anew for every record.
-/

namespace FerricCache

open Lib

/-- `SnapshotRecord`. -/
structure SnapshotRecord where
  key : Bytes
  commands : List Command
  expireUnixMs : Option UInt64

/-- `bincode::serialize` / `deserialize` of the list of records; an error is its text. -/
class RecordCodec where
  encode : List SnapshotRecord → Bytes
  decode : Bytes → Except Bytes (List SnapshotRecord)

/-- What snapshots rely on: this list of records is decoded back, and its encoding is an allocation. -/
structure EncodesRecords [RecordCodec] (records : List SnapshotRecord) : Prop where
  decode_encode : RecordCodec.decode (RecordCodec.encode records) = .ok records
  size_le : (RecordCodec.encode records).length ≤ isizeMax

/-- `bincode` of a byte string: its length in eight little-endian bytes, then the bytes. -/
def encodeBytes (b : Bytes) : Bytes := (BigEndian.toBytes 8 b.length).reverse ++ b

def decodeBytes (data : Bytes) : Option (Bytes × Bytes) :=
  let n := BigEndian.ofBytes (data.take 8).reverse
  if (data.drop 8).length < n then none else some ((data.drop 8).take n, data.drop (8 + n))

theorem decodeBytes_encodeBytes (b rest : Bytes) (h : b.length < 2 ^ 64) :
    decodeBytes (encodeBytes b ++ rest) = some (b, rest) := by
  have hlen : (BigEndian.toBytes 8 b.length).reverse.length = 8 := by simp
  have hn : BigEndian.ofBytes ((encodeBytes b ++ rest).take 8).reverse = b.length := by
    rw [encodeBytes, List.append_assoc, List.take_left' hlen, List.reverse_reverse,
      BigEndian.ofBytes_toBytes_of_lt (by exact_mod_cast h)]
  have hdrop : (encodeBytes b ++ rest).drop 8 = b ++ rest := by
    rw [encodeBytes, List.append_assoc, List.drop_left' hlen]
  have hroom : ¬ (b ++ rest).length < b.length := by
    rw [List.length_append]
    omega
  unfold decodeBytes
  simp only [hn, hdrop, if_neg hroom, ← List.drop_drop, List.take_left, List.drop_left]

/-- `bincode` of a snapshot of one string: one record, with one `SET` and no deadline. -/
def encodeString : List SnapshotRecord → Bytes
  | [⟨key, [.set key' value none], none⟩] =>
      [1, 0, 0, 0, 0, 0, 0, 0] ++ (encodeBytes key ++ ([1, 0, 0, 0, 0, 0, 0, 0] ++ ([1, 0, 0, 0] ++
        (encodeBytes key' ++ (encodeBytes value ++ [0, 0])))))
  | _ => []

def decodeString (data : Bytes) : Except Bytes (List SnapshotRecord) :=
  let record := do
    let (key, rest) ← decodeBytes (data.drop 8)
    let (key', rest) ← decodeBytes (rest.drop 12)
    let (value, _) ← decodeBytes rest
    return ⟨key, [.set key' value none], none⟩
  match record with
  | some r => .ok [r]
  | none => .error (utf8 "io error: unexpected end of file")

/-- The record codec of the concrete runs, whose snapshots hold one string. -/
@[reducible] def stringCodec : RecordCodec := ⟨encodeString, decodeString⟩

theorem encodesRecords_string (key value : Bytes) (hk : key.length < 2 ^ 32)
    (hv : value.length < 2 ^ 32) :
    @EncodesRecords stringCodec [⟨key, [.set key value none], none⟩] := by
  have hdec := fun (b rest : Bytes) (h : b.length < 2 ^ 32) =>
    decodeBytes_encodeBytes b rest (h.trans (by norm_num))
  have hlen : ∀ b : Bytes, (encodeBytes b).length = 8 + b.length := by simp [encodeBytes]
  refine @EncodesRecords.mk stringCodec _ ?_ ?_
  · show decodeString (encodeString _) = _
    have hrest : ∀ b rest : Bytes, ([1, 0, 0, 0, 0, 0, 0, 0] ++ ([1, 0, 0, 0] ++ rest)).drop 12 = rest :=
      fun _ _ => rfl
    have hhead : ∀ rest : Bytes, ([1, 0, 0, 0, 0, 0, 0, 0] ++ rest).drop 8 = rest := fun _ => rfl
    simp only [decodeString, encodeString, hhead, hdec key _ hk, hrest key, hdec value _ hv,
      Option.bind_eq_bind, Option.bind_some]
    rfl
  · show (encodeString _).length ≤ isizeMax
    simp only [encodeString, List.length_append, hlen, List.length_cons, List.length_nil]
    unfold isizeMax
    omega

/-- `SnapshotError`; `bincode` does not fail to serialize these records. -/
inductive SnapshotError
  | ioError
  | corruptedSnapshot (text : Bytes)
  deriving DecidableEq

/-! ## Clock readings -/

/-- What a save observes: `now` is its `now_instant` and `unixMs` its later `now_unix_ms`; the `is_expired` of a
    value that is not a string reads the clock again, and the timestamp in the header comes last. -/
structure SaveReadings extends Env where
  look : Bytes → Instant
  fileSecs : Nat

/-- What a load observes at one record: at each of its commands, at the `Instant::now()` its deadline is added to,
    and in the `is_expired` of `set_expiry`. -/
structure RecordReadings where
  commands : Nat → Env
  now : Instant
  check : Instant

/-- What a load observes: the wall clock once, before the first record, and then at every record. -/
structure LoadReadings where
  unixMs : UInt64
  record : Nat → RecordReadings

/-- A save within one reading, for concrete runs. -/
def SaveReadings.ofEnv (env : Env) : SaveReadings :=
  { env with
    look := fun _ => env.now
    fileSecs := env.unixSecs }

/-- A load within one reading, for concrete runs. -/
def LoadReadings.ofEnv (env : Env) : LoadReadings := ⟨env.unixMs, fun _ => ⟨fun _ => env, env.now, env.now⟩⟩

/-! ## Records -/

/-- `to_unix_ms`: the casts and the sum wrap. -/
def toUnixMs (save : SaveReadings) (expiresAt : Instant) : UInt64 :=
  save.unixMs + UInt64.ofNat ((expiresAt - save.now) / 1000000)

/-- The rebuilding commands of `record_for`; `none` for an expired value, `some []` for an empty one.
    A string is dropped at its deadline already, the other types only after it. -/
def rebuildCommands (save : SaveReadings) (key : Bytes) : CacheValue → Option (List Command)
  | .string v expiresAt =>
      if expiresAt.any (· ≤ save.now) then none else some [.set key v none]
  | .hash h =>
      if expiredAt (save.look key) h.expiresAt then none
      else some ((h.getAll (save.iterPos (some key))).map fun p => .hset key p.1 p.2)
  | .list l =>
      if expiredAt (save.look key) l.expiresAt then none
      else some (if l.items.isEmpty then [] else [.rpush key l.items])
  | .set s =>
      if expiredAt (save.look key) s.expiresAt then none
      else
        let members := s.getAll (save.iterPos (some key))
        some (if members.isEmpty then [] else [.sadd key members])
  | .sortedSet z =>
      if expiredAt (save.look key) z.expiresAt then none
      else
        let members := (z.getRange (save.iterPos (some key)) 0 usizeMax true).filterMap fun p =>
          p.2.map fun score => (score, p.1)
        some (if members.isEmpty then [] else [.zadd key members])
  | .stream st =>
      if expiredAt (save.look key) st.expiresAt then none
      else some (st.entries.toList.map fun p => .xadd key (some p.1.toText) p.2)

/-- `record_for`: nothing for expired and for empty values. -/
def recordFor (save : SaveReadings) (key : Bytes) (v : CacheValue) : Option SnapshotRecord :=
  match rebuildCommands save key v with
  | none => none
  | some commands =>
      if commands.isEmpty then none else some ⟨key, commands, v.expiresAt.map (toUnixMs save)⟩

section Save

variable [KeyHash]

/-- The records of some entries. -/
def recordsOf (save : SaveReadings) (entries : List (Bytes × CacheValue)) : List SnapshotRecord :=
  entries.filterMap fun p => recordFor save p.1 p.2

/-- `create_snapshot`. -/
def createSnapshot (save : SaveReadings) (s : CacheStorage) : List SnapshotRecord :=
  recordsOf save (s.getAllEntries save.toEnv)

end Save

/-! ## Files -/

def magicV1 : Bytes := utf8 "CACHESNP"

def magicV2 : Bytes := utf8 "CACHESN2"

/-- The header before the blob: magic, version, timestamp, record count, blob length, checksum. -/
def snapshotHeader (timestamp count blobLen : Nat) (checksum : UInt32) : Bytes :=
  magicV2 ++ (BigEndian.toBytes 4 2 ++ (BigEndian.toBytes 8 timestamp ++ (BigEndian.toBytes 8 count ++
    (BigEndian.toBytes 8 blobLen ++ BigEndian.toBytes 4 checksum.toNat))))

section Files

variable [Codec] [RecordCodec]

/-- The file `save_snapshot_to_path` writes for some records. -/
def snapshotFile (timestamp : Nat) (records : List SnapshotRecord) : Bytes :=
  let blob := RecordCodec.encode records
  snapshotHeader timestamp records.length blob.length (Codec.crc32 blob) ++ blob

/-- The reading half of `load_snapshot_from_path`: the records of a file. The obsolete format gives no
    records; the inner `none` is the panic of `vec![0u8; blob_len]`. -/
def readSnapshot (data : Bytes) : Except SnapshotError (Option (List SnapshotRecord)) :=
  if data.length < 8 then .error .ioError
  else if data.take 8 = magicV1 then .ok (some [])
  else if data.take 8 ≠ magicV2 then .error (.corruptedSnapshot (utf8 "Invalid magic number"))
  else if data.length < 12 then .error .ioError
  else
    let version := BigEndian.ofBytes ((data.drop 8).take 4)
    if version ≠ 2 then
      .error (.corruptedSnapshot (utf8 "Unsupported version: " ++ natText version))
    else if data.length < 40 then .error .ioError
    else
      let blobLen := BigEndian.ofBytes ((data.drop 28).take 8)
      let checksum := BigEndian.ofBytes ((data.drop 36).take 4)
      if isizeMax < blobLen then .ok none
      else if (data.drop 40).length < blobLen then .error .ioError
      else
        let blob := (data.drop 40).take blobLen
        if (Codec.crc32 blob).toNat ≠ checksum then
          .error (.corruptedSnapshot (utf8 "Blob checksum mismatch"))
        else
          match RecordCodec.decode blob with
          | .ok records => .ok (some records)
          | .error e => .error (.corruptedSnapshot e)

end Files

/-! ## Loading -/

section Load

variable [KeyHash]

/-- The deadline of a loaded record: the time left at the load's wall reading, from the record's own reading on;
    `none` is the panic of `Instant + Duration`. -/
def restoreDeadline (unixMs : UInt64) (at' : RecordReadings) (key : Bytes) (expireUnixMs : Option UInt64)
    (s : CacheStorage) : Option CacheStorage :=
  match expireUnixMs with
  | none => some s
  | some ms =>
      (instantAdd at'.now (durationMillis (ms - unixMs).toNat)).map fun expiresAt =>
        (s.onKey key (Slot.setExpiry at'.check expiresAt)).2

/-- The loop of `load_snapshot_from_path` from the `i`-th record on; a reply of `none` is a panic. -/
def loadRecords (load : LoadReadings) (i : Nat) : List SnapshotRecord → CacheStorage → Option Nat × CacheStorage
  | [], s => (some 0, s)
  | r :: rs, s =>
      if r.expireUnixMs.any (· ≤ load.unixMs) then loadRecords load (i + 1) rs s
      else
        match applyAll (load.record i).commands 0 r.commands s with
        | (none, s') => (none, s')
        | (some (), s') =>
            match restoreDeadline load.unixMs (load.record i) r.key r.expireUnixMs s' with
            | none => (none, s')
            | some s'' =>
                let rest := loadRecords load (i + 1) rs s''
                (rest.1.map (· + 1), rest.2)

variable [Codec] [RecordCodec]

/-- `load_snapshot`: a missing file loads nothing; a reply of `none` is a panic. -/
def loadSnapshot (load : LoadReadings) (file : Option Bytes) (s : CacheStorage) :
    Option (Except SnapshotError Nat) × CacheStorage :=
  match file with
  | none => (some (.ok 0), s)
  | some data =>
      match readSnapshot data with
      | .error e => (some (.error e), s)
      | .ok none => (none, s)
      | .ok (some records) =>
          let r := loadRecords load 0 records s
          (r.1.map .ok, r.2)

/-- `save_snapshot_to_path`, renamed into place. -/
def saveSnapshotToPath (save : SaveReadings) (s : CacheStorage) (disk : Disk) : Disk :=
  { disk with snapshot := some (snapshotFile save.fileSecs (createSnapshot save s)) }

/-- `save_snapshot`, run to its end. -/
def saveSnapshot (save : SaveReadings) (s : CacheStorage) (wal : WriteAheadLog) (disk : Disk) :
    WriteAheadLog × Disk :=
  wal.truncateAfterSnapshot (saveSnapshotToPath save s disk)

end Load

end FerricCache
