import FerricCache.Persistence.Snapshot
import FerricCache.Server.Capacity
import FerricCache.Server.Deadlines

/-!
# `FerricCache.Persistence.Loading` — loading a snapshot file of any bytes

`load_snapshot_from_path` refuses a file before it applies the first record, so an error leaves the storage as it
was. It does not always get that far: the header's blob length is not covered by the checksum, and the buffer is
reserved from it (`readBlob_cases`); and the records of a file that passes every check are applied as they
are, with deadlines and counts that `apply_write_command` adds to the clock or reserves
(`applyWriteCommand_returns_iff`). A load ends exactly when neither goes wrong (`loadSnapshot_settles_iff`).
-/

namespace FerricCache

open Lib

variable [KeyHash] {env : Env} {s : CacheStorage}

/-! ## What `apply_write_command` can take -/

omit [KeyHash] in
/-- The duration can be added to the clock. -/
def DurationFits (now : Instant) (d : Nat) : Prop := (now + d) / 1000000000 < 2 ^ 63

omit [KeyHash] in
theorem instantAdd_isSome_iff (now : Instant) (d : Nat) : instantAdd now d ≠ none ↔ DurationFits now d := by
  unfold instantAdd DurationFits
  split
  · rename_i h
    exact iff_of_true (Option.some_ne_none _) h
  · rename_i h
    exact iff_of_false (fun hne => hne rfl) h

/-- The storage admits the command: no deadline past the `i64` seconds, no `LTRIM` of a live list past its end, no
    request for more than `isize::MAX` bytes on a live set or sorted set. -/
def Admits (env : Env) (s : CacheStorage) : Command → Prop
  | .set _ _ ttlSecs => ∀ n, ttlSecs = some n → DurationFits env.now (durationSecs n.toNat)
  | .setEx _ seconds _ => DurationFits env.now (durationSecs seconds.toNat)
  | .expire _ n => n.toInt < 0 ∨ DurationFits env.now (durationSecs n.toInt.toNat)
  | .pexpire _ n => n.toInt < 0 ∨ DurationFits env.now (durationMillis n.toInt.toNat)
  | .expireAt _ n => n.toInt ≤ env.unixSecs ∨ DurationFits env.now (durationSecs (n.toInt.toNat - env.unixSecs))
  | .ltrim key start stop => ∀ l, s.live env.now key = some (.list l) →
      Slot.sliceEnd l.items.length stop ≤ max l.items.length (Slot.sliceStart l.items.length start)
  | .spop key n => LiveAt Kind.set env.now s key → (n.map UInt64.toNat).getD 1 * 32 ≤ isizeMax
  | .zpopMin key n => LiveAt Kind.sortedSet env.now s key → n.toNat * 40 ≤ isizeMax
  | .zpopMax key n => LiveAt Kind.sortedSet env.now s key → n.toNat * 40 ≤ isizeMax
  | _ => True

theorem applyExpiry_returns_iff (key : Bytes) (d : Nat) :
    (applyExpiry env s key d).1 ≠ none ↔ DurationFits env.now d := by
  rw [← instantAdd_isSome_iff]
  unfold applyExpiry
  cases instantAdd env.now d with
  | none => exact iff_of_false (fun h => h rfl) (fun h => h rfl)
  | some at' => exact iff_of_true (Option.some_ne_none _) (Option.some_ne_none _)

theorem applySet_returns_iff (key value : Bytes) (ttl : Option Nat) :
    (applySet env s key value ttl).1 ≠ none ↔ ∀ d, ttl = some d → DurationFits env.now d := by
  have hset : (applySet env s key value ttl).1 ≠ none ↔ Slot.deadline env.now ttl ≠ none := by
    show Option.map (fun _ => ()) (Slot.set env.now value ttl (s.slotAt key)).1 ≠ none ↔ _
    rw [Slot.set]
    cases Slot.deadline env.now ttl with
    | none => exact iff_of_false (fun h => h rfl) (fun h => h rfl)
    | some e => exact iff_of_true (Option.some_ne_none _) (Option.some_ne_none _)
  rw [hset]
  cases ttl with
  | none => exact iff_of_true (Option.some_ne_none _) (by simp)
  | some d =>
      rw [Slot.deadline, ne_eq, Option.map_eq_none_iff]
      refine (instantAdd_isSome_iff _ d).trans ⟨?_, fun h => h d rfl⟩
      rintro h _ ⟨⟩
      exact h

theorem applyExpire_returns_iff (key : Bytes) (duration : Option Nat) :
    (applyExpire env s key duration).1 ≠ none ↔ ∀ d, duration = some d → DurationFits env.now d := by
  cases duration with
  | none => exact iff_of_true (Option.some_ne_none _) (by simp)
  | some d =>
      refine (applyExpiry_returns_iff key d).trans ⟨?_, fun h => h d rfl⟩
      rintro h _ ⟨⟩
      exact h

theorem applyExpireAt_returns_iff (key : Bytes) (n : Int64) :
    (applyExpireAt env s key n).1 ≠ none ↔
      (n.toInt ≤ env.unixSecs ∨ DurationFits env.now (durationSecs (n.toInt.toNat - env.unixSecs))) := by
  unfold applyExpireAt tryU64
  by_cases hneg : n.toInt < 0
  · rw [if_pos hneg]
    exact iff_of_true (Option.some_ne_none _) (Or.inl (by omega))
  · rw [if_neg hneg]
    dsimp only
    by_cases hfuture : env.unixSecs < n.toInt.toNat
    · rw [if_pos hfuture, or_iff_right (by omega)]
      exact applyExpiry_returns_iff key _
    · rw [if_neg hfuture]
      exact iff_of_true (Option.some_ne_none _) (Or.inl (by omega))

theorem applyKeyPanic_returns_iff {α : Type} (key : Bytes) (op : Slot → Res (Option α) × Slot) :
    (applyKeyPanic s key op).1 ≠ none ↔ (op (s.slotAt key)).1 ≠ .ok none := by
  have hop : (s.onKey key op).1 = (op (s.slotAt key)).1 := rfl
  unfold applyKeyPanic
  rw [hop]
  rcases (op (s.slotAt key)).1 with e | (_ | a)
  · exact iff_of_true (Option.some_ne_none _) (by simp)
  · exact iff_of_false (fun h => h rfl) (fun h => h rfl)
  · exact iff_of_true (Option.some_ne_none _) (by simp)

omit [KeyHash] in
theorem ltrim_fits_iff (now : Instant) (start stop : Int64) (slot : Slot) :
    (Slot.ltrim now start stop slot).1 ≠ .ok none ↔ ∀ l, slot.live now = some (.list l) →
      Slot.sliceEnd l.items.length stop ≤ max l.items.length (Slot.sliceStart l.items.length start) := by
  rw [Slot.ltrim, writeLive_returns_iff]
  refine forall_congr' fun l => imp_congr_right fun _ => ?_
  dsimp only
  by_cases hle : Slot.sliceEnd l.items.length stop ≤ Slot.sliceStart l.items.length start
  · rw [if_pos hle]
    exact iff_of_true (by simp) (hle.trans (Nat.le_max_right _ _))
  · rw [if_neg hle]
    by_cases hpast : l.items.length < Slot.sliceEnd l.items.length stop
    · rw [if_pos hpast]
      exact iff_of_false (fun h => h rfl) (by omega)
    · rw [if_neg hpast]
      exact iff_of_true (by simp) (by omega)

/-- **When applying a command returns.** -/
theorem applyWriteCommand_returns_iff (c : Command) : (applyWriteCommand env c s).1 ≠ none ↔ Admits env s c := by
  -- the commands with a deadline, an end or a count of the caller's; any other is applied without a panic
  cases c
  case set key value ttlSecs =>
    refine (applySet_returns_iff key value _).trans ?_
    show _ ↔ ∀ n, ttlSecs = some n → DurationFits env.now (durationSecs n.toNat)
    simp only [Option.map_eq_some_iff, forall_exists_index, and_imp]
    exact ⟨fun h n hn => h _ n hn rfl, fun h _ n hn hd => hd ▸ h n hn⟩
  case setEx key seconds value =>
    refine (applySet_returns_iff key value _).trans ?_
    show _ ↔ DurationFits env.now (durationSecs seconds.toNat)
    simp only [Option.some.injEq, forall_eq']
  case expire key n =>
    refine (applyExpire_returns_iff key _).trans ?_
    exact tryU64_map_iff n durationSecs (DurationFits env.now)
  case pexpire key n =>
    refine (applyExpire_returns_iff key _).trans ?_
    exact tryU64_map_iff n durationMillis (DurationFits env.now)
  case expireAt key n => exact applyExpireAt_returns_iff key n
  case ltrim key start stop => exact (applyKeyPanic_returns_iff key _).trans (ltrim_fits_iff _ _ _ _)
  case spop key n => exact (applyKeyPanic_returns_iff key _).trans (spop_fits_iff _ _ _)
  case zpopMin key n => exact (applyKeyPanic_returns_iff key _).trans (zpop_fits_iff popMin_eq_none _)
  case zpopMax key n => exact (applyKeyPanic_returns_iff key _).trans (zpop_fits_iff popMax_eq_none _)
  all_goals exact iff_of_true (Option.some_ne_none _) trivial

/-- Each command is admitted by the storage the ones before it leave. -/
def AllAdmitted (envs : Nat → Env) (m : Nat) : List Command → CacheStorage → Prop
  | [], _ => True
  | c :: cs, s => Admits (envs m) s c ∧ AllAdmitted envs (m + 1) cs (applyWriteCommand (envs m) c s).2

theorem applyAll_returns_iff (envs : Nat → Env) (m : Nat) (cs : List Command) :
    (applyAll envs m cs s).1 ≠ none ↔ AllAdmitted envs m cs s := by
  induction cs generalizing m s with
  | nil => exact iff_of_true (Option.some_ne_none _) trivial
  | cons c cs ih =>
      rw [AllAdmitted, ← applyWriteCommand_returns_iff, applyAll]
      generalize applyWriteCommand (envs m) c s = r
      obtain ⟨reply, s'⟩ := r
      cases reply with
      | none => exact iff_of_false (fun h => h rfl) (fun h => h.1 rfl)
      | some u => exact (ih (m + 1)).trans (and_iff_right (Option.some_ne_none _)).symm

/-! ## Records -/

/-- The deadline of a record that is still to come can be added to the clock. -/
def DeadlineFits (unixMs : UInt64) (now : Instant) (expireUnixMs : Option UInt64) : Prop :=
  ∀ ms, expireUnixMs = some ms → DurationFits now (durationMillis (ms - unixMs).toNat)

theorem restoreDeadline_isSome_iff (unixMs : UInt64) (at' : RecordReadings) (key : Bytes)
    (expireUnixMs : Option UInt64) :
    restoreDeadline unixMs at' key expireUnixMs s ≠ none ↔ DeadlineFits unixMs at'.now expireUnixMs := by
  cases expireUnixMs with
  | none => exact iff_of_true (Option.some_ne_none _) (fun ms hms => by cases hms)
  | some ms =>
      rw [restoreDeadline, ne_eq, Option.map_eq_none_iff]
      refine (instantAdd_isSome_iff _ _).trans ⟨?_, fun h => h ms rfl⟩
      rintro h _ ⟨⟩
      exact h

/-- What loading these records needs: of each record whose deadline is to come, the commands and the deadline, on the
    storage the records before it leave. -/
def RecordsAdmitted (load : LoadReadings) (i : Nat) : List SnapshotRecord → CacheStorage → Prop
  | [], _ => True
  | r :: rs, s =>
      if r.expireUnixMs.any (· ≤ load.unixMs) then RecordsAdmitted load (i + 1) rs s
      else
        AllAdmitted (load.record i).commands 0 r.commands s ∧
          DeadlineFits load.unixMs (load.record i).now r.expireUnixMs ∧
          ∀ t, restoreDeadline load.unixMs (load.record i) r.key r.expireUnixMs
              (applyAll (load.record i).commands 0 r.commands s).2 = some t →
            RecordsAdmitted load (i + 1) rs t

theorem loadRecords_returns_iff (load : LoadReadings) (i : Nat) (rs : List SnapshotRecord) :
    (loadRecords load i rs s).1 ≠ none ↔ RecordsAdmitted load i rs s := by
  induction rs generalizing i s with
  | nil => exact iff_of_true (Option.some_ne_none _) trivial
  | cons r rs ih =>
      rw [RecordsAdmitted, loadRecords]
      split
      · -- a record past its deadline is skipped
        exact ih (i + 1)
      · rw [← applyAll_returns_iff]
        generalize applyAll (load.record i).commands 0 r.commands s = out
        obtain ⟨reply, s'⟩ := out
        cases reply with
        | none => exact iff_of_false (fun h => h rfl) (fun h => h.1 rfl)
        | some u =>
            rw [← restoreDeadline_isSome_iff (s := s') load.unixMs (load.record i) r.key,
              and_iff_right (Option.some_ne_none _)]
            dsimp only
            cases hdead : restoreDeadline load.unixMs (load.record i) r.key r.expireUnixMs s' with
            | none => exact iff_of_false (fun h => h rfl) (fun h => h.1 rfl)
            | some t =>
                dsimp only
                rw [and_iff_right (Option.some_ne_none _), ne_eq, Option.map_eq_none_iff]
                refine (ih (i + 1)).trans ⟨?_, fun h => h t rfl⟩
                rintro h _ ⟨⟩
                exact h

/-! ## Files -/

omit [KeyHash] in
/-- The blob length in the header of a file. -/
def blobLength (data : Bytes) : Nat := BigEndian.ofBytes ((data.drop 28).take 8)

omit [KeyHash] in
/-- A whole header of the current version. -/
structure HeaderOk (data : Bytes) : Prop where
  length : 40 ≤ data.length
  magic : data.take 8 = magicV2
  version : BigEndian.ofBytes ((data.drop 8).take 4) = 2

section Files

variable [Codec] [RecordCodec]

omit [KeyHash] in
/-- The file passes every check and holds these records. -/
structure Carries (data : Bytes) (records : List SnapshotRecord) : Prop where
  header : HeaderOk data
  fits : blobLength data ≤ isizeMax
  room : 40 + blobLength data ≤ data.length
  checksum : (Codec.crc32 ((data.drop 40).take (blobLength data))).toNat = BigEndian.ofBytes ((data.drop 36).take 4)
  decoded : RecordCodec.decode ((data.drop 40).take (blobLength data)) = .ok records

omit [KeyHash] in
/-- The reader behind a whole header. -/
def readBlob (data : Bytes) : Except SnapshotError (Option (List SnapshotRecord)) :=
  if isizeMax < blobLength data then .ok none
  else if (data.drop 40).length < blobLength data then .error .ioError
  else if (Codec.crc32 ((data.drop 40).take (blobLength data))).toNat ≠ BigEndian.ofBytes ((data.drop 36).take 4) then
    .error (.corruptedSnapshot (utf8 "Blob checksum mismatch"))
  else
    match RecordCodec.decode ((data.drop 40).take (blobLength data)) with
    | .ok records => .ok (some records)
    | .error e => .error (.corruptedSnapshot e)

omit [KeyHash] in
theorem readSnapshot_of_header {data : Bytes} (h : HeaderOk data) : readSnapshot data = readBlob data := by
  obtain ⟨hlen, hmagic, hversion⟩ := h
  have hnew : ¬ data.take 8 = magicV1 := by
    rw [hmagic]
    decide
  unfold readSnapshot
  rw [if_neg (by omega), if_neg hnew, if_neg (not_not.mpr hmagic), if_neg (by omega)]
  rw [if_neg (not_not.mpr hversion), if_neg (by omega)]
  rfl

omit [KeyHash] in
/-- Any other header gives no records: it is refused, or the format is the obsolete one. -/
theorem readSnapshot_of_not_header {data : Bytes} (h : ¬ HeaderOk data) :
    readSnapshot data = .ok (some []) ∨ ∃ e, readSnapshot data = .error e := by
  unfold readSnapshot
  by_cases hshort : data.length < 8
  · rw [if_pos hshort]
    exact Or.inr ⟨_, rfl⟩
  rw [if_neg hshort]
  by_cases hold : data.take 8 = magicV1
  · -- the obsolete format is ignored
    rw [if_pos hold]
    exact Or.inl rfl
  right
  rw [if_neg hold]
  by_cases hmagic : data.take 8 = magicV2
  · rw [if_neg (not_not.mpr hmagic)]
    by_cases hversionless : data.length < 12
    · rw [if_pos hversionless]
      exact ⟨_, rfl⟩
    rw [if_neg hversionless]
    by_cases hversion : BigEndian.ofBytes ((data.drop 8).take 4) = 2
    · -- what is missing is in the rest of the header
      have hcut : data.length < 40 := Nat.lt_of_not_le fun hlen => h ⟨hlen, hmagic, hversion⟩
      rw [if_neg (not_not.mpr hversion), if_pos hcut]
      exact ⟨_, rfl⟩
    · rw [if_pos hversion]
      exact ⟨_, rfl⟩
  · rw [if_pos hmagic]
    exact ⟨_, rfl⟩

omit [KeyHash] in
/-- Behind a whole header the reader panics on the announced length, refuses the blob, or has the records. -/
theorem readBlob_cases {data : Bytes} (h : HeaderOk data) :
    (isizeMax < blobLength data ∧ readBlob data = .ok none) ∨
      (¬ isizeMax < blobLength data ∧ (∃ e, readBlob data = .error e) ∧ ∀ records, ¬ Carries data records) ∨
      ∃ records, Carries data records ∧ readBlob data = .ok (some records) := by
  unfold readBlob
  by_cases hhuge : isizeMax < blobLength data
  · exact Or.inl ⟨hhuge, if_pos hhuge⟩
  right
  rw [if_neg hhuge, and_iff_right hhuge]
  by_cases hroom : (data.drop 40).length < blobLength data
  · left
    rw [if_pos hroom]
    refine ⟨⟨_, rfl⟩, fun records hc => ?_⟩
    have hlong := hc.room
    rw [List.length_drop] at hroom
    omega
  rw [if_neg hroom]
  by_cases hsum : (Codec.crc32 ((data.drop 40).take (blobLength data))).toNat
      = BigEndian.ofBytes ((data.drop 36).take 4)
  · rw [if_neg (not_not.mpr hsum)]
    cases hdecoded : RecordCodec.decode ((data.drop 40).take (blobLength data)) with
    | error e =>
        refine Or.inl ⟨⟨_, rfl⟩, fun records hc => ?_⟩
        cases hdecoded.symm.trans hc.decoded
    | ok records =>
        refine Or.inr ⟨records, ⟨h, Nat.not_lt.mp hhuge, ?_, hsum, hdecoded⟩, rfl⟩
        have hlen := h.length
        rw [List.length_drop] at hroom
        omega
  · left
    rw [if_pos hsum]
    exact ⟨⟨_, rfl⟩, fun records hc => hsum hc.checksum⟩

/-! ## Loading -/

/-- The load returns, and with an error it changes nothing. -/
def Settles (load : LoadReadings) (data : Bytes) (s : CacheStorage) : Prop :=
  ∃ r, (loadSnapshot load (some data) s).1 = some r ∧
    ∀ e, r = .error e → (loadSnapshot load (some data) s).2 = s

/-- What a load needs of what the reader has. -/
def Loadable (load : LoadReadings) (s : CacheStorage) : Except SnapshotError (Option (List SnapshotRecord)) → Prop
  | .error _ => True
  | .ok none => False
  | .ok (some records) => RecordsAdmitted load 0 records s

theorem settles_read (load : LoadReadings) (data : Bytes) (s : CacheStorage) :
    Settles load data s ↔ Loadable load s (readSnapshot data) := by
  unfold Settles loadSnapshot
  dsimp only
  rcases readSnapshot data with e | (_ | records)
  · exact iff_of_true ⟨.error e, rfl, fun _ _ => rfl⟩ trivial
  · refine iff_of_false ?_ id
    rintro ⟨r, hr, -⟩
    cases hr
  · rw [Loadable, ← loadRecords_returns_iff]
    dsimp only
    cases (loadRecords load 0 records s).1 with
    | none =>
        refine iff_of_false ?_ fun h => h rfl
        rintro ⟨r, hr, -⟩
        cases hr
    | some n =>
        refine iff_of_true ⟨.ok n, rfl, fun e he => ?_⟩ (Option.some_ne_none _)
        cases he

/-- **When loading a file is all or nothing.** Exactly when the header does not announce a blob larger than
    `isize::MAX` bytes, and the records, if the file passes every check, hold nothing that panics where it is
    applied. -/
theorem loadSnapshot_settles_iff (load : LoadReadings) (data : Bytes) (s : CacheStorage) :
    Settles load data s ↔
      ¬ (HeaderOk data ∧ isizeMax < blobLength data) ∧
        ∀ records, Carries data records → RecordsAdmitted load 0 records s := by
  by_cases hheader : HeaderOk data
  · rw [settles_read, readSnapshot_of_header hheader]
    -- the reader panics, refuses the file, or has records to apply
    rcases readBlob_cases hheader with ⟨hhuge, hread⟩ | ⟨hsmall, ⟨e, hread⟩, hnone⟩ | ⟨records, hc, hread⟩
    · rw [hread]
      exact iff_of_false id fun h => h.1 ⟨hheader, hhuge⟩
    · rw [hread]
      exact iff_of_true trivial ⟨fun h => hsmall h.2, fun records hc => absurd hc (hnone records)⟩
    · rw [hread]
      refine ⟨fun h => ⟨fun hhuge => Nat.not_lt.mpr hc.fits hhuge.2, fun records' hc' => ?_⟩, fun h => h.2 records hc⟩
      cases hc.decoded.symm.trans hc'.decoded
      exact h
  · -- without a whole header no blob is announced and no record read
    rw [settles_read]
    refine iff_of_true ?_ ⟨fun h => hheader h.1, fun records hc => absurd hc.header hheader⟩
    rcases readSnapshot_of_not_header hheader with hread | ⟨e, hread⟩
    · rw [hread]
      trivial
    · rw [hread]
      trivial

omit [KeyHash] [Codec] [RecordCodec] in
/-- A header that announces `u64::MAX` bytes of blob. -/
theorem loadSnapshot_panics :
    let _ := shortKeys
    let _ := incrCodec
    let _ := stringCodec
    ¬ ∀ (data : Bytes) (s : CacheStorage), Settles (LoadReadings.ofEnv (Env.reading 5)) data s := by
  intro _ _ _ hall
  have hheader : HeaderOk (snapshotHeader 1700000000 0 18446744073709551615 0) :=
    ⟨by decide, by decide, by decide⟩
  have hhuge : isizeMax < blobLength (snapshotHeader 1700000000 0 18446744073709551615 0) := by decide
  have hloadable := (settles_read _ _ _).mp (hall (snapshotHeader 1700000000 0 18446744073709551615 0) CacheStorage.new)
  rw [readSnapshot_of_header hheader, readBlob, if_pos hhuge] at hloadable
  exact hloadable

end Files

end FerricCache
