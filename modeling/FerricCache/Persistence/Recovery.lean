import FerricCache.Lib.Run
import FerricCache.Persistence.LogFiles
import FerricCache.Persistence.Mirror

/-!
# `FerricCache.Persistence.Recovery` — what a restarted server holds

A `Session` is a server that runs one command at a time: each write is appended to the log and applied,
appending may rotate the log, and `save_snapshot` may run in between. `recover` is the start of a fresh
server on the files left behind. The invariant `Session.Sound` says what the files are good for: the
snapshot loads to some storage, the files written since then hold the commands since then, and applying
these gives a mirror of the live storage.

Snapshots truncate the active file only, and replay reads every backup segment. So the recovered storage
is the live one when no segment from before the last snapshot is left (`recovery_reproduces_live`), and
otherwise commands may be applied twice (`recovery_applies_incr_twice`).
-/

namespace FerricCache

open Lib Lib.Run

/-- Why a start fails. -/
inductive RecoveryError
  | wal (e : WALError)
  | snapshot (e : SnapshotError)

/-- What a start observes: the readings of the snapshot's load, then one at every replayed entry. -/
structure StartReadings where
  load : LoadReadings
  replay : Nat → Env

/-- A start within one reading, for concrete runs. -/
def StartReadings.ofEnv (env : Env) : StartReadings := ⟨LoadReadings.ofEnv env, fun _ => env⟩

section Recover

variable [KeyHash] [Codec] [RecordCodec]

/-- `load_from_persistence`: the snapshot, then every entry of the log on top; a reply of `none` is a
    panic of the start. -/
def loadFromPersistence (start : StartReadings) (wal : WriteAheadLog) (disk : Disk) (s : CacheStorage) :
    Option (Except RecoveryError Unit) × CacheStorage :=
  match loadSnapshot start.load disk.snapshot s with
  | (none, s') => (none, s')
  | (some (.error e), s') => (some (.error (.snapshot e)), s')
  | (some (.ok _), s') =>
      let replayed := wal.replay disk
      match applyAll start.replay 0 (replayed.1.map WALEntry.command) s' with
      | (none, s'') => (none, s'')
      | (some (), s'') =>
          match replayed.2 with
          | .error e => (some (.error (.wal e)), s'')
          | .ok _ => (some (.ok ()), s'')

/-- A fresh server on these files. -/
def recover (config : PersistenceConfig) (start : StartReadings) (disk : Disk) :
    Option (Except RecoveryError Unit) × CacheStorage :=
  match WriteAheadLog.new config disk with
  | (.error e, _) => (some (.error (.wal e)), CacheStorage.new)
  | (.ok wal, disk') => loadFromPersistence start wal disk' CacheStorage.new

/-! ## Runs of one server -/

/-- A server and its files. The last two fields record the run: the rotations since the last completed
    snapshot, and the keys whose empty values that snapshot left out and no command has restarted. -/
structure Session where
  storage : CacheStorage
  wal : WriteAheadLog
  disk : Disk
  rotations : Nat
  leftOut : Bytes → Bool

/-- What a server does: a write command, or a completed `save_snapshot`. -/
inductive Event
  | write (env : Env) (c : Command)
  | snapshot (save : SaveReadings)

namespace Session

omit [Codec] [RecordCodec] in
/-- A server started in an empty directory. -/
def start (config : PersistenceConfig) : Session where
  storage := CacheStorage.new
  wal :=
    { writer := ⟨true, 0, []⟩
      sequence := 0
      syncPolicy := config.walSyncPolicy
      currentSize := 0
      maxSize := config.maxWalSizeBytes
      backupCount := config.walBackupCount }
  disk := ⟨some [], fun _ => none, none⟩
  rotations := 0
  leftOut _ := false

/-- One event: a write is appended, which may rotate the log, and then applied. -/
def step (x : Session) : Event → Option Session
  | .write env c =>
      let r := x.wal.appendCommand x.disk env.unixMs c
      some
        { storage := effect env c x.storage
          wal := r.1
          disk := r.2
          rotations :=
            x.rotations + (x.wal.logCommand x.disk env.unixMs c).1.shouldRotate.toNat
          leftOut := stillOut c x.storage x.leftOut }
  | .snapshot save =>
      let r := saveSnapshot save x.storage x.wal x.disk
      some
        { storage := x.storage
          wal := r.1
          disk := r.2
          rotations := 0
          leftOut := fun k => (x.storage.slotAt k).any CacheValue.isEmpty }

/-- The recovered storage holds, at every key with a non-empty value, what the live one holds. -/
def Recovers (config : PersistenceConfig) (start : StartReadings) (x : Session) : Prop :=
  ∃ t, recover config start x.disk = (some (.ok ()), t) ∧
    ∀ k, (t.slotAt k).holding = (x.storage.slotAt k).holding

/-- A step that recovery can follow: a steady command that does not panic and that respects the left-out
    keys, or a snapshot of values its records can carry; and `bincode` carries what is written. -/
def Covered (x : Session) : Event → Prop
  | .write env c =>
      Steady c x.storage ∧ Returns env c x.storage ∧ RespectsBlank c x.storage x.leftOut ∧ Encodes c
  | .snapshot save =>
      (∀ k v, x.storage.slotAt k = some v → v.Recordable) ∧
        EncodesRecords (createSnapshot save x.storage)

/-- No backup segment that replay reads is older than the last snapshot. -/
def NoStaleSegment (x : Session) : Prop :=
  ∀ n, x.rotations < n → n ≤ segmentsToKeep x.wal.backupCount → x.disk.segment n = none

end Session

/-! ## The invariant -/

/-- What the files written since the last snapshot hold: `segs` are the segments made since then, newest
    first, and `act` the active file. -/
structure Session.Logged (x : Session) (base : CacheStorage) (segs : List (List WALEntry))
    (act : List WALEntry) : Prop where
  count : segs.length = x.rotations
  segment : ∀ i (h : i < segs.length),
    x.disk.segment (i + 1) = some ((segs.get ⟨i, h⟩).flatMap WALEntry.serialize)
  holds : x.wal.Holds x.disk (act.flatMap WALEntry.serialize)
  encodes : ∀ es ∈ act :: segs, ∀ e ∈ es, Encodes e.command
  loads : ∀ load, ∃ n, loadSnapshot load x.disk.snapshot CacheStorage.new = (some (.ok n), base)
  mirror : ∀ envs, ∃ t,
    applyAll envs 0 ((segs.reverse.flatten ++ act).map WALEntry.command) base = (some (), t) ∧
      Mirrors x.storage t x.leftOut

/-- The invariant of a run under `Always`. -/
structure Session.Sound (x : Session) : Prop where
  plain : x.storage.Plain
  always : x.wal.syncPolicy = .always
  flushed : x.wal.writer.buf = []
  holds : ∃ bytes, x.wal.Holds x.disk bytes
  logged : x.rotations ≤ segmentsToKeep x.wal.backupCount → ∃ base segs act, x.Logged base segs act

theorem Session.sound_start {config : PersistenceConfig} (h : config.walSyncPolicy = .always) :
    (Session.start config).Sound where
  plain := plain_new
  always := h
  flushed := rfl
  holds := ⟨[], Or.inl rfl, rfl⟩
  logged _ := by
    refine ⟨CacheStorage.new, [], [], rfl, fun i h => absurd h (Nat.not_lt_zero i), ⟨Or.inl rfl, rfl⟩,
      ?_, fun load => ⟨0, rfl⟩, ?_⟩
    · intro es hes e he
      obtain rfl : es = [] := by simpa using hes
      cases he
    · intro envs
      refine ⟨CacheStorage.new, rfl, ?_⟩
      intro k
      show (if false = true then _ else _)
      rw [if_neg Bool.false_ne_true]
      rfl

section Write

variable {x : Session} {env : Env} {c : Command}

/-- The entry a write appends. -/
def Session.entry (x : Session) (env : Env) (c : Command) : WALEntry := ⟨x.wal.sequence, env.unixMs, c⟩

/-- A covered write leaves one more command to apply, and the mirror follows it. -/
theorem Session.Logged.mirror_write {base : CacheStorage} {segs : List (List WALEntry)}
    {act : List WALEntry} (h : x.Logged base segs act) (hplain : x.storage.Plain)
    (hc : x.Covered (.write env c)) (envs : Nat → Env) :
    ∃ t, applyAll envs 0 ((segs.reverse.flatten ++ (act ++ [x.entry env c])).map WALEntry.command) base
        = (some (), t) ∧ Mirrors (effect env c x.storage) t (stillOut c x.storage x.leftOut) := by
  obtain ⟨hsteady, hret, hblank, -⟩ := hc
  obtain ⟨t, happly, hmirror⟩ := h.mirror envs
  -- the reading at the entry that comes last
  set last := envs (0 + ((segs.reverse.flatten ++ act).map WALEntry.command).length) with hlast
  have hone : (applyWriteCommand last c t).1 = some () :=
    hmirror.apply_returns last hplain hblank hsteady hret
  refine ⟨(applyWriteCommand last c t).2, ?_, mirrors_step last hmirror hplain hsteady hblank⟩
  rw [← List.append_assoc, List.map_append, applyAll_append happly]
  show applyAll envs _ [c] t = _
  rw [applyAll, ← hlast]
  generalize applyWriteCommand last c t = r at hone
  obtain ⟨r, t'⟩ := r
  cases hone
  rfl

theorem Session.Logged.encodes_entry {base : CacheStorage} {segs : List (List WALEntry)} {act : List WALEntry}
    (h : x.Logged base segs act) (hc : Encodes c) :
    ∀ es ∈ (act ++ [x.entry env c]) :: segs, ∀ e ∈ es, Encodes e.command := by
  intro es hes e he
  rcases List.mem_cons.mp hes with rfl | hes'
  · rcases List.mem_append.mp he with he' | he'
    · exact h.encodes act (List.mem_cons_self ..) e he'
    · obtain rfl := List.mem_singleton.mp he'
      exact hc
  · exact h.encodes es (List.mem_cons_of_mem _ hes') e he

/-- The entry is logged behind those of the active file. -/
theorem Session.Logged.holds_entry {base : CacheStorage} {segs : List (List WALEntry)} {act : List WALEntry}
    (h : x.Logged base segs act) :
    (x.wal.logCommand x.disk env.unixMs c).1.Holds (x.wal.logCommand x.disk env.unixMs c).2
      ((act ++ [x.entry env c]).flatMap WALEntry.serialize) := by
  rw [List.flatMap_append, List.flatMap_singleton]
  exact WriteAheadLog.logCommand_holds env.unixMs c h.holds

/-- A write that does not rotate adds its entry to the active file. -/
theorem Session.Logged.write_kept {x' : Session} {base : CacheStorage} {segs : List (List WALEntry)}
    {act : List WALEntry} (h : x.Logged base segs act) (hplain : x.storage.Plain) (hc : x.Covered (.write env c))
    (hrot : (x.wal.logCommand x.disk env.unixMs c).1.shouldRotate = false)
    (hstep : x.step (.write env c) = some x') : x'.Logged base segs (act ++ [x.entry env c]) := by
  have happend := WriteAheadLog.appendCommand_of_kept env.unixMs c hrot
  cases hstep
  refine ⟨?_, ?_, ?_, h.encodes_entry hc.2.2.2, ?_, h.mirror_write hplain hc⟩
  · show segs.length = x.rotations + (x.wal.logCommand x.disk env.unixMs c).1.shouldRotate.toNat
    rw [hrot]
    exact h.count
  · intro i hi
    show (x.wal.appendCommand x.disk env.unixMs c).2.segment (i + 1) = _
    rw [happend, WriteAheadLog.logCommand_segment]
    exact h.segment i hi
  · show (x.wal.appendCommand x.disk env.unixMs c).1.Holds (x.wal.appendCommand x.disk env.unixMs c).2 _
    rw [happend]
    exact h.holds_entry
  · intro load
    show ∃ n, loadSnapshot load (x.wal.appendCommand x.disk env.unixMs c).2.snapshot _ = _
    rw [WriteAheadLog.appendCommand_snapshot]
    exact h.loads load

/-- A write that rotates makes the newest segment of the active file and its entry, and the others move up. -/
theorem Session.Logged.write_rotated {x' : Session} {base : CacheStorage} {segs : List (List WALEntry)}
    {act : List WALEntry} (h : x.Logged base segs act) (hplain : x.storage.Plain) (hc : x.Covered (.write env c))
    (hrot : (x.wal.logCommand x.disk env.unixMs c).1.shouldRotate = true)
    (hkeep : x.rotations + 1 ≤ segmentsToKeep x.wal.backupCount)
    (hstep : x.step (.write env c) = some x') : x'.Logged base ((act ++ [x.entry env c]) :: segs) [] := by
  have happend := WriteAheadLog.appendCommand_of_rotated env.unixMs c hrot
  cases hstep
  refine ⟨?_, ?_, ?_, ?_, ?_, ?_⟩
  · show segs.length + 1 = x.rotations + (x.wal.logCommand x.disk env.unixMs c).1.shouldRotate.toNat
    rw [hrot, h.count]
    rfl
  · intro i hi
    show (x.wal.appendCommand x.disk env.unixMs c).2.segment (i + 1) = _
    rw [happend, WriteAheadLog.rotate_disk, WriteAheadLog.rotateFiles_segment h.holds_entry,
      WriteAheadLog.logCommand_segment, WriteAheadLog.logCommand_backupCount]
    cases i with
    | zero => rfl
    | succ i =>
        -- there are as many segments as rotations, so this one is still kept
        have hi' : i < segs.length := Nat.lt_of_succ_lt_succ hi
        have hlow : i + 1 + 1 ≤ segmentsToKeep x.wal.backupCount := by
          have hcount := h.count
          omega
        rw [if_neg (by omega), if_pos ⟨hlow, by omega⟩]
        exact h.segment i hi'
  · show (x.wal.appendCommand x.disk env.unixMs c).1.Holds (x.wal.appendCommand x.disk env.unixMs c).2 _
    rw [happend]
    exact WriteAheadLog.rotate_holds
  · intro es hes e he
    rcases List.mem_cons.mp hes with rfl | hes'
    · cases he
    · exact h.encodes_entry hc.2.2.2 es hes' e he
  · intro load
    show ∃ n, loadSnapshot load (x.wal.appendCommand x.disk env.unixMs c).2.snapshot _ = _
    rw [WriteAheadLog.appendCommand_snapshot]
    exact h.loads load
  · intro envs
    have hall := h.mirror_write hplain hc envs
    rw [List.reverse_cons, List.flatten_append, List.flatten_singleton, List.append_nil]
    exact hall

theorem Session.sound_write {x' : Session} (h : x.Sound) (hc : x.Covered (.write env c))
    (hstep : x.step (.write env c) = some x') : x'.Sound := by
  obtain ⟨bytes, hbytes⟩ := h.holds
  have hplain := effect_plain env h.plain hc.1
  have hpolicy := WriteAheadLog.logCommand_syncPolicy env.unixMs c x.wal x.disk
  have hcount := WriteAheadLog.appendCommand_backupCount env.unixMs c x.wal x.disk
  cases hrot : (x.wal.logCommand x.disk env.unixMs c).1.shouldRotate with
  | false =>
      have happend := WriteAheadLog.appendCommand_of_kept env.unixMs c hrot
      have hlogged := fun base segs act (hlog : x.Logged base segs act) => hlog.write_kept h.plain hc hrot hstep
      cases hstep
      refine ⟨hplain, ?_, ?_, ⟨bytes ++ (x.entry env c).serialize, ?_⟩, fun hle => ?_⟩
      · show (x.wal.appendCommand x.disk env.unixMs c).1.syncPolicy = _
        rw [happend]
        exact hpolicy.trans h.always
      · show (x.wal.appendCommand x.disk env.unixMs c).1.writer.buf = _
        rw [happend]
        exact WriteAheadLog.logCommand_flushed env.unixMs c x.disk h.always
      · show (x.wal.appendCommand x.disk env.unixMs c).1.Holds (x.wal.appendCommand x.disk env.unixMs c).2 _
        rw [happend]
        exact WriteAheadLog.logCommand_holds env.unixMs c hbytes
      · have hle' : x.rotations + (x.wal.logCommand x.disk env.unixMs c).1.shouldRotate.toNat
            ≤ segmentsToKeep (x.wal.appendCommand x.disk env.unixMs c).1.backupCount := hle
        rw [hrot, hcount] at hle'
        obtain ⟨base, segs, act, hlog⟩ := h.logged hle'
        exact ⟨base, segs, _, hlogged base segs act hlog⟩
  | true =>
      have happend := WriteAheadLog.appendCommand_of_rotated env.unixMs c hrot
      have hlogged := fun base segs act (hlog : x.Logged base segs act) hkeep =>
        hlog.write_rotated h.plain hc hrot hkeep hstep
      cases hstep
      refine ⟨hplain, ?_, ?_, ⟨[], ?_⟩, fun hle => ?_⟩
      · show (x.wal.appendCommand x.disk env.unixMs c).1.syncPolicy = _
        rw [happend, WriteAheadLog.rotate_syncPolicy]
        exact hpolicy.trans h.always
      · show (x.wal.appendCommand x.disk env.unixMs c).1.writer.buf = _
        rw [happend]
        exact WriteAheadLog.rotate_flushed
      · show (x.wal.appendCommand x.disk env.unixMs c).1.Holds (x.wal.appendCommand x.disk env.unixMs c).2 _
        rw [happend]
        exact WriteAheadLog.rotate_holds
      · have hle' : x.rotations + (x.wal.logCommand x.disk env.unixMs c).1.shouldRotate.toNat
            ≤ segmentsToKeep (x.wal.appendCommand x.disk env.unixMs c).1.backupCount := hle
        rw [hrot, hcount] at hle'
        obtain ⟨base, segs, act, hlog⟩ := h.logged (Nat.le_of_succ_le hle')
        exact ⟨base, _, [], hlogged base segs act hlog hle'⟩

end Write

/-- A snapshot loads to a mirror of the storage it was taken from. -/
theorem loads_snapshot (save : SaveReadings) {s : CacheStorage} (hplain : s.Plain)
    (hrec : ∀ k v, s.slotAt k = some v → v.Recordable) (henc : EncodesRecords (createSnapshot save s)) :
    ∃ base, (∀ load, ∃ n, loadSnapshot load (some (snapshotFile save.fileSecs (createSnapshot save s)))
        CacheStorage.new = (some (.ok n), base)) ∧
      Mirrors s base fun k => (s.slotAt k).any CacheValue.isEmpty := by
  obtain ⟨-, base, -, hbase⟩ := loadRecords_createSnapshot save (LoadReadings.ofEnv save.toEnv) hplain hrec
  refine ⟨base, ?_, ?_⟩
  · intro load
    obtain ⟨n, t, hload, ht⟩ := loadRecords_createSnapshot save load hplain hrec
    have heq : t = base := CacheStorage.ext_entry fun k => (ht k).trans (hbase k).symm
    refine ⟨n, ?_⟩
    simp only [loadSnapshot, readSnapshot_snapshotFile _ henc, hload, heq, Option.map_some]
  · intro k
    rw [hbase k]
    rcases Option.eq_none_or_eq_some (s.slotAt k) with hv | ⟨v, hv⟩
    · simp only [hv, Option.any_none, Bool.false_eq_true, if_false]
      rfl
    · rw [hv, holding_some]
      cases hempty : v.isEmpty with
      | false => simp only [hv, Option.any_some, hempty, Bool.false_eq_true, if_false]
      | true =>
          simp only [hv, Option.any_some, hempty, if_true]
          exact ⟨trivial, v, rfl, blank_of_isEmpty (hplain k v hv) (hrec k v hv) hempty⟩

theorem Session.sound_snapshot {x x' : Session} {save : SaveReadings} (h : x.Sound)
    (hc : x.Covered (.snapshot save)) (hstep : x.step (.snapshot save) = some x') : x'.Sound := by
  obtain ⟨hrec, henc⟩ := hc
  obtain ⟨base, hloads, hmirror⟩ := loads_snapshot save h.plain hrec henc
  have hdisk := WriteAheadLog.truncateAfterSnapshot_disk
    (saveSnapshotToPath save x.storage x.disk) h.flushed
  have hholds := WriteAheadLog.truncateAfterSnapshot_holds
    (saveSnapshotToPath save x.storage x.disk) h.flushed
  cases hstep
  refine ⟨h.plain, h.always, rfl, ⟨[], hholds⟩, ?_⟩
  intro _
  refine ⟨base, [], [], rfl, fun i hi => absurd hi (Nat.not_lt_zero i), hholds, ?_, ?_, ?_⟩
  · intro es hes e he
    obtain rfl : es = [] := by simpa using hes
    cases he
  · intro load
    show ∃ n, loadSnapshot load (x.wal.truncateAfterSnapshot _).2.snapshot _ = _
    rw [hdisk]
    exact hloads load
  · intro envs
    exact ⟨base, rfl, hmirror⟩

/-- **Every covered step keeps the invariant.** -/
theorem Session.sound_step {x x' : Session} {e : Event} (h : x.Sound) (hc : x.Covered e)
    (hstep : x.step e = some x') : x'.Sound := by
  cases e with
  | write env c => exact Session.sound_write h hc hstep
  | snapshot save => exact Session.sound_snapshot h hc hstep

/-! ## Starting again -/

omit [Codec] [RecordCodec] [KeyHash] in
/-- The segments replay reads are those made since the last snapshot. -/
theorem segments_read {keep : Nat} {disk : Disk} {segs : List Bytes} (hle : segs.length ≤ keep)
    (hseg : ∀ i (h : i < segs.length), disk.segment (i + 1) = some (segs.get ⟨i, h⟩))
    (hnone : ∀ n, segs.length < n → n ≤ keep → disk.segment n = none) :
    ((List.range' 1 keep).map disk.segment).reduceOption = segs := by
  have hmade : (List.range' 1 segs.length).map disk.segment = segs.map some := by
    apply List.ext_getElem
    · simp
    · intro i h1 h2
      have hi : i < segs.length := by simpa using h2
      simp only [List.getElem_map, List.getElem_range', Nat.one_mul, Nat.add_comm 1 i]
      exact hseg i hi
  have hrest : (List.range' (1 + segs.length) (keep - segs.length)).map disk.segment
      = (List.range' (1 + segs.length) (keep - segs.length)).map fun _ => none := by
    apply List.map_congr_left
    intro n hn
    rw [List.mem_range'_1] at hn
    exact hnone n (by omega) (by omega)
  have hsplit : List.range' 1 keep
      = List.range' 1 segs.length ++ List.range' (1 + segs.length) (keep - segs.length) := by
    rw [List.range'_append_1]
    congr 1
    omega
  rw [hsplit, List.map_append, hmade, hrest, List.reduceOption_append, reduceOption_map_none,
    List.append_nil]
  unfold List.reduceOption
  rw [List.filterMap_map]
  exact List.filterMap_some

/-- **What the files are good for.** A fresh server on them mirrors the live storage. -/
theorem Session.Logged.recovers {x : Session} {base : CacheStorage} {segs : List (List WALEntry)}
    {act : List WALEntry} (h : x.Logged base segs act) (hflushed : x.wal.writer.buf = [])
    (config : PersistenceConfig) (hconfig : config.walBackupCount = x.wal.backupCount)
    (hle : x.rotations ≤ segmentsToKeep x.wal.backupCount) (hstale : x.NoStaleSegment)
    (start : StartReadings) : x.Recovers config start := by
  set files := segs.map fun es => es.flatMap WALEntry.serialize with hfiles
  have hactive : x.disk.active.getD [] = act.flatMap WALEntry.serialize := by
    have := h.holds.bytes_eq
    rwa [hflushed, List.append_nil] at this
  have hread : ((List.range' 1 (segmentsToKeep x.wal.backupCount)).map x.disk.segment).reduceOption
      = files := by
    have hlen : files.length = x.rotations := by rw [hfiles, List.length_map, h.count]
    apply segments_read
    · rw [hlen]
      exact hle
    · intro i hi
      have hi' : i < segs.length := by simpa [hfiles] using hi
      rw [h.segment i hi']
      simp [hfiles]
    · intro n hn hn'
      exact hstale n (hlen ▸ hn) hn'
  have hencodes : ∀ es ∈ act :: segs, ∀ e ∈ es, Encodes e.command := h.encodes
  -- the fresh log opens
  have hscan : WriteAheadLog.lastSequenceFiles (0, false) (act.flatMap WALEntry.serialize :: files)
      = .ok (noteSequences (0, false) (act :: segs).flatten) :=
    lastSequenceFiles_entries (act :: segs) (0, false) hencodes
  obtain ⟨wal, hnew, hcount⟩ : ∃ wal : WriteAheadLog, WriteAheadLog.new config x.disk
      = (.ok wal, { x.disk with active := some (x.disk.active.getD []) }) ∧
      wal.backupCount = config.walBackupCount := by
    have hlast : ∃ n, WriteAheadLog.readLastSequence config
        { x.disk with active := some (x.disk.active.getD []) } = .ok n := by
      unfold WriteAheadLog.readLastSequence
      dsimp only
      rw [hconfig, List.reduceOption_cons_of_some, hread, hactive, hscan]
      cases noteSequences (0, false) (act :: segs).flatten with
      | mk last found => cases found <;> exact ⟨_, rfl⟩
    obtain ⟨n, hn⟩ := hlast
    unfold WriteAheadLog.new
    dsimp only
    rw [hn]
    exact ⟨_, rfl, rfl⟩
  -- and replays the segments, oldest first, then the active file
  have hreplay : wal.replay { x.disk with active := some (x.disk.active.getD []) }
      = (segs.reverse.flatten ++ act, .ok (segs.reverse.flatten ++ act).length) := by
    have horder : wal.filesInReplayOrder { x.disk with active := some (x.disk.active.getD []) }
        = (segs.reverse ++ [act]).map fun es => es.flatMap WALEntry.serialize := by
      show segmentsInReplayOrder _ _ ++ [x.disk.active.getD []] = _
      have hrev : segmentsInReplayOrder (segmentsToKeep wal.backupCount)
          { x.disk with active := some (x.disk.active.getD []) } = files.reverse := by
        unfold segmentsInReplayOrder
        rw [hcount, hconfig, List.map_reverse, ← hread]
        exact List.filterMap_reverse
      rw [hrev, hactive, List.map_append, hfiles, List.map_reverse]
      rfl
    rw [WriteAheadLog.replay, horder, replayFiles_entries]
    · rw [List.flatten_append, List.flatten_singleton]
    · intro es hes
      apply hencodes es
      rcases List.mem_append.mp hes with hes' | hes'
      · exact List.mem_cons_of_mem _ (List.mem_reverse.mp hes')
      · rw [List.mem_singleton.mp hes']
        exact List.mem_cons_self ..
  obtain ⟨n, hload⟩ := h.loads start.load
  obtain ⟨t, happly, hmirror⟩ := h.mirror start.replay
  refine ⟨t, ?_, ?_⟩
  · simp only [recover, hnew, loadFromPersistence, hload, hreplay, happly]
  · intro k
    have hk := hmirror k
    cases hout : x.leftOut k with
    | false =>
        rw [hout, if_neg Bool.false_ne_true] at hk
        rw [hk]
    | true =>
        rw [hout, if_pos rfl] at hk
        obtain ⟨htn, v, hv, hblank⟩ := hk
        have hempty : v.isEmpty = true := by
          rcases hblank with rfl | rfl | rfl | rfl | rfl <;> rfl
        rw [htn, hv, holding_some, if_pos hempty]
        rfl

theorem Session.backupCount_step {x x' : Session} {e : Event} (hstep : x.step e = some x') :
    x'.wal.backupCount = x.wal.backupCount := by
  cases e with
  | write env c =>
      cases hstep
      exact WriteAheadLog.appendCommand_backupCount env.unixMs c x.wal x.disk
  | snapshot save =>
      cases hstep
      rfl

/-- **Recovery reproduces the live storage.** For every run from an empty directory under `Always`, in
    which the steps are covered, at most `segments_to_keep` rotations happened since the last snapshot and
    no segment from before it is left. -/
theorem recovery_reproduces_live (config : PersistenceConfig) (hpolicy : config.walSyncPolicy = .always)
    (events : List Event) (x : Session)
    (hrun : run Session.step (Session.start config) events = some x)
    (hcovered : Along Session.step Session.Covered (Session.start config) events)
    (hrotations : x.rotations ≤ segmentsToKeep config.walBackupCount)
    (hstale : x.NoStaleSegment) (start : StartReadings) : x.Recovers config start := by
  have hinv : x.Sound ∧ x.wal.backupCount = config.walBackupCount := by
    refine run_invariant (P := Session.Covered)
      (I := fun x => x.Sound ∧ x.wal.backupCount = config.walBackupCount)
      ?_ events _ x hcovered hrun ⟨Session.sound_start hpolicy, rfl⟩
    rintro y e y' ⟨hsound, hcount⟩ hc hstep
    exact ⟨Session.sound_step hsound hc hstep, (Session.backupCount_step hstep).trans hcount⟩
  obtain ⟨hsound, hcount⟩ := hinv
  rw [← hcount] at hrotations
  obtain ⟨base, segs, act, hlogged⟩ := hsound.logged hrotations
  exact hlogged.recovers hsound.flushed config hcount.symm hrotations hstale start

end Recover

/-! ## Two runs -/

/-- `INCR k`, a snapshot, `INCR k`. -/
def incrAcrossSnapshot : List Event :=
  [.write (Env.reading 5) (.incr (utf8 "k")), .snapshot (SaveReadings.ofEnv (Env.reading 6)),
    .write (Env.reading 7) (.incr (utf8 "k"))]

theorem incrAcrossSnapshot_covered :
    let _ := shortKeys
    let _ := incrCodec
    let _ := stringCodec
    Along Session.step Session.Covered (Session.start ⟨.always, 1000, 1⟩) incrAcrossSnapshot := by
  intro _ _ _
  have hsteady : ∀ s : CacheStorage, Steady (.incr (utf8 "k")) s := fun s =>
    ⟨rfl, rfl, rfl, trivial, trivial⟩
  have hret : ∀ (env : Env) (s : CacheStorage), Returns env (.incr (utf8 "k")) s := by
    intro env s
    show some (Reply.orError Response.integer (Slot.incr (s.slotAt (utf8 "k"))).1) ≠ some none
    cases (Slot.incr (s.slotAt (utf8 "k"))).1 <;> simp [Reply.orError]
  have henc : Encodes (.incr (utf8 "k")) := encodes_incr _ (by decide)
  have hone : effect (Env.reading 5) (.incr (utf8 "k")) CacheStorage.new
      = CacheStorage.new.setEntry (utf8 "k") (some (.string (utf8 "1") none)) := by
    show CacheStorage.new.setEntry _ (Slot.incr (CacheStorage.new.slotAt (utf8 "k"))).2 = _
    rw [CacheStorage.slotAt_new]
    exact setEntry_congr (by decide)
  refine ⟨⟨hsteady _, hret _ _, fun k v h => (by cases h), henc⟩, ?_⟩
  intro x hx
  have hstorage : x.storage
      = CacheStorage.new.setEntry (utf8 "k") (some (.string (utf8 "1") none)) := by
    cases hx
    exact hone
  refine ⟨⟨?_, ?_⟩, ?_⟩
  · intro k v hv
    rw [hstorage, CacheStorage.slotAt_setEntry, CacheStorage.slotAt_new] at hv
    split at hv
    · cases hv
      trivial
    · cases hv
  · rw [hstorage, createSnapshot_single]
    exact encodesRecords_string _ _ (by decide) (by decide)
  · intro y hy
    refine ⟨⟨hsteady _, hret _ _, ?_, henc⟩, fun _ _ => trivial⟩
    intro k v hout htouch hv
    have hleft : y.leftOut k = (x.storage.slotAt k).any CacheValue.isEmpty := by
      cases hy
      rfl
    rw [hleft, hstorage, CacheStorage.slotAt_setEntry, CacheStorage.slotAt_new] at hout
    split at hout
    · cases hout
    · cases hout

/-- The theorem at a run with a snapshot between two `INCR`s. -/
theorem recovery_reproduces_live_incr :
    let _ := shortKeys
    let _ := incrCodec
    let _ := stringCodec
    ∃ x, run Session.step (Session.start ⟨.always, 1000, 1⟩) incrAcrossSnapshot = some x ∧
      x.storage.slotAt (utf8 "k") = some (.string (utf8 "2") none) ∧
      x.Recovers ⟨.always, 1000, 1⟩ (StartReadings.ofEnv (Env.reading 8)) := by
  intro _ _ _
  obtain ⟨x, hx⟩ : ∃ x, run Session.step (Session.start ⟨.always, 1000, 1⟩) incrAcrossSnapshot
      = some x := ⟨_, rfl⟩
  have hfacts : (run Session.step (Session.start ⟨.always, 1000, 1⟩) incrAcrossSnapshot).map
      (fun x => (x.storage.slotAt (utf8 "k"), x.rotations, segmentsToKeep x.wal.backupCount,
        x.disk.segment 1)) = some (some (.string (utf8 "2") none), 0, 1, none) := by decide
  rw [hx, Option.map_some, Option.some_inj] at hfacts
  simp only [Prod.mk.injEq] at hfacts
  obtain ⟨hslot, hrot, hkeep, hseg⟩ := hfacts
  refine ⟨x, hx, hslot, recovery_reproduces_live _ rfl incrAcrossSnapshot x hx
    incrAcrossSnapshot_covered (by rw [hrot]; exact Nat.zero_le _) ?_ _⟩
  intro n hn hn'
  obtain rfl : n = 1 := by omega
  exact hseg

/-- A log of at most one byte is rotated by the `INCR`; the snapshot then empties the active file only, so
    the segment is replayed on top of the snapshot and the counter comes back as 2. -/
theorem recovery_applies_incr_twice :
    let _ := shortKeys
    let _ := incrCodec
    let _ := stringCodec
    ∃ x, run Session.step (Session.start ⟨.always, 1, 1⟩)
        [.write (Env.reading 5) (.incr (utf8 "k")), .snapshot (SaveReadings.ofEnv (Env.reading 6))] = some x ∧
      x.rotations ≤ segmentsToKeep 1 ∧ ¬ x.Recovers ⟨.always, 1, 1⟩ (StartReadings.ofEnv (Env.reading 7)) := by
  intro _ _ _
  obtain ⟨x, hx⟩ : ∃ x, run Session.step (Session.start ⟨.always, 1, 1⟩)
      [.write (Env.reading 5) (.incr (utf8 "k")), .snapshot (SaveReadings.ofEnv (Env.reading 6))] = some x := ⟨_, rfl⟩
  have hfacts : (run Session.step (Session.start ⟨.always, 1, 1⟩)
      [.write (Env.reading 5) (.incr (utf8 "k")), .snapshot (SaveReadings.ofEnv (Env.reading 6))]).map
      (fun x => (x.rotations, x.storage.slotAt (utf8 "k"),
        (recover ⟨.always, 1, 1⟩ (StartReadings.ofEnv (Env.reading 7)) x.disk).2.slotAt (utf8 "k")))
      = some (0, some (.string (utf8 "1") none), some (.string (utf8 "2") none)) := by decide +kernel
  rw [hx, Option.map_some, Option.some_inj] at hfacts
  simp only [Prod.mk.injEq] at hfacts
  obtain ⟨hrot, hlive, hrecovered⟩ := hfacts
  refine ⟨x, hx, by rw [hrot]; exact Nat.zero_le _, ?_⟩
  rintro ⟨t, ht, hsame⟩
  have hk := hsame (utf8 "k")
  rw [ht] at hrecovered
  rw [hrecovered, hlive] at hk
  revert hk
  decide

end FerricCache
