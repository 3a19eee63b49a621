import FerricCache.Lib.Run
import FerricCache.Persistence.LogFiles

/-!
# `FerricCache.Persistence.Journal` — appending, rotating and reopening

`Filed` describes the whole directory of a log: what was rotated away, newest first, sits in the numbered
segments as far as these are kept, and the active file and the buffer hold what came after. Appending,
rotating, syncing and reopening keep it, and replay reads the kept part of it, oldest first.

A `Journal` is a log used by one client at a time, closed and reopened at will. Replay gives back exactly
the commands appended after the rotation whose segments are the oldest kept (`replay_exact`).
-/

namespace FerricCache

open Lib Lib.Run

namespace WriteAheadLog

variable {wal : WriteAheadLog} {disk : Disk} {chunks : List Bytes} {act : Bytes}

/-- The kept segments hold the newest of `chunks` (newest first), and the log holds `act`. -/
structure Filed (wal : WriteAheadLog) (disk : Disk) (chunks : List Bytes) (act : Bytes) : Prop where
  segment : ∀ i, i < segmentsToKeep wal.backupCount → disk.segment (i + 1) = chunks[i]?
  holds : wal.Holds disk act
  exist : disk.active.isSome = true

/-! ## Operations -/

theorem sync_flushed : (wal.sync disk).1.writer.buf = [] := rfl

theorem sync_filed (h : wal.Filed disk chunks act) :
    (wal.sync disk).1.Filed (wal.sync disk).2 chunks act := by
  obtain ⟨hseg, ⟨hend, rfl⟩, -⟩ := h
  refine ⟨hseg, ⟨Writer.flush_atEnd hend, ?_⟩, rfl⟩
  exact (List.append_nil _).trans (Writer.flush_contents hend)

/-- Rotation files what the log holds as the newest chunk. -/
theorem rotate_filed (h : wal.Filed disk chunks act) :
    (wal.rotate disk).1.Filed (wal.rotate disk).2 (act :: chunks) [] := by
  refine ⟨?_, rotate_holds, rfl⟩
  intro i hi
  have hi' : i < segmentsToKeep wal.backupCount := hi
  show (wal.rotateFiles disk).2.segment (i + 1) = _
  rw [rotateFiles_segment h.holds]
  cases i with
  | zero => rfl
  | succ i =>
      rw [if_neg (by omega), if_pos ⟨hi', by omega⟩]
      exact h.segment i (Nat.lt_of_succ_lt hi')

section Append

variable [Codec] (timestamp : UInt64) (c : Command)

theorem logCommand_filed (h : wal.Filed disk chunks act) :
    (wal.logCommand disk timestamp c).1.Filed (wal.logCommand disk timestamp c).2 chunks
      (act ++ (WALEntry.mk wal.sequence timestamp c).serialize) := by
  refine ⟨?_, logCommand_holds timestamp c h.holds, logCommand_active timestamp c wal disk⟩
  rw [logCommand_backupCount, logCommand_segment]
  exact h.segment

theorem logCommand_sequence (wal : WriteAheadLog) (disk : Disk) :
    (wal.logCommand disk timestamp c).1.sequence = wal.sequence + 1 := by
  unfold logCommand writeEntry
  dsimp only
  split <;> rfl

theorem appendCommand_sequence (wal : WriteAheadLog) (disk : Disk) :
    (wal.appendCommand disk timestamp c).1.sequence = wal.sequence + 1 :=
  appendCommand_keeps timestamp c (fun r => r.1.sequence = wal.sequence + 1)
    (logCommand_sequence timestamp c wal disk) fun _ h => h

/-- An append that rotates files the entry with everything before it. -/
theorem appendCommand_rotated (h : wal.Filed disk chunks act)
    (hrot : (wal.logCommand disk timestamp c).1.shouldRotate = true) :
    (wal.appendCommand disk timestamp c).1.Filed (wal.appendCommand disk timestamp c).2
      ((act ++ (WALEntry.mk wal.sequence timestamp c).serialize) :: chunks) [] := by
  rw [appendCommand_of_rotated timestamp c hrot]
  exact rotate_filed (logCommand_filed timestamp c h)

/-- An append that does not rotate adds the entry to what the log holds. -/
theorem appendCommand_kept (h : wal.Filed disk chunks act)
    (hrot : (wal.logCommand disk timestamp c).1.shouldRotate = false) :
    (wal.appendCommand disk timestamp c).1.Filed (wal.appendCommand disk timestamp c).2 chunks
      (act ++ (WALEntry.mk wal.sequence timestamp c).serialize) := by
  rw [appendCommand_of_kept timestamp c hrot]
  exact logCommand_filed timestamp c h

end Append

/-! ## Reading -/

/-- The segments that exist among those kept. -/
theorem segments_kept {keep : Nat} (h : ∀ i, i < keep → disk.segment (i + 1) = chunks[i]?) :
    ((List.range' 1 keep).map disk.segment).reduceOption = chunks.take keep := by
  induction keep with
  | zero => rfl
  | succ keep ih =>
      have hlast : disk.segment (1 + 1 * keep) = chunks[keep]? := by
        rw [Nat.one_mul, Nat.add_comm]
        exact h keep (Nat.lt_succ_self keep)
      rw [List.range'_concat, List.map_append, List.reduceOption_append,
        ih fun i hi => h i (Nat.lt_succ_of_lt hi), List.take_add_one, List.map_singleton, hlast]
      cases chunks[keep]? <;> rfl

/-- The active file holds everything once nothing is buffered. -/
theorem Filed.active_eq (h : wal.Filed disk chunks act) (hflushed : wal.writer.buf = []) :
    disk.active = some act := by
  obtain ⟨contents, hcontents⟩ := Option.isSome_iff_exists.mp h.exist
  have hbytes := h.holds.bytes_eq
  rw [hflushed, List.append_nil, hcontents, Option.getD_some] at hbytes
  rw [hcontents, hbytes]

/-- Replay reads the kept chunks, oldest first, then the active file. -/
theorem Filed.filesInReplayOrder_of_active (h : wal.Filed disk chunks act) {data : Bytes}
    (hactive : disk.active = some data) :
    wal.filesInReplayOrder disk
      = (chunks.take (segmentsToKeep wal.backupCount)).reverse ++ [data] := by
  unfold filesInReplayOrder segmentsInReplayOrder
  rw [hactive, List.map_reverse, ← segments_kept h.segment]
  congr 1
  exact List.filterMap_reverse

theorem Filed.filesInReplayOrder_eq (h : wal.Filed disk chunks act) (hflushed : wal.writer.buf = []) :
    wal.filesInReplayOrder disk
      = (chunks.take (segmentsToKeep wal.backupCount)).reverse ++ [act] :=
  h.filesInReplayOrder_of_active (h.active_eq hflushed)

/-- A reopened log finds the files as the closed one left them. -/
theorem Filed.of_new {config : PersistenceConfig} {wal' : WriteAheadLog} {disk' : Disk}
    (h : wal.Filed disk chunks act) (hflushed : wal.writer.buf = [])
    (hcount : wal.backupCount = config.walBackupCount) (hnew : new config disk = (.ok wal', disk')) :
    disk' = disk ∧ wal'.Filed disk chunks act ∧ wal'.writer.buf = [] ∧
      wal'.backupCount = config.walBackupCount := by
  have hactive := h.active_eq hflushed
  have hsame : ({ disk with active := some (disk.active.getD []) } : Disk) = disk := by
    rw [hactive, Option.getD_some, ← hactive]
  unfold new at hnew
  dsimp only at hnew
  rw [hsame] at hnew
  cases hread : readLastSequence config disk with
  | error e =>
      rw [hread] at hnew
      cases hnew
  | ok n =>
      rw [hread] at hnew
      cases hnew
      refine ⟨rfl, ⟨?_, ⟨Or.inl rfl, ?_⟩, h.exist⟩, rfl, rfl⟩
      · show ∀ i, i < segmentsToKeep config.walBackupCount → _
        rw [← hcount]
        exact h.segment
      · show disk.active.getD [] ++ [] = act
        rw [hactive, List.append_nil, Option.getD_some]

/-- What `read_last_sequence` makes of the files of a flushed log. -/
theorem Filed.readLastSequence_eq (config : PersistenceConfig) (h : wal.Filed disk chunks act)
    (hflushed : wal.writer.buf = []) (hcount : wal.backupCount = config.walBackupCount)
    {acc : UInt64 × Bool}
    (hscan : lastSequenceFiles (0, false) (act :: chunks.take (segmentsToKeep config.walBackupCount))
      = .ok acc) :
    readLastSequence config disk = .ok (if acc.2 then acc.1 + 1 else 0) := by
  have hseg : ∀ i, i < segmentsToKeep config.walBackupCount → disk.segment (i + 1) = chunks[i]? := by
    rw [← hcount]
    exact h.segment
  unfold readLastSequence
  dsimp only
  rw [h.active_eq hflushed, List.reduceOption_cons_of_some, segments_kept hseg, hscan]
  obtain ⟨last, found⟩ := acc
  cases found with
  | false => rfl
  | true => rfl

/-- A flushed log whose files can be scanned reopens, with the number behind those scanned. -/
theorem Filed.reopen (config : PersistenceConfig) (h : wal.Filed disk chunks act)
    (hflushed : wal.writer.buf = []) (hcount : wal.backupCount = config.walBackupCount)
    {acc : UInt64 × Bool}
    (hscan : lastSequenceFiles (0, false) (act :: chunks.take (segmentsToKeep config.walBackupCount))
      = .ok acc) :
    ∃ wal' : WriteAheadLog, new config disk = (.ok wal', disk) ∧
      wal'.sequence = if acc.2 then acc.1 + 1 else 0 := by
  have hactive := h.active_eq hflushed
  have hsame : ({ disk with active := some (disk.active.getD []) } : Disk) = disk := by
    rw [hactive, Option.getD_some, ← hactive]
  have hlast := h.readLastSequence_eq config hflushed hcount hscan
  unfold new
  dsimp only
  rw [hsame, hlast]
  exact ⟨_, rfl, rfl⟩

end WriteAheadLog

/-! ## Runs of one log -/

/-- A log and its files. The last two fields record the run: the commands appended, and for each rotation
    how many had been appended by then. -/
structure Journal where
  wal : WriteAheadLog
  disk : Disk
  appended : List Command
  rotatedAt : List Nat

/-- What happens to a log: an append with a flush behind it, or a clean close and reopen. -/
inductive LogEvent
  | append (timestamp : UInt64) (c : Command)
  | reopen

namespace Journal

/-- A log opened in an empty directory. -/
def start (config : PersistenceConfig) : Journal where
  wal :=
    { writer := ⟨true, 0, []⟩
      sequence := 0
      syncPolicy := config.walSyncPolicy
      currentSize := 0
      maxSize := config.maxWalSizeBytes
      backupCount := config.walBackupCount }
  disk := ⟨some [], fun _ => none, none⟩
  appended := []
  rotatedAt := []

/-- How many commands had been appended at the `j`-th rotation. -/
def mark (x : Journal) (j : Nat) : Nat := (0 :: x.rotatedAt)[j]?.getD 0

section Step

variable [Codec]

/-- One event; closing drops the writer, which flushes it. -/
def step (config : PersistenceConfig) (x : Journal) : LogEvent → Option Journal
  | .append timestamp c =>
      let r := x.wal.appendCommand x.disk timestamp c
      some
        { wal := (r.1.sync r.2).1
          disk := (r.1.sync r.2).2
          appended := x.appended ++ [c]
          rotatedAt :=
            if (x.wal.logCommand x.disk timestamp c).1.shouldRotate then
              x.rotatedAt ++ [x.appended.length + 1]
            else x.rotatedAt }
  | .reopen =>
      match WriteAheadLog.new config (x.wal.sync x.disk).2 with
      | (.ok wal, disk) => some { x with wal, disk }
      | (.error _, _) => none

/-- `append_command` alone: what it buffers is not flushed. -/
def append (x : Journal) (timestamp : UInt64) (c : Command) : Journal where
  wal := (x.wal.appendCommand x.disk timestamp c).1
  disk := (x.wal.appendCommand x.disk timestamp c).2
  appended := x.appended ++ [c]
  rotatedAt :=
    if (x.wal.logCommand x.disk timestamp c).1.shouldRotate then x.rotatedAt ++ [x.appended.length + 1]
    else x.rotatedAt

omit [Codec] in
/-- What the writer holds goes to the file. -/
def sync (x : Journal) : Journal :=
  { x with wal := (x.wal.sync x.disk).1, disk := (x.wal.sync x.disk).2 }

/-- The entries behind the files: the chunks rotated away, newest first, and those since. -/
structure Recorded (x : Journal) (chunks : List (List WALEntry)) (act : List WALEntry) : Prop where
  filed : x.wal.Filed x.disk (chunks.map fun es => es.flatMap WALEntry.serialize)
    (act.flatMap WALEntry.serialize)
  encodes : ∀ es ∈ act :: chunks, ∀ e ∈ es, Encodes e.command
  appended : x.appended = (chunks.reverse.flatten ++ act).map WALEntry.command
  rotations : x.rotatedAt.length = chunks.length
  mark : ∀ j, j ≤ chunks.length → x.mark j = (chunks.reverse.take j).flatten.length

/-- The invariant of a run: everything is flushed, and the files are the entries recorded. -/
structure Sound (config : PersistenceConfig) (x : Journal) : Prop where
  flushed : x.wal.writer.buf = []
  backupCount : x.wal.backupCount = config.walBackupCount
  recorded : ∃ chunks act, x.Recorded chunks act

end Step

variable [Codec] {config : PersistenceConfig} {x : Journal}

omit [Codec] in
/-- `start` is what `new` makes of an empty directory. -/
theorem new_start (config : PersistenceConfig) :
    WriteAheadLog.new config ⟨none, fun _ => none, none⟩
      = (.ok (start config).wal, (start config).disk) := by
  have hread := readLastSequence_active config [] none
  unfold WriteAheadLog.new
  dsimp only [Option.getD_none]
  rewrite [hread]
  rfl

theorem sound_start (config : PersistenceConfig) : (start config).Sound config where
  flushed := rfl
  backupCount := rfl
  recorded := by
    refine ⟨[], [], ⟨fun i _ => rfl, ⟨Or.inl rfl, rfl⟩, rfl⟩, ?_, rfl, rfl, ?_⟩
    · simp
    · intro j hj
      obtain rfl : j = 0 := Nat.le_zero.mp hj
      rfl

section Append

variable {chunks : List (List WALEntry)} {act : List WALEntry} (timestamp : UInt64) (c : Command)

theorem Recorded.appended_entry (hrec : x.Recorded chunks act) :
    x.appended ++ [c]
      = (chunks.reverse.flatten ++ (act ++ [WALEntry.mk x.wal.sequence timestamp c])).map WALEntry.command := by
  rw [← List.append_assoc, List.map_append, ← hrec.appended]
  rfl

theorem Recorded.encodes_entry (hrec : x.Recorded chunks act) (hc : Encodes c) :
    ∀ es ∈ (act ++ [WALEntry.mk x.wal.sequence timestamp c]) :: chunks, ∀ e' ∈ es, Encodes e'.command := by
  intro es hes e' he'
  rcases List.mem_cons.mp hes with rfl | hes'
  · rcases List.mem_append.mp he' with he'' | he''
    · exact hrec.encodes act (List.mem_cons_self ..) e' he''
    · obtain rfl := List.mem_singleton.mp he''
      exact hc
  · exact hrec.encodes es (List.mem_cons_of_mem _ hes') e' he'

theorem flatMap_entry (e : WALEntry) :
    act.flatMap WALEntry.serialize ++ e.serialize = (act ++ [e]).flatMap WALEntry.serialize := by
  rw [List.flatMap_append, List.flatMap_singleton]

/-- An append that does not rotate adds its entry to the active ones. -/
theorem Recorded.append_kept (hrec : x.Recorded chunks act) (hc : Encodes c)
    (hrot : (x.wal.logCommand x.disk timestamp c).1.shouldRotate = false) :
    (x.append timestamp c).Recorded chunks (act ++ [WALEntry.mk x.wal.sequence timestamp c]) := by
  have hkept : (x.append timestamp c).rotatedAt = x.rotatedAt := if_neg (by rw [hrot]; exact Bool.false_ne_true)
  refine ⟨?_, hrec.encodes_entry timestamp c hc, hrec.appended_entry timestamp c, ?_, ?_⟩
  · rw [← flatMap_entry]
    exact WriteAheadLog.appendCommand_kept timestamp c hrec.filed hrot
  · rw [hkept]
    exact hrec.rotations
  · unfold Journal.mark
    rw [hkept]
    exact hrec.mark

/-- An append that rotates makes a chunk of its entry and the active ones. -/
theorem Recorded.append_rotated (hrec : x.Recorded chunks act) (hc : Encodes c)
    (hrot : (x.wal.logCommand x.disk timestamp c).1.shouldRotate = true) :
    (x.append timestamp c).Recorded ((act ++ [WALEntry.mk x.wal.sequence timestamp c]) :: chunks) [] := by
  have hmore : (x.append timestamp c).rotatedAt = x.rotatedAt ++ [x.appended.length + 1] := if_pos hrot
  have happended := hrec.appended_entry timestamp c
  refine ⟨?_, ?_, ?_, ?_, ?_⟩
  · rw [List.map_cons, ← flatMap_entry]
    exact WriteAheadLog.appendCommand_rotated timestamp c hrec.filed hrot
  · intro es hes
    rcases List.mem_cons.mp hes with rfl | hes'
    · simp
    · exact hrec.encodes_entry timestamp c hc es hes'
  · rw [List.reverse_cons, List.flatten_append, List.flatten_singleton, List.append_nil]
    exact happended
  · rw [hmore, List.length_append, hrec.rotations]
    rfl
  · intro j hj
    unfold Journal.mark
    rw [hmore]
    show ((0 :: x.rotatedAt) ++ [x.appended.length + 1])[j]?.getD 0 = _
    have hlen : (0 :: x.rotatedAt).length = chunks.length + 1 := by
      rw [List.length_cons, hrec.rotations]
    rw [List.reverse_cons]
    rcases Nat.lt_or_ge j (chunks.length + 1) with hlt | hge
    · -- an earlier rotation
      rw [List.getElem?_append_left (by omega),
        List.take_append_of_le_length (by rw [List.length_reverse]; omega)]
      exact hrec.mark j (by omega)
    · -- the rotation of this append
      obtain rfl : j = chunks.length + 1 := by
        rw [List.length_cons] at hj
        omega
      rw [List.getElem?_append_right (by omega), hlen, Nat.sub_self,
        List.take_of_length_le (by simp), List.flatten_append, List.flatten_singleton,
        ← List.length_map WALEntry.command, ← happended, List.length_append]
      rfl

theorem Recorded.append (hrec : x.Recorded chunks act) (hc : Encodes c) :
    ∃ chunks' act', (x.append timestamp c).Recorded chunks' act' := by
  cases hrot : (x.wal.logCommand x.disk timestamp c).1.shouldRotate with
  | false => exact ⟨_, _, hrec.append_kept timestamp c hc hrot⟩
  | true => exact ⟨_, _, hrec.append_rotated timestamp c hc hrot⟩

end Append

/-- A log that is flushed is sound. -/
theorem Recorded.sync {chunks : List (List WALEntry)} {act : List WALEntry} (hrec : x.Recorded chunks act)
    (hcount : x.wal.backupCount = config.walBackupCount) : x.sync.Sound config where
  flushed := rfl
  backupCount := hcount
  recorded :=
    ⟨chunks, act, WriteAheadLog.sync_filed hrec.filed, hrec.encodes, hrec.appended, hrec.rotations, hrec.mark⟩

theorem sound_append (h : x.Sound config) (timestamp : UInt64) (c : Command) (hc : Encodes c) :
    ∃ x', x.step config (.append timestamp c) = some x' ∧ x'.Sound config := by
  obtain ⟨chunks, act, hrec⟩ := h.recorded
  obtain ⟨chunks', act', hrec'⟩ := hrec.append timestamp c hc
  refine ⟨(x.append timestamp c).sync, rfl, hrec'.sync ?_⟩
  exact (WriteAheadLog.appendCommand_backupCount timestamp c x.wal x.disk).trans h.backupCount

/-- Closed and reopened, a log has the same entries, and the number behind those it scanned. -/
theorem Recorded.reopen {chunks : List (List WALEntry)} {act : List WALEntry} (hrec : x.Recorded chunks act)
    (hcount : x.wal.backupCount = config.walBackupCount) :
    ∃ x', x.step config .reopen = some x' ∧ x'.Recorded chunks act ∧ x'.wal.writer.buf = [] ∧
      x'.wal.backupCount = config.walBackupCount ∧
      x'.wal.sequence =
        (let acc := noteSequences (0, false) (act ++ (chunks.take (segmentsToKeep config.walBackupCount)).flatten)
        if acc.2 then acc.1 + 1 else 0) := by
  have hsynced := WriteAheadLog.sync_filed hrec.filed
  have hscan := lastSequenceFiles_entries (act :: chunks.take (segmentsToKeep config.walBackupCount))
    (0, false) (by
      intro es hes
      rcases List.mem_cons.mp hes with rfl | hes'
      · exact hrec.encodes _ (List.mem_cons_self ..)
      · exact hrec.encodes es (List.mem_cons_of_mem _ (List.mem_of_mem_take hes')))
  rw [List.map_cons, List.map_take, List.flatten_cons] at hscan
  obtain ⟨wal', hnew, hsequence⟩ := hsynced.reopen config WriteAheadLog.sync_flushed hcount hscan
  obtain ⟨-, hfiled, hflushed, hcount'⟩ :=
    hsynced.of_new WriteAheadLog.sync_flushed hcount hnew
  refine ⟨{ x with wal := wal', disk := (x.wal.sync x.disk).2 }, ?_,
    ⟨hfiled, hrec.encodes, hrec.appended, hrec.rotations, hrec.mark⟩, hflushed, hcount', hsequence⟩
  rw [step, hnew]

theorem sound_reopen (h : x.Sound config) :
    ∃ x', x.step config .reopen = some x' ∧ x'.Sound config := by
  obtain ⟨chunks, act, hrec⟩ := h.recorded
  obtain ⟨x', hx', hrec', hflushed, hcount, -⟩ := hrec.reopen h.backupCount
  exact ⟨x', hx', hflushed, hcount, chunks, act, hrec'⟩

/-- The commands a log may be given. -/
def Carried : LogEvent → Prop
  | .append _ c => Encodes c
  | .reopen => True

/-- What replay of a sound log delivers. -/
theorem Sound.replay_eq (h : x.Sound config) :
    ∃ es, x.wal.replay x.disk = (es, .ok es.length) ∧
      es.map WALEntry.command
        = x.appended.drop (x.mark (x.rotatedAt.length - segmentsToKeep config.walBackupCount)) := by
  obtain ⟨chunks, act, hrec⟩ := h.recorded
  set keep := segmentsToKeep config.walBackupCount with hkeep
  have horder := hrec.filed.filesInReplayOrder_eq h.flushed
  rw [h.backupCount, ← hkeep] at horder
  have hfiles : x.wal.filesInReplayOrder x.disk
      = ((chunks.take keep).reverse ++ [act]).map fun es => es.flatMap WALEntry.serialize := by
    rw [horder, List.map_append, List.map_reverse, List.map_take]
    rfl
  refine ⟨((chunks.take keep).reverse ++ [act]).flatten, ?_, ?_⟩
  · rw [WriteAheadLog.replay, hfiles]
    apply replayFiles_entries
    intro es hes
    apply hrec.encodes es
    rcases List.mem_append.mp hes with hes' | hes'
    · exact List.mem_cons_of_mem _ (List.mem_of_mem_take (List.mem_reverse.mp hes'))
    · exact List.mem_singleton.mp hes' ▸ List.mem_cons_self ..
  · -- the chunks that fell out of the segments are those before the mark
    have hsplit : chunks.reverse
        = chunks.reverse.take (chunks.length - keep) ++ (chunks.take keep).reverse := by
      rw [List.take_reverse, ← List.reverse_append]
      rcases Nat.le_total keep chunks.length with hle | hle
      · rw [Nat.sub_sub_self hle, List.take_append_drop]
      · rw [Nat.sub_eq_zero_of_le hle, Nat.sub_zero, List.drop_length, List.append_nil,
          List.take_of_length_le hle]
    have hall : chunks.reverse.flatten ++ act
        = (chunks.reverse.take (chunks.length - keep)).flatten
          ++ ((chunks.take keep).reverse ++ [act]).flatten := by
      conv_lhs => rw [hsplit]
      rw [List.flatten_append, List.append_assoc, List.flatten_append, List.flatten_singleton]
    rw [hrec.rotations, hrec.mark _ (Nat.sub_le _ _), hrec.appended, hall, List.map_append,
      List.drop_left' (List.length_map ..)]

end Journal

/-- **Replay of the log alone is exact.** Whatever is appended, whenever the log rotates or is reopened, the
    callback gets the commands appended after the last rotation whose segment is gone, in order. -/
theorem replay_exact [Codec] (config : PersistenceConfig) (events : List LogEvent)
    (henc : ∀ e ∈ events, Journal.Carried e) :
    ∃ x, run (Journal.step config) (Journal.start config) events = some x ∧
      ∃ es, x.wal.replay x.disk = (es, .ok es.length) ∧
        es.map WALEntry.command
          = x.appended.drop (x.mark (x.rotatedAt.length - segmentsToKeep config.walBackupCount)) := by
  have hstep : ∀ (x : Journal) (e : LogEvent), x.Sound config → Journal.Carried e →
      ∃ x', x.step config e = some x' ∧ x'.Sound config := by
    intro x e hx he
    cases e with
    | append timestamp c => exact Journal.sound_append hx timestamp c he
    | reopen => exact Journal.sound_reopen hx
  obtain ⟨x, hx, hsound⟩ := run_exists hstep events _ henc (Journal.sound_start config)
  exact ⟨x, hx, hsound.replay_eq⟩

/-- With a limit of 30 bytes every entry fills the log: of three increments and a reopen in between, one
    segment keeps the last. -/
theorem replay_exact_incr :
    let _ := incrCodec
    ∃ x, run (Journal.step ⟨.everySecond, 30, 1⟩) (Journal.start ⟨.everySecond, 30, 1⟩)
        [.append 5 (.incr (utf8 "a")), .append 6 (.incr (utf8 "b")), .reopen,
          .append 7 (.incr (utf8 "c"))] = some x ∧
      ∃ es, x.wal.replay x.disk = (es, .ok es.length) ∧
        es.map WALEntry.command
          = x.appended.drop (x.mark (x.rotatedAt.length - segmentsToKeep 1)) := by
  intro _
  refine replay_exact ⟨.everySecond, 30, 1⟩ _ ?_
  intro e he
  simp only [List.mem_cons, List.not_mem_nil, or_false] at he
  rcases he with rfl | rfl | rfl | rfl
  · exact encodes_incr _ (by decide)
  · exact encodes_incr _ (by decide)
  · trivial
  · exact encodes_incr _ (by decide)

end FerricCache
