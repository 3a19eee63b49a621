import FerricCache.Persistence.Replay

/-!
# `FerricCache.Persistence.LogFiles` — what the log's operations leave on disk

The bytes a log holds are those of the active file followed by those still buffered (`Holds`). Writing
an entry adds its bytes at the end, in whichever mode the handle was opened, because the offset of a
handle without `O_APPEND` is kept at the end of the file. Rotation moves every segment one number up
and what the log holds to segment 1 (`rotateFiles_segment`).
-/

namespace FerricCache

open Lib

namespace Writer

variable {w : Writer} {contents b : Bytes}

/-- The next write goes to the end of the file. -/
def AtEnd (w : Writer) (contents : Bytes) : Prop := w.append = true ∨ w.pos = contents.length

theorem writeAt_end (contents b : Bytes) : writeAt contents.length contents b = contents ++ b := by
  unfold writeAt
  rw [List.take_length, Nat.sub_self, List.replicate_zero, List.append_nil,
    List.drop_of_length_le (Nat.le_add_right _ _), List.append_nil]

theorem emit_nil : w.emit [] contents = (w, contents) := rfl

theorem emit_contents (h : w.AtEnd contents) : (w.emit b contents).2 = contents ++ b := by
  cases b with
  | nil => rw [emit_nil, List.append_nil]
  | cons x b =>
      show (if w.append = true then _ else _ : Writer × Bytes).2 = _
      by_cases ha : w.append = true
      · rw [if_pos ha]
      · rw [if_neg ha]
        have hpos : w.pos = contents.length := h.resolve_left ha
        show writeAt w.pos contents (x :: b) = contents ++ x :: b
        rw [hpos, writeAt_end]

theorem emit_atEnd (h : w.AtEnd contents) : (w.emit b contents).1.AtEnd (contents ++ b) := by
  cases b with
  | nil =>
      rw [emit_nil, List.append_nil]
      exact h
  | cons x b =>
      show (if w.append = true then _ else _ : Writer × Bytes).1.AtEnd _
      by_cases ha : w.append = true
      · rw [if_pos ha]
        exact Or.inl ha
      · rw [if_neg ha]
        have hpos : w.pos = contents.length := h.resolve_left ha
        right
        show w.pos + (x :: b).length = (contents ++ x :: b).length
        rw [hpos, List.length_append]

theorem emit_buf : (w.emit b contents).1.buf = w.buf := by
  unfold emit
  split
  · rfl
  · split <;> rfl

/-- `flush` puts the buffer at the end of the file. -/
theorem flush_contents (h : w.AtEnd contents) : (w.flush contents).2 = contents ++ w.buf :=
  emit_contents h

theorem flush_atEnd (h : w.AtEnd contents) : (w.flush contents).1.AtEnd (w.flush contents).2 := by
  rw [flush_contents h]
  exact emit_atEnd (b := w.buf) h

theorem flush_buf : (w.flush contents).1.buf = [] := rfl

/-- **`write_all` adds its bytes** to what the file and the buffer hold together. -/
theorem writeAll_contents (h : w.AtEnd contents) :
    (w.writeAll b contents).2 ++ (w.writeAll b contents).1.buf = contents ++ w.buf ++ b ∧
      (w.writeAll b contents).1.AtEnd (w.writeAll b contents).2 := by
  unfold writeAll
  by_cases hfit : w.buf.length + b.length < capacity
  · rw [if_pos hfit]
    exact ⟨(List.append_assoc ..).symm, h⟩
  · rw [if_neg hfit]
    by_cases hover : capacity < w.buf.length + b.length
    · -- the buffer goes out first
      have hflush := flush_atEnd h
      simp only [if_pos hover]
      by_cases hbig : capacity ≤ b.length
      · rw [if_pos hbig, emit_buf, flush_buf, List.append_nil, emit_contents hflush, flush_contents h]
        refine ⟨rfl, ?_⟩
        rw [← flush_contents h]
        exact emit_atEnd hflush
      · rw [if_neg hbig]
        refine ⟨?_, hflush⟩
        show (w.flush contents).2 ++ ((w.flush contents).1.buf ++ b) = _
        rw [flush_buf, List.nil_append, flush_contents h]
    · simp only [if_neg hover]
      by_cases hbig : capacity ≤ b.length
      · have hnil : w.buf = [] := List.eq_nil_of_length_eq_zero (by omega)
        rw [if_pos hbig, emit_buf, emit_contents h, hnil, List.append_nil, List.append_nil]
        exact ⟨rfl, emit_atEnd h⟩
      · rw [if_neg hbig]
        exact ⟨(List.append_assoc ..).symm, h⟩

/-- The file gets what was written in whole writes: nothing new, the buffer, or the buffer and `b`. -/
theorem writeAll_whole (h : w.AtEnd contents) :
    (w.writeAll b contents).2 = contents ∨ (w.writeAll b contents).2 = contents ++ w.buf ∨
      (w.writeAll b contents).2 = contents ++ w.buf ++ b := by
  unfold writeAll
  by_cases hfit : w.buf.length + b.length < capacity
  · rw [if_pos hfit]
    exact Or.inl rfl
  · rw [if_neg hfit]
    by_cases hover : capacity < w.buf.length + b.length
    · simp only [if_pos hover]
      right
      by_cases hbig : capacity ≤ b.length
      · rw [if_pos hbig, emit_contents (flush_atEnd h), flush_contents h]
        exact Or.inr rfl
      · rw [if_neg hbig]
        exact Or.inl (flush_contents h)
    · -- exactly a buffer full: it is kept, or there was nothing before it
      simp only [if_neg hover]
      by_cases hbig : capacity ≤ b.length
      · have hnil : w.buf = [] := List.eq_nil_of_length_eq_zero (by omega)
        rw [if_pos hbig, emit_contents h, hnil, List.append_nil]
        exact Or.inr (Or.inr rfl)
      · rw [if_neg hbig]
        exact Or.inl rfl

end Writer

namespace WriteAheadLog

variable {wal : WriteAheadLog} {disk : Disk} {bytes : Bytes}

/-- The active file and the buffer hold these bytes, and the next write goes behind them. -/
structure Holds (wal : WriteAheadLog) (disk : Disk) (bytes : Bytes) : Prop where
  atEnd : wal.writer.AtEnd (disk.active.getD [])
  bytes_eq : disk.active.getD [] ++ wal.writer.buf = bytes

/-! ## Writing -/

/-- The locked part of an append adds the entry's bytes and touches nothing else. -/
theorem writeEntry_holds (h : wal.Holds disk bytes) (b : Bytes) :
    (wal.writeEntry disk b).1.Holds (wal.writeEntry disk b).2 (bytes ++ b) := by
  obtain ⟨hend, rfl⟩ := h
  obtain ⟨hbytes, hend'⟩ := Writer.writeAll_contents (b := b) hend
  unfold writeEntry
  dsimp only
  split
  · refine ⟨Writer.flush_atEnd hend', ?_⟩
    exact (List.append_nil _).trans ((Writer.flush_contents hend').trans hbytes)
  · exact ⟨hend', hbytes⟩

/-- On disk there is what was there before, all the log held, or that and the entry. -/
theorem writeEntry_whole (h : wal.Holds disk bytes) (b : Bytes) :
    (wal.writeEntry disk b).2.active = some (disk.active.getD []) ∨
      (wal.writeEntry disk b).2.active = some bytes ∨ (wal.writeEntry disk b).2.active = some (bytes ++ b) := by
  obtain ⟨hend, rfl⟩ := h
  obtain ⟨hbytes, hend'⟩ := Writer.writeAll_contents (b := b) hend
  unfold writeEntry
  dsimp only
  split
  · right
    right
    exact congrArg some ((Writer.flush_contents hend').trans hbytes)
  · rcases Writer.writeAll_whole (b := b) hend with hw | hw | hw
    · exact Or.inl (congrArg some hw)
    · exact Or.inr (Or.inl (congrArg some hw))
    · exact Or.inr (Or.inr (congrArg some hw))

theorem writeEntry_flushed (h : wal.syncPolicy = .always) (b : Bytes) :
    (wal.writeEntry disk b).1.writer.buf = [] := by
  unfold writeEntry
  dsimp only
  rw [if_pos (show (wal.onActive disk fun w contents => w.writeAll b contents).1.syncPolicy = .always
    from h)]
  rfl

theorem writeEntry_segment (b : Bytes) : (wal.writeEntry disk b).2.segment = disk.segment := by
  unfold writeEntry
  dsimp only
  split <;> rfl

theorem writeEntry_snapshot (b : Bytes) : (wal.writeEntry disk b).2.snapshot = disk.snapshot := by
  unfold writeEntry
  dsimp only
  split <;> rfl

theorem writeEntry_active (b : Bytes) : (wal.writeEntry disk b).2.active.isSome = true := by
  unfold writeEntry
  dsimp only
  split <;> rfl

theorem writeEntry_settings (b : Bytes) :
    (wal.writeEntry disk b).1.syncPolicy = wal.syncPolicy ∧
      (wal.writeEntry disk b).1.backupCount = wal.backupCount := by
  unfold writeEntry
  dsimp only
  split <;> exact ⟨rfl, rfl⟩

theorem writeEntry_sizes (b : Bytes) :
    (wal.writeEntry disk b).1.maxSize = wal.maxSize ∧ (wal.writeEntry disk b).1.currentSize = wal.currentSize := by
  unfold writeEntry
  dsimp only
  split <;> exact ⟨rfl, rfl⟩

section Log

variable [Codec] (timestamp : UInt64) (c : Command)

/-- What an append does to the disk is to write its entry. -/
theorem logCommand_disk (wal : WriteAheadLog) (disk : Disk) :
    (wal.logCommand disk timestamp c).2
      = (WriteAheadLog.writeEntry { wal with sequence := wal.sequence + 1 } disk
          (WALEntry.mk wal.sequence timestamp c).serialize).2 := by
  unfold logCommand
  dsimp only

/-- The test behind an append compares the limit with the size it has counted. -/
theorem logCommand_shouldRotate (wal : WriteAheadLog) (disk : Disk) :
    (wal.logCommand disk timestamp c).1.shouldRotate
      = decide (wal.maxSize ≤ wal.currentSize
          + UInt64.ofNat (WALEntry.mk wal.sequence timestamp c).serialize.length) := by
  have hsizes : (WriteAheadLog.writeEntry { wal with sequence := wal.sequence + 1 } disk
        (WALEntry.mk wal.sequence timestamp c).serialize).1.maxSize = wal.maxSize ∧
      (WriteAheadLog.writeEntry { wal with sequence := wal.sequence + 1 } disk
        (WALEntry.mk wal.sequence timestamp c).serialize).1.currentSize = wal.currentSize := writeEntry_sizes _
  unfold logCommand shouldRotate
  dsimp only
  simp only [hsizes.1, hsizes.2]

/-- Logging a command adds its entry's bytes. -/
theorem logCommand_holds (h : wal.Holds disk bytes) :
    (wal.logCommand disk timestamp c).1.Holds (wal.logCommand disk timestamp c).2
      (bytes ++ (WALEntry.mk wal.sequence timestamp c).serialize) := by
  have hopen : WriteAheadLog.Holds { wal with sequence := wal.sequence + 1 } disk bytes :=
    ⟨h.atEnd, h.bytes_eq⟩
  have hw := writeEntry_holds hopen (WALEntry.mk wal.sequence timestamp c).serialize
  unfold logCommand
  dsimp only
  generalize writeEntry _ disk _ = r at hw ⊢
  exact ⟨hw.atEnd, hw.bytes_eq⟩

theorem logCommand_whole (h : wal.Holds disk bytes) :
    (wal.logCommand disk timestamp c).2.active = some (disk.active.getD []) ∨
      (wal.logCommand disk timestamp c).2.active = some bytes ∨
      (wal.logCommand disk timestamp c).2.active
        = some (bytes ++ (WALEntry.mk wal.sequence timestamp c).serialize) := by
  have hopen : WriteAheadLog.Holds { wal with sequence := wal.sequence + 1 } disk bytes :=
    ⟨h.atEnd, h.bytes_eq⟩
  rw [logCommand_disk]
  exact writeEntry_whole hopen _

theorem logCommand_active (wal : WriteAheadLog) (disk : Disk) :
    (wal.logCommand disk timestamp c).2.active.isSome = true := by
  rw [logCommand_disk]
  exact writeEntry_active _

theorem logCommand_flushed (disk : Disk) (h : wal.syncPolicy = .always) :
    (wal.logCommand disk timestamp c).1.writer.buf = [] := by
  unfold logCommand
  dsimp only
  have hopen : ({ wal with sequence := wal.sequence + 1 } : WriteAheadLog).syncPolicy = .always := h
  rw [writeEntry_flushed hopen]

theorem logCommand_segment (wal : WriteAheadLog) (disk : Disk) :
    (wal.logCommand disk timestamp c).2.segment = disk.segment := by
  rw [logCommand_disk, writeEntry_segment]

theorem logCommand_snapshot (wal : WriteAheadLog) (disk : Disk) :
    (wal.logCommand disk timestamp c).2.snapshot = disk.snapshot := by
  rw [logCommand_disk, writeEntry_snapshot]

theorem logCommand_syncPolicy (wal : WriteAheadLog) (disk : Disk) :
    (wal.logCommand disk timestamp c).1.syncPolicy = wal.syncPolicy := by
  unfold logCommand
  dsimp only
  rw [(writeEntry_settings _).1]

theorem logCommand_backupCount (wal : WriteAheadLog) (disk : Disk) :
    (wal.logCommand disk timestamp c).1.backupCount = wal.backupCount := by
  unfold logCommand
  dsimp only
  rw [(writeEntry_settings _).2]

end Log

/-! ## Rotating -/

/-- The body of the aging loop. -/
def renameUp (seg : Nat → Option Bytes) (n : Nat) : Nat → Option Bytes :=
  match seg n with
  | some contents => Function.update (Function.update seg n none) (n + 1) (some contents)
  | none => seg

theorem renameUp_apply {seg : Nat → Option Bytes} {n : Nat} (hfree : seg (n + 1) = none) (k : Nat) :
    renameUp seg n k = if k = n + 1 then seg n else if k = n then none else seg k := by
  unfold renameUp
  cases hn : seg n with
  | none =>
      dsimp only
      split
      · rename_i hk
        rw [hk, hfree]
      · split
        · rename_i hk
          rw [hk, hn]
        · rfl
  | some contents =>
      dsimp only
      split
      · rename_i hk
        rw [hk, Function.update_self]
      · rename_i hk
        rw [Function.update_of_ne hk]
        split
        · rename_i hk'
          rw [hk', Function.update_self]
        · rename_i hk'
          rw [Function.update_of_ne hk']

/-- The renames from `.m` down to `.1` move every segment up, when `.m+1` is free. -/
theorem foldl_renameUp (m : Nat) (seg : Nat → Option Bytes) (hfree : seg (m + 1) = none) (k : Nat) :
    (List.range' 1 m).reverse.foldl renameUp seg k
      = if 2 ≤ k ∧ k ≤ m + 1 then seg (k - 1) else if k = 1 then none else seg k := by
  induction m generalizing seg with
  | zero =>
      have hk : ¬ (2 ≤ k ∧ k ≤ 0 + 1) := by omega
      rw [if_neg hk]
      split
      · rename_i hk1
        rw [hk1]
        exact hfree
      · rfl
  | succ m ih =>
      rw [List.range'_concat, List.reverse_append, List.reverse_singleton, List.singleton_append,
        List.foldl_cons, Nat.one_mul, Nat.add_comm 1 m]
      have hmoved := renameUp_apply hfree
      have hfree' : renameUp seg (m + 1) (m + 1) = none := by
        rw [hmoved, if_neg (by omega), if_pos rfl]
      rw [ih _ hfree', hmoved (k - 1), hmoved k]
      by_cases hlow : 2 ≤ k ∧ k ≤ m + 1
      · rw [if_pos hlow, if_neg (by omega), if_neg (by omega), if_pos (by omega)]
      · rw [if_neg hlow]
        by_cases htop : k = m + 2
        · rw [if_neg (by omega), if_pos htop, if_pos (by omega), htop]
          rfl
        · by_cases hone : k = 1
          · rw [if_pos hone, if_neg (by omega), if_pos hone]
          · rw [if_neg hone, if_neg (by omega), if_neg (by omega), if_neg (by omega), if_neg hone]

/-- **Aging** moves every retained segment one number up and frees number 1. -/
theorem ageSegments_apply {keep : Nat} (hkeep : 1 ≤ keep) (seg : Nat → Option Bytes) (k : Nat) :
    ageSegments keep seg k
      = if 2 ≤ k ∧ k ≤ keep then seg (k - 1) else if k = 1 then none else seg k := by
  obtain ⟨m, rfl⟩ : ∃ m, keep = m + 1 := ⟨keep - 1, by omega⟩
  have hloop := foldl_renameUp m (Function.update seg (m + 1) none) (Function.update_self ..) k
  show (List.range' 1 (m + 1 - 1)).reverse.foldl renameUp (Function.update seg (m + 1) none) k = _
  rw [Nat.add_sub_cancel, hloop]
  by_cases hlow : 2 ≤ k ∧ k ≤ m + 1
  · rw [if_pos hlow, if_pos hlow, Function.update_of_ne (by omega)]
  · rw [if_neg hlow, if_neg hlow]
    by_cases hone : k = 1
    · rw [if_pos hone, if_pos hone]
    · rw [if_neg hone, if_neg hone]
      rw [Function.update_of_ne (by omega)]

/-- What the log holds goes to segment 1, and the others move up. -/
theorem rotateFiles_segment (h : wal.Holds disk bytes) (k : Nat) :
    (wal.rotateFiles disk).2.segment k
      = if k = 1 then some bytes
        else if k ≤ segmentsToKeep wal.backupCount ∧ k ≠ 0 then disk.segment (k - 1)
        else disk.segment k := by
  obtain ⟨hend, rfl⟩ := h
  have hkeep : 1 ≤ segmentsToKeep wal.backupCount := le_max_right _ _
  show Function.update (ageSegments (segmentsToKeep wal.backupCount) disk.segment) 1
    (some (wal.writer.flush (disk.active.getD [])).2) k = _
  rw [Writer.flush_contents hend]
  by_cases hone : k = 1
  · rw [hone, Function.update_self, if_pos rfl]
  · rw [Function.update_of_ne hone, if_neg hone, ageSegments_apply hkeep]
    by_cases hlow : 2 ≤ k ∧ k ≤ segmentsToKeep wal.backupCount
    · rw [if_pos hlow, if_pos ⟨hlow.2, by omega⟩]
    · rw [if_neg hlow, if_neg hone, if_neg (by omega)]

theorem rotate_disk : (wal.rotate disk).2 = (wal.rotateFiles disk).2 := rfl

theorem rotate_syncPolicy : (wal.rotate disk).1.syncPolicy = wal.syncPolicy := rfl

theorem rotate_flushed : (wal.rotate disk).1.writer.buf = [] := rfl

/-- After rotation the log holds nothing. -/
theorem rotate_holds : (wal.rotate disk).1.Holds (wal.rotate disk).2 [] := ⟨Or.inr rfl, rfl⟩

section Append

variable [Codec] (timestamp : UInt64) (c : Command)

/-- An append that does not rotate is the logging of its entry. -/
theorem appendCommand_of_kept (hrot : (wal.logCommand disk timestamp c).1.shouldRotate = false) :
    wal.appendCommand disk timestamp c = wal.logCommand disk timestamp c := by
  unfold appendCommand
  dsimp only
  rw [if_neg (by rw [hrot]; exact Bool.false_ne_true)]

/-- An append that rotates does so behind its entry. -/
theorem appendCommand_of_rotated (hrot : (wal.logCommand disk timestamp c).1.shouldRotate = true) :
    wal.appendCommand disk timestamp c
      = (wal.logCommand disk timestamp c).1.rotate (wal.logCommand disk timestamp c).2 := by
  unfold appendCommand
  dsimp only
  rw [if_pos hrot]

/-- What holds behind the entry and is kept by rotating holds behind an append. -/
theorem appendCommand_keeps (P : WriteAheadLog × Disk → Prop) (hlog : P (wal.logCommand disk timestamp c))
    (hrotate : ∀ r, P r → P (r.1.rotate r.2)) : P (wal.appendCommand disk timestamp c) := by
  cases hrot : (wal.logCommand disk timestamp c).1.shouldRotate with
  | false =>
      rw [appendCommand_of_kept timestamp c hrot]
      exact hlog
  | true =>
      rw [appendCommand_of_rotated timestamp c hrot]
      exact hrotate _ hlog

theorem appendCommand_backupCount (wal : WriteAheadLog) (disk : Disk) :
    (wal.appendCommand disk timestamp c).1.backupCount = wal.backupCount :=
  appendCommand_keeps timestamp c (fun r => r.1.backupCount = wal.backupCount)
    (logCommand_backupCount timestamp c wal disk) fun _ h => h

theorem appendCommand_snapshot (wal : WriteAheadLog) (disk : Disk) :
    (wal.appendCommand disk timestamp c).2.snapshot = disk.snapshot :=
  appendCommand_keeps timestamp c (fun r => r.2.snapshot = disk.snapshot)
    (logCommand_snapshot timestamp c wal disk) fun _ h => h

end Append

/-! ## Truncating -/

/-- With nothing buffered, truncation leaves an empty active file and nothing else changed. -/
theorem truncateAfterSnapshot_disk (disk : Disk) (h : wal.writer.buf = []) :
    (wal.truncateAfterSnapshot disk).2 = { disk with active := some [] } := by
  show ({ disk with active := some ((wal.writer.emit wal.writer.buf []).2) } : Disk) = _
  rw [h, Writer.emit_nil]

theorem truncateAfterSnapshot_holds (disk : Disk) (h : wal.writer.buf = []) :
    (wal.truncateAfterSnapshot disk).1.Holds (wal.truncateAfterSnapshot disk).2 [] := by
  rw [truncateAfterSnapshot_disk disk h]
  exact ⟨Or.inr rfl, rfl⟩

/-! ## Segments made -/

variable {made : List Bytes} {act : Bytes}

/-- The segments made since some moment, newest first, are on disk as far as they are kept, and the log holds
    `act`. Nothing is said of older segments. -/
structure Tracks (wal : WriteAheadLog) (disk : Disk) (made : List Bytes) (act : Bytes) : Prop where
  holds : wal.Holds disk act
  exist : disk.active.isSome = true
  segment : ∀ j seg, made[j]? = some seg → j < segmentsToKeep wal.backupCount →
    disk.segment (j + 1) = some seg

theorem tracks_new {config : PersistenceConfig} {found : Disk}
    (h : WriteAheadLog.new config found = (.ok wal, disk)) : wal.Tracks disk [] (found.active.getD []) := by
  unfold WriteAheadLog.new at h
  dsimp only at h
  split at h
  · cases h
  · cases h
    refine ⟨⟨Or.inl rfl, ?_⟩, rfl, fun j seg hj => by cases hj⟩
    exact List.append_nil _

/-- A log just opened has nothing buffered, and counts no more than it found. -/
theorem new_counts {config : PersistenceConfig} {found : Disk}
    (h : WriteAheadLog.new config found = (.ok wal, disk)) :
    wal.writer.buf = [] ∧ wal.currentSize.toNat ≤ (found.active.getD []).length := by
  unfold WriteAheadLog.new at h
  dsimp only at h
  split at h
  · cases h
  · cases h
    refine ⟨rfl, ?_⟩
    show (UInt64.ofNat (found.active.getD []).length).toNat ≤ _
    rw [UInt64.toNat_ofNat']
    exact Nat.mod_le _ _

theorem Tracks.writeEntry (h : wal.Tracks disk made act) (b : Bytes) :
    (wal.writeEntry disk b).1.Tracks (wal.writeEntry disk b).2 made (act ++ b) := by
  refine ⟨writeEntry_holds h.holds b, writeEntry_active b, ?_⟩
  rw [writeEntry_segment, (writeEntry_settings b).2]
  exact h.segment

/-- What the log holds becomes the newest segment. -/
theorem Tracks.rotateFiles (h : wal.Tracks disk made act) :
    (wal.rotateFiles disk).1.Tracks (wal.rotateFiles disk).2 (act :: made) [] := by
  refine ⟨⟨Or.inr rfl, rfl⟩, rfl, ?_⟩
  intro j seg hj hlt
  rw [rotateFiles_segment h.holds]
  cases j with
  | zero => exact hj
  | succ j =>
      rw [if_neg (by omega), if_pos ⟨hlt, by omega⟩]
      exact h.segment j seg hj (Nat.lt_of_succ_lt hlt)

/-- After `sync` the active file has everything. -/
theorem Tracks.sync (h : wal.Tracks disk made act) :
    (wal.sync disk).1.Tracks (wal.sync disk).2 made act ∧ (wal.sync disk).2.active = some act := by
  obtain ⟨⟨hend, rfl⟩, -, hseg⟩ := h
  refine ⟨⟨⟨Writer.flush_atEnd hend, ?_⟩, rfl, hseg⟩, congrArg some (Writer.flush_contents hend)⟩
  exact (List.append_nil _).trans (Writer.flush_contents hend)

theorem Tracks.truncated (h : wal.Tracks disk made act) (hbuf : wal.writer.buf = []) :
    (wal.truncateAfterSnapshot disk).1.Tracks (wal.truncateAfterSnapshot disk).2 made [] := by
  refine ⟨truncateAfterSnapshot_holds disk hbuf, rfl, ?_⟩
  rw [truncateAfterSnapshot_disk disk hbuf]
  exact h.segment

theorem Tracks.append [Codec] (h : wal.Tracks disk made act) (timestamp : UInt64) (c : Command) :
    (wal.appendCommand disk timestamp c).1.Tracks (wal.appendCommand disk timestamp c).2
      (if (wal.logCommand disk timestamp c).1.shouldRotate then
        (act ++ (WALEntry.mk wal.sequence timestamp c).serialize) :: made else made)
      (if (wal.logCommand disk timestamp c).1.shouldRotate then []
        else act ++ (WALEntry.mk wal.sequence timestamp c).serialize) := by
  have hlog : (wal.logCommand disk timestamp c).1.Tracks (wal.logCommand disk timestamp c).2 made
      (act ++ (WALEntry.mk wal.sequence timestamp c).serialize) := by
    refine ⟨logCommand_holds timestamp c h.holds, logCommand_active timestamp c wal disk, ?_⟩
    rw [logCommand_segment, logCommand_backupCount]
    exact h.segment
  unfold appendCommand
  generalize wal.logCommand disk timestamp c = r at hlog ⊢
  dsimp only
  split
  · have hrotated := hlog.rotateFiles
    exact ⟨rotate_holds, hrotated.exist, hrotated.segment⟩
  · exact hlog

/-- A segment among those kept is read by replay. -/
theorem Tracks.mem_files (h : wal.Tracks disk made act) {j : Nat} {seg : Bytes} (hj : made[j]? = some seg)
    (hlt : j < segmentsToKeep wal.backupCount) : seg ∈ wal.filesInReplayOrder disk := by
  apply List.mem_append_left
  apply List.reduceOption_mem_iff.mpr
  apply List.mem_map.mpr
  refine ⟨j + 1, ?_, h.segment j seg hj hlt⟩
  rw [List.mem_reverse, List.mem_range'_1]
  omega

end WriteAheadLog

/-! ## Reading the files back -/

section Reading

variable [Codec]

/-- Files of whole entries are replayed one after the other. -/
theorem replayFiles_entries (chunks : List (List WALEntry))
    (h : ∀ es ∈ chunks, ∀ e ∈ es, Encodes e.command) :
    WriteAheadLog.replayFiles (chunks.map fun es => es.flatMap WALEntry.serialize)
      = (chunks.flatten, .ok chunks.flatten.length) := by
  induction chunks with
  | nil => rfl
  | cons es chunks ih =>
      rw [List.map_cons, WriteAheadLog.replayFiles, replayFile_entries es (h es (List.mem_cons_self ..))]
      simp only [ih fun es' hes' => h es' (List.mem_cons_of_mem _ hes')]
      rw [List.flatten_cons, List.length_append]
      rfl

/-- Files of whole entries are scanned for their sequence numbers. -/
theorem lastSequenceFiles_entries (chunks : List (List WALEntry)) (acc : UInt64 × Bool)
    (h : ∀ es ∈ chunks, ∀ e ∈ es, Encodes e.command) :
    WriteAheadLog.lastSequenceFiles acc (chunks.map fun es => es.flatMap WALEntry.serialize)
      = .ok (noteSequences acc chunks.flatten) := by
  induction chunks generalizing acc with
  | nil => rfl
  | cons es chunks ih =>
      have hscan := lastSequenceLoop_append es acc [] fun e he => (h es (List.mem_cons_self ..) e he).size_lt
      rw [List.append_nil] at hscan
      rw [List.map_cons, WriteAheadLog.lastSequenceFiles, hscan, lastSequenceLoop_short _ (by decide)]
      simp only [ih _ fun es' hes' => h es' (List.mem_cons_of_mem _ hes')]
      rw [List.flatten_cons]
      unfold noteSequences
      rw [List.foldl_append]

end Reading

end FerricCache
