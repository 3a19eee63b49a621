import FerricCache.Persistence.Journal

/-!
# `FerricCache.Persistence.Truncation` — buffered entries and `truncate_after_snapshot`

`truncate_after_snapshot` truncates the active file through a new handle and only then replaces the
writer; the old writer is dropped, and dropping a `BufWriter` writes what it still buffers through the old
handle. So the truncated file comes out empty exactly when nothing was buffered (`cleanTruncation_iff`).
-/

namespace FerricCache

open Lib Lib.Run

/-- A log and its files; `current` records the entries appended since the active file was last emptied. -/
structure OpenLog where
  wal : WriteAheadLog
  disk : Disk
  current : List WALEntry

/-- The operations on an open log. -/
inductive LogOp
  | append (timestamp : UInt64) (c : Command)
  | sync
  | rotate
  | truncate

namespace OpenLog

/-- A log opened in an empty directory. -/
def start (config : PersistenceConfig) : OpenLog :=
  ⟨(Journal.start config).wal, (Journal.start config).disk, []⟩

/-- `truncate_after_snapshot`, with the old writer dropped. -/
def truncate (x : OpenLog) : OpenLog where
  wal := (x.wal.truncateAfterSnapshot x.disk).1
  disk := (x.wal.truncateAfterSnapshot x.disk).2
  current := []

section Step

variable [Codec]

/-- One operation. -/
def step (x : OpenLog) : LogOp → Option OpenLog
  | .append timestamp c =>
      let r := x.wal.appendCommand x.disk timestamp c
      some
        { wal := r.1
          disk := r.2
          current :=
            if (x.wal.logCommand x.disk timestamp c).1.shouldRotate then []
            else x.current ++ [⟨x.wal.sequence, timestamp, c⟩] }
  | .sync => some { x with wal := (x.wal.sync x.disk).1, disk := (x.wal.sync x.disk).2 }
  | .rotate => some ⟨(x.wal.rotate x.disk).1, (x.wal.rotate x.disk).2, []⟩
  | .truncate => some x.truncate

/-- The operations of a run after a truncation: anything but another one, with commands the codec
    carries. -/
def Later : LogOp → Prop
  | .append _ c => Encodes c
  | .sync => True
  | .rotate => True
  | .truncate => False

/-- Truncating here leaves an empty file, and after any later operations and a sync the file decodes to
    exactly the later entries that are still in it. -/
def CleanTruncation (x : OpenLog) : Prop :=
  x.truncate.disk.active = some [] ∧
    ∀ ops, (∀ op ∈ ops, Later op) → ∃ y, run step x.truncate (ops ++ [LogOp.sync]) = some y ∧
      y.disk.active = some (y.current.flatMap WALEntry.serialize) ∧
      replayFile (y.disk.active.getD []) = (y.current, .ok y.current.length)

/-- The active file and the buffer hold the entries since the file was last emptied. -/
structure Current (x : OpenLog) : Prop where
  holds : x.wal.Holds x.disk (x.current.flatMap WALEntry.serialize)
  exist : x.disk.active.isSome = true
  encodes : ∀ e ∈ x.current, Encodes e.command

end Step

variable [Codec] {x : OpenLog}

theorem current_append (h : x.Current) (timestamp : UInt64) {c : Command} (hc : Encodes c) :
    ∃ x', x.step (.append timestamp c) = some x' ∧ x'.Current := by
  refine ⟨_, rfl, ?_⟩
  have hholds := WriteAheadLog.logCommand_holds timestamp c h.holds
  have hexist := WriteAheadLog.logCommand_active timestamp c x.wal x.disk
  unfold WriteAheadLog.appendCommand
  generalize x.wal.logCommand x.disk timestamp c = r at hholds hexist ⊢
  dsimp only
  cases hrot : r.1.shouldRotate with
  | true =>
      simp only [if_true]
      refine ⟨WriteAheadLog.rotate_holds, rfl, ?_⟩
      simp
  | false =>
      simp only [Bool.false_eq_true, if_false]
      refine ⟨?_, hexist, ?_⟩
      · rw [List.flatMap_append, List.flatMap_singleton]
        exact hholds
      · intro e he
        rcases List.mem_append.mp he with he' | he'
        · exact h.encodes e he'
        · obtain rfl := List.mem_singleton.mp he'
          exact hc

theorem sync_holds (h : x.Current) :
    (x.wal.sync x.disk).1.Holds (x.wal.sync x.disk).2 (x.current.flatMap WALEntry.serialize) := by
  obtain ⟨hend, hbytes⟩ := h.holds
  rw [← hbytes]
  refine ⟨Writer.flush_atEnd hend, ?_⟩
  exact (List.append_nil _).trans (Writer.flush_contents hend)

/-- Every later operation keeps track of what the file holds. -/
theorem current_step (h : x.Current) (op : LogOp) (hop : Later op) :
    ∃ x', x.step op = some x' ∧ x'.Current := by
  cases op with
  | append timestamp c => exact current_append h timestamp hop
  | sync => exact ⟨_, rfl, sync_holds h, rfl, h.encodes⟩
  | rotate => exact ⟨_, rfl, WriteAheadLog.rotate_holds, rfl, by simp⟩
  | truncate => exact hop.elim

omit [Codec] in
/-- What the old writer buffers ends up in the file it no longer writes to. -/
theorem truncate_active (x : OpenLog) :
    x.truncate.disk.active = some (x.wal.writer.emit x.wal.writer.buf []).2 := rfl

omit [Codec] in
theorem emit_ne_nil (w : Writer) {b : Bytes} (h : b ≠ []) : (w.emit b []).2 ≠ [] := by
  unfold Writer.emit
  rw [if_neg (by simpa using h)]
  split
  · exact h
  · show Writer.writeAt w.pos [] b ≠ []
    unfold Writer.writeAt
    simp [h]

/-- **When a truncation is clean.** Exactly when nothing is buffered. -/
theorem cleanTruncation_iff (x : OpenLog) : x.CleanTruncation ↔ x.wal.writer.buf = [] := by
  constructor
  · rintro ⟨hempty, -⟩
    by_contra hbuf
    rw [truncate_active, Option.some.injEq] at hempty
    exact emit_ne_nil x.wal.writer hbuf hempty
  · intro hbuf
    have hactive : x.truncate.disk.active = some [] := by rw [truncate_active, hbuf, Writer.emit_nil]
    have hstart : x.truncate.Current := by
      refine ⟨WriteAheadLog.truncateAfterSnapshot_holds x.disk hbuf, rfl, ?_⟩
      intro e he
      cases he
    refine ⟨hactive, ?_⟩
    intro ops hops
    obtain ⟨y, hy, hcurrent⟩ := run_exists (fun z op hz hop => current_step hz op hop) ops _ hops hstart
    have hsync := sync_holds hcurrent
    have hbytes : (y.wal.sync y.disk).2.active = some (y.current.flatMap WALEntry.serialize) := by
      have heq := hsync.bytes_eq
      rw [WriteAheadLog.sync_flushed, List.append_nil] at heq
      exact congrArg some heq
    refine ⟨{ y with wal := (y.wal.sync y.disk).1, disk := (y.wal.sync y.disk).2 }, ?_, hbytes, ?_⟩
    · exact run_append.mpr ⟨y, hy, rfl⟩
    · show replayFile ((y.wal.sync y.disk).2.active.getD []) = _
      rw [hbytes]
      exact replayFile_entries y.current hcurrent.encodes

omit [Codec] in
/-- Under `EverySecond` an entry is still buffered when the log is truncated, and reappears in the file. -/
theorem truncation_keeps_buffered_entry :
    let _ := incrCodec
    ∃ x, run step (start ⟨.everySecond, 1000, 1⟩) [.append 1700000000000 (.incr (utf8 "k"))] = some x ∧
      x.truncate.disk.active
        = some (WALEntry.mk 0 1700000000000 (.incr (utf8 "k"))).serialize ∧
      ¬ x.CleanTruncation := by
  intro _
  refine ⟨_, rfl, by decide +kernel, ?_⟩
  rintro ⟨hempty, -⟩
  exact absurd hempty (by decide)

end OpenLog

end FerricCache
