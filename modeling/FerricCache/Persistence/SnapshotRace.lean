import FerricCache.Persistence.Journal
import FerricCache.Persistence.Snapshot

/-!
# `FerricCache.Persistence.SnapshotRace` — `save_snapshot` while clients write

A write is logged first and applied later; `save_snapshot` copies the shards one after the other, writes the
file and truncates the log, with no barrier against writers. A write that is logged when its shard is copied
and not applied yet is in neither: the copy misses it, and the truncation drops its entry. So is one that is
logged between the copy of its shard and the truncation. Without such writes (`Undisturbed`) every logged
write is in the copy of each shard it touches or in the log (`snapshot_loses_nothing`).
-/

namespace FerricCache

open Lib.Run

/-! ## The steps -/

/-- A write that was appended to the log: how many came before it, and its entry. -/
structure LoggedWrite where
  index : Nat
  entry : WALEntry

/-- One shard as `get_all_entries` copied it, and how many writes had been applied by then. -/
structure ShardCopy where
  contents : Shard
  after : Nat

/-- How far `save_snapshot` has come. -/
inductive SnapshotPhase
  | copying
  | saved
  | truncated
  deriving DecidableEq

/-- A client's write is two steps, `save_snapshot` is 64 copies, the file and the truncation. -/
inductive SnapshotEvent (n : Nat)
  | append (client : Fin n) (timestamp : UInt64) (c : Command)
  | apply (client : Fin n) (env : Env)
  | copy
  | save (save : SaveReadings)
  | truncate

/-- The server with `n` clients and one `save_snapshot`. The last four fields record the run: the storage it started
    from, the writes logged and the writes applied, and the segments made since the truncation (since the start,
    before it), newest first. -/
structure Snapshotting [KeyHash] (n : Nat) where
  storage : CacheStorage
  wal : WriteAheadLog
  disk : Disk
  pending : Fin n → Option LoggedWrite
  copies : List ShardCopy
  phase : SnapshotPhase
  base : CacheStorage
  appended : List LoggedWrite
  applied : List (Env × LoggedWrite)
  made : List Bytes

section Race

variable [KeyHash]

/-- The writes of a history, one after the other. -/
def performAll (history : List (Env × LoggedWrite)) (s : CacheStorage) : CacheStorage :=
  history.foldl (fun s p => effect p.1 p.2.entry.command s) s

/-- The command looks at or writes a key of the shard. -/
def touchesShard (c : Command) (i : Fin 64) : Bool :=
  match footprint c with
  | some keys => keys.any fun k => shardIndex k == i
  | none => true

namespace Snapshotting

variable {n : Nat}

/-- A server that has just opened its log. -/
def opened (n : Nat) (s : CacheStorage) (wal : WriteAheadLog) (disk : Disk) : Snapshotting n where
  storage := s
  wal := wal
  disk := disk
  pending _ := none
  copies := []
  phase := .copying
  base := s
  appended := []
  applied := []
  made := []

/-- What the active file and the buffer hold. -/
def current (x : Snapshotting n) : Bytes := x.disk.active.getD [] ++ x.wal.writer.buf

/-- The entries collected, shard by shard. -/
def entries (x : Snapshotting n) (env : Env) : List (Bytes × CacheValue) :=
  x.copies.flatMap fun copy => iterate (env.iterPos none) Prod.fst copy.contents.toList

section Step

variable [Codec] [RecordCodec]

omit [RecordCodec] in
/-- `append_command` of a client's write, rotation included. -/
def append (x : Snapshotting n) (client : Fin n) (timestamp : UInt64) (c : Command) : Snapshotting n :=
  let w : LoggedWrite := ⟨x.appended.length, ⟨x.wal.sequence, timestamp, c⟩⟩
  let r := x.wal.appendCommand x.disk timestamp c
  { x with
    wal := r.1
    disk := r.2
    pending := Function.update x.pending client (some w)
    appended := x.appended ++ [w]
    made :=
      if (x.wal.logCommand x.disk timestamp c).1.shouldRotate then
        (x.current ++ w.entry.serialize) :: x.made
      else x.made }

omit [Codec] [RecordCodec] in
/-- The dispatch of the write. -/
def apply (x : Snapshotting n) (client : Fin n) (env : Env) (w : LoggedWrite) : Snapshotting n :=
  { x with
    storage := effect env w.entry.command x.storage
    pending := Function.update x.pending client none
    applied := x.applied ++ [(env, w)] }

omit [Codec] [RecordCodec] in
/-- The next shard is read under its lock. -/
def copy (x : Snapshotting n) (i : Fin 64) : Snapshotting n :=
  { x with copies := x.copies ++ [⟨x.storage.shards i, x.applied.length⟩] }

/-- The records are written to a temporary file and renamed into place. -/
def save (x : Snapshotting n) (save : SaveReadings) : Snapshotting n :=
  { x with
    disk := { x.disk with
      snapshot := some (snapshotFile save.fileSecs (recordsOf save (x.entries save.toEnv))) }
    phase := .saved }

omit [Codec] [RecordCodec] in
/-- `truncate_after_snapshot`. -/
def truncate (x : Snapshotting n) : Snapshotting n :=
  { x with
    wal := (x.wal.truncateAfterSnapshot x.disk).1
    disk := (x.wal.truncateAfterSnapshot x.disk).2
    phase := .truncated
    made := [] }

/-- One event. -/
def step (x : Snapshotting n) : SnapshotEvent n → Option (Snapshotting n)
  | .append client timestamp c =>
      if x.pending client = none ∧ isWriteCommand c then some (x.append client timestamp c) else none
  | .apply client env => (x.pending client).map (x.apply client env)
  | .copy =>
      if h : x.phase = .copying ∧ x.copies.length < 64 then some (x.copy ⟨x.copies.length, h.2⟩) else none
  | .save readings => if x.phase = .copying ∧ x.copies.length = 64 then some (x.save readings) else none
  | .truncate => if x.phase = .saved then some x.truncate else none

end Step

/-! ## What may be lost -/

/-- The copy of the shard is the shard after a part of the history that has the write. -/
def Reflected (x : Snapshotting n) (w : LoggedWrite) (i : Fin 64) : Prop :=
  ∃ copy, x.copies[i.val]? = some copy ∧
    copy.contents = (performAll (x.applied.take copy.after) x.base).shards i ∧
    w ∈ (x.applied.take copy.after).map Prod.snd

section Lost

variable [Codec]

/-- The bytes of the entry are in a file that replay reads once the writer is flushed. -/
def Present (x : Snapshotting n) (w : LoggedWrite) : Prop :=
  ∃ file ∈ x.wal.filesInReplayOrder (x.wal.sync x.disk).2, w.entry.serialize <:+: file

/-- The file holds the copies, and every logged write is in the copy of each shard it touches, or in the
    log. -/
structure NothingLost [RecordCodec] (x : Snapshotting n) : Prop where
  file : ∃ save : SaveReadings,
    x.disk.snapshot = some (snapshotFile save.fileSecs (recordsOf save (x.entries save.toEnv)))
  kept : ∀ w ∈ x.appended,
    (∀ i, touchesShard w.entry.command i = true → x.Reflected w i) ∨ x.Present w

/-- A shard is copied while no write on it waits to be applied; until the truncation, nothing is logged on a
    shard that is copied; the truncation finds nothing buffered; and after it, at most `segments_to_keep`
    appends rotate.

    Not every run needs all of it: what is buffered at the truncation can be in the copies already. -/
def Undisturbed (x : Snapshotting n) : SnapshotEvent n → Prop
  | .append _ timestamp c =>
      if x.phase = .truncated then
        (x.wal.logCommand x.disk timestamp c).1.shouldRotate = true →
          x.made.length < segmentsToKeep x.wal.backupCount
      else ∀ i : Fin 64, touchesShard c i = true → x.copies.length ≤ i
  | .copy => ∀ client, ∀ i : Fin 64, i.val = x.copies.length →
      (x.pending client).any (fun w => touchesShard w.entry.command i) = false
  | .truncate => x.wal.writer.buf = []
  | _ => True

instance decidableUndisturbed (x : Snapshotting n) : ∀ e, Decidable (x.Undisturbed e)
  | .append _ timestamp c =>
      inferInstanceAs (Decidable (if x.phase = .truncated then
        (x.wal.logCommand x.disk timestamp c).1.shouldRotate = true → _ < _
        else ∀ i : Fin 64, touchesShard c i = true → _ ≤ _))
  | .copy => inferInstanceAs (Decidable (∀ _, ∀ i : Fin 64, i.val = _ → Option.any _ _ = false))
  | .truncate => inferInstanceAs (Decidable (x.wal.writer.buf = []))
  | .apply _ _ | .save _ => isTrue trivial

end Lost

/-! ## The invariant -/

/-- The write had been applied when the shard was copied. -/
def InCopy (x : Snapshotting n) (w : LoggedWrite) (i : Fin 64) : Prop :=
  ∃ copy, x.copies[i.val]? = some copy ∧ w ∈ (x.applied.take copy.after).map Prod.snd

section Invariant

variable [Codec] [RecordCodec]

structure Sound (x : Snapshotting n) : Prop where
  tracks : x.wal.Tracks x.disk x.made x.current
  storage : x.storage = performAll x.applied x.base
  copied : ∀ (i : Fin 64) copy, x.copies[i.val]? = some copy → copy.after ≤ x.applied.length ∧
    copy.contents = (performAll (x.applied.take copy.after) x.base).shards i
  accounted : ∀ w ∈ x.appended, (∃ client, x.pending client = some w) ∨ w ∈ x.applied.map Prod.snd
  complete : x.phase ≠ .copying → x.copies.length = 64
  file : x.phase ≠ .copying →
    ∃ save : SaveReadings,
      x.disk.snapshot = some (snapshotFile save.fileSecs (recordsOf save (x.entries save.toEnv)))
  -- before the truncation the copies made so far have every write
  early : x.phase ≠ .truncated → ∀ w ∈ x.appended, ∀ i : Fin 64, touchesShard w.entry.command i = true →
    i.val < x.copies.length → x.InCopy w i
  few : x.phase = .truncated → x.made.length ≤ segmentsToKeep x.wal.backupCount
  -- after it, a write they do not have is in what has been logged since
  late : x.phase = .truncated → ∀ w ∈ x.appended,
    (∀ i, touchesShard w.entry.command i = true → x.InCopy w i) ∨
      (∃ seg ∈ x.made, w.entry.serialize <:+: seg) ∨ w.entry.serialize <:+: x.current

variable {x : Snapshotting n}

theorem sound_opened {config : PersistenceConfig} {found : Disk} {wal : WriteAheadLog} {disk : Disk}
    (h : WriteAheadLog.new config found = (.ok wal, disk)) (s : CacheStorage) : (opened n s wal disk).Sound := by
  have htracks := WriteAheadLog.tracks_new h
  have hcurrent : (opened n s wal disk).current = found.active.getD [] := htracks.holds.bytes_eq
  exact
    { tracks := by
        rw [hcurrent]
        exact htracks
      storage := rfl
      copied := fun i copy hcopy => by cases hcopy
      accounted := fun w hw => by cases hw
      complete := fun hphase => absurd rfl hphase
      file := fun hphase => absurd rfl hphase
      early := fun _ w hw => by cases hw
      few := fun hphase => by cases hphase
      late := fun hphase => by cases hphase }

theorem sound_append {client : Fin n} {timestamp : UInt64} {c : Command} (h : x.Sound)
    (hfree : x.pending client = none) (hcalm : x.Undisturbed (.append client timestamp c)) :
    (x.append client timestamp c).Sound := by
  set w : LoggedWrite := ⟨x.appended.length, ⟨x.wal.sequence, timestamp, c⟩⟩ with hw
  set rotates := (x.wal.logCommand x.disk timestamp c).1.shouldRotate with hrot
  have htracks := h.tracks.append timestamp c
  have hcurrent : (x.append client timestamp c).current
      = if rotates then [] else x.current ++ w.entry.serialize := htracks.holds.bytes_eq
  have hmade : (x.append client timestamp c).made
      = if rotates then (x.current ++ w.entry.serialize) :: x.made else x.made := rfl
  -- whatever was in the log is there still, and so is the new entry
  have hlogged : ∀ b : Bytes, (∃ seg ∈ x.made, b <:+: seg) ∨ b <:+: x.current ++ w.entry.serialize →
      (∃ seg ∈ (x.append client timestamp c).made, b <:+: seg) ∨
        b <:+: (x.append client timestamp c).current := by
    intro b hb
    rw [hmade, hcurrent]
    cases rotates with
    | false => exact hb
    | true =>
        left
        rcases hb with ⟨seg, hseg, hin⟩ | hin
        · exact ⟨seg, List.mem_cons_of_mem _ hseg, hin⟩
        · exact ⟨_, List.mem_cons_self, hin⟩
  have hmem : ∀ v ∈ (x.append client timestamp c).appended, v ∈ x.appended ∨ v = w := by
    intro v hv
    exact (List.mem_append.mp hv).imp id List.mem_singleton.mp
  exact
    { tracks := by
        rw [hcurrent, hmade]
        exact htracks
      storage := h.storage
      copied := h.copied
      accounted := by
        intro v hv
        rcases hmem v hv with hv | rfl
        · refine (h.accounted v hv).imp ?_ id
          rintro ⟨client', hpend⟩
          refine ⟨client', ?_⟩
          have hne : client' ≠ client := by
            rintro rfl
            rw [hfree] at hpend
            cases hpend
          exact (Function.update_of_ne hne ..).trans hpend
        · exact Or.inl ⟨client, Function.update_self ..⟩
      complete := h.complete
      file := by
        intro hphase
        obtain ⟨env, hfile⟩ := h.file hphase
        exact ⟨env, (WriteAheadLog.appendCommand_snapshot ..).trans hfile⟩
      early := by
        intro hphase v hv i hi hlt
        rcases hmem v hv with hv | rfl
        · exact h.early hphase v hv i hi hlt
        · have hcopied : ∀ i : Fin 64, touchesShard c i = true → x.copies.length ≤ i := by
            simpa [Undisturbed, if_neg (show x.phase ≠ .truncated from hphase)] using hcalm
          exact absurd hlt (Nat.not_lt.mpr (hcopied i hi))
      few := by
        intro hphase
        have hroom : rotates = true → x.made.length < segmentsToKeep x.wal.backupCount := by
          simpa only [Undisturbed, if_pos (show x.phase = .truncated from hphase)] using hcalm
        rw [hmade, show (x.append client timestamp c).wal.backupCount = x.wal.backupCount from
          WriteAheadLog.appendCommand_backupCount ..]
        cases hr : rotates with
        | false => exact h.few hphase
        | true => exact hroom hr
      late := by
        intro hphase v hv
        rcases hmem v hv with hv | rfl
        · refine (h.late hphase v hv).imp id ?_
          intro hin
          refine hlogged _ (hin.imp id ?_)
          exact fun hin => hin.trans (List.prefix_append _ _).isInfix
        · exact Or.inr (hlogged _ (Or.inr (List.suffix_append _ _).isInfix)) }

theorem sound_apply {client : Fin n} {w : LoggedWrite} (h : x.Sound) (env : Env)
    (hpend : x.pending client = some w) : (x.apply client env w).Sound := by
  have htake : ∀ (i : Fin 64) copy, x.copies[i.val]? = some copy →
      (x.apply client env w).applied.take copy.after = x.applied.take copy.after :=
    fun i copy hcopy => List.take_append_of_le_length (h.copied i copy hcopy).1
  have hcopy : ∀ v i, x.InCopy v i → (x.apply client env w).InCopy v i := by
    rintro v i ⟨copy, hcopy, hv⟩
    refine ⟨copy, hcopy, ?_⟩
    rw [htake i copy hcopy]
    exact hv
  exact
    { tracks := h.tracks
      storage := by
        show effect env w.entry.command x.storage = performAll (x.applied ++ [(env, w)]) x.base
        rw [h.storage, performAll, performAll, List.foldl_append]
        rfl
      copied := by
        intro i copy hc
        obtain ⟨hle, hcontents⟩ := h.copied i copy hc
        refine ⟨hle.trans ?_, ?_⟩
        · show x.applied.length ≤ (x.applied ++ [(env, w)]).length
          rw [List.length_append]
          exact Nat.le_add_right _ _
        · rw [htake i copy hc]
          exact hcontents
      accounted := by
        intro v hv
        show _ ∨ v ∈ (x.applied ++ [(env, w)]).map Prod.snd
        rw [List.map_append, List.mem_append]
        rcases h.accounted v hv with ⟨client', hpend'⟩ | happlied
        · by_cases hc : client' = client
          · -- this write, applied now
            rw [hc, hpend] at hpend'
            cases hpend'
            exact Or.inr (Or.inr (List.mem_singleton_self _))
          · exact Or.inl ⟨client', (Function.update_of_ne hc ..).trans hpend'⟩
        · exact Or.inr (Or.inl happlied)
      complete := h.complete
      file := h.file
      early := fun hphase v hv i hi hlt => hcopy v i (h.early hphase v hv i hi hlt)
      few := h.few
      late := by
        intro hphase v hv
        exact (h.late hphase v hv).imp (fun hall i hi => hcopy v i (hall i hi)) id }

theorem sound_copy (h : x.Sound) (hphase : x.phase = .copying) (hlt : x.copies.length < 64)
    (hcalm : x.Undisturbed .copy) : (x.copy ⟨x.copies.length, hlt⟩).Sound := by
  set new : ShardCopy := ⟨x.storage.shards ⟨x.copies.length, hlt⟩, x.applied.length⟩ with hnew
  have hcases : ∀ (i : Fin 64) copy, (x.copies ++ [new])[i.val]? = some copy →
      x.copies[i.val]? = some copy ∨ i = ⟨x.copies.length, hlt⟩ ∧ copy = new := by
    intro i copy hc
    rcases Nat.lt_trichotomy i.val x.copies.length with hi | hi | hi
    · rw [List.getElem?_append_left hi] at hc
      exact Or.inl hc
    · rw [hi, List.getElem?_concat_length] at hc
      cases hc
      exact Or.inr ⟨Fin.ext hi, rfl⟩
    · rw [List.getElem?_eq_none (by rw [List.length_append]; exact hi)] at hc
      cases hc
  exact
    { tracks := h.tracks
      storage := h.storage
      copied := by
        intro i copy hc
        rcases hcases i copy hc with hold | ⟨rfl, rfl⟩
        · exact h.copied i copy hold
        · refine ⟨le_refl _, ?_⟩
          show x.storage.shards _ = (performAll (x.applied.take x.applied.length) x.base).shards _
          rw [List.take_length, ← h.storage]
      accounted := h.accounted
      complete := fun hcopying => absurd hphase hcopying
      file := fun hcopying => absurd hphase hcopying
      early := by
        intro htruncated v hv i hi hltcopies
        have hlt' : i.val < x.copies.length + 1 := by
          simpa [copy] using hltcopies
        rcases Nat.lt_succ_iff_lt_or_eq.mp hlt' with hold | heq
        · obtain ⟨copy, hc, hin⟩ := h.early htruncated v hv i hi hold
          exact ⟨copy, (List.getElem?_append_left hold).trans hc, hin⟩
        · -- a write that is still waiting touches another shard
          refine ⟨new, ?_, ?_⟩
          · rw [heq]
            exact List.getElem?_concat_length
          · show v ∈ (x.applied.take x.applied.length).map Prod.snd
            rw [List.take_length]
            rcases h.accounted v hv with ⟨client, hpend⟩ | happlied
            · have hfree := hcalm client i heq
              rw [hpend, Option.any_some, hi] at hfree
              cases hfree
            · exact happlied
      few := fun htruncated => by
        rw [show (x.copy _).phase = x.phase from rfl, hphase] at htruncated
        cases htruncated
      late := fun htruncated => by
        rw [show (x.copy _).phase = x.phase from rfl, hphase] at htruncated
        cases htruncated }

theorem sound_save (h : x.Sound) (hphase : x.phase = .copying) (hall : x.copies.length = 64)
    (readings : SaveReadings) : (x.save readings).Sound where
  tracks := ⟨⟨h.tracks.holds.atEnd, rfl⟩, h.tracks.exist, h.tracks.segment⟩
  storage := h.storage
  copied := h.copied
  accounted := h.accounted
  complete := fun _ => hall
  file := fun _ => ⟨readings, rfl⟩
  early := fun _ => h.early (by rw [hphase]; simp)
  few := fun htruncated => by cases htruncated
  late := fun htruncated => by cases htruncated

theorem sound_truncate (h : x.Sound) (hphase : x.phase = .saved) (hcalm : x.Undisturbed .truncate) :
    x.truncate.Sound := by
  have hbuf : x.wal.writer.buf = [] := hcalm
  have htracks := h.tracks.truncated hbuf
  have hcopying : x.phase ≠ .copying := by simp [hphase]
  have hall : x.copies.length = 64 := h.complete hcopying
  exact
    { tracks := by
        refine ⟨⟨htracks.holds.atEnd, rfl⟩, htracks.exist, ?_⟩
        exact fun j seg hj => by cases hj
      storage := h.storage
      copied := h.copied
      accounted := h.accounted
      complete := fun _ => hall
      file := by
        intro _
        obtain ⟨env, hfile⟩ := h.file hcopying
        refine ⟨env, ?_⟩
        show (x.wal.truncateAfterSnapshot x.disk).2.snapshot = _
        rw [WriteAheadLog.truncateAfterSnapshot_disk x.disk hbuf]
        exact hfile
      early := fun htruncated => absurd rfl htruncated
      few := fun _ => Nat.zero_le _
      late := by
        intro _ w hw
        left
        intro i hi
        apply h.early (by simp [hphase]) w hw i hi
        rw [hall]
        exact i.isLt }

/-- **Every undisturbed step keeps the invariant.** -/
theorem sound_step {e : SnapshotEvent n} {y : Snapshotting n} (h : x.Sound) (hcalm : x.Undisturbed e)
    (hstep : x.step e = some y) : y.Sound := by
  cases e with
  | append client timestamp c =>
      simp only [step, Option.ite_none_right_eq_some] at hstep
      obtain ⟨⟨hfree, -⟩, hy⟩ := hstep
      cases hy
      exact sound_append h hfree hcalm
  | apply client env =>
      obtain ⟨w, hpend, rfl⟩ := Option.map_eq_some_iff.mp hstep
      exact sound_apply h env hpend
  | copy =>
      simp only [step] at hstep
      split at hstep
      · cases hstep
        rename_i hcond
        exact sound_copy h hcond.1 hcond.2 hcalm
      · cases hstep
  | save env =>
      simp only [step, Option.ite_none_right_eq_some] at hstep
      obtain ⟨⟨hphase, hall⟩, hy⟩ := hstep
      cases hy
      exact sound_save h hphase hall env
  | truncate =>
      simp only [step, Option.ite_none_right_eq_some] at hstep
      obtain ⟨hphase, hy⟩ := hstep
      cases hy
      exact sound_truncate h hphase hcalm

/-! ## Whole runs -/

theorem Sound.present (h : x.Sound) (hphase : x.phase = .truncated) {w : LoggedWrite}
    (hw : (∃ seg ∈ x.made, w.entry.serialize <:+: seg) ∨ w.entry.serialize <:+: x.current) :
    x.Present w := by
  obtain ⟨hsync, hactive⟩ := h.tracks.sync
  rcases hw with ⟨seg, hseg, hin⟩ | hin
  · obtain ⟨j, hj⟩ := List.mem_iff_getElem?.mp hseg
    have hlt : j < segmentsToKeep x.wal.backupCount :=
      (List.getElem?_eq_some_iff.mp hj).1.trans_le (h.few hphase)
    exact ⟨seg, hsync.mem_files hj hlt, hin⟩
  · refine ⟨x.current, List.mem_append_right _ ?_, hin⟩
    rw [hactive]
    exact List.mem_singleton_self _

theorem Sound.nothingLost (h : x.Sound) (hphase : x.phase = .truncated) : x.NothingLost where
  file := h.file (by simp [hphase])
  kept := by
    intro w hw
    refine (h.late hphase w hw).imp ?_ (h.present hphase)
    intro hall i hi
    obtain ⟨copy, hcopy, hin⟩ := hall i hi
    exact ⟨copy, hcopy, (h.copied i copy hcopy).2, hin⟩

omit [KeyHash] [Codec] [RecordCodec] in
theorem shardsFrom_succ (n m : Nat) (h : n < 64) :
    ((List.finRange 64).drop n).take (m + 1)
      = ⟨n, h⟩ :: ((List.finRange 64).drop (n + 1)).take m := by
  rw [List.drop_eq_getElem_cons (by simpa using h), List.take_succ_cons, List.getElem_finRange]
  rfl

theorem run_copies (m : Nat) (x : Snapshotting n) (hphase : x.phase = .copying) (hm : x.copies.length + m ≤ 64) :
    run step x (List.replicate m .copy)
      = some { x with
          copies := x.copies ++ (((List.finRange 64).drop x.copies.length).take m).map fun i =>
            ⟨x.storage.shards i, x.applied.length⟩ } := by
  induction m generalizing x with
  | zero =>
      rw [List.take_zero, List.map_nil, List.append_nil]
      rfl
  | succ m ih =>
      have hlt : x.copies.length < 64 := by omega
      have hstep : x.step .copy = some (x.copy ⟨x.copies.length, hlt⟩) := by
        simp only [step]
        rw [dif_pos ⟨hphase, hlt⟩]
      have hlen : (x.copy ⟨x.copies.length, hlt⟩).copies.length = x.copies.length + 1 := by
        simp [copy]
      have hrest := ih (x.copy ⟨x.copies.length, hlt⟩) hphase (by omega)
      rw [hlen] at hrest
      refine run_cons.mpr ⟨_, hstep, hrest.trans ?_⟩
      rw [shardsFrom_succ _ m hlt, List.map_cons]
      simp only [copy, List.append_assoc, List.singleton_append]

/-- With nobody else about, the steps are `save_snapshot`. -/
theorem run_saveSnapshot (x : Snapshotting n) (hphase : x.phase = .copying) (hnone : x.copies = [])
    (save : SaveReadings) :
    ∃ y, run step x (List.replicate 64 SnapshotEvent.copy ++ [SnapshotEvent.save save, .truncate]) = some y ∧
      (y.wal, y.disk) = saveSnapshot save x.storage x.wal x.disk ∧ y.storage = x.storage := by
  have hcopies := run_copies 64 x hphase (by rw [hnone]; decide)
  rw [hnone, List.length_nil, List.drop_zero, List.nil_append] at hcopies
  have htake : (List.finRange 64).take 64 = List.finRange 64 := List.take_of_length_le (by simp)
  rw [htake] at hcopies
  set z : Snapshotting n := { x with
    copies := (List.finRange 64).map fun i => ⟨x.storage.shards i, x.applied.length⟩ } with hz
  have hall : z.copies.length = 64 := by simp [hz]
  have hsave : z.step (.save save) = some (z.save save) := if_pos ⟨hphase, hall⟩
  have htruncate : (z.save save).step .truncate = some (z.save save).truncate := rfl
  have hentries : z.entries save.toEnv = x.storage.getAllEntries save.toEnv := by
    unfold entries CacheStorage.getAllEntries
    rw [List.flatMap_map]
    rfl
  refine ⟨(z.save save).truncate, ?_, ?_, rfl⟩
  · exact run_append.mpr ⟨z, hcopies, run_cons.mpr ⟨_, hsave, run_cons.mpr ⟨_, htruncate, rfl⟩⟩⟩
  · unfold saveSnapshot saveSnapshotToPath createSnapshot
    rw [← hentries]
    rfl

end Invariant

end Snapshotting

end Race

/-! ## Two runs -/

namespace Snapshotting

/-- `INCR k` before the snapshot and after it. -/
def writesAround : List (SnapshotEvent 1) :=
  [SnapshotEvent.append 0 5 (.incr (utf8 "k")), .apply 0 (Env.clocked 0)] ++ List.replicate 64 SnapshotEvent.copy ++
    [SnapshotEvent.save (SaveReadings.ofEnv (Env.clocked 1)), .truncate, .append 0 6 (.incr (utf8 "k")),
      .apply 0 (Env.clocked 2)]

theorem undisturbed_writesAround :
    letI := shortKeys
    letI := incrCodec
    letI := stringCodec
    Along step Undisturbed (opened 1 CacheStorage.new (Journal.start ⟨.always, 1000, 1⟩).wal
      (Journal.start ⟨.always, 1000, 1⟩).disk) writesAround := by
  decide +kernel

/-- `INCR k` is logged, the whole snapshot runs, and only then the write is applied. -/
def appliedLate : List (SnapshotEvent 1) :=
  [SnapshotEvent.append 0 5 (.incr (utf8 "k"))] ++ List.replicate 64 SnapshotEvent.copy ++
    [SnapshotEvent.save (SaveReadings.ofEnv (Env.clocked 1)), .truncate, .apply 0 (Env.clocked 2)]

end Snapshotting

end FerricCache
