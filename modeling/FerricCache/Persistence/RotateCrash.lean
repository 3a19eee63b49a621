import FerricCache.Persistence.Journal

/-!
# `FerricCache.Persistence.RotateCrash` — a stop in the middle of `rotate`

`rotate` is a list of file-system steps: the oldest segment is removed, the others are renamed upwards one
by one, the active file is copied to segment 1 and then truncated. `crashed` is the directory when the
process stops after some of them. Removing and renaming leave the files in replay order; between the copy
and the truncation the same entries stand in two files, and replay delivers them twice
(`rotation_crash_iff`).
-/

namespace FerricCache

open Lib

/-- One file-system step of `rotate`. -/
inductive RotateStep
  | remove (n : Nat)
  | rename (n : Nat)
  | copy
  | truncate

/-- What a step does to the directory. -/
def RotateStep.run (disk : Disk) : RotateStep → Disk
  | .remove n => { disk with segment := Function.update disk.segment n none }
  | .rename n => { disk with segment := WriteAheadLog.renameUp disk.segment n }
  | .copy => { disk with segment := Function.update disk.segment 1 disk.active }
  | .truncate => { disk with active := some [] }

/-- The steps in the order `rotate` takes them. -/
def rotateSteps (keep : Nat) : List RotateStep :=
  (RotateStep.remove keep :: (List.range' 1 (keep - 1)).reverse.map .rename) ++ [RotateStep.copy, .truncate]

/-- The directory when the process stops after `i` steps; the buffer was flushed before the first. -/
def crashed (wal : WriteAheadLog) (disk : Disk) (i : Nat) : Disk :=
  ((rotateSteps (segmentsToKeep wal.backupCount)).take i).foldl RotateStep.run (wal.sync disk).2

theorem length_rotateSteps {keep : Nat} (h : 1 ≤ keep) : (rotateSteps keep).length = keep + 2 := by
  simp only [rotateSteps, List.length_append, List.length_cons, List.length_map, List.length_reverse,
    List.length_range', List.length_nil]
  omega

theorem foldl_rename (ns : List Nat) (disk : Disk) :
    (ns.map RotateStep.rename).foldl RotateStep.run disk
      = { disk with segment := ns.foldl WriteAheadLog.renameUp disk.segment } := by
  induction ns generalizing disk with
  | nil => rfl
  | cons n ns ih =>
      rw [List.map_cons, List.foldl_cons, ih]
      rfl

/-- All the steps together are what `rotate` does to the directory. -/
theorem foldl_rotateSteps (wal : WriteAheadLog) (disk : Disk) :
    (rotateSteps (segmentsToKeep wal.backupCount)).foldl RotateStep.run (wal.sync disk).2
      = (wal.rotate disk).2 := by
  rw [rotateSteps, List.foldl_append]
  show [RotateStep.copy, RotateStep.truncate].foldl RotateStep.run (List.foldl _ _ (List.map _ _)) = _
  rw [foldl_rename]
  rfl

/-! ## The order of the segments -/

/-- Renaming a segment into the free number above it leaves the order alone. -/
theorem reduceOption_renameUp {keep n : Nat} {seg : Nat → Option Bytes} (hn : 1 ≤ n) (hlt : n < keep)
    (hfree : seg (n + 1) = none) :
    ((List.range' 1 keep).map (WriteAheadLog.renameUp seg n)).reduceOption
      = ((List.range' 1 keep).map seg).reduceOption := by
  have hsplit : List.range' 1 keep
      = List.range' 1 (n - 1) ++ ([n, n + 1] ++ List.range' (n + 2) (keep - n - 1)) := by
    have htwo : [n, n + 1] = List.range' n 2 := rfl
    have hmid : n + 2 = n + 1 * 2 := by omega
    have hlow : List.range' n (2 + (keep - n - 1)) = List.range' (1 + 1 * (n - 1)) (2 + (keep - n - 1)) := by
      congr 1
      omega
    rw [htwo, hmid, List.range'_append, hlow, List.range'_append]
    congr 1
    omega
  have houter : ∀ (ks : List Nat), (∀ k ∈ ks, k ≠ n ∧ k ≠ n + 1) →
      ks.map (WriteAheadLog.renameUp seg n) = ks.map seg := by
    intro ks hks
    apply List.map_congr_left
    intro k hk
    rw [WriteAheadLog.renameUp_apply hfree, if_neg (hks k hk).2, if_neg (hks k hk).1]
  have hbelow := houter (List.range' 1 (n - 1)) (by
    intro k hk
    rw [List.mem_range'_1] at hk
    omega)
  have habove := houter (List.range' (n + 2) (keep - n - 1)) (by
    intro k hk
    rw [List.mem_range'_1] at hk
    omega)
  have hmoved : [n, n + 1].map (WriteAheadLog.renameUp seg n) = [none, seg n] := by
    rw [List.map_cons, List.map_singleton, WriteAheadLog.renameUp_apply hfree,
      WriteAheadLog.renameUp_apply hfree, if_neg (by omega), if_pos rfl, if_pos rfl]
  rw [hsplit, List.map_append, List.map_append, List.map_append, List.map_append, hbelow, habove, hmoved]
  simp only [List.reduceOption_append, List.map_cons, List.map_nil, hfree]
  cases seg n <;> rfl

/-- After the first `j` renames the order is that without the removed segment, and the number below the
    last one renamed is free. -/
theorem renames_order {keep : Nat} {seg : Nat → Option Bytes} (hfree : seg keep = none) (j : Nat)
    (hj : j < keep) :
    ((List.range' 1 keep).map
        (((List.range' 1 (keep - 1)).reverse.take j).foldl WriteAheadLog.renameUp seg)).reduceOption
      = ((List.range' 1 keep).map seg).reduceOption ∧
    ((List.range' 1 (keep - 1)).reverse.take j).foldl WriteAheadLog.renameUp seg (keep - j) = none := by
  induction j with
  | zero => exact ⟨rfl, hfree⟩
  | succ j ih =>
      obtain ⟨horder, hnone⟩ := ih (Nat.lt_of_succ_lt hj)
      have hnext : (List.range' 1 (keep - 1)).reverse[j]? = some (keep - (j + 1)) := by
        rw [List.getElem?_reverse (by simp; omega), List.getElem?_range' (by simp; omega),
          List.length_range']
        congr 1
        omega
      rw [List.take_add_one, hnext, Option.toList_some, List.foldl_append, List.foldl_cons, List.foldl_nil]
      have hup : keep - (j + 1) + 1 = keep - j := by omega
      rw [← hup] at hnone
      refine ⟨?_, ?_⟩
      · rw [reduceOption_renameUp (by omega) (by omega) hnone]
        exact horder
      · rw [WriteAheadLog.renameUp_apply hnone, if_neg (by omega), if_pos rfl]

/-! ## The files left behind -/

section Files

variable (wal : WriteAheadLog) (disk : Disk)

/-- What the active file holds when the first step is taken. -/
def flushedActive : Bytes := (wal.writer.flush (disk.active.getD [])).2

/-- The kept segments but the oldest, in replay order. -/
def youngerSegments : List Bytes := segmentsInReplayOrder (segmentsToKeep wal.backupCount - 1) disk

theorem one_le_segmentsToKeep (backupCount : UInt32) : 1 ≤ segmentsToKeep backupCount :=
  le_max_right _ _

theorem filesInReplayOrder_before :
    wal.filesInReplayOrder (wal.sync disk).2
      = (disk.segment (segmentsToKeep wal.backupCount)).toList ++ youngerSegments wal disk
        ++ [flushedActive wal disk] := by
  have hkeep := one_le_segmentsToKeep wal.backupCount
  unfold WriteAheadLog.filesInReplayOrder youngerSegments segmentsInReplayOrder
  generalize segmentsToKeep wal.backupCount = keep at hkeep ⊢
  obtain ⟨m, rfl⟩ : ∃ m, keep = m + 1 := ⟨keep - 1, by omega⟩
  rw [Nat.add_sub_cancel, List.range'_concat, List.reverse_append, List.reverse_singleton,
    List.singleton_append, List.map_cons, Nat.one_mul, Nat.add_comm 1 m]
  show (disk.segment (m + 1) :: _).reduceOption ++ [flushedActive wal disk] = _
  cases disk.segment (m + 1) <;> rfl

/-- The directory after the removal and `j` renames. -/
theorem crashed_renaming {j : Nat} (hj : j < segmentsToKeep wal.backupCount) :
    crashed wal disk (j + 1)
      = { (wal.sync disk).2 with
          segment := ((List.range' 1 (segmentsToKeep wal.backupCount - 1)).reverse.take j).foldl
            WriteAheadLog.renameUp
            (Function.update disk.segment (segmentsToKeep wal.backupCount) none) } := by
  unfold crashed rotateSteps
  rw [List.take_append_of_le_length (by simp; omega), List.take_succ_cons, ← List.map_take,
    List.foldl_cons, foldl_rename]
  rfl

/-- Without the oldest segment the others are read as before. -/
theorem reduceOption_removed (keep : Nat) (hkeep : 1 ≤ keep) (seg : Nat → Option Bytes) :
    ((List.range' 1 keep).map (Function.update seg keep none)).reduceOption
      = ((List.range' 1 (keep - 1)).map seg).reduceOption := by
  obtain ⟨m, rfl⟩ : ∃ m, keep = m + 1 := ⟨keep - 1, by omega⟩
  rw [Nat.add_sub_cancel, List.range'_concat, List.map_append, List.map_singleton,
    List.reduceOption_append, Nat.one_mul, Nat.add_comm 1 m, Function.update_self]
  have hsame : (List.range' 1 m).map (Function.update seg (m + 1) none) = (List.range' 1 m).map seg := by
    apply List.map_congr_left
    intro k hk
    rw [List.mem_range'_1] at hk
    rw [Function.update_of_ne (by omega)]
  rw [hsame]
  exact List.append_nil _

/-- Between the removal and the copy replay reads the younger segments and the active file. -/
theorem filesInReplayOrder_renaming {j : Nat} (hj : j < segmentsToKeep wal.backupCount) :
    wal.filesInReplayOrder (crashed wal disk (j + 1))
      = youngerSegments wal disk ++ [flushedActive wal disk] := by
  have horder := (renames_order (Function.update_self (segmentsToKeep wal.backupCount) none disk.segment)
    j hj).1
  rw [reduceOption_removed _ (one_le_segmentsToKeep _)] at horder
  rw [crashed_renaming wal disk hj]
  unfold WriteAheadLog.filesInReplayOrder youngerSegments segmentsInReplayOrder
  rw [List.map_reverse, List.map_reverse]
  have hrev := congrArg List.reverse horder
  congr 1
  unfold List.reduceOption at hrev ⊢
  rw [List.filterMap_reverse, List.filterMap_reverse]
  exact hrev

/-- One more step before the stop. -/
theorem crashed_succ {i : Nat} {step : RotateStep}
    (h : (rotateSteps (segmentsToKeep wal.backupCount))[i]? = some step) :
    crashed wal disk (i + 1) = step.run (crashed wal disk i) := by
  unfold crashed
  rw [List.take_add_one, h, List.foldl_append]
  rfl

/-- The last two steps. -/
theorem getElem?_rotateSteps {keep : Nat} (hkeep : 1 ≤ keep) :
    (rotateSteps keep)[keep]? = some .copy ∧ (rotateSteps keep)[keep + 1]? = some .truncate := by
  have hlen : (RotateStep.remove keep ::
      (List.range' 1 (keep - 1)).reverse.map RotateStep.rename).length = keep := by
    simp only [List.length_cons, List.length_map, List.length_reverse, List.length_range']
    omega
  unfold rotateSteps
  rw [List.getElem?_append_right (by omega), List.getElem?_append_right (by omega), hlen, Nat.sub_self,
    Nat.add_sub_cancel_left]
  exact ⟨rfl, rfl⟩

/-- The copy goes to a free number below all segments, so it is read last among them. -/
theorem reduceOption_copied {keep : Nat} (hkeep : 1 ≤ keep) {seg : Nat → Option Bytes} (hfree : seg 1 = none)
    (contents : Bytes) :
    ((List.range' 1 keep).map (Function.update seg 1 (some contents))).reduceOption
      = contents :: ((List.range' 1 keep).map seg).reduceOption := by
  obtain ⟨m, rfl⟩ : ∃ m, keep = m + 1 := ⟨keep - 1, by omega⟩
  rw [List.range'_succ, List.map_cons, List.map_cons, Function.update_self, hfree]
  have hsame : (List.range' (1 + 1) m).map (Function.update seg 1 (some contents))
      = (List.range' (1 + 1) m).map seg := by
    apply List.map_congr_left
    intro k hk
    rw [List.mem_range'_1] at hk
    rw [Function.update_of_ne (by omega)]
  rw [hsame]
  rfl

/-- With the copy made, the active file's contents stand in two files. -/
theorem segments_copied :
    segmentsInReplayOrder (segmentsToKeep wal.backupCount)
        (crashed wal disk (segmentsToKeep wal.backupCount + 1))
      = youngerSegments wal disk ++ [flushedActive wal disk] ∧
    (crashed wal disk (segmentsToKeep wal.backupCount + 1)).active = some (flushedActive wal disk) := by
  have hkeep := one_le_segmentsToKeep wal.backupCount
  have hsucc : segmentsToKeep wal.backupCount - 1 + 1 = segmentsToKeep wal.backupCount := by omega
  have hone : segmentsToKeep wal.backupCount - (segmentsToKeep wal.backupCount - 1) = 1 := by omega
  obtain ⟨horder, hfree⟩ := renames_order
    (Function.update_self (segmentsToKeep wal.backupCount) none disk.segment)
    (segmentsToKeep wal.backupCount - 1) (by omega)
  rw [reduceOption_removed _ hkeep] at horder
  rw [hone] at hfree
  have hrenamed := crashed_renaming wal disk (show segmentsToKeep wal.backupCount - 1 < _ by omega)
  rw [hsucc] at hrenamed
  rw [crashed_succ wal disk (getElem?_rotateSteps hkeep).1, hrenamed]
  generalize List.foldl WriteAheadLog.renameUp _ _ = seg at horder hfree ⊢
  refine ⟨?_, rfl⟩
  have hcopy := reduceOption_copied hkeep hfree (flushedActive wal disk)
  rw [horder] at hcopy
  unfold youngerSegments segmentsInReplayOrder
  show ((List.range' 1 _).reverse.map (Function.update seg 1 (some (flushedActive wal disk)))).reduceOption
    = _
  rw [List.map_reverse, List.map_reverse]
  unfold List.reduceOption at hcopy ⊢
  rw [List.filterMap_reverse, List.filterMap_reverse, hcopy, List.reverse_cons]

theorem filesInReplayOrder_copied :
    wal.filesInReplayOrder (crashed wal disk (segmentsToKeep wal.backupCount + 1))
      = youngerSegments wal disk ++ [flushedActive wal disk] ++ [flushedActive wal disk] := by
  obtain ⟨hsegments, hactive⟩ := segments_copied wal disk
  unfold WriteAheadLog.filesInReplayOrder
  rw [hsegments, hactive]
  rfl

/-- After the last step the active file is empty. -/
theorem filesInReplayOrder_after {i : Nat} (hi : segmentsToKeep wal.backupCount + 2 ≤ i) :
    wal.filesInReplayOrder (crashed wal disk i)
      = youngerSegments wal disk ++ [flushedActive wal disk] ++ [[]] := by
  have hkeep := one_le_segmentsToKeep wal.backupCount
  have hlen := length_rotateSteps hkeep
  have hall : crashed wal disk i = crashed wal disk (segmentsToKeep wal.backupCount + 1 + 1) := by
    unfold crashed
    rw [List.take_of_length_le (by omega), List.take_of_length_le (by omega)]
  rw [hall, crashed_succ wal disk (getElem?_rotateSteps hkeep).2]
  unfold WriteAheadLog.filesInReplayOrder
  rw [← (segments_copied wal disk).1]
  rfl

end Files

/-! ## What replay delivers -/

section Replay

variable [Codec]

/-- Replaying more files adds what they hold. -/
theorem replayFiles_append_ok {fs : List Bytes} {es : List WALEntry} {n : Nat}
    (h : WriteAheadLog.replayFiles fs = (es, .ok n)) (gs : List Bytes) :
    WriteAheadLog.replayFiles (fs ++ gs)
      = (es ++ (WriteAheadLog.replayFiles gs).1, (WriteAheadLog.replayFiles gs).2.map (n + ·)) := by
  induction fs generalizing es n with
  | nil =>
      cases h
      rw [List.nil_append, List.nil_append]
      cases WriteAheadLog.replayFiles gs with
      | mk es' res => cases res <;> simp [Except.map]
  | cons f fs ih =>
      rw [WriteAheadLog.replayFiles] at h
      rw [List.cons_append, WriteAheadLog.replayFiles]
      cases hf : replayFile f with
      | mk first res =>
          rw [hf] at h
          cases res with
          | error e => cases h
          | ok m =>
              dsimp only at h ⊢
              cases hrest : WriteAheadLog.replayFiles fs with
              | mk rest res' =>
                  rw [hrest] at h
                  cases res' with
                  | error e => cases h
                  | ok k =>
                      cases h
                      rw [ih hrest, List.append_assoc]
                      cases (WriteAheadLog.replayFiles gs).2 with
                      | error e => rfl
                      | ok j => simp only [Except.map, Nat.add_assoc]

/-- An error ends the replay. -/
theorem replayFiles_append_error {fs : List Bytes} {es : List WALEntry} {e : WALError}
    (h : WriteAheadLog.replayFiles fs = (es, .error e)) (gs : List Bytes) :
    WriteAheadLog.replayFiles (fs ++ gs) = (es, .error e) := by
  induction fs generalizing es with
  | nil => cases h
  | cons f fs ih =>
      rw [WriteAheadLog.replayFiles] at h
      rw [List.cons_append, WriteAheadLog.replayFiles]
      cases hf : replayFile f with
      | mk first res =>
          rw [hf] at h
          cases res with
          | error e =>
              cases h
              rfl
          | ok m =>
              dsimp only at h ⊢
              cases hrest : WriteAheadLog.replayFiles fs with
              | mk rest res' =>
                  rw [hrest] at h
                  cases res' with
                  | ok k => cases h
                  | error e =>
                      cases h
                      rw [ih hrest]
                      rfl

theorem replayFiles_singleton (f : Bytes) : WriteAheadLog.replayFiles [f] = replayFile f := by
  rw [WriteAheadLog.replayFiles]
  cases replayFile f with
  | mk es res => cases res <;> simp [WriteAheadLog.replayFiles, Except.map]

/-- Stopped after `i` steps, replay delivers the entries it delivered before the rotation, or those it
    delivers after it. -/
def CrashSafe (wal : WriteAheadLog) (disk : Disk) (i : Nat) : Prop :=
  (wal.replay (crashed wal disk i)).1 = (wal.replay (wal.sync disk).2).1 ∨
    (wal.replay (crashed wal disk i)).1 = (wal.replay (wal.rotate disk).2).1

/-- The stop is not between the copy and the truncation; or the active file holds no entry; or replay does
    not get past its first copy. -/
def CrashHarmless (wal : WriteAheadLog) (disk : Disk) (i : Nat) : Prop :=
  i ≠ segmentsToKeep wal.backupCount + 1 ∨ (replayFile (flushedActive wal disk)).1 = [] ∨
    ∃ e, (WriteAheadLog.replayFiles (youngerSegments wal disk ++ [flushedActive wal disk])).2 = .error e

variable (wal : WriteAheadLog) (disk : Disk)

/-- From the first step on, the copied state apart, replay reads the younger segments and the active
    file. -/
theorem replay_settled {i : Nat} (hi : i ≠ 0) (hne : i ≠ segmentsToKeep wal.backupCount + 1) :
    (wal.replay (crashed wal disk i)).1
      = (WriteAheadLog.replayFiles (youngerSegments wal disk ++ [flushedActive wal disk])).1 := by
  unfold WriteAheadLog.replay
  obtain ⟨j, rfl⟩ : ∃ j, i = j + 1 := ⟨i - 1, by omega⟩
  rcases Nat.lt_or_ge j (segmentsToKeep wal.backupCount) with hlt | hge
  · rw [filesInReplayOrder_renaming wal disk hlt]
  · rw [filesInReplayOrder_after wal disk (by omega)]
    -- the emptied file adds nothing
    cases hread : WriteAheadLog.replayFiles (youngerSegments wal disk ++ [flushedActive wal disk]) with
    | mk es res =>
        cases res with
        | error e => rw [replayFiles_append_error hread]
        | ok n =>
            rw [replayFiles_append_ok hread, replayFiles_singleton]
            exact List.append_nil _

theorem replay_rotated :
    (wal.replay (wal.rotate disk).2).1
      = (WriteAheadLog.replayFiles (youngerSegments wal disk ++ [flushedActive wal disk])).1 := by
  have hkeep := one_le_segmentsToKeep wal.backupCount
  have hall : (wal.rotate disk).2 = crashed wal disk (segmentsToKeep wal.backupCount + 2) := by
    unfold crashed
    rw [List.take_of_length_le (length_rotateSteps hkeep).le, foldl_rotateSteps]
  rw [hall]
  exact replay_settled wal disk (by omega) (by omega)

/-- **When a stop during rotation is harmless.** Outside the window between the copy and the truncation
    always; inside it, for a log whose entries have distinct numbers, only when the second copy is not
    replayed or holds nothing. -/
theorem rotation_crash_iff (i : Nat) :
    (CrashHarmless wal disk i → CrashSafe wal disk i) ∧
      (((wal.replay (wal.sync disk).2).1.map WALEntry.sequence).Nodup →
        CrashSafe wal disk i → CrashHarmless wal disk i) := by
  unfold CrashSafe CrashHarmless
  rw [replay_rotated]
  have hcopied : wal.replay (crashed wal disk (segmentsToKeep wal.backupCount + 1))
      = WriteAheadLog.replayFiles
        (youngerSegments wal disk ++ [flushedActive wal disk] ++ [flushedActive wal disk]) := by
    rw [WriteAheadLog.replay, filesInReplayOrder_copied]
  by_cases hi : i = segmentsToKeep wal.backupCount + 1
  · subst hi
    rw [hcopied]
    cases hread : WriteAheadLog.replayFiles (youngerSegments wal disk ++ [flushedActive wal disk]) with
    | mk es res =>
        cases res with
        | error e =>
            rw [replayFiles_append_error hread]
            exact ⟨fun _ => Or.inr rfl, fun _ _ => Or.inr (Or.inr ⟨e, rfl⟩)⟩
        | ok n =>
            rw [replayFiles_append_ok hread, replayFiles_singleton]
            constructor
            · rintro (hne | hnil | ⟨e, he⟩)
              · exact absurd rfl hne
              · right
                rw [hnil, List.append_nil]
              · cases he
            · intro hdistinct hsafe
              right
              left
              by_contra hne
              -- the entries of the active file are at the end of `es`, and come once more behind it
              have hmem : ∀ x ∈ (replayFile (flushedActive wal disk)).1, x ∈ es := by
                intro x hx
                cases hyoung : WriteAheadLog.replayFiles (youngerSegments wal disk) with
                | mk es' res' =>
                    cases res' with
                    | error e =>
                        rw [replayFiles_append_error hyoung] at hread
                        cases hread
                    | ok m =>
                        rw [replayFiles_append_ok hyoung, replayFiles_singleton] at hread
                        have hes := congrArg Prod.fst hread
                        rw [← show es' ++ (replayFile (flushedActive wal disk)).1 = es from hes]
                        exact List.mem_append_right _ hx
              obtain ⟨x, rest, hx⟩ := List.exists_cons_of_ne_nil hne
              rcases hsafe with hbefore | hafter
              · rw [← hbefore, List.map_append, List.nodup_append] at hdistinct
                have hxa : x ∈ (replayFile (flushedActive wal disk)).1 := by
                  rw [hx]
                  exact List.mem_cons_self ..
                exact hdistinct.2.2 x.sequence (List.mem_map_of_mem (hmem x hxa)) x.sequence
                  (List.mem_map_of_mem hxa) rfl
              · exact hne (List.append_right_eq_self.mp hafter)
  · refine ⟨fun _ => ?_, fun _ _ => Or.inl hi⟩
    by_cases hzero : i = 0
    · subst hzero
      exact Or.inl rfl
    · exact Or.inr (replay_settled wal disk hzero hi)

omit [Codec] in
/-- A stop after the removal of the oldest segment: nothing has happened yet to the one entry of the log. -/
theorem rotation_crash_after_removal :
    let _ := incrCodec
    CrashSafe (Journal.start ⟨.always, 10, 1⟩).wal ⟨some incrEntry.serialize, fun _ => none, none⟩ 1 :=
  let _ := incrCodec
  (rotation_crash_iff (Journal.start ⟨.always, 10, 1⟩).wal
    ⟨some incrEntry.serialize, fun _ => none, none⟩ 1).1 (Or.inl (by decide))

omit [Codec] in
/-- With one entry in the log and one segment kept, a stop after the copy delivers it twice. -/
theorem rotation_crash_delivers_twice :
    let _ := incrCodec
    let wal := (Journal.start ⟨.always, 10, 1⟩).wal
    let disk : Disk := ⟨some incrEntry.serialize, fun _ => none, none⟩
    (wal.replay (crashed wal disk 2)).1.map WALEntry.command = [.incr (utf8 "k"), .incr (utf8 "k")] ∧
      (wal.replay (wal.sync disk).2).1.map WALEntry.command = [.incr (utf8 "k")] ∧
      (wal.replay (wal.rotate disk).2).1.map WALEntry.command = [.incr (utf8 "k")] ∧
      ¬ CrashSafe wal disk 2 := by
  intro _ wal disk
  have henc : Encodes incrEntry.command := encodes_incr _ (by decide)
  have hfile : replayFile incrEntry.serialize = ([incrEntry], .ok 1) := by
    have hentries := replayFile_entries [incrEntry] (by simpa using henc)
    rwa [List.flatMap_singleton] at hentries
  have hone : WriteAheadLog.replayFiles [incrEntry.serialize] = ([incrEntry], .ok 1) := by
    rw [replayFiles_singleton, hfile]
  have htwice : (wal.replay (crashed wal disk 2)).1.map WALEntry.command
      = [.incr (utf8 "k"), .incr (utf8 "k")] := by
    rw [WriteAheadLog.replay, show (2 : Nat) = segmentsToKeep wal.backupCount + 1 from rfl,
      filesInReplayOrder_copied]
    show (WriteAheadLog.replayFiles ([incrEntry.serialize] ++ [incrEntry.serialize])).1.map _ = _
    rw [replayFiles_append_ok hone, hone]
    rfl
  have hbefore : (wal.replay (wal.sync disk).2).1.map WALEntry.command = [.incr (utf8 "k")] := by
    rw [WriteAheadLog.replay, filesInReplayOrder_before]
    show (WriteAheadLog.replayFiles [incrEntry.serialize]).1.map _ = _
    rw [hone]
    rfl
  have hafter : (wal.replay (wal.rotate disk).2).1.map WALEntry.command = [.incr (utf8 "k")] := by
    rw [replay_rotated]
    show (WriteAheadLog.replayFiles [incrEntry.serialize]).1.map _ = _
    rw [hone]
    rfl
  refine ⟨htwice, hbefore, hafter, ?_⟩
  rintro (h | h)
  · rw [h, hbefore] at htwice
    cases htwice
  · rw [h, hafter] at htwice
    cases htwice

end Replay

end FerricCache
