import FerricCache.Persistence.Journal

/-!
# `FerricCache.Persistence.Appenders` — `append_command` called by many at once

Only the write and the file swap of `append_command` run under the writer's lock; numbering the entry,
adding to `current_size`, testing it and resetting it are steps of their own. A rotation therefore sees a
counter that may be **stale**: too large when another call has rotated but not reset it yet, or counts an
entry that is in a segment already, or when another call has already decided to rotate as well.
With no such call about (`Unhurried`), every segment made is full (`rotations_full`).
-/

namespace FerricCache

open Lib.Run

/-! ## The steps of a call -/

/-- Where a call of `append_command` stands. -/
inductive Appending
  | idle
  | numbered (bytes : Bytes)
  | written (size : Nat)
  | counted
  | due
  | rotated
  deriving DecidableEq

/-- The size of an entry that is written and not yet counted. -/
def Appending.uncounted : Appending → Nat
  | .written size => size
  | _ => 0

/-- The call has decided to rotate and has not reset the counter yet. -/
def Appending.rotating : Appending → Bool
  | .due | .rotated => true
  | _ => false

/-- The steps of a call, in their order. -/
inductive AppendStep
  | number (timestamp : UInt64) (c : Command)
  | write
  | count
  | test
  | rotate
  | reset

/-- A log shared by `n` callers. The last two fields record the run: the bytes written, in the order of the
    lock, and the segments `rotate` has made, newest first. -/
structure Appenders (n : Nat) where
  wal : WriteAheadLog
  disk : Disk
  call : Fin n → Appending
  written : Bytes
  made : List Bytes

namespace Appenders

variable {n : Nat}

/-- Nobody is appending. -/
def opened (n : Nat) (wal : WriteAheadLog) (disk : Disk) : Appenders n :=
  ⟨wal, disk, fun _ => .idle, [], []⟩

/-- What the active file and the buffer hold. -/
def current (x : Appenders n) : Bytes := x.disk.active.getD [] ++ x.wal.writer.buf

/-- `fetch_add` on the sequence; the entry waits to be written. -/
def number [Codec] (x : Appenders n) (i : Fin n) (timestamp : UInt64) (c : Command) : Appenders n :=
  { x with
    wal := { x.wal with sequence := x.wal.sequence + 1 }
    call := Function.update x.call i (.numbered (WALEntry.mk x.wal.sequence timestamp c).serialize) }

/-- The entry is written, and flushed under `Always`. -/
def write (x : Appenders n) (i : Fin n) (bytes : Bytes) : Appenders n :=
  { x with
    wal := (x.wal.writeEntry x.disk bytes).1
    disk := (x.wal.writeEntry x.disk bytes).2
    call := Function.update x.call i (.written bytes.length)
    written := x.written ++ bytes }

/-- `fetch_add` on `current_size`. -/
def count (x : Appenders n) (i : Fin n) (size : Nat) : Appenders n :=
  { x with
    wal := { x.wal with currentSize := x.wal.currentSize + UInt64.ofNat size }
    call := Function.update x.call i .counted }

/-- `should_rotate`, outside the lock. -/
def test (x : Appenders n) (i : Fin n) : Appenders n :=
  { x with call := Function.update x.call i (if x.wal.shouldRotate then .due else .idle) }

/-- The locked part of `rotate`. -/
def rotate (x : Appenders n) (i : Fin n) : Appenders n :=
  { x with
    wal := (x.wal.rotateFiles x.disk).1
    disk := (x.wal.rotateFiles x.disk).2
    call := Function.update x.call i .rotated
    made := ((x.wal.rotateFiles x.disk).2.segment 1).getD [] :: x.made }

/-- `store(0)` on `current_size`, the lock released. -/
def reset (x : Appenders n) (i : Fin n) : Appenders n :=
  { x with
    wal := { x.wal with currentSize := 0 }
    call := Function.update x.call i .idle }

/-- One step of caller `p.1`. -/
def step [Codec] (x : Appenders n) (p : Fin n × AppendStep) : Option (Appenders n) :=
  match x.call p.1, p.2 with
  | .idle, .number timestamp c => some (x.number p.1 timestamp c)
  | .numbered bytes, .write => some (x.write p.1 bytes)
  | .written size, .count => some (x.count p.1 size)
  | .counted, .test => some (x.test p.1)
  | .due, .rotate => some (x.rotate p.1)
  | .rotated, .reset => some (x.reset p.1)
  | _, _ => none

/-- The steps of a call that nobody else disturbs. -/
def wholeCall (i : Fin n) (timestamp : UInt64) (c : Command) (rotates : Bool) : List (Fin n × AppendStep) :=
  [(i, AppendStep.number timestamp c), (i, .write), (i, .count), (i, .test)] ++
    if rotates then [(i, .rotate), (i, .reset)] else []

/-! ## Full segments -/

/-- Every segment made is full; one that `segments_to_keep` later ones have not pushed out is read by replay,
    and with a single segment so are the last `max_size` bytes written. What is still buffered counts as
    read; nothing is buffered under `Always`. -/
structure KeepsFull (x : Appenders n) : Prop where
  full : ∀ seg ∈ x.made, x.wal.maxSize.toNat ≤ seg.length
  accounted : x.written <:+ x.made.reverse.flatten ++ x.current
  kept : ∀ j seg, x.made[j]? = some seg → j < segmentsToKeep x.wal.backupCount →
    seg ∈ x.wal.filesInReplayOrder x.disk
  recent : x.wal.backupCount.toNat ≤ 1 →
    x.written.drop (x.written.length - x.wal.maxSize.toNat)
      <:+ (x.wal.filesInReplayOrder x.disk).flatten ++ x.wal.writer.buf
  flushed : x.wal.syncPolicy = .always → x.wal.writer.buf = []

/-- A test that says rotate comes when no other call is about to rotate or has a reset to make, and a
    rotation when no other call has an entry to count. -/
def Unhurried (x : Appenders n) (p : Fin n × AppendStep) : Prop :=
  match p.2 with
  | .test => x.wal.shouldRotate = true → ∀ j, j ≠ p.1 → (x.call j).rotating = false
  | .rotate => ∀ j, j ≠ p.1 → (x.call j).uncounted = 0
  | _ => True

instance (x : Appenders n) : ∀ p, Decidable (x.Unhurried p)
  | (i, .test) => inferInstanceAs (Decidable (x.wal.shouldRotate = true → ∀ j, j ≠ i → _ = _))
  | (i, .rotate) => inferInstanceAs (Decidable (∀ j, j ≠ i → _ = _))
  | (_, .number _ _) | (_, .write) | (_, .count) | (_, .reset) => isTrue trivial

/-! ## What a step can do -/

section Steps

variable [Codec] {x y : Appenders n} {i : Fin n} {a : AppendStep}

theorem step_cases (h : x.step (i, a) = some y) :
    (∃ timestamp c, a = .number timestamp c ∧ x.call i = .idle ∧ y = x.number i timestamp c) ∨
    (∃ bytes, a = .write ∧ x.call i = .numbered bytes ∧ y = x.write i bytes) ∨
    (∃ size, a = .count ∧ x.call i = .written size ∧ y = x.count i size) ∨
    (a = .test ∧ x.call i = .counted ∧ y = x.test i) ∨
    (a = .rotate ∧ x.call i = .due ∧ y = x.rotate i) ∨
    (a = .reset ∧ x.call i = .rotated ∧ y = x.reset i) := by
  unfold step at h
  dsimp only at h
  cases hcall : x.call i <;> cases a <;> rw [hcall] at h <;> simp_all

/-- A call alone does what `append_command` does. -/
theorem run_wholeCall (x : Appenders n) (i : Fin n) (hidle : x.call i = .idle) (timestamp : UInt64)
    (c : Command) :
    ∃ y, run step x (wholeCall i timestamp c (x.wal.logCommand x.disk timestamp c).1.shouldRotate) = some y ∧
      (y.wal, y.disk) = x.wal.appendCommand x.disk timestamp c ∧ y.call = x.call := by
  set bytes := (WALEntry.mk x.wal.sequence timestamp c).serialize with hbytes
  set z := ((x.number i timestamp c).write i bytes).count i bytes.length with hz
  have hwal : z.wal = (x.wal.logCommand x.disk timestamp c).1 := rfl
  have hdisk : z.disk = (x.wal.logCommand x.disk timestamp c).2 := rfl
  have hcall : z.call = Function.update x.call i .counted := by
    simp only [hz, number, write, count, Function.update_idem]
  have hself : Function.update x.call i .idle = x.call := by
    rw [← hidle]
    exact Function.update_eq_self i x.call
  have hlogged : run step x [(i, .number timestamp c), (i, .write), (i, .count)] = some z := by
    have hnumber : x.step (i, .number timestamp c) = some (x.number i timestamp c) := by
      simp only [step, hidle]
    have hwrite : (x.number i timestamp c).step (i, .write) = some ((x.number i timestamp c).write i bytes) := by
      simp only [step, number, Function.update_self, hbytes]
    have hcount : ((x.number i timestamp c).write i bytes).step (i, .count) = some z := by
      simp only [step, write, Function.update_self, hz]
    exact run_cons.mpr ⟨_, hnumber, run_cons.mpr ⟨_, hwrite, run_cons.mpr ⟨_, hcount, rfl⟩⟩⟩
  have htest : z.step (i, .test) = some (z.test i) := by
    simp only [step, hcall, Function.update_self]
  have hfirst : ∀ (rest : List (Fin n × AppendStep)) {y : Appenders n},
      run step z ((i, .test) :: rest) = some y →
      run step x ([(i, AppendStep.number timestamp c), (i, .write), (i, .count)] ++ (i, .test) :: rest) = some y :=
    fun _ _ hy => run_append.mpr ⟨z, hlogged, hy⟩
  unfold WriteAheadLog.appendCommand
  dsimp only
  rw [← hwal, ← hdisk]
  cases hrot : z.wal.shouldRotate with
  | false =>
      refine ⟨z.test i, hfirst [] (run_cons.mpr ⟨_, htest, rfl⟩), rfl, ?_⟩
      simp only [test, hrot, hcall, Function.update_idem, Bool.false_eq_true, if_false, hself]
  | true =>
      have hdue : (z.test i).step (i, .rotate) = some ((z.test i).rotate i) := by
        simp only [step, test, hrot, Function.update_self, if_true]
      have hreset : ((z.test i).rotate i).step (i, .reset) = some (((z.test i).rotate i).reset i) := by
        simp only [step, rotate, Function.update_self]
      refine ⟨((z.test i).rotate i).reset i, hfirst _ ?_, rfl, ?_⟩
      · exact run_cons.mpr ⟨_, htest, run_cons.mpr ⟨_, hdue, run_cons.mpr ⟨_, hreset, rfl⟩⟩⟩
      · simp only [reset, rotate, test, hcall, Function.update_idem, hself]

end Steps

/-! ## The counter and the bytes -/

/-- The bytes written and not yet counted, over all calls. -/
def uncounted (call : Fin n → Appending) : Nat := ∑ i, (call i).uncounted

theorem uncounted_update (call : Fin n → Appending) (i : Fin n) (p : Appending) :
    uncounted (Function.update call i p) + (call i).uncounted = uncounted call + p.uncounted := by
  have hrest : ∑ j ∈ Finset.univ.erase i, (Function.update call i p j).uncounted
      = ∑ j ∈ Finset.univ.erase i, (call j).uncounted := by
    apply Finset.sum_congr rfl
    intro j hj
    rw [Function.update_of_ne (Finset.ne_of_mem_erase hj)]
  unfold uncounted
  rw [← Finset.add_sum_erase _ _ (Finset.mem_univ i), hrest,
    ← Finset.add_sum_erase _ (fun j => (call j).uncounted) (Finset.mem_univ i), Function.update_self]
  omega

theorem uncounted_eq_zero {call : Fin n → Appending} (h : ∀ i, (call i).uncounted = 0) :
    uncounted call = 0 := Finset.sum_eq_zero fun i _ => h i

/-- Adding to the counter never overshoots; a wrap only makes it smaller. -/
theorem toNat_add_le (a : UInt64) (m : Nat) : (a + UInt64.ofNat m).toNat ≤ a.toNat + m := by
  rw [UInt64.toNat_add, UInt64.toNat_ofNat']
  refine (Nat.mod_le _ _).trans ?_
  exact Nat.add_le_add_left (Nat.mod_le _ _) _

/-- The invariant: the files are those the run recorded, the counter lies below what the log holds (unless
    a reset is due), one call at a time rotates, and only a full log is rotated. -/
structure Sound (x : Appenders n) : Prop where
  tracks : x.wal.Tracks x.disk x.made x.current
  flushed : x.wal.syncPolicy = .always → x.wal.writer.buf = []
  accounted : x.written <:+ x.made.reverse.flatten ++ x.current
  full : ∀ seg ∈ x.made, x.wal.maxSize.toNat ≤ seg.length
  single : ∀ i j, (x.call i).rotating = true → (x.call j).rotating = true → i = j
  due : ∀ i, x.call i = .due → x.wal.maxSize.toNat ≤ x.current.length
  uncounted : uncounted x.call ≤ x.current.length
  counter : (∀ i, x.call i ≠ .rotated) →
    x.wal.currentSize.toNat + Appenders.uncounted x.call ≤ x.current.length

section Calls

variable {call : Fin n → Appending} {i j : Fin n} {p : Appending}

theorem rotating_of_update (hp : p.rotating = false)
    (h : (Function.update call i p j).rotating = true) : (call j).rotating = true := by
  by_cases hj : j = i
  · rw [hj, Function.update_self, hp] at h
    cases h
  · rwa [Function.update_of_ne hj] at h

theorem due_of_update (hp : p ≠ .due) (h : Function.update call i p j = .due) : call j = .due := by
  by_cases hj : j = i
  · rw [hj, Function.update_self] at h
    exact absurd h hp
  · rwa [Function.update_of_ne hj] at h

theorem not_rotated_of_update (hi : call i ≠ .rotated) (h : ∀ j, Function.update call i p j ≠ .rotated) :
    ∀ j, call j ≠ .rotated := by
  intro j
  by_cases hj : j = i
  · rw [hj]
    exact hi
  · have hj' := h j
    rwa [Function.update_of_ne hj] at hj'

end Calls

/-! ## One step keeps the invariant -/

section Keeps

variable {x : Appenders n} {i : Fin n}

/-- A step that leaves the files alone: what it must say about the counter and the calls. -/
theorem Sound.recount (h : x.Sound) (sequence size : UInt64) (call : Fin n → Appending)
    (hsingle : ∀ i j, (call i).rotating = true → (call j).rotating = true → i = j)
    (hdue : ∀ i, call i = .due → x.wal.maxSize.toNat ≤ x.current.length)
    (huncounted : Appenders.uncounted call ≤ x.current.length)
    (hcounter : (∀ i, call i ≠ .rotated) → size.toNat + Appenders.uncounted call ≤ x.current.length) :
    Sound { x with wal := { x.wal with sequence := sequence, currentSize := size }, call := call } where
  tracks := ⟨⟨h.tracks.holds.atEnd, rfl⟩, h.tracks.exist, h.tracks.segment⟩
  flushed := h.flushed
  accounted := h.accounted
  full := h.full
  single := hsingle
  due := hdue
  uncounted := huncounted
  counter := hcounter

theorem sound_number [Codec] (h : x.Sound) (hi : x.call i = .idle) (timestamp : UInt64) (c : Command) :
    (x.number i timestamp c).Sound := by
  have hsum := uncounted_update x.call i (.numbered (WALEntry.mk x.wal.sequence timestamp c).serialize)
  rw [hi] at hsum
  have hsame : Appenders.uncounted (x.number i timestamp c).call = Appenders.uncounted x.call := hsum
  apply h.recount
  · exact fun j k hj hk => h.single j k (rotating_of_update rfl hj) (rotating_of_update rfl hk)
  · exact fun j hj => h.due j (due_of_update (by simp) hj)
  · exact hsame.le.trans h.uncounted
  · intro hnone
    have hold := h.counter (not_rotated_of_update (by simp [hi]) hnone)
    exact (Nat.add_le_add_left hsame.le _).trans hold

theorem current_write (h : x.Sound) (bytes : Bytes) :
    (x.write i bytes).current = x.current ++ bytes := (WriteAheadLog.writeEntry_holds h.tracks.holds bytes).bytes_eq

theorem sound_write (h : x.Sound) {bytes : Bytes} (hi : x.call i = .numbered bytes) :
    (x.write i bytes).Sound := by
  have hcurrent := current_write (i := i) h bytes
  have hlen : (x.write i bytes).current.length = x.current.length + bytes.length := by
    rw [hcurrent, List.length_append]
  have hsum := uncounted_update x.call i (.written bytes.length)
  rw [hi] at hsum
  -- the entry is in the log and is not counted yet
  have hmore : Appenders.uncounted (x.write i bytes).call = Appenders.uncounted x.call + bytes.length := hsum
  have hpolicy : (x.wal.writeEntry x.disk bytes).1.syncPolicy = x.wal.syncPolicy :=
    (WriteAheadLog.writeEntry_settings bytes).1
  obtain ⟨hmax, hsize⟩ : (x.wal.writeEntry x.disk bytes).1.maxSize = x.wal.maxSize ∧
      (x.wal.writeEntry x.disk bytes).1.currentSize = x.wal.currentSize := WriteAheadLog.writeEntry_sizes bytes
  exact
    { tracks := by
        rw [hcurrent]
        exact h.tracks.writeEntry bytes
      flushed := fun hp => WriteAheadLog.writeEntry_flushed (hpolicy ▸ hp) bytes
      accounted := by
        rw [hcurrent, ← List.append_assoc]
        exact List.suffix_append_self_iff.mpr h.accounted
      full := by
        rw [show (x.write i bytes).wal.maxSize = x.wal.maxSize from hmax]
        exact h.full
      single := fun j k hj hk => h.single j k (rotating_of_update rfl hj) (rotating_of_update rfl hk)
      due := by
        intro j hj
        rw [show (x.write i bytes).wal.maxSize = x.wal.maxSize from hmax, hlen]
        exact (h.due j (due_of_update (by simp) hj)).trans (Nat.le_add_right _ _)
      uncounted := by
        rw [hmore, hlen]
        exact Nat.add_le_add_right h.uncounted _
      counter := by
        intro hnone
        have hold := h.counter (not_rotated_of_update (by simp [hi]) hnone)
        rw [hmore, hlen, show (x.write i bytes).wal.currentSize = x.wal.currentSize from hsize]
        omega }

theorem sound_count (h : x.Sound) {size : Nat} (hi : x.call i = .written size) : (x.count i size).Sound := by
  have hsum := uncounted_update x.call i .counted
  rw [hi] at hsum
  have hless : Appenders.uncounted (x.count i size).call + size = Appenders.uncounted x.call := hsum
  apply h.recount
  · exact fun j k hj hk => h.single j k (rotating_of_update rfl hj) (rotating_of_update rfl hk)
  · exact fun j hj => h.due j (due_of_update (by simp) hj)
  · exact (Nat.le_of_add_right_le hless.le).trans h.uncounted
  · -- what the counter gains was uncounted before
    intro hnone
    have hold := h.counter (not_rotated_of_update (by simp [hi]) hnone)
    have hadd := toNat_add_le x.wal.currentSize size
    change (x.wal.currentSize + UInt64.ofNat size).toNat + Appenders.uncounted (x.count i size).call ≤ _
    omega

theorem sound_test (h : x.Sound) (hi : x.call i = .counted) (hcalm : x.Unhurried (i, .test)) :
    (x.test i).Sound := by
  have hsum : ∀ p : Appending, p.uncounted = 0 →
      Appenders.uncounted (Function.update x.call i p) = Appenders.uncounted x.call := by
    intro p hp
    have hsum := uncounted_update x.call i p
    rw [hi, hp] at hsum
    exact hsum
  unfold test
  cases hrot : x.wal.shouldRotate with
  | false =>
      have hsame := hsum .idle rfl
      apply h.recount
      · exact fun j k hj hk => h.single j k (rotating_of_update rfl hj) (rotating_of_update rfl hk)
      · exact fun j hj => h.due j (due_of_update (by simp) hj)
      · exact hsame.le.trans h.uncounted
      · intro hnone
        have hold := h.counter (not_rotated_of_update (by simp [hi]) hnone)
        exact (Nat.add_le_add_left hsame.le _).trans hold
  | true =>
      -- nobody else rotates, so the counter is not stale: the log is full
      have hothers : ∀ j, j ≠ i → (x.call j).rotating = false := hcalm hrot
      have hnone : ∀ j, x.call j ≠ .rotated := by
        intro j hj
        by_cases hji : j = i
        · rw [hji, hi] at hj
          cases hj
        · have hfalse := hothers j hji
          rw [hj] at hfalse
          cases hfalse
      have hcounter := h.counter hnone
      have hfull : x.wal.maxSize.toNat ≤ x.current.length := by
        have hle : x.wal.maxSize.toNat ≤ x.wal.currentSize.toNat := of_decide_eq_true hrot
        omega
      have hsame := hsum .due rfl
      have hself : ∀ j, (Function.update x.call i .due j).rotating = true → j = i := by
        intro j hj
        by_contra hji
        rw [Function.update_of_ne hji, hothers j hji] at hj
        cases hj
      apply h.recount
      · exact fun j k hj hk => (hself j hj).trans (hself k hk).symm
      · exact fun _ _ => hfull
      · exact hsame.le.trans h.uncounted
      · intro _
        exact (Nat.add_le_add_left hsame.le _).trans hcounter

theorem sound_rotate (h : x.Sound) (hi : x.call i = .due) (hcalm : x.Unhurried (i, .rotate)) :
    (x.rotate i).Sound := by
  have hothers : ∀ j, j ≠ i → (x.call j).uncounted = 0 := hcalm
  have hsegment := WriteAheadLog.rotateFiles_segment h.tracks.holds
  have hmade : (x.rotate i).made = x.current :: x.made := by
    show ((x.wal.rotateFiles x.disk).2.segment 1).getD [] :: x.made = _
    rw [hsegment 1]
    rfl
  have hzero : Appenders.uncounted (x.rotate i).call = 0 := by
    apply uncounted_eq_zero
    intro j
    show (Function.update x.call i .rotated j).uncounted = 0
    by_cases hji : j = i
    · rw [hji, Function.update_self]
      rfl
    · rw [Function.update_of_ne hji]
      exact hothers j hji
  have hself : ∀ j, ((x.rotate i).call j).rotating = true → j = i := by
    intro j hj
    by_contra hji
    rw [show (x.rotate i).call j = x.call j from Function.update_of_ne hji ..] at hj
    exact hji (h.single j i hj (by rw [hi]; rfl))
  exact
    { tracks := by
        rw [hmade]
        exact h.tracks.rotateFiles
      flushed := fun _ => rfl
      accounted := by
        rw [hmade, List.reverse_cons, List.flatten_append, List.flatten_singleton]
        show x.written <:+ x.made.reverse.flatten ++ x.current ++ []
        rw [List.append_nil]
        exact h.accounted
      full := by
        intro seg hseg
        rw [hmade] at hseg
        rcases List.mem_cons.mp hseg with rfl | hseg'
        · exact h.due i hi
        · exact h.full seg hseg'
      single := fun j k hj hk => (hself j hj).trans (hself k hk).symm
      due := by
        intro j hj
        have hji := hself j (by rw [hj]; rfl)
        rw [hji, show (x.rotate i).call i = .rotated from Function.update_self ..] at hj
        cases hj
      uncounted := hzero.le.trans (Nat.zero_le _)
      counter := fun hnone => absurd (Function.update_self ..) (hnone i) }

theorem sound_reset (h : x.Sound) (hi : x.call i = .rotated) : (x.reset i).Sound := by
  have hsum := uncounted_update x.call i .idle
  rw [hi] at hsum
  have hsame : Appenders.uncounted (x.reset i).call = Appenders.uncounted x.call := hsum
  apply h.recount
  · exact fun j k hj hk => h.single j k (rotating_of_update rfl hj) (rotating_of_update rfl hk)
  · exact fun j hj => h.due j (due_of_update (by simp) hj)
  · exact hsame.le.trans h.uncounted
  · intro _
    rw [show ((0 : UInt64).toNat = 0) from rfl, Nat.zero_add]
    exact hsame.le.trans h.uncounted

/-- **Every step of an unhurried run keeps the invariant.** -/
theorem sound_step [Codec] {p : Fin n × AppendStep} {y : Appenders n} (h : x.Sound) (hcalm : x.Unhurried p)
    (hstep : x.step p = some y) : y.Sound := by
  obtain ⟨i, a⟩ := p
  rcases step_cases hstep with ⟨ts, c, rfl, hi, rfl⟩ | ⟨bytes, rfl, hi, rfl⟩ | ⟨size, rfl, hi, rfl⟩ |
    ⟨rfl, hi, rfl⟩ | ⟨rfl, hi, rfl⟩ | ⟨rfl, hi, rfl⟩
  · exact sound_number h hi ts c
  · exact sound_write h hi
  · exact sound_count h hi
  · exact sound_test h hi hcalm
  · exact sound_rotate h hi hcalm
  · exact sound_reset h hi

end Keeps

/-! ## Whole runs -/

theorem sound_opened {config : PersistenceConfig} {found : Disk} {wal : WriteAheadLog} {disk : Disk}
    (h : WriteAheadLog.new config found = (.ok wal, disk)) : (opened n wal disk).Sound := by
  have htracks := WriteAheadLog.tracks_new h
  obtain ⟨hflushed, hsize⟩ := WriteAheadLog.new_counts h
  have hcurrent : (opened n wal disk).current = found.active.getD [] := htracks.holds.bytes_eq
  have hzero : Appenders.uncounted (opened n wal disk).call = 0 := uncounted_eq_zero fun _ => rfl
  exact
    { tracks := by
        rw [hcurrent]
        exact htracks
      flushed := fun _ => hflushed
      accounted := List.nil_suffix
      full := fun seg hseg => by cases hseg
      single := fun i j hi => by cases hi
      due := fun i hi => by cases hi
      uncounted := hzero.le.trans (Nat.zero_le _)
      counter := by
        intro _
        rw [hzero, Nat.add_zero, hcurrent]
        exact hsize }

theorem Sound.recent {x : Appenders n} (h : x.Sound) (hone : x.wal.backupCount.toNat ≤ 1) :
    x.written.drop (x.written.length - x.wal.maxSize.toNat)
      <:+ (x.wal.filesInReplayOrder x.disk).flatten ++ x.wal.writer.buf := by
  obtain ⟨active, hactive⟩ := Option.isSome_iff_exists.mp h.tracks.exist
  have hkeep : segmentsToKeep x.wal.backupCount = 1 := max_eq_right hone
  have hcurrent : x.current = active ++ x.wal.writer.buf := by
    unfold current
    rw [hactive, Option.getD_some]
  have hfiles : (x.wal.filesInReplayOrder x.disk).flatten ++ x.wal.writer.buf
      = (x.disk.segment 1).getD [] ++ x.current := by
    unfold WriteAheadLog.filesInReplayOrder segmentsInReplayOrder
    rw [hkeep, hactive, hcurrent]
    show ([x.disk.segment 1].reduceOption ++ [active]).flatten ++ _ = _
    cases x.disk.segment 1 with
    | none => simp
    | some seg => simp
  have hdrop := List.drop_suffix (x.written.length - x.wal.maxSize.toNat) x.written
  rw [hfiles]
  cases hmade : x.made with
  | nil =>
      -- nothing was rotated away in this run
      have hall := h.accounted
      rw [hmade] at hall
      exact (hdrop.trans hall).trans (List.suffix_append _ _)
  | cons seg rest =>
      have hseg : x.disk.segment 1 = some seg := h.tracks.segment 0 seg (by rw [hmade]; rfl) (by omega)
      have hfull : x.wal.maxSize.toNat ≤ seg.length := h.full seg (by rw [hmade]; exact List.mem_cons_self)
      have hall := h.accounted
      rw [hmade, List.reverse_cons, List.flatten_append, List.flatten_singleton, List.append_assoc] at hall
      rw [hseg, Option.getD_some]
      apply List.suffix_of_suffix_length_le (hdrop.trans hall) (List.suffix_append _ _)
      rw [List.length_drop, List.length_append]
      omega

theorem Sound.keepsFull {x : Appenders n} (h : x.Sound) : x.KeepsFull where
  full := h.full
  accounted := h.accounted
  kept _ _ hj hlt := h.tracks.mem_files hj hlt
  recent := h.recent
  flushed := h.flushed

/-- **Unhurried calls rotate only a full log.** Whatever log is opened and however the calls interleave. -/
theorem rotations_full [Codec] {config : PersistenceConfig} {found : Disk} {wal : WriteAheadLog} {disk : Disk}
    (hopen : WriteAheadLog.new config found = (.ok wal, disk)) (steps : List (Fin n × AppendStep))
    (x : Appenders n) (hrun : run step (opened n wal disk) steps = some x)
    (hcalm : Along step Unhurried (opened n wal disk) steps) : x.KeepsFull := by
  have hsound := run_invariant (I := Sound) (fun _ _ _ hx hp hstep => sound_step hx hp hstep) steps _ x hcalm
    hrun (sound_opened hopen)
  exact hsound.keepsFull

/-! ## Two runs -/

/-- The first call rotates while the second has its entry counted; the second then finds an empty log. -/
def twoCalls : List (Fin 2 × AppendStep) :=
  [(0, .number 5 (.incr (utf8 "a"))), (1, .number 5 (.incr (utf8 "b"))), (0, .write), (1, .write),
    (1, .count), (0, .count), (0, .test), (0, .rotate), (0, .reset), (1, .test)]

theorem rotations_full_two :
    let _ := incrCodec
    ∃ x, run step (opened 2 (Journal.start ⟨.always, 50, 1⟩).wal (Journal.start ⟨.always, 50, 1⟩).disk)
        twoCalls = some x ∧ x.made ≠ [] ∧ x.KeepsFull := by
  intro _
  have hmade : ((run step (opened 2 (Journal.start ⟨.always, 50, 1⟩).wal
      (Journal.start ⟨.always, 50, 1⟩).disk) twoCalls).map fun x => x.made.isEmpty) = some false := by
    decide
  obtain ⟨x, hx, hmade⟩ := Option.map_eq_some_iff.mp hmade
  refine ⟨x, hx, ?_, ?_⟩
  · rintro hnil
    rw [hnil] at hmade
    cases hmade
  · exact rotations_full (Journal.new_start ⟨.always, 50, 1⟩) twoCalls x hx (by decide)

/-- Both calls find the log full before either rotates. -/
def bothDue : List (Fin 2 × AppendStep) :=
  [(0, .number 5 (.incr (utf8 "a"))), (0, .write), (0, .count), (1, .number 5 (.incr (utf8 "b"))), (1, .write),
    (1, .count), (0, .test), (1, .test), (0, .rotate), (0, .reset), (1, .rotate), (1, .reset)]

/-- The second rotation drops the segment of the first: nothing that was written is left. -/
theorem second_rotation_discards :
    let _ := incrCodec
    ∃ x, run step (opened 2 (Journal.start ⟨.always, 50, 1⟩).wal (Journal.start ⟨.always, 50, 1⟩).disk)
        bothDue = some x ∧
      x.written ≠ [] ∧ (x.wal.filesInReplayOrder x.disk).flatten ++ x.wal.writer.buf = [] ∧
      ¬ x.KeepsFull := by
  intro _
  have hseen : ((run step (opened 2 (Journal.start ⟨.always, 50, 1⟩).wal
      (Journal.start ⟨.always, 50, 1⟩).disk) bothDue).map fun x =>
        (x.written.isEmpty, (x.wal.filesInReplayOrder x.disk).flatten ++ x.wal.writer.buf, x.made.head?,
          x.wal.maxSize.toNat)) = some (false, [], some [], 50) := by
    decide
  obtain ⟨x, hx, hseen⟩ := Option.map_eq_some_iff.mp hseen
  simp only [Prod.mk.injEq] at hseen
  obtain ⟨hwritten, hfiles, hmade, hmax⟩ := hseen
  refine ⟨x, hx, ?_, hfiles, ?_⟩
  · intro hnil
    rw [hnil] at hwritten
    cases hwritten
  · intro h
    have hfull := h.full [] (List.mem_of_mem_head? hmade)
    rw [hmax] at hfull
    exact absurd hfull (by decide)

end Appenders

end FerricCache
