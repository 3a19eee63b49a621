import FerricCache.Persistence.Journal

/-!
# `FerricCache.Persistence.Numbering` — the sequence numbers of a log

Each append takes the next number of a counter, and a reopened log starts its counter behind the greatest number it
finds in the active file and the segments kept. The entries carry their positions as numbers (`Counted`), and the
last entry is always in a file that is kept, because a rotation follows an append, so the counter comes back as the
number of appends (`Counted.reopen`). The numbers grow as long as the counter does not wrap and the sizes of the
entries fit their fields (`numbers_increase`); behind an entry of 4 GiB the scan takes command bytes for a header, and
can find the greatest number there is (`numbers_repeat`).
-/

namespace FerricCache

open Lib Lib.Run

/-- A log with the numbers its appends returned. -/
structure Numbered where
  log : Journal
  assigned : List UInt64

/-- What happens to it: an append, a flush, a clean close and reopen. -/
inductive NumberedEvent
  | append (timestamp : UInt64) (c : Command)
  | sync
  | reopen

namespace Numbered

/-- A log opened in an empty directory. -/
def start (config : PersistenceConfig) : Numbered := ⟨Journal.start config, []⟩

variable [Codec]

/-- One event; `append_command` returns the number it took from the counter. -/
def step (config : PersistenceConfig) (x : Numbered) : NumberedEvent → Option Numbered
  | .append timestamp c => some ⟨x.log.append timestamp c, x.assigned ++ [x.log.wal.sequence]⟩
  | .sync => some { x with log := x.log.sync }
  | .reopen => (x.log.step config .reopen).map fun log => { x with log }

/-- The numbers grow in the order they were taken, and in the order replay reads them. -/
structure Increasing (x : Numbered) : Prop where
  assigned : x.assigned.Pairwise (· < ·)
  replayed : ∃ es n, x.log.wal.replay x.log.disk = (es, .ok n) ∧ (es.map WALEntry.sequence).Pairwise (· < ·)

/-- A step that keeps them so: the size of what is appended fits its field, and the counter has not run through. -/
def Countable (x : Numbered) : NumberedEvent → Prop
  | .append _ c => Encodes c ∧ x.assigned.length < 2 ^ 64
  | .sync => True
  | .reopen => True

/-! ## Numbers and positions -/

omit [Codec] in
/-- The numbers of the first `n` appends. -/
def numbers (n : Nat) : List UInt64 := (List.range n).map UInt64.ofNat

omit [Codec] in
theorem numbers_succ (n : Nat) : numbers (n + 1) = numbers n ++ [UInt64.ofNat n] := by
  rw [numbers, List.range_succ, List.map_append]
  rfl

omit [Codec] in
theorem toNat_ofNat_of_lt {n : Nat} (h : n < 2 ^ 64) : (UInt64.ofNat n).toNat = n := by
  rw [UInt64.toNat_ofNat', Nat.mod_eq_of_lt h]

omit [Codec] in
theorem pairwise_numbers {n : Nat} (h : n ≤ 2 ^ 64) : (numbers n).Pairwise (· < ·) := by
  rw [numbers, List.pairwise_map]
  refine List.pairwise_lt_range.imp_of_mem fun {i j} hi hj hij => ?_
  rw [List.mem_range] at hi hj
  rw [UInt64.lt_iff_toNat_lt, toNat_ofNat_of_lt (by omega), toNat_ofNat_of_lt (by omega)]
  exact hij

/-- The invariant of a run: the entries have their positions as numbers, so has the counter, no chunk is empty, and
    the active file ends between two entries. -/
structure Counted (config : PersistenceConfig) (x : Numbered) (chunks : List (List WALEntry)) (act : List WALEntry) :
    Prop where
  recorded : x.log.Recorded chunks act
  backupCount : x.log.wal.backupCount = config.walBackupCount
  bound : x.assigned.length ≤ 2 ^ 64
  assigned : x.assigned = numbers x.assigned.length
  entries : (chunks.reverse.flatten ++ act).map WALEntry.sequence = x.assigned
  next : x.log.wal.sequence = UInt64.ofNat x.assigned.length
  nonempty : ∀ es ∈ chunks, es ≠ []
  whole : ∃ written, written <+: act ∧ x.log.disk.active = some (written.flatMap WALEntry.serialize)

variable {config : PersistenceConfig} {x : Numbered} {chunks : List (List WALEntry)} {act : List WALEntry}

theorem counted_start (config : PersistenceConfig) : (start config).Counted config [] [] := by
  obtain ⟨chunks, act, hrec⟩ := (Journal.sound_start config).recorded
  -- nothing has rotated and nothing was appended
  have hnone : chunks = [] := List.eq_nil_of_length_eq_zero hrec.rotations.symm
  subst hnone
  have hempty : act = [] := List.map_eq_nil_iff.mp hrec.appended.symm
  subst hempty
  exact ⟨hrec, rfl, Nat.zero_le _, rfl, rfl, rfl, by simp, [], List.prefix_rfl, rfl⟩

/-- **What is counted grows**, and so does what replay reads: the kept chunks and the part of the active entries that
    is on disk. -/
theorem Counted.increasing (h : x.Counted config chunks act) : x.Increasing := by
  have hall := pairwise_numbers h.bound
  rw [← h.assigned] at hall
  refine ⟨hall, ?_⟩
  obtain ⟨written, hwritten, hactive⟩ := h.whole
  set kept := (chunks.take (segmentsToKeep x.log.wal.backupCount)).reverse ++ [written] with hkept
  have hfiles : x.log.wal.filesInReplayOrder x.log.disk
      = kept.map fun es => es.flatMap WALEntry.serialize := by
    rw [h.recorded.filed.filesInReplayOrder_of_active hactive, hkept, List.map_append, List.map_reverse,
      List.map_take]
    rfl
  have hencodes : ∀ es ∈ kept, ∀ e ∈ es, Encodes e.command := by
    intro es hes e he
    rcases List.mem_append.mp hes with hes' | hes'
    · exact h.recorded.encodes es (List.mem_cons_of_mem _ (List.mem_of_mem_take (List.mem_reverse.mp hes'))) e he
    · obtain rfl := List.mem_singleton.mp hes'
      exact h.recorded.encodes act (List.mem_cons_self ..) e (hwritten.subset he)
  refine ⟨kept.flatten, kept.flatten.length, ?_, ?_⟩
  · rw [WriteAheadLog.replay, hfiles]
    exact replayFiles_entries kept hencodes
  · -- what is kept is a part of what was appended, in the same order
    have hsub : kept.flatten.Sublist (chunks.reverse.flatten ++ act) := by
      rw [hkept, List.flatten_append, List.flatten_singleton]
      exact (List.Sublist.flatten (List.take_sublist _ _).reverse).append hwritten.sublist
    rw [← h.entries] at hall
    exact hall.sublist (hsub.map WALEntry.sequence)

/-! ## One step -/

theorem Counted.append (h : x.Counted config chunks act) (timestamp : UInt64) {c : Command} (hc : Encodes c)
    (hroom : x.assigned.length < 2 ^ 64) :
    ∃ x', x.step config (.append timestamp c) = some x' ∧ ∃ chunks' act', x'.Counted config chunks' act' := by
  set e : WALEntry := ⟨x.log.wal.sequence, timestamp, c⟩ with he
  have hlength : (x.assigned ++ [x.log.wal.sequence]).length = x.assigned.length + 1 := List.length_append
  have hbound : (x.assigned ++ [x.log.wal.sequence]).length ≤ 2 ^ 64 := by omega
  have hassigned : x.assigned ++ [x.log.wal.sequence] = numbers (x.assigned ++ [x.log.wal.sequence]).length := by
    rw [hlength, numbers_succ, ← h.assigned, h.next]
  have hnext : (x.log.append timestamp c).wal.sequence
      = UInt64.ofNat (x.assigned ++ [x.log.wal.sequence]).length := by
    rw [hlength, UInt64.ofNat_add, ← h.next]
    exact WriteAheadLog.appendCommand_sequence timestamp c x.log.wal x.log.disk
  have hcount : (x.log.append timestamp c).wal.backupCount = config.walBackupCount :=
    (WriteAheadLog.appendCommand_backupCount timestamp c x.log.wal x.log.disk).trans h.backupCount
  have hentries : (chunks.reverse.flatten ++ (act ++ [e])).map WALEntry.sequence
      = x.assigned ++ [x.log.wal.sequence] := by
    rw [← List.append_assoc, List.map_append, h.entries]
    rfl
  refine ⟨_, rfl, ?_⟩
  cases hrot : (x.log.wal.logCommand x.log.disk timestamp c).1.shouldRotate with
  | false =>
      refine ⟨chunks, act ++ [e], h.recorded.append_kept timestamp c hc hrot, hcount, hbound, hassigned, hentries,
        hnext, h.nonempty, ?_⟩
      have hdisk : (x.log.append timestamp c).disk = (x.log.wal.logCommand x.log.disk timestamp c).2 := by
        show (x.log.wal.appendCommand x.log.disk timestamp c).2 = _
        rw [WriteAheadLog.appendCommand_of_kept timestamp c hrot]
      obtain ⟨written, hwritten, hactive⟩ := h.whole
      rw [hdisk]
      -- on disk there is what was there, that and what was buffered, or the entry as well
      rcases WriteAheadLog.logCommand_whole timestamp c h.recorded.filed.holds with hsame | hmore | hall
      · rw [hactive] at hsame
        exact ⟨written, hwritten.trans (List.prefix_append _ _), hsame⟩
      · exact ⟨act, List.prefix_append _ _, hmore⟩
      · rw [Journal.flatMap_entry] at hall
        exact ⟨act ++ [e], List.prefix_rfl, hall⟩
  | true =>
      -- the active entries become the newest chunk; the last of them is the new one, so it is not empty
      refine ⟨(act ++ [e]) :: chunks, [], h.recorded.append_rotated timestamp c hc hrot, hcount, hbound, hassigned,
        ?_, hnext, ?_, [], List.prefix_rfl, ?_⟩
      · rw [List.reverse_cons, List.flatten_append, List.flatten_singleton, List.append_nil]
        exact hentries
      · intro es hes
        rcases List.mem_cons.mp hes with rfl | hes'
        · exact List.append_ne_nil_of_right_ne_nil _ (List.cons_ne_nil _ _)
        · exact h.nonempty es hes'
      · show (x.log.wal.appendCommand x.log.disk timestamp c).2.active = some []
        rw [WriteAheadLog.appendCommand_of_rotated timestamp c hrot]
        rfl

theorem Counted.sync (h : x.Counted config chunks act) : { x with log := x.log.sync }.Counted config chunks act := by
  have hfiled := WriteAheadLog.sync_filed h.recorded.filed
  exact ⟨⟨hfiled, h.recorded.encodes, h.recorded.appended, h.recorded.rotations, h.recorded.mark⟩, h.backupCount,
    h.bound, h.assigned, h.entries, h.next, h.nonempty, act, List.prefix_rfl,
    hfiled.active_eq WriteAheadLog.sync_flushed⟩

omit [Codec] in
/-- The last entry is in the active file or the newest chunk. -/
theorem last_kept {keep : Nat} (hkeep : 1 ≤ keep) (hchunks : ∀ es ∈ chunks, es ≠ []) {e : WALEntry}
    (hlast : (chunks.reverse.flatten ++ act).getLast? = some e) : e ∈ act ++ (chunks.take keep).flatten := by
  rw [List.getLast?_append, Option.or_eq_some_iff] at hlast
  rcases hlast with hact | ⟨-, hflat⟩
  · exact List.mem_append_left _ (List.mem_of_getLast? hact)
  · -- nothing in the active file: the newest chunk is not empty
    cases chunks with
    | nil => cases hflat
    | cons newest chunks =>
        rw [List.reverse_cons, List.flatten_append, List.flatten_singleton, List.getLast?_append,
          List.getLast?_eq_some_getLast (hchunks newest (List.mem_cons_self ..)), Option.some_or] at hflat
        obtain ⟨k, rfl⟩ : ∃ k, keep = k + 1 := ⟨keep - 1, by omega⟩
        apply List.mem_append_right
        rw [List.take_succ_cons, List.flatten_cons]
        apply List.mem_append_left
        cases hflat
        exact List.getLast_mem _

omit [Codec] in
/-- A scan that meets the greatest number ends with it. -/
theorem noteSequences_eq {es : List WALEntry} {e : WALEntry} (he : e ∈ es)
    (hmax : ∀ e' ∈ es, e'.sequence.toNat ≤ e.sequence.toNat) : noteSequences (0, false) es = (e.sequence, true) := by
  have hle := (le_noteSequences (0, false) es).2 e he
  have hge : (noteSequences (0, false) es).1.toNat ≤ e.sequence.toNat := by
    rcases noteSequences_mem (0, false) es with hzero | ⟨e', he', heq⟩
    · rw [hzero]
      exact Nat.zero_le _
    · rw [heq]
      exact hmax e' he'
  exact Prod.ext (UInt64.toNat_inj.mp (Nat.le_antisymm hge hle)) (noteSequences_found (List.ne_nil_of_mem he))

/-- What the scan of the kept files finds: the number of appends. -/
theorem Counted.scan (h : x.Counted config chunks act) {keep : Nat} (hkeep : 1 ≤ keep) :
    (let acc := noteSequences (0, false) (act ++ (chunks.take keep).flatten)
      if acc.2 then acc.1 + 1 else 0) = UInt64.ofNat x.assigned.length := by
  cases hn : x.assigned.length with
  | zero =>
      have hnil : chunks.reverse.flatten ++ act = [] := by
        apply List.map_eq_nil_iff.mp
        rw [h.entries]
        exact List.eq_nil_of_length_eq_zero hn
      obtain ⟨hflat, rfl⟩ := List.append_eq_nil_iff.mp hnil
      have hnone : chunks = [] := by
        cases chunks with
        | nil => rfl
        | cons es chunks =>
            have hes := List.flatten_eq_nil_iff.mp hflat es (List.mem_reverse.mpr (List.mem_cons_self ..))
            exact absurd hes (h.nonempty es (List.mem_cons_self ..))
      rw [hnone, List.take_nil]
      rfl
  | succ n =>
      have hbound := h.bound
      have hassigned := h.assigned
      rw [hn] at hbound hassigned
      -- the last entry has the last number
      have hlast : ((chunks.reverse.flatten ++ act).getLast?).map WALEntry.sequence = some (UInt64.ofNat n) := by
        rw [← List.getLast?_map, h.entries, hassigned, numbers_succ, List.getLast?_concat]
      obtain ⟨e, he, hseq⟩ := Option.map_eq_some_iff.mp hlast
      have hmax : ∀ e' ∈ act ++ (chunks.take keep).flatten, e'.sequence.toNat ≤ e.sequence.toNat := by
        intro e' he'
        have hmem : e' ∈ chunks.reverse.flatten ++ act := by
          rcases List.mem_append.mp he' with hact | hflat
          · exact List.mem_append_right _ hact
          · obtain ⟨es, hes, hin⟩ := List.mem_flatten.mp hflat
            exact List.mem_append_left _
              (List.mem_flatten.mpr ⟨es, List.mem_reverse.mpr (List.mem_of_mem_take hes), hin⟩)
        have hnumber := List.mem_map_of_mem (f := WALEntry.sequence) hmem
        rw [h.entries, hassigned, numbers, List.mem_map] at hnumber
        obtain ⟨i, hi, hi'⟩ := hnumber
        rw [List.mem_range] at hi
        rw [← hi', hseq, toNat_ofNat_of_lt (by omega), toNat_ofNat_of_lt (by omega)]
        omega
      rw [noteSequences_eq (last_kept hkeep h.nonempty he) hmax]
      dsimp only
      rw [if_pos rfl, hseq, UInt64.ofNat_add]
      rfl

/-- **The counter comes back** when a log is closed and reopened. -/
theorem Counted.reopen (h : x.Counted config chunks act) :
    ∃ x', x.step config .reopen = some x' ∧ x'.Counted config chunks act := by
  obtain ⟨log, hlog, hrec, hflushed, hcount, hsequence⟩ := h.recorded.reopen h.backupCount
  refine ⟨{ x with log }, ?_, hrec, hcount, h.bound, h.assigned, h.entries, ?_, h.nonempty, act, List.prefix_rfl,
    hrec.filed.active_eq hflushed⟩
  · rw [step, hlog]
    rfl
  · rw [hsequence]
    exact h.scan (le_max_right _ _)

/-! ## Runs -/

/-- **Sequence numbers are never reused** in a run whose steps are countable, whenever it rotates, is flushed or
    reopened: such a run goes on, and the numbers grow, as taken and as replayed. -/
theorem numbers_increase (config : PersistenceConfig) (events : List NumberedEvent)
    (h : Along (step config) Countable (start config) events) :
    ∃ x, run (step config) (start config) events = some x ∧ x.Increasing := by
  -- by induction along the run, carried by `Counted`
  have hstep : ∀ (x : Numbered) (e : NumberedEvent), (∃ chunks act, x.Counted config chunks act) → x.Countable e →
      ∃ x', x.step config e = some x' ∧ ∃ chunks act, x'.Counted config chunks act := by
    rintro x e ⟨chunks, act, hx⟩ he
    cases e with
    | append timestamp c => exact hx.append timestamp he.1 he.2
    | sync => exact ⟨_, rfl, chunks, act, hx.sync⟩
    | reopen =>
        obtain ⟨x', hx', hcounted⟩ := hx.reopen
        exact ⟨x', hx', chunks, act, hcounted⟩
  obtain ⟨x, hrun, chunks, act, hcounted⟩ := run_progress hstep events _ h ⟨[], [], counted_start config⟩
  exact ⟨x, hrun, hcounted.increasing⟩

/-! ## Which runs are countable -/

/-- An append of a command the codec carries, or no append. -/
def Encoded : NumberedEvent → Prop
  | .append _ c => Encodes c
  | .sync => True
  | .reopen => True

theorem length_assigned_step {x' : Numbered} {e : NumberedEvent} (h : x.step config e = some x') :
    x'.assigned.length ≤ x.assigned.length + 1 := by
  cases e with
  | append timestamp c =>
      cases h
      exact List.length_append.le
  | sync =>
      cases h
      exact Nat.le_succ _
  | reopen =>
      obtain ⟨log, -, rfl⟩ := Option.map_eq_some_iff.mp h
      exact Nat.le_succ _

/-- Every run of fewer than `2^64` events with commands the codec carries. -/
theorem along_countable {events : List NumberedEvent} (h : ∀ e ∈ events, Encoded e)
    (hlen : x.assigned.length + events.length ≤ 2 ^ 64) : Along (step config) Countable x events := by
  induction events generalizing x with
  | nil => trivial
  | cons e events ih =>
      rw [List.length_cons] at hlen
      refine ⟨?_, fun x' hx' => ih (fun e' he' => h e' (List.mem_cons_of_mem _ he')) ?_⟩
      · have he := h e (List.mem_cons_self ..)
        cases e with
        | append timestamp c => exact ⟨he, by omega⟩
        | sync => trivial
        | reopen => trivial
      · have hmore := length_assigned_step hx'
        omega

omit [Codec] in
/-- Two increments that each fill the log, a reopen, and one more. -/
theorem numbers_increase_incr :
    let _ := incrCodec
    ∃ x, run (step ⟨.everySecond, 30, 1⟩) (start ⟨.everySecond, 30, 1⟩)
        [.append 5 (.incr (utf8 "a")), .append 6 (.incr (utf8 "b")), .reopen, .append 7 (.incr (utf8 "c"))] = some x ∧
      x.Increasing := by
  intro _
  refine numbers_increase ⟨.everySecond, 30, 1⟩ _ (along_countable ?_ (by decide))
  intro e he
  simp only [List.mem_cons, List.not_mem_nil, or_false] at he
  rcases he with rfl | rfl | rfl | rfl
  · exact encodes_incr _ (by decide)
  · exact encodes_incr _ (by decide)
  · trivial
  · exact encodes_incr _ (by decide)

/-! ## A command of 4 GiB -/

omit [Codec] in
/-- A header that announces the greatest sequence number and a command of `2^32 - 48` bytes. -/
def embeddedHeader : Bytes := List.replicate 8 255 ++ List.replicate 8 0 ++ [255, 255, 255, 208]

/-- The scan of an entry whose command takes `2^32` bytes: its size field is 0, so behind four bytes of the command
    the scan finds a header in the command, and four bytes on another. -/
theorem scan_embedded {c : Command} {rest : Bytes}
    (henc : Codec.encode c = [3, 0, 0, 0] ++ (([0xF4, 0xFF, 0xFF, 0xFF, 0, 0, 0, 0] ++ List.replicate 12 0) ++
      List.replicate 4 0 ++ (embeddedHeader ++ rest)))
    (hrest : rest.length = 4294967248) (timestamp : UInt64) :
    lastSequenceLoop (WALEntry.mk 0 timestamp c).serialize.length (0, false) (WALEntry.mk 0 timestamp c).serialize
      = .ok (18446744073709551615, true) := by
  set e : WALEntry := ⟨0, timestamp, c⟩ with he
  set hdr : Bytes := [0xF4, 0xFF, 0xFF, 0xFF, 0, 0, 0, 0] ++ List.replicate 12 0 with hhdr
  obtain ⟨sum, hsum⟩ : ∃ sum : Bytes, BigEndian.toBytes 4 (Codec.crc32 e.body).toNat = sum := ⟨_, rfl⟩
  have hsum_len : sum.length = 4 := by rw [← hsum, BigEndian.length_toBytes]
  have hlen : (Codec.encode c).length = 2 ^ 32 := by
    rw [henc]
    simp only [List.length_append, hrest, hhdr, embeddedHeader, List.length_cons, List.length_nil,
      List.length_replicate]
    norm_num
  have hdata : e.serialize
      = e.header ++ [3, 0, 0, 0] ++ (hdr ++ List.replicate 4 0 ++ (embeddedHeader ++ (rest ++ sum) ++ [])) := by
    rw [e.serialize_eq, WALEntry.payload, hsum, show e.command = c from rfl, henc]
    simp only [List.append_assoc, List.append_nil]
  have hzero : ([3, 0, 0, 0] : Bytes).length = headerSize e.header + 4 := by
    rw [e.headerSize_eq, show e.command = c from rfl, hlen]
    rfl
  -- four frames: the entry's own header with a command of no bytes, two headers in the command, and too few bytes
  rw [hdata, lastSequenceLoop_frame e.length_header hzero, lastSequenceLoop_frame (by decide) (by decide),
    lastSequenceLoop_frame (by decide) (by rw [List.length_append, hrest, hsum_len]; decide),
    lastSequenceLoop_short _ (by decide), e.headerSequence_eq]
  -- the greatest of the three numbers is the embedded one
  have hmax : (max (headerSequence embeddedHeader) (max (headerSequence hdr) (max (0 : UInt64) 0)), true)
      = ((18446744073709551615, true) : UInt64 × Bool) := by decide
  exact congrArg Except.ok hmax

/-- Behind such an entry the reopened log starts from 0 again. -/
theorem repeats_of_scan {c : Command} {timestamp : UInt64} (hlen : (Codec.encode c).length = 2 ^ 32)
    (hscan : lastSequenceLoop (WALEntry.mk 0 timestamp c).serialize.length (0, false)
      (WALEntry.mk 0 timestamp c).serialize = .ok (18446744073709551615, true)) (next : Command) :
    ∃ x, run (step ⟨.always, 18446744073709551615, 1⟩) (start ⟨.always, 18446744073709551615, 1⟩)
        [.append timestamp c, .reopen, .append timestamp next] = some x ∧ x.assigned = [0, 0] := by
  obtain ⟨config, hconfig⟩ : ∃ config : PersistenceConfig, config = ⟨.always, 18446744073709551615, 1⟩ := ⟨_, rfl⟩
  rw [← hconfig]
  obtain ⟨first, hfirst⟩ : ∃ first : Journal, (Journal.start config).append timestamp c = first := ⟨_, rfl⟩
  have hopen : (Journal.start config).wal.Filed (Journal.start config).disk [] [] :=
    ⟨fun i _ => rfl, ⟨Or.inl rfl, rfl⟩, rfl⟩
  have hrot : ((Journal.start config).wal.logCommand (Journal.start config).disk timestamp c).1.shouldRotate
      = false := by
    have hentry : (WALEntry.mk 0 timestamp c).serialize.length = 4294967320 := by
      have hcommand : (Codec.encode c).length = 4294967296 := hlen
      refine (WALEntry.length_serialize _).trans ?_
      rw [show (WALEntry.mk 0 timestamp c).command = c from rfl, hcommand]
    rw [WriteAheadLog.logCommand_shouldRotate]
    refine decide_eq_false ?_
    show ¬ config.maxWalSizeBytes ≤ 0 + UInt64.ofNat (WALEntry.mk 0 timestamp c).serialize.length
    rw [hentry, hconfig]
    decide
  have hsequence : (Journal.start config).wal.sequence = 0 := rfl
  have hfiled := WriteAheadLog.appendCommand_kept timestamp c hopen hrot
  rw [List.nil_append, hsequence] at hfiled
  have hcount := WriteAheadLog.appendCommand_backupCount timestamp c (Journal.start config).wal
    (Journal.start config).disk
  have hwal : (Journal.start config).wal.appendCommand (Journal.start config).disk timestamp c
      = (first.wal, first.disk) := by
    rw [← hfirst]
    rfl
  rw [hwal] at hfiled hcount
  have hfiles : WriteAheadLog.lastSequenceFiles (0, false)
      ((WALEntry.mk 0 timestamp c).serialize :: ([] : List Bytes).take (segmentsToKeep config.walBackupCount))
        = .ok (18446744073709551615, true) := by
    rw [List.take_nil, WriteAheadLog.lastSequenceFiles, hscan]
    rfl
  obtain ⟨wal, hnew, hsequence⟩ := (WriteAheadLog.sync_filed hfiled).reopen config WriteAheadLog.sync_flushed hcount
    hfiles
  have hreopen : first.step config .reopen = some { first with wal, disk := (first.wal.sync first.disk).2 } := by
    rw [Journal.step, hnew]
  -- the reopened counter is one past the greatest number: 0 again
  refine ⟨⟨({ first with wal, disk := (first.wal.sync first.disk).2 } : Journal).append timestamp next,
    [0] ++ [wal.sequence]⟩, ?_, ?_⟩
  · have hlast : step config ⟨first, [0]⟩ .reopen
        = some ⟨{ first with wal, disk := (first.wal.sync first.disk).2 }, [0]⟩ := by
      rw [step, hreopen]
      rfl
    have hstart : step config (start config) (.append timestamp c) = some ⟨first, [0]⟩ := by
      rw [← hfirst]
      rfl
    exact run_cons.mpr ⟨⟨first, [0]⟩, hstart, run_cons.mpr ⟨_, hlast, rfl⟩⟩
  · have hzero : (if ((18446744073709551615, true) : UInt64 × Bool).2 = true then
        ((18446744073709551615, true) : UInt64 × Bool).1 + 1 else 0) = 0 := by decide
    rw [hsequence, hzero]
    rfl

omit [Codec] in
/-- An `INCR` whose key takes 4 GiB less 12 bytes, written to a log without rotation: the number after the reopen is
    the first one again. -/
theorem numbers_repeat :
    let _ := incrCodec
    ¬ ∀ (config : PersistenceConfig) (events : List NumberedEvent) (x : Numbered), 0 < config.maxWalSizeBytes →
      (∀ timestamp c, .append timestamp c ∈ events → Codec.decode (Codec.encode c) = .ok c) →
      run (step config) (start config) events = some x → x.Increasing := by
  intro _ hall
  obtain ⟨rest, hrest⟩ : ∃ rest : Bytes, rest.length = 4294967248 :=
    ⟨List.replicate 4294967248 0, List.length_replicate⟩
  set key : Bytes := List.replicate 12 0 ++ (List.replicate 4 0 ++ (embeddedHeader ++ rest)) with hkey
  have hlen : key.length = 4294967284 := by
    rw [hkey]
    simp only [List.length_append, hrest, embeddedHeader, List.length_cons, List.length_nil, List.length_replicate]
  have henc : encodeIncr (.incr key) = [3, 0, 0, 0] ++ (([0xF4, 0xFF, 0xFF, 0xFF, 0, 0, 0, 0] ++ List.replicate 12 0) ++
      List.replicate 4 0 ++ (embeddedHeader ++ rest)) := by
    have hfield : (BigEndian.toBytes 8 4294967284).reverse = [0xF4, 0xFF, 0xFF, 0xFF, 0, 0, 0, 0] := by decide
    rw [encodeIncr, hlen, hfield, hkey]
    simp only [List.cons_append, List.nil_append, List.append_assoc]
  have hsize : (encodeIncr (.incr key)).length = 2 ^ 32 := by
    rw [length_encodeIncr, hlen]
    norm_num
  obtain ⟨x, hrun, hassigned⟩ := repeats_of_scan hsize (scan_embedded henc hrest 5) (.incr [])
  have hcodec : ∀ timestamp c, .append timestamp c ∈ ([.append 5 (.incr key), .reopen, .append 5 (.incr [])] :
      List NumberedEvent) → Codec.decode (Codec.encode c) = .ok c := by
    intro timestamp c hc
    simp only [List.mem_cons, List.not_mem_nil, or_false, NumberedEvent.append.injEq, reduceCtorEq, false_or] at hc
    rcases hc with ⟨-, rfl⟩ | ⟨-, rfl⟩
    · exact decodeIncr_encodeIncr key (by rw [hlen]; norm_num)
    · exact decodeIncr_encodeIncr [] (by norm_num)
  have hincreasing := (hall _ _ x (by decide) hcodec hrun).assigned
  rw [hassigned] at hincreasing
  exact absurd hincreasing (by decide)

end Numbered

end FerricCache
