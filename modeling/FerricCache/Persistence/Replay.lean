import FerricCache.Persistence.Wal

/-!
# `FerricCache.Persistence.Replay` — what the two readers make of a log file

A file that starts with whole entries gives them back in order, and what comes after them is read as if
it were a file of its own (`replayFile_append`, `lastSequenceLoop_append`). What may come after is the
tail of a torn write: fewer bytes than a header end the log, but a whole header with a cut body makes
both readers fail (`torn_tail_iff`).
-/

namespace FerricCache

open Lib

/-! ## Headers -/

/-- Only the first 20 bytes count. -/
theorem headerSize_append {hdr : Bytes} (h : hdr.length = 20) (rest : Bytes) :
    headerSize (hdr ++ rest) = headerSize hdr := by
  rw [headerSize, headerSize, List.drop_append_of_le_length (by omega),
    List.take_append_of_le_length (by rw [List.length_drop]; omega)]

theorem headerSequence_append {hdr : Bytes} (h : hdr.length = 20) (rest : Bytes) :
    headerSequence (hdr ++ rest) = headerSequence hdr := by
  rw [headerSequence, headerSequence, List.take_append_of_le_length (by omega)]

variable [Codec]

namespace WALEntry

/-- The 20 bytes both readers take first. -/
def header (e : WALEntry) : Bytes :=
  BigEndian.toBytes 8 e.sequence.toNat ++ BigEndian.toBytes 8 e.timestamp.toNat ++
    BigEndian.toBytes 4 (Codec.encode e.command).length

/-- What follows the header: the command and the checksum. -/
def payload (e : WALEntry) : Bytes :=
  Codec.encode e.command ++ BigEndian.toBytes 4 (Codec.crc32 e.body).toNat

theorem body_eq (e : WALEntry) : e.body = e.header ++ Codec.encode e.command := rfl

theorem serialize_eq (e : WALEntry) : e.serialize = e.header ++ e.payload := by
  rw [serialize, body_eq, List.append_assoc, payload, body_eq]

@[simp] theorem length_header (e : WALEntry) : e.header.length = 20 := by simp [header]

@[simp] theorem length_payload (e : WALEntry) :
    e.payload.length = (Codec.encode e.command).length + 4 := by simp [payload]

theorem length_serialize (e : WALEntry) :
    e.serialize.length = 24 + (Codec.encode e.command).length := by
  rw [serialize_eq, List.length_append, length_header, length_payload]
  omega

/-! ## Reading a header back -/

/-- The header holds the low 32 bits of the command size. -/
theorem headerSize_eq (e : WALEntry) : headerSize e.header = (Codec.encode e.command).length % 2 ^ 32 := by
  have hpre : (BigEndian.toBytes 8 e.sequence.toNat ++ BigEndian.toBytes 8 e.timestamp.toNat).length = 16 := by simp
  have hwidth : (256 : Nat) ^ 4 = 2 ^ 32 := by norm_num
  rw [headerSize, header, List.drop_left' hpre, List.take_of_length_le (by simp), BigEndian.ofBytes_toBytes, hwidth]

/-- The command size, read after a header. -/
theorem headerSize_header (e : WALEntry) (rest : Bytes)
    (h : (Codec.encode e.command).length < 2 ^ 32) :
    headerSize (e.header ++ rest) = (Codec.encode e.command).length := by
  rw [headerSize_append e.length_header, headerSize_eq, Nat.mod_eq_of_lt h]

/-- The sequence number at the front of a header. -/
theorem headerSequence_eq (e : WALEntry) : headerSequence e.header = e.sequence := by
  rw [headerSequence, header, List.append_assoc, List.take_left' (BigEndian.length_toBytes 8 _),
    BigEndian.ofBytes_toBytes_of_lt e.sequence.toNat_lt, UInt64.ofNat_toNat]

theorem headerSequence_header (e : WALEntry) (rest : Bytes) :
    headerSequence (e.header ++ rest) = e.sequence := by
  rw [headerSequence_append e.length_header, headerSequence_eq]

/-- The timestamp, read after the sequence number. -/
theorem timestamp_header (e : WALEntry) (rest : Bytes) :
    UInt64.ofNat (BigEndian.ofBytes (((e.header ++ rest).drop 8).take 8)) = e.timestamp := by
  have hdata : e.header ++ rest = BigEndian.toBytes 8 e.sequence.toNat ++
      (BigEndian.toBytes 8 e.timestamp.toNat ++
        (BigEndian.toBytes 4 (Codec.encode e.command).length ++ rest)) := by simp [header]
  rw [BigEndian.ofBytes_field (by simp) hdata e.timestamp.toNat_lt, UInt64.ofNat_toNat]

/-- **`deserialize` undoes `serialize`** for a command the codec carries. -/
theorem deserialize_serialize (e : WALEntry) (h : Encodes e.command) :
    deserialize e.serialize = .ok e := by
  have hlen : e.serialize.length = 24 + (Codec.encode e.command).length := e.length_serialize
  have hcut : e.serialize.length - 4 = e.body.length := by
    rw [serialize, List.length_append, BigEndian.length_toBytes]
    omega
  have htake : e.serialize.take (e.serialize.length - 4) = e.body := by
    rw [hcut, serialize, List.take_left]
  have hsum : BigEndian.ofBytes (e.serialize.drop (e.serialize.length - 4))
      = (Codec.crc32 e.body).toNat := by
    rw [hcut, serialize, List.drop_left]
    exact BigEndian.ofBytes_toBytes_of_lt (Codec.crc32 e.body).toNat_lt
  have hdrop : e.serialize.drop 20 = e.payload := by
    rw [serialize_eq]
    exact List.drop_left' e.length_header
  have hsize : BigEndian.ofBytes ((e.serialize.drop 16).take 4)
      = (Codec.encode e.command).length := by
    rw [serialize_eq]
    exact e.headerSize_header e.payload h.size_lt
  have hcmd : e.payload.take (Codec.encode e.command).length = Codec.encode e.command := by
    rw [payload, List.take_left]
  have hseq : UInt64.ofNat (BigEndian.ofBytes (e.serialize.take 8)) = e.sequence := by
    rw [serialize_eq]
    exact e.headerSequence_header e.payload
  have hstamp : UInt64.ofNat (BigEndian.ofBytes ((e.serialize.drop 8).take 8)) = e.timestamp := by
    rw [serialize_eq]
    exact e.timestamp_header e.payload
  have hlong : ¬ e.serialize.length < 24 := by omega
  have hroom : ¬ e.payload.length < (Codec.encode e.command).length + 4 := by
    rw [length_payload]
    omega
  simp only [deserialize, if_neg hlong, htake, hsum, ne_eq, not_true, if_false, hdrop, hsize,
    if_neg hroom, hcmd, h.decode_encode, hseq, hstamp]

end WALEntry

/-! ## Enough fuel -/

/-- Both readers consume at least 24 bytes a round, so any fuel above the length gives one result. -/
theorem replayLoop_fuel (m n : Nat) (data : Bytes) (hm : data.length ≤ m) (hn : data.length ≤ n) :
    replayLoop m data = replayLoop n data := by
  induction m generalizing n data with
  | zero =>
      have hnil : data = [] := List.eq_nil_of_length_eq_zero (by omega)
      subst hnil
      cases n <;> rfl
  | succ m ih =>
      cases n with
      | zero =>
          have hnil : data = [] := List.eq_nil_of_length_eq_zero (by omega)
          subst hnil
          rfl
      | succ n =>
          rw [replayLoop, replayLoop]
          rw [ih n (data.drop (20 + (headerSize data + 4)))
            (by rw [List.length_drop]; omega) (by rw [List.length_drop]; omega)]

omit [Codec] in
theorem lastSequenceLoop_fuel (m n : Nat) (acc : UInt64 × Bool) (data : Bytes)
    (hm : data.length ≤ m) (hn : data.length ≤ n) :
    lastSequenceLoop m acc data = lastSequenceLoop n acc data := by
  induction m generalizing n acc data with
  | zero =>
      have hnil : data = [] := List.eq_nil_of_length_eq_zero (by omega)
      subst hnil
      cases n <;> rfl
  | succ m ih =>
      cases n with
      | zero =>
          have hnil : data = [] := List.eq_nil_of_length_eq_zero (by omega)
          subst hnil
          rfl
      | succ n =>
          rw [lastSequenceLoop, lastSequenceLoop]
          rw [ih n _ (data.drop (20 + (headerSize data + 4)))
            (by rw [List.length_drop]; omega) (by rw [List.length_drop]; omega)]

/-! ## Whole entries -/

/-- What `replay_file` gives to the callback of a frame: one entry, or none. -/
def called (frame : Bytes) : List WALEntry := (WALEntry.deserialize frame).toOption.toList

theorem length_called_le (frame : Bytes) : (called frame).length ≤ 1 := by
  unfold called
  cases (WALEntry.deserialize frame).toOption with
  | none => exact Nat.zero_le 1
  | some e => exact Nat.le_refl 1

theorem called_serialize (e : WALEntry) (h : Encodes e.command) : called e.serialize = [e] := by
  rw [called, e.deserialize_serialize h]
  rfl

omit [Codec] in
theorem map_zero_add (r : Except WALError Nat) : r.map (0 + ·) = r := by
  cases r <;> simp [Except.map]

/-- A header with as many bytes behind it as it announces is one round of `replay_file`, whatever these are. -/
theorem replayFile_frame {hdr payload : Bytes} (hhdr : hdr.length = 20)
    (hsize : payload.length = headerSize hdr + 4) (rest : Bytes) :
    replayFile (hdr ++ payload ++ rest)
      = (called (hdr ++ payload) ++ (replayFile rest).1,
        (replayFile rest).2.map ((called (hdr ++ payload)).length + ·)) := by
  have hannounced : headerSize (hdr ++ payload ++ rest) = headerSize hdr := by
    rw [List.append_assoc]
    exact headerSize_append hhdr _
  have hround : 20 + (headerSize hdr + 4) = (hdr ++ payload).length := by
    rw [List.length_append]
    omega
  have hlen : (hdr ++ payload ++ rest).length = 20 + (headerSize hdr + 4) + rest.length := by
    rw [hround, List.length_append]
  obtain ⟨m, hm⟩ : ∃ m, (hdr ++ payload ++ rest).length = m + 1 :=
    ⟨(hdr ++ payload ++ rest).length - 1, by omega⟩
  have hlong : ¬ (hdr ++ payload ++ rest).length < 20 := by omega
  have hroom : ¬ ((hdr ++ payload ++ rest).drop 20).length < headerSize hdr + 4 := by
    rw [List.length_drop]
    omega
  have hfuel : replayLoop m rest = replayFile rest := replayLoop_fuel _ _ _ (by omega) le_rfl
  rw [replayFile, hm, replayLoop, if_neg hlong, hannounced, if_neg hroom, hround, List.drop_left,
    List.take_left, hfuel, called]
  cases WALEntry.deserialize (hdr ++ payload) with
  | ok e =>
      have hcount : (fun n => n + 1) = fun n : Nat => 1 + n := funext fun n => Nat.add_comm n 1
      simp only [hcount]
      rfl
  | error e =>
      exact Prod.ext rfl (map_zero_add _).symm

/-- A header with its whole payload behind it is one round of `replay_file`. -/
theorem replayFile_cons (e : WALEntry) (rest : Bytes) (h : Encodes e.command) :
    replayFile (e.serialize ++ rest)
      = (e :: (replayFile rest).1, (replayFile rest).2.map (· + 1)) := by
  have hsize : e.payload.length = headerSize e.header + 4 := by
    rw [e.length_payload, e.headerSize_eq, Nat.mod_eq_of_lt h.size_lt]
  have hround := replayFile_frame e.length_header hsize rest
  rw [← e.serialize_eq, called_serialize e h] at hround
  rw [hround]
  cases (replayFile rest).2 with
  | error _ => rfl
  | ok n => simp [Except.map, Nat.add_comm 1 n]

/-- **Whole entries come back in order**, and what follows them is read as a file of its own. -/
theorem replayFile_append (es : List WALEntry) (rest : Bytes) (h : ∀ e ∈ es, Encodes e.command) :
    replayFile (es.flatMap WALEntry.serialize ++ rest)
      = (es ++ (replayFile rest).1, (replayFile rest).2.map (es.length + ·)) := by
  induction es with
  | nil =>
      rw [List.flatMap_nil, List.nil_append, List.nil_append, List.length_nil, map_zero_add]
  | cons e es ih =>
      rw [List.flatMap_cons, List.append_assoc, replayFile_cons e _ (h e (List.mem_cons_self ..)),
        ih fun e' he' => h e' (List.mem_cons_of_mem _ he'), List.cons_append, List.length_cons]
      cases (replayFile rest).2 with
      | error _ => rfl
      | ok n =>
          have hn : es.length + n + 1 = es.length + 1 + n := by omega
          simp only [Except.map, hn]

/-- The running maximum of `read_last_sequence` after some entries. -/
def noteSequences (acc : UInt64 × Bool) (es : List WALEntry) : UInt64 × Bool :=
  es.foldl (fun acc e => (max e.sequence acc.1, true)) acc

omit [Codec] in
/-- A header with as many bytes behind it as it announces is one round of `read_last_sequence`. -/
theorem lastSequenceLoop_frame {hdr payload : Bytes} (hhdr : hdr.length = 20)
    (hsize : payload.length = headerSize hdr + 4) (acc : UInt64 × Bool) (rest : Bytes) :
    lastSequenceLoop (hdr ++ payload ++ rest).length acc (hdr ++ payload ++ rest)
      = lastSequenceLoop rest.length (max (headerSequence hdr) acc.1, true) rest := by
  have hannounced : headerSize (hdr ++ payload ++ rest) = headerSize hdr := by
    rw [List.append_assoc]
    exact headerSize_append hhdr _
  have hnumber : headerSequence (hdr ++ payload ++ rest) = headerSequence hdr := by
    rw [List.append_assoc]
    exact headerSequence_append hhdr _
  have hround : 20 + (headerSize hdr + 4) = (hdr ++ payload).length := by
    rw [List.length_append]
    omega
  have hlen : (hdr ++ payload ++ rest).length = 20 + (headerSize hdr + 4) + rest.length := by
    rw [hround, List.length_append]
  obtain ⟨m, hm⟩ : ∃ m, (hdr ++ payload ++ rest).length = m + 1 :=
    ⟨(hdr ++ payload ++ rest).length - 1, by omega⟩
  have hlong : ¬ (hdr ++ payload ++ rest).length < 20 := by omega
  have hroom : ¬ ((hdr ++ payload ++ rest).drop 20).length < headerSize hdr + 4 := by
    rw [List.length_drop]
    omega
  rw [hm, lastSequenceLoop, if_neg hlong, hannounced, if_neg hroom, hround, List.drop_left, hnumber]
  exact lastSequenceLoop_fuel _ _ _ _ (by omega) le_rfl

/-- A header with its whole payload behind it is one round of `read_last_sequence`. -/
theorem lastSequenceLoop_cons (e : WALEntry) (acc : UInt64 × Bool) (rest : Bytes)
    (h : (Codec.encode e.command).length < 2 ^ 32) :
    lastSequenceLoop (e.serialize ++ rest).length acc (e.serialize ++ rest)
      = lastSequenceLoop rest.length (max e.sequence acc.1, true) rest := by
  have hsize : e.payload.length = headerSize e.header + 4 := by
    rw [e.length_payload, e.headerSize_eq, Nat.mod_eq_of_lt h]
  have hround := lastSequenceLoop_frame e.length_header hsize acc rest
  rw [← e.serialize_eq, e.headerSequence_eq] at hround
  exact hround

/-- Whole entries leave their greatest sequence number, whatever follows them. -/
theorem lastSequenceLoop_append (es : List WALEntry) (acc : UInt64 × Bool) (rest : Bytes)
    (h : ∀ e ∈ es, (Codec.encode e.command).length < 2 ^ 32) :
    lastSequenceLoop (es.flatMap WALEntry.serialize ++ rest).length acc
        (es.flatMap WALEntry.serialize ++ rest)
      = lastSequenceLoop rest.length (noteSequences acc es) rest := by
  induction es generalizing acc with
  | nil => rfl
  | cons e es ih =>
      rw [List.flatMap_cons, List.append_assoc,
        lastSequenceLoop_cons e acc _ (h e (List.mem_cons_self ..))]
      exact ih _ fun e' he' => h e' (List.mem_cons_of_mem _ he')

omit [Codec] in
theorem toNat_max (a b : UInt64) : (max a b).toNat = max a.toNat b.toNat := by
  show (if a ≤ b then b else a).toNat = max a.toNat b.toNat
  split
  · rename_i h
    exact (max_eq_right (UInt64.le_iff_toNat_le.mp h)).symm
  · rename_i h
    exact (max_eq_left (Nat.le_of_not_le fun h' => h (UInt64.le_iff_toNat_le.mpr h'))).symm

omit [Codec] in
/-- The running maximum is at least every number noted and the one it started from. -/
theorem le_noteSequences (acc : UInt64 × Bool) (es : List WALEntry) :
    acc.1.toNat ≤ (noteSequences acc es).1.toNat ∧
      ∀ e ∈ es, e.sequence.toNat ≤ (noteSequences acc es).1.toNat := by
  induction es generalizing acc with
  | nil => exact ⟨le_rfl, by simp⟩
  | cons e es ih =>
      obtain ⟨hacc, hes⟩ := ih (max e.sequence acc.1, true)
      rw [toNat_max] at hacc
      refine ⟨(le_max_right _ _).trans hacc, ?_⟩
      intro e' he'
      rcases List.mem_cons.mp he' with rfl | he''
      · exact (le_max_left _ _).trans hacc
      · exact hes e' he''

omit [Codec] in
/-- The running maximum is one of the numbers noted, or the one it started from. -/
theorem noteSequences_mem (acc : UInt64 × Bool) (es : List WALEntry) :
    (noteSequences acc es).1 = acc.1 ∨ ∃ e ∈ es, (noteSequences acc es).1 = e.sequence := by
  induction es generalizing acc with
  | nil => exact Or.inl rfl
  | cons e es ih =>
      rcases ih (max e.sequence acc.1, true) with hacc | ⟨e', he', heq⟩
      · have hmax : max e.sequence acc.1 = acc.1 ∨ max e.sequence acc.1 = e.sequence := by
          show (if e.sequence ≤ acc.1 then acc.1 else e.sequence) = _ ∨
            (if e.sequence ≤ acc.1 then acc.1 else e.sequence) = _
          split
          · exact Or.inl rfl
          · exact Or.inr rfl
        rcases hmax with hmax | hmax
        · exact Or.inl (hacc.trans hmax)
        · exact Or.inr ⟨e, List.mem_cons_self .., hacc.trans hmax⟩
      · exact Or.inr ⟨e', List.mem_cons_of_mem _ he', heq⟩

omit [Codec] in
theorem noteSequences_found {acc : UInt64 × Bool} {es : List WALEntry} (h : es ≠ []) :
    (noteSequences acc es).2 = true := by
  obtain ⟨es', e, rfl⟩ := List.eq_nil_or_concat es |>.resolve_left h
  simp [noteSequences]

/-! ## The end of a file -/

/-- Fewer bytes than a header end the log. -/
theorem replayFile_short {data : Bytes} (h : data.length < 20) : replayFile data = ([], .ok 0) := by
  rw [replayFile]
  cases hn : data.length with
  | zero => rfl
  | succ n => rw [replayLoop, if_pos h]

omit [Codec] in
theorem lastSequenceLoop_short {data : Bytes} (acc : UInt64 × Bool) (h : data.length < 20) :
    lastSequenceLoop data.length acc data = .ok acc := by
  cases hn : data.length with
  | zero => rfl
  | succ n => rw [lastSequenceLoop, if_pos h]

/-- A file of whole entries. -/
theorem replayFile_entries (es : List WALEntry) (h : ∀ e ∈ es, Encodes e.command) :
    replayFile (es.flatMap WALEntry.serialize) = (es, .ok es.length) := by
  have hnil : replayFile [] = ([], .ok 0) := rfl
  have hall := replayFile_append es [] h
  rw [List.append_nil, hnil, List.append_nil] at hall
  exact hall

/-- A whole header with a cut payload is an I/O error. -/
theorem lastSequenceLoop_torn (e : WALEntry) (acc : UInt64 × Bool) (n : Nat)
    (h : (Codec.encode e.command).length < 2 ^ 32) (h20 : 20 ≤ n) (hn : n < e.serialize.length) :
    lastSequenceLoop (e.serialize.take n).length acc (e.serialize.take n) = .error .ioError := by
  have hlen := e.length_serialize
  have htake : (e.serialize.take n).length = n := List.length_take_of_le hn.le
  have hdata : e.serialize.take n = e.header ++ e.payload.take (n - 20) := by
    rw [e.serialize_eq, List.take_append, e.length_header,
      List.take_of_length_le (by rw [e.length_header]; exact h20)]
  have hsize : headerSize (e.serialize.take n) = (Codec.encode e.command).length := by
    rw [hdata]
    exact e.headerSize_header _ h
  obtain ⟨m, rfl⟩ : ∃ m, n = m + 1 := ⟨n - 1, by omega⟩
  have hlong : ¬ (e.serialize.take (m + 1)).length < 20 := by omega
  have hcut : ((e.serialize.take (m + 1)).drop 20).length < (Codec.encode e.command).length + 4 := by
    rw [List.length_drop]
    omega
  rw [htake, lastSequenceLoop, if_neg hlong, hsize, if_pos hcut]

/-! ## A torn tail -/

/-- The entries lying wholly before position `p` of their concatenation. -/
def completeEntries : List WALEntry → Nat → List WALEntry
  | [], _ => []
  | e :: es, p =>
      if e.serialize.length ≤ p then e :: completeEntries es (p - e.serialize.length) else []

/-- How many bytes lie between the last complete entry and position `p`. -/
def tornBytes : List WALEntry → Nat → Nat
  | [], _ => 0
  | e :: es, p =>
      if e.serialize.length ≤ p then tornBytes es (p - e.serialize.length) else p

theorem completeEntries_subset {es : List WALEntry} {p : Nat} {e : WALEntry}
    (h : e ∈ completeEntries es p) : e ∈ es := by
  induction es generalizing p with
  | nil => simp [completeEntries] at h
  | cons e' es ih =>
      rw [completeEntries] at h
      split at h
      · rcases List.mem_cons.mp h with rfl | h'
        · exact List.mem_cons_self ..
        · exact List.mem_cons_of_mem _ (ih h')
      · simp at h

/-- A cut log is its complete entries and a proper prefix of the entry it was cut in. -/
theorem take_entries (es : List WALEntry) (p : Nat) :
    ∃ tail : Bytes,
      (es.flatMap WALEntry.serialize).take p
        = (completeEntries es p).flatMap WALEntry.serialize ++ tail ∧
      (tail = [] ∧ tornBytes es p = 0 ∨
        ∃ e ∈ es, tornBytes es p < e.serialize.length ∧ tail = e.serialize.take (tornBytes es p)) := by
  induction es generalizing p with
  | nil => exact ⟨[], by simp [completeEntries], Or.inl ⟨rfl, rfl⟩⟩
  | cons e es ih =>
      by_cases hp : e.serialize.length ≤ p
      · obtain ⟨tail, htake, htail⟩ := ih (p - e.serialize.length)
        refine ⟨tail, ?_, ?_⟩
        · rw [completeEntries, if_pos hp, List.flatMap_cons, List.flatMap_cons, List.take_append,
            List.take_of_length_le hp, htake, List.append_assoc]
        · rw [tornBytes, if_pos hp]
          rcases htail with hnil | ⟨e', he', hcut⟩
          · exact Or.inl hnil
          · exact Or.inr ⟨e', List.mem_cons_of_mem _ he', hcut⟩
      · have hlt : p < e.serialize.length := Nat.lt_of_not_le hp
        refine ⟨e.serialize.take p, ?_, Or.inr ⟨e, List.mem_cons_self .., ?_⟩⟩
        · rw [completeEntries, if_neg hp, List.flatMap_cons, List.take_append_of_le_length hlt.le,
            List.flatMap_nil, List.nil_append]
        · rw [tornBytes, if_neg hp]
          exact ⟨hlt, rfl⟩

/-- With only this active file on disk, the log opens, numbers its next entry above the complete ones,
    and replays exactly these. -/
def TornTailHarmless (config : PersistenceConfig) (es : List WALEntry) (p : Nat) : Prop :=
  ∃ wal disk,
    WriteAheadLog.new config ⟨some ((es.flatMap WALEntry.serialize).take p), fun _ => none, none⟩
      = (.ok wal, disk) ∧
    (∀ e ∈ completeEntries es p, e.sequence < wal.sequence) ∧
    wal.replay disk = (completeEntries es p, .ok (completeEntries es p).length)

omit [Codec] in
theorem reduceOption_map_none {α β : Type} (l : List α) :
    (l.map fun _ => (none : Option β)).reduceOption = [] := by
  rw [List.reduceOption_eq_nil_iff]
  exact ⟨l.length, by simp⟩

omit [Codec] in
/-- Without segments only the active file is scanned. -/
theorem readLastSequence_active (config : PersistenceConfig) (data : Bytes) (snapshot : Option Bytes) :
    WriteAheadLog.readLastSequence config ⟨some data, fun _ => none, snapshot⟩ =
      match lastSequenceLoop data.length (0, false) data with
      | .ok (last, true) => .ok (last + 1)
      | .ok (_, false) => .ok 0
      | .error e => .error e := by
  have hfiles : (some data :: (List.range' 1 (segmentsToKeep config.walBackupCount)).map
      fun _ => (none : Option Bytes)).reduceOption = [data] := by
    rw [List.reduceOption_cons_of_some, reduceOption_map_none]
  show (match WriteAheadLog.lastSequenceFiles (0, false) _ with
    | .ok (last, true) => _
    | .ok (_, false) => _
    | .error e => _) = _
  rw [hfiles]
  cases hscan : lastSequenceLoop data.length (0, false) data with
  | error e => simp only [WriteAheadLog.lastSequenceFiles, hscan]
  | ok acc => simp only [WriteAheadLog.lastSequenceFiles, hscan]

/-- Without segments only the active file is replayed. -/
theorem replay_active (wal : WriteAheadLog) (data : Bytes) (snapshot : Option Bytes) :
    wal.replay ⟨some data, fun _ => none, snapshot⟩ = replayFile data := by
  have hfiles : wal.filesInReplayOrder ⟨some data, fun _ => none, snapshot⟩ = [data] := by
    show segmentsInReplayOrder _ _ ++ [data] = [data]
    rw [segmentsInReplayOrder, reduceOption_map_none, List.nil_append]
  rw [WriteAheadLog.replay, hfiles, WriteAheadLog.replayFiles]
  obtain ⟨es, r⟩ := replayFile data
  cases r with
  | error e => rfl
  | ok n => simp [WriteAheadLog.replayFiles, Except.map]

omit [Codec] in
/-- `last + 1` is above `last` unless it wraps. -/
theorem lt_succ_iff (last : UInt64) : last < last + 1 ↔ last ≠ 18446744073709551615 := by
  rw [UInt64.lt_iff_toNat_lt, UInt64.toNat_add, ne_eq, ← UInt64.toNat_inj]
  have hlast := last.toNat_lt
  have hone : (1 : UInt64).toNat = 1 := rfl
  have hmax : (18446744073709551615 : UInt64).toNat = 18446744073709551615 := rfl
  rw [hone, hmax]
  omega

omit [Codec] in
/-- The next number after the entries noted is above each of them unless one is the greatest number. -/
theorem forall_lt_next_iff (es : List WALEntry) :
    (∀ e ∈ es, e.sequence < (noteSequences (0, false) es).1 + 1) ↔
      ∀ e ∈ es, e.sequence ≠ 18446744073709551615 := by
  have hle := (le_noteSequences (0, false) es).2
  constructor
  · intro h e he hmax
    have hnext := UInt64.lt_iff_toNat_lt.mp (h e he)
    have hge := hle e he
    have htop : e.sequence.toNat = 18446744073709551615 := by rw [hmax]; rfl
    have hlt := ((noteSequences (0, false) es).1 + 1).toNat_lt
    omega
  · intro h e he
    have hlast : (noteSequences (0, false) es).1 ≠ 18446744073709551615 := by
      rcases noteSequences_mem (0, false) es with hzero | ⟨e', he', heq⟩
      · rw [hzero]
        decide
      · rw [heq]
        exact h e' he'
    have hnext := UInt64.lt_iff_toNat_lt.mp ((lt_succ_iff _).mpr hlast)
    exact UInt64.lt_iff_toNat_lt.mpr ((hle e he).trans_lt hnext)

omit [Codec] in
/-- Opening a directory that holds only an active file. -/
theorem new_active (config : PersistenceConfig) (data : Bytes) :
    WriteAheadLog.new config ⟨some data, fun _ => none, none⟩ =
      (match WriteAheadLog.readLastSequence config ⟨some data, fun _ => none, none⟩ with
        | .error e => .error e
        | .ok sequence => .ok
            { writer := ⟨true, 0, []⟩
              sequence
              syncPolicy := config.walSyncPolicy
              currentSize := UInt64.ofNat data.length
              maxSize := config.maxWalSizeBytes
              backupCount := config.walBackupCount }, ⟨some data, fun _ => none, none⟩) := by
  simp only [WriteAheadLog.new, Option.getD_some]
  cases WriteAheadLog.readLastSequence config ⟨some data, fun _ => none, none⟩ <;> rfl

/-- A whole header of the torn entry on disk: the log does not open. -/
theorem not_harmless_of_torn {config : PersistenceConfig} {es : List WALEntry} {p : Nat}
    (h : ∀ e ∈ es, Encodes e.command) (htorn : 20 ≤ tornBytes es p) :
    ¬ TornTailHarmless config es p := by
  rintro ⟨wal, disk, hnew, -⟩
  obtain ⟨tail, htake, htail⟩ := take_entries es p
  have hscan := lastSequenceLoop_append (completeEntries es p) (0, false) tail
    fun e he => (h e (completeEntries_subset he)).size_lt
  have hfail : lastSequenceLoop tail.length (noteSequences (0, false) (completeEntries es p)) tail
      = .error .ioError := by
    rcases htail with ⟨-, hzero⟩ | ⟨e, he, hlt, rfl⟩
    · omega
    · exact lastSequenceLoop_torn e _ _ (h e he).size_lt htorn hlt
  rw [htake, new_active, readLastSequence_active, hscan, hfail] at hnew
  cases hnew

/-- Less than a header of the torn entry on disk: the log opens with the number after the complete
    entries and replays them. -/
theorem new_of_short {es : List WALEntry} {p : Nat} (config : PersistenceConfig)
    (h : ∀ e ∈ es, Encodes e.command) (hshort : tornBytes es p < 20) :
    ∃ wal disk,
      WriteAheadLog.new config ⟨some ((es.flatMap WALEntry.serialize).take p), fun _ => none, none⟩
        = (.ok wal, disk) ∧
      (completeEntries es p ≠ [] →
        wal.sequence = (noteSequences (0, false) (completeEntries es p)).1 + 1) ∧
      wal.replay disk = (completeEntries es p, .ok (completeEntries es p).length) := by
  obtain ⟨tail, htake, htail⟩ := take_entries es p
  have hdone : ∀ e ∈ completeEntries es p, Encodes e.command :=
    fun e he => h e (completeEntries_subset he)
  have hscan := lastSequenceLoop_append (completeEntries es p) (0, false) tail
    fun e he => (hdone e he).size_lt
  have htail20 : tail.length < 20 := by
    rcases htail with ⟨rfl, -⟩ | ⟨e, -, -, rfl⟩
    · decide
    · exact (List.length_take_le _ _).trans_lt hshort
  have hreplay := replayFile_append (completeEntries es p) tail hdone
  rw [replayFile_short htail20, List.append_nil] at hreplay
  have hfound : completeEntries es p ≠ [] →
      (noteSequences (0, false) (completeEntries es p)).2 = true := noteSequences_found
  rw [htake, new_active, readLastSequence_active, hscan, lastSequenceLoop_short _ htail20]
  generalize noteSequences (0, false) (completeEntries es p) = acc at hfound ⊢
  obtain ⟨last, found⟩ := acc
  cases found with
  | false =>
      refine ⟨_, _, rfl, ?_, ?_⟩
      · intro hne
        exact absurd (hfound hne) Bool.false_ne_true
      · rw [replay_active]
        exact hreplay
  | true =>
      refine ⟨_, _, rfl, fun _ => rfl, ?_⟩
      rw [replay_active]
      exact hreplay

/-- **When a torn tail is harmless.** Exactly when the cut leaves less than a header of the torn entry
    (and no complete entry has used up the sequence numbers). -/
theorem torn_tail_iff (config : PersistenceConfig) (es : List WALEntry) (p : Nat)
    (h : ∀ e ∈ es, Encodes e.command) :
    TornTailHarmless config es p ↔
      tornBytes es p < 20 ∧ ∀ e ∈ completeEntries es p, e.sequence ≠ 18446744073709551615 := by
  by_cases hshort : tornBytes es p < 20
  · obtain ⟨wal, disk, hnew, hnext, hreplay⟩ := new_of_short config h hshort
    rw [← forall_lt_next_iff]
    constructor
    · rintro ⟨wal', disk', hnew', hseq, -⟩
      refine ⟨hshort, ?_⟩
      intro e he
      rw [hnew] at hnew'
      cases hnew'
      rw [← hnext (List.ne_nil_of_mem he)]
      exact hseq e he
    · rintro ⟨-, hseq⟩
      refine ⟨wal, disk, hnew, ?_, hreplay⟩
      intro e he
      rw [hnext (List.ne_nil_of_mem he)]
      exact hseq e he
  · constructor
    · intro hharmless
      exact absurd hharmless (not_harmless_of_torn h (Nat.le_of_not_lt hshort))
    · rintro ⟨hlt, -⟩
      exact absurd hlt hshort

/-- The entry of the concrete runs below: `INCR k`, 37 bytes long. -/
def incrEntry : WALEntry := ⟨7, 1700000000000, .incr (utf8 "k")⟩

omit [Codec] in
/-- Cut one byte short of a header, a log of two entries still opens and replays the first. -/
theorem torn_tail_in_header :
    let _ := incrCodec
    tornBytes [incrEntry, incrEntry] 56 = 19 ∧
      TornTailHarmless ⟨.always, 1000, 1⟩ [incrEntry, incrEntry] 56 := by
  intro _
  have henc : ∀ e ∈ [incrEntry, incrEntry], Encodes e.command := by
    intro e he
    obtain rfl : e = incrEntry := by simpa using he
    exact encodes_incr _ (by decide)
  refine ⟨by decide, ?_⟩
  refine (torn_tail_iff ⟨.always, 1000, 1⟩ _ 56 henc).mpr ⟨by decide, ?_⟩
  intro e he
  obtain rfl : e = incrEntry := by simpa using completeEntries_subset he
  decide

omit [Codec] in
/-- Cut one byte later, after the header, it does not open. -/
theorem torn_tail_after_header_blocks :
    let _ := incrCodec
    tornBytes [incrEntry, incrEntry] 57 = 20 ∧
      ¬ TornTailHarmless ⟨.always, 1000, 1⟩ [incrEntry, incrEntry] 57 := by
  intro _
  have henc : ∀ e ∈ [incrEntry, incrEntry], Encodes e.command := by
    intro e he
    obtain rfl : e = incrEntry := by simpa using he
    exact encodes_incr _ (by decide)
  exact ⟨by decide, not_harmless_of_torn henc (by decide +kernel)⟩

end FerricCache
