import FerricCache.Persistence.Replay

/-!
# `FerricCache.Persistence.Damage` — a log with one damaged entry

Both readers take the framing from the headers alone, so bytes changed behind a header are read as one frame of the
announced size: `replay_file` gives at most one entry for it (`length_called_le`), and goes on behind it. That holds
while the size field says how long the command is. `serialize` cuts the size to 32 bits, and behind a command of
4 GiB or more the readers take command bytes for headers, damaged or not (`damage_iff`).
-/

namespace FerricCache

open Lib

variable [Codec]

/-! ## `deserialize` with its panics -/

omit [Codec] in
/-- `get_u64`, `get_u32` and the four indexed bytes of the checksum; `none` is the panic on fewer bytes. -/
def getUint (w : Nat) (data : Bytes) : Option (Nat × Bytes) :=
  if data.length < w then none else some (BigEndian.ofBytes (data.take w), data.drop w)

omit [Codec] in
/-- `split_to`, and the slice before an offset; `none` is the panic past the end. -/
def splitTo (n : Nat) (data : Bytes) : Option (Bytes × Bytes) :=
  if data.length < n then none else some (data.take n, data.drop n)

/-- `deserialize`, operation by operation. -/
def WALEntry.deserializeSteps (data : Bytes) : Option (Except WALError WALEntry) :=
  if data.length < 24 then some (.error (.corruptedEntry (utf8 "Entry too short")))
  else do
    let (body, sum) ← splitTo (data.length - 4) data
    let (expected, _) ← getUint 4 sum
    if (Codec.crc32 body).toNat ≠ expected then
      return .error (.corruptedEntry (utf8 "Checksum mismatch"))
    let (sequence, data) ← getUint 8 data
    let (timestamp, data) ← getUint 8 data
    let (cmdSize, data) ← getUint 4 data
    if data.length < cmdSize + 4 then
      return .error (.corruptedEntry (utf8 "Invalid command size"))
    let (cmd, _) ← splitTo cmdSize data
    match Codec.decode cmd with
    | .ok command => return .ok ⟨UInt64.ofNat sequence, UInt64.ofNat timestamp, command⟩
    | .error e => return .error (.corruptedEntry (utf8 "bincode decode failed: " ++ e))

omit [Codec] in
theorem getUint_eq {w : Nat} {data : Bytes} (h : w ≤ data.length) :
    getUint w data = some (BigEndian.ofBytes (data.take w), data.drop w) :=
  if_neg (Nat.not_lt.mpr h)

omit [Codec] in
theorem splitTo_eq {n : Nat} {data : Bytes} (h : n ≤ data.length) : splitTo n data = some (data.take n, data.drop n) :=
  if_neg (Nat.not_lt.mpr h)

/-- **`deserialize` does not panic**, whatever the bytes: every read is inside what the checks before it leave. -/
theorem deserializeSteps_eq (data : Bytes) : WALEntry.deserializeSteps data = some (WALEntry.deserialize data) := by
  unfold WALEntry.deserializeSteps WALEntry.deserialize
  by_cases hshort : data.length < 24
  · rw [if_pos hshort, if_pos hshort]
  -- from here there are 24 bytes: a header and a checksum
  rw [if_neg hshort, if_neg hshort, splitTo_eq (Nat.sub_le _ _)]
  have hsum : (data.drop (data.length - 4)).take 4 = data.drop (data.length - 4) :=
    List.take_of_length_le (by rw [List.length_drop]; omega)
  simp only [Option.bind_eq_bind, Option.bind_some]
  rw [getUint_eq (by rw [List.length_drop]; omega), hsum]
  simp only [Option.bind_some]
  by_cases hcrc : (Codec.crc32 (data.take (data.length - 4))).toNat ≠ BigEndian.ofBytes (data.drop (data.length - 4))
  · rw [if_pos hcrc, if_pos hcrc]
    rfl
  rw [if_neg hcrc, if_neg hcrc]
  rw [getUint_eq (by omega)]
  simp only [Option.bind_some]
  rw [getUint_eq (by rw [List.length_drop]; omega)]
  simp only [Option.bind_some, List.drop_drop, Nat.reduceAdd]
  rw [getUint_eq (by rw [List.length_drop]; omega)]
  simp only [Option.bind_some, List.drop_drop, Nat.reduceAdd]
  by_cases hsize : (data.drop 20).length < BigEndian.ofBytes ((data.drop 16).take 4) + 4
  · rw [if_pos hsize, if_pos hsize]
    rfl
  -- the size was just compared with what is left
  rw [if_neg hsize, if_neg hsize]
  rw [splitTo_eq (by omega)]
  simp only [Option.bind_some]
  cases Codec.decode ((data.drop 20).take (BigEndian.ofBytes ((data.drop 16).take 4))) with
  | ok command => rfl
  | error e => rfl

/-! ## `replay_file` with its callback -/

section Callback

variable {σ E : Type} (callback : WALEntry → σ → Except E Unit × σ)

/-- The loop of `replay_file` on the file's bytes and what the callback changes; an outer `none` is a panic. An error
    of the callback is printed, and the loop goes on. -/
def replayLoopWith : Nat → Bytes → σ → Option (Except WALError Nat) × σ
  | 0, _, st => (some (.ok 0), st)
  | fuel + 1, data, st =>
      if data.length < 20 then (some (.ok 0), st)
      else if (data.drop 20).length < headerSize data + 4 then (some (.error .ioError), st)
      else
        match WALEntry.deserializeSteps (data.take (20 + (headerSize data + 4))) with
        | none => (none, st)
        | some (.ok e) =>
            let rest := replayLoopWith fuel (data.drop (20 + (headerSize data + 4))) (callback e st).2
            (rest.1.map fun r => r.map (· + 1), rest.2)
        | some (.error _) => replayLoopWith fuel (data.drop (20 + (headerSize data + 4))) st

/-- `replay_file`. -/
def replayFileWith (data : Bytes) (st : σ) : Option (Except WALError Nat) × σ :=
  replayLoopWith callback data.length data st

omit [Codec] in
/-- Call the callback on each entry, whatever it returns. -/
def callAll (es : List WALEntry) (st : σ) : σ := es.foldl (fun st e => (callback e st).2) st

theorem replayLoopWith_eq (fuel : Nat) (data : Bytes) (st : σ) :
    replayLoopWith callback fuel data st
      = (some (replayLoop fuel data).2, callAll callback (replayLoop fuel data).1 st) := by
  induction fuel generalizing data st with
  | zero => rfl
  | succ fuel ih =>
      rw [replayLoopWith, replayLoop, deserializeSteps_eq]
      split
      · rfl
      · split
        · rfl
        · simp only [ih]
          cases WALEntry.deserialize (data.take (20 + (headerSize data + 4))) with
          | ok e => rfl
          | error e => rfl

/-- **`replay_file` calls the callback on the entries it finds**, in order, and never panics. -/
theorem replayFileWith_eq (data : Bytes) (st : σ) :
    replayFileWith callback data st = (some (replayFile data).2, callAll callback (replayFile data).1 st) :=
  replayLoopWith_eq callback data.length data st

end Callback

/-! ## One damaged entry -/

/-- The file of the entries, with `d` behind the header of `e`. -/
def damagedFile (es₁ : List WALEntry) (e : WALEntry) (d : Bytes) (es₂ : List WALEntry) : Bytes :=
  es₁.flatMap WALEntry.serialize ++ (e.header ++ d ++ es₂.flatMap WALEntry.serialize)

/-- The damage costs only `e`: `replay_file` ends well and calls the callback on the other entries, with one call at
    most in its place, and the number read for the next entry is the one of the undamaged file. -/
structure CostsOnlyItself (es₁ : List WALEntry) (e : WALEntry) (d : Bytes) (es₂ : List WALEntry) : Prop where
  replayed : ∃ extra n, extra.length ≤ 1 ∧
    ∀ (σ E : Type) (callback : WALEntry → σ → Except E Unit × σ) (st : σ),
      replayFileWith callback (damagedFile es₁ e d es₂) st
        = (some (.ok n), callAll callback (es₁ ++ extra ++ es₂) st)
  sequence : ∀ config (disk : Disk),
    WriteAheadLog.readLastSequence config { disk with active := some (damagedFile es₁ e d es₂) }
      = WriteAheadLog.readLastSequence config
          { disk with active := some ((es₁ ++ e :: es₂).flatMap WALEntry.serialize) }

omit [Codec] in
/-- Files scanned alike in the place of the active one give the same next number. -/
theorem readLastSequence_congr {data data' : Bytes}
    (h : ∀ acc, lastSequenceLoop data.length acc data = lastSequenceLoop data'.length acc data')
    (config : PersistenceConfig) (disk : Disk) :
    WriteAheadLog.readLastSequence config { disk with active := some data }
      = WriteAheadLog.readLastSequence config { disk with active := some data' } := by
  unfold WriteAheadLog.readLastSequence
  simp only [List.reduceOption_cons_of_some, WriteAheadLog.lastSequenceFiles, h]

/-- Where the size fields are right, the damage is one frame. -/
theorem costsOnlyItself {es₁ es₂ : List WALEntry} {e : WALEntry} {d : Bytes}
    (hothers : ∀ e' ∈ es₁ ++ es₂, Encodes e'.command) (hsize : (Codec.encode e.command).length < 2 ^ 32)
    (hd : d.length = e.payload.length) : CostsOnlyItself es₁ e d es₂ := by
  have h₁ : ∀ e' ∈ es₁, Encodes e'.command := fun e' he' => hothers e' (List.mem_append_left _ he')
  have h₂ : ∀ e' ∈ es₂, Encodes e'.command := fun e' he' => hothers e' (List.mem_append_right _ he')
  have hframe : d.length = headerSize e.header + 4 := by
    rw [hd, e.length_payload, e.headerSize_eq, Nat.mod_eq_of_lt hsize]
  constructor
  · -- the entries before, the frame of the header and the damage, the entries behind
    have hreplay : replayFile (damagedFile es₁ e d es₂)
        = (es₁ ++ called (e.header ++ d) ++ es₂,
          .ok (es₁.length + ((called (e.header ++ d)).length + es₂.length))) := by
      rw [damagedFile, replayFile_append es₁ _ h₁, replayFile_frame e.length_header hframe,
        replayFile_entries es₂ h₂, List.append_assoc]
      rfl
    refine ⟨called (e.header ++ d), es₁.length + ((called (e.header ++ d)).length + es₂.length),
      length_called_le _, fun σ E callback st => ?_⟩
    rw [replayFileWith_eq, hreplay]
  · apply readLastSequence_congr
    intro acc
    -- both files give the numbers of all the entries
    have hintact : (es₁ ++ e :: es₂).flatMap WALEntry.serialize
        = es₁.flatMap WALEntry.serialize ++ (e.serialize ++ es₂.flatMap WALEntry.serialize) := by
      rw [List.flatMap_append, List.flatMap_cons]
    rw [hintact, lastSequenceLoop_append es₁ _ _ fun e' he' => (h₁ e' he').size_lt, lastSequenceLoop_cons e _ _ hsize,
      damagedFile, lastSequenceLoop_append es₁ _ _ fun e' he' => (h₁ e' he').size_lt,
      lastSequenceLoop_frame e.length_header hframe, e.headerSequence_eq]

/-! ## A command of 4 GiB -/

omit [Codec] in
/-- Two calls on an entry that is not among the next two are more than one call too many. -/
theorem two_calls {X extra Y es₂ : List WALEntry} {f : WALEntry} (hX : X.length ≤ 1) (hextra : extra.length ≤ 1)
    (h : X ++ f :: f :: Y = extra ++ es₂) : f ∈ es₂.take 2 := by
  rcases X with _ | ⟨x, _ | ⟨x', X⟩⟩
  · rcases extra with _ | ⟨g, _ | ⟨g', extra⟩⟩
    · cases h
      simp
    · cases h
      simp
    · simp at hextra
  · rcases extra with _ | ⟨g, _ | ⟨g', extra⟩⟩
    · cases h
      simp
    · cases h
      simp
    · simp at hextra
  · simp at hX

omit [Codec] in
theorem exists_fresh_sequence {l : List WALEntry} (h : l.length ≤ 2) :
    ∃ n : UInt64, ∀ e ∈ l, e.sequence ≠ n := by
  by_contra hall
  have hsub : [(0 : UInt64), 1, 2] ⊆ l.map WALEntry.sequence := by
    intro n _
    by_contra hn
    exact hall ⟨n, fun e he heq => hn (List.mem_map.mpr ⟨e, he, heq⟩)⟩
  have hlen := (List.subperm_of_subset (by decide) hsub).length_le
  rw [List.length_map] at hlen
  simp only [List.length_cons, List.length_nil] at hlen
  omega

/-- Bytes for the command and the checksum of an oversize entry: what its header announces, then twice an entry
    `f`, then zeros. -/
def intrusion (e f : WALEntry) : Bytes :=
  List.replicate (headerSize e.header + 4) 0 ++ (f.serialize ++ (f.serialize ++ List.replicate
    (e.payload.length - (headerSize e.header + 4) - 2 * f.serialize.length) 0))

/-- **An oversize entry can be damaged so that it costs more.** -/
theorem not_costsOnlyItself {es₁ : List WALEntry} (e : WALEntry) (es₂ : List WALEntry)
    (h₁ : ∀ e' ∈ es₁, Encodes e'.command) (hlarge : 2 ^ 32 ≤ (Codec.encode e.command).length) {small : Command}
    (hsmall : Encodes small)
    (hlen : (Codec.encode small).length ≤ 2 ^ 30) :
    ∃ d, d.length = e.payload.length ∧ ¬ CostsOnlyItself es₁ e d es₂ := by
  obtain ⟨n, hn⟩ := exists_fresh_sequence (List.length_take_le 2 es₂)
  set f : WALEntry := ⟨n, 0, small⟩ with hf
  -- the size field lost a multiple of 4 GiB, so behind what it announces there is room for two small entries
  have hannounced : headerSize e.header + 4 + 2 * f.serialize.length ≤ e.payload.length := by
    have hf_len : f.serialize.length ≤ 24 + 2 ^ 30 := by
      rw [f.length_serialize]
      exact Nat.add_le_add_left hlen 24
    have hmod := Nat.div_add_mod (Codec.encode e.command).length (2 ^ 32)
    have hdiv : 1 ≤ (Codec.encode e.command).length / 2 ^ 32 := (Nat.one_le_div_iff (by norm_num)).mpr hlarge
    rw [e.headerSize_eq, e.length_payload]
    omega
  refine ⟨intrusion e f, ?_, fun hcosts => ?_⟩
  · simp only [intrusion, List.length_append, List.length_replicate]
    omega
  obtain ⟨extra, count, hextra, hcalls⟩ := hcosts.replayed
  -- a callback that keeps the list of its calls
  have hlist := hcalls (List WALEntry) Unit (fun e st => (.ok (), st ++ [e])) []
  have hkept : ∀ es : List WALEntry, callAll (fun e st => ((.ok () : Except Unit Unit), st ++ [e])) es [] = es := by
    intro es
    have hfold : ∀ (es st : List WALEntry),
        callAll (fun e st => ((.ok () : Except Unit Unit), st ++ [e])) es st = st ++ es := by
      intro es
      induction es with
      | nil => intro st; exact (List.append_nil st).symm
      | cons e es ih =>
          intro st
          exact (ih (st ++ [e])).trans (by rw [List.append_assoc]; rfl)
    exact hfold es []
  rw [replayFileWith_eq, hkept, hkept] at hlist
  have hfound := congrArg Prod.snd hlist
  dsimp only at hfound
  -- what the loop delivers behind the entries before: at most one entry for the zeros, then `f` twice
  rw [damagedFile, replayFile_append es₁ _ h₁] at hfound
  dsimp only at hfound
  rw [List.append_assoc es₁] at hfound
  have hrest := List.append_cancel_left hfound
  rw [intrusion, ← List.append_assoc e.header, List.append_assoc,
    replayFile_frame e.length_header (by rw [List.length_replicate]), List.append_assoc,
    replayFile_cons f _ hsmall, List.append_assoc, replayFile_cons f _ hsmall] at hrest
  have hmem := two_calls (length_called_le _) hextra hrest
  exact hn f hmem rfl

/-! ## Together -/

/-- **When a damaged entry costs only itself.** Whichever entry is damaged behind its header, and however, exactly when
    no command of the log takes 4 GiB. `bincode` decodes what it encoded, and encodes some command in a gigabyte. -/
theorem damage_iff (entries : List WALEntry)
    (hcodec : ∀ e ∈ entries, Codec.decode (Codec.encode e.command) = .ok e.command) {small : Command}
    (hsmall : Encodes small) (hlen : (Codec.encode small).length ≤ 2 ^ 30) :
    (∀ es₁ e es₂ d, entries = es₁ ++ e :: es₂ → d.length = e.payload.length → CostsOnlyItself es₁ e d es₂) ↔
      ∀ e ∈ entries, (Codec.encode e.command).length < 2 ^ 32 := by
  constructor
  · intro h
    by_contra hlarge
    -- the first oversize entry is the one to damage
    obtain ⟨e, hfind⟩ : ∃ e, entries.find? (fun e => decide (2 ^ 32 ≤ (Codec.encode e.command).length)) = some e := by
      rw [← Option.isSome_iff_exists, List.find?_isSome]
      by_contra hnone
      exact hlarge fun e he => Nat.lt_of_not_le fun hle => hnone ⟨e, he, decide_eq_true hle⟩
    obtain ⟨hover, es₁, es₂, rfl, hbefore⟩ := List.find?_eq_some_iff_append.mp hfind
    have h₁ : ∀ e' ∈ es₁, Encodes e'.command := by
      intro e' he'
      have hfits := hbefore e' he'
      rw [Bool.not_eq_true', decide_eq_false_iff_not, Nat.not_le] at hfits
      exact ⟨hcodec e' (List.mem_append_left _ he'), hfits⟩
    obtain ⟨d, hd, hcosts⟩ := not_costsOnlyItself e es₂ h₁ (of_decide_eq_true hover) hsmall hlen
    exact hcosts (h es₁ e es₂ d rfl hd)
  · rintro h es₁ e es₂ d rfl hd
    refine costsOnlyItself ?_ (h e (by simp)) hd
    intro e' he'
    have hmem : e' ∈ es₁ ++ e :: es₂ := by
      rcases List.mem_append.mp he' with he' | he'
      · exact List.mem_append_left _ he'
      · exact List.mem_append_right _ (List.mem_cons_of_mem _ he')
    exact ⟨hcodec e' hmem, h e' hmem⟩

omit [Codec] in
/-- The second of two increments, overwritten with zeros behind its header. -/
theorem damage_of_zeros :
    let _ := incrCodec
    CostsOnlyItself [incrEntry] incrEntry (List.replicate 17 0) [] := by
  intro _
  have henc : ∀ e ∈ [incrEntry, incrEntry], Encodes e.command := by
    intro e he
    obtain rfl : e = incrEntry := by simpa using he
    exact encodes_incr _ (by decide)
  have hall := (damage_iff [incrEntry, incrEntry] (fun e he => (henc e he).decode_encode)
    (encodes_incr [] (by decide)) (by decide)).mpr fun e he => (henc e he).size_lt
  exact hall [incrEntry] incrEntry [] _ rfl (by decide)

omit [Codec] in
/-- A log of one `INCR` whose key takes 4 GiB less 12 bytes: the size field of its entry is 0. -/
theorem damage_of_large_key :
    let _ := incrCodec
    ¬ ∀ entries : List WALEntry, (∀ e ∈ entries, Codec.decode (Codec.encode e.command) = .ok e.command) →
      ∀ es₁ e es₂ d, entries = es₁ ++ e :: es₂ → d.length = e.payload.length → CostsOnlyItself es₁ e d es₂ := by
  intro _ hall
  obtain ⟨key, hkey⟩ : ∃ key : Bytes, key.length = 4294967284 := ⟨List.replicate 4294967284 0, List.length_replicate⟩
  have hlarge : 2 ^ 32 ≤ (Codec.encode (.incr key)).length := by
    show 2 ^ 32 ≤ (encodeIncr (.incr key)).length
    rw [length_encodeIncr, hkey]
    norm_num
  have hnone : ∀ e ∈ ([] : List WALEntry), Encodes e.command := by simp
  obtain ⟨d, hd, hcosts⟩ := not_costsOnlyItself ⟨0, 0, .incr key⟩ [] hnone hlarge (encodes_incr [] (by decide))
    (by decide)
  refine hcosts (hall [⟨0, 0, .incr key⟩] ?_ [] _ [] d rfl hd)
  intro e he
  obtain rfl := List.mem_singleton.mp he
  exact decodeIncr_encodeIncr key (by rw [hkey]; norm_num)

end FerricCache
