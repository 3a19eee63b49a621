import FerricCache.Persistence.Journal

/-!
# `FerricCache.Persistence.TornRestart` — appending behind a torn tail

A log whose active file ends in less than a header of a torn entry reopens, but neither `new` nor
`append_command` removes the fragment: the next entries are written behind it. The next reader takes the
fragment for the start of a header, so it frames every byte of the session wrongly. The frames it can
deliver do not hold as many bytes as the entries did (`replayLoop_weight`), which is why the commands
cannot come back unless a checksum matches by accident (`torn_restart_iff`).
-/

namespace FerricCache

open Lib

variable [Codec]

/-! ## What a reader can deliver -/

/-- The bytes the entry of a command takes. -/
def entryWeight (c : Command) : Nat := 24 + (Codec.encode c).length

/-- `bincode` reads at least as many bytes as it writes for the same command. -/
def DecodesFully : Prop :=
  ∀ b c, Codec.decode b = .ok c → (Codec.encode c).length ≤ b.length

/-- The checksum of the first frame of a file matches. -/
def FrameSums (data : Bytes) : Prop :=
  (Codec.crc32 (data.take (20 + headerSize data))).toNat
    = BigEndian.ofBytes ((data.drop (20 + headerSize data)).take 4)

/-- What `deserialize` has checked of a frame it accepts. -/
theorem deserialize_ok {data : Bytes} {e : WALEntry} (h : WALEntry.deserialize data = .ok e) :
    (Codec.crc32 (data.take (data.length - 4))).toNat = BigEndian.ofBytes (data.drop (data.length - 4)) ∧
      ∃ size, size + 4 ≤ (data.drop 20).length ∧
        Codec.decode ((data.drop 20).take size) = .ok e.command := by
  unfold WALEntry.deserialize at h
  split at h
  · cases h
  · dsimp only at h
    split at h
    · cases h
    · rename_i hsum
      split at h
      · cases h
      · rename_i hsize
        refine ⟨not_not.mp hsum, _, Nat.le_of_not_lt hsize, ?_⟩
        generalize Codec.decode _ = r at h ⊢
        cases r with
        | error e => cases h
        | ok c =>
            cases h
            rfl

/-- An accepted frame holds at least the bytes of its command's entry. -/
theorem entryWeight_le (hdec : DecodesFully) {data : Bytes} {e : WALEntry}
    (h : WALEntry.deserialize data = .ok e) (hlong : 20 ≤ data.length) :
    entryWeight e.command ≤ data.length := by
  obtain ⟨-, size, hsize, hcmd⟩ := deserialize_ok h
  have hle := hdec _ _ hcmd
  rw [List.length_take] at hle
  rw [List.length_drop] at hsize hle
  unfold entryWeight
  omega

/-- **The entries delivered weigh no more than the file**, and less by a whole frame when the first one
    fails its checksum. -/
theorem replayLoop_weight (hdec : DecodesFully) (fuel : Nat) (data : Bytes) (es : List WALEntry) (n : Nat)
    (h : replayLoop fuel data = (es, .ok n)) :
    (es.map fun e => entryWeight e.command).sum ≤ data.length := by
  induction fuel generalizing data es n with
  | zero =>
      cases h
      exact Nat.zero_le _
  | succ fuel ih =>
      rw [replayLoop] at h
      split at h
      · cases h
        exact Nat.zero_le _
      · rename_i hlong
        split at h
        · cases h
        · rename_i hroom
          rw [List.length_drop] at hroom
          have hrest := ih (data.drop (20 + (headerSize data + 4)))
          dsimp only at h
          generalize replayLoop fuel (data.drop (20 + (headerSize data + 4))) = r at h hrest
          obtain ⟨es', res⟩ := r
          rw [List.length_drop] at hrest
          cases hframe : WALEntry.deserialize (data.take (20 + (headerSize data + 4))) with
          | error e =>
              rw [hframe] at h
              -- a frame that is skipped only takes bytes away
              have hle := hrest es n h
              omega
          | ok e =>
              rw [hframe] at h
              cases res with
              | error e => cases h
              | ok m =>
                  cases h
                  have hle := hrest es' m rfl
                  have hframe' : (data.take (20 + (headerSize data + 4))).length
                      = 20 + (headerSize data + 4) := List.length_take_of_le (by omega)
                  have hweight := entryWeight_le hdec hframe (by omega)
                  rw [List.map_cons, List.sum_cons]
                  dsimp only
                  omega

/-- A first frame that fails its checksum is lost. -/
theorem replayFile_weight (hdec : DecodesFully) {data more : Bytes} {es : List WALEntry} {n : Nat}
    (h : replayFile data = (es, .ok n)) (hlong : 20 ≤ data.length) (hsum : ¬ FrameSums (data ++ more)) :
    24 + (es.map fun e => entryWeight e.command).sum ≤ data.length := by
  obtain ⟨fuel, hfuel⟩ : ∃ fuel, data.length = fuel + 1 := ⟨data.length - 1, by omega⟩
  rw [replayFile, hfuel, replayLoop, if_neg (by omega)] at h
  split at h
  · cases h
  · rename_i hroom
    rw [List.length_drop] at hroom
    have hrest := replayLoop_weight hdec fuel (data.drop (20 + (headerSize data + 4)))
    dsimp only at h
    generalize replayLoop fuel (data.drop (20 + (headerSize data + 4))) = r at h hrest
    obtain ⟨es', res⟩ := r
    rw [List.length_drop] at hrest
    cases hframe : WALEntry.deserialize (data.take (20 + (headerSize data + 4))) with
    | error e =>
        rw [hframe] at h
        have hle := hrest es n h
        omega
    | ok e =>
        exfalso
        apply hsum
        have hhead : headerSize (data ++ more) = headerSize data := by
          unfold headerSize
          rw [List.drop_append_of_le_length (by omega),
            List.take_append_of_le_length (by rw [List.length_drop]; omega)]
        have hlen : (data.take (20 + (headerSize data + 4))).length = 20 + headerSize data + 4 := by
          rw [List.length_take_of_le (by omega)]
          omega
        have hok := (deserialize_ok hframe).1
        rw [hlen, Nat.add_sub_cancel, List.take_take, Nat.min_eq_left (by omega), List.drop_take] at hok
        unfold FrameSums
        rw [hhead, List.take_append_of_le_length (by omega), List.drop_append_of_le_length (by omega),
          List.take_append_of_le_length (by rw [List.length_drop]; omega)]
        rw [hok]
        congr 2
        omega

/-! ## A session behind a torn tail -/

/-- `append_command` for one command after the other. -/
def appendAll (wal : WriteAheadLog) (disk : Disk) : List (UInt64 × Command) → WriteAheadLog × Disk
  | [] => (wal, disk)
  | (timestamp, c) :: rest =>
      let r := wal.appendCommand disk timestamp c
      appendAll r.1 r.2 rest

omit [Codec] in
/-- The entries these appends write, numbered from `sequence` on. -/
def entriesFrom (sequence : UInt64) : List (UInt64 × Command) → List WALEntry
  | [] => []
  | (timestamp, c) :: rest => ⟨sequence, timestamp, c⟩ :: entriesFrom (sequence + 1) rest

omit [Codec] in
theorem map_command_entriesFrom (sequence : UInt64) (cs : List (UInt64 × Command)) :
    (entriesFrom sequence cs).map WALEntry.command = cs.map Prod.snd := by
  induction cs generalizing sequence with
  | nil => rfl
  | cons p cs ih => rw [entriesFrom, List.map_cons, ih, List.map_cons]

theorem appendAll_backupCount (wal : WriteAheadLog) (disk : Disk) (cs : List (UInt64 × Command)) :
    (appendAll wal disk cs).1.backupCount = wal.backupCount := by
  induction cs generalizing wal disk with
  | nil => rfl
  | cons p cs ih =>
      rw [appendAll, ih]
      exact WriteAheadLog.appendCommand_backupCount p.1 p.2 wal disk

/-- Appending to a log that holds whole entries. -/
theorem appendAll_clean {wal : WriteAheadLog} {disk : Disk} {chunks : List Bytes} {tail : List WALEntry}
    (cs : List (UInt64 × Command)) (h : wal.Filed disk chunks (tail.flatMap WALEntry.serialize)) :
    ∃ (later : List (List WALEntry)) (tail' : List WALEntry), (appendAll wal disk cs).1.Filed (appendAll wal disk cs).2
        (later.map (fun es => es.flatMap WALEntry.serialize) ++ chunks)
        (tail'.flatMap WALEntry.serialize) ∧
      tail ++ entriesFrom wal.sequence cs = later.reverse.flatten ++ tail' := by
  induction cs generalizing wal disk chunks tail with
  | nil => exact ⟨[], tail, h, List.append_nil _⟩
  | cons p cs ih =>
      obtain ⟨timestamp, c⟩ := p
      set e : WALEntry := ⟨wal.sequence, timestamp, c⟩
      have hseq := WriteAheadLog.appendCommand_sequence timestamp c wal disk
      have hbytes : tail.flatMap WALEntry.serialize ++ e.serialize
          = (tail ++ [e]).flatMap WALEntry.serialize := by
        rw [List.flatMap_append, List.flatMap_singleton]
      rw [appendAll, entriesFrom]
      cases hrot : (wal.logCommand disk timestamp c).1.shouldRotate with
      | false =>
          have hkept := WriteAheadLog.appendCommand_kept timestamp c h hrot
          rw [hbytes] at hkept
          obtain ⟨later, tail', hfiled, hall⟩ := ih hkept
          refine ⟨later, tail', hfiled, ?_⟩
          rw [← hall, hseq, List.append_assoc]
          rfl
      | true =>
          have hrotated := WriteAheadLog.appendCommand_rotated timestamp c h hrot
          rw [hbytes] at hrotated
          have hempty : [] = ([] : List WALEntry).flatMap WALEntry.serialize := rfl
          rw [hempty] at hrotated
          obtain ⟨later, tail', hfiled, hall⟩ := ih hrotated
          refine ⟨later ++ [tail ++ [e]], tail', ?_, ?_⟩
          · rw [List.map_append, List.append_assoc]
            exact hfiled
          · rw [List.reverse_append, List.flatten_append, List.append_assoc, ← hall, hseq]
            simp [e]

/-- Appending behind other bytes: they stay at the front of the oldest chunk. -/
theorem appendAll_behind {wal : WriteAheadLog} {disk : Disk} {pre : Bytes} {first : List WALEntry}
    (cs : List (UInt64 × Command)) (h : wal.Filed disk [] (pre ++ first.flatMap WALEntry.serialize)) :
    (appendAll wal disk cs).1.Filed (appendAll wal disk cs).2 []
        (pre ++ (first ++ entriesFrom wal.sequence cs).flatMap WALEntry.serialize) ∨
      ∃ (oldest : List WALEntry) (later : List (List WALEntry)) (tail : List WALEntry),
        (appendAll wal disk cs).1.Filed (appendAll wal disk cs).2
          (later.map (fun es => es.flatMap WALEntry.serialize)
            ++ [pre ++ oldest.flatMap WALEntry.serialize])
          (tail.flatMap WALEntry.serialize) ∧
        oldest ≠ [] ∧ first ++ entriesFrom wal.sequence cs = oldest ++ (later.reverse.flatten ++ tail) := by
  induction cs generalizing wal disk first with
  | nil =>
      left
      rw [entriesFrom, List.append_nil]
      exact h
  | cons p cs ih =>
      obtain ⟨timestamp, c⟩ := p
      set e : WALEntry := ⟨wal.sequence, timestamp, c⟩
      have hseq := WriteAheadLog.appendCommand_sequence timestamp c wal disk
      have hbytes : pre ++ first.flatMap WALEntry.serialize ++ e.serialize
          = pre ++ (first ++ [e]).flatMap WALEntry.serialize := by
        rw [List.flatMap_append, List.flatMap_singleton, List.append_assoc]
      have hsplit : first ++ e :: entriesFrom (wal.sequence + 1) cs
          = (first ++ [e]) ++ entriesFrom (wal.sequence + 1) cs := by rw [List.append_assoc]; rfl
      rw [appendAll, entriesFrom]
      cases hrot : (wal.logCommand disk timestamp c).1.shouldRotate with
      | false =>
          have hkept := WriteAheadLog.appendCommand_kept timestamp c h hrot
          rw [hbytes] at hkept
          have hrest := ih hkept
          rw [hseq, ← hsplit] at hrest
          exact hrest
      | true =>
          have hrotated := WriteAheadLog.appendCommand_rotated timestamp c h hrot
          rw [hbytes] at hrotated
          have hempty : [] = ([] : List WALEntry).flatMap WALEntry.serialize := rfl
          rw [hempty] at hrotated
          obtain ⟨later, tail, hfiled, hall⟩ := appendAll_clean cs hrotated
          rw [hseq, List.nil_append] at hall
          exact Or.inr ⟨first ++ [e], later, tail, hfiled, by simp, by rw [hsplit, hall]⟩

/-- Whenever a log ending in `g` reopens, commands are appended and flushed, and the log is reopened once
    more, replay delivers the old entries' commands and then the new ones. -/
def SurvivesRestart (config : PersistenceConfig) (es : List WALEntry) (g : Bytes)
    (cs : List (UInt64 × Command)) : Prop :=
  ∀ wal disk,
    WriteAheadLog.new config ⟨some (es.flatMap WALEntry.serialize ++ g), fun _ => none, none⟩
      = (.ok wal, disk) →
    ∃ wal' disk' es',
      WriteAheadLog.new config ((appendAll wal disk cs).1.sync (appendAll wal disk cs).2).2
        = (.ok wal', disk') ∧
      wal'.replay disk' = (es', .ok es'.length) ∧
      es'.map WALEntry.command = es.map WALEntry.command ++ cs.map Prod.snd

omit [Codec] in
/-- The number a log with these entries goes on with. -/
def nextSequence (es : List WALEntry) : UInt64 :=
  if es.isEmpty then 0 else (noteSequences (0, false) es).1 + 1

/-- Behind less than a header the log reopens and keeps the fragment. -/
theorem new_behind (config : PersistenceConfig) {es : List WALEntry} {g : Bytes}
    (hes : ∀ e ∈ es, Encodes e.command) (hg : g.length < 20) :
    ∃ wal : WriteAheadLog,
      WriteAheadLog.new config ⟨some (es.flatMap WALEntry.serialize ++ g), fun _ => none, none⟩
        = (.ok wal, ⟨some (es.flatMap WALEntry.serialize ++ g), fun _ => none, none⟩) ∧
      wal.Filed ⟨some (es.flatMap WALEntry.serialize ++ g), fun _ => none, none⟩ []
        (es.flatMap WALEntry.serialize ++ g) ∧
      wal.writer.buf = [] ∧ wal.backupCount = config.walBackupCount ∧ wal.sequence = nextSequence es := by
  have hscan := lastSequenceLoop_append es (0, false) g fun e he => (hes e he).size_lt
  rw [lastSequenceLoop_short _ hg] at hscan
  have hread := readLastSequence_active config (es.flatMap WALEntry.serialize ++ g) none
  have hnext : WriteAheadLog.readLastSequence config
      ⟨some (es.flatMap WALEntry.serialize ++ g), fun _ => none, none⟩ = .ok (nextSequence es) := by
    rw [hread, hscan]
    cases es with
    | nil => rfl
    | cons e es =>
        have hfound : (noteSequences (0, false) (e :: es)).2 = true := noteSequences_found (by simp)
        unfold nextSequence
        generalize noteSequences (0, false) (e :: es) = acc at hfound ⊢
        obtain ⟨last, found⟩ := acc
        cases hfound
        rfl
  rw [new_active, hnext]
  exact ⟨_, rfl, ⟨fun _ _ => rfl, ⟨Or.inl rfl, List.append_nil _⟩, rfl⟩, rfl, rfl, rfl⟩

/-- Behind a whole header it does not reopen. -/
theorem survives_of_torn (config : PersistenceConfig) {es : List WALEntry} {t : WALEntry} {n : Nat}
    (hes : ∀ e ∈ es, Encodes e.command) (ht : Encodes t.command) (hn : n < t.serialize.length)
    (h20 : 20 ≤ n) (cs : List (UInt64 × Command)) :
    SurvivesRestart config es (t.serialize.take n) cs := by
  intro wal disk hnew
  have hscan := lastSequenceLoop_append es (0, false) (t.serialize.take n)
    fun e he => (hes e he).size_lt
  rw [new_active, readLastSequence_active, hscan, lastSequenceLoop_torn t _ n ht.size_lt h20 hn] at hnew
  cases hnew

/-- Without appends the second reopen finds what the first one found. -/
theorem survives_nil (config : PersistenceConfig) {es : List WALEntry} {g : Bytes}
    (hes : ∀ e ∈ es, Encodes e.command) (hg : g.length < 20) : SurvivesRestart config es g [] := by
  intro wal disk hnew
  obtain ⟨wal₁, hnew₁, hfiled, hflushed, -, -⟩ := new_behind config hes hg
  rw [hnew] at hnew₁
  cases hnew₁
  have hsync : (wal.sync ⟨some (es.flatMap WALEntry.serialize ++ g), fun _ => none, none⟩).2
      = ⟨some (es.flatMap WALEntry.serialize ++ g), fun _ => none, none⟩ := by
    show Disk.mk (some (wal.writer.flush _).2) _ _ = _
    rw [Writer.flush_contents hfiled.holds.atEnd, hflushed, List.append_nil]
    rfl
  have hreplay := replayFile_append es g hes
  rw [replayFile_short hg, List.append_nil] at hreplay
  refine ⟨wal, ⟨some (es.flatMap WALEntry.serialize ++ g), fun _ => none, none⟩, es, ?_, ?_,
    (List.append_nil _).symm⟩
  · show WriteAheadLog.new config
      (wal.sync ⟨some (es.flatMap WALEntry.serialize ++ g), fun _ => none, none⟩).2 = _
    rw [hsync]
    exact hnew
  · rw [replay_active]
    exact hreplay

/-- A file that starts with the fragment cannot give its entries back. -/
theorem not_delivered (hdec : DecodesFully) {es oldest : List WALEntry} {rest : List (List WALEntry)}
    {g : Bytes} (hg : g.length < 20) (hes : ∀ e ∈ es, Encodes e.command)
    (hrest : ∀ p ∈ rest, ∀ e ∈ p, Encodes e.command) (hne : oldest ≠ [])
    (hsum : ¬ FrameSums (g ++ (oldest ++ rest.flatten).flatMap WALEntry.serialize))
    {es' : List WALEntry} {k : Nat}
    (hreplay : WriteAheadLog.replayFiles
      ((es.flatMap WALEntry.serialize ++ g ++ oldest.flatMap WALEntry.serialize) ::
        rest.map fun p => p.flatMap WALEntry.serialize) = (es', .ok k)) :
    es'.map WALEntry.command
      ≠ es.map WALEntry.command ++ (oldest ++ rest.flatten).map WALEntry.command := by
  intro hcommands
  have hfirst := replayFile_append es (g ++ oldest.flatMap WALEntry.serialize) hes
  rw [← List.append_assoc] at hfirst
  rw [WriteAheadLog.replayFiles, hfirst, replayFiles_entries rest hrest] at hreplay
  rw [List.flatMap_append, ← List.append_assoc] at hsum
  cases hbehind : replayFile (g ++ oldest.flatMap WALEntry.serialize) with
  | mk X res =>
      rw [hbehind] at hreplay
      cases res with
      | error e => cases hreplay
      | ok m =>
          cases hreplay
          -- the frames read from the fragment on carry the commands of the oldest chunk
          have hX : X.map WALEntry.command = oldest.map WALEntry.command := by
            rw [List.map_append, List.map_append, List.map_append, List.append_assoc,
              List.append_cancel_left_eq, List.append_cancel_right_eq] at hcommands
            exact hcommands
          have hweight : (X.map fun e => entryWeight e.command).sum
              = (oldest.flatMap WALEntry.serialize).length := by
            have hmap : X.map (fun e => entryWeight e.command)
                = oldest.map fun e => entryWeight e.command := by
              have hcongr := congrArg (List.map entryWeight) hX
              rwa [List.map_map, List.map_map] at hcongr
            rw [hmap, List.length_flatMap]
            congr 1
            apply List.map_congr_left
            intro e _
            exact e.length_serialize.symm
          have hlong : 20 ≤ (g ++ oldest.flatMap WALEntry.serialize).length := by
            obtain ⟨e, oldest', rfl⟩ := List.exists_cons_of_ne_nil hne
            rw [List.length_append, List.flatMap_cons, List.length_append, e.length_serialize]
            omega
          have hbound := replayFile_weight hdec hbehind hlong hsum
          rw [hweight, List.length_append] at hbound
          omega

/-- Behind less than a header, commands that were appended do not survive, unless the first frame read from
    the fragment on has a matching checksum by accident. -/
theorem not_survives (config : PersistenceConfig) (hdec : DecodesFully) {es : List WALEntry} {g : Bytes}
    {cs : List (UInt64 × Command)} (hes : ∀ e ∈ es, Encodes e.command) (hg : g.length < 20)
    (hcs : ∀ p ∈ cs, Encodes p.2) (hne : cs ≠ [])
    (hsum : ¬ FrameSums (g ++ (entriesFrom (nextSequence es) cs).flatMap WALEntry.serialize)) :
    ¬ SurvivesRestart config es g cs := by
  intro hsurvives
  obtain ⟨wal, hnew, hfiled, hflushed, hcount, hseq⟩ := new_behind config hes hg
  obtain ⟨wal', disk', es', hnew', hreplay, hcommands⟩ := hsurvives wal _ hnew
  generalize (⟨some (es.flatMap WALEntry.serialize ++ g), fun _ => none, none⟩ : Disk) = disk
    at hnew hfiled hnew'
  set N := entriesFrom (nextSequence es) cs with hN
  have hNe : N ≠ [] := by
    obtain ⟨p, cs', rfl⟩ := List.exists_cons_of_ne_nil hne
    rw [hN, entriesFrom]
    exact List.cons_ne_nil _ _
  have hencodes : ∀ e ∈ N, Encodes e.command := by
    intro e he
    have hmem : e.command ∈ N.map WALEntry.command := List.mem_map_of_mem he
    rw [hN, map_command_entriesFrom] at hmem
    obtain ⟨p, hp, hpe⟩ := List.mem_map.mp hmem
    rw [← hpe]
    exact hcs p hp
  have hcmds : cs.map Prod.snd = N.map WALEntry.command := (map_command_entriesFrom _ cs).symm
  rw [hcmds] at hcommands
  have hcount' : ((appendAll wal disk cs).1.sync (appendAll wal disk cs).2).1.backupCount
      = config.walBackupCount := (appendAll_backupCount wal disk cs).trans hcount
  have hstart : wal.Filed disk []
      (es.flatMap WALEntry.serialize ++ g ++ ([] : List WALEntry).flatMap WALEntry.serialize) := by
    rw [List.flatMap_nil, List.append_nil]
    exact hfiled
  have hbehind := appendAll_behind cs hstart
  rw [hseq, List.nil_append, ← hN] at hbehind
  rcases hbehind with hactive | ⟨oldest, later, tail, hrotated, holdest, hall⟩
  · -- no rotation: the fragment is in the active file
    obtain ⟨rfl, hfiled', hflushed', -⟩ := (WriteAheadLog.sync_filed hactive).of_new
      WriteAheadLog.sync_flushed hcount' hnew'
    rw [WriteAheadLog.replay, hfiled'.filesInReplayOrder_eq hflushed', List.take_nil] at hreplay
    have hnone : ∀ p ∈ ([] : List (List WALEntry)), ∀ e ∈ p, Encodes e.command := by simp
    refine not_delivered hdec hg hes hnone hNe ?_ hreplay ?_
    · rw [List.flatten_nil, List.append_nil]
      exact hsum
    · rw [List.flatten_nil, List.append_nil]
      exact hcommands
  · obtain ⟨rfl, hfiled', hflushed', hkeep⟩ := (WriteAheadLog.sync_filed hrotated).of_new
      WriteAheadLog.sync_flushed hcount' hnew'
    rw [WriteAheadLog.replay, hfiled'.filesInReplayOrder_eq hflushed', hkeep] at hreplay
    set keep := segmentsToKeep config.walBackupCount
    have hparts : ∀ p ∈ later.reverse ++ [tail], ∀ e ∈ p, Encodes e.command := by
      intro p hp e he
      apply hencodes e
      rw [hall]
      apply List.mem_append_right
      rcases List.mem_append.mp hp with hp' | hp'
      · exact List.mem_append_left _ (List.mem_flatten_of_mem hp' he)
      · exact List.mem_append_right _ (List.mem_singleton.mp hp' ▸ he)
    have hN' : N = oldest ++ (later.reverse ++ [tail]).flatten := by
      rw [hall, List.flatten_append, List.flatten_singleton]
    rcases Nat.lt_or_ge later.length keep with hlt | hge
    · -- its segment is still read
      rw [List.take_of_length_le (by simp; omega), List.reverse_append, List.reverse_singleton,
        ← List.map_reverse] at hreplay
      have hfiles : [es.flatMap WALEntry.serialize ++ g ++ oldest.flatMap WALEntry.serialize]
          ++ later.reverse.map (fun p => p.flatMap WALEntry.serialize)
          ++ [tail.flatMap WALEntry.serialize]
          = (es.flatMap WALEntry.serialize ++ g ++ oldest.flatMap WALEntry.serialize)
            :: (later.reverse ++ [tail]).map fun p => p.flatMap WALEntry.serialize := by simp
      rw [hfiles] at hreplay
      rw [hN'] at hsum hcommands
      exact not_delivered hdec hg hes hparts holdest hsum hreplay hcommands
    · -- it was discarded with the commands in it
      rw [List.take_append_of_le_length (by simpa using hge), ← List.map_take, ← List.map_reverse] at hreplay
      have hfiles : (later.take keep).reverse.map (fun p => p.flatMap WALEntry.serialize)
          ++ [tail.flatMap WALEntry.serialize]
          = ((later.take keep).reverse ++ [tail]).map fun p => p.flatMap WALEntry.serialize := by simp
      rw [hfiles, replayFiles_entries] at hreplay
      · cases hreplay
        have hlen := congrArg List.length hcommands
        have htake : (later.take keep).flatten.length ≤ later.flatten.length :=
          (List.Sublist.flatten (List.take_sublist keep later)).length_le
        have hold : 0 < oldest.length := List.length_pos_of_ne_nil holdest
        simp only [hN', List.length_map, List.length_append, List.flatten_append, List.length_flatten,
          List.map_reverse, List.sum_reverse] at hlen htake
        omega
      · intro p hp
        apply hparts p
        rcases List.mem_append.mp hp with hp' | hp'
        · exact List.mem_append_left _ (List.mem_reverse.mpr (List.mem_of_mem_take (List.mem_reverse.mp hp')))
        · exact List.mem_append_right _ hp'

/-- **When writes behind a torn tail survive.** They do when the log does not even reopen (a whole header
    of the torn entry is left) or nothing is appended; otherwise they do not, unless the first misread frame
    has a matching checksum. -/
theorem torn_restart_iff (config : PersistenceConfig) (hdec : DecodesFully) (es : List WALEntry)
    (t : WALEntry) (n : Nat) (cs : List (UInt64 × Command)) (hes : ∀ e ∈ es, Encodes e.command)
    (ht : Encodes t.command) (hn : n < t.serialize.length) (hcs : ∀ p ∈ cs, Encodes p.2) :
    (20 ≤ n ∨ cs = [] → SurvivesRestart config es (t.serialize.take n) cs) ∧
      (SurvivesRestart config es (t.serialize.take n) cs → 20 ≤ n ∨ cs = [] ∨
        FrameSums (t.serialize.take n ++
          (entriesFrom (nextSequence es) cs).flatMap WALEntry.serialize)) := by
  have hlen : (t.serialize.take n).length = n := List.length_take_of_le hn.le
  constructor
  · rintro (h20 | rfl)
    · exact survives_of_torn config hes ht hn h20 cs
    · rcases Nat.lt_or_ge n 20 with hlt | hge
      · exact survives_nil config hes (by omega)
      · exact survives_of_torn config hes ht hn hge []
  · intro hsurvives
    rcases Nat.lt_or_ge n 20 with hlt | hge
    · by_contra hno
      push Not at hno
      exact not_survives config hdec hes (by omega) hcs hno.2.1 hno.2.2 hsurvives
    · exact Or.inl hge

omit [Codec] in
theorem decodesFully_incr : @DecodesFully incrCodec := by
  intro b c h
  change decodeIncr b = .ok c at h
  change (encodeIncr c).length ≤ b.length
  unfold decodeIncr at h
  split at h
  · rename_i rest
    dsimp only at h
    split at h
    · cases h
    · rename_i hroom
      cases h
      simp only [encodeIncr, List.length_cons, List.length_append, List.length_reverse,
        BigEndian.length_toBytes, List.length_take, List.length_drop]
      omega
  · cases h

omit [Codec] in
/-- A log that ends in nineteen bytes of a torn entry, reopened twice: with nothing appended in between its
    entry comes back. -/
theorem torn_restart_idle :
    let _ := incrCodec
    SurvivesRestart ⟨.always, 1000, 1⟩ [incrEntry] (incrEntry.serialize.take 19) [] := by
  intro _
  have henc : Encodes incrEntry.command := encodes_incr _ (by decide)
  refine (torn_restart_iff ⟨.always, 1000, 1⟩ decodesFully_incr [incrEntry] incrEntry 19 [] ?_ henc
    (by decide) ?_).1 (Or.inr rfl)
  · intro e he
    obtain rfl := List.mem_singleton.mp he
    exact henc
  · intro p hp
    cases hp

omit [Codec] in
/-- An `INCR k` appended in between is lost. -/
theorem torn_restart_loses_incr :
    let _ := incrCodec
    ¬ SurvivesRestart ⟨.always, 1000, 1⟩ [incrEntry] (incrEntry.serialize.take 19)
      [(1700000000001, .incr (utf8 "k"))] := by
  intro _
  have henc : Encodes incrEntry.command := encodes_incr _ (by decide)
  refine not_survives ⟨.always, 1000, 1⟩ decodesFully_incr ?_ (by decide) ?_ (by simp) ?_
  · intro e he
    obtain rfl := List.mem_singleton.mp he
    exact henc
  · intro p hp
    obtain rfl := List.mem_singleton.mp hp
    exact henc
  · unfold FrameSums
    decide +kernel

end FerricCache
