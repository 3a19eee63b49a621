import FerricCache.Server.Expiry
import FerricCache.Protocol.Frames
import FerricCache.Pubsub

/-!
# `FerricCache.Server.ReplyTexts` — what the dispatch arms reply on the wire

A typed reply is one frame, an error is one if its text has no line end, and the frames the stream commands write
themselves are the ones `write_resp` gives for the nested arrays they mean. The arms have fixed error texts, except
that a refused stream id is quoted (`refusedId`): `arm_framed` and `arm_refused`.
-/

namespace FerricCache

open Lib Reply

/-! ## Replies and frames -/

/-- What a reply can be in memory: its integer is an `i64`, and reading it back asks for no more than
    `isize::MAX` bytes. -/
structure Response.Fits (r : Response) : Prop where
  int : ∀ n, r = .integer n → -2 ^ 63 ≤ n ∧ n < 2 ^ 63
  size : (serializeResponse r).length * respValueSize ≤ isizeMax

/-- The reply is one frame on the wire. -/
def Response.OneFrame (r : Response) : Prop := ∃ v, Complete (serializeResponse r) v

/-- A typed reply, or an error on one line. -/
def Response.Plain : Response → Prop
  | .error text => OneLine text
  | .raw _ => False
  | _ => True

theorem Response.Plain.oneFrame {r : Response} (h : r.Plain) (hfits : r.Fits) : r.OneFrame := by
  have hbulk : ∀ b, (writeResp (.bulkString b)).length * respValueSize ≤ isizeMax →
      ∃ v, Complete (writeResp (.bulkString b)) v := fun b hsize => ⟨_, (RespValue.Binary.bulk b).complete hsize⟩
  cases r with
  | value b => exact hbulk (some b) hfits.size
  | ok => exact ⟨_, complete_writeResp (.simpleString (utf8_of_ascii (by decide +kernel))) (.simpleString (by decide))⟩
  | notFound => exact hbulk none hfits.size
  | error text => exact (complete_error_iff text).mpr h
  | integer n =>
      obtain ⟨hlo, hhi⟩ := hfits.int n rfl
      exact ⟨_, complete_writeResp (.integer hlo hhi) (.integer n)⟩
  | array items =>
      refine ⟨_, RespValue.Binary.complete (.array fun v hv => ?_) hfits.size⟩
      obtain ⟨b, -, rfl⟩ := List.mem_map.mp hv
      exact .bulk (some b)
  | null => exact hbulk none hfits.size
  | raw frame => exact h.elim

/-- A plain reply, or a frame written at once: of bulk strings in arrays, or a fixed one. -/
inductive Response.Framed : Response → Prop
  | plain {r : Response} (h : r.Plain) : Framed r
  | binary {v : RespValue} (h : v.Binary) : Framed (.raw (writeResp v))
  | fixed {frame : Bytes} {v : RespValue} (h : Complete frame v) : Framed (.raw frame)

theorem Response.Framed.oneFrame {r : Response} (h : r.Framed) (hfits : r.Fits) : r.OneFrame := by
  cases h with
  | plain h => exact h.oneFrame hfits
  | binary h => exact ⟨_, h.complete hfits.size⟩
  | fixed h => exact ⟨_, h⟩

/-! ## The frames of stream entries -/

/-- A bulk string as a value. -/
def bulkValue (b : Bytes) : RespValue := .bulkString (some b)

/-- An entry: its id, and its fields and values in one list. -/
def entryValue (e : StreamId × List (Bytes × Bytes)) : RespValue :=
  .array [bulkValue e.1.toText, .array (e.2.flatMap fun p => [bulkValue p.1, bulkValue p.2])]

/-- The value `format_xentries` writes. -/
def entriesValue (entries : List (StreamId × List (Bytes × Bytes))) : RespValue := .array (entries.map entryValue)

/-- The value `format_xread` writes. -/
def xreadValue (perStream : List (Bytes × List (StreamId × List (Bytes × Bytes)))) : RespValue :=
  .array (perStream.map fun p => .array [bulkValue p.1, entriesValue p.2])

theorem writeResp_bulkValue (b : Bytes) : writeResp (bulkValue b) = bulk b := by
  rw [bulkValue, writeResp]

theorem writeResp_entryValue (e : StreamId × List (Bytes × Bytes)) :
    writeResp (entryValue e)
      = header 2 ++ bulk e.1.toText ++ header (e.2.length * 2) ++ e.2.flatMap fun p => bulk p.1 ++ bulk p.2 := by
  have hlen : (e.2.flatMap fun p => [bulkValue p.1, bulkValue p.2]).length = e.2.length * 2 := by
    simp [List.length_flatMap]
  have hfields : writeItems (e.2.flatMap fun p => [bulkValue p.1, bulkValue p.2])
      = e.2.flatMap fun p => bulk p.1 ++ bulk p.2 := by
    rw [writeItems_eq, List.flatMap_assoc]
    simp [writeResp_bulkValue]
  simp only [entryValue, writeResp, writeItems, hfields, hlen, writeResp_bulkValue, List.length_cons,
    List.length_nil, List.append_nil, List.append_assoc]

/-- **`format_xentries` writes what `write_resp` would.** -/
theorem formatXentries_eq (entries : List (StreamId × List (Bytes × Bytes))) :
    formatXentries entries = writeResp (entriesValue entries) := by
  rw [entriesValue, writeResp, writeItems_eq, List.length_map, List.flatMap_map, formatXentries]
  congr 1
  exact List.flatMap_congr fun e _ => (writeResp_entryValue e).symm

/-- **`format_xread` writes what `write_resp` would.** -/
theorem formatXread_eq (perStream : List (Bytes × List (StreamId × List (Bytes × Bytes)))) :
    formatXread perStream = writeResp (xreadValue perStream) := by
  rw [xreadValue, writeResp, writeItems_eq, List.length_map, List.flatMap_map, formatXread]
  congr 1
  refine List.flatMap_congr fun p _ => ?_
  simp only [writeResp, writeItems, writeResp_bulkValue, formatXentries_eq, List.length_cons, List.length_nil,
    List.append_nil, List.append_assoc]

theorem binary_entriesValue (entries : List (StreamId × List (Bytes × Bytes))) : (entriesValue entries).Binary := by
  refine .array fun v hv => ?_
  obtain ⟨e, -, rfl⟩ := List.mem_map.mp hv
  refine .array fun w hw => ?_
  rcases List.mem_cons.mp hw with rfl | hw
  · exact .bulk _
  · rw [List.mem_singleton.mp hw]
    refine .array fun x hx => ?_
    obtain ⟨p, -, hp⟩ := List.mem_flatMap.mp hx
    rcases List.mem_cons.mp hp with rfl | hp
    · exact .bulk _
    · rw [List.mem_singleton.mp hp]
      exact .bulk _

theorem binary_xreadValue (perStream : List (Bytes × List (StreamId × List (Bytes × Bytes)))) :
    (xreadValue perStream).Binary := by
  refine .array fun v hv => ?_
  obtain ⟨p, -, rfl⟩ := List.mem_map.mp hv
  refine .array fun w hw => ?_
  rcases List.mem_cons.mp hw with rfl | hw
  · exact .bulk _
  · rw [List.mem_singleton.mp hw]
    exact binary_entriesValue p.2

/-- `format_pubsub_message`. -/
def formatPubsubMessage (msg : PubSubMessage) : Bytes :=
  utf8 "*3\r\n$7\r\nmessage\r\n$" ++ natText msg.channel.length ++ crlf ++ msg.channel ++
    utf8 "\r\n$" ++ natText msg.payload.length ++ crlf ++ msg.payload ++ crlf

/-- The value `format_pubsub_message` writes. -/
def messageValue (msg : PubSubMessage) : RespValue :=
  .array [bulkValue (utf8 "message"), bulkValue msg.channel, bulkValue msg.payload]

/-- **`format_pubsub_message` writes what `write_resp` would.** -/
theorem formatPubsubMessage_eq (msg : PubSubMessage) :
    formatPubsubMessage msg = writeResp (messageValue msg) := by
  -- the literal fragments end and begin in the middle of a bulk string
  have hhead : utf8 "*3\r\n$7\r\nmessage\r\n$" = header 3 ++ bulk (utf8 "message") ++ [36] := by decide +kernel
  have hnext : utf8 "\r\n$" = crlf ++ [36] := by decide
  simp only [formatPubsubMessage, messageValue, hhead, hnext, writeResp, writeItems, writeResp_bulkValue,
    List.length_cons, List.length_nil, List.append_nil, List.append_assoc]
  simp only [bulk, List.cons_append, List.nil_append, List.append_assoc]

theorem binary_messageValue (msg : PubSubMessage) : (messageValue msg).Binary := by
  refine .array fun v hv => ?_
  simp only [List.mem_cons, List.not_mem_nil, or_false] at hv
  rcases hv with rfl | rfl | rfl
  · exact .bulk _
  · exact .bulk _
  · exact .bulk _

/-- The frame is what `serialize_resp` gives for the value, and `parse_resp` reads it back, wherever it stands,
    if the value can be held in memory. -/
structure FrameOf (frame : Bytes) (v : RespValue) : Prop where
  bytes : frame = serializeResp v
  decoded : v.Representable → ∀ rest, parseResp (frame ++ rest) = .ok (v, rest)

theorem frameOf_binary {frame : Bytes} {v : RespValue} (h : frame = writeResp v) (hv : v.Binary) :
    FrameOf frame v where
  bytes := h
  decoded := by
    intro hrep rest
    rw [h]
    exact parseResp_serializeResp v hrep hv.oneLineTexts rest

/-- **The frames written by hand are the encoder's**, for stream entries, `XREAD` results and published
    messages, whatever bytes they hold. -/
theorem handwritten_frames (entries : List (StreamId × List (Bytes × Bytes)))
    (perStream : List (Bytes × List (StreamId × List (Bytes × Bytes)))) (msg : PubSubMessage) :
    FrameOf (formatXentries entries) (entriesValue entries) ∧
      FrameOf (formatXread perStream) (xreadValue perStream) ∧
      FrameOf (formatPubsubMessage msg) (messageValue msg) := by
  refine ⟨?_, ?_, ?_⟩
  · exact frameOf_binary (formatXentries_eq entries) (binary_entriesValue entries)
  · exact frameOf_binary (formatXread_eq perStream) (binary_xreadValue perStream)
  · exact frameOf_binary (formatPubsubMessage_eq msg) (binary_messageValue msg)

/-- A stream with an entry without fields behind one whose value looks like a frame. -/
def oddStream : List (Bytes × List (StreamId × List (Bytes × Bytes))) :=
  [(utf8 "s", [(⟨5, 0⟩, [(utf8 "f", utf8 "$1\r\n")]), (⟨5, 1⟩, [])])]

theorem handwritten_frames_odd :
    parseResp (formatXread oddStream ++ utf8 "+") = .ok (xreadValue oddStream, utf8 "+") := by
  have hsize : (writeResp (xreadValue oddStream)).length * respValueSize ≤ isizeMax := by decide +kernel
  have hframe := (handwritten_frames [] oddStream ⟨[], []⟩).2.1
  exact hframe.decoded ((binary_xreadValue oddStream).representable hsize) (utf8 "+")

theorem framed_formatXentries (entries : List (StreamId × List (Bytes × Bytes))) :
    (Response.raw (formatXentries entries)).Framed := by
  rw [formatXentries_eq]
  exact .binary (binary_entriesValue entries)

theorem framed_formatXread (perStream : List (Bytes × List (StreamId × List (Bytes × Bytes)))) :
    (Response.raw (formatXread perStream)).Framed := by
  rw [formatXread_eq]
  exact .binary (binary_xreadValue perStream)

theorem framed_nullArray : nullArray.Framed := .fixed (v := .array []) (by rfl)

/-! ## Error texts of the operations -/

/-- An error, if it is one, is on one line. -/
def OneLineErr {α : Type} (x : Res α) : Prop := ∀ e, x = .error e → OneLine e

theorem oneLineErr_ok {α : Type} (a : α) : OneLineErr (.ok a : Res α) := by
  intro e h
  cases h

theorem oneLineErr_error {α : Type} {e : Bytes} (h : OneLine e) : OneLineErr (.error e : Res α) := by
  intro e' h'
  cases h'
  exact h

theorem oneLine_wrongType : OneLine wrongType := by decide

theorem oneLine_notAnInteger : OneLine notAnInteger := by decide

section Shapes

variable {τ α : Type} (K : Kind τ) (now : Instant)

theorem oneLineErr_wrongType : OneLineErr (.error wrongType : Res α) := oneLineErr_error oneLine_wrongType

theorem oneLineErr_readAs (missing : α) (f : τ → α) (slot : Slot) : OneLineErr (Slot.readAs K now missing f slot) := by
  cases slot with
  | none => exact oneLineErr_ok _
  | some v =>
      rw [Slot.readAs]
      cases K.as v with
      | none => exact oneLineErr_wrongType
      | some t => exact oneLineErr_ok _

theorem oneLineErr_readLive (missing : α) (f : τ → α) (slot : Slot) :
    OneLineErr (Slot.readLive K now missing f slot) := by
  cases slot with
  | none => exact oneLineErr_ok _
  | some v =>
      rw [Slot.readLive]
      cases K.as v with
      | none => exact oneLineErr_wrongType
      | some t =>
          cases hx : v.isExpired now with
          | true => exact oneLineErr_wrongType
          | false => exact oneLineErr_ok _

variable {K now} {f : τ → Res α × τ} (hf : ∀ t, OneLineErr (f t).1)

include hf

theorem oneLineErr_writeAny (missing : α × Slot) (slot : Slot) : OneLineErr (Slot.writeAny K missing f slot).1 := by
  cases slot with
  | none => exact oneLineErr_ok _
  | some v =>
      rw [Slot.writeAny]
      cases K.as v with
      | none => exact oneLineErr_wrongType
      | some t => exact hf t

theorem oneLineErr_writeLive (missing : α) (slot : Slot) :
    OneLineErr (Slot.writeLive K now missing f slot).1 := by
  cases slot with
  | none => exact oneLineErr_ok _
  | some v =>
      rw [Slot.writeLive]
      cases K.as v with
      | none => exact oneLineErr_wrongType
      | some t =>
          cases hx : v.isExpired now with
          | true => exact oneLineErr_wrongType
          | false => exact hf t

theorem oneLineErr_writeOrCreate {create : Res (α × τ)} (hcreate : OneLineErr create) (slot : Slot) :
    OneLineErr (Slot.writeOrCreate K now create f slot).1 := by
  have hinsert : ∀ slot, OneLineErr (Slot.insertNew K create slot).1 := by
    intro slot
    cases create with
    | ok p => exact oneLineErr_ok _
    | error e => exact oneLineErr_error (hcreate e rfl)
  cases slot with
  | none => exact hinsert none
  | some v =>
      rw [Slot.writeOrCreate]
      cases K.as v with
      | none => exact oneLineErr_wrongType
      | some t =>
          cases hx : v.isExpired now with
          | true => exact hinsert _
          | false => exact hf t

end Shapes

theorem oneLineErr_strlen (slot : Slot) : OneLineErr (Slot.strlen slot) := by
  rcases slot with _ | (_ | _ | _ | _ | _ | _)
  all_goals first | exact oneLineErr_ok _ | exact oneLineErr_wrongType

theorem oneLineErr_bump (delta : Int) (slot : Slot) : OneLineErr (Slot.bump delta slot).1 := by
  refine oneLineErr_writeAny (fun p => ?_) _ slot
  cases parseI64 p.1 with
  | some n => exact oneLineErr_ok _
  | none => exact oneLineErr_error oneLine_notAnInteger

theorem oneLineErr_incrBy (delta : Int) (slot : Slot) : OneLineErr (Slot.incrBy delta slot).1 := by
  refine oneLineErr_writeAny (fun p => ?_) _ slot
  cases parseI64 p.1 with
  | none => exact oneLineErr_error oneLine_notAnInteger
  | some n =>
      simp only
      split
      · exact oneLineErr_ok _
      · exact oneLineErr_error (by decide)

theorem oneLineErr_incrByFloat (delta : F64) (slot : Slot) : OneLineErr (Slot.incrByFloat delta slot).1 := by
  refine oneLineErr_writeAny (fun p => ?_) _ slot
  cases F64.parse p.1 with
  | none => exact oneLineErr_error (by decide)
  | some x =>
      simp only
      split
      · exact oneLineErr_ok _
      · exact oneLineErr_error (by decide)

theorem oneLineErr_getSet (now : Instant) (value : Bytes) (slot : Slot) :
    OneLineErr (Slot.getSet now value slot).1 := by
  have hother : ∀ (b : Bool) (v w : Slot),
      OneLineErr (if b then ((.ok none, v) : Res (Option Bytes) × Slot) else (.error wrongType, w)).1 := by
    intro b v w
    cases b with
    | true => exact oneLineErr_ok _
    | false => exact oneLineErr_wrongType
  rcases slot with _ | (_ | _ | _ | _ | _ | _)
  all_goals first | exact oneLineErr_ok _ | exact hother _ _ _

theorem oneLineErr_hincrBy (now : Instant) (field : Bytes) (delta : Int) (slot : Slot) :
    OneLineErr (Slot.hincrBy now field delta slot).1 := by
  refine oneLineErr_writeOrCreate (fun h => ?_) (oneLineErr_ok _) slot
  simp only
  split
  · split
    · exact oneLineErr_ok _
    · exact oneLineErr_error (by decide)
  · exact oneLineErr_error oneLine_notAnInteger

theorem oneLineErr_lset (now : Instant) (index : Int64) (value : Bytes) (slot : Slot) :
    OneLineErr (Slot.lset now index value slot).1 := by
  have hmissing : OneLine Slot.noSuchKey := by decide
  have hrange : OneLine (utf8 "ERR index out of range") := by decide
  unfold Slot.lset
  split
  · exact oneLineErr_error hmissing
  · split
    · exact oneLineErr_error hmissing
    · simp only
      generalize (if index.toInt < 0 then _ else _ : Int) = real
      split
      · exact oneLineErr_error hrange
      · exact oneLineErr_ok _
  · exact oneLineErr_wrongType

theorem oneLineErr_lrem (now : Instant) (n : Int64) (value : Bytes) (slot : Slot) :
    OneLineErr (Slot.lrem now n value slot).1 := by
  unfold Slot.lrem
  split
  · split
    · exact oneLineErr_ok _
    · split
      · exact oneLineErr_ok _
      · exact oneLineErr_ok _
  · exact oneLineErr_ok _

theorem oneLineErr_zrevrange (now : Instant) (pos : Bytes → Nat) (start stop : Int64) (withScores : Bool)
    (slot : Slot) : OneLineErr (Slot.zrevrange now pos start stop withScores slot) := by
  have hall : OneLineErr (Slot.zrange now pos 0 (-1) withScores slot) := oneLineErr_readAs _ _ _ _ _
  unfold Slot.zrevrange
  cases hz : Slot.zrange now pos 0 (-1) withScores slot with
  | ok all => exact oneLineErr_ok _
  | error e => exact oneLineErr_error (hall e hz)

theorem oneLineErr_xadd (env : Env) (requested : Option StreamId) (fields : List (Bytes × Bytes)) (slot : Slot) :
    OneLineErr (Slot.xadd env requested fields slot).1 := by
  have hadd : ∀ s : StreamValue, OneLineErr (s.add env.unixMs requested fields).1 := by
    intro s
    cases requested with
    | none => exact oneLineErr_ok _
    | some id =>
        rw [StreamValue.add]
        split
        · exact oneLineErr_error (by decide)
        · exact oneLineErr_ok _
  refine oneLineErr_writeOrCreate (fun s => hadd s) ?_ slot
  intro e he
  have hnew := hadd StreamValue.new
  cases hx : (StreamValue.new.add env.unixMs requested fields).1 with
  | ok id =>
      rw [hx] at he
      cases he
  | error e' =>
      rw [hx] at he
      cases he
      exact hnew e hx

/-! ## Several keys -/

section Several

variable [KeyHash]

theorem oneLineErr_move {τ α β : Type} (K : Kind τ) (now : Instant) (missing : α) (take : τ → α × τ)
    (moved : α → Option β) (fresh : τ) (put : β → τ → τ) (source destination : Bytes) (s : CacheStorage) :
    OneLineErr (s.move K now missing take moved fresh put source destination).1 := by
  have htake : OneLineErr (s.onKey source (CacheStorage.takeFrom K now missing take)).1 :=
    oneLineErr_writeLive (fun _ => oneLineErr_ok _) missing _
  have hput : ∀ b (t : CacheStorage), OneLineErr (t.onKey destination (CacheStorage.putInto K now fresh (put b))).1 :=
    fun b t => oneLineErr_writeOrCreate (fun _ => oneLineErr_ok _) (oneLineErr_ok _) _
  unfold CacheStorage.move
  generalize s.onKey source (CacheStorage.takeFrom K now missing take) = taken at htake
  obtain ⟨x, s'⟩ := taken
  cases x with
  | error e => exact htake
  | ok a =>
      simp only
      cases moved a with
      | none => exact oneLineErr_ok _
      | some b =>
          have hb := hput b s'
          simp only
          generalize s'.onKey destination (CacheStorage.putInto K now fresh (put b)) = done at hb
          obtain ⟨y, s''⟩ := done
          cases y with
          | ok u => exact oneLineErr_ok _
          | error e => exact oneLineErr_error (hb e rfl)

theorem oneLineErr_rename (now : Instant) (key newKey : Bytes) (s : CacheStorage) :
    OneLineErr (s.rename now key newKey).1 := by
  unfold CacheStorage.rename
  cases s.live now key with
  | some v => exact oneLineErr_ok _
  | none => exact oneLineErr_error (by decide)

omit [KeyHash] in
theorem oneLineErr_sinterLoop {lookup : Bytes → Res (Option SetValue)} (hlookup : ∀ k, OneLineErr (lookup k))
    (result : Option SetValue) (keys : List Bytes) : OneLineErr (CacheStorage.sinterLoop lookup result keys) := by
  induction keys generalizing result with
  | nil => exact oneLineErr_ok _
  | cons key keys ih =>
      rw [CacheStorage.sinterLoop]
      cases hk : lookup key with
      | error e => exact oneLineErr_error (hlookup key e hk)
      | ok t =>
          cases t with
          | none => exact oneLineErr_ok _
          | some t =>
              cases result with
              | none => exact ih _
              | some res => exact ih _

omit [KeyHash] in
theorem oneLineErr_setLoop {lookup : Bytes → Res (Option SetValue)} (hlookup : ∀ k, OneLineErr (lookup k))
    (combine : SetValue → SetValue → SetValue) (result : SetValue) (keys : List Bytes) :
    OneLineErr (CacheStorage.setLoop lookup combine result keys) := by
  induction keys generalizing result with
  | nil => exact oneLineErr_ok _
  | cons key keys ih =>
      rw [CacheStorage.setLoop]
      cases hk : lookup key with
      | error e => exact oneLineErr_error (hlookup key e hk)
      | ok t =>
          cases t with
          | none => exact ih _
          | some t => exact ih _

omit [KeyHash] in
theorem oneLineErr_map {α β : Type} {x : Res α} (h : OneLineErr x) {f : α → β} {y : Res β}
    (hok : ∀ a, x = .ok a → y = .ok (f a)) (herr : ∀ e, x = .error e → y = .error e) : OneLineErr y := by
  intro e he
  cases hx : x with
  | ok a =>
      rw [hok a hx] at he
      cases he
  | error e' =>
      rw [herr e' hx] at he
      cases he
      exact h e hx

theorem oneLineErr_snapshotSet (now : Instant) (s : CacheStorage) (key : Bytes) :
    OneLineErr (s.snapshotSet now key) := oneLineErr_readAs _ _ _ _ _

theorem oneLineErr_sinter (env : Env) (keys : List Bytes) (s : CacheStorage) : OneLineErr (s.sinter env keys) := by
  refine oneLineErr_map (oneLineErr_sinterLoop (oneLineErr_snapshotSet env.now s) none keys)
    (f := fun result => (result.map fun t => t.getAll (env.iterPos none)).getD []) (fun t h => ?_) fun e h => ?_
  · rw [CacheStorage.sinter, h]
  · rw [CacheStorage.sinter, h]

theorem oneLineErr_sunion (env : Env) (keys : List Bytes) (s : CacheStorage) : OneLineErr (s.sunion env keys) := by
  refine oneLineErr_map (oneLineErr_setLoop (oneLineErr_snapshotSet env.now s)
    (fun result t => (t.getAll (env.iterPos none)).foldl SetValue.add result) SetValue.new keys)
    (f := fun t => t.getAll (env.iterPos none)) (fun t h => ?_) fun e h => ?_
  · rw [CacheStorage.sunion, h]
  · rw [CacheStorage.sunion, h]

theorem oneLineErr_sdiff (env : Env) (keys : List Bytes) (s : CacheStorage) : OneLineErr (s.sdiff env keys) := by
  cases keys with
  | nil => exact oneLineErr_ok _
  | cons first rest =>
      rw [CacheStorage.sdiff]
      cases hfirst : s.snapshotSet env.now first with
      | error e => exact oneLineErr_error (oneLineErr_snapshotSet env.now s first e hfirst)
      | ok t =>
          cases t with
          | none => exact oneLineErr_ok _
          | some t =>
              refine oneLineErr_map (oneLineErr_setLoop (oneLineErr_snapshotSet env.now s)
                (fun result u => CacheStorage.setOf (result.difference u)) t rest)
                (f := fun t => t.getAll (env.iterPos none)) (fun u h => ?_) fun e h => ?_
              · simp only [h]
              · simp only [h]

/-! ## The arms -/

/-- Every reply of the arm has the property. -/
def Arm.Says (P : Response → Prop) : Arm → Prop
  | .slot _ f => ∀ slot r, (f slot).1 = some r → P r
  | .store f => ∀ s r, (f s).1 = some r → P r

theorem Arm.Says.run {P : Response → Prop} {a : Arm} (h : a.Says P) {s : CacheStorage} {r : Response}
    (hr : (a.run s).1 = some r) : P r := by
  cases a with
  | slot key f => exact h (s.slotAt key) r hr
  | store f => exact h s r hr

omit [KeyHash] in
theorem plain_orError {α : Type} {x : Res α} (hx : OneLineErr x) {g : α → Response} (hg : ∀ a, (g a).Plain)
    {r : Response} (h : orError g x = some r) : r.Plain := by
  cases x with
  | ok a =>
      cases h
      exact hg a
  | error e =>
      cases h
      exact hx e rfl

omit [KeyHash] in
theorem plain_orPanic {α : Type} {x : Res (Option α)} (hx : OneLineErr x) {g : α → Response}
    (hg : ∀ a, (g a).Plain) {r : Response} (h : orPanic g x = some r) : r.Plain := by
  rcases x with e | (_ | a)
  · cases h
    exact hx e rfl
  · cases h
  · cases h
    exact hg a

omit [KeyHash] in
theorem plain_valueOr (v : Option Bytes) : (valueOr v).Plain := by
  cases v <;> exact trivial

omit [KeyHash] in
theorem plain_expireArm (now : Instant) (d : Option Nat) (slot : Slot) (r : Response)
    (h : (expireArm now d slot).1 = some r) : r.Plain := by
  cases d with
  | none =>
      cases h
      exact trivial
  | some d =>
      rw [expireArm] at h
      cases hi : instantAdd now d with
      | none =>
          rw [hi] at h
          cases h
      | some t =>
          rw [hi] at h
          cases h
          exact trivial

omit [KeyHash] in
theorem plain_hmsetLoop (pairs : List (Bytes × Bytes)) (slot : Slot) (r : Response)
    (h : (hmsetLoop pairs slot).1 = some r) : r.Plain := by
  induction pairs generalizing slot with
  | nil =>
      cases h
      exact trivial
  | cons p pairs ih =>
      have herr : OneLineErr (Slot.hset p.1 p.2 slot).1 := oneLineErr_writeAny (fun _ => oneLineErr_ok _) _ slot
      rw [hmsetLoop] at h
      generalize Slot.hset p.1 p.2 slot = x at h herr
      obtain ⟨x, slot'⟩ := x
      cases x with
      | ok b => exact ih slot' h
      | error e =>
          cases h
          exact herr e rfl

omit [KeyHash] in
/-- The commands that quote a stream id they refuse. -/
def quotesId : Command → Bool
  | .xadd _ _ _ | .xrange _ _ _ _ | .xread _ _ _ => true
  | _ => false

section Says

variable {key : Bytes} {α : Type}

theorem says_orError {op : Slot → Res α × Slot} (hop : ∀ slot, OneLineErr (op slot).1) {g : α → Response}
    (hg : ∀ a, (g a).Plain) : (Arm.write key op (orError g)).Says Response.Plain :=
  fun slot _ h => plain_orError (hop slot) hg h

theorem says_orPanic {op : Slot → Res (Option α) × Slot} (hop : ∀ slot, OneLineErr (op slot).1)
    {g : α → Response} (hg : ∀ a, (g a).Plain) : (Arm.write key op (orPanic g)).Says Response.Plain :=
  fun slot _ h => plain_orPanic (hop slot) hg h

theorem says_readError {f : Slot → Res α} (hf : ∀ slot, OneLineErr (f slot)) {g : α → Response}
    (hg : ∀ a, (g a).Plain) : (Arm.read key fun slot => orError g (f slot)).Says Response.Plain :=
  fun slot _ h => plain_orError (hf slot) hg h

theorem says_readPanic {f : Slot → Res (Option α)} (hf : ∀ slot, OneLineErr (f slot)) {g : α → Response}
    (hg : ∀ a, (g a).Plain) : (Arm.read key fun slot => orPanic g (f slot)).Says Response.Plain :=
  fun slot _ h => plain_orPanic (hf slot) hg h

theorem says_read {f : Slot → Response} (hf : ∀ slot, (f slot).Plain) :
    (Arm.read key fun slot => some (f slot)).Says Response.Plain := by
  intro slot r h
  cases h
  exact hf slot

theorem says_readStore {f : CacheStorage → Response} (hf : ∀ s, (f s).Plain) :
    (Arm.readStore fun s => some (f s)).Says Response.Plain := by
  intro s r h
  cases h
  exact hf s

theorem says_readStoreError {f : CacheStorage → Res α} (hf : ∀ s, OneLineErr (f s)) {g : α → Response}
    (hg : ∀ a, (g a).Plain) : (Arm.readStore fun s => orError g (f s)).Says Response.Plain :=
  fun s _ h => plain_orError (hf s) hg h

theorem says_storeError {f : CacheStorage → Res α × CacheStorage} (hf : ∀ s, OneLineErr (f s).1)
    {g : α → Response} (hg : ∀ a, (g a).Plain) :
    (Arm.store fun s => (orError g (f s).1, (f s).2)).Says Response.Plain :=
  fun s _ h => plain_orError (hf s) hg h

end Says

/-- **The fixed texts of the arms are on one line.** -/
theorem arm_plain (env : Env) (c : Command) (hc : quotesId c = false) (a : Arm) (h : arm env c = some a) :
    a.Says Response.Plain := by
  have hopt : ∀ (b : Bool) (v : Option Bytes) (l : List Bytes), (if b then valueOr v else .array l).Plain := by
    intro b v l
    cases b with
    | true => exact plain_valueOr v
    | false => exact trivial
  -- what an arm can say is read off its operation
  cases c with
  | get _ | hget _ _ => cases h; exact says_read fun _ => plain_valueOr _
  | getRange _ _ _ | hmget _ _ | type _ => cases h; exact says_read fun _ => trivial
  | set _ _ _ | setEx _ _ _ =>
      cases h
      intro slot r hr
      obtain ⟨b, -, rfl⟩ := Option.map_eq_some_iff.mp hr
      exact trivial
  | delete _ =>
      cases h
      intro slot r hr
      cases slot <;> cases hr <;> exact trivial
  | incr _ | decr _ => cases h; exact says_orError (oneLineErr_bump _) fun _ => trivial
  | append _ _ | hset _ _ _ | hdel _ _ | lpush _ _ | rpush _ _ | sadd _ _ | srem _ _ | zadd _ _ | zrem _ _ =>
      cases h
      exact says_orError (oneLineErr_writeAny (fun _ => oneLineErr_ok _) _) fun _ => trivial
  | lpop _ | rpop _ =>
      cases h
      exact says_orError (oneLineErr_writeAny (fun _ => oneLineErr_ok _) _) plain_valueOr
  | strlen _ => cases h; exact says_readError oneLineErr_strlen fun _ => trivial
  | hgetall _ | hkeys _ | hvals _ | hlen _ | hexists _ _ | lrange _ _ _ | llen _ | smembers _ | sismember _ _ | scard _
  | zrange _ _ _ _ | zcard _ =>
      cases h
      exact says_readError (oneLineErr_readAs _ _ _ _) fun _ => trivial
  | lindex _ _ | zscore _ _ =>
      cases h
      exact says_readError (oneLineErr_readAs _ _ _ _) fun _ => plain_valueOr _
  | zrank _ _ =>
      cases h
      refine says_readError (oneLineErr_readAs _ _ _ _) fun r => ?_
      cases r <;> exact trivial
  | zcount _ _ _ => cases h; exact says_readPanic (oneLineErr_readAs _ _ _ _) fun _ => trivial
  | zrangeByScore _ _ _ _ => cases h; exact says_readPanic (oneLineErr_readLive _ _ _ _) fun _ => trivial
  | xlen _ => cases h; exact says_readError (oneLineErr_readLive _ _ _ _) fun _ => trivial
  | zrevrange _ _ _ _ => cases h; exact says_readPanic (oneLineErr_zrevrange _ _ _ _ _) fun _ => trivial
  | srandMember _ n =>
      cases h
      exact says_readPanic (oneLineErr_readLive _ _ _ _) fun l => hopt n.isNone l.getLast? l
  | sinter keys => cases h; exact says_readStoreError (oneLineErr_sinter env keys) fun _ => trivial
  | sunion keys => cases h; exact says_readStoreError (oneLineErr_sunion env keys) fun _ => trivial
  | sdiff keys => cases h; exact says_readStoreError (oneLineErr_sdiff env keys) fun _ => trivial
  | ping | echo _ | existsKeys _ | keys _ | dbSize | mget _ => cases h; exact says_readStore fun _ => trivial
  | randomKey => cases h; exact says_readStore fun _ => plain_valueOr _
  | flushAll | mset _ | persist _ | setNx _ _ =>
      cases h
      intro s r hr
      cases hr
      exact trivial
  | expire _ _ | pexpire _ _ => cases h; exact plain_expireArm _ _
  | expireAt _ _ =>
      cases h
      intro slot r hr
      unfold expireAtArm at hr
      split at hr
      · cases hr
        exact trivial
      · exact plain_expireArm _ _ _ _ hr
  | ttl _ =>
      cases h
      refine says_read fun slot => ?_
      unfold ttlReply
      split
      · exact trivial
      · split <;> exact trivial
  | pttl _ =>
      cases h
      refine says_read fun slot => ?_
      unfold pttlReply
      split <;> exact trivial
  | getSet _ _ => cases h; exact says_orError (oneLineErr_getSet _ _) plain_valueOr
  | incrBy _ _ | decrBy _ _ => cases h; exact says_orError (oneLineErr_incrBy _) fun _ => trivial
  | incrByFloat _ _ => cases h; exact says_orError (oneLineErr_incrByFloat _) fun _ => trivial
  | hmset _ pairs => cases h; exact plain_hmsetLoop pairs
  | hsetNx _ _ _ =>
      cases h
      refine says_orError (oneLineErr_writeOrCreate (fun t => ?_) (oneLineErr_ok _)) fun _ => trivial
      split <;> exact oneLineErr_ok _
  | hincrBy _ _ _ => cases h; exact says_orError (oneLineErr_hincrBy _ _ _) fun _ => trivial
  | zincrBy _ _ _ =>
      cases h
      exact says_orError (oneLineErr_writeOrCreate (fun _ => oneLineErr_ok _) (oneLineErr_ok _)) fun _ => trivial
  | lset _ _ _ => cases h; exact says_orError (oneLineErr_lset _ _ _) fun _ => trivial
  | lrem _ _ _ => cases h; exact says_orError (oneLineErr_lrem _ _ _) fun _ => trivial
  | ltrim _ _ _ =>
      cases h
      refine says_orPanic (oneLineErr_writeLive (fun l => ?_) _) fun _ => trivial
      simp only
      split
      · exact oneLineErr_ok _
      · split <;> exact oneLineErr_ok _
  | spop _ n =>
      cases h
      refine says_orPanic (oneLineErr_writeLive (fun t => ?_) _) fun l => hopt n.isNone l.head? l
      split <;> exact oneLineErr_ok _
  | zpopMin _ _ | zpopMax _ _ =>
      cases h
      refine says_orPanic (oneLineErr_writeLive (fun z => ?_) _) fun _ => trivial
      split <;> exact oneLineErr_ok _
  | rpoplpush source destination =>
      cases h
      exact says_storeError (oneLineErr_move _ _ _ _ _ _ _ source destination) plain_valueOr
  | smove source destination member =>
      cases h
      exact says_storeError (oneLineErr_move _ _ _ _ _ _ _ source destination) fun _ => trivial
  | rename key newKey =>
      cases h
      exact says_storeError (oneLineErr_rename _ key newKey) fun _ => trivial
  | xadd _ _ _ => cases hc
  | xrange _ _ _ _ => cases hc
  | xread _ _ _ => cases hc
  | _ => cases h

/-! ## Stream ids -/

/-- The id `XREAD` refuses: the first that does not parse, if every key before it could be read. -/
def refusedIn (now : Instant) (count : Option UInt64) (s : CacheStorage) : List (Bytes × Bytes) → Option Bytes
  | [] => none
  | (key, id) :: rest =>
      match StreamId.parse id false with
      | .error _ => some id
      | .ok cursor =>
          match Slot.xread now cursor (count.map UInt64.toNat) (s.slotAt key) with
          | .error _ => none
          | .ok _ => refusedIn now count s rest

/-- The stream id a command is refused for. -/
def refusedId (now : Instant) (s : CacheStorage) : Command → Option Bytes
  | .xadd _ (some id) _ =>
      match StreamId.parse id false with
      | .error _ => some id
      | .ok _ => none
  | .xrange _ start stop _ =>
      match StreamId.parse start false, StreamId.parse stop true with
      | .error _, _ => some start
      | .ok _, .error _ => some stop
      | .ok _, .ok _ => none
  | .xread count keys ids => if keys.length ≠ ids.length then none else refusedIn now count s (keys.zip ids)
  | _ => none

theorem xreadLoop_refused {now : Instant} {count : Option UInt64} {s : CacheStorage} {pairs : List (Bytes × Bytes)}
    {id : Bytes} (h : refusedIn now count s pairs = some id)
    (acc : List (Bytes × List (StreamId × List (Bytes × Bytes)))) :
    xreadLoop now count s acc pairs = .error (StreamId.invalid id) := by
  induction pairs generalizing acc with
  | nil => cases h
  | cons p rest ih =>
      rw [refusedIn] at h
      rw [xreadLoop]
      cases hp : StreamId.parse p.2 false with
      | error e =>
          rw [hp] at h
          cases h
          exact congrArg Response.error (parse_error hp)
      | ok cursor =>
          rw [hp] at h
          simp only at h ⊢
          cases hx : Slot.xread now cursor (count.map UInt64.toNat) (s.slotAt p.1) with
          | error e =>
              rw [hx] at h
              cases h
          | ok entries =>
              rw [hx] at h
              simp only
              split
              · exact ih h acc
              · exact ih h _

theorem xreadLoop_framed {now : Instant} {count : Option UInt64} {s : CacheStorage} {pairs : List (Bytes × Bytes)}
    (h : refusedIn now count s pairs = none) (acc : List (Bytes × List (StreamId × List (Bytes × Bytes)))) :
    (xreadLoop now count s acc pairs).Framed := by
  induction pairs generalizing acc with
  | nil =>
      rw [xreadLoop]
      split
      · exact framed_nullArray
      · exact framed_formatXread acc
  | cons p rest ih =>
      rw [refusedIn] at h
      rw [xreadLoop]
      cases hp : StreamId.parse p.2 false with
      | error e =>
          rw [hp] at h
          cases h
      | ok cursor =>
          rw [hp] at h
          simp only at h ⊢
          cases hx : Slot.xread now cursor (count.map UInt64.toNat) (s.slotAt p.1) with
          | error e => exact .plain (oneLineErr_readLive _ _ _ _ _ e hx)
          | ok entries =>
              rw [hx] at h
              simp only
              split
              · exact ih h acc
              · exact ih h _

/-- **A refused stream id is quoted.** -/
theorem arm_refused {env : Env} {c : Command} {a : Arm} {s : CacheStorage} {id : Bytes} (h : arm env c = some a)
    (hid : refusedId env.now s c = some id) : (a.run s).1 = some (.error (StreamId.invalid id)) := by
  cases c with
  | xadd key text fields =>
      cases h
      cases text with
      | none => cases hid
      | some text =>
          rw [refusedId] at hid
          cases hp : StreamId.parse text false with
          | ok _ =>
              rw [hp] at hid
              cases hid
          | error e =>
              rw [hp] at hid
              cases hid
              show (xaddArm env (some id) fields _).1 = _
              rw [xaddArm_unparsed fields hp, parse_error hp]
  | xrange key start stop n =>
      cases h
      show xrangeArm env.now start stop n _ = _
      rw [refusedId] at hid
      unfold xrangeArm
      cases hstart : StreamId.parse start false with
      | error e =>
          rw [hstart] at hid
          cases hid
          rw [← parse_error hstart]
      | ok lo =>
          rw [hstart] at hid
          cases hstop : StreamId.parse stop true with
          | ok hi =>
              rw [hstop] at hid
              cases hid
          | error e =>
              rw [hstop] at hid
              cases hid
              simp only
              rw [← parse_error hstop]
  | xread count keys ids =>
      cases h
      show some (xreadArm env.now count keys ids s) = _
      rw [refusedId] at hid
      unfold xreadArm
      split at hid
      · cases hid
      · rw [if_neg ‹_›, xreadLoop_refused hid]
  | _ => cases hid

/-- **Every other reply of an arm is one frame.** -/
theorem arm_framed {env : Env} {c : Command} {a : Arm} {s : CacheStorage} {r : Response} (h : arm env c = some a)
    (hid : refusedId env.now s c = none) (hr : (a.run s).1 = some r) : r.Framed := by
  cases hc : quotesId c with
  | false => exact .plain ((arm_plain env c hc a h).run hr)
  | true =>
      cases c with
      | xadd key text fields =>
          cases h
          have hrun : ∀ requested slot,
              orError (fun id => .value id.toText) (Slot.xadd env requested fields slot).1 = some r → r.Plain := by
            intro requested slot hx
            refine plain_orError (oneLineErr_xadd env requested fields slot) (fun id => ?_) hx
            exact trivial
          cases text with
          | none => exact .plain (hrun none _ hr)
          | some text =>
              rw [refusedId] at hid
              cases hp : StreamId.parse text false with
              | error e =>
                  rw [hp] at hid
                  cases hid
              | ok id =>
                  refine .plain (hrun (some id) (s.slotAt key) ?_)
                  rw [← hr]
                  show _ = (xaddArm env (some text) fields (s.slotAt key)).1
                  simp only [xaddArm, hp]
      | xrange key start stop n =>
          cases h
          have hrun : xrangeArm env.now start stop n (s.slotAt key) = some r := hr
          rw [refusedId] at hid
          unfold xrangeArm at hrun
          cases hstart : StreamId.parse start false with
          | error e =>
              rw [hstart] at hid
              cases hid
          | ok lo =>
              cases hstop : StreamId.parse stop true with
              | error e =>
                  rw [hstart, hstop] at hid
                  cases hid
              | ok hi =>
                  rw [hstart, hstop] at hrun
                  simp only at hrun
                  cases hx : Slot.xrange env.now lo hi (n.map UInt64.toNat) (s.slotAt key) with
                  | error e =>
                      rw [hx] at hrun
                      cases hrun
                      exact .plain (oneLineErr_readLive _ _ _ _ _ e hx)
                  | ok l =>
                      rw [hx] at hrun
                      cases l with
                      | none => cases hrun
                      | some l =>
                          cases hrun
                          exact framed_formatXentries l
      | xread count keys ids =>
          cases h
          have hrun : some (xreadArm env.now count keys ids s) = some r := hr
          cases hrun
          rw [refusedId] at hid
          unfold xreadArm
          split at hid
          · have hmismatch : OneLine (utf8 "ERR XREAD streams/ids length mismatch") := by decide
            rw [if_pos ‹_›]
            exact .plain hmismatch
          · rw [if_neg ‹_›]
            exact xreadLoop_framed hid []
      | _ => cases hc

end Several

end FerricCache
