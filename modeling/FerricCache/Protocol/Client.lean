import FerricCache.Protocol.Arguments

/-!
# `FerricCache.Protocol.Client` — the client's end of the connection

The client has its own halves of the two codecs: `serializeCommand`, for the three commands it knows, and
`parseResponse`. Each meets the server's half: `parseCommand` gives back the command that was sent, and `parseResponse`
the reply (`wire_intact`).
-/

namespace FerricCache

open Lib Reply

/-! ## Commands -/

/-- The words behind the value of a `SET` that the client sends. -/
def ttlWords : Option UInt32 → List Bytes
  | some ttl => [utf8 "EX", natText ttl.toNat]
  | none => []

/-- `command_to_resp`. -/
def commandToResp : Command → RespValue
  | .get key => request [utf8 "GET", key]
  | .set key value ttlSecs => request ([utf8 "SET", key, value] ++ ttlWords ttlSecs)
  | .delete key => request [utf8 "DEL", key]
  | _ => .error (utf8 "Command serialization not implemented")

/-- `serialize_command`. -/
def serializeCommand (command : Command) : Bytes := serializeResp (commandToResp command)

/-- The commands that the client sends. No buffer takes more than `isize::MAX` bytes. -/
inductive Command.Sent : Command → Prop
  | get {key : Bytes} (hkey : key.length ≤ isizeMax) : Sent (.get key)
  | set {key value : Bytes} (hkey : key.length ≤ isizeMax) (hvalue : value.length ≤ isizeMax)
      (ttlSecs : Option UInt32) : Sent (.set key value ttlSecs)
  | delete {key : Bytes} (hkey : key.length ≤ isizeMax) : Sent (.delete key)

/-- A command of one key. -/
theorem complete_request_key {word key : Bytes} (hword : word.length ≤ isizeMax) (hkey : key.length ≤ isizeMax) :
    Complete (writeResp (request [word, key])) (request [word, key]) := by
  refine complete_request (Nat.le_of_ble_eq_true rfl) ?_
  intro b hb
  simp only [List.mem_cons, List.not_mem_nil, or_false] at hb
  rcases hb with rfl | rfl
  · exact hword
  · exact hkey

/-- A printed `u32` is short. -/
theorem length_natText_le (n : UInt32) : (natText n.toNat).length ≤ isizeMax := by
  have hten : (Nat.toDigits 10 n.toNat).length ≤ 10 := by
    rw [Nat.length_toDigits_le_iff (by decide) (by decide)]
    exact Nat.lt_trans n.toNat_lt (by decide)
  unfold natText Decimal.digits
  rw [List.length_map]
  exact Nat.le_trans hten (by decide)

variable [UnicodeTables]

/-- The time to live comes back: a printed `u32` is read as an `i64`, and the cast to `u32` keeps it. -/
theorem setOptions_ttlWords (ttlSecs : Option UInt32) :
    setOptions ((ttlWords ttlSecs).map fun b => .bulkString (some b)) none = .ok ttlSecs := by
  cases ttlSecs with
  | none => rfl
  | some ttl =>
      have hlt := ttl.toNat_lt
      have hread : extractInteger (.bulkString (some (natText ttl.toNat))) = .ok (ttl.toNat : Int) := by
        have htext : parseI64 (intText (ttl.toNat : Int)) = some (ttl.toNat : Int) :=
          parseI64_intText_of_range (by omega) (by omega)
        have hlossy : lossy (natText ttl.toNat) = natText ttl.toNat := lossy_intText (ttl.toNat : Int)
        rw [extractInteger, hlossy]
        change parseI64 (natText ttl.toNat) = _ at htext
        rw [htext]
      have hcast : asU32 (ttl.toNat : Int) = ttl := by
        unfold asU32
        have hmod : ((ttl.toNat : Int) % 2 ^ 32).toNat = ttl.toNat := by omega
        rw [hmod]
        exact UInt32.ofNat_toNat
      show (extractInteger (.bulkString (some (natText ttl.toNat))) >>= fun n => setOptions [] (some (asU32 n))) = _
      rw [hread]
      show Except.ok (some (asU32 (ttl.toNat : Int))) = _
      rw [hcast]

/-- The server gets the command that the client sent. -/
theorem commandToResp_crosses {c : Command} (hc : c.Sent) :
    Complete (serializeCommand c) (commandToResp c) ∧ parseCommand (commandToResp c) = .ok c := by
  cases hc with
  | @get key hkey => exact ⟨complete_request_key (by decide) hkey, rfl⟩
  | @set key value hkey hvalue ttlSecs =>
      refine ⟨complete_request ?_ ?_, ?_⟩
      · cases ttlSecs <;> exact Nat.le_of_ble_eq_true rfl
      · intro b hb
        rcases List.mem_append.mp hb with hb | hb
        · simp only [List.mem_cons, List.not_mem_nil, or_false] at hb
          rcases hb with rfl | rfl | rfl
          · decide
          · exact hkey
          · exact hvalue
        · cases ttlSecs with
          | none => cases hb
          | some ttl =>
              simp only [ttlWords, List.mem_cons, List.not_mem_nil, or_false] at hb
              rcases hb with rfl | rfl
              · decide
              · exact length_natText_le ttl
      · show (setOptions ((ttlWords ttlSecs).map fun b => .bulkString (some b)) none >>= fun ttlSecs =>
          pure (Command.set key value ttlSecs)) = _
        rw [setOptions_ttlWords]
        rfl
  | @delete key hkey => exact ⟨complete_request_key (by decide) hkey, rfl⟩

/-! ## Replies -/

omit [UnicodeTables] in
/-- The items of an array that the client keeps. -/
def bulkItems (items : List RespValue) : List Bytes :=
  items.filterMap fun
    | .bulkString (some b) => some b
    | _ => none

omit [UnicodeTables] in
/-- What `parse_response` makes of a frame. -/
def Response.ofResp : RespValue → Response
  | .simpleString s => if s = utf8 "OK" then .ok else .error (utf8 "Unexpected response type")
  | .bulkString (some b) => .value b
  | .bulkString none => .notFound
  | .error e => .error e
  | .integer n => .integer n
  | .array items => .array (bulkItems items)

omit [UnicodeTables] in
/-- `parse_response`. -/
def parseResponse (buf : Bytes) : Except ReadError Response := (parseResp buf).map fun r => Response.ofResp r.1

omit [UnicodeTables] in
/-- The replies that the client can tell apart: every one but a null, which is a missing value to the client, and the
    frames written verbatim. Their parts are as large as the Rust types allow. -/
inductive Response.Told : Response → Prop
  | ok : Told .ok
  | value {b : Bytes} (h : b.length ≤ isizeMax) : Told (.value b)
  | integer {n : Int} (hlo : -2 ^ 63 ≤ n) (hhi : n < 2 ^ 63) : Told (.integer n)
  | array {items : List Bytes} (h : ∀ b ∈ items, b.length ≤ isizeMax)
      (hsize : items.length * respValueSize ≤ isizeMax) :
      Told (.array items)
  | notFound : Told .notFound
  | error {text : Bytes} (hutf : Utf8 text) (hone : OneLine text) : Told (.error text)

omit [UnicodeTables] in
theorem bulkItems_map (items : List Bytes) : bulkItems (items.map fun b => .bulkString (some b)) = items := by
  unfold bulkItems
  rw [List.filterMap_map]
  exact List.filterMap_some

omit [UnicodeTables] in
/-- A reply is one frame, and its value says which reply it was. -/
theorem Response.Told.crosses {r : Response} (hr : r.Told) :
    Complete (serializeResponse r) r.toResp ∧ Response.ofResp r.toResp = r := by
  cases hr with
  | ok =>
      exact ⟨complete_writeResp (.simpleString (utf8_of_ascii (by decide +kernel))) (.simpleString (by decide)), rfl⟩
  | value h => exact ⟨complete_writeResp (.bulk h) (.bulk _), rfl⟩
  | integer hlo hhi => exact ⟨complete_writeResp (.integer hlo hhi) (.integer _), rfl⟩
  | @array items h hsize => exact ⟨complete_request hsize h, congrArg Response.array (bulkItems_map items)⟩
  | notFound => exact ⟨complete_writeResp .null (.bulk none), rfl⟩
  | error hutf hone => exact ⟨complete_writeResp (.error hutf) (.error hone), rfl⟩

/-! ## Together -/

/-- **The wire is transparent in both directions.** The server reads the whole of what the client sent, and it is the
    command; the client makes of a reply's bytes the reply. -/
theorem wire_intact {c : Command} {r : Response} (hc : c.Sent) (hr : r.Told) :
    (∃ v, parseResp (serializeCommand c) = .ok (v, []) ∧ parseCommand v = .ok c) ∧
      parseResponse (serializeResponse r) = .ok r := by
  obtain ⟨hframe, hcommand⟩ := commandToResp_crosses hc
  obtain ⟨hreply, hback⟩ := hr.crosses
  refine ⟨⟨commandToResp c, hframe, hcommand⟩, ?_⟩
  unfold parseResponse
  rw [hreply]
  exact congrArg Except.ok hback

omit [UnicodeTables] in
/-- A `SET` with line ends in key and value and the longest time to live, and a value with the text `OK`. -/
theorem wire_intact_set :
    let _ := noEscapes
    let c := Command.set (utf8 "k\r\n") (utf8 "$3\r\nabc\r\n") (some 4294967295)
    (∃ v, parseResp (serializeCommand c) = .ok (v, []) ∧ parseCommand v = .ok c) ∧
      parseResponse (serializeResponse (.value (utf8 "OK"))) = .ok (.value (utf8 "OK")) := by
  intro _ c
  exact wire_intact (.set (by decide) (by decide) _) (.value (by decide))

end FerricCache
