import FerricCache.Protocol.Parse

/-!
# `FerricCache.Protocol.ParseCommand` — from a RESP value to a command

`parseCommand` is `parse_command`: the name selects an arm of `commandTable`, and the arm takes the arguments
apart. The arms are instances of a few shapes (`withKey`, `withKeyValue`, `keyAndMore`, ...) where the source
repeats itself, and have a body of their own where it does not.

An error text may quote what the client sent: the name of an unknown command, and an argument that is no number.
Which do is said in `FerricCache.Protocol.Rejections`.
-/

namespace FerricCache

open Lib

/-! ## `Debug` output -/

/-- What the `Debug` format of a text asks the Unicode tables: whether a character outside ASCII is written as an
    escape. -/
class UnicodeTables where
  debugEscaped : Nat → Bool

/-- Unicode tables that escape nothing outside ASCII. -/
@[reducible] def noEscapes : UnicodeTables := ⟨fun _ => false⟩

/-- `{:x}`. -/
def hexText (n : Nat) : Bytes := (Nat.toDigits 16 n).map fun c => c.toNat.toUInt8

/-- The escape `\u` of a code point, in braces. -/
def unicodeEscape (code : Nat) : Bytes := [92, 117, 123] ++ hexText code ++ [125]

/-- The code point of a character. -/
def codePoint (lead : UInt8) (tail : Bytes) : Nat :=
  let high := lead.toNat % 2 ^ (6 - tail.length)
  tail.foldl (fun acc c => 64 * acc + c.toNat % 64) high

/-- `char::escape_debug` of an ASCII character, in a text between double quotes. -/
def debugAscii (b : UInt8) : Bytes :=
  if b = 0 then [92, 48]
  else if b = 9 then [92, 116]
  else if b = 10 then [92, 110]
  else if b = 13 then [92, 114]
  else if b = 34 ∨ b = 92 then [92, b]
  else if 32 ≤ b ∧ b < 127 then [b]
  else unicodeEscape b.toNat

variable [UnicodeTables]

/-- The characters of a text, each as `Debug` writes it, for at most `fuel` characters. -/
def debugLoop : Nat → Bytes → Bytes
  | fuel + 1, b :: rest =>
      if b < 128 then debugAscii b ++ debugLoop fuel rest
      else
        let tail := rest.take ((trailing b).getD []).length
        (if UnicodeTables.debugEscaped (codePoint b tail) then unicodeEscape (codePoint b tail) else b :: tail)
          ++ debugLoop fuel (rest.drop tail.length)
  | _, _ => []

/-- `{:?}` of a `str`. -/
def debugStr (text : Bytes) : Bytes := 34 :: (debugLoop text.length text ++ [34])

omit [UnicodeTables] in
/-- One byte as `{:?}` of `Bytes` writes it. -/
def debugByte (b : UInt8) : Bytes :=
  if b = 10 then [92, 110]
  else if b = 13 then [92, 114]
  else if b = 9 then [92, 116]
  else if b = 92 ∨ b = 34 then [92, b]
  else if b = 0 then [92, 48]
  else if 32 ≤ b ∧ b < 127 then [b]
  else [92, 120] ++ (if b < 16 then 48 :: hexText b.toNat else hexText b.toNat)

omit [UnicodeTables] in
/-- `{:?}` of `Bytes`. -/
def debugBytes (b : Bytes) : Bytes := [98, 34] ++ b.flatMap debugByte ++ [34]

mutual

/-- `{:?}` of a `RespValue`. -/
def debugResp : RespValue → Bytes
  | .simpleString text => utf8 "SimpleString(" ++ debugStr text ++ [41]
  | .error text => utf8 "Error(" ++ debugStr text ++ [41]
  | .integer n => utf8 "Integer(" ++ intText n ++ [41]
  | .bulkString (some b) => utf8 "BulkString(Some(" ++ debugBytes b ++ utf8 "))"
  | .bulkString none => utf8 "BulkString(None)"
  | .array items => utf8 "Array([" ++ debugItems items ++ utf8 "])"

/-- The items of an array, separated by commas. -/
def debugItems : List RespValue → Bytes
  | [] => []
  | [v] => debugResp v
  | v :: w :: rest => debugResp v ++ utf8 ", " ++ debugItems (w :: rest)

end

/-! ## Arguments -/

/-- The result of taking a command apart; a panic is an index out of range. -/
abbrev Parse := Except ReadError

omit [UnicodeTables] in
/-- `Err(text)`. -/
def reject {α : Type} (text : Bytes) : Parse α := .error (.err text)

/-- `extract_bulk_string`. -/
def extractBulkString : RespValue → Parse Bytes
  | .bulkString (some b) => .ok b
  | .bulkString none => reject (utf8 "Null bulk string")
  | .simpleString text => .ok text
  | v => reject (utf8 "Expected bulk string, got " ++ debugResp v)

/-- `extract_integer`. -/
def extractInteger : RespValue → Parse Int
  | .integer n => .ok n
  | .bulkString (some b) =>
      match parseI64 (lossy b) with
      | some n => .ok n
      | none => reject (utf8 "Invalid integer: " ++ lossy b)
  | v => reject (utf8 "Expected integer, got " ++ debugResp v)

/-- `extract_float`. -/
def extractFloat : RespValue → Parse F64
  | .bulkString (some b) =>
      match F64.parse (lossy b) with
      | some x => .ok x
      | none => reject (utf8 "Invalid float: " ++ lossy b)
  | .integer n => .ok (F64.round n)
  | v => reject (utf8 "Expected float, got " ++ debugResp v)

omit [UnicodeTables] in
/-- `ensure_arg_count`. -/
def ensureArgCount (array : List RespValue) (expected : Nat) : Parse Unit :=
  if array.length ≠ expected then
    reject (utf8 "Expected " ++ natText expected ++ utf8 " arguments, got " ++ natText array.length)
  else .ok ()

omit [UnicodeTables] in
/-- `array[i]`. -/
def nth (array : List RespValue) (i : Nat) : Parse RespValue :=
  match array[i]? with
  | some v => .ok v
  | none => .error .panic

def bulkAt (array : List RespValue) (i : Nat) : Parse Bytes := do extractBulkString (← nth array i)

def intAt (array : List RespValue) (i : Nat) : Parse Int := do extractInteger (← nth array i)

def floatAt (array : List RespValue) (i : Nat) : Parse F64 := do extractFloat (← nth array i)

/-- `array[i..].iter().map(extract_bulk_string).collect()`. -/
def bulksFrom (array : List RespValue) (i : Nat) : Parse (List Bytes) :=
  if array.length < i then .error .panic else (array.drop i).mapM extractBulkString

/-- An option keyword, in upper case. -/
def keywordAt (array : List RespValue) (i : Nat) : Parse Bytes := do
  return toAsciiUppercase (lossy (← bulkAt array i))

omit [UnicodeTables] in
/-- `n as u32`. -/
def asU32 (n : Int) : UInt32 := UInt32.ofNat (n % 2 ^ 32).toNat

omit [UnicodeTables] in
/-- `n.max(0) as usize`. -/
def clampUsize (n : Int) : UInt64 := UInt64.ofNat (max n 0).toNat

/-! ## Shapes of arms -/

/-- A command that is its name. -/
def nameOnly (c : Command) (array : List RespValue) : Parse Command := do
  ensureArgCount array 1
  return c

def withKey (mk : Bytes → Command) (array : List RespValue) : Parse Command := do
  ensureArgCount array 2
  return mk (← bulkAt array 1)

def withKeyValue (mk : Bytes → Bytes → Command) (array : List RespValue) : Parse Command := do
  ensureArgCount array 3
  return mk (← bulkAt array 1) (← bulkAt array 2)

def withThree (mk : Bytes → Bytes → Bytes → Command) (array : List RespValue) : Parse Command := do
  ensureArgCount array 4
  return mk (← bulkAt array 1) (← bulkAt array 2) (← bulkAt array 3)

def withKeyInt (mk : Bytes → Int64 → Command) (array : List RespValue) : Parse Command := do
  ensureArgCount array 3
  return mk (← bulkAt array 1) (.ofInt (← intAt array 2))

def withKeyInts (mk : Bytes → Int64 → Int64 → Command) (array : List RespValue) : Parse Command := do
  ensureArgCount array 4
  return mk (← bulkAt array 1) (.ofInt (← intAt array 2)) (.ofInt (← intAt array 3))

def withKeyIntValue (mk : Bytes → Int → Bytes → Command) (array : List RespValue) : Parse Command := do
  ensureArgCount array 4
  return mk (← bulkAt array 1) (← intAt array 2) (← bulkAt array 3)

def keyAndMore (text : String) (mk : Bytes → List Bytes → Command) (array : List RespValue) : Parse Command := do
  if array.length < 3 then reject (utf8 text)
  let key ← bulkAt array 1
  return mk key (← bulksFrom array 2)

def keysOnly (text : String) (mk : List Bytes → Command) (array : List RespValue) : Parse Command := do
  if array.length < 2 then reject (utf8 text)
  return mk (← bulksFrom array 1)

/-- Two values at a time, up to an odd one out. -/
def pairsOf : List RespValue → Parse (List (Bytes × Bytes))
  | k :: v :: rest => do
      let k ← extractBulkString k
      let v ← extractBulkString v
      return (k, v) :: (← pairsOf rest)
  | _ => return []

/-! ## Arms of their own -/

/-- The option loop of `SET`; words it does not know are skipped. -/
def setOptions : List RespValue → Option UInt32 → Parse (Option UInt32)
  | [], ttlSecs => return ttlSecs
  | opt :: rest, ttlSecs => do
      let opt := toAsciiUppercase (lossy (← extractBulkString opt))
      if opt = utf8 "EX" then
        match rest with
        | [] => reject (utf8 "EX requires a value")
        | secs :: rest => setOptions rest (some (asU32 (← extractInteger secs)))
      else if opt = utf8 "PX" then
        match rest with
        | [] => reject (utf8 "PX requires a value")
        | millis :: rest => setOptions rest (some (asU32 (← extractInteger millis) / 1000))
      else setOptions rest ttlSecs

def parseSet (array : List RespValue) : Parse Command := do
  if array.length < 3 then reject (utf8 "SET requires at least 2 arguments")
  let key ← bulkAt array 1
  let value ← bulkAt array 2
  return .set key value (← setOptions (array.drop 3) none)

/-- The loop of `ZADD`. -/
def scoresOf : List RespValue → Parse (List (F64 × Bytes))
  | [] => return []
  | score :: rest => do
      let score ← extractFloat score
      match rest with
      | [] => .error .panic
      | member :: rest =>
          let member ← extractBulkString member
          return (score, member) :: (← scoresOf rest)

def parseZadd (array : List RespValue) : Parse Command := do
  if array.length < 4 ∨ (array.length - 2) % 2 ≠ 0 then
    reject (utf8 "ZADD requires key and score-member pairs")
  let key ← bulkAt array 1
  return .zadd key (← scoresOf (array.drop 2))

def parseZrange (array : List RespValue) : Parse Command := do
  if array.length < 4 then reject (utf8 "ZRANGE requires at least 3 arguments")
  let key ← bulkAt array 1
  let start ← intAt array 2
  let stop ← intAt array 3
  let withScores ← if array.length > 4 then do pure (decide ((← keywordAt array 4) = utf8 "WITHSCORES"))
    else pure false
  return .zrange key (.ofInt start) (.ofInt stop) withScores

def parseZcount (array : List RespValue) : Parse Command := do
  ensureArgCount array 4
  return .zcount (← bulkAt array 1) (← floatAt array 2) (← floatAt array 3)

def parseKeys (array : List RespValue) : Parse Command := do
  ensureArgCount array 2
  return .keys (lossy (← bulkAt array 1))

def parseAuth (array : List RespValue) : Parse Command := do
  if array.length = 2 then return .auth none (← bulkAt array 1)
  else if array.length = 3 then return .auth (some (← bulkAt array 1)) (← bulkAt array 2)
  else reject (utf8 "AUTH requires 1 or 2 arguments")

def parseMset (array : List RespValue) : Parse Command := do
  if array.length < 3 ∨ (array.length - 1) % 2 ≠ 0 then
    reject (utf8 "MSET requires non-empty key/value pairs")
  return .mset (← pairsOf (array.drop 1))

def parseIncrByFloat (array : List RespValue) : Parse Command := do
  ensureArgCount array 3
  return .incrByFloat (← bulkAt array 1) (← floatAt array 2)

def parseHmset (array : List RespValue) : Parse Command := do
  if array.length < 4 ∨ (array.length - 2) % 2 ≠ 0 then
    reject (utf8 "HMSET requires key + non-empty field/value pairs")
  let key ← bulkAt array 1
  return .hmset key (← pairsOf (array.drop 2))

def parseHincrBy (array : List RespValue) : Parse Command := do
  ensureArgCount array 4
  return .hincrBy (← bulkAt array 1) (← bulkAt array 2) (.ofInt (← intAt array 3))

/-- A key and an optional count, which is read first. -/
def keyAndCount (text : String) (mk : Bytes → Option Int → Command) (array : List RespValue) : Parse Command := do
  if array.length < 2 ∨ array.length > 3 then reject (utf8 text)
  let count ← if array.length = 3 then do pure (some (← intAt array 2)) else pure none
  return mk (← bulkAt array 1) count

def parseZincrBy (array : List RespValue) : Parse Command := do
  ensureArgCount array 4
  return .zincrBy (← bulkAt array 1) (← floatAt array 2) (← bulkAt array 3)

/-- `array.len() >= 5 && ..`: the keyword is read before the other arguments. -/
def withScoresAt (array : List RespValue) : Parse Bool := do
  if array.length ≥ 5 then return decide ((← keywordAt array 4) = utf8 "WITHSCORES")
  else return false

def parseZrangeByScore (array : List RespValue) : Parse Command := do
  if array.length < 4 then reject (utf8 "ZRANGEBYSCORE requires key min max")
  let withScores ← withScoresAt array
  return .zrangeByScore (← bulkAt array 1) (← floatAt array 2) (← floatAt array 3) withScores

def parseZrevrange (array : List RespValue) : Parse Command := do
  if array.length < 4 then reject (utf8 "ZREVRANGE requires key start stop")
  let withScores ← withScoresAt array
  return .zrevrange (← bulkAt array 1) (.ofInt (← intAt array 2)) (.ofInt (← intAt array 3)) withScores

def parseUnsubscribe (array : List RespValue) : Parse Command := do
  let channels ← if array.length = 1 then pure [] else bulksFrom array 1
  return .unsubscribe channels

def parseXadd (array : List RespValue) : Parse Command := do
  if array.length < 5 ∨ (array.length - 3) % 2 ≠ 0 then
    reject (utf8 "XADD requires key, id, and at least one field/value pair")
  let key ← bulkAt array 1
  let id := lossy (← bulkAt array 2)
  return .xadd key (if id = utf8 "*" then none else some id) (← pairsOf (array.drop 3))

def parseXrange (array : List RespValue) : Parse Command := do
  if array.length < 4 ∨ array.length = 5 ∨ array.length > 6 then
    reject (utf8 "XRANGE requires key, start, end, [COUNT n]")
  let count ← if array.length = 6 then do
      if (← keywordAt array 4) ≠ utf8 "COUNT" then reject (utf8 "XRANGE: expected COUNT keyword")
      pure (some (clampUsize (← intAt array 5)))
    else pure none
  return .xrange (← bulkAt array 1) (lossy (← bulkAt array 2)) (lossy (← bulkAt array 3)) count

/-- The optional `COUNT n` of `XREAD`, and where to go on. -/
def xreadCount (array : List RespValue) : Parse (Option UInt64 × Nat) := do
  if array.length > 2 then
    if (← keywordAt array 1) = utf8 "COUNT" then return (some (clampUsize (← intAt array 2)), 3)
    else return (none, 1)
  else return (none, 1)

/-- The optional `BLOCK ms` of `XREAD`, which is skipped. -/
def xreadBlock (array : List RespValue) (idx : Nat) : Parse Nat := do
  if array.length > idx + 1 then
    if (← keywordAt array idx) = utf8 "BLOCK" then return idx + 2
    else return idx
  else return idx

def parseXread (array : List RespValue) : Parse Command := do
  let (count, idx) ← xreadCount array
  let idx ← xreadBlock array idx
  if array.length ≤ idx then reject (utf8 "XREAD requires STREAMS keyword")
  if (← keywordAt array idx) ≠ utf8 "STREAMS" then reject (utf8 "XREAD: expected STREAMS")
  let rest := array.drop (idx + 1)
  if rest.length = 0 ∨ rest.length % 2 ≠ 0 then
    reject (utf8 "XREAD: STREAMS must be followed by an even number of args")
  let keys ← (rest.take (rest.length / 2)).mapM extractBulkString
  let ids ← (rest.drop (rest.length / 2)).mapM extractBulkString
  return .xread count keys (ids.map lossy)

/-- `EVAL` and `EVALSHA`. -/
def parseEval (name : String) (mk : Bytes → List Bytes → List Bytes → Command) (array : List RespValue) :
    Parse Command := do
  if array.length < 3 then reject (utf8 name ++ utf8 " requires script + numkeys")
  let script ← bulkAt array 1
  let numkeys := (clampUsize (← intAt array 2)).toNat
  if array.length < 3 + numkeys then
    reject (utf8 name ++ utf8 ": not enough keys for numkeys=" ++ natText numkeys)
  let keys ← ((array.drop 3).take numkeys).mapM extractBulkString
  return mk (lossy script) keys (← bulksFrom array (3 + numkeys))

/-! ## The arms by name -/

/-- The `match` of `parse_command` on the name. -/
def commandTable : List (Bytes × (List RespValue → Parse Command)) :=
  [(utf8 "GET", withKey .get),
    (utf8 "SET", parseSet),
    (utf8 "DEL", withKey .delete),
    (utf8 "INCR", withKey .incr),
    (utf8 "DECR", withKey .decr),
    (utf8 "APPEND", withKeyValue .append),
    (utf8 "STRLEN", withKey .strlen),
    -- hashes
    (utf8 "HGET", withKeyValue .hget),
    (utf8 "HSET", withThree .hset),
    (utf8 "HDEL", keyAndMore "HDEL requires at least 2 arguments" .hdel),
    (utf8 "HGETALL", withKey .hgetall),
    (utf8 "HKEYS", withKey .hkeys),
    (utf8 "HVALS", withKey .hvals),
    (utf8 "HLEN", withKey .hlen),
    (utf8 "HEXISTS", withKeyValue .hexists),
    -- lists
    (utf8 "LPUSH", keyAndMore "LPUSH requires at least 2 arguments" .lpush),
    (utf8 "RPUSH", keyAndMore "RPUSH requires at least 2 arguments" .rpush),
    (utf8 "LPOP", withKey .lpop),
    (utf8 "RPOP", withKey .rpop),
    (utf8 "LRANGE", withKeyInts .lrange),
    (utf8 "LLEN", withKey .llen),
    (utf8 "LINDEX", withKeyInt .lindex),
    -- sets
    (utf8 "SADD", keyAndMore "SADD requires at least 2 arguments" .sadd),
    (utf8 "SREM", keyAndMore "SREM requires at least 2 arguments" .srem),
    (utf8 "SMEMBERS", withKey .smembers),
    (utf8 "SISMEMBER", withKeyValue .sismember),
    (utf8 "SCARD", withKey .scard),
    (utf8 "SINTER", keysOnly "SINTER requires at least 1 key" .sinter),
    (utf8 "SUNION", keysOnly "SUNION requires at least 1 key" .sunion),
    (utf8 "SDIFF", keysOnly "SDIFF requires at least 1 key" .sdiff),
    -- sorted sets
    (utf8 "ZADD", parseZadd),
    (utf8 "ZREM", keyAndMore "ZREM requires at least 2 arguments" .zrem),
    (utf8 "ZRANGE", parseZrange),
    (utf8 "ZRANK", withKeyValue .zrank),
    (utf8 "ZSCORE", withKeyValue .zscore),
    (utf8 "ZCARD", withKey .zcard),
    (utf8 "ZCOUNT", parseZcount),
    -- server
    (utf8 "PING", fun _ => .ok .ping),
    (utf8 "ECHO", withKey .echo),
    (utf8 "EXISTS", keysOnly "EXISTS requires at least 1 key" .existsKeys),
    (utf8 "KEYS", parseKeys),
    (utf8 "FLUSHALL", fun _ => .ok .flushAll),
    (utf8 "DBSIZE", fun _ => .ok .dbSize),
    -- deadlines
    (utf8 "EXPIRE", withKeyInt .expire),
    (utf8 "PEXPIRE", withKeyInt .pexpire),
    (utf8 "EXPIREAT", withKeyInt .expireAt),
    (utf8 "TTL", withKey .ttl),
    (utf8 "PTTL", withKey .pttl),
    (utf8 "PERSIST", withKey .persist),
    (utf8 "AUTH", parseAuth),
    -- Redis parity
    (utf8 "SETNX", withKeyValue .setNx),
    (utf8 "SETEX", withKeyIntValue fun key seconds value => .setEx key (asU32 seconds) value),
    (utf8 "GETSET", withKeyValue .getSet),
    (utf8 "MGET", keysOnly "MGET requires at least 1 key" .mget),
    (utf8 "MSET", parseMset),
    (utf8 "GETRANGE", withKeyInts .getRange),
    (utf8 "SUBSTR", withKeyInts .getRange),
    (utf8 "INCRBY", withKeyInt .incrBy),
    (utf8 "DECRBY", withKeyInt .decrBy),
    (utf8 "INCRBYFLOAT", parseIncrByFloat),
    (utf8 "HMGET", keyAndMore "HMGET requires key + at least 1 field" .hmget),
    (utf8 "HMSET", parseHmset),
    (utf8 "HSETNX", withThree .hsetNx),
    (utf8 "HINCRBY", parseHincrBy),
    (utf8 "LSET", withKeyIntValue fun key index value => .lset key (.ofInt index) value),
    (utf8 "LREM", withKeyIntValue fun key count value => .lrem key (.ofInt count) value),
    (utf8 "LTRIM", withKeyInts .ltrim),
    (utf8 "RPOPLPUSH", withKeyValue .rpoplpush),
    (utf8 "SPOP", keyAndCount "SPOP requires 1 or 2 arguments" fun key count => .spop key (count.map clampUsize)),
    (utf8 "SRANDMEMBER", keyAndCount "SRANDMEMBER requires 1 or 2 arguments"
      fun key count => .srandMember key (count.map .ofInt)),
    (utf8 "SMOVE", withThree .smove),
    (utf8 "ZINCRBY", parseZincrBy),
    (utf8 "ZRANGEBYSCORE", parseZrangeByScore),
    (utf8 "ZREVRANGE", parseZrevrange),
    (utf8 "ZPOPMIN", keyAndCount "ZPOPMIN requires 1 or 2 arguments"
      fun key count => .zpopMin key ((count.map clampUsize).getD 1)),
    (utf8 "ZPOPMAX", keyAndCount "ZPOPMAX requires 1 or 2 arguments"
      fun key count => .zpopMax key ((count.map clampUsize).getD 1)),
    (utf8 "TYPE", withKey .type),
    (utf8 "RENAME", withKeyValue .rename),
    (utf8 "RANDOMKEY", nameOnly .randomKey),
    -- Pub/Sub
    (utf8 "PUBLISH", withKeyValue .publish),
    (utf8 "SUBSCRIBE", keysOnly "SUBSCRIBE requires at least 1 channel" .subscribe),
    (utf8 "UNSUBSCRIBE", parseUnsubscribe),
    -- transactions
    (utf8 "MULTI", nameOnly .multi),
    (utf8 "EXEC", nameOnly .exec),
    (utf8 "DISCARD", nameOnly .discard),
    (utf8 "WATCH", keysOnly "WATCH requires at least 1 key" .watch),
    (utf8 "UNWATCH", nameOnly .unwatch),
    -- streams
    (utf8 "XADD", parseXadd),
    (utf8 "XLEN", withKey .xlen),
    (utf8 "XRANGE", parseXrange),
    (utf8 "XREAD", parseXread),
    -- scripts
    (utf8 "EVAL", parseEval "EVAL" .luaEval),
    (utf8 "EVALSHA", parseEval "EVALSHA" .luaEvalSha)]

/-- The name a frame is dispatched by. -/
def commandWord (first : RespValue) : Parse Bytes := do
  return toAsciiUppercase (lossy (← extractBulkString first))

/-- **`parse_command`.** -/
def parseCommand : RespValue → Parse Command
  | .array [] => reject (utf8 "Empty command")
  | .array (first :: rest) => do
      let cmdName ← commandWord first
      match commandTable.lookup cmdName with
      | some arm => arm (first :: rest)
      | none => reject (utf8 "Unknown command: " ++ cmdName)
  | _ => reject (utf8 "Command must be an array")

end FerricCache
