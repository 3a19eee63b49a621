import FerricCache.Protocol.Command
import FerricCache.Storage.Multi

/-!
# `FerricCache.Server.Dispatch` — the dispatch arms of `execute_command`

`arm env c` is the `match` of `execute_command` for the commands that work on the storage: a
single-key arm is a function of the key's slot, the others are functions of the whole storage. The
remaining arms (pub/sub, transaction control, `AUTH`, scripts) have no arm here: they read connection
state, or hand the storage to the Lua engine.

`dispatch` runs an arm. A reply of `none` is a panic of the connection's task; the storage is what the
panicking operation left behind.
-/

namespace FerricCache

/-! ## Replies -/

namespace Reply

/-- `Ok(a) => f a`, `Err(e) => Response::Error(e)`. -/
def orError {α : Type} (f : α → Response) : Res α → Option Response
  | .ok a => some (f a)
  | .error e => some (.error e)

/-- The same for an operation that may panic. -/
def orPanic {α : Type} (f : α → Response) : Res (Option α) → Option Response
  | .ok (some a) => some (f a)
  | .ok none => none
  | .error e => some (.error e)

def count (n : Nat) : Response := .integer n

def flag (b : Bool) : Response := .integer (if b then 1 else 0)

/-- `Some(v) => Value(v)`, `None => NotFound`. -/
def valueOr : Option Bytes → Response
  | some v => .value v
  | none => .notFound

/-- Members, each followed by its score when one is given. -/
def scored (l : List (Bytes × Option F64)) : Response :=
  .array (l.flatMap fun p => p.1 :: (p.2.map F64.toText).toList)

def crlf : Bytes := [13, 10]

/-- A RESP bulk string. -/
def bulk (b : Bytes) : Bytes := 36 :: (natText b.length ++ crlf ++ b ++ crlf)

/-- A RESP array header. -/
def header (n : Nat) : Bytes := 42 :: (natText n ++ crlf)

/-- `format_xentries`. -/
def formatXentries (entries : List (StreamId × List (Bytes × Bytes))) : Bytes :=
  header entries.length ++ entries.flatMap fun e =>
    header 2 ++ bulk e.1.toText ++ header (e.2.length * 2) ++
      e.2.flatMap fun p => bulk p.1 ++ bulk p.2

/-- `format_xread`. -/
def formatXread (perStream : List (Bytes × List (StreamId × List (Bytes × Bytes)))) : Bytes :=
  header perStream.length ++ perStream.flatMap fun p =>
    header 2 ++ bulk p.1 ++ formatXentries p.2

/-- The null array. -/
def nullArray : Response := .raw (utf8 "*-1\r\n")

end Reply

open Reply

/-! ## Single-key arms with a loop or a clock of their own -/

/-- The `HMSET` loop: one `hset` after the other, stopping at the first error. -/
def hmsetLoop : List (Bytes × Bytes) → Slot → Option Response × Slot
  | [], slot => (some .ok, slot)
  | (f, v) :: pairs, slot =>
      match Slot.hset f v slot with
      | (.ok _, slot') => hmsetLoop pairs slot'
      | (.error e, slot') => (some (.error e), slot')

/-- `EXPIRE`, `PEXPIRE`: a negative duration is refused, a huge one panics in `Instant + Duration`. -/
def expireArm (now : Instant) (duration : Option Nat) (slot : Slot) : Option Response × Slot :=
  match duration with
  | none => (some (.integer 0), slot)
  | some d =>
      match instantAdd now d with
      | some at' => let r := Slot.setExpiry now at' slot; (some (flag r.1), r.2)
      | none => (none, slot)

/-- `u64::try_from` of an `i64`. -/
def tryU64 (n : Int64) : Option Nat := if n.toInt < 0 then none else some n.toInt.toNat

/-- `EXPIREAT`: a timestamp that is not in the future deletes the key. The wall clock is read as
    `i64` seconds, and the difference is an `i64` subtraction cast to `u64`. -/
def expireAtArm (env : Env) (unixSecs : Int64) (slot : Slot) : Option Response × Slot :=
  if unixSecs.toInt ≤ wrapI64 env.unixSecs then
    let r := Slot.delete slot
    (some (flag r.1), r.2)
  else
    expireArm env.now
      (some (durationSecs (asUsize (wrapI64 (unixSecs.toInt - wrapI64 env.unixSecs))))) slot

/-- Wall-clock seconds fit an `i64`. -/
theorem wrapI64_unixSecs (env : Env) : wrapI64 env.unixSecs = env.unixSecs := by
  have h := env.unixMs.toNat_lt
  have hle : env.unixSecs < 2 ^ 63 := by
    unfold Env.unixSecs
    omega
  unfold wrapI64
  rw [Int.bmod_eq_of_le] <;> omega

/-- A timestamp that is not in the future deletes the key. -/
theorem expireAtArm_past {env : Env} {t : Int64} (h : t.toInt ≤ (env.unixSecs : Int)) (slot : Slot) :
    expireAtArm env t slot = (some (flag slot.isSome), none) := by
  unfold expireAtArm
  rw [wrapI64_unixSecs, if_pos h]
  rfl

/-- A timestamp in the future sets a deadline that many seconds away. -/
theorem expireAtArm_future {env : Env} {t : Int64} (h : (env.unixSecs : Int) < t.toInt) (slot : Slot) :
    expireAtArm env t slot
      = expireArm env.now (some (durationSecs (t.toInt.toNat - env.unixSecs))) slot := by
  have hlt := t.toInt_lt
  have hdelta : asUsize (wrapI64 (t.toInt - (env.unixSecs : Int))) = t.toInt.toNat - env.unixSecs := by
    unfold asUsize wrapI64
    rw [Int.bmod_eq_of_le] <;> omega
  unfold expireAtArm
  rw [wrapI64_unixSecs, if_neg (by omega), hdelta]

/-- `TTL`: whole seconds of what `pttl_millis` says. -/
def ttlReply : Option Int → Response
  | none => .integer (-2)
  | some ms => if ms = -1 then .integer (-1) else .integer (ms.tdiv 1000)

def pttlReply : Option Int → Response
  | none => .integer (-2)
  | some ms => .integer ms

/-- `XADD`: an id that does not parse is an error before the storage is touched. -/
def xaddArm (env : Env) (id : Option Bytes) (fields : List (Bytes × Bytes)) (slot : Slot) :
    Option Response × Slot :=
  let run := fun (requested : Option StreamId) =>
    let r := Slot.xadd env requested fields slot
    (orError (fun id => .value id.toText) r.1, r.2)
  match id with
  | none => run none
  | some text =>
      match StreamId.parse text false with
      | .ok id => run (some id)
      | .error e => (some (.error e), slot)

theorem xaddArm_parsed {env : Env} {text : Bytes} {id : StreamId} (fields : List (Bytes × Bytes))
    (h : StreamId.parse text false = .ok id) (slot : Slot) :
    (xaddArm env (some text) fields slot).2 = (Slot.xadd env (some id) fields slot).2 := by
  simp only [xaddArm, h]

theorem xaddArm_unparsed {env : Env} {text e : Bytes} (fields : List (Bytes × Bytes))
    (h : StreamId.parse text false = .error e) (slot : Slot) :
    xaddArm env (some text) fields slot = (some (.error e), slot) := by
  simp only [xaddArm, h]

/-- `XRANGE`: both bounds are parsed first. -/
def xrangeArm (now : Instant) (start stop : Bytes) (count : Option UInt64) (slot : Slot) :
    Option Response :=
  match StreamId.parse start false with
  | .error e => some (.error e)
  | .ok s =>
      match StreamId.parse stop true with
      | .error e => some (.error e)
      | .ok e =>
          orPanic (fun l => .raw (formatXentries l))
            (Slot.xrange now s e (count.map UInt64.toNat) slot)

/-! ## `XREAD` -/

/-- The `XREAD` loop over the remaining streams, with the results so far. -/
def xreadLoop [KeyHash] (now : Instant) (count : Option UInt64) (s : CacheStorage) :
    List (Bytes × List (StreamId × List (Bytes × Bytes))) → List (Bytes × Bytes) → Response
  | perStream, [] =>
      if perStream.isEmpty then nullArray else .raw (formatXread perStream)
  | perStream, (key, id) :: rest =>
      match StreamId.parse id false with
      | .error e => .error e
      | .ok cursor =>
          match Slot.xread now cursor (count.map UInt64.toNat) (s.slotAt key) with
          | .error e => .error e
          | .ok entries =>
              if entries.isEmpty then xreadLoop now count s perStream rest
              else xreadLoop now count s (perStream ++ [(key, entries)]) rest

def xreadArm [KeyHash] (now : Instant) (count : Option UInt64) (keys ids : List Bytes)
    (s : CacheStorage) : Response :=
  if keys.length ≠ ids.length then .error (utf8 "ERR XREAD streams/ids length mismatch")
  else xreadLoop now count s [] (keys.zip ids)

/-! ## The arms -/

/-- A dispatch arm that works on the storage. -/
inductive Arm [KeyHash]
  | slot (key : Bytes) (f : Slot → Option Response × Slot)
  | store (f : CacheStorage → Option Response × CacheStorage)

/-- A single-key arm that only reads. -/
def Arm.read [KeyHash] (key : Bytes) (f : Slot → Option Response) : Arm :=
  .slot key fun slot => (f slot, slot)

/-- An arm that only reads, whatever the keys. -/
def Arm.readStore [KeyHash] (f : CacheStorage → Option Response) : Arm :=
  .store fun s => (f s, s)

/-- A single-key arm whose operation cannot panic. -/
def Arm.write [KeyHash] {α : Type} (key : Bytes) (op : Slot → α × Slot) (reply : α → Option Response) :
    Arm := .slot key fun slot => (reply (op slot).1, (op slot).2)

/-- The `match` of `execute_command`. -/
def arm [KeyHash] (env : Env) : Command → Option Arm
  | .get key => some <| .read key fun slot => some (valueOr (Slot.get env.now slot))
  | .set key value ttlSecs => some <|
      .write key (Slot.set env.now value (ttlSecs.map fun n => durationSecs n.toNat))
        (Option.map fun _ => .ok)
  | .delete key => some <|
      .write key Slot.delete fun deleted => some (if deleted then .ok else .integer 0)
  | .incr key => some <| .write key Slot.incr (orError .integer)
  | .decr key => some <| .write key Slot.decr (orError .integer)
  | .append key value => some <| .write key (Slot.append value) (orError count)
  | .strlen key => some <| .read key fun slot => orError count (Slot.strlen slot)
  | .hget key field => some <| .read key fun slot => some (valueOr (Slot.hget env.now field slot))
  | .hset key field value => some <|
      .write key (Slot.hset field value) (orError fun _ => .integer 1)
  | .hdel key fields => some <| .write key (Slot.hdel fields) (orError count)
  | .hgetall key => some <| .read key fun slot =>
      orError (fun l => .array (l.flatMap fun p => [p.1, p.2]))
        (Slot.hgetall env.now (env.iterPos (some key)) slot)
  | .hkeys key => some <| .read key fun slot =>
      orError .array (Slot.hkeys env.now (env.iterPos (some key)) slot)
  | .hvals key => some <| .read key fun slot =>
      orError .array (Slot.hvals env.now (env.iterPos (some key)) slot)
  | .hlen key => some <| .read key fun slot => orError count (Slot.hlen env.now slot)
  | .hexists key field => some <| .read key fun slot =>
      orError flag (Slot.hexists env.now field slot)
  | .lpush key values => some <| .write key (Slot.lpush values) (orError count)
  | .rpush key values => some <| .write key (Slot.rpush values) (orError count)
  | .lpop key => some <| .write key Slot.lpop (orError valueOr)
  | .rpop key => some <| .write key Slot.rpop (orError valueOr)
  | .lrange key start stop => some <| .read key fun slot =>
      orError .array (Slot.lrange env.now start stop slot)
  | .llen key => some <| .read key fun slot => orError count (Slot.llen env.now slot)
  | .lindex key index => some <| .read key fun slot =>
      orError valueOr (Slot.lindex env.now index slot)
  | .sadd key members => some <| .write key (Slot.sadd members) (orError count)
  | .srem key members => some <| .write key (Slot.srem members) (orError count)
  | .smembers key => some <| .read key fun slot =>
      orError .array (Slot.smembers env.now (env.iterPos (some key)) slot)
  | .sismember key member => some <| .read key fun slot =>
      orError flag (Slot.sismember env.now member slot)
  | .scard key => some <| .read key fun slot => orError count (Slot.scard env.now slot)
  | .sinter keys => some <| .readStore fun s => orError .array (s.sinter env keys)
  | .sunion keys => some <| .readStore fun s => orError .array (s.sunion env keys)
  | .sdiff keys => some <| .readStore fun s => orError .array (s.sdiff env keys)
  | .zadd key members => some <| .write key (Slot.zadd members) (orError count)
  | .zrem key members => some <| .write key (Slot.zrem members) (orError count)
  | .zrange key start stop withScores => some <| .read key fun slot =>
      orError scored (Slot.zrange env.now (env.iterPos (some key)) start stop withScores slot)
  | .zrank key member => some <| .read key fun slot =>
      orError (fun r => (r.map count).getD .notFound) (Slot.zrank env.now member slot)
  | .zscore key member => some <| .read key fun slot =>
      orError (fun r => valueOr (r.map F64.toText)) (Slot.zscore env.now member slot)
  | .zcard key => some <| .read key fun slot => orError count (Slot.zcard env.now slot)
  | .zcount key min max => some <| .read key fun slot =>
      orPanic count (Slot.zcount env.now (env.iterPos (some key)) min max slot)
  | .ping => some <| .readStore fun _ => some (.value (utf8 "PONG"))
  | .echo message => some <| .readStore fun _ => some (.value message)
  | .existsKeys keys => some <| .readStore fun s => some (count (s.existsCount env.now keys))
  | .keys pattern => some <| .readStore fun s => some (.array (s.keys env pattern))
  | .flushAll => some <| .store fun s => (some .ok, s.flushall)
  | .dbSize => some <| .readStore fun s => some (count (s.dbsize env))
  | .expire key seconds => some <|
      .slot key (expireArm env.now ((tryU64 seconds).map durationSecs))
  | .pexpire key millis => some <|
      .slot key (expireArm env.now ((tryU64 millis).map durationMillis))
  | .expireAt key unixSecs => some <| .slot key (expireAtArm env unixSecs)
  | .ttl key => some <| .read key fun slot => some (ttlReply (Slot.pttlMillis env.now slot))
  | .pttl key => some <| .read key fun slot => some (pttlReply (Slot.pttlMillis env.now slot))
  | .persist key => some <| .write key (Slot.persist env.now) fun b => some (flag b)
  | .setNx key value => some <| .write key (Slot.setNx env.now value) fun b => some (flag b)
  | .setEx key seconds value => some <|
      .write key (Slot.set env.now value (some (durationSecs seconds.toNat)))
        (Option.map fun _ => .ok)
  | .getSet key value => some <| .write key (Slot.getSet env.now value) (orError valueOr)
  | .mget keys => some <| .readStore fun s =>
      some (.array (keys.map fun k => (Slot.get env.now (s.slotAt k)).getD []))
  | .mset pairs => some <| .store fun s => (some .ok, s.mset pairs)
  | .getRange key start stop => some <| .read key fun slot =>
      some (.value ((Slot.getRange start stop slot).getD []))
  | .incrBy key delta => some <| .write key (Slot.incrBy delta.toInt) (orError .integer)
  | .decrBy key delta => some <|
      .write key (Slot.incrBy (wrapI64 (-delta.toInt))) (orError .integer)
  | .incrByFloat key delta => some <|
      .write key (Slot.incrByFloat delta) (orError fun f => .value f.toText)
  | .hmget key fields => some <| .read key fun slot =>
      some (.array (fields.map fun f => (Slot.hget env.now f slot).getD []))
  | .hmset key pairs => some <| .slot key (hmsetLoop pairs)
  | .hsetNx key field value => some <|
      .write key (Slot.hsetNx env.now field value) (orError flag)
  | .hincrBy key field delta => some <|
      .write key (Slot.hincrBy env.now field delta.toInt) (orError .integer)
  | .lset key index value => some <|
      .write key (Slot.lset env.now index value) (orError fun _ => .ok)
  | .lrem key n value => some <| .write key (Slot.lrem env.now n value) (orError count)
  | .ltrim key start stop => some <|
      .write key (Slot.ltrim env.now start stop) (orPanic fun _ => .ok)
  | .rpoplpush source destination => some <| .store fun s =>
      let r := s.rpoplpush env.now source destination
      (orError valueOr r.1, r.2)
  | .spop key n => some <|
      .write key (Slot.spop env (env.iterPos (some key)) ((n.map UInt64.toNat).getD 1))
        (orPanic fun l => if n.isNone then valueOr l.head? else .array l)
  | .srandMember key n => some <| .read key fun slot =>
      orPanic (fun l => if n.isNone then valueOr l.getLast? else .array l)
        (Slot.srandMember env (env.iterPos (some key)) ((n.map Int64.toInt).getD 1) slot)
  | .smove source destination member => some <| .store fun s =>
      let r := s.smove env.now source destination member
      (orError flag r.1, r.2)
  | .zincrBy key delta member => some <|
      .write key (Slot.zincrBy env.now delta member) (orError fun f => .value f.toText)
  | .zrangeByScore key min max withScores => some <| .read key fun slot =>
      orPanic scored
        (Slot.zrangeByScore env.now (env.iterPos (some key)) min max withScores slot)
  | .zrevrange key start stop withScores => some <| .read key fun slot =>
      orPanic scored (Slot.zrevrange env.now (env.iterPos (some key)) start stop withScores slot)
  | .zpopMin key n => some <|
      .write key (Slot.zpopMin env.now (env.iterPos (some key)) n.toNat)
        (orPanic fun l => scored (l.map fun p => (p.1, some p.2)))
  | .zpopMax key n => some <|
      .write key (Slot.zpopMax env.now (env.iterPos (some key)) n.toNat)
        (orPanic fun l => scored (l.map fun p => (p.1, some p.2)))
  | .type key => some <| .read key fun slot => some (.value (Slot.typeOf env.now slot))
  | .rename key newKey => some <| .store fun s =>
      let r := s.rename env.now key newKey
      (orError (fun _ => .ok) r.1, r.2)
  | .randomKey => some <| .readStore fun s => some (valueOr (s.randomKey env))
  | .xadd key id fields => some <| .slot key (xaddArm env id fields)
  | .xlen key => some <| .read key fun slot => orError count (Slot.xlen env.now slot)
  | .xrange key start stop n => some <| .read key (xrangeArm env.now start stop n)
  | .xread n keys ids => some <| .readStore fun s => some (xreadArm env.now n keys ids s)
  | .publish _ _ | .subscribe _ | .unsubscribe _ => none
  | .multi | .exec | .discard | .watch _ | .unwatch => none
  | .luaEval _ _ _ | .luaEvalSha _ _ _ | .auth _ _ => none

/-- Run an arm on the storage. -/
def Arm.run [KeyHash] (s : CacheStorage) : Arm → Option Response × CacheStorage
  | .slot key f => s.onKey key f
  | .store f => f s

/-- **The dispatch of `execute_command`** on the storage; `none` for an arm that has none. -/
def dispatch [KeyHash] (env : Env) (c : Command) (s : CacheStorage) :
    Option (Option Response × CacheStorage) := (arm env c).map (Arm.run s)

end FerricCache
