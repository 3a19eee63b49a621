import FerricCache.Storage.Sharded

/-!
# `FerricCache.Storage.Slot` — the single-key operations of `CacheStorage`

Every single-key method of `CacheStorage` locks one shard, looks at what the key holds, and leaves
something there. It is modelled as a function of that `Slot`; `CacheStorage.onKey` runs it under the
key's lock. Most methods have one of five shapes, which differ only in **where they test the deadline**:

* `readAs` — a wrong type is refused, an expired value of the right type reads as missing;
* `readLive` — an expired value is refused like a wrong type;
* `writeAny` — the deadline is never tested;
* `writeLive` — an expired value is refused like a wrong type;
* `writeOrCreate` — an expired value of the right type is replaced by a new one.

The remaining methods keep their own bodies. An inner `Option` result is `none` where the method panics.
-/

namespace FerricCache

/-- The error of every type mismatch. -/
def wrongType : Bytes :=
  utf8 "WRONGTYPE Operation against a key holding the wrong kind of value"

def notAnInteger : Bytes := utf8 "Value is not an integer"

/-! ## The five shapes -/

/-- One variant of `CacheValue`: its payload, read and rebuilt. -/
structure Kind (τ : Type) where
  as : CacheValue → Option τ
  of : τ → CacheValue
  as_of : ∀ t, as (of t) = some t
  of_as : ∀ {v t}, as v = some t → of t = v

namespace Kind

def string : Kind (Bytes × Option Instant) where
  as v := match v with | .string b e => some (b, e) | _ => none
  of p := .string p.1 p.2
  as_of _ := rfl
  of_as := by rintro (_ | _ | _ | _ | _ | _) t h <;> cases h; rfl

def hash : Kind HashValue where
  as v := match v with | .hash h => some h | _ => none
  of := .hash
  as_of _ := rfl
  of_as := by rintro (_ | _ | _ | _ | _ | _) t h <;> cases h; rfl

def list : Kind ListValue where
  as v := match v with | .list l => some l | _ => none
  of := .list
  as_of _ := rfl
  of_as := by rintro (_ | _ | _ | _ | _ | _) t h <;> cases h; rfl

def set : Kind SetValue where
  as v := match v with | .set s => some s | _ => none
  of := .set
  as_of _ := rfl
  of_as := by rintro (_ | _ | _ | _ | _ | _) t h <;> cases h; rfl

def sortedSet : Kind SortedSetValue where
  as v := match v with | .sortedSet z => some z | _ => none
  of := .sortedSet
  as_of _ := rfl
  of_as := by rintro (_ | _ | _ | _ | _ | _) t h <;> cases h; rfl

def stream : Kind StreamValue where
  as v := match v with | .stream s => some s | _ => none
  of := .stream
  as_of _ := rfl
  of_as := by rintro (_ | _ | _ | _ | _ | _) t h <;> cases h; rfl

end Kind

namespace Slot

variable {τ α : Type}

/-- `Some(K(t)) if !expired => Ok(f t)`, `Some(K(_)) | None => Ok(missing)`, `Some(_) => Err(..)`. -/
def readAs (K : Kind τ) (now : Instant) (missing : α) (f : τ → α) : Slot → Res α
  | none => .ok missing
  | some v =>
      match K.as v with
      | some t => .ok (if v.isExpired now then missing else f t)
      | none => .error wrongType

/-- `Some(K(t)) if !expired => Ok(f t)`, `Some(_) => Err(..)`, `None => Ok(missing)`. -/
def readLive (K : Kind τ) (now : Instant) (missing : α) (f : τ → α) : Slot → Res α
  | none => .ok missing
  | some v =>
      match K.as v with
      | some t => if v.isExpired now then .error wrongType else .ok (f t)
      | none => .error wrongType

/-- `Some(K(t)) => f t` in place, `Some(_) => Err(..)`, `None` as given. -/
def writeAny (K : Kind τ) (missing : α × Slot) (f : τ → Res α × τ) : Slot → Res α × Slot
  | none => (.ok missing.1, missing.2)
  | some v =>
      match K.as v with
      | some t => ((f t).1, some (K.of (f t).2))
      | none => (.error wrongType, some v)

/-- `Some(K(t)) if !expired => f t` in place, `Some(_) => Err(..)`, `None => Ok(missing)`. -/
def writeLive (K : Kind τ) (now : Instant) (missing : α) (f : τ → Res α × τ) : Slot → Res α × Slot
  | none => (.ok missing, none)
  | some v =>
      match K.as v with
      | some t =>
          if v.isExpired now then (.error wrongType, some v)
          else ((f t).1, some (K.of (f t).2))
      | none => (.error wrongType, some v)

/-- Insert what was built, or leave the slot as it is when building failed. -/
def insertNew (K : Kind τ) (create : Res (α × τ)) (slot : Slot) : Res α × Slot :=
  match create with
  | .ok (a, t) => (.ok a, some (K.of t))
  | .error e => (.error e, slot)

/-- `Some(K(t)) if !expired => f t` in place, `Some(K(_)) | None => create`, `Some(_) => Err(..)`. -/
def writeOrCreate (K : Kind τ) (now : Instant) (create : Res (α × τ)) (f : τ → Res α × τ) :
    Slot → Res α × Slot
  | none => insertNew K create none
  | some v =>
      match K.as v with
      | some t =>
          if v.isExpired now then insertNew K create (some v)
          else ((f t).1, some (K.of (f t).2))
      | none => (.error wrongType, some v)

/-- `for m in members { if step(m) { count += 1 } }`. -/
def countLoop (step : τ → Bytes → Bool × τ) : τ → List Bytes → Nat × τ
  | t, [] => (0, t)
  | t, m :: ms => ((step t m).1.toNat + (countLoop step (step t m).2 ms).1,
      (countLoop step (step t m).2 ms).2)

/-! ## Strings -/

def get (now : Instant) : Slot → Option Bytes
  | none => none
  | some v => if v.isExpired now then none else
      match v with
      | .string b _ => some b
      | _ => none

/-- `ttl.map(|d| Instant::now() + d)`; the outer `none` is the panic of the addition. -/
def deadline (now : Instant) : Option Nat → Option (Option Instant)
  | none => some none
  | some d => (instantAdd now d).map some

/-- `set`, and `set_ex` for a given `ttl`: the deadline is computed before the lock is taken. -/
def set (now : Instant) (value : Bytes) (ttl : Option Nat) (slot : Slot) : Option Bool × Slot :=
  match deadline now ttl with
  | some e => (some true, some (.string value e))
  | none => (none, slot)

def delete (slot : Slot) : Bool × Slot := (slot.isSome, none)

/-- The body shared by `incr` (`delta = 1`) and `decr` (`delta = -1`): `current ± 1` wraps. -/
def bump (delta : Int) : Slot → Res Int × Slot :=
  writeAny Kind.string (delta, some (.string (intText delta) none)) fun p =>
    match parseI64 p.1 with
    | some current => (.ok (wrapI64 (current + delta)), (intText (wrapI64 (current + delta)), p.2))
    | none => (.error notAnInteger, p)

def incr : Slot → Res Int × Slot := bump 1

def decr : Slot → Res Int × Slot := bump (-1)

def append (value : Bytes) : Slot → Res Nat × Slot :=
  writeAny Kind.string (value.length, some (.string value none)) fun p =>
    (.ok (p.1 ++ value).length, (p.1 ++ value, p.2))

def strlen : Slot → Res Nat
  | some (.string b _) => .ok b.length
  | some _ => .error wrongType
  | none => .ok 0

def setNx (now : Instant) (value : Bytes) : Slot → Bool × Slot
  | some v => if v.isExpired now then (true, some (.string value none)) else (false, some v)
  | none => (true, some (.string value none))

/-- `get_set`: a string is returned whether or not it is expired. -/
def getSet (now : Instant) (value : Bytes) : Slot → Res (Option Bytes) × Slot
  | some (.string b _) => (.ok (some b), some (.string value none))
  | some v =>
      if v.isExpired now then (.ok none, some (.string value none)) else (.error wrongType, some v)
  | none => (.ok none, some (.string value none))

def wouldOverflow : Bytes := utf8 "ERR increment or decrement would overflow"

/-- `incr_by`: `checked_add` refuses to leave the `i64` range. -/
def incrBy (delta : Int) : Slot → Res Int × Slot :=
  writeAny Kind.string (delta, some (.string (intText delta) none)) fun p =>
    match parseI64 p.1 with
    | some current =>
        if wrapI64 (current + delta) = current + delta then
          (.ok (current + delta), (intText (current + delta), p.2))
        else (.error wouldOverflow, p)
    | none => (.error notAnInteger, p)

def incrByFloat (delta : F64) : Slot → Res F64 × Slot :=
  writeAny Kind.string (delta, some (.string delta.toText none)) fun p =>
    match F64.parse p.1 with
    | some current =>
        if (current.add delta).isFinite then
          (.ok (current.add delta), ((current.add delta).toText, p.2))
        else (.error (utf8 "ERR increment would produce NaN or Infinity"), p)
    | none => (.error (utf8 "Value is not a valid float"), p)

/-- The substring selected by `get_range`. -/
def substring (b : Bytes) (start stop : Int64) : Bytes :=
  let len : Int := b.length
  if len = 0 then []
  else
    let s := (if start.toInt < 0 then max (len + start.toInt) 0 else min start.toInt len).toNat
    let e := (if stop.toInt < 0 then max (len + stop.toInt) 0 else min stop.toInt (len - 1)).toNat
    if e < s then [] else (b.drop s).take (min e (b.length - 1) + 1 - s)

def getRange (start stop : Int64) : Slot → Option Bytes
  | some (.string b _) => some (substring b start stop)
  | _ => none

/-! ## Hashes -/

def hget (now : Instant) (field : Bytes) : Slot → Option Bytes
  | some (.hash h) => if expiredAt now h.expiresAt then none else h.getField field
  | _ => none

def hset (field value : Bytes) : Slot → Res Bool × Slot :=
  writeAny Kind.hash (true, some (.hash (HashValue.new.setField field value))) fun h =>
    (.ok (h.getField field).isNone, h.setField field value)

def hdel (fields : List Bytes) : Slot → Res Nat × Slot :=
  writeAny Kind.hash (0, none) fun h =>
    let r := countLoop (fun h f => ((h.getField f).isSome, h.deleteField f)) h fields
    (.ok r.1, r.2)

def hgetall (now : Instant) (pos : Bytes → Nat) : Slot → Res (List (Bytes × Bytes)) :=
  readAs Kind.hash now [] fun h => h.getAll pos

def hkeys (now : Instant) (pos : Bytes → Nat) : Slot → Res (List Bytes) :=
  readAs Kind.hash now [] fun h => (h.getAll pos).map Prod.fst

def hvals (now : Instant) (pos : Bytes → Nat) : Slot → Res (List Bytes) :=
  readAs Kind.hash now [] fun h => (h.getAll pos).map Prod.snd

def hlen (now : Instant) : Slot → Res Nat := readAs Kind.hash now 0 HashValue.len

def hexists (now : Instant) (field : Bytes) : Slot → Res Bool :=
  readAs Kind.hash now false fun h => (h.getField field).isSome

def hsetNx (now : Instant) (field value : Bytes) : Slot → Res Bool × Slot :=
  writeOrCreate Kind.hash now (.ok (true, HashValue.new.setField field value)) fun h =>
    if (h.getField field).isSome then (.ok false, h) else (.ok true, h.setField field value)

def hincrBy (now : Instant) (field : Bytes) (delta : Int) : Slot → Res Int × Slot :=
  writeOrCreate Kind.hash now (.ok (delta, HashValue.new.setField field (intText delta))) fun h =>
    let current? := match h.getField field with
      | some b => parseI64 b
      | none => some 0
    match current? with
    | some current =>
        if wrapI64 (current + delta) = current + delta then
          (.ok (current + delta), h.setField field (intText (current + delta)))
        else (.error (utf8 "ERR increment would overflow"), h)
    | none => (.error notAnInteger, h)

/-! ## Lists -/

def lpush (values : List Bytes) : Slot → Res Nat × Slot :=
  let fresh := values.foldl ListValue.pushLeft ListValue.new
  writeAny Kind.list (fresh.len, some (.list fresh)) fun l =>
    (.ok (values.foldl ListValue.pushLeft l).len, values.foldl ListValue.pushLeft l)

def rpush (values : List Bytes) : Slot → Res Nat × Slot :=
  let fresh := values.foldl ListValue.pushRight ListValue.new
  writeAny Kind.list (fresh.len, some (.list fresh)) fun l =>
    (.ok (values.foldl ListValue.pushRight l).len, values.foldl ListValue.pushRight l)

def lpop : Slot → Res (Option Bytes) × Slot :=
  writeAny Kind.list (none, none) fun l => (.ok l.popLeft.1, l.popLeft.2)

def rpop : Slot → Res (Option Bytes) × Slot :=
  writeAny Kind.list (none, none) fun l => (.ok l.popRight.1, l.popRight.2)

def lrange (now : Instant) (start stop : Int64) : Slot → Res (List Bytes) :=
  readAs Kind.list now [] fun l => l.getRange start stop

def llen (now : Instant) : Slot → Res Nat := readAs Kind.list now 0 ListValue.len

def lindex (now : Instant) (index : Int64) : Slot → Res (Option Bytes) :=
  readAs Kind.list now none fun l => (l.getRange index index).head?

def noSuchKey : Bytes := utf8 "ERR no such key"

/-- `lset`: a missing or expired list is an error of its own. -/
def lset (now : Instant) (index : Int64) (value : Bytes) : Slot → Res Unit × Slot
  | none => (.error noSuchKey, none)
  | some (.list l) =>
      if expiredAt now l.expiresAt then (.error noSuchKey, some (.list l))
      else
        let len : Int := l.items.length
        let real := if index.toInt < 0 then len + index.toInt else index.toInt
        if real < 0 ∨ len ≤ real then (.error (utf8 "ERR index out of range"), some (.list l))
        else (.ok (), some (.list { l with items := l.items.set real.toNat value }))
  | some v => (.error wrongType, some v)

/-- The `retain` of `lrem`, with its running `removed`: what is kept, and the final count. -/
def removeLoop (limit : Nat) (value : Bytes) : Nat → List Bytes → List Bytes × Nat
  | removed, [] => ([], removed)
  | removed, v :: vs =>
      if removed < limit ∧ v = value then removeLoop limit value (removed + 1) vs
      else (v :: (removeLoop limit value removed vs).1, (removeLoop limit value removed vs).2)

/-- `lrem`: anything but a live list reads as nothing to remove. -/
def lrem (now : Instant) (count : Int64) (value : Bytes) : Slot → Res Nat × Slot
  | some (.list l) =>
      if expiredAt now l.expiresAt then (.ok 0, some (.list l))
      else if 0 ≤ count.toInt then
        let limit := if count.toInt = 0 then usizeMax else count.toInt.toNat
        let r := removeLoop limit value 0 l.items
        (.ok r.2, some (.list { l with items := r.1 }))
      else
        let limit := asUsize (wrapI64 (-count.toInt))
        let r := removeLoop limit value 0 l.items.reverse
        (.ok r.2, some (.list { l with items := r.1.reverse }))
  | slot => (.ok 0, slot)

/-- The first index kept by `ltrim` and `zrevrange`. -/
def sliceStart (len : Nat) (start : Int64) : Nat :=
  asUsize (if start.toInt < 0 then max (len + start.toInt) 0 else min start.toInt len)

/-- The end of the slice of `ltrim` and `zrevrange`; `stop + 1` wraps, and the cast makes a huge
    index of the wrapped sum. -/
def sliceEnd (len : Nat) (stop : Int64) : Nat :=
  asUsize (if stop.toInt < 0 then max (len + stop.toInt) (-1) + 1
    else min (wrapI64 (stop.toInt + 1)) len)

/-- `ltrim`: the second `drain` panics past the end, after the first has run. -/
def ltrim (now : Instant) (start stop : Int64) : Slot → Res (Option Unit) × Slot :=
  writeLive Kind.list now (some ()) fun l =>
    let s := sliceStart l.items.length start
    let e := sliceEnd l.items.length stop
    if e ≤ s then (.ok (some ()), { l with items := [] })
    else if l.items.length < e then (.ok none, { l with items := l.items.drop s })
    else (.ok (some ()), { l with items := (l.items.drop s).take (e - s) })

/-! ## Sets -/

def sadd (members : List Bytes) : Slot → Res Nat × Slot :=
  let add := fun (s : SetValue) m => (!s.contains m, s.add m)
  let fresh := countLoop add SetValue.new members
  writeAny Kind.set (fresh.1, some (.set fresh.2)) fun s =>
    (.ok (countLoop add s members).1, (countLoop add s members).2)

def srem (members : List Bytes) : Slot → Res Nat × Slot :=
  writeAny Kind.set (0, none) fun s =>
    let r := countLoop (fun s m => (s.contains m, s.remove m)) s members
    (.ok r.1, r.2)

def smembers (now : Instant) (pos : Bytes → Nat) : Slot → Res (List Bytes) :=
  readAs Kind.set now [] fun s => s.getAll pos

def sismember (now : Instant) (member : Bytes) : Slot → Res Bool :=
  readAs Kind.set now false fun s => s.contains member

def scard (now : Instant) : Slot → Res Nat := readAs Kind.set now 0 SetValue.len

/-- `snapshot_set`: the live set, cloned out. -/
def snapshotSet (now : Instant) : Slot → Res (Option SetValue) := readAs Kind.set now none some

/-- `Vec::<Bytes>::with_capacity(n)` panics above `isize::MAX` bytes (32 per element). -/
def capacityOverflow (n : Nat) : Bool := isizeMax < n * 32

def spop (env : Env) (pos : Bytes → Nat) (count : Nat) : Slot → Res (Option (List Bytes)) × Slot :=
  writeLive Kind.set env.now (some []) fun s =>
    if capacityOverflow count then (.ok none, s)
    else
      let chosen := env.chooseMultiple (s.getAll pos) count
      (.ok (some chosen), chosen.foldl SetValue.remove s)

def srandMember (env : Env) (pos : Bytes → Nat) (count : Int) :
    Slot → Res (Option (List Bytes)) :=
  readLive Kind.set env.now (some []) fun s =>
    if 0 ≤ count then some (env.chooseMultiple (s.getAll pos) count.toNat)
    else
      let n := asUsize (wrapI64 (-count))
      if capacityOverflow n then none
      else some ((List.range n).filterMap fun i => env.choose i (s.getAll pos))

/-! ## Sorted sets -/

def zadd (members : List (F64 × Bytes)) : Slot → Res Nat × Slot :=
  let addAll := fun (z : SortedSetValue) => members.foldl (fun z p => z.add p.1 p.2) z
  writeAny Kind.sortedSet (members.length, some (.sortedSet (addAll SortedSetValue.new))) fun z =>
    (.ok members.length, addAll z)

def zrem (members : List Bytes) : Slot → Res Nat × Slot :=
  writeAny Kind.sortedSet (0, none) fun z =>
    let r := countLoop (fun z m => ((z.getScore m).isSome, z.remove m)) z members
    (.ok r.1, r.2)

/-- An index of `zrange`: negative ones count from the end, others are cast as they are. -/
def zIndex (len : Nat) (i : Int64) : Nat :=
  if i.toInt < 0 then (max (len + i.toInt) 0).toNat else i.toInt.toNat

def zrange (now : Instant) (pos : Bytes → Nat) (start stop : Int64) (withScores : Bool) :
    Slot → Res (List (Bytes × Option F64)) :=
  readAs Kind.sortedSet now [] fun z =>
    z.getRange pos (zIndex z.len start) (zIndex z.len stop) withScores

def zrank (now : Instant) (member : Bytes) : Slot → Res (Option Nat) :=
  readAs Kind.sortedSet now none fun z => z.getRank member

def zscore (now : Instant) (member : Bytes) : Slot → Res (Option F64) :=
  readAs Kind.sortedSet now none fun z => z.getScore member

def zcard (now : Instant) : Slot → Res Nat := readAs Kind.sortedSet now 0 SortedSetValue.len

def zcount (now : Instant) (pos : Bytes → Nat) (min max : F64) : Slot → Res (Option Nat) :=
  readAs Kind.sortedSet now (some 0) fun z => (z.getRangeByScore pos min max false).map List.length

def zincrBy (now : Instant) (delta : F64) (member : Bytes) : Slot → Res F64 × Slot :=
  writeOrCreate Kind.sortedSet now (.ok (delta, SortedSetValue.new.add delta member)) fun z =>
    let score := ((z.getScore member).getD (.fin 0)).add delta
    (.ok score, z.add score member)

def zrangeByScore (now : Instant) (pos : Bytes → Nat) (min max : F64) (withScores : Bool) :
    Slot → Res (Option (List (Bytes × Option F64))) :=
  readLive Kind.sortedSet now (some []) fun z => z.getRangeByScore pos min max withScores

/-- The slice `all[s..e]` of `zrevrange`; `none` is the panic past the end. -/
def revSlice (all : List (Bytes × Option F64)) (start stop : Int64) :
    Option (List (Bytes × Option F64)) :=
  let s := sliceStart all.length start
  let e := sliceEnd all.length stop
  if e ≤ s then some []
  else if all.length < e then none
  else some ((all.drop s).take (e - s))

/-- `zrevrange`: the whole `zrange`, reversed and sliced. -/
def zrevrange (now : Instant) (pos : Bytes → Nat) (start stop : Int64) (withScores : Bool)
    (slot : Slot) : Res (Option (List (Bytes × Option F64))) :=
  match zrange now pos 0 (-1) withScores slot with
  | .ok all => .ok (revSlice all.reverse start stop)
  | .error e => .error e

/-- `zpop_min` and `zpop_max`, given the pop. -/
def zpop (now : Instant) (pop : SortedSetValue → Option (List (Bytes × F64) × SortedSetValue)) :
    Slot → Res (Option (List (Bytes × F64))) × Slot :=
  writeLive Kind.sortedSet now (some []) fun z =>
    match pop z with
    | some (popped, z') => (.ok (some popped), z')
    | none => (.ok none, z)

def zpopMin (now : Instant) (pos : Bytes → Nat) (count : Nat) :
    Slot → Res (Option (List (Bytes × F64))) × Slot := zpop now fun z => z.popMin pos count

def zpopMax (now : Instant) (pos : Bytes → Nat) (count : Nat) :
    Slot → Res (Option (List (Bytes × F64))) × Slot := zpop now fun z => z.popMax pos count

/-! ## Streams -/

def xadd (env : Env) (requested : Option StreamId) (fields : List (Bytes × Bytes)) :
    Slot → Res StreamId × Slot :=
  let fresh := StreamValue.new.add env.unixMs requested fields
  writeOrCreate Kind.stream env.now (fresh.1.map fun id => (id, fresh.2)) fun s =>
    s.add env.unixMs requested fields

def xlen (now : Instant) : Slot → Res Nat := readLive Kind.stream now 0 StreamValue.len

def xrange (now : Instant) (start stop : StreamId) (count : Option Nat) :
    Slot → Res (Option (List (StreamId × List (Bytes × Bytes)))) :=
  readLive Kind.stream now (some []) fun s => s.range start stop count

def xread (now : Instant) (cursor : StreamId) (count : Option Nat) :
    Slot → Res (List (StreamId × List (Bytes × Bytes))) :=
  readLive Kind.stream now [] fun s => s.readAfter cursor count

/-! ## Deadlines and types -/

def setExpiry (now : Instant) (at' : Instant) : Slot → Bool × Slot
  | some v => if v.isExpired now then (false, some v) else (true, some (v.withExpiry (some at')))
  | none => (false, none)

/-- `pttl_millis`: `None` for a missing key, `-1` without a deadline, else the milliseconds left. -/
def pttlMillis (now : Instant) : Slot → Option Int
  | some v =>
      if v.isExpired now then none
      else
        match v.expiresAt with
        | none => some (-1)
        | some at' => some (if at' ≤ now then 0 else wrapI64 ((at' - now) / 1000000 : Nat))
  | none => none

def persist (now : Instant) : Slot → Bool × Slot
  | some v =>
      if v.isExpired now then (false, some v)
      else if v.expiresAt.isSome then (true, some (v.withExpiry none)) else (false, some v)
  | none => (false, none)

/-- `type_of`. -/
def typeOf (now : Instant) : Slot → Bytes
  | some v =>
      if v.isExpired now then utf8 "none"
      else
        match v with
        | .string _ _ => utf8 "string"
        | .hash _ => utf8 "hash"
        | .list _ => utf8 "list"
        | .set _ => utf8 "set"
        | .sortedSet _ => utf8 "zset"
        | .stream _ => utf8 "stream"
  | none => utf8 "none"

end Slot

end FerricCache
