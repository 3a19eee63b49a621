import FerricCache.Server.Dispatch

/-!
# `FerricCache.Commands` — the write-apply path shared by WAL replay and replicas

`isWriteCommand` and `applyWriteCommand`. The latter is a second implementation of every write, with
its own argument validation; results are dropped, and only a panic (`none`) is visible.
-/

namespace FerricCache

/-- `is_write_command`. -/
def isWriteCommand : Command → Bool
  | .set _ _ _ | .delete _ | .incr _ | .decr _ | .append _ _ => true
  | .hset _ _ _ | .hdel _ _ => true
  | .lpush _ _ | .rpush _ _ | .lpop _ | .rpop _ => true
  | .sadd _ _ | .srem _ _ => true
  | .zadd _ _ | .zrem _ _ => true
  | .flushAll => true
  | .expire _ _ | .pexpire _ _ | .expireAt _ _ | .persist _ => true
  | .setNx _ _ | .setEx _ _ _ | .getSet _ _ | .mset _ => true
  | .incrBy _ _ | .decrBy _ _ | .incrByFloat _ _ => true
  | .hmset _ _ | .hsetNx _ _ _ | .hincrBy _ _ _ => true
  | .lset _ _ _ | .lrem _ _ _ | .ltrim _ _ _ | .rpoplpush _ _ => true
  | .spop _ _ | .smove _ _ _ => true
  | .zincrBy _ _ _ | .zpopMin _ _ | .zpopMax _ _ => true
  | .rename _ _ => true
  | .xadd _ _ _ => true
  | _ => false

/-- The two commands that run a script. -/
def isScript : Command → Bool
  | .luaEval _ _ _ | .luaEvalSha _ _ _ => true
  | _ => false

section Apply

variable [KeyHash] {α : Type}

/-- `let _ = storage.op(key, ..)`. -/
def applyKey (s : CacheStorage) (key : Bytes) (op : Slot → α × Slot) : Option Unit × CacheStorage :=
  (some (), (s.onKey key op).2)

/-- The same for an operation that may panic. -/
def applyKeyPanic (s : CacheStorage) (key : Bytes) (op : Slot → Res (Option α) × Slot) :
    Option Unit × CacheStorage :=
  (match (s.onKey key op).1 with
    | .ok none => none
    | _ => some (), (s.onKey key op).2)

/-- `set` under its key: a panic of the deadline computation leaves the key alone. -/
def applySet (env : Env) (s : CacheStorage) (key value : Bytes) (ttl : Option Nat) :
    Option Unit × CacheStorage :=
  let r := s.onKey key (Slot.set env.now value ttl)
  (r.1.map fun _ => (), r.2)

/-- `storage.set_expiry(key, Instant::now() + duration)`. -/
def applyExpiry (env : Env) (s : CacheStorage) (key : Bytes) (duration : Nat) :
    Option Unit × CacheStorage :=
  match instantAdd env.now duration with
  | some at' => applyKey s key (Slot.setExpiry env.now at')
  | none => (none, s)

/-- The `EXPIRE` and `PEXPIRE` arms: a negative duration is skipped. -/
def applyExpire (env : Env) (s : CacheStorage) (key : Bytes) (duration : Option Nat) :
    Option Unit × CacheStorage :=
  match duration with
  | some d => applyExpiry env s key d
  | none => (some (), s)

/-- The `EXPIREAT` arm. Unlike the dispatch arm, it skips a timestamp before the epoch. -/
def applyExpireAt (env : Env) (s : CacheStorage) (key : Bytes) (unixSecs : Int64) :
    Option Unit × CacheStorage :=
  match tryU64 unixSecs with
  | some target =>
      if env.unixSecs < target then applyExpiry env s key (durationSecs (target - env.unixSecs))
      else applyKey s key Slot.delete
  | none => (some (), s)

/-- **`apply_write_command`.** -/
def applyWriteCommand (env : Env) (c : Command) (s : CacheStorage) : Option Unit × CacheStorage :=
  match c with
  | .set key value ttlSecs => applySet env s key value (ttlSecs.map fun n => durationSecs n.toNat)
  | .delete key => applyKey s key Slot.delete
  | .incr key => applyKey s key Slot.incr
  | .decr key => applyKey s key Slot.decr
  | .append key value => applyKey s key (Slot.append value)
  | .hset key field value => applyKey s key (Slot.hset field value)
  | .hdel key fields => applyKey s key (Slot.hdel fields)
  | .lpush key values => applyKey s key (Slot.lpush values)
  | .rpush key values => applyKey s key (Slot.rpush values)
  | .lpop key => applyKey s key Slot.lpop
  | .rpop key => applyKey s key Slot.rpop
  | .sadd key members => applyKey s key (Slot.sadd members)
  | .srem key members => applyKey s key (Slot.srem members)
  | .zadd key members => applyKey s key (Slot.zadd members)
  | .zrem key members => applyKey s key (Slot.zrem members)
  | .flushAll => (some (), s.flushall)
  | .expire key seconds => applyExpire env s key ((tryU64 seconds).map durationSecs)
  | .pexpire key millis => applyExpire env s key ((tryU64 millis).map durationMillis)
  | .expireAt key unixSecs => applyExpireAt env s key unixSecs
  | .persist key => applyKey s key (Slot.persist env.now)
  | .setNx key value => applyKey s key (Slot.setNx env.now value)
  | .setEx key seconds value => applySet env s key value (some (durationSecs seconds.toNat))
  | .getSet key value => applyKey s key (Slot.getSet env.now value)
  | .mset pairs => (some (), s.mset pairs)
  | .incrBy key delta => applyKey s key (Slot.incrBy delta.toInt)
  | .decrBy key delta => applyKey s key (Slot.incrBy (wrapI64 (-delta.toInt)))
  | .incrByFloat key delta => applyKey s key (Slot.incrByFloat delta)
  | .hmset key pairs =>
      -- unlike the dispatch arm, an error does not stop the loop
      (some (), pairs.foldl (fun s p => (s.onKey key (Slot.hset p.1 p.2)).2) s)
  | .hsetNx key field value => applyKey s key (Slot.hsetNx env.now field value)
  | .hincrBy key field delta => applyKey s key (Slot.hincrBy env.now field delta.toInt)
  | .lset key index value => applyKey s key (Slot.lset env.now index value)
  | .lrem key n value => applyKey s key (Slot.lrem env.now n value)
  | .ltrim key start stop => applyKeyPanic s key (Slot.ltrim env.now start stop)
  | .rpoplpush source destination => (some (), (s.rpoplpush env.now source destination).2)
  | .spop key n =>
      applyKeyPanic s key (Slot.spop env (env.iterPos (some key)) ((n.map UInt64.toNat).getD 1))
  | .smove source destination member => (some (), (s.smove env.now source destination member).2)
  | .zincrBy key delta member => applyKey s key (Slot.zincrBy env.now delta member)
  | .zpopMin key n => applyKeyPanic s key (Slot.zpopMin env.now (env.iterPos (some key)) n.toNat)
  | .zpopMax key n => applyKeyPanic s key (Slot.zpopMax env.now (env.iterPos (some key)) n.toNat)
  | .rename key newKey => (some (), (s.rename env.now key newKey).2)
  | .xadd key id fields =>
      -- unlike the dispatch arm, an id that does not parse becomes the auto id
      let parsed := id.bind fun text => (StreamId.parse text false).toOption
      applyKey s key (Slot.xadd env parsed fields)
  | _ => (some (), s)

/-- Commands applied one after the other, the `m`-th of all at the clock reading `envs m`, as snapshot loading
    and WAL replay do; a panic ends it. -/
def applyAll (envs : Nat → Env) (m : Nat) : List Command → CacheStorage → Option Unit × CacheStorage
  | [], s => (some (), s)
  | c :: cs, s =>
      match applyWriteCommand (envs m) c s with
      | (some (), s') => applyAll envs (m + 1) cs s'
      | (none, s') => (none, s')

theorem applyAll_append {envs : Nat → Env} {m : Nat} {cs : List Command} {s t : CacheStorage}
    (h : applyAll envs m cs s = (some (), t)) (ds : List Command) :
    applyAll envs m (cs ++ ds) s = applyAll envs (m + cs.length) ds t := by
  induction cs generalizing m s with
  | nil =>
      cases h
      rfl
  | cons c cs ih =>
      rw [applyAll] at h
      rw [List.cons_append, applyAll, List.length_cons, ← Nat.add_assoc, Nat.add_right_comm]
      generalize applyWriteCommand (envs m) c s = r at h ⊢
      obtain ⟨r, s'⟩ := r
      cases r with
      | none => cases h
      | some u => exact ih h

end Apply

end FerricCache
