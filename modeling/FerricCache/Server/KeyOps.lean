import FerricCache.Data.ScoreIndex
import FerricCache.Server.ExpirySlot
import FerricCache.Storage.Single

/-!
# `FerricCache.Server.KeyOps` — the operations that name one key

`KeyOp` lists the operations of `CacheStorage` on one key, whatever they do there. All of them leave the other keys
alone (`keyOp_frame`). Those that update a value in place (`inPlace`) leave it the deadline it had: each either keeps
the value's own field or rebuilds the value around it (`keepsLive_inPlace`), and a new value, which has none, is made
only where nothing is live.
-/

namespace FerricCache

/-! ## The operations -/

/-- An operation of `CacheStorage` that names one key. -/
inductive KeyOp
  | get
  | set (value : Bytes) (ttl : Option Nat)
  | setEx (value : Bytes) (ttl : Nat)
  | setNx (value : Bytes)
  | getSet (value : Bytes)
  | delete
  | incr
  | decr
  | append (value : Bytes)
  | strlen
  | incrBy (delta : Int64)
  | incrByFloat (delta : F64)
  | getRange (start stop : Int64)
  | hget (field : Bytes)
  | hset (field value : Bytes)
  | hdel (fields : List Bytes)
  | hgetall
  | hkeys
  | hvals
  | hlen
  | hexists (field : Bytes)
  | hsetNx (field value : Bytes)
  | hincrBy (field : Bytes) (delta : Int64)
  | lpush (values : List Bytes)
  | rpush (values : List Bytes)
  | lpop
  | rpop
  | lrange (start stop : Int64)
  | llen
  | lindex (index : Int64)
  | lset (index : Int64) (value : Bytes)
  | lrem (count : Int64) (value : Bytes)
  | ltrim (start stop : Int64)
  | sadd (members : List Bytes)
  | srem (members : List Bytes)
  | smembers
  | sismember (member : Bytes)
  | scard
  | spop (count : Nat)
  | srandMember (count : Int64)
  | zadd (members : List (F64 × Bytes))
  | zrem (members : List Bytes)
  | zrange (start stop : Int64) (withScores : Bool)
  | zrank (member : Bytes)
  | zscore (member : Bytes)
  | zcard
  | zcount (min max : F64)
  | zincrBy (delta : F64) (member : Bytes)
  | zrangeByScore (min max : F64) (withScores : Bool)
  | zrevrange (start stop : Int64) (withScores : Bool)
  | zpopMin (count : Nat)
  | zpopMax (count : Nat)
  | xadd (requested : Option StreamId) (fields : List (Bytes × Bytes))
  | xlen
  | xrange (start stop : StreamId) (count : Option Nat)
  | xread (cursor : StreamId) (count : Option Nat)
  | setExpiry (at' : Instant)
  | pttlMillis
  | persist
  | typeOf

namespace KeyOp

/-- An operation that leaves what it looked at. -/
def reads {α : Type} (key : Bytes) (f : Slot → α) : StorageCall := .onKey key fun slot => (f slot, slot)

/-- The call of the operation. -/
def call (env : Env) (key : Bytes) : KeyOp → StorageCall
  | get => reads key (Slot.get env.now)
  | set value ttl => .onKey key (Slot.set env.now value ttl)
  | setEx value ttl => .onKey key (Slot.set env.now value (some ttl))
  | setNx value => .onKey key (Slot.setNx env.now value)
  | getSet value => .onKey key (Slot.getSet env.now value)
  | delete => .onKey key Slot.delete
  | incr => .onKey key Slot.incr
  | decr => .onKey key Slot.decr
  | append value => .onKey key (Slot.append value)
  | strlen => reads key Slot.strlen
  | incrBy delta => .onKey key (Slot.incrBy delta.toInt)
  | incrByFloat delta => .onKey key (Slot.incrByFloat delta)
  | getRange start stop => reads key (Slot.getRange start stop)
  | hget field => reads key (Slot.hget env.now field)
  | hset field value => .onKey key (Slot.hset field value)
  | hdel fields => .onKey key (Slot.hdel fields)
  | hgetall => reads key (Slot.hgetall env.now (env.iterPos (some key)))
  | hkeys => reads key (Slot.hkeys env.now (env.iterPos (some key)))
  | hvals => reads key (Slot.hvals env.now (env.iterPos (some key)))
  | hlen => reads key (Slot.hlen env.now)
  | hexists field => reads key (Slot.hexists env.now field)
  | hsetNx field value => .onKey key (Slot.hsetNx env.now field value)
  | hincrBy field delta => .onKey key (Slot.hincrBy env.now field delta.toInt)
  | lpush values => .onKey key (Slot.lpush values)
  | rpush values => .onKey key (Slot.rpush values)
  | lpop => .onKey key Slot.lpop
  | rpop => .onKey key Slot.rpop
  | lrange start stop => reads key (Slot.lrange env.now start stop)
  | llen => reads key (Slot.llen env.now)
  | lindex index => reads key (Slot.lindex env.now index)
  | lset index value => .onKey key (Slot.lset env.now index value)
  | lrem count value => .onKey key (Slot.lrem env.now count value)
  | ltrim start stop => .onKey key (Slot.ltrim env.now start stop)
  | sadd members => .onKey key (Slot.sadd members)
  | srem members => .onKey key (Slot.srem members)
  | smembers => reads key (Slot.smembers env.now (env.iterPos (some key)))
  | sismember member => reads key (Slot.sismember env.now member)
  | scard => reads key (Slot.scard env.now)
  | spop count => .onKey key (Slot.spop env (env.iterPos (some key)) count)
  | srandMember count => reads key (Slot.srandMember env (env.iterPos (some key)) count.toInt)
  | zadd members => .onKey key (Slot.zadd members)
  | zrem members => .onKey key (Slot.zrem members)
  | zrange start stop withScores => reads key (Slot.zrange env.now (env.iterPos (some key)) start stop withScores)
  | zrank member => reads key (Slot.zrank env.now member)
  | zscore member => reads key (Slot.zscore env.now member)
  | zcard => reads key (Slot.zcard env.now)
  | zcount min max => reads key (Slot.zcount env.now (env.iterPos (some key)) min max)
  | zincrBy delta member => .onKey key (Slot.zincrBy env.now delta member)
  | zrangeByScore min max withScores =>
      reads key (Slot.zrangeByScore env.now (env.iterPos (some key)) min max withScores)
  | zrevrange start stop withScores =>
      reads key (Slot.zrevrange env.now (env.iterPos (some key)) start stop withScores)
  | zpopMin count => .onKey key (Slot.zpopMin env.now (env.iterPos (some key)) count)
  | zpopMax count => .onKey key (Slot.zpopMax env.now (env.iterPos (some key)) count)
  | xadd requested fields => .onKey key (Slot.xadd env requested fields)
  | xlen => reads key (Slot.xlen env.now)
  | xrange start stop count => reads key (Slot.xrange env.now start stop count)
  | xread cursor count => reads key (Slot.xread env.now cursor count)
  | setExpiry at' => .onKey key (Slot.setExpiry env.now at')
  | pttlMillis => reads key (Slot.pttlMillis env.now)
  | persist => .onKey key (Slot.persist env.now)
  | typeOf => reads key (Slot.typeOf env.now)

/-- The operations that update a value in place. -/
def inPlace : KeyOp → Bool
  | incr | decr | append _ | incrBy _ | incrByFloat _ => true
  | hset _ _ | hdel _ | hsetNx _ _ | hincrBy _ _ => true
  | lpush _ | rpush _ | lpop | rpop | lset _ _ | lrem _ _ | ltrim _ _ => true
  | sadd _ | srem _ | spop _ => true
  | zadd _ | zrem _ | zincrBy _ _ | zpopMin _ | zpopMax _ => true
  | xadd _ _ => true
  | _ => false

end KeyOp

/-! ## The shapes keep the deadline of a live value -/

/-- What the operation leaves of a live value, if it leaves one, has the deadline of that value. -/
def KeepsLive {α : Type} (now : Instant) (f : Slot → α × Slot) : Prop :=
  ∀ v v', v.isExpired now = false → (f (some v)).2 = some v' → v'.expiresAt = v.expiresAt

section Shapes

variable {τ α : Type} {K : Kind τ} {now : Instant} {f : τ → Res α × τ}

theorem keepsLive_writeAny (missing : α × Slot) (hf : KeepsDeadline K f) :
    KeepsLive now (Slot.writeAny K missing f) := by
  intro v v' _ h
  rw [Slot.writeAny] at h
  cases hv : K.as v with
  | none =>
      rw [hv] at h
      cases h
      rfl
  | some t =>
      rw [hv] at h
      cases h
      rw [← K.of_as hv]
      exact hf t

theorem keepsLive_writeLive (missing : α) (hf : KeepsDeadline K f) :
    KeepsLive now (Slot.writeLive K now missing f) := by
  intro v v' hx h
  rw [Slot.writeLive] at h
  cases hv : K.as v with
  | none =>
      rw [hv] at h
      cases h
      rfl
  | some t =>
      rw [hv] at h
      dsimp only at h
      rw [hx, if_neg Bool.false_ne_true] at h
      cases h
      rw [← K.of_as hv]
      exact hf t

theorem keepsLive_writeOrCreate (create : Res (α × τ)) (hf : KeepsDeadline K f) :
    KeepsLive now (Slot.writeOrCreate K now create f) := by
  intro v v' hx h
  rw [Slot.writeOrCreate] at h
  cases hv : K.as v with
  | none =>
      rw [hv] at h
      cases h
      rfl
  | some t =>
      -- the value is live, so it is not replaced by a new one
      rw [hv] at h
      dsimp only at h
      rw [hx, if_neg Bool.false_ne_true] at h
      cases h
      rw [← K.of_as hv]
      exact hf t

end Shapes

/-! ## The updates keep the deadline of what they update -/

section Updates

variable (now : Instant) (env : Env) (pos : Bytes → Nat)

theorem keepsLive_incrBy (delta : Int) : KeepsLive now (Slot.incrBy delta) := by
  apply keepsLive_writeAny
  rintro ⟨b, e⟩
  dsimp only
  split
  · split <;> rfl
  · rfl

theorem keepsLive_incrByFloat (delta : F64) : KeepsLive now (Slot.incrByFloat delta) := by
  apply keepsLive_writeAny
  rintro ⟨b, e⟩
  dsimp only
  split
  · split <;> rfl
  · rfl

theorem keepsLive_hdel (fields : List Bytes) : KeepsLive now (Slot.hdel fields) := by
  apply keepsLive_writeAny
  intro h
  exact countLoop_keeps (p := HashValue.expiresAt) (fun _ _ => rfl) h fields

theorem keepsLive_hsetNx (field value : Bytes) : KeepsLive now (Slot.hsetNx now field value) := by
  apply keepsLive_writeOrCreate
  intro h
  dsimp only
  split <;> rfl

theorem keepsLive_hincrBy (field : Bytes) (delta : Int) : KeepsLive now (Slot.hincrBy now field delta) := by
  apply keepsLive_writeOrCreate
  intro h
  dsimp only
  split
  · split <;> rfl
  · rfl

theorem keepsLive_lpush (values : List Bytes) : KeepsLive now (Slot.lpush values) := by
  apply keepsLive_writeAny
  intro l
  exact pushLeft_keeps l values

theorem keepsLive_rpush (values : List Bytes) : KeepsLive now (Slot.rpush values) := by
  apply keepsLive_writeAny
  intro l
  exact pushRight_keeps l values

theorem keepsLive_lset (index : Int64) (value : Bytes) : KeepsLive now (Slot.lset now index value) := by
  intro v v' hx h
  cases v with
  | list l =>
      rw [Slot.lset, if_neg (by rw [show expiredAt now l.expiresAt = false from hx]; exact Bool.false_ne_true)] at h
      dsimp only at h
      -- from the head or from the tail, in range or not
      split at h <;> split at h <;> cases h <;> rfl
  | string _ _ | hash _ | set _ | sortedSet _ | stream _ =>
      cases h
      rfl

theorem keepsLive_lrem (count : Int64) (value : Bytes) : KeepsLive now (Slot.lrem now count value) := by
  intro v v' hx h
  cases v with
  | list l =>
      rw [Slot.lrem, if_neg (by rw [show expiredAt now l.expiresAt = false from hx]; exact Bool.false_ne_true)] at h
      split at h <;> cases h <;> rfl
  | string _ _ | hash _ | set _ | sortedSet _ | stream _ =>
      cases h
      rfl

theorem keepsLive_ltrim (start stop : Int64) : KeepsLive now (Slot.ltrim now start stop) := by
  apply keepsLive_writeLive
  intro l
  dsimp only
  split
  · rfl
  · split <;> rfl

theorem keepsLive_sadd (members : List Bytes) : KeepsLive now (Slot.sadd members) := by
  apply keepsLive_writeAny
  intro t
  exact countLoop_keeps (p := SetValue.expiresAt) (fun _ _ => rfl) t members

theorem keepsLive_srem (members : List Bytes) : KeepsLive now (Slot.srem members) := by
  apply keepsLive_writeAny
  intro t
  exact countLoop_keeps (p := SetValue.expiresAt) (fun _ _ => rfl) t members

theorem keepsLive_spop (count : Nat) : KeepsLive env.now (Slot.spop env pos count) := by
  apply keepsLive_writeLive
  intro t
  dsimp only
  split
  · rfl
  · exact foldl_keeps SetValue.remove SetValue.expiresAt (fun _ _ => rfl) t _

theorem keepsLive_zadd (members : List (F64 × Bytes)) : KeepsLive now (Slot.zadd members) := by
  apply keepsLive_writeAny
  intro z
  exact foldl_keeps (fun (z : SortedSetValue) p => z.add p.1 p.2) SortedSetValue.expiresAt (fun _ _ => rfl) z members

theorem keepsLive_zrem (members : List Bytes) : KeepsLive now (Slot.zrem members) := by
  apply keepsLive_writeAny
  intro z
  exact countLoop_keeps (p := SortedSetValue.expiresAt) remove_keeps z members

theorem popLoop_keeps (pick : List (F64 × Std.ExtTreeSet Bytes) → Option (F64 × Std.ExtTreeSet Bytes)) (n : Nat)
    (z : SortedSetValue) : (SortedSetValue.popLoop pos pick n z).2.expiresAt = z.expiresAt :=
  SortedSetValue.popLoop_invariant (P := fun w => w.expiresAt = z.expiresAt)
    (fun w m hw => (remove_keeps w m).trans hw) pos pick n rfl

theorem keepsLive_zpop {pop : SortedSetValue → Option (List (Bytes × F64) × SortedSetValue)}
    (hpop : ∀ z r, pop z = some r → r.2.expiresAt = z.expiresAt) : KeepsLive now (Slot.zpop now pop) := by
  apply keepsLive_writeLive
  intro z
  dsimp only
  cases hr : pop z with
  | none => rfl
  | some r => exact hpop z r hr

theorem keepsLive_zpopMin (count : Nat) : KeepsLive now (Slot.zpopMin now pos count) := by
  apply keepsLive_zpop
  intro z r h
  unfold SortedSetValue.popMin at h
  split at h <;> cases h
  exact popLoop_keeps pos _ count z

theorem keepsLive_zpopMax (count : Nat) : KeepsLive now (Slot.zpopMax now pos count) := by
  apply keepsLive_zpop
  intro z r h
  unfold SortedSetValue.popMax at h
  split at h <;> cases h
  exact popLoop_keeps pos _ count z

theorem keepsLive_xadd (requested : Option StreamId) (fields : List (Bytes × Bytes)) :
    KeepsLive env.now (Slot.xadd env requested fields) := by
  apply keepsLive_writeOrCreate
  intro st
  show (st.add env.unixMs requested fields).2.expiresAt = st.expiresAt
  unfold StreamValue.add
  split
  · split <;> rfl
  · rfl

end Updates

/-! ## Every operation -/

variable [KeyHash]

/-- Whatever an update in place leaves of a live value, it leaves with the deadline of that value. -/
theorem keepsLive_inPlace (env : Env) (s : CacheStorage) (key : Bytes) {op : KeyOp} (hop : op.inPlace = true)
    {v v' : CacheValue} (hlive : s.live env.now key = some v)
    (hafter : ((op.call env key).run s).2.slotAt key = some v') : v'.expiresAt = v.expiresAt := by
  obtain ⟨hslot, hx⟩ := Slot.live_eq_some.mp hlive
  have hkeeps : ∀ {α : Type} {f : Slot → α × Slot}, KeepsLive env.now f →
      (s.onKey key f).2.slotAt key = some v' → v'.expiresAt = v.expiresAt := by
    intro α f hf h
    rw [CacheStorage.onKey, CacheStorage.slotAt_setEntry_self, hslot] at h
    exact hf v v' hx h
  cases op with
  | incr => exact hkeeps (keepsLive_writeAny _ (keepsDeadline_bump 1)) hafter
  | decr => exact hkeeps (keepsLive_writeAny _ (keepsDeadline_bump (-1))) hafter
  | append value => exact hkeeps (keepsLive_writeAny _ fun _ => rfl) hafter
  | incrBy delta => exact hkeeps (keepsLive_incrBy env.now _) hafter
  | incrByFloat delta => exact hkeeps (keepsLive_incrByFloat env.now delta) hafter
  | hset field value => exact hkeeps (keepsLive_writeAny _ fun _ => rfl) hafter
  | hdel fields => exact hkeeps (keepsLive_hdel env.now fields) hafter
  | hsetNx field value => exact hkeeps (keepsLive_hsetNx env.now field value) hafter
  | hincrBy field delta => exact hkeeps (keepsLive_hincrBy env.now field _) hafter
  | lpush values => exact hkeeps (keepsLive_lpush env.now values) hafter
  | rpush values => exact hkeeps (keepsLive_rpush env.now values) hafter
  | lpop => exact hkeeps (keepsLive_writeAny _ fun _ => rfl) hafter
  | rpop => exact hkeeps (keepsLive_writeAny _ fun _ => rfl) hafter
  | lset index value => exact hkeeps (keepsLive_lset env.now index value) hafter
  | lrem count value => exact hkeeps (keepsLive_lrem env.now count value) hafter
  | ltrim start stop => exact hkeeps (keepsLive_ltrim env.now start stop) hafter
  | sadd members => exact hkeeps (keepsLive_sadd env.now members) hafter
  | srem members => exact hkeeps (keepsLive_srem env.now members) hafter
  | spop count => exact hkeeps (keepsLive_spop env _ count) hafter
  | zadd members => exact hkeeps (keepsLive_zadd env.now members) hafter
  | zrem members => exact hkeeps (keepsLive_zrem env.now members) hafter
  | zincrBy delta member => exact hkeeps (keepsLive_writeOrCreate _ fun _ => rfl) hafter
  | zpopMin count => exact hkeeps (keepsLive_zpopMin env.now _ count) hafter
  | zpopMax count => exact hkeeps (keepsLive_zpopMax env.now _ count) hafter
  | xadd requested fields => exact hkeeps (keepsLive_xadd env requested fields) hafter
  | _ => cases hop

/-- The other keys are left alone. -/
theorem keyOp_frame (env : Env) (s : CacheStorage) {key k : Bytes} (hk : k ≠ key) (op : KeyOp) :
    ((op.call env key).run s).2.slotAt k = s.slotAt k := by
  cases op <;> exact CacheStorage.slotAt_setEntry_ne hk

/-- `RENAME` carries the value over as it is. -/
theorem rename_carries (now : Instant) (s : CacheStorage) (key newKey : Bytes) {v : CacheValue}
    (hlive : s.live now key = some v) : (s.rename now key newKey).2.slotAt newKey = some v := by
  unfold CacheStorage.rename
  rw [hlive]
  exact CacheStorage.slotAt_setEntry_self _ _ _

/-- **The operations on one key touch only that key and keep its deadline**: no other entry changes; an update in place
    of a live value that leaves a value leaves it the deadline; and `RENAME` moves the deadline with the value. -/
theorem key_ops_local (env : Env) (s : CacheStorage) (key : Bytes) :
    (∀ (op : KeyOp) (k : Bytes), k ≠ key → ((op.call env key).run s).2.slotAt k = s.slotAt k) ∧
    (∀ (op : KeyOp) (v v' : CacheValue), op.inPlace = true → s.live env.now key = some v →
      ((op.call env key).run s).2.slotAt key = some v' → v'.expiresAt = v.expiresAt) ∧
    ∀ (newKey : Bytes) (v : CacheValue), s.live env.now key = some v →
      ∃ v', (s.rename env.now key newKey).2.slotAt newKey = some v' ∧ v'.expiresAt = v.expiresAt :=
  ⟨fun op _ hk => keyOp_frame env s hk op, fun _ _ _ hop hlive => keepsLive_inPlace env s key hop hlive,
    fun newKey v hlive => ⟨v, rename_carries env.now s key newKey hlive, rfl⟩⟩

omit [KeyHash] in
/-- `APPEND` to a string with a deadline, beside another key. -/
theorem key_ops_local_append :
    let _ := shortKeys
    let s := (CacheStorage.new.setEntry (utf8 "a") (some (.string (utf8 "x") (some 9)))).setEntry (utf8 "b")
      (some (.string (utf8 "y") none))
    let after := (((KeyOp.append (utf8 "z")).call (Env.reading 5) (utf8 "a")).run s).2
    after.slotAt (utf8 "b") = s.slotAt (utf8 "b") ∧
      (∀ v', after.slotAt (utf8 "a") = some v' → v'.expiresAt = some 9) ∧
      ∃ v', (s.rename 5 (utf8 "a") (utf8 "c")).2.slotAt (utf8 "c") = some v' ∧ v'.expiresAt = some 9 := by
  intro _ s after
  have hslot : s.slotAt (utf8 "a") = some (.string (utf8 "x") (some 9)) := by
    rw [CacheStorage.slotAt_setEntry_ne (by decide), CacheStorage.slotAt_setEntry_self]
  have hlive : s.live 5 (utf8 "a") = some (.string (utf8 "x") (some 9)) := Slot.live_eq_some.mpr ⟨hslot, rfl⟩
  obtain ⟨hframe, hdeadline, hrename⟩ := key_ops_local (Env.reading 5) s (utf8 "a")
  refine ⟨hframe (.append (utf8 "z")) (utf8 "b") (by decide), ?_, hrename (utf8 "c") _ hlive⟩
  intro v' hafter
  exact hdeadline (.append (utf8 "z")) _ v' rfl hlive hafter

end FerricCache
