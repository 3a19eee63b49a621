import FerricCache.Commands

/-!
# `FerricCache.Server.Keys` — which keys a command names, reads and writes

`commandKey` is `command_key`. `footprint` is what the dispatch arm actually looks at: a list of keys,
or the whole keyspace. An arm is **local** to its footprint (`arm_local`): its reply and what it leaves
there depend on nothing else, and nothing else changes. So is replay (`apply_local`).
-/

namespace FerricCache

/-- `command_key`: the primary key for routing, permissions and version bumps. -/
def commandKey : Command → Option Bytes
  | .get key | .set key _ _ | .delete key | .incr key | .decr key | .append key _ | .strlen key
  | .hget key _ | .hset key _ _ | .hdel key _ | .hgetall key | .hkeys key | .hvals key | .hlen key
  | .hexists key _ | .lpush key _ | .rpush key _ | .lpop key | .rpop key | .lrange key _ _
  | .llen key | .lindex key _ | .sadd key _ | .srem key _ | .smembers key | .sismember key _
  | .scard key | .zadd key _ | .zrem key _ | .zrange key _ _ _ | .zrank key _ | .zscore key _
  | .zcard key | .zcount key _ _ | .expire key _ | .pexpire key _ | .expireAt key _ | .ttl key
  | .pttl key | .persist key => some key
  | .setNx key _ | .setEx key _ _ | .getSet key _ | .getRange key _ _ | .incrBy key _
  | .decrBy key _ | .incrByFloat key _ | .hmget key _ | .hmset key _ | .hsetNx key _ _
  | .hincrBy key _ _ | .lset key _ _ | .lrem key _ _ | .ltrim key _ _ | .spop key _
  | .srandMember key _ | .zincrBy key _ _ | .zrangeByScore key _ _ _ | .zrevrange key _ _ _
  | .zpopMin key _ | .zpopMax key _ | .type key => some key
  | .rpoplpush source _ | .smove source _ _ => some source
  | .rename key _ => some key
  | .xadd key _ _ | .xlen key | .xrange key _ _ _ => some key
  | _ => none

/-- The keys whose slots the dispatch arm looks at or writes; `none` is the whole keyspace. -/
def footprint : Command → Option (List Bytes)
  | .rpoplpush source destination => some [source, destination]
  | .smove source destination _ => some [source, destination]
  | .rename key newKey => some [key, newKey]
  | .mset pairs => some (pairs.map Prod.fst)
  | .mget keys | .existsKeys keys | .sinter keys | .sunion keys | .sdiff keys => some keys
  | .xread _ keys _ => some keys
  | .flushAll | .keys _ | .dbSize | .randomKey => none
  | c => some (commandKey c).toList

/-- The dispatch arm of the command may look at the key, or write it. -/
def touchesKey (c : Command) (k : Bytes) : Bool :=
  match footprint c with
  | some keys => keys.contains k
  | none => true

theorem touchesKey_iff {c : Command} {k : Bytes} :
    touchesKey c k = true ↔ ∀ keys, footprint c = some keys → k ∈ keys := by
  unfold touchesKey
  cases footprint c with
  | none =>
      refine ⟨fun _ _ h => ?_, fun _ => rfl⟩
      cases h
  | some keys =>
      refine ⟨fun h _ hkeys => ?_, fun h => List.contains_iff_mem.mpr (h keys rfl)⟩
      cases hkeys
      exact List.contains_iff_mem.mp h

variable [KeyHash]

/-- A single-key arm works on the command's key. -/
theorem commandKey_of_slot {env : Env} {c : Command} {key : Bytes} {f : Slot → Option Response × Slot}
    (h : arm env c = some (.slot key f)) : commandKey c = some key := by
  cases c <;> cases h <;> rfl

theorem footprint_of_slot {env : Env} {c : Command} {key : Bytes} {f : Slot → Option Response × Slot}
    (h : arm env c = some (.slot key f)) : footprint c = some [key] := by
  cases c <;> cases h <;> rfl

/-! ## Locality -/

/-- The storages hold the same on a footprint. -/
def AgreeOn : Option (List Bytes) → CacheStorage → CacheStorage → Prop
  | some keys, s, t => ∀ k ∈ keys, s.slotAt k = t.slotAt k
  | none, s, t => s = t

/-- An operation that looks at, and changes, nothing but its footprint. -/
structure LocalTo {α : Type} (F : Option (List Bytes)) (g : CacheStorage → α × CacheStorage) :
    Prop where
  reply : ∀ s t, AgreeOn F s t → (g s).1 = (g t).1
  agree : ∀ s t, AgreeOn F s t → AgreeOn F (g s).2 (g t).2
  frame : ∀ s k keys, F = some keys → k ∉ keys → (g s).2.slotAt k = s.slotAt k

namespace LocalTo

variable {α β : Type} {F : Option (List Bytes)} {keys : List Bytes}

/-- A critical section on one of the keys. -/
theorem onKey {key : Bytes} (hkey : key ∈ keys) (f : Slot → α × Slot) :
    LocalTo (some keys) fun s => s.onKey key f where
  reply s t h := by
    show (f (s.slotAt key)).1 = (f (t.slotAt key)).1
    rw [h key hkey]
  agree s t h := by
    intro k hk
    show (s.setEntry key (f (s.slotAt key)).2).slotAt k = (t.setEntry key (f (t.slotAt key)).2).slotAt k
    rw [CacheStorage.slotAt_setEntry, CacheStorage.slotAt_setEntry, h key hkey, h k hk]
  frame s k keys' hF hk := by
    cases hF
    exact CacheStorage.slotAt_setEntry_ne fun he => hk (he ▸ hkey)

/-- Looking without writing. -/
theorem read {g : CacheStorage → α} (h : ∀ s t, AgreeOn F s t → g s = g t) :
    LocalTo F fun s => (g s, s) where
  reply := h
  agree _ _ hst := hst
  frame _ _ _ _ _ := rfl

/-- One operation after another. -/
theorem bind {g : CacheStorage → α × CacheStorage} {h : α → CacheStorage → β × CacheStorage}
    (hg : LocalTo F g) (hh : ∀ a, LocalTo F (h a)) :
    LocalTo F fun s => h (g s).1 (g s).2 where
  reply s t hst := by
    show (h (g s).1 (g s).2).1 = (h (g t).1 (g t).2).1
    rw [hg.reply s t hst]
    exact (hh _).reply _ _ (hg.agree s t hst)
  agree s t hst := by
    show AgreeOn F (h (g s).1 (g s).2).2 (h (g t).1 (g t).2).2
    rw [hg.reply s t hst]
    exact (hh _).agree _ _ (hg.agree s t hst)
  frame s k keys hF hk := by
    show (h (g s).1 (g s).2).2.slotAt k = s.slotAt k
    rw [(hh _).frame _ k keys hF hk, hg.frame s k keys hF hk]

/-- Changing only the reply. -/
theorem map {g : CacheStorage → α × CacheStorage} (f : α → β) (hg : LocalTo F g) :
    LocalTo F fun s => (f (g s).1, (g s).2) :=
  hg.bind (h := fun a s => (f a, s)) fun _ => read fun _ _ _ => rfl

/-- Two operations with the same results. -/
theorem congr {g h : CacheStorage → α × CacheStorage} (hg : LocalTo F g) (heq : ∀ s, g s = h s) :
    LocalTo F h := by
  rw [← funext heq]
  exact hg

end LocalTo

/-- What a move does with the outcome of its first half. -/
def moveRest {τ α β : Type} (K : Kind τ) (now : Instant) (moved : α → Option β) (fresh : τ)
    (put : β → τ → τ) (destination : Bytes) : Res α → CacheStorage → Res α × CacheStorage
  | .error e, s => (.error e, s)
  | .ok a, s =>
      match moved a with
      | none => (.ok a, s)
      | some b =>
          let r := s.onKey destination (CacheStorage.putInto K now fresh (put b))
          (r.1.map fun _ => a, r.2)

theorem move_eq {τ α β : Type} (K : Kind τ) (now : Instant) (missing : α) (take : τ → α × τ)
    (moved : α → Option β) (fresh : τ) (put : β → τ → τ) (source destination : Bytes) (s : CacheStorage) :
    s.move K now missing take moved fresh put source destination
      = moveRest K now moved fresh put destination
          (s.onKey source (CacheStorage.takeFrom K now missing take)).1
          (s.onKey source (CacheStorage.takeFrom K now missing take)).2 := by
  unfold CacheStorage.move
  obtain ⟨r, s'⟩ := s.onKey source (CacheStorage.takeFrom K now missing take)
  cases r with
  | error e => rfl
  | ok a =>
      cases hm : moved a with
      | none => simp only [moveRest, hm]
      | some b =>
          simp only [moveRest, hm]
          obtain ⟨r', s''⟩ := s'.onKey destination (CacheStorage.putInto K now fresh (put b))
          cases r' <;> rfl

/-- The two halves of a move are critical sections on its two keys. -/
theorem move_local {τ α β : Type} (K : Kind τ) (now : Instant) (missing : α) (take : τ → α × τ)
    (moved : α → Option β) (fresh : τ) (put : β → τ → τ) (source destination : Bytes) :
    LocalTo (some [source, destination])
      (CacheStorage.move K now missing take moved fresh put source destination) := by
  have hput : ∀ r : Res α, LocalTo (some [source, destination])
      (moveRest K now moved fresh put destination r) := by
    intro r
    cases r with
    | error e => exact LocalTo.read fun _ _ _ => rfl
    | ok a =>
        cases hm : moved a with
        | none =>
            refine (LocalTo.read fun _ _ _ => rfl).congr (g := fun s => (Except.ok a, s)) ?_
            intro s
            simp only [moveRest, hm]
        | some b =>
            refine ((LocalTo.onKey (List.mem_cons_of_mem _ (List.mem_singleton_self _)) _).map _).congr
              (g := fun s : CacheStorage =>
                ((s.onKey destination (CacheStorage.putInto K now fresh (put b))).1.map fun _ => a,
                  (s.onKey destination (CacheStorage.putInto K now fresh (put b))).2)) ?_
            intro s
            simp only [moveRest, hm]
  have htake : LocalTo (some [source, destination]) fun s : CacheStorage =>
      s.onKey source (CacheStorage.takeFrom K now missing take) := LocalTo.onKey (by simp) _
  exact (htake.bind hput).congr fun s => (move_eq K now missing take moved fresh put source destination s).symm

theorem rename_local (now : Instant) (key newKey : Bytes) :
    LocalTo (some [key, newKey]) (CacheStorage.rename now key newKey) where
  reply s t h := by
    have hkey : s.live now key = t.live now key := congrArg (Slot.live now) (h key (by simp))
    unfold CacheStorage.rename
    rw [hkey]
    cases t.live now key <;> rfl
  agree s t h := by
    have hkey : s.live now key = t.live now key := congrArg (Slot.live now) (h key (by simp))
    unfold CacheStorage.rename
    rw [hkey]
    intro k hk
    cases t.live now key with
    | none => simp only [CacheStorage.slotAt_setEntry, h k hk]
    | some v => simp only [CacheStorage.slotAt_setEntry, h k hk]
  frame s k keys hF hk := by
    cases hF
    have hne : k ≠ key ∧ k ≠ newKey := by simpa using hk
    unfold CacheStorage.rename
    cases s.live now key with
    | none => simp only [CacheStorage.slotAt_setEntry, if_neg hne.1]
    | some v => simp only [CacheStorage.slotAt_setEntry, if_neg hne.1, if_neg hne.2]

/-- What `MSET` leaves at a key: the last pair that names it, else what was there. -/
theorem slotAt_mset (pairs : List (Bytes × Bytes)) (s : CacheStorage) (k : Bytes) :
    (s.mset pairs).slotAt k
      = pairs.foldl (fun slot p => if k = p.1 then some (.string p.2 none) else slot) (s.slotAt k) := by
  induction pairs generalizing s with
  | nil => rfl
  | cons p pairs ih =>
      show ((s.setEntry p.1 (some (.string p.2 none))).mset pairs).slotAt k = _
      rw [ih, CacheStorage.slotAt_setEntry, List.foldl_cons]

theorem slotAt_mset_of_notMem {pairs : List (Bytes × Bytes)} {k : Bytes}
    (h : k ∉ pairs.map Prod.fst) (s : CacheStorage) : (s.mset pairs).slotAt k = s.slotAt k := by
  induction pairs generalizing s with
  | nil => rfl
  | cons p pairs ih =>
      rw [List.map_cons, List.mem_cons, not_or] at h
      show ((s.setEntry p.1 (some (.string p.2 none))).mset pairs).slotAt k = _
      rw [ih h.2, CacheStorage.slotAt_setEntry_ne h.1]

theorem mset_local (pairs : List (Bytes × Bytes)) :
    LocalTo (some (pairs.map Prod.fst)) fun s => ((), s.mset pairs) where
  reply _ _ _ := rfl
  agree s t h := by
    intro k hk
    show (s.mset pairs).slotAt k = (t.mset pairs).slotAt k
    rw [slotAt_mset, slotAt_mset, h k hk]
  frame s k keys hF hk := by
    cases hF
    exact slotAt_mset_of_notMem hk s

/-! ## Reads of several keys -/

section Reads

variable {s t : CacheStorage} {keys : List Bytes} (h : ∀ k ∈ keys, s.slotAt k = t.slotAt k)

include h

theorem sinterLoop_agree (now : Instant) (result : Option SetValue) :
    CacheStorage.sinterLoop (s.snapshotSet now) result keys
      = CacheStorage.sinterLoop (t.snapshotSet now) result keys := by
  induction keys generalizing result with
  | nil => rfl
  | cons k keys ih =>
      have hk : s.snapshotSet now k = t.snapshotSet now k :=
        congrArg (Slot.snapshotSet now) (h k (List.mem_cons_self ..))
      have hrest := ih fun k' hk' => h k' (List.mem_cons_of_mem _ hk')
      rw [CacheStorage.sinterLoop, CacheStorage.sinterLoop, hk]
      simp only [hrest]

theorem setLoop_agree (now : Instant) (combine : SetValue → SetValue → SetValue) (result : SetValue) :
    CacheStorage.setLoop (s.snapshotSet now) combine result keys
      = CacheStorage.setLoop (t.snapshotSet now) combine result keys := by
  induction keys generalizing result with
  | nil => rfl
  | cons k keys ih =>
      have hk : s.snapshotSet now k = t.snapshotSet now k :=
        congrArg (Slot.snapshotSet now) (h k (List.mem_cons_self ..))
      have hrest := ih fun k' hk' => h k' (List.mem_cons_of_mem _ hk')
      rw [CacheStorage.setLoop, CacheStorage.setLoop, hk]
      simp only [hrest]

theorem sdiff_agree (env : Env) : s.sdiff env keys = t.sdiff env keys := by
  cases keys with
  | nil => rfl
  | cons k keys =>
      have hk : s.snapshotSet env.now k = t.snapshotSet env.now k :=
        congrArg (Slot.snapshotSet env.now) (h k (List.mem_cons_self ..))
      have hrest := fun u => setLoop_agree (fun k' hk' => h k' (List.mem_cons_of_mem _ hk')) env.now
        (fun result u => CacheStorage.setOf (result.difference u)) u
      simp only [CacheStorage.sdiff, hk, hrest]

theorem existsCount_agree (now : Instant) : s.existsCount now keys = t.existsCount now keys := by
  unfold CacheStorage.existsCount
  congr 1
  apply List.filter_congr
  intro k hk
  unfold CacheStorage.live
  rw [h k hk]

omit h in
theorem xreadLoop_agree (now : Instant) (count : Option UInt64) (pairs : List (Bytes × Bytes))
    (h : ∀ p ∈ pairs, s.slotAt p.1 = t.slotAt p.1)
    (perStream : List (Bytes × List (StreamId × List (Bytes × Bytes)))) :
    xreadLoop now count s perStream pairs = xreadLoop now count t perStream pairs := by
  induction pairs generalizing perStream with
  | nil => rfl
  | cons p pairs ih =>
      obtain ⟨k, id⟩ := p
      have hk : s.slotAt k = t.slotAt k := h (k, id) (List.mem_cons_self ..)
      have hrest := ih fun p' hp' => h p' (List.mem_cons_of_mem _ hp')
      rw [xreadLoop, xreadLoop, hk]
      simp only [hrest]

theorem xreadArm_agree (now : Instant) (count : Option UInt64) (ids : List Bytes) :
    xreadArm now count keys ids s = xreadArm now count keys ids t := by
  unfold xreadArm
  rw [xreadLoop_agree now count (keys.zip ids) fun p hp => h p.1 (List.of_mem_zip hp).1]

end Reads

/-! ## Every arm -/

/-- Anything is local to the whole keyspace. -/
theorem localTo_none {α : Type} (g : CacheStorage → α × CacheStorage) : LocalTo none g where
  reply _ _ h := by rw [show _ = _ from h]
  agree _ _ h := by rw [show _ = _ from h]; rfl
  frame _ _ _ h := by cases h

/-- **Every arm is local to the command's footprint.** -/
theorem arm_local {env : Env} {c : Command} {a : Arm} (h : arm env c = some a) :
    LocalTo (footprint c) fun s => a.run s := by
  cases a with
  | slot key f =>
      rw [footprint_of_slot h]
      exact LocalTo.onKey (List.mem_singleton_self key) f
  | store f =>
      cases c with
      | rpoplpush source destination =>
          cases h
          exact (move_local Kind.list env.now _ _ _ _ _ source destination).map _
      | smove source destination member =>
          cases h
          exact (move_local Kind.set env.now _ _ _ _ _ source destination).map _
      | rename key newKey =>
          cases h
          exact (rename_local env.now key newKey).map _
      | mset pairs =>
          cases h
          exact (mset_local pairs).map fun _ => some Response.ok
      | sinter keys =>
          cases h
          refine LocalTo.read fun s t hst => ?_
          unfold CacheStorage.sinter
          rw [sinterLoop_agree hst]
      | sunion keys =>
          cases h
          refine LocalTo.read fun s t hst => ?_
          unfold CacheStorage.sunion
          rw [setLoop_agree hst]
      | sdiff keys =>
          cases h
          refine LocalTo.read fun s t hst => ?_
          rw [sdiff_agree hst]
      | existsKeys keys =>
          cases h
          refine LocalTo.read fun s t hst => ?_
          rw [existsCount_agree hst]
      | mget keys =>
          cases h
          refine LocalTo.read fun s t hst => ?_
          have hmap : keys.map (fun k => (Slot.get env.now (s.slotAt k)).getD [])
              = keys.map fun k => (Slot.get env.now (t.slotAt k)).getD [] := by
            apply List.map_congr_left
            intro k hk
            rw [hst k hk]
          rw [hmap]
      | xread count keys ids =>
          cases h
          refine LocalTo.read fun s t hst => ?_
          rw [xreadArm_agree hst]
      | ping => cases h; exact LocalTo.read fun _ _ _ => rfl
      | echo message => cases h; exact LocalTo.read fun _ _ _ => rfl
      | flushAll => exact localTo_none _
      | keys pattern => exact localTo_none _
      | dbSize => exact localTo_none _
      | randomKey => exact localTo_none _
      | _ => cases h

/-! ## Replay -/

theorem applyKey_local {α : Type} {key : Bytes} {keys : List Bytes} (hkey : key ∈ keys) (op : Slot → α × Slot) :
    LocalTo (some keys) fun s => applyKey s key op :=
  (LocalTo.onKey hkey op).map fun _ => some ()

theorem applyKeyPanic_local {α : Type} {key : Bytes} {keys : List Bytes} (hkey : key ∈ keys)
    (op : Slot → Res (Option α) × Slot) : LocalTo (some keys) fun s => applyKeyPanic s key op := by
  have hlocal : LocalTo (some keys) fun s => s.onKey key op := LocalTo.onKey hkey op
  refine ⟨fun s t hst => ?_, hlocal.agree, hlocal.frame⟩
  unfold applyKeyPanic
  rw [hlocal.reply s t hst]

theorem applySet_local {key : Bytes} {keys : List Bytes} (hkey : key ∈ keys) (env : Env) (value : Bytes)
    (ttl : Option Nat) : LocalTo (some keys) fun s => applySet env s key value ttl :=
  (LocalTo.onKey hkey (Slot.set env.now value ttl)).map fun r => r.map fun _ => ()

theorem applyExpiry_local {key : Bytes} {keys : List Bytes} (hkey : key ∈ keys) (env : Env) (d : Nat) :
    LocalTo (some keys) fun s => applyExpiry env s key d := by
  unfold applyExpiry
  cases instantAdd env.now d with
  | some at' => exact applyKey_local hkey _
  | none => exact LocalTo.read fun _ _ _ => rfl

theorem applyExpire_local {key : Bytes} {keys : List Bytes} (hkey : key ∈ keys) (env : Env) (d : Option Nat) :
    LocalTo (some keys) fun s => applyExpire env s key d := by
  cases d with
  | some d => exact applyExpiry_local hkey env d
  | none => exact LocalTo.read fun _ _ _ => rfl

theorem applyExpireAt_local {key : Bytes} {keys : List Bytes} (hkey : key ∈ keys) (env : Env) (t : Int64) :
    LocalTo (some keys) fun s => applyExpireAt env s key t := by
  unfold applyExpireAt
  cases tryU64 t with
  | some target =>
      by_cases hlt : env.unixSecs < target
      · simp only [if_pos hlt]
        exact applyExpiry_local hkey env _
      · simp only [if_neg hlt]
        exact applyKey_local hkey _
  | none => exact LocalTo.read fun _ _ _ => rfl

/-- The loop of `HMSET`, which stays on its key. -/
theorem foldl_hset_local (key : Bytes) (pairs : List (Bytes × Bytes)) :
    LocalTo (some [key]) fun s => (some (), pairs.foldl (fun s p => (s.onKey key (Slot.hset p.1 p.2)).2) s) := by
  induction pairs with
  | nil => exact LocalTo.read fun _ _ _ => rfl
  | cons p pairs ih =>
      exact (LocalTo.onKey (List.mem_singleton_self key) (Slot.hset p.1 p.2)).bind fun _ => ih

/-- **Replay is local to the command's footprint**, as dispatch is. -/
theorem apply_local (env : Env) {c : Command} (hw : isWriteCommand c = true) :
    LocalTo (footprint c) (applyWriteCommand env c) := by
  cases c with
  | set key value ttl => exact applySet_local (List.mem_singleton_self key) env _ _
  | setEx key seconds value => exact applySet_local (List.mem_singleton_self key) env _ _
  | flushAll => exact localTo_none _
  | expire key n => exact applyExpire_local (List.mem_singleton_self key) env _
  | pexpire key n => exact applyExpire_local (List.mem_singleton_self key) env _
  | expireAt key n => exact applyExpireAt_local (List.mem_singleton_self key) env _
  | mset pairs => exact (mset_local pairs).map fun _ => some ()
  | hmset key pairs => exact foldl_hset_local key pairs
  | ltrim key start stop => exact applyKeyPanic_local (List.mem_singleton_self key) _
  | spop key n => exact applyKeyPanic_local (List.mem_singleton_self key) _
  | zpopMin key n => exact applyKeyPanic_local (List.mem_singleton_self key) _
  | zpopMax key n => exact applyKeyPanic_local (List.mem_singleton_self key) _
  | rpoplpush source destination =>
      exact (move_local Kind.list env.now _ _ _ _ _ source destination).map fun _ => some ()
  | smove source destination member =>
      exact (move_local Kind.set env.now _ _ _ _ _ source destination).map fun _ => some ()
  | rename key newKey => exact (rename_local env.now key newKey).map fun _ => some ()
  | _ => first | (cases hw; done) | exact applyKey_local (List.mem_singleton_self _) _

/-- The footprints have a key in common; the whole keyspace meets every footprint with a key. -/
def meets : Option (List Bytes) → Option (List Bytes) → Bool
  | some ks, some ls => ks.any fun k => ls.contains k
  | some ks, none => !ks.isEmpty
  | none, some ls => !ls.isEmpty
  | none, none => true

/-- A command that is not a write leaves the storage alone. -/
theorem run_read {env : Env} {c : Command} {a : Arm} (h : arm env c = some a)
    (hr : isWriteCommand c = false) (s : CacheStorage) : (a.run s).2 = s := by
  cases c <;> first | (cases hr; done) | (cases h <;> first | rfl | exact s.setEntry_slotAt _)

end FerricCache
