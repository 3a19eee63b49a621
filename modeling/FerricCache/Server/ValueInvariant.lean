import FerricCache.Data.ScoreIndex
import FerricCache.Server.Steady

/-!
# `FerricCache.Server.ValueInvariant` — what every stored value keeps

A `ValueInvariant` is a property of stored values that only sorted sets and streams have to work for. Every command
keeps it (`effect_holds`), given that the three commands that put something into a sorted set or a stream do:
`ZADD`, `ZINCRBY` and `XADD`.
-/

namespace FerricCache

/-- A property of values that does not look at the deadline, holds of every string, hash, list and set, and stays
    when a member of a sorted set is removed. -/
structure ValueInvariant (V : CacheValue → Prop) : Prop where
  string : ∀ b e, V (.string b e)
  hash : ∀ h, V (.hash h)
  list : ∀ l, V (.list l)
  set : ∀ t, V (.set t)
  withExpiry : ∀ e v, V v → V (v.withExpiry e)
  remove : ∀ z m, V (.sortedSet z) → V (.sortedSet (z.remove m))

/-- A slot that holds nothing, or a value with the property. -/
def Slot.Holds (V : CacheValue → Prop) (slot : Slot) : Prop := ∀ v, slot = some v → V v

theorem Slot.holds_none {V : CacheValue → Prop} : Slot.Holds V none := fun _ h => by cases h

theorem Slot.holds_some {V : CacheValue → Prop} {v : CacheValue} : Slot.Holds V (some v) ↔ V v :=
  ⟨fun h => h v rfl, fun h w hw => by cases hw; exact h⟩

/-! ## The write shapes -/

namespace Slot

variable {V : CacheValue → Prop} {τ α : Type} (K : Kind τ)

theorem holds_writeAny {missing : α × Slot} {f : τ → Res α × τ} (hm : Slot.Holds V missing.2)
    (hf : ∀ t, V (K.of t) → V (K.of (f t).2)) {slot : Slot} (hs : slot.Holds V) :
    Slot.Holds V (writeAny K missing f slot).2 := by
  cases slot with
  | none => exact hm
  | some v =>
      simp only [writeAny]
      cases hv : K.as v with
      | none => exact hs
      | some t =>
          rw [holds_some] at hs ⊢
          exact hf t (K.of_as hv ▸ hs)

theorem holds_writeLive (now : Instant) {missing : α} {f : τ → Res α × τ}
    (hf : ∀ t, V (K.of t) → V (K.of (f t).2)) {slot : Slot} (hs : slot.Holds V) :
    Slot.Holds V (writeLive K now missing f slot).2 := by
  cases slot with
  | none => exact holds_none
  | some v =>
      simp only [writeLive]
      cases hv : K.as v with
      | none => exact hs
      | some t =>
          dsimp only
          split
          · exact hs
          · rw [holds_some] at hs ⊢
            exact hf t (K.of_as hv ▸ hs)

theorem holds_writeOrCreate (now : Instant) {create : Res (α × τ)} {f : τ → Res α × τ}
    (hc : ∀ a t, create = .ok (a, t) → V (K.of t)) {slot : Slot}
    (hf : ∀ t, slot = some (K.of t) → V (K.of t) → V (K.of (f t).2)) (hs : slot.Holds V) :
    Slot.Holds V (writeOrCreate K now create f slot).2 := by
  have hnew : ∀ slot : Slot, slot.Holds V → Slot.Holds V (insertNew K create slot).2 := by
    intro slot hslot
    cases hcr : create with
    | error e => exact hslot
    | ok p =>
        obtain ⟨a, t⟩ := p
        exact holds_some.mpr (hc a t hcr)
  cases slot with
  | none => exact hnew none holds_none
  | some v =>
      simp only [writeOrCreate]
      cases hv : K.as v with
      | none => exact hs
      | some t =>
          dsimp only
          split
          · exact hnew _ hs
          · have hof : K.of t = v := K.of_as hv
            rw [holds_some] at hs ⊢
            exact hf t (by rw [hof]) (hof ▸ hs)

/-! ## The operations with a body of their own -/

variable {slot : Slot} (hV : ValueInvariant V)
include hV

theorem holds_set (now : Instant) (value : Bytes) (ttl : Option Nat) (hs : slot.Holds V) :
    Slot.Holds V (set now value ttl slot).2 := by
  unfold set
  split
  · exact holds_some.mpr (hV.string _ _)
  · exact hs

theorem holds_setNx (now : Instant) (value : Bytes) (hs : slot.Holds V) :
    Slot.Holds V (setNx now value slot).2 := by
  cases slot with
  | none => exact holds_some.mpr (hV.string _ _)
  | some v =>
      simp only [setNx]
      split
      · exact holds_some.mpr (hV.string _ _)
      · exact hs

theorem holds_getSet (now : Instant) (value : Bytes) (hs : slot.Holds V) :
    Slot.Holds V (getSet now value slot).2 := by
  unfold getSet
  split
  · exact holds_some.mpr (hV.string _ _)
  · split
    · exact holds_some.mpr (hV.string _ _)
    · exact hs
  · exact holds_some.mpr (hV.string _ _)

theorem holds_lset (now : Instant) (index : Int64) (value : Bytes) (hs : slot.Holds V) :
    Slot.Holds V (lset now index value slot).2 := by
  unfold lset
  split
  · exact hs
  · dsimp only
    split_ifs <;> first | exact hs | exact holds_some.mpr (hV.list _)
  · exact hs

theorem holds_lrem (now : Instant) (n : Int64) (value : Bytes) (hs : slot.Holds V) :
    Slot.Holds V (lrem now n value slot).2 := by
  unfold lrem
  split
  · dsimp only
    split_ifs <;> first | exact hs | exact holds_some.mpr (hV.list _)
  · exact hs

theorem holds_setExpiry (now at' : Instant) (hs : slot.Holds V) :
    Slot.Holds V (setExpiry now at' slot).2 := by
  cases slot with
  | none => exact holds_none
  | some v =>
      simp only [setExpiry]
      split
      · exact hs
      · exact holds_some.mpr (hV.withExpiry _ _ (holds_some.mp hs))

theorem holds_persist (now : Instant) (hs : slot.Holds V) : Slot.Holds V (persist now slot).2 := by
  cases slot with
  | none => exact holds_none
  | some v =>
      simp only [persist]
      split_ifs
      · exact hs
      · exact holds_some.mpr (hV.withExpiry _ _ (holds_some.mp hs))
      · exact hs

theorem holds_zrem (members : List Bytes) (hs : slot.Holds V) : Slot.Holds V (zrem members slot).2 := by
  refine holds_writeAny Kind.sortedSet holds_none ?_ hs
  intro z hz
  exact countLoop_invariant (P := fun z => V (.sortedSet z)) (fun z m h => hV.remove z m h) members hz

theorem holds_zpop (now : Instant) (pos : Bytes → Nat)
    (pick : List (F64 × Std.ExtTreeSet Bytes) → Option (F64 × Std.ExtTreeSet Bytes)) (n : Nat)
    (hs : slot.Holds V) :
    Slot.Holds V (zpop now (fun z => if isizeMax < n * 40 then none
      else some (SortedSetValue.popLoop pos pick n z)) slot).2 := by
  refine holds_writeLive Kind.sortedSet now ?_ hs
  intro z hz
  by_cases hcap : isizeMax < n * 40
  · simp only [if_pos hcap]
    exact hz
  · simp only [if_neg hcap]
    exact SortedSetValue.popLoop_invariant (P := fun z => V (.sortedSet z)) (fun z m h => hV.remove z m h) pos pick
      n hz

end Slot

/-! ## Storages -/

section Storages

variable [KeyHash] {V : CacheValue → Prop} {s : CacheStorage}

/-- Every value of the storage has the property. -/
def CacheStorage.Holds (V : CacheValue → Prop) (s : CacheStorage) : Prop := ∀ k, (s.slotAt k).Holds V

theorem holds_new : (CacheStorage.new : CacheStorage).Holds V := by
  intro k
  rw [CacheStorage.slotAt_new]
  exact Slot.holds_none

theorem holds_setEntry {key : Bytes} {slot : Slot} (hs : s.Holds V) (hslot : slot.Holds V) :
    (s.setEntry key slot).Holds V := by
  intro k
  rw [CacheStorage.slotAt_setEntry]
  split
  · exact hslot
  · exact hs k

theorem holds_onKey {α : Type} {key : Bytes} {f : Slot → α × Slot} (hs : s.Holds V)
    (hf : ∀ slot : Slot, slot.Holds V → Slot.Holds V (f slot).2) : (s.onKey key f).2.Holds V :=
  holds_setEntry hs (hf _ (hs key))

/-- Only sorted sets and streams have an invariant, and neither moves by halves. -/
theorem holds_move {τ α β : Type} (K : Kind τ) (now : Instant) {missing : α} {take : τ → α × τ}
    {moved : α → Option β} {fresh : τ} {put : β → τ → τ} {source destination : Bytes} (hs : s.Holds V)
    (hK : ∀ t, V (K.of t)) : (s.move K now missing take moved fresh put source destination).2.Holds V := by
  have hfst : (s.onKey source (CacheStorage.takeFrom K now missing take)).2.Holds V :=
    holds_onKey hs fun slot hslot => Slot.holds_writeLive K now (fun t _ => hK _) hslot
  have hsnd : ∀ b (t : CacheStorage), t.Holds V →
      (t.onKey destination (CacheStorage.putInto K now fresh (put b))).2.Holds V := by
    intro b t ht
    exact holds_onKey ht fun slot hslot =>
      Slot.holds_writeOrCreate K now (fun _ t _ => hK t) (fun t _ _ => hK _) hslot
  unfold CacheStorage.move
  generalize s.onKey source (CacheStorage.takeFrom K now missing take) = r at hfst
  obtain ⟨r, s'⟩ := r
  cases r with
  | error e => exact hfst
  | ok a =>
      dsimp only
      cases moved a with
      | none => exact hfst
      | some b =>
          have hsound := hsnd b s' hfst
          dsimp only
          generalize s'.onKey destination (CacheStorage.putInto K now fresh (put b)) = r' at hsound
          obtain ⟨r', s''⟩ := r'
          cases r' <;> exact hsound

theorem holds_rename (now : Instant) (key newKey : Bytes) (hs : s.Holds V) :
    (s.rename now key newKey).2.Holds V := by
  have hgone : (s.setEntry key none).Holds V := holds_setEntry hs Slot.holds_none
  unfold CacheStorage.rename
  cases hv : s.live now key with
  | none => exact hgone
  | some v => exact holds_setEntry hgone (Slot.holds_some.mpr (hs key v (Slot.live_eq_some.mp hv).1))

omit [KeyHash] in
theorem holds_expireArm (hV : ValueInvariant V) (now : Instant) (duration : Option Nat) {slot : Slot}
    (hs : slot.Holds V) :
    Slot.Holds V (expireArm now duration slot).2 := by
  unfold expireArm
  split
  · exact hs
  · split
    · exact Slot.holds_setExpiry hV now _ hs
    · exact hs

omit [KeyHash] in
theorem holds_expireAtArm (hV : ValueInvariant V) (env : Env) (t : Int64) {slot : Slot} (hs : slot.Holds V) :
    Slot.Holds V (expireAtArm env t slot).2 := by
  unfold expireAtArm
  split
  · exact Slot.holds_none
  · exact holds_expireArm hV _ _ hs

omit [KeyHash] in
theorem holds_xaddArm {env : Env} {fields : List (Bytes × Bytes)} {slot : Slot}
    (hadd : ∀ requested, Slot.Holds V (Slot.xadd env requested fields slot).2) (id : Option Bytes)
    (hs : slot.Holds V) : Slot.Holds V (xaddArm env id fields slot).2 := by
  cases id with
  | none => exact hadd none
  | some text =>
      cases hp : StreamId.parse text false with
      | ok id =>
          rw [xaddArm_parsed fields hp]
          exact hadd (some id)
      | error e =>
          rw [xaddArm_unparsed fields hp]
          exact hs

omit [KeyHash] in
theorem holds_hset (hV : ValueInvariant V) (field value : Bytes) {slot : Slot} (hs : slot.Holds V) :
    Slot.Holds V (Slot.hset field value slot).2 :=
  Slot.holds_writeAny Kind.hash (Slot.holds_some.mpr (hV.hash _)) (fun _ _ => hV.hash _) hs

/-- A command that only reads leaves the storage alone. -/
theorem effect_read {c : Command} (env : Env) (h : isWriteCommand c = false) (s : CacheStorage) :
    effect env c s = s := by
  cases c <;> first | (cases h; done) | rfl | exact s.setEntry_slotAt _

/-- **The step lemma**: every command keeps the invariant, if `ZADD`, `ZINCRBY` and `XADD` do. -/
theorem effect_holds (hV : ValueInvariant V) {c : Command} (env : Env) (hs : s.Holds V)
    (hzadd : ∀ key members, c = .zadd key members → Slot.Holds V (Slot.zadd members (s.slotAt key)).2)
    (hzincrBy : ∀ key delta member, c = .zincrBy key delta member →
      Slot.Holds V (Slot.zincrBy env.now delta member (s.slotAt key)).2)
    (hxadd : ∀ key id fields, c = .xadd key id fields →
      Slot.Holds V (xaddArm env id fields (s.slotAt key)).2) : (effect env c s).Holds V := by
  cases hw : isWriteCommand c with
  | false =>
      -- a read leaves the storage as it is
      rw [effect_read env hw]
      exact hs
  | true =>
      have hstring : ∀ (b : Bytes) (e : Option Instant), Slot.Holds V (some (.string b e)) :=
        fun _ _ => Slot.holds_some.mpr (hV.string _ _)
      have hlist : ∀ l : ListValue, Slot.Holds V (some (.list l)) := fun _ => Slot.holds_some.mpr (hV.list _)
      have hset : ∀ t : SetValue, Slot.Holds V (some (.set t)) := fun _ => Slot.holds_some.mpr (hV.set _)
      cases c with
      | set key value ttl => exact holds_onKey hs fun _ => Slot.holds_set hV env.now value _
      | setEx key seconds value => exact holds_onKey hs fun _ => Slot.holds_set hV env.now value _
      | delete key => exact holds_setEntry hs Slot.holds_none
      | incr key =>
          exact holds_onKey hs fun _ => Slot.holds_writeAny Kind.string (hstring _ _) fun _ _ => hV.string _ _
      | decr key =>
          exact holds_onKey hs fun _ => Slot.holds_writeAny Kind.string (hstring _ _) fun _ _ => hV.string _ _
      | append key value =>
          exact holds_onKey hs fun _ => Slot.holds_writeAny Kind.string (hstring _ _) fun _ _ => hV.string _ _
      | incrBy key delta =>
          exact holds_onKey hs fun _ => Slot.holds_writeAny Kind.string (hstring _ _) fun _ _ => hV.string _ _
      | decrBy key delta =>
          exact holds_onKey hs fun _ => Slot.holds_writeAny Kind.string (hstring _ _) fun _ _ => hV.string _ _
      | incrByFloat key delta =>
          exact holds_onKey hs fun _ => Slot.holds_writeAny Kind.string (hstring _ _) fun _ _ => hV.string _ _
      | setNx key value => exact holds_onKey hs fun _ => Slot.holds_setNx hV env.now value
      | getSet key value => exact holds_onKey hs fun _ => Slot.holds_getSet hV env.now value
      | mset pairs =>
          exact foldl_invariant (P := (CacheStorage.Holds V))
            (fun _ p ht => holds_setEntry ht (hstring p.2 none)) pairs hs
      | hset key field value => exact holds_onKey hs fun _ => holds_hset hV field value
      | hdel key fields =>
          exact holds_onKey hs fun _ => Slot.holds_writeAny Kind.hash Slot.holds_none fun _ _ => hV.hash _
      | hmset key pairs =>
          refine holds_onKey hs fun slot hslot => ?_
          rw [hmsetLoop_slot]
          exact foldl_invariant (P := Slot.Holds V) (fun _ p ht => holds_hset hV p.1 p.2 ht) pairs hslot
      | hsetNx key field value =>
          exact holds_onKey hs fun _ =>
            Slot.holds_writeOrCreate Kind.hash env.now (fun _ _ _ => hV.hash _) fun _ _ _ => hV.hash _
      | hincrBy key field delta =>
          exact holds_onKey hs fun _ =>
            Slot.holds_writeOrCreate Kind.hash env.now (fun _ _ _ => hV.hash _) fun _ _ _ => hV.hash _
      | lpush key values =>
          exact holds_onKey hs fun _ => Slot.holds_writeAny Kind.list (hlist _) fun _ _ => hV.list _
      | rpush key values =>
          exact holds_onKey hs fun _ => Slot.holds_writeAny Kind.list (hlist _) fun _ _ => hV.list _
      | lpop key =>
          exact holds_onKey hs fun _ => Slot.holds_writeAny Kind.list Slot.holds_none fun _ _ => hV.list _
      | rpop key =>
          exact holds_onKey hs fun _ => Slot.holds_writeAny Kind.list Slot.holds_none fun _ _ => hV.list _
      | lset key index value => exact holds_onKey hs fun _ => Slot.holds_lset hV env.now index value
      | lrem key n value => exact holds_onKey hs fun _ => Slot.holds_lrem hV env.now n value
      | ltrim key start stop =>
          exact holds_onKey hs fun _ => Slot.holds_writeLive Kind.list env.now fun _ _ => hV.list _
      | rpoplpush source destination => exact holds_move Kind.list env.now hs fun _ => hV.list _
      | sadd key members =>
          exact holds_onKey hs fun _ => Slot.holds_writeAny Kind.set (hset _) fun _ _ => hV.set _
      | srem key members =>
          exact holds_onKey hs fun _ => Slot.holds_writeAny Kind.set Slot.holds_none fun _ _ => hV.set _
      | spop key n =>
          exact holds_onKey hs fun _ => Slot.holds_writeLive Kind.set env.now fun _ _ => hV.set _
      | smove source destination member => exact holds_move Kind.set env.now hs fun _ => hV.set _
      | zadd key members => exact holds_setEntry hs (hzadd key members rfl)
      | zrem key members => exact holds_onKey hs fun _ => Slot.holds_zrem hV members
      | zincrBy key delta member =>
          exact holds_setEntry hs (hzincrBy key delta member rfl)
      | zpopMin key n =>
          exact holds_onKey hs fun _ => Slot.holds_zpop hV env.now _ List.head? n.toNat
      | zpopMax key n =>
          exact holds_onKey hs fun _ => Slot.holds_zpop hV env.now _ List.getLast? n.toNat
      | flushAll => exact holds_new
      | expire key n => exact holds_onKey hs fun _ => holds_expireArm hV env.now _
      | pexpire key n => exact holds_onKey hs fun _ => holds_expireArm hV env.now _
      | expireAt key n => exact holds_onKey hs fun _ => holds_expireAtArm hV env n
      | persist key => exact holds_onKey hs fun _ => Slot.holds_persist hV env.now
      | rename key newKey => exact holds_rename env.now key newKey hs
      | xadd key id fields =>
          exact holds_setEntry hs (hxadd key id fields rfl)
      | _ => cases hw

end Storages

end FerricCache
