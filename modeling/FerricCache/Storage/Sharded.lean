import FerricCache.Data.Value

/-!
# `FerricCache.Storage.Sharded` — the 64-shard map

`ShardedMap` routes a key to the shard `xxh3_64(key) & 63`; `CacheStorage` is the 64 tables together
with the fact that every key sits in the shard its hash selects, so a misplaced entry cannot be built.
The hash is third-party code and enters as the parameter `KeyHash`.

A storage is determined by what it holds at each key (`CacheStorage.ext_entry`), and every operation
below is characterised by its effect on `slotAt`: `slotAt_setEntry`, `slotAt_cleanupExpired`,
`slotAt_flushall`. No later proof looks at shards, except where the code iterates them.
-/

namespace FerricCache

/-- `xxhash_rust::xxh3::xxh3_64`. -/
class KeyHash where
  xxh3_64 : Bytes → UInt64

/-- `xxh3_64` of a key of one to three bytes: the short-input path of XXH3 with its default secret. -/
def xxh3Short (key : Bytes) : UInt64 :=
  let byte := fun i => (key.getD i 0).toUInt64
  let combined := (byte 0 <<< 16) ||| (byte (key.length / 2) <<< 24) ||| byte (key.length - 1) |||
    (UInt64.ofNat key.length <<< 8)
  let h := combined ^^^ (0x396cfeb8 ^^^ 0xbe4ba423)
  let h := (h ^^^ (h >>> 33)) * 0xC2B2AE3D27D4EB4F
  let h := (h ^^^ (h >>> 29)) * 0x165667B19E3779F9
  h ^^^ (h >>> 32)

/-- The hash used in concrete runs, on keys of one to three bytes. -/
@[reducible] def shortKeys : KeyHash := ⟨xxh3Short⟩

example : xxh3Short (utf8 "a") = 0xe6c632b61e964e1f := by decide

/-- The index computed by `ShardedMap::shard`: `xxh3_64(key) & SHARD_MASK`. -/
def shardIndex [KeyHash] (key : Bytes) : Fin 64 :=
  ⟨(KeyHash.xxh3_64 key &&& 63).toNat, by
    have h : (KeyHash.xxh3_64 key &&& 63).toNat ≤ 63 := by
      rw [UInt64.toNat_and]
      exact Nat.and_le_right
    omega⟩

/-- One shard's table. -/
abbrev Shard := Std.ExtTreeMap Bytes CacheValue

/-- What a key holds: `None` when it is absent from its shard. -/
abbrev Slot := Option CacheValue

/-- What is live at a key: what it holds, unless its deadline has passed. -/
def Slot.live (now : Instant) (slot : Slot) : Slot := slot.filter fun v => !v.isExpired now

/-- `CacheStorage`: the shards, every key in the shard its hash selects. -/
structure CacheStorage [KeyHash] where
  shards : Fin 64 → Shard
  placed : ∀ i k, k ∈ shards i → shardIndex k = i

theorem Slot.live_none (now : Instant) : Slot.live now none = none := rfl

theorem Slot.live_expired {now : Instant} {v : CacheValue} (h : v.isExpired now = true) :
    Slot.live now (some v) = none := by simp [Slot.live, Option.filter, h]

theorem Slot.live_fresh {now : Instant} {v : CacheValue} (h : v.isExpired now = false) :
    Slot.live now (some v) = some v := by simp [Slot.live, Option.filter, h]

theorem Slot.live_eq_some {now : Instant} {slot : Slot} {v : CacheValue} :
    Slot.live now slot = some v ↔ slot = some v ∧ v.isExpired now = false := by
  simp [Slot.live, Option.filter_eq_some_iff]

namespace CacheStorage

variable [KeyHash]

/-- `CacheStorage::new`. -/
def new : CacheStorage := ⟨fun _ => ∅, by simp⟩

/-- `guard.get(&key)` on the shard that owns the key. -/
def slotAt (s : CacheStorage) (key : Bytes) : Slot := (s.shards (shardIndex key))[key]?

/-- The table with `key` set to `slot`. -/
def setShard (t : Shard) (key : Bytes) : Slot → Shard
  | some v => t.insert key v
  | none => t.erase key

omit [KeyHash] in
theorem getElem?_setShard (t : Shard) (key k : Bytes) (slot : Slot) :
    (setShard t key slot)[k]? = if k = key then slot else t[k]? := by
  by_cases hk : k = key
  · subst hk
    cases slot <;> simp [setShard]
  · have hk' : key ≠ k := Ne.symm hk
    cases slot <;> simp [setShard, Std.ExtTreeMap.getElem?_insert, Std.ExtTreeMap.getElem?_erase,
      hk, hk']

omit [KeyHash] in
theorem mem_setShard {t : Shard} {key k : Bytes} {slot : Slot} (h : k ∈ setShard t key slot) :
    k = key ∨ k ∈ t := by
  rw [← Std.ExtTreeMap.isSome_getElem?_iff_mem, getElem?_setShard] at h
  split at h
  · exact Or.inl ‹_›
  · exact Or.inr (Std.ExtTreeMap.isSome_getElem?_iff_mem.mp h)

/-- Write a slot through the guard of the shard that owns `key`: `insert`, `get_mut` or `remove`. -/
def setEntry (s : CacheStorage) (key : Bytes) (slot : Slot) : CacheStorage where
  shards := Function.update s.shards (shardIndex key) (setShard (s.shards (shardIndex key)) key slot)
  placed := by
    intro i k hk
    by_cases hi : i = shardIndex key
    · subst hi
      rw [Function.update_self] at hk
      rcases mem_setShard hk with rfl | hm
      · rfl
      · exact s.placed _ k hm
    · rw [Function.update_of_ne hi] at hk
      exact s.placed i k hk

/-- `flushall`: every shard cleared. -/
def flushall (_ : CacheStorage) : CacheStorage := new

/-- `cleanup_expired`: every shard retains its live entries. -/
def cleanupExpired (now : Instant) (s : CacheStorage) : CacheStorage where
  shards := fun i => (s.shards i).filter fun _ v => !v.isExpired now
  placed := fun i k hk => s.placed i k (Std.ExtTreeMap.mem_of_mem_filter hk)

/-! ## A storage is what it holds at each key -/

/-- **Extensionality.** Two storages holding the same at every key are equal. -/
theorem ext_entry {s t : CacheStorage} (h : ∀ k, s.slotAt k = t.slotAt k) : s = t := by
  have hs : s.shards = t.shards := by
    funext i
    apply Std.ExtTreeMap.ext_getElem?
    intro k
    by_cases hk : shardIndex k = i
    · subst hk
      exact h k
    · rw [Std.ExtTreeMap.getElem?_eq_none (fun hm => hk (s.placed i k hm)),
        Std.ExtTreeMap.getElem?_eq_none (fun hm => hk (t.placed i k hm))]
  cases s
  cases t
  simpa using hs

@[simp] theorem slotAt_new (k : Bytes) : (new : CacheStorage).slotAt k = none := by
  simp [slotAt, new]

@[simp] theorem slotAt_flushall (s : CacheStorage) (k : Bytes) : s.flushall.slotAt k = none :=
  slotAt_new k

/-- Writing a slot changes that key and no other. -/
theorem slotAt_setEntry (s : CacheStorage) (key k : Bytes) (slot : Slot) :
    (s.setEntry key slot).slotAt k = if k = key then slot else s.slotAt k := by
  unfold slotAt setEntry
  by_cases hi : shardIndex k = shardIndex key
  · simp only [hi, Function.update_self, getElem?_setShard]
  · have hk : k ≠ key := fun he => hi (he ▸ rfl)
    simp only [Function.update_of_ne hi, if_neg hk]

@[simp] theorem slotAt_setEntry_self (s : CacheStorage) (key : Bytes) (slot : Slot) :
    (s.setEntry key slot).slotAt key = slot := by
  rw [slotAt_setEntry, if_pos rfl]

theorem slotAt_setEntry_ne {s : CacheStorage} {key k : Bytes} {slot : Slot} (h : k ≠ key) :
    (s.setEntry key slot).slotAt k = s.slotAt k := by
  rw [slotAt_setEntry, if_neg h]

/-- Writing back what a key holds changes nothing. -/
theorem setEntry_slotAt (s : CacheStorage) (key : Bytes) : s.setEntry key (s.slotAt key) = s := by
  apply ext_entry
  intro k
  rw [slotAt_setEntry]
  split
  · rw [‹k = key›]
  · rfl

theorem setEntry_setEntry (s : CacheStorage) (key : Bytes) (a b : Slot) :
    (s.setEntry key a).setEntry key b = s.setEntry key b := by
  apply ext_entry
  intro k
  simp only [slotAt_setEntry]
  split <;> rfl

/-! ## Live entries -/

/-- The live entry at a key. -/
def live (now : Instant) (s : CacheStorage) (key : Bytes) : Slot := Slot.live now (s.slotAt key)

/-- Cleaning up leaves exactly the live entries. -/
@[simp] theorem slotAt_cleanupExpired (now : Instant) (s : CacheStorage) (k : Bytes) :
    (s.cleanupExpired now).slotAt k = s.live now k := by
  simp [live, Slot.live, slotAt, cleanupExpired]

theorem live_setEntry (now : Instant) (s : CacheStorage) (key k : Bytes) (slot : Slot) :
    (s.setEntry key slot).live now k = if k = key then Slot.live now slot else s.live now k := by
  unfold live
  rw [slotAt_setEntry]
  split <;> rfl

/-! ## Single-key critical sections -/

variable {α : Type}

/-- Lock the shard of `key`, run `f` on what the key holds, and store what `f` leaves there. -/
def onKey (s : CacheStorage) (key : Bytes) (f : Slot → α × Slot) : α × CacheStorage :=
  ((f (s.slotAt key)).1, s.setEntry key (f (s.slotAt key)).2)

end CacheStorage

end FerricCache
