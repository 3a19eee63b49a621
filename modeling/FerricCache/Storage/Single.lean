import FerricCache.Storage.Multi

/-!
# `FerricCache.Storage.Single` — the 64 shards as one map

`SingleMap` is what `CacheStorage` would be with one table: its operations know no shards, and list what they
list in the table's own order. `StorageCall` ranges over the operations of `CacheStorage`: every operation on one
key (`onKey`, whatever it does with the key's slot and returns), the two-key moves, the set algebra, and the
server-wide operations.

A storage **represents** the map that holds the same at every key. Every call returns on a storage what it
returns on the map it represents, up to the order of listed elements, and leaves a storage that represents what
it leaves of the map (`call_refines`); so does every sequence of calls from an empty storage
(`sharded_refines_single`). A random key is drawn from a shard in the one and from the whole table in the other:
there `Same` says that both draw a live key or none.
-/

namespace FerricCache

/-! ## One table -/

/-- The storage without shards. -/
structure SingleMap where
  entries : Std.ExtTreeMap Bytes CacheValue

namespace SingleMap

def new : SingleMap := ⟨∅⟩

def slotAt (m : SingleMap) (key : Bytes) : Slot := m.entries[key]?

def setEntry (m : SingleMap) (key : Bytes) : Slot → SingleMap
  | some v => ⟨m.entries.insert key v⟩
  | none => ⟨m.entries.erase key⟩

def onKey {α : Type} (m : SingleMap) (key : Bytes) (f : Slot → α × Slot) : α × SingleMap :=
  ((f (m.slotAt key)).1, m.setEntry key (f (m.slotAt key)).2)

def live (now : Instant) (m : SingleMap) (key : Bytes) : Slot := Slot.live now (m.slotAt key)

/-- `rpoplpush` and `smove`: take from the source, then put into the destination. -/
def move {τ α β : Type} (K : Kind τ) (now : Instant) (missing : α) (take : τ → α × τ) (moved : α → Option β)
    (fresh : τ) (put : β → τ → τ) (source destination : Bytes) (m : SingleMap) : Res α × SingleMap :=
  match m.onKey source (CacheStorage.takeFrom K now missing take) with
  | (.error e, m') => (.error e, m')
  | (.ok a, m') =>
      match moved a with
      | none => (.ok a, m')
      | some b =>
          match m'.onKey destination (CacheStorage.putInto K now fresh (put b)) with
          | (.ok (), m'') => (.ok a, m'')
          | (.error e, m'') => (.error e, m'')

def rename (now : Instant) (key newKey : Bytes) (m : SingleMap) : Res Unit × SingleMap :=
  match m.live now key with
  | some v => (.ok (), (m.setEntry key none).setEntry newKey (some v))
  | none => (.error Slot.noSuchKey, m.setEntry key none)

def snapshotSet (now : Instant) (m : SingleMap) (key : Bytes) : Res (Option SetValue) :=
  Slot.snapshotSet now (m.slotAt key)

def sinter (env : Env) (keys : List Bytes) (m : SingleMap) : Res (List Bytes) :=
  match CacheStorage.sinterLoop (m.snapshotSet env.now) none keys with
  | .ok result => .ok ((result.map fun t => t.getAll (env.iterPos none)).getD [])
  | .error e => .error e

def sunion (env : Env) (keys : List Bytes) (m : SingleMap) : Res (List Bytes) :=
  match CacheStorage.setLoop (m.snapshotSet env.now)
      (fun result t => (t.getAll (env.iterPos none)).foldl SetValue.add result) SetValue.new keys with
  | .ok result => .ok (result.getAll (env.iterPos none))
  | .error e => .error e

def sdiff (env : Env) (keys : List Bytes) (m : SingleMap) : Res (List Bytes) :=
  match keys with
  | [] => .ok []
  | first :: rest =>
      match m.snapshotSet env.now first with
      | .error e => .error e
      | .ok none => .ok []
      | .ok (some t) =>
          match CacheStorage.setLoop (m.snapshotSet env.now)
              (fun result u => CacheStorage.setOf (result.difference u)) t rest with
          | .ok result => .ok (result.getAll (env.iterPos none))
          | .error e => .error e

def existsCount (now : Instant) (keys : List Bytes) (m : SingleMap) : Nat :=
  (keys.filter fun k => (m.live now k).isSome).length

def getAllEntries (m : SingleMap) : List (Bytes × CacheValue) := m.entries.toList

/-- The live keys of the table. -/
def liveKeys (now : Instant) (m : SingleMap) : List Bytes :=
  (m.entries.toList.filter fun p => !p.2.isExpired now).map Prod.fst

def keys (now : Instant) (pattern : Bytes) (m : SingleMap) : List Bytes :=
  (m.liveKeys now).filter (CacheStorage.matchesPattern · pattern)

def dbsize (now : Instant) (m : SingleMap) : Nat := (m.liveKeys now).length

def randomKey (env : Env) (m : SingleMap) : Option Bytes := env.choose 0 (m.liveKeys env.now)

def cleanupExpired (now : Instant) (m : SingleMap) : SingleMap :=
  ⟨m.entries.filter fun _ v => !v.isExpired now⟩

end SingleMap

/-! ## The operations of `CacheStorage` -/

/-- A call of an operation of `CacheStorage`; `onKey` is any of the operations on one key. -/
inductive StorageCall : Type 1
  | onKey {α : Type} (key : Bytes) (f : Slot → α × Slot)
  | rpoplpush (now : Instant) (source destination : Bytes)
  | smove (now : Instant) (source destination member : Bytes)
  | rename (now : Instant) (key newKey : Bytes)
  | sinter (env : Env) (keys : List Bytes)
  | sunion (env : Env) (keys : List Bytes)
  | sdiff (env : Env) (keys : List Bytes)
  | existsCount (now : Instant) (keys : List Bytes)
  | keys (env : Env) (pattern : Bytes)
  | dbsize (env : Env)
  | randomKey (env : Env)
  | flushall
  | cleanupExpired (now : Instant)
  | getAllEntries (env : Env)

namespace StorageCall

/-- What the operation returns. -/
def Result : StorageCall → Type
  | @onKey α _ _ => α
  | rpoplpush _ _ _ => Res (Option Bytes)
  | smove _ _ _ _ => Res Bool
  | rename _ _ _ => Res Unit
  | sinter _ _ | sunion _ _ | sdiff _ _ => Res (List Bytes)
  | existsCount _ _ | dbsize _ => Nat
  | keys _ _ => List Bytes
  | randomKey _ => Option Bytes
  | flushall | cleanupExpired _ => Unit
  | getAllEntries _ => List (Bytes × CacheValue)

/-- The operation on the shards. -/
def run [KeyHash] : (c : StorageCall) → CacheStorage → c.Result × CacheStorage
  | onKey key f, s => s.onKey key f
  | rpoplpush now source destination, s => s.rpoplpush now source destination
  | smove now source destination member, s => s.smove now source destination member
  | rename now key newKey, s => s.rename now key newKey
  | sinter env ks, s => (s.sinter env ks, s)
  | sunion env ks, s => (s.sunion env ks, s)
  | sdiff env ks, s => (s.sdiff env ks, s)
  | existsCount now ks, s => (s.existsCount now ks, s)
  | keys env pattern, s => (s.keys env pattern, s)
  | dbsize env, s => (s.dbsize env, s)
  | randomKey env, s => (s.randomKey env, s)
  | flushall, s => ((), s.flushall)
  | cleanupExpired now, s => ((), s.cleanupExpired now)
  | getAllEntries env, s => (s.getAllEntries env, s)

/-- The same operation on one table. -/
def onSingle : (c : StorageCall) → SingleMap → c.Result × SingleMap
  | onKey key f, m => m.onKey key f
  | rpoplpush now source destination, m =>
      m.move Kind.list now none ListValue.popRight id ListValue.new (fun v l => l.pushLeft v) source destination
  | smove now source destination member, m =>
      m.move Kind.set now false (fun t => (t.contains member, t.remove member))
        (fun removed => if removed then some () else none) SetValue.new (fun () t => t.add member)
        source destination
  | rename now key newKey, m => m.rename now key newKey
  | sinter env ks, m => (m.sinter env ks, m)
  | sunion env ks, m => (m.sunion env ks, m)
  | sdiff env ks, m => (m.sdiff env ks, m)
  | existsCount now ks, m => (m.existsCount now ks, m)
  | keys env pattern, m => (m.keys env.now pattern, m)
  | dbsize env, m => (m.dbsize env.now, m)
  | randomKey env, m => (m.randomKey env, m)
  | flushall, _ => ((), SingleMap.new)
  | cleanupExpired now, m => ((), m.cleanupExpired now)
  | getAllEntries _, m => (m.getAllEntries, m)

end StorageCall

/-- What `rand` promises: `choose` draws an element of a slice unless it is empty, `shuffle` permutes. -/
structure Env.Draws (env : Env) : Prop where
  none : ∀ i, env.choose i [] = none
  some : ∀ i l, l ≠ [] → ∃ k ∈ l, env.choose i l = some k
  perm : ∀ l, (env.shuffle l).Perm l

/-- The results agree up to the order of listed elements; a random key is a live key of the table, and there is
    one exactly when the table draws one. -/
def StorageCall.Same : (c : StorageCall) → SingleMap → c.Result → c.Result → Prop
  | .keys _ _, _, (l : List Bytes), (l' : List Bytes) => l.Perm l'
  | .getAllEntries _, _, (l : List (Bytes × CacheValue)), (l' : List (Bytes × CacheValue)) => l.Perm l'
  | .randomKey env, m, (r : Option Bytes), (r' : Option Bytes) =>
      env.Draws → (r = none ↔ r' = none) ∧ ∀ k, r = some k → k ∈ m.liveKeys env.now
  | _, _, r, r' => r = r'

/-! ## The refinement -/

variable [KeyHash]

/-- The storage holds what the map holds. -/
def Represents (s : CacheStorage) (m : SingleMap) : Prop := ∀ k, s.slotAt k = m.slotAt k

omit [KeyHash] in
theorem SingleMap.slotAt_setEntry (m : SingleMap) (key k : Bytes) (slot : Slot) :
    (m.setEntry key slot).slotAt k = if k = key then slot else m.slotAt k := by
  have h := CacheStorage.getElem?_setShard m.entries key k slot
  cases slot with
  | none => exact h
  | some v => exact h

namespace Represents

variable {s : CacheStorage} {m : SingleMap}

theorem new : Represents CacheStorage.new SingleMap.new := by
  intro k
  rw [CacheStorage.slotAt_new]
  exact Std.ExtTreeMap.getElem?_empty.symm

theorem live (h : Represents s m) (now : Instant) (k : Bytes) : s.live now k = m.live now k :=
  congrArg (Slot.live now) (h k)

theorem setEntry (h : Represents s m) (key : Bytes) (slot : Slot) :
    Represents (s.setEntry key slot) (m.setEntry key slot) := by
  intro k
  rw [CacheStorage.slotAt_setEntry, SingleMap.slotAt_setEntry, h k]

theorem onKey {α : Type} (h : Represents s m) (key : Bytes) (f : Slot → α × Slot) :
    (s.onKey key f).1 = (m.onKey key f).1 ∧ Represents (s.onKey key f).2 (m.onKey key f).2 := by
  unfold CacheStorage.onKey SingleMap.onKey
  rw [h key]
  exact ⟨rfl, h.setEntry key _⟩

theorem cleanupExpired (h : Represents s m) (now : Instant) :
    Represents (s.cleanupExpired now) (m.cleanupExpired now) := by
  intro k
  rw [CacheStorage.slotAt_cleanupExpired, h.live]
  simp [SingleMap.cleanupExpired, SingleMap.slotAt, SingleMap.live, Slot.live]

theorem move {τ α β : Type} (h : Represents s m) (K : Kind τ) (now : Instant) (missing : α) (take : τ → α × τ)
    (moved : α → Option β) (fresh : τ) (put : β → τ → τ) (source destination : Bytes) :
    (s.move K now missing take moved fresh put source destination).1
        = (m.move K now missing take moved fresh put source destination).1 ∧
      Represents (s.move K now missing take moved fresh put source destination).2
        (m.move K now missing take moved fresh put source destination).2 := by
  have hfirst := h.onKey source (CacheStorage.takeFrom K now missing take)
  unfold CacheStorage.move SingleMap.move
  generalize s.onKey source (CacheStorage.takeFrom K now missing take) = r at hfirst
  generalize m.onKey source (CacheStorage.takeFrom K now missing take) = q at hfirst
  obtain ⟨res, s'⟩ := r
  obtain ⟨res', m'⟩ := q
  obtain ⟨rfl, h'⟩ := hfirst
  cases res with
  | error e => exact ⟨rfl, h'⟩
  | ok a =>
      cases hm : moved a with
      | none =>
          simp only [hm, true_and]
          exact h'
      | some b =>
          have hsecond := Represents.onKey h' destination (CacheStorage.putInto K now fresh (put b))
          simp only [hm]
          generalize s'.onKey destination (CacheStorage.putInto K now fresh (put b)) = r at hsecond
          generalize m'.onKey destination (CacheStorage.putInto K now fresh (put b)) = q at hsecond
          obtain ⟨res, s''⟩ := r
          obtain ⟨res', m''⟩ := q
          obtain ⟨rfl, h''⟩ := hsecond
          cases res <;> exact ⟨rfl, h''⟩

theorem rename (h : Represents s m) (now : Instant) (key newKey : Bytes) :
    (s.rename now key newKey).1 = (m.rename now key newKey).1 ∧
      Represents (s.rename now key newKey).2 (m.rename now key newKey).2 := by
  unfold CacheStorage.rename SingleMap.rename
  rw [h.live now key]
  cases m.live now key with
  | none => exact ⟨rfl, h.setEntry key none⟩
  | some v => exact ⟨rfl, (h.setEntry key none).setEntry newKey (some v)⟩

theorem snapshotSet (h : Represents s m) (now : Instant) : s.snapshotSet now = m.snapshotSet now := by
  funext k
  unfold CacheStorage.snapshotSet SingleMap.snapshotSet
  rw [h k]

theorem existsCount (h : Represents s m) (now : Instant) (keys : List Bytes) :
    s.existsCount now keys = m.existsCount now keys := by
  unfold CacheStorage.existsCount SingleMap.existsCount
  simp only [h.live]

end Represents

/-! ## Listings -/

section Listings

variable (env : Env) (s : CacheStorage)

/-- The live keys are the keys of the live ones among all entries. -/
theorem liveKeys_all : (List.finRange 64).flatMap (s.liveKeys env)
    = ((s.getAllEntries env).filter fun p => !p.2.isExpired env.now).map Prod.fst := by
  unfold CacheStorage.getAllEntries
  rw [List.filter_flatMap, List.map_flatMap]
  rfl

theorem keys_eq (pattern : Bytes) : s.keys env pattern
    = ((List.finRange 64).flatMap (s.liveKeys env)).filter (CacheStorage.matchesPattern · pattern) := by
  rw [List.filter_flatMap]
  rfl

theorem dbsize_eq : s.dbsize env = ((List.finRange 64).flatMap (s.liveKeys env)).length := by
  rw [List.length_flatMap]
  rfl

theorem getAllEntries_nodup : ((s.getAllEntries env).map Prod.fst).Nodup :=
  List.pairwise_map.mpr (getAllEntries_distinct env s)

theorem nodup_liveKeys_all : ((List.finRange 64).flatMap (s.liveKeys env)).Nodup := by
  rw [liveKeys_all]
  exact (getAllEntries_nodup env s).sublist (List.filter_sublist.map _)

variable {env s} {m : SingleMap}

omit [KeyHash] in
theorem SingleMap.mem_liveKeys {now : Instant} {k : Bytes} :
    k ∈ m.liveKeys now ↔ (m.live now k).isSome := by
  simp only [SingleMap.liveKeys, List.mem_map, List.mem_filter, Prod.exists, exists_and_right, exists_eq_right,
    Std.ExtTreeMap.mem_toList_iff_getElem?_eq_some, Option.isSome_iff_exists, SingleMap.live, Slot.live_eq_some]
  simp [SingleMap.slotAt]

theorem Represents.getAllEntries (h : Represents s m) : (s.getAllEntries env).Perm m.getAllEntries := by
  refine (List.perm_ext_iff_of_nodup ?_ ?_).mpr ?_
  · exact (getAllEntries_nodup env s).of_map
  · refine (m.entries.distinct_keys_toList).imp ?_
    rintro p q hne rfl
    exact hne Std.ReflCmp.compare_self
  · rintro ⟨k, v⟩
    rw [mem_getAllEntries, h k, SingleMap.getAllEntries, Std.ExtTreeMap.mem_toList_iff_getElem?_eq_some]
    rfl

theorem Represents.liveKeys (h : Represents s m) :
    ((List.finRange 64).flatMap (s.liveKeys env)).Perm (m.liveKeys env.now) := by
  rw [liveKeys_all]
  exact (h.getAllEntries.filter _).map _

end Listings

/-! ## Every call, every sequence of calls -/

/-- A random key is drawn from the live keys, if there are any. -/
theorem randomKey_draws {env : Env} (hd : env.Draws) (s : CacheStorage) :
    (s.randomKey env = none ↔ (List.finRange 64).flatMap (s.liveKeys env) = []) ∧
      ∀ k, s.randomKey env = some k → k ∈ (List.finRange 64).flatMap (s.liveKeys env) := by
  have hshard : ∀ i : Fin 64, env.choose i.val (s.liveKeys env i) = none ↔ s.liveKeys env i = [] := by
    intro i
    constructor
    · intro hnone
      by_contra hne
      obtain ⟨k, -, hk⟩ := hd.some i.val _ hne
      rw [hnone] at hk
      cases hk
    · intro hnil
      rw [hnil, hd.none]
  constructor
  · unfold CacheStorage.randomKey
    rw [List.findSome?_eq_none_iff, List.flatMap_eq_nil_iff]
    constructor
    · intro hall i hi
      exact (hshard i).mp (hall i ((hd.perm _).mem_iff.mpr hi))
    · intro hall i hi
      exact (hshard i).mpr (hall i ((hd.perm _).mem_iff.mp hi))
  · intro k hk
    obtain ⟨i, hi, hchoose⟩ := List.exists_of_findSome?_eq_some hk
    refine List.mem_flatMap.mpr ⟨i, List.mem_finRange i, ?_⟩
    have hne : s.liveKeys env i ≠ [] := fun hnil => by
      rw [(hshard i).mpr hnil] at hchoose
      cases hchoose
    obtain ⟨k', hk', hchoose'⟩ := hd.some i.val _ hne
    rw [hchoose] at hchoose'
    cases hchoose'
    exact hk'

/-- **Every operation** returns on a storage what it returns on the map it represents, and goes on
    representing it. -/
theorem call_refines {s : CacheStorage} {m : SingleMap} (h : Represents s m) (c : StorageCall) :
    c.Same m (c.run s).1 (c.onSingle m).1 ∧ Represents (c.run s).2 (c.onSingle m).2 := by
  -- one key, two keys, many keys, then the calls that list the keys in any order
  cases c with
  | onKey key f => exact h.onKey key f
  | rpoplpush now source destination => exact h.move Kind.list now _ _ _ _ _ source destination
  | smove now source destination member => exact h.move Kind.set now _ _ _ _ _ source destination
  | rename now key newKey => exact h.rename now key newKey
  | sinter env ks =>
      refine ⟨?_, h⟩
      show s.sinter env ks = m.sinter env ks
      unfold CacheStorage.sinter SingleMap.sinter
      exact h.snapshotSet env.now ▸ rfl
  | sunion env ks =>
      refine ⟨?_, h⟩
      show s.sunion env ks = m.sunion env ks
      unfold CacheStorage.sunion SingleMap.sunion
      exact h.snapshotSet env.now ▸ rfl
  | sdiff env ks =>
      refine ⟨?_, h⟩
      show s.sdiff env ks = m.sdiff env ks
      unfold CacheStorage.sdiff SingleMap.sdiff
      exact h.snapshotSet env.now ▸ rfl
  | existsCount now ks => exact ⟨h.existsCount now ks, h⟩
  | keys env pattern =>
      refine ⟨?_, h⟩
      show (s.keys env pattern).Perm (m.keys env.now pattern)
      rw [keys_eq]
      exact h.liveKeys.filter _
  | dbsize env =>
      refine ⟨?_, h⟩
      show s.dbsize env = m.dbsize env.now
      rw [dbsize_eq]
      exact h.liveKeys.length_eq
  | randomKey env =>
      refine ⟨fun hd => ?_, h⟩
      obtain ⟨hnone, hsome⟩ := randomKey_draws hd s
      have hlist : (List.finRange 64).flatMap (s.liveKeys env) = [] ↔ m.liveKeys env.now = [] := by
        rw [← List.length_eq_zero_iff, ← List.length_eq_zero_iff, h.liveKeys.length_eq]
      refine ⟨hnone.trans (hlist.trans ?_), fun k hk => h.liveKeys.mem_iff.mp (hsome k hk)⟩
      show m.liveKeys env.now = [] ↔ env.choose 0 (m.liveKeys env.now) = none
      constructor
      · intro hnil
        rw [hnil, hd.none]
      · intro hdraw
        by_contra hne
        obtain ⟨k, -, hk⟩ := hd.some 0 _ hne
        rw [hdraw] at hk
        cases hk
  | flushall => exact ⟨rfl, Represents.new⟩
  | cleanupExpired now => exact ⟨rfl, h.cleanupExpired now⟩
  | getAllEntries env => exact ⟨h.getAllEntries, h⟩

/-- The storage after a sequence of calls. -/
def afterCalls (calls : List StorageCall) (s : CacheStorage) : CacheStorage :=
  calls.foldl (fun s c => (c.run s).2) s

/-- The map after a sequence of calls. -/
def afterCallsSingle (calls : List StorageCall) (m : SingleMap) : SingleMap :=
  calls.foldl (fun m c => (c.onSingle m).2) m

theorem afterCalls_represents (calls : List StorageCall) {s : CacheStorage} {m : SingleMap} (h : Represents s m) :
    Represents (afterCalls calls s) (afterCallsSingle calls m) := by
  induction calls generalizing s m with
  | nil => exact h
  | cons c calls ih => exact ih (call_refines h c).2

/-- **The 64 shards refine one map.** After every sequence of calls from `new`, whatever the hash: the next call
    returns what it returns on one map; every stored key is in the shard its hash selects and in no other; `KEYS *`
    lists each live key once, `DBSIZE` is their number, and `get_all_entries` lists no key twice. -/
theorem sharded_refines_single (calls : List StorageCall) (c : StorageCall) (env : Env) :
    c.Same (afterCallsSingle calls SingleMap.new) (c.run (afterCalls calls CacheStorage.new)).1
        (c.onSingle (afterCallsSingle calls SingleMap.new)).1 ∧
      (∀ i k, k ∈ (afterCalls calls CacheStorage.new).shards i ↔
        i = shardIndex k ∧ ((afterCallsSingle calls SingleMap.new).slotAt k).isSome) ∧
      ((afterCalls calls CacheStorage.new).keys env (utf8 "*")).Nodup ∧
      (∀ k, k ∈ (afterCalls calls CacheStorage.new).keys env (utf8 "*") ↔
        ((afterCallsSingle calls SingleMap.new).live env.now k).isSome) ∧
      (afterCalls calls CacheStorage.new).dbsize env
        = ((afterCalls calls CacheStorage.new).keys env (utf8 "*")).length ∧
      (((afterCalls calls CacheStorage.new).getAllEntries env).map Prod.fst).Nodup := by
  have h := afterCalls_represents calls Represents.new
  generalize afterCalls calls CacheStorage.new = s at h
  generalize afterCallsSingle calls SingleMap.new = m at h
  have hall : s.keys env (utf8 "*") = (List.finRange 64).flatMap (s.liveKeys env) := by
    rw [keys_eq]
    exact List.filter_eq_self.mpr fun _ _ => rfl
  refine ⟨(call_refines h c).1, ?_, ?_, ?_, ?_, getAllEntries_nodup env s⟩
  · intro i k
    rw [← h k, CacheStorage.slotAt, ← Std.ExtTreeMap.isSome_getElem?_iff_mem]
    constructor
    · intro hk
      have hi := s.placed i k (Std.ExtTreeMap.isSome_getElem?_iff_mem.mp hk)
      subst hi
      exact ⟨rfl, hk⟩
    · rintro ⟨rfl, hk⟩
      exact hk
  · rw [hall]
    exact nodup_liveKeys_all env s
  · intro k
    rw [hall, h.liveKeys.mem_iff, SingleMap.mem_liveKeys]
  · rw [hall, dbsize_eq]

end FerricCache
