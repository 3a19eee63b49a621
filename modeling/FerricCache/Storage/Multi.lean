import FerricCache.Storage.Slot

/-!
# `FerricCache.Storage.Multi` — the operations of `CacheStorage` that look at several keys

The two-key moves (`rpoplpush`, `smove`, `rename`) lock one shard after the other: what the first
half did stays done when the second fails. The set algebra snapshots its operands one by one, and the
server-wide operations walk the shards in index order.
-/

namespace FerricCache

namespace CacheStorage

variable [KeyHash]

/-! ## Two-key moves -/

section Move

variable {τ α β : Type} (K : Kind τ) (now : Instant)

/-- The source half of a move: take from a live value, refuse an expired or another one. -/
def takeFrom (missing : α) (take : τ → α × τ) : Slot → Res α × Slot :=
  Slot.writeLive K now missing fun t => (.ok (take t).1, (take t).2)

/-- The destination half of a move: put into a live value, or into a fresh one. -/
def putInto (fresh : τ) (put : τ → τ) : Slot → Res Unit × Slot :=
  Slot.writeOrCreate K now (.ok ((), put fresh)) fun t => (.ok (), put t)

/-- The shape of `rpoplpush` and `smove`: the source's lock is released before the destination's is
    taken, and an error of the destination does not undo what was taken. -/
def move (missing : α) (take : τ → α × τ) (moved : α → Option β) (fresh : τ) (put : β → τ → τ)
    (source destination : Bytes) (s : CacheStorage) : Res α × CacheStorage :=
  match s.onKey source (takeFrom K now missing take) with
  | (.error e, s') => (.error e, s')
  | (.ok a, s') =>
      match moved a with
      | none => (.ok a, s')
      | some b =>
          match s'.onKey destination (putInto K now fresh (put b)) with
          | (.ok (), s'') => (.ok a, s'')
          | (.error e, s'') => (.error e, s'')

end Move

/-- `rpoplpush`: pop the source's tail, push it at the destination's head. -/
def rpoplpush (now : Instant) : Bytes → Bytes → CacheStorage → Res (Option Bytes) × CacheStorage :=
  move Kind.list now none ListValue.popRight id ListValue.new fun v l => l.pushLeft v

/-- `smove`: `if removed` is `moved`. -/
def smove (now : Instant) (source destination member : Bytes) :
    CacheStorage → Res Bool × CacheStorage :=
  move Kind.set now false (fun t => (t.contains member, t.remove member))
    (fun removed => if removed then some () else none) SetValue.new (fun () t => t.add member)
    source destination

/-- `rename`: the source is removed before its deadline is looked at. -/
def rename (now : Instant) (key newKey : Bytes) (s : CacheStorage) : Res Unit × CacheStorage :=
  match s.live now key with
  | some v => (.ok (), (s.setEntry key none).setEntry newKey (some v))
  | none => (.error Slot.noSuchKey, s.setEntry key none)

/-- `MSET`: one `set` without a deadline after the other. -/
def mset (pairs : List (Bytes × Bytes)) (s : CacheStorage) : CacheStorage :=
  pairs.foldl (fun s p => s.setEntry p.1 (some (.string p.2 none))) s

/-! ## Set algebra -/

/-- A fresh set with the given members added in turn. -/
def setOf (members : List Bytes) : SetValue := members.foldl SetValue.add SetValue.new

/-- The loop of `sinter` over the keys left, with its running `result`. -/
def sinterLoop (lookup : Bytes → Res (Option SetValue)) :
    Option SetValue → List Bytes → Res (Option SetValue)
  | result, [] => .ok result
  | result, key :: keys =>
      match lookup key with
      | .error e => .error e
      | .ok none => .ok none
      | .ok (some t) =>
          match result with
          | none => sinterLoop lookup (some t) keys
          | some res => sinterLoop lookup (some (setOf (res.intersection t))) keys

/-- The loop of `sunion`, and of `sdiff` over the keys after the first: a missing set is skipped. -/
def setLoop (lookup : Bytes → Res (Option SetValue)) (combine : SetValue → SetValue → SetValue) :
    SetValue → List Bytes → Res SetValue
  | result, [] => .ok result
  | result, key :: keys =>
      match lookup key with
      | .error e => .error e
      | .ok none => setLoop lookup combine result keys
      | .ok (some t) => setLoop lookup combine (combine result t) keys

/-- `snapshot_set` on the shard that owns the key. -/
def snapshotSet (now : Instant) (s : CacheStorage) (key : Bytes) : Res (Option SetValue) :=
  Slot.snapshotSet now (s.slotAt key)

def sinter (env : Env) (keys : List Bytes) (s : CacheStorage) : Res (List Bytes) :=
  match sinterLoop (s.snapshotSet env.now) none keys with
  | .ok result => .ok ((result.map fun t => t.getAll (env.iterPos none)).getD [])
  | .error e => .error e

def sunion (env : Env) (keys : List Bytes) (s : CacheStorage) : Res (List Bytes) :=
  match setLoop (s.snapshotSet env.now)
      (fun result t => (t.getAll (env.iterPos none)).foldl SetValue.add result) SetValue.new keys with
  | .ok result => .ok (result.getAll (env.iterPos none))
  | .error e => .error e

def sdiff (env : Env) (keys : List Bytes) (s : CacheStorage) : Res (List Bytes) :=
  match keys with
  | [] => .ok []
  | first :: rest =>
      match s.snapshotSet env.now first with
      | .error e => .error e
      | .ok none => .ok []
      | .ok (some t) =>
          match setLoop (s.snapshotSet env.now) (fun result u => setOf (result.difference u)) t rest with
          | .ok result => .ok (result.getAll (env.iterPos none))
          | .error e => .error e

/-! ## Server-wide operations -/

/-- `exists`: how many of the listed keys are live, repetitions counted. -/
def existsCount (now : Instant) (keys : List Bytes) (s : CacheStorage) : Nat :=
  (keys.filter fun k => (s.live now k).isSome).length

/-- The live keys of one shard in its iteration order. -/
def liveKeys (env : Env) (s : CacheStorage) (i : Fin 64) : List Bytes :=
  ((iterate (env.iterPos none) Prod.fst (s.shards i).toList).filter
    fun p => !p.2.isExpired env.now).map Prod.fst

/-- `matches_pattern_static`: the pattern without its `*`s occurs in the key's text. -/
def matchesPattern (key pattern : Bytes) : Bool :=
  pattern == [42] || (lossy key).tails.any (pattern.filter (· != 42)).isPrefixOf

/-- `keys`. -/
def keys (env : Env) (pattern : Bytes) (s : CacheStorage) : List Bytes :=
  (List.finRange 64).flatMap fun i => (s.liveKeys env i).filter (matchesPattern · pattern)

def dbsize (env : Env) (s : CacheStorage) : Nat :=
  ((List.finRange 64).map fun i => (s.liveKeys env i).length).sum

/-- `random_key`: the first shard in a random order that has a live key supplies one. -/
def randomKey (env : Env) (s : CacheStorage) : Option Bytes :=
  (env.shuffle (List.finRange 64)).findSome? fun i => env.choose i.val (s.liveKeys env i)

/-- One shard's contents in iteration order. -/
def shardEntries (env : Env) (s : CacheStorage) (i : Fin 64) : List (Bytes × CacheValue) :=
  iterate (env.iterPos none) Prod.fst (s.shards i).toList

/-- `get_all_entries`: the shards copied one after the other. -/
def getAllEntries (env : Env) (s : CacheStorage) : List (Bytes × CacheValue) :=
  (List.finRange 64).flatMap (s.shardEntries env)

end CacheStorage

variable [KeyHash]

/-! ## What is listed -/

/-- Exactly what is stored is listed. -/
theorem mem_getAllEntries (env : Env) {s : CacheStorage} {k : Bytes} {v : CacheValue} :
    (k, v) ∈ s.getAllEntries env ↔ s.slotAt k = some v := by
  simp only [CacheStorage.getAllEntries, CacheStorage.shardEntries, List.mem_flatMap, mem_iterate,
    List.mem_finRange, true_and, Std.ExtTreeMap.mem_toList_iff_getElem?_eq_some]
  constructor
  · rintro ⟨i, hi⟩
    have hmem : k ∈ s.shards i := Std.ExtTreeMap.isSome_getElem?_iff_mem.mp (by rw [hi]; rfl)
    have hplaced := s.placed i k hmem
    subst hplaced
    exact hi
  · intro h
    exact ⟨shardIndex k, h⟩

/-- No key is listed twice. -/
theorem getAllEntries_distinct (env : Env) (s : CacheStorage) :
    (s.getAllEntries env).Pairwise fun p q => p.1 ≠ q.1 := by
  unfold CacheStorage.getAllEntries CacheStorage.shardEntries
  rw [List.pairwise_flatMap]
  constructor
  · intro i _
    refine ((iterate_perm _ _ _).pairwise_iff fun {_ _} hne he => hne he.symm).mpr ?_
    refine (s.shards i).distinct_keys_toList.imp ?_
    intro p q hne he
    exact hne (by rw [he]; exact Std.ReflCmp.compare_self)
  · refine List.Pairwise.imp ?_ (List.nodup_finRange 64)
    rintro i j hij ⟨k, v⟩ hp ⟨k', v'⟩ hq hkk
    obtain rfl : k = k' := hkk
    have hin : ∀ {i v}, (k, v) ∈ iterate (env.iterPos none) Prod.fst (s.shards i).toList →
        shardIndex k = i := by
      intro i v h
      have hget := Std.ExtTreeMap.mem_toList_iff_getElem?_eq_some.mp (mem_iterate.mp h)
      exact s.placed i k (Std.ExtTreeMap.isSome_getElem?_iff_mem.mp (by rw [hget]; rfl))
    exact hij ((hin hp).symm.trans (hin hq))

end FerricCache
