import FerricCache.Data.PopOrder
import FerricCache.Storage.Slot

/-!
# `FerricCache.Storage.Tallies` — the counts that the collection writes return

`SADD`, `SREM`, `ZREM` and `HDEL` count inside their loop what the table says of each argument, on the value that the
arguments before it left: a step that adds or drops one counts one (`countLoop_adds`, `countLoop_drops`). The pushes
return the length they leave. `ZADD` counts its arguments: that is the change of the set only when they name distinct
members and none of them is there yet (`zadd_adds_iff`).
-/

namespace FerricCache

open Lib

/-! ## The loop -/

section Loop

variable {τ : Type} (step : τ → Bytes → Bool × τ) (size : τ → Nat)

/-- A step that adds one when it says so. -/
theorem countLoop_adds (h : ∀ t m, size (step t m).2 = size t + (step t m).1.toNat) (t : τ) (ms : List Bytes) :
    (Slot.countLoop step t ms).1 + size t = size (Slot.countLoop step t ms).2 := by
  induction ms generalizing t with
  | nil => exact Nat.zero_add _
  | cons m ms ih =>
      have hstep := h t m
      have hrest := ih (step t m).2
      rw [Slot.countLoop]
      dsimp only
      omega

/-- A step that drops one when it says so. -/
theorem countLoop_drops (h : ∀ t m, size (step t m).2 + (step t m).1.toNat = size t) (t : τ) (ms : List Bytes) :
    (Slot.countLoop step t ms).1 + size (Slot.countLoop step t ms).2 = size t := by
  induction ms generalizing t with
  | nil => exact Nat.zero_add _
  | cons m ms ih =>
      have hstep := h t m
      have hrest := ih (step t m).2
      rw [Slot.countLoop]
      dsimp only
      omega

end Loop

theorem SetValue.len_add (t : SetValue) (m : Bytes) : (t.add m).len = t.len + (!t.contains m).toNat :=
  Tables.size_insert_set t.members m

theorem SetValue.len_remove (t : SetValue) (m : Bytes) : (t.remove m).len + (t.contains m).toNat = t.len :=
  Tables.size_erase_set t.members m

theorem HashValue.len_deleteField (h : HashValue) (field : Bytes) :
    (h.deleteField field).len + (h.getField field).isSome.toNat = h.len := by
  unfold deleteField len getField
  rw [Std.ExtTreeMap.isSome_getElem?_eq_contains]
  exact Tables.size_erase_map h.fields field

theorem SortedSetValue.len_remove_add (z : SortedSetValue) (m : Bytes) :
    (z.remove m).len + (z.getScore m).isSome.toNat = z.len := by
  unfold len getScore
  rw [memberScores_remove, Std.ExtTreeMap.isSome_getElem?_eq_contains]
  exact Tables.size_erase_map z.memberScores m

theorem ListValue.len_foldl_pushLeft (l : ListValue) (values : List Bytes) :
    (values.foldl pushLeft l).len = l.len + values.length := by
  induction values generalizing l with
  | nil => rfl
  | cons v values ih =>
      rw [List.foldl_cons, ih, List.length_cons]
      show l.items.length + 1 + values.length = l.items.length + (values.length + 1)
      omega

theorem ListValue.len_foldl_pushRight (l : ListValue) (values : List Bytes) :
    (values.foldl pushRight l).len = l.len + values.length := by
  induction values generalizing l with
  | nil => rfl
  | cons v values ih =>
      rw [List.foldl_cons, ih, List.length_cons]
      show (l.items ++ [v]).length + values.length = l.items.length + (values.length + 1)
      rw [List.length_append, List.length_singleton]
      omega

/-! ## The operations -/

namespace Slot

/-- How many elements the collection at a key has. -/
def card : Slot → Nat
  | some (.hash h) => h.len
  | some (.list l) => l.len
  | some (.set t) => t.len
  | some (.sortedSet z) => z.len
  | _ => 0

/-- The key is absent or holds a live value of this type. -/
def FreeFor {τ : Type} (K : Kind τ) (now : Instant) (slot : Slot) : Prop :=
  slot = none ∨ ∃ t, slot.live now = some (K.of t)

/-- It is one or the other, whatever the clock says. -/
theorem FreeFor.cases {τ : Type} {K : Kind τ} {now : Instant} {slot : Slot} (h : slot.FreeFor K now) :
    slot = none ∨ ∃ t, slot = some (K.of t) :=
  h.imp_right fun ⟨t, ht⟩ => ⟨t, (live_eq_some.mp ht).1⟩

end Slot

section Counts

variable [KeyHash] (s : CacheStorage) (key : Bytes)

/-- What the operation returns is the cardinality after less the cardinality before. -/
def CountsAdded (f : Slot → Res Nat × Slot) : Prop :=
  ∃ n, (s.onKey key f).1 = .ok n ∧ n + (s.slotAt key).card = ((s.onKey key f).2.slotAt key).card

/-- What it returns is the cardinality before less the cardinality after. -/
def CountsDropped (f : Slot → Res Nat × Slot) : Prop :=
  ∃ n, (s.onKey key f).1 = .ok n ∧ n + ((s.onKey key f).2.slotAt key).card = (s.slotAt key).card

/-- It returns the new length, which is the old one with `added` more. -/
def ReturnsLength (added : Nat) (f : Slot → Res Nat × Slot) : Prop :=
  (s.onKey key f).1 = .ok ((s.onKey key f).2.slotAt key).card ∧
    ((s.onKey key f).2.slotAt key).card = (s.slotAt key).card + added

variable {s key} {now : Instant}

theorem slotAt_onKey {α : Type} (f : Slot → α × Slot) : (s.onKey key f).2.slotAt key = (f (s.slotAt key)).2 :=
  CacheStorage.slotAt_setEntry_self _ _ _

theorem sadd_counts (h : (s.slotAt key).FreeFor Kind.set now) (members : List Bytes) :
    CountsAdded s key (Slot.sadd members) := by
  have hadd := countLoop_adds (fun (t : SetValue) m => (!t.contains m, t.add m)) SetValue.len SetValue.len_add
  unfold CountsAdded
  rw [slotAt_onKey]
  rcases h.cases with hslot | ⟨t, hslot⟩
  · rw [CacheStorage.onKey, hslot]
    exact ⟨_, rfl, hadd SetValue.new members⟩
  · rw [CacheStorage.onKey, hslot]
    exact ⟨_, rfl, hadd t members⟩

theorem srem_counts (h : (s.slotAt key).FreeFor Kind.set now) (members : List Bytes) :
    CountsDropped s key (Slot.srem members) := by
  have hdrop := countLoop_drops (fun (t : SetValue) m => (t.contains m, t.remove m)) SetValue.len SetValue.len_remove
  unfold CountsDropped
  rw [slotAt_onKey]
  rcases h.cases with hslot | ⟨t, hslot⟩
  · rw [CacheStorage.onKey, hslot]
    exact ⟨0, rfl, rfl⟩
  · rw [CacheStorage.onKey, hslot]
    exact ⟨_, rfl, hdrop t members⟩

theorem hdel_counts (h : (s.slotAt key).FreeFor Kind.hash now) (fields : List Bytes) :
    CountsDropped s key (Slot.hdel fields) := by
  have hdrop := countLoop_drops (fun (t : HashValue) f => ((t.getField f).isSome, t.deleteField f)) HashValue.len
    HashValue.len_deleteField
  unfold CountsDropped
  rw [slotAt_onKey]
  rcases h.cases with hslot | ⟨t, hslot⟩
  · rw [CacheStorage.onKey, hslot]
    exact ⟨0, rfl, rfl⟩
  · rw [CacheStorage.onKey, hslot]
    exact ⟨_, rfl, hdrop t fields⟩

theorem zrem_counts (h : (s.slotAt key).FreeFor Kind.sortedSet now) (members : List Bytes) :
    CountsDropped s key (Slot.zrem members) := by
  have hdrop := countLoop_drops (fun (z : SortedSetValue) m => ((z.getScore m).isSome, z.remove m)) SortedSetValue.len
    SortedSetValue.len_remove_add
  unfold CountsDropped
  rw [slotAt_onKey]
  rcases h.cases with hslot | ⟨t, hslot⟩
  · rw [CacheStorage.onKey, hslot]
    exact ⟨0, rfl, rfl⟩
  · rw [CacheStorage.onKey, hslot]
    exact ⟨_, rfl, hdrop t members⟩

theorem lpush_length (h : (s.slotAt key).FreeFor Kind.list now) (values : List Bytes) :
    ReturnsLength s key values.length (Slot.lpush values) := by
  unfold ReturnsLength
  rw [slotAt_onKey]
  rcases h.cases with hslot | ⟨l, hslot⟩
  · rw [CacheStorage.onKey, hslot]
    exact ⟨rfl, ListValue.new.len_foldl_pushLeft values⟩
  · rw [CacheStorage.onKey, hslot]
    exact ⟨rfl, l.len_foldl_pushLeft values⟩

theorem rpush_length (h : (s.slotAt key).FreeFor Kind.list now) (values : List Bytes) :
    ReturnsLength s key values.length (Slot.rpush values) := by
  unfold ReturnsLength
  rw [slotAt_onKey]
  rcases h.cases with hslot | ⟨l, hslot⟩
  · rw [CacheStorage.onKey, hslot]
    exact ⟨rfl, ListValue.new.len_foldl_pushRight values⟩
  · rw [CacheStorage.onKey, hslot]
    exact ⟨rfl, l.len_foldl_pushRight values⟩

/-- `ZADD` returns the number of its arguments, whatever they are. -/
theorem zadd_adds_iff (h : (s.slotAt key).FreeFor Kind.sortedSet now) (members : List (F64 × Bytes)) :
    CountsAdded s key (Slot.zadd members) ↔
      (members.map Prod.snd).Nodup ∧ ∀ m ∈ members.map Prod.snd, Slot.zscore now m (s.slotAt key) = .ok none := by
  have hadded : ∀ z : SortedSetValue,
      members.length + z.len = (members.foldl (fun z p => z.add p.1 p.2) z).len ↔
        (members.map Prod.snd).Nodup ∧ ∀ m ∈ members.map Prod.snd, z.getScore m = none := by
    intro z
    have hiff := (Tables.size_insertAll z.memberScores (members.map Prod.swap)).2
    rw [← SortedSetValue.foldl_add_scores, List.length_map, List.map_map] at hiff
    rw [Nat.add_comm, eq_comm]
    refine hiff.trans (and_congr_right fun _ => forall₂_congr fun m _ => ?_)
    rw [← Std.ExtTreeMap.isSome_getElem?_iff_mem, Bool.not_eq_true, Option.isSome_eq_false_iff,
      Option.isNone_iff_eq_none]
    rfl
  have hreturns : ∀ {before after : Nat}, (∃ n, (Except.ok members.length : Res Nat) = .ok n ∧ n + before = after) ↔
      members.length + before = after := by
    intro before after
    constructor
    · rintro ⟨n, hn, heq⟩
      cases hn
      exact heq
    · intro heq
      exact ⟨_, rfl, heq⟩
  unfold CountsAdded
  rw [slotAt_onKey]
  rcases h with hslot | ⟨z, hlive⟩
  · rw [CacheStorage.onKey, hslot]
    refine (hreturns.trans (hadded SortedSetValue.new)).trans (and_congr_right fun _ => ?_)
    exact iff_of_true (fun _ _ => rfl) fun _ _ => rfl
  · obtain ⟨hslot, hfresh⟩ := Slot.live_eq_some.mp hlive
    rw [CacheStorage.onKey, hslot]
    refine (hreturns.trans (hadded z)).trans (and_congr_right fun _ => forall₂_congr fun m _ => ?_)
    have hscore : Slot.zscore now m (some (Kind.sortedSet.of z)) = .ok (z.getScore m) := by
      show Except.ok (if (CacheValue.sortedSet z).isExpired now then none else z.getScore m) = _
      rw [if_neg (by rw [show (CacheValue.sortedSet z).isExpired now = false from hfresh]; exact Bool.false_ne_true)]
    rw [hscore, Except.ok.injEq]

/-- **The returned counts are the change in cardinality**, of an absent or live key of the right type and for every
    argument list, with the exception of `ZADD`: it is right exactly when its members are distinct and none of them is
    in the sorted set yet. -/
theorem counts_are_changes_iff (now : Instant) (s : CacheStorage) (key : Bytes) :
    ((s.slotAt key).FreeFor Kind.set now →
      ∀ members, CountsAdded s key (Slot.sadd members) ∧ CountsDropped s key (Slot.srem members)) ∧
    ((s.slotAt key).FreeFor Kind.hash now → ∀ fields, CountsDropped s key (Slot.hdel fields)) ∧
    ((s.slotAt key).FreeFor Kind.list now →
      ∀ values, ReturnsLength s key values.length (Slot.lpush values) ∧
        ReturnsLength s key values.length (Slot.rpush values)) ∧
    ((s.slotAt key).FreeFor Kind.sortedSet now →
      (∀ members, CountsDropped s key (Slot.zrem members)) ∧
      ∀ members, CountsAdded s key (Slot.zadd members) ↔ (members.map Prod.snd).Nodup ∧
        ∀ m ∈ members.map Prod.snd, Slot.zscore now m (s.slotAt key) = .ok none) :=
  ⟨fun h members => ⟨sadd_counts h members, srem_counts h members⟩, fun h => hdel_counts h,
    fun h values => ⟨lpush_length h values, rpush_length h values⟩, fun h => ⟨zrem_counts h, zadd_adds_iff h⟩⟩

omit [KeyHash] in
/-- A set of one member, and an absent key, each given two new members. -/
theorem counts_are_changes_iff_two :
    let _ := shortKeys
    let s := CacheStorage.new.setEntry (utf8 "s") (some (.set (SetValue.new.add (utf8 "a"))))
    CountsAdded s (utf8 "s") (Slot.sadd [utf8 "b", utf8 "b", utf8 "c"]) ∧
      CountsAdded s (utf8 "z") (Slot.zadd [(.fin 1, utf8 "a"), (.fin 2, utf8 "b")]) := by
  intro _ s
  have hset : s.slotAt (utf8 "s") = some (.set (SetValue.new.add (utf8 "a"))) :=
    CacheStorage.slotAt_setEntry_self _ _ _
  have hnone : s.slotAt (utf8 "z") = none := by
    rw [CacheStorage.slotAt_setEntry_ne (by decide), CacheStorage.slotAt_new]
  have hlive : (s.slotAt (utf8 "s")).FreeFor Kind.set 0 := by
    right
    exact ⟨SetValue.new.add (utf8 "a"), by rw [hset]; rfl⟩
  constructor
  · exact ((counts_are_changes_iff 0 s (utf8 "s")).1 hlive _).1
  · refine (((counts_are_changes_iff 0 s (utf8 "z")).2.2.2 (Or.inl hnone)).2 _).mpr ⟨by decide, ?_⟩
    rw [hnone]
    exact fun _ _ => rfl

omit [KeyHash] in
/-- `ZADD z 1 a 2 a` of an absent key returns 2 and leaves one member; `ZADD z 5 a` of that set returns 1 and adds
    none. -/
theorem zadd_counts_arguments :
    let _ := shortKeys
    let s := CacheStorage.new.setEntry (utf8 "z") (some (.sortedSet (SortedSetValue.new.add (.fin 1) (utf8 "a"))))
    (∀ now, (CacheStorage.new.slotAt (utf8 "z")).FreeFor Kind.sortedSet now ∧
      (s.slotAt (utf8 "z")).FreeFor Kind.sortedSet now) ∧
      ¬ CountsAdded CacheStorage.new (utf8 "z") (Slot.zadd [(.fin 1, utf8 "a"), (.fin 2, utf8 "a")]) ∧
      ¬ CountsAdded s (utf8 "z") (Slot.zadd [(.fin 5, utf8 "a")]) := by
  intro _ s
  have hnone : CacheStorage.new.slotAt (utf8 "z") = none := CacheStorage.slotAt_new _
  have hset : s.slotAt (utf8 "z") = some (.sortedSet (SortedSetValue.new.add (.fin 1) (utf8 "a"))) :=
    CacheStorage.slotAt_setEntry_self _ _ _
  refine ⟨fun now => ⟨Or.inl hnone, Or.inr ⟨_, by rw [hset]; rfl⟩⟩, ?_, ?_⟩
  · unfold CountsAdded
    rw [slotAt_onKey, CacheStorage.onKey, hnone]
    rintro ⟨n, hn, hcount⟩
    cases hn
    exact absurd hcount (by decide)
  · unfold CountsAdded
    rw [slotAt_onKey, CacheStorage.onKey, hset]
    rintro ⟨n, hn, hcount⟩
    cases hn
    exact absurd hcount (by decide)

end Counts

end FerricCache
