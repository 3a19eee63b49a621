import FerricCache.Lib.Tables
import FerricCache.Storage.Multi
import Mathlib.Data.Set.Lattice

/-!
# `FerricCache.Storage.Algebra` — the set algebra over the keys

`sinter`, `sunion` and `sdiff` each fold over their keys, look at one key at a time and leave early in ways of their
own. `setAt` is what they compute with: the members of a live set, and nothing for a key that is missing, expired or
of another type. When they return members, these are the intersection, the union and the difference of the sets at
their keys, each member once (`set_algebra_exact`), and a wrong type is refused wherever the loop comes to it.
-/

namespace FerricCache

/-! ## Folds of sets -/

section Folds

variable {ι α : Type} (f : ι → Set α) (A : Set α) (l : List ι)

theorem foldl_inter : l.foldl (fun B i => B ∩ f i) A = A ∩ ⋂ i ∈ l, f i := by
  induction l generalizing A with
  | nil => simp
  | cons i l ih =>
      rw [List.foldl_cons, ih, Set.inter_assoc]
      congr 1
      ext a
      simp

theorem foldl_union : l.foldl (fun B i => B ∪ f i) A = A ∪ ⋃ i ∈ l, f i := by
  induction l generalizing A with
  | nil => simp
  | cons i l ih =>
      rw [List.foldl_cons, ih, Set.union_assoc]
      congr 1
      ext a
      simp

theorem foldl_sdiff : l.foldl (fun B i => B \ f i) A = A \ ⋃ i ∈ l, f i := by
  induction l generalizing A with
  | nil => simp
  | cons i l ih =>
      rw [List.foldl_cons, ih, Set.sdiff_sdiff]
      congr 1
      ext a
      simp

end Folds

/-! ## A set and its members -/

/-- The members of a set. -/
def SetValue.toSet (t : SetValue) : Set Bytes := {m | m ∈ t.members}

namespace SetValue

variable (t u : SetValue) (pos : Bytes → Nat)

theorem mem_getAll {m : Bytes} : m ∈ t.getAll pos ↔ m ∈ t.toSet :=
  mem_iterate.trans Std.ExtTreeSet.mem_toList

/-- No member is listed twice. -/
theorem nodup_getAll : (t.getAll pos).Nodup := by
  refine (iterate_perm pos id t.members.toList).nodup_iff.mpr ?_
  refine t.members.distinct_toList.imp ?_
  intro m m' hne he
  exact hne (by rw [he]; exact Std.ReflCmp.compare_self)

theorem members_foldl_add (l : List Bytes) :
    (l.foldl add t).members = l.foldl (fun s m => s.insert m) t.members := by
  induction l generalizing t with
  | nil => rfl
  | cons m l ih => exact ih (t.add m)

theorem mem_foldl_add {l : List Bytes} {m : Bytes} : m ∈ (l.foldl add t).toSet ↔ m ∈ l ∨ m ∈ t.toSet := by
  show m ∈ (l.foldl add t).members ↔ _
  rw [members_foldl_add]
  exact Lib.Tables.mem_foldl_insert t.members l

theorem toSet_new : new.toSet = ∅ := by
  ext m
  exact iff_of_false Std.ExtTreeSet.not_mem_empty (Set.notMem_empty m)

theorem mem_setOf {l : List Bytes} {m : Bytes} : m ∈ (CacheStorage.setOf l).toSet ↔ m ∈ l := by
  unfold CacheStorage.setOf
  rw [mem_foldl_add, toSet_new]
  exact or_iff_left (Set.notMem_empty m)

theorem contains_iff {m : Bytes} : t.contains m = true ↔ m ∈ t.toSet := Std.ExtTreeSet.contains_iff_mem

/-- The next set of the loop of `sinter`. -/
theorem toSet_intersection : (CacheStorage.setOf (t.intersection u)).toSet = t.toSet ∩ u.toSet := by
  ext m
  rw [mem_setOf, intersection, List.mem_filter, Std.ExtTreeSet.mem_toList, contains_iff]
  rfl

/-- The next set of the loop of `sunion`. -/
theorem toSet_union : ((u.getAll pos).foldl add t).toSet = t.toSet ∪ u.toSet := by
  ext m
  rw [mem_foldl_add, mem_getAll, Set.mem_union, or_comm]

/-- The next set of the loop of `sdiff`. -/
theorem toSet_difference : (CacheStorage.setOf (t.difference u)).toSet = t.toSet \ u.toSet := by
  ext m
  rw [mem_setOf, difference, List.mem_filter, Std.ExtTreeSet.mem_toList, Bool.not_eq_true', ← Bool.not_eq_true,
    contains_iff]
  rfl

end SetValue

/-! ## What a key stands for -/

variable [KeyHash]

namespace CacheStorage

/-- The members of the live set at a key; nothing when there is none. -/
def setAt (now : Instant) (s : CacheStorage) (key : Bytes) : Set Bytes :=
  {m | ∃ t, s.live now key = some (.set t) ∧ m ∈ t.toSet}

/-- The key holds a value of another type, live or not. -/
def NotASet (s : CacheStorage) (key : Bytes) : Prop := ∃ v, s.slotAt key = some v ∧ ∀ t, v ≠ .set t

variable {now : Instant} {s : CacheStorage} {key : Bytes} {keys : List Bytes}

theorem setAt_live {t : SetValue} (h : s.live now key = some (.set t)) : s.setAt now key = t.toSet := by
  ext m
  constructor
  · rintro ⟨u, hu, hm⟩
    cases h.symm.trans hu
    exact hm
  · intro hm
    exact ⟨t, h, hm⟩

/-- **What a snapshot of a key says.** -/
theorem snapshotSet_cases (now : Instant) (s : CacheStorage) (key : Bytes) :
    (s.NotASet key ∧ s.snapshotSet now key = .error wrongType) ∨
      (¬ s.NotASet key ∧ (∀ t, s.live now key ≠ some (.set t)) ∧ s.snapshotSet now key = .ok none) ∨
      ∃ t, ¬ s.NotASet key ∧ s.live now key = some (.set t) ∧ s.snapshotSet now key = .ok (some t) := by
  cases hslot : s.slotAt key with
  | none =>
      -- nothing there
      right
      left
      refine ⟨?_, ?_, ?_⟩
      · rintro ⟨v, hv, -⟩
        cases hslot.symm.trans hv
      · intro t ht
        cases hslot.symm.trans (Slot.live_eq_some.mp ht).1
      · rw [snapshotSet, hslot]
        rfl
  | some v =>
      cases v with
      | set t =>
          have hset : ¬ s.NotASet key := by
            rintro ⟨v, hv, hother⟩
            cases hslot.symm.trans hv
            exact hother t rfl
          have hsnap : s.snapshotSet now key = .ok (if (CacheValue.set t).isExpired now then none else some t) := by
            rw [snapshotSet, hslot]
            rfl
          right
          cases hx : (CacheValue.set t).isExpired now with
          | true =>
              left
              refine ⟨hset, ?_, by rw [hsnap, hx]; rfl⟩
              intro u hu
              obtain ⟨hu, hfresh⟩ := Slot.live_eq_some.mp hu
              cases hslot.symm.trans hu
              cases hx.symm.trans hfresh
          | false =>
              right
              exact ⟨t, hset, Slot.live_eq_some.mpr ⟨hslot, hx⟩, by rw [hsnap, hx]; rfl⟩
      | string _ _ | hash _ | list _ | sortedSet _ | stream _ =>
          left
          refine ⟨⟨_, hslot, fun t h => by cases h⟩, ?_⟩
          rw [snapshotSet, hslot]
          rfl

theorem setAt_missing (h : ∀ t, s.live now key ≠ some (.set t)) : s.setAt now key = ∅ := by
  ext m
  refine iff_of_false ?_ (Set.notMem_empty m)
  rintro ⟨t, ht, -⟩
  exact h t ht

/-! ## The loops -/

/-- **The loop of `sunion` and `sdiff`** folds the operation of its step over the sets at its keys; a key without a
    set is skipped, which the operation would do too. -/
theorem setLoop_ok {combine : SetValue → SetValue → SetValue} (op : Set Bytes → Set Bytes → Set Bytes)
    (hop : ∀ t u, (combine t u).toSet = op t.toSet u.toSet) (hskip : ∀ A, op A ∅ = A) {t r : SetValue}
    (h : setLoop (s.snapshotSet now) combine t keys = .ok r) :
    r.toSet = keys.foldl (fun A k => op A (s.setAt now k)) t.toSet := by
  induction keys generalizing t with
  | nil =>
      cases h
      rfl
  | cons key keys ih =>
      rw [setLoop] at h
      rw [List.foldl_cons]
      rcases snapshotSet_cases now s key with ⟨-, hsnap⟩ | ⟨-, hmissing, hsnap⟩ | ⟨u, -, hlive, hsnap⟩
      · rw [hsnap] at h
        cases h
      · rw [hsnap] at h
        rw [setAt_missing hmissing, hskip]
        exact ih h
      · rw [hsnap] at h
        rw [setAt_live hlive, ← hop]
        exact ih h

/-- It fails at the first key that holds another type, and only there. -/
theorem setLoop_error_iff (now : Instant) (combine : SetValue → SetValue → SetValue) (t : SetValue) :
    (∃ e, setLoop (s.snapshotSet now) combine t keys = .error e) ↔ ∃ k ∈ keys, s.NotASet k := by
  induction keys generalizing t with
  | nil => simp [setLoop]
  | cons key keys ih =>
      rw [setLoop]
      rcases snapshotSet_cases now s key with ⟨hother, hsnap⟩ | ⟨hset, -, hsnap⟩ | ⟨u, hset, -, hsnap⟩
      · rw [hsnap]
        exact iff_of_true ⟨wrongType, rfl⟩ ⟨key, List.mem_cons_self, hother⟩
      all_goals
        rw [hsnap]
        refine (ih _).trans ?_
        rw [List.exists_mem_cons_iff]
        exact (or_iff_right hset).symm

/-- **The loop of `sinter`** with a set in hand: an empty set at a key ends it with nothing. -/
theorem sinterLoop_ok {t : SetValue} {r : Option SetValue}
    (h : sinterLoop (s.snapshotSet now) (some t) keys = .ok r) :
    {m | ∃ u, r = some u ∧ m ∈ u.toSet} = keys.foldl (fun A k => A ∩ s.setAt now k) t.toSet := by
  induction keys generalizing t with
  | nil =>
      cases h
      ext m
      simp
  | cons key keys ih =>
      rw [sinterLoop] at h
      rw [List.foldl_cons]
      rcases snapshotSet_cases now s key with ⟨-, hsnap⟩ | ⟨-, hmissing, hsnap⟩ | ⟨u, -, hlive, hsnap⟩
      · rw [hsnap] at h
        cases h
      · rw [hsnap] at h
        cases h
        rw [foldl_inter, setAt_missing hmissing, Set.inter_empty, Set.empty_inter]
        ext m
        simp
      · rw [hsnap] at h
        rw [setAt_live hlive, ← SetValue.toSet_intersection]
        exact ih h

/-! ## The operations -/

theorem sinter_ok {env : Env} {out : List Bytes} (hkeys : keys ≠ []) (h : s.sinter env keys = .ok out) :
    out.Nodup ∧ {m | m ∈ out} = ⋂ k ∈ keys, s.setAt env.now k := by
  unfold sinter at h
  split at h
  · rename_i r hr
    cases h
    have hmem : {m | m ∈ ((r.map fun t => t.getAll (env.iterPos none)).getD [])}
        = {m | ∃ u, r = some u ∧ m ∈ u.toSet} := by
      ext m
      cases r with
      | none => simp
      | some u => simp [SetValue.mem_getAll]
    constructor
    · cases r with
      | none => exact List.nodup_nil
      | some u => exact u.nodup_getAll _
    · rw [hmem]
      cases keys with
      | nil => exact absurd rfl hkeys
      | cons key keys =>
          -- the first set is taken as it is
          rw [sinterLoop] at hr
          have hcons : ⋂ k ∈ key :: keys, s.setAt env.now k = s.setAt env.now key ∩ ⋂ k ∈ keys, s.setAt env.now k := by
            ext m
            simp
          rw [hcons]
          rcases snapshotSet_cases env.now s key with ⟨-, hsnap⟩ | ⟨-, hmissing, hsnap⟩ | ⟨u, -, hlive, hsnap⟩
          · rw [hsnap] at hr
            cases hr
          · rw [hsnap] at hr
            cases hr
            rw [setAt_missing hmissing, Set.empty_inter]
            ext m
            simp
          · rw [hsnap] at hr
            rw [sinterLoop_ok hr, foldl_inter, setAt_live hlive]
  · cases h

theorem sunion_ok {env : Env} {out : List Bytes} (h : s.sunion env keys = .ok out) :
    out.Nodup ∧ {m | m ∈ out} = ⋃ k ∈ keys, s.setAt env.now k := by
  unfold sunion at h
  split at h
  · rename_i r hr
    cases h
    refine ⟨r.nodup_getAll _, ?_⟩
    have hset := setLoop_ok (fun A B => A ∪ B) (fun t u => t.toSet_union u _) Set.union_empty hr
    rw [foldl_union, SetValue.toSet_new, Set.empty_union] at hset
    rw [← hset]
    ext m
    exact r.mem_getAll _
  · cases h

theorem sdiff_ok {env : Env} {out : List Bytes} {key : Bytes} (h : s.sdiff env (key :: keys) = .ok out) :
    out.Nodup ∧ {m | m ∈ out} = s.setAt env.now key \ ⋃ k ∈ keys, s.setAt env.now k := by
  unfold sdiff at h
  rcases snapshotSet_cases env.now s key with ⟨-, hsnap⟩ | ⟨-, hmissing, hsnap⟩ | ⟨t, -, hlive, hsnap⟩
  · simp only [hsnap] at h
    cases h
  · simp only [hsnap] at h
    cases h
    refine ⟨List.nodup_nil, ?_⟩
    rw [setAt_missing hmissing, Set.empty_sdiff]
    ext m
    simp
  · simp only [hsnap] at h
    split at h
    · rename_i r hr
      cases h
      refine ⟨r.nodup_getAll _, ?_⟩
      have hset := setLoop_ok (fun A B => A \ B) (fun t u => t.toSet_difference u) (fun A => Set.sdiff_empty) hr
      rw [foldl_sdiff] at hset
      rw [setAt_live hlive, ← hset]
      ext m
      exact r.mem_getAll _
    · cases h

theorem sunion_error_iff {env : Env} : (∃ e, s.sunion env keys = .error e) ↔ ∃ k ∈ keys, s.NotASet k := by
  rw [← setLoop_error_iff env.now (fun result t => (t.getAll (env.iterPos none)).foldl SetValue.add result)
    SetValue.new]
  unfold sunion
  split
  · rename_i r hr
    rw [hr]
    exact iff_of_false (fun ⟨_, h⟩ => by cases h) (fun ⟨_, h⟩ => by cases h)
  · rename_i e he
    exact iff_of_true ⟨e, rfl⟩ ⟨e, he⟩

theorem sdiff_error_iff {env : Env} {key : Bytes} : (∃ e, s.sdiff env (key :: keys) = .error e) ↔
    s.NotASet key ∨ (∃ t, s.live env.now key = some (.set t)) ∧ ∃ k ∈ keys, s.NotASet k := by
  unfold sdiff
  rcases snapshotSet_cases env.now s key with ⟨hother, hsnap⟩ | ⟨hset, hmissing, hsnap⟩ | ⟨t, hset, hlive, hsnap⟩
  · simp only [hsnap]
    exact iff_of_true ⟨wrongType, rfl⟩ (Or.inl hother)
  · simp only [hsnap]
    refine iff_of_false (fun ⟨_, h⟩ => by cases h) ?_
    rintro (h | ⟨⟨t, ht⟩, -⟩)
    · exact hset h
    · exact hmissing t ht
  · simp only [hsnap]
    rw [or_iff_right hset, and_iff_right ⟨t, hlive⟩,
      ← setLoop_error_iff env.now (fun result u => setOf (result.difference u)) t]
    split
    · rename_i r hr
      rw [hr]
      exact iff_of_false (fun ⟨_, h⟩ => by cases h) (fun ⟨_, h⟩ => by cases h)
    · rename_i e he
      exact iff_of_true ⟨e, rfl⟩ ⟨e, he⟩

end CacheStorage

/-- **The set algebra is exact.** Of any non-empty list of keys, whatever they hold: what `sinter`, `sunion` and `sdiff`
    return has no duplicates and is the intersection, the union, and the first set without the others; `sunion` fails
    exactly when some key holds another type, and `sdiff` exactly when the first does, or the first holds a live set and
    a later one another type. -/
theorem set_algebra_exact (env : Env) (s : CacheStorage) (key : Bytes) (keys : List Bytes) :
    (∀ out, s.sinter env (key :: keys) = .ok out →
      out.Nodup ∧ {m | m ∈ out} = ⋂ k ∈ key :: keys, s.setAt env.now k) ∧
    (∀ out, s.sunion env (key :: keys) = .ok out →
      out.Nodup ∧ {m | m ∈ out} = ⋃ k ∈ key :: keys, s.setAt env.now k) ∧
    (∀ out, s.sdiff env (key :: keys) = .ok out →
      out.Nodup ∧ {m | m ∈ out} = s.setAt env.now key \ ⋃ k ∈ keys, s.setAt env.now k) ∧
    ((∃ e, s.sunion env (key :: keys) = .error e) ↔ ∃ k ∈ key :: keys, s.NotASet k) ∧
    ((∃ e, s.sdiff env (key :: keys) = .error e) ↔
      s.NotASet key ∨ (∃ t, s.live env.now key = some (.set t)) ∧ ∃ k ∈ keys, s.NotASet k) :=
  ⟨fun _ h => CacheStorage.sinter_ok (List.cons_ne_nil key keys) h, fun _ h => CacheStorage.sunion_ok h,
    fun _ h => CacheStorage.sdiff_ok h, CacheStorage.sunion_error_iff, CacheStorage.sdiff_error_iff⟩

end FerricCache
