import FerricCache.Data.PopOrder
import FerricCache.Server.Steady
import FerricCache.Server.WrongType

/-!
# `FerricCache.Server.Determinism` — the same writes on two storages with the same content

The master and its replicas apply the same commands, each with its own hash tables and its own random draws. Two
storages have the same content when they hold the same values, apart from what is derived: the score buckets of a
sorted set and the last id of a stream. `Parallel` runs one sequence of writes on two storages at the same clock
readings; `sameContent_of_parallel` says that they keep the same content as long as no step draws members of a set
or stops inside a group of equal scores (`Determined`).

The invariant of the proof is `Twin`: equal values, except that sorted sets may differ in their buckets.
-/

namespace FerricCache

open Lib

/-! ## Content -/

/-- The value without what is derived from the rest of it. -/
def CacheValue.content : CacheValue → CacheValue
  | .sortedSet z => .sortedSet { z with membersByScore := [] }
  | .stream st => .stream { st with lastId := .minId }
  | v => v

/-- The last id of a stream is the greatest of its entries. -/
def CacheValue.Topped : CacheValue → Prop
  | .stream st => st.Topped
  | _ => True

/-- What `choose_multiple` promises: that many of the elements, each at its place at most once. -/
structure Env.Lawful (env : Env) : Prop where
  subperm : ∀ l n, (env.chooseMultiple l n).Subperm l
  length : ∀ l n, (env.chooseMultiple l n).length = min n l.length

/-- The command gives its stream id. -/
def explicitId : Command → Prop
  | .xadd _ id _ => ∃ text parsed, id = some text ∧ StreamId.parse text false = .ok parsed
  | _ => True

section Content

variable [KeyHash]

/-- The storages hold the same content at every key. -/
def SameContent (s t : CacheStorage) : Prop :=
  ∀ k, (s.slotAt k).map CacheValue.content = (t.slotAt k).map CacheValue.content

/-- Every stream's last id is the greatest of its entries. -/
def CacheStorage.Topped (s : CacheStorage) : Prop := ∀ k v, s.slotAt k = some v → v.Topped

/-- A pop of the sorted sets at a key: their indexes agree with the scores, as they do as long as no score was
    NaN, and the count does not stop inside a group of equal scores. -/
def PopDetermined (o : Ordering) (n : Nat) (now : Instant) (key : Bytes) (s t : CacheStorage) : Prop :=
  ∀ z z', s.live now key = some (.sortedSet z) → t.live now key = some (.sortedSet z') →
    isizeMax < n * 40 ∨ (z.Indexed ∧ z'.Indexed ∧ SortedSetValue.Uncut o n z.memberScores)

/-- What the command leaves does not hang on a draw or on the order of a hash table: `SPOP` takes nothing or
    everything, `ZPOPMIN` and `ZPOPMAX` cut no group of equal scores. -/
def Determined (now : Instant) (c : Command) (s t : CacheStorage) : Prop :=
  match c with
  | .spop key n => ∀ u, s.live now key = some (.set u) →
      Slot.capacityOverflow ((n.map UInt64.toNat).getD 1) = true ∨ (n.map UInt64.toNat).getD 1 = 0 ∨
        u.len ≤ (n.map UInt64.toNat).getD 1
  | .zpopMin key n => PopDetermined .lt n.toNat now key s t
  | .zpopMax key n => PopDetermined .gt n.toNat now key s t
  | _ => True

/-- One sequence of writes on two storages, at the same clock readings, with any table orders and any draws. -/
inductive Parallel (s₀ t₀ : CacheStorage) : CacheStorage → CacheStorage → Prop
  | start : Parallel s₀ t₀ s₀ t₀
  | apply {s t : CacheStorage} (h : Parallel s₀ t₀ s t) (env env' : Env) (c : Command)
      (hclock : env.now = env'.now ∧ env.unixMs = env'.unixMs) (hdraws : env.Lawful ∧ env'.Lawful)
      (hwrite : isWriteCommand c = true) (hid : explicitId c) (hdet : Determined env.now c s t) :
      Parallel s₀ t₀ (applyWriteCommand env c s).2 (applyWriteCommand env' c t).2

end Content

/-! ## Twins -/

/-- Sorted sets with the same scores and deadline. -/
structure SortedSetValue.Alike (z z' : SortedSetValue) : Prop where
  scores : z.memberScores = z'.memberScores
  deadline : z.expiresAt = z'.expiresAt

/-- Values that differ at most in the buckets of a sorted set. -/
inductive CacheValue.Twin : CacheValue → CacheValue → Prop
  | same {v : CacheValue} (h : v.Topped) : Twin v v
  | sortedSet {z z' : SortedSetValue} (h : z.Alike z') : Twin (.sortedSet z) (.sortedSet z')

/-- Nothing on both sides, or twins. -/
inductive Slot.Twin : Slot → Slot → Prop
  | absent : Twin none none
  | held {v w : CacheValue} (h : v.Twin w) : Twin (some v) (some w)

namespace CacheValue.Twin

variable {v w : CacheValue}

theorem valueType_eq (h : v.Twin w) : v.valueType = w.valueType := by
  cases h with
  | same _ => rfl
  | sortedSet _ => rfl

theorem isExpired_eq (h : v.Twin w) (now : Instant) : v.isExpired now = w.isExpired now := by
  cases h with
  | same _ => rfl
  | sortedSet h => exact congrArg (expiredAt now) h.deadline

theorem eq_of_ne_sortedSet (h : v.Twin w) (hne : v.valueType ≠ .sortedSet) : v = w := by
  cases h with
  | same _ => rfl
  | sortedSet _ => exact absurd rfl hne

theorem topped (h : v.Twin w) : v.Topped := by
  cases h with
  | same h => exact h
  | sortedSet _ => exact trivial

theorem content_eq (h : v.Twin w) : v.content = w.content := by
  cases h with
  | same _ => rfl
  | @sortedSet z z' h =>
      show CacheValue.sortedSet ⟨[], z.memberScores, z.expiresAt⟩ = .sortedSet ⟨[], z'.memberScores, z'.expiresAt⟩
      rw [h.scores, h.deadline]

theorem withExpiry (h : v.Twin w) (e : Option Instant) : (v.withExpiry e).Twin (w.withExpiry e) := by
  cases h with
  | same h =>
      cases v with
      | stream st =>
          have hst : st.Topped := h
          exact .same (show StreamValue.Topped { st with expiresAt := e } from ⟨hst.pos, hst.le, hst.last⟩)
      | string _ _ | hash _ | list _ | set _ | sortedSet _ => exact .same trivial
  | sortedSet h => exact .sortedSet ⟨h.scores, rfl⟩

end CacheValue.Twin

/-- The last id of a topped stream is determined by its entries. -/
theorem StreamValue.Topped.ext {st st' : StreamValue} (h : st.Topped) (h' : st'.Topped)
    (hentries : st.entries = st'.entries) : st.lastId = st'.lastId := by
  rcases h.last with hin | ⟨hnone, hmin⟩
  · rcases h'.last with hin' | ⟨hnone', -⟩
    · have hle := h'.le st.lastId (hentries ▸ hin)
      have hge := h.le st'.lastId (hentries ▸ hin')
      exact StreamId.compare_eq_iff.mp (Std.OrientedCmp.isLE_antisymm hle hge)
    · rw [hentries, hnone'] at hin
      exact absurd hin Std.ExtTreeMap.not_mem_empty
  · rcases h'.last with hin' | ⟨-, hmin'⟩
    · rw [← hentries, hnone] at hin'
      exact absurd hin' Std.ExtTreeMap.not_mem_empty
    · rw [hmin, hmin']

/-- Topped values with the same content are twins. -/
theorem CacheValue.twin_of_content {v w : CacheValue} (hv : v.Topped) (hw : w.Topped) (h : v.content = w.content) :
    v.Twin w := by
  cases v with
  | sortedSet z =>
      cases w with
      | sortedSet z' =>
          injection h with h
          injection h with _ hscores hdeadline
          exact .sortedSet ⟨hscores, hdeadline⟩
      | _ => cases h
  | stream st =>
      cases w with
      | stream st' =>
          injection h with h
          injection h with hentries _ hdeadline
          have hlast := StreamValue.Topped.ext hv hw hentries
          obtain ⟨entries, lastId, expiresAt⟩ := st
          obtain ⟨entries', lastId', expiresAt'⟩ := st'
          cases hentries
          cases hdeadline
          cases hlast
          exact .same hv
      | _ => cases h
  | string _ _ | hash _ | list _ | set _ =>
      cases w with
      | sortedSet _ | stream _ => cases h
      | _ => cases h <;> exact .same trivial

/-! ## The write shapes -/

namespace Slot.Twin

variable {τ α : Type} {K : Kind τ} {ty : ValueType} {now : Instant} {a b : Slot}

theorem live (h : Slot.Twin a b) (now : Instant) : Slot.Twin (Slot.live now a) (Slot.live now b) := by
  cases h with
  | absent => exact .absent
  | @held v w h =>
      cases hx : v.isExpired now with
      | true =>
          rw [Slot.live_expired hx, Slot.live_expired ((h.isExpired_eq now).symm.trans hx)]
          exact .absent
      | false =>
          rw [Slot.live_fresh hx, Slot.live_fresh ((h.isExpired_eq now).symm.trans hx)]
          exact .held h

/-- Twins are read by a kind both or neither. -/
theorem as_cases (hK : K.Reads ty) {v w : CacheValue} (h : v.Twin w) :
    (K.as v = none ∧ K.as w = none) ∨ ∃ t u, v = K.of t ∧ w = K.of u := by
  cases hv : K.as v with
  | none =>
      left
      refine ⟨rfl, (hK w).mpr ?_⟩
      rw [← h.valueType_eq]
      exact (hK v).mp hv
  | some t =>
      right
      cases hw : K.as w with
      | none =>
          have hother := (hK w).mp hw
          rw [← h.valueType_eq] at hother
          rw [(hK v).mpr hother] at hv
          cases hv
      | some u => exact ⟨t, u, (K.of_as hv).symm, (K.of_as hw).symm⟩

/-- Of any kind but sorted sets, twins are equal. -/
theorem kind_eq (hK : K.Reads ty) (hty : ty ≠ .sortedSet) {t u : τ} (h : (K.of t).Twin (K.of u)) : t = u := by
  refine Kind.of_inj (h.eq_of_ne_sortedSet fun he => ?_)
  have hread := K.as_of t
  rw [(hK (K.of t)).mpr fun heq => hty (heq.symm.trans he)] at hread
  cases hread

section Shapes

variable (hK : K.Reads ty) (hab : Slot.Twin a b)

include hK hab

theorem writeAny {missing missing' : α × Slot} {f g : τ → Res α × τ} (hm : Slot.Twin missing.2 missing'.2)
    (hf : ∀ t u, (K.of t).Twin (K.of u) → (K.of (f t).2).Twin (K.of (g u).2)) :
    Slot.Twin (Slot.writeAny K missing f a).2 (Slot.writeAny K missing' g b).2 := by
  cases hab with
  | absent => exact hm
  | held h =>
      rcases as_cases hK h with ⟨hv, hw⟩ | ⟨t, u, rfl, rfl⟩
      · simp only [Slot.writeAny, hv, hw]
        exact .held h
      · simp only [Slot.writeAny, K.as_of]
        exact .held (hf t u h)

theorem writeLive {missing missing' : α} {f g : τ → Res α × τ}
    (hf : ∀ t u, Slot.live now a = some (K.of t) → Slot.live now b = some (K.of u) → (K.of t).Twin (K.of u) →
      (K.of (f t).2).Twin (K.of (g u).2)) :
    Slot.Twin (Slot.writeLive K now missing f a).2 (Slot.writeLive K now missing' g b).2 := by
  cases hab with
  | absent => exact .absent
  | held h =>
      rcases as_cases hK h with ⟨hv, hw⟩ | ⟨t, u, rfl, rfl⟩
      · simp only [Slot.writeLive, hv, hw]
        exact .held h
      · simp only [Slot.writeLive, K.as_of, ← h.isExpired_eq now]
        cases hx : (K.of t).isExpired now with
        | true => exact .held h
        | false =>
            exact .held (hf t u (Slot.live_fresh hx) (Slot.live_fresh ((h.isExpired_eq now).symm.trans hx)) h)

theorem writeOrCreate {create : Res (α × τ)} {f g : τ → Res α × τ}
    (hcreate : ∀ x t, create = .ok (x, t) → (K.of t).Topped)
    (hf : ∀ t u, (K.of t).Twin (K.of u) → (K.of (f t).2).Twin (K.of (g u).2)) :
    Slot.Twin (Slot.writeOrCreate K now create f a).2 (Slot.writeOrCreate K now create g b).2 := by
  have hinsert : ∀ {a b : Slot}, Slot.Twin a b →
      Slot.Twin (Slot.insertNew K create a).2 (Slot.insertNew K create b).2 := by
    intro a b h
    cases hc : create with
    | error e => exact h
    | ok p => exact .held (.same (hcreate p.1 p.2 hc))
  cases hab with
  | absent => exact hinsert .absent
  | held h =>
      rcases as_cases hK h with ⟨hv, hw⟩ | ⟨t, u, rfl, rfl⟩
      · simp only [Slot.writeOrCreate, hv, hw]
        exact .held h
      · simp only [Slot.writeOrCreate, K.as_of, ← h.isExpired_eq now]
        cases hx : (K.of t).isExpired now with
        | true => exact hinsert (.held h)
        | false => exact .held (hf t u h)

variable (hty : ty ≠ .sortedSet)

include hty

/-- One function on both sides, of any kind but sorted sets. -/
theorem writeAny_same {missing : α × Slot} {f : τ → Res α × τ} (hm : ∀ v, missing.2 = some v → v.Topped)
    (hf : ∀ t, (K.of t).Topped → (K.of (f t).2).Topped) :
    Slot.Twin (Slot.writeAny K missing f a).2 (Slot.writeAny K missing f b).2 := by
  refine writeAny hK hab ?_ fun t u h => ?_
  · cases hslot : missing.2 with
    | none => exact .absent
    | some v => exact .held (.same (hm v hslot))
  · cases kind_eq hK hty h
    exact .same (hf t h.topped)

theorem writeLive_same {missing : α} {f : τ → Res α × τ} (hf : ∀ t, (K.of t).Topped → (K.of (f t).2).Topped) :
    Slot.Twin (Slot.writeLive K now missing f a).2 (Slot.writeLive K now missing f b).2 := by
  refine writeLive hK hab fun t u _ _ h => ?_
  cases kind_eq hK hty h
  exact .same (hf t h.topped)

theorem writeLive_reply {missing : α} {f : τ → Res α × τ} :
    (Slot.writeLive K now missing f a).1 = (Slot.writeLive K now missing f b).1 := by
  cases hab with
  | absent => rfl
  | held h =>
      rcases as_cases hK h with ⟨hv, hw⟩ | ⟨t, u, rfl, rfl⟩
      · simp only [Slot.writeLive, hv, hw]
      · cases kind_eq hK hty h
        rfl

theorem writeOrCreate_same {create : Res (α × τ)} {f : τ → Res α × τ}
    (hcreate : ∀ x t, create = .ok (x, t) → (K.of t).Topped) (hf : ∀ t, (K.of t).Topped → (K.of (f t).2).Topped) :
    Slot.Twin (Slot.writeOrCreate K now create f a).2 (Slot.writeOrCreate K now create f b).2 := by
  refine writeOrCreate hK hab hcreate fun t u h => ?_
  cases kind_eq hK hty h
  exact .same (hf t h.topped)

end Shapes

/-! ## Operations with a body of their own -/

variable (hab : Slot.Twin a b)

include hab

theorem set (value : Bytes) (ttl : Option Nat) :
    Slot.Twin (Slot.set now value ttl a).2 (Slot.set now value ttl b).2 := by
  unfold Slot.set
  cases Slot.deadline now ttl with
  | some e => exact .held (.same trivial)
  | none => exact hab

theorem setNx (value : Bytes) : Slot.Twin (Slot.setNx now value a).2 (Slot.setNx now value b).2 := by
  cases hab with
  | absent => exact .held (.same trivial)
  | held h =>
      simp only [Slot.setNx, h.isExpired_eq now]
      split
      · exact .held (.same trivial)
      · exact .held h

theorem getSet (value : Bytes) : Slot.Twin (Slot.getSet now value a).2 (Slot.getSet now value b).2 := by
  cases hab with
  | absent => exact .held (.same trivial)
  | @held v w h =>
      cases h with
      | same h =>
          cases v with
          | string _ _ => exact .held (.same trivial)
          | hash _ | list _ | set _ | sortedSet _ | stream _ =>
              simp only [Slot.getSet]
              split
              · exact .held (.same trivial)
              · exact .held (.same h)
      | @sortedSet z z' h =>
          have hx := (CacheValue.Twin.sortedSet h).isExpired_eq now
          simp only [Slot.getSet, hx]
          split
          · exact .held (.same trivial)
          · exact .held (.sortedSet h)

theorem lset (index : Int64) (value : Bytes) :
    Slot.Twin (Slot.lset now index value a).2 (Slot.lset now index value b).2 := by
  cases hab with
  | absent => exact .absent
  | @held v w h =>
      cases h with
      | same h =>
          cases v with
          | list l =>
              unfold Slot.lset
              simp only
              split_ifs <;> exact .held (.same trivial)
          | string _ _ | hash _ | set _ | sortedSet _ | stream _ => exact .held (.same h)
      | sortedSet h => exact .held (.sortedSet h)

theorem lrem (n : Int64) (value : Bytes) : Slot.Twin (Slot.lrem now n value a).2 (Slot.lrem now n value b).2 := by
  cases hab with
  | absent => exact .absent
  | @held v w h =>
      cases h with
      | same h =>
          cases v with
          | list l =>
              unfold Slot.lrem
              simp only
              split_ifs <;> exact .held (.same trivial)
          | string _ _ | hash _ | set _ | sortedSet _ | stream _ => exact .held (.same h)
      | sortedSet h => exact .held (.sortedSet h)

theorem setExpiry (at' : Instant) : Slot.Twin (Slot.setExpiry now at' a).2 (Slot.setExpiry now at' b).2 := by
  cases hab with
  | absent => exact .absent
  | held h =>
      simp only [Slot.setExpiry, h.isExpired_eq now]
      split
      · exact .held h
      · exact .held (h.withExpiry _)

theorem persist : Slot.Twin (Slot.persist now a).2 (Slot.persist now b).2 := by
  cases hab with
  | absent => exact .absent
  | @held v w h =>
      have he : v.expiresAt = w.expiresAt := by
        cases h with
        | same _ => rfl
        | sortedSet h => exact h.deadline
      simp only [Slot.persist, h.isExpired_eq now, he]
      split
      · exact .held h
      · split
        · exact .held (h.withExpiry _)
        · exact .held h

end Slot.Twin

/-! ## Sets and sorted sets -/

namespace SortedSetValue.Alike

variable {z z' : SortedSetValue}

theorem add (h : z.Alike z') (x : F64) (m : Bytes) : (z.add x m).Alike (z'.add x m) :=
  ⟨congrArg (fun scores => scores.insert m x) h.scores, h.deadline⟩

theorem remove (h : z.Alike z') (m : Bytes) : (z.remove m).Alike (z'.remove m) := by
  refine ⟨?_, ?_⟩
  · rw [memberScores_remove, memberScores_remove, h.scores]
  · rw [expiresAt_remove, expiresAt_remove, h.deadline]

theorem foldl_add (h : z.Alike z') (l : List (F64 × Bytes)) :
    (l.foldl (fun z p => z.add p.1 p.2) z).Alike (l.foldl (fun z p => z.add p.1 p.2) z') := by
  induction l generalizing z z' with
  | nil => exact h
  | cons p l ih => exact ih (h.add p.1 p.2)

theorem countLoop_remove (h : z.Alike z') (l : List Bytes) :
    (Slot.countLoop (fun z m => ((z.getScore m).isSome, z.remove m)) z l).2.Alike
      (Slot.countLoop (fun z m => ((z.getScore m).isSome, z.remove m)) z' l).2 := by
  induction l generalizing z z' with
  | nil => exact h
  | cons m l ih => exact ih (h.remove m)

/-- The pops of two sorted sets with the same scores leave the same scores. -/
theorem popLoop (h : z.Alike z') (hz : z.Indexed) (hz' : z'.Indexed) {o : Ordering}
    {pick : List (F64 × Std.ExtTreeSet Bytes) → Option (F64 × Std.ExtTreeSet Bytes)} (hpick : Picks o pick) {n : Nat}
    (huncut : Uncut o n z.memberScores) (pos pos' : Bytes → Nat) :
    (SortedSetValue.popLoop pos pick n z).2.Alike (SortedSetValue.popLoop pos' pick n z').2 := by
  refine ⟨?_, ?_⟩
  · rw [popLoop_scores pos hpick hz huncut, popLoop_scores pos' hpick hz' (h.scores ▸ huncut), h.scores]
  · rw [expiresAt_popLoop, expiresAt_popLoop, h.deadline]

end SortedSetValue.Alike

theorem CacheValue.Twin.alike {z z' : SortedSetValue} (h : (CacheValue.sortedSet z).Twin (.sortedSet z')) :
    z.Alike z' := by
  cases h with
  | same _ => exact ⟨rfl, rfl⟩
  | sortedSet h => exact h

/-- What is left of a set after removing the members of a list. -/
theorem members_foldl_remove (u : SetValue) (l : List Bytes) (m : Bytes) :
    m ∈ (l.foldl SetValue.remove u).members ↔ m ∈ u.members ∧ m ∉ l := by
  induction l generalizing u with
  | nil => simp
  | cons k l ih =>
      rw [List.foldl_cons, ih]
      show m ∈ u.members.erase k ∧ m ∉ l ↔ _
      rw [Std.ExtTreeSet.mem_erase, List.mem_cons]
      simp only [Std.compare_eq_iff_eq, ne_eq, not_or]
      constructor
      · rintro ⟨⟨hne, hm⟩, hl⟩
        exact ⟨hm, fun h => hne h.symm, hl⟩
      · rintro ⟨hm, hne, hl⟩
        exact ⟨⟨fun h => hne h.symm, hm⟩, hl⟩

theorem expiresAt_foldl_remove (u : SetValue) (l : List Bytes) :
    (l.foldl SetValue.remove u).expiresAt = u.expiresAt :=
  foldl_invariant (P := fun t : SetValue => t.expiresAt = u.expiresAt) (f := SetValue.remove) (fun _ _ h => h) l rfl

/-- A draw of nothing or of everything leaves what any other such draw leaves. -/
theorem foldl_remove_drawn {env env' : Env} (henv : env.Lawful) (henv' : env'.Lawful) (pos pos' : Bytes → Nat)
    {u : SetValue} {n : Nat} (h : n = 0 ∨ u.len ≤ n) :
    (env.chooseMultiple (u.getAll pos) n).foldl SetValue.remove u
      = (env'.chooseMultiple (u.getAll pos') n).foldl SetValue.remove u := by
  have hlen : ∀ pos : Bytes → Nat, (u.getAll pos).length = u.len := by
    intro pos
    rw [SetValue.getAll, (iterate_perm pos id _).length_eq, Std.ExtTreeSet.length_toList]
    rfl
  -- a lawful draw of at least the whole length is the whole list, in some order
  have hall : ∀ (e : Env) (pos : Bytes → Nat), e.Lawful → ∀ m,
      m ∈ e.chooseMultiple (u.getAll pos) n ↔ n ≠ 0 ∧ m ∈ u.members := by
    intro e pos he m
    rcases h with rfl | hn
    · have hnil : e.chooseMultiple (u.getAll pos) 0 = [] := by
        apply List.eq_nil_of_length_eq_zero
        rw [he.length, Nat.zero_min]
      simp [hnil]
    · have hwhole : (e.chooseMultiple (u.getAll pos) n).Perm (u.getAll pos) := by
        refine (he.subperm _ _).perm_of_length_le ?_
        rw [he.length, hlen]
        omega
      rw [hwhole.mem_iff, SetValue.getAll, mem_iterate, Std.ExtTreeSet.mem_toList]
      refine ⟨fun hm => ⟨?_, hm⟩, fun hm => hm.2⟩
      rintro rfl
      have hempty : u.members = ∅ := Std.ExtTreeSet.eq_empty_iff_size_eq_zero.mpr (Nat.le_zero.mp hn)
      rw [hempty] at hm
      exact absurd hm Std.ExtTreeSet.not_mem_empty
  have hmembers : ((env.chooseMultiple (u.getAll pos) n).foldl SetValue.remove u).members
      = ((env'.chooseMultiple (u.getAll pos') n).foldl SetValue.remove u).members := by
    apply Std.ExtTreeSet.ext_mem
    intro m
    rw [members_foldl_remove, members_foldl_remove, hall env pos henv, hall env' pos' henv']
  have hdeadline := (expiresAt_foldl_remove u (env.chooseMultiple (u.getAll pos) n)).trans
    (expiresAt_foldl_remove u (env'.chooseMultiple (u.getAll pos') n)).symm
  exact congrArg₂ SetValue.mk hmembers hdeadline

/-! ## Storages -/

variable [KeyHash]

/-- Twins at every key. -/
def CacheStorage.Twin (s t : CacheStorage) : Prop := ∀ k, Slot.Twin (s.slotAt k) (t.slotAt k)

namespace CacheStorage.Twin

variable {s t : CacheStorage} {α : Type}

theorem setEntry (h : s.Twin t) (key : Bytes) {a b : Slot} (hab : Slot.Twin a b) :
    (s.setEntry key a).Twin (t.setEntry key b) := by
  intro k
  rw [CacheStorage.slotAt_setEntry, CacheStorage.slotAt_setEntry]
  split
  · exact hab
  · exact h k

theorem onKey (h : s.Twin t) {key : Bytes} {f g : Slot → α × Slot}
    (hfg : Slot.Twin (s.slotAt key) (t.slotAt key) → Slot.Twin (f (s.slotAt key)).2 (g (t.slotAt key)).2) :
    (s.onKey key f).2.Twin (t.onKey key g).2 := h.setEntry key (hfg (h key))

theorem mset (h : s.Twin t) (pairs : List (Bytes × Bytes)) : (s.mset pairs).Twin (t.mset pairs) := by
  unfold CacheStorage.mset
  induction pairs generalizing s t with
  | nil => exact h
  | cons p pairs ih => exact ih (h.setEntry p.1 (.held (.same trivial)))

theorem hmset (h : s.Twin t) (key : Bytes) (pairs : List (Bytes × Bytes)) :
    (pairs.foldl (fun s p => (s.onKey key (Slot.hset p.1 p.2)).2) s).Twin
      (pairs.foldl (fun s p => (s.onKey key (Slot.hset p.1 p.2)).2) t) := by
  induction pairs generalizing s t with
  | nil => exact h
  | cons p pairs ih =>
      refine ih (h.onKey fun hab => ?_)
      refine Slot.Twin.writeAny_same reads_hash hab (fun he => by cases he) (fun v hv => ?_) fun _ _ => trivial
      cases hv
      exact trivial

theorem rename (h : s.Twin t) (now : Instant) (key newKey : Bytes) :
    (s.rename now key newKey).2.Twin (t.rename now key newKey).2 := by
  have hlive := (h key).live now
  unfold CacheStorage.rename CacheStorage.live
  generalize Slot.live now (s.slotAt key) = a at hlive
  generalize Slot.live now (t.slotAt key) = b at hlive
  cases hlive with
  | absent => exact h.setEntry key .absent
  | held hv => exact (h.setEntry key .absent).setEntry newKey (.held hv)

/-- A move between values of any kind but sorted sets, with no last id to keep. -/
theorem move (h : s.Twin t) {τ α β : Type} {K : Kind τ} {ty : ValueType} (hK : K.Reads ty) (hty : ty ≠ .sortedSet)
    (htop : ∀ x, (K.of x).Topped) (now : Instant) (missing : α) (take : τ → α × τ) (moved : α → Option β) (fresh : τ)
    (put : β → τ → τ) (source destination : Bytes) :
    (s.move K now missing take moved fresh put source destination).2.Twin
      (t.move K now missing take moved fresh put source destination).2 := by
  rw [move_eq, move_eq]
  have hreply : (s.onKey source (CacheStorage.takeFrom K now missing take)).1
      = (t.onKey source (CacheStorage.takeFrom K now missing take)).1 :=
    Slot.Twin.writeLive_reply hK (h source) hty
  have htaken : (s.onKey source (CacheStorage.takeFrom K now missing take)).2.Twin
      (t.onKey source (CacheStorage.takeFrom K now missing take)).2 :=
    h.onKey fun hab => Slot.Twin.writeLive_same hK hab hty fun x _ => htop _
  rw [hreply]
  cases (t.onKey source (CacheStorage.takeFrom K now missing take)).1 with
  | error e => exact htaken
  | ok a =>
      simp only [moveRest]
      cases moved a with
      | none => exact htaken
      | some b =>
          exact htaken.onKey fun hab =>
            Slot.Twin.writeOrCreate_same hK hab hty (fun _ x _ => htop x) fun x _ => htop _

end CacheStorage.Twin

section Step

variable {s t : CacheStorage}

theorem CacheStorage.Twin.applyExpiry (h : s.Twin t) {env env' : Env} (hnow : env.now = env'.now) (key : Bytes)
    (duration : Nat) :
    (FerricCache.applyExpiry env s key duration).2.Twin (FerricCache.applyExpiry env' t key duration).2 := by
  unfold FerricCache.applyExpiry
  rw [← hnow]
  cases instantAdd env.now duration with
  | none => exact h
  | some at' => exact h.onKey fun hab => hab.setExpiry at'

theorem CacheStorage.Twin.applyExpire (h : s.Twin t) {env env' : Env} (hnow : env.now = env'.now) (key : Bytes)
    (duration : Option Nat) :
    (FerricCache.applyExpire env s key duration).2.Twin (FerricCache.applyExpire env' t key duration).2 := by
  cases duration with
  | none => exact h
  | some d => exact h.applyExpiry hnow key d

omit [KeyHash] in
/-- `XADD` with a given id. -/
theorem Slot.Twin.xadd {a b : Slot} (hab : Slot.Twin a b) (env env' : Env) (hnow : env.now = env'.now)
    (hms : env.unixMs = env'.unixMs) (id : StreamId) (fields : List (Bytes × Bytes)) :
    Slot.Twin (Slot.xadd env (some id) fields a).2 (Slot.xadd env' (some id) fields b).2 := by
  unfold Slot.xadd
  rw [← hnow, ← hms]
  refine Slot.Twin.writeOrCreate_same reads_stream hab (fun he => by cases he) (fun x st hcreate => ?_) fun st hst => ?_
  · have hnew := StreamValue.topped_add env.unixMs id fields StreamValue.topped_new
    cases hadd : (StreamValue.new.add env.unixMs (some id) fields).1 with
    | error e =>
        rw [hadd] at hcreate
        cases hcreate
    | ok id' =>
        rw [hadd] at hcreate
        cases hcreate
        exact hnew
  · exact StreamValue.topped_add env.unixMs id fields hst

omit [KeyHash] in
/-- A pop that cuts no group. -/
theorem Slot.Twin.zpop {a b : Slot} (hab : Slot.Twin a b) {o : Ordering}
    {pick : List (F64 × Std.ExtTreeSet Bytes) → Option (F64 × Std.ExtTreeSet Bytes)}
    (hpick : SortedSetValue.Picks o pick) {n : Nat} {now : Instant} (pos pos' : Bytes → Nat)
    (hdet : ∀ z z', Slot.live now a = some (.sortedSet z) → Slot.live now b = some (.sortedSet z') →
      isizeMax < n * 40 ∨ (z.Indexed ∧ z'.Indexed ∧ SortedSetValue.Uncut o n z.memberScores)) :
    Slot.Twin
      (Slot.zpop now (fun z => if isizeMax < n * 40 then none else some (SortedSetValue.popLoop pos pick n z)) a).2
      (Slot.zpop now
        (fun z => if isizeMax < n * 40 then none else some (SortedSetValue.popLoop pos' pick n z)) b).2 := by
  refine Slot.Twin.writeLive reads_sortedSet hab fun z z' hz hz' htwin => ?_
  by_cases hcap : isizeMax < n * 40
  · simp only [if_pos hcap]
    exact htwin
  · obtain ⟨hi, hi', huncut⟩ := (hdet z z' hz hz').resolve_left hcap
    simp only [if_neg hcap]
    exact .sortedSet (htwin.alike.popLoop hi hi' hpick huncut pos pos')

omit [KeyHash] in
/-- A draw of nothing or of everything. -/
theorem Slot.Twin.spop {a b : Slot} (hab : Slot.Twin a b) {env env' : Env} (hnow : env.now = env'.now)
    (henv : env.Lawful) (henv' : env'.Lawful) (pos pos' : Bytes → Nat) {n : Nat}
    (hdet : ∀ u, Slot.live env.now a = some (.set u) →
      Slot.capacityOverflow n = true ∨ n = 0 ∨ u.len ≤ n) :
    Slot.Twin (Slot.spop env pos n a).2 (Slot.spop env' pos' n b).2 := by
  unfold Slot.spop
  rw [← hnow]
  refine Slot.Twin.writeLive reads_set hab fun u u' hu hu' htwin => ?_
  cases Slot.Twin.kind_eq reads_set (fun he => by cases he) htwin
  cases hcap : Slot.capacityOverflow n with
  | true =>
      simp only [if_true]
      exact .same trivial
  | false =>
      have hn : n = 0 ∨ u.len ≤ n := (hdet u hu).resolve_left (by rw [hcap]; exact Bool.false_ne_true)
      simp only [Bool.false_eq_true, if_false]
      rw [foldl_remove_drawn henv henv' pos pos' hn]
      exact .same trivial

/-- **One write keeps twins twins**, whatever the two environments draw and list. -/
theorem apply_twin (h : s.Twin t) {env env' : Env} {c : Command}
    (hclock : env.now = env'.now ∧ env.unixMs = env'.unixMs) (hdraws : env.Lawful ∧ env'.Lawful)
    (hwrite : isWriteCommand c = true) (hid : explicitId c) (hdet : Determined env.now c s t) :
    (applyWriteCommand env c s).2.Twin (applyWriteCommand env' c t).2 := by
  obtain ⟨hnow, hms⟩ := hclock
  obtain ⟨henv, henv'⟩ := hdraws
  have hstring : ValueType.string ≠ .sortedSet := fun he => by cases he
  have hhash : ValueType.hash ≠ .sortedSet := fun he => by cases he
  have hlist : ValueType.list ≠ .sortedSet := fun he => by cases he
  have hset : ValueType.set ≠ .sortedSet := fun he => by cases he
  have hsecs : env.unixSecs = env'.unixSecs := by
    unfold Env.unixSecs
    rw [hms]
  -- a value that is no sorted set has only itself for a twin, so there both sides run the same
  cases c with
  | set key value ttl =>
      refine h.onKey fun hab => ?_
      rw [← hnow]
      exact hab.set value _
  | setEx key seconds value =>
      refine h.onKey fun hab => ?_
      rw [← hnow]
      exact hab.set value _
  | delete key => exact h.onKey fun _ => .absent
  | incr key =>
      refine h.onKey fun hab => hab.writeAny_same reads_string hstring (fun v hv => ?_) fun _ _ => trivial
      cases hv
      exact trivial
  | decr key =>
      refine h.onKey fun hab => hab.writeAny_same reads_string hstring (fun v hv => ?_) fun _ _ => trivial
      cases hv
      exact trivial
  | append key value | incrBy key _ | decrBy key _ | incrByFloat key _ =>
      refine h.onKey fun hab => hab.writeAny_same reads_string hstring (fun v hv => ?_) fun _ _ => trivial
      cases hv
      exact trivial
  | hset key field value =>
      refine h.onKey fun hab => hab.writeAny_same reads_hash hhash (fun v hv => ?_) fun _ _ => trivial
      cases hv
      exact trivial
  | hdel key fields =>
      exact h.onKey fun hab => hab.writeAny_same reads_hash hhash (fun v hv => by cases hv) fun _ _ => trivial
  | lpush key values | rpush key values =>
      refine h.onKey fun hab => hab.writeAny_same reads_list hlist (fun v hv => ?_) fun _ _ => trivial
      cases hv
      exact trivial
  | lpop key | rpop key =>
      exact h.onKey fun hab => hab.writeAny_same reads_list hlist (fun v hv => by cases hv) fun _ _ => trivial
  | sadd key members =>
      refine h.onKey fun hab => hab.writeAny_same reads_set hset (fun v hv => ?_) fun _ _ => trivial
      cases hv
      exact trivial
  | srem key members =>
      exact h.onKey fun hab => hab.writeAny_same reads_set hset (fun v hv => by cases hv) fun _ _ => trivial
  | zadd key members =>
      exact h.onKey fun hab => hab.writeAny reads_sortedSet (.held (.same trivial))
        fun z z' htwin => .sortedSet (htwin.alike.foldl_add members)
  | zrem key members =>
      exact h.onKey fun hab => hab.writeAny reads_sortedSet .absent
        fun z z' htwin => .sortedSet (htwin.alike.countLoop_remove members)
  | flushAll =>
      intro k
      show Slot.Twin (s.flushall.slotAt k) (t.flushall.slotAt k)
      rw [CacheStorage.slotAt_flushall, CacheStorage.slotAt_flushall]
      exact .absent
  | expire key seconds => exact h.applyExpire hnow key _
  | pexpire key millis => exact h.applyExpire hnow key _
  | expireAt key unixSecs =>
      show (applyExpireAt env s key unixSecs).2.Twin (applyExpireAt env' t key unixSecs).2
      unfold applyExpireAt
      rw [← hsecs]
      cases tryU64 unixSecs with
      | none => exact h
      | some target =>
          simp only
          split
          · exact h.applyExpiry hnow key _
          · exact h.onKey fun _ => .absent
  | persist key =>
      refine h.onKey fun hab => ?_
      rw [← hnow]
      exact hab.persist
  | setNx key value =>
      refine h.onKey fun hab => ?_
      rw [← hnow]
      exact hab.setNx value
  | getSet key value =>
      refine h.onKey fun hab => ?_
      rw [← hnow]
      exact hab.getSet value
  | mset pairs => exact h.mset pairs
  | hmset key pairs => exact h.hmset key pairs
  | hsetNx key field value =>
      refine h.onKey fun hab => ?_
      rw [← hnow]
      exact hab.writeOrCreate_same reads_hash hhash (fun _ _ _ => trivial) fun _ _ => trivial
  | hincrBy key field delta =>
      refine h.onKey fun hab => ?_
      rw [← hnow]
      exact hab.writeOrCreate_same reads_hash hhash (fun _ _ _ => trivial) fun _ _ => trivial
  | lset key index value =>
      refine h.onKey fun hab => ?_
      rw [← hnow]
      exact hab.lset index value
  | lrem key n value =>
      refine h.onKey fun hab => ?_
      rw [← hnow]
      exact hab.lrem n value
  | ltrim key start stop =>
      refine h.onKey fun hab => ?_
      rw [← hnow]
      exact hab.writeLive_same reads_list hlist fun _ _ => trivial
  | rpoplpush source destination =>
      show (s.rpoplpush env.now source destination).2.Twin (t.rpoplpush env'.now source destination).2
      rw [← hnow]
      exact h.move reads_list hlist (fun _ => trivial) _ _ _ _ _ _ source destination
  | smove source destination member =>
      show (s.smove env.now source destination member).2.Twin (t.smove env'.now source destination member).2
      rw [← hnow]
      exact h.move reads_set hset (fun _ => trivial) _ _ _ _ _ _ source destination
  | spop key n => exact h.onKey fun hab => hab.spop hnow henv henv' _ _ hdet
  | zincrBy key delta member =>
      refine h.onKey fun hab => ?_
      rw [← hnow]
      refine hab.writeOrCreate reads_sortedSet (fun _ _ _ => trivial) fun z z' htwin => ?_
      have hscore : z.getScore member = z'.getScore member := by
        unfold SortedSetValue.getScore
        rw [htwin.alike.scores]
      simp only [hscore]
      exact .sortedSet (htwin.alike.add _ member)
  | zpopMin key n =>
      refine h.onKey fun hab => ?_
      rw [← hnow]
      exact hab.zpop SortedSetValue.picks_head _ _ hdet
  | zpopMax key n =>
      refine h.onKey fun hab => ?_
      rw [← hnow]
      exact hab.zpop SortedSetValue.picks_getLast _ _ hdet
  | rename key newKey =>
      show (s.rename env.now key newKey).2.Twin (t.rename env'.now key newKey).2
      rw [← hnow]
      exact h.rename env.now key newKey
  | xadd key id fields =>
      obtain ⟨text, parsed, rfl, hparse⟩ := hid
      refine h.onKey fun hab => ?_
      simp only [Option.bind_some, hparse, Except.toOption]
      exact hab.xadd env env' hnow hms parsed fields
  | _ => cases hwrite

end Step

/-! ## Runs -/

/-- Topped storages with the same content are twins. -/
theorem twin_of_sameContent {s t : CacheStorage} (hs : s.Topped) (ht : t.Topped) (h : SameContent s t) : s.Twin t := by
  intro k
  have hk := h k
  cases ha : s.slotAt k with
  | none =>
      rw [ha] at hk
      rw [Option.map_eq_none_iff.mp hk.symm]
      exact .absent
  | some v =>
      rw [ha, Option.map_some] at hk
      obtain ⟨w, hw, hvw⟩ := Option.map_eq_some_iff.mp hk.symm
      rw [hw]
      exact .held (CacheValue.twin_of_content (hs k v ha) (ht k w hw) hvw.symm)

theorem sameContent_of_twin {s t : CacheStorage} (h : s.Twin t) : SameContent s t := by
  intro k
  have hk := h k
  generalize s.slotAt k = a at hk
  generalize t.slotAt k = b at hk
  cases hk with
  | absent => rfl
  | held hv => exact congrArg some hv.content_eq

/-- **The same writes keep the same content**, in every state that two storages reach with no step that draws
members of a set or cuts a group of equal scores. -/
theorem sameContent_of_parallel {s₀ t₀ s t : CacheStorage} (hs : s₀.Topped) (ht : t₀.Topped)
    (hsame : SameContent s₀ t₀) (hrun : Parallel s₀ t₀ s t) : SameContent s t := by
  apply sameContent_of_twin
  induction hrun with
  | start => exact twin_of_sameContent hs ht hsame
  | apply _ env env' c hclock hdraws hwrite hid hdet ih => exact apply_twin ih hclock hdraws hwrite hid hdet

omit [KeyHash]

/-- An environment that lists tables the other way round, and so draws other members. -/
def Env.reversed (now : Instant) : Env :=
  { Env.reading now with iterPos := fun _ k => 255 - (k.headD 0).toNat }

theorem lawful_reading (now : Instant) : (Env.reading now).Lawful where
  subperm l n := (List.take_sublist n l).subperm
  length _ _ := List.length_take

theorem lawful_reversed (now : Instant) : (Env.reversed now).Lawful where
  subperm l n := (List.take_sublist n l).subperm
  length _ _ := List.length_take

/-- A set of two members is emptied, whatever is drawn first. -/
theorem sameContent_spop_all :
    let _ := shortKeys
    let add : Command := .sadd (utf8 "s") [utf8 "a", utf8 "b"]
    let pop : Command := .spop (utf8 "s") (some 2)
    let s := (applyWriteCommand (Env.reading 1) add .new).2
    let t := (applyWriteCommand (Env.reversed 1) add .new).2
    SameContent (applyWriteCommand (Env.reading 1) pop s).2 (applyWriteCommand (Env.reversed 1) pop t).2 := by
  intro _ add pop s t
  have htop : (CacheStorage.new : CacheStorage).Topped := by
    intro k v hv
    rw [CacheStorage.slotAt_new] at hv
    cases hv
  have hfilled : Parallel .new .new s t :=
    .apply .start _ _ add ⟨rfl, rfl⟩ ⟨lawful_reading 1, lawful_reversed 1⟩ rfl trivial trivial
  refine sameContent_of_parallel htop htop (fun _ => rfl)
    (.apply hfilled _ _ pop ⟨rfl, rfl⟩ ⟨lawful_reading 1, lawful_reversed 1⟩ rfl trivial ?_)
  intro u hu
  have hslot : s.live 1 (utf8 "s") = some (.set ⟨Std.ExtTreeSet.ofList [utf8 "a", utf8 "b"], none⟩) := by decide
  cases hslot.symm.trans hu
  exact Or.inr (Or.inr (by decide))

/-- One member of two is drawn, and one of two members with one score is popped: the storages part. -/
theorem spop_and_zpopMin_diverge :
    let _ := shortKeys
    let add : Command := .sadd (utf8 "s") [utf8 "a", utf8 "b"]
    let pop : Command := .spop (utf8 "s") none
    let zadd : Command := .zadd (utf8 "z") [(.fin 1, utf8 "a"), (.fin 1, utf8 "b")]
    let zpop : Command := .zpopMin (utf8 "z") 1
    let s := (applyWriteCommand (Env.reading 1) add .new).2
    let z := (applyWriteCommand (Env.reading 1) zadd .new).2
    ¬ SameContent (applyWriteCommand (Env.reading 1) pop s).2 (applyWriteCommand (Env.reversed 1) pop s).2 ∧
      ¬ SameContent (applyWriteCommand (Env.reading 1) zpop z).2 (applyWriteCommand (Env.reversed 1) zpop z).2 := by
  intro _ add pop zadd zpop s z
  constructor
  · intro h
    exact absurd (h (utf8 "s")) (by decide)
  · intro h
    exact absurd (h (utf8 "z")) (by decide)

end FerricCache
