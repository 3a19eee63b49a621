import FerricCache.Storage.Slot
import FerricCache.Data.Ranks

/-!
# `FerricCache.Storage.ScoreRange` — `ZRANGEBYSCORE` and `ZCOUNT`

Both read `BTreeMap::range(min..=max)`, which panics when `min > max`; nothing between the client and the map orders
the bounds. On every other pair of bounds the members are the ones with a score between them, each once, in
ascending order (`score_range_right_iff`).
-/

namespace FerricCache

open Lib

/-- The list has each member with a score in `[min, max]` once, in ascending order, with its score if asked for. -/
structure SortedSetValue.Between (z : SortedSetValue) (min max : F64) (withScores : Bool)
    (l : List (Bytes × Option F64)) : Prop where
  once : (l.map Prod.fst).Nodup
  members : ∀ m, m ∈ l.map Prod.fst ↔ ∃ x, z.getScore m = some x ∧ F64.cmp x min ≠ .lt ∧ F64.cmp x max ≠ .gt
  scored : withScores = true → ∀ p ∈ l, ∃ x y, p.2 = some x ∧ z.getScore p.1 = some y ∧ F64.cmp y x = .eq
  bare : withScores = false → ∀ p ∈ l, p.2 = none
  sorted : l.Pairwise fun p q => ∀ x ∈ z.getScore p.1, ∀ y ∈ z.getScore q.1, F64.cmp x y ≠ .gt

/-- `ZRANGEBYSCORE` returns that list and `ZCOUNT` its length; neither panics. -/
def ScoreRangeRight (now : Instant) (pos : Bytes → Nat) (z : SortedSetValue) (min max : F64) (withScores : Bool) :
    Prop :=
  ∃ l, z.Between min max withScores l ∧
    Slot.zrangeByScore now pos min max withScores (some (.sortedSet z)) = .ok (some l) ∧
    Slot.zcount now pos min max (some (.sortedSet z)) = .ok (some l.length)

namespace SortedSetValue

variable {z : SortedSetValue} {pos : Bytes → Nat}

/-- The listed members between the bounds. -/
def between (pos : Bytes → Nat) (z : SortedSetValue) (min max : F64) : List (F64 × Bytes) :=
  (z.listing pos).filter fun p => decide (F64.cmp p.1 min ≠ .lt ∧ F64.cmp p.1 max ≠ .gt)

theorem getRangeByScore_eq {min max : F64} (h : F64.cmp min max ≠ .gt) (withScores : Bool) :
    z.getRangeByScore pos min max withScores = some ((z.between pos min max).map (shown withScores)) := by
  unfold getRangeByScore between
  rw [if_neg h, ← List.filterMap_eq_map, List.filterMap_filter]
  congr 2
  funext p
  by_cases hp : F64.cmp p.1 min ≠ .lt ∧ F64.cmp p.1 max ≠ .gt
  · rw [if_pos hp, decide_eq_true hp]
    rfl
  · rw [if_neg hp, decide_eq_false hp]
    rfl

/-- A listed score compares with every score as the score of the member does. -/
theorem Indexed.listed (hz : z.Indexed) {x : F64} {m : Bytes} (h : (x, m) ∈ z.listing pos) :
    ∃ y, z.getScore m = some y ∧ y.norm = x.norm := by
  obtain ⟨b, hb, rfl, hm⟩ := mem_listing.mp h
  exact hz.score_of_bucket hb hm

theorem Indexed.between_members (hz : z.Indexed) (min max : F64) (m : Bytes) :
    m ∈ (z.between pos min max).map Prod.snd ↔
      ∃ x, z.getScore m = some x ∧ F64.cmp x min ≠ .lt ∧ F64.cmp x max ≠ .gt := by
  unfold between
  simp only [List.mem_map, List.mem_filter, decide_eq_true_eq, Prod.exists]
  constructor
  · rintro ⟨x, m, ⟨hlisted, hmin, hmax⟩, rfl⟩
    obtain ⟨y, hy, hyx⟩ := hz.listed hlisted
    refine ⟨y, hy, ?_, ?_⟩
    · rw [← F64.cmp_norm, hyx, F64.cmp_norm]
      exact hmin
    · rw [← F64.cmp_norm, hyx, F64.cmp_norm]
      exact hmax
  · rintro ⟨y, hy, hmin, hmax⟩
    obtain ⟨b, hb, hby, hmb⟩ := hz.bucket_of_score hy
    refine ⟨b.1, m, ⟨mem_listing.mpr ⟨b, hb, rfl, hmb⟩, ?_, ?_⟩, rfl⟩
    · rw [← F64.cmp_norm, hby, F64.cmp_norm]
      exact hmin
    · rw [← F64.cmp_norm, hby, F64.cmp_norm]
      exact hmax

theorem Indexed.between_right (hz : z.Indexed) (pos : Bytes → Nat) (min max : F64) (withScores : Bool) :
    z.Between min max withScores ((z.between pos min max).map (shown withScores)) := by
  have hfst : ((z.between pos min max).map (shown withScores)).map Prod.fst
      = (z.between pos min max).map Prod.snd := by
    rw [List.map_map]
    rfl
  have hlisted : ∀ p ∈ z.between pos min max, p ∈ z.listing pos := fun p hp => (List.mem_filter.mp hp).1
  refine ⟨?_, ?_, ?_, ?_, ?_⟩
  · rw [hfst]
    have hnodup := (hz.listing_perm pos).nodup_iff.mpr Std.ExtTreeMap.nodup_keys
    exact hnodup.sublist (List.filter_sublist.map _)
  · intro m
    rw [hfst]
    exact hz.between_members min max m
  · rintro rfl p hp
    obtain ⟨⟨x, m⟩, hin, rfl⟩ := List.mem_map.mp hp
    obtain ⟨y, hy, hyx⟩ := hz.listed (hlisted _ hin)
    refine ⟨x, y, rfl, hy, ?_⟩
    rw [← F64.cmp_norm, hyx]
    exact F64.cmp_self _
  · rintro rfl p hp
    obtain ⟨⟨x, m⟩, hin, rfl⟩ := List.mem_map.mp hp
    rfl
  · rw [List.pairwise_map]
    have hsorted := (hz.listing_sorted pos).sublist (List.filter_sublist (l := z.listing pos)
      (p := fun p => decide (F64.cmp p.1 min ≠ .lt ∧ F64.cmp p.1 max ≠ .gt)))
    refine hsorted.imp_of_mem ?_
    rintro ⟨x, m⟩ ⟨x', m'⟩ hp hq hle y hy y' hy'
    obtain ⟨w, hw, hwx⟩ := hz.listed (hlisted _ hp)
    obtain ⟨w', hw', hwx'⟩ := hz.listed (hlisted _ hq)
    obtain rfl : w = y := Option.some_inj.mp (hw.symm.trans hy)
    obtain rfl : w' = y' := Option.some_inj.mp (hw'.symm.trans hy')
    rw [← F64.cmp_norm, hwx, hwx', F64.cmp_norm]
    exact hle

end SortedSetValue

/-- **When the score-range queries are exact**: exactly when the bounds are in order. -/
theorem score_range_right_iff {now : Instant} {z : SortedSetValue} (hz : z.Reached)
    (hlive : expiredAt now z.expiresAt = false) (pos : Bytes → Nat) (min max : F64) (withScores : Bool) :
    ScoreRangeRight now pos z min max withScores ↔ F64.cmp min max ≠ .gt := by
  have hx : (CacheValue.sortedSet z).isExpired now = false := hlive
  have hrange : Slot.zrangeByScore now pos min max withScores (some (.sortedSet z))
      = .ok (z.getRangeByScore pos min max withScores) := by
    simp [Slot.zrangeByScore, Slot.readLive, Kind.sortedSet, hx]
  have hcount : Slot.zcount now pos min max (some (.sortedSet z))
      = .ok ((z.getRangeByScore pos min max false).map List.length) := by
    simp [Slot.zcount, Slot.readAs, Kind.sortedSet, hx]
  constructor
  · rintro ⟨l, -, hl, -⟩ hgt
    rw [hrange, SortedSetValue.getRangeByScore, if_pos hgt] at hl
    cases hl
  · intro h
    refine ⟨_, hz.indexed.between_right pos min max withScores, ?_, ?_⟩
    · rw [hrange, SortedSetValue.getRangeByScore_eq h]
    · rw [hcount, SortedSetValue.getRangeByScore_eq h, Option.map_some, List.length_map, List.length_map]

theorem score_range_right_twins :
    ScoreRangeRight 5 (fun _ => 0) SortedSetValue.twins .negInf (.fin 1) true :=
  (score_range_right_iff SortedSetValue.twins_reached rfl _ _ _ true).mpr (by decide)

/-- `ZRANGEBYSCORE k 2 1` and `ZCOUNT k 2 1` panic. -/
theorem score_range_reversed :
    Slot.zrangeByScore 0 (fun _ => 0) (.fin 2) (.fin 1) false (some (.sortedSet SortedSetValue.twins)) = .ok none ∧
      Slot.zcount 0 (fun _ => 0) (.fin 2) (.fin 1) (some (.sortedSet SortedSetValue.twins)) = .ok none ∧
      ¬ ScoreRangeRight 0 (fun _ => 0) SortedSetValue.twins (.fin 2) (.fin 1) false := by
  refine ⟨by decide, by decide, ?_⟩
  rintro ⟨l, -, -, hcount⟩
  rw [show Slot.zcount 0 (fun _ => 0) (.fin 2) (.fin 1) (some (.sortedSet SortedSetValue.twins)) = .ok none by decide]
    at hcount
  cases hcount

end FerricCache
