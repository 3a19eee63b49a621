import FerricCache.Storage.Multi
import FerricCache.Data.ScoreIndex
import FerricCache.Lib.Slice

/-!
# `FerricCache.Storage.Slices` — the commands that take a slice by index

`LRANGE`, `LINDEX`, `LTRIM`, `ZRANGE` and `ZREVRANGE` promise the elements at positions `i` with `s ≤ i ≤ e`,
where `s` and `e` are the bounds with the length added when negative (`Lib.Slice`). Each normalises its bounds
with formulas of its own, and each misses the promise on bounds of its own:

* `LRANGE` and `LINDEX` clamp a start past the end to the last element, and add 1 to `i64::MAX`;
* `LTRIM` and `ZREVRANGE` add 1 to `i64::MAX`, which the cast to `usize` makes a range past the end: a panic;
* `ZRANGE` clamps a stop before the first element to the first element.
-/

namespace FerricCache

open Lib.Slice

/-- The value is one of an `i64`. -/
def FitsI64 (x : Int) : Prop := -2 ^ 63 ≤ x ∧ x < 2 ^ 63

instance (x : Int) : Decidable (FitsI64 x) := inferInstanceAs (Decidable (_ ∧ _))

theorem fitsI64_toInt (x : Int64) : FitsI64 x.toInt := ⟨x.le_toInt, x.toInt_lt⟩

theorem wrapI64_of_fits {x : Int} (h : FitsI64 x) : wrapI64 x = x := by
  obtain ⟨h1, h2⟩ := h
  unfold wrapI64
  rw [Int.bmod_eq_of_le] <;> omega

theorem asUsize_of_fits {x : Int} (h0 : 0 ≤ x) (h : x < 2 ^ 64) : asUsize x = x.toNat := by
  unfold asUsize
  rw [Int.emod_eq_of_lt h0 h]

/-! ## `LRANGE` and `LINDEX` -/

/-- No sum of `ListValue::get_range` leaves the `i64` range; a length is at most `isize::MAX`. -/
def ListValue.RangeFits (n : Nat) (start stop : Int64) : Prop :=
  (n ≤ isizeMax → (start.toInt < 0 → FitsI64 (n + start.toInt)) ∧ FitsI64 ((n : Int) - 1) ∧
    (stop.toInt < 0 → FitsI64 (n + stop.toInt) ∧ FitsI64 (n + stop.toInt + 1))) ∧
  (0 ≤ stop.toInt → FitsI64 (stop.toInt + 1))

/-- `LRANGE` returns the elements between the bounds. -/
def LrangeRight (now : Instant) (l : ListValue) (start stop : Int64) : Prop :=
  ListValue.RangeFits l.items.length start stop ∧
    Slot.lrange now start stop (some (.list l))
      = .ok (slice l.items (fromEnd l.items.length start.toInt) (fromEnd l.items.length stop.toInt))

/-- The element at a position, if there is one. -/
def elementAt (l : List Bytes) (i : Int) : Option Bytes := if 0 ≤ i then l[i.toNat]? else none

/-- `LINDEX` returns the element at the index. -/
def LindexRight (now : Instant) (l : ListValue) (index : Int64) : Prop :=
  ListValue.RangeFits l.items.length index index ∧
    Slot.lindex now index (some (.list l))
      = .ok (elementAt l.items (fromEnd l.items.length index.toInt))

/-- The start of the range as `get_range` clamps it. -/
def ListValue.startIdx (n : Nat) (start : Int64) : Nat :=
  if start.toInt < 0 then (max ((n : Int) + start.toInt) 0).toNat
  else (max (min start.toInt ((n : Int) - 1)) 0).toNat

/-- The end of the range as `get_range` clamps it. -/
def ListValue.stopIdx (n : Nat) (stop : Int64) : Nat :=
  if stop.toInt < 0 then (max ((n : Int) + stop.toInt + 1) 0).toNat
  else (max (min (wrapI64 (stop.toInt + 1)) (n : Int)) 0).toNat

theorem ListValue.getRange_eq (l : ListValue) (start stop : Int64) :
    l.getRange start stop = (l.items.drop (startIdx l.items.length start)).take
      (stopIdx l.items.length stop - startIdx l.items.length start) := by
  show (if stopIdx l.items.length stop ≤ startIdx l.items.length start then [] else _) = _
  split
  · rename_i h
    rw [Nat.sub_eq_zero_of_le h, List.take_zero]
  · rfl

theorem rangeFits_iff {n : Nat} {start stop : Int64} :
    ListValue.RangeFits n start stop ↔ stop.toInt ≠ 2 ^ 63 - 1 := by
  have h1 := fitsI64_toInt start
  have h2 := fitsI64_toInt stop
  unfold ListValue.RangeFits FitsI64 isizeMax at *
  constructor
  · intro h he
    have hsum := h.2 (by omega)
    omega
  · intro h
    refine ⟨fun hn => ⟨?_, ?_, ?_⟩, ?_⟩ <;> omega

/-- A start before the end is clamped to where the slice starts. -/
theorem startIdx_separates {n : Nat} {start : Int64} (h : start.toInt < n) {i : Nat} :
    fromEnd n start.toInt ≤ (i : Int) ↔ ListValue.startIdx n start ≤ i := by
  unfold fromEnd ListValue.startIdx
  split <;> omega

/-- Off `i64::MAX` the stop is clamped to where the slice ends. -/
theorem stopIdx_separates {n : Nat} {stop : Int64} (h : stop.toInt ≠ 2 ^ 63 - 1) {i : Nat} (hi : i < n) :
    (i : Int) ≤ fromEnd n stop.toInt ↔ i < ListValue.stopIdx n stop := by
  have hfits := fitsI64_toInt stop
  unfold FitsI64 at hfits
  unfold fromEnd ListValue.stopIdx
  split
  · omega
  · rw [wrapI64_of_fits ⟨by omega, by omega⟩]
    omega

/-- `get_range` is right exactly when the start is before the end, or the stop is before the last element. -/
theorem getRange_right_iff (l : ListValue) {start stop : Int64} (h : stop.toInt ≠ 2 ^ 63 - 1) :
    l.getRange start stop
        = slice l.items (fromEnd l.items.length start.toInt) (fromEnd l.items.length stop.toInt) ↔
      l.items.length = 0 ∨ start.toInt < l.items.length ∨
        stop.toInt < (l.items.length : Int) - 1 ∧ stop.toInt ≠ -1 := by
  have hfits := fitsI64_toInt stop
  unfold FitsI64 at hfits
  rw [ListValue.getRange_eq]
  by_cases hstart : start.toInt < l.items.length
  · rw [slice_eq_of_bounds (fun i _ => startIdx_separates hstart) fun i hi => stopIdx_separates h hi]
    exact ⟨fun _ => Or.inr (Or.inl hstart), fun _ => rfl⟩
  · -- the start is past the end: nothing is between the bounds
    have hnil : slice l.items (fromEnd l.items.length start.toInt) (fromEnd l.items.length stop.toInt) = [] := by
      apply slice_eq_nil
      intro i hi hs
      unfold fromEnd at hs
      split at hs <;> omega
    have hclamp : ListValue.startIdx l.items.length start = l.items.length - 1 := by
      unfold ListValue.startIdx
      split <;> omega
    have hend : ListValue.stopIdx l.items.length stop ≤ l.items.length - 1 ↔
        l.items.length = 0 ∨ stop.toInt < (l.items.length : Int) - 1 ∧ stop.toInt ≠ -1 := by
      unfold ListValue.stopIdx
      split
      · omega
      · rw [wrapI64_of_fits ⟨by omega, by omega⟩]
        omega
    rw [hnil, hclamp, List.take_eq_nil_iff, List.drop_eq_nil_iff, Nat.sub_eq_zero_iff_le, hend]
    constructor
    · rintro (h | h)
      · omega
      · omega
    · intro h
      omega

theorem lrange_live {now : Instant} {l : ListValue} (hlive : expiredAt now l.expiresAt = false)
    (start stop : Int64) : Slot.lrange now start stop (some (.list l)) = .ok (l.getRange start stop) := by
  have hx : (CacheValue.list l).isExpired now = false := hlive
  simp [Slot.lrange, Slot.readAs, Kind.list, hx]

theorem lindex_live {now : Instant} {l : ListValue} (hlive : expiredAt now l.expiresAt = false)
    (index : Int64) : Slot.lindex now index (some (.list l)) = .ok (l.getRange index index).head? := by
  have hx : (CacheValue.list l).isExpired now = false := hlive
  simp [Slot.lindex, Slot.readAs, Kind.list, hx]

theorem lrangeRight_iff {now : Instant} {l : ListValue} (hlive : expiredAt now l.expiresAt = false)
    (start stop : Int64) :
    LrangeRight now l start stop ↔ stop.toInt ≠ 2 ^ 63 - 1 ∧
      (l.items.length = 0 ∨ start.toInt < l.items.length ∨
        stop.toInt < (l.items.length : Int) - 1 ∧ stop.toInt ≠ -1) := by
  unfold LrangeRight
  rw [lrange_live hlive, Except.ok.injEq, rangeFits_iff]
  exact and_congr_right fun h => getRange_right_iff l h

theorem lindexRight_iff {now : Instant} {l : ListValue} (hlive : expiredAt now l.expiresAt = false)
    (index : Int64) :
    LindexRight now l index ↔ index.toInt ≠ 2 ^ 63 - 1 ∧
      (l.items.length = 0 ∨ index.toInt < l.items.length) := by
  unfold LindexRight
  rw [lindex_live hlive, Except.ok.injEq, rangeFits_iff]
  refine and_congr_right fun h => ?_
  have hfits := fitsI64_toInt index
  unfold FitsI64 at hfits
  by_cases hidx : index.toInt < l.items.length
  · -- one position at most lies between the bounds
    refine ⟨fun _ => Or.inr hidx, fun _ => ?_⟩
    rw [(getRange_right_iff l h).mpr (Or.inr (Or.inl hidx)), elementAt]
    split
    · rename_i h0
      rw [slice_eq_of_bounds (a := (fromEnd l.items.length index.toInt).toNat)
        (b := (fromEnd l.items.length index.toInt).toNat + 1) (by omega) (by omega)]
      simp [List.head?_take, List.head?_drop]
    · rename_i h0
      rw [slice_eq_nil (by omega), List.head?_nil]
  · -- the last element is returned for a position past the end
    have hnone : elementAt l.items (fromEnd l.items.length index.toInt) = none := by
      have hpos : fromEnd l.items.length index.toInt = index.toInt := if_neg (by omega)
      rw [hpos, elementAt, if_pos (by omega)]
      exact List.getElem?_eq_none (by omega)
    have hmax : ListValue.startIdx l.items.length index = l.items.length - 1 ∧
        ListValue.stopIdx l.items.length index = l.items.length := by
      unfold ListValue.startIdx ListValue.stopIdx
      rw [if_neg (by omega), if_neg (by omega), wrapI64_of_fits ⟨by omega, by omega⟩]
      omega
    rw [hnone, ListValue.getRange_eq, hmax.1, hmax.2, List.head?_eq_none_iff, List.take_eq_nil_iff,
      List.drop_eq_nil_iff]
    omega

/-- **When `LRANGE` and `LINDEX` return the right elements** of a live list. -/
theorem list_reads_right_iff {now : Instant} {l : ListValue} (hlive : expiredAt now l.expiresAt = false)
    (start stop index : Int64) :
    (LrangeRight now l start stop ↔ stop.toInt ≠ 2 ^ 63 - 1 ∧
      (l.items.length = 0 ∨ start.toInt < l.items.length ∨
        stop.toInt < (l.items.length : Int) - 1 ∧ stop.toInt ≠ -1)) ∧
    (LindexRight now l index ↔ index.toInt ≠ 2 ^ 63 - 1 ∧
      (l.items.length = 0 ∨ index.toInt < l.items.length)) :=
  ⟨lrangeRight_iff hlive start stop, lindexRight_iff hlive index⟩

theorem list_reads_right_abc :
    LrangeRight 5 ⟨[utf8 "a", utf8 "b", utf8 "c"], some 9⟩ (-2) 7 ∧
      LindexRight 5 ⟨[utf8 "a", utf8 "b", utf8 "c"], some 9⟩ (-1) :=
  ⟨(list_reads_right_iff (by decide) (-2) 7 0).1.mpr (by decide),
    (list_reads_right_iff (by decide) 0 0 (-1)).2.mpr (by decide)⟩

/-- `LRANGE 5 7` of a list of three elements is its last one, and so is `LINDEX 5`; `LRANGE 0 i64::MAX` is
    empty. -/
theorem range_past_the_end :
    let l : ListValue := ⟨[utf8 "a", utf8 "b", utf8 "c"], none⟩
    Slot.lrange 0 5 7 (some (.list l)) = .ok [utf8 "c"] ∧ ¬ LrangeRight 0 l 5 7 ∧
      Slot.lindex 0 5 (some (.list l)) = .ok (some (utf8 "c")) ∧ ¬ LindexRight 0 l 5 ∧
      Slot.lrange 0 0 9223372036854775807 (some (.list l)) = .ok [] ∧
      ¬ LrangeRight 0 l 0 9223372036854775807 := by
  refine ⟨by decide, ?_, by decide, ?_, by decide, ?_⟩
  · rw [lrangeRight_iff rfl]
    decide
  · rw [lindexRight_iff rfl]
    decide
  · rw [lrangeRight_iff rfl]
    decide

/-! ## The slice of `LTRIM` and `ZREVRANGE` -/

/-- No sum of `ltrim` and `zrevrange` leaves the `i64` range. -/
def SliceFits (n : Nat) (start stop : Int64) : Prop :=
  (start.toInt < 0 → FitsI64 (n + start.toInt)) ∧
  (stop.toInt < 0 → FitsI64 (n + stop.toInt) ∧ FitsI64 (max (n + stop.toInt) (-1) + 1)) ∧
  (0 ≤ stop.toInt → FitsI64 (stop.toInt + 1))

theorem sliceFits_iff {n : Nat} (hn : n ≤ isizeMax) {start stop : Int64} :
    SliceFits n start stop ↔ stop.toInt ≠ 2 ^ 63 - 1 := by
  have h1 := fitsI64_toInt start
  have h2 := fitsI64_toInt stop
  unfold SliceFits FitsI64 isizeMax at *
  constructor
  · intro h he
    have hsum := h.2.2 (by omega)
    omega
  · intro h
    refine ⟨?_, ?_, ?_⟩ <;> omega

theorem sliceStart_separates {n : Nat} (hn : n ≤ isizeMax) (start : Int64) {i : Nat} (hi : i < n) :
    fromEnd n start.toInt ≤ (i : Int) ↔ Slot.sliceStart n start ≤ i := by
  have hfits := fitsI64_toInt start
  unfold FitsI64 at hfits
  unfold isizeMax at hn
  unfold fromEnd Slot.sliceStart
  split <;> rw [asUsize_of_fits (by omega) (by omega)] <;> omega

theorem sliceEnd_separates {n : Nat} (hn : n ≤ isizeMax) {stop : Int64} (h : stop.toInt ≠ 2 ^ 63 - 1) {i : Nat}
    (hi : i < n) : (i : Int) ≤ fromEnd n stop.toInt ↔ i < Slot.sliceEnd n stop := by
  have hfits := fitsI64_toInt stop
  unfold FitsI64 at hfits
  unfold isizeMax at hn
  unfold fromEnd Slot.sliceEnd
  split
  · rw [asUsize_of_fits (by omega) (by omega)]
    omega
  · rw [wrapI64_of_fits ⟨by omega, by omega⟩, asUsize_of_fits (by omega) (by omega)]
    omega

theorem sliceEnd_le {n : Nat} (hn : n ≤ isizeMax) {stop : Int64} (h : stop.toInt ≠ 2 ^ 63 - 1) :
    Slot.sliceEnd n stop ≤ n := by
  have hfits := fitsI64_toInt stop
  unfold FitsI64 at hfits
  unfold isizeMax at hn
  unfold Slot.sliceEnd
  split
  · rw [asUsize_of_fits (by omega) (by omega)]
    omega
  · rw [wrapI64_of_fits ⟨by omega, by omega⟩, asUsize_of_fits (by omega) (by omega)]
    omega

/-- Off `i64::MAX` the slice is cut where it should be. -/
theorem slice_eq_cut {α : Type} {l : List α} (hn : l.length ≤ isizeMax) (start : Int64) {stop : Int64}
    (h : stop.toInt ≠ 2 ^ 63 - 1) :
    slice l (fromEnd l.length start.toInt) (fromEnd l.length stop.toInt)
      = (l.drop (Slot.sliceStart l.length start)).take
          (Slot.sliceEnd l.length stop - Slot.sliceStart l.length start) :=
  slice_eq_of_bounds (fun _ hi => sliceStart_separates hn start hi) fun _ hi => sliceEnd_separates hn h hi

/-! ## `LTRIM` -/

/-- `LTRIM` leaves the elements between the bounds, and nothing else is changed. -/
def LtrimRight [KeyHash] (now : Instant) (s : CacheStorage) (key : Bytes) (l : ListValue) (start stop : Int64) :
    Prop :=
  SliceFits l.items.length start stop ∧
  (s.onKey key (Slot.ltrim now start stop)).1 = .ok (some ()) ∧
  (s.onKey key (Slot.ltrim now start stop)).2.slotAt key = some (.list
    ⟨slice l.items (fromEnd l.items.length start.toInt) (fromEnd l.items.length stop.toInt), l.expiresAt⟩) ∧
  ∀ k, k ≠ key → (s.onKey key (Slot.ltrim now start stop)).2.slotAt k = s.slotAt k

/-- Off `i64::MAX` nothing is drained past the end. -/
theorem ltrim_live {now : Instant} {l : ListValue} (hlive : expiredAt now l.expiresAt = false)
    (hn : l.items.length ≤ isizeMax) (start : Int64) {stop : Int64} (h : stop.toInt ≠ 2 ^ 63 - 1) :
    Slot.ltrim now start stop (some (.list l)) = (.ok (some ()), some (.list
      ⟨slice l.items (fromEnd l.items.length start.toInt) (fromEnd l.items.length stop.toInt),
        l.expiresAt⟩)) := by
  have hx : (CacheValue.list l).isExpired now = false := hlive
  have hend := sliceEnd_le hn h
  rw [slice_eq_cut hn start h]
  simp only [Slot.ltrim, Slot.writeLive, Kind.list, hx, Bool.false_eq_true, if_false]
  split
  · rename_i hle
    rw [Nat.sub_eq_zero_of_le hle, List.take_zero]
  · rw [if_neg (by omega)]

/-- **When `LTRIM` keeps exactly the requested slice** of a live list. -/
theorem ltrim_right_iff [KeyHash] {now : Instant} {s : CacheStorage} {key : Bytes} {l : ListValue}
    (hs : s.slotAt key = some (.list l)) (hlive : expiredAt now l.expiresAt = false)
    (hn : l.items.length ≤ isizeMax) (start stop : Int64) :
    LtrimRight now s key l start stop ↔ stop.toInt ≠ 2 ^ 63 - 1 := by
  constructor
  · rintro ⟨hfits, -⟩
    exact (sliceFits_iff hn).mp hfits
  · intro h
    refine ⟨(sliceFits_iff hn).mpr h, ?_, ?_, ?_⟩
    · rw [CacheStorage.onKey, hs, ltrim_live hlive hn start h]
    · rw [CacheStorage.onKey, hs, ltrim_live hlive hn start h, CacheStorage.slotAt_setEntry_self]
    · intro k hk
      exact CacheStorage.slotAt_setEntry_ne hk

theorem ltrim_right_abc :
    let _ := shortKeys
    let l : ListValue := ⟨[utf8 "a", utf8 "b", utf8 "c"], some 9⟩
    LtrimRight 5 (CacheStorage.new.setEntry (utf8 "k") (some (.list l))) (utf8 "k") l 1 (-1) := by
  intro _ l
  refine (ltrim_right_iff ?_ ?_ ?_ 1 (-1)).mpr ?_
  · exact CacheStorage.slotAt_setEntry_self _ _ _
  · decide
  · decide
  · decide

/-- `LTRIM 1 i64::MAX` panics in the second `drain`, with the first element gone. -/
theorem ltrim_to_max :
    let _ := shortKeys
    let l : ListValue := ⟨[utf8 "a", utf8 "b", utf8 "c"], none⟩
    let s := CacheStorage.new.setEntry (utf8 "k") (some (.list l))
    (s.onKey (utf8 "k") (Slot.ltrim 0 1 9223372036854775807)).1 = .ok none ∧
      ¬ LtrimRight 0 s (utf8 "k") l 1 9223372036854775807 := by
  intro _ l s
  have hslot : s.slotAt (utf8 "k") = some (.list l) := CacheStorage.slotAt_setEntry_self _ _ _
  have hrun : (s.onKey (utf8 "k") (Slot.ltrim 0 1 9223372036854775807)).1 = .ok none := by
    rw [CacheStorage.onKey, hslot]
    decide
  refine ⟨hrun, ?_⟩
  rintro ⟨-, hok, -⟩
  rw [hrun] at hok
  cases hok

/-! ## `ZRANGE` and `ZREVRANGE` -/

/-- The sums of `zrange` stay in the `i64` range. -/
def ZrangeFits (n : Nat) (start stop : Int64) : Prop :=
  (start.toInt < 0 → FitsI64 (n + start.toInt)) ∧ (stop.toInt < 0 → FitsI64 (n + stop.toInt))

/-- `ZRANGE` returns the members between the bounds, in the order of the listing. -/
def ZrangeRight (now : Instant) (pos : Bytes → Nat) (z : SortedSetValue) (start stop : Int64) (withScores : Bool) :
    Prop :=
  ZrangeFits z.len start stop ∧
    Slot.zrange now pos start stop withScores (some (.sortedSet z)) = .ok (slice
      ((z.listing pos).map (SortedSetValue.shown withScores)) (fromEnd z.len start.toInt) (fromEnd z.len stop.toInt))

/-- `ZREVRANGE` returns the members between the bounds, in the reverse order of the listing. -/
def ZrevrangeRight (now : Instant) (pos : Bytes → Nat) (z : SortedSetValue) (start stop : Int64)
    (withScores : Bool) : Prop :=
  SliceFits z.len start stop ∧
    Slot.zrevrange now pos start stop withScores (some (.sortedSet z)) = .ok (some (slice
      ((z.listing pos).map (SortedSetValue.shown withScores)).reverse (fromEnd z.len start.toInt)
        (fromEnd z.len stop.toInt)))

theorem zrange_live {now : Instant} {z : SortedSetValue} (hlive : expiredAt now z.expiresAt = false)
    (pos : Bytes → Nat) (start stop : Int64) (withScores : Bool) :
    Slot.zrange now pos start stop withScores (some (.sortedSet z))
      = .ok (z.getRange pos (Slot.zIndex z.len start) (Slot.zIndex z.len stop) withScores) := by
  have hx : (CacheValue.sortedSet z).isExpired now = false := hlive
  simp [Slot.zrange, Slot.readAs, Kind.sortedSet, hx]

theorem zrangeFits {n : Nat} (hn : n ≤ isizeMax) (start stop : Int64) : ZrangeFits n start stop := by
  have h1 := fitsI64_toInt start
  have h2 := fitsI64_toInt stop
  unfold ZrangeFits FitsI64 isizeMax at *
  constructor <;> omega

theorem zIndex_start_separates (n : Nat) (start : Int64) (i : Nat) :
    fromEnd n start.toInt ≤ (i : Int) ↔ Slot.zIndex n start ≤ i := by
  unfold fromEnd Slot.zIndex
  split <;> omega

/-- A stop that is not before the first element is where the slice ends. -/
theorem zIndex_stop_separates {n : Nat} {stop : Int64} (h : -(n : Int) ≤ stop.toInt) (i : Nat) :
    (i : Int) ≤ fromEnd n stop.toInt ↔ i < Slot.zIndex n stop + 1 := by
  unfold fromEnd Slot.zIndex
  split <;> omega

theorem zIndex_eq_zero_iff {n : Nat} {start : Int64} :
    Slot.zIndex n start = 0 ↔ ¬ (start.toInt ≠ 0 ∧ -(n : Int) < start.toInt) := by
  unfold Slot.zIndex
  split <;> omega

/-- When `zrange` returns the slice: a stop before the first element is clamped to the first element. -/
theorem zrangeRight_iff {now : Instant} {z : SortedSetValue} (hlive : expiredAt now z.expiresAt = false)
    {pos : Bytes → Nat} (hlist : (z.listing pos).length = z.len) (hn : z.len ≤ isizeMax) (start stop : Int64)
    (withScores : Bool) :
    ZrangeRight now pos z start stop withScores ↔
      z.len = 0 ∨ -(z.len : Int) ≤ stop.toInt ∨ start.toInt ≠ 0 ∧ -(z.len : Int) < start.toInt := by
  unfold ZrangeRight
  rw [zrange_live hlive, Except.ok.injEq, SortedSetValue.getRange_eq, ← hlist]
  rw [and_iff_right (zrangeFits (by omega) start stop)]
  have hlen : ((z.listing pos).map (SortedSetValue.shown withScores)).length = (z.listing pos).length :=
    List.length_map _
  by_cases hstop : -((z.listing pos).length : Int) ≤ stop.toInt
  · rw [slice_eq_of_bounds (fun i _ => zIndex_start_separates _ start i) fun i _ => zIndex_stop_separates hstop i]
    exact ⟨fun _ => Or.inr (Or.inl hstop), fun _ => rfl⟩
  · -- the whole range lies before the first element
    have hclamp : Slot.zIndex (z.listing pos).length stop = 0 := by
      rw [zIndex_eq_zero_iff]
      omega
    have hnil : slice ((z.listing pos).map (SortedSetValue.shown withScores))
        (fromEnd (z.listing pos).length start.toInt)
        (fromEnd (z.listing pos).length stop.toInt) = [] := by
      apply slice_eq_nil
      intro i _ _ hi
      unfold fromEnd at hi
      split at hi <;> omega
    have hzero : 0 + 1 - Slot.zIndex (z.listing pos).length start = 0 ↔
        start.toInt ≠ 0 ∧ -((z.listing pos).length : Int) < start.toInt := by
      rw [← not_iff_not (b := _ ∧ _), ← zIndex_eq_zero_iff]
      omega
    rw [hnil, hclamp, List.take_eq_nil_iff, List.drop_eq_nil_iff, hzero, hlen]
    constructor
    · rintro (h | h)
      · exact Or.inr (Or.inr h)
      · by_cases hpos : start.toInt ≠ 0 ∧ -((z.listing pos).length : Int) < start.toInt
        · exact Or.inr (Or.inr hpos)
        · have hzero := zIndex_eq_zero_iff.mpr hpos
          omega
    · rintro (h | h | h)
      · exact Or.inr (by omega)
      · exact absurd h hstop
      · exact Or.inl h

/-- `ZREVRANGE` slices the whole listing, reversed. -/
theorem zrevrange_live {now : Instant} {z : SortedSetValue} (hlive : expiredAt now z.expiresAt = false)
    {pos : Bytes → Nat} (hlist : (z.listing pos).length = z.len) (start stop : Int64) (withScores : Bool) :
    Slot.zrevrange now pos start stop withScores (some (.sortedSet z))
      = .ok (Slot.revSlice ((z.listing pos).map (SortedSetValue.shown withScores)).reverse start stop) := by
  have hall : Slot.zrange now pos 0 (-1) withScores (some (.sortedSet z))
      = .ok ((z.listing pos).map (SortedSetValue.shown withScores)) := by
    have hstop : Slot.zIndex z.len (-1) = z.len - 1 := by
      show (if (-1 : Int64).toInt < 0 then _ else _) = _
      rw [if_pos (by decide), show (-1 : Int64).toInt = -1 by decide]
      omega
    rw [zrange_live hlive, SortedSetValue.getRange_eq, hstop, show Slot.zIndex z.len 0 = 0 from rfl, List.drop_zero,
      List.take_of_length_le]
    rw [List.length_map]
    omega
  unfold Slot.zrevrange
  rw [hall]

theorem zrevrangeRight_iff {now : Instant} {z : SortedSetValue} (hlive : expiredAt now z.expiresAt = false)
    {pos : Bytes → Nat} (hlist : (z.listing pos).length = z.len) (hn : z.len ≤ isizeMax) (start stop : Int64)
    (withScores : Bool) :
    ZrevrangeRight now pos z start stop withScores ↔ stop.toInt ≠ 2 ^ 63 - 1 := by
  unfold ZrevrangeRight
  rw [zrevrange_live hlive hlist, Except.ok.injEq, sliceFits_iff hn]
  rw [and_iff_left_iff_imp]
  intro h
  have hlen : ((z.listing pos).map (SortedSetValue.shown withScores)).reverse.length = z.len := by
    rw [List.length_reverse, List.length_map, hlist]
  have hcut := slice_eq_cut (l := ((z.listing pos).map (SortedSetValue.shown withScores)).reverse) (by omega) start h
  rw [hlen] at hcut
  have hend := sliceEnd_le hn h
  rw [hcut, Slot.revSlice, hlen]
  split
  · rename_i hle
    rw [Nat.sub_eq_zero_of_le hle, List.take_zero]
  · rw [if_neg (by omega)]

/-- **When `ZRANGE` and `ZREVRANGE` return the right members** of a live sorted set. -/
theorem zset_slices_right_iff {now : Instant} {z : SortedSetValue} (hlive : expiredAt now z.expiresAt = false)
    {pos : Bytes → Nat} (hlist : (z.listing pos).length = z.len) (hn : z.len ≤ isizeMax) (start stop : Int64)
    (withScores : Bool) :
    (ZrangeRight now pos z start stop withScores ↔
      z.len = 0 ∨ -(z.len : Int) ≤ stop.toInt ∨ start.toInt ≠ 0 ∧ -(z.len : Int) < start.toInt) ∧
    (ZrevrangeRight now pos z start stop withScores ↔ stop.toInt ≠ 2 ^ 63 - 1) :=
  ⟨zrangeRight_iff hlive hlist hn start stop withScores, zrevrangeRight_iff hlive hlist hn start stop withScores⟩

/-- Three members, two of them with one score. -/
def abcScores : SortedSetValue :=
  ((SortedSetValue.new.add (.fin 1) (utf8 "a")).add .posInf (utf8 "c")).add .posInf (utf8 "b")

theorem abcScores_indexed : abcScores.Indexed :=
  ((SortedSetValue.indexed_new.add (by simp) _).add (by simp) _).add (by simp) _

theorem zset_slices_right_abc :
    ZrangeRight 5 (fun _ => 0) abcScores (-2) 7 true ∧ ZrevrangeRight 5 (fun _ => 0) abcScores 0 (-9) false :=
  ⟨(zset_slices_right_iff rfl (abcScores_indexed.length_listing _) (by decide) (-2) 7 true).1.mpr (by decide),
    (zset_slices_right_iff rfl (abcScores_indexed.length_listing _) (by decide) 0 (-9) false).2.mpr (by decide)⟩

/-- `ZRANGE 0 -5` of three members is the first one, where `ZREVRANGE 0 -5` is empty; `ZREVRANGE 0 i64::MAX`
    panics. -/
theorem zrange_before_the_start :
    Slot.zrange 0 (fun _ => 0) 0 (-5) false (some (.sortedSet abcScores)) = .ok [(utf8 "a", none)] ∧
      ¬ ZrangeRight 0 (fun _ => 0) abcScores 0 (-5) false ∧
      Slot.zrevrange 0 (fun _ => 0) 0 (-5) false (some (.sortedSet abcScores)) = .ok (some []) ∧
      Slot.zrevrange 0 (fun _ => 0) 0 9223372036854775807 false (some (.sortedSet abcScores)) = .ok none ∧
      ¬ ZrevrangeRight 0 (fun _ => 0) abcScores 0 9223372036854775807 false := by
  refine ⟨by decide, ?_, by decide, by decide, ?_⟩
  · rw [zrangeRight_iff rfl (abcScores_indexed.length_listing _) (by decide)]
    decide
  · rw [zrevrangeRight_iff rfl (abcScores_indexed.length_listing _) (by decide)]
    decide

end FerricCache
