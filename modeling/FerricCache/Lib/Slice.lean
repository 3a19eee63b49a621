import Mathlib

/-!
# `Lib.Slice` — the elements of a list between two signed positions

`slice l s e` is the list of the elements at positions `i` with `s ≤ i ≤ e`, both bounds integers of any size.
`fromEnd n i` reads a negative position from the end of a list of length `n`. An implementation takes and drops
at clamped natural bounds; it is right as soon as its bounds separate the positions like `s` and `e` do
(`slice_eq_of_bounds`).
-/

namespace Lib.Slice

variable {α : Type}

/-- A negative position counts from the end. -/
def fromEnd (n : Nat) (i : Int) : Int := if i < 0 then n + i else i

/-- The elements at positions `i` with `s ≤ i ≤ e`. -/
def slice (l : List α) (s e : Int) : List α :=
  (l.zipIdx.filter fun p => decide (s ≤ (p.2 : Int) ∧ (p.2 : Int) ≤ e)).map Prod.fst

/-- Positions from `k` on that lie in `[a, b)` are cut out by `drop` and `take`. -/
theorem filter_zipIdx (l : List α) (a b k : Nat) :
    ((l.zipIdx k).filter fun p => decide (a ≤ p.2 ∧ p.2 < b)).map Prod.fst
      = (l.drop (a - k)).take (b - max a k) := by
  induction l generalizing k with
  | nil => simp
  | cons x l ih =>
      rw [List.zipIdx_cons]
      by_cases hak : a ≤ k
      · have hdrop : a - k = 0 := Nat.sub_eq_zero_of_le hak
        have hdrop' : a - (k + 1) = 0 := by omega
        rw [hdrop, List.drop_zero]
        by_cases hkb : k < b
        · have htake : b - max a k = (b - max a (k + 1)) + 1 := by omega
          rw [List.filter_cons_of_pos (by simpa using ⟨hak, hkb⟩), List.map_cons, ih, hdrop', htake,
            List.take_succ_cons, List.drop_zero]
        · have htake : b - max a k = 0 := by omega
          have htake' : b - max a (k + 1) = 0 := by omega
          rw [List.filter_cons_of_neg (by simp [hkb]), ih, htake, htake', List.take_zero, List.take_zero]
      · have hdrop : a - k = (a - (k + 1)) + 1 := by omega
        have hmax : max a k = max a (k + 1) := by omega
        rw [List.filter_cons_of_neg (by simp [hak]), ih, hdrop, List.drop_succ_cons, hmax]

/-- **Bounds that separate the positions alike cut the same slice.** -/
theorem slice_eq_of_bounds {l : List α} {s e : Int} {a b : Nat}
    (ha : ∀ i < l.length, s ≤ (i : Int) ↔ a ≤ i) (hb : ∀ i < l.length, (i : Int) ≤ e ↔ i < b) :
    slice l s e = (l.drop a).take (b - a) := by
  have h := filter_zipIdx l a b 0
  rw [Nat.sub_zero, Nat.max_zero] at h
  rw [← h, slice]
  congr 1
  apply List.filter_congr
  rintro ⟨x, i⟩ hp
  have hi : i < l.length := by
    have := List.snd_lt_add_of_mem_zipIdx hp
    simpa using this
  simp only [ha i hi, hb i hi]

/-- Nothing lies between the bounds. -/
theorem slice_eq_nil {l : List α} {s e : Int} (h : ∀ i < l.length, s ≤ (i : Int) → ¬ (i : Int) ≤ e) :
    slice l s e = [] := by
  unfold slice
  rw [List.map_eq_nil_iff, List.filter_eq_nil_iff]
  rintro ⟨x, i⟩ hp
  have hi : i < l.length := by
    have := List.snd_lt_add_of_mem_zipIdx hp
    simpa using this
  simpa using h i hi

end Lib.Slice
