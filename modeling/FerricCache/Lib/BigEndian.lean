import Mathlib

/-!
# `Lib.BigEndian` — fixed-width big-endian numbers

`toBytes w n` is the `w`-byte big-endian form of `n` (its low `8 * w` bits), `ofBytes` reads one back.
The round trip is exact below `256 ^ w`.
-/

namespace Lib.BigEndian

/-- The `w` low bytes of `n`, most significant first. -/
def toBytes : Nat → Nat → List UInt8
  | 0, _ => []
  | w + 1, n => toBytes w (n / 256) ++ [UInt8.ofNat n]

/-- The number a byte string denotes. -/
def ofBytes (l : List UInt8) : Nat := l.foldl (fun n b => n * 256 + b.toNat) 0

@[simp] theorem length_toBytes (w n : Nat) : (toBytes w n).length = w := by
  induction w generalizing n with
  | zero => rfl
  | succ w ih => rw [toBytes, List.length_append, ih, List.length_singleton]

theorem ofBytes_append_singleton (l : List UInt8) (b : UInt8) :
    ofBytes (l ++ [b]) = ofBytes l * 256 + b.toNat := by
  rw [ofBytes, List.foldl_append]
  rfl

/-- **Round trip**, up to the width. -/
theorem ofBytes_toBytes (w n : Nat) : ofBytes (toBytes w n) = n % 256 ^ w := by
  induction w generalizing n with
  | zero =>
      rw [toBytes, pow_zero, Nat.mod_one]
      rfl
  | succ w ih =>
      have hbyte : (UInt8.ofNat n).toNat = n % 256 := by simp
      rw [toBytes, ofBytes_append_singleton, ih, hbyte, pow_succ, mul_comm (256 ^ w) 256,
        Nat.mod_mul]
      omega

theorem ofBytes_toBytes_of_lt {w n : Nat} (h : n < 256 ^ w) : ofBytes (toBytes w n) = n := by
  rw [ofBytes_toBytes, Nat.mod_eq_of_lt h]

/-- Reading a number at the place where a byte string holds it. -/
theorem ofBytes_field {w n k : Nat} {data pre post : List UInt8} (hpre : pre.length = k)
    (hdata : data = pre ++ (toBytes w n ++ post)) (hn : n < 256 ^ w) :
    ofBytes ((data.drop k).take w) = n := by
  rw [hdata, List.drop_left' hpre, List.take_left' (length_toBytes w n), ofBytes_toBytes_of_lt hn]

end Lib.BigEndian
