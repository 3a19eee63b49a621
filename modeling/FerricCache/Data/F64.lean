import FerricCache.Basic
import FerricCache.Lib.OrdList

/-!
# `FerricCache.Data.F64` — `f64` values as extended rationals plus NaN

The scores of sorted sets and the operands of `INCRBYFLOAT` are `f64`. A finite value is the rational
it denotes, with a second zero `negZero` that compares equal to `fin 0` and prints differently.
Arithmetic rounds to nearest-even at 53 bits, and comparison is the IEEE one, under which NaN is
unordered. `cmp` is the `Ord` of `OrderedFloat`, which calls NaN **equal to everything**; it is a
lawful order off NaN and on one of the two zeros (`Ok`, `lawfulOn_cmp`).

`parse` and `toText` follow the standard library's `f64::from_str` grammar and its shortest
round-tripping `Display`.
-/

namespace FerricCache

/-- An `f64`. -/
inductive F64
  | nan
  | negInf
  | negZero
  | fin (q : ℚ)
  | posInf
  deriving DecidableEq

namespace F64

/-! ## Rounding and arithmetic -/

/-- The integer nearest to `x`, ties to even. -/
def roundHalfEven (x : ℚ) : ℤ :=
  let f := ⌊x⌋
  if x - f < 1 / 2 then f
  else if 1 / 2 < x - f then f + 1
  else if f % 2 = 0 then f else f + 1

/-- Round an exact rational to binary64: 53 significant bits, subnormals below `2 ^ (-1022)`, and
    infinity from `2 ^ 1024` on. -/
def round (q : ℚ) : F64 :=
  if q = 0 then fin 0
  else
    let e := max (Int.log 2 |q|) (-1022)
    let ulp : ℚ := 2 ^ (e - 52)
    let v : ℚ := roundHalfEven (|q| / ulp) * ulp
    if 2 ^ 1024 ≤ v then (if q < 0 then negInf else posInf)
    else fin (if q < 0 then -v else v)

/-- IEEE addition; `∞ - ∞` is NaN. -/
def add : F64 → F64 → F64
  | nan, _ => nan
  | _, nan => nan
  | posInf, negInf => nan
  | negInf, posInf => nan
  | posInf, _ => posInf
  | _, posInf => posInf
  | negInf, _ => negInf
  | _, negInf => negInf
  | negZero, y => y
  | x, negZero => x
  | fin p, fin q => round (p + q)

def isFinite : F64 → Bool
  | negZero => true
  | fin _ => true
  | _ => false

/-! ## Comparison -/

/-- `partial_cmp`: `None` when either side is NaN; the zeros are equal. -/
def partialCmp : F64 → F64 → Option Ordering
  | nan, _ => none
  | _, nan => none
  | negInf, negInf => some .eq
  | negInf, _ => some .lt
  | _, negInf => some .gt
  | posInf, posInf => some .eq
  | posInf, _ => some .gt
  | _, posInf => some .lt
  | negZero, negZero => some .eq
  | negZero, fin q => some (compare 0 q)
  | fin p, negZero => some (compare p 0)
  | fin p, fin q => some (compare p q)

/-- `OrderedFloat::cmp`: `partial_cmp(..).unwrap_or(Equal)`. -/
def cmp (a b : F64) : Ordering := (partialCmp a b).getD .eq

/-- Not NaN, and of the two zeros only `zero`. -/
structure Ok (zero x : F64) : Prop where
  ne_nan : x ≠ nan
  zero_eq : x = negZero ∨ x = fin 0 → x = zero

theorem cmp_self (a : F64) : cmp a a = .eq := by
  cases a <;> simp [cmp, partialCmp]

theorem cmp_swap (a b : F64) : (cmp a b).swap = cmp b a := by
  cases a <;> cases b <;> simp [cmp, partialCmp, Ordering.swap]
  all_goals exact Std.OrientedCmp.eq_swap.symm

/-- Values that compare equal are equal, or both are zeros. -/
theorem eq_or_zero_of_cmp_eq {a b : F64} (ha : a ≠ nan) (hb : b ≠ nan) (h : cmp a b = .eq) :
    a = b ∨ (a = negZero ∨ a = fin 0) ∧ (b = negZero ∨ b = fin 0) := by
  cases a <;> cases b <;> simp_all [cmp, partialCmp]

theorem cmp_eq_iff {zero a b : F64} (ha : Ok zero a) (hb : Ok zero b) :
    cmp a b = .eq ↔ a = b := by
  constructor
  · intro h
    rcases eq_or_zero_of_cmp_eq ha.ne_nan hb.ne_nan h with rfl | ⟨hza, hzb⟩
    · rfl
    · rw [ha.zero_eq hza, hb.zero_eq hzb]
  · rintro rfl
    exact cmp_self a

theorem cmp_trans {a b c : F64} (hb : b ≠ nan) (hab : cmp a b = .lt) (hbc : cmp b c = .lt) :
    cmp a c = .lt := by
  cases a <;> cases b <;> cases c <;> simp_all [cmp, partialCmp, compare_lt_iff_lt]
  all_goals first | exact lt_trans hab hbc | exact lt_irrefl _ (lt_trans hab hbc)

/-- **`OrderedFloat` is a lawful order** on the values that are not NaN, one zero at a time. -/
theorem lawfulOn_cmp (zero : F64) : Lib.OrdList.LawfulOn cmp (Ok zero) where
  eq_iff := cmp_eq_iff
  swap := cmp_swap
  trans := fun hb => cmp_trans hb.ne_nan

/-! ## Text -/

/-- Positional decimal notation of `m * 10 ^ p`. -/
def positional (m : Nat) (p : Int) : Bytes :=
  let ds := Lib.Decimal.digits m
  if 0 ≤ p then ds ++ List.replicate p.toNat 48
  else
    let k := (-p).toNat
    if k < ds.length then ds.take (ds.length - k) ++ 46 :: ds.drop (ds.length - k)
    else 48 :: 46 :: (List.replicate (k - ds.length) 48 ++ ds)

/-- The `n`-digit decimal nearest to `a > 0`, as mantissa and exponent. -/
def nearestDecimal (a : ℚ) (n : Nat) : Nat × Int :=
  let p : Int := Int.log 10 a - (n : Int) + 1
  let m := (roundHalfEven (a / 10 ^ p)).toNat
  -- rounding up may carry into one digit more
  if m = 10 ^ n then (10 ^ (n - 1), p + 1) else (m, p)

/-- `x.to_string()`: the shortest decimal that reads back as `x`, never in exponent form. -/
def toText : F64 → Bytes
  | nan => utf8 "NaN"
  | negInf => utf8 "-inf"
  | posInf => utf8 "inf"
  | negZero => utf8 "-0"
  | fin q =>
      if q = 0 then utf8 "0"
      else
        let fits := fun n => decide (round ((nearestDecimal |q| n).1 * 10 ^ (nearestDecimal |q| n).2)
          = fin |q|)
        let n := ((List.range' 1 16).find? fits).getD 17
        let text := positional (nearestDecimal |q| n).1 (nearestDecimal |q| n).2
        if q < 0 then 45 :: text else text

/-- ASCII lower case. -/
def lowerAscii (b : UInt8) : UInt8 := if 65 ≤ b ∧ b ≤ 90 then b + 32 else b

/-- The digit bytes a text starts with, and the rest. -/
def spanDigits (t : Bytes) : Bytes × Bytes := t.span fun b => 48 ≤ b ∧ b ≤ 57

/-- The optional exponent of a number; `none` when what is left is not one. -/
def parseExponent : Bytes → Option Int
  | [] => some 0
  | e :: rest =>
      if lowerAscii e = 101 then
        match rest with
        | 45 :: ds => (Lib.Decimal.parse ds).map fun n => -(n : Int)
        | 43 :: ds => (Lib.Decimal.parse ds).map fun n => (n : Int)
        | ds => (Lib.Decimal.parse ds).map fun n => (n : Int)
      else none

/-- An unsigned decimal number: digits, optional fraction, optional exponent. -/
def parseNumber (t : Bytes) : Option ℚ :=
  let (whole, rest) := spanDigits t
  let (frac, rest) :=
    match rest with
    | 46 :: r => spanDigits r
    | r => ([], r)
  if whole = [] ∧ frac = [] then none
  else do
    let m ← Lib.Decimal.parse (whole ++ frac)
    let e ← parseExponent rest
    return (m : ℚ) * 10 ^ (e - (frac.length : Int))

/-- The unsigned part of a float text: `inf`, `infinity`, `nan` (any case) or a number. -/
def parseUnsigned (t : Bytes) : Option F64 :=
  let low := t.map lowerAscii
  if low = utf8 "inf" ∨ low = utf8 "infinity" then some posInf
  else if low = utf8 "nan" then some nan
  else (parseNumber t).map round

def neg : F64 → F64
  | nan => nan
  | negInf => posInf
  | posInf => negInf
  | negZero => fin 0
  | fin q => if q = 0 then negZero else fin (-q)

/-- `s.parse::<f64>()`. -/
def parse : Bytes → Option F64
  | 45 :: t => (parseUnsigned t).map neg
  | 43 :: t => parseUnsigned t
  | t => parseUnsigned t

end F64

end FerricCache
