import Mathlib

/-!
# `Lib.Decimal` — decimal numbers as ASCII bytes

Unsigned and signed decimal text over byte strings: `digits`/`signed` print, `parse`/`parseSigned`
read back, and `splitOnce` cuts a text at its first separator. The contract is the two round trips
`parse_digits` and `parseSigned_signed`, plus the fact that a printed number contains nothing but
digit bytes (`digit_of_mem_digits`), so separators placed between numbers are found again.
-/

namespace Lib.Decimal

/-- Decimal digits of `n`, most significant first, as ASCII bytes. -/
def digits (n : Nat) : List UInt8 := (Nat.toDigits 10 n).map fun c => c.toNat.toUInt8

/-- The value of a digit byte. -/
def digit? (b : UInt8) : Option Nat :=
  if 48 ≤ b ∧ b ≤ 57 then some (b.toNat - 48) else none

/-- Read digits onto an accumulator; any other byte is an error. -/
def parseFrom : Nat → List UInt8 → Option Nat
  | acc, [] => some acc
  | acc, b :: bs =>
      match digit? b with
      | some d => parseFrom (10 * acc + d) bs
      | none => none

/-- Read a non-empty run of digits. -/
def parse : List UInt8 → Option Nat
  | [] => none
  | b :: bs => parseFrom 0 (b :: bs)

/-- Decimal text of an integer, with a leading `-` when it is negative. -/
def signed : Int → List UInt8
  | .ofNat n => digits n
  | .negSucc n => 45 :: digits (n + 1)

/-- Read an optionally signed number lying in `[-bound, bound)`. -/
def parseSigned (bound : Nat) : List UInt8 → Option Int
  | 45 :: ds => (parse ds).bind fun n => if n ≤ bound then some (-(n : Int)) else none
  | 43 :: ds => (parse ds).bind fun n => if n < bound then some (n : Int) else none
  | ds => (parse ds).bind fun n => if n < bound then some (n : Int) else none

/-- Read an unsigned number below `bound`; a leading `+` is accepted. -/
def parseUnsigned (bound : Nat) : List UInt8 → Option Nat
  | 43 :: ds => (parse ds).bind fun n => if n < bound then some n else none
  | ds => (parse ds).bind fun n => if n < bound then some n else none

/-- Cut a text at the first occurrence of `sep`. -/
def splitOnce (sep : UInt8) : List UInt8 → Option (List UInt8 × List UInt8)
  | [] => none
  | b :: bs => if b = sep then some ([], bs) else (splitOnce sep bs).map fun p => (b :: p.1, p.2)

/-! ## Printed numbers consist of digit bytes -/

/-- The byte of a digit character is a digit byte carrying the character's value. -/
theorem digit?_of_isDigit {c : Char} (h : c.isDigit) :
    digit? c.toNat.toUInt8 = some (c.toNat - '0'.toNat) := by
  have hb : 48 ≤ c.toNat ∧ c.toNat ≤ 57 := by
    simp only [Char.isDigit, Bool.and_eq_true, decide_eq_true_eq, ge_iff_le,
      UInt32.le_iff_toNat_le] at h
    exact h
  have ht : c.toNat.toUInt8.toNat = c.toNat := by
    rw [Nat.toUInt8_eq, UInt8.toNat_ofNat']
    exact Nat.mod_eq_of_lt (by omega)
  have hle : (48 : UInt8) ≤ c.toNat.toUInt8 ∧ c.toNat.toUInt8 ≤ 57 := by
    rw [UInt8.le_iff_toNat_le, UInt8.le_iff_toNat_le, ht]
    exact hb
  unfold digit?
  rw [if_pos hle, ht]
  rfl

/-- Every byte of a printed number is a digit byte. -/
theorem digit_of_mem_digits {n : Nat} {b : UInt8} (h : b ∈ digits n) : 48 ≤ b ∧ b ≤ 57 := by
  obtain ⟨c, hc, rfl⟩ := List.mem_map.mp h
  have hd := digit?_of_isDigit (Nat.isDigit_of_mem_toDigits (by omega) (by omega) hc)
  unfold digit? at hd
  split at hd
  · assumption
  · exact absurd hd (by simp)

theorem digits_ne_nil (n : Nat) : digits n ≠ [] := by
  unfold digits
  simp [Nat.toDigits_ne_nil]

/-- A byte outside `0`–`9` does not occur in a printed number. -/
theorem not_mem_digits {n : Nat} {b : UInt8} (h : b < 48 ∨ 57 < b) : b ∉ digits n := by
  intro hb
  have := digit_of_mem_digits hb
  rw [UInt8.le_iff_toNat_le, UInt8.le_iff_toNat_le] at this
  rw [UInt8.lt_iff_toNat_lt, UInt8.lt_iff_toNat_lt] at h
  omega

/-! ## Round trips -/

theorem parseFrom_map (cs : List Char) (h : ∀ c ∈ cs, c.isDigit) (acc : Nat) :
    parseFrom acc (cs.map fun c => c.toNat.toUInt8) = some (Nat.ofDigitChars 10 cs acc) := by
  induction cs generalizing acc with
  | nil => rfl
  | cons c cs ih =>
      simp only [List.map_cons, parseFrom, digit?_of_isDigit (h c (by simp))]
      rw [ih (fun d hd => h d (by simp [hd]))]
      rfl

/-- **Reading a printed number gives the number back.** -/
theorem parse_digits (n : Nat) : parse (digits n) = some n := by
  have hp : parseFrom 0 (digits n) = some n := by
    unfold digits
    rw [parseFrom_map _ (fun c hc => Nat.isDigit_of_mem_toDigits (by omega) (by omega) hc),
      Nat.ofDigitChars_ten_toDigits]
  cases hd : digits n with
  | nil => exact absurd hd (digits_ne_nil n)
  | cons b bs =>
      rw [hd] at hp
      exact hp

theorem parseUnsigned_digits {bound n : Nat} (h : n < bound) :
    parseUnsigned bound (digits n) = some n := by
  have hplus : ∀ ds, digits n ≠ 43 :: ds := by
    intro ds hd
    exact not_mem_digits (n := n) (b := 43) (Or.inl (by decide)) (by rw [hd]; simp)
  unfold parseUnsigned
  split
  · rename_i ds hd
    exact absurd hd (hplus ds)
  · rw [parse_digits]
    simp [h]

/-- What is read lies within the bounds. -/
theorem parseSigned_bounds {bound : Nat} (hbound : 0 < bound) {ds : List UInt8} {n : Int}
    (h : parseSigned bound ds = some n) : -(bound : Int) ≤ n ∧ n < bound := by
  have hbelow : ∀ {o : Option Nat}, (o.bind fun n => if n < bound then some (n : Int) else none) = some n →
      -(bound : Int) ≤ n ∧ n < bound := by
    intro o ho
    obtain ⟨m, -, hm⟩ := Option.bind_eq_some_iff.mp ho
    split at hm
    · cases hm
      omega
    · cases hm
  unfold parseSigned at h
  split at h
  · obtain ⟨m, -, hm⟩ := Option.bind_eq_some_iff.mp h
    split at hm
    · cases hm
      omega
    · cases hm
  · exact hbelow h
  · exact hbelow h

/-- **Reading a printed integer gives the integer back**, for every integer in range. -/
theorem parseSigned_signed {bound : Nat} {x : Int} (hlo : -(bound : Int) ≤ x)
    (hhi : x < bound) : parseSigned bound (signed x) = some x := by
  cases x with
  | ofNat n =>
      have hsign : ∀ b ds, (b = 43 ∨ b = 45) → digits n ≠ b :: ds := by
        intro b ds hb hd
        refine not_mem_digits (n := n) (b := b) ?_ (by rw [hd]; simp)
        rcases hb with rfl | rfl <;> exact Or.inl (by decide)
      simp only [signed]
      unfold parseSigned
      split
      · rename_i ds hd
        exact absurd hd (hsign 45 ds (Or.inr rfl))
      · rename_i ds hd
        exact absurd hd (hsign 43 ds (Or.inl rfl))
      · rw [parse_digits]
        have : n < bound := by simpa using hhi
        simp [this]
  | negSucc n =>
      simp only [signed, parseSigned, parse_digits, Option.bind_some]
      have : n + 1 ≤ bound := by omega
      rw [if_pos this]
      rfl

/-- A text is cut at a separator its first part does not contain. -/
theorem splitOnce_append {sep : UInt8} {a : List UInt8} (h : sep ∉ a) (b : List UInt8) :
    splitOnce sep (a ++ sep :: b) = some (a, b) := by
  induction a with
  | nil => simp [splitOnce]
  | cons x xs ih =>
      have hx : x ≠ sep := fun he => h (by simp [he])
      have hxs : sep ∉ xs := fun hm => h (by simp [hm])
      simp [splitOnce, hx, ih hxs]

end Lib.Decimal
