import FerricCache.Lib.Decimal

/-!
# `FerricCache.Basic` — byte strings, clocks and fixed-width integers

The vocabulary shared by every layer of the cache model:

* `Bytes` is `bytes::Bytes` (and the UTF-8 content of a Rust `String`);
* an `Instant` is a reading of the monotonic clock in nanoseconds, and `instantAdd` is
  `Instant + Duration`, which panics (`none`) once the sum leaves the `i64` second range;
* `wrapI64` / `asUsize` are two's-complement `i64` arithmetic and the `as usize` cast of the release
  build;
* `Env` holds everything an operation observes besides its arguments and the store: both clocks, the
  iteration order of the hash tables and the random generator.
-/

namespace FerricCache

/-- `bytes::Bytes`; text is carried as its UTF-8 bytes. -/
abbrev Bytes := List UInt8

/-- Found once here, for every membership test on keys and texts. -/
instance lawfulBEqBytes : LawfulBEq Bytes := inferInstance

/-- The UTF-8 bytes of a string literal. -/
def utf8 (s : String) : Bytes := s.toUTF8.data.toList

/-- `Result<T, String>`: the error text as bytes. -/
abbrev Res (α : Type) := Except Bytes α

/-! ## Text -/

/-- How many of the bytes after a leading byte continue its character, up to `ranges.length`. -/
def continuation : List (UInt8 × UInt8) → Bytes → Nat
  | (lo, hi) :: ranges, b :: rest => if lo ≤ b ∧ b ≤ hi then 1 + continuation ranges rest else 0
  | _, _ => 0

/-- The byte ranges a leading byte requires after itself; `none` when it starts no character. -/
def trailing (b : UInt8) : Option (List (UInt8 × UInt8)) :=
  let any : UInt8 × UInt8 := (0x80, 0xBF)
  if b ≤ 0x7F then some []
  else if 0xC2 ≤ b ∧ b ≤ 0xDF then some [any]
  else if b = 0xE0 then some [(0xA0, 0xBF), any]
  else if b = 0xED then some [(0x80, 0x9F), any]
  else if 0xE1 ≤ b ∧ b ≤ 0xEF then some [any, any]
  else if b = 0xF0 then some [(0x90, 0xBF), any, any]
  else if 0xF1 ≤ b ∧ b ≤ 0xF3 then some [any, any, any]
  else if b = 0xF4 then some [(0x80, 0x8F), any, any]
  else none

/-- The loop of `lossy`, for at most `fuel` characters. -/
def lossyLoop : Nat → Bytes → Bytes
  | fuel + 1, b :: rest =>
      match trailing b with
      | some ranges =>
          let n := continuation ranges rest
          if n = ranges.length then b :: rest.take n ++ lossyLoop fuel (rest.drop n)
          else [0xEF, 0xBF, 0xBD] ++ lossyLoop fuel (rest.drop n)
      | none => [0xEF, 0xBF, 0xBD] ++ lossyLoop fuel rest
  | _, _ => []

/-- `String::from_utf8_lossy`: each maximal ill-formed piece becomes one U+FFFD. -/
def lossy (b : Bytes) : Bytes := lossyLoop b.length b

/-- `to_ascii_uppercase` of one byte. -/
def asciiUpper (b : UInt8) : UInt8 := if 97 ≤ b ∧ b ≤ 122 then b - 32 else b

/-- `to_ascii_uppercase`. -/
def toAsciiUppercase (b : Bytes) : Bytes := b.map asciiUpper

/-! ## Time -/

/-- Nanoseconds of the monotonic clock. -/
abbrev Instant := Nat

/-- `Duration::from_secs`, in nanoseconds. -/
def durationSecs (s : Nat) : Nat := 1000000000 * s

/-- `Duration::from_millis`, in nanoseconds. -/
def durationMillis (ms : Nat) : Nat := 1000000 * ms

/-- `Instant + Duration`; `none` is the panic on overflow of the `i64` seconds. -/
def instantAdd (t : Instant) (d : Nat) : Option Instant :=
  if (t + d) / 1000000000 < 2 ^ 63 then some (t + d) else none

/-- `expires_at.map_or(false, |e| Instant::now() > e)`. -/
def expiredAt (now : Instant) : Option Instant → Bool
  | some e => e < now
  | none => false

/-! ## Integers -/

/-- `usize::MAX` on a 64-bit target. -/
abbrev usizeMax : Nat := 2 ^ 64 - 1

/-- `isize::MAX`: a larger allocation request panics with "capacity overflow". -/
abbrev isizeMax : Nat := 2 ^ 63 - 1

/-- Two's-complement `i64` result of an integer computation (release build, no overflow checks). -/
def wrapI64 (x : Int) : Int := Int.bmod x (2 ^ 64)

/-- The `as usize` cast of an `i64`. -/
def asUsize (x : Int) : Nat := (x % 2 ^ 64).toNat

/-- `s.parse::<i64>()`. The source parses `String::from_utf8_lossy(bytes)`; a byte that is not ASCII
    becomes a character `parse` rejects, so reading the bytes directly is the same. -/
def parseI64 (b : Bytes) : Option Int := Lib.Decimal.parseSigned (2 ^ 63) b

/-- `s.parse::<u64>()`. -/
def parseU64 (b : Bytes) : Option UInt64 :=
  (Lib.Decimal.parseUnsigned (2 ^ 64) b).map UInt64.ofNat

/-- `n.to_string()` for a signed integer. -/
def intText (x : Int) : Bytes := Lib.Decimal.signed x

/-- `n.to_string()` for an unsigned integer. -/
def natText (n : Nat) : Bytes := Lib.Decimal.digits n

theorem parseU64_natText (n : UInt64) : parseU64 (natText n.toNat) = some n := by
  unfold parseU64 natText
  rw [Lib.Decimal.parseUnsigned_digits n.toNat_lt]
  simp

/-! ## The environment of an operation -/

/-- What an operation observes besides its arguments and the store.

`iterPos owner k` is the position at which a hash table lists the entry `k`: the table of the value
stored at `owner`, or the shard tables themselves for `none`. Nothing is assumed of it, so every
iteration order is covered. The `rand` draws are given as functions of what they draw from. -/
structure Env where
  /-- `Instant::now()`. -/
  now : Instant
  /-- `SystemTime::now()` since the epoch, in milliseconds. -/
  unixMs : UInt64
  iterPos : Option Bytes → Bytes → Nat
  /-- `slice.choose_multiple(&mut rng, count)`. -/
  chooseMultiple : List Bytes → Nat → List Bytes
  /-- The `i`-th `slice.choose(&mut rng)`. -/
  choose : Nat → List Bytes → Option Bytes
  /-- `indices.shuffle(&mut rng)`. -/
  shuffle : List (Fin 64) → List (Fin 64)

/-- `duration_since(UNIX_EPOCH).as_secs()`. -/
def Env.unixSecs (env : Env) : Nat := env.unixMs.toNat / 1000

/-- A plain environment for concrete runs: tables in key order, draws from the front. -/
def Env.reading (now : Instant) : Env where
  now
  unixMs := 1700000000000
  iterPos _ _ := 0
  chooseMultiple l n := l.take n
  choose _ l := l.head?
  shuffle l := l

/-- An environment whose wall clock shows 1700000000000 at the monotonic clock's zero. -/
def Env.clocked (now : Instant) : Env :=
  { Env.reading now with unixMs := UInt64.ofNat (1700000000000 + now / 1000000) }

/-- The elements of a hash table in iteration order: sorted by the position of their key. -/
def iterate {α : Type} (pos : Bytes → Nat) (key : α → Bytes) (l : List α) : List α :=
  l.insertionSort fun a b => pos (key a) ≤ pos (key b)

theorem iterate_perm {α : Type} (pos : Bytes → Nat) (key : α → Bytes) (l : List α) :
    (iterate pos key l).Perm l := List.perm_insertionSort _ l

@[simp] theorem mem_iterate {α : Type} {pos : Bytes → Nat} {key : α → Bytes} {l : List α} {a : α} :
    a ∈ iterate pos key l ↔ a ∈ l := (iterate_perm pos key l).mem_iff

/-- An element below every other goes to the front. -/
theorem orderedInsert_of_forall_le {α : Type} {r : α → α → Prop} [DecidableRel r] {a : α} {l : List α}
    (h : ∀ b ∈ l, r a b) : l.orderedInsert r a = a :: l := by
  cases l with
  | nil => rfl
  | cons b l => exact List.orderedInsert_cons_of_le r l (h b (by simp))

theorem filter_orderedInsert {α : Type} {r : α → α → Prop} [DecidableRel r] [IsTrans α r] (p : α → Bool)
    (a : α) (l : List α) (hl : l.Pairwise r) :
    (l.orderedInsert r a).filter p
      = if p a then (l.filter p).orderedInsert r a else l.filter p := by
  induction l with
  | nil => cases hp : p a <;> simp [hp]
  | cons b l ih =>
      obtain ⟨hb, hl'⟩ := List.pairwise_cons.mp hl
      by_cases hab : r a b
      · have hall : ∀ c ∈ (b :: l).filter p, r a c := by
          intro c hc
          rcases List.mem_cons.mp (List.mem_filter.mp hc).1 with rfl | hc'
          · exact hab
          · exact IsTrans.trans a b c hab (hb c hc')
        rw [List.orderedInsert_cons_of_le r l hab, orderedInsert_of_forall_le hall, List.filter_cons]
      · rw [List.orderedInsert_of_not_le r l hab, List.filter_cons, ih hl']
        cases hp : p b <;> cases hq : p a <;> simp [hp, hab]

/-- **Removing entries does not reorder the others**: `retain` filters the iteration order. -/
theorem iterate_filter {α : Type} (pos : Bytes → Nat) (key : α → Bytes) (p : α → Bool) (l : List α) :
    (iterate pos key l).filter p = iterate pos key (l.filter p) := by
  unfold iterate
  have : IsTrans α fun a b => pos (key a) ≤ pos (key b) := ⟨fun _ _ _ h h' => h.trans h'⟩
  have : Std.Total fun a b : α => pos (key a) ≤ pos (key b) := ⟨fun a b => le_total _ _⟩
  induction l with
  | nil => rfl
  | cons a l ih =>
      rw [List.insertionSort_cons, filter_orderedInsert p a _ (List.pairwise_insertionSort _ l), ih,
        List.filter_cons]
      cases p a <;> simp

end FerricCache
