import FerricCache.Server.Dispatch
import FerricCache.Storage.Slices

/-!
# `FerricCache.Server.Counters` — the counters at the ends of the `i64` range

Five commands add to a stored integer. `INCRBY` and `HINCRBY` use `checked_add` and refuse a sum that does not fit.
`INCR` and `DECR` add 1 without a check and wrap at the end of the range, and `DECRBY` negates its argument without a
check, so that it adds `i64::MIN` where it should subtract it. Everywhere else they store and return the exact sum
(`counters_right_iff`).
-/

namespace FerricCache

open Reply

/-! ## What a counter should do -/

/-- The number a counter command starts from: the stored text as an `i64`, 0 when the key is absent. -/
def Slot.number : Slot → Option Int
  | none => some 0
  | some (.string b _) => parseI64 b
  | some _ => none

/-- The number a hash field holds, 0 when the field or the key is absent. -/
def Slot.fieldNumber (field : Bytes) : Slot → Option Int
  | none => some 0
  | some (.hash h) => ((h.getField field).map parseI64).getD (some 0)
  | some _ => none

/-- The slot with the number in decimal, the deadline kept. -/
def Slot.counted (n : Int) (slot : Slot) : Slot := some (.string (intText n) (slot.bind CacheValue.expiresAt))

/-- The slot with the number in decimal in a field of the hash. -/
def Slot.countedField (field : Bytes) (n : Int) : Slot → Slot
  | some (.hash h) => some (.hash (h.setField field (intText n)))
  | _ => some (.hash (HashValue.new.setField field (intText n)))

/-- A counter command on a string key. -/
inductive Counter
  | incr
  | decr
  | incrBy (delta : Int64)
  | decrBy (delta : Int64)

def Counter.command (key : Bytes) : Counter → Command
  | .incr => .incr key
  | .decr => .decr key
  | .incrBy delta => .incrBy key delta
  | .decrBy delta => .decrBy key delta

/-- The number it should leave. -/
def Counter.target (n : Int) : Counter → Int
  | .incr => n + 1
  | .decr => n - 1
  | .incrBy delta => n + delta.toInt
  | .decrBy delta => n - delta.toInt

section

variable [KeyHash]

/-- The command returns and stores the exact result if it fits, and otherwise fails and changes nothing. -/
structure Counts (env : Env) (s : CacheStorage) (c : Command) (number : Option Int) (target : Int → Int)
    (stored : Int → CacheStorage) : Prop where
  exact : ∀ n, number = some n → FitsI64 (target n) →
    dispatch env c s = some (some (.integer (target n)), stored (target n))
  overflow : ∀ n, number = some n → ¬ FitsI64 (target n) → ∃ e, dispatch env c s = some (some (.error e), s)
  not_a_number : number = none → ∃ e, dispatch env c s = some (some (.error e), s)

/-- A counter on a string key does what it should. -/
def CounterRight (env : Env) (s : CacheStorage) (key : Bytes) (c : Counter) : Prop :=
  Counts env s (c.command key) (s.slotAt key).number c.target fun n => s.setEntry key ((s.slotAt key).counted n)

/-- `HINCRBY` does what it should. -/
def HincrByRight (env : Env) (s : CacheStorage) (key field : Bytes) (delta : Int64) : Prop :=
  Counts env s (.hincrBy key field delta) ((s.slotAt key).fieldNumber field) (· + delta.toInt) fun n =>
    s.setEntry key ((s.slotAt key).countedField field n)

end

/-- Where the counter is right: `INCR` and `DECR` off the end of the range, `DECRBY` off `i64::MIN`. -/
def Counter.Sound (number : Option Int) : Counter → Prop
  | .incr => number ≠ some (2 ^ 63 - 1)
  | .decr => number ≠ some (-2 ^ 63)
  | .incrBy _ => True
  | .decrBy delta => delta.toInt = -2 ^ 63 → number = none

/-! ## The arithmetic -/

theorem fitsI64_wrapI64 (x : Int) : FitsI64 (wrapI64 x) := by
  have h1 := Int.le_bmod (x := x) (m := 2 ^ 64) (by decide)
  have h2 := Int.bmod_lt (x := x) (m := 2 ^ 64) (by decide)
  unfold FitsI64 wrapI64
  omega

/-- `checked_add` succeeds exactly on a sum that fits. -/
theorem wrapI64_eq_iff {x : Int} : wrapI64 x = x ↔ FitsI64 x := by
  constructor
  · intro h
    rw [← h]
    exact fitsI64_wrapI64 x
  · exact wrapI64_of_fits

theorem fitsI64_of_parseI64 {b : Bytes} {n : Int} (h : parseI64 b = some n) : FitsI64 n := by
  have hbounds := Lib.Decimal.parseSigned_bounds (by decide) h
  unfold FitsI64
  omega

/-- The slot holds a string, or nothing. -/
def Slot.IsString (slot : Slot) : Prop := ∀ v, slot = some v → ∃ b e, v = .string b e

theorem Slot.IsString.fits {slot : Slot} (hslot : slot.IsString) {n : Int} (h : slot.number = some n) : FitsI64 n := by
  cases slot with
  | none =>
      cases h
      exact ⟨by decide, by decide⟩
  | some v =>
      obtain ⟨b, e, rfl⟩ := hslot v rfl
      exact fitsI64_of_parseI64 h

/-! ## The operations on a slot -/

namespace Slot

variable {slot : Slot} {n delta : Int}

/-- The number that was stored is read back. -/
theorem number_counted (h : FitsI64 n) (slot : Slot) : (slot.counted n).number = some n :=
  Lib.Decimal.parseSigned_signed (by exact_mod_cast h.1) (by exact_mod_cast h.2)

/-- `incr` and `decr` store the wrapped sum. -/
theorem bump_number (hslot : slot.IsString) (hdelta : FitsI64 delta) (h : slot.number = some n) :
    bump delta slot = (.ok (wrapI64 (n + delta)), slot.counted (wrapI64 (n + delta))) := by
  cases slot with
  | none =>
      cases h
      rw [Int.zero_add, wrapI64_of_fits hdelta]
      rfl
  | some v =>
      obtain ⟨b, e, rfl⟩ := hslot v rfl
      have hb : parseI64 b = some n := h
      simp only [bump, writeAny, Kind.string, hb]
      rfl

theorem bump_not_number (hslot : slot.IsString) (h : slot.number = none) :
    bump delta slot = (.error notAnInteger, slot) := by
  cases slot with
  | none => cases h
  | some v =>
      obtain ⟨b, e, rfl⟩ := hslot v rfl
      have hb : parseI64 b = none := h
      simp only [bump, writeAny, Kind.string, hb]

/-- `incr_by` stores a sum that fits. -/
theorem incrBy_fits (hslot : slot.IsString) (h : slot.number = some n) (hfits : FitsI64 (n + delta)) :
    incrBy delta slot = (.ok (n + delta), slot.counted (n + delta)) := by
  cases slot with
  | none =>
      cases h
      rw [Int.zero_add]
      rfl
  | some v =>
      obtain ⟨b, e, rfl⟩ := hslot v rfl
      have hb : parseI64 b = some n := h
      simp only [incrBy, writeAny, Kind.string, hb, if_pos (wrapI64_of_fits hfits)]
      rfl

/-- `incr_by` refuses a sum that does not fit. -/
theorem incrBy_overflow (hslot : slot.IsString) (hdelta : FitsI64 delta) (h : slot.number = some n)
    (hover : ¬ FitsI64 (n + delta)) : incrBy delta slot = (.error wouldOverflow, slot) := by
  cases slot with
  | none =>
      cases h
      rw [Int.zero_add] at hover
      exact absurd hdelta hover
  | some v =>
      obtain ⟨b, e, rfl⟩ := hslot v rfl
      have hb : parseI64 b = some n := h
      simp only [incrBy, writeAny, Kind.string, hb, if_neg fun he => hover (wrapI64_eq_iff.mp he)]

theorem incrBy_not_number (hslot : slot.IsString) (h : slot.number = none) :
    incrBy delta slot = (.error notAnInteger, slot) := by
  cases slot with
  | none => cases h
  | some v =>
      obtain ⟨b, e, rfl⟩ := hslot v rfl
      have hb : parseI64 b = none := h
      simp only [incrBy, writeAny, Kind.string, hb]

end Slot

/-! ## The commands -/

section

variable [KeyHash] {env : Env} {s : CacheStorage} {key : Bytes}

/-- A counter command carried out on the slot of its key. -/
theorem dispatch_counter {c : Command} {act : Slot → Res Int × Slot}
    (harm : arm env c = some (.write key act (orError .integer))) {r : Res Int} {slot : Slot}
    (hact : act (s.slotAt key) = (r, slot)) :
    dispatch env c s = some (orError .integer r, s.setEntry key slot) := by
  simp only [dispatch, harm, Option.map_some, Arm.run, Arm.write, CacheStorage.onKey, hact]

/-- A counter that adds `delta` with `checked_add`, and stores as `stored` says. -/
theorem counts_checked {c : Command} (act : Slot → Res Int × Slot)
    (harm : arm env c = some (.write key act (orError .integer))) {number : Option Int} {target : Int → Int}
    {stored : Int → Slot}
    (hfits : ∀ n, number = some n → FitsI64 (target n) → act (s.slotAt key) = (.ok (target n), stored (target n)))
    (hover : ∀ n, number = some n → ¬ FitsI64 (target n) → ∃ e, act (s.slotAt key) = (.error e, s.slotAt key))
    (hnot : number = none → ∃ e, act (s.slotAt key) = (.error e, s.slotAt key)) :
    Counts env s c number target fun n => s.setEntry key (stored n) := by
  refine ⟨fun n hn hf => ?_, fun n hn hf => ?_, fun hn => ?_⟩
  · exact dispatch_counter harm (hfits n hn hf)
  · obtain ⟨e, he⟩ := hover n hn hf
    refine ⟨e, ?_⟩
    rw [dispatch_counter harm he, CacheStorage.setEntry_slotAt]
    rfl
  · obtain ⟨e, he⟩ := hnot hn
    refine ⟨e, ?_⟩
    rw [dispatch_counter harm he, CacheStorage.setEntry_slotAt]
    rfl

/-- `INCRBY` is right, whatever is added. -/
theorem incrBy_right (hkey : (s.slotAt key).IsString) (delta : Int64) : CounterRight env s key (.incrBy delta) := by
  refine counts_checked (Slot.incrBy delta.toInt) rfl ?_ ?_ ?_
  · intro n hn hfits
    exact Slot.incrBy_fits hkey hn hfits
  · intro n hn hover
    exact ⟨_, Slot.incrBy_overflow hkey (fitsI64_toInt delta) hn hover⟩
  · intro hn
    exact ⟨_, Slot.incrBy_not_number hkey hn⟩

/-- What `INCR` (`delta = 1`) and `DECR` (`delta = -1`) do with a number. -/
theorem dispatch_bump {c : Command} {delta : Int}
    (harm : arm env c = some (.write key (Slot.bump delta) (orError .integer)))
    (hkey : (s.slotAt key).IsString) (hdelta : FitsI64 delta) {n : Int} (hn : (s.slotAt key).number = some n) :
    dispatch env c s = some (some (.integer (wrapI64 (n + delta))),
      s.setEntry key ((s.slotAt key).counted (wrapI64 (n + delta)))) :=
  dispatch_counter harm (Slot.bump_number hkey hdelta hn)

/-- `INCR` and `DECR` are right exactly when their sum fits. -/
theorem bump_right_iff {c : Command} {delta : Int}
    (harm : arm env c = some (.write key (Slot.bump delta) (orError .integer))) (hkey : (s.slotAt key).IsString)
    (hdelta : FitsI64 delta) {target : Int → Int} (htarget : ∀ n, target n = n + delta) :
    (Counts env s c (s.slotAt key).number target fun n => s.setEntry key ((s.slotAt key).counted n)) ↔
      ∀ n, (s.slotAt key).number = some n → FitsI64 (n + delta) := by
  constructor
  · intro h n hn
    by_contra hover
    obtain ⟨e, he⟩ := h.overflow n hn (by rwa [htarget])
    rw [dispatch_bump harm hkey hdelta hn] at he
    cases he
  · intro h
    refine counts_checked (Slot.bump delta) harm ?_ ?_ ?_
    · intro n hn hfits
      rw [Slot.bump_number hkey hdelta hn, wrapI64_of_fits (h n hn), htarget]
    · intro n hn hover
      rw [htarget] at hover
      exact absurd (h n hn) hover
    · intro hn
      exact ⟨_, Slot.bump_not_number hkey hn⟩

theorem incr_right_iff (hkey : (s.slotAt key).IsString) :
    CounterRight env s key .incr ↔ (s.slotAt key).number ≠ some (2 ^ 63 - 1) := by
  have harm : arm env (.incr key) = some (.write key (Slot.bump 1) (orError .integer)) := rfl
  refine (bump_right_iff harm hkey (by decide) fun _ => rfl).trans ?_
  constructor
  · intro h hmax
    have hfits := h _ hmax
    unfold FitsI64 at hfits
    omega
  · intro h n hn
    have hfits := hkey.fits hn
    have hne : n ≠ 2 ^ 63 - 1 := fun he => h (he ▸ hn)
    unfold FitsI64 at hfits ⊢
    omega

theorem decr_right_iff (hkey : (s.slotAt key).IsString) :
    CounterRight env s key .decr ↔ (s.slotAt key).number ≠ some (-2 ^ 63) := by
  have harm : arm env (.decr key) = some (.write key (Slot.bump (-1)) (orError .integer)) := rfl
  refine (bump_right_iff harm hkey (by decide) fun _ => rfl).trans ?_
  constructor
  · intro h hmin
    have hfits := h _ hmin
    unfold FitsI64 at hfits
    omega
  · intro h n hn
    have hfits := hkey.fits hn
    have hne : n ≠ -2 ^ 63 := fun he => h (he ▸ hn)
    unfold FitsI64 at hfits ⊢
    omega

/-- `DECRBY` is right off `i64::MIN`, where its argument has a negation. -/
theorem decrBy_right_iff (hkey : (s.slotAt key).IsString) (delta : Int64) :
    CounterRight env s key (.decrBy delta) ↔ (delta.toInt = -2 ^ 63 → (s.slotAt key).number = none) := by
  have hfits := fitsI64_toInt delta
  have harm : arm env (.decrBy key delta)
      = some (.write key (Slot.incrBy (wrapI64 (-delta.toInt))) (orError .integer)) := rfl
  constructor
  · intro h hmin
    cases hn : (s.slotAt key).number with
    | none => rfl
    | some n =>
        have hwrap : wrapI64 (-delta.toInt) = -2 ^ 63 := by rw [hmin]; rfl
        rw [hwrap] at harm
        have hnfits := hkey.fits hn
        exfalso
        by_cases hneg : n < 0
        · -- the difference fits, and the sum with `i64::MIN` does not
          have hdiff : FitsI64 ((Counter.decrBy delta).target n) := by
            show FitsI64 (n - delta.toInt)
            unfold FitsI64 at *
            omega
          have hsum : ¬ FitsI64 (n + -2 ^ 63) := by
            unfold FitsI64 at *
            omega
          have hright := h.exact n hn hdiff
          rw [show (Counter.decrBy delta).command key = .decrBy key delta from rfl,
            dispatch_counter harm (Slot.incrBy_overflow hkey (by decide) hn hsum)] at hright
          cases hright
        · -- the difference does not fit, and the sum does
          have hdiff : ¬ FitsI64 ((Counter.decrBy delta).target n) := by
            show ¬ FitsI64 (n - delta.toInt)
            unfold FitsI64 at *
            omega
          have hsum : FitsI64 (n + -2 ^ 63) := by
            unfold FitsI64 at *
            omega
          obtain ⟨e, hright⟩ := h.overflow n hn hdiff
          rw [show (Counter.decrBy delta).command key = .decrBy key delta from rfl,
            dispatch_counter harm (Slot.incrBy_fits hkey hn hsum)] at hright
          cases hright
  · intro h
    by_cases hmin : delta.toInt = -2 ^ 63
    · -- nothing is counted
      have hnone := h hmin
      refine counts_checked _ harm ?_ ?_ ?_
      · intro n hn
        rw [hnone] at hn
        cases hn
      · intro n hn
        rw [hnone] at hn
        cases hn
      · intro _
        exact ⟨_, Slot.incrBy_not_number hkey hnone⟩
    · have hneg : FitsI64 (-delta.toInt) := by
        unfold FitsI64 at *
        omega
      rw [wrapI64_of_fits hneg] at harm
      refine counts_checked _ harm ?_ ?_ ?_
      · intro n hn hf
        exact Slot.incrBy_fits hkey hn hf
      · intro n hn hover
        exact ⟨_, Slot.incrBy_overflow hkey hneg hn hover⟩
      · intro hn
        exact ⟨_, Slot.incrBy_not_number hkey hn⟩

/-- Each counter is right exactly where it is sound. -/
theorem counterRight_iff (hkey : (s.slotAt key).IsString) (c : Counter) :
    CounterRight env s key c ↔ c.Sound (s.slotAt key).number := by
  cases c with
  | incr => exact incr_right_iff hkey
  | decr => exact decr_right_iff hkey
  | incrBy delta => exact ⟨fun _ => trivial, fun _ => incrBy_right hkey delta⟩
  | decrBy delta => exact decrBy_right_iff hkey delta

end

/-! ## `HINCRBY` -/

/-- The slot holds a live hash, or nothing. -/
def Slot.IsLiveHash (now : Instant) (slot : Slot) : Prop :=
  ∀ v, slot = some v → ∃ h, v = .hash h ∧ expiredAt now h.expiresAt = false

namespace Slot

variable {now : Instant} {slot : Slot} {field : Bytes} {n delta : Int}

/-- What `hincr_by` does with a live hash. -/
theorem hincrBy_live {h : HashValue} (hlive : expiredAt now h.expiresAt = false) (field : Bytes) (delta : Int) :
    hincrBy now field delta (some (.hash h)) =
      (fieldNumber field (some (.hash h))).elim (.error notAnInteger, some (.hash h)) fun n =>
        if wrapI64 (n + delta) = n + delta then (.ok (n + delta), countedField field (n + delta) (some (.hash h)))
        else (.error (utf8 "ERR increment would overflow"), some (.hash h)) := by
  have hx : (CacheValue.hash h).isExpired now = false := hlive
  -- the sum is made from 0 when the field is absent, and from its number otherwise
  have hsum : ∀ n : Int, ((if wrapI64 (n + delta) = n + delta then
      ((.ok (n + delta) : Res Int), h.setField field (intText (n + delta)))
      else (.error (utf8 "ERR increment would overflow"), h)).1, (some (.hash
        (if wrapI64 (n + delta) = n + delta then ((.ok (n + delta) : Res Int), h.setField field (intText (n + delta)))
        else (.error (utf8 "ERR increment would overflow"), h)).2) : Slot))
      = if wrapI64 (n + delta) = n + delta then (.ok (n + delta), countedField field (n + delta) (some (.hash h)))
        else (.error (utf8 "ERR increment would overflow"), some (.hash h)) := by
    intro n
    split <;> rfl
  cases hfield : h.getField field with
  | none =>
      simp only [hincrBy, writeOrCreate, Kind.hash, hx, fieldNumber, hfield, Bool.false_eq_true, if_false,
        Option.map_none, Option.getD_none, Option.elim_some]
      exact hsum 0
  | some b =>
      simp only [hincrBy, writeOrCreate, Kind.hash, hx, fieldNumber, hfield, Bool.false_eq_true, if_false,
        Option.map_some, Option.getD_some]
      cases parseI64 b with
      | none => rfl
      | some n => exact hsum n

theorem hincrBy_fits (hslot : slot.IsLiveHash now) (h : slot.fieldNumber field = some n) (hfits : FitsI64 (n + delta)) :
    hincrBy now field delta slot = (.ok (n + delta), slot.countedField field (n + delta)) := by
  cases slot with
  | none =>
      cases h
      rw [Int.zero_add]
      rfl
  | some v =>
      obtain ⟨t, rfl, hlive⟩ := hslot v rfl
      rw [hincrBy_live hlive, h]
      exact if_pos (wrapI64_of_fits hfits)

theorem hincrBy_overflow (hslot : slot.IsLiveHash now) (hdelta : FitsI64 delta) (h : slot.fieldNumber field = some n)
    (hover : ¬ FitsI64 (n + delta)) :
    hincrBy now field delta slot = (.error (utf8 "ERR increment would overflow"), slot) := by
  cases slot with
  | none =>
      cases h
      rw [Int.zero_add] at hover
      exact absurd hdelta hover
  | some v =>
      obtain ⟨t, rfl, hlive⟩ := hslot v rfl
      rw [hincrBy_live hlive, h]
      exact if_neg fun he => hover (wrapI64_eq_iff.mp he)

theorem hincrBy_not_number (hslot : slot.IsLiveHash now) (h : slot.fieldNumber field = none) :
    hincrBy now field delta slot = (.error notAnInteger, slot) := by
  cases slot with
  | none => cases h
  | some v =>
      obtain ⟨t, rfl, hlive⟩ := hslot v rfl
      rw [hincrBy_live hlive, h]
      rfl

end Slot

section

variable [KeyHash] {env : Env} {s : CacheStorage} {key : Bytes}

/-- `HINCRBY` is right, whatever is added. -/
theorem hincrBy_right (hkey : (s.slotAt key).IsLiveHash env.now) (field : Bytes) (delta : Int64) :
    HincrByRight env s key field delta := by
  refine counts_checked (Slot.hincrBy env.now field delta.toInt) rfl ?_ ?_ ?_
  · intro n hn hfits
    exact Slot.hincrBy_fits hkey hn hfits
  · intro n hn hover
    exact ⟨_, Slot.hincrBy_overflow hkey (fitsI64_toInt delta) hn hover⟩
  · intro hn
    exact ⟨_, Slot.hincrBy_not_number hkey hn⟩

/-! ## How the counters relate -/

/-- `INCR` is `INCRBY 1` exactly where it does not wrap. -/
theorem incr_eq_incrBy_iff (hkey : (s.slotAt key).IsString) :
    dispatch env (.incr key) s = dispatch env (.incrBy key 1) s ↔ (s.slotAt key).number ≠ some (2 ^ 63 - 1) := by
  have hincr : arm env (.incr key) = some (.write key (Slot.bump 1) (orError .integer)) := rfl
  have hby : arm env (.incrBy key 1) = some (.write key (Slot.incrBy 1) (orError .integer)) := rfl
  constructor
  · intro heq hmax
    rw [dispatch_bump hincr hkey (by decide) hmax,
      dispatch_counter hby (Slot.incrBy_overflow hkey (by decide) hmax (by decide))] at heq
    cases heq
  · intro hne
    cases hn : (s.slotAt key).number with
    | none =>
        rw [dispatch_counter hincr (Slot.bump_not_number hkey hn),
          dispatch_counter hby (Slot.incrBy_not_number hkey hn)]
    | some n =>
        have hfits : FitsI64 (n + 1) := by
          have hf := hkey.fits hn
          have hnmax : n ≠ 2 ^ 63 - 1 := fun he => hne (he ▸ hn)
          unfold FitsI64 at hf ⊢
          omega
        rw [dispatch_bump hincr hkey (by decide) hn, dispatch_counter hby (Slot.incrBy_fits hkey hn hfits),
          wrapI64_of_fits hfits]
        rfl

/-- The reply of a checked addition is an integer only if the sum fits, and is then the sum. -/
theorem dispatch_incrBy_integer {c : Command} {delta a : Int} {s₁ : CacheStorage}
    (harm : arm env c = some (.write key (Slot.incrBy delta) (orError .integer))) (hkey : (s.slotAt key).IsString)
    (hdelta : FitsI64 delta) (h : dispatch env c s = some (some (.integer a), s₁)) :
    ∃ n, (s.slotAt key).number = some n ∧ FitsI64 (n + delta) ∧ a = n + delta ∧
      s₁ = s.setEntry key ((s.slotAt key).counted (n + delta)) := by
  cases hn : (s.slotAt key).number with
  | none =>
      rw [dispatch_counter harm (Slot.incrBy_not_number hkey hn)] at h
      cases h
  | some n =>
      by_cases hfits : FitsI64 (n + delta)
      · rw [dispatch_counter harm (Slot.incrBy_fits hkey hn hfits)] at h
        cases h
        exact ⟨n, rfl, hfits, rfl, rfl⟩
      · rw [dispatch_counter harm (Slot.incrBy_overflow hkey hdelta hn hfits)] at h
        cases h

/-- `DECRBY d` undoes `INCRBY d` whenever both succeed: the number is the one there was, in decimal. -/
theorem decrBy_undoes (hkey : (s.slotAt key).IsString) {delta : Int64} {a b : Int} {s₁ s₂ : CacheStorage}
    (hincr : dispatch env (.incrBy key delta) s = some (some (.integer a), s₁))
    (hdecr : dispatch env (.decrBy key delta) s₁ = some (some (.integer b), s₂)) :
    (s.slotAt key).number = some b ∧ s₂ = s.setEntry key ((s.slotAt key).counted b) := by
  obtain ⟨n, hn, hfits, rfl, rfl⟩ := dispatch_incrBy_integer rfl hkey (fitsI64_toInt delta) hincr
  have hkey₁ : ((s.setEntry key ((s.slotAt key).counted (n + delta.toInt))).slotAt key).IsString := by
    rw [CacheStorage.slotAt_setEntry_self]
    rintro v ⟨⟩
    exact ⟨_, _, rfl⟩
  obtain ⟨m, hm, hfits', rfl, rfl⟩ := dispatch_incrBy_integer rfl hkey₁ (fitsI64_wrapI64 _) hdecr
  rw [CacheStorage.slotAt_setEntry_self, Slot.number_counted hfits] at hm
  obtain rfl := Option.some_inj.mp hm
  -- `INCRBY i64::MIN` and `DECRBY i64::MIN` never both succeed
  have hback : n + delta.toInt + wrapI64 (-delta.toInt) = n := by
    have hdelta := fitsI64_toInt delta
    have hnfits := hkey.fits hn
    by_cases hmin : delta.toInt = -2 ^ 63
    · exfalso
      have hwrap : wrapI64 (-delta.toInt) = -2 ^ 63 := by
        rw [hmin]
        rfl
      rw [hwrap, hmin] at hfits'
      unfold FitsI64 at hfits' hnfits
      omega
    · rw [wrapI64_of_fits (by unfold FitsI64 at *; omega)]
      omega
  rw [hback]
  refine ⟨hn, ?_⟩
  rw [CacheStorage.setEntry_setEntry, CacheStorage.slotAt_setEntry_self]
  rfl

/-- **When the counters are right.** `INCR`, `DECR`, `INCRBY` and `DECRBY` on a string key, exactly where they are
    sound; `INCR` is `INCRBY 1` off `i64::MAX`; `DECRBY` undoes `INCRBY`; and `HINCRBY` on a field of a live hash,
    always. -/
theorem counters_right_iff (env : Env) (s : CacheStorage) (key : Bytes) :
    ((s.slotAt key).IsString →
      (∀ c : Counter, CounterRight env s key c ↔ c.Sound (s.slotAt key).number) ∧
      (dispatch env (.incr key) s = dispatch env (.incrBy key 1) s ↔ (s.slotAt key).number ≠ some (2 ^ 63 - 1)) ∧
      ∀ (delta : Int64) (a b : Int) (s₁ s₂ : CacheStorage),
        dispatch env (.incrBy key delta) s = some (some (.integer a), s₁) →
        dispatch env (.decrBy key delta) s₁ = some (some (.integer b), s₂) →
        (s.slotAt key).number = some b ∧ s₂ = s.setEntry key ((s.slotAt key).counted b)) ∧
    ((s.slotAt key).IsLiveHash env.now → ∀ field delta, HincrByRight env s key field delta) := by
  refine ⟨fun hkey => ⟨counterRight_iff hkey, incr_eq_incrBy_iff hkey, ?_⟩, hincrBy_right⟩
  intro delta a b s₁ s₂
  exact decrBy_undoes hkey

end

theorem counters_right_at_41 :
    let _ := shortKeys
    let s := CacheStorage.new.setEntry (utf8 "k") (some (.string (utf8 "41") (some 9)))
    CounterRight (Env.reading 5) s (utf8 "k") .incr ∧ CounterRight (Env.reading 5) s (utf8 "k") (.decrBy 50) ∧
      HincrByRight (Env.reading 5) s (utf8 "absent") (utf8 "f") (-3) := by
  intro _ s
  have hslot : s.slotAt (utf8 "k") = some (.string (utf8 "41") (some 9)) := CacheStorage.slotAt_setEntry_self _ _ _
  have hkey : (s.slotAt (utf8 "k")).IsString := by
    rw [hslot]
    rintro v ⟨⟩
    exact ⟨_, _, rfl⟩
  have hnumber : (s.slotAt (utf8 "k")).number = some 41 := by
    rw [hslot]
    decide
  have habsent : (s.slotAt (utf8 "absent")).IsLiveHash 5 := by
    have hnone : s.slotAt (utf8 "absent") = none := by
      rw [CacheStorage.slotAt_setEntry_ne (by decide), CacheStorage.slotAt_new]
    rw [hnone]
    rintro v ⟨⟩
  refine ⟨?_, ?_, ?_⟩
  · refine (((counters_right_iff (Env.reading 5) s (utf8 "k")).1 hkey).1 .incr).mpr ?_
    show (s.slotAt (utf8 "k")).number ≠ some (2 ^ 63 - 1)
    rw [hnumber]
    decide
  · refine (((counters_right_iff (Env.reading 5) s (utf8 "k")).1 hkey).1 (.decrBy 50)).mpr ?_
    intro h
    exact absurd h (by decide)
  · exact (counters_right_iff (Env.reading 5) s (utf8 "absent")).2 habsent _ _

/-- `INCR` at `i64::MAX` answers `i64::MIN` and stores it; `DECRBY k i64::MIN` of an absent key stores `i64::MIN`. -/
theorem incr_wraps_at_max :
    let _ := shortKeys
    let s := CacheStorage.new.setEntry (utf8 "k") (some (.string (utf8 "9223372036854775807") none))
    dispatch (Env.reading 5) (.incr (utf8 "k")) s
        = some (some (.integer (-9223372036854775808)),
          s.setEntry (utf8 "k") (some (.string (utf8 "-9223372036854775808") none))) ∧
      ¬ CounterRight (Env.reading 5) s (utf8 "k") .incr ∧
      ¬ CounterRight (Env.reading 5) s (utf8 "absent") (.decrBy (-9223372036854775808)) := by
  intro _ s
  have hslot : s.slotAt (utf8 "k") = some (.string (utf8 "9223372036854775807") none) :=
    CacheStorage.slotAt_setEntry_self _ _ _
  have hnone : s.slotAt (utf8 "absent") = none := by
    rw [CacheStorage.slotAt_setEntry_ne (by decide), CacheStorage.slotAt_new]
  have hkey : (s.slotAt (utf8 "k")).IsString := by
    rw [hslot]
    rintro v ⟨⟩
    exact ⟨_, _, rfl⟩
  have habsent : (s.slotAt (utf8 "absent")).IsString := by
    rw [hnone]
    rintro v ⟨⟩
  refine ⟨?_, ?_, ?_⟩
  · have harm : arm (Env.reading 5) (.incr (utf8 "k"))
        = some (.write (utf8 "k") (Slot.bump 1) (orError .integer)) := rfl
    refine dispatch_counter harm (r := .ok (-9223372036854775808)) ?_
    rw [hslot]
    decide
  · rw [incr_right_iff hkey, hslot]
    decide
  · rw [decrBy_right_iff habsent, hnone]
    decide

end FerricCache
