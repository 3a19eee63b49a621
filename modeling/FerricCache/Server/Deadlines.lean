import FerricCache.Server.Steady

/-!
# `FerricCache.Server.Deadlines` — the three expiry commands

`EXPIRE` and `PEXPIRE` refuse a negative duration and set a deadline otherwise; `EXPIREAT` deletes the key when its
timestamp is not in the future. So they do the same for a time that is to come, and part ways at the others as soon as
something is stored at the key (`sameLive_iff`). All three add a duration the client chose to an `Instant`, which
panics past the `i64` seconds (`expire_returns_iff`), and `PTTL` casts the milliseconds that are left to an `i64`
(`pttl_exact_iff`).
-/

namespace FerricCache

open Reply

variable [KeyHash] {env : Env} {s : CacheStorage} {key : Bytes}

/-- The two commands give the same reply and leave the same live entries, deadlines included. -/
def SameLive (env : Env) (c c' : Command) (s : CacheStorage) : Prop :=
  ∃ r t t', dispatch env c s = some (r, t) ∧ dispatch env c' s = some (r, t') ∧
    ∀ k, t.live env.now k = t'.live env.now k

/-- It is a matter of the slot at their key. -/
theorem sameLive_slot {c c' : Command} {f g : Slot → Option Response × Slot} (hc : arm env c = some (.slot key f))
    (hc' : arm env c' = some (.slot key g)) :
    SameLive env c c' s ↔ (f (s.slotAt key)).1 = (g (s.slotAt key)).1 ∧
      Slot.live env.now (f (s.slotAt key)).2 = Slot.live env.now (g (s.slotAt key)).2 := by
  have hf : dispatch env c s = some ((f (s.slotAt key)).1, s.setEntry key (f (s.slotAt key)).2) := by
    rw [dispatch, hc]
    rfl
  have hg : dispatch env c' s = some ((g (s.slotAt key)).1, s.setEntry key (g (s.slotAt key)).2) := by
    rw [dispatch, hc']
    rfl
  constructor
  · rintro ⟨r, t, t', h, h', hlive⟩
    cases hf.symm.trans h
    obtain ⟨hr, rfl⟩ := Prod.mk.inj (Option.some_inj.mp (hg.symm.trans h'))
    have hkey := hlive key
    rw [CacheStorage.live, CacheStorage.live, CacheStorage.slotAt_setEntry_self,
      CacheStorage.slotAt_setEntry_self] at hkey
    exact ⟨hr.symm, hkey⟩
  · rintro ⟨hr, hlive⟩
    refine ⟨_, _, _, hf, by rw [hg, hr], fun k => ?_⟩
    unfold CacheStorage.live
    by_cases hk : k = key
    · rw [hk, CacheStorage.slotAt_setEntry_self, CacheStorage.slotAt_setEntry_self]
      exact hlive
    · rw [CacheStorage.slotAt_setEntry_ne hk, CacheStorage.slotAt_setEntry_ne hk]

/-! ## The three commands -/

omit [KeyHash] in
/-- The milliseconds of that many seconds are the same duration. -/
theorem duration_millis {secs millis : Int64} (h : millis.toInt = 1000 * secs.toInt) :
    (tryU64 millis).map durationMillis = (tryU64 secs).map durationSecs := by
  unfold tryU64
  by_cases hneg : secs.toInt < 0
  · rw [if_pos hneg, if_pos (by omega)]
    rfl
  · rw [if_neg hneg, if_neg (by omega)]
    simp only [Option.map_some, durationMillis, durationSecs, Option.some_inj]
    omega

/-- `PEXPIRE` of the milliseconds is `EXPIRE`. -/
theorem pexpire_eq {secs millis : Int64} (h : millis.toInt = 1000 * secs.toInt) :
    dispatch env (.pexpire key millis) s = dispatch env (.expire key secs) s := by
  show some (s.onKey key (expireArm env.now ((tryU64 millis).map durationMillis))) = _
  rw [duration_millis h]
  rfl

theorem sameLive_pexpire {secs millis : Int64} (h : millis.toInt = 1000 * secs.toInt) :
    SameLive env (.expire key secs) (.pexpire key millis) s := by
  unfold SameLive
  rw [pexpire_eq h]
  exact ⟨_, _, _, rfl, rfl, fun _ => rfl⟩

/-- **`EXPIREAT` does what `EXPIRE` does** for a time to come, and for any other only where nothing is stored. An
    `Instant` counts its seconds in an `i64`. -/
theorem sameLive_expireAt_iff (hclock : env.now / 1000000000 < 2 ^ 63) {secs unixSecs : Int64}
    (h : unixSecs.toInt = env.unixSecs + secs.toInt) :
    SameLive env (.expire key secs) (.expireAt key unixSecs) s ↔ 0 < secs.toInt ∨ s.slotAt key = none := by
  have hexpire : arm env (.expire key secs)
      = some (.slot key (expireArm env.now ((tryU64 secs).map durationSecs))) := rfl
  have hexpireAt : arm env (.expireAt key unixSecs) = some (.slot key (expireAtArm env unixSecs)) := rfl
  rw [sameLive_slot hexpire hexpireAt]
  by_cases hpos : 0 < secs.toInt
  · have htry : tryU64 secs = some (unixSecs.toInt.toNat - env.unixSecs) := by
      unfold tryU64
      rw [if_neg (by omega), Option.some_inj]
      omega
    rw [expireAtArm_future (by omega), htry]
    exact iff_of_true ⟨rfl, rfl⟩ (Or.inl hpos)
  · rw [expireAtArm_past (by omega), or_iff_right hpos]
    cases hslot : s.slotAt key with
    | none =>
        refine iff_of_true ?_ rfl
        by_cases hneg : secs.toInt < 0
        · rw [tryU64, if_pos hneg]
          exact ⟨rfl, rfl⟩
        · -- a deadline at once, where nothing can have it
          have hzero : tryU64 secs = some 0 := by
            rw [tryU64, if_neg hneg, Option.some_inj]
            omega
          rw [hzero, show (some 0).map durationSecs = some 0 from rfl, expireArm]
          dsimp only
          rw [instantAdd, Nat.add_zero, if_pos hclock]
          exact ⟨rfl, rfl⟩
    | some v =>
        refine iff_of_false ?_ (by simp)
        rintro ⟨hreply, hlive⟩
        by_cases hneg : secs.toInt < 0
        · rw [tryU64, if_pos hneg] at hreply
          cases hreply
        · have hzero : tryU64 secs = some 0 := by
            rw [tryU64, if_neg hneg, Option.some_inj]
            omega
          rw [hzero, show (some 0).map durationSecs = some 0 from rfl, expireArm] at hreply hlive
          dsimp only at hreply hlive
          rw [instantAdd, Nat.add_zero, if_pos hclock] at hreply hlive
          dsimp only at hreply hlive
          rw [Slot.setExpiry] at hreply hlive
          cases hx : v.isExpired env.now with
          | true =>
              rw [hx, if_pos rfl] at hreply
              cases hreply
          | false =>
              -- `EXPIRE` leaves the value, live until the clock passes its own reading
              rw [hx, if_neg Bool.false_ne_true] at hlive
              have hstays : (v.withExpiry (some env.now)).isExpired env.now = false := by
                rw [CacheValue.isExpired, CacheValue.expiresAt_withExpiry]
                exact decide_eq_false (lt_irrefl _)
              rw [Slot.live_fresh hstays] at hlive
              cases hlive

/-! ## What is left -/

/-- **A value is live exactly until the clock passes its deadline.** -/
theorem live_until {v : CacheValue} {d : Instant} (hslot : s.slotAt key = some v) (hd : v.expiresAt = some d)
    (now : Instant) : s.live now key = some v ↔ now ≤ d := by
  rw [CacheStorage.live, Slot.live_eq_some, hslot, CacheValue.isExpired, hd, and_iff_right rfl]
  show decide (d < now) = false ↔ _
  rw [decide_eq_false_iff_not, Nat.not_lt]

omit [KeyHash] in
/-- A cast to `i64` keeps exactly the numbers below `2^63`. -/
theorem wrapI64_natCast_iff (n : Nat) : wrapI64 n = n ↔ n < 2 ^ 63 := by
  unfold wrapI64
  constructor
  · intro h
    have hlt := Int.bmod_lt (x := (n : Int)) (m := 2 ^ 64) (by norm_num)
    rw [h] at hlt
    omega
  · intro h
    rw [Int.bmod_eq_of_le] <;> omega

/-- **`PTTL` of a live value** is right exactly when the milliseconds left fit an `i64`. -/
theorem pttl_exact_iff {v : CacheValue} {d : Instant} (hslot : s.slotAt key = some v) (hd : v.expiresAt = some d)
    (hlive : env.now ≤ d) :
    (dispatch env (.pttl key) s).map Prod.fst = some (some (.integer ((d - env.now) / 1000000 : Nat))) ↔
      (d - env.now) / 1000000 < 2 ^ 63 := by
  have hfresh : v.isExpired env.now = false := (Slot.live_eq_some.mp ((live_until hslot hd env.now).mpr hlive)).2
  have hreply : (dispatch env (.pttl key) s).map Prod.fst
      = some (some (.integer (wrapI64 ((d - env.now) / 1000000 : Nat)))) := by
    show some (some (pttlReply (Slot.pttlMillis env.now (s.slotAt key)))) = _
    rw [hslot, Slot.pttlMillis, hfresh, if_neg Bool.false_ne_true, hd]
    dsimp only
    by_cases hle : d ≤ env.now
    · rw [if_pos hle, Nat.sub_eq_zero_of_le hle]
      rfl
    · rw [if_neg hle]
      rfl
  rw [hreply, Option.some_inj, Option.some_inj, Response.integer.injEq]
  exact wrapI64_natCast_iff _

/-! ## Panics -/

omit [KeyHash] in
theorem expireArm_returns_iff (now : Instant) (duration : Option Nat) (slot : Slot) :
    (expireArm now duration slot).1 ≠ none ↔ ∀ d, duration = some d → (now + d) / 1000000000 < 2 ^ 63 := by
  cases duration with
  | none => exact iff_of_true (by simp [expireArm]) (by simp)
  | some d =>
      unfold expireArm
      dsimp only
      by_cases hd : (now + d) / 1000000000 < 2 ^ 63
      · rw [instantAdd, if_pos hd]
        exact iff_of_true (by simp) (by rintro _ ⟨⟩; exact hd)
      · rw [instantAdd, if_neg hd]
        exact iff_of_false (by simp) (fun h => hd (h d rfl))

omit [KeyHash] in
theorem tryU64_map_iff (n : Int64) (f : Nat → Nat) (P : Nat → Prop) :
    (∀ d, (tryU64 n).map f = some d → P d) ↔ n.toInt < 0 ∨ P (f n.toInt.toNat) := by
  unfold tryU64
  by_cases hneg : n.toInt < 0
  · rw [if_pos hneg]
    exact iff_of_true (by simp) (Or.inl hneg)
  · rw [if_neg hneg, or_iff_right hneg]
    simp

theorem returns_slot {c : Command} (f : Slot → Option Response × Slot) (hc : arm env c = some (.slot key f)) :
    Returns env c s ↔ (f (s.slotAt key)).1 ≠ none := by
  unfold Returns dispatch
  rw [hc]
  show ¬ (some (f (s.slotAt key)).1 = some none) ↔ _
  rw [Option.some_inj]

/-- **`EXPIRE`** panics on a duration that takes the clock past the `i64` seconds. -/
theorem expire_returns_iff (n : Int64) : Returns env (.expire key n) s ↔
    n.toInt < 0 ∨ (env.now + durationSecs n.toInt.toNat) / 1000000000 < 2 ^ 63 := by
  rw [returns_slot (expireArm env.now ((tryU64 n).map durationSecs)) rfl, expireArm_returns_iff]
  exact tryU64_map_iff n durationSecs fun d => (env.now + d) / 1000000000 < 2 ^ 63

/-- **`PEXPIRE`** does so too. -/
theorem pexpire_returns_iff (n : Int64) : Returns env (.pexpire key n) s ↔
    n.toInt < 0 ∨ (env.now + durationMillis n.toInt.toNat) / 1000000000 < 2 ^ 63 := by
  rw [returns_slot (expireArm env.now ((tryU64 n).map durationMillis)) rfl, expireArm_returns_iff]
  exact tryU64_map_iff n durationMillis fun d => (env.now + d) / 1000000000 < 2 ^ 63

/-- **`EXPIREAT`** panics on a timestamp that far ahead. -/
theorem expireAt_returns_iff (n : Int64) : Returns env (.expireAt key n) s ↔
    n.toInt ≤ env.unixSecs ∨
      (env.now + durationSecs (n.toInt.toNat - env.unixSecs)) / 1000000000 < 2 ^ 63 := by
  rw [returns_slot (expireAtArm env n) rfl]
  by_cases hpast : n.toInt ≤ env.unixSecs
  · rw [expireAtArm_past hpast]
    exact iff_of_true (by simp) (Or.inl hpast)
  · rw [expireAtArm_future (by omega), expireArm_returns_iff, or_iff_right hpast]
    simp

/-! ## Together -/

/-- **The expiry commands** agree exactly for a time to come or where nothing is stored; a value is live exactly until
    the clock passes its deadline; `PTTL` says what is left of it exactly when the milliseconds fit an `i64`; and a
    command panics exactly when its duration, not negative, takes the clock past the `i64` seconds of an `Instant`. -/
theorem expiry_commands_iff (env : Env) (hclock : env.now / 1000000000 < 2 ^ 63) (s : CacheStorage) (key : Bytes) :
    (∀ secs millis unixSecs : Int64, millis.toInt = 1000 * secs.toInt →
      unixSecs.toInt = env.unixSecs + secs.toInt →
      (SameLive env (.expire key secs) (.pexpire key millis) s ∧
          SameLive env (.expire key secs) (.expireAt key unixSecs) s ↔
        0 < secs.toInt ∨ s.slotAt key = none)) ∧
    (∀ v d, s.slotAt key = some v → v.expiresAt = some d →
      (∀ now, s.live now key = some v ↔ now ≤ d) ∧
      (env.now ≤ d →
        ((dispatch env (.pttl key) s).map Prod.fst = some (some (.integer ((d - env.now) / 1000000 : Nat))) ↔
          (d - env.now) / 1000000 < 2 ^ 63))) ∧
    (∀ n : Int64,
      (Returns env (.expire key n) s ↔
        n.toInt < 0 ∨ (env.now + durationSecs n.toInt.toNat) / 1000000000 < 2 ^ 63) ∧
      (Returns env (.pexpire key n) s ↔
        n.toInt < 0 ∨ (env.now + durationMillis n.toInt.toNat) / 1000000000 < 2 ^ 63) ∧
      (Returns env (.expireAt key n) s ↔
        n.toInt ≤ env.unixSecs ∨
          (env.now + durationSecs (n.toInt.toNat - env.unixSecs)) / 1000000000 < 2 ^ 63)) := by
  refine ⟨?_, ?_, ?_⟩
  · intro secs millis unixSecs hmillis hunix
    rw [and_iff_right (sameLive_pexpire hmillis)]
    exact sameLive_expireAt_iff hclock hunix
  · intro v d hslot hd
    exact ⟨live_until hslot hd, pttl_exact_iff hslot hd⟩
  · intro n
    exact ⟨expire_returns_iff n, pexpire_returns_iff n, expireAt_returns_iff n⟩

omit [KeyHash] in
/-- Ten seconds to come, a deadline a second away, and an argument of one. -/
theorem expiry_commands_iff_ten :
    let _ := shortKeys
    let env := Env.reading 5
    let s := CacheStorage.new.setEntry (utf8 "k") (some (.string (utf8 "v") (some 1000000005)))
    SameLive env (.expire (utf8 "k") 10) (.expireAt (utf8 "k") 1700000010) s ∧
      (s.live 1000000005 (utf8 "k")).isSome = true ∧
      (dispatch env (.pttl (utf8 "k")) s).map Prod.fst = some (some (.integer 1000)) ∧
      Returns env (.pexpire (utf8 "k") 1) s := by
  intro _ env s
  have hslot : s.slotAt (utf8 "k") = some (.string (utf8 "v") (some 1000000005)) :=
    CacheStorage.slotAt_setEntry_self _ _ _
  obtain ⟨hagree, hdeadline, hreturns⟩ := expiry_commands_iff env (by decide) s (utf8 "k")
  obtain ⟨hlive, hpttl⟩ := hdeadline _ 1000000005 hslot rfl
  refine ⟨?_, ?_, ?_, ?_⟩
  · exact ((hagree 10 10000 1700000010 (by decide) (by decide)).mpr (Or.inl (by decide))).2
  · rw [(hlive 1000000005).mpr le_rfl]
    rfl
  · have hreply := (hpttl (by decide)).mpr (by decide)
    rw [show (1000000005 - env.now) / 1000000 = 1000 by decide] at hreply
    exact hreply
  · exact (hreturns 1).2.1.mpr (Or.inr (by decide))

omit [KeyHash] in
/-- On a live key: `EXPIRE k -1` answers 0 and keeps it where `EXPIREAT` a second ago answers 1 and deletes it;
    `EXPIRE k 0` keeps it live for this reading of the clock and `EXPIREAT` now deletes it; a deadline
    `9223372036854776` seconds away has a negative `PTTL`; and `EXPIRE k i64::MAX` panics once the clock shows a
    second. -/
theorem expiry_commands_differ :
    let _ := shortKeys
    let env := Env.reading 1000000000
    let s := CacheStorage.new.setEntry (utf8 "k") (some (.string (utf8 "v") none))
    let far := CacheStorage.new.setEntry (utf8 "k") (some (.string (utf8 "v") (some 9223372036854777000000000)))
    ¬ SameLive env (.expire (utf8 "k") (-1)) (.expireAt (utf8 "k") 1699999999) s ∧
      ¬ SameLive env (.expire (utf8 "k") 0) (.expireAt (utf8 "k") 1700000000) s ∧
      (dispatch env (.pttl (utf8 "k")) far).map Prod.fst = some (some (.integer (-9223372036854775616))) ∧
      ¬ Returns env (.expire (utf8 "k") 9223372036854775807) s := by
  intro _ env s far
  have hslot : s.slotAt (utf8 "k") = some (.string (utf8 "v") none) := CacheStorage.slotAt_setEntry_self _ _ _
  have hfar : far.slotAt (utf8 "k") = some (.string (utf8 "v") (some 9223372036854777000000000)) :=
    CacheStorage.slotAt_setEntry_self _ _ _
  have hclock : env.now / 1000000000 < 2 ^ 63 := by decide
  have hsome : ¬ s.slotAt (utf8 "k") = none := by
    rw [hslot]
    exact Option.some_ne_none _
  refine ⟨?_, ?_, ?_, ?_⟩
  · rw [sameLive_expireAt_iff hclock (by decide)]
    exact not_or.mpr ⟨by decide, hsome⟩
  · rw [sameLive_expireAt_iff hclock (by decide)]
    exact not_or.mpr ⟨by decide, hsome⟩
  · show some (some (pttlReply (Slot.pttlMillis env.now (far.slotAt (utf8 "k"))))) = _
    rw [hfar]
    decide
  · rw [expire_returns_iff]
    decide

end FerricCache
