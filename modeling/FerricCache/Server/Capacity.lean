import FerricCache.Protocol.ParseCommand
import FerricCache.Server.Determinism
import FerricCache.Storage.Algebra
import FerricCache.Storage.Occurrences
import FerricCache.Storage.Slices

/-!
# `FerricCache.Server.Capacity` — the counts that become allocation requests

`SPOP`, `SRANDMEMBER`, `ZPOPMIN` and `ZPOPMAX` reserve a vector of as many elements as the client asks for, after they
found a live value and before they look at its size. A request above `isize::MAX` bytes panics, so on a live value
they return exactly for the counts whose bytes fit (`spop_returns_iff`, `srandMember_safe_iff`,
`zpopMin_returns_iff`); the positive counts of `SRANDMEMBER` reserve nothing. When they return, `SPOP` and
`SRANDMEMBER` draw as many distinct members as there are, up to the count, and `SPOP` removes exactly these
(`spop_draws`, `srandMember_draws`).
-/

namespace FerricCache

variable [KeyHash] {env : Env} {s : CacheStorage} {key : Bytes}

/-- There is a live value of this type at the key. -/
def LiveAt {τ : Type} (K : Kind τ) (now : Instant) (s : CacheStorage) (key : Bytes) : Prop :=
  ∃ t, s.live now key = some (K.of t)

/-! ## Operations that look at live values only -/

section Shapes

variable {τ α : Type} {K : Kind τ} {now : Instant} {slot : Slot} {t : τ}

omit [KeyHash]

theorem writeLive_live (h : slot.live now = some (K.of t)) (missing : α) (f : τ → Res α × τ) :
    Slot.writeLive K now missing f slot = ((f t).1, some (K.of (f t).2)) := by
  obtain ⟨rfl, hfresh⟩ := Slot.live_eq_some.mp h
  rw [Slot.writeLive, K.as_of]
  dsimp only
  rw [hfresh, if_neg Bool.false_ne_true]

theorem readLive_live (h : slot.live now = some (K.of t)) (missing : α) (f : τ → α) :
    Slot.readLive K now missing f slot = .ok (f t) := by
  obtain ⟨rfl, hfresh⟩ := Slot.live_eq_some.mp h
  rw [Slot.readLive, K.as_of]
  dsimp only
  rw [hfresh, if_neg Bool.false_ne_true]

/-- Without one they answer with nothing or refuse the type. -/
theorem writeLive_other (h : ¬ ∃ t, slot.live now = some (K.of t)) (missing : α) (f : τ → Res α × τ) :
    (Slot.writeLive K now missing f slot).1 = .ok missing ∨
      (Slot.writeLive K now missing f slot).1 = .error wrongType := by
  cases slot with
  | none => exact Or.inl rfl
  | some v =>
      right
      rw [Slot.writeLive]
      cases hv : K.as v with
      | none => rfl
      | some t =>
          cases hx : v.isExpired now with
          | true => rfl
          | false => exact absurd ⟨t, by rw [Slot.live_fresh hx, K.of_as hv]⟩ h

theorem readLive_other (h : ¬ ∃ t, slot.live now = some (K.of t)) (missing : α) (f : τ → α) :
    Slot.readLive K now missing f slot = .ok missing ∨ Slot.readLive K now missing f slot = .error wrongType := by
  cases slot with
  | none => exact Or.inl rfl
  | some v =>
      right
      rw [Slot.readLive]
      cases hv : K.as v with
      | none => rfl
      | some t =>
          cases hx : v.isExpired now with
          | true => rfl
          | false => exact absurd ⟨t, by rw [Slot.live_fresh hx, K.of_as hv]⟩ h

/-- A reply that may be a panic is one exactly when the result is. -/
theorem orPanic_ne_none (f : α → Response) (r : Res (Option α)) : Reply.orPanic f r ≠ none ↔ r ≠ .ok none := by
  rcases r with e | (_ | a) <;> simp [Reply.orPanic]

/-- Such a write returns exactly when it does on the live value, if there is one. -/
theorem writeLive_returns_iff (a : α) (f : τ → Res (Option α) × τ) :
    (Slot.writeLive K now (some a) f slot).1 ≠ .ok none ↔
      ∀ t, slot.live now = some (K.of t) → (f t).1 ≠ .ok none := by
  by_cases hlive : ∃ t, slot.live now = some (K.of t)
  · obtain ⟨t, ht⟩ := hlive
    rw [writeLive_live ht]
    refine ⟨fun h u hu => ?_, fun h => h t ht⟩
    have htu := congrArg K.as (Option.some_inj.mp (ht.symm.trans hu))
    rw [K.as_of, K.as_of, Option.some_inj] at htu
    rwa [← htu]
  · refine iff_of_true ?_ fun t ht => absurd ⟨t, ht⟩ hlive
    rcases writeLive_other hlive (some a) f with h | h <;> rw [h] <;> simp

theorem readLive_returns_iff (a : α) (f : τ → Option α) :
    Slot.readLive K now (some a) f slot ≠ .ok none ↔ ∀ t, slot.live now = some (K.of t) → f t ≠ none := by
  by_cases hlive : ∃ t, slot.live now = some (K.of t)
  · obtain ⟨t, ht⟩ := hlive
    rw [readLive_live ht]
    refine ⟨fun h u hu => ?_, fun h heq => h t ht (Except.ok.inj heq)⟩
    have htu := congrArg K.as (Option.some_inj.mp (ht.symm.trans hu))
    rw [K.as_of, K.as_of, Option.some_inj] at htu
    rw [← htu]
    exact fun heq => h (congrArg Except.ok heq)
  · refine iff_of_true ?_ fun t ht => absurd ⟨t, ht⟩ hlive
    rcases readLive_other hlive (some a) f with h | h <;> rw [h] <;> simp

end Shapes

/-! ## What returns -/

omit [KeyHash] in
theorem capacityOverflow_eq_true {n : Nat} : Slot.capacityOverflow n = true ↔ isizeMax < n * 32 := by
  unfold Slot.capacityOverflow
  exact decide_eq_true_iff

omit [KeyHash] in
theorem spop_fits_iff (pos : Bytes → Nat) (m : Nat) (slot : Slot) :
    (Slot.spop env pos m slot).1 ≠ .ok none ↔
      ((∃ t, slot.live env.now = some (Kind.set.of t)) → m * 32 ≤ isizeMax) := by
  rw [Slot.spop, writeLive_returns_iff]
  constructor
  · rintro h ⟨t, ht⟩
    by_contra hlarge
    apply h t ht
    rw [if_pos (capacityOverflow_eq_true.mpr (by omega))]
  · intro h t ht hnone
    have hfits := h ⟨t, ht⟩
    rw [if_neg (fun hlarge => by have := capacityOverflow_eq_true.mp hlarge; omega)] at hnone
    cases hnone

/-- **`SPOP`** returns unless there is a live set and the request is too large. -/
theorem spop_returns_iff (n : Option UInt64) : Returns env (.spop key n) s ↔
    (LiveAt Kind.set env.now s key → (n.map UInt64.toNat).getD 1 * 32 ≤ isizeMax) := by
  generalize hm : (n.map UInt64.toNat).getD 1 = m
  have hreturns : Returns env (.spop key n) s ↔
      (Slot.spop env (env.iterPos (some key)) m (s.slotAt key)).1 ≠ .ok none := by
    rw [← hm, ← orPanic_ne_none fun l => if n.isNone then Reply.valueOr l.head? else .array l]
    exact not_congr Option.some_inj
  rw [hreturns]
  exact spop_fits_iff _ m _

/-- **`SRANDMEMBER`** of a count that is not negative returns. Of a negative one, the negation fits and the operation
    returns, unless there is a live set and the request is too large. -/
theorem srandMember_safe_iff (n : Option Int64) :
    (Returns env (.srandMember key n) s ∧
        (LiveAt Kind.set env.now s key → (n.getD 1).toInt < 0 → FitsI64 (-(n.getD 1).toInt))) ↔
      (LiveAt Kind.set env.now s key → (n.getD 1).toInt < 0 → (n.getD 1).toInt.natAbs * 32 ≤ isizeMax) := by
  have hcount : (n.map Int64.toInt).getD 1 = (n.getD 1).toInt := by
    cases n <;> rfl
  have hreturns : Returns env (.srandMember key n) s ↔
      Slot.srandMember env (env.iterPos (some key)) (n.getD 1).toInt (s.slotAt key) ≠ .ok none := by
    rw [← hcount, ← orPanic_ne_none fun l => if n.isNone then Reply.valueOr l.getLast? else .array l]
    exact not_congr Option.some_inj
  rw [hreturns, Slot.srandMember, readLive_returns_iff]
  generalize n.getD 1 = m
  constructor
  · rintro ⟨h, -⟩ ⟨t, ht⟩ hneg
    by_contra hlarge
    apply h t ht
    rw [if_neg (by omega)]
    dsimp only
    rw [asUsize_neg m hneg, if_pos (capacityOverflow_eq_true.mpr (by omega))]
  · intro h
    refine ⟨fun t ht hnone => ?_, fun hlive hneg => ?_⟩
    · by_cases hneg : m.toInt < 0
      · have hfits := h ⟨t, ht⟩ hneg
        rw [if_neg (by omega)] at hnone
        dsimp only at hnone
        rw [asUsize_neg m hneg, if_neg (fun hlarge => by have := capacityOverflow_eq_true.mp hlarge; omega)] at hnone
        cases hnone
      · rw [if_pos (by omega)] at hnone
        cases hnone
    · -- the least count is too large
      have hfits := h hlive hneg
      unfold isizeMax at hfits
      unfold FitsI64
      omega

omit [KeyHash] in
/-- A pop that gives up on `n` elements exactly when they are too many. -/
theorem zpop_fits_iff {now : Instant} {pop : SortedSetValue → Option (List (Bytes × F64) × SortedSetValue)} {n : Nat}
    (hpop : ∀ z, pop z = none ↔ isizeMax < n * 40) (slot : Slot) :
    (Slot.zpop now pop slot).1 ≠ .ok none ↔
      ((∃ z, slot.live now = some (Kind.sortedSet.of z)) → n * 40 ≤ isizeMax) := by
  rw [Slot.zpop, writeLive_returns_iff]
  constructor
  · rintro h ⟨z, hz⟩
    by_contra hlarge
    apply h z hz
    rw [(hpop z).mpr (Nat.lt_of_not_le hlarge)]
  · intro h z hz hnone
    cases hp : pop z with
    | none => exact absurd ((hpop z).mp hp) (Nat.not_lt.mpr (h ⟨z, hz⟩))
    | some r =>
        rw [hp] at hnone
        cases hnone

omit [KeyHash] in
theorem popMin_eq_none {pos : Bytes → Nat} {n : Nat} (z : SortedSetValue) :
    z.popMin pos n = none ↔ isizeMax < n * 40 := by
  unfold SortedSetValue.popMin
  split <;> simp_all

omit [KeyHash] in
theorem popMax_eq_none {pos : Bytes → Nat} {n : Nat} (z : SortedSetValue) :
    z.popMax pos n = none ↔ isizeMax < n * 40 := by
  unfold SortedSetValue.popMax
  split <;> simp_all

/-- **`ZPOPMIN`** returns unless there is a live sorted set and the request is too large. -/
theorem zpopMin_returns_iff (n : UInt64) : Returns env (.zpopMin key n) s ↔
    (LiveAt Kind.sortedSet env.now s key → n.toNat * 40 ≤ isizeMax) := by
  have hreturns : Returns env (.zpopMin key n) s ↔
      (Slot.zpopMin env.now (env.iterPos (some key)) n.toNat (s.slotAt key)).1 ≠ .ok none := by
    rw [← orPanic_ne_none fun l => Reply.scored (l.map fun p => (p.1, some p.2))]
    exact not_congr Option.some_inj
  rw [hreturns]
  exact zpop_fits_iff popMin_eq_none _

/-- **`ZPOPMAX`** too. -/
theorem zpopMax_returns_iff (n : UInt64) : Returns env (.zpopMax key n) s ↔
    (LiveAt Kind.sortedSet env.now s key → n.toNat * 40 ≤ isizeMax) := by
  have hreturns : Returns env (.zpopMax key n) s ↔
      (Slot.zpopMax env.now (env.iterPos (some key)) n.toNat (s.slotAt key)).1 ≠ .ok none := by
    rw [← orPanic_ne_none fun l => Reply.scored (l.map fun p => (p.1, some p.2))]
    exact not_congr Option.some_inj
  rw [hreturns]
  exact zpop_fits_iff popMax_eq_none _

/-! ## What is drawn -/

omit [KeyHash] in
/-- A lawful draw from a set: as many distinct members as there are, up to the count. -/
theorem chooseMultiple_draws (henv : env.Lawful) (t : SetValue) (pos : Bytes → Nat) (n : Nat) :
    (env.chooseMultiple (t.getAll pos) n).Nodup ∧
      (env.chooseMultiple (t.getAll pos) n).length = min n t.len ∧
      ∀ m ∈ env.chooseMultiple (t.getAll pos) n, m ∈ t.toSet := by
  obtain ⟨l, hperm, hsub⟩ := henv.subperm (t.getAll pos) n
  refine ⟨?_, ?_, ?_⟩
  · exact hperm.nodup_iff.mp ((t.nodup_getAll pos).sublist hsub)
  · rw [henv.length, SetValue.getAll, (iterate_perm pos id _).length_eq, Std.ExtTreeSet.length_toList]
    rfl
  · intro m hm
    exact (t.mem_getAll pos).mp (hsub.subset (hperm.mem_iff.mpr hm))

/-- **`SPOP` draws and removes**: distinct members, as many as there are up to the count, and no other goes. -/
theorem spop_draws (henv : env.Lawful) {t : SetValue} (hlive : s.live env.now key = some (.set t)) {n : Nat}
    (hfits : n * 32 ≤ isizeMax) (pos : Bytes → Nat) :
    ∃ out t', (s.onKey key (Slot.spop env pos n)).1 = .ok (some out) ∧
      (s.onKey key (Slot.spop env pos n)).2.slotAt key = some (.set t') ∧
      out.Nodup ∧ out.length = min n t.len ∧ (∀ m ∈ out, m ∈ t.toSet) ∧
      t'.toSet = t.toSet \ {m | m ∈ out} ∧ t'.expiresAt = t.expiresAt := by
  obtain ⟨hnodup, hlength, hmem⟩ := chooseMultiple_draws henv t pos n
  have hop : Slot.spop env pos n (s.slotAt key)
      = (.ok (some (env.chooseMultiple (t.getAll pos) n)),
        some (.set ((env.chooseMultiple (t.getAll pos) n).foldl SetValue.remove t))) := by
    rw [Slot.spop, writeLive_live (K := Kind.set) hlive,
      if_neg (fun hlarge => by have := capacityOverflow_eq_true.mp hlarge; omega)]
    rfl
  refine ⟨_, _, congrArg Prod.fst hop, ?_, hnodup, hlength, hmem, ?_,
    expiresAt_foldl_remove t (env.chooseMultiple (t.getAll pos) n)⟩
  · rw [CacheStorage.onKey, CacheStorage.slotAt_setEntry_self, hop]
  · ext m
    exact members_foldl_remove t _ m

/-- **`SRANDMEMBER` of a count that is not negative** draws the same way and removes nothing. -/
theorem srandMember_draws (henv : env.Lawful) {t : SetValue} (hlive : s.live env.now key = some (.set t)) {n : Int}
    (hn : 0 ≤ n) (pos : Bytes → Nat) :
    ∃ out, Slot.srandMember env pos n (s.slotAt key) = .ok (some out) ∧
      out.Nodup ∧ out.length = min n.toNat t.len ∧ ∀ m ∈ out, m ∈ t.toSet := by
  obtain ⟨hnodup, hlength, hmem⟩ := chooseMultiple_draws henv t pos n.toNat
  refine ⟨_, ?_, hnodup, hlength, hmem⟩
  rw [Slot.srandMember, readLive_live (K := Kind.set) hlive, if_pos hn]

/-! ## Together -/

/-- **Client-chosen counts.** The four commands return, without an overflow, exactly when what they reserve on a live
    value fits `isize::MAX` bytes; what `SPOP` and `SRANDMEMBER` return then is a draw without repetition, which `SPOP`
    removes. `rand` is taken at its word. -/
theorem client_counts_iff (env : Env) (henv : env.Lawful) (s : CacheStorage) (key : Bytes) :
    (∀ n, Returns env (.spop key n) s ↔
      (LiveAt Kind.set env.now s key → (n.map UInt64.toNat).getD 1 * 32 ≤ isizeMax)) ∧
    (∀ n, (Returns env (.srandMember key n) s ∧
        (LiveAt Kind.set env.now s key → (n.getD 1).toInt < 0 → FitsI64 (-(n.getD 1).toInt))) ↔
      (LiveAt Kind.set env.now s key → (n.getD 1).toInt < 0 → (n.getD 1).toInt.natAbs * 32 ≤ isizeMax)) ∧
    (∀ n, Returns env (.zpopMin key n) s ↔ (LiveAt Kind.sortedSet env.now s key → n.toNat * 40 ≤ isizeMax)) ∧
    (∀ n, Returns env (.zpopMax key n) s ↔ (LiveAt Kind.sortedSet env.now s key → n.toNat * 40 ≤ isizeMax)) ∧
    (∀ t, s.live env.now key = some (.set t) → ∀ (pos : Bytes → Nat) (n : Nat),
      (n * 32 ≤ isizeMax → ∃ out t', (s.onKey key (Slot.spop env pos n)).1 = .ok (some out) ∧
        (s.onKey key (Slot.spop env pos n)).2.slotAt key = some (.set t') ∧
        out.Nodup ∧ out.length = min n t.len ∧ (∀ m ∈ out, m ∈ t.toSet) ∧
        t'.toSet = t.toSet \ {m | m ∈ out} ∧ t'.expiresAt = t.expiresAt) ∧
      ∃ out, Slot.srandMember env pos n (s.slotAt key) = .ok (some out) ∧
        out.Nodup ∧ out.length = min n t.len ∧ ∀ m ∈ out, m ∈ t.toSet) :=
  ⟨spop_returns_iff, srandMember_safe_iff, zpopMin_returns_iff, zpopMax_returns_iff,
    fun _ ht pos n => ⟨fun hfits => spop_draws henv ht hfits pos, srandMember_draws henv ht (Int.natCast_nonneg n) pos⟩⟩

omit [KeyHash] in
/-- Two of three members, from a set and from a sorted set. -/
theorem client_counts_iff_three :
    let _ := shortKeys
    let t := CacheStorage.setOf [utf8 "a", utf8 "b", utf8 "c"]
    let s := CacheStorage.new.setEntry (utf8 "s") (some (.set t))
    Returns (Env.reading 5) (.spop (utf8 "s") (some 2)) s ∧ Returns (Env.reading 5) (.zpopMin (utf8 "s") 2) s ∧
      ∃ out, Slot.srandMember (Env.reading 5) (fun _ => 0) (2 : Nat) (s.slotAt (utf8 "s")) = .ok (some out) ∧
        out.Nodup ∧ out.length = 2 := by
  intro _ t s
  have hslot : s.slotAt (utf8 "s") = some (.set t) := CacheStorage.slotAt_setEntry_self _ _ _
  have hlive : s.live (Env.reading 5).now (utf8 "s") = some (.set t) := Slot.live_eq_some.mpr ⟨hslot, rfl⟩
  obtain ⟨hspop, -, hzpop, -, hdraws⟩ := client_counts_iff (Env.reading 5) (lawful_reading 5) s (utf8 "s")
  obtain ⟨out, hout, hnodup, hlength, -⟩ := (hdraws t hlive (fun _ => 0) 2).2
  refine ⟨(hspop (some 2)).mpr fun _ => by decide, (hzpop 2).mpr fun _ => by decide, out, hout, hnodup, ?_⟩
  rw [hlength]
  decide

omit [KeyHash] in
/-- `SPOP s 9223372036854775807`, `SRANDMEMBER s -9223372036854775808` and `ZPOPMIN z 9223372036854775807`, as they come
    off the wire, on live keys of one member: the parser admits them, the requests overflow, and the negation does not
    fit. -/
theorem client_counts_overflow :
    let _ := shortKeys
    let _ := noEscapes
    let arg := fun (text : String) => RespValue.bulkString (some (utf8 text))
    let s := (CacheStorage.new.setEntry (utf8 "s") (some (.set (CacheStorage.setOf [utf8 "a"])))).setEntry (utf8 "z")
      (some (.sortedSet (SortedSetValue.new.add (.fin 1) (utf8 "a"))))
    (∃ n, parseCommand (.array [arg "SPOP", arg "s", arg "9223372036854775807"]) = .ok (.spop (utf8 "s") n) ∧
      ¬ Returns (Env.reading 5) (.spop (utf8 "s") n) s) ∧
    (∃ n, parseCommand (.array [arg "SRANDMEMBER", arg "s", arg "-9223372036854775808"])
        = .ok (.srandMember (utf8 "s") n) ∧
      ¬ FitsI64 (-(n.getD 1).toInt) ∧ ¬ Returns (Env.reading 5) (.srandMember (utf8 "s") n) s) ∧
    ∃ n, parseCommand (.array [arg "ZPOPMIN", arg "z", arg "9223372036854775807"]) = .ok (.zpopMin (utf8 "z") n) ∧
      ¬ Returns (Env.reading 5) (.zpopMin (utf8 "z") n) s := by
  intro _ _ arg s
  have hset : s.slotAt (utf8 "s") = some (.set (CacheStorage.setOf [utf8 "a"])) := by
    rw [CacheStorage.slotAt_setEntry_ne (by decide), CacheStorage.slotAt_setEntry_self]
  have hzset : s.slotAt (utf8 "z") = some (.sortedSet (SortedSetValue.new.add (.fin 1) (utf8 "a"))) :=
    CacheStorage.slotAt_setEntry_self _ _ _
  refine ⟨⟨some 9223372036854775807, rfl, ?_⟩, ⟨some (-9223372036854775808), rfl, by decide, ?_⟩,
    9223372036854775807, rfl, ?_⟩
  · rw [spop_returns_iff]
    intro h
    exact absurd (h ⟨_, Slot.live_eq_some.mpr ⟨hset, rfl⟩⟩) (by decide)
  · intro hreturns
    have hreply : (dispatch (Env.reading 5) (.srandMember (utf8 "s") (some (-9223372036854775808))) s).map Prod.fst
        = some none := by
      show some (Reply.orPanic _ (Slot.srandMember (Env.reading 5) _ _ (s.slotAt (utf8 "s")))) = _
      rw [hset]
      decide
    exact hreturns hreply
  · rw [zpopMin_returns_iff]
    intro h
    exact absurd (h ⟨_, Slot.live_eq_some.mpr ⟨hzset, rfl⟩⟩) (by decide)

end FerricCache
