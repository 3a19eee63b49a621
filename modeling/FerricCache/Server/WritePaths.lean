import FerricCache.Commands

/-!
# `FerricCache.Server.WritePaths` — the two write paths, compared

A write command runs twice: its dispatch arm changes the live storage, and `applyWriteCommand` changes
a replica's or a recovered one. `writePaths_agree_iff` compares the storages they leave, from the same
state and at the same clock reading. Two commands differ, and the theorem says exactly where: `XADD`
with an id that does not parse, and `EXPIREAT` with a timestamp before the epoch.
-/

namespace FerricCache

variable [KeyHash]

/-- The dispatch arm and the replay of `c` leave the same storage. -/
def WritePathsAgree (env : Env) (c : Command) (s : CacheStorage) : Prop :=
  (dispatch env c s).map Prod.snd = some (applyWriteCommand env c s).2

/-- The argument of `c` is one the two paths validate alike, or the key is in a state where the
    difference has no effect. -/
def ReplayExact (c : Command) (s : CacheStorage) : Prop :=
  match c with
  | .xadd key (some text) _ =>
      (∃ id, StreamId.parse text false = .ok id) ∨ ∃ v, s.slotAt key = some v ∧ Kind.stream.as v = none
  | .expireAt key unixSecs => 0 ≤ unixSecs.toInt ∨ s.slotAt key = none
  | _ => True

/-! ## `HMSET` -/

omit [KeyHash] in
/-- `hset` on a value of another type changes nothing. -/
theorem hset_error_keeps {f v e : Bytes} {slot : Slot} (h : (Slot.hset f v slot).1 = .error e) :
    (∀ f' v', (Slot.hset f' v' slot).2 = slot) := by
  intro f' v'
  cases slot with
  | none => cases h
  | some x =>
      cases x with
      | hash x => cases h
      | _ => rfl

omit [KeyHash] in
theorem foldl_hset_error {f v e : Bytes} {slot : Slot} (pairs : List (Bytes × Bytes))
    (h : (Slot.hset f v slot).1 = .error e) :
    pairs.foldl (fun slot p => (Slot.hset p.1 p.2 slot).2) slot = slot := by
  induction pairs with
  | nil => rfl
  | cons p pairs ih => rw [List.foldl_cons, hset_error_keeps h, ih]

omit [KeyHash] in
/-- Stopping at the first error leaves the slot that going on leaves. -/
theorem hmsetLoop_slot (pairs : List (Bytes × Bytes)) (slot : Slot) :
    (hmsetLoop pairs slot).2 = pairs.foldl (fun slot p => (Slot.hset p.1 p.2 slot).2) slot := by
  induction pairs generalizing slot with
  | nil => rfl
  | cons p pairs ih =>
      obtain ⟨f, v⟩ := p
      simp only [hmsetLoop, List.foldl_cons]
      cases hr : Slot.hset f v slot with
      | mk r slot' =>
          cases r with
          | ok b => exact ih slot'
          | error e =>
              have hkeep : (Slot.hset f v slot).1 = .error e := by rw [hr]
              have hslot : slot' = slot := by
                have := hset_error_keeps hkeep f v
                rwa [hr] at this
              rw [hslot]
              exact (foldl_hset_error pairs hkeep).symm

/-- A fold of one key's operations is one operation on its slot. -/
theorem foldl_onKey {α β : Type} (key : Bytes) (op : β → Slot → α × Slot) (l : List β)
    (s : CacheStorage) :
    l.foldl (fun s b => (s.onKey key (op b)).2) s
      = s.setEntry key (l.foldl (fun slot b => (op b slot).2) (s.slotAt key)) := by
  induction l generalizing s with
  | nil => exact (s.setEntry_slotAt key).symm
  | cons b l ih =>
      rw [List.foldl_cons, ih, List.foldl_cons]
      simp only [CacheStorage.onKey, CacheStorage.slotAt_setEntry_self,
        CacheStorage.setEntry_setEntry]

theorem hmset_agree (env : Env) (key : Bytes) (pairs : List (Bytes × Bytes)) (s : CacheStorage) :
    WritePathsAgree env (.hmset key pairs) s := by
  show some (s.setEntry key (hmsetLoop pairs (s.slotAt key)).2) = some _
  rw [hmsetLoop_slot]
  exact congrArg some (foldl_onKey key (fun (p : Bytes × Bytes) => Slot.hset p.1 p.2) pairs s).symm

/-! ## Deadlines -/

/-- The dispatch arm of a relative deadline leaves what replay leaves. -/
theorem expireArm_agree (env : Env) (key : Bytes) (d : Nat) (s : CacheStorage) :
    (s.onKey key (expireArm env.now (some d))).2 = (applyExpiry env s key d).2 := by
  unfold applyExpiry
  cases h : instantAdd env.now d with
  | some t => simp [expireArm, h, applyKey, CacheStorage.onKey]
  | none =>
      simp only [expireArm, h, CacheStorage.onKey]
      exact s.setEntry_slotAt key

theorem expire_agree (env : Env) (key : Bytes) (duration : Option Nat) (s : CacheStorage) :
    (s.onKey key (expireArm env.now duration)).2 = (applyExpire env s key duration).2 := by
  cases duration with
  | some d => exact expireArm_agree env key d s
  | none => exact s.setEntry_slotAt key

theorem expireAt_agree_iff (env : Env) (key : Bytes) (t : Int64) (s : CacheStorage) :
    WritePathsAgree env (.expireAt key t) s ↔ ReplayExact (.expireAt key t) s := by
  show some (s.setEntry key (expireAtArm env t (s.slotAt key)).2)
    = some (applyExpireAt env s key t).2 ↔ 0 ≤ t.toInt ∨ s.slotAt key = none
  rw [Option.some_inj]
  unfold applyExpireAt
  by_cases hneg : t.toInt < 0
  · have htry : tryU64 t = none := if_pos hneg
    rw [expireAtArm_past (by omega), htry]
    constructor
    · intro h
      right
      have hentry := congrArg (fun s => s.slotAt key) h
      exact hentry.symm.trans (s.slotAt_setEntry_self key none)
    · rintro (h | h)
      · omega
      · rw [← h]
        exact s.setEntry_slotAt key
  · have htry : tryU64 t = some t.toInt.toNat := if_neg hneg
    rw [htry]
    refine iff_of_true ?_ (Or.inl (by omega))
    by_cases hpast : t.toInt ≤ (env.unixSecs : Int)
    · have hnot : ¬ env.unixSecs < t.toInt.toNat := by omega
      rw [expireAtArm_past hpast]
      simp only [if_neg hnot]
      rfl
    · have hfut : env.unixSecs < t.toInt.toNat := by omega
      rw [expireAtArm_future (by omega)]
      simp only [if_pos hfut]
      exact expireArm_agree env key _ s

/-! ## Streams -/

omit [KeyHash] in
/-- An auto id is never the stream's last id. -/
theorem autoId_ne_lastId (st : StreamValue) (nowMs : UInt64) : st.autoId nowMs ≠ st.lastId := by
  unfold StreamValue.autoId
  split
  · intro h
    have hms := congrArg StreamId.ms h
    simp only at hms
    subst hms
    simp_all
  · intro h
    have hseq := congrArg StreamId.seq h
    simp at hseq

omit [KeyHash] in
/-- An auto-id `XADD` changes any slot that holds no value of another type. -/
theorem xadd_auto_changes (env : Env) (fields : List (Bytes × Bytes)) (slot : Slot)
    (h : ∀ v, slot = some v → Kind.stream.as v ≠ none) : (Slot.xadd env none fields slot).2 ≠ slot := by
  cases slot with
  | none => simp [Slot.xadd, Slot.writeOrCreate, Slot.insertNew, StreamValue.add, Except.map]
  | some v =>
      cases v with
      | stream st =>
          simp only [Slot.xadd, Slot.writeOrCreate, Kind.stream, StreamValue.add]
          by_cases hx : (CacheValue.stream st).isExpired env.now = true
          · -- the expired stream is replaced by one without a deadline
            simp only [hx, if_true, Slot.insertNew, Except.map]
            intro he
            have hexp : (none : Option Instant) = st.expiresAt := by
              injection he with he
              injection he with he
              exact congrArg StreamValue.expiresAt he
            simp [CacheValue.isExpired, CacheValue.expiresAt, ← hexp, expiredAt] at hx
          · simp only [hx]
            intro he
            injection he with he
            injection he with he
            exact autoId_ne_lastId st env.unixMs (congrArg StreamValue.lastId he)
      | _ => exact absurd rfl (h _ rfl)

/-- With an unparsable id, dispatch leaves the slot and replay runs the auto-id `XADD` on it. -/
theorem xadd_agree_iff (env : Env) (key text : Bytes) (fields : List (Bytes × Bytes))
    (s : CacheStorage) :
    WritePathsAgree env (.xadd key (some text) fields) s
      ↔ ReplayExact (.xadd key (some text) fields) s := by
  show some (s.setEntry key (xaddArm env (some text) fields (s.slotAt key)).2)
    = some (s.setEntry key
        (Slot.xadd env (StreamId.parse text false).toOption fields (s.slotAt key)).2)
    ↔ (∃ id, StreamId.parse text false = .ok id) ∨
      ∃ v, s.slotAt key = some v ∧ Kind.stream.as v = none
  rw [Option.some_inj]
  cases hp : StreamId.parse text false with
  | ok id =>
      rw [xaddArm_parsed fields hp]
      exact iff_of_true rfl (Or.inl ⟨id, rfl⟩)
  | error e =>
      rw [xaddArm_unparsed fields hp]
      constructor
      · intro h
        right
        by_contra hno
        push Not at hno
        refine xadd_auto_changes env fields (s.slotAt key) hno ?_
        have hentry := congrArg (fun s => s.slotAt key) h
        simpa [Except.toOption] using hentry.symm
      · rintro (⟨id, hid⟩ | ⟨v, hv, hkind⟩)
        · cases hid
        · rw [hv]
          simp only [Slot.xadd, Slot.writeOrCreate, hkind]

/-! ## Every write -/

/-- **The two write paths agree exactly on the arguments they validate alike**, for every write except
the auto-id `XADD` and `SPOP`, every storage and every clock reading. -/
theorem writePaths_agree_iff (env : Env) (c : Command) (s : CacheStorage)
    (hw : isWriteCommand c = true) (hauto : ∀ key fields, c ≠ .xadd key none fields)
    (hspop : ∀ key n, c ≠ .spop key n) : WritePathsAgree env c s ↔ ReplayExact c s := by
  cases c with
  | xadd key id fields =>
      cases id with
      | none => exact absurd rfl (hauto key fields)
      | some text => exact xadd_agree_iff env key text fields s
  | expireAt key t => exact expireAt_agree_iff env key t s
  | spop key n => exact absurd rfl (hspop key n)
  | hmset key pairs => exact iff_of_true (hmset_agree env key pairs s) trivial
  | expire key n => exact iff_of_true (congrArg some (expire_agree env key _ s)) trivial
  | pexpire key n => exact iff_of_true (congrArg some (expire_agree env key _ s)) trivial
  | _ => first | exact iff_of_true rfl trivial | cases hw

omit [KeyHash] in
/-- The theorem at an `INCR` of an absent key, where both paths store `1`. -/
theorem writePaths_agree_incr :
    letI := shortKeys
    WritePathsAgree (Env.reading 5) (.incr (utf8 "k")) CacheStorage.new :=
  letI := shortKeys
  (writePaths_agree_iff (Env.reading 5) (.incr (utf8 "k")) CacheStorage.new rfl
    (fun _ _ h => by cases h) (fun _ _ h => by cases h)).mpr trivial

omit [KeyHash] in
/-- `XADD k abc f v` on an empty store: the server refuses the id, replay appends under a fresh one. -/
theorem xadd_unparsable_id_drifts :
    letI := shortKeys
    ¬ WritePathsAgree (Env.reading 5) (.xadd (utf8 "k") (some (utf8 "abc")) [(utf8 "f", utf8 "v")])
        CacheStorage.new := by
  intro h
  rcases (@xadd_agree_iff shortKeys _ _ _ _ _).mp h with ⟨id, hid⟩ | ⟨v, hv, _⟩
  · have hbad : StreamId.parse (utf8 "abc") false = .error (StreamId.invalid (utf8 "abc")) := by
      decide
    rw [hbad] at hid
    cases hid
  · have hnone := @CacheStorage.slotAt_new shortKeys (utf8 "k")
    rw [hnone] at hv
    cases hv

end FerricCache
