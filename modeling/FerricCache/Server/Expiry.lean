import FerricCache.Security.ScriptAccess
import FerricCache.Server.ExpirySlot
import FerricCache.Server.Requests

/-!
# `FerricCache.Server.Expiry` — when an expired entry can be told from an absent one

`ExpiryUnseen env c s` says that `c` replies the same, and leaves the same live entries, on `s` and on
`s` cleaned up. For a single-key command only the stale value of its key matters (`observe_slot_iff`).
The moves, the set algebra and `XREAD` look at several keys, and a stale key matters only where their
loops get to it. `expiryUnseen_iff` gives the exact condition for every command.

A script does not see expiry when each of its calls, at its turn, is a command that does not
(`scriptUnseen_of_safe`).
-/

namespace FerricCache

open Reply

variable [KeyHash] {env : Env}

/-! ## Arms on the whole storage -/

/-- What a client can see of an execution: the reply and the live entries. -/
def observe (now : Instant) (r : Option Response × CacheStorage) :
    Option Response × (Bytes → Slot) := (r.1, r.2.live now)

/-- Running `c` on `s` and on the cleaned-up `s` cannot be told apart. -/
def ExpiryUnseen (env : Env) (c : Command) (s : CacheStorage) : Prop :=
  (dispatch env c s).map (observe env.now)
    = (dispatch env c (s.cleanupExpired env.now)).map (observe env.now)

omit [KeyHash] in
theorem Slot.live_live (now : Instant) (slot : Slot) :
    Slot.live now (Slot.live now slot) = Slot.live now slot := by
  simp [Slot.live, Option.filter_filter]

theorem live_cleanupExpired (now : Instant) (s : CacheStorage) :
    (s.cleanupExpired now).live now = s.live now := by
  funext k
  show Slot.live now ((s.cleanupExpired now).slotAt k) = s.live now k
  rw [CacheStorage.slotAt_cleanupExpired]
  exact Slot.live_live now (s.slotAt k)

/-- For a single-key arm only the stale value of its key matters. -/
theorem observe_slot_iff (key : Bytes) (f : Slot → Option Response × Slot) (s : CacheStorage)
    (now : Instant) :
    observe now (Arm.run s (.slot key f)) = observe now (Arm.run (s.cleanupExpired now) (.slot key f))
      ↔ ∀ v, s.slotAt key = some v → v.isExpired now = true → StaleSafe now f v := by
  have hview : ∀ (t : CacheStorage) (slot : Slot), t.live now = s.live now →
      (t.setEntry key slot).live now = fun k => if k = key then Slot.live now slot else s.live now k := by
    intro t slot ht
    funext k
    rw [CacheStorage.live_setEntry, ht]
  have hobs : ∀ t : CacheStorage, t.live now = s.live now → observe now (Arm.run t (.slot key f))
      = ((f (t.slotAt key)).1, fun k => if k = key then Slot.live now (f (t.slotAt key)).2
          else s.live now k) := by
    intro t ht
    simp only [observe, Arm.run, CacheStorage.onKey, hview t _ ht]
  rw [hobs s rfl, hobs _ (live_cleanupExpired now s), CacheStorage.slotAt_cleanupExpired]
  by_cases hstale : ∃ v, s.slotAt key = some v ∧ v.isExpired now = true
  · obtain ⟨v, hv, hx⟩ := hstale
    have hlive : s.live now key = none := by
      unfold CacheStorage.live
      rw [hv]
      exact Slot.live_expired hx
    rw [hv, hlive]
    constructor
    · intro h w hw _
      cases hw
      obtain ⟨hr, hl⟩ := Prod.mk.inj h
      exact ⟨hr, by simpa using congrFun hl key⟩
    · intro h
      obtain ⟨hr, hl⟩ := h v rfl hx
      rw [hr, hl]
  · push Not at hstale
    have hlive : s.live now key = s.slotAt key := by
      unfold CacheStorage.live
      cases he : s.slotAt key with
      | none => rfl
      | some v => exact Slot.live_fresh (by simpa using hstale v he)
    rw [hlive]
    exact iff_of_true rfl fun v hv hx => absurd hx (hstale v hv)

/-- The shards' live keys are what is left after cleaning up, in the same order. -/
theorem liveKeys_cleanupExpired (s : CacheStorage) (i : Fin 64) :
    (s.cleanupExpired env.now).liveKeys env i = s.liveKeys env i := by
  unfold CacheStorage.liveKeys CacheStorage.cleanupExpired
  rw [Std.ExtTreeMap.toList_filter, ← iterate_filter, List.filter_filter]
  simp

/-- Writes of whole slots leave the same live view on the same live view. -/
theorem live_setEntry_congr {now : Instant} {s t : CacheStorage} {key : Bytes} {a b : Slot}
    (h : s.live now = t.live now) (hab : Slot.live now a = Slot.live now b) :
    (s.setEntry key a).live now = (t.setEntry key b).live now := by
  funext k
  rw [CacheStorage.live_setEntry, CacheStorage.live_setEntry, h, hab]

theorem live_mset_congr {now : Instant} {s t : CacheStorage} (pairs : List (Bytes × Bytes))
    (h : s.live now = t.live now) : (s.mset pairs).live now = (t.mset pairs).live now := by
  induction pairs generalizing s t with
  | nil => exact h
  | cons p pairs ih => exact ih (live_setEntry_congr h rfl)

omit [KeyHash] in
theorem hget_live (now : Instant) (field : Bytes) (slot : Slot) :
    Slot.hget now field (Slot.live now slot) = Slot.hget now field slot := by
  cases slot with
  | none => rfl
  | some v =>
      cases hx : v.isExpired now with
      | true =>
          rw [Slot.live_expired hx]
          cases v with
          | hash h => exact (if_pos hx).symm
          | _ => rfl
      | false => rw [Slot.live_fresh hx]

omit [KeyHash] in
theorem get_live (now : Instant) (slot : Slot) :
    Slot.get now (Slot.live now slot) = Slot.get now slot := by
  cases slot with
  | none => rfl
  | some v =>
      cases hx : v.isExpired now with
      | true => simp [Slot.live_expired hx, Slot.get, hx]
      | false => rw [Slot.live_fresh hx]

/-! ## The two moves -/

/-- The key holds a value whose deadline has passed. -/
def Stale (now : Instant) (s : CacheStorage) (key : Bytes) : Prop :=
  ∃ v, s.slotAt key = some v ∧ v.isExpired now = true

section Kinds

variable {τ : Type} (K : Kind τ) (now : Instant) (s : CacheStorage) (key : Bytes)

/-- The key holds an expired value of another type. -/
def StaleOther : Prop := ∃ v, s.slotAt key = some v ∧ v.isExpired now = true ∧ K.as v = none

/-- The key holds a live value of another type. -/
def LiveOther : Prop := ∃ v, s.live now key = some v ∧ K.as v = none

/-- The key holds a live value of this type. -/
def LiveIs : Prop := ∃ t, s.live now key = some (K.of t)

end Kinds

/-- Every key is absent, stale of this type, stale of another, live of this, or live of another. -/
theorem key_cases {τ : Type} (K : Kind τ) (now : Instant) (s : CacheStorage) (key : Bytes) :
    s.slotAt key = none ∨ (∃ v t, s.slotAt key = some v ∧ v.isExpired now = true ∧ K.as v = some t) ∨
      StaleOther K now s key ∨ LiveIs K now s key ∨ LiveOther K now s key := by
  cases he : s.slotAt key with
  | none => exact Or.inl rfl
  | some v =>
      right
      cases hx : v.isExpired now with
      | true =>
          cases hk : K.as v with
          | some t => exact Or.inl ⟨v, t, rfl, hx, hk⟩
          | none => exact Or.inr (Or.inl ⟨v, he, hx, hk⟩)
      | false =>
          have hlive : s.live now key = some v := Slot.live_eq_some.mpr ⟨he, hx⟩
          cases hk : K.as v with
          | some t => exact Or.inr (Or.inr (Or.inl ⟨t, by rw [K.of_as hk]; exact hlive⟩))
          | none => exact Or.inr (Or.inr (Or.inr ⟨v, hlive, hk⟩))

/-- A live key is not stale. -/
theorem not_stale_of_live {now : Instant} {s : CacheStorage} {key : Bytes} {w : CacheValue}
    (h : s.live now key = some w) : ¬ Stale now s key := by
  rintro ⟨v, hv, hx⟩
  obtain ⟨hw, hlive⟩ := Slot.live_eq_some.mp h
  rw [hv] at hw
  cases hw
  rw [hx] at hlive
  cases hlive

section Move

variable {τ α β : Type} {K : Kind τ} {now : Instant} {missing : α} {take : τ → α × τ}
  {moved : α → Option β} {fresh : τ} {put : β → τ → τ}

omit [KeyHash] in
/-- A stale value of the right type is replaced as if it were absent. -/
theorem putInto_stale {v : CacheValue} {t : τ} (hx : v.isExpired now = true) (hk : K.as v = some t)
    (put : τ → τ) :
    CacheStorage.putInto K now fresh put (some v) = CacheStorage.putInto K now fresh put none := by
  simp [CacheStorage.putInto, Slot.writeOrCreate, hk, hx, Slot.insertNew]

/-- The reply of an operation that returns `Ok` or `Err`. -/
def replied {α : Type} (g : α → Response) (r : Res α × CacheStorage) :
    Option Response × CacheStorage := (orError g r.1, r.2)

/-- The destination half, in a storage whose source has been written to `x`, does not see that the
    destination is stale, unless it is of another type. -/
theorem putInto_destination {s : CacheStorage} {source destination : Bytes} {x : CacheValue}
    (hother : ¬ StaleOther K now s destination) (put : τ → τ) :
    CacheStorage.putInto K now fresh put ((s.setEntry source (some x)).slotAt destination)
      = CacheStorage.putInto K now fresh put
          (((s.cleanupExpired now).setEntry source (some x)).slotAt destination) := by
  rw [CacheStorage.slotAt_setEntry, CacheStorage.slotAt_setEntry, CacheStorage.slotAt_cleanupExpired]
  split
  · rfl
  · rcases key_cases K now s destination with hnone | ⟨v, t, hv, hx, hk⟩ | ho | ⟨t, ht⟩ | ⟨v, hv, hk⟩
    · rw [CacheStorage.live, hnone]
      rfl
    · rw [CacheStorage.live, hv, putInto_stale hx hk, Slot.live_expired hx]
    · exact absurd ho hother
    · rw [ht, (Slot.live_eq_some.mp ht).1]
    · rw [hv, (Slot.live_eq_some.mp hv).1]

/-- **A move does not see expired keys** exactly when its source is not stale and, if something is
taken, its destination is not a stale value of another type. -/
theorem move_unseen_iff (K : Kind τ) (now : Instant) (missing : α) (take : τ → α × τ)
    (moved : α → Option β) (fresh : τ) (put : β → τ → τ) (source destination : Bytes)
    (s : CacheStorage) (hmissing : moved missing = none) {g : α → Response}
    (hg : ∀ a e, g a ≠ .error e) :
    observe now (replied g (s.move K now missing take moved fresh put source destination))
        = observe now (replied g
            ((s.cleanupExpired now).move K now missing take moved fresh put source destination)) ↔
      ¬ Stale now s source ∧
        (Takes K now take moved source s → ¬ StaleOther K now s destination) := by
  have hclean := live_cleanupExpired now s
  have hentry' := CacheStorage.slotAt_cleanupExpired now s
  by_cases hstale : Stale now s source
  · -- the stale source is refused, the absent one is not
    obtain ⟨v, hv, hx⟩ := hstale
    have hnone : (s.cleanupExpired now).slotAt source = none := by
      rw [hentry', CacheStorage.live, hv]
      exact Slot.live_expired hx
    rw [move_refused hv (Or.inr hx), move_missing hnone hmissing]
    refine iff_of_false ?_ (fun h => h.1 ⟨v, hv, hx⟩)
    intro h
    exact hg missing wrongType (Option.some.inj (Prod.mk.inj h).1).symm
  · rw [and_iff_right hstale]
    rcases key_cases K now s source with hnone | ⟨v, t, hv, hx, _⟩ | ⟨v, hv, hx, _⟩ | ⟨t, ht⟩ | ⟨v, hv, hk⟩
    · have hnone' : (s.cleanupExpired now).slotAt source = none := by
        rw [hentry', CacheStorage.live, hnone]
        rfl
      rw [move_missing hnone hmissing, move_missing hnone' hmissing]
      refine iff_of_true (by simp only [observe, replied, hclean]) ?_
      rintro ⟨t, b, ht, _⟩
      rw [CacheStorage.live, hnone] at ht
      cases ht
    · exact absurd ⟨v, hv, hx⟩ hstale
    · exact absurd ⟨v, hv, hx⟩ hstale
    · have ht' : (s.cleanupExpired now).live now source = some (K.of t) := by rw [hclean, ht]
      rw [move_live _ _ _ _ _ _ ht, move_live _ _ _ _ _ _ ht']
      cases hb : moved (take t).1 with
      | none =>
          refine iff_of_true ?_ ?_
          · simp only [observe, replied, live_setEntry_congr hclean.symm rfl]
          · rintro ⟨u, b, hu, hub⟩
            rw [ht] at hu
            rw [← Kind.of_inj (Option.some.inj hu), hb] at hub
            cases hub
      | some b =>
          have htakes : Takes K now take moved source s := ⟨t, b, ht, hb⟩
          have hview : (s.setEntry source (some (K.of (take t).2))).live now
              = ((s.cleanupExpired now).setEntry source (some (K.of (take t).2))).live now :=
            live_setEntry_congr hclean.symm rfl
          simp only [CacheStorage.onKey]
          by_cases hother : StaleOther K now s destination
          · -- refused as a stale value of another type, accepted as an absent key
            refine iff_of_false ?_ (fun h => h htakes hother)
            obtain ⟨v, hv, hx, hk⟩ := hother
            have hne : destination ≠ source := by
              rintro rfl
              exact hstale ⟨v, hv, hx⟩
            have hnone : (s.cleanupExpired now).slotAt destination = none := by
              rw [hentry', CacheStorage.live, hv]
              exact Slot.live_expired hx
            have hrefuse : CacheStorage.putInto K now fresh (put b) (some v)
                = (.error wrongType, some v) := by
              simp only [CacheStorage.putInto, Slot.writeOrCreate, hk]
            rw [CacheStorage.slotAt_setEntry_ne hne, CacheStorage.slotAt_setEntry_ne hne, hv, hnone,
              hrefuse]
            intro h
            exact hg (take t).1 wrongType (Option.some.inj (Prod.mk.inj h).1).symm
          · refine iff_of_true ?_ (fun _ => hother)
            rw [putInto_destination hother]
            obtain ⟨x, _, _, hp⟩ | ⟨_, u, hp⟩ := putInto_cases (K := K) now fresh (put b)
              (((s.cleanupExpired now).setEntry source (some (K.of (take t).2))).slotAt destination)
            · simp only [hp, observe, replied, live_setEntry_congr hview rfl]
            · simp only [hp, observe, replied, live_setEntry_congr hview rfl]
    · obtain ⟨hentry, _⟩ := Slot.live_eq_some.mp hv
      have hv' : (s.cleanupExpired now).slotAt source = some v := by rw [hentry', hv]
      rw [move_refused hentry (Or.inl hk), move_refused hv' (Or.inl hk)]
      refine iff_of_true (by simp only [observe, replied, hclean]) ?_
      rintro ⟨t, b, ht, _⟩
      rw [hv] at ht
      cases Option.some.inj ht
      rw [K.as_of] at hk
      cases hk

end Move

/-! ## Set algebra -/

section Sets

variable (now : Instant) (s : CacheStorage)

/-- A stale value of another type makes `snapshot_set` fail, an absent key does not. -/
theorem snapshotSet_staleOther {key : Bytes} (h : StaleOther Kind.set now s key) :
    s.snapshotSet now key = .error wrongType ∧
      (s.cleanupExpired now).snapshotSet now key = .ok none := by
  obtain ⟨v, hv, hx, hk⟩ := h
  constructor
  · simp [CacheStorage.snapshotSet, Slot.snapshotSet, Slot.readAs, hv, hk]
  · simp [CacheStorage.snapshotSet, CacheStorage.live, hv, Slot.live_expired hx, Slot.snapshotSet,
      Slot.readAs]

/-- On any other key `snapshot_set` does not see expiry, and says what is live there. -/
theorem snapshotSet_other {key : Bytes} (h : ¬ StaleOther Kind.set now s key) :
    (s.cleanupExpired now).snapshotSet now key = s.snapshotSet now key ∧
      (s.snapshotSet now key = .ok none ∨
        (∃ t, LiveIs Kind.set now s key ∧ s.snapshotSet now key = .ok (some t)) ∨
        (LiveOther Kind.set now s key ∧ s.snapshotSet now key = .error wrongType)) := by
  unfold CacheStorage.snapshotSet Slot.snapshotSet
  rw [CacheStorage.slotAt_cleanupExpired]
  rcases key_cases Kind.set now s key with hnone | ⟨v, t, hv, hx, hk⟩ | ho | ⟨t, ht⟩ | ⟨v, hv, hk⟩
  · simp [CacheStorage.live, hnone, Slot.live_none, Slot.readAs]
  · rw [CacheStorage.live, hv, readAs_stale hx, Slot.live_expired hx, hk]
    exact ⟨rfl, Or.inl rfl⟩
  · exact absurd ho h
  · obtain ⟨hentry, hx⟩ := Slot.live_eq_some.mp ht
    rw [ht, hentry]
    refine ⟨rfl, Or.inr (Or.inl ⟨t, ⟨t, ht⟩, ?_⟩)⟩
    simp [Slot.readAs, Kind.set.as_of, hx]
  · obtain ⟨hentry, hx⟩ := Slot.live_eq_some.mp hv
    rw [hv, hentry]
    refine ⟨rfl, Or.inr (Or.inr ⟨⟨v, hv, hk⟩, ?_⟩)⟩
    simp [Slot.readAs, hk]

/-- A key is not both a live set and a live value of another type. -/
theorem not_liveIs_of_liveOther {τ : Type} {K : Kind τ} {key : Bytes} (h : LiveOther K now s key) :
    ¬ LiveIs K now s key := by
  obtain ⟨v, hv, hk⟩ := h
  rintro ⟨t, ht⟩
  rw [hv] at ht
  cases Option.some.inj ht
  rw [K.as_of] at hk
  cases hk

/-- The first key that is not a live set is not a stale value of another type. -/
def SinterSafe : List Bytes → Prop
  | [] => True
  | key :: keys => ¬ StaleOther Kind.set now s key ∧ (LiveIs Kind.set now s key → SinterSafe keys)

/-- The `sinter` loops on the two storages agree, or one fails and the other returns nothing. -/
theorem sinterLoop_cases (keys : List Bytes) (result : Option SetValue) :
    (SinterSafe now s keys ∧
      CacheStorage.sinterLoop (s.snapshotSet now) result keys
        = CacheStorage.sinterLoop ((s.cleanupExpired now).snapshotSet now) result keys) ∨
    (¬ SinterSafe now s keys ∧
      CacheStorage.sinterLoop (s.snapshotSet now) result keys = .error wrongType ∧
      CacheStorage.sinterLoop ((s.cleanupExpired now).snapshotSet now) result keys = .ok none) := by
  induction keys generalizing result with
  | nil => exact Or.inl ⟨trivial, rfl⟩
  | cons key keys ih =>
      simp only [SinterSafe, CacheStorage.sinterLoop]
      by_cases ho : StaleOther Kind.set now s key
      · obtain ⟨herr, hok⟩ := snapshotSet_staleOther now s ho
        rw [herr, hok]
        exact Or.inr ⟨fun h => h.1 ho, rfl, rfl⟩
      · obtain ⟨hsame, hnone | ⟨t, hlive, ht⟩ | ⟨hother, herr⟩⟩ := snapshotSet_other now s ho
        · rw [hsame, hnone]
          by_cases hl : LiveIs Kind.set now s key
          · -- a live set is never read as missing
            obtain ⟨t, ht⟩ := hl
            obtain ⟨hentry, hx⟩ := Slot.live_eq_some.mp ht
            simp [CacheStorage.snapshotSet, Slot.snapshotSet, hentry, Slot.readAs, Kind.set.as_of,
              hx] at hnone
          · exact Or.inl ⟨⟨ho, fun h => absurd h hl⟩, rfl⟩
        · rw [hsame, ht]
          simp only [ho, not_false_eq_true, true_and, hlive, true_implies]
          cases result with
          | none => exact ih (some t)
          | some r => exact ih _
        · rw [hsame, herr]
          exact Or.inl ⟨⟨ho, fun h => absurd h (not_liveIs_of_liveOther now s hother)⟩, rfl⟩

/-- No key is a stale value of another type, or some key is a live one. -/
def SetLoopSafe (keys : List Bytes) : Prop :=
  (∀ key ∈ keys, ¬ StaleOther Kind.set now s key) ∨ ∃ key ∈ keys, LiveOther Kind.set now s key

/-- A loop that meets a live value of another type fails on both storages. -/
theorem setLoop_error (combine : SetValue → SetValue → SetValue) {keys : List Bytes}
    (h : ∃ key ∈ keys, LiveOther Kind.set now s key) (result : SetValue) :
    CacheStorage.setLoop (s.snapshotSet now) combine result keys = .error wrongType ∧
      CacheStorage.setLoop ((s.cleanupExpired now).snapshotSet now) combine result keys
        = .error wrongType := by
  induction keys generalizing result with
  | nil =>
      obtain ⟨_, hk, _⟩ := h
      cases hk
  | cons key keys ih =>
      have hrest : ¬ LiveOther Kind.set now s key → ∃ k ∈ keys, LiveOther Kind.set now s k := by
        intro hno
        obtain ⟨k, hk, hl⟩ := h
        rcases List.mem_cons.mp hk with rfl | hk
        · exact absurd hl hno
        · exact ⟨k, hk, hl⟩
      simp only [CacheStorage.setLoop]
      by_cases ho : StaleOther Kind.set now s key
      · obtain ⟨herr, hok⟩ := snapshotSet_staleOther now s ho
        rw [herr, hok]
        obtain ⟨v, hv, hx, _⟩ := ho
        refine ⟨rfl, (ih (hrest ?_) result).2⟩
        rintro ⟨w, hw, _⟩
        exact not_stale_of_live hw ⟨v, hv, hx⟩
      · obtain ⟨hsame, hnone | ⟨t, hlive, ht⟩ | ⟨hother, herr⟩⟩ := snapshotSet_other now s ho
        · rw [hsame, hnone]
          refine ih (hrest ?_) result
          rintro ⟨w, hw, hk⟩
          obtain ⟨hentry, _⟩ := Slot.live_eq_some.mp hw
          simp [CacheStorage.snapshotSet, Slot.snapshotSet, hentry, Slot.readAs, hk] at hnone
        · rw [hsame, ht]
          exact ih (hrest fun hl => not_liveIs_of_liveOther now s hl hlive) _
        · rw [hsame, herr]
          exact ⟨rfl, rfl⟩

/-- Without one, the cleaned-up loop succeeds, and the loop on `s` fails where it meets a stale value
    of another type. -/
theorem setLoop_ok (combine : SetValue → SetValue → SetValue) {keys : List Bytes}
    (h : ∀ key ∈ keys, ¬ LiveOther Kind.set now s key) (result : SetValue) :
    (∃ r, CacheStorage.setLoop ((s.cleanupExpired now).snapshotSet now) combine result keys = .ok r) ∧
      ((∀ key ∈ keys, ¬ StaleOther Kind.set now s key) →
        CacheStorage.setLoop (s.snapshotSet now) combine result keys
          = CacheStorage.setLoop ((s.cleanupExpired now).snapshotSet now) combine result keys) ∧
      ((∃ key ∈ keys, StaleOther Kind.set now s key) →
        CacheStorage.setLoop (s.snapshotSet now) combine result keys = .error wrongType) := by
  induction keys generalizing result with
  | nil =>
      refine ⟨⟨result, rfl⟩, fun _ => rfl, ?_⟩
      rintro ⟨_, hk, _⟩
      cases hk
  | cons key keys ih =>
      have hkeys : ∀ k ∈ keys, ¬ LiveOther Kind.set now s k := fun k hk => h k (by simp [hk])
      simp only [CacheStorage.setLoop]
      by_cases ho : StaleOther Kind.set now s key
      · obtain ⟨herr, hok⟩ := snapshotSet_staleOther now s ho
        rw [herr, hok]
        exact ⟨(ih hkeys result).1, fun hall => absurd ho (hall key (by simp)), fun _ => rfl⟩
      · have hsplit : (∀ r : SetValue, _) := ih hkeys
        obtain ⟨hsame, hcases⟩ := snapshotSet_other now s ho
        rw [hsame]
        have hstale : (∃ k ∈ key :: keys, StaleOther Kind.set now s k) →
            ∃ k ∈ keys, StaleOther Kind.set now s k := by
          rintro ⟨k, hk, hs⟩
          rcases List.mem_cons.mp hk with rfl | hk
          · exact absurd hs ho
          · exact ⟨k, hk, hs⟩
        rcases hcases with hnone | ⟨t, _, ht⟩ | ⟨hother, _⟩
        · rw [hnone]
          obtain ⟨h1, h2, h3⟩ := hsplit result
          exact ⟨h1, fun hall => h2 fun k hk => hall k (by simp [hk]), fun hex => h3 (hstale hex)⟩
        · rw [ht]
          obtain ⟨h1, h2, h3⟩ := hsplit (combine result t)
          exact ⟨h1, fun hall => h2 fun k hk => hall k (by simp [hk]), fun hex => h3 (hstale hex)⟩
        · exact absurd hother (h key (by simp))

/-- The set loops on the two storages agree exactly when `SetLoopSafe`; else one fails. -/
theorem setLoop_cases (combine : SetValue → SetValue → SetValue) (keys : List Bytes)
    (result : SetValue) :
    (SetLoopSafe now s keys ∧
      CacheStorage.setLoop (s.snapshotSet now) combine result keys
        = CacheStorage.setLoop ((s.cleanupExpired now).snapshotSet now) combine result keys) ∨
    (¬ SetLoopSafe now s keys ∧
      CacheStorage.setLoop (s.snapshotSet now) combine result keys = .error wrongType ∧
      ∃ r, CacheStorage.setLoop ((s.cleanupExpired now).snapshotSet now) combine result keys
        = .ok r) := by
  by_cases hlive : ∃ key ∈ keys, LiveOther Kind.set now s key
  · obtain ⟨h1, h2⟩ := setLoop_error now s combine hlive result
    exact Or.inl ⟨Or.inr hlive, h1.trans h2.symm⟩
  · have hno : ∀ key ∈ keys, ¬ LiveOther Kind.set now s key := fun k hk hl => hlive ⟨k, hk, hl⟩
    obtain ⟨hok, hagree, hfail⟩ := setLoop_ok now s combine hno result
    by_cases hstale : ∃ key ∈ keys, StaleOther Kind.set now s key
    · refine Or.inr ⟨?_, hfail hstale, hok⟩
      rintro (h | h)
      · obtain ⟨k, hk, hs⟩ := hstale
        exact h k hk hs
      · exact hlive h
    · push Not at hstale
      exact Or.inl ⟨Or.inl hstale, hagree hstale⟩

end Sets

/-! ## `XREAD` -/

section Xread

omit [KeyHash] in
/-- Every refusal of a stream id names the id. -/
theorem parse_error {text e : Bytes} {upper : Bool} (h : StreamId.parse text upper = .error e) :
    e = StreamId.invalid text := by
  unfold StreamId.parse at h
  split at h
  · cases h
  · split at h
    · cases h
    · split at h
      · cases h
      · split at h
        · split at h
          · cases h
          · exact (Except.error.inj h).symm
        · split at h
          · cases h
          · exact (Except.error.inj h).symm

omit [KeyHash] in
theorem parse_error_ne_wrongType {text e : Bytes} {upper : Bool}
    (h : StreamId.parse text upper = .error e) : e ≠ wrongType := by
  rw [parse_error h]
  intro heq
  have hhead := congrArg List.head? heq
  have hinvalid : (StreamId.invalid text).head? = some 105 := rfl
  have hwrong : wrongType.head? = some 87 := by decide
  rw [hinvalid, hwrong] at hhead
  cases hhead

variable (now : Instant) (s : CacheStorage)

/-- On the cleaned-up storage the loop ends at a live value that is not a stream. -/
def XreadRefused : List (Bytes × Bytes) → Prop
  | [] => False
  | (key, id) :: rest =>
      (∃ cursor, StreamId.parse id false = .ok cursor) ∧
        (LiveOther Kind.stream now s key ∨ XreadRefused rest)

/-- The loop ends, at an id that does not parse or a live value that is not a stream, before it reads
    a stale key, or the stale key is refused with the error the rest ends in. -/
def XreadSafe : List (Bytes × Bytes) → Prop
  | [] => True
  | (key, id) :: rest =>
      (∃ e, StreamId.parse id false = .error e) ∨ LiveOther Kind.stream now s key ∨
        (Stale now s key ∧ XreadRefused now s rest) ∨ (¬ Stale now s key ∧ XreadSafe rest)

theorem xread_stale {key : Bytes} (h : Stale now s key) (cursor : StreamId) (n : Option Nat) :
    Slot.xread now cursor n (s.slotAt key) = .error wrongType ∧
      Slot.xread now cursor n ((s.cleanupExpired now).slotAt key) = .ok [] := by
  obtain ⟨v, hv, hx⟩ := h
  rw [CacheStorage.slotAt_cleanupExpired, CacheStorage.live, hv, Slot.live_expired hx]
  exact ⟨readLive_stale hx, rfl⟩

theorem xread_not_stale {key : Bytes} (h : ¬ Stale now s key) (cursor : StreamId) (n : Option Nat) :
    (s.cleanupExpired now).slotAt key = s.slotAt key ∧
      ((LiveOther Kind.stream now s key ∧
          Slot.xread now cursor n (s.slotAt key) = .error wrongType) ∨
        (¬ LiveOther Kind.stream now s key ∧
          ∃ entries, Slot.xread now cursor n (s.slotAt key) = .ok entries)) := by
  rw [CacheStorage.slotAt_cleanupExpired]
  rcases key_cases Kind.stream now s key with hnone | ⟨v, t, hv, hx, _⟩ | ⟨v, hv, hx, _⟩ | ⟨t, ht⟩ |
    ⟨v, hv, hk⟩
  · rw [CacheStorage.live, hnone]
    refine ⟨rfl, Or.inr ⟨?_, [], rfl⟩⟩
    rintro ⟨w, hw, _⟩
    rw [CacheStorage.live, hnone] at hw
    cases hw
  · exact absurd ⟨v, hv, hx⟩ h
  · exact absurd ⟨v, hv, hx⟩ h
  · obtain ⟨hentry, hx⟩ := Slot.live_eq_some.mp ht
    rw [ht, hentry]
    refine ⟨rfl, Or.inr ⟨?_, t.readAfter cursor n, ?_⟩⟩
    · exact fun ho => not_liveIs_of_liveOther now s ho ⟨t, ht⟩
    · simp [Slot.xread, Slot.readLive, Kind.stream.as_of, hx]
  · obtain ⟨hentry, _⟩ := Slot.live_eq_some.mp hv
    rw [hv, hentry]
    exact ⟨rfl, Or.inl ⟨⟨v, hv, hk⟩, by simp [Slot.xread, Slot.readLive, hk]⟩⟩

/-- The cleaned-up loop ends in the type error exactly when `XreadRefused`. -/
theorem xreadLoop_refused_iff (n : Option UInt64) (pairs : List (Bytes × Bytes))
    (acc : List (Bytes × List (StreamId × List (Bytes × Bytes)))) :
    xreadLoop now n (s.cleanupExpired now) acc pairs = .error wrongType ↔ XreadRefused now s pairs := by
  induction pairs generalizing acc with
  | nil =>
      simp only [xreadLoop, XreadRefused, iff_false]
      split <;> simp [nullArray]
  | cons p rest ih =>
      obtain ⟨key, id⟩ := p
      simp only [xreadLoop, XreadRefused]
      cases hp : StreamId.parse id false with
      | error e =>
          simp only [Response.error.injEq, reduceCtorEq, exists_false, false_and, iff_false]
          exact parse_error_ne_wrongType hp
      | ok cursor =>
          simp only [Except.ok.injEq, exists_eq', true_and]
          by_cases hs : Stale now s key
          · obtain ⟨_, hok⟩ := xread_stale now s hs cursor (n.map UInt64.toNat)
            rw [hok]
            have hno : ¬ LiveOther Kind.stream now s key := by
              rintro ⟨_, hw, _⟩
              exact not_stale_of_live hw hs
            simp only [List.isEmpty_nil, if_true, hno, false_or]
            exact ih acc
          · obtain ⟨hsame, ⟨ho, herr⟩ | ⟨hno, entries, hok⟩⟩ :=
              xread_not_stale now s hs cursor (n.map UInt64.toNat)
            · rw [hsame, herr]
              simp [ho]
            · rw [hsame, hok]
              simp only [hno, false_or]
              split
              · exact ih acc
              · exact ih _

/-- **The two `XREAD` loops agree exactly when `XreadSafe`.** -/
theorem xreadLoop_agree_iff (n : Option UInt64) (pairs : List (Bytes × Bytes))
    (acc : List (Bytes × List (StreamId × List (Bytes × Bytes)))) :
    xreadLoop now n s acc pairs = xreadLoop now n (s.cleanupExpired now) acc pairs
      ↔ XreadSafe now s pairs := by
  induction pairs generalizing acc with
  | nil => exact iff_of_true rfl trivial
  | cons p rest ih =>
      obtain ⟨key, id⟩ := p
      simp only [xreadLoop, XreadSafe]
      cases hp : StreamId.parse id false with
      | error e => simp
      | ok cursor =>
          simp only [reduceCtorEq, exists_false, false_or]
          by_cases hs : Stale now s key
          · obtain ⟨herr, hok⟩ := xread_stale now s hs cursor (n.map UInt64.toNat)
            have hno : ¬ LiveOther Kind.stream now s key := by
              rintro ⟨_, hw, _⟩
              exact not_stale_of_live hw hs
            rw [herr, hok]
            simp only [List.isEmpty_nil, if_true, hno, hs, not_true_eq_false, true_and, false_and,
              false_or, or_false]
            rw [← xreadLoop_refused_iff now s n rest acc]
            exact eq_comm
          · obtain ⟨hsame, ⟨ho, herr⟩ | ⟨hno, entries, hok⟩⟩ :=
              xread_not_stale now s hs cursor (n.map UInt64.toNat)
            · rw [hsame, herr]
              simp [ho]
            · rw [hsame, hok]
              simp only [hno, hs, false_and, not_false_eq_true, true_and, false_or]
              split
              · exact ih acc
              · exact ih _

end Xread

/-! ## Every command -/

/-- What must hold of the stale entries for `c` not to see them. -/
def ExpirySafe (env : Env) (c : Command) (s : CacheStorage) : Prop :=
  match c with
  | .rpoplpush source destination =>
      ¬ Stale env.now s source ∧
        ((∃ l, s.live env.now source = some (.list l) ∧ l.items ≠ []) →
          ¬ StaleOther Kind.list env.now s destination)
  | .smove source destination member =>
      ¬ Stale env.now s source ∧
        ((∃ t, s.live env.now source = some (.set t) ∧ t.contains member = true) →
          ¬ StaleOther Kind.set env.now s destination)
  | .sinter keys => SinterSafe env.now s keys
  | .sunion keys => SetLoopSafe env.now s keys
  | .sdiff [] => True
  | .sdiff (first :: rest) =>
      ¬ StaleOther Kind.set env.now s first ∧
        (LiveIs Kind.set env.now s first → SetLoopSafe env.now s rest)
  | .xread _ keys ids => keys.length = ids.length → XreadSafe env.now s (keys.zip ids)
  | c => ∀ key v, commandKey c = some key → s.slotAt key = some v → v.isExpired env.now = true →
      StaleOk env c v

theorem slot_unseen_iff {c : Command} {key : Bytes} {f : Slot → Option Response × Slot}
    (h : arm env c = some (.slot key f)) (s : CacheStorage) :
    ExpiryUnseen env c s ↔ ∀ key v, commandKey c = some key → s.slotAt key = some v →
      v.isExpired env.now = true → StaleOk env c v := by
  have hkey := commandKey_of_slot h
  unfold ExpiryUnseen dispatch
  rw [h, Option.map_some, Option.map_some, Option.map_some, Option.map_some, Option.some_inj,
    observe_slot_iff]
  constructor
  · intro hsafe key' v hk hv hx
    rw [hkey] at hk
    cases hk
    exact (staleSafe_iff h hx).mp (hsafe v hv hx)
  · intro hok v hv hx
    exact (staleSafe_iff h hx).mpr (hok key v hkey hv hx)

theorem store_unseen_iff {c : Command} {f : CacheStorage → Option Response × CacheStorage}
    (h : arm env c = some (.store f)) (s : CacheStorage) :
    ExpiryUnseen env c s
      ↔ observe env.now (f s) = observe env.now (f (s.cleanupExpired env.now)) := by
  unfold ExpiryUnseen dispatch
  rw [h, Option.map_some, Option.map_some, Option.map_some, Option.map_some, Option.some_inj]
  rfl

/-- A read of the whole storage sees expiry exactly when its reply does. -/
theorem observe_read_iff {now : Instant} {s : CacheStorage} (f : CacheStorage → Option Response) :
    observe now (f s, s) = observe now (f (s.cleanupExpired now), s.cleanupExpired now)
      ↔ f s = f (s.cleanupExpired now) := by
  simp [observe, live_cleanupExpired]

theorem sinter_unseen_iff (keys : List Bytes) (s : CacheStorage) :
    ExpiryUnseen env (.sinter keys) s ↔ SinterSafe env.now s keys := by
  rw [store_unseen_iff rfl, observe_read_iff fun s : CacheStorage => orError .array (s.sinter env keys)]
  unfold CacheStorage.sinter
  rcases sinterLoop_cases env.now s keys none with ⟨hsafe, heq⟩ | ⟨hnot, herr, hok⟩
  · rw [heq]
    exact iff_of_true rfl hsafe
  · rw [herr, hok]
    exact iff_of_false (by simp [orError]) hnot

theorem sunion_unseen_iff (keys : List Bytes) (s : CacheStorage) :
    ExpiryUnseen env (.sunion keys) s ↔ SetLoopSafe env.now s keys := by
  rw [store_unseen_iff rfl, observe_read_iff fun s : CacheStorage => orError .array (s.sunion env keys)]
  unfold CacheStorage.sunion
  rcases setLoop_cases env.now s
      (fun result t => (t.getAll (env.iterPos none)).foldl SetValue.add result) keys SetValue.new with
    ⟨hsafe, heq⟩ | ⟨hnot, herr, r, hok⟩
  · rw [heq]
    exact iff_of_true rfl hsafe
  · rw [herr, hok]
    exact iff_of_false (by simp [orError]) hnot

theorem sdiff_unseen_iff (keys : List Bytes) (s : CacheStorage) :
    ExpiryUnseen env (.sdiff keys) s ↔ ExpirySafe env (.sdiff keys) s := by
  rw [store_unseen_iff rfl, observe_read_iff fun s : CacheStorage => orError .array (s.sdiff env keys)]
  unfold CacheStorage.sdiff
  cases keys with
  | nil => exact iff_of_true rfl trivial
  | cons first rest =>
      show _ ↔ ¬ StaleOther Kind.set env.now s first ∧
        (LiveIs Kind.set env.now s first → SetLoopSafe env.now s rest)
      dsimp only
      by_cases ho : StaleOther Kind.set env.now s first
      · obtain ⟨herr, hok⟩ := snapshotSet_staleOther env.now s ho
        rw [herr, hok]
        exact iff_of_false (by simp [orError]) fun h => h.1 ho
      · rw [and_iff_right ho]
        obtain ⟨hsame, hnone | ⟨t, hlive, ht⟩ | ⟨hother, herr⟩⟩ := snapshotSet_other env.now s ho
        · rw [hsame, hnone]
          refine iff_of_true rfl ?_
          rintro ⟨t, ht⟩
          obtain ⟨hentry, hx⟩ := Slot.live_eq_some.mp ht
          simp [CacheStorage.snapshotSet, Slot.snapshotSet, hentry, Slot.readAs, Kind.set.as_of,
            hx] at hnone
        · rw [hsame, ht]
          simp only [hlive, true_implies]
          rcases setLoop_cases env.now s (fun result u => CacheStorage.setOf (result.difference u))
              rest t with ⟨hsafe, heq⟩ | ⟨hnot, herr, r, hok⟩
          · rw [heq]
            exact iff_of_true rfl hsafe
          · rw [herr, hok]
            exact iff_of_false (by simp [orError]) hnot
        · rw [hsame, herr]
          exact iff_of_true rfl fun h => absurd h (not_liveIs_of_liveOther env.now s hother)

theorem xread_unseen_iff (n : Option UInt64) (keys ids : List Bytes) (s : CacheStorage) :
    ExpiryUnseen env (.xread n keys ids) s
      ↔ (keys.length = ids.length → XreadSafe env.now s (keys.zip ids)) := by
  rw [store_unseen_iff rfl,
    observe_read_iff fun s : CacheStorage => some (xreadArm env.now n keys ids s), Option.some_inj]
  unfold xreadArm
  by_cases hlen : keys.length = ids.length
  · simp only [ne_eq, hlen, not_true_eq_false, if_false, true_implies]
    exact xreadLoop_agree_iff env.now s n (keys.zip ids) []
  · simp [hlen]

/-- **Expired keys are indistinguishable from absent ones exactly when `ExpirySafe`**: for every
storage, every clock reading and every command that is not a script. -/
theorem expiryUnseen_iff (env : Env) (c : Command) (s : CacheStorage) (hc : isScript c = false) :
    ExpiryUnseen env c s ↔ ExpirySafe env c s := by
  cases c with
  | rpoplpush source destination =>
      rw [store_unseen_iff rfl]
      refine (move_unseen_iff Kind.list env.now none ListValue.popRight id ListValue.new
        (fun v l => l.pushLeft v) source destination s rfl valueOr_ne_error).trans ?_
      exact and_congr_right fun _ => imp_congr (takes_list_iff env.now source s) Iff.rfl
  | smove source destination member =>
      rw [store_unseen_iff rfl]
      refine (move_unseen_iff Kind.set env.now false (fun t => (t.contains member, t.remove member))
        (fun removed => if removed then some () else none) SetValue.new (fun _ t => t.add member)
        source destination s rfl flag_ne_error).trans ?_
      exact and_congr_right fun _ => imp_congr (takes_set_iff env.now source member s) Iff.rfl
  | sinter keys => exact sinter_unseen_iff keys s
  | sunion keys => exact sunion_unseen_iff keys s
  | sdiff keys => exact sdiff_unseen_iff keys s
  | xread n keys ids => exact xread_unseen_iff n keys ids s
  | rename key newKey =>
      refine iff_of_true ((store_unseen_iff rfl s).mpr ?_) (fun _ _ _ _ _ => trivial)
      simp only [observe, CacheStorage.rename, live_cleanupExpired]
      cases s.live env.now key with
      | none => simp only [live_setEntry_congr (live_cleanupExpired env.now s) rfl]
      | some v =>
          simp only [live_setEntry_congr (live_setEntry_congr (live_cleanupExpired env.now s) rfl) rfl]
  | mset pairs =>
      refine iff_of_true ((store_unseen_iff rfl s).mpr ?_) (fun _ _ h => by cases h)
      simp only [observe, live_mset_congr pairs (live_cleanupExpired env.now s)]
  | flushAll => exact iff_of_true ((store_unseen_iff rfl s).mpr rfl) (fun _ _ h => by cases h)
  | ping | echo _ =>
      refine iff_of_true ((store_unseen_iff rfl s).mpr ?_) (fun _ _ h => by cases h)
      simp only [observe, live_cleanupExpired]
  | existsKeys keys =>
      refine iff_of_true ((store_unseen_iff rfl s).mpr ?_) (fun _ _ h => by cases h)
      simp only [observe, CacheStorage.existsCount, live_cleanupExpired]
  | keys pattern =>
      refine iff_of_true ((store_unseen_iff rfl s).mpr ?_) (fun _ _ h => by cases h)
      simp only [observe, CacheStorage.keys, live_cleanupExpired, liveKeys_cleanupExpired]
  | dbSize =>
      refine iff_of_true ((store_unseen_iff rfl s).mpr ?_) (fun _ _ h => by cases h)
      simp only [observe, CacheStorage.dbsize, live_cleanupExpired, liveKeys_cleanupExpired]
  | randomKey =>
      refine iff_of_true ((store_unseen_iff rfl s).mpr ?_) (fun _ _ h => by cases h)
      simp only [observe, CacheStorage.randomKey, live_cleanupExpired, liveKeys_cleanupExpired]
  | mget keys =>
      refine iff_of_true ((store_unseen_iff rfl s).mpr ?_) (fun _ _ h => by cases h)
      simp only [observe, live_cleanupExpired, CacheStorage.slotAt_cleanupExpired, CacheStorage.live,
        get_live]
  | luaEval _ _ _ | luaEvalSha _ _ _ => cases hc
  | publish _ _ | subscribe _ | unsubscribe _ | multi | exec | discard | watch _ | unwatch | auth _ _ =>
      exact iff_of_true rfl (fun _ _ h => by cases h)
  | _ => exact slot_unseen_iff rfl s

/-- A store whose key `k` holds `5` with a deadline at instant 1. -/
def expiredFive : CacheStorage :=
  CacheStorage.new.setEntry (utf8 "k") (some (.string (utf8 "5") (some 1)))

omit [KeyHash] in
/-- The theorem at `GET k`, which reads the expired key as absent. -/
theorem expiryUnseen_get :
    letI := shortKeys
    ExpiryUnseen (Env.reading 5) (.get (utf8 "k")) expiredFive :=
  (@expiryUnseen_iff shortKeys (Env.reading 5) (.get (utf8 "k")) (@expiredFive shortKeys) rfl).mpr
    fun _ _ _ _ _ => trivial

omit [KeyHash] in
/-- `INCR k` after the deadline of `k` increments the dead value and replies 6; on the cleaned-up store
    it creates `k` and replies 1. -/
theorem incr_sees_expired_key :
    letI := shortKeys
    ¬ ExpiryUnseen (Env.reading 5) (.incr (utf8 "k")) expiredFive := by
  let _ := shortKeys
  rw [slot_unseen_iff rfl]
  exact fun h => h (utf8 "k") (.string (utf8 "5") (some 1)) rfl (by decide) (by decide)

/-! ## Scripts -/

section Scripts

/-- The second storage differs from the first only in entries that have expired and that it does not hold. -/
def Trails (now : Instant) (s t : CacheStorage) : Prop :=
  ∀ k, t.slotAt k = s.slotAt k ∨ t.slotAt k = none ∧ Stale now s k

variable {now later : Instant} {s t : CacheStorage} {key : Bytes}

theorem trails_cleanupExpired (now : Instant) (s : CacheStorage) : Trails now s (s.cleanupExpired now) := by
  intro k
  rw [CacheStorage.slotAt_cleanupExpired, CacheStorage.live]
  cases hk : s.slotAt k with
  | none => exact Or.inl rfl
  | some v =>
      cases hx : v.isExpired now with
      | true => exact Or.inr ⟨Slot.live_expired hx, v, hk, hx⟩
      | false => exact Or.inl (Slot.live_fresh hx)

theorem Trails.mono (h : Trails now s t) (hle : now ≤ later) : Trails later s t := by
  intro k
  obtain hsame | ⟨hnone, v, hv, hx⟩ := h k
  · exact Or.inl hsame
  · exact Or.inr ⟨hnone, v, hv, isExpired_mono hx hle⟩

theorem Trails.slotAt_eq (h : Trails now s t) (hkey : ¬ Stale now s key) : t.slotAt key = s.slotAt key :=
  (h key).resolve_right fun hstale => hkey hstale.2

theorem Trails.live_eq (h : Trails now s t) : t.live now = s.live now := by
  funext k
  obtain hsame | ⟨hnone, v, hv, hx⟩ := h k
  · rw [CacheStorage.live, CacheStorage.live, hsame]
  · rw [CacheStorage.live, CacheStorage.live, hnone, hv, Slot.live_expired hx]
    rfl

/-- A critical section that comes to the same on both slots. -/
theorem Trails.bridged {α : Type} {op : Slot → α × Slot} (h : Trails now s t)
    (hop : op (t.slotAt key) = op (s.slotAt key)) (reply : α → Response × List Command) :
    (t.bridged key op reply).1 = (s.bridged key op reply).1 ∧
      Trails now (s.bridged key op reply).2 (t.bridged key op reply).2 := by
  unfold CacheStorage.bridged CacheStorage.onKey
  rw [hop]
  refine ⟨rfl, fun k => ?_⟩
  by_cases hk : k = key
  · subst hk
    simp
  · unfold Stale
    rw [CacheStorage.slotAt_setEntry_ne hk, CacheStorage.slotAt_setEntry_ne hk]
    exact h k

/-- An arm of the bridge that performs a safe command does not see what is missing. -/
theorem bridgeArm_trails {op : BridgeOp} {args : List Bytes} {c : Command} (hc : op.command args = some c)
    (h : Trails env.now s t) (hsafe : ExpirySafe env c s) :
    (bridgeArm env op args t).1 = (bridgeArm env op args s).1 ∧
      Trails env.now (bridgeArm env op args s).2 (bridgeArm env op args t).2 := by
  have hview : ∀ k, Slot.live env.now (t.slotAt k) = Slot.live env.now (s.slotAt k) := congrFun h.live_eq
  -- a write into an old value is safe only where there is none that has expired
  have hslot : ∀ {k}, commandKey c = some k → (∀ v, ¬ StaleOk env c v) →
      (∀ k v, commandKey c = some k → s.slotAt k = some v → v.isExpired env.now = true → StaleOk env c v) →
      t.slotAt k = s.slotAt k := by
    intro k hk hno hok
    refine h.slotAt_eq ?_
    rintro ⟨v, hv, hx⟩
    exact hno v (hok k v hk hv hx)
  cases op with
  | get =>
      rcases args with _ | ⟨a, _⟩ <;> cases hc
      refine ⟨?_, h⟩
      simp only [bridgeArm]
      rw [← get_live env.now (t.slotAt a), hview, get_live]
  | hget =>
      rcases args with _ | ⟨a, _ | ⟨b, _⟩⟩ <;> cases hc
      refine ⟨?_, h⟩
      simp only [bridgeArm]
      rw [← hget_live env.now b (t.slotAt a), hview, hget_live]
  | «exists» =>
      cases hc
      refine ⟨?_, h⟩
      simp only [bridgeArm, CacheStorage.existsCount, h.live_eq]
  | set =>
      rcases args with _ | ⟨a, _ | ⟨b, _⟩⟩ <;> cases hc
      exact h.bridged rfl _
  | del | incr | decr =>
      rcases args with _ | ⟨a, _⟩ <;> cases hc
      exact h.bridged (by rw [hslot rfl (fun _ => id) hsafe]) _
  | lpush | rpush | sadd =>
      rcases args with _ | ⟨a, _ | ⟨b, _⟩⟩ <;> cases hc
      exact h.bridged (by rw [hslot rfl (fun _ => id) hsafe]) _
  | hset =>
      rcases args with _ | ⟨a, _ | ⟨b, _ | ⟨d, _⟩⟩⟩ <;> cases hc
      exact h.bridged (by rw [hslot rfl (fun _ => id) hsafe]) _

variable [Lua] {envs : Nat → Env} {acl : AclCheck}

omit [Lua] in
/-- The command that a call performs, if the caller may run it, does not see expiry. -/
def CallSafe (env : Env) (acl : AclCheck) (cmd : Bytes) (args : List Bytes) (s : CacheStorage) : Prop :=
  acl (toAsciiUppercase cmd) args.head? = true → ∀ c ∈ bridgeCommand cmd args, ExpirySafe env c s

/-- Every call that the run makes is safe at its turn. -/
def CallsSafe (envs : Nat → Env) (acl : AclCheck) : Nat → Script → CacheStorage → Prop
  | _, .done _, _ => True
  | n, .call cmd args next, s =>
      CallSafe (envs n) acl cmd args s ∧
        let r := redisCallBridge (envs n) acl cmd args s
        CallsSafe envs acl (n + 1) (next r.1.1) r.2

/-- A safe call does not see what is missing. -/
theorem redisCallBridge_trails {cmd : Bytes} {args : List Bytes} (h : Trails env.now s t)
    (hsafe : CallSafe env acl cmd args s) :
    (redisCallBridge env acl cmd args t).1 = (redisCallBridge env acl cmd args s).1 ∧
      Trails env.now (redisCallBridge env acl cmd args s).2 (redisCallBridge env acl cmd args t).2 := by
  cases hacl : acl (toAsciiUppercase cmd) args.head? with
  | false =>
      unfold redisCallBridge
      simp only [hacl, if_true]
      exact ⟨trivial, h⟩
  | true =>
      cases hop : bridgeOp (toAsciiUppercase cmd) with
      | none =>
          unfold redisCallBridge
          simp only [hacl, hop, Bool.true_eq_false, if_false]
          exact ⟨trivial, h⟩
      | some op =>
          rw [redisCallBridge_eq hacl hop]
          cases hc : op.command args with
          | none =>
              obtain ⟨text, hrefuses⟩ := bridgeArm_refuses env hc
              rw [hrefuses, hrefuses]
              exact ⟨rfl, h⟩
          | some c =>
              refine bridgeArm_trails hc h (hsafe hacl c ?_)
              rw [bridgeCommand, hop]
              exact hc

/-- A run of safe calls, on a clock that does not go back: the same reply, the same recorded writes, and the same live
    entries afterwards. -/
theorem runScript_trails (hclock : ∀ n, (envs n).now ≤ (envs (n + 1)).now) (n : Nat) (script : Script)
    (h : Trails (envs n).now s t) (hsafe : CallsSafe envs acl n script s) :
    (runScript envs acl n script t).1 = (runScript envs acl n script s).1 ∧
      ∀ now, (∀ m, (envs m).now ≤ now) →
        (runScript envs acl n script t).2.live now = (runScript envs acl n script s).2.live now := by
  induction script generalizing n s t with
  | done r => exact ⟨rfl, fun now hnow => (h.mono (hnow n)).live_eq⟩
  | call cmd args next ih =>
      obtain ⟨hcall, hrest⟩ := hsafe
      obtain ⟨hreply, htrails⟩ := redisCallBridge_trails h hcall
      obtain ⟨hrun, hlive⟩ := ih _ (n + 1) (htrails.mono (hclock n)) hrest
      unfold runScript
      dsimp only
      rw [hreply]
      exact ⟨by rw [hrun], hlive⟩

variable [Codec]

omit [Codec] in
/-- Every `redis.call` of the script that the command runs is safe at its turn. -/
def ScriptSafe (cfg : ServerConfig) (rd : Readings) (c : Command) (srv : Server) (conn : ConnState) : Prop :=
  let safe := fun (source : Bytes) (keys argv : List Bytes) =>
    CallsSafe rd.call (buildScriptAcl cfg.auth conn.authedUser) 0 (Lua.eval rd.env source keys argv) srv.storage
  match c with
  | .luaEval script keys argv => safe script keys argv
  | .luaEvalSha sha1 keys argv => ∀ source ∈ srv.scripts[sha1.map F64.lowerAscii]?, safe source keys argv
  | _ => True

/-- The same of a loaded script. -/
theorem runLoaded_trails (cfg : ServerConfig) {rd : Readings} (hclock : ∀ n, (rd.call n).now ≤ (rd.call (n + 1)).now)
    {source : Bytes} {keys argv : List Bytes} {srv srv' : Server} (conn : ConnState)
    (h : Trails (rd.call 0).now srv.storage srv'.storage)
    (hsafe : CallsSafe rd.call (buildScriptAcl cfg.auth conn.authedUser) 0 (Lua.eval rd.env source keys argv)
      srv.storage) (hnow : ∀ m, (rd.call m).now ≤ now) :
    (runLoaded cfg rd source keys argv srv' conn).1 = (runLoaded cfg rd source keys argv srv conn).1 ∧
      (runLoaded cfg rd source keys argv srv' conn).2.1.storage.live now
        = (runLoaded cfg rd source keys argv srv conn).2.1.storage.live now := by
  obtain ⟨hrun, hlive⟩ := runScript_trails hclock 0 _ h hsafe
  unfold runLoaded
  simp only [persistScriptWrites_storage]
  exact ⟨congrArg Prod.fst hrun, hlive now hnow⟩

/-- **A script each of whose calls is safe at its turn does not see expiry**: from the cleaned-up storage it gives the
    same reply and leaves the same live entries. -/
theorem scriptUnseen_of_safe (cfg : ServerConfig) (rd : Readings) (c : Command) (srv : Server) (conn : ConnState)
    (hc : isScript c = true) (hclock : ∀ n, (rd.call n).now ≤ (rd.call (n + 1)).now)
    (hsafe : ScriptSafe cfg rd c srv conn) (now : Instant) (hnow : ∀ m, (rd.call m).now ≤ now) :
    let cleaned := { srv with storage := srv.storage.cleanupExpired (rd.call 0).now }
    (perform cfg rd c cleaned conn).1 = (perform cfg rd c srv conn).1 ∧
      (perform cfg rd c cleaned conn).2.1.storage.live now = (perform cfg rd c srv conn).2.1.storage.live now := by
  have htrails := trails_cleanupExpired (rd.call 0).now srv.storage
  cases c with
  | luaEval script keys argv => exact runLoaded_trails cfg hclock conn htrails hsafe hnow
  | luaEvalSha sha1 keys argv =>
      simp only [perform]
      cases hsource : srv.scripts[sha1.map F64.lowerAscii]? with
      | none => exact ⟨rfl, (htrails.mono (hnow 0)).live_eq⟩
      | some source => exact runLoaded_trails cfg hclock conn htrails (hsafe source hsource) hnow
  | _ => cases hc

omit [KeyHash] [Lua] [Codec] in
/-- A script that sets the key whose entry has expired. -/
theorem scriptUnseen_of_safe_set :
    let _ := shortKeys
    let _ : Lua := ⟨fun _ => [], fun _ _ keys argv => .call (utf8 "SET") (keys ++ argv) fun r => .done (some r), id⟩
    let _ := incrCodec
    let srv := { Server.fresh with storage := expiredFive }
    let cleaned := { srv with storage := srv.storage.cleanupExpired 5 }
    let rd := (Request.plain 5 .exec).readings
    let eval : Command := .luaEval (utf8 "return redis.call('SET', KEYS[1], ARGV[1])") [utf8 "k"] [utf8 "v"]
    (perform ⟨none, none, none⟩ rd eval cleaned ConnState.new).1
        = (perform ⟨none, none, none⟩ rd eval srv ConnState.new).1 ∧
      (perform ⟨none, none, none⟩ rd eval cleaned ConnState.new).2.1.storage.live 5
        = (perform ⟨none, none, none⟩ rd eval srv ConnState.new).2.1.storage.live 5 := by
  intro _ _ _ srv _ rd eval
  refine scriptUnseen_of_safe ⟨none, none, none⟩ rd eval srv ConnState.new rfl (fun _ => le_rfl) ⟨?_, trivial⟩ 5
    fun _ => le_rfl
  rintro - c ⟨⟩ _ _ _ _ _
  trivial

end Scripts

end FerricCache
