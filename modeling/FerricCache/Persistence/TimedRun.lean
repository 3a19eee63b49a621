import FerricCache.Lib.Run
import FerricCache.Server.Dated

/-!
# `FerricCache.Persistence.TimedRun` — a key under two clocks

A log entry names a time to live, not a deadline, so replay starts every deadline anew: a key that had
expired while the server ran is **alive again** while its log is replayed. Between such a key and its live
counterpart nothing agrees any more, until a command overwrites it; `lost` follows these keys. `KeyRel` says
what remains true of one key, and how the operations of the command table keep it.
-/

namespace FerricCache

open Lib.Run

variable [KeyHash]

/-! ## Runs with a clock -/

/-- The live side: the storage, the commands logged, the last clock reading, and the keys at which replay
    holds something else. -/
structure TimedState where
  storage : CacheStorage
  log : List Command
  clock : Instant
  lost : Bytes → Bool

/-- A write command, executed and logged, or the expiry sweep. -/
inductive TimedEvent
  | write (env : Env) (c : Command)
  | sweep (now : Instant)

/-- The command puts something at the key, or removes it, whatever was there. -/
def overwrites (env : Env) (c : Command) (s : CacheStorage) (k : Bytes) : Bool :=
  match c with
  | .set key _ _ | .setEx key _ _ | .delete key => k == key
  | .mset pairs => (pairs.map Prod.fst).contains k
  | .flushAll => true
  | .expireAt key t => k == key && decide (0 ≤ t.toInt ∧ t.toInt ≤ env.unixSecs)
  | .rename key newKey => k == newKey && (s.live env.now key).isSome
  | _ => false

/-- An `EXPIREAT` whose time was to come and has passed when it is replayed: replay deletes the key. -/
def expiresMeanwhile (replayAt env : Env) (c : Command) (s : CacheStorage) (k : Bytes) : Bool :=
  match c with
  | .expireAt key t =>
      k == key && (s.slotAt key).isSome && decide (env.unixSecs < t.toInt ∧ t.toInt ≤ replayAt.unixSecs)
  | _ => false

def TimedState.start : TimedState := ⟨CacheStorage.new, [], 0, fun _ => false⟩

/-- A command is executed and logged; `replayAt` only serves to follow the keys at which replay differs. -/
def TimedState.wrote (replayAt env : Env) (c : Command) (x : TimedState) : TimedState where
  storage := effect env c x.storage
  log := x.log ++ [c]
  clock := env.now
  lost k := (x.lost k && !overwrites env c x.storage k) || expiresMeanwhile replayAt env c x.storage k

def TimedState.swept (now : Instant) (x : TimedState) : TimedState :=
  { x with
    storage := x.storage.cleanupExpired now
    clock := now
    lost := fun k => x.lost k || (x.storage.slotAt k).any (·.isExpired now) }

/-- One event. -/
def TimedState.step (replayAt : Env) (x : TimedState) : TimedEvent → Option TimedState
  | .write env c => some (x.wrote replayAt env c)
  | .sweep now => some (x.swept now)

/-! ## The condition -/

/-- The key a command adds to without looking at its deadline: what is there keeps its deadline, and a
    missing key is created without one. -/
def addsTo : Command → Option Bytes
  | .incr key | .decr key | .append key _ | .incrBy key _ | .decrBy key _ | .incrByFloat key _
  | .hset key _ _ | .hmset key _ | .lpush key _ | .rpush key _ | .sadd key _ | .zadd key _ => some key
  | _ => none

/-- The keys whose deadlines decide whether a command leaves a value without one, or panics. -/
def dependsOn : Command → List Bytes
  | .setNx key _ | .getSet key _ | .persist key | .hsetNx key _ _ | .hincrBy key _ _ | .ltrim key _ _
  | .zincrBy key _ _ | .zpopMin key _ | .zpopMax key _ | .xadd key _ _ => [key]
  | .rpoplpush source destination | .smove source destination _ => [source, destination]
  | .rename key _ => [key]
  | _ => []

/-- How long from its own time replay sets the deadline. -/
def replayTtl (replayAt : Env) : Command → Option Nat
  | .set _ _ ttl => ttl.map fun n => durationSecs n.toNat
  | .setEx _ seconds _ => some (durationSecs seconds.toNat)
  | .expire _ n => (tryU64 n).map durationSecs
  | .pexpire _ n => (tryU64 n).map durationMillis
  | .expireAt _ t => (tryU64 t).map fun target => durationSecs (target - replayAt.unixSecs)
  | _ => none

/-- The clocks do not run back, and replay comes later. -/
def OnTime (replayAt : Env) (x : TimedState) : TimedEvent → Prop
  | .write env c => x.clock ≤ env.now ∧ env.unixMs ≤ replayAt.unixMs ∧ isWriteCommand c = true
  | .sweep now => x.clock ≤ now

/-- The command returns, its effect is its own (no random draw, no id from the clock, no split tie), replay
    can hold its deadline, and no passed deadline decides what it leaves without one. -/
structure ReplaySafe (replayAt env : Env) (x : TimedState) (c : Command) : Prop where
  returns : Returns env c x.storage
  noDraw : draws c = false
  replayExact : ReplayExact c x.storage
  tiesUnsplit : TiesUnsplit c x.storage
  ttlFits : ∀ d, replayTtl replayAt c = some d → instantAdd replayAt.now d ≠ none
  adds : ∀ k, addsTo c = some k → x.lost k = false
  depends : ∀ k ∈ dependsOn c, x.lost k = false ∧ (x.storage.slotAt k).Unexpired env.now

/-- An event that replay follows. -/
def InTime (replayAt : Env) (x : TimedState) : TimedEvent → Prop
  | .write env c => OnTime replayAt x (.write env c) ∧ ReplaySafe replayAt env x c
  | .sweep now => OnTime replayAt x (.sweep now)

/-! ## One key, live and replayed -/

/-- The two sides no longer agree, but neither holds a value without a deadline. -/
structure Apart (lost : Bool) (now : Instant) (a b : Slot) : Prop where
  left : a.Mortal
  right : b.Mortal
  why : lost = true ∨ (∃ v, a = some v ∧ v.isExpired now = true) ∧ b.isSome = true

/-- What a key holds live (`a`, at `now`) and in the replay so far (`b`, at `now'`). -/
structure KeyRel (lost : Bool) (now now' : Instant) (a b : Slot) : Prop where
  unexpired : b.Unexpired now'
  sides : a.InStep b ∨ Apart lost now a b

section Key

omit [KeyHash]

variable {lost : Bool} {now now' later : Instant} {a b : Slot}

theorem noDeadline_ne_of_expired {v : CacheValue} (h : v.isExpired now = true) : v.expiresAt ≠ none := by
  intro he
  rw [not_expired_of_noDeadline he] at h
  cases h

theorem KeyRel.mono (h : KeyRel lost now now' a b) (hle : now ≤ later) : KeyRel lost later now' a b := by
  refine ⟨h.unexpired, h.sides.imp id ?_⟩
  rintro ⟨hl, hr, hw⟩
  refine ⟨hl, hr, hw.imp id ?_⟩
  rintro ⟨⟨v, hv, hx⟩, hb⟩
  exact ⟨⟨v, hv, isExpired_mono hx hle⟩, hb⟩

theorem KeyRel.inStep (hb : b.Unexpired now') (h : a.InStep b) : KeyRel lost now now' a b := ⟨hb, Or.inl h⟩

/-- A key whose deadline has passed counts as apart. -/
theorem KeyRel.apart (h : KeyRel lost now now' a b) {v : CacheValue} (ha : a = some v)
    (hx : v.isExpired now = true) : Apart lost now a b := by
  rcases h.sides with hs | hs
  · subst ha
    obtain _ | @⟨_, w, hvw⟩ := hs
    have hv := noDeadline_ne_of_expired hx
    refine ⟨Slot.mortal_some.mpr hv, Slot.mortal_some.mpr ?_, Or.inr ⟨⟨v, rfl, hx⟩, rfl⟩⟩
    intro hw
    have hsome := hvw.isSome_eq
    rw [hw] at hsome
    exact hv (Option.isNone_iff_eq_none.mp (by simpa using hsome.symm))
  · exact hs

/-- A key that is neither lost nor past its deadline is in step. -/
theorem KeyRel.inStep_of (h : KeyRel false now now' a b) (ha : a.Unexpired now) : a.InStep b := by
  rcases h.sides with hs | hs
  · exact hs
  · rcases hs.why with hlost | ⟨⟨v, hv, hx⟩, -⟩
    · cases hlost
    · rw [ha v hv] at hx
      cases hx

/-- An operation on a key that is in step and alive. -/
theorem KeyRel.matched {f f' : Slot → Slot} (h : KeyRel false now now' a b) (ha : a.Unexpired now)
    (hf : Slot.Matched now now' f f') : KeyRel lost now now' (f a) (f' b) :=
  ⟨hf.right h.unexpired, Or.inl (hf.inStep (h.inStep_of ha) ha h.unexpired)⟩

/-- An operation that does not look at the deadline, on a key that is not lost. -/
theorem KeyRel.blind {f : Slot → Slot} (h : KeyRel false now now' a b) (hf : Slot.Blind f) :
    KeyRel lost now now' (f a) (f b) := by
  refine ⟨hf.unexpired h.unexpired, ?_⟩
  rcases h.sides with hs | hs
  · exact Or.inl (hf.inStep hs)
  · rcases hs.why with hlost | ⟨⟨v, rfl, hx⟩, hb⟩
    · cases hlost
    · obtain ⟨w, rfl⟩ := Option.isSome_iff_exists.mp hb
      obtain ⟨v', hv', he⟩ := hf.keeps v
      obtain ⟨w', hw', he'⟩ := hf.keeps w
      rw [hv', hw']
      refine Or.inr ⟨Slot.mortal_some.mpr ?_, Slot.mortal_some.mpr ?_, Or.inr ⟨⟨v', rfl, ?_⟩, rfl⟩⟩
      · rw [he]
        exact hs.left v rfl
      · rw [he']
        exact hs.right w rfl
      · rw [isExpired_congr he]
        exact hx

/-- An operation that creates nothing and keeps deadlines. -/
structure Keeper (f : Slot → Slot) : Prop where
  absent : f none = none
  keeps : ∀ v, ∃ v', f (some v) = some v' ∧ v'.expiresAt = v.expiresAt

theorem Keeper.of_blind {f : Slot → Slot} (hf : Slot.Blind f) (hnone : f none = none) : Keeper f :=
  ⟨hnone, hf.keeps⟩

theorem Keeper.mortal {f : Slot → Slot} (hf : Keeper f) {slot : Slot} (h : slot.Mortal) :
    (f slot).Mortal := by
  cases slot with
  | none =>
      rw [hf.absent]
      exact Slot.mortal_none
  | some v =>
      obtain ⟨v', hv', he⟩ := hf.keeps v
      rw [hv', Slot.mortal_some, he]
      exact h v rfl

/-- An operation that creates nothing may run on any key. -/
theorem KeyRel.keeper {f f' : Slot → Slot} (h : KeyRel lost now now' a b)
    (hm : Slot.Matched now now' f f') (hf : Keeper f) (hf' : Keeper f') :
    KeyRel lost now now' (f a) (f' b) := by
  refine ⟨hm.right h.unexpired, ?_⟩
  have happart : Apart lost now a b → Apart lost now (f a) (f' b) := by
    rintro ⟨hl, hr, hw⟩
    refine ⟨hf.mortal hl, hf'.mortal hr, hw.imp id ?_⟩
    rintro ⟨⟨v, rfl, hx⟩, hb⟩
    obtain ⟨w, rfl⟩ := Option.isSome_iff_exists.mp hb
    obtain ⟨v', hv', he⟩ := hf.keeps v
    obtain ⟨w', hw', -⟩ := hf'.keeps w
    refine ⟨⟨v', hv', ?_⟩, by rw [hw']; rfl⟩
    rw [isExpired_congr he]
    exact hx
  by_cases ha : a.Unexpired now
  · exact h.sides.imp (fun hs => hm.inStep hs ha h.unexpired) happart
  · -- past its deadline: apart already
    unfold Slot.Unexpired at ha
    push Not at ha
    obtain ⟨v, hv, hx⟩ := ha
    exact Or.inr (happart (h.apart hv (by simpa using hx)))

/-! ## Setting a deadline -/

theorem mortal_setExpiry (at' : Instant) (slot : Slot) : (Slot.setExpiry now at' slot).2.Mortal := by
  cases slot with
  | none => exact Slot.mortal_none
  | some v =>
      simp only [Slot.setExpiry]
      cases hx : v.isExpired now with
      | true => exact Slot.mortal_some.mpr (noDeadline_ne_of_expired hx)
      | false =>
          simp only [Bool.false_eq_true, if_false]
          rw [Slot.mortal_some, CacheValue.expiresAt_withExpiry]
          simp

theorem unexpired_setExpiry {at' : Instant} (hat : now' ≤ at') {slot : Slot}
    (h : slot.Unexpired now') : (Slot.setExpiry now' at' slot).2.Unexpired now' := by
  cases slot with
  | none => exact Slot.unexpired_none now'
  | some v =>
      simp only [Slot.setExpiry, h v rfl, Bool.false_eq_true, if_false]
      rw [Slot.unexpired_some]
      unfold CacheValue.isExpired
      rw [CacheValue.expiresAt_withExpiry]
      exact decide_eq_false (Nat.not_lt.mpr hat)

theorem KeyRel.setExpiry (h : KeyRel lost now now' a b) (at' : Instant) {at'' : Instant}
    (hat : now' ≤ at'') :
    KeyRel lost now now' (Slot.setExpiry now at' a).2 (Slot.setExpiry now' at'' b).2 := by
  refine ⟨unexpired_setExpiry hat h.unexpired, ?_⟩
  have hsome : ∀ w, b = some w →
      (Slot.setExpiry now' at'' b).2 = some (w.withExpiry (some at'')) := by
    rintro w rfl
    simp only [Slot.setExpiry, h.unexpired w rfl, Bool.false_eq_true, if_false]
  have happart : Apart lost now a b →
      Apart lost now (Slot.setExpiry now at' a).2 (Slot.setExpiry now' at'' b).2 := by
    rintro ⟨-, -, hw⟩
    refine ⟨mortal_setExpiry at' a, mortal_setExpiry at'' b, hw.imp id ?_⟩
    rintro ⟨⟨v, rfl, hx⟩, hb⟩
    obtain ⟨w, hw⟩ := Option.isSome_iff_exists.mp hb
    rw [hsome w hw]
    refine ⟨⟨v, ?_, hx⟩, rfl⟩
    simp only [Slot.setExpiry, hx, if_true]
  by_cases ha : a.Unexpired now
  · refine h.sides.imp ?_ happart
    rintro (_ | @⟨v, w, hvw⟩)
    · exact .none
    · rw [hsome w rfl]
      simp only [Slot.setExpiry, ha v rfl, Bool.false_eq_true, if_false]
      exact .some (alike_withExpiry hvw rfl)
  · unfold Slot.Unexpired at ha
    push Not at ha
    obtain ⟨v, hv, hx⟩ := ha
    exact Or.inr (happart (h.apart hv (by simpa using hx)))

/-- A key that replay deletes, its time having passed meanwhile. -/
theorem KeyRel.expireMeanwhile (h : KeyRel lost now now' a b) (at' : Instant) :
    KeyRel (lost || a.isSome) now now' (Slot.setExpiry now at' a).2 none := by
  refine ⟨Slot.unexpired_none now', ?_⟩
  cases a with
  | none =>
      rcases h.sides with hs | hs
      · exact Or.inl .none
      · rcases hs.why with hlost | ⟨⟨v, hv, -⟩, -⟩
        · exact Or.inr ⟨Slot.mortal_none, Slot.mortal_none, Or.inl (by simp [hlost])⟩
        · cases hv
  | some v => exact Or.inr ⟨mortal_setExpiry at' _, Slot.mortal_none, Or.inl (by simp)⟩

end Key

/-! ## The storages -/

/-- The live storage and the replay so far, key by key. -/
def TimedRel (now' : Instant) (x : TimedState) (t : CacheStorage) : Prop :=
  ∀ k, KeyRel (x.lost k) x.clock now' (x.storage.slotAt k) (t.slotAt k)

section Step

variable {replayAt env : Env} {x : TimedState} {t : CacheStorage}

/-- Replay carries out the command, and the two sides stay related. -/
def Follows (replayAt env : Env) (c : Command) (x : TimedState) (t : CacheStorage) : Prop :=
  ∃ t', applyWriteCommand replayAt c t = (some (), t') ∧ TimedRel replayAt.now (x.wrote replayAt env c) t'

section OneKey

variable {c : Command}

/-- A command that touches one key. -/
theorem follows_onKey (key : Bytes) (f f' : Slot → Slot) (h : TimedRel replayAt.now x t) (hle : x.clock ≤ env.now)
    (heff : effect env c x.storage = x.storage.setEntry key (f (x.storage.slotAt key)))
    (happ : applyWriteCommand replayAt c t = (some (), t.setEntry key (f' (t.slotAt key))))
    (hlost : ∀ k, k ≠ key → (x.wrote replayAt env c).lost k = x.lost k)
    (hkey : KeyRel (x.lost key) env.now replayAt.now (x.storage.slotAt key) (t.slotAt key) →
      KeyRel ((x.wrote replayAt env c).lost key) env.now replayAt.now (f (x.storage.slotAt key))
        (f' (t.slotAt key))) : Follows replayAt env c x t := by
  refine ⟨_, happ, ?_⟩
  intro k
  show KeyRel _ env.now replayAt.now ((effect env c x.storage).slotAt k) _
  rw [heff, CacheStorage.slotAt_setEntry, CacheStorage.slotAt_setEntry]
  by_cases hk : k = key
  · subst hk
    rw [if_pos rfl, if_pos rfl]
    exact hkey ((h k).mono hle)
  · rw [if_neg hk, if_neg hk, hlost k hk]
    exact (h k).mono hle

/-- The command neither overwrites a key nor names a time. -/
def Ordinary (replayAt env : Env) (c : Command) (x : TimedState) : Prop :=
  ∀ k, overwrites env c x.storage k = false ∧ expiresMeanwhile replayAt env c x.storage k = false

theorem Ordinary.lost (h : Ordinary replayAt env c x) (k : Bytes) :
    (x.wrote replayAt env c).lost k = x.lost k := by
  obtain ⟨ho, he⟩ := h k
  simp [TimedState.wrote, ho, he]

variable {key : Bytes} {f f' : Slot → Slot}

theorem follows_blind (h : TimedRel replayAt.now x t) (hle : x.clock ≤ env.now)
    (heff : effect env c x.storage = x.storage.setEntry key (f (x.storage.slotAt key)))
    (happ : applyWriteCommand replayAt c t = (some (), t.setEntry key (f (t.slotAt key))))
    (hord : Ordinary replayAt env c x) (hlost : x.lost key = false) (hf : Slot.Blind f) :
    Follows replayAt env c x t := by
  refine follows_onKey key _ _ h hle heff happ (fun k _ => hord.lost k) ?_
  intro hk
  rw [hlost] at hk
  exact hk.blind hf

theorem follows_matched (h : TimedRel replayAt.now x t) (hle : x.clock ≤ env.now)
    (heff : effect env c x.storage = x.storage.setEntry key (f (x.storage.slotAt key)))
    (happ : applyWriteCommand replayAt c t = (some (), t.setEntry key (f' (t.slotAt key))))
    (hord : Ordinary replayAt env c x)
    (hdep : x.lost key = false ∧ (x.storage.slotAt key).Unexpired env.now)
    (hm : Slot.Matched env.now replayAt.now f f') : Follows replayAt env c x t := by
  refine follows_onKey key _ _ h hle heff happ (fun k _ => hord.lost k) ?_
  intro hk
  rw [hdep.1] at hk
  exact hk.matched hdep.2 hm

theorem follows_keeper (h : TimedRel replayAt.now x t) (hle : x.clock ≤ env.now)
    (heff : effect env c x.storage = x.storage.setEntry key (f (x.storage.slotAt key)))
    (happ : applyWriteCommand replayAt c t = (some (), t.setEntry key (f' (t.slotAt key))))
    (hord : Ordinary replayAt env c x) (hm : Slot.Matched env.now replayAt.now f f') (hf : Keeper f)
    (hf' : Keeper f') : Follows replayAt env c x t := by
  refine follows_onKey key _ _ h hle heff happ (fun k _ => hord.lost k) ?_
  intro hk
  rw [hord.lost]
  exact hk.keeper hm hf hf'

/-- A command that leaves the same at its key on both sides, whatever was there. -/
theorem follows_overwrite (key : Bytes) (v w : Slot) (h : TimedRel replayAt.now x t) (hle : x.clock ≤ env.now)
    (heff : effect env c x.storage = x.storage.setEntry key v)
    (happ : applyWriteCommand replayAt c t = (some (), t.setEntry key w))
    (hlost : ∀ k, k ≠ key → (x.wrote replayAt env c).lost k = x.lost k) (hvw : v.InStep w)
    (hw : w.Unexpired replayAt.now) : Follows replayAt env c x t :=
  follows_onKey key (fun _ => v) (fun _ => w) h hle heff happ hlost fun _ => ⟨hw, Or.inl hvw⟩

end OneKey

end Step

end FerricCache
