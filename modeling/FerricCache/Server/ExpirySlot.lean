import FerricCache.Server.Failure
import FerricCache.Server.Keys

/-!
# `FerricCache.Server.ExpirySlot` — single-key arms on an expired value

Expiry is lazy: an entry whose deadline has passed stays in its shard until `cleanup_expired` runs, and
every operation has to test the deadline for itself. `StaleSafe` says that an arm treats such a value
as an absent key. The shapes of `FerricCache.Storage.Slot` decide it: `readAs` and `writeOrCreate` do so
on a value of the right type, `readLive` and `writeLive` never do, and `writeAny` writes into it.
`staleSafe_iff` gives the exact condition for every single-key command.
-/

namespace FerricCache

open Reply

/-! ## One slot -/

/-- On the stale value `v`, the arm replies and leaves live what it does on an absent key. -/
def StaleSafe (now : Instant) (f : Slot → Option Response × Slot) (v : CacheValue) : Prop :=
  (f (some v)).1 = (f none).1 ∧ Slot.live now (f (some v)).2 = Slot.live now (f none).2

section Shapes

variable {τ α : Type} {K : Kind τ} {now : Instant} {v : CacheValue}

/-- An arm that only reads is safe when it replies as on an absent key. -/
theorem staleSafe_read (hx : v.isExpired now = true) (f : Slot → Option Response) :
    StaleSafe now (fun slot => (f slot, slot)) v ↔ f (some v) = f none :=
  ⟨And.left, fun h => ⟨h, Slot.live_expired hx⟩⟩

theorem readAs_stale {missing : α} {f : τ → α} (hx : v.isExpired now = true) :
    Slot.readAs K now missing f (some v)
      = if (K.as v).isSome then .ok missing else .error wrongType := by
  cases hk : K.as v <;> simp [Slot.readAs, hk, hx]

theorem readLive_stale {missing : α} {f : τ → α} (hx : v.isExpired now = true) :
    Slot.readLive K now missing f (some v) = .error wrongType := by
  cases hk : K.as v <;> simp [Slot.readLive, hk, hx]

theorem staleSafe_readAs {missing : α} {f : τ → α} {g : α → Response} (hx : v.isExpired now = true)
    (hg : ∀ a e, g a ≠ .error e) :
    StaleSafe now (fun slot => (orError g (Slot.readAs K now missing f slot), slot)) v
      ↔ (K.as v).isSome = true := by
  rw [staleSafe_read hx, readAs_stale hx]
  cases (K.as v).isSome with
  | true => simp [Slot.readAs]
  | false => simpa [Slot.readAs, orError] using (hg missing wrongType).symm

theorem staleSafe_readAs_panic {missing : α} {f : τ → Option α} {g : α → Response}
    (hx : v.isExpired now = true) (hg : ∀ a e, g a ≠ .error e) :
    StaleSafe now (fun slot => (orPanic g (Slot.readAs K now (some missing) f slot), slot)) v
      ↔ (K.as v).isSome = true := by
  rw [staleSafe_read hx, readAs_stale hx]
  cases (K.as v).isSome with
  | true => simp [Slot.readAs]
  | false => simpa [Slot.readAs, orPanic] using (hg missing wrongType).symm

theorem not_staleSafe_readLive {missing : α} {f : τ → α} {g : α → Response}
    (hx : v.isExpired now = true) (hg : ∀ a e, g a ≠ .error e) :
    ¬ StaleSafe now (fun slot => (orError g (Slot.readLive K now missing f slot), slot)) v := by
  rw [staleSafe_read hx, readLive_stale hx]
  simpa [Slot.readLive, orError] using (hg missing wrongType).symm

theorem not_staleSafe_readLive_panic {missing : α} {f : τ → Option α} {g : α → Response}
    (hx : v.isExpired now = true) (hg : ∀ a e, g a ≠ .error e) :
    ¬ StaleSafe now (fun slot => (orPanic g (Slot.readLive K now (some missing) f slot), slot)) v := by
  rw [staleSafe_read hx, readLive_stale hx]
  simpa [Slot.readLive, orPanic] using (hg missing wrongType).symm

/-- The update keeps the deadline of the value it writes into. -/
def KeepsDeadline (K : Kind τ) (f : τ → Res α × τ) : Prop :=
  ∀ t, (K.of (f t).2).expiresAt = (K.of t).expiresAt

/-- Writing into a stale value leaves it stale. -/
theorem writeAny_stale {missing : α × Slot} {f : τ → Res α × τ} (hf : KeepsDeadline K f)
    (hx : v.isExpired now = true) :
    Slot.live now (Slot.writeAny K missing f (some v)).2 = none := by
  cases hk : K.as v with
  | none =>
      simp only [Slot.writeAny, hk]
      exact Slot.live_expired hx
  | some t =>
      simp only [Slot.writeAny, hk]
      refine Slot.live_expired ?_
      have hd := hf t
      rw [K.of_as hk] at hd
      unfold CacheValue.isExpired at hx ⊢
      rwa [hd]

/-- A writer that creates a live value for an absent key is never safe. -/
theorem not_staleSafe_writeAny {missing : α × Slot} {f : τ → Res α × τ} {reply : Res α → Option Response}
    (hf : KeepsDeadline K f) (hx : v.isExpired now = true) (hm : Slot.live now missing.2 ≠ none) :
    ¬ StaleSafe now
      (fun slot => (reply (Slot.writeAny K missing f slot).1, (Slot.writeAny K missing f slot).2)) v := by
  rintro ⟨_, h⟩
  rw [writeAny_stale hf hx] at h
  exact hm h.symm

/-- A writer that creates nothing is safe when it replies as on an absent key. -/
theorem staleSafe_writeAny {missing : α} {f : τ → Res α × τ} {g : α → Response}
    (hf : KeepsDeadline K f) (hx : v.isExpired now = true) (hg : ∀ a e, g a ≠ .error e) :
    StaleSafe now
        (fun slot => (orError g (Slot.writeAny K (missing, none) f slot).1,
          (Slot.writeAny K (missing, none) f slot).2)) v
      ↔ ∃ t, K.as v = some t ∧ orError g (f t).1 = some (g missing) := by
  unfold StaleSafe
  rw [writeAny_stale hf hx]
  cases hk : K.as v with
  | none => simpa [Slot.writeAny, hk, orError, Slot.live_none] using (hg missing wrongType).symm
  | some t => simp [Slot.writeAny, hk, orError, Slot.live_none]

theorem not_staleSafe_writeLive {missing : α} {f : τ → Res α × τ} {reply : Res α → Option Response}
    (hx : v.isExpired now = true) (hr : reply (.error wrongType) ≠ reply (.ok missing)) :
    ¬ StaleSafe now
      (fun slot => (reply (Slot.writeLive K now missing f slot).1,
        (Slot.writeLive K now missing f slot).2)) v := by
  rintro ⟨h, _⟩
  cases hk : K.as v <;> simp [Slot.writeLive, hk, hx] at h <;> exact hr h

/-- A writer that replaces a stale value is safe on the right type. -/
theorem staleSafe_writeOrCreate {create : Res (α × τ)} {f : τ → Res α × τ} {g : α → Response}
    (hx : v.isExpired now = true) (hg : ∀ a e, g a ≠ .error e)
    (hc : ∀ e, create = .error e → e ≠ wrongType) :
    StaleSafe now
        (fun slot => (orError g (Slot.writeOrCreate K now create f slot).1,
          (Slot.writeOrCreate K now create f slot).2)) v
      ↔ (K.as v).isSome = true := by
  unfold StaleSafe
  cases hk : K.as v with
  | none =>
      simp only [Slot.writeOrCreate, hk, Slot.insertNew, Option.isSome_none, Bool.false_eq_true,
        iff_false]
      rintro ⟨h, _⟩
      cases create with
      | ok p => exact hg p.1 wrongType (Option.some.inj h).symm
      | error e =>
          have : wrongType = e := by simpa [orError] using h
          exact hc e rfl this.symm
  | some t =>
      simp only [Slot.writeOrCreate, hk, hx, if_true, Option.isSome_some, iff_true]
      cases create with
      | ok p => exact ⟨rfl, rfl⟩
      | error e => exact ⟨rfl, Slot.live_expired hx⟩

end Shapes

/-! ## Deadlines of updated values -/

theorem live_of_no_deadline {now : Instant} {v : CacheValue} (h : v.expiresAt = none) :
    Slot.live now (some v) ≠ none := by
  have hx : v.isExpired now = false := by simp [CacheValue.isExpired, h, expiredAt]
  rw [Slot.live_fresh hx]
  simp

/-- What every step of a loop keeps, the loop keeps. -/
theorem foldl_keeps {α β γ : Type} (f : α → β → α) (p : α → γ) (h : ∀ a b, p (f a b) = p a) (a : α)
    (l : List β) : p (l.foldl f a) = p a := by
  induction l generalizing a with
  | nil => rfl
  | cons b l ih => rw [List.foldl_cons, ih, h]

theorem countLoop_keeps {τ γ : Type} {step : τ → Bytes → Bool × τ} {p : τ → γ}
    (h : ∀ t m, p (step t m).2 = p t) (t : τ) (ms : List Bytes) :
    p (Slot.countLoop step t ms).2 = p t := by
  induction ms generalizing t with
  | nil => rfl
  | cons m ms ih => exact (ih _).trans (h t m)

/-- A counting loop counts nothing exactly when no listed member is there. -/
theorem countLoop_eq_zero_iff {τ : Type} (step : τ → Bytes → Bool × τ)
    (h : ∀ t m, (step t m).1 = false → ∀ m', (step (step t m).2 m').1 = (step t m').1)
    (t : τ) (ms : List Bytes) :
    (Slot.countLoop step t ms).1 = 0 ↔ ∀ m ∈ ms, (step t m).1 = false := by
  induction ms generalizing t with
  | nil => simp [Slot.countLoop]
  | cons m ms ih =>
      simp only [Slot.countLoop, Nat.add_eq_zero_iff, ih, List.forall_mem_cons]
      constructor
      · rintro ⟨hm, hms⟩
        have hfalse : (step t m).1 = false := by cases hb : (step t m).1 <;> simp_all
        exact ⟨hfalse, fun m' hm' => by rw [← h t m hfalse m']; exact hms m' hm'⟩
      · rintro ⟨hm, hms⟩
        exact ⟨by simp [hm], fun m' hm' => by rw [h t m hm m']; exact hms m' hm'⟩

theorem pushLeft_keeps (l : ListValue) (values : List Bytes) :
    (values.foldl ListValue.pushLeft l).expiresAt = l.expiresAt :=
  foldl_keeps ListValue.pushLeft ListValue.expiresAt (fun _ _ => rfl) l values

theorem pushRight_keeps (l : ListValue) (values : List Bytes) :
    (values.foldl ListValue.pushRight l).expiresAt = l.expiresAt :=
  foldl_keeps ListValue.pushRight ListValue.expiresAt (fun _ _ => rfl) l values

theorem remove_keeps (z : SortedSetValue) (m : Bytes) : (z.remove m).expiresAt = z.expiresAt := by
  unfold SortedSetValue.remove
  split <;> rfl

theorem keepsDeadline_bump (delta : Int) :
    KeepsDeadline Kind.string fun p : Bytes × Option Instant =>
      match parseI64 p.1 with
      | some current =>
          (.ok (wrapI64 (current + delta)), (intText (wrapI64 (current + delta)), p.2))
      | none => (.error notAnInteger, p) := by
  intro p
  cases hp : parseI64 p.1 <;> simp [hp, Kind.string, CacheValue.expiresAt]

/-! ## Every single-key command -/

/-- What the stale value must be for `c` not to see it. -/
def StaleOk (env : Env) (c : Command) (v : CacheValue) : Prop :=
  match c with
  | .delete _ | .incr _ | .decr _ | .append _ _ | .incrBy _ _ | .decrBy _ _ | .incrByFloat _ _ => False
  | .hset _ _ _ | .lpush _ _ | .rpush _ _ | .sadd _ _ | .zadd _ _ => False
  | .ltrim _ _ _ | .spop _ _ | .srandMember _ _ | .zrangeByScore _ _ _ _ => False
  | .zpopMin _ _ | .zpopMax _ _ | .xlen _ => False
  | .strlen _ => ∃ e, v = .string [] e
  | .getSet _ _ => (Kind.string.as v).isNone = true
  | .getRange _ start stop => ∀ p, Kind.string.as v = some p → Slot.substring p.1 start stop = []
  | .hdel _ fields => ∃ h, Kind.hash.as v = some h ∧ ∀ f ∈ fields, (h.getField f).isSome = false
  | .srem _ members => ∃ t, Kind.set.as v = some t ∧ ∀ m ∈ members, t.contains m = false
  | .zrem _ members => ∃ z, Kind.sortedSet.as v = some z ∧ ∀ m ∈ members, (z.getScore m).isSome = false
  | .lpop _ | .rpop _ => ∃ l, Kind.list.as v = some l ∧ l.items = []
  | .hgetall _ | .hkeys _ | .hvals _ | .hlen _ | .hexists _ _ | .hsetNx _ _ _ | .hincrBy _ _ _ =>
      (Kind.hash.as v).isSome = true
  | .lrange _ _ _ | .llen _ | .lindex _ _ | .lset _ _ _ => (Kind.list.as v).isSome = true
  | .smembers _ | .sismember _ _ | .scard _ => (Kind.set.as v).isSome = true
  | .zrange _ _ _ _ | .zrank _ _ | .zscore _ _ | .zcard _ | .zcount _ _ _ | .zrevrange _ _ _ _
  | .zincrBy _ _ _ => (Kind.sortedSet.as v).isSome = true
  | .expireAt _ unixSecs => (env.unixSecs : Int) < unixSecs.toInt
  | .hmset _ pairs => pairs = []
  | .xadd _ id _ =>
      (∃ text e, id = some text ∧ StreamId.parse text false = .error e) ∨
        (Kind.stream.as v).isSome = true
  | .xrange _ start stop _ =>
      (∃ e, StreamId.parse start false = .error e) ∨ ∃ e, StreamId.parse stop true = .error e
  | _ => True

variable {env : Env} {v : CacheValue}

theorem staleSafe_expireArm (hx : v.isExpired env.now = true) (d : Option Nat) :
    StaleSafe env.now (expireArm env.now d) v := by
  cases d with
  | none => exact ⟨rfl, Slot.live_expired hx⟩
  | some d =>
      cases hi : instantAdd env.now d with
      | none =>
          simp only [StaleSafe, expireArm, hi]
          exact ⟨trivial, Slot.live_expired hx⟩
      | some t =>
          simp only [StaleSafe, expireArm, hi, Slot.setExpiry, hx, if_true]
          exact ⟨trivial, Slot.live_expired hx⟩

theorem staleSafe_expireAtArm (hx : v.isExpired env.now = true) (t : Int64) :
    StaleSafe env.now (expireAtArm env t) v ↔ (env.unixSecs : Int) < t.toInt := by
  by_cases ht : (env.unixSecs : Int) < t.toInt
  · refine iff_of_true ?_ ht
    simp only [StaleSafe, expireAtArm_future ht]
    exact staleSafe_expireArm hx _
  · refine iff_of_false ?_ ht
    simp only [StaleSafe, expireAtArm_past (not_lt.mp ht)]
    simp [flag]

theorem staleSafe_hmset (hx : v.isExpired env.now = true) (pairs : List (Bytes × Bytes)) :
    StaleSafe env.now (hmsetLoop pairs) v ↔ pairs = [] := by
  have hash_stays : ∀ (pairs : List (Bytes × Bytes)) (h : HashValue), ∃ h' : HashValue,
      (hmsetLoop pairs (some (.hash h))) = (some .ok, some (.hash h')) ∧
        h'.expiresAt = h.expiresAt := by
    intro pairs
    induction pairs with
    | nil => exact fun h => ⟨h, rfl, rfl⟩
    | cons p pairs ih => exact fun h => ih (h.setField p.1 p.2)
  cases pairs with
  | nil => exact iff_of_true ⟨rfl, Slot.live_expired hx⟩ rfl
  | cons p pairs =>
      refine iff_of_false ?_ (by simp)
      obtain ⟨h₀, hnew, hdead⟩ := hash_stays pairs (HashValue.new.setField p.1 p.2)
      have hfresh : hmsetLoop (p :: pairs) none = (some .ok, some (.hash h₀)) := hnew
      rintro ⟨hr, hl⟩
      rw [hfresh] at hr hl
      have hlive : Slot.live env.now (some (.hash h₀)) ≠ none := live_of_no_deadline hdead
      cases v with
      | hash h =>
          obtain ⟨h', hstep, hd⟩ := hash_stays pairs (h.setField p.1 p.2)
          have hold : hmsetLoop (p :: pairs) (some (.hash h)) = (some .ok, some (.hash h')) := hstep
          rw [hold] at hl
          have hx' : (CacheValue.hash h').isExpired env.now = true := by
            have hd' : h'.expiresAt = h.expiresAt := hd
            simpa [CacheValue.isExpired, CacheValue.expiresAt, hd'] using hx
          rw [Slot.live_expired hx'] at hl
          exact hlive hl.symm
      | _ => cases hr

theorem staleSafe_lset (hx : v.isExpired env.now = true) (index : Int64) (value : Bytes) :
    StaleSafe env.now
        (fun slot => (orError (fun _ => .ok) (Slot.lset env.now index value slot).1,
          (Slot.lset env.now index value slot).2)) v
      ↔ (Kind.list.as v).isSome = true := by
  cases v with
  | list l =>
      have hl : expiredAt env.now l.expiresAt = true := hx
      refine iff_of_true ?_ rfl
      simp only [StaleSafe, Slot.lset, hl, if_true]
      exact ⟨trivial, Slot.live_expired hx⟩
  | _ =>
      refine iff_of_false ?_ (by simp [Kind.list])
      rintro ⟨h, _⟩
      have hne : wrongType ≠ Slot.noSuchKey := by decide
      exact hne (by simpa [Slot.lset, orError] using h)

theorem staleSafe_lrem (hx : v.isExpired env.now = true) (n : Int64) (value : Bytes) :
    StaleSafe env.now
      (fun slot => (orError count (Slot.lrem env.now n value slot).1,
        (Slot.lrem env.now n value slot).2)) v := by
  cases v with
  | list l =>
      have hl : expiredAt env.now l.expiresAt = true := hx
      simp only [StaleSafe, Slot.lrem, hl, if_true]
      exact ⟨trivial, Slot.live_expired hx⟩
  | _ => exact ⟨rfl, Slot.live_expired hx⟩

theorem staleSafe_getSet (hx : v.isExpired env.now = true) (value : Bytes) :
    StaleSafe env.now
        (fun slot => (orError valueOr (Slot.getSet env.now value slot).1,
          (Slot.getSet env.now value slot).2)) v
      ↔ (Kind.string.as v).isNone = true := by
  cases v with
  | string b e => exact iff_of_false (fun h => by cases h.1) (by simp [Kind.string])
  | _ =>
      refine iff_of_true ?_ rfl
      simp only [StaleSafe, Slot.getSet, hx, if_true]
      exact ⟨trivial, trivial⟩

theorem staleSafe_xaddArm (hx : v.isExpired env.now = true) (id : Option Bytes)
    (fields : List (Bytes × Bytes)) :
    StaleSafe env.now (xaddArm env id fields) v ↔
      (∃ text e, id = some text ∧ StreamId.parse text false = .error e) ∨
        (Kind.stream.as v).isSome = true := by
  have hrun : ∀ requested : Option StreamId,
      StaleSafe env.now
          (fun slot => (orError (fun id : StreamId => .value id.toText)
            (Slot.xadd env requested fields slot).1, (Slot.xadd env requested fields slot).2)) v
        ↔ (Kind.stream.as v).isSome = true := by
    intro requested
    refine staleSafe_writeOrCreate hx (by simp) ?_
    intro e he
    -- a fresh stream refuses only an id that is not above `0-0`
    cases requested with
    | none => cases he
    | some id =>
        simp only [StreamValue.add] at he
        split at he
        · have : StreamValue.idTooSmall = e := by simpa [Except.map] using he
          rw [← this]
          decide
        · cases he
  cases id with
  | none =>
      have harm : StaleSafe env.now (xaddArm env none fields) v ↔ (Kind.stream.as v).isSome = true :=
        hrun none
      simpa using harm
  | some text =>
      cases hp : StreamId.parse text false with
      | ok id =>
          have harm : xaddArm env (some text) fields = fun slot =>
              (orError (fun id : StreamId => .value id.toText)
                (Slot.xadd env (some id) fields slot).1, (Slot.xadd env (some id) fields slot).2) := by
            funext slot
            simp only [xaddArm, hp]
          rw [harm]
          simpa [hp] using hrun (some id)
      | error e =>
          refine iff_of_true ?_ (Or.inl ⟨text, e, rfl, hp⟩)
          simp only [StaleSafe, xaddArm_unparsed fields hp]
          exact ⟨trivial, Slot.live_expired hx⟩

theorem staleSafe_xrangeArm (hx : v.isExpired env.now = true) (start stop : Bytes)
    (n : Option UInt64) :
    StaleSafe env.now (fun slot => (xrangeArm env.now start stop n slot, slot)) v ↔
      (∃ e, StreamId.parse start false = .error e) ∨ ∃ e, StreamId.parse stop true = .error e := by
  cases hs : StreamId.parse start false with
  | error e =>
      refine iff_of_true ((staleSafe_read hx _).mpr ?_) (Or.inl ⟨e, rfl⟩)
      simp only [xrangeArm, hs]
  | ok a =>
      cases he : StreamId.parse stop true with
      | error e =>
          refine iff_of_true ((staleSafe_read hx _).mpr ?_) (Or.inr ⟨e, rfl⟩)
          simp only [xrangeArm, hs, he]
      | ok b =>
          refine iff_of_false ?_ (by simp)
          simp only [xrangeArm, hs, he]
          exact not_staleSafe_readLive_panic hx (by simp)

theorem staleSafe_zrevrange (hx : v.isExpired env.now = true) (pos : Bytes → Nat) (start stop : Int64)
    (withScores : Bool) :
    StaleSafe env.now
        (fun slot => (orPanic scored (Slot.zrevrange env.now pos start stop withScores slot), slot)) v
      ↔ (Kind.sortedSet.as v).isSome = true := by
  rw [staleSafe_read hx]
  have hstale : Slot.readAs Kind.sortedSet env.now [] (fun z : SortedSetValue =>
      z.getRange pos (Slot.zIndex z.len 0) (Slot.zIndex z.len (-1)) withScores) (some v)
      = if (Kind.sortedSet.as v).isSome then .ok [] else .error wrongType := readAs_stale hx
  have hrev : ∀ slot, Slot.zrevrange env.now pos start stop withScores slot
      = (Slot.readAs Kind.sortedSet env.now [] (fun z : SortedSetValue =>
          z.getRange pos (Slot.zIndex z.len 0) (Slot.zIndex z.len (-1)) withScores) slot).map
        fun all => Slot.revSlice all.reverse start stop := by
    intro slot
    unfold Slot.zrevrange Slot.zrange
    cases Slot.readAs Kind.sortedSet env.now [] _ slot <;> rfl
  rw [hrev, hrev, hstale]
  cases hk : (Kind.sortedSet.as v).isSome with
  | true => simp [Slot.readAs, Except.map]
  | false =>
      cases hr : Slot.revSlice [] start stop <;> simp [Slot.readAs, Except.map, orPanic, hr, scored]

theorem hget_stale (hx : v.isExpired env.now = true) (field : Bytes) :
    Slot.hget env.now field (some v) = none := by
  cases v with
  | hash h =>
      have hl : expiredAt env.now h.expiresAt = true := hx
      simp [Slot.hget, hl]
  | _ => rfl

theorem count_ne_error (n : Nat) (e : Bytes) : count n ≠ .error e := by simp [count]

theorem flag_ne_error (b : Bool) (e : Bytes) : flag b ≠ .error e := by simp [flag]

theorem scored_ne_error (l : List (Bytes × Option F64)) (e : Bytes) : scored l ≠ .error e := by
  simp [scored]

variable [KeyHash]

/-- **A single-key arm treats a stale value as absent exactly when `StaleOk` says so.** -/
theorem staleSafe_iff {c : Command} {key : Bytes} {f : Slot → Option Response × Slot}
    (h : arm env c = some (.slot key f)) (hx : v.isExpired env.now = true) :
    StaleSafe env.now f v ↔ StaleOk env c v := by
  -- by the operation: a read must hide the value, a write must start anew; one that keeps the deadline does neither
  cases c with
  | get _ =>
      cases h
      refine iff_of_true ((staleSafe_read hx _).mpr ?_) trivial
      simp [Slot.get, hx]
  | set _ _ ttlSecs | setEx _ _ _ =>
      cases h
      refine iff_of_true ?_ trivial
      simp only [StaleSafe, Slot.set]
      split
      · exact ⟨rfl, rfl⟩
      · exact ⟨rfl, Slot.live_expired hx⟩
  | delete _ => cases h; exact iff_of_false (fun h => by cases h.1) id
  | incr _ | decr _ =>
      cases h
      exact iff_of_false (not_staleSafe_writeAny (keepsDeadline_bump _) hx
        (live_of_no_deadline rfl)) id
  | append _ _ =>
      cases h
      exact iff_of_false (not_staleSafe_writeAny (fun _ => rfl) hx (live_of_no_deadline rfl)) id
  | strlen _ =>
      cases h
      refine (staleSafe_read hx _).trans ?_
      cases v <;> simp [Slot.strlen, orError, StaleOk, count]
  | hget _ field =>
      cases h
      refine iff_of_true ((staleSafe_read hx _).mpr ?_) trivial
      rw [hget_stale hx]
      rfl
  | hset _ _ _ =>
      cases h
      exact iff_of_false (not_staleSafe_writeAny (fun _ => rfl) hx (live_of_no_deadline rfl)) id
  | hdel _ fields =>
      cases h
      refine (staleSafe_writeAny (fun h => ?_) hx count_ne_error).trans ?_
      · exact countLoop_keeps (p := HashValue.expiresAt) (fun _ _ => rfl) h fields
      · refine exists_congr fun x => and_congr_right fun _ => ?_
        have hzero := countLoop_eq_zero_iff
          (fun (h : HashValue) f => ((h.getField f).isSome, h.deleteField f)) ?_ x fields
        · simpa [orError, count] using hzero
        · intro t m hm m'
          by_cases hmm : m = m'
          · subst hmm
            simp [HashValue.deleteField, HashValue.getField] at hm ⊢
            simpa using hm
          · simp [HashValue.deleteField, HashValue.getField, Std.ExtTreeMap.getElem?_erase, hmm]
  | hgetall _ | hkeys _ | hvals _ => cases h; exact staleSafe_readAs hx (by simp)
  | hlen _ => cases h; exact staleSafe_readAs hx count_ne_error
  | hexists _ _ => cases h; exact staleSafe_readAs hx flag_ne_error
  | lpush _ values =>
      cases h
      exact iff_of_false (not_staleSafe_writeAny (fun l => pushLeft_keeps l values) hx
        (live_of_no_deadline (pushLeft_keeps _ values))) id
  | rpush _ values =>
      cases h
      exact iff_of_false (not_staleSafe_writeAny (fun l => pushRight_keeps l values) hx
        (live_of_no_deadline (pushRight_keeps _ values))) id
  | lpop _ =>
      cases h
      refine (staleSafe_writeAny (fun _ => rfl) hx valueOr_ne_error).trans ?_
      refine exists_congr fun l => and_congr_right fun _ => ?_
      cases hi : l.items <;> simp [orError, ListValue.popLeft, hi, valueOr]
  | rpop _ =>
      cases h
      refine (staleSafe_writeAny (fun _ => rfl) hx valueOr_ne_error).trans ?_
      refine exists_congr fun l => and_congr_right fun _ => ?_
      cases hi : l.items.getLast? with
      | none => simp [orError, ListValue.popRight, valueOr, List.getLast?_eq_none_iff.mp hi]
      | some b =>
          have hne : l.items ≠ [] := by
            intro hnil
            simp [hnil] at hi
          simp [orError, ListValue.popRight, hi, valueOr, hne]
  | lrange _ _ _ => cases h; exact staleSafe_readAs hx (by simp)
  | llen _ => cases h; exact staleSafe_readAs hx count_ne_error
  | lindex _ _ => cases h; exact staleSafe_readAs hx valueOr_ne_error
  | sadd _ members =>
      cases h
      have hkeep : ∀ t : SetValue, (Slot.countLoop
          (fun (s : SetValue) m => (!s.contains m, s.add m)) t members).2.expiresAt = t.expiresAt :=
        fun t => countLoop_keeps (p := SetValue.expiresAt) (fun _ _ => rfl) t members
      exact iff_of_false (not_staleSafe_writeAny hkeep hx (live_of_no_deadline (hkeep _))) id
  | srem _ members =>
      cases h
      refine (staleSafe_writeAny (fun t => ?_) hx count_ne_error).trans ?_
      · exact countLoop_keeps (p := SetValue.expiresAt) (fun _ _ => rfl) t members
      · refine exists_congr fun t => and_congr_right fun _ => ?_
        have hzero := countLoop_eq_zero_iff
          (fun (s : SetValue) m => (s.contains m, s.remove m)) ?_ t members
        · simpa [orError, count] using hzero
        · intro t m hm m'
          by_cases hmm : m = m'
          · subst hmm
            simp [SetValue.remove, SetValue.contains] at hm ⊢
            exact hm
          · simp [SetValue.remove, SetValue.contains, hmm]
  | smembers _ => cases h; exact staleSafe_readAs hx (by simp)
  | sismember _ _ => cases h; exact staleSafe_readAs hx flag_ne_error
  | scard _ => cases h; exact staleSafe_readAs hx count_ne_error
  | zadd _ members =>
      cases h
      have hkeep : ∀ z : SortedSetValue,
          (members.foldl (fun z p => z.add p.1 p.2) z).expiresAt = z.expiresAt :=
        fun z => foldl_keeps (fun (z : SortedSetValue) p => z.add p.1 p.2) SortedSetValue.expiresAt
          (fun _ _ => rfl) z members
      exact iff_of_false (not_staleSafe_writeAny hkeep hx (live_of_no_deadline (hkeep _))) id
  | zrem _ members =>
      cases h
      refine (staleSafe_writeAny (fun z => ?_) hx count_ne_error).trans ?_
      · exact countLoop_keeps (p := SortedSetValue.expiresAt) (fun z m => remove_keeps z m) z members
      · refine exists_congr fun z => and_congr_right fun _ => ?_
        have hzero := countLoop_eq_zero_iff
          (fun (z : SortedSetValue) m => ((z.getScore m).isSome, z.remove m)) ?_ z members
        · simpa [orError, count] using hzero
        · intro z m hm m'
          have hnone : z.memberScores[m]? = none := by
            have hm' : (z.memberScores[m]?).isSome = false := hm
            cases hs : z.memberScores[m]? with
            | none => rfl
            | some x => simp [hs] at hm'
          have hsame : z.remove m = z := by simp only [SortedSetValue.remove, hnone]
          rw [hsame]
  | zrange _ _ _ _ => cases h; exact staleSafe_readAs hx scored_ne_error
  | zrank _ _ =>
      cases h
      refine staleSafe_readAs hx ?_
      rintro (_ | r) e <;> simp [count]
  | zscore _ _ => cases h; exact staleSafe_readAs hx (fun _ => valueOr_ne_error _)
  | zcard _ => cases h; exact staleSafe_readAs hx count_ne_error
  | zcount _ _ _ => cases h; exact staleSafe_readAs_panic hx count_ne_error
  | expire _ _ | pexpire _ _ => cases h; exact iff_of_true (staleSafe_expireArm hx _) trivial
  | expireAt _ t => cases h; exact staleSafe_expireAtArm hx t
  | ttl _ | pttl _ =>
      cases h
      refine iff_of_true ((staleSafe_read hx _).mpr ?_) trivial
      simp [Slot.pttlMillis, hx]
  | persist _ =>
      cases h
      refine iff_of_true ?_ trivial
      simp only [StaleSafe, Slot.persist, hx, if_true]
      exact ⟨trivial, Slot.live_expired hx⟩
  | setNx _ _ =>
      cases h
      refine iff_of_true ?_ trivial
      simp only [StaleSafe, Slot.setNx, hx, if_true]
      exact ⟨trivial, trivial⟩
  | getSet _ value => cases h; exact staleSafe_getSet hx value
  | getRange _ start stop =>
      cases h
      refine (staleSafe_read hx _).trans ?_
      cases v <;> simp [Slot.getRange, StaleOk, Kind.string]
  | incrBy _ delta | decrBy _ delta =>
      cases h
      refine iff_of_false (not_staleSafe_writeAny (fun p => ?_) hx (live_of_no_deadline rfl)) id
      cases parseI64 p.1 <;> simp only
      split <;> rfl
  | incrByFloat _ delta =>
      cases h
      refine iff_of_false (not_staleSafe_writeAny (fun p => ?_) hx (live_of_no_deadline rfl)) id
      cases F64.parse p.1 <;> simp only
      split <;> rfl
  | hmget _ fields =>
      cases h
      refine iff_of_true ((staleSafe_read hx _).mpr ?_) trivial
      simp only [hget_stale hx]
      rfl
  | hmset _ pairs => cases h; exact staleSafe_hmset hx pairs
  | hsetNx _ _ _ => cases h; exact staleSafe_writeOrCreate hx flag_ne_error (by simp)
  | hincrBy _ _ _ => cases h; exact staleSafe_writeOrCreate hx (by simp) (by simp)
  | lset _ index value => cases h; exact staleSafe_lset hx index value
  | lrem _ n value => cases h; exact iff_of_true (staleSafe_lrem hx n value) trivial
  | ltrim _ _ _ => cases h; exact iff_of_false (not_staleSafe_writeLive hx (by simp [orPanic])) id
  | spop _ n =>
      cases h
      refine iff_of_false (not_staleSafe_writeLive hx ?_) id
      cases n <;> simp [orPanic, valueOr]
  | srandMember _ n =>
      cases h
      refine iff_of_false (not_staleSafe_readLive_panic hx ?_) id
      intro l e
      split
      · exact valueOr_ne_error _ _
      · simp
  | zincrBy _ _ _ => cases h; exact staleSafe_writeOrCreate hx (by simp) (by simp)
  | zrangeByScore _ _ _ _ =>
      cases h
      exact iff_of_false (not_staleSafe_readLive_panic hx scored_ne_error) id
  | zrevrange _ start stop withScores => cases h; exact staleSafe_zrevrange hx _ start stop withScores
  | zpopMin _ _ | zpopMax _ _ =>
      cases h
      exact iff_of_false (not_staleSafe_writeLive hx (by simp [orPanic, scored])) id
  | type _ =>
      cases h
      refine iff_of_true ((staleSafe_read hx _).mpr ?_) trivial
      simp [Slot.typeOf, hx]
  | xadd _ id fields => cases h; exact staleSafe_xaddArm hx id fields
  | xlen _ => cases h; exact iff_of_false (not_staleSafe_readLive hx count_ne_error) id
  | xrange _ start stop n => cases h; exact staleSafe_xrangeArm hx start stop n
  | _ => cases h

end FerricCache
