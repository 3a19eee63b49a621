import FerricCache.Server.Dispatch

/-!
# `FerricCache.Server.Failure` — what a failed command leaves behind

A single-key operation that returns an error has not written: `Keeps` says so of each operation, one
lemma for each shape. The two-key moves write the source before they look at the destination, and
`failureKeepsLive_iff` says exactly when the popped or removed element is lost.
-/

namespace FerricCache

/-! ## Single-key operations -/

/-- An operation that fails leaves its slot as it was. -/
def Keeps {α : Type} (op : Slot → Res α × Slot) : Prop :=
  ∀ slot e, (op slot).1 = .error e → (op slot).2 = slot

section Shapes

variable {τ α : Type} {K : Kind τ} {now : Instant} {f : τ → Res α × τ}

theorem keeps_writeAny {missing : α × Slot} (hf : ∀ t e, (f t).1 = .error e → (f t).2 = t) :
    Keeps (Slot.writeAny K missing f) := by
  rintro (_ | v) e h
  · cases h
  · simp only [Slot.writeAny] at h ⊢
    cases hk : K.as v with
    | none => rfl
    | some t =>
        simp only [hk] at h ⊢
        rw [hf t e h, K.of_as hk]

theorem keeps_writeLive {missing : α} (hf : ∀ t e, (f t).1 = .error e → (f t).2 = t) :
    Keeps (Slot.writeLive K now missing f) := by
  rintro (_ | v) e h
  · cases h
  · simp only [Slot.writeLive] at h ⊢
    cases hk : K.as v with
    | none => rfl
    | some t =>
        simp only [hk] at h ⊢
        split at h
        · rw [if_pos ‹_›]
        · rw [if_neg ‹_›, hf t e h, K.of_as hk]

theorem insertNew_error {create : Res (α × τ)} {slot : Slot} {e : Bytes}
    (h : (Slot.insertNew K create slot).1 = .error e) : (Slot.insertNew K create slot).2 = slot := by
  cases create with
  | ok p => cases h
  | error e' => rfl

theorem keeps_writeOrCreate {create : Res (α × τ)} (hf : ∀ t e, (f t).1 = .error e → (f t).2 = t) :
    Keeps (Slot.writeOrCreate K now create f) := by
  rintro (_ | v) e h
  · exact insertNew_error h
  · simp only [Slot.writeOrCreate] at h ⊢
    cases hk : K.as v with
    | none => rfl
    | some t =>
        simp only [hk] at h ⊢
        split at h
        · rw [if_pos ‹_›]
          exact insertNew_error h
        · rw [if_neg ‹_›, hf t e h, K.of_as hk]

end Shapes

theorem keeps_bump (delta : Int) : Keeps (Slot.bump delta) := by
  refine keeps_writeAny ?_
  intro p e h
  cases hp : parseI64 p.1 <;> simp_all

theorem keeps_incrBy (delta : Int) : Keeps (Slot.incrBy delta) := by
  refine keeps_writeAny ?_
  intro p e h
  cases hp : parseI64 p.1 with
  | none => rfl
  | some n =>
      simp only [hp] at h ⊢
      split at h
      · cases h
      · rw [if_neg ‹_›]

theorem keeps_incrByFloat (delta : F64) : Keeps (Slot.incrByFloat delta) := by
  refine keeps_writeAny ?_
  intro p e h
  cases hp : F64.parse p.1 with
  | none => rfl
  | some x =>
      simp only [hp] at h ⊢
      split at h
      · cases h
      · rw [if_neg ‹_›]

theorem keeps_getSet (now : Instant) (value : Bytes) : Keeps (Slot.getSet now value) := by
  rintro (_ | v) e h
  · cases h
  · cases v with
    | string b d => cases h
    | _ =>
        simp only [Slot.getSet] at h ⊢
        split at h
        · cases h
        · rw [if_neg ‹_›]

theorem keeps_hsetNx (now : Instant) (field value : Bytes) :
    Keeps (Slot.hsetNx now field value) := by
  refine keeps_writeOrCreate ?_
  intro h e he
  split at he <;> cases he

theorem keeps_hincrBy (now : Instant) (field : Bytes) (delta : Int) :
    Keeps (Slot.hincrBy now field delta) := by
  refine keeps_writeOrCreate ?_
  intro h e he
  simp only at he ⊢
  split at he
  · split at he
    · cases he
    · simp_all
  · simp_all

theorem keeps_lset (now : Instant) (index : Int64) (value : Bytes) :
    Keeps (Slot.lset now index value) := by
  rintro (_ | v) e h
  · rfl
  · cases v with
    | list l =>
        simp only [Slot.lset] at h ⊢
        split at h
        · rw [if_pos ‹_›]
        · rw [if_neg ‹_›]
          generalize (if index.toInt < 0 then _ else _ : Int) = real at h ⊢
          split at h
          · rw [if_pos ‹_›]
          · cases h
    | _ => rfl

theorem keeps_lrem (now : Instant) (n : Int64) (value : Bytes) : Keeps (Slot.lrem now n value) := by
  rintro (_ | v) e h
  · rfl
  · cases v with
    | list l =>
        simp only [Slot.lrem] at h
        split at h
        · cases h
        · split at h <;> cases h
    | _ => rfl

theorem keeps_ltrim (now : Instant) (start stop : Int64) : Keeps (Slot.ltrim now start stop) := by
  refine keeps_writeLive ?_
  intro l e h
  simp only at h
  split at h
  · cases h
  · split at h <;> cases h

theorem keeps_spop (env : Env) (pos : Bytes → Nat) (n : Nat) : Keeps (Slot.spop env pos n) := by
  refine keeps_writeLive ?_
  intro s e h
  split at h <;> cases h

theorem keeps_zpop (now : Instant)
    (pop : SortedSetValue → Option (List (Bytes × F64) × SortedSetValue)) :
    Keeps (Slot.zpop now pop) := by
  refine keeps_writeLive ?_
  intro z e h
  cases hp : pop z <;> simp_all

theorem keeps_xadd (env : Env) (requested : Option StreamId) (fields : List (Bytes × Bytes)) :
    Keeps (Slot.xadd env requested fields) := by
  refine keeps_writeOrCreate ?_
  intro s e h
  cases requested with
  | none => cases h
  | some id =>
      simp only [StreamValue.add] at h ⊢
      split at h
      · rw [if_pos ‹_›]
      · cases h

/-- The `HMSET` loop fails at its first `hset` or not at all. -/
theorem hmsetLoop_error {pairs : List (Bytes × Bytes)} {slot : Slot} {e : Bytes}
    (h : (hmsetLoop pairs slot).1 = some (.error e)) : (hmsetLoop pairs slot).2 = slot := by
  have hash_ok : ∀ (pairs : List (Bytes × Bytes)) (x : HashValue),
      (hmsetLoop pairs (some (.hash x))).1 = some .ok := by
    intro pairs
    induction pairs with
    | nil => intro x; rfl
    | cons p pairs ih => intro x; exact ih (x.setField p.1 p.2)
  cases pairs with
  | nil => cases h
  | cons p pairs =>
      cases slot with
      | none =>
          have hok := hash_ok pairs (HashValue.new.setField p.1 p.2)
          have hstep : (hmsetLoop (p :: pairs) none).1 = some .ok := hok
          rw [hstep] at h
          cases h
      | some v =>
          cases v with
          | hash x =>
              have hok := hash_ok pairs (x.setField p.1 p.2)
              have hstep : (hmsetLoop (p :: pairs) (some (.hash x))).1 = some .ok := hok
              rw [hstep] at h
              cases h
          | _ => rfl

theorem expireArm_noError (now : Instant) (d : Option Nat) (slot : Slot) (e : Bytes) :
    (expireArm now d slot).1 ≠ some (.error e) := by
  cases d with
  | none => simp [expireArm]
  | some d => cases hi : instantAdd now d <;> simp [expireArm, hi, Reply.flag]

theorem valueOr_ne_error (v : Option Bytes) (e : Bytes) : Reply.valueOr v ≠ .error e := by
  cases v <;> simp [Reply.valueOr]

/-! ## Arms -/

variable [KeyHash]

/-- An arm whose error reply means that nothing live has changed. -/
def Arm.FailKeeps (now : Instant) : Arm → Prop
  | .slot _ f => ∀ slot e, (f slot).1 = some (.error e) →
      Slot.live now (f slot).2 = Slot.live now slot
  | .store f => ∀ s e, (f s).1 = some (.error e) → ∀ k, (f s).2.live now k = s.live now k

theorem Arm.run_live {now : Instant} {a : Arm} (h : a.FailKeeps now) {s s' : CacheStorage} {e : Bytes}
    (hr : a.run s = (some (.error e), s')) (k : Bytes) : s'.live now k = s.live now k := by
  cases a with
  | slot key f =>
      simp only [Arm.run, CacheStorage.onKey, Prod.mk.injEq] at hr
      obtain ⟨he, rfl⟩ := hr
      rw [CacheStorage.live_setEntry]
      split
      · rw [h _ e he, ‹k = key›]
        rfl
      · rfl
  | store f =>
      have hf : f s = (some (.error e), s') := hr
      have := h s e (by rw [hf]) k
      rwa [hf] at this

variable {now : Instant} {key : Bytes}

theorem failKeeps_read (f : Slot → Option Response) : (Arm.read key f).FailKeeps now :=
  fun _ _ _ => rfl

theorem failKeeps_readStore (f : CacheStorage → Option Response) : (Arm.readStore f).FailKeeps now :=
  fun _ _ _ _ => rfl

theorem failKeeps_orError {α : Type} {op : Slot → Res α × Slot} {g : α → Response} (hop : Keeps op)
    (hg : ∀ a e, g a ≠ .error e) : (Arm.write key op (Reply.orError g)).FailKeeps now := by
  intro slot e h
  show Slot.live now (op slot).2 = _
  cases hr : (op slot).1 with
  | ok a =>
      simp only [hr, Reply.orError, Option.some_inj] at h
      exact absurd h (hg a e)
  | error e' => rw [hop slot e' hr]

theorem failKeeps_orPanic {α : Type} {op : Slot → Res (Option α) × Slot} {g : α → Response}
    (hop : Keeps op) (hg : ∀ a e, g a ≠ .error e) :
    (Arm.write key op (Reply.orPanic g)).FailKeeps now := by
  intro slot e h
  show Slot.live now (op slot).2 = _
  cases hr : (op slot).1 with
  | ok a =>
      cases a with
      | none => simp [hr, Reply.orPanic] at h
      | some a =>
          simp only [hr, Reply.orPanic, Option.some_inj] at h
          exact absurd h (hg a e)
  | error e' => rw [hop slot e' hr]

/-- An arm that never replies with an error. -/
theorem failKeeps_noError {f : Slot → Option Response × Slot}
    (hf : ∀ slot e, (f slot).1 ≠ some (.error e)) : (Arm.slot key f).FailKeeps now :=
  fun slot e h => absurd h (hf slot e)

theorem failKeeps_rename (newKey : Bytes) :
    (Arm.store fun s =>
      (Reply.orError (fun _ => .ok) (s.rename now key newKey).1, (s.rename now key newKey).2)).FailKeeps
        now := by
  intro s e h k
  simp only [CacheStorage.rename] at h ⊢
  cases hl : s.live now key with
  | some v => simp [hl, Reply.orError] at h
  | none =>
      -- only an entry that was not live is removed
      simp only [CacheStorage.live_setEntry]
      split
      · rw [‹k = key›, hl]
        rfl
      · rfl

/-- The commands that write two keys one after the other and may fail at the second. -/
def isMove : Command → Bool
  | .rpoplpush _ _ | .smove _ _ _ => true
  | _ => false

/-- **Every arm but the two moves** changes nothing live when it replies with an error. -/
theorem arm_failKeeps (env : Env) (c : Command) (hc : isMove c = false) (a : Arm)
    (h : arm env c = some a) : a.FailKeeps env.now := by
  -- the two moves are left out: the element may be gone from the source when the destination refuses it
  cases c with
  | rpoplpush _ _ => cases hc
  | smove _ _ _ => cases hc
  | incr _ | decr _ => cases h; exact failKeeps_orError (keeps_bump _) (by simp)
  | append _ _ | lpush _ _ | rpush _ _ | zadd _ _ =>
      cases h
      exact failKeeps_orError (keeps_writeAny (by simp)) (by simp [Reply.count])
  | hset _ _ _ => cases h; exact failKeeps_orError (keeps_writeAny (by simp)) (by simp)
  | hdel _ _ | sadd _ _ | srem _ _ | zrem _ _ =>
      cases h
      exact failKeeps_orError (keeps_writeAny (by simp)) (by simp [Reply.count])
  | lpop _ | rpop _ =>
      cases h
      exact failKeeps_orError (keeps_writeAny (by simp)) valueOr_ne_error
  | getSet _ _ => cases h; exact failKeeps_orError (keeps_getSet _ _) valueOr_ne_error
  | incrBy _ _ | decrBy _ _ => cases h; exact failKeeps_orError (keeps_incrBy _) (by simp)
  | incrByFloat _ _ => cases h; exact failKeeps_orError (keeps_incrByFloat _) (by simp)
  | hmset _ _ =>
      cases h
      intro slot e he
      rw [hmsetLoop_error he]
  | hsetNx _ _ _ =>
      cases h
      exact failKeeps_orError (keeps_hsetNx _ _ _) (by simp [Reply.flag])
  | hincrBy _ _ _ => cases h; exact failKeeps_orError (keeps_hincrBy _ _ _) (by simp)
  | lset _ _ _ => cases h; exact failKeeps_orError (keeps_lset _ _ _) (by simp)
  | lrem _ _ _ => cases h; exact failKeeps_orError (keeps_lrem _ _ _) (by simp [Reply.count])
  | ltrim _ _ _ => cases h; exact failKeeps_orPanic (keeps_ltrim _ _ _) (by simp)
  | spop _ n =>
      cases h
      refine failKeeps_orPanic (keeps_spop _ _ _) ?_
      intro l e
      split
      · exact valueOr_ne_error _ _
      · simp
  | zincrBy _ _ _ =>
      cases h
      exact failKeeps_orError (keeps_writeOrCreate (by simp)) (by simp)
  | zpopMin _ _ | zpopMax _ _ =>
      cases h
      exact failKeeps_orPanic (keeps_zpop _ _) (by simp [Reply.scored])
  | xadd key id fields =>
      cases h
      intro slot e he
      cases id with
      | none =>
          cases hx : (Slot.xadd env none fields slot).1 with
          | ok x => simp [xaddArm, hx, Reply.orError] at he
          | error x => simp [xaddArm, keeps_xadd env none fields slot x hx]
      | some text =>
          cases hp : StreamId.parse text false with
          | error x => simp [xaddArm, hp]
          | ok id =>
              cases hx : (Slot.xadd env (some id) fields slot).1 with
              | ok x => simp [xaddArm, hp, hx, Reply.orError] at he
              | error x => simp [xaddArm, hp, keeps_xadd env (some id) fields slot x hx]
  | expire _ _ | pexpire _ _ => cases h; exact failKeeps_noError (expireArm_noError _ _)
  | expireAt key t =>
      cases h
      refine failKeeps_noError ?_
      intro slot e
      unfold expireAtArm
      split
      · simp [Reply.flag]
      · exact expireArm_noError _ _ _ _
  | set _ _ _ | setEx _ _ _ =>
      cases h
      refine failKeeps_noError ?_
      intro slot e
      cases (Slot.set env.now _ _ slot).1 <;> simp
  | delete _ =>
      cases h
      refine failKeeps_noError ?_
      intro slot e
      cases slot <;> simp [Slot.delete]
  | persist _ | setNx _ _ => cases h; exact failKeeps_noError (by simp [Reply.flag])
  | flushAll => cases h; exact fun _ _ he => by simp at he
  | mset _ => cases h; exact fun _ _ he => by simp at he
  | rename _ newKey => cases h; exact failKeeps_rename newKey
  | _ => first
    | cases h; exact failKeeps_read _
    | cases h; exact failKeeps_readStore _
    | cases h

/-! ## The two moves -/

section Move

variable {τ α β : Type} {K : Kind τ} {missing : α} {take : τ → α × τ} {moved : α → Option β}
  {fresh : τ} {put : β → τ → τ} {source destination : Bytes} {s : CacheStorage}

omit [KeyHash] in
theorem Kind.of_inj {t u : τ} (h : K.of t = K.of u) : t = u := by
  have := congrArg K.as h
  rw [K.as_of, K.as_of] at this
  exact Option.some.inj this

/-- A missing source: nothing is moved. -/
theorem move_missing (h : s.slotAt source = none) (hm : moved missing = none) :
    s.move K now missing take moved fresh put source destination = (.ok missing, s) := by
  have hs := s.setEntry_slotAt source
  rw [h] at hs
  simp only [CacheStorage.move, CacheStorage.takeFrom, CacheStorage.onKey, h, Slot.writeLive, hm, hs]

/-- A source of another type, or an expired one, is refused. -/
theorem move_refused {v : CacheValue} (h : s.slotAt source = some v)
    (hv : K.as v = none ∨ v.isExpired now = true) :
    s.move K now missing take moved fresh put source destination = (.error wrongType, s) := by
  have hs := s.setEntry_slotAt source
  rw [h] at hs
  have hw : CacheStorage.takeFrom K now missing take (some v) = (.error wrongType, some v) := by
    simp only [CacheStorage.takeFrom, Slot.writeLive]
    cases hk : K.as v with
    | none => rfl
    | some t =>
        rcases hv with hv | hv
        · rw [hk] at hv
          cases hv
        · simp only [hv, if_true]
  simp only [CacheStorage.move, CacheStorage.onKey, h, hw, hs]

/-- A live source is written back without what was taken, whatever happens next. -/
theorem move_live (missing : α) (take : τ → α × τ) (moved : α → Option β) (fresh : τ)
    (put : β → τ → τ) (destination : Bytes) {t : τ} (h : s.live now source = some (K.of t)) :
    s.move K now missing take moved fresh put source destination
      = match moved (take t).1 with
        | none => (.ok (take t).1, s.setEntry source (some (K.of (take t).2)))
        | some b =>
            match (s.setEntry source (some (K.of (take t).2))).onKey destination
              (CacheStorage.putInto K now fresh (put b)) with
            | (.ok (), s'') => (.ok (take t).1, s'')
            | (.error e, s'') => (.error e, s'') := by
  obtain ⟨hentry, hlive⟩ := Slot.live_eq_some.mp h
  have hw : CacheStorage.takeFrom K now missing take (some (K.of t))
      = (.ok (take t).1, some (K.of (take t).2)) := by
    simp [CacheStorage.takeFrom, Slot.writeLive, K.as_of, hlive]
  simp only [CacheStorage.move]
  have hsection : s.onKey source (CacheStorage.takeFrom K now missing take)
      = (.ok (take t).1, s.setEntry source (some (K.of (take t).2))) := by
    simp only [CacheStorage.onKey, hentry, hw]
  rewrite [hsection]
  rfl

omit [KeyHash] in
/-- The destination half fails exactly on a value of another type, which it leaves alone. -/
theorem putInto_cases (now : Instant) (fresh : τ) (put : τ → τ) (slot : Slot) :
    (∃ v, slot = some v ∧ K.as v = none ∧
      CacheStorage.putInto K now fresh put slot = (.error wrongType, some v)) ∨
    ((∀ v, slot = some v → K.as v ≠ none) ∧
      ∃ t, CacheStorage.putInto K now fresh put slot = (.ok (), some (K.of t))) := by
  cases slot with
  | none => exact Or.inr ⟨by simp, put fresh, rfl⟩
  | some v =>
      cases hk : K.as v with
      | none =>
          refine Or.inl ⟨v, rfl, hk, ?_⟩
          simp only [CacheStorage.putInto, Slot.writeOrCreate, hk]
      | some t =>
          refine Or.inr ⟨?_, ?_⟩
          · rintro w hw
            cases hw
            simp [hk]
          · by_cases hx : v.isExpired now = true
            · exact ⟨put fresh, by
                simp [CacheStorage.putInto, Slot.writeOrCreate, hk, hx, Slot.insertNew]⟩
            · exact ⟨put t, by simp [CacheStorage.putInto, Slot.writeOrCreate, hk, hx]⟩

/-- The source half took something from a live value. -/
def Takes (K : Kind τ) (now : Instant) (take : τ → α × τ) (moved : α → Option β) (source : Bytes)
    (s : CacheStorage) : Prop :=
  ∃ t b, s.live now source = some (K.of t) ∧ moved (take t).1 = some b

/-- **A failed move keeps every live entry** unless something was taken and the destination holds a
value of another type. -/
theorem move_failKeeps_iff (K : Kind τ) (now : Instant) (missing : α) (take : τ → α × τ)
    (moved : α → Option β) (fresh : τ) (put : β → τ → τ) (source destination : Bytes)
    (s : CacheStorage) (hmissing : moved missing = none)
    (htake : ∀ t b, moved (take t).1 = some b → (take t).2 ≠ t) :
    (∀ e s', s.move K now missing take moved fresh put source destination = (.error e, s') →
        ∀ k, s'.live now k = s.live now k) ↔
      ¬ (Takes K now take moved source s ∧ ∃ v, s.slotAt destination = some v ∧ K.as v = none) := by
  constructor
  · rintro hkeep ⟨⟨t, b, ht, hb⟩, v, hv, hkind⟩
    have hne : destination ≠ source := by
      rintro rfl
      have hentry := (Slot.live_eq_some.mp ht).1
      rw [hv] at hentry
      cases hentry
      rw [K.as_of] at hkind
      cases hkind
    obtain ⟨x, hx, hk, hput⟩ | ⟨hother, _⟩ :=
      putInto_cases (K := K) now fresh (put b) (s.slotAt destination)
    · have hmove := move_live missing take moved fresh put destination ht
      simp only [hb, CacheStorage.onKey, CacheStorage.slotAt_setEntry_ne hne, hput] at hmove
      have hsrc := hkeep wrongType _ hmove source
      rw [CacheStorage.live_setEntry, if_neg (Ne.symm hne), CacheStorage.live_setEntry, if_pos rfl,
        ht] at hsrc
      exact htake t b hb (Kind.of_inj (Option.some.inj (Slot.live_eq_some.mp hsrc).1))
    · exact hother v hv hkind
  · intro hno e s' hmove k
    cases hentry : s.slotAt source with
    | none =>
        rw [move_missing hentry hmissing] at hmove
        cases hmove
    | some v =>
        by_cases hrefused : K.as v = none ∨ v.isExpired now = true
        · rw [move_refused hentry hrefused] at hmove
          cases hmove
          rfl
        · push Not at hrefused
          obtain ⟨hk, hx⟩ := hrefused
          obtain ⟨t, ht⟩ := Option.ne_none_iff_exists'.mp hk
          have hlive : s.live now source = some (K.of t) := by
            rw [K.of_as ht]
            exact Slot.live_eq_some.mpr ⟨hentry, by simpa using hx⟩
          rw [move_live _ _ _ _ _ _ hlive] at hmove
          cases hb : moved (take t).1 with
          | none => simp [hb] at hmove
          | some b =>
              -- the destination cannot refuse: its value would be of another type
              simp only [hb, CacheStorage.onKey] at hmove
              obtain ⟨x, hslot, hkind, _⟩ | ⟨_, u, hput⟩ := putInto_cases (K := K) now fresh (put b)
                ((s.setEntry source (some (K.of (take t).2))).slotAt destination)
              · rw [CacheStorage.slotAt_setEntry] at hslot
                split at hslot
                · cases hslot
                  rw [K.as_of] at hkind
                  cases hkind
                · exact absurd ⟨⟨t, b, hlive, hb⟩, x, hslot, hkind⟩ hno
              · simp [hput] at hmove

end Move

/-! ## Every command -/

/-- The source gives up an element and the destination, which holds a value of another type, does
    not take it. -/
def LosesElement (now : Instant) (c : Command) (s : CacheStorage) : Prop :=
  match c with
  | .rpoplpush source destination =>
      (∃ l, s.live now source = some (.list l) ∧ l.items ≠ []) ∧
        ∃ v, s.slotAt destination = some v ∧ Kind.list.as v = none
  | .smove source destination member =>
      (∃ t, s.live now source = some (.set t) ∧ t.contains member = true) ∧
        ∃ v, s.slotAt destination = some v ∧ Kind.set.as v = none
  | _ => False

/-- When `c` replies with an error, every live entry is what it was. -/
def FailureKeepsLive (env : Env) (c : Command) (s : CacheStorage) : Prop :=
  ∀ e s', dispatch env c s = some (some (.error e), s') →
    ∀ k, s'.live env.now k = s.live env.now k

/-- An arm that replies through `orError` fails exactly when its operation does. -/
theorem orError_failure {α : Type} {g : α → Response} (hg : ∀ a e, g a ≠ .error e) (r : Res α × CacheStorage)
    (e : Bytes) (s' : CacheStorage) :
    some (Reply.orError g r.1, r.2) = some (some (.error e), s') ↔ r = (.error e, s') := by
  obtain ⟨res, st⟩ := r
  cases res with
  | ok a => simp [Reply.orError, hg a e]
  | error x => simp [Reply.orError]

/-- `rpoplpush` takes something exactly from a live list that is not empty. -/
theorem takes_list_iff (now : Instant) (source : Bytes) (s : CacheStorage) :
    Takes Kind.list now ListValue.popRight id source s
      ↔ ∃ l, s.live now source = some (.list l) ∧ l.items ≠ [] := by
  constructor
  · rintro ⟨l, b, hl, hb⟩
    refine ⟨l, hl, ?_⟩
    intro hnil
    simp [ListValue.popRight, hnil] at hb
  · rintro ⟨l, hl, hne⟩
    exact ⟨l, l.items.getLast hne, hl, List.getLast?_eq_some_getLast hne⟩

/-- `smove` takes something exactly from a live set that has the member. -/
theorem takes_set_iff (now : Instant) (source member : Bytes) (s : CacheStorage) :
    Takes Kind.set now (fun t => (t.contains member, t.remove member))
        (fun removed => if removed then some () else none) source s
      ↔ ∃ t, s.live now source = some (.set t) ∧ t.contains member = true := by
  constructor
  · rintro ⟨t, b, ht, hb⟩
    refine ⟨t, ht, ?_⟩
    by_contra hno
    simp [hno] at hb
  · rintro ⟨t, ht, hmem⟩
    exact ⟨t, (), ht, by simp [hmem]⟩

theorem rpoplpush_failureKeepsLive_iff (env : Env) (source destination : Bytes) (s : CacheStorage) :
    FailureKeepsLive env (.rpoplpush source destination) s
      ↔ ¬ LosesElement env.now (.rpoplpush source destination) s := by
  have hcore := move_failKeeps_iff Kind.list env.now none ListValue.popRight id ListValue.new
    (fun v l => l.pushLeft v) source destination s rfl
    (by
      intro l b hb heq
      have hlen := congrArg (fun l => l.items.length) heq
      have hne : l.items ≠ [] := by
        intro hnil
        simp [ListValue.popRight, hnil] at hb
      have := List.length_pos_iff.mpr hne
      simp only [ListValue.popRight, List.length_dropLast] at hlen
      omega)
  have hloses : LosesElement env.now (.rpoplpush source destination) s
      ↔ Takes Kind.list env.now ListValue.popRight id source s ∧
        ∃ v, s.slotAt destination = some v ∧ Kind.list.as v = none :=
    and_congr (takes_list_iff env.now source s).symm Iff.rfl
  rw [hloses]
  refine Iff.trans ?_ hcore
  refine forall_congr' fun e => forall_congr' fun s' => ?_
  exact imp_congr (orError_failure valueOr_ne_error _ e s') Iff.rfl

theorem smove_failureKeepsLive_iff (env : Env) (source destination member : Bytes)
    (s : CacheStorage) :
    FailureKeepsLive env (.smove source destination member) s
      ↔ ¬ LosesElement env.now (.smove source destination member) s := by
  have hcore := move_failKeeps_iff Kind.set env.now false
    (fun t => (t.contains member, t.remove member))
    (fun removed => if removed then some () else none) SetValue.new (fun () t => t.add member)
    source destination s rfl
    (by
      intro t b hb heq
      have hmem : member ∈ t.members := by
        by_contra hno
        simp [SetValue.contains, hno] at hb
      have hsame := congrArg SetValue.members heq
      simp only [SetValue.remove] at hsame
      rw [← hsame] at hmem
      simp at hmem)
  have hloses : LosesElement env.now (.smove source destination member) s
      ↔ Takes Kind.set env.now (fun t => (t.contains member, t.remove member))
          (fun removed => if removed then some () else none) source s ∧
        ∃ v, s.slotAt destination = some v ∧ Kind.set.as v = none :=
    and_congr (takes_set_iff env.now source member s).symm Iff.rfl
  rw [hloses]
  refine Iff.trans ?_ hcore
  refine forall_congr' fun e => forall_congr' fun s' => ?_
  exact imp_congr (orError_failure (by simp [Reply.flag]) _ e s') Iff.rfl

/-- **A failed command changes nothing live, exactly when it is not a move that loses its element**:
for every storage, every clock reading and every command with an arm on the storage. -/
theorem failureKeepsLive_iff (env : Env) (c : Command) (s : CacheStorage) :
    FailureKeepsLive env c s ↔ ¬ LosesElement env.now c s := by
  cases hc : isMove c with
  | true =>
      cases c with
      | rpoplpush source destination => exact rpoplpush_failureKeepsLive_iff env source destination s
      | smove source destination member =>
          exact smove_failureKeepsLive_iff env source destination member s
      | _ => cases hc
  | false =>
      have hno : ¬ LosesElement env.now c s := by
        cases c <;> first | exact id | cases hc
      refine iff_of_true ?_ hno
      intro e s' hd k
      obtain ⟨a, ha, hr⟩ := Option.map_eq_some_iff.mp hd
      exact Arm.run_live (arm_failKeeps env c hc a ha) hr k

/-- A store with the list `[x]` at `a` and a string at `b`. -/
def listAndString : CacheStorage :=
  (CacheStorage.new.setEntry (utf8 "a") (some (.list ⟨[utf8 "x"], none⟩))).setEntry (utf8 "b")
    (some (.string (utf8 "s") none))

omit [KeyHash] in
/-- `RPOPLPUSH a b` with a list at `a` and a string at `b` replies `WRONGTYPE`, and the popped element
    is gone from `a`. -/
theorem rpoplpush_wrong_destination_loses :
    letI := shortKeys
    ¬ FailureKeepsLive (Env.reading 5) (.rpoplpush (utf8 "a") (utf8 "b")) listAndString := by
  let _ := shortKeys
  rw [rpoplpush_failureKeepsLive_iff, not_not]
  exact ⟨⟨⟨[utf8 "x"], none⟩, by decide, by decide⟩, .string (utf8 "s") none, by decide, by decide⟩

end FerricCache
