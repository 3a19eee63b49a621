import FerricCache.Server.Steady

/-!
# `FerricCache.Server.Dated` — operations on values that differ in their deadlines only

Two values are `Alike` when they have the same content and both or neither has a deadline. An operation on
a value is `Uniform` when it does the same whatever the deadline is, and carries the deadline along. The
write shapes of `Storage.Slot` keep alike slots alike: `writeAny` always (`Blind`), the others as long as no
deadline has passed, even at two different clock readings (`Matched`).
-/

namespace FerricCache

/-- The same content, and a deadline on both sides or on neither. -/
def Alike (v w : CacheValue) : Prop := ∃ e, w = v.withExpiry e ∧ e.isSome = v.expiresAt.isSome

theorem alike_refl (v : CacheValue) : Alike v v := ⟨v.expiresAt, by simp, rfl⟩

theorem Alike.noDeadline {v w : CacheValue} (h : Alike v w) (hv : v.expiresAt = none) : w = v := by
  obtain ⟨e, rfl, he⟩ := h
  rw [hv] at he
  cases e with
  | some _ => cases he
  | none => rw [← hv, CacheValue.withExpiry_self]

theorem Alike.isSome_eq {v w : CacheValue} (h : Alike v w) :
    w.expiresAt.isSome = v.expiresAt.isSome := by
  obtain ⟨e, rfl, he⟩ := h
  rw [CacheValue.expiresAt_withExpiry, he]

theorem alike_withExpiry {v w : CacheValue} (h : Alike v w) {d e : Option Instant}
    (he : d.isSome = e.isSome) : Alike (v.withExpiry d) (w.withExpiry e) := by
  obtain ⟨f, rfl, -⟩ := h
  exact ⟨e, by simp, by simp [he]⟩

namespace Slot

/-- Alike on both sides, or absent on both. -/
inductive InStep : Slot → Slot → Prop
  | none : InStep none none
  | some {v w : CacheValue} : Alike v w → InStep (some v) (some w)

/-- Not past its deadline. -/
def Unexpired (now : Instant) (slot : Slot) : Prop := ∀ v, slot = some v → v.isExpired now = false

/-- Nothing, or a value with a deadline. -/
def Mortal (slot : Slot) : Prop := ∀ v, slot = some v → v.expiresAt ≠ none

theorem inStep_refl (slot : Slot) : InStep slot slot := by
  cases slot with
  | none => exact .none
  | some v => exact .some (alike_refl v)

theorem unexpired_none (now : Instant) : Unexpired now none := fun _ h => by cases h

theorem unexpired_some {now : Instant} {v : CacheValue} :
    Unexpired now (some v) ↔ v.isExpired now = false :=
  ⟨fun h => h v rfl, fun h w hw => by cases hw; exact h⟩

theorem mortal_none : Mortal none := fun _ h => by cases h

theorem mortal_some {v : CacheValue} : Mortal (some v) ↔ v.expiresAt ≠ none :=
  ⟨fun h => h v rfl, fun h w hw => by cases hw; exact h⟩

end Slot

theorem not_expired_of_noDeadline {v : CacheValue} (h : v.expiresAt = none) (now : Instant) :
    v.isExpired now = false := by
  unfold CacheValue.isExpired
  rw [h]
  rfl

theorem isExpired_congr {v w : CacheValue} (h : w.expiresAt = v.expiresAt) (now : Instant) :
    w.isExpired now = v.isExpired now := by
  unfold CacheValue.isExpired
  rw [h]

/-! ## Payloads with a deadline of their own -/

namespace Kind

variable {τ α : Type} (K : Kind τ)

/-- The payload with another deadline. -/
def dated (e : Option Instant) (t : τ) : τ := (K.as ((K.of t).withExpiry e)).getD t

/-- The payload carries the value's deadline. -/
def Dates : Prop := ∀ e t, K.of (K.dated e t) = (K.of t).withExpiry e

/-- The operation does the same under every deadline, and carries it along. -/
def Uniform (f : τ → Res α × τ) : Prop := ∀ e t, f (K.dated e t) = ((f t).1, K.dated e (f t).2)

theorem dates_string : string.Dates := fun _ _ => rfl
theorem dates_hash : hash.Dates := fun _ _ => rfl
theorem dates_list : list.Dates := fun _ _ => rfl
theorem dates_set : set.Dates := fun _ _ => rfl
theorem dates_sortedSet : sortedSet.Dates := fun _ _ => rfl
theorem dates_stream : stream.Dates := fun _ _ => rfl

variable {K}

theorem Dates.of_injective {t u : τ} (h : K.of t = K.of u) : t = u := by
  have := congrArg K.as h
  rw [K.as_of, K.as_of] at this
  exact Option.some_inj.mp this

theorem Dates.self (hK : K.Dates) (t : τ) : K.dated (K.of t).expiresAt t = t := by
  apply of_injective (K := K)
  rw [hK, CacheValue.withExpiry_self]

theorem Dates.as_withExpiry (hK : K.Dates) {v : CacheValue} {t : τ} (h : K.as v = some t)
    (e : Option Instant) : K.as (v.withExpiry e) = some (K.dated e t) := by
  rw [← K.of_as h, ← hK, K.as_of]

theorem Dates.as_withExpiry_none (hK : K.Dates) {v : CacheValue} (h : K.as v = none)
    (e : Option Instant) : K.as (v.withExpiry e) = none := by
  cases hu : K.as (v.withExpiry e) with
  | none => rfl
  | some u =>
      have hback := hK.as_withExpiry hu v.expiresAt
      rw [CacheValue.withExpiry_withExpiry, CacheValue.withExpiry_self, h] at hback
      cases hback

/-- A uniform operation leaves the deadline as it is. -/
theorem Uniform.expiresAt (hK : K.Dates) {f : τ → Res α × τ} (hf : K.Uniform f) (t : τ) :
    (K.of (f t).2).expiresAt = (K.of t).expiresAt := by
  have h := hf (K.of t).expiresAt t
  rw [hK.self] at h
  have hsnd : (f t).2 = K.dated (K.of t).expiresAt (f t).2 := congrArg Prod.snd h
  rw [hsnd, hK, CacheValue.expiresAt_withExpiry]

end Kind

/-! ## Pairs of operations -/

namespace Slot

/-- An operation that never looks at the deadline: it keeps alike slots alike and a value's deadline, and
    what it creates has none. -/
structure Blind (f : Slot → Slot) : Prop where
  inStep : ∀ {a b}, InStep a b → InStep (f a) (f b)
  keeps : ∀ v, ∃ v', f (some v) = some v' ∧ v'.expiresAt = v.expiresAt
  fresh : ∀ v, f none = some v → v.expiresAt = none

/-- The two sides of one operation, at `now` and at `now'`: off passed deadlines they keep alike slots
    alike, and leave nothing expired. -/
structure Matched (now now' : Instant) (f f' : Slot → Slot) : Prop where
  inStep : ∀ {a b}, InStep a b → Unexpired now a → Unexpired now' b → InStep (f a) (f' b)
  left : ∀ {a}, Unexpired now a → Unexpired now (f a)
  right : ∀ {b}, Unexpired now' b → Unexpired now' (f' b)

variable {τ α : Type} {K : Kind τ} {now now' : Instant}

theorem Blind.unexpired {f : Slot → Slot} (hf : Blind f) {slot : Slot} (h : Unexpired now slot) :
    Unexpired now (f slot) := by
  intro v' hv'
  cases slot with
  | none => exact not_expired_of_noDeadline (hf.fresh v' hv') now
  | some v =>
      obtain ⟨w, hw, he⟩ := hf.keeps v
      obtain rfl := Option.some_inj.mp (hw.symm.trans hv')
      rw [isExpired_congr he]
      exact h v rfl

/-- Operations that are a blind one, off passed deadlines. -/
theorem Blind.matched {f f' g : Slot → Slot} (hg : Blind g) (h : ∀ a, Unexpired now a → f a = g a)
    (h' : ∀ b, Unexpired now' b → f' b = g b) : Matched now now' f f' where
  inStep hab ha hb := by
    rw [h _ ha, h' _ hb]
    exact hg.inStep hab
  left ha := by
    rw [h _ ha]
    exact hg.unexpired ha
  right hb := by
    rw [h' _ hb]
    exact hg.unexpired hb

theorem Blind.self {f : Slot → Slot} (hf : Blind f) : Matched now now' f f :=
  hf.matched (fun _ _ => rfl) fun _ _ => rfl

theorem blind_writeAny (hK : K.Dates) {missing : α × Slot} {f : τ → Res α × τ} (hf : K.Uniform f)
    (hm : ∀ v, missing.2 = some v → v.expiresAt = none) :
    Blind fun slot => (writeAny K missing f slot).2 where
  inStep := by
    rintro a b (_ | @⟨v, w, ⟨e, rfl, he⟩⟩)
    · exact inStep_refl _
    · simp only [writeAny]
      cases hv : K.as v with
      | none =>
          rw [hK.as_withExpiry_none hv]
          exact .some ⟨e, rfl, he⟩
      | some t =>
          rw [hK.as_withExpiry hv]
          dsimp only
          rw [hf e t]
          refine .some ⟨e, (hK e _), ?_⟩
          rw [hf.expiresAt hK, K.of_as hv, he]
  keeps v := by
    simp only [writeAny]
    cases hv : K.as v with
    | none => exact ⟨v, rfl, rfl⟩
    | some t => exact ⟨_, rfl, by rw [hf.expiresAt hK, K.of_as hv]⟩
  fresh := hm

theorem matched_writeLive (hK : K.Dates) {missing : α} {f : τ → Res α × τ} (hf : K.Uniform f) :
    Matched now now' (fun slot => (writeLive K now missing f slot).2)
      fun slot => (writeLive K now' missing f slot).2 := by
  have heq : ∀ (now : Instant) (slot : Slot), Unexpired now slot →
      (writeLive K now missing f slot).2 = (writeAny K (missing, none) f slot).2 := by
    intro now slot h
    cases slot with
    | none => rfl
    | some v => simp only [writeLive, writeAny, h v rfl, Bool.false_eq_true, if_false]
  exact (blind_writeAny hK hf fun _ h => by cases h).matched (heq now) (heq now')

theorem matched_writeOrCreate (hK : K.Dates) {create : Res (α × τ)} {f : τ → Res α × τ}
    (hf : K.Uniform f) (hc : ∀ a t, create = .ok (a, t) → (K.of t).expiresAt = none) :
    Matched now now' (fun slot => (writeOrCreate K now create f slot).2)
      fun slot => (writeOrCreate K now' create f slot).2 := by
  have hfresh : ∀ v, (insertNew K create none).2 = some v → v.expiresAt = none := by
    intro v hv
    cases hcr : create with
    | error e =>
        rw [hcr] at hv
        cases hv
    | ok p =>
        obtain ⟨a, t⟩ := p
        rw [hcr] at hv
        cases hv
        exact hc a t hcr
  -- a missing value is created, as `writeAny` does it; the replies do not matter here
  let g : τ → Res Unit × τ := fun t => (.ok (), (f t).2)
  have hg : K.Uniform g := by
    intro e t
    show (Except.ok (), (f (K.dated e t)).2) = (Except.ok (), K.dated e (f t).2)
    rw [hf e t]
  have heq : ∀ (now : Instant) (slot : Slot), Unexpired now slot →
      (writeOrCreate K now create f slot).2
        = (writeAny K ((), (insertNew K create none).2) g slot).2 := by
    intro now slot h
    cases slot with
    | none => rfl
    | some v =>
        simp only [writeOrCreate, writeAny, h v rfl, Bool.false_eq_true, if_false]
        cases K.as v <;> rfl
  exact (blind_writeAny hK hg hfresh).matched (heq now) (heq now')

end Slot

/-! ## The payload operations are uniform -/

namespace Slot

open Kind

theorem uniform_countLoop {τ : Type} {K : Kind τ} {step : τ → Bytes → Bool × τ}
    (hstep : ∀ e t m, step (K.dated e t) m = ((step t m).1, K.dated e (step t m).2)) (ms : List Bytes) :
    K.Uniform fun t => ((.ok (countLoop step t ms).1 : Res Nat), (countLoop step t ms).2) := by
  have hloop : ∀ e t, countLoop step (K.dated e t) ms
      = ((countLoop step t ms).1, K.dated e (countLoop step t ms).2) := by
    intro e
    induction ms with
    | nil => exact fun t => rfl
    | cons m ms ih =>
        intro t
        simp only [countLoop, hstep, ih]
  intro e t
  simp only [hloop]

theorem foldl_dated {τ β : Type} {K : Kind τ} {f : τ → β → τ}
    (hf : ∀ e t b, f (K.dated e t) b = K.dated e (f t b)) (l : List β) (e : Option Instant) (t : τ) :
    l.foldl f (K.dated e t) = K.dated e (l.foldl f t) := by
  induction l generalizing t with
  | nil => rfl
  | cons b l ih => rw [List.foldl_cons, hf, ih, List.foldl_cons]

/-! ## The single-key writes -/

variable {now now' : Instant}

theorem blind_bump (delta : Int) : Blind fun slot => (bump delta slot).2 := by
  refine blind_writeAny dates_string ?_ ?_
  · rintro e ⟨b, d⟩
    simp only [Kind.dated, Kind.string, CacheValue.withExpiry, Option.getD_some]
    cases parseI64 b <;> rfl
  · rintro v ⟨⟩
    rfl

theorem blind_append (value : Bytes) : Blind fun slot => (append value slot).2 := by
  refine blind_writeAny dates_string (fun _ _ => rfl) ?_
  rintro v ⟨⟩
  rfl

theorem blind_incrBy (delta : Int) : Blind fun slot => (incrBy delta slot).2 := by
  refine blind_writeAny dates_string ?_ ?_
  · rintro e ⟨b, d⟩
    simp only [Kind.dated, Kind.string, CacheValue.withExpiry, Option.getD_some]
    cases parseI64 b with
    | none => rfl
    | some c =>
        dsimp only
        split <;> rfl
  · rintro v ⟨⟩
    rfl

theorem blind_incrByFloat (delta : F64) : Blind fun slot => (incrByFloat delta slot).2 := by
  refine blind_writeAny dates_string ?_ ?_
  · rintro e ⟨b, d⟩
    simp only [Kind.dated, Kind.string, CacheValue.withExpiry, Option.getD_some]
    cases F64.parse b with
    | none => rfl
    | some c =>
        dsimp only
        split <;> rfl
  · rintro v ⟨⟩
    rfl

theorem blind_hset (field value : Bytes) : Blind fun slot => (hset field value slot).2 := by
  refine blind_writeAny dates_hash (fun _ _ => rfl) ?_
  rintro v ⟨⟩
  rfl

theorem blind_hdel (fields : List Bytes) : Blind fun slot => (hdel fields slot).2 := by
  refine blind_writeAny dates_hash (uniform_countLoop (fun _ _ _ => rfl) fields) ?_
  rintro v ⟨⟩

theorem blind_lpush (values : List Bytes) : Blind fun slot => (lpush values slot).2 := by
  have hfold := foldl_dated (K := Kind.list) (f := ListValue.pushLeft) (fun _ _ _ => rfl) values
  refine blind_writeAny dates_list ?_ ?_
  · intro e l
    simp only [hfold]
    rfl
  · rintro v ⟨⟩
    exact foldl_invariant (P := fun l : ListValue => l.expiresAt = none) (f := ListValue.pushLeft)
      (fun _ _ h => h) values rfl

theorem blind_rpush (values : List Bytes) : Blind fun slot => (rpush values slot).2 := by
  have hfold := foldl_dated (K := Kind.list) (f := ListValue.pushRight) (fun _ _ _ => rfl) values
  refine blind_writeAny dates_list ?_ ?_
  · intro e l
    simp only [hfold]
    rfl
  · rintro v ⟨⟩
    exact foldl_invariant (P := fun l : ListValue => l.expiresAt = none) (f := ListValue.pushRight)
      (fun _ _ h => h) values rfl

theorem blind_lpop : Blind fun slot => (lpop slot).2 := by
  refine blind_writeAny dates_list (fun _ _ => rfl) ?_
  rintro v ⟨⟩

theorem blind_rpop : Blind fun slot => (rpop slot).2 := by
  refine blind_writeAny dates_list (fun _ _ => rfl) ?_
  rintro v ⟨⟩

theorem blind_sadd (members : List Bytes) : Blind fun slot => (sadd members slot).2 := by
  refine blind_writeAny dates_set
    (uniform_countLoop (K := Kind.set) (fun _ _ _ => rfl) members) ?_
  rintro v ⟨⟩
  exact countLoop_invariant (P := fun s : SetValue => s.expiresAt = none) (fun _ _ h => h) members rfl

theorem blind_srem (members : List Bytes) : Blind fun slot => (srem members slot).2 := by
  refine blind_writeAny dates_set (uniform_countLoop (fun _ _ _ => rfl) members) ?_
  rintro v ⟨⟩

theorem add_dated (e : Option Instant) (z : SortedSetValue) (p : F64 × Bytes) :
    (Kind.sortedSet.dated e z).add p.1 p.2 = Kind.sortedSet.dated e (z.add p.1 p.2) := rfl

theorem remove_dated (e : Option Instant) (z : SortedSetValue) (m : Bytes) :
    (Kind.sortedSet.dated e z).remove m = Kind.sortedSet.dated e (z.remove m) := by
  show SortedSetValue.remove { z with expiresAt := e } m
    = { z.remove m with expiresAt := e }
  unfold SortedSetValue.remove
  cases z.memberScores[m]? <;> rfl

theorem blind_zadd (members : List (F64 × Bytes)) : Blind fun slot => (zadd members slot).2 := by
  have hfold := foldl_dated (K := Kind.sortedSet) (f := fun z p => z.add p.1 p.2) add_dated members
  refine blind_writeAny dates_sortedSet ?_ ?_
  · intro e z
    simp only [hfold]
  · rintro v ⟨⟩
    exact foldl_invariant (P := fun z : SortedSetValue => z.expiresAt = none)
      (f := fun z (p : F64 × Bytes) => z.add p.1 p.2) (fun _ _ h => h) members rfl

theorem blind_zrem (members : List Bytes) : Blind fun slot => (zrem members slot).2 := by
  refine blind_writeAny dates_sortedSet (uniform_countLoop ?_ members) ?_
  · intro e z m
    rw [remove_dated]
    rfl
  · rintro v ⟨⟩

theorem blind_id : Blind fun slot => slot :=
  ⟨fun h => h, fun v => ⟨v, rfl, rfl⟩, fun _ h => by cases h⟩

theorem Blind.comp {f g : Slot → Slot} (hf : Blind f) (hg : Blind g) : Blind fun slot => g (f slot) where
  inStep h := hg.inStep (hf.inStep h)
  keeps v := by
    obtain ⟨v', hv', he⟩ := hf.keeps v
    obtain ⟨v'', hv'', he'⟩ := hg.keeps v'
    exact ⟨v'', by rw [hv', hv''], he'.trans he⟩
  fresh v hv := by
    cases hn : f none with
    | none =>
        rw [hn] at hv
        exact hg.fresh v hv
    | some w =>
        rw [hn] at hv
        obtain ⟨w', hw', he⟩ := hg.keeps w
        obtain rfl := Option.some_inj.mp (hw'.symm.trans hv)
        exact he.trans (hf.fresh w hn)

theorem blind_hmset (pairs : List (Bytes × Bytes)) : Blind fun slot => (hmsetLoop pairs slot).2 := by
  have hfold : Blind fun slot => pairs.foldl (fun slot p => (hset p.1 p.2 slot).2) slot := by
    induction pairs with
    | nil => exact blind_id
    | cons p pairs ih => exact (blind_hset p.1 p.2).comp ih
  simpa only [hmsetLoop_slot] using hfold

theorem matched_hsetNx (field value : Bytes) :
    Matched now now' (fun slot => (hsetNx now field value slot).2)
      fun slot => (hsetNx now' field value slot).2 := by
  refine matched_writeOrCreate dates_hash ?_ ?_
  · intro e h
    have hget : (Kind.hash.dated e h).getField field = h.getField field := rfl
    simp only [hget]
    split <;> rfl
  · rintro a t ⟨⟩
    rfl

theorem matched_hincrBy (field : Bytes) (delta : Int) :
    Matched now now' (fun slot => (hincrBy now field delta slot).2)
      fun slot => (hincrBy now' field delta slot).2 := by
  refine matched_writeOrCreate dates_hash ?_ ?_
  · intro e h
    have hget : (Kind.hash.dated e h).getField field = h.getField field := rfl
    -- the text of the current value, then the overflow test
    have hsplit : ∀ current : Int, Kind.hash.Uniform fun h : HashValue =>
        if wrapI64 (current + delta) = current + delta then
          ((.ok (current + delta) : Res Int), h.setField field (intText (current + delta)))
        else (.error (utf8 "ERR increment would overflow"), h) := by
      intro current e h
      dsimp only
      split <;> rfl
    simp only [hget]
    cases h.getField field with
    | none => exact hsplit 0 e h
    | some b =>
        dsimp only
        cases parseI64 b with
        | none => rfl
        | some current => exact hsplit current e h
  · rintro a t ⟨⟩
    rfl

theorem matched_ltrim (start stop : Int64) :
    Matched now now' (fun slot => (ltrim now start stop slot).2)
      fun slot => (ltrim now' start stop slot).2 := by
  refine matched_writeLive dates_list ?_
  intro e l
  have hitems : (Kind.list.dated e l).items = l.items := rfl
  simp only [hitems]
  split_ifs <;> rfl

theorem matched_zincrBy (delta : F64) (member : Bytes) :
    Matched now now' (fun slot => (zincrBy now delta member slot).2)
      fun slot => (zincrBy now' delta member slot).2 := by
  refine matched_writeOrCreate dates_sortedSet (fun _ _ => rfl) ?_
  rintro a t ⟨⟩
  rfl

theorem matched_xadd (env env' : Env) (id : StreamId) (fields : List (Bytes × Bytes)) :
    Matched env.now env'.now (fun slot => (xadd env (some id) fields slot).2)
      fun slot => (xadd env' (some id) fields slot).2 := by
  refine matched_writeOrCreate dates_stream ?_ ?_
  · intro e st
    show StreamValue.add (Kind.stream.dated e st) _ _ _ = _
    unfold StreamValue.add
    have hlast : (Kind.stream.dated e st).lastId = st.lastId := rfl
    simp only [hlast]
    split <;> rfl
  · intro a t hc
    have hnew : (StreamValue.new.add env.unixMs (some id) fields).2.expiresAt = none :=
      StreamValue.new.expiresAt_add env.unixMs id fields
    cases hr : (StreamValue.new.add env.unixMs (some id) fields).1 with
    | error e =>
        rw [hr] at hc
        cases hc
    | ok id' =>
        rw [hr] at hc
        cases hc
        exact hnew

/-- `lset` and `lrem` leave every list with its deadline, and nothing else changed. -/
theorem matched_lset (index : Int64) (value : Bytes) :
    Matched now now' (fun slot => (lset now index value slot).2)
      fun slot => (lset now' index value slot).2 := by
  let g : ListValue → Res Unit × ListValue := fun l =>
    let len : Int := l.items.length
    let real := if index.toInt < 0 then len + index.toInt else index.toInt
    if real < 0 ∨ len ≤ real then (.ok (), l)
    else (.ok (), { l with items := l.items.set real.toNat value })
  have hg : Kind.list.Uniform g := by
    intro e l
    have hitems : (Kind.list.dated e l).items = l.items := rfl
    simp only [g, hitems]
    split_ifs <;> rfl
  have heq : ∀ (now : Instant) (slot : Slot), Unexpired now slot →
      (lset now index value slot).2 = (writeAny Kind.list ((), none) g slot).2 := by
    intro now slot h
    cases slot with
    | none => rfl
    | some v =>
        cases v with
        | list l =>
            have hx : expiredAt now l.expiresAt = false := h _ rfl
            simp only [lset, hx, Bool.false_eq_true, if_false, writeAny, Kind.list, g]
            split_ifs <;> rfl
        | _ => rfl
  exact (blind_writeAny dates_list hg fun _ h => by cases h).matched (heq now) (heq now')

theorem matched_lrem (n : Int64) (value : Bytes) :
    Matched now now' (fun slot => (lrem now n value slot).2)
      fun slot => (lrem now' n value slot).2 := by
  let g : ListValue → Res Unit × ListValue := fun l =>
    if 0 ≤ n.toInt then
      (.ok (), { l with items :=
        (removeLoop (if n.toInt = 0 then usizeMax else n.toInt.toNat) value 0 l.items).1 })
    else
      (.ok (), { l with items :=
        (removeLoop (asUsize (wrapI64 (-n.toInt))) value 0 l.items.reverse).1.reverse })
  have hg : Kind.list.Uniform g := by
    intro e l
    have hitems : (Kind.list.dated e l).items = l.items := rfl
    simp only [g, hitems]
    split_ifs <;> rfl
  have heq : ∀ (now : Instant) (slot : Slot), Unexpired now slot →
      (lrem now n value slot).2 = (writeAny Kind.list ((), none) g slot).2 := by
    intro now slot h
    cases slot with
    | none => rfl
    | some v =>
        cases v with
        | list l =>
            have hx : expiredAt now l.expiresAt = false := h _ rfl
            simp only [lrem, hx, Bool.false_eq_true, if_false, writeAny, Kind.list, g]
            split_ifs <;> rfl
        | _ => rfl
  exact (blind_writeAny dates_list hg fun _ h => by cases h).matched (heq now) (heq now')

theorem matched_setNx (value : Bytes) :
    Matched now now' (fun slot => (setNx now value slot).2) fun slot => (setNx now' value slot).2 := by
  let g : Slot → Slot := fun slot => some (slot.getD (.string value none))
  have hg : Blind g := by
    refine ⟨?_, fun v => ⟨v, rfl, rfl⟩, ?_⟩
    · rintro a b (_ | h)
      · exact inStep_refl _
      · exact .some h
    · rintro v ⟨⟩
      rfl
  have heq : ∀ (now : Instant) (slot : Slot), Unexpired now slot → (setNx now value slot).2 = g slot := by
    intro now slot h
    cases slot with
    | none => rfl
    | some v =>
        simp only [setNx, h v rfl, Bool.false_eq_true, if_false]
        rfl
  exact hg.matched (heq now) (heq now')

theorem matched_getSet (value : Bytes) :
    Matched now now' (fun slot => (getSet now value slot).2) fun slot => (getSet now' value slot).2 := by
  have hnew : ∀ now, Unexpired now (some (.string value none)) := fun now =>
    unexpired_some.mpr rfl
  have hkeep : ∀ {now : Instant} {slot : Slot}, Unexpired now slot →
      (getSet now value slot).2 = some (.string value none) ∨ (getSet now value slot).2 = slot := by
    intro now slot h
    unfold getSet
    split
    · exact Or.inl rfl
    · split
      · exact Or.inl rfl
      · exact Or.inr rfl
    · exact Or.inl rfl
  have hlive : ∀ {now : Instant} {slot : Slot}, Unexpired now slot →
      Unexpired now (getSet now value slot).2 := by
    intro now slot h
    rcases hkeep h with he | he
    · rw [he]
      exact hnew now
    · rw [he]
      exact h
  refine ⟨?_, hlive, hlive⟩
  rintro a b (_ | @⟨v, w, ⟨e, rfl, he⟩⟩) ha hb
  · exact inStep_refl _
  · have hv := ha v rfl
    have hw := hb _ rfl
    cases v with
    | string x d => exact inStep_refl _
    | _ =>
        simp only [CacheValue.withExpiry] at hw ⊢
        simp only [getSet, hv, hw, Bool.false_eq_true, if_false]
        exact .some ⟨e, rfl, he⟩

theorem matched_persist :
    Matched now now' (fun slot => (persist now slot).2) fun slot => (persist now' slot).2 := by
  have heq : ∀ {now : Instant} {v : CacheValue}, v.isExpired now = false →
      (persist now (some v)).2 = some (v.withExpiry none) := by
    intro now v h
    simp only [persist, h, Bool.false_eq_true, if_false]
    cases he : v.expiresAt with
    | none =>
        have hsame : v.withExpiry none = v := by rw [← he, CacheValue.withExpiry_self]
        rw [hsame]
        rfl
    | some e => rfl
  have hlive : ∀ {now : Instant} {slot : Slot}, Unexpired now slot →
      Unexpired now (persist now slot).2 := by
    intro now slot h
    cases slot with
    | none => exact unexpired_none now
    | some v =>
        rw [heq (h v rfl)]
        exact unexpired_some.mpr
          (not_expired_of_noDeadline (CacheValue.expiresAt_withExpiry none v) now)
  refine ⟨?_, hlive, hlive⟩
  rintro a b (_ | @⟨v, w, h⟩) ha hb
  · exact .none
  · rw [heq (ha v rfl), heq (hb w rfl)]
    exact .some (alike_withExpiry h rfl)

/-! ## Pops -/

theorem popLoop_dated (pos : Bytes → Nat)
    (pick : List (F64 × Std.ExtTreeSet Bytes) → Option (F64 × Std.ExtTreeSet Bytes)) (n : Nat)
    (e : Option Instant) (z : SortedSetValue) :
    SortedSetValue.popLoop pos pick n (Kind.sortedSet.dated e z)
      = ((SortedSetValue.popLoop pos pick n z).1,
          Kind.sortedSet.dated e (SortedSetValue.popLoop pos pick n z).2) := by
  induction n generalizing z with
  | zero => rfl
  | succ n ih =>
      have hbuckets : (Kind.sortedSet.dated e z).membersByScore = z.membersByScore := rfl
      rw [SortedSetValue.popLoop, SortedSetValue.popLoop, hbuckets]
      cases pick z.membersByScore with
      | none => rfl
      | some b =>
          dsimp only
          cases iterate pos id b.2.toList with
          | nil => rfl
          | cons m ms =>
              dsimp only
              rw [remove_dated, ih]

theorem orderFree_dated
    {pick : List (F64 × Std.ExtTreeSet Bytes) → Option (F64 × Std.ExtTreeSet Bytes)} {n : Nat}
    {z : SortedSetValue} (h : OrderFree pick n z) (e : Option Instant) :
    OrderFree pick n (Kind.sortedSet.dated e z) := by
  intro pos pos'
  rw [popLoop_dated, popLoop_dated, h pos pos']

theorem matched_zpop (pos : Bytes → Nat)
    (pick : List (F64 × Std.ExtTreeSet Bytes) → Option (F64 × Std.ExtTreeSet Bytes)) (n : Nat) :
    Matched now now'
      (fun slot => (zpop now (fun z => if isizeMax < n * 40 then none
        else some (SortedSetValue.popLoop pos pick n z)) slot).2)
      fun slot => (zpop now' (fun z => if isizeMax < n * 40 then none
        else some (SortedSetValue.popLoop pos pick n z)) slot).2 := by
  refine matched_writeLive dates_sortedSet ?_
  intro e z
  by_cases hcap : isizeMax < n * 40
  · simp only [if_pos hcap]
  · simp only [if_neg hcap, popLoop_dated]

/-- An order-free pop leaves the same in every table order. -/
theorem zpop_pos {pick : List (F64 × Std.ExtTreeSet Bytes) → Option (F64 × Std.ExtTreeSet Bytes)}
    {n : Nat} (pos pos' : Bytes → Nat) {slot : Slot}
    (hfree : ∀ z, slot = some (.sortedSet z) → OrderFree pick n z) :
    (zpop now (fun z => if isizeMax < n * 40 then none
        else some (SortedSetValue.popLoop pos pick n z)) slot).2
      = (zpop now (fun z => if isizeMax < n * 40 then none
        else some (SortedSetValue.popLoop pos' pick n z)) slot).2 := by
  cases slot with
  | none => rfl
  | some v =>
      cases v with
      | sortedSet z =>
          simp only [zpop, writeLive, Kind.sortedSet]
          by_cases hcap : isizeMax < n * 40
          · simp only [if_pos hcap]
          · simp only [if_neg hcap, hfree z rfl pos pos']
            split <;> rfl
      | _ => rfl

/-- Whether a pop panics does not depend on the table order. -/
theorem zpop_panic_pos
    {pick : List (F64 × Std.ExtTreeSet Bytes) → Option (F64 × Std.ExtTreeSet Bytes)} {n : Nat}
    {pos : Bytes → Nat} (pos' : Bytes → Nat) {slot : Slot}
    (h : (zpop now (fun z => if isizeMax < n * 40 then none
      else some (SortedSetValue.popLoop pos pick n z)) slot).1 ≠ .ok none) :
    (zpop now (fun z => if isizeMax < n * 40 then none
      else some (SortedSetValue.popLoop pos' pick n z)) slot).1 ≠ .ok none := by
  by_cases hcap : isizeMax < n * 40
  · simp only [if_pos hcap] at h ⊢
    exact h
  · simp only [if_neg hcap] at h ⊢
    cases slot with
    | none => exact h
    | some v =>
        cases v with
        | sortedSet z =>
            simp only [zpop, writeLive, Kind.sortedSet]
            split <;> simp
        | _ => exact h

/-! ## Replies -/

/-- Off passed deadlines, alike slots get the same reply. -/
theorem writeLive_reply {τ α : Type} {K : Kind τ} (hK : K.Dates) {missing : α} {f : τ → Res α × τ}
    (hf : K.Uniform f) {a b : Slot} (hab : InStep a b) (ha : Unexpired now a) (hb : Unexpired now' b) :
    (writeLive K now missing f a).1 = (writeLive K now' missing f b).1 := by
  obtain _ | @⟨v, w, ⟨e, rfl, -⟩⟩ := hab
  · rfl
  · simp only [writeLive, ha v rfl, hb _ rfl, Bool.false_eq_true, if_false]
    cases hv : K.as v with
    | none => rw [hK.as_withExpiry_none hv]
    | some t =>
        rw [hK.as_withExpiry hv]
        dsimp only
        rw [hf e t]

end Slot

end FerricCache
