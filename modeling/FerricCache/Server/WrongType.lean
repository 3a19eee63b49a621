import FerricCache.Server.ReplyTexts
import FerricCache.Storage.Algebra

/-!
# `FerricCache.Server.WrongType` — which values a command refuses

A command on values of one type should refuse a live value of another type, and nothing else. Its operations tell
what to refuse in four ways (`TypeTest`), according to where they look at the deadline and what their last `match`
arm catches. `examined` lists the keys a command gets to look at, in order, with the test each is put to;
`refuses_iff` says that the reply is `WRONGTYPE` exactly when one of them fails its test, and
`wrongType_exact_iff` compares that with what should be refused.
-/

namespace FerricCache

open Reply

/-! ## Types and tests -/

/-- The variants of `CacheValue`. -/
inductive ValueType
  | string
  | hash
  | list
  | set
  | sortedSet
  | stream
  deriving DecidableEq

def CacheValue.valueType : CacheValue → ValueType
  | .string _ _ => .string
  | .hash _ => .hash
  | .list _ => .list
  | .set _ => .set
  | .sortedSet _ => .sortedSet
  | .stream _ => .stream

/-- The kind reads exactly the values of this type. -/
def Kind.Reads {τ : Type} (K : Kind τ) (ty : ValueType) : Prop := ∀ v, K.as v = none ↔ v.valueType ≠ ty

theorem reads_string : Kind.string.Reads .string := by
  intro v
  cases v <;> simp [Kind.string, CacheValue.valueType]

theorem reads_hash : Kind.hash.Reads .hash := by
  intro v
  cases v <;> simp [Kind.hash, CacheValue.valueType]

theorem reads_list : Kind.list.Reads .list := by
  intro v
  cases v <;> simp [Kind.list, CacheValue.valueType]

theorem reads_set : Kind.set.Reads .set := by
  intro v
  cases v <;> simp [Kind.set, CacheValue.valueType]

theorem reads_sortedSet : Kind.sortedSet.Reads .sortedSet := by
  intro v
  cases v <;> simp [Kind.sortedSet, CacheValue.valueType]

theorem reads_stream : Kind.stream.Reads .stream := by
  intro v
  cases v <;> simp [Kind.stream, CacheValue.valueType]

/-- How an operation tells what to refuse. -/
inductive TypeTest
  | never           -- another type is taken for nothing
  | other           -- another type, expired or not
  | otherOrExpired  -- another type, or an expired value of any
  | liveOther       -- another type, unless it is expired

/-- What the test refuses. -/
def TypeTest.Refuses (ty : ValueType) (now : Instant) (v : CacheValue) : TypeTest → Prop
  | .never => False
  | .other => v.valueType ≠ ty
  | .otherOrExpired => v.valueType ≠ ty ∨ v.isExpired now = true
  | .liveOther => v.valueType ≠ ty ∧ v.isExpired now = false

/-- What it refuses and should not, or should refuse and does not. -/
def TypeTest.Mistakes (ty : ValueType) (now : Instant) (v : CacheValue) : TypeTest → Prop
  | .never => v.valueType ≠ ty ∧ v.isExpired now = false
  | .other => v.valueType ≠ ty ∧ v.isExpired now = true
  | .otherOrExpired => v.isExpired now = true
  | .liveOther => False

/-- A test that is not mistaken refuses a live value of another type. -/
theorem TypeTest.refuses_iff_of_not_mistakes {ty : ValueType} {now : Instant} {v : CacheValue} {test : TypeTest}
    (h : ¬ test.Mistakes ty now v) : test.Refuses ty now v ↔ v.valueType ≠ ty ∧ v.isExpired now = false := by
  cases test with
  | never => exact ⟨False.elim, h⟩
  | other =>
      refine ⟨fun hother => ⟨hother, ?_⟩, fun hlive => hlive.1⟩
      by_contra hx
      exact h ⟨hother, Bool.eq_true_of_not_eq_false hx⟩
  | otherOrExpired =>
      refine ⟨fun hany => ⟨hany.resolve_right h, Bool.eq_false_iff.mpr h⟩, fun hlive => Or.inl hlive.1⟩
  | liveOther => exact Iff.rfl

/-- A test is mistaken on what it refuses and is not live of another type, and conversely. -/
theorem TypeTest.mistakes_cases {ty : ValueType} {now : Instant} {v : CacheValue} {test : TypeTest}
    (h : test.Mistakes ty now v) :
    (test = .never ∧ v.valueType ≠ ty ∧ v.isExpired now = false) ∨
      (test.Refuses ty now v ∧ v.isExpired now = true) := by
  cases test with
  | never => exact Or.inl ⟨rfl, h⟩
  | other => exact Or.inr h
  | otherOrExpired => exact Or.inr ⟨Or.inr h, h⟩
  | liveOther => exact h.elim

theorem TypeTest.refuses_of_live {ty : ValueType} {now : Instant} {v : CacheValue} {test : TypeTest}
    (htest : test ≠ .never) (hty : v.valueType ≠ ty) (hlive : v.isExpired now = false) :
    test.Refuses ty now v := by
  cases test with
  | never => exact absurd rfl htest
  | other => exact hty
  | otherOrExpired => exact Or.inl hty
  | liveOther => exact ⟨hty, hlive⟩

/-! ## What the shapes refuse -/

/-- The operation answers `WRONGTYPE` exactly to what the test refuses. -/
def RefusesBy {α : Type} (test : TypeTest) (ty : ValueType) (now : Instant) (op : Slot → Res α) : Prop :=
  ∀ slot, op slot = .error wrongType ↔ ∃ v, slot = some v ∧ test.Refuses ty now v

section Shapes

variable {τ α : Type} {K : Kind τ} {ty : ValueType} {now : Instant}

theorem refusesBy_never {op : Slot → Res α} (h : ∀ slot, op slot ≠ .error wrongType) :
    RefusesBy .never ty now op := by
  intro slot
  refine ⟨fun he => absurd he (h slot), ?_⟩
  rintro ⟨v, -, hv⟩
  exact hv.elim

/-- An operation that is fine on a missing key and refuses by a test on a value. -/
theorem refusesBy_of_value {test : TypeTest} {op : Slot → Res α} (hnone : op none ≠ .error wrongType)
    (hsome : ∀ v, op (some v) = .error wrongType ↔ test.Refuses ty now v) : RefusesBy test ty now op := by
  intro slot
  cases slot with
  | none =>
      refine ⟨fun he => absurd he hnone, ?_⟩
      rintro ⟨v, hv, -⟩
      cases hv
  | some v =>
      rw [hsome v]
      refine ⟨fun hv => ⟨v, rfl, hv⟩, ?_⟩
      rintro ⟨w, hw, hv⟩
      cases hw
      exact hv

variable (hK : K.Reads ty)

include hK

theorem refusesBy_readAs (missing : α) (f : τ → α) : RefusesBy .other ty now (Slot.readAs K now missing f) := by
  refine refusesBy_of_value (fun h => by cases h) fun v => ?_
  rw [TypeTest.Refuses, ← hK v, Slot.readAs]
  cases K.as v with
  | none => simp
  | some t => simp

theorem refusesBy_readLive (missing : α) (f : τ → α) :
    RefusesBy .otherOrExpired ty now (Slot.readLive K now missing f) := by
  refine refusesBy_of_value (fun h => by cases h) fun v => ?_
  rw [TypeTest.Refuses, ← hK v, Slot.readLive]
  cases K.as v with
  | none => simp
  | some t => cases hx : v.isExpired now <;> simp

variable {f : τ → Res α × τ} (hf : ∀ t, (f t).1 ≠ .error wrongType)

include hf

theorem refusesBy_writeAny (missing : α × Slot) :
    RefusesBy .other ty now fun slot => (Slot.writeAny K missing f slot).1 := by
  refine refusesBy_of_value (fun h => by cases h) fun v => ?_
  rw [TypeTest.Refuses, ← hK v, Slot.writeAny]
  cases K.as v with
  | none => simp
  | some t => simp [hf t]

theorem refusesBy_writeLive (missing : α) :
    RefusesBy .otherOrExpired ty now fun slot => (Slot.writeLive K now missing f slot).1 := by
  refine refusesBy_of_value (fun h => by cases h) fun v => ?_
  rw [TypeTest.Refuses, ← hK v, Slot.writeLive]
  cases K.as v with
  | none => simp
  | some t => cases hx : v.isExpired now <;> simp [hf t]

theorem refusesBy_writeOrCreate {create : Res (α × τ)} (hcreate : create ≠ .error wrongType) :
    RefusesBy .other ty now fun slot => (Slot.writeOrCreate K now create f slot).1 := by
  have hinsert : ∀ slot, (Slot.insertNew K create slot).1 ≠ .error wrongType := by
    intro slot
    cases create with
    | ok p => exact fun h => by cases h
    | error e => simpa [Slot.insertNew] using hcreate
  refine refusesBy_of_value (hinsert none) fun v => ?_
  rw [TypeTest.Refuses, ← hK v, Slot.writeOrCreate]
  cases K.as v with
  | none => simp
  | some t => cases hx : v.isExpired now <;> simp [hf t, hinsert]

end Shapes

/-! ## Operations with a body or errors of their own -/

section Operations

variable {ty : ValueType} {now : Instant}

theorem error_ne_wrongType {α : Type} {e : Bytes} (h : e ≠ wrongType) : (.error e : Res α) ≠ .error wrongType := by
  intro he
  cases he
  exact h rfl

theorem ok_ne_wrongType {α : Type} (a : α) : (.ok a : Res α) ≠ .error wrongType := by
  intro he
  cases he

theorem notAnInteger_ne_wrongType : notAnInteger ≠ wrongType := by decide

theorem refusesBy_bump (delta : Int) : RefusesBy .other .string now fun slot => (Slot.bump delta slot).1 := by
  refine refusesBy_writeAny reads_string (fun p => ?_) _
  cases parseI64 p.1 with
  | some n => exact ok_ne_wrongType _
  | none => exact error_ne_wrongType notAnInteger_ne_wrongType

theorem refusesBy_incrBy (delta : Int) : RefusesBy .other .string now fun slot => (Slot.incrBy delta slot).1 := by
  refine refusesBy_writeAny reads_string (fun p => ?_) _
  cases parseI64 p.1 with
  | none => exact error_ne_wrongType notAnInteger_ne_wrongType
  | some n =>
      simp only
      split
      · exact ok_ne_wrongType _
      · exact error_ne_wrongType (by decide)

theorem refusesBy_incrByFloat (delta : F64) :
    RefusesBy .other .string now fun slot => (Slot.incrByFloat delta slot).1 := by
  refine refusesBy_writeAny reads_string (fun p => ?_) _
  cases F64.parse p.1 with
  | none => exact error_ne_wrongType (by decide)
  | some x =>
      simp only
      split
      · exact ok_ne_wrongType _
      · exact error_ne_wrongType (by decide)

theorem refusesBy_strlen : RefusesBy .other .string now Slot.strlen := by
  refine refusesBy_of_value (ok_ne_wrongType _) fun v => ?_
  cases v <;> simp [Slot.strlen, TypeTest.Refuses, CacheValue.valueType]

theorem refusesBy_getSet (value : Bytes) :
    RefusesBy .liveOther .string now fun slot => (Slot.getSet now value slot).1 := by
  refine refusesBy_of_value (ok_ne_wrongType _) fun v => ?_
  cases v with
  | string b e => simp [Slot.getSet, TypeTest.Refuses, CacheValue.valueType]
  | hash _ | list _ | set _ | sortedSet _ | stream _ =>
      simp only [Slot.getSet, TypeTest.Refuses, CacheValue.valueType]
      split <;> simp [*]

theorem refusesBy_hincrBy (field : Bytes) (delta : Int) :
    RefusesBy .other .hash now fun slot => (Slot.hincrBy now field delta slot).1 := by
  refine refusesBy_writeOrCreate reads_hash (fun h => ?_) (ok_ne_wrongType _)
  simp only
  split
  · split
    · exact ok_ne_wrongType _
    · exact error_ne_wrongType (by decide)
  · exact error_ne_wrongType notAnInteger_ne_wrongType

theorem refusesBy_hsetNx (field value : Bytes) :
    RefusesBy .other .hash now fun slot => (Slot.hsetNx now field value slot).1 := by
  refine refusesBy_writeOrCreate reads_hash (fun h => ?_) (ok_ne_wrongType _)
  split <;> exact ok_ne_wrongType _

theorem refusesBy_lset (index : Int64) (value : Bytes) :
    RefusesBy .other .list now fun slot => (Slot.lset now index value slot).1 := by
  have hmissing : Slot.noSuchKey ≠ wrongType := by decide
  have hrange : utf8 "ERR index out of range" ≠ wrongType := by decide
  refine refusesBy_of_value (error_ne_wrongType hmissing) fun v => ?_
  cases v with
  | list l =>
      simp only [TypeTest.Refuses, CacheValue.valueType, ne_eq, not_true_eq_false, iff_false]
      rw [Slot.lset]
      split
      · exact error_ne_wrongType hmissing
      · simp only
        generalize (if index.toInt < 0 then _ else _ : Int) = real
        split
        · exact error_ne_wrongType hrange
        · exact ok_ne_wrongType _
  | string _ _ | hash _ | set _ | sortedSet _ | stream _ =>
      simp [Slot.lset, TypeTest.Refuses, CacheValue.valueType]

theorem refusesBy_lrem (n : Int64) (value : Bytes) :
    RefusesBy .never ty now fun slot => (Slot.lrem now n value slot).1 := by
  refine refusesBy_never fun slot => ?_
  unfold Slot.lrem
  split
  · split
    · exact ok_ne_wrongType _
    · split <;> exact ok_ne_wrongType _
  · exact ok_ne_wrongType _

theorem refusesBy_ltrim (start stop : Int64) :
    RefusesBy .otherOrExpired .list now fun slot => (Slot.ltrim now start stop slot).1 := by
  refine refusesBy_writeLive reads_list (fun l => ?_) _
  simp only
  split
  · exact ok_ne_wrongType _
  · split <;> exact ok_ne_wrongType _

theorem refusesBy_spop (env : Env) (pos : Bytes → Nat) (n : Nat) :
    RefusesBy .otherOrExpired .set env.now fun slot => (Slot.spop env pos n slot).1 := by
  refine refusesBy_writeLive reads_set (fun t => ?_) _
  split <;> exact ok_ne_wrongType _

theorem refusesBy_zrevrange (pos : Bytes → Nat) (start stop : Int64) (withScores : Bool) :
    RefusesBy .other .sortedSet now (Slot.zrevrange now pos start stop withScores) := by
  intro slot
  rw [← refusesBy_readAs reads_sortedSet _ _ slot]
  show _ ↔ Slot.zrange now pos 0 (-1) withScores slot = .error wrongType
  unfold Slot.zrevrange
  cases Slot.zrange now pos 0 (-1) withScores slot with
  | ok all => simp
  | error e => simp

theorem refusesBy_zpop (pop : SortedSetValue → Option (List (Bytes × F64) × SortedSetValue)) :
    RefusesBy .otherOrExpired .sortedSet now fun slot => (Slot.zpop now pop slot).1 := by
  refine refusesBy_writeLive reads_sortedSet (fun z => ?_) _
  split <;> exact ok_ne_wrongType _

theorem add_ne_wrongType (s : StreamValue) (nowMs : UInt64) (requested : Option StreamId)
    (fields : List (Bytes × Bytes)) : (s.add nowMs requested fields).1 ≠ .error wrongType := by
  cases requested with
  | none => exact ok_ne_wrongType _
  | some id =>
      rw [StreamValue.add]
      split
      · exact error_ne_wrongType (by decide)
      · exact ok_ne_wrongType _

theorem refusesBy_xadd (env : Env) (requested : Option StreamId) (fields : List (Bytes × Bytes)) :
    RefusesBy .other .stream env.now fun slot => (Slot.xadd env requested fields slot).1 := by
  refine refusesBy_writeOrCreate reads_stream (fun s => add_ne_wrongType s _ _ _) ?_
  have hnew := add_ne_wrongType StreamValue.new env.unixMs requested fields
  cases hx : (StreamValue.new.add env.unixMs requested fields).1 with
  | ok id => exact ok_ne_wrongType _
  | error e =>
      rw [hx] at hnew
      exact error_ne_wrongType fun he => hnew (congrArg _ he)

theorem invalid_ne_wrongType (text : Bytes) : StreamId.invalid text ≠ wrongType := by
  intro h
  have hfirst : (StreamId.invalid text).head? = some 105 := by
    rw [StreamId.invalid, List.head?_append_of_ne_nil _ (by decide)]
    decide
  rw [h] at hfirst
  revert hfirst
  decide

theorem parse_ne_wrongType (text : Bytes) (isUpper : Bool) : StreamId.parse text isUpper ≠ .error wrongType := by
  intro h
  exact invalid_ne_wrongType text (parse_error h).symm

end Operations

/-! ## The keys a command examines -/

/-- The type of the values a command works on. Commands that overwrite or remove whatever a key holds (`SET`,
    `SETEX`, `MSET`, `DEL`) and those that work on any value have none. -/
def Command.valueType : Command → Option ValueType
  | .get _ | .incr _ | .decr _ | .append _ _ | .strlen _ | .setNx _ _ | .getSet _ _ | .mget _ | .getRange _ _ _
  | .incrBy _ _ | .decrBy _ _ | .incrByFloat _ _ => some .string
  | .hget _ _ | .hset _ _ _ | .hdel _ _ | .hgetall _ | .hkeys _ | .hvals _ | .hlen _ | .hexists _ _ | .hmget _ _
  | .hmset _ _ | .hsetNx _ _ _ | .hincrBy _ _ _ => some .hash
  | .lpush _ _ | .rpush _ _ | .lpop _ | .rpop _ | .lrange _ _ _ | .llen _ | .lindex _ _ | .lset _ _ _ | .lrem _ _ _
  | .ltrim _ _ _ | .rpoplpush _ _ => some .list
  | .sadd _ _ | .srem _ _ | .smembers _ | .sismember _ _ | .scard _ | .sinter _ | .sunion _ | .sdiff _ | .spop _ _
  | .srandMember _ _ | .smove _ _ _ => some .set
  | .zadd _ _ | .zrem _ _ | .zrange _ _ _ _ | .zrank _ _ | .zscore _ _ | .zcard _ | .zcount _ _ _ | .zincrBy _ _ _
  | .zrangeByScore _ _ _ _ | .zrevrange _ _ _ _ | .zpopMin _ _ | .zpopMax _ _ => some .sortedSet
  | .xadd _ _ _ | .xlen _ | .xrange _ _ _ _ | .xread _ _ _ => some .stream
  | _ => none

/-- The test a command puts its keys to. The destination of a move is put to another, see `examined`. -/
def Command.typeTest : Command → TypeTest
  | .get _ | .getRange _ _ _ | .mget _ | .setNx _ _ | .hget _ _ | .hmget _ _ | .lrem _ _ _ => .never
  | .ltrim _ _ _ | .spop _ _ | .srandMember _ _ | .zrangeByScore _ _ _ _ | .zpopMin _ _ | .zpopMax _ _ | .xlen _
  | .xrange _ _ _ _ | .xread _ _ _ | .rpoplpush _ _ | .smove _ _ _ => .otherOrExpired
  | .getSet _ _ => .liveOther
  | _ => .other

/-- A key a command looks at, and the test it puts it to. -/
structure Look where
  key : Bytes
  test : TypeTest

/-- The slot holds a live value of the type. -/
def Slot.holdsLive (ty : ValueType) (now : Instant) (slot : Slot) : Bool :=
  slot.any fun v => v.valueType = ty && !v.isExpired now

/-- The slot holds a value of another type. -/
def Slot.holdsOther (ty : ValueType) (slot : Slot) : Bool := slot.any fun v => v.valueType ≠ ty

/-- The keys up to the first at which a loop stops, with it. -/
def upTo (stops : Bytes → Bool) : List Bytes → List Bytes
  | [] => []
  | key :: keys => if stops key then [key] else key :: upTo stops keys

variable [KeyHash]

/-- The keys the `XREAD` loop gets to: it stops at a refused id before looking at its key. -/
def xreadKeys (now : Instant) (s : CacheStorage) : List (Bytes × Bytes) → List Bytes
  | [] => []
  | (key, id) :: rest =>
      match StreamId.parse id false with
      | .error _ => []
      | .ok _ =>
          if (s.slotAt key).isSome && !(s.slotAt key).holdsLive .stream now then [key]
          else key :: xreadKeys now s rest

/-- The source of a move has the element to move. -/
def hasElement (now : Instant) (s : CacheStorage) : Command → Bool
  | .rpoplpush source _ => (s.live now source).any fun v => match v with | .list l => l.items ≠ [] | _ => false
  | .smove source _ member => (s.live now source).any fun v => match v with | .set t => t.contains member | _ => false
  | _ => false

/-- The keys a command examines, in order. -/
def examined (now : Instant) (s : CacheStorage) (c : Command) : List Look :=
  match c with
  | .mget keys => keys.map (⟨·, .never⟩)
  | .sinter keys => (upTo (fun k => !(s.slotAt k).holdsLive .set now) keys).map (⟨·, .other⟩)
  | .sunion keys => (upTo (fun k => (s.slotAt k).holdsOther .set) keys).map (⟨·, .other⟩)
  | .sdiff keys =>
      match keys with
      | [] => []
      | first :: rest =>
          (first :: if (s.slotAt first).holdsLive .set now then upTo (fun k => (s.slotAt k).holdsOther .set) rest
            else []).map (⟨·, .other⟩)
  | .rpoplpush source destination | .smove source destination _ =>
      ⟨source, c.typeTest⟩ :: if hasElement now s c then [⟨destination, .other⟩] else []
  | .xread _ keys ids =>
      if keys.length ≠ ids.length then [] else (xreadKeys now s (keys.zip ids)).map (⟨·, .otherOrExpired⟩)
  | .hmset _ [] | .hmget _ [] => []
  | c => if (refusedId now s c).isSome then [] else (commandKey c).toList.map (⟨·, c.typeTest⟩)

/-- The reply of the dispatch is the `WRONGTYPE` error. -/
def RepliesWrongType (env : Env) (c : Command) (s : CacheStorage) : Prop :=
  (dispatch env c s).map Prod.fst = some (some (.error wrongType))

/-- Some examined key fails its test. -/
def SomeRefused (ty : ValueType) (now : Instant) (s : CacheStorage) (looks : List Look) : Prop :=
  ∃ l ∈ looks, ∃ v, s.slotAt l.key = some v ∧ l.test.Refuses ty now v

/-- Some examined key is live and holds a value of another type. -/
def SomeLiveOther (ty : ValueType) (now : Instant) (s : CacheStorage) (looks : List Look) : Prop :=
  ∃ l ∈ looks, ∃ v, s.live now l.key = some v ∧ v.valueType ≠ ty

/-! ## Several keys -/

section Several

variable {now : Instant} {s : CacheStorage} {ty : ValueType}

omit [KeyHash] in
theorem holdsOther_iff {slot : Slot} : slot.holdsOther ty = true ↔ ∃ v, slot = some v ∧ v.valueType ≠ ty := by
  simp [Slot.holdsOther, Option.any_eq_true]

omit [KeyHash] in
theorem holdsLive_iff {slot : Slot} :
    slot.holdsLive ty now = true ↔ ∃ v, slot = some v ∧ v.valueType = ty ∧ v.isExpired now = false := by
  simp [Slot.holdsLive, Option.any_eq_true]

omit [KeyHash] in
theorem not_holdsOther_of_holdsLive {slot : Slot} (h : slot.holdsLive ty now = true) : slot.holdsOther ty = false := by
  obtain ⟨v, rfl, hv, -⟩ := holdsLive_iff.mp h
  simp [Slot.holdsOther, hv]

/-- A loop that stops at a refused key refuses no two keys. -/
theorem upTo_refused {stops : Bytes → Bool} (hstops : ∀ k, (s.slotAt k).holdsOther ty = true → stops k = true)
    {keys : List Bytes} {k k' : Bytes} (hk : k ∈ upTo stops keys) (hk' : k' ∈ upTo stops keys)
    (h : (s.slotAt k).holdsOther ty = true) (h' : (s.slotAt k').holdsOther ty = true) : k = k' := by
  induction keys with
  | nil => cases hk
  | cons key keys ih =>
      rw [upTo] at hk hk'
      split at hk
      · rw [if_pos ‹_›] at hk'
        rw [List.mem_singleton.mp hk, List.mem_singleton.mp hk']
      · rename_i hgoes
        rw [if_neg hgoes] at hk'
        rcases List.mem_cons.mp hk with rfl | hk
        · exact absurd (hstops k h) hgoes
        · rcases List.mem_cons.mp hk' with rfl | hk'
          · exact absurd (hstops k' h') hgoes
          · exact ih hk hk'

theorem holdsOther_set_iff {key : Bytes} : (s.slotAt key).holdsOther .set = true ↔ s.NotASet key := by
  rw [holdsOther_iff]
  refine exists_congr fun v => and_congr_right fun _ => ?_
  cases v <;> simp [CacheValue.valueType]

theorem holdsLive_set_iff {key : Bytes} :
    (s.slotAt key).holdsLive .set now = true ↔ ∃ t, s.live now key = some (.set t) := by
  rw [holdsLive_iff]
  constructor
  · rintro ⟨v, hv, hty, hx⟩
    cases v with
    | set t => exact ⟨t, Slot.live_eq_some.mpr ⟨hv, hx⟩⟩
    | string _ _ | hash _ | list _ | sortedSet _ | stream _ => cases hty
  · rintro ⟨t, ht⟩
    obtain ⟨hv, hx⟩ := Slot.live_eq_some.mp ht
    exact ⟨.set t, hv, rfl, hx⟩

/-- What a snapshot of a key says, by the tests of the key. -/
theorem snapshotSet_tests (now : Instant) (s : CacheStorage) (key : Bytes) :
    ((s.slotAt key).holdsOther .set = true ∧ (s.slotAt key).holdsLive .set now = false ∧
      s.snapshotSet now key = .error wrongType) ∨
    ((s.slotAt key).holdsOther .set = false ∧ (s.slotAt key).holdsLive .set now = false ∧
      s.snapshotSet now key = .ok none) ∨
    ((s.slotAt key).holdsOther .set = false ∧ (s.slotAt key).holdsLive .set now = true ∧
      ∃ t, s.snapshotSet now key = .ok (some t)) := by
  have hother : ¬ s.NotASet key → (s.slotAt key).holdsOther .set = false := fun h =>
    Bool.eq_false_iff.mpr fun ho => h (holdsOther_set_iff.mp ho)
  rcases CacheStorage.snapshotSet_cases now s key with ⟨ho, hread⟩ | ⟨ho, hl, hread⟩ | ⟨t, ho, ht, hread⟩
  · refine Or.inl ⟨holdsOther_set_iff.mpr ho, Bool.eq_false_iff.mpr fun hl => ?_, hread⟩
    exact Bool.false_ne_true ((not_holdsOther_of_holdsLive hl).symm.trans (holdsOther_set_iff.mpr ho))
  · refine Or.inr (Or.inl ⟨hother ho, Bool.eq_false_iff.mpr fun hlive => ?_, hread⟩)
    obtain ⟨t, ht⟩ := holdsLive_set_iff.mp hlive
    exact hl t ht
  · exact Or.inr (Or.inr ⟨hother ho, holdsLive_set_iff.mpr ⟨t, ht⟩, t, hread⟩)

theorem sinterLoop_refuses (keys : List Bytes) (result : Option SetValue) :
    CacheStorage.sinterLoop (s.snapshotSet now) result keys = .error wrongType
      ↔ ∃ k ∈ upTo (fun k => !(s.slotAt k).holdsLive .set now) keys, (s.slotAt k).holdsOther .set = true := by
  induction keys generalizing result with
  | nil => simp [CacheStorage.sinterLoop, upTo]
  | cons key keys ih =>
      rw [CacheStorage.sinterLoop, upTo]
      rcases snapshotSet_tests now s key with ⟨ho, hl, hread⟩ | ⟨ho, hl, hread⟩ | ⟨ho, hl, t, hread⟩
      · simp [hread, hl, ho]
      · simp [hread, hl, ho]
      · cases result <;> simp [hread, hl, ho, ih]

theorem setLoop_refuses (combine : SetValue → SetValue → SetValue) (keys : List Bytes) (result : SetValue) :
    CacheStorage.setLoop (s.snapshotSet now) combine result keys = .error wrongType
      ↔ ∃ k ∈ upTo (fun k => (s.slotAt k).holdsOther .set) keys, (s.slotAt k).holdsOther .set = true := by
  induction keys generalizing result with
  | nil => simp [CacheStorage.setLoop, upTo]
  | cons key keys ih =>
      rw [CacheStorage.setLoop, upTo]
      rcases snapshotSet_tests now s key with ⟨ho, -, hread⟩ | ⟨ho, -, hread⟩ | ⟨ho, -, t, hread⟩
      · simp [hread, ho]
      · simp [hread, ho, ih]
      · simp [hread, ho, ih]

omit [KeyHash] in
/-- `xread` fails on another type and on an expired stream. -/
theorem xread_cases (now : Instant) (cursor : StreamId) (limit : Option Nat) (slot : Slot) :
    ((slot.isSome && !slot.holdsLive .stream now) = true ∧ Slot.xread now cursor limit slot = .error wrongType ∧
      ∃ v, slot = some v ∧ TypeTest.otherOrExpired.Refuses .stream now v) ∨
    ((slot.isSome && !slot.holdsLive .stream now) = false ∧
      (∃ entries, Slot.xread now cursor limit slot = .ok entries) ∧
      ¬ ∃ v, slot = some v ∧ TypeTest.otherOrExpired.Refuses .stream now v) := by
  cases slot with
  | none => exact Or.inr ⟨rfl, ⟨[], rfl⟩, by simp⟩
  | some v =>
      cases v with
      | stream t =>
          cases hx : (CacheValue.stream t).isExpired now with
          | true => exact Or.inl (by simp [Slot.holdsLive, CacheValue.valueType, hx, Slot.xread, Slot.readLive,
              Kind.stream, TypeTest.Refuses])
          | false => exact Or.inr (by simp [Slot.holdsLive, CacheValue.valueType, hx, Slot.xread, Slot.readLive,
              Kind.stream, TypeTest.Refuses])
      | string _ _ | hash _ | list _ | set _ | sortedSet _ =>
          exact Or.inl (by simp [Slot.holdsLive, CacheValue.valueType, Slot.xread, Slot.readLive, Kind.stream,
            TypeTest.Refuses])

theorem xreadLoop_refuses (count : Option UInt64) (pairs : List (Bytes × Bytes))
    (perStream : List (Bytes × List (StreamId × List (Bytes × Bytes)))) :
    xreadLoop now count s perStream pairs = .error wrongType
      ↔ ∃ k ∈ xreadKeys now s pairs, ∃ v, s.slotAt k = some v ∧ TypeTest.otherOrExpired.Refuses .stream now v := by
  induction pairs generalizing perStream with
  | nil =>
      rw [xreadLoop]
      split <;> simp [nullArray, xreadKeys]
  | cons p pairs ih =>
      obtain ⟨key, id⟩ := p
      rw [xreadLoop, xreadKeys]
      cases hp : StreamId.parse id false with
      | error e =>
          have hne : e ≠ wrongType := fun he => parse_ne_wrongType id false (he ▸ hp)
          simp [hne]
      | ok cursor =>
          rcases xread_cases now cursor (count.map UInt64.toNat) (s.slotAt key) with
            ⟨hstop, hread, hv⟩ | ⟨hgoes, ⟨entries, hread⟩, hv⟩
          · simp only [hread, hstop, if_true, List.mem_singleton, exists_eq_left, hv]
          · simp only [hread, hgoes, Bool.false_eq_true, if_false, List.exists_mem_cons_iff, hv, false_or]
            split
            · exact ih _
            · exact ih _

/-- The `XREAD` loop stops at a refused key. -/
theorem xreadKeys_refused {pairs : List (Bytes × Bytes)} {k k' : Bytes} (hk : k ∈ xreadKeys now s pairs)
    (hk' : k' ∈ xreadKeys now s pairs)
    (h : ∃ v, s.slotAt k = some v ∧ TypeTest.otherOrExpired.Refuses .stream now v)
    (h' : ∃ v, s.slotAt k' = some v ∧ TypeTest.otherOrExpired.Refuses .stream now v) : k = k' := by
  induction pairs with
  | nil => cases hk
  | cons p pairs ih =>
      obtain ⟨key, id⟩ := p
      rw [xreadKeys] at hk hk'
      cases hp : StreamId.parse id false with
      | error e =>
          rw [hp] at hk
          cases hk
      | ok cursor =>
          rw [hp] at hk hk'
          simp only at hk hk'
          rcases xread_cases now cursor none (s.slotAt key) with ⟨hstop, -, -⟩ | ⟨hgoes, -, hv⟩
          · rw [if_pos hstop] at hk hk'
            rw [List.mem_singleton.mp hk, List.mem_singleton.mp hk']
          · rw [hgoes, if_neg Bool.false_ne_true] at hk hk'
            rcases List.mem_cons.mp hk with rfl | hk
            · exact absurd h hv
            · rcases List.mem_cons.mp hk' with rfl | hk'
              · exact absurd h' hv
              · exact ih hk hk'

/-- A move refuses its source, or, with something taken from it, its destination. -/
theorem move_refuses_iff {τ α β : Type} {K : Kind τ} (hK : K.Reads ty) (missing : α) (take : τ → α × τ)
    (moved : α → Option β) (fresh : τ) (put : β → τ → τ) (source destination : Bytes)
    (hmissing : moved missing = none) :
    (s.move K now missing take moved fresh put source destination).1 = .error wrongType
      ↔ (∃ v, s.slotAt source = some v ∧ TypeTest.otherOrExpired.Refuses ty now v) ∨
        (Takes K now take moved source s ∧
          ∃ v, s.slotAt destination = some v ∧ TypeTest.other.Refuses ty now v) := by
  cases hentry : s.slotAt source with
  | none =>
      have hno : ¬ Takes K now take moved source s := by
        rintro ⟨t, b, ht, -⟩
        rw [(Slot.live_eq_some.mp ht).1] at hentry
        cases hentry
      rw [move_missing hentry hmissing]
      simp [hno]
  | some v =>
      by_cases hrefused : K.as v = none ∨ v.isExpired now = true
      · rw [move_refused hentry hrefused]
        rw [hK v] at hrefused
        exact iff_of_true rfl (Or.inl ⟨v, rfl, hrefused⟩)
      · push Not at hrefused
        obtain ⟨hk, hx⟩ := hrefused
        obtain ⟨t, ht⟩ := Option.ne_none_iff_exists'.mp hk
        have hlive : s.live now source = some (K.of t) := by
          rw [K.of_as ht]
          exact Slot.live_eq_some.mpr ⟨hentry, Bool.eq_false_iff.mpr hx⟩
        have hsource : ¬ ∃ w, some v = some w ∧ TypeTest.otherOrExpired.Refuses ty now w := by
          rintro ⟨w, hw, hbad⟩
          cases hw
          rcases hbad with hty | hexp
          · exact hk ((hK v).mpr hty)
          · exact hx hexp
        have htakes : Takes K now take moved source s ↔ ∃ b, moved (take t).1 = some b := by
          constructor
          · rintro ⟨u, b, hu, hb⟩
            rw [hlive] at hu
            rw [Kind.of_inj (Option.some.inj hu)]
            exact ⟨b, hb⟩
          · rintro ⟨b, hb⟩
            exact ⟨t, b, hlive, hb⟩
        rw [move_live _ _ _ _ _ _ hlive, or_iff_right hsource, htakes]
        cases hb : moved (take t).1 with
        | none => simp
        | some b =>
            simp only [CacheStorage.onKey, Option.some.injEq, exists_eq', true_and]
            obtain ⟨x, hslot, hkind, hput⟩ | ⟨hfits, u, hput⟩ := putInto_cases (K := K) now fresh (put b)
              ((s.setEntry source (some (K.of (take t).2))).slotAt destination)
            · -- the destination is not the source, which holds the kind's own value now
              rw [hput]
              refine iff_of_true rfl ?_
              rw [CacheStorage.slotAt_setEntry] at hslot
              split at hslot
              · cases hslot
                rw [K.as_of] at hkind
                cases hkind
              · exact ⟨x, hslot, (hK x).mp hkind⟩
            · rw [hput]
              refine iff_of_false (fun h => by cases h) ?_
              rintro ⟨x, hslot, hbad⟩
              by_cases hsame : destination = source
              · rw [hsame, hentry] at hslot
                cases hslot
                exact hk ((hK v).mpr hbad)
              · refine hfits x ?_ ((hK x).mpr hbad)
                rw [CacheStorage.slotAt_setEntry_ne hsame]
                exact hslot

end Several

/-! ## Every command -/

section Commands

variable {env : Env} {c : Command} {s : CacheStorage} {ty : ValueType} {key : Bytes}

theorem repliesWrongType_slot {f : Slot → Option Response × Slot} (h : arm env c = some (.slot key f)) :
    RepliesWrongType env c s ↔ (f (s.slotAt key)).1 = some (.error wrongType) := by
  rw [RepliesWrongType, dispatch, h, Option.map_some, Option.map_some, Option.some_inj]
  rfl

theorem repliesWrongType_store {f : CacheStorage → Option Response × CacheStorage} (h : arm env c = some (.store f)) :
    RepliesWrongType env c s ↔ (f s).1 = some (.error wrongType) := by
  rw [RepliesWrongType, dispatch, h, Option.map_some, Option.map_some, Option.some_inj]
  rfl

omit [KeyHash] in
theorem orError_wrongType_iff {α : Type} {g : α → Response} (hg : ∀ a e, g a ≠ .error e) (x : Res α) :
    orError g x = some (.error wrongType) ↔ x = .error wrongType := by
  cases x with
  | ok a => simp [orError, hg a]
  | error e => simp [orError]

omit [KeyHash] in
theorem orPanic_wrongType_iff {α : Type} {g : α → Response} (hg : ∀ a e, g a ≠ .error e) (x : Res (Option α)) :
    orPanic g x = some (.error wrongType) ↔ x = .error wrongType := by
  rcases x with e | (_ | a)
  · simp [orPanic]
  · simp [orPanic]
  · simp [orPanic, hg a]

/-- A command on one key, whose arm refuses by the command's test. -/
theorem refuses_single {test : TypeTest} {f : Slot → Option Response × Slot} (h : arm env c = some (.slot key f))
    (hex : examined env.now s c = [⟨key, test⟩])
    (hf : ∀ slot, (f slot).1 = some (.error wrongType) ↔ ∃ v, slot = some v ∧ test.Refuses ty env.now v) :
    RepliesWrongType env c s ↔ SomeRefused ty env.now s (examined env.now s c) := by
  rw [repliesWrongType_slot h, hf, hex]
  simp [SomeRefused]

section Single

variable {test : TypeTest} {α : Type} {g : α → Response} (hg : ∀ a e, g a ≠ .error e)

include hg

theorem refuses_readError {f : Slot → Res α} (hf : RefusesBy test ty env.now f)
    (h : arm env c = some (.read key fun slot => orError g (f slot))) (hex : examined env.now s c = [⟨key, test⟩]) :
    RepliesWrongType env c s ↔ SomeRefused ty env.now s (examined env.now s c) :=
  refuses_single h hex fun slot => (orError_wrongType_iff hg _).trans (hf slot)

theorem refuses_readPanic {f : Slot → Res (Option α)} (hf : RefusesBy test ty env.now f)
    (h : arm env c = some (.read key fun slot => orPanic g (f slot))) (hex : examined env.now s c = [⟨key, test⟩]) :
    RepliesWrongType env c s ↔ SomeRefused ty env.now s (examined env.now s c) :=
  refuses_single h hex fun slot => (orPanic_wrongType_iff hg _).trans (hf slot)

theorem refuses_writeError {op : Slot → Res α × Slot} (hop : RefusesBy test ty env.now fun slot => (op slot).1)
    (h : arm env c = some (.write key op (orError g))) (hex : examined env.now s c = [⟨key, test⟩]) :
    RepliesWrongType env c s ↔ SomeRefused ty env.now s (examined env.now s c) :=
  refuses_single h hex fun slot => (orError_wrongType_iff hg _).trans (hop slot)

theorem refuses_writePanic {op : Slot → Res (Option α) × Slot}
    (hop : RefusesBy test ty env.now fun slot => (op slot).1)
    (h : arm env c = some (.write key op (orPanic g))) (hex : examined env.now s c = [⟨key, test⟩]) :
    RepliesWrongType env c s ↔ SomeRefused ty env.now s (examined env.now s c) :=
  refuses_single h hex fun slot => (orPanic_wrongType_iff hg _).trans (hop slot)

end Single

/-- A command that never replies with the error, and tests nothing. -/
theorem refuses_never (hreply : ¬ RepliesWrongType env c s)
    (hlooks : ∀ l ∈ examined env.now s c, l.test = .never) :
    RepliesWrongType env c s ↔ SomeRefused ty env.now s (examined env.now s c) := by
  refine iff_of_false hreply ?_
  rintro ⟨l, hl, v, -, hv⟩
  rw [hlooks l hl] at hv
  exact hv

omit [KeyHash] in
/-- Once it holds a hash, the `HMSET` loop runs through. -/
theorem hmsetLoop_hash (pairs : List (Bytes × Bytes)) (h : HashValue) :
    (hmsetLoop pairs (some (.hash h))).1 = some .ok := by
  induction pairs generalizing h with
  | nil => rfl
  | cons p pairs ih => exact ih _

omit [KeyHash] in
/-- The `HMSET` loop refuses at its first pair or not at all. -/
theorem hmsetLoop_refuses (now : Instant) (p : Bytes × Bytes) (pairs : List (Bytes × Bytes)) (slot : Slot) :
    (hmsetLoop (p :: pairs) slot).1 = some (.error wrongType)
      ↔ ∃ v, slot = some v ∧ TypeTest.other.Refuses .hash now v := by
  cases slot with
  | none =>
      have hfresh : (hmsetLoop (p :: pairs) none).1 = some .ok := hmsetLoop_hash pairs _
      simp [hfresh]
  | some v =>
      cases v with
      | hash h =>
          have hruns : (hmsetLoop (p :: pairs) (some (.hash h))).1 = some .ok := hmsetLoop_hash pairs _
          simp [hruns, TypeTest.Refuses, CacheValue.valueType]
      | string _ _ | list _ | set _ | sortedSet _ | stream _ =>
          refine iff_of_true rfl ⟨_, rfl, ?_⟩
          simp [TypeTest.Refuses, CacheValue.valueType]

theorem refuses_hmset (pairs : List (Bytes × Bytes)) :
    RepliesWrongType env (.hmset key pairs) s
      ↔ SomeRefused .hash env.now s (examined env.now s (.hmset key pairs)) := by
  cases pairs with
  | nil =>
      rw [repliesWrongType_slot rfl]
      simp [hmsetLoop, examined, SomeRefused]
  | cons p pairs => exact refuses_single rfl rfl (hmsetLoop_refuses env.now p pairs)

theorem refuses_xadd (id : Option Bytes) (fields : List (Bytes × Bytes)) :
    RepliesWrongType env (.xadd key id fields) s
      ↔ SomeRefused .stream env.now s (examined env.now s (.xadd key id fields)) := by
  have hvalue : ∀ (a : StreamId) e, Response.value a.toText ≠ .error e := fun _ _ h => by cases h
  cases id with
  | none =>
      exact refuses_single rfl rfl fun slot => (orError_wrongType_iff hvalue _).trans (refusesBy_xadd env _ _ slot)
  | some text =>
      cases hp : StreamId.parse text false with
      | ok id =>
          refine refuses_single rfl (by simp [examined, refusedId, hp, commandKey, Command.typeTest]; rfl)
            fun slot => ?_
          simp only [xaddArm, hp]
          exact (orError_wrongType_iff hvalue _).trans (refusesBy_xadd env _ _ slot)
      | error e =>
          have hne : e ≠ wrongType := fun he => parse_ne_wrongType text false (he ▸ hp)
          rw [repliesWrongType_slot rfl]
          simp [xaddArm, hp, hne, examined, refusedId, SomeRefused]

theorem refuses_xrange (start stop : Bytes) (n : Option UInt64) :
    RepliesWrongType env (.xrange key start stop n) s
      ↔ SomeRefused .stream env.now s (examined env.now s (.xrange key start stop n)) := by
  have hraw : ∀ (l : List (StreamId × List (Bytes × Bytes))) e, Response.raw (formatXentries l) ≠ .error e :=
    fun _ _ h => by cases h
  cases hlo : StreamId.parse start false with
  | error e =>
      have hne : e ≠ wrongType := fun he => parse_ne_wrongType start false (he ▸ hlo)
      rw [repliesWrongType_slot rfl]
      simp [xrangeArm, hlo, hne, examined, refusedId, SomeRefused]
  | ok lo =>
      cases hhi : StreamId.parse stop true with
      | error e =>
          have hne : e ≠ wrongType := fun he => parse_ne_wrongType stop true (he ▸ hhi)
          rw [repliesWrongType_slot rfl]
          simp [xrangeArm, hlo, hhi, hne, examined, refusedId, SomeRefused]
      | ok hi =>
          refine refuses_single rfl (by simp [examined, refusedId, hlo, hhi, commandKey, Command.typeTest]; rfl)
            fun slot => ?_
          simp only [xrangeArm, hlo, hhi]
          exact (orPanic_wrongType_iff hraw _).trans (refusesBy_readLive reads_stream _ _ slot)

theorem hasElement_eq_true_iff_list {now : Instant} {s : CacheStorage} {source destination : Bytes} :
    hasElement now s (.rpoplpush source destination) = true
      ↔ Takes Kind.list now ListValue.popRight id source s := by
  rw [takes_list_iff, hasElement, Option.any_eq_true]
  constructor
  · rintro ⟨v, hv, hl⟩
    cases v with
    | list l => exact ⟨l, hv, by simpa using hl⟩
    | _ => cases hl
  · rintro ⟨l, hl, hne⟩
    exact ⟨.list l, hl, by simpa using hne⟩

theorem hasElement_eq_true_iff_set {now : Instant} {s : CacheStorage} {source destination member : Bytes} :
    hasElement now s (.smove source destination member) = true
      ↔ Takes Kind.set now (fun t => (t.contains member, t.remove member))
          (fun removed => if removed then some () else none) source s := by
  rw [takes_set_iff, hasElement, Option.any_eq_true]
  constructor
  · rintro ⟨v, hv, hl⟩
    cases v with
    | set t => exact ⟨t, hv, hl⟩
    | _ => cases hl
  · rintro ⟨t, ht, hmem⟩
    exact ⟨.set t, ht, hmem⟩

/-- The looks of a move, given whether there is an element to move. -/
theorem someRefused_move {source destination : Bytes} {now : Instant} {gives : Bool} :
    SomeRefused ty now s (⟨source, .otherOrExpired⟩ :: if gives then [⟨destination, .other⟩] else [])
      ↔ (∃ v, s.slotAt source = some v ∧ TypeTest.otherOrExpired.Refuses ty now v) ∨
        (gives = true ∧ ∃ v, s.slotAt destination = some v ∧ TypeTest.other.Refuses ty now v) := by
  cases gives <;> simp [SomeRefused]

theorem someRefused_keys {keys : List Bytes} {now : Instant} {test : TypeTest} :
    SomeRefused ty now s (keys.map (⟨·, test⟩))
      ↔ ∃ k ∈ keys, ∃ v, s.slotAt k = some v ∧ test.Refuses ty now v := by
  simp [SomeRefused]

theorem someRefused_other {keys : List Bytes} {now : Instant} :
    SomeRefused ty now s (keys.map (⟨·, .other⟩)) ↔ ∃ k ∈ keys, (s.slotAt k).holdsOther ty = true := by
  rw [someRefused_keys]
  simp only [holdsOther_iff]
  rfl

theorem refuses_sdiff (keys : List Bytes) :
    RepliesWrongType env (.sdiff keys) s ↔ SomeRefused .set env.now s (examined env.now s (.sdiff keys)) := by
  rw [repliesWrongType_store rfl, orError_wrongType_iff (fun _ _ h => by cases h)]
  cases keys with
  | nil => simp [CacheStorage.sdiff, examined, SomeRefused]
  | cons first rest =>
      rw [CacheStorage.sdiff, examined, someRefused_other]
      rcases snapshotSet_tests env.now s first with ⟨ho, hl, hread⟩ | ⟨ho, hl, hread⟩ | ⟨ho, hl, t, hread⟩
      · simp [hread, hl, ho]
      · simp [hread, hl, ho]
      · have hloop : CacheStorage.setLoop (s.snapshotSet env.now)
              (fun result u => CacheStorage.setOf (result.difference u)) t rest = .error wrongType ↔ _ :=
          setLoop_refuses _ rest t
        simp only [hread, hl, if_true, List.exists_mem_cons_iff, ho, Bool.false_eq_true, false_or]
        rw [← hloop]
        cases CacheStorage.setLoop (s.snapshotSet env.now) (fun result u => CacheStorage.setOf (result.difference u)) t
          rest with
        | ok u => simp
        | error e => simp

/-- **The reply is `WRONGTYPE` exactly when an examined key fails its test.** -/
theorem refuses_iff (hty : c.valueType = some ty) :
    RepliesWrongType env c s ↔ SomeRefused ty env.now s (examined env.now s c) := by
  have hint : ∀ n e, Response.integer n ≠ .error e := fun _ _ h => by cases h
  have harray : ∀ l e, Response.array l ≠ .error e := fun _ _ h => by cases h
  have hvalue : ∀ b e, Response.value b ≠ .error e := fun _ _ h => by cases h
  have hok : ∀ e, Response.ok ≠ .error e := fun _ h => by cases h
  -- by the kind of arm: one that tests nothing, one typed key, several keys
  cases c with
  | get _ | getRange _ _ _ | setNx _ _ =>
      cases hty
      refine refuses_never ?_ fun l hl => by rw [List.mem_singleton.mp hl]; rfl
      rw [repliesWrongType_slot rfl]
      exact fun h =>
        absurd (Option.some.inj h) (by first | exact valueOr_ne_error _ _ | exact hvalue _ _ | exact hint _ _)
  | hget _ _ =>
      cases hty
      refine refuses_never ?_ fun l hl => by rw [List.mem_singleton.mp hl]; rfl
      rw [repliesWrongType_slot rfl]
      exact fun h => valueOr_ne_error _ _ (Option.some.inj h)
  | hmget key fields =>
      cases hty
      refine refuses_never ?_ fun l hl => ?_
      · rw [repliesWrongType_slot rfl]
        exact fun h => harray _ _ (Option.some.inj h)
      · cases fields with
        | nil => cases hl
        | cons _ _ => rw [List.mem_singleton.mp hl]; rfl
  | mget keys =>
      cases hty
      refine refuses_never ?_ fun l hl => ?_
      · rw [repliesWrongType_store rfl]
        exact fun h => harray _ _ (Option.some.inj h)
      · obtain ⟨k, -, rfl⟩ := List.mem_map.mp hl
        rfl
  | incr _ | decr _ => cases hty; exact refuses_writeError hint (refusesBy_bump _) rfl rfl
  | incrBy _ _ | decrBy _ _ => cases hty; exact refuses_writeError hint (refusesBy_incrBy _) rfl rfl
  | incrByFloat _ _ => cases hty; exact refuses_writeError (fun _ => hvalue _) (refusesBy_incrByFloat _) rfl rfl
  | append _ _ =>
      cases hty
      exact refuses_writeError count_ne_error (refusesBy_writeAny reads_string (fun _ => ok_ne_wrongType _) _) rfl rfl
  | strlen _ => cases hty; exact refuses_readError count_ne_error refusesBy_strlen rfl rfl
  | getSet _ _ => cases hty; exact refuses_writeError valueOr_ne_error (refusesBy_getSet _) rfl rfl
  | hset _ _ _ =>
      cases hty
      exact refuses_writeError (fun _ => hint _) (refusesBy_writeAny reads_hash (fun _ => ok_ne_wrongType _) _) rfl rfl
  | hdel _ _ =>
      cases hty
      exact refuses_writeError count_ne_error (refusesBy_writeAny reads_hash (fun _ => ok_ne_wrongType _) _) rfl rfl
  | hgetall _ | hkeys _ | hvals _ =>
      cases hty
      exact refuses_readError (fun _ => harray _) (refusesBy_readAs reads_hash _ _) rfl rfl
  | hlen _ => cases hty; exact refuses_readError count_ne_error (refusesBy_readAs reads_hash _ _) rfl rfl
  | hexists _ _ => cases hty; exact refuses_readError flag_ne_error (refusesBy_readAs reads_hash _ _) rfl rfl
  | hmset _ _ => cases hty; exact refuses_hmset _
  | hsetNx _ _ _ => cases hty; exact refuses_writeError flag_ne_error (refusesBy_hsetNx _ _) rfl rfl
  | hincrBy _ _ _ => cases hty; exact refuses_writeError hint (refusesBy_hincrBy _ _) rfl rfl
  | lpush _ _ | rpush _ _ =>
      cases hty
      exact refuses_writeError count_ne_error (refusesBy_writeAny reads_list (fun _ => ok_ne_wrongType _) _) rfl rfl
  | lpop _ | rpop _ =>
      cases hty
      exact refuses_writeError valueOr_ne_error (refusesBy_writeAny reads_list (fun _ => ok_ne_wrongType _) _) rfl rfl
  | lrange _ _ _ => cases hty; exact refuses_readError harray (refusesBy_readAs reads_list _ _) rfl rfl
  | llen _ => cases hty; exact refuses_readError count_ne_error (refusesBy_readAs reads_list _ _) rfl rfl
  | lindex _ _ => cases hty; exact refuses_readError valueOr_ne_error (refusesBy_readAs reads_list _ _) rfl rfl
  | lset _ _ _ => cases hty; exact refuses_writeError (fun _ => hok) (refusesBy_lset _ _) rfl rfl
  | lrem _ _ _ => cases hty; exact refuses_writeError count_ne_error (refusesBy_lrem _ _) rfl rfl
  | ltrim _ _ _ => cases hty; exact refuses_writePanic (fun _ => hok) (refusesBy_ltrim _ _) rfl rfl
  | rpoplpush source destination =>
      cases hty
      rw [repliesWrongType_store rfl, orError_wrongType_iff valueOr_ne_error]
      refine (move_refuses_iff reads_list _ _ _ _ _ source destination rfl).trans ?_
      rw [← hasElement_eq_true_iff_list]
      exact someRefused_move.symm
  | sadd _ _ | srem _ _ =>
      cases hty
      exact refuses_writeError count_ne_error (refusesBy_writeAny reads_set (fun _ => ok_ne_wrongType _) _) rfl rfl
  | smembers _ => cases hty; exact refuses_readError harray (refusesBy_readAs reads_set _ _) rfl rfl
  | sismember _ _ => cases hty; exact refuses_readError flag_ne_error (refusesBy_readAs reads_set _ _) rfl rfl
  | scard _ => cases hty; exact refuses_readError count_ne_error (refusesBy_readAs reads_set _ _) rfl rfl
  | sinter keys =>
      cases hty
      rw [repliesWrongType_store rfl, orError_wrongType_iff harray, examined, someRefused_other,
        ← sinterLoop_refuses keys none, CacheStorage.sinter]
      cases CacheStorage.sinterLoop (s.snapshotSet env.now) none keys <;> simp
  | sunion keys =>
      cases hty
      rw [repliesWrongType_store rfl, orError_wrongType_iff harray, examined, someRefused_other,
        ← setLoop_refuses (fun result t => (t.getAll (env.iterPos none)).foldl SetValue.add result) keys SetValue.new,
        CacheStorage.sunion]
      cases CacheStorage.setLoop (s.snapshotSet env.now)
        (fun result t => (t.getAll (env.iterPos none)).foldl SetValue.add result) SetValue.new keys <;> simp
  | sdiff keys => cases hty; exact refuses_sdiff keys
  | spop key n =>
      cases hty
      refine refuses_writePanic (fun l e => ?_) (refusesBy_spop env _ _) rfl rfl
      split
      · exact valueOr_ne_error _ _
      · exact harray _ _
  | srandMember key n =>
      cases hty
      refine refuses_readPanic (fun l e => ?_) (refusesBy_readLive reads_set _ _) rfl rfl
      split
      · exact valueOr_ne_error _ _
      · exact harray _ _
  | smove source destination member =>
      cases hty
      rw [repliesWrongType_store rfl, orError_wrongType_iff flag_ne_error]
      refine (move_refuses_iff reads_set _ _ _ _ _ source destination rfl).trans ?_
      rw [← hasElement_eq_true_iff_set]
      exact someRefused_move.symm
  | zadd _ _ | zrem _ _ =>
      cases hty
      exact refuses_writeError count_ne_error (refusesBy_writeAny reads_sortedSet (fun _ => ok_ne_wrongType _) _) rfl
        rfl
  | zrange _ _ _ _ => cases hty; exact refuses_readError scored_ne_error (refusesBy_readAs reads_sortedSet _ _) rfl rfl
  | zrank _ _ =>
      cases hty
      refine refuses_readError (fun r e => ?_) (refusesBy_readAs reads_sortedSet _ _) rfl rfl
      cases r with
      | none => exact fun h => by cases h
      | some n => exact count_ne_error n e
  | zscore _ _ =>
      cases hty
      exact refuses_readError (fun _ => valueOr_ne_error _) (refusesBy_readAs reads_sortedSet _ _) rfl rfl
  | zcard _ => cases hty; exact refuses_readError count_ne_error (refusesBy_readAs reads_sortedSet _ _) rfl rfl
  | zcount _ _ _ => cases hty; exact refuses_readPanic count_ne_error (refusesBy_readAs reads_sortedSet _ _) rfl rfl
  | zincrBy _ _ _ =>
      cases hty
      exact refuses_writeError (fun _ => hvalue _)
        (refusesBy_writeOrCreate reads_sortedSet (fun _ => ok_ne_wrongType _) (ok_ne_wrongType _)) rfl rfl
  | zrangeByScore _ _ _ _ =>
      cases hty
      exact refuses_readPanic scored_ne_error (refusesBy_readLive reads_sortedSet _ _) rfl rfl
  | zrevrange _ _ _ _ => cases hty; exact refuses_readPanic scored_ne_error (refusesBy_zrevrange _ _ _ _) rfl rfl
  | zpopMin _ _ | zpopMax _ _ =>
      cases hty
      exact refuses_writePanic (fun _ => scored_ne_error _) (refusesBy_zpop _) rfl rfl
  | xadd _ _ _ => cases hty; exact refuses_xadd _ _
  | xlen _ => cases hty; exact refuses_readError count_ne_error (refusesBy_readLive reads_stream _ _) rfl rfl
  | xrange _ _ _ _ => cases hty; exact refuses_xrange _ _ _
  | xread n keys ids =>
      cases hty
      rw [repliesWrongType_store rfl, Option.some_inj, xreadArm, examined]
      split
      · have htext : utf8 "ERR XREAD streams/ids length mismatch" ≠ wrongType := by decide
        simp [htext, SomeRefused]
      · rw [someRefused_keys]
        exact xreadLoop_refuses n (keys.zip ids) []
  | _ => cases hty

/-! ## What should be refused -/

/-- A command stops at the first key it refuses, and either all of its tests refuse nothing or none does. -/
structure Settled (ty : ValueType) (now : Instant) (s : CacheStorage) (looks : List Look) : Prop where
  once : ∀ l ∈ looks, ∀ l' ∈ looks, (∃ v, s.slotAt l.key = some v ∧ l.test.Refuses ty now v) →
    (∃ v, s.slotAt l'.key = some v ∧ l'.test.Refuses ty now v) → l.key = l'.key
  alike : (∀ l ∈ looks, l.test = .never) ∨ ∀ l ∈ looks, l.test ≠ .never

variable {now : Instant}

theorem settled_never {looks : List Look} (h : ∀ l ∈ looks, l.test = .never) : Settled ty now s looks where
  once l hl _ _ hr := by
    obtain ⟨v, -, hv⟩ := hr
    rw [h l hl] at hv
    exact hv.elim
  alike := Or.inl h

theorem settled_single (key : Bytes) (test : TypeTest) : Settled ty now s [⟨key, test⟩] where
  once l hl l' hl' _ _ := by rw [List.mem_singleton.mp hl, List.mem_singleton.mp hl']
  alike := by
    by_cases h : test = .never
    · exact Or.inl fun l hl => by rw [List.mem_singleton.mp hl]; exact h
    · exact Or.inr fun l hl => by rw [List.mem_singleton.mp hl]; exact h

theorem settled_nil : Settled ty now s [] := settled_never fun l hl => by cases hl

theorem settled_unless {p : Prop} [Decidable p] (key : Bytes) (test : TypeTest) :
    Settled ty now s (if p then [] else [⟨key, test⟩]) := by
  split
  · exact settled_nil
  · exact settled_single key test

theorem settled_keys {keys : List Bytes} {test : TypeTest} (htest : test ≠ .never)
    (h : ∀ k ∈ keys, ∀ k' ∈ keys, (∃ v, s.slotAt k = some v ∧ test.Refuses ty now v) →
      (∃ v, s.slotAt k' = some v ∧ test.Refuses ty now v) → k = k') : Settled ty now s (keys.map (⟨·, test⟩)) where
  once l hl l' hl' hr hr' := by
    obtain ⟨k, hk, rfl⟩ := List.mem_map.mp hl
    obtain ⟨k', hk', rfl⟩ := List.mem_map.mp hl'
    exact h k hk k' hk' hr hr'
  alike := Or.inr fun l hl => by
    obtain ⟨k, -, rfl⟩ := List.mem_map.mp hl
    exact htest

theorem settled_upTo {stops : Bytes → Bool} (hstops : ∀ k, (s.slotAt k).holdsOther ty = true → stops k = true)
    (keys : List Bytes) : Settled ty now s ((upTo stops keys).map (⟨·, .other⟩)) :=
  settled_keys (fun h => by cases h) fun _ hk _ hk' h h' =>
    upTo_refused hstops hk hk' (holdsOther_iff.mpr h) (holdsOther_iff.mpr h')

/-- The source of a move that has an element is not refused. -/
theorem settled_move {source destination : Bytes} {gives : Bool}
    (h : gives = true → ∃ v, s.live now source = some v ∧ v.valueType = ty) :
    Settled ty now s (⟨source, .otherOrExpired⟩ :: if gives then [⟨destination, .other⟩] else []) := by
  cases gives with
  | false => exact settled_single source _
  | true =>
      obtain ⟨w, hw, hty⟩ := h rfl
      obtain ⟨hentry, hlive⟩ := Slot.live_eq_some.mp hw
      have hsource : ¬ ∃ v, s.slotAt source = some v ∧ TypeTest.otherOrExpired.Refuses ty now v := by
        rintro ⟨v, hv, hbad⟩
        rw [hentry] at hv
        cases hv
        rcases hbad with hne | hx
        · exact hne hty
        · rw [hx] at hlive
          cases hlive
      have hall : ∀ l ∈ [Look.mk source .otherOrExpired, ⟨destination, .other⟩],
          (∃ v, s.slotAt l.key = some v ∧ l.test.Refuses ty now v) → l.key = destination := by
        intro l hl hr
        rcases List.mem_cons.mp hl with rfl | hl
        · exact absurd hr hsource
        · rw [List.mem_singleton.mp hl]
      refine ⟨fun l hl l' hl' hr hr' => (hall l hl hr).trans (hall l' hl' hr').symm, Or.inr fun l hl => ?_⟩
      rcases List.mem_cons.mp hl with rfl | hl
      · exact fun h => by cases h
      · rw [List.mem_singleton.mp hl]
        exact fun h => by cases h

theorem examined_settled (hty : c.valueType = some ty) : Settled ty now s (examined now s c) := by
  cases c with
  | mget keys =>
      refine settled_never fun l hl => ?_
      obtain ⟨k, -, rfl⟩ := List.mem_map.mp hl
      rfl
  | sinter keys =>
      cases hty
      refine settled_upTo (fun k hk => ?_) keys
      cases hl : (s.slotAt k).holdsLive .set now with
      | false => rfl
      | true =>
          rw [not_holdsOther_of_holdsLive hl] at hk
          cases hk
  | sunion keys => cases hty; exact settled_upTo (fun _ hk => hk) keys
  | sdiff keys =>
      cases hty
      cases keys with
      | nil => exact settled_nil
      | cons first rest =>
          rw [examined]
          cases hl : (s.slotAt first).holdsLive .set now with
          | false => exact settled_single first _
          | true =>
              -- a live set is not refused: the keys after it are as in `sunion`
              have hfirst := not_holdsOther_of_holdsLive hl
              have hrest : upTo (fun k => (s.slotAt k).holdsOther .set) (first :: rest)
                  = first :: upTo (fun k => (s.slotAt k).holdsOther .set) rest := by
                rw [upTo, hfirst]
                rfl
              rw [if_pos rfl, ← hrest]
              exact settled_upTo (fun _ hk => hk) (first :: rest)
  | rpoplpush source destination =>
      cases hty
      refine settled_move fun hgives => ?_
      obtain ⟨l, b, hl, -⟩ := hasElement_eq_true_iff_list.mp hgives
      exact ⟨_, hl, rfl⟩
  | smove source destination member =>
      cases hty
      refine settled_move fun hgives => ?_
      obtain ⟨t, b, ht, -⟩ := hasElement_eq_true_iff_set.mp hgives
      exact ⟨_, ht, rfl⟩
  | xread n keys ids =>
      cases hty
      rw [examined]
      split
      · exact settled_nil
      · exact settled_keys (fun h => by cases h) fun _ hk _ hk' h h' => xreadKeys_refused hk hk' h h'
  | hmset key pairs =>
      cases pairs with
      | nil => exact settled_nil
      | cons _ _ => exact settled_single key _
  | hmget key fields =>
      cases fields with
      | nil => exact settled_nil
      | cons _ _ => exact settled_single key _
  | xadd key id fields => exact settled_unless key _
  | xrange key start stop n => exact settled_unless key _
  | _ => first | cases hty; done | exact settled_single _ _

/-- **The reply is `WRONGTYPE` exactly when an examined key is live and of another type**, if and only if no
examined key holds a value its test is mistaken about. -/
theorem wrongType_exact_iff (env : Env) (c : Command) (s : CacheStorage) (ty : ValueType)
    (hty : c.valueType = some ty) :
    (RepliesWrongType env c s ↔ SomeLiveOther ty env.now s (examined env.now s c))
      ↔ ∀ l ∈ examined env.now s c, ∀ v, s.slotAt l.key = some v → ¬ l.test.Mistakes ty env.now v := by
  have hsettled : Settled ty env.now s (examined env.now s c) := examined_settled hty
  rw [refuses_iff hty]
  constructor
  · intro hexact l hl v hv hmistake
    rcases TypeTest.mistakes_cases hmistake with ⟨hnever, hother, hlive⟩ | ⟨hrefuses, hx⟩
    · -- a live value of another type, and nothing the command would refuse
      obtain ⟨l', hl', w, hw, hbad⟩ := hexact.mpr ⟨l, hl, v, Slot.live_eq_some.mpr ⟨hv, hlive⟩, hother⟩
      rcases hsettled.alike with hall | hnone
      · rw [hall l' hl'] at hbad
        exact hbad
      · exact hnone l hl hnever
    · -- an expired value is refused: the live one to blame would be at the same key
      obtain ⟨l', hl', w, hw, hother⟩ := hexact.mp ⟨l, hl, v, hv, hrefuses⟩
      obtain ⟨hentry, hlive⟩ := Slot.live_eq_some.mp hw
      have htest : l'.test ≠ .never := by
        rcases hsettled.alike with hall | hnone
        · rw [hall l hl] at hrefuses
          exact hrefuses.elim
        · exact hnone l' hl'
      have hkeys := hsettled.once l hl l' hl' ⟨v, hv, hrefuses⟩
        ⟨w, hentry, TypeTest.refuses_of_live htest hother hlive⟩
      rw [hkeys, hentry] at hv
      cases hv
      rw [hx] at hlive
      cases hlive
  · intro hfine
    constructor
    · rintro ⟨l, hl, v, hv, hrefuses⟩
      obtain ⟨hother, hlive⟩ := (TypeTest.refuses_iff_of_not_mistakes (hfine l hl v hv)).mp hrefuses
      exact ⟨l, hl, v, Slot.live_eq_some.mpr ⟨hv, hlive⟩, hother⟩
    · rintro ⟨l, hl, v, hv, hother⟩
      obtain ⟨hentry, hlive⟩ := Slot.live_eq_some.mp hv
      exact ⟨l, hl, v, hentry, (TypeTest.refuses_iff_of_not_mistakes (hfine l hl v hentry)).mpr ⟨hother, hlive⟩⟩

end Commands

/-- A list at `l`, and a stream at `x` whose deadline has passed at 5. -/
def listAndExpiredStream : CacheStorage :=
  (CacheStorage.new.setEntry (utf8 "l") (some (.list ⟨[utf8 "v"], none⟩))).setEntry (utf8 "x")
    (some (.stream { StreamValue.new with expiresAt := some 3 }))

omit [KeyHash] in
/-- `LLEN` of a stream that is still live. -/
theorem wrongType_exact_llen :
    letI := shortKeys
    RepliesWrongType (Env.reading 2) (.llen (utf8 "x")) listAndExpiredStream
      ↔ SomeLiveOther .list 2 listAndExpiredStream
          (examined 2 listAndExpiredStream (.llen (utf8 "x"))) := by
  let _ := shortKeys
  refine (wrongType_exact_iff (Env.reading 2) (.llen (utf8 "x")) listAndExpiredStream .list rfl).mpr ?_
  intro l hl v hv hmistake
  rw [List.mem_singleton.mp hl] at hv hmistake
  have hslot : listAndExpiredStream.slotAt (utf8 "x")
      = some (.stream { StreamValue.new with expiresAt := some 3 }) := CacheStorage.slotAt_setEntry_self _ _ _
  cases hslot.symm.trans hv
  exact absurd hmistake.2 (by decide)

omit [KeyHash] in
/-- `GET` of a live list replies nil, and `XLEN` of an expired stream replies `WRONGTYPE`. -/
theorem get_list_and_xlen_expired :
    letI := shortKeys
    ¬ (RepliesWrongType (Env.reading 5) (.get (utf8 "l")) listAndExpiredStream
        ↔ SomeLiveOther .string 5 listAndExpiredStream (examined 5 listAndExpiredStream (.get (utf8 "l")))) ∧
      ¬ (RepliesWrongType (Env.reading 5) (.xlen (utf8 "x")) listAndExpiredStream
        ↔ SomeLiveOther .stream 5 listAndExpiredStream (examined 5 listAndExpiredStream (.xlen (utf8 "x")))) := by
  let _ := shortKeys
  have hlist : listAndExpiredStream.slotAt (utf8 "l") = some (.list ⟨[utf8 "v"], none⟩) := by
    rw [listAndExpiredStream, CacheStorage.slotAt_setEntry_ne (by decide), CacheStorage.slotAt_setEntry_self]
  have hstream : listAndExpiredStream.slotAt (utf8 "x")
      = some (.stream { StreamValue.new with expiresAt := some 3 }) := CacheStorage.slotAt_setEntry_self _ _ _
  constructor
  · intro h
    have hlive : SomeLiveOther .string 5 listAndExpiredStream
        (examined 5 listAndExpiredStream (.get (utf8 "l"))) :=
      ⟨_, List.mem_singleton_self _, _, Slot.live_eq_some.mpr ⟨hlist, rfl⟩, by decide⟩
    have hreply := h.mpr hlive
    rw [repliesWrongType_slot rfl, hlist] at hreply
    cases hreply
  · intro h
    have hreply : RepliesWrongType (Env.reading 5) (.xlen (utf8 "x")) listAndExpiredStream := by
      rw [repliesWrongType_slot rfl, hstream]
      rfl
    obtain ⟨l, hl, v, hv, -⟩ := h.mp hreply
    obtain ⟨hentry, hx⟩ := Slot.live_eq_some.mp hv
    rw [List.mem_singleton.mp hl] at hentry
    cases hstream.symm.trans hentry
    exact absurd hx (by decide)

end FerricCache
