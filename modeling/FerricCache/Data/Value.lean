import FerricCache.Data.F64

/-!
# `FerricCache.Data.Value` — the six value types

`HashValue`, `ListValue`, `SetValue`, `SortedSetValue` and `StreamValue` with their methods, and the
`CacheValue` union. Hash tables are finite maps and sets with canonical contents; the order in which
the code iterates them is supplied by the environment (`iterate`). A `BTreeMap` is a list in key order.

Each method is a function of the value it mutates; a method that may fail returns the unchanged value
with its error.
-/

namespace FerricCache

open Lib

/-! ## Hashes -/

/-- `HashValue`. -/
structure HashValue where
  fields : Std.ExtTreeMap Bytes Bytes
  expiresAt : Option Instant
  deriving DecidableEq

namespace HashValue

def new : HashValue := ⟨∅, none⟩

def setField (h : HashValue) (field value : Bytes) : HashValue :=
  { h with fields := h.fields.insert field value }

def getField (h : HashValue) (field : Bytes) : Option Bytes := h.fields[field]?

def deleteField (h : HashValue) (field : Bytes) : HashValue :=
  { h with fields := h.fields.erase field }

/-- `get_all`: the fields in the table's iteration order. -/
def getAll (pos : Bytes → Nat) (h : HashValue) : List (Bytes × Bytes) :=
  iterate pos Prod.fst h.fields.toList

def len (h : HashValue) : Nat := h.fields.size

end HashValue

/-! ## Lists -/

/-- `ListValue`. -/
structure ListValue where
  items : List Bytes
  expiresAt : Option Instant
  deriving DecidableEq

namespace ListValue

def new : ListValue := ⟨[], none⟩

def pushLeft (l : ListValue) (v : Bytes) : ListValue := { l with items := v :: l.items }

def pushRight (l : ListValue) (v : Bytes) : ListValue := { l with items := l.items ++ [v] }

def popLeft (l : ListValue) : Option Bytes × ListValue :=
  (l.items.head?, { l with items := l.items.tail })

def popRight (l : ListValue) : Option Bytes × ListValue :=
  (l.items.getLast?, { l with items := l.items.dropLast })

/-- `get_range`: negative indices count from the end; `stop + 1` is an `i64` addition. -/
def getRange (l : ListValue) (start stop : Int64) : List Bytes :=
  let len : Int := l.items.length
  let startIdx : Nat :=
    if start.toInt < 0 then (max (len + start.toInt) 0).toNat
    else (max (min start.toInt (len - 1)) 0).toNat
  let stopIdx : Nat :=
    if stop.toInt < 0 then (max (len + stop.toInt + 1) 0).toNat
    else (max (min (wrapI64 (stop.toInt + 1)) len) 0).toNat
  if stopIdx ≤ startIdx then [] else (l.items.drop startIdx).take (stopIdx - startIdx)

def len (l : ListValue) : Nat := l.items.length

end ListValue

/-! ## Sets -/

/-- `SetValue`. -/
structure SetValue where
  members : Std.ExtTreeSet Bytes
  expiresAt : Option Instant
  deriving DecidableEq

namespace SetValue

def new : SetValue := ⟨∅, none⟩

def add (s : SetValue) (m : Bytes) : SetValue := { s with members := s.members.insert m }

def remove (s : SetValue) (m : Bytes) : SetValue := { s with members := s.members.erase m }

def contains (s : SetValue) (m : Bytes) : Bool := s.members.contains m

/-- `get_all`: the members in the table's iteration order. -/
def getAll (pos : Bytes → Nat) (s : SetValue) : List Bytes := iterate pos id s.members.toList

def intersection (s t : SetValue) : List Bytes := s.members.toList.filter t.contains

def difference (s t : SetValue) : List Bytes := s.members.toList.filter fun m => !t.contains m

def len (s : SetValue) : Nat := s.members.size

end SetValue

/-! ## Sorted sets -/

/-- `SortedSetValue`: members by score (a `BTreeMap<OrderedFloat, HashSet>`) and scores by member. -/
structure SortedSetValue where
  membersByScore : List (F64 × Std.ExtTreeSet Bytes)
  memberScores : Std.ExtTreeMap Bytes F64
  expiresAt : Option Instant
  deriving DecidableEq

namespace SortedSetValue

def new : SortedSetValue := ⟨[], ∅, none⟩

/-- Take `m` out of the bucket found at `score`, and drop the bucket once it is empty. -/
def dropFromBucket (buckets : List (F64 × Std.ExtTreeSet Bytes)) (score : F64) (m : Bytes) :
    List (F64 × Std.ExtTreeSet Bytes) :=
  match OrdList.find? F64.cmp score buckets with
  | some members =>
      if (members.erase m).isEmpty then OrdList.erase F64.cmp score buckets
      else OrdList.insert F64.cmp score (members.erase m) buckets
  | none => buckets

/-- `entry(score).or_insert_with(HashSet::new).insert(m)`. -/
def addToBucket (buckets : List (F64 × Std.ExtTreeSet Bytes)) (score : F64) (m : Bytes) :
    List (F64 × Std.ExtTreeSet Bytes) :=
  OrdList.insert F64.cmp score (((OrdList.find? F64.cmp score buckets).getD ∅).insert m) buckets

/-- `add`: move a known member out of its old bucket first. -/
def add (z : SortedSetValue) (score : F64) (m : Bytes) : SortedSetValue :=
  let buckets :=
    match z.memberScores[m]? with
    | some old => dropFromBucket z.membersByScore old m
    | none => z.membersByScore
  { z with
    memberScores := z.memberScores.insert m score
    membersByScore := addToBucket buckets score m }

/-- `remove`; the value returned by the source is `memberScores.contains m`. -/
def remove (z : SortedSetValue) (m : Bytes) : SortedSetValue :=
  match z.memberScores[m]? with
  | some score =>
      { z with
        memberScores := z.memberScores.erase m
        membersByScore := dropFromBucket z.membersByScore score m }
  | none => z

def getScore (z : SortedSetValue) (m : Bytes) : Option F64 := z.memberScores[m]?

/-- The nested loops over buckets and their members: every `(score, member)` in ascending order. -/
def listing (pos : Bytes → Nat) (z : SortedSetValue) : List (F64 × Bytes) :=
  z.membersByScore.flatMap fun b => (iterate pos id b.2.toList).map fun m => (b.1, m)

/-- The body of `get_range` over the listing, with its running `count`. -/
def rangeLoop (start stop : Nat) (withScores : Bool) :
    Nat → List (F64 × Bytes) → List (Bytes × Option F64)
  | _, [] => []
  | count, (score, m) :: rest =>
      let hit : List (Bytes × Option F64) :=
        if start ≤ count ∧ count ≤ stop then [(m, if withScores then some score else none)] else []
      if stop < count + 1 then hit else hit ++ rangeLoop start stop withScores (count + 1) rest

def getRange (pos : Bytes → Nat) (z : SortedSetValue) (start stop : Nat) (withScores : Bool) :
    List (Bytes × Option F64) := rangeLoop start stop withScores 0 (z.listing pos)

/-- `get_range_by_score`; `none` is `BTreeMap::range` panicking on `min > max`. -/
def getRangeByScore (pos : Bytes → Nat) (z : SortedSetValue) (min max : F64) (withScores : Bool) :
    Option (List (Bytes × Option F64)) :=
  if F64.cmp min max = .gt then none
  else some ((z.listing pos).filterMap fun p =>
    if F64.cmp p.1 min ≠ .lt ∧ F64.cmp p.1 max ≠ .gt then
      some (p.2, if withScores then some p.1 else none)
    else none)

/-- The rank loop of `get_rank` over the buckets, with the running `rank`. -/
def rankLoop (target : F64) (m : Bytes) : Nat → List (F64 × Std.ExtTreeSet Bytes) → Option Nat
  | _, [] => none
  | rank, (score, members) :: rest =>
      match F64.partialCmp score target with
      | some .lt => rankLoop target m (rank + members.size) rest
      | some .eq =>
          -- `sorted_members.sort()`: the canonical order of the set
          match members.toList.idxOf? m with
          | some i => some (rank + i)
          | none => rankLoop target m (rank + members.size) rest
      | _ => none

def getRank (z : SortedSetValue) (m : Bytes) : Option Nat :=
  match z.memberScores[m]? with
  | some target => rankLoop target m 0 z.membersByScore
  | none => none

/-- The loop of `pop_min` / `pop_max`; `pick` selects the first or the last bucket. -/
def popLoop (pos : Bytes → Nat)
    (pick : List (F64 × Std.ExtTreeSet Bytes) → Option (F64 × Std.ExtTreeSet Bytes)) :
    Nat → SortedSetValue → List (Bytes × F64) × SortedSetValue
  | 0, z => ([], z)
  | count + 1, z =>
      match pick z.membersByScore with
      | some (score, members) =>
          match iterate pos id members.toList with
          | m :: _ =>
              let r := popLoop pos pick count (z.remove m)
              ((m, score) :: r.1, r.2)
          | [] => ([], z)
      | none => ([], z)

/-- `Vec::<(Bytes, f64)>::with_capacity(count)` panics above `isize::MAX` bytes (40 per element). -/
def popMin (pos : Bytes → Nat) (z : SortedSetValue) (count : Nat) :
    Option (List (Bytes × F64) × SortedSetValue) :=
  if isizeMax < count * 40 then none else some (popLoop pos List.head? count z)

def popMax (pos : Bytes → Nat) (z : SortedSetValue) (count : Nat) :
    Option (List (Bytes × F64) × SortedSetValue) :=
  if isizeMax < count * 40 then none else some (popLoop pos List.getLast? count z)

def len (z : SortedSetValue) : Nat := z.memberScores.size

end SortedSetValue

/-! ## Streams -/

/-- `StreamId`: `(ms, seq)`, ordered lexicographically. -/
structure StreamId where
  ms : UInt64
  seq : UInt64
  deriving DecidableEq

namespace StreamId

instance : Ord StreamId := ⟨compareLex (compareOn StreamId.ms) (compareOn StreamId.seq)⟩

instance : Std.TransOrd StreamId :=
  inferInstanceAs (Std.TransCmp (compareLex (compareOn StreamId.ms) (compareOn StreamId.seq)))

theorem compare_eq_iff {a b : StreamId} : compare a b = .eq ↔ a = b := by
  show compareLex (compareOn StreamId.ms) (compareOn StreamId.seq) a b = .eq ↔ a = b
  obtain ⟨m, s⟩ := a
  obtain ⟨n, t⟩ := b
  simp [compareLex, compareOn, Ordering.then_eq_eq]

instance : Std.LawfulEqOrd StreamId := ⟨fun h => compare_eq_iff.mp h⟩

/-- `StreamId::MIN`. -/
def minId : StreamId := ⟨0, 0⟩

/-- `StreamId::MAX`. -/
def maxId : StreamId := ⟨UInt64.ofNat (2 ^ 64 - 1), UInt64.ofNat (2 ^ 64 - 1)⟩

/-- `<ms>-<seq>`. -/
def toText (id : StreamId) : Bytes := natText id.ms.toNat ++ 45 :: natText id.seq.toNat

/-- `format!("invalid stream id: {}", s)`. -/
def invalid (s : Bytes) : Bytes := utf8 "invalid stream id: " ++ s

/-- `StreamId::parse`. -/
def parse (s : Bytes) (isUpper : Bool) : Res StreamId :=
  if s = [45] then .ok minId
  else if s = [43] then .ok maxId
  else if s = [36] then .ok maxId
  else
    match Lib.Decimal.splitOnce 45 s with
    | some (msS, seqS) =>
        match parseU64 msS, parseU64 seqS with
        | some ms, some seq => .ok ⟨ms, seq⟩
        | _, _ => .error (invalid s)
    | none =>
        match parseU64 s with
        | some ms => .ok ⟨ms, if isUpper then UInt64.ofNat (2 ^ 64 - 1) else 0⟩
        | none => .error (invalid s)

/-- **The textual id of an entry parses back to the id**, as snapshot reconstruction relies on. -/
theorem parse_toText (id : StreamId) (isUpper : Bool) : parse id.toText isUpper = .ok id := by
  have hms : natText id.ms.toNat ≠ [] := Lib.Decimal.digits_ne_nil _
  have hseq : natText id.seq.toNat ≠ [] := Lib.Decimal.digits_ne_nil _
  have hlen : 2 < id.toText.length := by
    have h1 := List.length_pos_iff.mpr hms
    have h2 := List.length_pos_iff.mpr hseq
    simp only [toText, List.length_append, List.length_cons]
    omega
  have hne : ∀ b : UInt8, id.toText ≠ [b] := by
    intro b hb
    rw [hb] at hlen
    simp at hlen
  unfold parse
  rw [if_neg (hne 45), if_neg (hne 43), if_neg (hne 36)]
  have hdash : (45 : UInt8) ∉ natText id.ms.toNat :=
    Lib.Decimal.not_mem_digits (Or.inl (by decide))
  simp only [toText, Lib.Decimal.splitOnce_append hdash, parseU64_natText]

end StreamId

/-- `StreamValue`. -/
structure StreamValue where
  entries : Std.ExtTreeMap StreamId (List (Bytes × Bytes))
  lastId : StreamId
  expiresAt : Option Instant
  deriving DecidableEq

namespace StreamValue

def new : StreamValue := ⟨∅, StreamId.minId, none⟩

def len (s : StreamValue) : Nat := s.entries.size

/-- The refusal of an explicit id that does not exceed `last_id`. -/
def idTooSmall : Bytes :=
  utf8 "ERR The ID specified in XADD is equal or smaller than the target stream top item"

/-- The id an auto-generated entry takes; `seq + 1` wraps in the release build. -/
def autoId (s : StreamValue) (nowMs : UInt64) : StreamId :=
  if s.lastId.ms < nowMs then ⟨nowMs, 0⟩ else ⟨s.lastId.ms, s.lastId.seq + 1⟩

def push (s : StreamValue) (id : StreamId) (fields : List (Bytes × Bytes)) : StreamValue :=
  { s with entries := s.entries.insert id fields, lastId := id }

/-- `add`; `requested = none` is the auto id. -/
def add (s : StreamValue) (nowMs : UInt64) (requested : Option StreamId)
    (fields : List (Bytes × Bytes)) : Res StreamId × StreamValue :=
  match requested with
  | some id =>
      if (compare id s.lastId).isLE then (.error idTooSmall, s) else (.ok id, s.push id fields)
  | none => (.ok (s.autoId nowMs), s.push (s.autoId nowMs) fields)

/-- The `out.push(..); if out.len() >= n { break }` of the two readers: the limit is tested after
    pushing, so a limit of 0 still yields one entry. -/
def limited {α : Type} (limit : Option Nat) (l : List α) : List α :=
  match limit with
  | none => l
  | some n => l.take (max n 1)

/-- `range`; `none` is `BTreeMap::range` panicking on `start > end`. -/
def range (s : StreamValue) (start stop : StreamId) (limit : Option Nat) :
    Option (List (StreamId × List (Bytes × Bytes))) :=
  if compare start stop = .gt then none
  else some (limited limit (s.entries.toList.filter fun p =>
    (compare start p.1).isLE && (compare p.1 stop).isLE))

/-- `read_after`: entries strictly newer than `cursor`. -/
def readAfter (s : StreamValue) (cursor : StreamId) (limit : Option Nat) :
    List (StreamId × List (Bytes × Bytes)) :=
  limited limit (s.entries.toList.filter fun p => compare cursor p.1 = .lt)

end StreamValue

/-! ## The union -/

/-- `CacheValue`. -/
inductive CacheValue
  | string (value : Bytes) (expiresAt : Option Instant)
  | hash (h : HashValue)
  | list (l : ListValue)
  | set (s : SetValue)
  | sortedSet (z : SortedSetValue)
  | stream (s : StreamValue)
  deriving DecidableEq

namespace CacheValue

/-- `expires_at_ref`. -/
def expiresAt : CacheValue → Option Instant
  | string _ e => e
  | hash h => h.expiresAt
  | list l => l.expiresAt
  | set s => s.expiresAt
  | sortedSet z => z.expiresAt
  | stream s => s.expiresAt

/-- `*expires_at_mut(value) = e`. -/
def withExpiry (e : Option Instant) : CacheValue → CacheValue
  | string v _ => string v e
  | hash h => hash { h with expiresAt := e }
  | list l => list { l with expiresAt := e }
  | set s => set { s with expiresAt := e }
  | sortedSet z => sortedSet { z with expiresAt := e }
  | stream s => stream { s with expiresAt := e }

def isExpired (now : Instant) (v : CacheValue) : Bool := expiredAt now v.expiresAt

@[simp] theorem expiresAt_withExpiry (e : Option Instant) (v : CacheValue) :
    (v.withExpiry e).expiresAt = e := by cases v <;> rfl

@[simp] theorem withExpiry_withExpiry (e e' : Option Instant) (v : CacheValue) :
    (v.withExpiry e).withExpiry e' = v.withExpiry e' := by cases v <;> rfl

@[simp] theorem withExpiry_self (v : CacheValue) : v.withExpiry v.expiresAt = v := by cases v <;> rfl

end CacheValue

/-- What is past its deadline stays so. -/
theorem isExpired_mono {v : CacheValue} {now later : Instant} (h : v.isExpired now = true) (hle : now ≤ later) :
    v.isExpired later = true := by
  unfold CacheValue.isExpired at h ⊢
  cases he : v.expiresAt with
  | none =>
      rw [he] at h
      cases h
  | some e =>
      rw [he] at h
      exact decide_eq_true ((of_decide_eq_true h : e < now).trans_le hle)

end FerricCache
