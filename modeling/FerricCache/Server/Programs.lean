import FerricCache.Server.Keys
import FerricCache.Lib.Sections

/-!
# `FerricCache.Server.Programs` — commands as programs of critical sections

What is atomic in the storage is one critical section of one shard's lock. Most commands are a single one;
`program` says which sections the others are made of: the two halves of a move, one a key for `MSET`, `MGET`,
`EXISTS`, the set algebra and `XREAD`, one a field for `HMSET` and `HMGET`, one a shard for `KEYS`, `DBSIZE`,
`FLUSHALL` and `RANDOMKEY`. The clock is read in every section anew.

Run back to back the sections are the dispatch arm (`program_atomic`), and each looks at and writes nothing
but its keys (`program_local`).
-/

namespace FerricCache

open Lib.Sections Reply

variable [KeyHash]

/-- An operation on the storage, section by section. -/
abbrev Operation := Prog CacheStorage Bytes Env (Option Response)

/-! ## Loops of sections -/

section Loops

variable {α β : Type}

/-- The end of an operation: no lock is held any more. -/
def conclude (reply : Env → Option Response) : Operation :=
  .sect ∅ ∅ (fun _ s => s) fun e _ => .done (reply e)

/-- A loop that reads: each round locks its area, and goes on or returns. -/
def scan (area : β → Set Bytes) (visit : β → Env → α → CacheStorage → Except (Option Response) α)
    (finish : α → Env → Option Response) : List β → α → Operation
  | [], a => conclude (finish a)
  | b :: bs, a => .sect (area b) ∅ (fun _ s => s) fun e s =>
      match visit b e a s with
      | .ok a' => scan area visit finish bs a'
      | .error r => .done r

section Scan

variable (area : β → Set Bytes) (visit : β → Env → α → CacheStorage → Except (Option Response) α)
  (finish : α → Env → Option Response)

theorem scan_nil (a : α) : scan area visit finish [] a = conclude (finish a) := rfl

theorem scan_cons (b : β) (bs : List β) (a : α) :
    scan area visit finish (b :: bs) a = .sect (area b) ∅ (fun _ s => s) fun e s =>
      match visit b e a s with
      | .ok a' => scan area visit finish bs a'
      | .error r => .done r := rfl

end Scan

/-- A loop that writes: each round locks its area, and goes on or returns. -/
def sweep (area : β → Set Bytes) (visit : β → CacheStorage → Option Response × CacheStorage) :
    List β → Operation
  | [] => conclude fun _ => some .ok
  | b :: bs => .sect (area b) (area b) (fun _ s => (visit b s).2) fun _ s =>
      match (visit b s).1 with
      | none => sweep area visit bs
      | some r => .done (some r)

end Loops

/-- The keys of one shard. -/
def shardKeys (i : Fin 64) : Set Bytes := { k | shardIndex k = i }

/-- `shard.write().clear()`. -/
def CacheStorage.clearShard (s : CacheStorage) (i : Fin 64) : CacheStorage where
  shards := Function.update s.shards i ∅
  placed := by
    intro j k hk
    by_cases hj : j = i
    · subst hj
      rw [Function.update_self] at hk
      exact absurd hk Std.ExtTreeMap.not_mem_empty
    · rw [Function.update_of_ne hj] at hk
      exact s.placed j k hk

/-! ## The operations -/

section Move

variable {τ α β : Type} (K : Kind τ)

/-- The second half of `rpoplpush` and `smove`: the destination's lock. -/
def putSection (fresh : τ) (put : τ → τ) (destination : Bytes) (reply : Response) : Operation :=
  .sect {destination} {destination}
    (fun e s => (s.onKey destination (CacheStorage.putInto K e.now fresh put)).2)
    fun e s => .done (orError (fun _ => reply) (s.onKey destination (CacheStorage.putInto K e.now fresh put)).1)

/-- What follows the source's lock. -/
def afterTake (moved : α → Option β) (fresh : τ) (put : β → τ → τ) (reply : α → Response)
    (destination : Bytes) : Res α → Operation
  | .error err => .done (some (.error err))
  | .ok a =>
      match moved a with
      | none => .done (some (reply a))
      | some b => putSection K fresh (put b) destination (reply a)

/-- `rpoplpush` and `smove`: the source's lock is dropped before the destination's is taken. -/
def moveSections (missing : α) (take : τ → α × τ) (moved : α → Option β) (fresh : τ) (put : β → τ → τ)
    (reply : α → Response) (source destination : Bytes) : Operation :=
  .sect {source} {source} (fun e s => (s.onKey source (CacheStorage.takeFrom K e.now missing take)).2)
    fun e s => afterTake K moved fresh put reply destination
      (s.onKey source (CacheStorage.takeFrom K e.now missing take)).1

end Move

/-- The second half of `rename`. -/
def insertSection (newKey : Bytes) : Slot → Operation
  | none => .done (some (.error Slot.noSuchKey))
  | some v => .sect {newKey} {newKey} (fun _ s => s.setEntry newKey (some v)) fun _ _ => .done (some .ok)

/-- `rename`: the source's guard is dropped at the end of its block. -/
def renameSections (key newKey : Bytes) : Operation :=
  .sect {key} {key} (fun _ s => s.setEntry key none) fun e s => insertSection newKey (s.live e.now key)

/-- A command that is one critical section on its key. -/
def singleSection (c : Command) (key : Bytes) : Operation :=
  .sect {key} (if isWriteCommand c then {key} else ∅)
    (fun e s => ((dispatch e c s).map Prod.snd).getD s)
    fun e s => .done ((dispatch e c s).bind Prod.fst)

/-- One round of `sinter`. -/
def sinterVisit (key : Bytes) (e : Env) (result : Option SetValue) (s : CacheStorage) :
    Except (Option Response) (Option SetValue) :=
  match s.snapshotSet e.now key with
  | .error err => .error (some (.error err))
  | .ok none => .error (some (.array []))
  | .ok (some t) =>
      match result with
      | none => .ok (some t)
      | some res => .ok (some (CacheStorage.setOf (res.intersection t)))

/-- One round of `sunion`. -/
def sunionVisit (key : Bytes) (e : Env) (result : SetValue) (s : CacheStorage) :
    Except (Option Response) SetValue :=
  match s.snapshotSet e.now key with
  | .error err => .error (some (.error err))
  | .ok none => .ok result
  | .ok (some t) => .ok ((t.getAll (e.iterPos none)).foldl SetValue.add result)

/-- One round of `sdiff`; the first finds no result yet. -/
def sdiffVisit (key : Bytes) (e : Env) (result : Option SetValue) (s : CacheStorage) :
    Except (Option Response) (Option SetValue) :=
  match s.snapshotSet e.now key with
  | .error err => .error (some (.error err))
  | .ok none =>
      match result with
      | none => .error (some (.array []))
      | some res => .ok (some res)
  | .ok (some t) =>
      match result with
      | none => .ok (some t)
      | some res => .ok (some (CacheStorage.setOf (res.difference t)))

/-- One round of `XREAD`. -/
def xreadVisit (count : Option UInt64) (p : Bytes × Bytes) (e : Env)
    (perStream : List (Bytes × List (StreamId × List (Bytes × Bytes)))) (s : CacheStorage) :
    Except (Option Response) (List (Bytes × List (StreamId × List (Bytes × Bytes)))) :=
  match StreamId.parse p.2 false with
  | .error err => .error (some (.error err))
  | .ok cursor =>
      match Slot.xread e.now cursor (count.map UInt64.toNat) (s.slotAt p.1) with
      | .error err => .error (some (.error err))
      | .ok entries => .ok (if entries.isEmpty then perStream else perStream ++ [(p.1, entries)])

/-- One round of `HMSET`. -/
def hmsetVisit (key : Bytes) (p : Bytes × Bytes) (s : CacheStorage) : Option Response × CacheStorage :=
  let r := s.onKey key (Slot.hset p.1 p.2)
  (match r.1 with
    | .ok _ => none
    | .error err => some (.error err), r.2)

/-- One round of `random_key`. -/
def randomVisit (i : Fin 64) (e : Env) (_ : Unit) (s : CacheStorage) : Except (Option Response) Unit :=
  match e.choose i.val (s.liveKeys e i) with
  | some k => .error (some (.value k))
  | none => .ok ()

/-- **The critical sections of a command**; `none` for a command that is not one on the storage. -/
def program : Command → Option Operation
  | .rpoplpush source destination => some <|
      moveSections Kind.list none ListValue.popRight id ListValue.new (fun v l => l.pushLeft v) valueOr
        source destination
  | .smove source destination member => some <|
      moveSections Kind.set false (fun t => (t.contains member, t.remove member))
        (fun removed => if removed then some () else none) SetValue.new (fun () t => t.add member) flag
        source destination
  | .rename key newKey => some (renameSections key newKey)
  | .mset pairs => some <|
      sweep (fun p => {p.1}) (fun p s => (none, s.setEntry p.1 (some (.string p.2 none)))) pairs
  | .hmset key pairs => some (sweep (fun _ => {key}) (hmsetVisit key) pairs)
  | .flushAll => some (sweep shardKeys (fun i s => (none, s.clearShard i)) (List.finRange 64))
  | .mget keys => some <|
      scan (fun k => {k}) (fun k e out s => .ok (out ++ [(Slot.get e.now (s.slotAt k)).getD []]))
        (fun out _ => some (.array out)) keys []
  | .hmget key fields => some <|
      scan (fun _ => {key}) (fun f e out s => .ok (out ++ [(Slot.hget e.now f (s.slotAt key)).getD []]))
        (fun out _ => some (.array out)) fields []
  | .existsKeys keys => some <|
      scan (fun k => {k}) (fun k e n s => .ok (if (s.live e.now k).isSome then n + 1 else n))
        (fun n _ => some (count n)) keys 0
  | .sinter keys => some <|
      scan (fun k => {k}) sinterVisit
        (fun result e => some (.array ((result.map fun t => t.getAll (e.iterPos none)).getD []))) keys none
  | .sunion keys => some <|
      scan (fun k => {k}) sunionVisit (fun result e => some (.array (result.getAll (e.iterPos none)))) keys
        SetValue.new
  | .sdiff keys => some <|
      scan (fun k => {k}) sdiffVisit
        (fun result e => some (.array ((result.map fun t => t.getAll (e.iterPos none)).getD []))) keys none
  | .xread n keys ids => some <|
      if keys.length ≠ ids.length then
        conclude fun _ => some (.error (utf8 "ERR XREAD streams/ids length mismatch"))
      else
        scan (fun p => {p.1}) (xreadVisit n)
          (fun perStream _ => some (if perStream.isEmpty then nullArray else .raw (formatXread perStream)))
          (keys.zip ids) []
  | .keys pattern => some <|
      scan shardKeys (fun i e out s => .ok (out ++ (s.liveKeys e i).filter (CacheStorage.matchesPattern · pattern)))
        (fun out _ => some (.array out)) (List.finRange 64) []
  | .dbSize => some <|
      scan shardKeys (fun i e n s => .ok (n + (s.liveKeys e i).length)) (fun n _ => some (count n))
        (List.finRange 64) 0
  | .randomKey => some <| .sect ∅ ∅ (fun _ s => s) fun e _ =>
      scan shardKeys randomVisit (fun _ _ => some .notFound) (e.shuffle (List.finRange 64)) ()
  | .ping => some (conclude fun _ => some (.value (utf8 "PONG")))
  | .echo message => some (conclude fun _ => some (.value message))
  | c => (commandKey c).map (singleSection c)

/-! ## Back to back the sections are the dispatch arm -/

section Atomic

variable (e : Env) (s : CacheStorage)

theorem atomic_mget (keys out : List Bytes) :
    (scan (fun k => {k}) (fun k e out s => .ok (out ++ [(Slot.get e.now (s.slotAt k)).getD []]))
        (fun out _ => some (.array out)) keys out).atomic e s
      = (some (.array (out ++ keys.map fun k => (Slot.get e.now (s.slotAt k)).getD [])), s) := by
  induction keys generalizing out with
  | nil => simp [scan_nil, conclude, Prog.atomic_sect, Prog.atomic_done]
  | cons k keys ih => simp [scan_cons, Prog.atomic_sect, ih]

theorem atomic_hmget (key : Bytes) (fields out : List Bytes) :
    (scan (fun _ => {key}) (fun f e out s => .ok (out ++ [(Slot.hget e.now f (s.slotAt key)).getD []]))
        (fun out _ => some (.array out)) fields out).atomic e s
      = (some (.array (out ++ fields.map fun f => (Slot.hget e.now f (s.slotAt key)).getD [])), s) := by
  induction fields generalizing out with
  | nil => simp [scan_nil, conclude, Prog.atomic_sect, Prog.atomic_done]
  | cons f fields ih => simp [scan_cons, Prog.atomic_sect, ih]

theorem atomic_exists (keys : List Bytes) (n : Nat) :
    (scan (fun k => {k}) (fun k e n s => .ok (if (s.live e.now k).isSome then n + 1 else n))
        (fun n _ => some (count n)) keys n).atomic e s
      = (some (count (n + s.existsCount e.now keys)), s) := by
  induction keys generalizing n with
  | nil => simp [scan_nil, conclude, Prog.atomic_sect, Prog.atomic_done, CacheStorage.existsCount]
  | cons k keys ih =>
      simp only [scan_cons, Prog.atomic_sect, ih]
      cases hk : (s.live e.now k).isSome with
      | true => simp [CacheStorage.existsCount, hk, Nat.add_assoc, Nat.add_comm]
      | false => simp [CacheStorage.existsCount, hk]

theorem atomic_sinter (keys : List Bytes) (result : Option SetValue) :
    (scan (fun k => {k}) sinterVisit
        (fun result e => some (.array ((result.map fun t => t.getAll (e.iterPos none)).getD []))) keys
        result).atomic e s
      = (orError (fun r => .array ((r.map fun t => t.getAll (e.iterPos none)).getD []))
          (CacheStorage.sinterLoop (s.snapshotSet e.now) result keys), s) := by
  induction keys generalizing result with
  | nil => rfl
  | cons k keys ih =>
      simp only [scan_cons, Prog.atomic_sect, sinterVisit, CacheStorage.sinterLoop]
      cases s.snapshotSet e.now k with
      | error err => rfl
      | ok found =>
          cases found with
          | none => rfl
          | some t => cases result <;> exact ih _

theorem atomic_sunion (keys : List Bytes) (result : SetValue) :
    (scan (fun k => {k}) sunionVisit (fun result e => some (.array (result.getAll (e.iterPos none)))) keys
        result).atomic e s
      = (orError (fun r => .array (r.getAll (e.iterPos none)))
          (CacheStorage.setLoop (s.snapshotSet e.now)
            (fun result t => (t.getAll (e.iterPos none)).foldl SetValue.add result) result keys), s) := by
  induction keys generalizing result with
  | nil => rfl
  | cons k keys ih =>
      simp only [scan_cons, Prog.atomic_sect, sunionVisit, CacheStorage.setLoop]
      cases s.snapshotSet e.now k with
      | error err => rfl
      | ok found => cases found <;> exact ih _

/-- The rounds of `sdiff` after the first. -/
theorem atomic_sdiff (keys : List Bytes) (result : SetValue) :
    (scan (fun k => {k}) sdiffVisit
        (fun result e => some (.array ((result.map fun t => t.getAll (e.iterPos none)).getD []))) keys
        (some result)).atomic e s
      = (orError (fun r => .array (r.getAll (e.iterPos none)))
          (CacheStorage.setLoop (s.snapshotSet e.now)
            (fun result u => CacheStorage.setOf (result.difference u)) result keys), s) := by
  induction keys generalizing result with
  | nil => rfl
  | cons k keys ih =>
      simp only [scan_cons, Prog.atomic_sect, sdiffVisit, CacheStorage.setLoop]
      cases s.snapshotSet e.now k with
      | error err => rfl
      | ok found => cases found <;> exact ih _

theorem atomic_xread (n : Option UInt64) (pairs : List (Bytes × Bytes))
    (perStream : List (Bytes × List (StreamId × List (Bytes × Bytes)))) :
    (scan (fun p => {p.1}) (xreadVisit n)
        (fun perStream _ => some (if perStream.isEmpty then nullArray else .raw (formatXread perStream)))
        pairs perStream).atomic e s
      = (some (xreadLoop e.now n s perStream pairs), s) := by
  induction pairs generalizing perStream with
  | nil => rfl
  | cons p pairs ih =>
      obtain ⟨k, id⟩ := p
      simp only [scan_cons, Prog.atomic_sect, xreadVisit, xreadLoop]
      cases StreamId.parse id false with
      | error err => rfl
      | ok cursor =>
          cases hx : Slot.xread e.now cursor (n.map UInt64.toNat) (s.slotAt k) with
          | error err => simp only [hx, Prog.atomic_done]
          | ok entries =>
              simp only [hx, ih]
              split <;> rfl

theorem atomic_keys (pattern : Bytes) (is : List (Fin 64)) (out : List Bytes) :
    (scan shardKeys
        (fun i e out s => .ok (out ++ (s.liveKeys e i).filter (CacheStorage.matchesPattern · pattern)))
        (fun out _ => some (.array out)) is out).atomic e s
      = (some (.array (out ++ is.flatMap fun i =>
          (s.liveKeys e i).filter (CacheStorage.matchesPattern · pattern))), s) := by
  induction is generalizing out with
  | nil => simp [scan_nil, conclude, Prog.atomic_sect, Prog.atomic_done]
  | cons i is ih => simp [scan_cons, Prog.atomic_sect, ih]

theorem atomic_dbsize (is : List (Fin 64)) (n : Nat) :
    (scan shardKeys (fun i e n s => .ok (n + (s.liveKeys e i).length)) (fun n _ => some (count n)) is n).atomic e s
      = (some (count (n + (is.map fun i => (s.liveKeys e i).length).sum)), s) := by
  induction is generalizing n with
  | nil => simp [scan_nil, conclude, Prog.atomic_sect, Prog.atomic_done]
  | cons i is ih => simp [scan_cons, Prog.atomic_sect, ih, Nat.add_assoc]

theorem atomic_randomKey (is : List (Fin 64)) :
    (scan shardKeys randomVisit (fun _ _ => some .notFound) is ()).atomic e s
      = (some (valueOr (is.findSome? fun i => e.choose i.val (s.liveKeys e i))), s) := by
  induction is with
  | nil => rfl
  | cons i is ih =>
      simp only [scan_cons, Prog.atomic_sect, randomVisit, List.findSome?_cons]
      cases e.choose i.val (s.liveKeys e i) with
      | none => exact ih
      | some k => rfl

theorem atomic_mset (pairs : List (Bytes × Bytes)) :
    (sweep (fun p => {p.1}) (fun p s => (none, s.setEntry p.1 (some (.string p.2 none)))) pairs).atomic e s
      = (some .ok, s.mset pairs) := by
  induction pairs generalizing s with
  | nil => rfl
  | cons p pairs ih => exact ih (s.setEntry p.1 (some (.string p.2 none)))

theorem atomic_hmset (key : Bytes) (pairs : List (Bytes × Bytes)) :
    (sweep (fun _ => {key}) (hmsetVisit key) pairs).atomic e s = s.onKey key (hmsetLoop pairs) := by
  induction pairs generalizing s with
  | nil => exact Prod.ext rfl (s.setEntry_slotAt key).symm
  | cons p pairs ih =>
      obtain ⟨f, v⟩ := p
      simp only [sweep, Prog.atomic_sect, hmsetVisit, CacheStorage.onKey, hmsetLoop]
      cases hr : Slot.hset f v (s.slotAt key) with
      | mk r slot =>
          cases r with
          | error err => rfl
          | ok b =>
              rw [ih]
              simp only [CacheStorage.onKey, CacheStorage.slotAt_setEntry_self, CacheStorage.setEntry_setEntry]

theorem slotAt_clearShard (i : Fin 64) (k : Bytes) :
    (s.clearShard i).slotAt k = if shardIndex k = i then none else s.slotAt k := by
  unfold CacheStorage.slotAt CacheStorage.clearShard
  by_cases h : shardIndex k = i
  · simp [h]
  · simp [h]

theorem atomic_flushall (is : List (Fin 64)) :
    (sweep shardKeys (fun i s => (none, s.clearShard i)) is).atomic e s
      = (some .ok, is.foldl CacheStorage.clearShard s) := by
  induction is generalizing s with
  | nil => rfl
  | cons i is ih => exact ih (s.clearShard i)

theorem slotAt_clearShards (is : List (Fin 64)) (k : Bytes) :
    (is.foldl CacheStorage.clearShard s).slotAt k = if shardIndex k ∈ is then none else s.slotAt k := by
  induction is generalizing s with
  | nil => simp
  | cons i is ih =>
      rw [List.foldl_cons, ih, slotAt_clearShard]
      by_cases h : shardIndex k ∈ is
      · simp [h]
      · simp [h]

/-- Clearing every shard is `flushall`. -/
theorem clearShards_all : (List.finRange 64).foldl CacheStorage.clearShard s = s.flushall := by
  apply CacheStorage.ext_entry
  intro k
  rw [slotAt_clearShards, if_pos (List.mem_finRange _), CacheStorage.slotAt_flushall]

theorem atomic_move {τ α β : Type} (K : Kind τ) (missing : α) (take : τ → α × τ) (moved : α → Option β)
    (fresh : τ) (put : β → τ → τ) (reply : α → Response) (source destination : Bytes) :
    (moveSections K missing take moved fresh put reply source destination).atomic e s
      = (orError reply (s.move K e.now missing take moved fresh put source destination).1,
          (s.move K e.now missing take moved fresh put source destination).2) := by
  rw [move_eq]
  simp only [moveSections, Prog.atomic_sect]
  cases (s.onKey source (CacheStorage.takeFrom K e.now missing take)).1 with
  | error err => rfl
  | ok a =>
      cases hm : moved a with
      | none => simp [afterTake, moveRest, hm, orError]
      | some b =>
          simp only [afterTake, moveRest, hm, putSection, Prog.atomic_sect, Prog.atomic_done]
          cases (CacheStorage.onKey _ destination (CacheStorage.putInto K e.now fresh (put b))).1 <;> rfl

theorem atomic_rename (key newKey : Bytes) :
    (renameSections key newKey).atomic e s
      = (orError (fun _ => .ok) (s.rename e.now key newKey).1, (s.rename e.now key newKey).2) := by
  simp only [renameSections, Prog.atomic_sect, CacheStorage.rename]
  cases s.live e.now key <;> rfl

theorem atomic_single {c : Command} {key : Bytes} {x : Option Response × CacheStorage}
    (h : dispatch e c s = some x) : some ((singleSection c key).atomic e s) = some x := by
  simp [singleSection, h]

end Atomic

/-- **The sections of a command, back to back, are its dispatch arm.** -/
theorem program_atomic {c : Command} {p : Operation} (h : program c = some p) (e : Env) (s : CacheStorage) :
    dispatch e c s = some (p.atomic e s) := by
  -- the commands of several sections, each folded back to back; the others are one section
  cases c with
  | rpoplpush source destination =>
      cases h
      rw [atomic_move]
      rfl
  | smove source destination member =>
      cases h
      rw [atomic_move]
      rfl
  | rename key newKey =>
      cases h
      rw [atomic_rename]
      rfl
  | mset pairs =>
      cases h
      rw [atomic_mset]
      rfl
  | hmset key pairs =>
      cases h
      rw [atomic_hmset]
      rfl
  | flushAll =>
      cases h
      rw [atomic_flushall, clearShards_all]
      rfl
  | mget keys =>
      cases h
      rw [atomic_mget, List.nil_append]
      rfl
  | hmget key fields =>
      cases h
      rw [atomic_hmget, List.nil_append]
      show some (_, s.setEntry key (s.slotAt key)) = _
      rw [CacheStorage.setEntry_slotAt]
  | existsKeys keys =>
      cases h
      rw [atomic_exists, Nat.zero_add]
      rfl
  | sinter keys =>
      cases h
      rw [atomic_sinter]
      show some (orError _ (s.sinter e keys), s) = _
      unfold CacheStorage.sinter
      cases CacheStorage.sinterLoop (s.snapshotSet e.now) none keys <;> rfl
  | sunion keys =>
      cases h
      rw [atomic_sunion]
      show some (orError _ (s.sunion e keys), s) = _
      unfold CacheStorage.sunion
      cases CacheStorage.setLoop (s.snapshotSet e.now)
        (fun result t => (t.getAll (e.iterPos none)).foldl SetValue.add result) SetValue.new keys <;> rfl
  | sdiff keys =>
      cases h
      show some (orError _ (s.sdiff e keys), s) = _
      cases keys with
      | nil => rfl
      | cons k keys =>
          simp only [scan_cons, Prog.atomic_sect, sdiffVisit, CacheStorage.sdiff]
          cases s.snapshotSet e.now k with
          | error err => rfl
          | ok found =>
              cases found with
              | none => rfl
              | some t =>
                  simp only [atomic_sdiff]
                  cases CacheStorage.setLoop (s.snapshotSet e.now)
                    (fun result u => CacheStorage.setOf (result.difference u)) t keys <;> rfl
  | xread n keys ids =>
      cases h
      show some (some (xreadArm e.now n keys ids s), s) = _
      unfold xreadArm
      split
      · rfl
      · rw [atomic_xread]
  | keys pattern =>
      cases h
      rw [atomic_keys, List.nil_append]
      rfl
  | dbSize =>
      cases h
      rw [atomic_dbsize, Nat.zero_add]
      rfl
  | randomKey =>
      cases h
      show _ = some ((scan shardKeys randomVisit _ (e.shuffle (List.finRange 64)) ()).atomic e s)
      rw [atomic_randomKey]
      rfl
  | ping =>
      cases h
      rfl
  | echo message =>
      cases h
      rfl
  | _ => cases h <;> exact (atomic_single e s rfl).symm

/-! ## A section looks at and writes nothing but its keys -/

section Locality

variable {α β : Type}

/-- A shard is what is held at its keys. -/
theorem shard_ext {s t : CacheStorage} {i : Fin 64} (h : ∀ k ∈ shardKeys i, s.slotAt k = t.slotAt k) :
    s.shards i = t.shards i := by
  apply Std.ExtTreeMap.ext_getElem?
  intro k
  by_cases hk : shardIndex k = i
  · subst hk
    exact h k rfl
  · rw [Std.ExtTreeMap.getElem?_eq_none fun hm => hk (s.placed i k hm),
      Std.ExtTreeMap.getElem?_eq_none fun hm => hk (t.placed i k hm)]

theorem liveKeys_agree {s t : CacheStorage} {i : Fin 64} (h : ∀ k ∈ shardKeys i, s.slotAt k = t.slotAt k)
    (e : Env) : s.liveKeys e i = t.liveKeys e i := by
  unfold CacheStorage.liveKeys
  rw [shard_ext h]

theorem conclude_local (reply : Env → Option Response) :
    (conclude reply : Operation).Local CacheStorage.slotAt :=
  ⟨Set.Subset.rfl, fun _ _ _ _ => rfl, fun _ _ _ h => h, fun _ _ _ _ => rfl, fun _ _ => trivial⟩

theorem scan_local {area : β → Set Bytes} {visit : β → Env → α → CacheStorage → Except (Option Response) α}
    (h : ∀ b e a s t, (∀ k ∈ area b, s.slotAt k = t.slotAt k) → visit b e a s = visit b e a t)
    (finish : α → Env → Option Response) (bs : List β) (a : α) :
    (scan area visit finish bs a).Local CacheStorage.slotAt := by
  induction bs generalizing a with
  | nil => exact conclude_local _
  | cons b bs ih =>
      refine ⟨Set.empty_subset _, ?_, fun _ _ _ hst => hst, fun _ _ _ _ => rfl, ?_⟩
      · intro e s t hst
        simp only [h b e a s t hst]
      · intro e s
        dsimp only
        split
        · exact ih _
        · trivial

/-- Loops over keys: a round looks at its key. -/
theorem scan_local_key (key : β → Bytes) {visit : β → Env → α → CacheStorage → Except (Option Response) α}
    (h : ∀ b e a s t, s.slotAt (key b) = t.slotAt (key b) → visit b e a s = visit b e a t)
    (finish : α → Env → Option Response) (bs : List β) (a : α) :
    (scan (fun b => {key b}) visit finish bs a).Local CacheStorage.slotAt := by
  apply scan_local
  intro b e a s t hst
  exact h b e a s t (hst _ rfl)

theorem sweep_local {area : β → Set Bytes} {visit : β → CacheStorage → Option Response × CacheStorage}
    (hreply : ∀ b s t, (∀ k ∈ area b, s.slotAt k = t.slotAt k) → (visit b s).1 = (visit b t).1)
    (hagree : ∀ b s t, (∀ k ∈ area b, s.slotAt k = t.slotAt k) →
      ∀ k ∈ area b, (visit b s).2.slotAt k = (visit b t).2.slotAt k)
    (hframe : ∀ b s, ∀ k ∉ area b, (visit b s).2.slotAt k = s.slotAt k) (bs : List β) :
    (sweep area visit bs).Local CacheStorage.slotAt := by
  induction bs with
  | nil => exact conclude_local _
  | cons b bs ih =>
      refine ⟨Set.Subset.rfl, ?_, fun _ s t hst => hagree b s t hst, fun _ s => hframe b s, ?_⟩
      · intro e s t hst
        simp only [hreply b s t hst]
      · intro e s
        dsimp only
        split
        · exact ih
        · trivial

/-- A section on one key. -/
theorem onKey_local {key : Bytes} (f : Env → Slot → α × Slot) (next : Env → α → Operation)
    (hnext : ∀ e a, (next e a).Local CacheStorage.slotAt) :
    Prog.Local CacheStorage.slotAt (.sect {key} {key} (fun e s => (s.onKey key (f e)).2)
      fun e s => next e (s.onKey key (f e)).1) := by
  have honKey : ∀ e, LocalTo (some [key]) fun s : CacheStorage => s.onKey key (f e) := fun e =>
    LocalTo.onKey (List.mem_singleton_self key) (f e)
  have hlist : ∀ {s t : CacheStorage}, (∀ k ∈ ({key} : Set Bytes), s.slotAt k = t.slotAt k) →
      AgreeOn (some [key]) s t := by
    intro s t hst k hk
    exact hst k (List.mem_singleton.mp hk)
  refine ⟨Set.Subset.rfl, ?_, ?_, ?_, fun e s => hnext e _⟩
  · intro e s t hst
    exact congrArg (next e) ((honKey e).reply s t (hlist hst))
  · intro e s t hst k hk
    exact (honKey e).agree s t (hlist hst) k (List.mem_singleton.mpr hk)
  · intro e s k hk
    exact (honKey e).frame s k [key] rfl fun hm => hk (List.mem_singleton.mp hm)

theorem putSection_local {τ : Type} (K : Kind τ) (fresh : τ) (put : τ → τ) (destination : Bytes)
    (reply : Response) : (putSection K fresh put destination reply).Local CacheStorage.slotAt :=
  onKey_local (fun e => CacheStorage.putInto K e.now fresh put)
    (fun _ r => .done (orError (fun _ => reply) r)) fun _ _ => trivial

theorem moveSections_local {τ : Type} (K : Kind τ) (missing : α) (take : τ → α × τ) (moved : α → Option β)
    (fresh : τ) (put : β → τ → τ) (reply : α → Response) (source destination : Bytes) :
    (moveSections K missing take moved fresh put reply source destination).Local CacheStorage.slotAt := by
  refine onKey_local (fun e => CacheStorage.takeFrom K e.now missing take)
    (fun _ r => afterTake K moved fresh put reply destination r) ?_
  intro e r
  cases r with
  | error err => trivial
  | ok a =>
      simp only [afterTake]
      cases moved a with
      | none => trivial
      | some b => exact putSection_local K fresh (put b) destination (reply a)

theorem renameSections_local (key newKey : Bytes) :
    (renameSections key newKey).Local CacheStorage.slotAt := by
  refine onKey_local (fun e slot => (Slot.live e.now slot, none))
    (fun _ live => insertSection newKey live) ?_
  intro e live
  cases live with
  | none => trivial
  | some v =>
      exact onKey_local (fun _ _ => ((), some v)) (fun _ _ => .done (some .ok)) fun _ _ => trivial

theorem singleSection_local {c : Command} {key : Bytes} (hkey : footprint c = some [key])
    (harm : ∀ e, ∃ a, arm e c = some a) : (singleSection c key).Local CacheStorage.slotAt := by
  have hlocal : ∀ e, ∃ a, arm e c = some a ∧ LocalTo (some [key]) fun s => a.run s := by
    intro e
    obtain ⟨a, ha⟩ := harm e
    exact ⟨a, ha, hkey ▸ arm_local ha⟩
  have hlist : ∀ {s t : CacheStorage}, (∀ k ∈ ({key} : Set Bytes), s.slotAt k = t.slotAt k) →
      AgreeOn (some [key]) s t := by
    intro s t hst k hk
    exact hst k (List.mem_singleton.mp hk)
  refine ⟨?_, ?_, ?_, ?_, fun _ _ => trivial⟩
  · split
    · exact Set.Subset.rfl
    · exact Set.empty_subset _
  · intro e s t hst
    obtain ⟨a, ha, hl⟩ := hlocal e
    simp only [dispatch, ha, Option.map_some, Option.bind_some]
    rw [show (a.run s).1 = (a.run t).1 from hl.reply s t (hlist hst)]
  · intro e s t hst k hk
    obtain ⟨a, ha, hl⟩ := hlocal e
    simp only [dispatch, ha, Option.map_some, Option.getD_some]
    exact hl.agree s t (hlist hst) k (List.mem_singleton.mpr hk)
  · intro e s k hk
    obtain ⟨a, ha, hl⟩ := hlocal e
    simp only [dispatch, ha, Option.map_some, Option.getD_some]
    cases hw : isWriteCommand c with
    | true =>
        rw [hw, if_pos rfl] at hk
        exact hl.frame s k [key] rfl fun hm => hk (List.mem_singleton.mp hm)
    | false => rw [run_read ha hw]

end Locality

/-- **Every section of every command is local to its keys.** -/
theorem program_local {c : Command} {p : Operation} (h : program c = some p) :
    p.Local CacheStorage.slotAt := by
  -- the commands of several sections; the others are one section on the footprint of their arm
  cases c with
  | rpoplpush source destination =>
      cases h
      exact moveSections_local ..
  | smove source destination member =>
      cases h
      exact moveSections_local ..
  | rename key newKey =>
      cases h
      exact renameSections_local key newKey
  | mset pairs =>
      cases h
      refine sweep_local (fun _ _ _ _ => rfl) ?_ ?_ pairs
      · intro p s t _ k hk
        rw [Set.mem_singleton_iff.mp hk, CacheStorage.slotAt_setEntry_self, CacheStorage.slotAt_setEntry_self]
      · intro p s k hk
        exact CacheStorage.slotAt_setEntry_ne hk
  | hmset key pairs =>
      cases h
      refine sweep_local ?_ ?_ ?_ pairs
      · intro p s t hst
        simp only [hmsetVisit, CacheStorage.onKey, hst key rfl]
      · intro p s t hst k hk
        rw [Set.mem_singleton_iff.mp hk]
        simp only [hmsetVisit, CacheStorage.onKey, CacheStorage.slotAt_setEntry_self, hst key rfl]
      · intro p s k hk
        exact CacheStorage.slotAt_setEntry_ne hk
  | flushAll =>
      cases h
      refine sweep_local (fun _ _ _ _ => rfl) ?_ ?_ _
      · intro i s t _ k hk
        have hi : shardIndex k = i := hk
        rw [slotAt_clearShard, slotAt_clearShard, if_pos hi, if_pos hi]
      · intro i s k hk
        have hi : shardIndex k ≠ i := hk
        rw [slotAt_clearShard, if_neg hi]
  | mget keys =>
      cases h
      refine scan_local_key id ?_ _ keys []
      intro k e out s t hst
      rw [show s.slotAt k = t.slotAt k from hst]
  | hmget key fields =>
      cases h
      refine scan_local_key (fun _ => key) ?_ _ fields []
      intro f e out s t hst
      rw [hst]
  | existsKeys keys =>
      cases h
      refine scan_local_key id ?_ _ keys 0
      intro k e n s t hst
      unfold CacheStorage.live
      rw [show s.slotAt k = t.slotAt k from hst]
  | sinter keys =>
      cases h
      refine scan_local_key id ?_ _ keys none
      intro k e result s t hst
      unfold sinterVisit CacheStorage.snapshotSet
      rw [show s.slotAt k = t.slotAt k from hst]
  | sunion keys =>
      cases h
      refine scan_local_key id ?_ _ keys SetValue.new
      intro k e result s t hst
      unfold sunionVisit CacheStorage.snapshotSet
      rw [show s.slotAt k = t.slotAt k from hst]
  | sdiff keys =>
      cases h
      refine scan_local_key id ?_ _ keys none
      intro k e result s t hst
      unfold sdiffVisit CacheStorage.snapshotSet
      rw [show s.slotAt k = t.slotAt k from hst]
  | xread n keys ids =>
      cases h
      split
      · exact conclude_local _
      · refine scan_local_key Prod.fst ?_ _ (keys.zip ids) []
        intro q e perStream s t hst
        unfold xreadVisit
        rw [hst]
  | keys pattern =>
      cases h
      refine scan_local ?_ _ _ []
      intro i e out s t hst
      rw [liveKeys_agree hst]
  | dbSize =>
      cases h
      refine scan_local ?_ _ _ 0
      intro i e n s t hst
      rw [liveKeys_agree hst]
  | randomKey =>
      cases h
      refine ⟨Set.Subset.rfl, fun _ _ _ _ => rfl, fun _ _ _ hst => hst, fun _ _ _ _ => rfl, fun e s => ?_⟩
      refine scan_local ?_ _ _ ()
      intro i e' u s' t hst
      unfold randomVisit
      rw [liveKeys_agree hst]
  | ping =>
      cases h
      exact conclude_local _
  | echo message =>
      cases h
      exact conclude_local _
  | _ => cases h <;> exact singleSection_local rfl fun e => ⟨_, rfl⟩

end FerricCache
