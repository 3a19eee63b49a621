import FerricCache.Server.Interleave
import FerricCache.Server.Chokepoint
import FerricCache.Server.ValueInvariant
import FerricCache.Data.Ranks

/-!
# `FerricCache.Server.Scores` — the scores that reach a sorted set

`OrderedFloat::cmp` calls NaN equal to everything, so it is an order on a set of scores exactly when NaN is not among
them (`F64.totalOn_iff`). Nothing between a client and a sorted set refuses NaN: `ZADD` takes any text that
`f64::from_str` does, `nan` included, and `ZINCRBY` adds opposite infinities. In a run in which no executed `ZADD` or
`ZINCRBY` does this, and only in such a run, the scores of every sorted set are ordered (`scores_ordered_iff`), with
any number of connections, transactions and scripts.
-/

namespace FerricCache

open Lib Lib.Run

/-! ## When `OrderedFloat` is an order -/

namespace F64

/-- The comparison is a total order on the scores: equal only for numerically equal scores, antisymmetric and
    transitive. -/
structure TotalOn (S : F64 → Prop) : Prop where
  eq_iff : ∀ a b, S a → S b → (cmp a b = .eq ↔ partialCmp a b = some .eq)
  swap : ∀ a b, S a → S b → cmp b a = (cmp a b).swap
  trans : ∀ a b c, S a → S b → S c → cmp a b ≠ .gt → cmp b c ≠ .gt → cmp a c ≠ .gt

theorem cmp_le_trans {a b c : F64} (ha : a ≠ nan) (hb : b ≠ nan) (hc : c ≠ nan) (hab : cmp a b ≠ .gt)
    (hbc : cmp b c ≠ .gt) : cmp a c ≠ .gt := by
  cases h1 : cmp a b with
  | gt => exact absurd h1 hab
  | eq =>
      rw [← cmp_swap, cmp_congr c ha hb h1, cmp_swap]
      exact hbc
  | lt =>
      cases h2 : cmp b c with
      | gt => exact absurd h2 hbc
      | eq =>
          rw [← cmp_congr a hb hc h2, h1]
          simp
      | lt =>
          rw [cmp_trans hb h1 h2]
          simp

/-- **The scores are ordered exactly when none of them is NaN.** -/
theorem totalOn_iff {S : F64 → Prop} : TotalOn S ↔ ¬ S nan := by
  constructor
  · intro h hnan
    have heq := (h.eq_iff nan nan hnan hnan).mp rfl
    cases heq
  · intro hnan
    have hne : ∀ x, S x → x ≠ nan := by
      rintro x hx rfl
      exact hnan hx
    refine ⟨?_, ?_, ?_⟩
    · intro a b ha hb
      rw [partialCmp_of_ne_nan (hne a ha) (hne b hb), Option.some_inj]
    · intro a b _ _
      exact (cmp_swap a b).symm
    · intro a b c ha hb hc
      exact cmp_le_trans (hne a ha) (hne b hb) (hne c hc)

/-- Infinities whose sum is NaN. -/
def Opposite (a b : F64) : Prop := a = posInf ∧ b = negInf ∨ a = negInf ∧ b = posInf

theorem round_ne_nan (q : ℚ) : round q ≠ nan := by
  unfold round
  dsimp only
  split_ifs <;> simp

theorem add_eq_nan_iff {a b : F64} (ha : a ≠ nan) : add a b = nan ↔ b = nan ∨ Opposite a b := by
  cases a <;> cases b <;> simp_all [add, Opposite, round_ne_nan]

end F64

/-! ## The scores of a sorted set -/

namespace SortedSetValue

/-- The score is in one of the two indexes. -/
def Stores (z : SortedSetValue) (x : F64) : Prop :=
  (∃ m, z.getScore m = some x) ∨ ∃ b ∈ z.membersByScore, b.1 = x

variable {z : SortedSetValue} {x y : F64} {m : Bytes}

theorem key_of_mem_dropFromBucket {buckets : List (F64 × Std.ExtTreeSet Bytes compare)}
    {b : F64 × Std.ExtTreeSet Bytes compare} (h : b ∈ dropFromBucket buckets y m) :
    b.1 = y ∨ ∃ c ∈ buckets, c.1 = b.1 := by
  unfold dropFromBucket at h
  split at h
  · split at h
    · exact Or.inr ⟨b, (OrdList.erase_sublist y buckets).subset h, rfl⟩
    · exact OrdList.key_of_mem_insert F64.cmp h
  · exact Or.inr ⟨b, h, rfl⟩

/-- Removing a member stores no new score. -/
theorem stores_remove (h : (z.remove m).Stores x) : z.Stores x := by
  unfold remove at h
  cases hm : z.memberScores[m]? with
  | none =>
      rw [hm] at h
      exact h
  | some old =>
      rw [hm] at h
      rcases h with ⟨m', hm'⟩ | ⟨b, hb, rfl⟩
      · refine Or.inl ⟨m', ?_⟩
        unfold getScore at *
        dsimp only at hm'
        rw [Std.ExtTreeMap.getElem?_erase] at hm'
        split at hm'
        · cases hm'
        · exact hm'
      · rcases key_of_mem_dropFromBucket hb with hold | ⟨c, hc, hcb⟩
        · exact Or.inl ⟨m, by rw [hold]; exact hm⟩
        · exact Or.inr ⟨c, hc, hcb⟩

/-- Adding a member stores no score but its own. -/
theorem stores_add (h : (z.add y m).Stores x) : x = y ∨ z.Stores x := by
  rw [← add_remove] at h
  have hnone := z.getElem?_remove_self m
  unfold add at h
  rw [hnone] at h
  rcases h with ⟨m', hm'⟩ | ⟨b, hb, rfl⟩
  · unfold getScore at hm'
    dsimp only at hm'
    rw [Tables.getElem?_insert_eq] at hm'
    split at hm'
    · exact Or.inl (Option.some_inj.mp hm').symm
    · exact Or.inr (stores_remove (Or.inl ⟨m', hm'⟩))
  · rcases OrdList.key_of_mem_insert F64.cmp hb with hy | ⟨c, hc, hcb⟩
    · exact Or.inl hy
    · exact Or.inr (stores_remove (Or.inr ⟨c, hc, hcb⟩))

theorem not_stores_new : ¬ new.Stores x := by
  rintro (⟨m, hm⟩ | ⟨b, hb, -⟩)
  · simp [new, getScore] at hm
  · cases hb

end SortedSetValue

/-- No score of the value is NaN. -/
def CacheValue.NanFree : CacheValue → Prop
  | .sortedSet z => ¬ z.Stores .nan
  | _ => True

theorem nanFreeInvariant : ValueInvariant CacheValue.NanFree where
  string _ _ := trivial
  hash _ := trivial
  list _ := trivial
  set _ := trivial
  withExpiry e v h := by
    cases v with
    | sortedSet z => exact h
    | _ => trivial
  remove _ _ h hnan := h (SortedSetValue.stores_remove hnan)

/-! ## What a command inserts -/

/-- The slot holds a sorted set, or nothing: `ZADD` and `ZINCRBY` go through. -/
def Slot.TakesScores (slot : Slot) : Prop := ∀ v, slot = some v → ∃ z, v = .sortedSet z

/-- The score `ZINCRBY` adds to, if the key holds a live sorted set; a new member starts at 0. -/
def Slot.baseScore (now : Instant) (member : Bytes) (slot : Slot) : Option F64 :=
  match Slot.live now slot with
  | some (.sortedSet z) => some ((z.getScore member).getD (.fin 0))
  | _ => none

section

variable [KeyHash]

/-- The command inserts the score into the sorted set at the key. -/
def Inserts (now : Instant) (s : CacheStorage) (key : Bytes) (x : F64) : Command → Prop
  | .zadd k members => k = key ∧ (s.slotAt k).TakesScores ∧ ∃ m, (x, m) ∈ members
  | .zincrBy k delta member => k = key ∧ (s.slotAt k).TakesScores ∧
      x = (((s.slotAt k).baseScore now member).map (F64.add · delta)).getD delta
  | _ => False

/-- The command carries no NaN to a sorted set, and does not add opposite infinities. -/
def KeepsOrder (now : Instant) (s : CacheStorage) : Command → Prop
  | .zadd k members => (s.slotAt k).TakesScores → ∀ p ∈ members, p.1 ≠ .nan
  | .zincrBy k delta member => (s.slotAt k).TakesScores →
      delta ≠ .nan ∧ ∀ b, (s.slotAt k).baseScore now member = some b → ¬ F64.Opposite b delta
  | _ => True

end

namespace Slot

variable {slot : Slot} {now : Instant} {members : List (F64 × Bytes)} {delta : F64} {member : Bytes}

theorem baseScore_fresh (member : Bytes) {z : SortedSetValue} (h : expiredAt now z.expiresAt = false) :
    baseScore now member (some (.sortedSet z)) = some ((z.getScore member).getD (.fin 0)) := by
  have hx : (CacheValue.sortedSet z).isExpired now = false := h
  unfold baseScore
  rw [Slot.live_fresh hx]

/-- In a storage without NaN the score that is added to is none. -/
theorem baseScore_ne_nan (hs : slot.Holds CacheValue.NanFree) {b : F64} (h : slot.baseScore now member = some b) :
    b ≠ .nan := by
  rintro rfl
  unfold baseScore at h
  split at h
  · rename_i z hz
    have hfree : ¬ z.Stores .nan := hs _ (Slot.live_eq_some.mp hz).1
    cases hm : z.getScore member with
    | none =>
        rw [hm] at h
        cases h
    | some x =>
        rw [hm] at h
        exact hfree (Or.inl ⟨member, hm.trans h⟩)
  · cases h

theorem nanFree_zadd (hmembers : slot.TakesScores → ∀ p ∈ members, p.1 ≠ .nan)
    (hs : slot.Holds CacheValue.NanFree) : Slot.Holds CacheValue.NanFree (zadd members slot).2 := by
  have hfold : ∀ (l : List (F64 × Bytes)) (z : SortedSetValue), (∀ p ∈ l, p.1 ≠ .nan) → ¬ z.Stores .nan →
      ¬ (l.foldl (fun z p => z.add p.1 p.2) z).Stores .nan := by
    intro l
    induction l with
    | nil => exact fun z _ hz => hz
    | cons p l ih =>
        intro z hl hz
        refine ih _ (fun q hq => hl q (List.mem_cons_of_mem _ hq)) ?_
        intro hnan
        rcases SortedSetValue.stores_add hnan with hp | hold
        · exact hl p List.mem_cons_self hp.symm
        · exact hz hold
  cases slot with
  | none =>
      refine holds_some.mpr (hfold members _ (hmembers ?_) SortedSetValue.not_stores_new)
      rintro v ⟨⟩
  | some v =>
      cases v with
      | sortedSet z =>
          refine holds_some.mpr (hfold members z (hmembers ?_) (holds_some.mp hs))
          rintro v ⟨⟩
          exact ⟨z, rfl⟩
      | _ => exact hs

theorem nanFree_zincrBy
    (hdelta : slot.TakesScores → delta ≠ .nan ∧ ∀ b, slot.baseScore now member = some b → ¬ F64.Opposite b delta)
    (hs : slot.Holds CacheValue.NanFree) :
    Slot.Holds CacheValue.NanFree (zincrBy now delta member slot).2 := by
  have hadd : ∀ {z : SortedSetValue} {x : F64}, ¬ z.Stores .nan → x ≠ .nan → ¬ (z.add x member).Stores .nan := by
    intro z x hz hx hnan
    rcases SortedSetValue.stores_add hnan with h | h
    · exact hx h.symm
    · exact hz h
  cases slot with
  | none =>
      have htakes : TakesScores none := by
        rintro v ⟨⟩
      exact holds_some.mpr (hadd SortedSetValue.not_stores_new (hdelta htakes).1)
  | some v =>
      cases v with
      | sortedSet z =>
          have htakes : TakesScores (some (.sortedSet z)) := by
            rintro v ⟨⟩
            exact ⟨z, rfl⟩
          obtain ⟨hnan, hsum⟩ := hdelta htakes
          cases hx : expiredAt now z.expiresAt with
          | true =>
              have hnew : (zincrBy now delta member (some (.sortedSet z))).2
                  = some (.sortedSet (SortedSetValue.new.add delta member)) := by
                have hx' : (CacheValue.sortedSet z).isExpired now = true := hx
                simp [zincrBy, writeOrCreate, insertNew, Kind.sortedSet, hx']
              rw [hnew]
              exact holds_some.mpr (hadd SortedSetValue.not_stores_new hnan)
          | false =>
              have hbase := baseScore_fresh member hx
              have hbase_ne := baseScore_ne_nan hs hbase
              have hscore : ((z.getScore member).getD (.fin 0)).add delta ≠ .nan := by
                rw [Ne, F64.add_eq_nan_iff hbase_ne]
                rintro (h | h)
                · exact hnan h
                · exact hsum _ hbase h
              have hnew : (zincrBy now delta member (some (.sortedSet z))).2
                  = some (.sortedSet (z.add (((z.getScore member).getD (.fin 0)).add delta) member)) := by
                have hx' : (CacheValue.sortedSet z).isExpired now = false := hx
                simp [zincrBy, writeOrCreate, Kind.sortedSet, hx']
              rw [hnew]
              exact holds_some.mpr (hadd (holds_some.mp hs) hscore)
      | _ => exact hs

end Slot

section

variable [KeyHash] {s : CacheStorage} {now : Instant} {c : Command}

/-- A command that inserts no NaN keeps the order. -/
theorem keepsOrder_of_inserts (h : ∀ key, ¬ Inserts now s key .nan c) : KeepsOrder now s c := by
  cases c with
  | zadd k members =>
      intro htakes p hp hnan
      exact h k ⟨rfl, htakes, p.2, by rw [← hnan]; exact hp⟩
  | zincrBy k delta member =>
      intro htakes
      constructor
      · rintro rfl
        refine h k ⟨rfl, htakes, ?_⟩
        cases (s.slotAt k).baseScore now member with
        | none => rfl
        | some b => cases b <;> rfl
      · rintro b hb hopp
        refine h k ⟨rfl, htakes, ?_⟩
        rw [hb]
        rcases hopp with ⟨rfl, rfl⟩ | ⟨rfl, rfl⟩ <;> rfl
  | _ => trivial

/-- On a storage without NaN, a command that keeps the order inserts none. -/
theorem not_inserts_nan (hs : s.Holds CacheValue.NanFree) (hc : KeepsOrder now s c) (key : Bytes) :
    ¬ Inserts now s key .nan c := by
  cases c with
  | zadd k members =>
      rintro ⟨-, htakes, m, hm⟩
      exact hc htakes _ hm rfl
  | zincrBy k delta member =>
      rintro ⟨-, htakes, hx⟩
      obtain ⟨hdelta, hsum⟩ := hc htakes
      cases hb : (s.slotAt k).baseScore now member with
      | none =>
          rw [hb] at hx
          exact hdelta hx.symm
      | some b =>
          rw [hb] at hx
          rcases (F64.add_eq_nan_iff (Slot.baseScore_ne_nan (hs k) hb)).mp hx.symm with h | h
          · exact hdelta h
          · exact hsum b hb h
  | _ => exact fun h => h

/-- A command that keeps the order leaves no NaN. -/
theorem nanFree_effect (env : Env) (hs : s.Holds CacheValue.NanFree) (hc : KeepsOrder env.now s c) :
    (effect env c s).Holds CacheValue.NanFree := by
  refine effect_holds nanFreeInvariant env hs ?_ ?_ ?_
  · rintro key members rfl
    exact Slot.nanFree_zadd hc (hs key)
  · rintro key delta member rfl
    exact Slot.nanFree_zincrBy hc (hs key)
  · rintro key id fields rfl
    refine holds_xaddArm (fun requested => ?_) id (hs key)
    refine Slot.holds_writeOrCreate Kind.stream env.now ?_ ?_ (hs key)
    · intro a t _
      trivial
    · intro t _ _
      trivial

/-! ## Scripts -/

/-- A script reaches no sorted set but to delete it or to put something else in its place. -/
theorem bridgeArm_holds {V : CacheValue → Prop} (hV : ValueInvariant V) (env : Env) (op : BridgeOp)
    (args : List Bytes) (hs : s.Holds V) : (bridgeArm env op args s).2.Holds V := by
  cases op with
  | get => cases args <;> exact hs
  | «exists» => exact hs
  | hget => rcases args with _ | ⟨key, _ | ⟨field, _⟩⟩ <;> exact hs
  | set =>
      rcases args with _ | ⟨key, _ | ⟨value, _⟩⟩
      · exact hs
      · exact hs
      · exact holds_onKey hs fun _ => Slot.holds_set hV env.now value none
  | del =>
      rcases args with _ | ⟨key, _⟩
      · exact hs
      · exact holds_setEntry hs Slot.holds_none
  | incr =>
      rcases args with _ | ⟨key, _⟩
      · exact hs
      · exact holds_onKey hs fun _ =>
          Slot.holds_writeAny Kind.string (Slot.holds_some.mpr (hV.string _ _)) fun _ _ => hV.string _ _
  | decr =>
      rcases args with _ | ⟨key, _⟩
      · exact hs
      · exact holds_onKey hs fun _ =>
          Slot.holds_writeAny Kind.string (Slot.holds_some.mpr (hV.string _ _)) fun _ _ => hV.string _ _
  | hset =>
      rcases args with _ | ⟨key, _ | ⟨field, _ | ⟨value, _⟩⟩⟩
      · exact hs
      · exact hs
      · exact hs
      · exact holds_onKey hs fun _ => holds_hset hV field value
  | lpush =>
      rcases args with _ | ⟨key, _ | ⟨value, values⟩⟩
      · exact hs
      · exact hs
      · exact holds_onKey hs fun _ =>
          Slot.holds_writeAny Kind.list (Slot.holds_some.mpr (hV.list _)) fun _ _ => hV.list _
  | rpush =>
      rcases args with _ | ⟨key, _ | ⟨value, values⟩⟩
      · exact hs
      · exact hs
      · exact holds_onKey hs fun _ =>
          Slot.holds_writeAny Kind.list (Slot.holds_some.mpr (hV.list _)) fun _ _ => hV.list _
  | sadd =>
      rcases args with _ | ⟨key, _ | ⟨member, members⟩⟩
      · exact hs
      · exact hs
      · exact holds_onKey hs fun _ =>
          Slot.holds_writeAny Kind.set (Slot.holds_some.mpr (hV.set _)) fun _ _ => hV.set _

theorem runScript_holds [Lua] {V : CacheValue → Prop} (hV : ValueInvariant V) (envs : Nat → Env) (acl : AclCheck)
    (n : Nat) (script : Script) (hs : s.Holds V) : (runScript envs acl n script s).2.Holds V := by
  induction script generalizing n s with
  | done r => exact hs
  | call cmd args next ih =>
      refine ih _ (n + 1) ?_
      unfold redisCallBridge
      dsimp only
      split
      · exact hs
      · split
        · exact bridgeArm_holds hV _ _ args hs
        · exact hs

end

/-! ## Runs -/

section

variable [KeyHash] [Lua] [Codec] (cfg : ServerConfig)

/-- The command an event executes, with what it observes: one that arrives outside a transaction, or the next one of
    an `EXEC`, past the gates. -/
def World.executes (w : World) : WorldEvent → Option (Readings × Command)
  | .receive i (.ok c) rd =>
      if (w.clients i).alive && (w.clients i).running.isNone && (txControl c).isNone &&
        !(w.clients i).conn.tx.inMulti && (gate cfg (w.clients i).conn c).isNone then some (rd, c) else none
  | .receive _ (.error _) _ => none
  | .proceed i rd =>
      match (w.clients i).running with
      | some (c :: _) =>
          if (w.clients i).alive && (gate cfg (w.clients i).conn c).isNone then some (rd, c) else none
      | _ => none

/-- The scores that are stored in the sorted set at a key. -/
def World.Stored (w : World) (key : Bytes) (x : F64) : Prop :=
  ∃ z, w.server.storage.slotAt key = some (.sortedSet z) ∧ z.Stores x

/-- The scores that are stored in the sorted set at a key, or that the event inserts into it. -/
def World.Scored (w : World) (e : WorldEvent) (key : Bytes) (x : F64) : Prop :=
  w.Stored key x ∨ ∃ rd c, w.executes cfg e = some (rd, c) ∧ Inserts rd.env.now w.server.storage key x c

/-- The comparison is an order on the scores of every sorted set, the ones being inserted included. -/
def World.Ordered (w : World) (e : WorldEvent) : Prop := ∀ key, F64.TotalOn (w.Scored cfg e key)

/-- The event executes no command that brings NaN to a sorted set. -/
def World.Admits (w : World) (e : WorldEvent) : Prop :=
  ∀ rd c, w.executes cfg e = some (rd, c) → KeepsOrder rd.env.now w.server.storage c

variable {cfg} {w w' : World} {e : WorldEvent}

theorem perform_nanFree {rd : Readings} {c : Command} {srv : Server} {conn : ConnState} (htx : txControl c = none)
    (hs : srv.storage.Holds CacheValue.NanFree) (hc : KeepsOrder rd.env.now srv.storage c) :
    (perform cfg rd c srv conn).2.1.storage.Holds CacheValue.NanFree := by
  cases hscript : isScript c with
  | false =>
      rcases perform_storage cfg rd htx hscript srv conn with ⟨hsame, -⟩ | ⟨a, ha, hrun⟩
      · rw [hsame]
        exact hs
      · have heffect : effect rd.env c srv.storage = (a.run srv.storage).2 := by
          simp only [effect, dispatch, ha, Option.map_some, Option.getD_some]
        rw [hrun, ← heffect]
        exact nanFree_effect rd.env hs hc
  | true =>
      cases c with
      | luaEval script keys argv =>
          simp only [perform, runLoaded, persistScriptWrites_storage]
          exact runScript_holds nanFreeInvariant _ _ _ _ hs
      | luaEvalSha sha1 keys argv =>
          simp only [perform]
          split
          · simp only [runLoaded, persistScriptWrites_storage]
            exact runScript_holds nanFreeInvariant _ _ _ _ hs
          · exact hs
      | _ => cases hscript

/-- A command past the gates is performed on the storage; one that is refused leaves it. -/
theorem executePlain_server (cfg : ServerConfig) (rd : Readings) (c : QueuedCommand) (srv : Server) (conn : ConnState) :
    (executePlain cfg rd c srv conn).2.1 = srv ∨ (gate cfg conn c).isNone = true ∧
      ∃ srv', srv'.storage = srv.storage ∧
        (executePlain cfg rd c srv conn).2.1 = (perform cfg rd c srv' conn).2.1 := by
  cases hgate : gate cfg conn c with
  | some r =>
      left
      simp only [executePlain, hgate]
  | none =>
      right
      refine ⟨rfl, if isWriteCommand c then srv.logWrite rd.env.unixMs c else srv, ?_, ?_⟩
      · split <;> rfl
      · simp only [executePlain, hgate]

/-- An event that executes nothing leaves the storage; one that executes a command performs it on the storage. -/
theorem World.step_storage (h : w.step cfg e = some w') :
    w'.server.storage = w.server.storage ∨
      ∃ rd c srv conn, w.executes cfg e = some (rd, c) ∧ txControl c = none ∧ srv.storage = w.server.storage ∧
        w'.server = (perform cfg rd c srv conn).2.1 := by
  rcases World.step_cases h with ⟨i, input, rd, rfl, halive, hidle, rfl⟩ | ⟨i, rd, p, rfl, halive, hp, rfl⟩
  · -- an input: only a command outside a transaction is executed
    show ((w.clients i).receive cfg input rd w.server).1.storage = _ ∨ ∃ rd' c srv conn, _ ∧ _ ∧ _ ∧
      ((w.clients i).receive cfg input rd w.server).1 = _
    cases input with
    | error err => cases err <;> exact Or.inl rfl
    | ok c =>
        simp only [Client.receive]
        split
        · rename_i htx
          split
          · exact Or.inl rfl
          · rename_i hmulti
            rcases executePlain_server cfg rd ⟨c, htx⟩ w.server (w.clients i).conn with hsame | ⟨hgate, srv, hsrv, hrun⟩
            · left
              show (executePlain cfg rd ⟨c, htx⟩ w.server (w.clients i).conn).2.1.storage = _
              rw [hsame]
            · refine Or.inr ⟨rd, c, srv, (w.clients i).conn, ?_, htx, hsrv, hrun⟩
              simp [World.executes, halive, hidle, htx, hmulti, hgate]
        · split <;> exact Or.inl rfl
  · -- the next command of an `EXEC`, or its end
    show p.1.storage = _ ∨ ∃ rd' c srv conn, _ ∧ _ ∧ _ ∧ p.1 = _
    unfold Client.proceed at hp
    split at hp
    · cases hp
    · cases hp
      exact Or.inl rfl
    · rename_i c rest hrunning
      cases hp
      rcases executePlain_server cfg rd c w.server (w.clients i).conn with hsame | ⟨hgate, srv, hsrv, hrun⟩
      · left
        show (executePlain cfg rd c w.server (w.clients i).conn).2.1.storage = _
        rw [hsame]
      · refine Or.inr ⟨rd, c.1, srv, (w.clients i).conn, ?_, c.2, hsrv, hrun⟩
        simp [World.executes, halive, hrunning, hgate]

/-- An event that brings no NaN leaves none. -/
theorem World.step_nanFree (hw : w.server.storage.Holds CacheValue.NanFree) (he : w.Admits cfg e)
    (h : w.step cfg e = some w') : w'.server.storage.Holds CacheValue.NanFree := by
  rcases World.step_storage h with hsame | ⟨rd, c, srv, conn, hexec, htx, hsrv, hrun⟩
  · rw [hsame]
    exact hw
  · rw [hrun]
    rw [← hsrv] at hw
    refine perform_nanFree htx hw ?_
    rw [hsrv]
    exact he rd c hexec

omit [Lua] [Codec] in
theorem World.not_stored_nan (hw : w.server.storage.Holds CacheValue.NanFree) (key : Bytes) : ¬ w.Stored key .nan := by
  rintro ⟨z, hz, hnan⟩
  exact hw key _ hz hnan

omit [Lua] [Codec] in
/-- On a storage without NaN the scores are ordered as soon as the event brings none. -/
theorem World.ordered_of_admits (hw : w.server.storage.Holds CacheValue.NanFree) (he : w.Admits cfg e) :
    w.Ordered cfg e := by
  intro key
  rw [F64.totalOn_iff]
  rintro (hstored | ⟨rd, c, hexec, hins⟩)
  · exact World.not_stored_nan hw key hstored
  · exact not_inserts_nan hw (he rd c hexec) key hins

omit [Lua] [Codec] in
theorem World.admits_of_ordered (h : w.Ordered cfg e) : w.Admits cfg e := by
  intro rd c hexec
  refine keepsOrder_of_inserts fun key hins => ?_
  exact F64.totalOn_iff.mp (h key) (Or.inr ⟨rd, c, hexec, hins⟩)

/-- **When every score that reaches a sorted set is ordered**, over every run of any number of connections from an
    empty store: exactly when no executed command brings NaN; and then the scores stored at the end are ordered
    too. -/
theorem scores_ordered_iff (cfg : ServerConfig) {srv : Server} (hsrv : srv.storage = .new) (es : List WorldEvent) :
    (Along (World.step cfg) (World.Ordered cfg) (World.start srv) es ↔
      Along (World.step cfg) (World.Admits cfg) (World.start srv) es) ∧
    ∀ w, Along (World.step cfg) (World.Admits cfg) (World.start srv) es →
      run (World.step cfg) (World.start srv) es = some w → ∀ key, F64.TotalOn (w.Stored key) := by
  have hstart : (World.start srv).server.storage.Holds CacheValue.NanFree := by
    show srv.storage.Holds CacheValue.NanFree
    rw [hsrv]
    exact holds_new
  refine ⟨⟨?_, ?_⟩, ?_⟩
  · intro h
    exact along_of_invariant (I := fun _ => True) (fun _ _ _ _ _ _ => trivial)
      (fun _ _ _ => World.admits_of_ordered) es _ h trivial
  · intro h
    exact along_of_invariant (I := fun w => w.server.storage.Holds CacheValue.NanFree)
      (fun _ _ _ hI hP hstep => World.step_nanFree hI hP hstep) (fun _ _ => World.ordered_of_admits) es _ h hstart
  · intro w hadmits hrun key
    rw [F64.totalOn_iff]
    refine World.not_stored_nan ?_ key
    exact run_invariant (I := fun w => w.server.storage.Holds CacheValue.NanFree)
      (fun _ _ _ hI hP hstep => World.step_nanFree hI hP hstep) es _ _ hadmits hrun hstart

end

theorem scores_ordered_inf :
    let _ := shortKeys
    let _ := noScripts
    let _ := incrCodec
    let _ := noEscapes
    Along (World.step ⟨none, none, none⟩) (World.Ordered ⟨none, none, none⟩) (World.start Server.fresh)
      [.frame 0 [utf8 "ZADD", utf8 "k", utf8 "inf", utf8 "a"]] := by
  intro _ _ _ _
  refine (scores_ordered_iff ⟨none, none, none⟩ rfl _).1.mpr ⟨?_, fun _ _ => trivial⟩
  intro rd c hexec
  have hc : World.executes ⟨none, none, none⟩ (World.start Server.fresh)
      (.frame 0 [utf8 "ZADD", utf8 "k", utf8 "inf", utf8 "a"])
      = some ((Request.plain (durationSecs 1) .exec).readings, .zadd (utf8 "k") [(.posInf, utf8 "a")]) := rfl
  rw [hc] at hexec
  cases hexec
  intro _ p hp
  rw [List.mem_singleton.mp hp]
  simp

/-- `ZADD k nan a` is accepted and stores NaN; `ZADD k inf a` and `ZINCRBY k -inf a` make one. -/
theorem nan_reaches_a_sorted_set :
    let _ := shortKeys
    let _ := noScripts
    let _ := incrCodec
    let _ := noEscapes
    ¬ Along (World.step ⟨none, none, none⟩) (World.Ordered ⟨none, none, none⟩) (World.start Server.fresh)
        [.frame 0 [utf8 "ZADD", utf8 "k", utf8 "nan", utf8 "a"]] ∧
      ¬ Along (World.step ⟨none, none, none⟩) (World.Ordered ⟨none, none, none⟩) (World.start Server.fresh)
        [.frame 0 [utf8 "ZADD", utf8 "k", utf8 "inf", utf8 "a"],
          .frame 0 [utf8 "ZINCRBY", utf8 "k", utf8 "-inf", utf8 "a"]] := by
  intro _ _ _ _
  constructor
  · rintro ⟨h, -⟩
    refine F64.totalOn_iff.mp (h (utf8 "k")) (Or.inr ⟨_, _, rfl, rfl, ?_, utf8 "a", List.mem_singleton_self _⟩)
    rintro v ⟨⟩
  · rintro ⟨-, h⟩
    have h2 := (h _ rfl).1 (utf8 "k")
    refine F64.totalOn_iff.mp h2 (Or.inr ⟨_, _, rfl, rfl, ?_, ?_⟩)
    · intro v hv
      have hset : some v = some (.sortedSet (SortedSetValue.new.add .posInf (utf8 "a"))) := hv.symm.trans (by decide)
      exact ⟨_, Option.some_inj.mp hset⟩
    · decide

end FerricCache
