import FerricCache.Persistence.TimedRun

/-!
# `FerricCache.Persistence.TimedReplay` — replay at a later time

Every command of a timed run, one after the other: what it leaves live and what replay leaves, key by key.
As long as no command lets the difference of the two clocks out (`InTime`), the keys without a deadline come
back exactly (`replay_keeps_undated`). The whole log is replayed at one time.
-/

namespace FerricCache

open Lib.Run

variable [KeyHash]

section Step

variable {replayAt env : Env} {x : TimedState} {t : CacheStorage}

/-! ## Overwriting -/

omit [KeyHash] in
theorem deadline_mono {now : Instant} {ttl : Option Nat} {e : Option Instant}
    (h : Slot.deadline now ttl = some e) : e.isSome = ttl.isSome ∧ expiredAt now e = false := by
  cases ttl with
  | none =>
      cases h
      exact ⟨rfl, rfl⟩
  | some d =>
      obtain ⟨at', hat, rfl⟩ := Option.map_eq_some_iff.mp h
      refine ⟨rfl, decide_eq_false ?_⟩
      unfold instantAdd at hat
      split at hat
      · cases hat
        exact Nat.not_lt.mpr (Nat.le_add_right _ _)
      · cases hat

/-- `SET` and `SETEX` that do not panic on either side. -/
theorem follows_set {c : Command} {key value : Bytes} {ttl : Option Nat} (h : TimedRel replayAt.now x t)
    (hle : x.clock ≤ env.now)
    (hdisp : dispatch env c x.storage
      = some ((x.storage.onKey key (Slot.set env.now value ttl)).1.map fun _ => .ok,
          (x.storage.onKey key (Slot.set env.now value ttl)).2))
    (happ : applyWriteCommand replayAt c t = applySet replayAt t key value ttl)
    (hret : Returns env c x.storage)
    (hfits : ∀ d, ttl = some d → instantAdd replayAt.now d ≠ none)
    (hlost : ∀ k, k ≠ key → (x.wrote replayAt env c).lost k = x.lost k) : Follows replayAt env c x t := by
  obtain ⟨e, he⟩ : ∃ e, Slot.deadline env.now ttl = some e := by
    rw [← Option.ne_none_iff_exists']
    intro hnone
    apply hret
    rw [hdisp]
    simp only [Option.map_some, CacheStorage.onKey, Slot.set, hnone, Option.map_none]
  obtain ⟨e', he'⟩ : ∃ e, Slot.deadline replayAt.now ttl = some e := by
    cases ttl with
    | none => exact ⟨none, rfl⟩
    | some d =>
        obtain ⟨at', hat⟩ := Option.ne_none_iff_exists'.mp (hfits d rfl)
        exact ⟨some at', by simp only [Slot.deadline, hat, Option.map_some]⟩
  refine follows_overwrite key (some (.string value e)) (some (.string value e')) h hle ?_ ?_ hlost ?_ ?_
  · unfold effect
    rw [hdisp]
    simp only [Option.map_some, Option.getD_some, CacheStorage.onKey, Slot.set, he]
  · rw [happ]
    simp only [applySet, CacheStorage.onKey, Slot.set, he', Option.map_some]
  · refine .some ⟨e', rfl, ?_⟩
    rw [(deadline_mono he').1]
    exact (deadline_mono he).1.symm
  · exact Slot.unexpired_some.mpr (deadline_mono he').2

theorem slotAt_mset_of_mem {pairs : List (Bytes × Bytes)} {k : Bytes} (h : k ∈ pairs.map Prod.fst) :
    ∃ v, ∀ s : CacheStorage, (s.mset pairs).slotAt k = some (.string v none) := by
  induction pairs with
  | nil => cases h
  | cons p pairs ih =>
      by_cases hk : k ∈ pairs.map Prod.fst
      · obtain ⟨v, hv⟩ := ih hk
        exact ⟨v, fun s => hv _⟩
      · obtain rfl : k = p.1 := by
          rcases List.mem_cons.mp h with h | h
          · exact h
          · exact absurd h hk
        refine ⟨p.2, fun s => ?_⟩
        show ((s.setEntry p.1 (some (.string p.2 none))).mset pairs).slotAt p.1 = _
        rw [slotAt_mset_of_notMem hk, CacheStorage.slotAt_setEntry_self]

theorem follows_mset {pairs : List (Bytes × Bytes)} (h : TimedRel replayAt.now x t)
    (hle : x.clock ≤ env.now) : Follows replayAt env (.mset pairs) x t := by
  refine ⟨_, rfl, ?_⟩
  intro k
  show KeyRel _ env.now replayAt.now ((x.storage.mset pairs).slotAt k) ((t.mset pairs).slotAt k)
  by_cases hk : k ∈ pairs.map Prod.fst
  · obtain ⟨v, hv⟩ := slotAt_mset_of_mem hk
    rw [hv, hv]
    exact .inStep (Slot.unexpired_some.mpr rfl) (Slot.inStep_refl _)
  · have hlost : (x.wrote replayAt env (.mset pairs)).lost k = x.lost k := by
      have ho : overwrites env (.mset pairs) x.storage k = false := by
        simpa [overwrites] using hk
      simp [TimedState.wrote, ho, expiresMeanwhile]
    rw [slotAt_mset_of_notMem hk, slotAt_mset_of_notMem hk, hlost]
    exact (h k).mono hle

/-! ## Deadlines -/

omit [KeyHash] in
theorem instantAdd_ge {now at' : Instant} {d : Nat} (h : instantAdd now d = some at') : now ≤ at' := by
  unfold instantAdd at h
  split at h
  · cases h
    exact Nat.le_add_right _ _
  · cases h

/-- `EXPIRE` and `PEXPIRE`. -/
theorem follows_expire {c : Command} {key : Bytes} {duration : Option Nat} (h : TimedRel replayAt.now x t)
    (hle : x.clock ≤ env.now)
    (hdisp : dispatch env c x.storage = some (x.storage.onKey key (expireArm env.now duration)))
    (happ : applyWriteCommand replayAt c t = applyExpire replayAt t key duration)
    (hret : Returns env c x.storage)
    (hfits : ∀ d, duration = some d → instantAdd replayAt.now d ≠ none)
    (hord : Ordinary replayAt env c x) : Follows replayAt env c x t := by
  have heff : effect env c x.storage
      = x.storage.setEntry key (expireArm env.now duration (x.storage.slotAt key)).2 := by
    unfold effect
    rw [hdisp]
    rfl
  cases duration with
  | none =>
      refine follows_onKey key id id h hle heff ?_ (fun k _ => hord.lost k) ?_
      · rw [happ]
        show (some (), t) = (some (), t.setEntry key (t.slotAt key))
        rw [CacheStorage.setEntry_slotAt]
      · intro hk
        rw [hord.lost]
        exact hk
  | some d =>
      obtain ⟨at'', hat'⟩ := Option.ne_none_iff_exists'.mp (hfits d rfl)
      obtain ⟨at', hat⟩ : ∃ at', instantAdd env.now d = some at' := by
        rw [← Option.ne_none_iff_exists']
        intro hnone
        apply hret
        rw [hdisp]
        simp only [Option.map_some, CacheStorage.onKey, expireArm, hnone]
      refine follows_onKey key (fun slot => (Slot.setExpiry env.now at' slot).2)
        (fun slot => (Slot.setExpiry replayAt.now at'' slot).2) h hle ?_ ?_ (fun k _ => hord.lost k) ?_
      · rw [heff]
        simp only [expireArm, hat]
      · rw [happ]
        simp only [applyExpire, applyExpiry, hat', applyKey, CacheStorage.onKey]
      · intro hk
        rw [hord.lost]
        exact hk.setExpiry at' (instantAdd_ge hat')

omit [KeyHash] in
theorem unixSecs_mono {env env' : Env} (h : env.unixMs ≤ env'.unixMs) : env.unixSecs ≤ env'.unixSecs :=
  Nat.div_le_div_right (UInt64.le_iff_toNat_le.mp h)

/-- `EXPIREAT` with a timestamp that is not in the future: both sides delete the key, or replay skips a
    timestamp before the epoch where there is nothing to delete. -/
theorem follows_expireAt_past {key : Bytes} {n : Int64} (h : TimedRel replayAt.now x t)
    (hle : x.clock ≤ env.now) (hwall : env.unixMs ≤ replayAt.unixMs)
    (hexact : ReplayExact (.expireAt key n) x.storage) (hpast : n.toInt ≤ (env.unixSecs : Int)) :
    Follows replayAt env (.expireAt key n) x t := by
  have hmean : ∀ k, expiresMeanwhile replayAt env (.expireAt key n) x.storage k = false := by
    intro k
    have hnot : ¬ ((env.unixSecs : Int) < n.toInt ∧ n.toInt ≤ replayAt.unixSecs) := by omega
    simp [expiresMeanwhile, hnot]
  have heff : effect env (.expireAt key n) x.storage = x.storage.setEntry key none := by
    show x.storage.setEntry key (expireAtArm env n (x.storage.slotAt key)).2 = _
    rw [expireAtArm_past hpast]
  have hother : ∀ k, k ≠ key → (x.wrote replayAt env (.expireAt key n)).lost k = x.lost k := by
    intro k hk
    simp [TimedState.wrote, hmean k, overwrites, hk]
  by_cases hneg : n.toInt < 0
  · have hnone : x.storage.slotAt key = none := hexact.resolve_left (by omega)
    have happ : applyWriteCommand replayAt (.expireAt key n) t = (some (), t.setEntry key (t.slotAt key)) := by
      rw [CacheStorage.setEntry_slotAt]
      show applyExpireAt replayAt t key n = (some (), t)
      simp only [applyExpireAt, tryU64, if_pos hneg]
    refine follows_onKey key (fun _ => none) id h hle heff happ hother ?_
    intro hk
    have hlost : (x.wrote replayAt env (.expireAt key n)).lost key = x.lost key := by
      have hnot : ¬ (0 ≤ n.toInt ∧ n.toInt ≤ (env.unixSecs : Int)) := by omega
      simp [TimedState.wrote, hmean key, overwrites, hnot]
    rw [hlost]
    rw [hnone] at hk
    exact hk
  · have happ : applyWriteCommand replayAt (.expireAt key n) t = (some (), t.setEntry key none) := by
      have hnot : ¬ replayAt.unixSecs < n.toInt.toNat := by
        have := unixSecs_mono hwall
        omega
      show applyExpireAt replayAt t key n = _
      simp only [applyExpireAt, tryU64, if_neg hneg, if_neg hnot]
      rfl
    exact follows_overwrite key none none h hle heff happ hother .none (Slot.unexpired_none _)

/-- `EXPIREAT` with a timestamp in the future, which may have passed when it is replayed. -/
theorem follows_expireAt_future {key : Bytes} {n : Int64} (h : TimedRel replayAt.now x t)
    (hle : x.clock ≤ env.now) (hret : Returns env (.expireAt key n) x.storage)
    (hfits : ∀ d, replayTtl replayAt (.expireAt key n) = some d → instantAdd replayAt.now d ≠ none)
    (hfuture : (env.unixSecs : Int) < n.toInt) : Follows replayAt env (.expireAt key n) x t := by
  have hdisp : dispatch env (.expireAt key n) x.storage = some (x.storage.onKey key
      (expireArm env.now (some (durationSecs (n.toInt.toNat - env.unixSecs))))) := by
    show some (x.storage.onKey key (expireAtArm env n)) = _
    rw [funext (expireAtArm_future hfuture)]
  obtain ⟨at', hat⟩ :
      ∃ at', instantAdd env.now (durationSecs (n.toInt.toNat - env.unixSecs)) = some at' := by
    rw [← Option.ne_none_iff_exists']
    intro hnone
    apply hret
    rw [hdisp]
    simp only [Option.map_some, CacheStorage.onKey, expireArm, hnone]
  have heff : effect env (.expireAt key n) x.storage
      = x.storage.setEntry key (Slot.setExpiry env.now at' (x.storage.slotAt key)).2 := by
    unfold effect
    rw [hdisp]
    simp only [Option.map_some, Option.getD_some, CacheStorage.onKey, expireArm, hat]
  have hover : ∀ k, overwrites env (.expireAt key n) x.storage k = false := by
    intro k
    have hnot : ¬ (0 ≤ n.toInt ∧ n.toInt ≤ (env.unixSecs : Int)) := by omega
    simp [overwrites, hnot]
  have htry : tryU64 n = some n.toInt.toNat := if_neg (by omega)
  have hother : ∀ k, k ≠ key → (x.wrote replayAt env (.expireAt key n)).lost k = x.lost k := by
    intro k hk
    simp [TimedState.wrote, hover k, expiresMeanwhile, hk]
  by_cases hstill : replayAt.unixSecs < n.toInt.toNat
  · obtain ⟨at'', hat'⟩ := Option.ne_none_iff_exists'.mp
      (hfits (durationSecs (n.toInt.toNat - replayAt.unixSecs)) (by simp [replayTtl, htry]))
    refine follows_onKey key (fun slot => (Slot.setExpiry env.now at' slot).2)
      (fun slot => (Slot.setExpiry replayAt.now at'' slot).2) h hle heff ?_ hother ?_
    · show applyExpireAt replayAt t key n = _
      simp only [applyExpireAt, htry, if_pos hstill, applyExpiry, hat', applyKey, CacheStorage.onKey]
    · intro hk
      have hlost : (x.wrote replayAt env (.expireAt key n)).lost key = x.lost key := by
        have hnot : ¬ ((env.unixSecs : Int) < n.toInt ∧ n.toInt ≤ replayAt.unixSecs) := by omega
        simp [TimedState.wrote, hover key, expiresMeanwhile, hnot]
      rw [hlost]
      exact hk.setExpiry at' (instantAdd_ge hat')
  · refine follows_onKey key (fun slot => (Slot.setExpiry env.now at' slot).2) (fun _ => none) h hle heff
      ?_ hother ?_
    · show applyExpireAt replayAt t key n = _
      simp only [applyExpireAt, htry, if_neg hstill]
      rfl
    · intro hk
      have hlost : (x.wrote replayAt env (.expireAt key n)).lost key
          = (x.lost key || (x.storage.slotAt key).isSome) := by
        have hyes : (env.unixSecs : Int) < n.toInt ∧ n.toInt ≤ replayAt.unixSecs := by omega
        simp [TimedState.wrote, hover key, expiresMeanwhile, hyes]
      rw [hlost]
      exact hk.expireMeanwhile at'

/-! ## Two keys -/

theorem live_of_unexpired {now : Instant} {s : CacheStorage} {k : Bytes}
    (h : (s.slotAt k).Unexpired now) : s.live now k = s.slotAt k := by
  unfold CacheStorage.live
  cases hv : s.slotAt k with
  | none => rfl
  | some v => exact Slot.live_fresh (h v hv)

theorem follows_rename {key newKey : Bytes} (h : TimedRel replayAt.now x t) (hle : x.clock ≤ env.now)
    (hdep : x.lost key = false ∧ (x.storage.slotAt key).Unexpired env.now) :
    Follows replayAt env (.rename key newKey) x t := by
  have hrel := (h key).mono hle
  rw [hdep.1] at hrel
  have hstep := hrel.inStep_of hdep.2
  have hlive := live_of_unexpired hdep.2
  have hlive' := live_of_unexpired hrel.unexpired
  refine ⟨_, rfl, ?_⟩
  intro k
  show KeyRel _ env.now replayAt.now ((x.storage.rename env.now key newKey).2.slotAt k)
    ((t.rename replayAt.now key newKey).2.slotAt k)
  have hlost : (x.wrote replayAt env (.rename key newKey)).lost k
      = (x.lost k && !(k == newKey && (x.storage.slotAt key).isSome)) := by
    simp [TimedState.wrote, overwrites, expiresMeanwhile, hlive]
  rw [hlost]
  unfold CacheStorage.rename
  rw [hlive, hlive']
  generalize hs : x.storage.slotAt key = a at hstep
  generalize ht : t.slotAt key = b at hstep
  obtain _ | @⟨v, w, hvw⟩ := hstep
  · -- nothing to rename on either side
    have hsame : x.storage.setEntry key none = x.storage := by
      rw [← hs, CacheStorage.setEntry_slotAt]
    have hsame' : t.setEntry key none = t := by rw [← ht, CacheStorage.setEntry_slotAt]
    simp only [hsame, hsame', Option.isSome_none, Bool.and_false, Bool.not_false, Bool.and_true]
    exact (h k).mono hle
  · simp only [CacheStorage.slotAt_setEntry, Option.isSome_some, Bool.and_true]
    by_cases hn : k = newKey
    · rw [if_pos hn, if_pos hn]
      have hw : w.isExpired replayAt.now = false := hrel.unexpired w ht
      exact .inStep (Slot.unexpired_some.mpr hw) (.some hvw)
    · rw [if_neg hn, if_neg hn]
      by_cases hk : k = key
      · rw [if_pos hk, if_pos hk]
        exact .inStep (Slot.unexpired_none _) .none
      · rw [if_neg hk, if_neg hk]
        have hne : (k == newKey) = false := by simpa using hn
        simp only [hne, Bool.not_false, Bool.and_true]
        exact (h k).mono hle

/-- A critical section on a key that is in step and alive. -/
theorem keyRel_onKey {α : Type} {lost : Bytes → Bool} {now now' : Instant} {s t : CacheStorage} {key : Bytes}
    (f f' : Slot → α × Slot) (h : ∀ k, KeyRel (lost k) now now' (s.slotAt k) (t.slotAt k))
    (hlost : lost key = false) (hlive : (s.slotAt key).Unexpired now)
    (hm : Slot.Matched now now' (fun slot => (f slot).2) fun slot => (f' slot).2) :
    (∀ k, KeyRel (lost k) now now' ((s.onKey key f).2.slotAt k) ((t.onKey key f').2.slotAt k)) ∧
      ∀ k, (s.slotAt k).Unexpired now → ((s.onKey key f).2.slotAt k).Unexpired now := by
  have hkey := h key
  rw [hlost] at hkey
  constructor
  · intro k
    simp only [CacheStorage.onKey, CacheStorage.slotAt_setEntry]
    by_cases hk : k = key
    · rw [if_pos hk, if_pos hk]
      exact hkey.matched hlive hm
    · rw [if_neg hk, if_neg hk]
      exact h k
  · intro k hk'
    simp only [CacheStorage.onKey, CacheStorage.slotAt_setEntry]
    by_cases hk : k = key
    · rw [if_pos hk]
      exact hm.left hlive
    · rw [if_neg hk]
      exact hk'

/-- A move between two keys that are in step and alive. -/
theorem keyRel_move {τ α β : Type} {K : Kind τ} (hK : K.Dates) {lost : Bytes → Bool} {now now' : Instant}
    {missing : α} {take : τ → α × τ} {moved : α → Option β} {fresh : τ} {put : β → τ → τ}
    {source destination : Bytes} {s t : CacheStorage}
    (h : ∀ k, KeyRel (lost k) now now' (s.slotAt k) (t.slotAt k))
    (hsource : lost source = false ∧ (s.slotAt source).Unexpired now)
    (hdest : lost destination = false ∧ (s.slotAt destination).Unexpired now)
    (htake : ∀ e u, take (K.dated e u) = ((take u).1, K.dated e (take u).2))
    (hput : ∀ b e u, put b (K.dated e u) = K.dated e (put b u))
    (hfresh : ∀ b, (K.of (put b fresh)).expiresAt = none) (k : Bytes) :
    KeyRel (lost k) now now'
      ((s.move K now missing take moved fresh put source destination).2.slotAt k)
      ((t.move K now' missing take moved fresh put source destination).2.slotAt k) := by
  have huniform : K.Uniform fun u => ((.ok (take u).1 : Res α), (take u).2) := by
    intro e u
    simp only [htake]
  have hkey := h source
  rw [hsource.1] at hkey
  have hreply : (s.onKey source (CacheStorage.takeFrom K now missing take)).1
      = (t.onKey source (CacheStorage.takeFrom K now' missing take)).1 :=
    Slot.writeLive_reply hK huniform (hkey.inStep_of hsource.2) hsource.2 hkey.unexpired
  obtain ⟨hfst, hkeeps⟩ := keyRel_onKey (CacheStorage.takeFrom K now missing take)
    (CacheStorage.takeFrom K now' missing take) h hsource.1 hsource.2
    (Slot.matched_writeLive hK huniform)
  rw [move_eq, move_eq, ← hreply]
  generalize (s.onKey source (CacheStorage.takeFrom K now missing take)).1 = r
  cases r with
  | error e => exact hfst k
  | ok a =>
      cases hm : moved a with
      | none =>
          simp only [moveRest, hm]
          exact hfst k
      | some b =>
          simp only [moveRest, hm]
          have hput' : K.Uniform fun u => ((.ok () : Res Unit), put b u) := by
            intro e u
            simp only [hput]
          exact (keyRel_onKey (CacheStorage.putInto K now fresh (put b))
            (CacheStorage.putInto K now' fresh (put b)) hfst hdest.1 (hkeeps destination hdest.2)
            (Slot.matched_writeOrCreate hK hput' (by
              rintro a u ⟨⟩
              exact hfresh b))).1 k

/-! ## Every write -/

omit [KeyHash] in
theorem keeper_lset (now : Instant) (index : Int64) (value : Bytes) :
    Keeper fun slot => (Slot.lset now index value slot).2 := by
  refine ⟨rfl, ?_⟩
  intro v
  cases v with
  | list l =>
      simp only [Slot.lset]
      split_ifs <;> exact ⟨_, rfl, rfl⟩
  | _ => exact ⟨_, rfl, rfl⟩

omit [KeyHash] in
theorem keeper_lrem (now : Instant) (n : Int64) (value : Bytes) :
    Keeper fun slot => (Slot.lrem now n value slot).2 := by
  refine ⟨rfl, ?_⟩
  intro v
  cases v with
  | list l =>
      simp only [Slot.lrem]
      split_ifs <;> exact ⟨_, rfl, rfl⟩
  | _ => exact ⟨_, rfl, rfl⟩

/-- A pop of a key that is in step and alive: replay may list the members in another order. -/
theorem follows_zpop {c : Command} {key : Bytes} {n : Nat}
    {pick : List (F64 × Std.ExtTreeSet Bytes) → Option (F64 × Std.ExtTreeSet Bytes)}
    (pos pos' : Bytes → Nat) (h : TimedRel replayAt.now x t) (hle : x.clock ≤ env.now)
    (hdep : x.lost key = false ∧ (x.storage.slotAt key).Unexpired env.now)
    (hfree : ∀ z, x.storage.slotAt key = some (.sortedSet z) → OrderFree pick n z)
    (hord : Ordinary replayAt env c x)
    (heff : effect env c x.storage = x.storage.setEntry key
      (Slot.zpop env.now (fun z => if isizeMax < n * 40 then none
        else some (SortedSetValue.popLoop pos pick n z)) (x.storage.slotAt key)).2)
    (happ : applyWriteCommand replayAt c t = applyKeyPanic t key
      (Slot.zpop replayAt.now fun z => if isizeMax < n * 40 then none
        else some (SortedSetValue.popLoop pos' pick n z)))
    (hpanic : (Slot.zpop env.now (fun z => if isizeMax < n * 40 then none
        else some (SortedSetValue.popLoop pos pick n z)) (x.storage.slotAt key)).1 ≠ .ok none) :
    Follows replayAt env c x t := by
  have hrel := (h key).mono hle
  rw [hdep.1] at hrel
  have hstep := hrel.inStep_of hdep.2
  have hfree' : ∀ z, t.slotAt key = some (.sortedSet z) → OrderFree pick n z := by
    intro z hz
    rw [hz] at hstep
    generalize hs : x.storage.slotAt key = a at hstep
    obtain _ | @⟨v, w, ⟨e, he, -⟩⟩ := hstep
    cases v with
    | sortedSet y =>
        injection he with he
        rw [he]
        exact Slot.orderFree_dated (hfree y hs) e
    | _ => cases he
  have hreply : (Slot.zpop env.now (fun z => if isizeMax < n * 40 then none
        else some (SortedSetValue.popLoop pos pick n z)) (x.storage.slotAt key)).1
      = (Slot.zpop replayAt.now (fun z => if isizeMax < n * 40 then none
        else some (SortedSetValue.popLoop pos pick n z)) (t.slotAt key)).1 := by
    refine Slot.writeLive_reply Kind.dates_sortedSet ?_ hstep hdep.2 hrel.unexpired
    intro e z
    by_cases hcap : isizeMax < n * 40
    · simp only [if_pos hcap]
    · simp only [if_neg hcap, Slot.popLoop_dated]
  refine follows_matched h hle heff ?_ hord hdep (Slot.matched_zpop pos pick n)
  rw [hreply] at hpanic
  rw [happ, Slot.zpop_pos pos pos' hfree']
  exact Prod.ext (applyKeyPanic_returns (Slot.zpop_panic_pos pos' hpanic)) rfl

theorem follows_ltrim {key : Bytes} {start stop : Int64} (h : TimedRel replayAt.now x t)
    (hle : x.clock ≤ env.now) (hdep : x.lost key = false ∧ (x.storage.slotAt key).Unexpired env.now)
    (hret : Returns env (.ltrim key start stop) x.storage) :
    Follows replayAt env (.ltrim key start stop) x t := by
  have hrel := (h key).mono hle
  rw [hdep.1] at hrel
  have hpanic : (Slot.ltrim env.now start stop (x.storage.slotAt key)).1 ≠ .ok none :=
    ne_panic_of_orPanic hret
  have hreply : (Slot.ltrim env.now start stop (x.storage.slotAt key)).1
      = (Slot.ltrim replayAt.now start stop (t.slotAt key)).1 := by
    refine Slot.writeLive_reply Kind.dates_list ?_ (hrel.inStep_of hdep.2) hdep.2 hrel.unexpired
    intro e l
    have hitems : (Kind.list.dated e l).items = l.items := rfl
    simp only [hitems]
    split_ifs <;> rfl
  rw [hreply] at hpanic
  exact follows_matched h hle rfl (Prod.ext (applyKeyPanic_returns hpanic) rfl)
    (fun k => ⟨rfl, rfl⟩) hdep (Slot.matched_ltrim start stop)

theorem follows_xadd {key : Bytes} {text : Bytes} {fields : List (Bytes × Bytes)}
    (h : TimedRel replayAt.now x t) (hle : x.clock ≤ env.now)
    (hexact : ReplayExact (.xadd key (some text) fields) x.storage)
    (hdep : x.lost key = false ∧ (x.storage.slotAt key).Unexpired env.now) :
    Follows replayAt env (.xadd key (some text) fields) x t := by
  have heff : effect env (.xadd key (some text) fields) x.storage
      = x.storage.setEntry key (xaddArm env (some text) fields (x.storage.slotAt key)).2 := rfl
  cases hp : StreamId.parse text false with
  | ok id =>
      refine follows_matched h hle ?_ ?_ (fun k => ⟨rfl, rfl⟩) hdep (Slot.matched_xadd env replayAt id fields)
      · rw [heff, xaddArm_parsed fields hp]
      · show applyKey t key (Slot.xadd replayAt (StreamId.parse text false).toOption fields) = _
        rw [hp]
        rfl
  | error e =>
      -- the id does not parse, so the key holds a value of another type on both sides
      obtain ⟨v, hv, hkind⟩ : ∃ v, x.storage.slotAt key = some v ∧ Kind.stream.as v = none := by
        rcases hexact with ⟨id, hid⟩ | hother
        · rw [hp] at hid
          cases hid
        · exact hother
      refine follows_onKey key id id h hle ?_ ?_ (fun k _ => Ordinary.lost (fun k => ⟨rfl, rfl⟩) k) ?_
      · rw [heff, xaddArm_unparsed fields hp]
        rfl
      · have hrel := (h key).mono hle
        rw [hdep.1] at hrel
        have hstep := hrel.inStep_of hdep.2
        rw [hv] at hstep
        show applyKey t key (Slot.xadd replayAt (StreamId.parse text false).toOption fields) = _
        rw [hp]
        simp only [applyKey, CacheStorage.onKey, Except.toOption]
        generalize t.slotAt key = b at hstep
        obtain _ | ⟨e', rfl, -⟩ := hstep
        simp only [Slot.xadd, Slot.writeOrCreate, Kind.dates_stream.as_withExpiry_none hkind]
        rfl
      · intro hk
        rw [Ordinary.lost (fun k => ⟨rfl, rfl⟩)]
        exact hk

/-- **The step lemma**: replay follows every write that is in time. -/
theorem follows_write {c : Command} (h : TimedRel replayAt.now x t)
    (htime : OnTime replayAt x (.write env c)) (hsafe : ReplaySafe replayAt env x c) :
    Follows replayAt env c x t := by
  obtain ⟨hle, hwall, hw⟩ := htime
  obtain ⟨hret, hdraw, hexact, hties, hfits, hadds, hdeps⟩ := hsafe
  -- overwrites first, then what adds to a value, takes from one or dates it, then what depends on what is live
  cases c with
  | set key value ttl =>
      refine follows_set h hle rfl rfl hret hfits ?_
      intro k hk
      simp [TimedState.wrote, overwrites, expiresMeanwhile, hk]
  | setEx key seconds value =>
      refine follows_set h hle rfl rfl hret hfits ?_
      intro k hk
      simp [TimedState.wrote, overwrites, expiresMeanwhile, hk]
  | delete key =>
      refine follows_overwrite key none none h hle rfl rfl ?_ .none (Slot.unexpired_none _)
      intro k hk
      simp [TimedState.wrote, overwrites, expiresMeanwhile, hk]
  | mset pairs => exact follows_mset h hle
  | flushAll =>
      refine ⟨_, rfl, ?_⟩
      intro k
      show KeyRel _ env.now replayAt.now (x.storage.flushall.slotAt k) (t.flushall.slotAt k)
      rw [CacheStorage.slotAt_flushall, CacheStorage.slotAt_flushall]
      exact .inStep (Slot.unexpired_none _) .none
  | incr key => exact follows_blind h hle rfl rfl (fun k => ⟨rfl, rfl⟩) (hadds key rfl) (Slot.blind_bump 1)
  | decr key =>
      exact follows_blind h hle rfl rfl (fun k => ⟨rfl, rfl⟩) (hadds key rfl) (Slot.blind_bump (-1))
  | append key value =>
      exact follows_blind h hle rfl rfl (fun k => ⟨rfl, rfl⟩) (hadds key rfl) (Slot.blind_append value)
  | incrBy key delta =>
      exact follows_blind h hle rfl rfl (fun k => ⟨rfl, rfl⟩) (hadds key rfl) (Slot.blind_incrBy _)
  | decrBy key delta =>
      exact follows_blind h hle rfl rfl (fun k => ⟨rfl, rfl⟩) (hadds key rfl) (Slot.blind_incrBy _)
  | incrByFloat key delta =>
      exact follows_blind h hle rfl rfl (fun k => ⟨rfl, rfl⟩) (hadds key rfl) (Slot.blind_incrByFloat delta)
  | hset key field value =>
      exact follows_blind h hle rfl rfl (fun k => ⟨rfl, rfl⟩) (hadds key rfl) (Slot.blind_hset field value)
  | hmset key pairs =>
      refine follows_blind h hle rfl ?_ (fun k => ⟨rfl, rfl⟩) (hadds key rfl) (Slot.blind_hmset pairs)
      rw [hmsetLoop_slot, ← foldl_onKey key (fun p : Bytes × Bytes => Slot.hset p.1 p.2) pairs t]
      rfl
  | lpush key values =>
      exact follows_blind h hle rfl rfl (fun k => ⟨rfl, rfl⟩) (hadds key rfl) (Slot.blind_lpush values)
  | rpush key values =>
      exact follows_blind h hle rfl rfl (fun k => ⟨rfl, rfl⟩) (hadds key rfl) (Slot.blind_rpush values)
  | sadd key members =>
      exact follows_blind h hle rfl rfl (fun k => ⟨rfl, rfl⟩) (hadds key rfl) (Slot.blind_sadd members)
  | zadd key members =>
      exact follows_blind h hle rfl rfl (fun k => ⟨rfl, rfl⟩) (hadds key rfl) (Slot.blind_zadd members)
  | hdel key fields =>
      have hb := Slot.blind_hdel fields
      exact follows_keeper h hle rfl rfl (fun k => ⟨rfl, rfl⟩) hb.self (.of_blind hb rfl) (.of_blind hb rfl)
  | lpop key =>
      have hb := Slot.blind_lpop
      exact follows_keeper h hle rfl rfl (fun k => ⟨rfl, rfl⟩) hb.self (.of_blind hb rfl) (.of_blind hb rfl)
  | rpop key =>
      have hb := Slot.blind_rpop
      exact follows_keeper h hle rfl rfl (fun k => ⟨rfl, rfl⟩) hb.self (.of_blind hb rfl) (.of_blind hb rfl)
  | srem key members =>
      have hb := Slot.blind_srem members
      exact follows_keeper h hle rfl rfl (fun k => ⟨rfl, rfl⟩) hb.self (.of_blind hb rfl) (.of_blind hb rfl)
  | zrem key members =>
      have hb := Slot.blind_zrem members
      exact follows_keeper h hle rfl rfl (fun k => ⟨rfl, rfl⟩) hb.self (.of_blind hb rfl) (.of_blind hb rfl)
  | lset key index value =>
      exact follows_keeper h hle rfl rfl (fun k => ⟨rfl, rfl⟩) (Slot.matched_lset index value)
        (keeper_lset _ _ _) (keeper_lset _ _ _)
  | lrem key n value =>
      exact follows_keeper h hle rfl rfl (fun k => ⟨rfl, rfl⟩) (Slot.matched_lrem n value)
        (keeper_lrem _ _ _) (keeper_lrem _ _ _)
  | expire key n => exact follows_expire h hle rfl rfl hret hfits fun k => ⟨rfl, rfl⟩
  | pexpire key n => exact follows_expire h hle rfl rfl hret hfits fun k => ⟨rfl, rfl⟩
  | expireAt key n =>
      by_cases hpast : n.toInt ≤ (env.unixSecs : Int)
      · exact follows_expireAt_past h hle hwall hexact hpast
      · exact follows_expireAt_future h hle hret hfits (by omega)
  | setNx key value =>
      exact follows_matched h hle rfl rfl (fun k => ⟨rfl, rfl⟩) (hdeps key (by simp [dependsOn]))
        (Slot.matched_setNx value)
  | getSet key value =>
      exact follows_matched h hle rfl rfl (fun k => ⟨rfl, rfl⟩) (hdeps key (by simp [dependsOn]))
        (Slot.matched_getSet value)
  | persist key =>
      exact follows_matched h hle rfl rfl (fun k => ⟨rfl, rfl⟩) (hdeps key (by simp [dependsOn]))
        Slot.matched_persist
  | hsetNx key field value =>
      exact follows_matched h hle rfl rfl (fun k => ⟨rfl, rfl⟩) (hdeps key (by simp [dependsOn]))
        (Slot.matched_hsetNx field value)
  | hincrBy key field delta =>
      exact follows_matched h hle rfl rfl (fun k => ⟨rfl, rfl⟩) (hdeps key (by simp [dependsOn]))
        (Slot.matched_hincrBy field _)
  | zincrBy key delta member =>
      exact follows_matched h hle rfl rfl (fun k => ⟨rfl, rfl⟩) (hdeps key (by simp [dependsOn]))
        (Slot.matched_zincrBy delta member)
  | ltrim key start stop => exact follows_ltrim h hle (hdeps key (by simp [dependsOn])) hret
  | zpopMin key n =>
      exact follows_zpop (env.iterPos (some key)) (replayAt.iterPos (some key)) h hle
        (hdeps key (by simp [dependsOn])) hties (fun k => ⟨rfl, rfl⟩) rfl rfl (ne_panic_of_orPanic hret)
  | zpopMax key n =>
      exact follows_zpop (env.iterPos (some key)) (replayAt.iterPos (some key)) h hle
        (hdeps key (by simp [dependsOn])) hties (fun k => ⟨rfl, rfl⟩) rfl rfl (ne_panic_of_orPanic hret)
  | xadd key id fields =>
      cases id with
      | none => cases hdraw
      | some text => exact follows_xadd h hle hexact (hdeps key (by simp [dependsOn]))
  | rename key newKey => exact follows_rename h hle (hdeps key (by simp [dependsOn]))
  | rpoplpush source destination =>
      refine ⟨_, rfl, fun k => ?_⟩
      rw [Ordinary.lost fun k => ⟨rfl, rfl⟩]
      exact keyRel_move Kind.dates_list (fun k => (h k).mono hle) (hdeps source (by simp [dependsOn]))
        (hdeps destination (by simp [dependsOn])) (fun _ _ => rfl) (fun _ _ _ => rfl) (fun _ => rfl) k
  | smove source destination member =>
      refine ⟨_, rfl, fun k => ?_⟩
      rw [Ordinary.lost fun k => ⟨rfl, rfl⟩]
      exact keyRel_move Kind.dates_set (fun k => (h k).mono hle) (hdeps source (by simp [dependsOn]))
        (hdeps destination (by simp [dependsOn])) (fun _ _ => rfl) (fun _ _ _ => rfl) (fun _ => rfl) k
  | spop key n => cases hdraw
  | _ => cases hw

/-- The expiry sweep changes the live side only: what it removes is lost. -/
theorem timedRel_swept {now : Instant} (h : TimedRel replayAt.now x t) (hle : x.clock ≤ now) :
    TimedRel replayAt.now (x.swept now) t := by
  intro k
  show KeyRel (x.lost k || (x.storage.slotAt k).any (·.isExpired now)) now replayAt.now
    ((x.storage.cleanupExpired now).slotAt k) (t.slotAt k)
  rw [CacheStorage.slotAt_cleanupExpired]
  have hk := (h k).mono hle
  unfold CacheStorage.live
  cases ha : x.storage.slotAt k with
  | none =>
      rw [ha] at hk
      rw [Slot.live_none]
      simpa using hk
  | some v =>
      cases hx : v.isExpired now with
      | false =>
          rw [ha] at hk
          rw [Slot.live_fresh hx]
          simpa [hx] using hk
      | true =>
          rw [Slot.live_expired hx]
          exact ⟨hk.unexpired, Or.inr ⟨Slot.mortal_none, (hk.apart ha hx).right, Or.inl (by simp [hx])⟩⟩

end Step

/-! ## Whole runs -/

/-- What replay left agrees with the live storage on the keys without a deadline: those that are live come
    back with their values, and none appears at a key that is absent. -/
structure UndatedKept (x : TimedState) (t : CacheStorage) : Prop where
  same : ∀ k v, x.storage.live x.clock k = some v → v.expiresAt = none → t.slotAt k = some v
  noOther : ∀ k v, t.slotAt k = some v → v.expiresAt = none → x.storage.live x.clock k ≠ none

theorem TimedRel.undatedKept {now' : Instant} {x : TimedState} {t : CacheStorage}
    (h : TimedRel now' x t) : UndatedKept x t where
  same k v hlive hnone := by
    have hv := (Slot.live_eq_some.mp hlive).1
    have hsides := (h k).sides
    rw [hv] at hsides
    rcases hsides with hs | hs
    · generalize t.slotAt k = b at hs
      obtain _ | hvw := hs
      rw [hvw.noDeadline hnone]
    · exact absurd hnone (hs.left v rfl)
  noOther k w hw hnone := by
    have hsides := (h k).sides
    rw [hw] at hsides
    rcases hsides with hs | hs
    · generalize hv : x.storage.slotAt k = a at hs
      obtain _ | @⟨v, _, hvw⟩ := hs
      have hsome := hvw.isSome_eq
      rw [hnone] at hsome
      have hnone' : v.expiresAt = none := Option.isNone_iff_eq_none.mp (by simpa using hsome.symm)
      unfold CacheStorage.live
      rw [hv, Slot.live_fresh (not_expired_of_noDeadline hnone' _)]
      simp
    · exact absurd hnone (hs.right w rfl)

/-- **Replay keeps the keys without a deadline**, at every one later time, along every timed run in which no
command lets a passed deadline decide what it leaves. -/
theorem replay_keeps_undated (replayAt : Env) (evs : List TimedEvent) (x : TimedState)
    (hrun : run (TimedState.step replayAt) TimedState.start evs = some x)
    (hin : Along (TimedState.step replayAt) (InTime replayAt) TimedState.start evs) :
    ∃ t, applyAll (fun _ => replayAt) 0 x.log CacheStorage.new = (some (), t) ∧ UndatedKept x t := by
  -- the invariant: the log so far replays, and the two sides are related
  let Related : TimedState → Prop := fun y =>
    ∃ t, applyAll (fun _ => replayAt) 0 y.log CacheStorage.new = (some (), t) ∧ TimedRel replayAt.now y t
  have hstep : ∀ y ev y', Related y → InTime replayAt y ev → TimedState.step replayAt y ev = some y' →
      Related y' := by
    rintro y ev y' ⟨t, ht, hrel⟩ hev hy'
    cases ev with
    | write env c =>
        cases hy'
        obtain ⟨t', ht', hrel'⟩ := follows_write hrel hev.1 hev.2
        refine ⟨t', ?_, hrel'⟩
        show applyAll (fun _ => replayAt) 0 (y.log ++ [c]) CacheStorage.new = _
        rw [applyAll_append ht, applyAll, ht']
        rfl
    | sweep now =>
        cases hy'
        exact ⟨t, ht, timedRel_swept hrel hev⟩
  have hstart : Related TimedState.start := by
    refine ⟨CacheStorage.new, rfl, fun k => ?_⟩
    show KeyRel false 0 replayAt.now (CacheStorage.new.slotAt k) (CacheStorage.new.slotAt k)
    rw [CacheStorage.slotAt_new]
    exact .inStep (Slot.unexpired_none _) .none
  obtain ⟨t, ht, hrel⟩ := run_invariant hstep evs TimedState.start x hin hrun hstart
  exact ⟨t, ht, hrel.undatedKept⟩

/-! ## Two runs -/

omit [KeyHash]

/-- `SET k v EX 1`, the sweep after its second has passed, and `SET k w`. -/
def setAfterExpiry : List TimedEvent :=
  [.write (Env.clocked 0) (.set (utf8 "k") (utf8 "v") (some 1)), .sweep 2000000000,
    .write (Env.clocked 2000000000) (.set (utf8 "k") (utf8 "w") none)]

/-- A `SET` of `k` is replayed safely, with or without a second to live. -/
theorem replaySafe_set [KeyHash] (y : TimedState) (v : Bytes) {now : Instant} {ttl : Option UInt32}
    (hnow : now < 2 ^ 32) :
    ReplaySafe (Env.clocked 3000000000) (Env.clocked now) y (.set (utf8 "k") v ttl) := by
  have hadd : ∀ {now : Nat} (n : UInt32), now < 2 ^ 32 → instantAdd now (durationSecs n.toNat) ≠ none := by
    intro now n hnow
    have hn := n.toNat_lt
    have hfits : (now + 1000000000 * n.toNat) / 1000000000 < 2 ^ 63 := by omega
    unfold instantAdd durationSecs
    rw [if_pos hfits]
    simp
  refine ⟨?_, rfl, trivial, trivial, ?_, fun k h => (by cases h), fun k h => (by cases h)⟩
  · show some ((Slot.set now v (ttl.map fun n => durationSecs n.toNat) (y.storage.slotAt (utf8 "k"))).1.map
      fun _ => Response.ok) ≠ some none
    cases ttl with
    | none => simp [Slot.set, Slot.deadline]
    | some n =>
        obtain ⟨at', hat⟩ := Option.ne_none_iff_exists'.mp (hadd n hnow)
        simp [Slot.set, Slot.deadline, hat]
  · intro d hd
    obtain ⟨n, -, rfl⟩ := Option.map_eq_some_iff.mp hd
    exact hadd n (by decide)

/-- The theorem at a run that overwrites the expired key. -/
theorem replay_keeps_undated_set :
    letI := shortKeys
    ∃ x t, run (TimedState.step (Env.clocked 3000000000)) TimedState.start setAfterExpiry = some x ∧
      x.storage.slotAt (utf8 "k") = some (.string (utf8 "w") none) ∧
      applyAll (fun _ => Env.clocked 3000000000) 0 x.log CacheStorage.new = (some (), t) ∧ UndatedKept x t := by
  let := shortKeys
  obtain ⟨x, hx⟩ : ∃ x, run (TimedState.step (Env.clocked 3000000000)) TimedState.start setAfterExpiry
      = some x := ⟨_, rfl⟩
  have hslot : x.storage.slotAt (utf8 "k") = some (.string (utf8 "w") none) := by
    cases hx
    exact CacheStorage.slotAt_setEntry_self _ _ _
  have hin : Along (TimedState.step (Env.clocked 3000000000)) (InTime (Env.clocked 3000000000))
      TimedState.start setAfterExpiry := by
    refine ⟨⟨⟨Nat.zero_le _, by decide, rfl⟩, replaySafe_set _ _ (by decide)⟩, ?_⟩
    rintro y ⟨⟩
    refine ⟨show (0 : Nat) ≤ 2000000000 by decide, ?_⟩
    rintro z ⟨⟩
    refine ⟨⟨⟨show (2000000000 : Nat) ≤ 2000000000 by decide, by decide, rfl⟩,
      replaySafe_set _ _ (by decide)⟩, ?_⟩
    rintro w ⟨⟩
    trivial
  obtain ⟨t, ht, hkept⟩ := replay_keeps_undated (Env.clocked 3000000000) setAfterExpiry x hx hin
  exact ⟨x, t, hx, hslot, ht, hkept⟩

/-- `SET k v EX 1`, and `SETNX k w` once the second has passed. -/
def setNxAfterExpiry : List TimedEvent :=
  [.write (Env.clocked 0) (.set (utf8 "k") (utf8 "v") (some 1)),
    .write (Env.clocked 2000000000) (.setNx (utf8 "k") (utf8 "w"))]

/-- The live key holds `w`; in replay the first `SET` is alive again when `SETNX` comes, so `k` comes back
    as `v`, with a second to live. -/
theorem replay_revives_expired :
    letI := shortKeys
    ∃ x t, run (TimedState.step (Env.clocked 3000000000)) TimedState.start setNxAfterExpiry = some x ∧
      Along (TimedState.step (Env.clocked 3000000000)) (OnTime (Env.clocked 3000000000)) TimedState.start
        setNxAfterExpiry ∧
      applyAll (fun _ => Env.clocked 3000000000) 0 x.log CacheStorage.new = (some (), t) ∧ ¬ UndatedKept x t := by
  let := shortKeys
  obtain ⟨x, hx⟩ : ∃ x, run (TimedState.step (Env.clocked 3000000000)) TimedState.start setNxAfterExpiry
      = some x := ⟨_, rfl⟩
  have hlive : x.storage.live x.clock (utf8 "k") = some (.string (utf8 "w") none) := by
    cases hx
    decide
  have hreplay : (applyAll (fun _ => Env.clocked 3000000000) 0 x.log CacheStorage.new).2.slotAt (utf8 "k")
      = some (.string (utf8 "v") (some 4000000000)) := by
    cases hx
    decide
  have hon : Along (TimedState.step (Env.clocked 3000000000)) (OnTime (Env.clocked 3000000000))
      TimedState.start setNxAfterExpiry := by
    refine ⟨⟨Nat.zero_le _, by decide, rfl⟩, ?_⟩
    rintro y ⟨⟩
    refine ⟨⟨show (0 : Nat) ≤ 2000000000 by decide, by decide, rfl⟩, ?_⟩
    rintro z ⟨⟩
    trivial
  have hreturns : (applyAll (fun _ => Env.clocked 3000000000) 0 x.log CacheStorage.new).1 = some () := by
    cases hx
    rfl
  refine ⟨x, _, hx, hon, Prod.ext hreturns rfl, ?_⟩
  intro hkept
  have hsame := hkept.same _ _ hlive rfl
  rw [hreplay] at hsame
  cases hsame

end FerricCache
