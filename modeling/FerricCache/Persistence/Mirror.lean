import FerricCache.Persistence.Rebuild

/-!
# `FerricCache.Persistence.Mirror` — a storage that follows another through its log

A recovered storage starts without the empty values its snapshot left out, and then applies the logged
commands with its own clock and table order. `Mirrors s t out` says that `t` holds what `s` holds, except
at the keys `out`, where `s` holds an empty value and `t` nothing. A logged command keeps this
(`mirrors_step`) if it is steady and, at a left-out key, is one that treats an empty value of its type as
an absent key: it either starts the value anew or leaves it empty.
-/

namespace FerricCache

/-- A value as its type's constructor makes it. -/
def CacheValue.Blank (v : CacheValue) : Prop :=
  v = .hash HashValue.new ∨ v = .list ListValue.new ∨ v = .set SetValue.new ∨
    v = .sortedSet SortedSetValue.new ∨ v = .stream StreamValue.new

/-- A value without elements that a record could carry is blank. -/
theorem blank_of_isEmpty {v : CacheValue} (hplain : v.Plain) (hrec : v.Recordable)
    (hempty : v.isEmpty = true) : v.Blank := by
  have hnone := hplain.noDeadline
  cases v with
  | string b e => cases hempty
  | hash h =>
      obtain ⟨fields, e⟩ := h
      obtain rfl : e = none := hnone
      obtain rfl : fields = ∅ := Std.ExtTreeMap.isEmpty_iff.mp hempty
      exact Or.inl rfl
  | list l =>
      obtain ⟨items, e⟩ := l
      obtain rfl : e = none := hnone
      obtain rfl : items = [] := List.isEmpty_iff.mp hempty
      exact Or.inr (Or.inl rfl)
  | set t =>
      obtain ⟨members, e⟩ := t
      obtain rfl : e = none := hnone
      obtain rfl : members = ∅ := Std.ExtTreeSet.isEmpty_iff.mp hempty
      exact Or.inr (Or.inr (Or.inl rfl))
  | sortedSet z =>
      obtain ⟨⟨zero, hcons⟩, -⟩ := hrec
      obtain ⟨buckets, scores, e⟩ := z
      obtain rfl : e = none := hnone
      obtain rfl : scores = ∅ := Std.ExtTreeMap.isEmpty_iff.mp hempty
      have hbuckets : buckets = [] := by
        rw [List.eq_nil_iff_forall_not_mem]
        intro b hb
        obtain ⟨m, hm⟩ := hcons.nonempty b hb
        have hscore := (hcons.score m b.1).mpr ⟨b, hb, rfl, hm⟩
        simp at hscore
      subst hbuckets
      exact Or.inr (Or.inr (Or.inr (Or.inl rfl)))
  | stream st =>
      have htop := hplain.topped st rfl
      obtain ⟨entries, lastId, e⟩ := st
      obtain rfl : e = none := hnone
      obtain rfl : entries = ∅ := Std.ExtTreeMap.isEmpty_iff.mp hempty
      rcases htop.last with hmem | ⟨-, hlast⟩
      · exact absurd hmem (by simp)
      · obtain rfl : lastId = StreamId.minId := hlast
        exact Or.inr (Or.inr (Or.inr (Or.inr rfl)))

/-- The command makes of an empty value of this type what it makes of an absent key. -/
def restarts : Command → CacheValue → Bool
  | .set _ _ _, _ | .delete _, _ | .mset _, _ | .flushAll, _ => true
  | .hset _ _ _, .hash _ | .hsetNx _ _ _, .hash _ | .hincrBy _ _ _, .hash _ => true
  | .hmset _ pairs, .hash _ => !pairs.isEmpty
  | .lpush _ _, .list _ | .rpush _ _, .list _ => true
  | .sadd _ _, .set _ => true
  | .zadd _ _, .sortedSet _ => true
  | _, _ => false

/-- The command leaves an empty value of this type empty, and an absent key absent. -/
def idles : Command → CacheValue → Bool
  | .hdel _ _, .hash _ => true
  | .lpop _, .list _ | .rpop _, .list _ => true
  | .srem _ _, .set _ => true
  | .zrem _ _, .sortedSet _ => true
  | _, _ => false

/-- A command of one key touches no other. -/
theorem touchesKey_single {c : Command} {key : Bytes} (h : footprint c = some [key]) (k : Bytes) :
    touchesKey c k = true ↔ k = key := by
  unfold touchesKey
  rw [h]
  exact List.contains_iff_mem.trans List.mem_singleton

/-! ## Blank slots and absent ones -/

theorem countLoop_fix {τ : Type} {step : τ → Bytes → Bool × τ} {t : τ} (h : ∀ m, (step t m).2 = t)
    (ms : List Bytes) : (Slot.countLoop step t ms).2 = t := by
  induction ms with
  | nil => rfl
  | cons m ms ih =>
      rw [Slot.countLoop, h m]
      exact ih

/-- `wrapI64` does not change an `i64`. -/
theorem wrapI64_toInt (x : Int64) : wrapI64 x.toInt = x.toInt := by
  have h1 := x.le_toInt
  have h2 := x.toInt_lt
  unfold wrapI64
  rw [Int.bmod_eq_of_le] <;> omega

theorem hdel_idle (fields : List Bytes) :
    (Slot.hdel fields (some (.hash HashValue.new))).2 = some (.hash HashValue.new) := by
  have hfix : ∀ f, ((HashValue.new.getField f).isSome, HashValue.new.deleteField f).2 = HashValue.new := by
    intro f
    simp [HashValue.deleteField, HashValue.new]
  show some (CacheValue.hash (Slot.countLoop _ HashValue.new fields).2) = _
  rw [countLoop_fix hfix]

theorem srem_idle (members : List Bytes) :
    (Slot.srem members (some (.set SetValue.new))).2 = some (.set SetValue.new) := by
  have hfix : ∀ m, (SetValue.new.contains m, SetValue.new.remove m).2 = SetValue.new := by
    intro m
    simp [SetValue.remove, SetValue.new]
  show some (CacheValue.set (Slot.countLoop _ SetValue.new members).2) = _
  rw [countLoop_fix hfix]

theorem zrem_idle (members : List Bytes) :
    (Slot.zrem members (some (.sortedSet SortedSetValue.new))).2
      = some (.sortedSet SortedSetValue.new) := by
  have hfix : ∀ m, ((SortedSetValue.new.getScore m).isSome, SortedSetValue.new.remove m).2
      = SortedSetValue.new := by
    intro m
    show SortedSetValue.new.remove m = SortedSetValue.new
    simp [SortedSetValue.remove, SortedSetValue.new]
  show some (CacheValue.sortedSet (Slot.countLoop _ SortedSetValue.new members).2) = _
  rw [countLoop_fix hfix]

theorem hsetNx_restart (now : Instant) (field value : Bytes) :
    (Slot.hsetNx now field value (some (.hash HashValue.new))).2
      = (Slot.hsetNx now field value none).2 := by
  simp [Slot.hsetNx, Slot.writeOrCreate, Kind.hash, CacheValue.isExpired, CacheValue.expiresAt,
    HashValue.new, expiredAt, HashValue.getField, Slot.insertNew]

theorem hincrBy_restart (now : Instant) (field : Bytes) (delta : Int64) :
    (Slot.hincrBy now field delta.toInt (some (.hash HashValue.new))).2
      = (Slot.hincrBy now field delta.toInt none).2 := by
  simp [Slot.hincrBy, Slot.writeOrCreate, Kind.hash, CacheValue.isExpired, CacheValue.expiresAt,
    HashValue.new, expiredAt, HashValue.getField, Slot.insertNew, wrapI64_toInt]

section Mirror

variable [KeyHash]

/-- A command that restarts a blank value leaves there what it leaves at an absent key. -/
theorem effect_restart {env : Env} {c : Command} {key : Bytes} {f : Slot → Option Response × Slot}
    {v : CacheValue} (hc : arm env c = some (.slot key f)) (ht : setsTtl c = false) (hb : v.Blank)
    (h : restarts c v = true) : (f (some v)).2 = (f none).2 := by
  cases c with
  | set k value ttl =>
      cases ttl with
      | some n => cases ht
      | none => cases hc; rfl
  | delete k => cases hc; rfl
  -- a write that creates: on a blank value it does what it does on none
  | hset k field value =>
      cases hc
      rcases hb with rfl | rfl | rfl | rfl | rfl <;> first | (cases h; done) | rfl
  | hsetNx k field value =>
      cases hc
      rcases hb with rfl | rfl | rfl | rfl | rfl <;>
        first | (cases h; done) | exact hsetNx_restart env.now field value
  | hincrBy k field delta =>
      cases hc
      rcases hb with rfl | rfl | rfl | rfl | rfl <;>
        first | (cases h; done) | exact hincrBy_restart env.now field delta
  | hmset k pairs =>
      cases hc
      cases pairs with
      | nil => rcases hb with rfl | rfl | rfl | rfl | rfl <;> cases h
      | cons p pairs => rcases hb with rfl | rfl | rfl | rfl | rfl <;> first | (cases h; done) | rfl
  | lpush k values =>
      cases hc
      rcases hb with rfl | rfl | rfl | rfl | rfl <;> first | (cases h; done) | rfl
  | rpush k values =>
      cases hc
      rcases hb with rfl | rfl | rfl | rfl | rfl <;> first | (cases h; done) | rfl
  | sadd k members =>
      cases hc
      rcases hb with rfl | rfl | rfl | rfl | rfl <;> first | (cases h; done) | rfl
  | zadd k members =>
      cases hc
      rcases hb with rfl | rfl | rfl | rfl | rfl <;> first | (cases h; done) | rfl
  | mset pairs => cases hc
  | flushAll => cases hc
  | _ => cases h

/-- A command that idles on a blank value leaves it blank, and leaves an absent key absent. -/
theorem effect_idle {env : Env} {c : Command} {key : Bytes} {f : Slot → Option Response × Slot}
    {v : CacheValue} (hc : arm env c = some (.slot key f)) (hb : v.Blank) (h : idles c v = true) :
    (f (some v)).2 = some v ∧ (f none).2 = none := by
  cases c with
  | hdel k fields =>
      cases hc
      rcases hb with rfl | rfl | rfl | rfl | rfl <;>
        first | (cases h; done) | exact ⟨hdel_idle fields, rfl⟩
  | lpop k =>
      cases hc
      rcases hb with rfl | rfl | rfl | rfl | rfl <;> first | (cases h; done) | exact ⟨rfl, rfl⟩
  | rpop k =>
      cases hc
      rcases hb with rfl | rfl | rfl | rfl | rfl <;> first | (cases h; done) | exact ⟨rfl, rfl⟩
  | srem k members =>
      cases hc
      rcases hb with rfl | rfl | rfl | rfl | rfl <;>
        first | (cases h; done) | exact ⟨srem_idle members, rfl⟩
  | zrem k members =>
      cases hc
      rcases hb with rfl | rfl | rfl | rfl | rfl <;>
        first | (cases h; done) | exact ⟨zrem_idle members, rfl⟩
  | _ => cases h

/-- `t` holds what `s` holds, except at the keys `out`, where `s` holds a blank value and `t` nothing. -/
def Mirrors (s t : CacheStorage) (out : Bytes → Bool) : Prop :=
  ∀ k, if out k then t.slotAt k = none ∧ ∃ v, s.slotAt k = some v ∧ v.Blank
    else t.slotAt k = s.slotAt k

/-- The left-out keys after a command: those it restarts are back. -/
def stillOut (c : Command) (s : CacheStorage) (out : Bytes → Bool) (k : Bytes) : Bool :=
  out k && !(touchesKey c k && (s.slotAt k).any (restarts c))

/-- At every left-out key it touches, the command restarts or idles. -/
def RespectsBlank (c : Command) (s : CacheStorage) (out : Bytes → Bool) : Prop :=
  ∀ k v, out k = true → touchesKey c k = true → s.slotAt k = some v →
    restarts c v = true ∨ idles c v = true

variable {s t : CacheStorage} {out : Bytes → Bool} {c : Command}

theorem Mirrors.plain (h : Mirrors s t out) (hs : s.Plain) : t.Plain := by
  intro k
  have hk := h k
  cases hout : out k with
  | true =>
      rw [hout, if_pos rfl] at hk
      rw [hk.1]
      exact Slot.plain_none
  | false =>
      rw [hout, if_neg Bool.false_ne_true] at hk
      rw [hk]
      exact hs k

theorem Mirrors.slotAt_eq (h : Mirrors s t out) {k : Bytes} (hk : out k = false) :
    t.slotAt k = s.slotAt k := by
  have := h k
  rwa [hk, if_neg Bool.false_ne_true] at this

theorem Mirrors.slotAt_out (h : Mirrors s t out) {k : Bytes} (hk : out k = true) :
    t.slotAt k = none ∧ ∃ v, s.slotAt k = some v ∧ v.Blank := by
  have := h k
  rwa [hk, if_pos rfl] at this

/-- A command that is in neither table finds the same at every key it touches. -/
theorem Mirrors.agree_of_neither (h : Mirrors s t out) (hr : RespectsBlank c s out)
    (hno : ∀ v, restarts c v = false ∧ idles c v = false) {k : Bytes} (hk : touchesKey c k = true) :
    t.slotAt k = s.slotAt k := by
  apply h.slotAt_eq
  by_contra hout
  rw [Bool.not_eq_false] at hout
  obtain ⟨-, v, hv, -⟩ := h.slotAt_out hout
  rcases hr k v hout hk hv with hre | hid
  · rw [(hno v).1] at hre
    cases hre
  · rw [(hno v).2] at hid
    cases hid

theorem Mirrors.steady (h : Mirrors s t out) (hr : RespectsBlank c s out) (hst : Steady c s) :
    Steady c t := by
  have hagree : (∀ v, restarts c v = false ∧ idles c v = false) → ∀ {k}, touchesKey c k = true →
      t.slotAt k = s.slotAt k := fun hno => h.agree_of_neither hr hno
  have htie := hst.tiesUnsplit
  have hexact := hst.replayExact
  have hdraw := hst.noDraw
  have httl := hst.noTtl
  refine ⟨hst.write, httl, hdraw, ?_, ?_⟩
  · cases c with
    | xadd key id fields =>
        have hkey := hagree (fun _ => ⟨rfl, rfl⟩) ((touchesKey_single rfl key).mpr rfl)
        cases id with
        | none => cases hdraw
        | some text =>
            show _ ∨ ∃ v, t.slotAt key = some v ∧ _
            rw [hkey]
            exact hexact
    | expireAt key n => cases httl
    | _ => trivial
  · cases c with
    | zpopMin key n =>
        have hkey := hagree (fun _ => ⟨rfl, rfl⟩) ((touchesKey_single rfl key).mpr rfl)
        show ∀ z, t.slotAt key = some (.sortedSet z) → _
        rw [hkey]
        exact htie
    | zpopMax key n =>
        have hkey := hagree (fun _ => ⟨rfl, rfl⟩) ((touchesKey_single rfl key).mpr rfl)
        show ∀ z, t.slotAt key = some (.sortedSet z) → _
        rw [hkey]
        exact htie
    | _ => trivial

/-- Replay on the mirror does not panic where the server did not. -/
theorem Mirrors.apply_returns {env : Env} (env' : Env) (h : Mirrors s t out) (hs : s.Plain)
    (hr : RespectsBlank c s out) (hst : Steady c s) (hret : Returns env c s) :
    (applyWriteCommand env' c t).1 = some () := by
  cases hp : mayPanic c with
  | false => exact apply_returns_of_safe env' t hst.noTtl hst.noDraw hp
  | true =>
      have hagree : AgreeOn (footprint c) s t := by
        have hno : ∀ v, restarts c v = false ∧ idles c v = false := by
          intro v
          cases c <;> first | (cases hp; done) | exact ⟨rfl, rfl⟩
        have htouch : ∀ k, touchesKey c k = true → s.slotAt k = t.slotAt k :=
          fun k hk => (h.agree_of_neither hr hno hk).symm
        obtain ⟨keys, hF⟩ : ∃ keys, footprint c = some keys := by
          cases c <;> first | (cases hp; done) | exact ⟨_, rfl⟩
        rw [hF]
        intro k hk
        exact htouch k (by simp [touchesKey, hF, hk])
      exact FerricCache.apply_returns env env' (h.plain hs) (h.steady hr hst)
        (returns_of_agree hagree hret)

/-! ## One logged command -/

/-- A single-key command keeps the mirror. -/
theorem Mirrors.slot_step {env : Env} {key : Bytes} {f : Slot → Option Response × Slot}
    (h : Mirrors s t out) (hr : RespectsBlank c s out) (ht : setsTtl c = false)
    (hc : arm env c = some (.slot key f)) :
    Mirrors (s.setEntry key (f (s.slotAt key)).2) (t.setEntry key (f (t.slotAt key)).2)
      (stillOut c s out) := by
  have htouch := touchesKey_single (footprint_of_slot hc)
  intro k
  rw [CacheStorage.slotAt_setEntry, CacheStorage.slotAt_setEntry]
  by_cases hk : k = key
  · subst hk
    rw [if_pos rfl, if_pos rfl]
    have htk : touchesKey c k = true := (htouch k).mpr rfl
    cases hout : out k with
    | false =>
        have hstill : stillOut c s out k = false := by simp [stillOut, hout]
        rw [hstill, if_neg Bool.false_ne_true, h.slotAt_eq hout]
    | true =>
        obtain ⟨htn, v, hv, hb⟩ := h.slotAt_out hout
        rw [htn, hv]
        cases hre : restarts c v with
        | true =>
            have hstill : stillOut c s out k = false := by simp [stillOut, htk, hv, hre]
            rw [hstill, if_neg Bool.false_ne_true]
            exact (effect_restart hc ht hb hre).symm
        | false =>
            have hid : idles c v = true := by
              rcases hr k v hout htk hv with h' | h'
              · rw [hre] at h'
                cases h'
              · exact h'
            obtain ⟨hsome, hnone⟩ := effect_idle hc hb hid
            have hstill : stillOut c s out k = true := by simp [stillOut, hout, hv, hre]
            rw [hstill, if_pos rfl, hsome, hnone]
            exact ⟨rfl, v, rfl, hb⟩
  · have hnot : touchesKey c k = false := by
      rw [← Bool.not_eq_true, htouch]
      exact hk
    have hstill : stillOut c s out k = out k := by simp [stillOut, hnot]
    rw [if_neg hk, if_neg hk, hstill]
    exact h k

/-- A command in neither table keeps the mirror, whatever it does within its footprint. -/
theorem Mirrors.local_step {α : Type} {keys : List Bytes} {g : CacheStorage → α × CacheStorage}
    (h : Mirrors s t out) (hr : RespectsBlank c s out) (hF : footprint c = some keys)
    (hno : ∀ v, restarts c v = false ∧ idles c v = false) (hg : LocalTo (some keys) g) :
    Mirrors (g s).2 (g t).2 (stillOut c s out) := by
  have hagree : AgreeOn (some keys) t s := fun k hk =>
    h.agree_of_neither hr hno (by simp [touchesKey, hF, hk])
  have hstill : ∀ k, stillOut c s out k = out k := by
    intro k
    have hany : (s.slotAt k).any (restarts c) = false := by
      rw [Option.any_eq_false]
      intro v _
      simp [(hno v).1]
    simp [stillOut, hany]
  intro k
  rw [hstill]
  by_cases hk : k ∈ keys
  · have hout : out k = false := by
      by_contra hout
      rw [Bool.not_eq_false] at hout
      obtain ⟨htn, v, hv, -⟩ := h.slotAt_out hout
      have := hagree k hk
      rw [htn, hv] at this
      cases this
    rw [hout, if_neg Bool.false_ne_true]
    exact hg.agree t s hagree k hk
  · rw [hg.frame s k keys rfl hk, hg.frame t k keys rfl hk]
    exact h k

omit [KeyHash] in
/-- `MSET` overwrites what it names. -/
theorem foldl_overwrite {pairs : List (Bytes × Bytes)} {k : Bytes} (hk : k ∈ pairs.map Prod.fst)
    (a b : Slot) :
    pairs.foldl (fun slot p => if k = p.1 then some (.string p.2 none) else slot) a
      = pairs.foldl (fun slot p => if k = p.1 then some (.string p.2 none) else slot) b := by
  induction pairs generalizing a b with
  | nil => cases hk
  | cons p pairs ih =>
      rw [List.foldl_cons, List.foldl_cons]
      by_cases hp : k = p.1
      · rw [if_pos hp, if_pos hp]
      · rw [if_neg hp, if_neg hp]
        apply ih
        simpa [hp] using hk

theorem Mirrors.mset_step (pairs : List (Bytes × Bytes)) (h : Mirrors s t out) :
    Mirrors (s.mset pairs) (t.mset pairs) (stillOut (.mset pairs) s out) := by
  intro k
  by_cases hk : k ∈ pairs.map Prod.fst
  · have htouch : touchesKey (.mset pairs) k = true := by
      simp only [touchesKey, footprint, List.contains_iff_mem]
      exact hk
    have hstill : stillOut (.mset pairs) s out k = false := by
      cases hout : out k with
      | false => simp [stillOut, hout]
      | true =>
          obtain ⟨-, v, hv, -⟩ := h.slotAt_out hout
          simp [stillOut, htouch, hv, restarts]
    rw [hstill, if_neg Bool.false_ne_true, slotAt_mset, slotAt_mset]
    exact foldl_overwrite hk _ _
  · have htouch : touchesKey (.mset pairs) k = false := by
      rw [← Bool.not_eq_true]
      simp only [touchesKey, footprint, List.contains_iff_mem]
      exact hk
    have hstill : stillOut (.mset pairs) s out k = out k := by simp [stillOut, htouch]
    rw [hstill, slotAt_mset_of_notMem hk, slotAt_mset_of_notMem hk]
    exact h k

theorem Mirrors.flushall_step (h : Mirrors s t out) :
    Mirrors s.flushall t.flushall (stillOut .flushAll s out) := by
  intro k
  have hstill : stillOut .flushAll s out k = false := by
    cases hout : out k with
    | false => simp [stillOut, hout]
    | true =>
        obtain ⟨-, v, hv, -⟩ := h.slotAt_out hout
        simp [stillOut, touchesKey, footprint, hv, restarts]
  rw [hstill, if_neg Bool.false_ne_true, CacheStorage.slotAt_flushall, CacheStorage.slotAt_flushall]

/-- **A logged command keeps the mirror**: what replay does to it follows what the server did. -/
theorem mirrors_step {env : Env} (env' : Env) (h : Mirrors s t out) (hs : s.Plain)
    (hst : Steady c s) (hr : RespectsBlank c s out) :
    Mirrors (effect env c s) (applyWriteCommand env' c t).2 (stillOut c s out) := by
  obtain ⟨a, ha⟩ := arm_of_write env hst.write
  rw [apply_eq_effect env env' (h.plain hs) (h.steady hr hst), effect_of_arm ha, effect_of_arm ha]
  have hlocal := arm_local ha
  have hw := hst.write
  cases a with
  | slot key f => exact h.slot_step hr hst.noTtl ha
  | store f =>
      cases c with
      | rpoplpush source destination => exact h.local_step hr rfl (fun _ => ⟨rfl, rfl⟩) hlocal
      | smove source destination member => exact h.local_step hr rfl (fun _ => ⟨rfl, rfl⟩) hlocal
      | rename key newKey => exact h.local_step hr rfl (fun _ => ⟨rfl, rfl⟩) hlocal
      | mset pairs =>
          cases ha
          exact h.mset_step pairs
      | flushAll =>
          cases ha
          exact h.flushall_step
      | _ => first | (cases ha; done) | cases hw

end Mirror

end FerricCache
