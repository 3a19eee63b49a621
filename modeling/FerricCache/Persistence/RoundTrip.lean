import FerricCache.Persistence.Rebuild
import FerricCache.Server.Reachable

/-!
# `FerricCache.Persistence.RoundTrip` — what a snapshot brings back

Saving a reachable storage and loading the file into an empty one gives back, key by key, `loadedValue`: the
value its record rebuilds, with the deadline the record names. A deadline goes through the wall clock in
milliseconds and may come out early or late: `to_unix_ms` adds **two numbers that were each rounded down**, and the
two clocks are read one after the other, once in a save and anew for every record of a load. A sorted set comes
back with the scores of its buckets. `snapshot_roundTrips_iff` says exactly when nothing is lost.
-/

namespace FerricCache

open Lib

/-! ## Clocks -/

/-- The millisecond of the wall clock an instant falls in, where the wall clock is `offset` ahead. -/
def wallMs (offset : Nat) (t : Instant) : Nat := (t + offset) / 1000000

theorem wallMs_mono {offset : Nat} {t t' : Instant} (h : t ≤ t') : wallMs offset t ≤ wallMs offset t' :=
  Nat.div_le_div_right (Nat.add_le_add_right h offset)

theorem lt_of_wallMs_lt {offset : Nat} {t t' : Instant} (h : wallMs offset t < wallMs offset t') : t < t' := by
  by_contra hge
  exact Nat.not_lt.mpr (wallMs_mono (Nat.not_lt.mp hge)) h

/-- The readings of a save and of a later load, in the order of the code and on one clock: the wall clock is read at
    `saved` and at `loaded`, and is a `u64` of milliseconds throughout. -/
structure OneClock (offset : Nat) (save : SaveReadings) (load : LoadReadings) (saved loaded : Instant) : Prop where
  saveWall : save.unixMs.toNat = wallMs offset saved
  loadWall : load.unixMs.toNat = wallMs offset loaded
  now_le : save.now ≤ saved
  le_look : ∀ key, saved ≤ save.look key
  look_le : ∀ key, save.look key ≤ loaded
  le_record : ∀ i, loaded ≤ (load.record i).now
  record_fits : ∀ i, wallMs offset (load.record i).now < 2 ^ 64

/-- The millisecond that the two sub-millisecond parts make up, of the clock and of the time left. -/
def carry (offset : Nat) (now e : Instant) : Nat := ((now + offset) % 1000000 + (e - now) % 1000000) / 1000000

/-- The milliseconds of the wall clock that begin between two instants. -/
def crossed (offset : Nat) (t t' : Instant) : Nat := wallMs offset t' - wallMs offset t

/-- The millisecond a record names for the deadline `e`: what `to_unix_ms` drops is the carry, and what it adds are
    the milliseconds that begin between its two readings. -/
def namedMs (offset : Nat) (now saved e : Instant) : Nat :=
  (wallMs offset e + crossed offset now saved - carry offset now e) % 2 ^ 64

/-- The deadline `e` comes back to the millisecond from a record read at `at'`: the carry makes up for the milliseconds
    that begin between the readings of the save and between those of the load, the deadline is still to come where
    its record is read, and the named millisecond is a `u64`. -/
structure DeadlineExact (offset : Nat) (now saved loaded at' e : Instant) : Prop where
  balanced : carry offset now e = crossed offset now saved + crossed offset loaded at'
  due : wallMs offset at' < wallMs offset e
  fits : wallMs offset e < 2 ^ 64 + crossed offset loaded at'

/-- An instant is in the millisecond of the clock, the milliseconds left and the carry. -/
theorem wallMs_split (offset : Nat) {now e : Instant} (h : now ≤ e) :
    wallMs offset e = wallMs offset now + (e - now) / 1000000 + carry offset now e := by
  obtain ⟨left, rfl⟩ := Nat.exists_eq_add_of_le h
  unfold wallMs carry
  rw [Nat.add_sub_cancel_left]
  omega

theorem carry_le_one (offset : Nat) (now e : Instant) : carry offset now e ≤ 1 := by
  unfold carry
  omega

section Clock

variable {offset : Nat} {save : SaveReadings} {load : LoadReadings} {saved loaded : Instant}

theorem toNat_toUnixMs (h : OneClock offset save load saved loaded) {e : Instant} (he : save.now ≤ e) :
    (toUnixMs save e).toNat = namedMs offset save.now saved e := by
  have hsplit := wallMs_split offset he
  have hmono : wallMs offset save.now ≤ wallMs offset saved := wallMs_mono h.now_le
  unfold toUnixMs namedMs crossed
  rw [UInt64.toNat_add, UInt64.toNat_ofNat', h.saveWall, Nat.add_mod_mod]
  congr 1
  omega

/-- **When a deadline comes back to the millisecond**: its record is not skipped, and restored at `at'` it falls in
    the millisecond of the true one. -/
theorem restored_exact_iff (h : OneClock offset save load saved loaded) {e at' : Instant} (he : save.now ≤ e)
    (hat : loaded ≤ at') (hfits : wallMs offset at' < 2 ^ 64) :
    load.unixMs < toUnixMs save e ∧
        wallMs offset (at' + durationMillis (toUnixMs save e - load.unixMs).toNat) = wallMs offset e ↔
      DeadlineExact offset save.now saved loaded at' e := by
  have hname := toNat_toUnixMs h he
  have hrestored : load.unixMs < toUnixMs save e →
      wallMs offset (at' + durationMillis (toUnixMs save e - load.unixMs).toNat)
        = wallMs offset at' + (namedMs offset save.now saved e - wallMs offset loaded) := by
    intro hlt
    rw [UInt64.toNat_sub_of_le _ _ (UInt64.le_of_lt hlt), hname, h.loadWall]
    unfold wallMs durationMillis
    omega
  have hlt : load.unixMs < toUnixMs save e ↔ wallMs offset loaded < namedMs offset save.now saved e := by
    rw [UInt64.lt_iff_toNat_lt, hname, h.loadWall]
  rw [and_congr_right fun hlt => by rw [hrestored hlt], hlt]
  -- what is left is about milliseconds: `now ≤ saved ≤ loaded ≤ at'` leaves no room for a second turn of the `u64`
  have hsave : wallMs offset save.now ≤ wallMs offset saved := wallMs_mono h.now_le
  have hbetween : wallMs offset saved ≤ wallMs offset loaded :=
    wallMs_mono ((h.le_look []).trans (h.look_le []))
  have hload : wallMs offset loaded ≤ wallMs offset at' := wallMs_mono hat
  have hsplit := wallMs_split offset he
  have hcarry := carry_le_one offset save.now e
  have harith : wallMs offset loaded < namedMs offset save.now saved e ∧
        wallMs offset at' + (namedMs offset save.now saved e - wallMs offset loaded) = wallMs offset e ↔
      carry offset save.now e = crossed offset save.now saved + crossed offset loaded at' ∧
        wallMs offset at' < wallMs offset e ∧ wallMs offset e < 2 ^ 64 + crossed offset loaded at' := by
    unfold namedMs crossed
    generalize wallMs offset save.now = now at *
    generalize wallMs offset saved = saved at *
    generalize wallMs offset loaded = loaded at *
    generalize wallMs offset at' = at'' at *
    generalize wallMs offset e = due at *
    generalize carry offset save.now e = c at *
    omega
  exact harith.trans ⟨fun ⟨hb, hd, hf⟩ => ⟨hb, hd, hf⟩, fun h => ⟨h.balanced, h.due, h.fits⟩⟩

/-- Restoring a deadline does not overflow `Instant`. -/
theorem restored_fits {offset : Nat} {now : Instant} (h : wallMs offset now < 2 ^ 64) (ms : UInt64) :
    instantAdd now (durationMillis ms.toNat) = some (now + durationMillis ms.toNat) := by
  have hms := ms.toNat_lt
  have hbound : ∀ now : Nat, (now + offset) / 1000000 < 2 ^ 64 →
      (now + 1000000 * ms.toNat) / 1000000000 < 2 ^ 63 := by omega
  unfold instantAdd durationMillis
  rw [if_pos (hbound now h)]

end Clock

/-! ## One record -/

namespace CacheValue

/-- What the commands of a record rebuild: a sorted set from its listing, any other value as it is. -/
def rebuilt (env : Env) (key : Bytes) : CacheValue → CacheValue
  | sortedSet z => sortedSet
      ((z.listing (env.iterPos (some key))).foldl (fun z p => z.add p.1 p.2) SortedSetValue.new)
  | v => v.withExpiry none

theorem withExpiry_none {v : CacheValue} (h : v.expiresAt = none) : v.withExpiry none = v := by
  rw [← h, withExpiry_self]

theorem expiresAt_rebuilt (env : Env) (key : Bytes) (v : CacheValue) :
    (v.rebuilt env key).expiresAt = none := by
  cases v with
  | sortedSet z =>
      exact foldl_invariant (P := fun z : SortedSetValue => z.expiresAt = none)
        (f := fun z (p : F64 × Bytes) => z.add p.1 p.2) (fun _ _ h => h) _ rfl
  | _ => rfl

/-- The length of a sorted set is a `usize`. -/
def Fits : CacheValue → Prop
  | sortedSet z => (z.membersByScore.map fun b => b.2.size).sum ≤ usizeMax
  | _ => True

/-- **What is rebuilt has the content of the value** exactly when a sorted set is settled. -/
theorem rebuilt_eq_iff {v : CacheValue} (env : Env) (key : Bytes) (hsound : v.Sound) :
    v.rebuilt env key = v.withExpiry none ↔ ∀ z, v = .sortedSet z → z.Settled := by
  cases v with
  | sortedSet z =>
      have hz : SortedSetValue.Indexed { z with expiresAt := none } :=
        sound_withExpiry none (v := .sortedSet z) hsound
      have hiff := hz.rebuilt_eq_iff rfl (env.iterPos (some key))
      constructor
      · intro heq z' hz'
        cases hz'
        injection heq with heq
        exact hiff.mp heq
      · intro hs
        exact congrArg CacheValue.sortedSet (hiff.mpr (hs z rfl))
  | _ => simp [rebuilt]

end CacheValue

/-- The save finds the value not past its deadline: a string at `now_instant`, another value at its own reading. -/
def CacheValue.LiveIn (save : SaveReadings) (key : Bytes) : CacheValue → Prop
  | .string _ expiresAt => ∀ e, expiresAt = some e → save.now < e
  | v => ∀ e, v.expiresAt = some e → save.look key ≤ e

section Record

variable {save : SaveReadings} {key : Bytes} {v : CacheValue}

theorem expiredAt_eq_false_iff {now : Instant} {expiresAt : Option Instant} :
    expiredAt now expiresAt = false ↔ ∀ e, expiresAt = some e → now ≤ e := by
  cases expiresAt <;> simp [expiredAt]

/-- The commands of a value that is not past its deadline do not depend on the deadline. -/
theorem rebuildCommands_withExpiry (hlive : v.LiveIn save key) :
    rebuildCommands save key v = rebuildCommands save key (v.withExpiry none) := by
  cases v with
  | string b e =>
      cases e with
      | none => rfl
      | some e =>
          have hlt : ¬ e ≤ save.now := Nat.not_le.mpr (hlive e rfl)
          simp [rebuildCommands, CacheValue.withExpiry, hlt]
  | hash h =>
      have hx : expiredAt (save.look key) h.expiresAt = false := expiredAt_eq_false_iff.mpr hlive
      simp only [rebuildCommands, CacheValue.withExpiry, hx]
      rfl
  | list l =>
      have hx : expiredAt (save.look key) l.expiresAt = false := expiredAt_eq_false_iff.mpr hlive
      simp only [rebuildCommands, CacheValue.withExpiry, hx]
      rfl
  | set s =>
      have hx : expiredAt (save.look key) s.expiresAt = false := expiredAt_eq_false_iff.mpr hlive
      simp only [rebuildCommands, CacheValue.withExpiry, hx]
      rfl
  | sortedSet z =>
      have hx : expiredAt (save.look key) z.expiresAt = false := expiredAt_eq_false_iff.mpr hlive
      simp only [rebuildCommands, CacheValue.withExpiry, hx]
      rfl
  | stream st =>
      have hx : expiredAt (save.look key) st.expiresAt = false := expiredAt_eq_false_iff.mpr hlive
      simp only [rebuildCommands, CacheValue.withExpiry, hx]
      rfl

theorem rebuildCommands_expired (h : ¬ v.LiveIn save key) : rebuildCommands save key v = none := by
  have hpast : ∀ {expiresAt : Option Instant}, (¬ ∀ e, expiresAt = some e → save.look key ≤ e) →
      expiredAt (save.look key) expiresAt = true := fun h =>
    Bool.eq_true_of_not_eq_false fun hnot => h (expiredAt_eq_false_iff.mp hnot)
  cases v with
  | string b e =>
      cases e with
      | none => exact absurd (fun _ he => by cases he) h
      | some e =>
          have hle : e ≤ save.now := by
            by_contra hlt
            exact h fun _ he => Option.some_inj.mp he ▸ Nat.not_le.mp hlt
          simp [rebuildCommands, hle]
  | _ => exact if_pos (hpast h)

/-- A sorted set with members lists them, and its record is one `ZADD` of the listing. -/
theorem rebuildCommands_sortedSet {z : SortedSetValue} (hfits : (CacheValue.sortedSet z).Fits)
    (hlive : (CacheValue.sortedSet z).LiveIn save key) :
    rebuildCommands save key (.sortedSet z)
      = some (if (z.listing (save.iterPos (some key))).isEmpty then []
          else [.zadd key (z.listing (save.iterPos (some key)))]) := by
  have hx : expiredAt (save.look key) z.expiresAt = false := expiredAt_eq_false_iff.mpr hlive
  simp only [rebuildCommands, hx, Bool.false_eq_true, if_false, range_pairs _ hfits]

/-- A value without elements has no record. -/
theorem recordFor_isEmpty (hsound : v.Sound) (hfits : v.Fits) (hempty : v.isEmpty = true) :
    recordFor save key v = none := by
  have hcmds : ∀ commands, rebuildCommands save key v = some commands → commands = [] := by
    intro commands hcmds
    by_cases hlive : v.LiveIn save key
    · cases v with
      | string b e => cases hempty
      | hash h =>
          have hx' : expiredAt (save.look key) h.expiresAt = false := expiredAt_eq_false_iff.mpr hlive
          have hnil : h.fields.toList = [] :=
            Std.ExtTreeMap.toList_eq_nil_iff.mpr (Std.ExtTreeMap.isEmpty_iff.mp hempty)
          simpa [rebuildCommands, hx', HashValue.getAll, hnil, iterate] using hcmds.symm
      | list l =>
          have hx' : expiredAt (save.look key) l.expiresAt = false := expiredAt_eq_false_iff.mpr hlive
          have hitems : l.items.isEmpty = true := hempty
          simpa [rebuildCommands, hx', hitems] using hcmds.symm
      | set t =>
          have hx' : expiredAt (save.look key) t.expiresAt = false := expiredAt_eq_false_iff.mpr hlive
          have hnil : t.members.toList = [] :=
            Std.ExtTreeSet.toList_eq_nil_iff.mpr (Std.ExtTreeSet.isEmpty_iff.mp hempty)
          simpa [rebuildCommands, hx', SetValue.getAll, hnil, iterate] using hcmds.symm
      | sortedSet z =>
          have hz : z.Indexed := hsound
          have hnil : z.listing (save.iterPos (some key)) = [] :=
            (hz.listing_eq_nil_iff _).mpr (Std.ExtTreeMap.isEmpty_iff.mp hempty)
          rw [rebuildCommands_sortedSet hfits hlive, hnil] at hcmds
          exact (Option.some_inj.mp hcmds).symm
      | stream st =>
          have hx' : expiredAt (save.look key) st.expiresAt = false := expiredAt_eq_false_iff.mpr hlive
          have hnil : st.entries.toList = [] :=
            Std.ExtTreeMap.toList_eq_nil_iff.mpr (Std.ExtTreeMap.isEmpty_iff.mp hempty)
          simpa [rebuildCommands, hx', hnil] using hcmds.symm
    · rw [rebuildCommands_expired hlive] at hcmds
      cases hcmds
  unfold recordFor
  cases hr : rebuildCommands save key v with
  | none => rfl
  | some commands =>
      rw [hcmds commands hr]
      rfl

section Rebuilds

variable [KeyHash]

/-- These commands build `w` where the key is absent. -/
def Builds (key : Bytes) (commands : List Command) (w : CacheValue) : Prop :=
  commands ≠ [] ∧ ∀ (envs : Nat → Env) (s : CacheStorage), s.slotAt key = none →
    applyAll envs 0 commands s = (some (), s.setEntry key (some w))

theorem sortedSet_builds {z : SortedSetValue} (hz : z.Indexed) (hfits : (CacheValue.sortedSet z).Fits)
    (hne : (CacheValue.sortedSet z).isEmpty = false) (hlive : (CacheValue.sortedSet z).LiveIn save key) :
    ∃ commands, rebuildCommands save key (.sortedSet z) = some commands ∧
      Builds key commands ((CacheValue.sortedSet z).rebuilt save.toEnv key) := by
  have hl : z.listing (save.iterPos (some key)) ≠ [] := by
    intro hnil
    have hempty := (hz.listing_eq_nil_iff _).mp hnil
    simp [CacheValue.isEmpty, hempty] at hne
  refine ⟨[.zadd key (z.listing (save.iterPos (some key)))], ?_, by simp, ?_⟩
  · rw [rebuildCommands_sortedSet hfits hlive]
    simp [hl]
  · intro envs s hs
    rw [applyAll_single envs (f := Slot.zadd _) (fun _ => rfl), hs]
    rfl

/-- The other types come back as they are, less the deadline. -/
theorem other_builds (hsound : v.Sound) (hnot : ∀ z, v ≠ .sortedSet z) (hne : v.isEmpty = false)
    (hlive : v.LiveIn save key) :
    ∃ commands, rebuildCommands save key v = some commands ∧
      Builds key commands (v.rebuilt save.toEnv key) := by
  have hplain : (v.withExpiry none).Plain := by
    refine ⟨CacheValue.expiresAt_withExpiry none v, ?_⟩
    intro st hst
    have hsound' := CacheValue.sound_withExpiry none hsound
    rw [hst] at hsound'
    exact hsound'
  have hrec : (v.withExpiry none).Recordable := by
    cases v with
    | sortedSet z => exact absurd rfl (hnot z)
    | _ => trivial
  have hne' : (v.withExpiry none).isEmpty = false := by cases v <;> exact hne
  have hrebuilt : v.rebuilt save.toEnv key = v.withExpiry none :=
    (CacheValue.rebuilt_eq_iff save.toEnv key hsound).mpr fun z hz => absurd hz (hnot z)
  rw [rebuildCommands_withExpiry hlive, hrebuilt]
  exact record_rebuilds save key hplain hrec hne'

/-- **The record of a value rebuilds it** where the key is absent, without its deadline. -/
theorem recordFor_builds (hsound : v.Sound) (hfits : v.Fits) (hne : v.isEmpty = false)
    (hlive : v.LiveIn save key) :
    ∃ commands, recordFor save key v = some ⟨key, commands, v.expiresAt.map (toUnixMs save)⟩ ∧
      Builds key commands (v.rebuilt save.toEnv key) := by
  have hbuilds : ∃ commands, rebuildCommands save key v = some commands ∧
      Builds key commands (v.rebuilt save.toEnv key) := by
    by_cases hz : ∃ z, v = .sortedSet z
    · obtain ⟨z, rfl⟩ := hz
      exact sortedSet_builds hsound hfits hne hlive
    · exact other_builds hsound (fun z h => hz ⟨z, h⟩) hne hlive
  obtain ⟨commands, hcmds, hb⟩ := hbuilds
  have hempty : commands.isEmpty = false := by simpa using hb.1
  refine ⟨commands, ?_, hb⟩
  simp only [recordFor, hcmds, hempty, Bool.false_eq_true, if_false]

end Rebuilds

end Record

/-! ## What is loaded -/

/-- What loading leaves of an entry, whose record is read at `readAt` of its key. -/
def loadedValue (save : SaveReadings) (unixMs : UInt64) (readAt : Bytes → Instant) (p : Bytes × CacheValue) : Slot :=
  match recordFor save p.1 p.2 with
  | none => none
  | some r =>
      if r.expireUnixMs.any (· ≤ unixMs) then none
      else some ((p.2.rebuilt save.toEnv p.1).withExpiry
        (r.expireUnixMs.map fun ms => readAt p.1 + durationMillis (ms - unixMs).toNat))

/-- When a load reads the clock for the record of a key. -/
def LoadReadings.readAt (load : LoadReadings) (records : List SnapshotRecord) (key : Bytes) : Instant :=
  (load.record (records.findIdx fun r => r.key == key)).now

section Load

variable [KeyHash] {offset : Nat} {save : SaveReadings} {load : LoadReadings}

theorem restoreDeadline_rebuilt {at' : RecordReadings} (hfits : wallMs offset at'.now < 2 ^ 64) {key : Bytes}
    {s : CacheStorage} {w : CacheValue} (hw : w.expiresAt = none) (unixMs : UInt64) (expireUnixMs : Option UInt64) :
    restoreDeadline unixMs at' key expireUnixMs (s.setEntry key (some w))
      = some (s.setEntry key (some (w.withExpiry
          (expireUnixMs.map fun ms => at'.now + durationMillis (ms - unixMs).toNat)))) := by
  cases expireUnixMs with
  | none => simp only [restoreDeadline, Option.map_none, CacheValue.withExpiry_none hw]
  | some ms =>
      have hlive : w.isExpired at'.check = false := by
        unfold CacheValue.isExpired
        rw [hw]
        rfl
      simp only [restoreDeadline, restored_fits hfits, Option.map_some, CacheStorage.onKey,
        CacheStorage.slotAt_setEntry_self, Slot.setExpiry, hlive, Bool.false_eq_true, if_false,
        CacheStorage.setEntry_setEntry]

omit [KeyHash] in
/-- A value with a record is live and has elements; the record names its key and its deadline. -/
theorem recordFor_some {key : Bytes} {v : CacheValue} {r : SnapshotRecord} (hsound : v.Sound)
    (hfits : v.Fits) (h : recordFor save key v = some r) :
    v.LiveIn save key ∧ v.isEmpty = false ∧ r.key = key ∧ r.expireUnixMs = v.expiresAt.map (toUnixMs save) := by
  refine ⟨?_, ?_, ?_⟩
  · by_contra hpast
    rw [recordFor, rebuildCommands_expired hpast] at h
    cases h
  · cases hempty : v.isEmpty with
    | false => rfl
    | true =>
        rw [recordFor_isEmpty hsound hfits hempty] at h
        cases h
  · unfold recordFor at h
    cases hc : rebuildCommands save key v with
    | none =>
        rw [hc] at h
        cases h
    | some commands =>
        rw [hc] at h
        dsimp only at h
        split at h
        · cases h
        · cases h
          exact ⟨rfl, rfl⟩

/-- **Loading the records of entries** at absent, distinct keys puts back what is left of each. -/
theorem loadRecords_entries (hfit : ∀ i, wallMs offset (load.record i).now < 2 ^ 64) {readAt : Bytes → Instant}
    {entries : List (Bytes × CacheValue)} {i : Nat} {s : CacheStorage}
    (hread : ∀ j r, (recordsOf save entries)[j]? = some r → readAt r.key = (load.record (i + j)).now)
    (hvals : ∀ p ∈ entries, p.2.Sound ∧ p.2.Fits) (hkeys : entries.Pairwise fun p q => p.1 ≠ q.1)
    (habsent : ∀ p ∈ entries, s.slotAt p.1 = none) :
    ∃ n, loadRecords load i (recordsOf save entries) s
      = (some n, entries.foldl (putBack (loadedValue save load.unixMs readAt)) s) := by
  induction entries generalizing i s with
  | nil => exact ⟨0, rfl⟩
  | cons p entries ih =>
      obtain ⟨key, v⟩ := p
      obtain ⟨hsound, hfits⟩ := hvals (key, v) (List.mem_cons_self ..)
      obtain ⟨hhead, htail⟩ := List.pairwise_cons.mp hkeys
      -- the keys are distinct, so putting one back leaves the others absent
      have hrest : ∀ p ∈ entries,
          (putBack (loadedValue save load.unixMs readAt) s (key, v)).slotAt p.1 = none := by
        intro p hp
        rw [slotAt_putBack_ne (hhead p hp)]
        exact habsent p (List.mem_cons_of_mem _ hp)
      have hn := fun i hread => ih (i := i) hread (fun p hp => hvals p (List.mem_cons_of_mem _ hp)) htail hrest
      rw [recordsOf, List.filterMap_cons] at hread ⊢
      rw [List.foldl_cons]
      cases hr : recordFor save key v with
      | none =>
          -- no record was made of it
          have hput : putBack (loadedValue save load.unixMs readAt) s (key, v) = s := by
            simp [putBack, loadedValue, hr]
          simp only [hr] at hread
          rw [hput] at hn ⊢
          exact hn i hread
      | some r =>
          obtain ⟨hlive, hne, hkey, hms⟩ := recordFor_some hsound hfits hr
          simp only [hr] at hread
          obtain ⟨n, hn⟩ := hn (i + 1) fun j r' hr' => by
            rw [Nat.add_right_comm]
            exact hread (j + 1) r' hr'
          rw [recordsOf] at hn
          cases hskip : (v.expiresAt.map (toUnixMs save)).any (· ≤ load.unixMs) with
          | true =>
              have hput : putBack (loadedValue save load.unixMs readAt) s (key, v) = s := by
                simp only [putBack, loadedValue, hr, hms, hskip, if_true]
              rw [hput] at hn ⊢
              refine ⟨n, ?_⟩
              simp only [loadRecords, hms, hskip, if_true]
              exact hn
          | false =>
              obtain ⟨commands, hrec, -, happly⟩ := @recordFor_builds save key v _ hsound hfits hne hlive
              have hat : readAt key = (load.record i).now := hkey ▸ hread 0 r rfl
              obtain rfl := Option.some_inj.mp (hr.symm.trans hrec)
              have hput : putBack (loadedValue save load.unixMs readAt) s (key, v)
                  = s.setEntry key (some ((v.rebuilt save.toEnv key).withExpiry
                      ((v.expiresAt.map (toUnixMs save)).map fun ms =>
                        (load.record i).now + durationMillis (ms - load.unixMs).toNat))) := by
                simp only [putBack, loadedValue, hr, hskip, Bool.false_eq_true, if_false, hat]
              rw [hput] at hn ⊢
              refine ⟨n + 1, ?_⟩
              simp only [loadRecords, hskip, Bool.false_eq_true, if_false,
                happly _ s (habsent (key, v) (List.mem_cons_self ..)),
                restoreDeadline_rebuilt (hfit i) (v.expiresAt_rebuilt save.toEnv key)]
              rw [hn]
              rfl

omit [KeyHash] in
/-- A key has one record, so the load reads the clock for it where that record stands. -/
theorem readAt_record {entries : List (Bytes × CacheValue)} (hvals : ∀ p ∈ entries, p.2.Sound ∧ p.2.Fits)
    (hkeys : entries.Pairwise fun p q => p.1 ≠ q.1) {j : Nat} {r : SnapshotRecord}
    (h : (recordsOf save entries)[j]? = some r) :
    load.readAt (recordsOf save entries) r.key = (load.record j).now := by
  have hdistinct : (recordsOf save entries).Pairwise fun r r' => r.key ≠ r'.key := by
    refine List.pairwise_filterMap.mpr (hkeys.imp_of_mem ?_)
    intro p q hp hq hne r hr r' hr'
    rw [(recordFor_some (hvals p hp).1 (hvals p hp).2 hr).2.2.1,
      (recordFor_some (hvals q hq).1 (hvals q hq).2 hr').2.2.1]
    exact hne
  obtain ⟨hj, hget⟩ := List.getElem?_eq_some_iff.mp h
  have hidx : (recordsOf save entries).findIdx (fun r' => r'.key == r.key) = j := by
    rw [List.findIdx_eq hj]
    refine ⟨by simp [hget], fun i hi => ?_⟩
    have hne := List.pairwise_iff_getElem.mp hdistinct i j (hi.trans hj) hj hi
    rw [hget] at hne
    simpa using hne
  rw [LoadReadings.readAt, hidx]

variable (save) in
/-- **A loaded snapshot holds at each key what is left of its value.** -/
theorem loadRecords_saved (hfit : ∀ i, wallMs offset (load.record i).now < 2 ^ 64) {s : CacheStorage}
    (hsound : s.Sound) (hfits : ∀ k v, s.slotAt k = some v → v.Fits) :
    ∃ n t, loadRecords load 0 (createSnapshot save s) CacheStorage.new = (some n, t) ∧
      ∀ k, t.slotAt k = (s.slotAt k).bind fun v =>
        loadedValue save load.unixMs (load.readAt (createSnapshot save s)) (k, v) := by
  have hvals : ∀ p ∈ s.getAllEntries save.toEnv, p.2.Sound ∧ p.2.Fits := by
    rintro ⟨k, v⟩ hp
    have hv := (mem_getAllEntries save.toEnv).mp hp
    exact ⟨hsound k v hv, hfits k v hv⟩
  have hkeys := getAllEntries_distinct save.toEnv s
  obtain ⟨n, hn⟩ := loadRecords_entries (i := 0) hfit (fun j r hr => by
    rw [Nat.zero_add]
    exact readAt_record hvals hkeys hr) hvals hkeys fun p _ => CacheStorage.slotAt_new p.1
  exact ⟨n, _, hn, slotAt_putBack_all save.toEnv _ s⟩

end Load

/-! ## The round trip -/

section RoundTrip

variable (offset : Nat) (save : SaveReadings) (load : LoadReadings)

/-- A value that a load should bring back: live at the save and not without elements, its deadline in a later
    millisecond than the load. -/
structure Survives (v : CacheValue) : Prop where
  live : v.isExpired save.now = false
  nonempty : v.isEmpty = false
  later : ∀ e, v.expiresAt = some e → load.unixMs.toNat < wallMs offset e

/-- `w` has the type, the content and, to the millisecond, the deadline of `v`. -/
structure BroughtBack (v w : CacheValue) : Prop where
  content : w.withExpiry none = v.withExpiry none
  deadline : w.expiresAt.map (wallMs offset) = v.expiresAt.map (wallMs offset)

/-- What was saved is loaded into an empty storage: every surviving key comes back, and no other key appears. -/
def RoundTrips [KeyHash] [Codec] [RecordCodec] (s : CacheStorage) (disk : Disk) : Prop :=
  ∃ n t, loadSnapshot load (saveSnapshotToPath save s disk).snapshot CacheStorage.new
      = (some (.ok n), t) ∧
    ∀ k, (∀ v, s.slotAt k = some v → Survives offset save load v →
        ∃ w, t.slotAt k = some w ∧ BroughtBack offset v w) ∧
      ((∀ v, s.slotAt k = some v → ¬ Survives offset save load v) → t.slotAt k = none)

variable (saved loaded : Instant)

/-- The value loses nothing on the way: its deadline comes back exact from a record read at `at'`, and the scores of
    a sorted set are those of its buckets. -/
def CarriedWhole (at' : Instant) (v : CacheValue) : Prop :=
  (∀ e, v.expiresAt = some e → DeadlineExact offset save.now saved loaded at' e) ∧
    ∀ z, v = .sortedSet z → z.Settled

/-- The value does not come back: the save drops it, or names a millisecond that the load finds past. -/
def StaysAway (key : Bytes) (v : CacheValue) : Prop :=
  v.isEmpty = false → v.LiveIn save key →
    ∀ e, v.expiresAt = some e → namedMs offset save.now saved e ≤ wallMs offset loaded

variable {offset save load saved loaded}

omit load loaded in
/-- A value the save finds live is not past its deadline at `now_instant`. -/
theorem CacheValue.LiveIn.now_le {key : Bytes} {v : CacheValue} (h : v.LiveIn save key)
    (hlook : save.now ≤ save.look key) : ∀ e, v.expiresAt = some e → save.now ≤ e := by
  intro e he
  cases v with
  | string b _ => exact (h e he).le
  | _ => exact hlook.trans (h e he)

theorem OneClock.now_le_look (h : OneClock offset save load saved loaded) (key : Bytes) :
    save.now ≤ save.look key := h.now_le.trans (h.le_look key)

/-- A surviving value is one the save finds live. -/
theorem Survives.liveIn (hclock : OneClock offset save load saved loaded) {v : CacheValue}
    (h : Survives offset save load v) (key : Bytes) : v.LiveIn save key := by
  have hlater : ∀ e, v.expiresAt = some e → loaded < e := fun e he =>
    lt_of_wallMs_lt (hclock.loadWall ▸ h.later e he)
  have hlook := hclock.look_le key
  cases v with
  | string b _ => exact fun e he => ((hclock.now_le_look key).trans hlook).trans_lt (hlater e he)
  | _ => exact fun e he => hlook.trans (hlater e he).le

/-- The load skips the record of a deadline exactly when it finds the named millisecond past. -/
theorem skipped_iff (hclock : OneClock offset save load saved loaded) {e : Instant} (he : save.now ≤ e) :
    toUnixMs save e ≤ load.unixMs ↔ namedMs offset save.now saved e ≤ wallMs offset loaded := by
  rw [UInt64.le_iff_toNat_le, toNat_toUnixMs hclock he, hclock.loadWall]

/-- **A value that should not come back stays away** exactly under this condition. -/
theorem loadedValue_none_iff (hclock : OneClock offset save load saved loaded) (readAt : Bytes → Instant)
    {key : Bytes} {v : CacheValue} (hsound : v.Sound) (hfits : v.Fits) (h : ¬ Survives offset save load v) :
    loadedValue save load.unixMs readAt (key, v) = none ↔ StaysAway offset save saved loaded key v := by
  by_cases hrec : v.isEmpty = false ∧ v.LiveIn save key
  · obtain ⟨hne, hlive⟩ := hrec
    have hnow := hlive.now_le (hclock.now_le_look key)
    -- without a deadline it would survive
    obtain ⟨e, he⟩ : ∃ e, v.expiresAt = some e := by
      by_contra hno
      push Not at hno
      refine h ⟨?_, hne, fun e he => absurd he (hno e)⟩
      exact expiredAt_eq_false_iff.mpr fun e he => absurd he (hno e)
    obtain ⟨commands, hr, -⟩ := @recordFor_builds save key v ⟨fun _ => 0⟩ hsound hfits hne hlive
    have hskip := skipped_iff hclock (hnow e he)
    simp only [loadedValue, hr, he, Option.map_some, Option.any_some, decide_eq_true_eq, hskip]
    constructor
    · intro hnone _ _ e' he'
      obtain rfl := Option.some_inj.mp (he.symm.trans he')
      by_contra hlate
      rw [if_neg hlate] at hnone
      cases hnone
    · intro haway
      rw [if_pos (haway hne hlive e he)]
  · have hnone : recordFor save key v = none := by
      cases hr : recordFor save key v with
      | none => rfl
      | some r =>
          obtain ⟨hlive, hne, -⟩ := recordFor_some hsound hfits hr
          exact absurd ⟨hne, hlive⟩ hrec
    simp only [loadedValue, hnone, true_iff]
    exact fun hne hlive => absurd ⟨hne, hlive⟩ hrec

/-- The content of what is loaded is that of the value exactly when a sorted set is settled. -/
theorem content_iff (env : Env) {key : Bytes} {v : CacheValue} (hsound : v.Sound) (e : Option Instant) :
    ((v.rebuilt env key).withExpiry e).withExpiry none = v.withExpiry none ↔
      ∀ z, v = .sortedSet z → z.Settled := by
  rw [CacheValue.withExpiry_withExpiry, CacheValue.withExpiry_none (v.expiresAt_rebuilt env key)]
  exact CacheValue.rebuilt_eq_iff env key hsound

/-- **A surviving value is brought back exactly when it is carried whole.** -/
theorem loadedValue_iff [KeyHash] (hclock : OneClock offset save load saved loaded) {readAt : Bytes → Instant}
    {key : Bytes} (hat : loaded ≤ readAt key) (hfit : wallMs offset (readAt key) < 2 ^ 64) {v : CacheValue}
    (hsound : v.Sound) (hfits : v.Fits) (h : Survives offset save load v) :
    (∃ w, loadedValue save load.unixMs readAt (key, v) = some w ∧ BroughtBack offset v w)
      ↔ CarriedWhole offset save saved loaded (readAt key) v := by
  have hlive := h.liveIn hclock key
  have hnow := hlive.now_le (hclock.now_le_look key)
  obtain ⟨commands, hrec, -⟩ := @recordFor_builds save key v _ hsound hfits h.nonempty hlive
  simp only [loadedValue, hrec]
  cases he : v.expiresAt with
  | none =>
      simp only [Option.map_none, Option.any_none, Bool.false_eq_true, if_false, Option.some_inj]
      constructor
      · rintro ⟨w, rfl, hback⟩
        refine ⟨?_, (content_iff save.toEnv hsound none).mp hback.content⟩
        intro e he'
        rw [he] at he'
        cases he'
      · rintro ⟨-, hs⟩
        refine ⟨_, rfl, (content_iff save.toEnv hsound none).mpr hs, ?_⟩
        rw [he, CacheValue.expiresAt_withExpiry]
  | some e =>
      have hexact := restored_exact_iff hclock (hnow e he) hat hfit
      simp only [Option.map_some, Option.any_some, decide_eq_true_eq]
      by_cases hskip : toUnixMs save e ≤ load.unixMs
      · -- skipped as past, although its deadline is not
        rw [if_pos hskip]
        constructor
        · rintro ⟨w, hw, -⟩
          cases hw
        · rintro ⟨hd, -⟩
          exact absurd (hexact.mpr (hd e he)).1 (UInt64.not_lt.mpr hskip)
      · simp only [hskip, if_false, Option.some_inj]
        constructor
        · rintro ⟨w, rfl, hback⟩
          refine ⟨?_, (content_iff save.toEnv hsound _).mp hback.content⟩
          intro e' he'
          obtain rfl := Option.some_inj.mp (he.symm.trans he')
          have hdead := hback.deadline
          rw [CacheValue.expiresAt_withExpiry, he, Option.map_some, Option.map_some] at hdead
          exact hexact.mp ⟨UInt64.not_le.mp hskip, Option.some_inj.mp hdead⟩
        · rintro ⟨hd, hs⟩
          refine ⟨_, rfl, (content_iff save.toEnv hsound _).mpr hs, ?_⟩
          rw [CacheValue.expiresAt_withExpiry, he, Option.map_some, Option.map_some, (hexact.mpr (hd e he)).2]

/-- The round trip of a sound storage. -/
theorem roundTrips_iff_of_sound [KeyHash] [Codec] [RecordCodec] {s : CacheStorage} (disk : Disk)
    (hsound : s.Sound) (hfits : ∀ k v, s.slotAt k = some v → v.Fits)
    (hclock : OneClock offset save load saved loaded) (henc : EncodesRecords (createSnapshot save s)) :
    RoundTrips offset save load s disk ↔
      ∀ k v, s.slotAt k = some v →
        (Survives offset save load v →
          CarriedWhole offset save saved loaded (load.readAt (createSnapshot save s) k) v) ∧
        (¬ Survives offset save load v → StaysAway offset save saved loaded k v) := by
  set readAt := load.readAt (createSnapshot save s) with hreadAt
  obtain ⟨n, t, hload, hslots⟩ := loadRecords_saved save hclock.record_fits hsound hfits
  have hfile : loadSnapshot load (saveSnapshotToPath save s disk).snapshot CacheStorage.new
      = (some (.ok n), t) := by
    simp only [saveSnapshotToPath, loadSnapshot, readSnapshot_snapshotFile _ henc, hload, Option.map_some]
  have hkey : ∀ k v, s.slotAt k = some v → t.slotAt k = loadedValue save load.unixMs readAt (k, v) := by
    intro k v hv
    rw [hslots k, hv]
    rfl
  have hback : ∀ k v, s.slotAt k = some v → Survives offset save load v →
      ((∃ w, t.slotAt k = some w ∧ BroughtBack offset v w) ↔
        CarriedWhole offset save saved loaded (readAt k) v) := by
    intro k v hv hsurv
    rw [hkey k v hv]
    exact loadedValue_iff hclock (hclock.le_record _) (hclock.record_fits _) (hsound k v hv) (hfits k v hv) hsurv
  have haway : ∀ k v, s.slotAt k = some v → ¬ Survives offset save load v →
      (t.slotAt k = none ↔ StaysAway offset save saved loaded k v) := by
    intro k v hv hno
    rw [hkey k v hv]
    exact loadedValue_none_iff hclock readAt (hsound k v hv) (hfits k v hv) hno
  constructor
  · rintro ⟨n', t', hload', htrip⟩ k v hv
    obtain rfl : t = t' := congrArg Prod.snd (hfile.symm.trans hload')
    refine ⟨fun hsurv => (hback k v hv hsurv).mp ((htrip k).1 v hv hsurv), fun hno => ?_⟩
    refine (haway k v hv hno).mp ((htrip k).2 fun v' hv' => ?_)
    rwa [Option.some_inj.mp (hv'.symm.trans hv)]
  · intro hall
    refine ⟨n, t, hfile, fun k => ⟨fun v hv hsurv => (hback k v hv hsurv).mpr ((hall k v hv).1 hsurv), ?_⟩⟩
    intro hnone
    cases hv : s.slotAt k with
    | none =>
        rw [hslots k, hv]
        rfl
    | some v => exact (haway k v hv (hnone v hv)).mpr ((hall k v hv).2 (hnone v hv))

/-- **The round trip of a snapshot, exactly.** Saving a reachable storage and loading the file into an
empty one brings back every surviving key and no other, if and only if every surviving value is carried
whole and every other one stays away. -/
theorem snapshot_roundTrips_iff [KeyHash] [Codec] [RecordCodec] {s : CacheStorage} (disk : Disk)
    (hreach : Reachable s) (hfits : ∀ k v, s.slotAt k = some v → v.Fits)
    (hclock : OneClock offset save load saved loaded) (henc : EncodesRecords (createSnapshot save s)) :
    RoundTrips offset save load s disk ↔
      ∀ k v, s.slotAt k = some v →
        (Survives offset save load v →
          CarriedWhole offset save saved loaded (load.readAt (createSnapshot save s) k) v) ∧
        (¬ Survives offset save load v → StaysAway offset save saved loaded k v) :=
  roundTrips_iff_of_sound disk hreach.sound.1 hfits hclock henc

end RoundTrip

/-! ## A string with a deadline -/

/-- A save that reads the monotonic clock at `now` and the wall clock at `saved`. -/
def SaveReadings.clocked (now saved : Instant) : SaveReadings := { SaveReadings.ofEnv (Env.clocked saved) with now }

/-- A load that reads the wall clock at `loaded` and its records at `at'`. -/
def LoadReadings.clocked (loaded at' : Instant) : LoadReadings :=
  { LoadReadings.ofEnv (Env.clocked at') with unixMs := (Env.clocked loaded).unixMs }

theorem toNat_unixMs_clocked {now : Instant} (h : now < 2 ^ 64) :
    (Env.clocked now).unixMs.toNat = wallMs 1700000000000000000 now := by
  show (UInt64.ofNat (1700000000000 + now / 1000000)).toNat = (now + 1700000000000000000) / 1000000
  have hbound : ∀ n : Nat, n < 2 ^ 64 →
      (1700000000000 + n / 1000000) % 2 ^ 64 = (n + 1700000000000000000) / 1000000 := by omega
  rw [UInt64.toNat_ofNat', hbound now h]

theorem oneClock_clocked {now saved loaded at' : Instant} (hsave : now ≤ saved) (hlater : saved ≤ loaded)
    (hload : loaded ≤ at') (hfits : at' < 2 ^ 64) :
    OneClock 1700000000000000000 (SaveReadings.clocked now saved) (LoadReadings.clocked loaded at') saved loaded where
  saveWall := toNat_unixMs_clocked ((hlater.trans hload).trans_lt hfits)
  loadWall := toNat_unixMs_clocked (hload.trans_lt hfits)
  now_le := hsave
  le_look _ := le_refl saved
  look_le _ := hlater
  le_record _ := hload
  record_fits _ := by
    have hbound : ∀ n : Nat, n < 2 ^ 64 → (n + 1700000000000000000) / 1000000 < 2 ^ 64 := by omega
    exact hbound at' hfits

/-- `bincode` of a snapshot of one string that may have a deadline: an `Option` is a tag byte, and a
    `u64` eight little-endian bytes. -/
def encodeTimed : List SnapshotRecord → Bytes
  | [⟨key, [.set key' value none], expire⟩] =>
      [1, 0, 0, 0, 0, 0, 0, 0] ++ (encodeBytes key ++ ([1, 0, 0, 0, 0, 0, 0, 0] ++ ([1, 0, 0, 0] ++
        (encodeBytes key' ++ (encodeBytes value ++ (0 :: (expire.map fun ms =>
          1 :: (BigEndian.toBytes 8 ms.toNat).reverse).getD [0]))))))
  | _ => []

def decodeTimed (data : Bytes) : Except Bytes (List SnapshotRecord) :=
  let record := do
    let (key, rest) ← decodeBytes (data.drop 8)
    let (key', rest) ← decodeBytes (rest.drop 12)
    let (value, rest) ← decodeBytes rest
    let ms := UInt64.ofNat (BigEndian.ofBytes (rest.drop 2).reverse)
    return ⟨key, [.set key' value none], if rest.getD 1 0 = 1 then some ms else none⟩
  match record with
  | some r => .ok [r]
  | none => .error (utf8 "io error: unexpected end of file")

/-- The record codec of the runs whose snapshots hold one string, with or without a deadline. -/
@[reducible] def timedCodec : RecordCodec := ⟨encodeTimed, decodeTimed⟩

theorem encodesRecords_timed (key value : Bytes) (ms : UInt64) (hk : key.length < 2 ^ 32)
    (hv : value.length < 2 ^ 32) :
    @EncodesRecords timedCodec [⟨key, [.set key value none], some ms⟩] := by
  have hdec := fun (b rest : Bytes) (h : b.length < 2 ^ 32) =>
    decodeBytes_encodeBytes b rest (h.trans (by norm_num))
  have hlen : ∀ b : Bytes, (encodeBytes b).length = 8 + b.length := by simp [encodeBytes]
  refine @EncodesRecords.mk timedCodec _ ?_ ?_
  · show decodeTimed (encodeTimed _) = _
    have hrest : ∀ rest : Bytes, ([1, 0, 0, 0, 0, 0, 0, 0] ++ ([1, 0, 0, 0] ++ rest)).drop 12 = rest :=
      fun _ => rfl
    have hhead : ∀ rest : Bytes, ([1, 0, 0, 0, 0, 0, 0, 0] ++ rest).drop 8 = rest := fun _ => rfl
    have hms : UInt64.ofNat (BigEndian.ofBytes (BigEndian.toBytes 8 ms.toNat)) = ms := by
      rw [BigEndian.ofBytes_toBytes_of_lt (by exact_mod_cast ms.toNat_lt)]
      simp
    simp only [decodeTimed, encodeTimed, hhead, hdec key _ hk, hrest, hdec value _ hv,
      Option.bind_eq_bind, Option.bind_some, Option.map_some, Option.getD_some]
    simp [hms]
  · show (encodeTimed _).length ≤ isizeMax
    simp only [encodeTimed, List.length_append, hlen, List.length_cons, List.length_nil,
      Option.map_some, Option.getD_some, List.length_reverse, BigEndian.length_toBytes]
    unfold isizeMax
    omega

section Timed

variable [KeyHash]

/-- `SET k v EX 10`, half a millisecond into a millisecond of the wall clock. -/
def setTenSeconds : CacheStorage :=
  effect (Env.clocked 500000) (.set (utf8 "k") (utf8 "v") (some 10)) CacheStorage.new

theorem setTenSeconds_eq : setTenSeconds
    = CacheStorage.new.setEntry (utf8 "k") (some (.string (utf8 "v") (some 10000500000))) := rfl

theorem slotAt_setTenSeconds {k : Bytes} {v : CacheValue} :
    setTenSeconds.slotAt k = some v ↔ k = utf8 "k" ∧ v = .string (utf8 "v") (some 10000500000) := by
  rw [setTenSeconds_eq, CacheStorage.slotAt_setEntry, CacheStorage.slotAt_new]
  by_cases hk : k = utf8 "k"
  · simp [hk, eq_comm]
  · simp [hk]

theorem reachable_setTenSeconds : Reachable setTenSeconds := by
  refine Reachable.command (Env.clocked 500000) (.set (utf8 "k") (utf8 "v") (some 10)) Reachable.new
    trivial ?_
  intro k st hst
  cases (slotAt_setTenSeconds.mp hst).2

theorem fits_setTenSeconds : ∀ k v, setTenSeconds.slotAt k = some v → v.Fits := by
  intro k v hv
  rw [(slotAt_setTenSeconds.mp hv).2]
  trivial

theorem encodesRecords_setTenSeconds {now saved : Instant} (h : now < 10000500000) :
    @EncodesRecords timedCodec (createSnapshot (SaveReadings.clocked now saved) setTenSeconds) := by
  have hlater : ¬ (10000500000 : Nat) ≤ now := Nat.not_le.mpr h
  have hrecord : recordFor (SaveReadings.clocked now saved) (utf8 "k") (.string (utf8 "v") (some 10000500000))
      = some ⟨utf8 "k", [.set (utf8 "k") (utf8 "v") none],
          some (toUnixMs (SaveReadings.clocked now saved) 10000500000)⟩ := by
    have hnow : (SaveReadings.clocked now saved).now = now := rfl
    simp [recordFor, rebuildCommands, hnow, hlater, CacheValue.expiresAt]
  rw [setTenSeconds_eq, createSnapshot_single, hrecord]
  exact encodesRecords_timed _ _ _ (by decide) (by decide)

omit [KeyHash] in
/-- The one key survives a load in an earlier millisecond than its deadline. -/
theorem survives_setTenSeconds {now saved loaded at' : Instant} (hlive : now < 10000500000)
    (hfits : loaded < 2 ^ 64) (hlater : wallMs 1700000000000000000 loaded < wallMs 1700000000000000000 10000500000) :
    Survives 1700000000000000000 (SaveReadings.clocked now saved) (LoadReadings.clocked loaded at')
      (.string (utf8 "v") (some 10000500000)) := by
  refine ⟨?_, rfl, ?_⟩
  · exact expiredAt_eq_false_iff.mpr fun e he => Option.some_inj.mp he ▸ hlive.le
  · intro e he
    obtain rfl : 10000500000 = e := Option.some_inj.mp he
    rw [show (LoadReadings.clocked loaded at').unixMs = (Env.clocked loaded).unixMs from rfl,
      toNat_unixMs_clocked hfits]
    exact hlater

end Timed

/-- The theorem where save and load stay within a millisecond and the save starts on a full one: the key comes back
    with its deadline. -/
theorem snapshot_roundTrips_full_ms :
    letI := shortKeys
    letI := incrCodec
    letI := timedCodec
    RoundTrips 1700000000000000000 (SaveReadings.clocked 1000000 1000300)
      (LoadReadings.clocked 9999000000 9999700000) setTenSeconds ⟨none, fun _ => none, none⟩ := by
  let := shortKeys
  let := incrCodec
  let := timedCodec
  apply (snapshot_roundTrips_iff ⟨none, fun _ => none, none⟩ reachable_setTenSeconds fits_setTenSeconds
    (oneClock_clocked (by decide) (by decide) (by decide) (by decide))
    (encodesRecords_setTenSeconds (by decide))).mpr
  intro k v hv
  rw [(slotAt_setTenSeconds.mp hv).2]
  refine ⟨fun _ => ⟨?_, fun z hz => by cases hz⟩, fun hno => absurd ?_ hno⟩
  · intro e he
    obtain rfl : 10000500000 = e := Option.some_inj.mp he
    show DeadlineExact 1700000000000000000 1000000 1000300 9999000000 9999700000 10000500000
    exact ⟨by decide, by decide, by decide⟩
  · exact survives_setTenSeconds (by decide) (by decide) (by decide)

/-- The same key, saved 0.9 ms into the run: the deadline is recorded as 9999 ms after the start, not as
    the 10000 it is, and a load at 9999 ms drops the key with a millisecond to live. And saved on a full millisecond:
    a load that reads its record a millisecond after the wall clock brings the deadline back a millisecond late. -/
theorem snapshot_drops_and_delays :
    letI := shortKeys
    letI := incrCodec
    letI := timedCodec
    Reachable setTenSeconds ∧
      (OneClock 1700000000000000000 (SaveReadings.clocked 900000 900000)
          (LoadReadings.clocked 9999000000 9999000000) 900000 9999000000 ∧
        EncodesRecords (createSnapshot (SaveReadings.clocked 900000 900000) setTenSeconds) ∧
        ¬ RoundTrips 1700000000000000000 (SaveReadings.clocked 900000 900000)
            (LoadReadings.clocked 9999000000 9999000000) setTenSeconds ⟨none, fun _ => none, none⟩) ∧
      (OneClock 1700000000000000000 (SaveReadings.clocked 1000000 1000000)
          (LoadReadings.clocked 5000999999 5001000000) 1000000 5000999999 ∧
        EncodesRecords (createSnapshot (SaveReadings.clocked 1000000 1000000) setTenSeconds) ∧
        ¬ RoundTrips 1700000000000000000 (SaveReadings.clocked 1000000 1000000)
            (LoadReadings.clocked 5000999999 5001000000) setTenSeconds ⟨none, fun _ => none, none⟩) := by
  let := shortKeys
  let := incrCodec
  let := timedCodec
  have hclock : OneClock 1700000000000000000 (SaveReadings.clocked 900000 900000)
      (LoadReadings.clocked 9999000000 9999000000) 900000 9999000000 :=
    oneClock_clocked (by decide) (by decide) (by decide) (by decide)
  have henc : EncodesRecords (createSnapshot (SaveReadings.clocked 900000 900000) setTenSeconds) :=
    encodesRecords_setTenSeconds (by decide)
  have hclock' : OneClock 1700000000000000000 (SaveReadings.clocked 1000000 1000000)
      (LoadReadings.clocked 5000999999 5001000000) 1000000 5000999999 :=
    oneClock_clocked (by decide) (by decide) (by decide) (by decide)
  have henc' : EncodesRecords (createSnapshot (SaveReadings.clocked 1000000 1000000) setTenSeconds) :=
    encodesRecords_setTenSeconds (by decide)
  have hslot := slotAt_setTenSeconds.mpr ⟨rfl, rfl⟩
  refine ⟨reachable_setTenSeconds, ⟨hclock, henc, fun hback => ?_⟩, ⟨hclock', henc', fun hback => ?_⟩⟩
  · -- the carry of 0.9 ms and 9999.6 ms left is dropped
    have hwhole := ((roundTrips_iff_of_sound _ reachable_setTenSeconds.sound.1 fits_setTenSeconds
      hclock henc).mp hback _ _ hslot).1 (survives_setTenSeconds (by decide) (by decide) (by decide))
    have hexact : DeadlineExact 1700000000000000000 900000 900000 9999000000 9999000000 10000500000 :=
      hwhole.1 10000500000 rfl
    exact absurd hexact.balanced (by decide)
  · have hwhole := ((roundTrips_iff_of_sound _ reachable_setTenSeconds.sound.1 fits_setTenSeconds
      hclock' henc').mp hback _ _ hslot).1 (survives_setTenSeconds (by decide) (by decide) (by decide))
    have hexact : DeadlineExact 1700000000000000000 1000000 1000000 5000999999 5001000000 10000500000 :=
      hwhole.1 10000500000 rfl
    exact absurd hexact.balanced (by decide)

end FerricCache
