import FerricCache.Server.ValueInvariant

/-!
# `FerricCache.Server.Reachable` — what holds in every storage the operations can build

`Reachable` storages are those built from the empty one by the commands and the expiry sweep, at any clock
readings, with no NaN among the scores and no stream at the last sequence number. In all of them the
indexes of every sorted set agree up to the sign of zero, and the last id of every stream is the greatest
of its entries (`Reachable.sound`). The step lemma is `effect_sound`, the case of `effect_holds` for this
invariant.
-/

namespace FerricCache

/-- The invariant of stored values. -/
def CacheValue.Sound : CacheValue → Prop
  | .sortedSet z => z.Indexed
  | .stream st => st.Topped
  | _ => True

/-- A slot that holds nothing, or a sound value. -/
def Slot.Sound (slot : Slot) : Prop := ∀ v, slot = some v → v.Sound

/-- The invariant does not look at the deadline. -/
theorem CacheValue.sound_withExpiry (e : Option Instant) {v : CacheValue} (h : v.Sound) :
    (v.withExpiry e).Sound := by
  cases v with
  | sortedSet z =>
      have hz : z.Indexed := h
      exact (⟨hz.ordered, hz.nonempty, hz.score⟩ : SortedSetValue.Indexed { z with expiresAt := e })
  | stream st =>
      have hst : st.Topped := h
      exact (⟨hst.pos, hst.le, hst.last⟩ : StreamValue.Topped { st with expiresAt := e })
  | _ => trivial

theorem soundInvariant : ValueInvariant CacheValue.Sound where
  string _ _ := trivial
  hash _ := trivial
  list _ := trivial
  set _ := trivial
  withExpiry e _ h := CacheValue.sound_withExpiry e h
  remove _ m h := SortedSetValue.Indexed.remove h m

/-! ## Sorted sets -/

namespace Slot

variable {slot : Slot}

theorem sound_zadd {members : List (F64 × Bytes)} (hnan : ∀ p ∈ members, p.1 ≠ .nan)
    (hs : slot.Sound) : Slot.Sound (zadd members slot).2 := by
  have hfold : ∀ (l : List (F64 × Bytes)) (z : SortedSetValue), (∀ p ∈ l, p.1 ≠ .nan) → z.Indexed →
      (l.foldl (fun z p => z.add p.1 p.2) z).Indexed := by
    intro l
    induction l with
    | nil => exact fun z _ hz => hz
    | cons p l ih =>
        intro z hl hz
        exact ih _ (fun q hq => hl q (List.mem_cons_of_mem _ hq))
          (hz.add (hl p (List.mem_cons_self ..)) p.2)
  refine holds_writeAny Kind.sortedSet (holds_some.mpr ?_) ?_ hs
  · exact hfold members _ hnan SortedSetValue.indexed_new
  · exact fun z hz => hfold members z hnan hz

theorem sound_zincrBy {now : Instant} {delta : F64} {member : Bytes} (hdelta : delta ≠ .nan)
    (hsum : ∀ z, slot = some (.sortedSet z) → ((z.getScore member).getD (.fin 0)).add delta ≠ .nan)
    (hs : slot.Sound) : Slot.Sound (zincrBy now delta member slot).2 := by
  refine holds_writeOrCreate Kind.sortedSet now ?_ ?_ hs
  · rintro a t ⟨⟩
    exact SortedSetValue.indexed_new.add hdelta member
  · intro z hslot hz
    exact SortedSetValue.Indexed.add hz (hsum z hslot) member

end Slot

/-! ## Streams -/

/-- The sequence number after the last one is a `u64`. -/
def StreamValue.Unsaturated (st : StreamValue) : Prop := st.lastId.seq.toNat + 1 < 2 ^ 64

/-- An auto id is above the last one. -/
theorem StreamValue.autoId_above {st : StreamValue} (h : st.Unsaturated) (nowMs : UInt64) :
    (compare (st.autoId nowMs) st.lastId).isLE = false := by
  rw [StreamId.isLE_iff_not_lt]
  refine lastId_lt_autoId (c := ⟨nowMs, none, []⟩) ?_ rfl
  rintro ⟨-, -, hlast⟩
  unfold Unsaturated at h
  omega

theorem StreamValue.topped_add_any {st : StreamValue} (nowMs : UInt64) (requested : Option StreamId)
    (fields : List (Bytes × Bytes)) (htop : st.Topped) (hseq : st.Unsaturated) :
    (st.add nowMs requested fields).2.Topped := by
  cases requested with
  | some id => exact st.topped_add nowMs id fields htop
  | none => exact topped_push fields htop (autoId_above hseq nowMs)

theorem Slot.sound_xadd {slot : Slot} (env : Env) (requested : Option StreamId)
    (fields : List (Bytes × Bytes))
    (hseq : ∀ st, slot = some (.stream st) → st.Unsaturated) (hs : slot.Sound) :
    Slot.Sound (Slot.xadd env requested fields slot).2 := by
  refine holds_writeOrCreate Kind.stream env.now ?_ ?_ hs
  · intro a t hc
    have hfresh : (StreamValue.new.add env.unixMs requested fields).2.Topped :=
      StreamValue.topped_add_any env.unixMs requested fields StreamValue.topped_new (by
        unfold StreamValue.Unsaturated
        decide)
    cases hr : (StreamValue.new.add env.unixMs requested fields).1 with
    | error e =>
        rw [hr] at hc
        cases hc
    | ok id' =>
        rw [hr] at hc
        cases hc
        exact hfresh
  · intro st hslot htop
    exact StreamValue.topped_add_any env.unixMs requested fields htop (hseq st hslot)

/-! ## Storages -/

section Reachable

variable [KeyHash]

def CacheStorage.Sound (s : CacheStorage) : Prop := ∀ k, (s.slotAt k).Sound

/-- No stream is at the last sequence number. -/
def CacheStorage.Unsaturated (s : CacheStorage) : Prop :=
  ∀ k st, s.slotAt k = some (.stream st) → st.Unsaturated

/-- The command stores no NaN score. -/
def NoNan (c : Command) (s : CacheStorage) : Prop :=
  match c with
  | .zadd _ members => ∀ p ∈ members, p.1 ≠ .nan
  | .zincrBy key delta member => delta ≠ .nan ∧
      ∀ z, s.slotAt key = some (.sortedSet z) → ((z.getScore member).getD (.fin 0)).add delta ≠ .nan
  | _ => True

/-- The storages that commands and the expiry sweep build from the empty one. -/
inductive Reachable : CacheStorage → Prop
  | new : Reachable CacheStorage.new
  | command {s : CacheStorage} (env : Env) (c : Command) :
      Reachable s → NoNan c s → (effect env c s).Unsaturated → Reachable (effect env c s)
  | cleanup {s : CacheStorage} (now : Instant) : Reachable s → Reachable (s.cleanupExpired now)

/-- **The step lemma**: every command keeps the storage sound. -/
theorem effect_sound {c : Command} {s : CacheStorage} (env : Env) (hs : s.Sound) (hseq : s.Unsaturated)
    (hnan : NoNan c s) : (effect env c s).Sound := by
  refine effect_holds soundInvariant env hs ?_ ?_ ?_
  · rintro key members rfl
    exact Slot.sound_zadd hnan (hs key)
  · rintro key delta member rfl
    exact Slot.sound_zincrBy hnan.1 hnan.2 (hs key)
  · rintro key id fields rfl
    exact holds_xaddArm (fun requested => Slot.sound_xadd env requested fields (hseq key) (hs key)) id (hs key)

theorem unsaturated_new : (CacheStorage.new : CacheStorage).Unsaturated := by
  intro k st hst
  rw [CacheStorage.slotAt_new] at hst
  cases hst

/-- **Every reachable storage is sound.** -/
theorem Reachable.sound {s : CacheStorage} (h : Reachable s) : s.Sound ∧ s.Unsaturated := by
  induction h with
  | new => exact ⟨holds_new, unsaturated_new⟩
  | command env c _ hnan hseq ih => exact ⟨effect_sound env ih.1 ih.2 hnan, hseq⟩
  | @cleanup s now _ ih =>
      have hfrom : ∀ {k v}, (s.cleanupExpired now).slotAt k = some v → s.slotAt k = some v := by
        intro k v hv
        rw [CacheStorage.slotAt_cleanupExpired] at hv
        exact (Slot.live_eq_some.mp hv).1
      exact ⟨fun k v hv => ih.1 k v (hfrom hv), fun k st hst => ih.2 k st (hfrom hst)⟩

end Reachable

end FerricCache
