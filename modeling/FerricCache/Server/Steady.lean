import FerricCache.Server.Keys
import FerricCache.Server.WritePaths
import FerricCache.Data.Streams

/-!
# `FerricCache.Server.Steady` — writes that come out the same wherever they run

A write is carried out by the server, by replay after a restart and by every replica, each with its own
clock and its own hash-table order. On a storage that is **plain** (no deadlines, every stream's last id
the greatest of its entries) a `Steady` command leaves the same storage in every environment
(`dispatch_env`, `apply_eq_effect`) and keeps it plain (`effect_plain`).
-/

namespace FerricCache

/-! ## Plain values -/

/-- A value without a deadline, and with its last id on top if it is a stream. -/
structure CacheValue.Plain (v : CacheValue) : Prop where
  noDeadline : v.expiresAt = none
  topped : ∀ st, v = .stream st → st.Topped

/-- A slot that holds nothing, or a plain value. -/
def Slot.Plain (slot : Slot) : Prop := ∀ v, slot = some v → v.Plain

theorem CacheValue.Plain.not_expired {v : CacheValue} (h : v.Plain) (now : Instant) :
    v.isExpired now = false := by
  unfold CacheValue.isExpired
  rw [h.noDeadline]
  rfl

theorem plain_string {b : Bytes} {e : Option Instant} : (CacheValue.string b e).Plain ↔ e = none :=
  ⟨fun h => h.noDeadline, fun h => ⟨h, fun _ hs => by cases hs⟩⟩

theorem plain_hash {h : HashValue} : (CacheValue.hash h).Plain ↔ h.expiresAt = none :=
  ⟨fun hp => hp.noDeadline, fun hp => ⟨hp, fun _ hs => by cases hs⟩⟩

theorem plain_list {l : ListValue} : (CacheValue.list l).Plain ↔ l.expiresAt = none :=
  ⟨fun h => h.noDeadline, fun h => ⟨h, fun _ hs => by cases hs⟩⟩

theorem plain_set {s : SetValue} : (CacheValue.set s).Plain ↔ s.expiresAt = none :=
  ⟨fun h => h.noDeadline, fun h => ⟨h, fun _ hs => by cases hs⟩⟩

theorem plain_sortedSet {z : SortedSetValue} : (CacheValue.sortedSet z).Plain ↔ z.expiresAt = none :=
  ⟨fun h => h.noDeadline, fun h => ⟨h, fun _ hs => by cases hs⟩⟩

theorem plain_stream {s : StreamValue} :
    (CacheValue.stream s).Plain ↔ s.expiresAt = none ∧ s.Topped :=
  ⟨fun h => ⟨h.noDeadline, h.topped s rfl⟩, fun h => ⟨h.1, fun _ hs => by cases hs; exact h.2⟩⟩

theorem Slot.plain_none : Slot.Plain none := fun _ h => by cases h

theorem Slot.plain_some {v : CacheValue} : Slot.Plain (some v) ↔ v.Plain :=
  ⟨fun h => h v rfl, fun h w hw => by cases hw; exact h⟩

theorem Slot.Plain.live {slot : Slot} (h : slot.Plain) (now : Instant) : Slot.live now slot = slot := by
  cases slot with
  | none => rfl
  | some v => exact Slot.live_fresh ((h v rfl).not_expired now)

namespace StreamValue

theorem expiresAt_add (s : StreamValue) (nowMs : UInt64) (id : StreamId)
    (fields : List (Bytes × Bytes)) : (s.add nowMs (some id) fields).2.expiresAt = s.expiresAt := by
  unfold add
  by_cases hle : (compare id s.lastId).isLE = true
  · simp only [if_pos hle]
  · simp only [if_neg hle]
    rfl

end StreamValue

/-! ## Loops that leave the deadline alone -/

theorem countLoop_invariant {τ : Type} {P : τ → Prop} {step : τ → Bytes → Bool × τ}
    (hstep : ∀ t m, P t → P (step t m).2) (ms : List Bytes) {t : τ} (ht : P t) :
    P (Slot.countLoop step t ms).2 := by
  induction ms generalizing t with
  | nil => exact ht
  | cons m ms ih => exact ih (hstep t m ht)

theorem foldl_invariant {τ β : Type} {P : τ → Prop} {f : τ → β → τ} (hf : ∀ t b, P t → P (f t b))
    (l : List β) {t : τ} (ht : P t) : P (l.foldl f t) := by
  induction l generalizing t with
  | nil => exact ht
  | cons b l ih => exact ih (hf t b ht)

namespace SortedSetValue

theorem expiresAt_remove (z : SortedSetValue) (m : Bytes) : (z.remove m).expiresAt = z.expiresAt := by
  unfold remove
  cases z.memberScores[m]? <;> rfl

theorem expiresAt_popLoop (pos : Bytes → Nat)
    (pick : List (F64 × Std.ExtTreeSet Bytes) → Option (F64 × Std.ExtTreeSet Bytes)) (n : Nat)
    (z : SortedSetValue) : (popLoop pos pick n z).2.expiresAt = z.expiresAt := by
  induction n generalizing z with
  | zero => rfl
  | succ n ih =>
      rw [popLoop]
      split
      · split
        · rw [ih, expiresAt_remove]
        · rfl
      · rfl

end SortedSetValue

/-! ## The write shapes on plain slots -/

namespace Slot

variable {τ α : Type} (K : Kind τ)

theorem plain_writeAny {missing : α × Slot} {f : τ → Res α × τ} (hm : Slot.Plain missing.2)
    (hf : ∀ t, (K.of t).Plain → (K.of (f t).2).Plain) {slot : Slot} (hs : slot.Plain) :
    Slot.Plain (writeAny K missing f slot).2 := by
  cases slot with
  | none => exact hm
  | some v =>
      simp only [writeAny]
      cases hv : K.as v with
      | none => exact hs
      | some t =>
          rw [Slot.plain_some] at hs ⊢
          exact hf t (K.of_as hv ▸ hs)

/-- On a plain slot `writeLive` never sees a passed deadline. -/
theorem writeLive_plain (now : Instant) (missing : α) (f : τ → Res α × τ) {slot : Slot}
    (hs : slot.Plain) : writeLive K now missing f slot = writeAny K (missing, none) f slot := by
  cases slot with
  | none => rfl
  | some v =>
      simp only [writeLive, writeAny, (hs v rfl).not_expired now, Bool.false_eq_true, if_false]

theorem plain_writeLive (now : Instant) {missing : α} {f : τ → Res α × τ}
    (hf : ∀ t, (K.of t).Plain → (K.of (f t).2).Plain) {slot : Slot} (hs : slot.Plain) :
    Slot.Plain (writeLive K now missing f slot).2 := by
  rw [writeLive_plain K now missing f hs]
  exact plain_writeAny K plain_none hf hs

/-- On a plain slot `writeOrCreate` does not look at the clock. -/
theorem writeOrCreate_now (now now' : Instant) (create : Res (α × τ)) (f : τ → Res α × τ) {slot : Slot}
    (hs : slot.Plain) : writeOrCreate K now create f slot = writeOrCreate K now' create f slot := by
  cases slot with
  | none => rfl
  | some v =>
      simp only [writeOrCreate, (hs v rfl).not_expired now, (hs v rfl).not_expired now']

theorem plain_writeOrCreate (now : Instant) {create : Res (α × τ)} {f : τ → Res α × τ}
    (hc : ∀ a t, create = .ok (a, t) → (K.of t).Plain)
    (hf : ∀ t, (K.of t).Plain → (K.of (f t).2).Plain) {slot : Slot} (hs : slot.Plain) :
    Slot.Plain (writeOrCreate K now create f slot).2 := by
  have hnew : ∀ slot : Slot, slot.Plain → Slot.Plain (insertNew K create slot).2 := by
    intro slot hslot
    cases hcr : create with
    | error e => exact hslot
    | ok p =>
        obtain ⟨a, t⟩ := p
        exact Slot.plain_some.mpr (hc a t hcr)
  cases slot with
  | none => exact hnew none plain_none
  | some v =>
      simp only [writeOrCreate, (hs v rfl).not_expired now, Bool.false_eq_true, if_false]
      cases hv : K.as v with
      | none => exact hs
      | some t =>
          rw [Slot.plain_some] at hs ⊢
          exact hf t (K.of_as hv ▸ hs)

/-! ## The single-key writes keep a slot plain -/

variable {slot : Slot}

theorem plain_bump (delta : Int) (hs : slot.Plain) : Slot.Plain (bump delta slot).2 := by
  refine plain_writeAny Kind.string (plain_some.mpr (plain_string.mpr rfl)) ?_ hs
  rintro ⟨b, e⟩ ht
  cases parseI64 b <;> exact plain_string.mpr (plain_string.mp ht)

theorem plain_append (value : Bytes) (hs : slot.Plain) : Slot.Plain (append value slot).2 := by
  refine plain_writeAny Kind.string (plain_some.mpr (plain_string.mpr rfl)) ?_ hs
  rintro ⟨b, e⟩ ht
  exact plain_string.mpr (plain_string.mp ht)

theorem plain_incrBy (delta : Int) (hs : slot.Plain) : Slot.Plain (incrBy delta slot).2 := by
  refine plain_writeAny Kind.string (plain_some.mpr (plain_string.mpr rfl)) ?_ hs
  rintro ⟨b, e⟩ ht
  have he : e = none := plain_string.mp ht
  show (Kind.string.of _).Plain
  split
  · split
    · exact plain_string.mpr he
    · exact ht
  · exact ht

theorem plain_incrByFloat (delta : F64) (hs : slot.Plain) :
    Slot.Plain (incrByFloat delta slot).2 := by
  refine plain_writeAny Kind.string (plain_some.mpr (plain_string.mpr rfl)) ?_ hs
  rintro ⟨b, e⟩ ht
  have he : e = none := plain_string.mp ht
  show (Kind.string.of _).Plain
  split
  · split
    · exact plain_string.mpr he
    · exact ht
  · exact ht

theorem plain_hset (field value : Bytes) (hs : slot.Plain) : Slot.Plain (hset field value slot).2 := by
  refine plain_writeAny Kind.hash (plain_some.mpr (plain_hash.mpr rfl)) ?_ hs
  intro h ht
  have he : h.expiresAt = none := plain_hash.mp ht
  exact plain_hash.mpr he

theorem plain_hdel (fields : List Bytes) (hs : slot.Plain) : Slot.Plain (hdel fields slot).2 := by
  refine plain_writeAny Kind.hash plain_none ?_ hs
  intro h ht
  refine plain_hash.mpr (countLoop_invariant (P := fun h : HashValue => h.expiresAt = none) ?_ fields
    (plain_hash.mp ht))
  exact fun _ _ h => h

theorem plain_hsetNx (now : Instant) (field value : Bytes) (hs : slot.Plain) :
    Slot.Plain (hsetNx now field value slot).2 := by
  refine plain_writeOrCreate Kind.hash now ?_ ?_ hs
  · rintro a t ⟨⟩
    exact plain_hash.mpr rfl
  · intro h ht
    have he : h.expiresAt = none := plain_hash.mp ht
    split
    · exact ht
    · exact plain_hash.mpr he

theorem plain_hincrBy (now : Instant) (field : Bytes) (delta : Int) (hs : slot.Plain) :
    Slot.Plain (hincrBy now field delta slot).2 := by
  refine plain_writeOrCreate Kind.hash now ?_ ?_ hs
  · rintro a t ⟨⟩
    exact plain_hash.mpr rfl
  · intro h ht
    have he : h.expiresAt = none := plain_hash.mp ht
    dsimp only
    split
    · split
      · exact plain_hash.mpr he
      · exact ht
    · exact ht

theorem plain_lpush (values : List Bytes) (hs : slot.Plain) : Slot.Plain (lpush values slot).2 := by
  have hfold : ∀ l : ListValue, l.expiresAt = none →
      (values.foldl ListValue.pushLeft l).expiresAt = none := fun l hl =>
    foldl_invariant (P := fun l : ListValue => l.expiresAt = none) (f := ListValue.pushLeft)
      (fun _ _ h => h) values hl
  refine plain_writeAny Kind.list (plain_some.mpr (plain_list.mpr (hfold _ rfl))) ?_ hs
  intro l ht
  exact plain_list.mpr (hfold l (plain_list.mp ht))

theorem plain_rpush (values : List Bytes) (hs : slot.Plain) : Slot.Plain (rpush values slot).2 := by
  have hfold : ∀ l : ListValue, l.expiresAt = none →
      (values.foldl ListValue.pushRight l).expiresAt = none := fun l hl =>
    foldl_invariant (P := fun l : ListValue => l.expiresAt = none) (f := ListValue.pushRight)
      (fun _ _ h => h) values hl
  refine plain_writeAny Kind.list (plain_some.mpr (plain_list.mpr (hfold _ rfl))) ?_ hs
  intro l ht
  exact plain_list.mpr (hfold l (plain_list.mp ht))

theorem plain_lpop (hs : slot.Plain) : Slot.Plain (lpop slot).2 := by
  refine plain_writeAny Kind.list plain_none ?_ hs
  intro l ht
  have hl : l.expiresAt = none := plain_list.mp ht
  exact plain_list.mpr hl

theorem plain_rpop (hs : slot.Plain) : Slot.Plain (rpop slot).2 := by
  refine plain_writeAny Kind.list plain_none ?_ hs
  intro l ht
  have hl : l.expiresAt = none := plain_list.mp ht
  exact plain_list.mpr hl

theorem plain_lset (now : Instant) (index : Int64) (value : Bytes) (hs : slot.Plain) :
    Slot.Plain (lset now index value slot).2 := by
  cases slot with
  | none => exact plain_none
  | some v =>
      cases v with
      | list l =>
          have hl : l.expiresAt = none := plain_list.mp (plain_some.mp hs)
          simp only [lset]
          split_ifs <;> first | exact hs | exact plain_some.mpr (plain_list.mpr hl)
      | _ => exact hs

theorem plain_lrem (now : Instant) (n : Int64) (value : Bytes) (hs : slot.Plain) :
    Slot.Plain (lrem now n value slot).2 := by
  cases slot with
  | none => exact plain_none
  | some v =>
      cases v with
      | list l =>
          have hl : l.expiresAt = none := plain_list.mp (plain_some.mp hs)
          simp only [lrem]
          split_ifs <;> first | exact hs | exact plain_some.mpr (plain_list.mpr hl)
      | _ => exact hs

theorem plain_ltrim (now : Instant) (start stop : Int64) (hs : slot.Plain) :
    Slot.Plain (ltrim now start stop slot).2 := by
  refine plain_writeLive Kind.list now ?_ hs
  intro l ht
  have hl : l.expiresAt = none := plain_list.mp ht
  dsimp only
  split_ifs <;> exact plain_list.mpr hl

theorem plain_sadd (members : List Bytes) (hs : slot.Plain) : Slot.Plain (sadd members slot).2 := by
  have hloop : ∀ s : SetValue, s.expiresAt = none →
      (countLoop (fun (s : SetValue) m => (!s.contains m, s.add m)) s members).2.expiresAt = none :=
    fun s h => countLoop_invariant (P := fun s : SetValue => s.expiresAt = none) (fun _ _ h => h) members h
  refine plain_writeAny Kind.set (plain_some.mpr (plain_set.mpr (hloop _ rfl))) ?_ hs
  intro s ht
  exact plain_set.mpr (hloop s (plain_set.mp ht))

theorem plain_srem (members : List Bytes) (hs : slot.Plain) : Slot.Plain (srem members slot).2 := by
  refine plain_writeAny Kind.set plain_none ?_ hs
  intro s ht
  refine plain_set.mpr (countLoop_invariant (P := fun s : SetValue => s.expiresAt = none) ?_ members
    (plain_set.mp ht))
  exact fun _ _ h => h

theorem plain_zadd (members : List (F64 × Bytes)) (hs : slot.Plain) :
    Slot.Plain (zadd members slot).2 := by
  have hfold : ∀ z : SortedSetValue, z.expiresAt = none →
      (members.foldl (fun z p => z.add p.1 p.2) z).expiresAt = none := fun z hz =>
    foldl_invariant (P := fun z : SortedSetValue => z.expiresAt = none) (f := fun z p => z.add p.1 p.2)
      (fun _ _ h => h) members hz
  refine plain_writeAny Kind.sortedSet (plain_some.mpr (plain_sortedSet.mpr (hfold _ rfl))) ?_ hs
  intro z ht
  exact plain_sortedSet.mpr (hfold z (plain_sortedSet.mp ht))

theorem plain_zrem (members : List Bytes) (hs : slot.Plain) : Slot.Plain (zrem members slot).2 := by
  refine plain_writeAny Kind.sortedSet plain_none ?_ hs
  intro z ht
  refine plain_sortedSet.mpr (countLoop_invariant (P := fun z : SortedSetValue => z.expiresAt = none) ?_
    members (plain_sortedSet.mp ht))
  intro z m hz
  exact (z.expiresAt_remove m).trans hz

theorem plain_zincrBy (now : Instant) (delta : F64) (member : Bytes) (hs : slot.Plain) :
    Slot.Plain (zincrBy now delta member slot).2 := by
  refine plain_writeOrCreate Kind.sortedSet now ?_ ?_ hs
  · rintro a t ⟨⟩
    exact plain_sortedSet.mpr rfl
  · intro z ht
    have hz : z.expiresAt = none := plain_sortedSet.mp ht
    exact plain_sortedSet.mpr hz

theorem plain_zpop (now : Instant) (pos : Bytes → Nat)
    (pick : List (F64 × Std.ExtTreeSet Bytes) → Option (F64 × Std.ExtTreeSet Bytes)) (n : Nat)
    (hs : slot.Plain) :
    Slot.Plain (zpop now (fun z => if isizeMax < n * 40 then none
      else some (SortedSetValue.popLoop pos pick n z)) slot).2 := by
  refine plain_writeLive Kind.sortedSet now ?_ hs
  intro z ht
  by_cases hcap : isizeMax < n * 40
  · simp only [if_pos hcap]
    exact ht
  · simp only [if_neg hcap]
    exact plain_sortedSet.mpr ((z.expiresAt_popLoop pos pick n).trans (plain_sortedSet.mp ht))

theorem plain_xadd (env : Env) (id : StreamId) (fields : List (Bytes × Bytes)) (hs : slot.Plain) :
    Slot.Plain (xadd env (some id) fields slot).2 := by
  have hadd : ∀ st : StreamValue, (CacheValue.stream st).Plain →
      (CacheValue.stream (st.add env.unixMs (some id) fields).2).Plain := by
    intro st ht
    obtain ⟨he, htop⟩ := plain_stream.mp ht
    exact plain_stream.mpr ⟨(st.expiresAt_add env.unixMs id fields).trans he,
      st.topped_add env.unixMs id fields htop⟩
  refine plain_writeOrCreate Kind.stream env.now ?_ hadd hs
  intro a t hc
  have hfresh := hadd StreamValue.new (plain_stream.mpr ⟨rfl, StreamValue.topped_new⟩)
  cases hr : (StreamValue.new.add env.unixMs (some id) fields).1 with
  | error e =>
      rw [hr] at hc
      cases hc
  | ok id' =>
      rw [hr] at hc
      cases hc
      exact hfresh

theorem plain_persist (now : Instant) (hs : slot.Plain) : persist now slot = (false, slot) := by
  cases slot with
  | none => rfl
  | some v =>
      simp only [persist, (hs v rfl).not_expired now, (hs v rfl).noDeadline, Option.isSome_none,
        Bool.false_eq_true, if_false]

theorem plain_setNx (now : Instant) (value : Bytes) (hs : slot.Plain) :
    Slot.Plain (setNx now value slot).2 := by
  cases slot with
  | none => exact plain_some.mpr (plain_string.mpr rfl)
  | some v =>
      simp only [setNx, (hs v rfl).not_expired now, Bool.false_eq_true, if_false]
      exact hs

theorem plain_getSet (now : Instant) (value : Bytes) (hs : slot.Plain) :
    Slot.Plain (getSet now value slot).2 := by
  have hnew : Slot.Plain (some (.string value none)) := plain_some.mpr (plain_string.mpr rfl)
  cases slot with
  | none => exact hnew
  | some v =>
      cases v with
      | string b e => exact hnew
      | _ =>
          unfold getSet
          dsimp only
          split
          · exact hnew
          · exact hs

end Slot

/-! ## Steady commands -/

/-- The commands that ask for a deadline. -/
def setsTtl : Command → Bool
  | .set _ _ (some _) | .setEx _ _ _ | .expire _ _ | .pexpire _ _ | .expireAt _ _ => true
  | _ => false

/-- The commands that draw: random members, or an id from the clock. -/
def draws : Command → Bool
  | .spop _ _ | .xadd _ none _ => true
  | _ => false

/-- Popping leaves the same sorted set in whatever order the members of one score are listed. -/
def OrderFree (pick : List (F64 × Std.ExtTreeSet Bytes) → Option (F64 × Std.ExtTreeSet Bytes)) (n : Nat)
    (z : SortedSetValue) : Prop :=
  ∀ pos pos', (SortedSetValue.popLoop pos pick n z).2 = (SortedSetValue.popLoop pos' pick n z).2

section Steady

variable [KeyHash]

/-- A storage of plain values. -/
def CacheStorage.Plain (s : CacheStorage) : Prop := ∀ k, (s.slotAt k).Plain

/-- `ZPOPMIN` and `ZPOPMAX` do not stop inside a group of members with one score. -/
def TiesUnsplit (c : Command) (s : CacheStorage) : Prop :=
  match c with
  | .zpopMin key n => ∀ z, s.slotAt key = some (.sortedSet z) → OrderFree List.head? n.toNat z
  | .zpopMax key n => ∀ z, s.slotAt key = some (.sortedSet z) → OrderFree List.getLast? n.toNat z
  | _ => True

/-- A write whose effect on `s` depends on neither clock, table order nor random draws, and which
    dispatch and replay carry out alike. -/
structure Steady (c : Command) (s : CacheStorage) : Prop where
  write : isWriteCommand c = true
  noTtl : setsTtl c = false
  noDraw : draws c = false
  replayExact : ReplayExact c s
  tiesUnsplit : TiesUnsplit c s

theorem plain_new : (CacheStorage.new : CacheStorage).Plain := by
  intro k
  rw [CacheStorage.slotAt_new]
  exact Slot.plain_none

theorem plain_setEntry {s : CacheStorage} {key : Bytes} {slot : Slot} (hs : s.Plain)
    (hslot : slot.Plain) : (s.setEntry key slot).Plain := by
  intro k
  rw [CacheStorage.slotAt_setEntry]
  split
  · exact hslot
  · exact hs k

theorem plain_onKey {α : Type} {s : CacheStorage} {key : Bytes} {f : Slot → α × Slot} (hs : s.Plain)
    (hf : ∀ slot : Slot, slot.Plain → Slot.Plain (f slot).2) : (s.onKey key f).2.Plain :=
  plain_setEntry hs (hf _ (hs key))

/-! ## The operations on several keys -/

section Move

variable {τ α β : Type} (K : Kind τ) (now now' : Instant) {missing : α} {take : τ → α × τ}
  {moved : α → Option β} {fresh : τ} {put : β → τ → τ} {source destination : Bytes}
  {s : CacheStorage}

theorem plain_move (hs : s.Plain) (htake : ∀ t, (K.of t).Plain → (K.of (take t).2).Plain)
    (hfresh : (K.of fresh).Plain) (hput : ∀ b t, (K.of t).Plain → (K.of (put b t)).Plain) :
    (s.move K now missing take moved fresh put source destination).2.Plain := by
  have hfst : (s.onKey source (CacheStorage.takeFrom K now missing take)).2.Plain :=
    plain_onKey hs fun slot hslot => Slot.plain_writeLive K now htake hslot
  have hsnd : ∀ b (t : CacheStorage), t.Plain →
      (t.onKey destination (CacheStorage.putInto K now fresh (put b))).2.Plain := by
    intro b t ht
    refine plain_onKey ht fun slot hslot => Slot.plain_writeOrCreate K now ?_ (hput b) hslot
    rintro a u ⟨⟩
    exact hput b fresh hfresh
  unfold CacheStorage.move
  generalize s.onKey source (CacheStorage.takeFrom K now missing take) = r at hfst
  obtain ⟨r, s'⟩ := r
  cases r with
  | error e => exact hfst
  | ok a =>
      dsimp only
      cases moved a with
      | none => exact hfst
      | some b =>
          have hplain := hsnd b s' hfst
          dsimp only
          generalize s'.onKey destination (CacheStorage.putInto K now fresh (put b)) = r' at hplain
          obtain ⟨r', s''⟩ := r'
          cases r' <;> exact hplain

/-- On a plain storage a move does not look at the clock. -/
theorem move_now (hs : s.Plain) (htake : ∀ t, (K.of t).Plain → (K.of (take t).2).Plain) :
    s.move K now missing take moved fresh put source destination
      = s.move K now' missing take moved fresh put source destination := by
  have htake_eq : s.onKey source (CacheStorage.takeFrom K now missing take)
      = s.onKey source (CacheStorage.takeFrom K now' missing take) := by
    unfold CacheStorage.onKey CacheStorage.takeFrom
    rw [Slot.writeLive_plain K now _ _ (hs source), Slot.writeLive_plain K now' _ _ (hs source)]
  have hfst : (s.onKey source (CacheStorage.takeFrom K now' missing take)).2.Plain :=
    plain_onKey hs fun slot hslot => Slot.plain_writeLive K now' htake hslot
  have hput_eq : ∀ b (t : CacheStorage), t.Plain →
      t.onKey destination (CacheStorage.putInto K now fresh (put b))
        = t.onKey destination (CacheStorage.putInto K now' fresh (put b)) := by
    intro b t ht
    unfold CacheStorage.onKey CacheStorage.putInto
    rw [Slot.writeOrCreate_now K now now' _ _ (ht destination)]
  unfold CacheStorage.move
  rw [htake_eq]
  generalize s.onKey source (CacheStorage.takeFrom K now' missing take) = r at hfst
  obtain ⟨r, s'⟩ := r
  cases r with
  | error e => rfl
  | ok a =>
      dsimp only
      cases moved a with
      | none => rfl
      | some b =>
          dsimp only
          rw [hput_eq b s' hfst]

end Move

theorem plain_rename {s : CacheStorage} (now : Instant) (key newKey : Bytes) (hs : s.Plain) :
    (s.rename now key newKey).2.Plain := by
  have hgone : (s.setEntry key none).Plain := plain_setEntry hs Slot.plain_none
  unfold CacheStorage.rename
  cases hv : s.live now key with
  | none => exact hgone
  | some v => exact plain_setEntry hgone (Slot.plain_some.mpr (hs key v (Slot.live_eq_some.mp hv).1))

theorem rename_now {s : CacheStorage} (now now' : Instant) (key newKey : Bytes) (hs : s.Plain) :
    s.rename now key newKey = s.rename now' key newKey := by
  unfold CacheStorage.rename CacheStorage.live
  rw [(hs key).live now, (hs key).live now']

theorem plain_mset {s : CacheStorage} (pairs : List (Bytes × Bytes)) (hs : s.Plain) :
    (s.mset pairs).Plain :=
  foldl_invariant (P := CacheStorage.Plain)
    (fun _ _ ht => plain_setEntry ht (Slot.plain_some.mpr (plain_string.mpr rfl))) pairs hs

/-! ## Every steady command -/

/-- The storage the dispatch of a command leaves. -/
def effect (env : Env) (c : Command) (s : CacheStorage) : CacheStorage :=
  ((dispatch env c s).map Prod.snd).getD s

/-- The dispatch of a command ends without a panic. -/
def Returns (env : Env) (c : Command) (s : CacheStorage) : Prop :=
  (dispatch env c s).map Prod.fst ≠ some none

omit [KeyHash] in
theorem plain_hmset (pairs : List (Bytes × Bytes)) {slot : Slot} (hs : slot.Plain) :
    Slot.Plain (hmsetLoop pairs slot).2 := by
  rw [hmsetLoop_slot]
  exact foldl_invariant (P := Slot.Plain) (fun _ p ht => Slot.plain_hset p.1 p.2 ht) pairs hs

omit [KeyHash] in
theorem plain_xaddArm (env : Env) (text : Bytes) (fields : List (Bytes × Bytes)) {slot : Slot}
    (hs : slot.Plain) : Slot.Plain (xaddArm env (some text) fields slot).2 := by
  cases hp : StreamId.parse text false with
  | ok id =>
      rw [xaddArm_parsed fields hp]
      exact Slot.plain_xadd env id fields hs
  | error e =>
      rw [xaddArm_unparsed fields hp]
      exact hs

/-- **A steady command keeps the storage plain.** -/
theorem effect_plain {c : Command} {s : CacheStorage} (env : Env) (hs : s.Plain) (h : Steady c s) :
    (effect env c s).Plain := by
  have hw := h.write
  have ht := h.noTtl
  have hd := h.noDraw
  cases c with
  | set key value ttl =>
      cases ttl with
      | some n => cases ht
      | none => exact plain_setEntry hs (Slot.plain_some.mpr (plain_string.mpr rfl))
  | delete key => exact plain_setEntry hs Slot.plain_none
  | incr key => exact plain_onKey hs fun _ => Slot.plain_bump 1
  | decr key => exact plain_onKey hs fun _ => Slot.plain_bump (-1)
  | append key value => exact plain_onKey hs fun _ => Slot.plain_append value
  | hset key field value => exact plain_onKey hs fun _ => Slot.plain_hset field value
  | hdel key fields => exact plain_onKey hs fun _ => Slot.plain_hdel fields
  | lpush key values => exact plain_onKey hs fun _ => Slot.plain_lpush values
  | rpush key values => exact plain_onKey hs fun _ => Slot.plain_rpush values
  | lpop key => exact plain_onKey hs fun _ => Slot.plain_lpop
  | rpop key => exact plain_onKey hs fun _ => Slot.plain_rpop
  | sadd key members => exact plain_onKey hs fun _ => Slot.plain_sadd members
  | srem key members => exact plain_onKey hs fun _ => Slot.plain_srem members
  | zadd key members => exact plain_onKey hs fun _ => Slot.plain_zadd members
  | zrem key members => exact plain_onKey hs fun _ => Slot.plain_zrem members
  | flushAll => exact plain_new
  | persist key =>
      show (s.setEntry key (Slot.persist env.now (s.slotAt key)).2).Plain
      refine plain_setEntry hs ?_
      rw [Slot.plain_persist env.now (hs key)]
      exact hs key
  | setNx key value => exact plain_onKey hs fun _ => Slot.plain_setNx env.now value
  | getSet key value => exact plain_onKey hs fun _ => Slot.plain_getSet env.now value
  | mset pairs => exact plain_mset pairs hs
  | incrBy key delta => exact plain_onKey hs fun _ => Slot.plain_incrBy _
  | decrBy key delta => exact plain_onKey hs fun _ => Slot.plain_incrBy _
  | incrByFloat key delta => exact plain_onKey hs fun _ => Slot.plain_incrByFloat delta
  | hmset key pairs => exact plain_onKey hs fun _ => plain_hmset pairs
  | hsetNx key field value => exact plain_onKey hs fun _ => Slot.plain_hsetNx env.now field value
  | hincrBy key field delta => exact plain_onKey hs fun _ => Slot.plain_hincrBy env.now field _
  | lset key index value => exact plain_onKey hs fun _ => Slot.plain_lset env.now index value
  | lrem key n value => exact plain_onKey hs fun _ => Slot.plain_lrem env.now n value
  | ltrim key start stop => exact plain_onKey hs fun _ => Slot.plain_ltrim env.now start stop
  | rpoplpush source destination =>
      exact plain_move Kind.list env.now hs (fun _ hl => plain_list.mpr hl.noDeadline)
        (plain_list.mpr rfl) fun _ _ hl => plain_list.mpr hl.noDeadline
  | smove source destination member =>
      exact plain_move Kind.set env.now hs (fun _ ht => plain_set.mpr ht.noDeadline)
        (plain_set.mpr rfl) fun _ _ ht => plain_set.mpr ht.noDeadline
  | zincrBy key delta member => exact plain_onKey hs fun _ => Slot.plain_zincrBy env.now delta member
  | zpopMin key n =>
      exact plain_onKey hs fun _ => Slot.plain_zpop env.now _ List.head? n.toNat
  | zpopMax key n =>
      exact plain_onKey hs fun _ => Slot.plain_zpop env.now _ List.getLast? n.toNat
  | rename key newKey => exact plain_rename env.now key newKey hs
  | xadd key id fields =>
      cases id with
      | none => cases hd
      | some text => exact plain_onKey hs fun _ => plain_xaddArm env text fields
  | spop key n => cases hd
  | setEx key seconds value => cases ht
  | expire key n => cases ht
  | pexpire key n => cases ht
  | expireAt key n => cases ht
  | _ => cases hw

theorem setEntry_congr {s : CacheStorage} {key : Bytes} {a b : Slot} (h : a = b) :
    s.setEntry key a = s.setEntry key b := by rw [h]

omit [KeyHash] in
/-- On a plain slot an order-free pop leaves the same in every environment. -/
theorem zpop_env {pick : List (F64 × Std.ExtTreeSet Bytes) → Option (F64 × Std.ExtTreeSet Bytes)}
    {n : Nat} (now now' : Instant) (pos pos' : Bytes → Nat) {slot : Slot} (hs : slot.Plain)
    (hfree : ∀ z, slot = some (.sortedSet z) → OrderFree pick n z) :
    (Slot.zpop now (fun z => if isizeMax < n * 40 then none
      else some (SortedSetValue.popLoop pos pick n z)) slot).2
    = (Slot.zpop now' (fun z => if isizeMax < n * 40 then none
      else some (SortedSetValue.popLoop pos' pick n z)) slot).2 := by
  unfold Slot.zpop
  rw [Slot.writeLive_plain Kind.sortedSet now _ _ hs, Slot.writeLive_plain Kind.sortedSet now' _ _ hs]
  cases slot with
  | none => rfl
  | some v =>
      cases v with
      | sortedSet z =>
          simp only [Slot.writeAny, Kind.sortedSet]
          by_cases hcap : isizeMax < n * 40
          · simp only [if_pos hcap]
          · simp only [if_neg hcap, hfree z rfl pos pos']
      | _ => rfl

/-- **A steady command leaves the same storage in every environment.** -/
theorem effect_env {c : Command} {s : CacheStorage} (env env' : Env) (hs : s.Plain) (h : Steady c s) :
    effect env c s = effect env' c s := by
  have hw := h.write
  have ht := h.noTtl
  have hd := h.noDraw
  have htie := h.tiesUnsplit
  -- an arm reads the clock to expire a value or to set a deadline: a plain value has none, a steady command sets none
  cases c with
  | set key value ttl =>
      cases ttl with
      | some n => cases ht
      | none => rfl
  | persist key =>
      apply setEntry_congr
      show (Slot.persist env.now (s.slotAt key)).2 = (Slot.persist env'.now (s.slotAt key)).2
      rw [Slot.plain_persist env.now (hs key), Slot.plain_persist env'.now (hs key)]
  | setNx key value =>
      apply setEntry_congr
      show (Slot.setNx env.now value (s.slotAt key)).2 = (Slot.setNx env'.now value (s.slotAt key)).2
      cases hv : s.slotAt key with
      | none => rfl
      | some v =>
          have hplain := hs key v hv
          simp only [Slot.setNx, hplain.not_expired]
  | getSet key value =>
      apply setEntry_congr
      show (Slot.getSet env.now value (s.slotAt key)).2 = (Slot.getSet env'.now value (s.slotAt key)).2
      cases hv : s.slotAt key with
      | none => rfl
      | some v =>
          have hplain := hs key v hv
          cases v <;> simp only [Slot.getSet, hplain.not_expired]
  | hsetNx key field value =>
      have heq : Slot.hsetNx env.now field value (s.slotAt key) = Slot.hsetNx env'.now field value (s.slotAt key) :=
        Slot.writeOrCreate_now Kind.hash env.now env'.now _ _ (hs key)
      exact setEntry_congr (congrArg (fun r : Res _ × Slot => r.2) heq)
  | hincrBy key field delta =>
      have heq : Slot.hincrBy env.now field delta.toInt (s.slotAt key)
          = Slot.hincrBy env'.now field delta.toInt (s.slotAt key) :=
        Slot.writeOrCreate_now Kind.hash env.now env'.now _ _ (hs key)
      exact setEntry_congr (congrArg (fun r : Res _ × Slot => r.2) heq)
  | lset key index value =>
      apply setEntry_congr
      show (Slot.lset env.now index value (s.slotAt key)).2
        = (Slot.lset env'.now index value (s.slotAt key)).2
      cases hv : s.slotAt key with
      | none => rfl
      | some v =>
          have hplain := hs key v hv
          cases v with
          | list l =>
              have hl : l.expiresAt = none := plain_list.mp hplain
              simp only [Slot.lset, hl, expiredAt]
          | _ => rfl
  | lrem key n value =>
      apply setEntry_congr
      show (Slot.lrem env.now n value (s.slotAt key)).2 = (Slot.lrem env'.now n value (s.slotAt key)).2
      cases hv : s.slotAt key with
      | none => rfl
      | some v =>
          have hplain := hs key v hv
          cases v with
          | list l =>
              have hl : l.expiresAt = none := plain_list.mp hplain
              simp only [Slot.lrem, hl, expiredAt]
          | _ => rfl
  | ltrim key start stop =>
      apply setEntry_congr
      show (Slot.ltrim env.now start stop (s.slotAt key)).2
        = (Slot.ltrim env'.now start stop (s.slotAt key)).2
      unfold Slot.ltrim
      rw [Slot.writeLive_plain Kind.list env.now _ _ (hs key),
        Slot.writeLive_plain Kind.list env'.now _ _ (hs key)]
  | rpoplpush source destination =>
      have heq : s.rpoplpush env.now source destination = s.rpoplpush env'.now source destination :=
        move_now Kind.list env.now env'.now hs fun _ hl =>
          plain_list.mpr (show _ = none from hl.noDeadline)
      exact congrArg (fun r : Res (Option Bytes) × CacheStorage => r.2) heq
  | smove source destination member =>
      have heq : s.smove env.now source destination member
          = s.smove env'.now source destination member :=
        move_now Kind.set env.now env'.now hs fun _ ht =>
          plain_set.mpr (show _ = none from ht.noDeadline)
      exact congrArg (fun r : Res Bool × CacheStorage => r.2) heq
  | zincrBy key delta member =>
      have heq : Slot.zincrBy env.now delta member (s.slotAt key)
          = Slot.zincrBy env'.now delta member (s.slotAt key) :=
        Slot.writeOrCreate_now Kind.sortedSet env.now env'.now _ _ (hs key)
      exact setEntry_congr (congrArg (fun r : Res _ × Slot => r.2) heq)
  | zpopMin key n => exact setEntry_congr (zpop_env env.now env'.now _ _ (hs key) htie)
  | zpopMax key n => exact setEntry_congr (zpop_env env.now env'.now _ _ (hs key) htie)
  | rename key newKey =>
      exact congrArg (fun r : Res Unit × CacheStorage => r.2)
        (rename_now env.now env'.now key newKey hs)
  | xadd key id fields =>
      cases id with
      | none => cases hd
      | some text =>
          apply setEntry_congr
          show (xaddArm env (some text) fields (s.slotAt key)).2
            = (xaddArm env' (some text) fields (s.slotAt key)).2
          cases hp : StreamId.parse text false with
          | ok id =>
              rw [xaddArm_parsed fields hp, xaddArm_parsed fields hp]
              exact congrArg Prod.snd
                (Slot.writeOrCreate_now Kind.stream env.now env'.now _ _ (hs key))
          | error e => rw [xaddArm_unparsed fields hp, xaddArm_unparsed fields hp]
  | spop key n => cases hd
  | setEx key seconds value => cases ht
  | expire key n => cases ht
  | pexpire key n => cases ht
  | expireAt key n => cases ht
  | _ => first | (cases hw; done) | rfl

/-- **Replay does what the server did**, whatever the two environments. -/
theorem apply_eq_effect {c : Command} {s : CacheStorage} (env env' : Env) (hs : s.Plain)
    (h : Steady c s) : (applyWriteCommand env' c s).2 = effect env c s := by
  rw [effect_env env env' hs h]
  have hw := h.write
  have ht := h.noTtl
  have hd := h.noDraw
  have hx := h.replayExact
  have hagree : WritePathsAgree env' c s := by
    cases c with
    | xadd key id fields =>
        cases id with
        | none => cases hd
        | some text => exact (xadd_agree_iff env' key text fields s).mpr hx
    | hmset key pairs => exact hmset_agree env' key pairs s
    | spop key n => cases hd
    | expire key n => cases ht
    | pexpire key n => cases ht
    | expireAt key n => cases ht
    | _ => first | (cases hw; done) | rfl
  unfold effect
  rw [show (dispatch env' c s).map Prod.snd = _ from hagree]
  rfl

theorem applyKeyPanic_returns {α : Type} {s : CacheStorage} {key : Bytes}
    {op : Slot → Res (Option α) × Slot} (h : (op (s.slotAt key)).1 ≠ .ok none) :
    (applyKeyPanic s key op).1 = some () := by
  unfold applyKeyPanic
  dsimp only
  split
  · exact absurd ‹_› h
  · rfl

omit [KeyHash] in
theorem ne_panic_of_orPanic {α : Type} {g : α → Response} {r : Res (Option α)}
    (h : some (Reply.orPanic g r) ≠ some none) : r ≠ .ok none := by
  rintro rfl
  exact h rfl

omit [KeyHash] in
/-- Whether a pop panics is decided by its count. -/
theorem zpop_panic_env
    {pick : List (F64 × Std.ExtTreeSet Bytes) → Option (F64 × Std.ExtTreeSet Bytes)} {n : Nat}
    (now now' : Instant) (pos pos' : Bytes → Nat) {slot : Slot} (hs : slot.Plain)
    (h : (Slot.zpop now (fun z => if isizeMax < n * 40 then none
      else some (SortedSetValue.popLoop pos pick n z)) slot).1 ≠ .ok none) :
    (Slot.zpop now' (fun z => if isizeMax < n * 40 then none
      else some (SortedSetValue.popLoop pos' pick n z)) slot).1 ≠ .ok none := by
  unfold Slot.zpop at h ⊢
  rw [Slot.writeLive_plain Kind.sortedSet now _ _ hs] at h
  rw [Slot.writeLive_plain Kind.sortedSet now' _ _ hs]
  cases slot with
  | none => exact h
  | some v =>
      cases v with
      | sortedSet z =>
          simp only [Slot.writeAny, Kind.sortedSet] at h ⊢
          by_cases hcap : isizeMax < n * 40
          · simp [hcap] at h
          · simp [hcap]
      | _ => exact h

/-- The steady commands that can panic. -/
def mayPanic : Command → Bool
  | .ltrim _ _ _ | .zpopMin _ _ | .zpopMax _ _ => true
  | _ => false

theorem apply_returns_of_safe {c : Command} (env : Env) (s : CacheStorage) (ht : setsTtl c = false)
    (hd : draws c = false) (hp : mayPanic c = false) : (applyWriteCommand env c s).1 = some () := by
  cases c with
  | set key value ttl =>
      cases ttl with
      | some n => cases ht
      | none => rfl
  | ltrim key start stop => cases hp
  | zpopMin key n => cases hp
  | zpopMax key n => cases hp
  | spop key n => cases hd
  | setEx key seconds value => cases ht
  | expire key n => cases ht
  | pexpire key n => cases ht
  | expireAt key n => cases ht
  | _ => rfl

/-- Replay does not panic where the server did not. -/
theorem apply_returns {c : Command} {s : CacheStorage} (env env' : Env) (hs : s.Plain)
    (h : Steady c s) (hr : Returns env c s) : (applyWriteCommand env' c s).1 = some () := by
  cases hp : mayPanic c with
  | false => exact apply_returns_of_safe env' s h.noTtl h.noDraw hp
  | true =>
      cases c with
      | ltrim key start stop =>
          have heq : Slot.ltrim env.now start stop (s.slotAt key)
              = Slot.ltrim env'.now start stop (s.slotAt key) := by
            unfold Slot.ltrim
            rw [Slot.writeLive_plain Kind.list env.now _ _ (hs key),
              Slot.writeLive_plain Kind.list env'.now _ _ (hs key)]
          apply applyKeyPanic_returns
          rw [← heq]
          exact ne_panic_of_orPanic hr
      | zpopMin key n =>
          exact applyKeyPanic_returns
            (zpop_panic_env env.now env'.now _ _ (hs key) (ne_panic_of_orPanic hr))
      | zpopMax key n =>
          exact applyKeyPanic_returns
            (zpop_panic_env env.now env'.now _ _ (hs key) (ne_panic_of_orPanic hr))
      | _ => cases hp

/-! ## The effect of a write, through its arm -/

theorem arm_of_write {c : Command} (env : Env) (h : isWriteCommand c = true) :
    ∃ a, arm env c = some a := by
  cases c <;> first | (cases h; done) | exact ⟨_, rfl⟩

theorem effect_of_arm {env : Env} {c : Command} {a : Arm} (h : arm env c = some a) (s : CacheStorage) :
    effect env c s = (a.run s).2 := by
  unfold effect dispatch
  rw [h]
  rfl

/-- Whether a write is steady depends on its footprint alone. -/
theorem steady_of_agree {c : Command} {s t : CacheStorage} (hagree : AgreeOn (footprint c) s t) (h : Steady c s) :
    Steady c t := by
  refine ⟨h.write, h.noTtl, h.noDraw, ?_, ?_⟩
  · have hexact := h.replayExact
    cases c with
    | xadd key id fields =>
        have hkey : s.slotAt key = t.slotAt key := hagree key (List.mem_singleton_self key)
        cases id with
        | none => exact hexact
        | some text =>
            show (∃ id, _ = Except.ok id) ∨ ∃ v, t.slotAt key = some v ∧ _
            rw [← hkey]
            exact hexact
    | expireAt key n => cases h.noTtl
    | _ => exact hexact
  · have hties := h.tiesUnsplit
    cases c with
    | zpopMin key n =>
        have hkey : s.slotAt key = t.slotAt key := hagree key (List.mem_singleton_self key)
        rw [TiesUnsplit, hkey] at hties
        exact hties
    | zpopMax key n =>
        have hkey : s.slotAt key = t.slotAt key := hagree key (List.mem_singleton_self key)
        rw [TiesUnsplit, hkey] at hties
        exact hties
    | _ => exact hties

theorem returns_of_agree {env : Env} {c : Command} {s t : CacheStorage}
    (hagree : AgreeOn (footprint c) s t) (h : Returns env c s) : Returns env c t := by
  unfold Returns dispatch at h ⊢
  cases ha : arm env c with
  | none => simp
  | some a =>
      rw [ha] at h
      have hreply := (arm_local ha).reply s t hagree
      simp only [Option.map_some] at h ⊢
      rw [← hreply]
      exact h

end Steady

end FerricCache
