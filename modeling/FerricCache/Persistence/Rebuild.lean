import FerricCache.Data.SortedSet
import FerricCache.Persistence.Snapshot

/-!
# `FerricCache.Persistence.Rebuild` — the round trip of a snapshot

The commands of a record, applied where its key is absent, rebuild the value (`record_rebuilds`): hash
fields, set members and scores may come in any table order, stream entries come in id order. Records of
different keys do not disturb each other, so a loaded snapshot holds at each key what the storage held,
less the values without elements (`loadSnapshot_save`).
-/

namespace FerricCache

open Lib

/-- A value without elements, which no record keeps. -/
def CacheValue.isEmpty : CacheValue → Bool
  | .string _ _ => false
  | .hash h => h.fields.isEmpty
  | .list l => l.items.isEmpty
  | .set s => s.members.isEmpty
  | .sortedSet z => z.memberScores.isEmpty
  | .stream st => st.entries.isEmpty

/-- What a slot holds, unless it has no elements. -/
def Slot.holding (slot : Slot) : Slot := slot.filter fun v => !v.isEmpty

/-- A value its record can carry: the two indexes of a sorted set agree, over scores that are totally
    ordered, and its length is a `usize`. -/
def CacheValue.Recordable : CacheValue → Prop
  | .sortedSet z =>
      (∃ zero, z.Consistent zero) ∧ (z.membersByScore.map fun b => b.2.size).sum ≤ usizeMax
  | _ => True

section Rebuild

variable [KeyHash] (save : SaveReadings) (envs : Nat → Env)

/-- Commands on one key are one operation on its slot. -/
theorem applyAll_map {α β : Type} {key : Bytes} {c : β → Command} {f : β → Slot → α × Slot}
    (h : ∀ env b s, applyWriteCommand env (c b) s = applyKey s key (f b)) (l : List β) (m : Nat)
    (s : CacheStorage) :
    applyAll envs m (l.map c) s
      = (some (), s.setEntry key (l.foldl (fun slot b => (f b slot).2) (s.slotAt key))) := by
  rw [← foldl_onKey key f l s]
  induction l generalizing m s with
  | nil => rfl
  | cons b l ih =>
      rw [List.map_cons, applyAll, h, List.foldl_cons]
      exact ih (m + 1) _

theorem applyAll_single {α : Type} {key : Bytes} {c : Command} {f : Slot → α × Slot}
    {s : CacheStorage} (h : ∀ env, applyWriteCommand env c s = applyKey s key f) (m : Nat) :
    applyAll envs m [c] s = (some (), s.setEntry key (f (s.slotAt key)).2) := by
  rw [applyAll, h]
  rfl

/-! ## Each type -/

omit [KeyHash] in
theorem foldl_hset (l : List (Bytes × Bytes)) (h : HashValue) :
    l.foldl (fun slot p => (Slot.hset p.1 p.2 slot).2) (some (.hash h))
      = some (.hash { h with fields := Tables.insertAll h.fields l }) := by
  induction l generalizing h with
  | nil => rfl
  | cons p l ih =>
      rw [List.foldl_cons]
      exact ih (h.setField p.1 p.2)

omit [KeyHash] in
theorem foldl_hset_none {l : List (Bytes × Bytes)} (hl : l ≠ []) :
    l.foldl (fun slot p => (Slot.hset p.1 p.2 slot).2) none
      = some (.hash ⟨Tables.insertAll ∅ l, none⟩) := by
  cases l with
  | nil => exact absurd rfl hl
  | cons p l => exact foldl_hset l (HashValue.new.setField p.1 p.2)

omit [KeyHash] in
theorem foldl_pushRight (values : List Bytes) (l : ListValue) :
    values.foldl ListValue.pushRight l = { l with items := l.items ++ values } := by
  induction values generalizing l with
  | nil => simp
  | cons v values ih =>
      rw [List.foldl_cons, ih]
      simp [ListValue.pushRight]

omit [KeyHash] in
theorem countLoop_add (members : List Bytes) (s : SetValue) :
    (Slot.countLoop (fun (s : SetValue) m => (!s.contains m, s.add m)) s members).2
      = { s with members := members.foldl (fun s m => s.insert m) s.members } := by
  induction members generalizing s with
  | nil => rfl
  | cons m members ih =>
      rw [Slot.countLoop]
      exact ih (s.add m)

/-- The `XADD` of a record puts the entry behind those there are, at whatever reading. -/
theorem applyWriteCommand_xadd (env : Env) {key : Bytes} {id : StreamId} (fields : List (Bytes × Bytes))
    {s : CacheStorage} {st : StreamValue}
    (hslot : (Slot.xadd env (some id) fields (s.slotAt key)).2 = some (.stream (st.push id fields))) :
    applyWriteCommand env (.xadd key (some id.toText) fields) s
      = (some (), s.setEntry key (some (.stream (st.push id fields)))) := by
  show applyKey s key (Slot.xadd env (StreamId.parse id.toText false).toOption fields) = _
  rw [StreamId.parse_toText]
  exact congrArg (fun slot => (some (), s.setEntry key slot)) hslot

/-- Ids above the last one are all accepted. -/
theorem applyAll_xadd {key : Bytes} {l : List (StreamId × List (Bytes × Bytes))} {st : StreamValue}
    (hsorted : l.Pairwise fun p q => compare p.1 q.1 = .lt)
    (habove : ∀ p ∈ l, compare st.lastId p.1 = .lt) (he : st.expiresAt = none) (m : Nat) {s : CacheStorage}
    (hs : s.slotAt key = some (.stream st)) :
    applyAll envs m (l.map fun p => .xadd key (some p.1.toText) p.2) s
      = (some (), s.setEntry key (some (.stream (l.foldl (fun st p => st.push p.1 p.2) st)))) := by
  induction l generalizing m st s with
  | nil =>
      rw [List.map_nil, applyAll, List.foldl_nil, ← hs, CacheStorage.setEntry_slotAt]
  | cons p l ih =>
      obtain ⟨hhead, htail⟩ := List.pairwise_cons.mp hsorted
      have hgt : compare p.1 st.lastId = .gt :=
        Std.OrientedCmp.gt_iff_lt.mpr (habove p (List.mem_cons_self ..))
      have hadd : (Slot.xadd (envs m) (some p.1) p.2 (s.slotAt key)).2 = some (.stream (st.push p.1 p.2)) := by
        simp [hs, Slot.xadd, Slot.writeOrCreate, Kind.stream, CacheValue.isExpired, CacheValue.expiresAt,
          he, expiredAt, StreamValue.add, hgt]
      rw [List.map_cons, applyAll, applyWriteCommand_xadd (envs m) p.2 hadd, List.foldl_cons]
      have hnext : ∀ q ∈ l, compare (st.push p.1 p.2).lastId q.1 = .lt := hhead
      have hrest := ih htail hnext he (m + 1) (CacheStorage.slotAt_setEntry_self s key _)
      rwa [CacheStorage.setEntry_setEntry] at hrest

theorem applyAll_xadd_none {key : Bytes} {l : List (StreamId × List (Bytes × Bytes))} (hl : l ≠ [])
    (hsorted : l.Pairwise fun p q => compare p.1 q.1 = .lt)
    (hpos : ∀ p ∈ l, compare StreamId.minId p.1 = .lt) {s : CacheStorage} (hs : s.slotAt key = none) :
    applyAll envs 0 (l.map fun p => .xadd key (some p.1.toText) p.2) s
      = (some (), s.setEntry key (some (.stream (l.foldl (fun st p => st.push p.1 p.2) StreamValue.new)))) := by
  cases l with
  | nil => exact absurd rfl hl
  | cons p l =>
      obtain ⟨hhead, htail⟩ := List.pairwise_cons.mp hsorted
      have hgt : compare p.1 StreamId.minId = .gt :=
        Std.OrientedCmp.gt_iff_lt.mpr (hpos p (List.mem_cons_self ..))
      have hadd : (Slot.xadd (envs 0) (some p.1) p.2 (s.slotAt key)).2
          = some (.stream (StreamValue.new.push p.1 p.2)) := by
        simp [hs, Slot.xadd, Slot.writeOrCreate, Slot.insertNew, Kind.stream, StreamValue.add,
          StreamValue.new, hgt, Except.map]
      rw [List.map_cons, applyAll, applyWriteCommand_xadd (envs 0) p.2 hadd, List.foldl_cons]
      have hnext : ∀ q ∈ l, compare (StreamValue.new.push p.1 p.2).lastId q.1 = .lt := hhead
      have hrest := applyAll_xadd envs htail hnext rfl 1 (CacheStorage.slotAt_setEntry_self s key _)
      rwa [CacheStorage.setEntry_setEntry] at hrest

omit [KeyHash] in
/-- Pushing entries in turn: they are inserted, and the last id is that of the last one. -/
theorem foldl_push (l : List (StreamId × List (Bytes × Bytes))) (st : StreamValue) :
    l.foldl (fun st p => st.push p.1 p.2) st
      = ⟨Tables.insertAll st.entries l, (l.getLast?.map Prod.fst).getD st.lastId, st.expiresAt⟩ := by
  induction l generalizing st with
  | nil => rfl
  | cons p l ih =>
      rw [List.foldl_cons, ih]
      cases l with
      | nil => rfl
      | cons q l =>
          rw [List.getLast?_cons_cons]
          obtain ⟨r, hr⟩ : ∃ r, (q :: l).getLast? = some r := ⟨_, List.getLast?_cons⟩
          rw [hr]
          rfl

omit [KeyHash] in
/-- The last entry of a topped stream has its last id. -/
theorem getLast_entries {st : StreamValue} (htop : st.Topped) (hne : st.entries ≠ ∅) :
    (st.entries.toList.getLast?.map Prod.fst).getD StreamId.minId = st.lastId := by
  have hmem : st.lastId ∈ st.entries := htop.last.resolve_right fun h => hne h.1
  obtain ⟨v, hv⟩ : ∃ v, st.entries[st.lastId]? = some v :=
    ⟨_, Std.ExtTreeMap.getElem?_eq_some_getElem hmem⟩
  have hin : (st.lastId, v) ∈ st.entries.toList :=
    Std.ExtTreeMap.mem_toList_iff_getElem?_eq_some.mpr hv
  obtain ⟨init, last, hlist⟩ : ∃ init last, st.entries.toList = init ++ [last] := by
    rcases List.eq_nil_or_concat st.entries.toList with hnil | ⟨init, last, h⟩
    · rw [hnil] at hin
      cases hin
    · exact ⟨init, last, by rw [h, List.concat_eq_append]⟩
  have hlast : last.1 ∈ st.entries := by
    have hmem' : last ∈ st.entries.toList := by simp [hlist]
    have hget := Std.ExtTreeMap.mem_toList_iff_getElem?_eq_some.mp hmem'
    exact Std.ExtTreeMap.isSome_getElem?_iff_mem.mp (by rw [hget]; rfl)
  have hsorted := st.entries.ordered_keys_toList
  rw [hlist, List.getLast?_append]
  show last.1 = st.lastId
  rw [hlist, List.mem_append, List.mem_singleton] at hin
  rcases hin with hinit | hinlast
  · -- an entry before the last one would have an id below it
    rw [hlist, List.pairwise_append] at hsorted
    have hlt : compare st.lastId last.1 = .lt :=
      hsorted.2.2 (st.lastId, v) hinit last (List.mem_singleton_self _)
    have hle := htop.le last.1 hlast
    rw [Std.OrientedCmp.gt_iff_lt.mpr hlt] at hle
    cases hle
  · rw [← hinlast]

/-! ## One record -/

omit [KeyHash] in
theorem iterate_ne_nil {α : Type} {pos : Bytes → Nat} {key : α → Bytes} {l : List α} (h : l ≠ []) :
    iterate pos key l ≠ [] := by
  intro hnil
  have hlen := (iterate_perm pos key l).length_eq
  rw [hnil] at hlen
  exact h (List.eq_nil_of_length_eq_zero hlen.symm)

omit [KeyHash] in
/-- The pairs `ZADD` rebuilds a sorted set from are its listing. -/
theorem range_pairs {z : SortedSetValue} (pos : Bytes → Nat)
    (hfits : (z.membersByScore.map fun b => b.2.size).sum ≤ usizeMax) :
    ((z.getRange pos 0 usizeMax true).filterMap fun p => p.2.map fun score => (score, p.1))
      = z.listing pos := by
  have hlen : (z.listing pos).length = (z.membersByScore.map fun b => b.2.size).sum := by
    unfold SortedSetValue.listing
    rw [List.length_flatMap]
    congr 1
    apply List.map_congr_left
    intro b _
    rw [List.length_map, (iterate_perm pos id b.2.toList).length_eq, Std.ExtTreeSet.length_toList]
  unfold SortedSetValue.getRange
  rw [SortedSetValue.rangeLoop_all (by omega), List.filterMap_map]
  exact List.filterMap_some

/-- **A record rebuilds its value** where the key is absent. -/
theorem record_rebuilds (key : Bytes) {v : CacheValue} (hplain : v.Plain) (hrec : v.Recordable)
    (hne : v.isEmpty = false) :
    ∃ commands, rebuildCommands save key v = some commands ∧ commands ≠ [] ∧
      ∀ (envs : Nat → Env) (s : CacheStorage), s.slotAt key = none →
        applyAll envs 0 commands s = (some (), s.setEntry key (some v)) := by
  have hnone := hplain.noDeadline
  -- each kind of value is built again by one kind of command from what the record lists
  cases v with
  | string b e =>
      obtain rfl : e = none := hnone
      refine ⟨[.set key b none], rfl, by simp, ?_⟩
      intro envs s hs
      rfl
  | hash h =>
      obtain ⟨fields, e⟩ := h
      obtain rfl : e = none := hnone
      have hl : iterate (save.iterPos (some key)) Prod.fst fields.toList ≠ [] :=
        iterate_ne_nil fun h => by simp [CacheValue.isEmpty, Std.ExtTreeMap.toList_eq_nil_iff.mp h] at hne
      refine ⟨_, rfl, by simpa [HashValue.getAll] using hl, ?_⟩
      intro envs s hs
      rw [applyAll_map envs (f := fun p : Bytes × Bytes => Slot.hset p.1 p.2) (fun _ _ _ => rfl), hs,
        HashValue.getAll, foldl_hset_none hl, Tables.insertAll_toList fields (iterate_perm _ _ _)]
  | list l =>
      obtain ⟨items, e⟩ := l
      obtain rfl : e = none := hnone
      have hitems : items.isEmpty = false := hne
      refine ⟨[.rpush key items], ?_, by simp, ?_⟩
      · simp [rebuildCommands, expiredAt, hitems]
      · intro envs s hs
        rw [applyAll_single envs (f := Slot.rpush items) (fun _ => rfl), hs]
        show (some (), s.setEntry key (some (.list (items.foldl ListValue.pushRight ListValue.new)))) = _
        rw [foldl_pushRight]
        rfl
  | set t =>
      obtain ⟨members, e⟩ := t
      obtain rfl : e = none := hnone
      have hl : iterate (save.iterPos (some key)) id members.toList ≠ [] :=
        iterate_ne_nil fun h => by simp [CacheValue.isEmpty, Std.ExtTreeSet.toList_eq_nil_iff.mp h] at hne
      refine ⟨[.sadd key (iterate (save.iterPos (some key)) id members.toList)], ?_, by simp, ?_⟩
      · simp [rebuildCommands, expiredAt, SetValue.getAll, hl]
      · intro envs s hs
        rw [applyAll_single envs (f := Slot.sadd _) (fun _ => rfl), hs]
        show (some (), s.setEntry key (some (.set (Slot.countLoop
          (fun (s : SetValue) m => (!s.contains m, s.add m)) SetValue.new
          (iterate (save.iterPos (some key)) id members.toList)).2))) = _
        rw [countLoop_add]
        simp only [SetValue.new, Tables.foldl_insert_toList members (iterate_perm _ id _)]
  | sortedSet z =>
      obtain ⟨⟨zero, hcons⟩, hfits⟩ := hrec
      have he : z.expiresAt = none := hnone
      have hl : z.listing (save.iterPos (some key)) ≠ [] := by
        intro hnil
        obtain ⟨m, hm⟩ : ∃ m, m ∈ z.memberScores := by
          by_contra hno
          push Not at hno
          have hempty : z.memberScores = ∅ := by
            apply Std.ExtTreeMap.ext_getElem?
            intro m
            rw [Std.ExtTreeMap.getElem?_eq_none (hno m)]
            simp
          simp [CacheValue.isEmpty, hempty] at hne
        obtain ⟨x, hx⟩ : ∃ x, z.memberScores[m]? = some x :=
          ⟨_, Std.ExtTreeMap.getElem?_eq_some_getElem hm⟩
        have hmem : (x, m) ∈ z.listing (save.iterPos (some key)) :=
          SortedSetValue.mem_listing.mpr ((hcons.score m x).mp hx)
        rw [hnil] at hmem
        cases hmem
      refine ⟨[.zadd key (z.listing (save.iterPos (some key)))], ?_, by simp, ?_⟩
      · simp [rebuildCommands, he, expiredAt, range_pairs _ hfits, hl]
      · intro envs s hs
        rw [applyAll_single envs (f := Slot.zadd _) (fun _ => rfl), hs]
        show (some (), s.setEntry key (some (.sortedSet ((z.listing (save.iterPos (some key))).foldl
          (fun z p => z.add p.1 p.2) SortedSetValue.new)))) = _
        rw [hcons.foldl_add_listing he]
  | stream st =>
      obtain ⟨entries, lastId, e⟩ := st
      obtain rfl : e = none := hnone
      have htop : StreamValue.Topped ⟨entries, lastId, none⟩ := hplain.topped _ rfl
      have hentries : entries ≠ ∅ := by
        rintro rfl
        simp [CacheValue.isEmpty] at hne
      have hl : entries.toList ≠ [] := fun h => hentries (Std.ExtTreeMap.toList_eq_nil_iff.mp h)
      refine ⟨entries.toList.map fun p => .xadd key (some p.1.toText) p.2, rfl, by simpa using hl, ?_⟩
      intro envs s hs
      have hpos : ∀ p ∈ entries.toList, compare StreamId.minId p.1 = .lt := by
        rintro ⟨id, fields⟩ hp
        have hget := Std.ExtTreeMap.mem_toList_iff_getElem?_eq_some.mp hp
        exact htop.pos id (Std.ExtTreeMap.isSome_getElem?_iff_mem.mp (by rw [hget]; rfl))
      rw [applyAll_xadd_none envs hl entries.ordered_keys_toList hpos hs, foldl_push]
      have hlast := getLast_entries htop hentries
      simp only at hlast
      simp only [StreamValue.new, hlast, Tables.insertAll_toList entries (List.Perm.refl _)]

omit [KeyHash] in
/-- A value without elements has no record. -/
theorem recordFor_empty {key : Bytes} {v : CacheValue} (hplain : v.Plain) (hrec : v.Recordable)
    (hempty : v.isEmpty = true) : recordFor save key v = none := by
  have hnone := hplain.noDeadline
  have hcmds : rebuildCommands save key v = some [] := by
    cases v with
    | string b e => cases hempty
    | hash h =>
        have he : h.expiresAt = none := hnone
        have hnil : h.fields.toList = [] :=
          Std.ExtTreeMap.toList_eq_nil_iff.mpr (Std.ExtTreeMap.isEmpty_iff.mp hempty)
        simp [rebuildCommands, he, expiredAt, HashValue.getAll, hnil, iterate]
    | list l =>
        have he : l.expiresAt = none := hnone
        have hitems : l.items.isEmpty = true := hempty
        simp [rebuildCommands, he, expiredAt, hitems]
    | set t =>
        have he : t.expiresAt = none := hnone
        have hnil : t.members.toList = [] :=
          Std.ExtTreeSet.toList_eq_nil_iff.mpr (Std.ExtTreeSet.isEmpty_iff.mp hempty)
        simp [rebuildCommands, he, expiredAt, SetValue.getAll, hnil, iterate]
    | sortedSet z =>
        obtain ⟨⟨zero, hcons⟩, hfits⟩ := hrec
        have he : z.expiresAt = none := hnone
        have hscores : z.memberScores = ∅ := Std.ExtTreeMap.isEmpty_iff.mp hempty
        have hlisting : z.listing (save.iterPos (some key)) = [] := by
          rw [List.eq_nil_iff_forall_not_mem]
          rintro ⟨x, m⟩ hm
          have hscore := (hcons.score m x).mpr (SortedSetValue.mem_listing.mp hm)
          rw [hscores] at hscore
          simp at hscore
        simp [rebuildCommands, he, expiredAt, range_pairs _ hfits, hlisting]
    | stream st =>
        have he : st.expiresAt = none := hnone
        have hentries : st.entries = ∅ := Std.ExtTreeMap.isEmpty_iff.mp hempty
        simp [rebuildCommands, he, expiredAt, hentries]
  rw [recordFor, hcmds]
  rfl

/-! ## A whole snapshot -/

/-- Put back what is left of an entry, if anything. -/
def putBack (g : Bytes × CacheValue → Slot) (s : CacheStorage) (p : Bytes × CacheValue) : CacheStorage :=
  match g p with
  | some v => s.setEntry p.1 (some v)
  | none => s

section PutBack

variable {g : Bytes × CacheValue → Slot}

theorem slotAt_putBack_ne {s : CacheStorage} {p : Bytes × CacheValue} {k : Bytes} (h : p.1 ≠ k) :
    (putBack g s p).slotAt k = s.slotAt k := by
  unfold putBack
  split
  · exact CacheStorage.slotAt_setEntry_ne (Ne.symm h)
  · rfl

theorem slotAt_putBack_self {s : CacheStorage} {p : Bytes × CacheValue} (h : s.slotAt p.1 = none) :
    (putBack g s p).slotAt p.1 = g p := by
  unfold putBack
  cases hg : g p with
  | none => exact h
  | some v => exact CacheStorage.slotAt_setEntry_self _ _ _

theorem slotAt_foldl_putBack_of_ne {entries : List (Bytes × CacheValue)} {k : Bytes}
    (h : ∀ p ∈ entries, p.1 ≠ k) (s : CacheStorage) :
    (entries.foldl (putBack g) s).slotAt k = s.slotAt k := by
  induction entries generalizing s with
  | nil => rfl
  | cons p entries ih =>
      rw [List.foldl_cons, ih fun q hq => h q (List.mem_cons_of_mem _ hq),
        slotAt_putBack_ne (h p (List.mem_cons_self ..))]

theorem slotAt_foldl_putBack {entries : List (Bytes × CacheValue)} {s : CacheStorage}
    {p : Bytes × CacheValue} (hkeys : entries.Pairwise fun p q => p.1 ≠ q.1) (hs : s.slotAt p.1 = none)
    (h : p ∈ entries) : (entries.foldl (putBack g) s).slotAt p.1 = g p := by
  induction entries generalizing s with
  | nil => cases h
  | cons q entries ih =>
      obtain ⟨hhead, htail⟩ := List.pairwise_cons.mp hkeys
      rw [List.foldl_cons]
      rcases List.mem_cons.mp h with rfl | hmem
      · rw [slotAt_foldl_putBack_of_ne fun q hq => (hhead q hq).symm]
        exact slotAt_putBack_self hs
      · refine ih htail ?_ hmem
        rw [slotAt_putBack_ne (hhead p hmem)]
        exact hs

end PutBack

/-- Put an entry into the storage, unless it has no elements. -/
def restore (s : CacheStorage) (p : Bytes × CacheValue) : CacheStorage :=
  if p.2.isEmpty then s else s.setEntry p.1 (some p.2)

omit [KeyHash] in
theorem holding_some (v : CacheValue) :
    Slot.holding (some v) = if v.isEmpty then none else some v := by
  cases h : v.isEmpty <;> simp [Slot.holding, Option.filter, h]

theorem restore_eq_putBack : restore = putBack fun p => Slot.holding (some p.2) := by
  funext s p
  unfold restore putBack
  dsimp only
  rw [holding_some]
  cases p.2.isEmpty <;> rfl

theorem slotAt_restore_ne {s : CacheStorage} {p : Bytes × CacheValue} {k : Bytes} (h : p.1 ≠ k) :
    (restore s p).slotAt k = s.slotAt k := by
  rw [restore_eq_putBack]
  exact slotAt_putBack_ne h

/-- Loading the records of entries at absent, distinct keys puts the entries back. -/
theorem loadRecords_recordsOf (load : LoadReadings) (i : Nat) {entries : List (Bytes × CacheValue)} {s : CacheStorage}
    (hvals : ∀ p ∈ entries, p.2.Plain ∧ p.2.Recordable)
    (hkeys : entries.Pairwise fun p q => p.1 ≠ q.1) (habsent : ∀ p ∈ entries, s.slotAt p.1 = none) :
    ∃ n, loadRecords load i (recordsOf save entries) s = (some n, entries.foldl restore s) := by
  induction entries generalizing i s with
  | nil => exact ⟨0, rfl⟩
  | cons p entries ih =>
      obtain ⟨key, v⟩ := p
      obtain ⟨hplain, hrec⟩ := hvals (key, v) (List.mem_cons_self ..)
      obtain ⟨hhead, htail⟩ := List.pairwise_cons.mp hkeys
      have hrest : ∀ p ∈ entries, (restore s (key, v)).slotAt p.1 = none := by
        intro p hp
        rw [slotAt_restore_ne (hhead p hp)]
        exact habsent p (List.mem_cons_of_mem _ hp)
      have hn := fun i => ih i (fun p hp => hvals p (List.mem_cons_of_mem _ hp)) htail hrest
      rw [List.foldl_cons, recordsOf, List.filterMap_cons]
      cases hempty : v.isEmpty with
      | true =>
          have hrestore : restore s (key, v) = s := by simp [restore, hempty]
          rw [hrestore] at hn ⊢
          rw [recordFor_empty save hplain hrec hempty]
          exact hn i
      | false =>
          obtain ⟨commands, hcmds, hne, happly⟩ := record_rebuilds save key hplain hrec hempty
          have hrecord : recordFor save key v = some ⟨key, commands, none⟩ := by
            simp [recordFor, hcmds, hne, hplain.noDeadline]
          have hrestore : restore s (key, v) = s.setEntry key (some v) := by simp [restore, hempty]
          obtain ⟨n, hn⟩ := hn (i + 1)
          rw [hrestore, recordsOf] at hn
          rw [hrestore, hrecord]
          refine ⟨n + 1, ?_⟩
          rw [loadRecords]
          simp only [Option.any_none, Bool.false_eq_true, if_false,
            happly _ s (habsent (key, v) (List.mem_cons_self ..)), restoreDeadline]
          rw [hn]
          rfl

/-- Putting back all entries of a storage into an empty one. -/
theorem slotAt_putBack_all (env : Env) (g : Bytes × CacheValue → Slot) (s : CacheStorage) (k : Bytes) :
    ((s.getAllEntries env).foldl (putBack g) CacheStorage.new).slotAt k
      = (s.slotAt k).bind fun v => g (k, v) := by
  cases hv : s.slotAt k with
  | some v =>
      exact slotAt_foldl_putBack (p := (k, v)) (getAllEntries_distinct env s) (CacheStorage.slotAt_new k)
        ((mem_getAllEntries env).mpr hv)
  | none =>
      rw [slotAt_foldl_putBack_of_ne, CacheStorage.slotAt_new]
      · rfl
      · rintro ⟨k', v⟩ hp rfl
        have hsome := (mem_getAllEntries env).mp hp
        rw [hv] at hsome
        cases hsome

/-- **A loaded snapshot holds what the storage held**, less the values without elements. -/
theorem loadRecords_createSnapshot (load : LoadReadings) {s : CacheStorage} (hplain : s.Plain)
    (hrec : ∀ k v, s.slotAt k = some v → v.Recordable) :
    ∃ n t, loadRecords load 0 (createSnapshot save s) CacheStorage.new = (some n, t) ∧
      ∀ k, t.slotAt k = (s.slotAt k).holding := by
  have hvals : ∀ p ∈ s.getAllEntries save.toEnv, p.2.Plain ∧ p.2.Recordable := by
    rintro ⟨k, v⟩ hp
    have hv := (mem_getAllEntries save.toEnv).mp hp
    exact ⟨hplain k v hv, hrec k v hv⟩
  obtain ⟨n, hn⟩ := loadRecords_recordsOf save load 0 hvals (getAllEntries_distinct save.toEnv s)
    fun p _ => CacheStorage.slotAt_new p.1
  refine ⟨n, _, hn, ?_⟩
  intro k
  rw [restore_eq_putBack, slotAt_putBack_all]
  cases s.slotAt k <;> rfl

/-- The records of a storage with one value. -/
theorem createSnapshot_single (key : Bytes) (v : CacheValue) :
    createSnapshot save (CacheStorage.new.setEntry key (some v)) = (recordFor save key v).toList := by
  have hmem : ∀ p, p ∈ (CacheStorage.new.setEntry key (some v)).getAllEntries save.toEnv ↔ p = (key, v) := by
    rintro ⟨k, w⟩
    rw [mem_getAllEntries, CacheStorage.slotAt_setEntry, CacheStorage.slotAt_new, Prod.mk.injEq]
    constructor
    · intro h
      split at h
      · rename_i hk
        cases h
        exact ⟨hk, rfl⟩
      · cases h
    · rintro ⟨rfl, rfl⟩
      rw [if_pos rfl]
  have hdist := getAllEntries_distinct save.toEnv (CacheStorage.new.setEntry key (some v))
  have hlist : (CacheStorage.new.setEntry key (some v)).getAllEntries save.toEnv = [(key, v)] := by
    generalize (CacheStorage.new.setEntry key (some v)).getAllEntries save.toEnv = l at hmem hdist
    cases l with
    | nil => exact absurd ((hmem (key, v)).mpr rfl) List.not_mem_nil
    | cons p l =>
        obtain rfl := (hmem p).mp (List.mem_cons_self ..)
        cases l with
        | nil => rfl
        | cons q l =>
            obtain rfl := (hmem q).mp (by simp)
            exact absurd rfl ((List.pairwise_cons.mp hdist).1 _ (List.mem_cons_self ..))
  unfold createSnapshot recordsOf
  rw [hlist, List.filterMap_cons]
  cases recordFor save key v <;> rfl

end Rebuild

/-! ## The file -/

section File

variable [Codec] [RecordCodec]

/-- **Reading back a snapshot file** gives its records. -/
theorem readSnapshot_snapshotFile (timestamp : Nat) {records : List SnapshotRecord}
    (h : EncodesRecords records) : readSnapshot (snapshotFile timestamp records) = .ok (some records) := by
  obtain ⟨hdec, hsize⟩ := h
  set blob := RecordCodec.encode records with hblob
  set header := snapshotHeader timestamp records.length blob.length (Codec.crc32 blob) with hheader
  have hfile : snapshotFile timestamp records = header ++ blob := rfl
  have hlen : header.length = 40 := by simp [hheader, snapshotHeader, magicV2]; rfl
  have hmagic : (header ++ blob).take 8 = magicV2 := by
    rw [hheader, snapshotHeader, List.append_assoc]
    exact List.take_left' (by decide)
  have hversion : BigEndian.ofBytes (((header ++ blob).drop 8).take 4) = 2 := by
    have hdata : header ++ blob = magicV2 ++ (BigEndian.toBytes 4 2 ++
        (BigEndian.toBytes 8 timestamp ++ BigEndian.toBytes 8 records.length ++
          BigEndian.toBytes 8 blob.length ++ BigEndian.toBytes 4 (Codec.crc32 blob).toNat ++ blob)) := by
      simp [hheader, snapshotHeader]
    exact BigEndian.ofBytes_field (by decide) hdata (by decide)
  have hbloblen : BigEndian.ofBytes (((header ++ blob).drop 28).take 8) = blob.length := by
    have hdata : header ++ blob = (magicV2 ++ BigEndian.toBytes 4 2 ++
        BigEndian.toBytes 8 timestamp ++ BigEndian.toBytes 8 records.length) ++
          (BigEndian.toBytes 8 blob.length ++
            (BigEndian.toBytes 4 (Codec.crc32 blob).toNat ++ blob)) := by
      simp [hheader, snapshotHeader]
    exact BigEndian.ofBytes_field (by simp; decide) hdata (hsize.trans_lt (by decide))
  have hsum : BigEndian.ofBytes (((header ++ blob).drop 36).take 4) = (Codec.crc32 blob).toNat := by
    have hdata : header ++ blob = (magicV2 ++ BigEndian.toBytes 4 2 ++
        BigEndian.toBytes 8 timestamp ++ BigEndian.toBytes 8 records.length ++
          BigEndian.toBytes 8 blob.length) ++
            (BigEndian.toBytes 4 (Codec.crc32 blob).toNat ++ blob) := by
      simp [hheader, snapshotHeader]
    exact BigEndian.ofBytes_field (by simp; decide) hdata (Codec.crc32 blob).toNat_lt
  have hdrop : (header ++ blob).drop 40 = blob := List.drop_left' hlen
  have htotal : (header ++ blob).length = 40 + blob.length := by rw [List.length_append, hlen]
  have hnotV1 : magicV2 ≠ magicV1 := by decide
  rw [hfile, readSnapshot, if_neg (by omega), hmagic, if_neg hnotV1, if_neg (by simp), if_neg (by omega)]
  simp only [hversion, ne_eq, not_true, if_false, hbloblen, hsum, hdrop]
  rw [if_neg (by omega), if_neg (by omega), if_neg (by omega), List.take_length, if_neg (by simp), hdec]

end File

end FerricCache
