import FerricCache.Data.Representation

/-!
# `FerricCache.Data.Ranks` — `get_rank` against `get_range`

`get_rank` sorts the members of a bucket, and `get_range` lists them as the bucket's table iterates them. A rank is
the position of the member in the list `byRank` of all members, bucket by bucket in byte order
(`Indexed.getRank_eq`); a range cuts the listing. The two agree exactly when each bucket's table iterates in byte
order (`ranks_right_iff`).
-/

namespace FerricCache

open Lib

/-- Two ways to flatten a list of blocks that agree on the lengths of the blocks agree on the blocks. -/
theorem flatMap_inj {α β : Type} {f g : α → List β} {l : List α} (hlen : ∀ a ∈ l, (f a).length = (g a).length)
    (h : l.flatMap f = l.flatMap g) : ∀ a ∈ l, f a = g a := by
  induction l with
  | nil =>
      intro a ha
      cases ha
  | cons b l ih =>
      rw [List.flatMap_cons, List.flatMap_cons] at h
      obtain ⟨hhead, htail⟩ := List.append_inj h (hlen b List.mem_cons_self)
      intro a ha
      rcases List.mem_cons.mp ha with rfl | ha
      · exact hhead
      · exact ih (fun a ha => hlen a (List.mem_cons_of_mem _ ha)) htail a ha

theorem F64.partialCmp_of_ne_nan {a b : F64} (ha : a ≠ nan) (hb : b ≠ nan) : partialCmp a b = some (cmp a b) := by
  cases a <;> cases b <;> simp_all [cmp, partialCmp]

namespace SortedSetValue

variable {z : SortedSetValue}

/-- All members, bucket by bucket, each bucket in byte order. -/
def byRank (z : SortedSetValue) : List Bytes := z.membersByScore.flatMap fun b => b.2.toList

/-- Each bucket's table iterates in byte order. -/
def InByteOrder (pos : Bytes → Nat) (z : SortedSetValue) : Prop :=
  ∀ b ∈ z.membersByScore, iterate pos id b.2.toList = b.2.toList

/-- Ranks say where the members stand in the range: each member is alone at its rank, no two have one rank, and
    every range lists the members in the order of their ranks. -/
structure RanksRight (pos : Bytes → Nat) (z : SortedSetValue) : Prop where
  at_rank : ∀ m, (z.getScore m).isSome →
    ∃ r, z.getRank m = some r ∧ r < z.len ∧ z.getRange pos r r false = [(m, none)]
  distinct : ∀ m m' r, z.getRank m = some r → z.getRank m' = some r → m = m'
  in_order : ∀ start stop, stop < z.len → ((z.getRange pos start stop false).map fun p => z.getRank p.1)
    = (List.range' start (stop + 1 - start)).map some

/-! ## The rank -/

/-- The rank loop finds a member of a bucket whose score compares equal with the target. -/
theorem rankLoop_eq {target : F64} {m : Bytes} (rank : Nat) {buckets : List (F64 × Std.ExtTreeSet Bytes compare)}
    (hpairs : buckets.Pairwise fun b c => F64.cmp b.1 c.1 = .lt) (hnan : ∀ b ∈ buckets, b.1 ≠ .nan)
    (htarget : target ≠ .nan) {b : F64 × Std.ExtTreeSet Bytes compare} (hb : b ∈ buckets) (hm : m ∈ b.2)
    (heq : F64.cmp b.1 target = .eq) :
    ∃ i, rankLoop target m rank buckets = some (rank + i) ∧ (buckets.flatMap fun b => b.2.toList)[i]? = some m := by
  induction buckets generalizing rank with
  | nil => cases hb
  | cons c rest ih =>
      obtain ⟨hhead, htail⟩ := List.pairwise_cons.mp hpairs
      obtain ⟨score, members⟩ := c
      have hscore : score ≠ .nan := hnan _ List.mem_cons_self
      rw [rankLoop, F64.partialCmp_of_ne_nan hscore htarget, List.flatMap_cons]
      rcases List.mem_cons.mp hb with rfl | hb
      · -- the bucket of the target: the member's place among its sorted members
        have hin : m ∈ members.toList := Std.ExtTreeSet.mem_toList.mpr hm
        obtain ⟨i, hi⟩ := Option.isSome_iff_exists.mp (List.isSome_idxOf?.mpr hin)
        rw [show F64.cmp score target = .eq from heq, hi]
        refine ⟨i, rfl, ?_⟩
        obtain ⟨hlt, hget, -⟩ := List.idxOf?_eq_some_iff.mp hi
        rw [List.getElem?_append_left hlt, List.getElem?_eq_getElem hlt, hget]
      · -- a bucket below: its members are counted
        have hlt : F64.cmp score target = .lt := by
          rw [← F64.cmp_congr score (hnan b (List.mem_cons_of_mem _ hb)) htarget heq]
          exact hhead b hb
        obtain ⟨i, hrun, hget⟩ := ih (rank + members.size) htail (fun c hc => hnan c (List.mem_cons_of_mem _ hc)) hb
        rw [hlt]
        refine ⟨members.size + i, ?_, ?_⟩
        · dsimp only
          rw [hrun, Nat.add_assoc]
        · rw [List.getElem?_append_right (by simp), Std.ExtTreeSet.length_toList, Nat.add_sub_cancel_left]
          exact hget

theorem byRank_perm (pos : Bytes → Nat) (z : SortedSetValue) : ((z.listing pos).map Prod.snd).Perm z.byRank := by
  unfold listing byRank
  rw [List.map_flatMap]
  refine List.Perm.flatMap_left _ fun b _ => ?_
  rw [List.map_map, show (Prod.snd ∘ fun m : Bytes => (b.1, m)) = id from rfl, List.map_id]
  exact iterate_perm pos id b.2.toList

theorem Indexed.length_byRank (hz : z.Indexed) : z.byRank.length = z.len := by
  rw [← (byRank_perm (fun _ => 0) z).length_eq, List.length_map, hz.length_listing]

theorem Indexed.nodup_byRank (hz : z.Indexed) : z.byRank.Nodup := by
  rw [← (byRank_perm (fun _ => 0) z).nodup_iff, (hz.listing_perm _).nodup_iff]
  exact Std.ExtTreeMap.nodup_keys

theorem Indexed.mem_byRank (hz : z.Indexed) {m : Bytes} : m ∈ z.byRank ↔ (z.getScore m).isSome := by
  rw [← (byRank_perm (fun _ => 0) z).mem_iff, (hz.listing_perm _).mem_iff, Std.ExtTreeMap.mem_keys, getScore,
    Std.ExtTreeMap.isSome_getElem?_iff_mem]

/-- **The rank of a member** is its place in `byRank`. -/
theorem Indexed.getRank_eq (hz : z.Indexed) {m : Bytes} {r : Nat} :
    z.getRank m = some r ↔ z.byRank[r]? = some m := by
  have hplace : ∀ x, z.memberScores[m]? = some x → ∃ i, z.getRank m = some i ∧ z.byRank[i]? = some m := by
    intro x hx
    obtain ⟨b, hb, hbx, hmb⟩ := hz.bucket_of_score hx
    have heq : F64.cmp b.1 x = .eq := by
      rw [← F64.cmp_norm, hbx]
      exact F64.cmp_self _
    obtain ⟨i, hrun, hget⟩ :=
      rankLoop_eq 0 hz.pairwise (fun b hb => hz.ne_nan hb) (hz.score_ne_nan hx) hb hmb heq
    refine ⟨i, ?_, hget⟩
    rw [getRank, hx]
    dsimp only
    rw [hrun, Nat.zero_add]
  constructor
  · intro hrank
    cases hx : z.memberScores[m]? with
    | none =>
        rw [getRank, hx] at hrank
        cases hrank
    | some x =>
        obtain ⟨i, hi, hget⟩ := hplace x hx
        rw [Option.some_inj.mp (hrank.symm.trans hi)]
        exact hget
  · intro hget
    obtain ⟨x, hx⟩ := Option.isSome_iff_exists.mp (hz.mem_byRank.mp (List.mem_of_getElem? hget))
    obtain ⟨i, hi, hget'⟩ := hplace x hx
    -- no member stands at two places
    rw [hi, (List.getElem?_inj (List.getElem?_eq_some_iff.mp hget).1 hz.nodup_byRank).mp (hget.trans hget'.symm)]

/-! ## The range -/

theorem getRange_one (pos : Bytes → Nat) (z : SortedSetValue) (r : Nat) :
    z.getRange pos r r false = ((z.listing pos)[r]?.map fun p => (p.2, none)).toList := by
  rw [getRange_eq, Nat.add_sub_cancel_left, ← List.map_drop, ← List.map_take, List.take_one, List.head?_drop]
  cases (z.listing pos)[r]? with
  | none => rfl
  | some p => rfl

/-- The range lists the members in byte order within each bucket, as the ranks count them. -/
theorem inByteOrder_iff {pos : Bytes → Nat} : z.InByteOrder pos ↔ (z.listing pos).map Prod.snd = z.byRank := by
  have hmembers : (z.listing pos).map Prod.snd = z.membersByScore.flatMap fun b => iterate pos id b.2.toList := by
    unfold listing
    rw [List.map_flatMap]
    refine List.flatMap_congr fun b _ => ?_
    rw [List.map_map]
    exact List.map_id _
  rw [hmembers]
  constructor
  · intro h
    exact List.flatMap_congr h
  · intro h
    exact flatMap_inj (fun b _ => (iterate_perm pos id b.2.toList).length_eq) h

theorem Indexed.ranksRight (hz : z.Indexed) {pos : Bytes → Nat} (hpos : z.InByteOrder pos) : z.RanksRight pos := by
  have hlist := inByteOrder_iff.mp hpos
  have hget : ∀ r : Nat, (z.listing pos)[r]?.map Prod.snd = z.byRank[r]? := by
    intro r
    rw [← List.getElem?_map, hlist]
  refine ⟨?_, ?_, ?_⟩
  · intro m hm
    obtain ⟨r, hr⟩ := List.mem_iff_getElem?.mp (hz.mem_byRank.mpr hm)
    have hlt := (List.getElem?_eq_some_iff.mp hr).1
    rw [hz.length_byRank] at hlt
    refine ⟨r, hz.getRank_eq.mpr hr, hlt, ?_⟩
    obtain ⟨p, hp, rfl⟩ := Option.map_eq_some_iff.mp ((hget r).trans hr)
    rw [getRange_one, hp]
    rfl
  · intro m m' r hm hm'
    have h := (hz.getRank_eq.mp hm).symm.trans (hz.getRank_eq.mp hm')
    exact Option.some_inj.mp h
  · intro start stop hstop
    apply List.ext_getElem?
    intro i
    have hlen := hz.length_byRank
    rw [getRange_eq, List.getElem?_map, List.getElem?_map, List.getElem?_take]
    by_cases hi : i < stop + 1 - start
    · have hin : start + i < z.byRank.length := by omega
      have hat := hget (start + i)
      rw [List.getElem?_eq_getElem hin] at hat
      obtain ⟨p, hp, hpm⟩ := Option.map_eq_some_iff.mp hat
      rw [if_pos hi, List.getElem?_range' hi, List.getElem?_drop, List.getElem?_map, hp]
      have hrank : z.getRank p.2 = some (start + i) := by
        rw [hz.getRank_eq, hpm]
        exact List.getElem?_eq_getElem hin
      show some (z.getRank p.2) = some (some (start + 1 * i))
      rw [hrank, Nat.one_mul]
    · rw [if_neg hi, List.getElem?_eq_none (by rw [List.length_range']; omega)]
      rfl

/-- **When ranks and ranges agree**: exactly when each bucket's table iterates in byte order. -/
theorem ranks_right_iff (hz : z.Reached) (pos : Bytes → Nat) : z.RanksRight pos ↔ z.InByteOrder pos := by
  have hi := hz.indexed
  constructor
  · intro h
    rw [inByteOrder_iff]
    apply List.ext_getElem?
    intro r
    rw [List.getElem?_map]
    cases hr : z.byRank[r]? with
    | none =>
        have hout := List.getElem?_eq_none_iff.mp hr
        rw [hi.length_byRank, ← hi.length_listing pos] at hout
        rw [List.getElem?_eq_none hout]
        rfl
    | some m =>
        -- the member at this place has this rank, so the range at its rank is the member
        obtain ⟨r', hrank, -, hrange⟩ := h.at_rank m (hi.mem_byRank.mp (List.mem_of_getElem? hr))
        rw [hi.getRank_eq.mpr hr] at hrank
        obtain rfl := Option.some_inj.mp hrank
        rw [getRange_one] at hrange
        cases hp : (z.listing pos)[r]? with
        | none =>
            rw [hp] at hrange
            cases hrange
        | some p =>
            rw [hp] at hrange
            simp only [Option.map_some, Option.toList_some, List.cons.injEq, Prod.mk.injEq, and_true] at hrange
            rw [Option.map_some, hrange]
  · exact hi.ranksRight

/-- Two members with one score. -/
def twins : SortedSetValue := run [.add (.fin 1) (utf8 "a"), .add (.fin 1) (utf8 "b")]

theorem twins_reached : twins.Reached := by
  refine ⟨[.add (.fin 1) (utf8 "a"), .add (.fin 1) (utf8 "b")], ?_, rfl⟩
  intro op hop
  simp only [List.mem_cons, List.not_mem_nil, or_false] at hop
  rcases hop with rfl | rfl <;> simp [Op.Scores]

theorem ranks_right_twins : twins.RanksRight fun _ => 0 := by
  refine (ranks_right_iff twins_reached _).mpr ?_
  unfold InByteOrder
  decide

/-- A table that iterates `b` before `a`: the rank of `a` is 0, and `ZRANGE 0 0` is `b`. -/
theorem rank_of_the_other :
    twins.getRank (utf8 "a") = some 0 ∧
      twins.getRange (fun m => if m = utf8 "b" then 0 else 1) 0 0 false = [(utf8 "b", none)] ∧
      ¬ twins.RanksRight fun m => if m = utf8 "b" then 0 else 1 := by
  refine ⟨by decide, by decide, ?_⟩
  intro h
  obtain ⟨r, hr, -, hrange⟩ := h.at_rank (utf8 "a") (by decide)
  obtain rfl : 0 = r := Option.some_inj.mp ((by decide : twins.getRank (utf8 "a") = some 0).symm.trans hr)
  exact absurd hrange (by decide)

end SortedSetValue

end FerricCache
