import FerricCache.Data.Value
import FerricCache.Lib.Tables

/-!
# `FerricCache.Data.SortedSet` — the two indexes of a sorted set

A sorted set is `Consistent` when its score buckets are strictly ordered and non-empty, and a member is
in the bucket of a score exactly when that is its score. A consistent sorted set is determined by its
scores (`Consistent.ext`), and adding the pairs of its listing to an empty one gives it back
(`foldl_add_listing`), in whatever order the buckets' tables list their members.
-/

namespace FerricCache

open Lib

namespace SortedSetValue

/-- The buckets are ordered and non-empty, and say of each member what `memberScores` says. -/
structure Consistent (zero : F64) (z : SortedSetValue) : Prop where
  ordered : OrdList.Ordered F64.cmp (F64.Ok zero) z.membersByScore
  nonempty : ∀ b ∈ z.membersByScore, ∃ m, m ∈ b.2
  score : ∀ m x, z.memberScores[m]? = some x ↔ ∃ b ∈ z.membersByScore, b.1 = x ∧ m ∈ b.2

theorem consistent_new (zero : F64) : new.Consistent zero where
  ordered := OrdList.Ordered.nil
  nonempty b hb := absurd hb List.not_mem_nil
  score m x := by simp [new]

variable {zero : F64} {z w : SortedSetValue}

/-- One bucket for each score. -/
theorem Consistent.bucket_unique (hz : z.Consistent zero) {x : F64} {s t : Std.ExtTreeSet Bytes compare}
    (hs : (x, s) ∈ z.membersByScore) (ht : (x, t) ∈ z.membersByScore) : s = t := by
  have hx : F64.Ok zero x := hz.ordered.keys _ hs
  have hfind := (OrdList.find?_eq_some (F64.lawfulOn_cmp zero) hz.ordered hx).mpr hs
  have hfind' := (OrdList.find?_eq_some (F64.lawfulOn_cmp zero) hz.ordered hx).mpr ht
  exact Option.some_inj.mp (hfind.symm.trans hfind')

theorem Consistent.mem_bucket (hz : z.Consistent zero) {x : F64} {s : Std.ExtTreeSet Bytes compare}
    (hs : (x, s) ∈ z.membersByScore) (m : Bytes) : m ∈ s ↔ z.memberScores[m]? = some x := by
  rw [hz.score]
  constructor
  · intro hm
    exact ⟨(x, s), hs, rfl, hm⟩
  · rintro ⟨⟨y, t⟩, ht, rfl, hm⟩
    rw [hz.bucket_unique hs ht]
    exact hm

theorem Consistent.bucket_subset (hz : z.Consistent zero) (hw : w.Consistent zero)
    (h : z.memberScores = w.memberScores) {b : F64 × Std.ExtTreeSet Bytes compare}
    (hb : b ∈ z.membersByScore) : b ∈ w.membersByScore := by
  obtain ⟨x, s⟩ := b
  obtain ⟨m, hm⟩ := hz.nonempty _ hb
  have hscore : w.memberScores[m]? = some x := by
    rw [← h]
    exact (hz.mem_bucket hb m).mp hm
  obtain ⟨⟨y, t⟩, ht, rfl, -⟩ := (hw.score m x).mp hscore
  have hst : s = t := by
    apply Std.ExtTreeSet.ext_mem
    intro m'
    rw [hz.mem_bucket hb, hw.mem_bucket ht, h]
  rw [hst]
  exact ht

/-- **Extensionality.** Consistent sorted sets with the same scores are the same. -/
theorem Consistent.ext (hz : z.Consistent zero) (hw : w.Consistent zero)
    (h : z.memberScores = w.memberScores) (he : z.expiresAt = w.expiresAt) : z = w := by
  have hbuckets : z.membersByScore = w.membersByScore :=
    OrdList.Ordered.ext (F64.lawfulOn_cmp zero) hz.ordered hw.ordered fun b =>
      ⟨hz.bucket_subset hw h, hw.bucket_subset hz h.symm⟩
  obtain ⟨zb, zs, ze⟩ := z
  obtain ⟨wb, ws, we⟩ := w
  cases h
  cases he
  cases hbuckets
  rfl

/-! ## Adding a new member -/

/-- The members found at a score before an insertion. -/
theorem Consistent.mem_found (hz : z.Consistent zero) {x : F64} (hx : F64.Ok zero x) (m : Bytes) :
    m ∈ (OrdList.find? F64.cmp x z.membersByScore).getD ∅ ↔ z.memberScores[m]? = some x := by
  cases hfind : OrdList.find? F64.cmp x z.membersByScore with
  | some s =>
      have hs := (OrdList.find?_eq_some (F64.lawfulOn_cmp zero) hz.ordered hx).mp hfind
      exact hz.mem_bucket hs m
  | none =>
      constructor
      · intro hm
        exact absurd hm (by simp)
      · intro hscore
        obtain ⟨⟨y, s⟩, hs, rfl, -⟩ := (hz.score m x).mp hscore
        have hsome := (OrdList.find?_eq_some (F64.lawfulOn_cmp zero) hz.ordered hx).mpr hs
        rw [hfind] at hsome
        cases hsome

/-- Adding a member that is not there keeps the indexes consistent. -/
theorem Consistent.add_new (hz : z.Consistent zero) {x : F64} (hx : F64.Ok zero x) {m : Bytes}
    (hm : z.memberScores[m]? = none) : (z.add x m).Consistent zero := by
  have hadd : z.add x m = { z with
      memberScores := z.memberScores.insert m x
      membersByScore := addToBucket z.membersByScore x m } := by
    unfold add
    rw [hm]
  -- the bucket of the score has one more member, the other buckets are as before
  have hmem : ∀ y s, (y, s) ∈ addToBucket z.membersByScore x m ↔
      (y = x ∧ s = ((OrdList.find? F64.cmp x z.membersByScore).getD ∅).insert m) ∨
        (y ≠ x ∧ (y, s) ∈ z.membersByScore) := fun y s =>
    OrdList.mem_insert (F64.lawfulOn_cmp zero) hz.ordered hx
  rw [hadd]
  refine ⟨OrdList.ordered_insert (F64.lawfulOn_cmp zero) hz.ordered hx, ?_, ?_⟩
  · rintro ⟨y, s⟩ hs
    rcases (hmem y s).mp hs with ⟨-, rfl⟩ | ⟨-, hs'⟩
    · exact ⟨m, by simp⟩
    · exact hz.nonempty _ hs'
  · intro m' y
    show (z.memberScores.insert m x)[m']? = some y ↔
      ∃ b ∈ addToBucket z.membersByScore x m, b.1 = y ∧ m' ∈ b.2
    rw [Tables.getElem?_insert_eq]
    constructor
    · intro hscore
      by_cases hmm : m = m'
      · subst hmm
        rw [if_pos rfl] at hscore
        cases hscore
        exact ⟨_, (hmem _ _).mpr (Or.inl ⟨rfl, rfl⟩), rfl, by simp⟩
      · rw [if_neg hmm] at hscore
        by_cases hyx : y = x
        · subst hyx
          refine ⟨_, (hmem _ _).mpr (Or.inl ⟨rfl, rfl⟩), rfl, ?_⟩
          rw [Std.ExtTreeSet.mem_insert]
          exact Or.inr ((hz.mem_found hx m').mpr hscore)
        · obtain ⟨b, hb, hby, hmb⟩ := (hz.score m' y).mp hscore
          refine ⟨b, (hmem b.1 b.2).mpr (Or.inr ⟨?_, hb⟩), hby, hmb⟩
          rw [hby]
          exact hyx
    · rintro ⟨⟨y', s⟩, hs, rfl, hms⟩
      rcases (hmem y' s).mp hs with ⟨rfl, rfl⟩ | ⟨hne, hs'⟩
      · rw [Std.ExtTreeSet.mem_insert, Std.LawfulEqCmp.compare_eq_iff_eq, hz.mem_found hx] at hms
        rcases hms with rfl | hms
        · rw [if_pos rfl]
        · have hmm : m ≠ m' := by
            rintro rfl
            rw [hm] at hms
            cases hms
          rw [if_neg hmm]
          exact hms
      · have hms' := (hz.mem_bucket hs' m').mp hms
        have hmm : m ≠ m' := by
          rintro rfl
          rw [hm] at hms'
          cases hms'
        rw [if_neg hmm]
        exact hms'

/-- Adding new members, each once, in turn. -/
theorem Consistent.foldl_add {l : List (F64 × Bytes)} (hz : z.Consistent zero)
    (hok : ∀ p ∈ l, F64.Ok zero p.1) (hdist : l.Pairwise fun p q => p.2 ≠ q.2)
    (hnew : ∀ p ∈ l, z.memberScores[p.2]? = none) :
    (l.foldl (fun z p => z.add p.1 p.2) z).Consistent zero ∧
      (l.foldl (fun z p => z.add p.1 p.2) z).memberScores
        = Tables.insertAll z.memberScores (l.map Prod.swap) ∧
      (l.foldl (fun z p => z.add p.1 p.2) z).expiresAt = z.expiresAt := by
  induction l generalizing z with
  | nil => exact ⟨hz, rfl, rfl⟩
  | cons p l ih =>
      obtain ⟨hhead, htail⟩ := List.pairwise_cons.mp hdist
      have hfirst := hz.add_new (hok p (List.mem_cons_self ..)) (hnew p (List.mem_cons_self ..))
      refine ih hfirst (fun q hq => hok q (List.mem_cons_of_mem _ hq)) htail ?_
      intro q hq
      show (z.memberScores.insert p.2 p.1)[q.2]? = none
      rw [Tables.getElem?_insert_eq, if_neg (hhead q hq)]
      exact hnew q (List.mem_cons_of_mem _ hq)

/-! ## The listing -/

theorem mem_listing {pos : Bytes → Nat} {x : F64} {m : Bytes} :
    (x, m) ∈ z.listing pos ↔ ∃ b ∈ z.membersByScore, b.1 = x ∧ m ∈ b.2 := by
  simp only [listing, List.mem_flatMap, List.mem_map, mem_iterate, Std.ExtTreeSet.mem_toList,
    Prod.mk.injEq]
  constructor
  · rintro ⟨b, hb, m', hm', rfl, rfl⟩
    exact ⟨b, hb, rfl, hm'⟩
  · rintro ⟨b, hb, rfl, hm⟩
    exact ⟨b, hb, m, hm, rfl, rfl⟩

/-- No member is listed twice. -/
theorem Consistent.listing_distinct (hz : z.Consistent zero) (pos : Bytes → Nat) :
    (z.listing pos).Pairwise fun p q => p.2 ≠ q.2 := by
  unfold listing
  rw [List.pairwise_flatMap]
  constructor
  · intro b hb
    rw [List.pairwise_map]
    have hdist : b.2.toList.Pairwise fun m m' => m ≠ m' := by
      refine b.2.distinct_toList.imp ?_
      intro m m' hne he
      exact hne (by rw [he]; exact Std.ReflCmp.compare_self)
    exact ((iterate_perm pos id b.2.toList).pairwise_iff fun {_ _} hne he => hne he.symm).mpr hdist
  · refine hz.ordered.pairwise.imp_of_mem ?_
    rintro ⟨x, s⟩ ⟨y, t⟩ hs ht hlt p hp q hq hpq
    simp only [List.mem_map, mem_iterate, Std.ExtTreeSet.mem_toList] at hp hq
    obtain ⟨m, hm, rfl⟩ := hp
    obtain ⟨m', hm', rfl⟩ := hq
    obtain rfl : m = m' := hpq
    have hx := (hz.mem_bucket hs m).mp hm
    have hy := (hz.mem_bucket ht m).mp hm'
    have hxy : x = y := Option.some_inj.mp (hx.symm.trans hy)
    subst hxy
    rw [F64.cmp_self] at hlt
    cases hlt

/-- **A consistent sorted set is rebuilt from its listing.** -/
theorem Consistent.foldl_add_listing (hz : z.Consistent zero) (he : z.expiresAt = none)
    (pos : Bytes → Nat) : (z.listing pos).foldl (fun z p => z.add p.1 p.2) new = z := by
  have hok : ∀ p ∈ z.listing pos, F64.Ok zero p.1 := by
    rintro ⟨x, m⟩ hp
    obtain ⟨b, hb, rfl, -⟩ := mem_listing.mp hp
    exact hz.ordered.keys b hb
  obtain ⟨hcons, hscores, hexp⟩ := (consistent_new zero).foldl_add hok (hz.listing_distinct pos)
    (fun _ _ => by simp [new])
  refine hcons.ext hz ?_ (hexp.trans he.symm)
  rw [hscores]
  apply Std.ExtTreeMap.ext_getElem?
  intro m
  apply Option.ext
  intro x
  have hdist : ((z.listing pos).map Prod.swap).Pairwise fun p q => p.1 ≠ q.1 := by
    rw [List.pairwise_map]
    exact hz.listing_distinct pos
  have hmem : (m, x) ∈ (z.listing pos).map Prod.swap ↔ (x, m) ∈ z.listing pos := by
    simp only [List.mem_map, Prod.exists, Prod.swap_prod_mk, Prod.mk.injEq]
    constructor
    · rintro ⟨x', m', h, rfl, rfl⟩
      exact h
    · intro h
      exact ⟨x, m, h, rfl, rfl⟩
  rw [Tables.getElem?_insertAll hdist, hmem, mem_listing, hz.score]
  simp [new]

/-! ## The range -/

/-- What `get_range` returns of a listed member. -/
def shown (withScores : Bool) (p : F64 × Bytes) : Bytes × Option F64 := (p.2, if withScores then some p.1 else none)

/-- The counting loop of `get_range` takes the elements between its two bounds. -/
theorem rangeLoop_eq {start stop count : Nat} {withScores : Bool} {l : List (F64 × Bytes)} (h : count ≤ stop) :
    rangeLoop start stop withScores count l
      = ((l.map (shown withScores)).drop (start - count)).take (stop + 1 - max start count) := by
  induction l generalizing count with
  | nil => simp [rangeLoop]
  | cons p l ih =>
      obtain ⟨x, m⟩ := p
      rw [rangeLoop, List.map_cons]
      by_cases hstart : start ≤ count
      · have htake : stop + 1 - max start count = stop - count + 1 := by omega
        have hhit : start ≤ count ∧ count ≤ stop := ⟨hstart, h⟩
        rw [if_pos hhit, Nat.sub_eq_zero_of_le hstart, List.drop_zero, htake, List.take_succ_cons]
        by_cases hlast : stop < count + 1
        · have hzero : stop - count = 0 := by omega
          rw [if_pos hlast, hzero, List.take_zero]
          rfl
        · have hrest : stop + 1 - max start (count + 1) = stop - count := by omega
          have hdrop : start - (count + 1) = 0 := by omega
          rw [if_neg hlast, ih (by omega), hrest, hdrop, List.drop_zero]
          rfl
      · have hmiss : ¬ (start ≤ count ∧ count ≤ stop) := fun hh => hstart hh.1
        have hdrop : start - count = (start - (count + 1)) + 1 := by omega
        rw [if_neg hmiss, hdrop, List.drop_succ_cons]
        by_cases hlast : stop < count + 1
        · have hzero : stop + 1 - max start count = 0 := by omega
          rw [if_pos hlast, hzero, List.take_zero]
        · have hmax : max start count = max start (count + 1) := by omega
          rw [if_neg hlast, ih (by omega), List.nil_append, hmax]

/-- `get_range` cuts its listing at its two bounds. -/
theorem getRange_eq (pos : Bytes → Nat) (z : SortedSetValue) (start stop : Nat) (withScores : Bool) :
    z.getRange pos start stop withScores
      = (((z.listing pos).map (shown withScores)).drop start).take (stop + 1 - start) := by
  rw [getRange, rangeLoop_eq (Nat.zero_le _), Nat.sub_zero, Nat.max_zero]

/-- `get_range(0, usize::MAX, true)` lists everything. -/
theorem rangeLoop_all {stop count : Nat} {l : List (F64 × Bytes)} (h : count + l.length ≤ stop + 1) :
    rangeLoop 0 stop true count l = l.map fun p => (p.2, some p.1) := by
  by_cases hcount : count ≤ stop
  · rw [rangeLoop_eq hcount, Nat.zero_sub, List.drop_zero, List.take_of_length_le]
    · rfl
    · rw [List.length_map]
      omega
  · have hnil : l = [] := List.eq_nil_of_length_eq_zero (by omega)
    rw [hnil]
    rfl

end SortedSetValue

end FerricCache
