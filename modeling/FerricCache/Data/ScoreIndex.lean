import FerricCache.Data.SortedSet

/-!
# `FerricCache.Data.ScoreIndex` — the indexes of a sorted set under every operation

`add` and `remove` keep a sorted set consistent as long as only one of the two zeros is used as a score
(`Consistent.add`, `Consistent.remove`). With both, a member added at `0` joins the bucket of `-0` if that
is the one that exists: the bucket and `memberScores` then name different zeros. **Up to the sign of zero**
(`norm`) the indexes always agree, which is the invariant `Indexed`; they agree exactly when the sorted set
is `Settled`, and then and only then does its listing rebuild it (`rebuilt_eq_iff`).
-/

namespace FerricCache

open Lib

/-! ## The sign of zero -/

/-- The value with `-0` read as `0`. -/
def F64.norm : F64 → F64
  | .negZero => .fin 0
  | x => x

theorem F64.cmp_norm (a b : F64) : cmp (norm a) (norm b) = cmp a b := by
  cases a <;> cases b <;> simp [norm, cmp, partialCmp]

theorem F64.ok_norm {x : F64} (h : x ≠ nan) : Ok (fin 0) (norm x) := by
  constructor
  · cases x <;> simp_all [norm]
  · cases x <;> simp [norm]

namespace SortedSetValue

variable {zero : F64} {z : SortedSetValue}

/-! ## Removing a member -/

/-- What is left in the buckets once `m` is taken out of the bucket of its score. -/
theorem Consistent.mem_dropFromBucket (hz : z.Consistent zero) {x : F64} {m : Bytes}
    (hm : z.memberScores[m]? = some x) {y : F64} {t : Std.ExtTreeSet Bytes compare} :
    (y, t) ∈ dropFromBucket z.membersByScore x m ↔
      (y ≠ x ∧ (y, t) ∈ z.membersByScore) ∨
        (y = x ∧ t ≠ ∅ ∧ ∃ s, (x, s) ∈ z.membersByScore ∧ t = s.erase m) := by
  obtain ⟨⟨x', s⟩, hs, rfl, -⟩ := (hz.score m x).mp hm
  have hx : F64.Ok zero x' := hz.ordered.keys _ hs
  have hfind := (OrdList.find?_eq_some (F64.lawfulOn_cmp zero) hz.ordered hx).mpr hs
  unfold dropFromBucket
  rw [hfind]
  dsimp only
  by_cases hempty : (s.erase m).isEmpty = true
  · rw [if_pos hempty, OrdList.mem_erase (F64.lawfulOn_cmp zero) hz.ordered hx]
    constructor
    · exact Or.inl
    · rintro (h | ⟨rfl, hne, s', hs', rfl⟩)
      · exact h
      · rw [hz.bucket_unique hs' hs] at hne
        exact absurd (Std.ExtTreeSet.isEmpty_iff.mp hempty) hne
  · rw [if_neg hempty, OrdList.mem_insert (F64.lawfulOn_cmp zero) hz.ordered hx]
    constructor
    · rintro (⟨rfl, rfl⟩ | h)
      · exact Or.inr ⟨rfl, fun h => hempty (Std.ExtTreeSet.isEmpty_iff.mpr h), s, hs, rfl⟩
      · exact Or.inl h
    · rintro (h | ⟨rfl, -, s', hs', rfl⟩)
      · exact Or.inr h
      · rw [hz.bucket_unique hs' hs]
        exact Or.inl ⟨rfl, rfl⟩

theorem ordered_dropFromBucket {x : F64} {m : Bytes} (hz : z.Consistent zero)
    (hx : F64.Ok zero x) :
    OrdList.Ordered F64.cmp (F64.Ok zero) (dropFromBucket z.membersByScore x m) := by
  unfold dropFromBucket
  split
  · split
    · exact OrdList.ordered_erase hz.ordered
    · exact OrdList.ordered_insert (F64.lawfulOn_cmp zero) hz.ordered hx
  · exact hz.ordered

/-- A member that is in a bucket after the removal of `m` is another one, in the bucket it was in. -/
theorem Consistent.mem_remaining (hz : z.Consistent zero) {x : F64} {m : Bytes}
    (hm : z.memberScores[m]? = some x) {m' : Bytes} {y : F64} :
    (∃ b ∈ dropFromBucket z.membersByScore x m, b.1 = y ∧ m' ∈ b.2) ↔
      m ≠ m' ∧ z.memberScores[m']? = some y := by
  constructor
  · rintro ⟨⟨y, t⟩, hb, rfl, hm'⟩
    rcases (hz.mem_dropFromBucket hm).mp hb with ⟨hne, hb'⟩ | ⟨rfl, -, s, hs, rfl⟩
    · have hscore := (hz.mem_bucket hb' m').mp hm'
      refine ⟨?_, hscore⟩
      rintro rfl
      exact hne (Option.some_inj.mp (hscore.symm.trans hm))
    · rw [Std.ExtTreeSet.mem_erase] at hm'
      refine ⟨fun he => hm'.1 (Std.LawfulEqCmp.compare_eq_iff_eq.mpr he), ?_⟩
      exact (hz.mem_bucket hs m').mp hm'.2
  · rintro ⟨hne, hscore⟩
    obtain ⟨⟨y', s⟩, hs, rfl, hm'⟩ := (hz.score m' y).mp hscore
    by_cases hyx : y' = x
    · subst hyx
      have hin : m' ∈ s.erase m := by
        rw [Std.ExtTreeSet.mem_erase]
        exact ⟨fun he => hne (Std.LawfulEqCmp.compare_eq_iff_eq.mp he), hm'⟩
      refine ⟨(y', s.erase m), (hz.mem_dropFromBucket hm).mpr (Or.inr ⟨rfl, ?_, s, hs, rfl⟩), rfl, hin⟩
      intro hempty
      rw [hempty] at hin
      exact absurd hin Std.ExtTreeSet.not_mem_empty
    · exact ⟨(y', s), (hz.mem_dropFromBucket hm).mpr (Or.inl ⟨hyx, hs⟩), rfl, hm'⟩

/-- **Removing a member keeps the indexes consistent.** -/
theorem Consistent.remove (hz : z.Consistent zero) (m : Bytes) : (z.remove m).Consistent zero := by
  unfold SortedSetValue.remove
  cases hm : z.memberScores[m]? with
  | none => exact hz
  | some x =>
      obtain ⟨b, hb, hbx, -⟩ := (hz.score m x).mp hm
      have hx : F64.Ok zero x := hbx ▸ hz.ordered.keys b hb
      refine ⟨ordered_dropFromBucket hz hx, ?_, ?_⟩
      · rintro ⟨y, t⟩ ht
        rcases (hz.mem_dropFromBucket hm).mp ht with ⟨-, ht'⟩ | ⟨-, hne, -⟩
        · exact hz.nonempty _ ht'
        · by_contra hno
          push Not at hno
          exact hne (Std.ExtTreeSet.eq_empty_iff_forall_not_mem.mpr hno)
      · intro m' y
        show (z.memberScores.erase m)[m']? = some y ↔ _
        rw [hz.mem_remaining hm, Std.ExtTreeMap.getElem?_erase]
        by_cases hmm : m = m'
        · rw [if_pos (Std.LawfulEqCmp.compare_eq_iff_eq.mpr hmm)]
          simp [hmm]
        · rw [if_neg fun h => hmm (Std.LawfulEqCmp.compare_eq_iff_eq.mp h)]
          simp [hmm]

theorem getElem?_remove_self (z : SortedSetValue) (m : Bytes) :
    (z.remove m).memberScores[m]? = none := by
  unfold remove
  cases hm : z.memberScores[m]? with
  | none => exact hm
  | some x => exact Std.ExtTreeMap.getElem?_erase_self

/-- Adding a known member is removing it and adding it anew. -/
theorem add_remove (z : SortedSetValue) (x : F64) (m : Bytes) : (z.remove m).add x m = z.add x m := by
  have hnone := z.getElem?_remove_self m
  cases hm : z.memberScores[m]? with
  | none => rw [show z.remove m = z by unfold remove; rw [hm]]
  | some old =>
      have hremove : z.remove m = { z with
          memberScores := z.memberScores.erase m
          membersByScore := dropFromBucket z.membersByScore old m } := by
        unfold remove
        rw [hm]
      rw [hremove] at hnone ⊢
      unfold add
      rw [hnone, hm]
      have hscores : (z.memberScores.erase m).insert m x = z.memberScores.insert m x := by
        apply Std.ExtTreeMap.ext_getElem?
        intro m'
        rw [Tables.getElem?_insert_eq, Tables.getElem?_insert_eq, Std.ExtTreeMap.getElem?_erase]
        split
        · rfl
        · rename_i hne
          rw [if_neg fun h => hne (Std.LawfulEqCmp.compare_eq_iff_eq.mp h)]
      simp only [hscores]

/-- **Adding a member keeps the indexes consistent**, whether or not it was there. -/
theorem Consistent.add (hz : z.Consistent zero) {x : F64} (hx : F64.Ok zero x) (m : Bytes) :
    (z.add x m).Consistent zero := by
  rw [← add_remove]
  exact (hz.remove m).add_new hx (z.getElem?_remove_self m)

/-! ## Up to the sign of zero -/

/-- The sorted set with every `-0` read as `0`. -/
def norm (z : SortedSetValue) : SortedSetValue where
  membersByScore := z.membersByScore.map (Prod.map F64.norm id)
  memberScores := z.memberScores.map fun _ => F64.norm
  expiresAt := z.expiresAt

theorem getElem?_norm (z : SortedSetValue) (m : Bytes) :
    z.norm.memberScores[m]? = z.memberScores[m]?.map F64.norm := Std.ExtTreeMap.getElem?_map

theorem dropFromBucket_norm (buckets : List (F64 × Std.ExtTreeSet Bytes)) (x : F64) (m : Bytes) :
    dropFromBucket (buckets.map (Prod.map F64.norm id)) x.norm m
      = (dropFromBucket buckets x m).map (Prod.map F64.norm id) := by
  unfold dropFromBucket
  rw [OrdList.find?_map F64.cmp_norm]
  cases OrdList.find? F64.cmp x buckets with
  | none => rfl
  | some members =>
      dsimp only
      rw [OrdList.erase_map F64.cmp_norm, OrdList.insert_map F64.cmp_norm]
      exact (apply_ite _ _ _ _).symm

theorem addToBucket_norm (buckets : List (F64 × Std.ExtTreeSet Bytes)) (x : F64) (m : Bytes) :
    addToBucket (buckets.map (Prod.map F64.norm id)) x.norm m
      = (addToBucket buckets x m).map (Prod.map F64.norm id) := by
  unfold addToBucket
  rw [OrdList.find?_map F64.cmp_norm, OrdList.insert_map F64.cmp_norm]

theorem map_erase_norm (scores : Std.ExtTreeMap Bytes F64) (m : Bytes) :
    (scores.erase m).map (fun _ => F64.norm) = (scores.map fun _ => F64.norm).erase m := by
  apply Std.ExtTreeMap.ext_getElem?
  intro m'
  simp only [Std.ExtTreeMap.getElem?_map, Std.ExtTreeMap.getElem?_erase]
  split <;> rfl

theorem map_insert_norm (scores : Std.ExtTreeMap Bytes F64) (x : F64) (m : Bytes) :
    (scores.insert m x).map (fun _ => F64.norm) = (scores.map fun _ => F64.norm).insert m x.norm := by
  apply Std.ExtTreeMap.ext_getElem?
  intro m'
  simp only [Std.ExtTreeMap.getElem?_map, Std.ExtTreeMap.getElem?_insert]
  split <;> rfl

/-- The operations do not see the sign of zero. -/
theorem norm_remove (z : SortedSetValue) (m : Bytes) : (z.remove m).norm = z.norm.remove m := by
  unfold remove
  rw [getElem?_norm]
  cases hm : z.memberScores[m]? with
  | none => rfl
  | some x => simp only [norm, Option.map_some, dropFromBucket_norm, map_erase_norm]

theorem norm_add (z : SortedSetValue) (x : F64) (m : Bytes) :
    (z.add x m).norm = z.norm.add x.norm m := by
  unfold add
  rw [getElem?_norm]
  cases hm : z.memberScores[m]? with
  | none => simp only [norm, Option.map_none, addToBucket_norm, map_insert_norm]
  | some old =>
      simp only [norm, Option.map_some, addToBucket_norm, dropFromBucket_norm, map_insert_norm]

/-- **The invariant of sorted sets without NaN**: up to the sign of zero, the indexes agree. -/
def Indexed (z : SortedSetValue) : Prop := z.norm.Consistent (.fin 0)

theorem indexed_new : new.Indexed := consistent_new (.fin 0)

theorem Indexed.add (hz : z.Indexed) {x : F64} (hx : x ≠ .nan) (m : Bytes) : (z.add x m).Indexed := by
  unfold Indexed
  rw [norm_add]
  exact Consistent.add hz (F64.ok_norm hx) m

theorem Indexed.remove (hz : z.Indexed) (m : Bytes) : (z.remove m).Indexed := by
  unfold Indexed
  rw [norm_remove]
  exact Consistent.remove hz m

theorem popLoop_invariant {P : SortedSetValue → Prop} (hP : ∀ z m, P z → P (z.remove m))
    (pos : Bytes → Nat)
    (pick : List (F64 × Std.ExtTreeSet Bytes) → Option (F64 × Std.ExtTreeSet Bytes)) (n : Nat)
    {z : SortedSetValue} (hz : P z) : P (popLoop pos pick n z).2 := by
  induction n generalizing z with
  | zero => exact hz
  | succ n ih =>
      rw [popLoop]
      split
      · split
        · exact ih (hP z _ hz)
        · exact hz
      · exact hz

/-! ## What the listing rebuilds -/

/-- Each member has exactly the score of its bucket, the sign of zero included. -/
def Settled (z : SortedSetValue) : Prop :=
  ∀ b ∈ z.membersByScore, ∀ m ∈ b.2, z.memberScores[m]? = some b.1

/-- The bucket a member is in. -/
theorem Indexed.bucket_of_score (hz : z.Indexed) {m : Bytes} {x : F64} (hm : z.memberScores[m]? = some x) :
    ∃ b ∈ z.membersByScore, b.1.norm = x.norm ∧ m ∈ b.2 := by
  have hscore : z.norm.memberScores[m]? = some x.norm := by rw [getElem?_norm, hm]; rfl
  obtain ⟨b', hb', hbx, hmb⟩ := (hz.score m x.norm).mp hscore
  obtain ⟨b, hb, rfl⟩ := List.mem_map.mp hb'
  exact ⟨b, hb, hbx, hmb⟩

/-- A member of a bucket has a score. -/
theorem Indexed.score_of_bucket (hz : z.Indexed) {b : F64 × Std.ExtTreeSet Bytes compare}
    (hb : b ∈ z.membersByScore) {m : Bytes} (hm : m ∈ b.2) :
    ∃ x, z.memberScores[m]? = some x ∧ x.norm = b.1.norm := by
  have hscore := (hz.score m b.1.norm).mpr ⟨_, List.mem_map_of_mem hb, rfl, hm⟩
  rw [getElem?_norm] at hscore
  exact Option.map_eq_some_iff.mp hscore

theorem Indexed.pairwise (hz : z.Indexed) :
    z.membersByScore.Pairwise fun b c => F64.cmp b.1 c.1 = .lt := by
  have h := hz.ordered.pairwise
  rw [norm, List.pairwise_map] at h
  refine h.imp ?_
  intro b c hlt
  rw [← F64.cmp_norm]
  exact hlt

/-- One bucket for each score, the two zeros being one score. -/
theorem Indexed.bucket_eq (hz : z.Indexed) {b c : F64 × Std.ExtTreeSet Bytes compare}
    (hb : b ∈ z.membersByScore) (hc : c ∈ z.membersByScore) (h : F64.cmp b.1 c.1 = .eq) : b = c := by
  by_contra hne
  have hapart : z.membersByScore.Pairwise fun b c => F64.cmp b.1 c.1 ≠ .eq := by
    refine hz.pairwise.imp ?_
    intro x y hlt heq
    rw [hlt] at heq
    cases heq
  have hsymm : Std.Symm fun b c : F64 × Std.ExtTreeSet Bytes compare => F64.cmp b.1 c.1 ≠ .eq := by
    constructor
    intro x y hxy hyx
    rw [← F64.cmp_swap, hyx] at hxy
    exact hxy rfl
  exact hapart.forall hb hc hne h

theorem Indexed.ne_nan (hz : z.Indexed) {b : F64 × Std.ExtTreeSet Bytes compare}
    (hb : b ∈ z.membersByScore) : b.1 ≠ .nan := by
  have hok : F64.Ok (.fin 0) b.1.norm := hz.ordered.keys _ (List.mem_map_of_mem hb)
  intro hnan
  rw [hnan] at hok
  exact hok.ne_nan rfl

/-- The buckets use one of the two zeros at most. -/
theorem Indexed.one_zero (hz : z.Indexed) : ∃ zero, ∀ b ∈ z.membersByScore, F64.Ok zero b.1 := by
  by_cases hneg : ∃ c ∈ z.membersByScore, c.1 = .negZero
  · obtain ⟨c, hc, hcz⟩ := hneg
    refine ⟨.negZero, fun b hb => ⟨hz.ne_nan hb, ?_⟩⟩
    intro hzero
    have heq : F64.cmp b.1 c.1 = .eq := by
      rw [hcz]
      rcases hzero with h | h <;> rw [h] <;> rfl
    rw [hz.bucket_eq hb hc heq, hcz]
  · refine ⟨.fin 0, fun b hb => ⟨hz.ne_nan hb, ?_⟩⟩
    rintro (h | h)
    · exact absurd ⟨b, hb, h⟩ hneg
    · exact h

/-- A settled sorted set is consistent. -/
theorem Indexed.consistent (hz : z.Indexed) (hs : z.Settled) : ∃ zero, z.Consistent zero := by
  obtain ⟨zero, hzero⟩ := hz.one_zero
  refine ⟨zero, ⟨hzero, hz.pairwise⟩, ?_, ?_⟩
  · intro b hb
    exact hz.nonempty (Prod.map F64.norm id b) (List.mem_map_of_mem hb)
  · intro m x
    constructor
    · intro hm
      obtain ⟨b, hb, -, hmb⟩ := hz.bucket_of_score hm
      exact ⟨b, hb, Option.some_inj.mp ((hs b hb m hmb).symm.trans hm), hmb⟩
    · rintro ⟨b, hb, rfl, hmb⟩
      exact hs b hb m hmb

theorem listing_norm (pos : Bytes → Nat) (z : SortedSetValue) :
    z.norm.listing pos = (z.listing pos).map (Prod.map F64.norm id) := by
  simp only [listing, norm, List.flatMap_map, List.map_flatMap, List.map_map, Prod.map, id]
  rfl

theorem Indexed.listing_distinct (hz : z.Indexed) (pos : Bytes → Nat) :
    (z.listing pos).Pairwise fun p q => p.2 ≠ q.2 := by
  have h := Consistent.listing_distinct hz pos
  rw [listing_norm, List.pairwise_map] at h
  exact h

/-- The listing lists the members, each once. -/
theorem Indexed.listing_perm (hz : z.Indexed) (pos : Bytes → Nat) :
    ((z.listing pos).map Prod.snd).Perm z.memberScores.keys := by
  have hnodup : ((z.listing pos).map Prod.snd).Nodup := by
    rw [List.Nodup, List.pairwise_map]
    exact hz.listing_distinct pos
  rw [List.perm_ext_iff_of_nodup hnodup Std.ExtTreeMap.nodup_keys]
  intro m
  rw [Std.ExtTreeMap.mem_keys, ← Std.ExtTreeMap.isSome_getElem?_iff_mem, Option.isSome_iff_exists, List.mem_map]
  constructor
  · rintro ⟨⟨x, m⟩, hp, rfl⟩
    obtain ⟨b, hb, -, hmb⟩ := mem_listing.mp hp
    obtain ⟨y, hy, -⟩ := hz.score_of_bucket hb hmb
    exact ⟨y, hy⟩
  · rintro ⟨x, hx⟩
    obtain ⟨b, hb, -, hmb⟩ := hz.bucket_of_score hx
    exact ⟨(b.1, m), mem_listing.mpr ⟨b, hb, rfl, hmb⟩, rfl⟩

theorem Indexed.length_listing (hz : z.Indexed) (pos : Bytes → Nat) : (z.listing pos).length = z.len := by
  have h := (hz.listing_perm pos).length_eq
  rw [List.length_map, Std.ExtTreeMap.length_keys] at h
  exact h

/-- A sorted set lists nothing exactly when it has no members. -/
theorem Indexed.listing_eq_nil_iff (hz : z.Indexed) (pos : Bytes → Nat) :
    z.listing pos = [] ↔ z.memberScores = ∅ := by
  rw [List.eq_nil_iff_forall_not_mem, Std.ExtTreeMap.eq_empty_iff_forall_not_mem]
  constructor
  · intro hnil m hm
    obtain ⟨x, hx⟩ : ∃ x, z.memberScores[m]? = some x :=
      ⟨_, Std.ExtTreeMap.getElem?_eq_some_getElem hm⟩
    obtain ⟨b, hb, -, hmb⟩ := hz.bucket_of_score hx
    exact hnil (b.1, m) (mem_listing.mpr ⟨b, hb, rfl, hmb⟩)
  · rintro hnone ⟨x, m⟩ hp
    obtain ⟨b, hb, -, hmb⟩ := mem_listing.mp hp
    obtain ⟨y, hy, -⟩ := hz.score_of_bucket hb hmb
    exact hnone m (Std.ExtTreeMap.isSome_getElem?_iff_mem.mp (by rw [hy]; rfl))

theorem foldl_add_scores (l : List (F64 × Bytes)) (z : SortedSetValue) :
    (l.foldl (fun z p => z.add p.1 p.2) z).memberScores
      = Tables.insertAll z.memberScores (l.map Prod.swap) := by
  induction l generalizing z with
  | nil => rfl
  | cons p l ih => exact ih (z.add p.1 p.2)

/-- **The listing rebuilds a sorted set exactly when it is settled.** -/
theorem Indexed.rebuilt_eq_iff (hz : z.Indexed) (he : z.expiresAt = none) (pos : Bytes → Nat) :
    (z.listing pos).foldl (fun z p => z.add p.1 p.2) new = z ↔ z.Settled := by
  constructor
  · intro heq b hb m hm
    have hscores := congrArg memberScores heq
    rw [foldl_add_scores] at hscores
    have hdist : ((z.listing pos).map Prod.swap).Pairwise fun p q => p.1 ≠ q.1 := by
      rw [List.pairwise_map]
      exact hz.listing_distinct pos
    rw [← hscores, Tables.getElem?_insertAll hdist]
    exact Or.inl (List.mem_map.mpr ⟨(b.1, m), mem_listing.mpr ⟨b, hb, rfl, hm⟩, rfl⟩)
  · intro hs
    obtain ⟨zero, hcons⟩ := hz.consistent hs
    exact hcons.foldl_add_listing he pos

end SortedSetValue

end FerricCache
