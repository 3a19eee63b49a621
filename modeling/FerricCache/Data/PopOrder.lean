import FerricCache.Data.ScoreIndex

/-!
# `FerricCache.Data.PopOrder` — what the pops leave of a sorted set

`pop_min` and `pop_max` take the members of the first (last) bucket in the order its table lists them, so which of
several members with one score go is a matter of that order. When the count does not stop inside such a group
(`Uncut`), what is left is a function of the scores alone: `popLoop_scores`.
-/

namespace FerricCache

theorem F64.norm_eq_of_cmp_eq {a b : F64} (ha : a ≠ nan) (hb : b ≠ nan) (h : cmp a b = .eq) : norm a = norm b := by
  rcases eq_or_zero_of_cmp_eq ha hb h with rfl | ⟨hza, hzb⟩
  · rfl
  · rcases hza with rfl | rfl <;> rcases hzb with rfl | rfl <;> rfl

/-- Scores that compare equal compare alike with every score. -/
theorem F64.cmp_congr {a b : F64} (c : F64) (ha : a ≠ nan) (hb : b ≠ nan) (h : cmp a b = .eq) : cmp c a = cmp c b := by
  rw [← cmp_norm c a, ← cmp_norm c b, norm_eq_of_cmp_eq ha hb h]

namespace SortedSetValue

/-- How many members have a score that compares this way with `x`. -/
def tally (o : Ordering) (scores : Std.ExtTreeMap Bytes F64) (x : F64) : Nat :=
  (scores.filter fun _ y => F64.cmp y x = o).size

/-- The count does not stop inside a group of members with one score; `o` is the way the members that go first
    compare with the others. -/
def Uncut (o : Ordering) (n : Nat) (scores : Std.ExtTreeMap Bytes F64) : Prop :=
  ∀ (m : Bytes) (x : F64), scores[m]? = some x → ¬ (tally o scores x < n ∧ n < tally o scores x + tally .eq scores x)

/-! ## The tally without a member -/

theorem filter_erase (p : Bytes → F64 → Bool) (scores : Std.ExtTreeMap Bytes F64) (m : Bytes) :
    (scores.erase m).filter p = (scores.filter p).erase m := by
  apply Std.ExtTreeMap.ext_getElem?
  intro k
  simp only [Std.ExtTreeMap.getElem?_filter', Std.ExtTreeMap.getElem?_erase]
  split <;> rfl

/-- Taking out a member changes the tallies it counts in by one. -/
theorem tally_erase {scores : Std.ExtTreeMap Bytes F64} {m : Bytes} {x : F64} (hm : scores[m]? = some x)
    (o : Ordering) (y : F64) :
    tally o (scores.erase m) y = if F64.cmp x y = o then tally o scores y - 1 else tally o scores y := by
  unfold tally
  rw [filter_erase, Std.ExtTreeMap.size_erase]
  have hmem : (scores.filter fun _ y' => decide (F64.cmp y' y = o)).contains m = true ↔ F64.cmp x y = o := by
    rw [Std.ExtTreeMap.contains_iff_mem, ← Std.ExtTreeMap.isSome_getElem?_iff_mem,
      Std.ExtTreeMap.getElem?_filter', hm]
    simp [Option.filter]
  by_cases ho : F64.cmp x y = o
  · rw [if_pos ho, if_pos (hmem.mpr ho)]
  · rw [if_neg ho, if_neg fun h => ho (hmem.mp h)]

/-- A member that compares this way counts. -/
theorem tally_pos {scores : Std.ExtTreeMap Bytes F64} {m : Bytes} {x : F64} (hm : scores[m]? = some x)
    {o : Ordering} {y : F64} (ho : F64.cmp x y = o) : 0 < tally o scores y := by
  unfold tally
  by_contra hzero
  have hempty : scores.filter (fun _ y' => decide (F64.cmp y' y = o)) = ∅ := by
    rw [Std.ExtTreeMap.eq_empty_iff_size_eq_zero]
    omega
  have hget : (scores.filter fun _ y' => decide (F64.cmp y' y = o))[m]? = some x := by
    simp [hm, ho]
  rw [hempty] at hget
  simp at hget

theorem tally_eq_zero {scores : Std.ExtTreeMap Bytes F64} {o : Ordering} {y : F64}
    (h : ∀ (m : Bytes) (x : F64), scores[m]? = some x → F64.cmp x y ≠ o) : tally o scores y = 0 := by
  unfold tally
  rw [← Std.ExtTreeMap.eq_empty_iff_size_eq_zero]
  apply Std.ExtTreeMap.ext_getElem?
  intro m
  rw [Std.ExtTreeMap.getElem?_filter']
  cases hm : scores[m]? with
  | none => simp
  | some x => simp [h m x hm]

/-! ## One pop -/

/-- The pick is the bucket whose score comes first, the first one for `lt` and the last for `gt`. -/
structure Picks (o : Ordering)
    (pick : List (F64 × Std.ExtTreeSet Bytes) → Option (F64 × Std.ExtTreeSet Bytes)) : Prop where
  ne_eq : o ≠ .eq
  none : ∀ buckets, pick buckets = none → buckets = []
  first : ∀ buckets b, buckets.Pairwise (fun b c => F64.cmp b.1 c.1 = .lt) → pick buckets = some b →
    b ∈ buckets ∧ ∀ c ∈ buckets, c = b ∨ F64.cmp b.1 c.1 = o

theorem picks_head : Picks .lt List.head? where
  ne_eq h := by cases h
  none buckets h := List.head?_eq_none_iff.mp h
  first buckets b hpairs h := by
    cases buckets with
    | nil => cases h
    | cons c buckets =>
        cases h
        refine ⟨List.mem_cons_self, fun d hd => ?_⟩
        rcases List.mem_cons.mp hd with rfl | hd
        · exact Or.inl rfl
        · exact Or.inr ((List.pairwise_cons.mp hpairs).1 d hd)

theorem picks_getLast : Picks .gt List.getLast? where
  ne_eq h := by cases h
  none buckets h := List.getLast?_eq_none_iff.mp h
  first buckets b hpairs h := by
    obtain ⟨ys, rfl⟩ := List.getLast?_eq_some_iff.mp h
    refine ⟨List.mem_append_right _ (List.mem_singleton_self b), fun d hd => ?_⟩
    rcases List.mem_append.mp hd with hd | hd
    · right
      have hlt := (List.pairwise_append.mp hpairs).2.2 d hd b (List.mem_singleton_self b)
      rw [← F64.cmp_swap, hlt]
      rfl
    · exact Or.inl (List.mem_singleton.mp hd)

variable {z : SortedSetValue} {o : Ordering}
  {pick : List (F64 × Std.ExtTreeSet Bytes) → Option (F64 × Std.ExtTreeSet Bytes)}

theorem Indexed.score_ne_nan (hz : z.Indexed) {m : Bytes} {x : F64} (hm : z.memberScores[m]? = some x) : x ≠ .nan := by
  obtain ⟨b, hb, hbx, -⟩ := hz.bucket_of_score hm
  have hne := hz.ne_nan hb
  rintro rfl
  cases hb1 : b.1 with
  | nan => exact hne hb1
  | negInf | negZero | fin _ | posInf =>
      rw [hb1] at hbx
      cases hbx

/-- A member of the picked bucket comes first: any other has its score, or comes after it. -/
theorem Indexed.picked_first (hz : z.Indexed) (hpick : Picks o pick) {b : F64 × Std.ExtTreeSet Bytes}
    (hb : pick z.membersByScore = some b) {m m' : Bytes} (hm : m ∈ b.2) {x y : F64}
    (hx : z.memberScores[m]? = some x) (hy : z.memberScores[m']? = some y) : F64.cmp x y = .eq ∨ F64.cmp x y = o := by
  obtain ⟨hmem, hfirst⟩ := hpick.first _ b hz.pairwise hb
  obtain ⟨x', hx', hxb⟩ := hz.score_of_bucket hmem hm
  rw [hx] at hx'
  cases hx'
  obtain ⟨c, hc, hcy, -⟩ := hz.bucket_of_score hy
  rw [← F64.cmp_norm x y, hxb, ← hcy, F64.cmp_norm]
  rcases hfirst c hc with rfl | hafter
  · exact Or.inl (F64.cmp_self _)
  · exact Or.inr hafter

/-- What a loop of pops keeps: the members with at least `n` before them. -/
def survivors (o : Ordering) (n : Nat) (scores : Std.ExtTreeMap Bytes F64) : Std.ExtTreeMap Bytes F64 :=
  scores.filter fun _ x => n ≤ tally o scores x

theorem memberScores_remove (z : SortedSetValue) (m : Bytes) :
    (z.remove m).memberScores = z.memberScores.erase m := by
  unfold remove
  cases hm : z.memberScores[m]? with
  | some x => rfl
  | none =>
      apply Std.ExtTreeMap.ext_getElem?
      intro k
      dsimp only
      rw [Std.ExtTreeMap.getElem?_erase]
      by_cases hk : compare m k = .eq
      · rw [if_pos hk, ← Std.LawfulEqCmp.eq_of_compare hk, hm]
      · rw [if_neg hk]

/-- One pop takes a member that comes first; the rest is as the loop over the others says. -/
theorem survivors_pop (hz : z.Indexed) (hpick : Picks o pick) {n : Nat} (huncut : Uncut o (n + 1) z.memberScores)
    {b : F64 × Std.ExtTreeSet Bytes} (hb : pick z.membersByScore = some b) {m : Bytes} (hm : m ∈ b.2) :
    Uncut o n (z.memberScores.erase m) ∧
      survivors o n (z.memberScores.erase m) = survivors o (n + 1) z.memberScores := by
  obtain ⟨x, hx, -⟩ := hz.score_of_bucket (hpick.first _ b hz.pairwise hb).1 hm
  have hfirst : ∀ (m' : Bytes) (y : F64), z.memberScores[m']? = some y → F64.cmp x y = .eq ∨ F64.cmp x y = o :=
    fun m' y hy => hz.picked_first hpick hb hm hx hy
  -- nothing comes before the popped member, nor before any other with its score
  have hnone : ∀ (m' : Bytes) (y : F64), z.memberScores[m']? = some y → F64.cmp x y = .eq →
      tally o z.memberScores y = 0 := by
    intro m' y hy htie
    refine tally_eq_zero fun k w hw hbefore => ?_
    have hne := hz.score_ne_nan hx
    rw [← F64.cmp_congr w hne (hz.score_ne_nan hy) htie, ← F64.cmp_swap] at hbefore
    rcases hfirst k w hw with hk | hk
    · rw [hk] at hbefore
      exact hpick.ne_eq hbefore.symm
    · rw [hk] at hbefore
      exact hpick.ne_eq (by cases o <;> cases hbefore; rfl)
  have hlater : ∀ (m' : Bytes) (y : F64), z.memberScores[m']? = some y → F64.cmp x y ≠ .eq →
      F64.cmp x y = o ∧ 0 < tally o z.memberScores y := by
    intro m' y hy hnot
    have ho := (hfirst m' y hy).resolve_left hnot
    exact ⟨ho, tally_pos hx ho⟩
  have herase : ∀ (m' : Bytes) (y : F64), (z.memberScores.erase m)[m']? = some y → z.memberScores[m']? = some y := by
    intro m' y hy
    rw [Std.ExtTreeMap.getElem?_erase] at hy
    split at hy
    · cases hy
    · exact hy
  constructor
  · intro m' y hy hcut
    have hy' := herase m' y hy
    have hold := huncut m' y hy'
    rw [tally_erase hx, tally_erase hx] at hcut
    by_cases htie : F64.cmp x y = .eq
    · rw [if_neg fun ho => hpick.ne_eq (ho.symm.trans htie), if_pos htie, hnone m' y hy' htie] at hcut
      rw [hnone m' y hy' htie] at hold
      omega
    · obtain ⟨ho, hpos⟩ := hlater m' y hy' htie
      rw [if_pos ho, if_neg htie] at hcut
      omega
  · apply Std.ExtTreeMap.ext_getElem?
    intro m'
    unfold survivors
    rw [Std.ExtTreeMap.getElem?_filter', Std.ExtTreeMap.getElem?_filter', Std.ExtTreeMap.getElem?_erase]
    by_cases hmm : m = m'
    · subst hmm
      have hgone : tally o z.memberScores x = 0 := hnone m x hx (F64.cmp_self x)
      simp [hx, Option.filter, hgone]
    · rw [if_neg fun h => hmm (Std.LawfulEqCmp.eq_of_compare h)]
      cases hy : z.memberScores[m']? with
      | none => rfl
      | some y =>
          have hy' : (z.memberScores.erase m)[m']? = some y := by
            rw [Std.ExtTreeMap.getElem?_erase, if_neg fun h => hmm (Std.LawfulEqCmp.eq_of_compare h)]
            exact hy
          have hsame : n ≤ tally o (z.memberScores.erase m) y ↔ n + 1 ≤ tally o z.memberScores y := by
            rw [tally_erase hx]
            by_cases htie : F64.cmp x y = .eq
            · -- a second member with the popped score: the count goes on past the whole group
              have hmore : 0 < tally .eq (z.memberScores.erase m) y := tally_pos hy' (F64.cmp_self y)
              have hold := huncut m' y hy
              rw [tally_erase hx, if_pos htie] at hmore
              rw [if_neg fun ho => hpick.ne_eq (ho.symm.trans htie), hnone m' y hy htie]
              rw [hnone m' y hy htie] at hold
              omega
            · obtain ⟨ho, hpos⟩ := hlater m' y hy htie
              rw [if_pos ho]
              omega
          simp only [Option.filter, hsame]

/-- One turn of the loop: nothing is left, or a member of the picked bucket goes. -/
theorem Indexed.popLoop_succ (hz : z.Indexed) (hpick : Picks o pick) (pos : Bytes → Nat) (n : Nat) :
    (z.memberScores = ∅ ∧ popLoop pos pick (n + 1) z = ([], z)) ∨
      ∃ b m, pick z.membersByScore = some b ∧ m ∈ b.2 ∧ popLoop pos pick (n + 1) z
        = ((m, b.1) :: (popLoop pos pick n (z.remove m)).1, (popLoop pos pick n (z.remove m)).2) := by
  cases hb : pick z.membersByScore with
  | none =>
      left
      constructor
      · apply Std.ExtTreeMap.ext_getElem?
        intro m
        cases hm : z.memberScores[m]? with
        | none => simp
        | some x =>
            obtain ⟨b, hmem, -, -⟩ := hz.bucket_of_score hm
            rw [hpick.none _ hb] at hmem
            cases hmem
      · rw [popLoop, hb]
  | some b =>
      right
      obtain ⟨hmem, -⟩ := hpick.first _ b hz.pairwise hb
      -- no bucket is empty, so the table of this one lists a member
      obtain ⟨k, hk⟩ : ∃ k, k ∈ b.2 := hz.nonempty (Prod.map F64.norm id b) (List.mem_map_of_mem hmem)
      have hin : k ∈ iterate pos id b.2.toList := mem_iterate.mpr (Std.ExtTreeSet.mem_toList.mpr hk)
      cases hlist : iterate pos id b.2.toList with
      | nil =>
          rw [hlist] at hin
          cases hin
      | cons m rest =>
          have hm : m ∈ iterate pos id b.2.toList := by
            rw [hlist]
            exact List.mem_cons_self
          refine ⟨b, m, rfl, Std.ExtTreeSet.mem_toList.mp (mem_iterate.mp hm), ?_⟩
          rw [popLoop, hb]
          dsimp only
          rw [hlist]

/-- **A loop of pops that cuts no group keeps a function of the scores.** -/
theorem popLoop_scores (pos : Bytes → Nat) (hpick : Picks o pick) {n : Nat} (hz : z.Indexed)
    (huncut : Uncut o n z.memberScores) :
    (popLoop pos pick n z).2.memberScores = survivors o n z.memberScores := by
  induction n generalizing z with
  | zero =>
      symm
      exact Std.ExtTreeMap.filter_eq_self_iff.mpr fun k h => by simp
  | succ n ih =>
      rcases hz.popLoop_succ hpick pos n with ⟨hempty, hloop⟩ | ⟨b, m, hb, hm, hloop⟩
      · rw [hloop, hempty]
        rfl
      · obtain ⟨hrest, hsurvive⟩ := survivors_pop hz hpick huncut hb hm
        rw [← memberScores_remove] at hrest hsurvive
        rw [hloop, ← hsurvive]
        exact ih (hz.remove m) hrest

end SortedSetValue

end FerricCache
