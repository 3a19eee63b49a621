import FerricCache.Data.Representation

/-!
# `FerricCache.Data.Extremes` — the pops take the extremes and nothing else

`pop_min` and `pop_max` are one loop that picks the first or the last bucket again after every removal. Every turn
takes a member no other comes before (`Indexed.picked_first`), and what it leaves is a sorted set again, so a run of
the loop takes the first `count` members in the order of the scores: `TakesExtremes` says so of what the loop returns
and of what it leaves, `popLoop_takesExtremes` proves it by induction on the count, with the agreement of the two
indexes as the invariant.
-/

namespace FerricCache

open Lib

/-- `a` comes no later than `b` when the members that compare as `o` with the others go first: `a ≤ b` for `lt`,
    `b ≤ a` for `gt`. -/
def F64.NotAfter (o : Ordering) (a b : F64) : Prop := cmp a b ≠ o.swap

namespace SortedSetValue

/-- What a loop of pops returns and leaves. A member is returned with the score of its bucket, which is its own up to
    the sign of zero: the code's order of the scores does not tell the two zeros apart. -/
structure TakesExtremes (o : Ordering) (count : Nat) (z : SortedSetValue) (r : List (Bytes × F64) × SortedSetValue) :
    Prop where
  length : r.1.length = min count z.len
  distinct : (r.1.map Prod.fst).Nodup
  scores : ∀ p ∈ r.1, ∃ x, z.getScore p.1 = some x ∧ p.2.norm = x.norm
  sorted : r.1.Pairwise fun p q => F64.NotAfter o p.2 q.2
  extreme : ∀ p ∈ r.1, ∀ m y, r.2.getScore m = some y → F64.NotAfter o p.2 y
  rest : ∀ m, r.2.getScore m = if m ∈ r.1.map Prod.fst then none else z.getScore m
  represented : r.2.Represented
  deadline : r.2.expiresAt = z.expiresAt

variable {z : SortedSetValue} {o : Ordering}
  {pick : List (F64 × Std.ExtTreeSet Bytes) → Option (F64 × Std.ExtTreeSet Bytes)}

theorem getScore_remove (z : SortedSetValue) (m m' : Bytes) :
    (z.remove m).getScore m' = if m = m' then none else z.getScore m' := by
  show (z.remove m).memberScores[m']? = _
  rw [memberScores_remove, Std.ExtTreeMap.getElem?_erase]
  by_cases h : m = m'
  · rw [if_pos h, if_pos (h ▸ Std.ReflCmp.compare_self)]
  · rw [if_neg h, if_neg fun hc => h (Std.LawfulEqCmp.eq_of_compare hc)]
    rfl

theorem len_remove {m : Bytes} {x : F64} (hm : z.getScore m = some x) : (z.remove m).len = z.len - 1 := by
  have hsome : (z.memberScores[m]?).isSome = true := by
    rw [show z.memberScores[m]? = some x from hm]
    rfl
  have hmem : m ∈ z.memberScores := Std.ExtTreeMap.isSome_getElem?_iff_mem.mp hsome
  unfold len
  rw [memberScores_remove, Std.ExtTreeMap.size_erase, if_pos (Std.ExtTreeMap.contains_iff_mem.mpr hmem)]

/-- A member that is there makes the set longer than nothing. -/
theorem len_pos {m : Bytes} {x : F64} (hm : z.getScore m = some x) : 0 < z.len := by
  unfold len
  rw [Nat.pos_iff_ne_zero, Ne, ← Std.ExtTreeMap.eq_empty_iff_size_eq_zero]
  intro hempty
  rw [show z.getScore m = z.memberScores[m]? from rfl, hempty, Std.ExtTreeMap.getElem?_empty] at hm
  cases hm

/-- The score of a picked bucket comes no later than that of any member. -/
theorem Indexed.pick_notAfter (hz : z.Indexed) (hpick : Picks o pick) {b : F64 × Std.ExtTreeSet Bytes}
    (hb : pick z.membersByScore = some b) {m : Bytes} (hm : m ∈ b.2) {m' : Bytes} {y : F64}
    (hy : z.getScore m' = some y) : F64.NotAfter o b.1 y := by
  obtain ⟨x, hx, hxb⟩ := hz.score_of_bucket (hpick.first _ b hz.pairwise hb).1 hm
  have hfirst := hz.picked_first hpick hb hm hx hy
  rw [← F64.cmp_norm, hxb, F64.cmp_norm] at hfirst
  have hne := hpick.ne_eq
  unfold F64.NotAfter
  rcases hfirst with h | h <;> rw [h] <;> cases o <;> first | exact absurd rfl hne | decide

/-- **A loop of pops takes the extremes.** -/
theorem popLoop_takesExtremes (pos : Bytes → Nat) (hpick : Picks o pick) (count : Nat) (hz : z.Indexed) :
    TakesExtremes o count z (popLoop pos pick count z) := by
  induction count generalizing z with
  | zero =>
      exact ⟨(Nat.zero_min _).symm, List.nodup_nil, fun p hp => absurd hp List.not_mem_nil, List.Pairwise.nil,
        fun p hp => absurd hp List.not_mem_nil, fun m => rfl, hz.represented, rfl⟩
  | succ n ih =>
      rcases hz.popLoop_succ hpick pos n with ⟨hempty, hloop⟩ | ⟨b, m, hb, hm, hloop⟩
      · rw [hloop]
        refine ⟨?_, List.nodup_nil, fun p hp => absurd hp List.not_mem_nil, List.Pairwise.nil,
          fun p hp => absurd hp List.not_mem_nil, fun m => rfl, hz.represented, rfl⟩
        rw [show z.len = 0 from Std.ExtTreeMap.eq_empty_iff_size_eq_zero.mp hempty, Nat.min_zero]
        rfl
      · have hrest := ih (hz.remove m)
        obtain ⟨x, hx, hxb⟩ := hz.score_of_bucket (hpick.first _ b hz.pairwise hb).1 hm
        have hpos := len_pos hx
        have hlen := len_remove hx
        -- what the later turns take was there before, and none of it is the member of this turn
        have hlater : ∀ p ∈ (popLoop pos pick n (z.remove m)).1,
            p.1 ≠ m ∧ ∃ y, z.getScore p.1 = some y ∧ p.2.norm = y.norm := by
          intro p hp
          obtain ⟨y, hy, hpy⟩ := hrest.scores p hp
          rw [getScore_remove] at hy
          split at hy
          · cases hy
          · rename_i hne
            exact ⟨fun h => hne h.symm, y, hy, hpy⟩
        rw [hloop]
        constructor
        · rw [List.length_cons, hrest.length, hlen]
          omega
        · rw [List.map_cons, List.nodup_cons]
          refine ⟨fun hmem => ?_, hrest.distinct⟩
          obtain ⟨p, hp, hpm⟩ := List.mem_map.mp hmem
          exact (hlater p hp).1 hpm
        · intro p hp
          rcases List.mem_cons.mp hp with rfl | hp
          · exact ⟨x, hx, hxb.symm⟩
          · exact (hlater p hp).2
        · refine List.pairwise_cons.mpr ⟨fun p hp => ?_, hrest.sorted⟩
          obtain ⟨-, y, hy, hpy⟩ := hlater p hp
          have hfirst := hz.pick_notAfter hpick hb hm hy
          unfold F64.NotAfter at hfirst ⊢
          rw [← F64.cmp_norm, hpy, F64.cmp_norm]
          exact hfirst
        · intro p hp m' y hy
          rcases List.mem_cons.mp hp with rfl | hp
          · have hy' := hy
            rw [hrest.rest] at hy'
            split at hy'
            · cases hy'
            · rw [getScore_remove] at hy'
              split at hy'
              · cases hy'
              · exact hz.pick_notAfter hpick hb hm hy'
          · exact hrest.extreme p hp m' y hy
        · intro m'
          rw [hrest.rest, getScore_remove, List.map_cons]
          by_cases hmm : m = m'
          · rw [if_pos hmm, ite_self, if_pos (List.mem_cons.mpr (Or.inl hmm.symm))]
          · rw [if_neg hmm]
            refine if_congr ?_ rfl rfl
            rw [List.mem_cons]
            exact ⟨Or.inr, fun h => h.resolve_left fun he => hmm he.symm⟩
        · exact hrest.represented
        · rw [hrest.deadline]
          unfold remove
          split <;> rfl

/-- **`pop_min` takes the lowest members and `pop_max` the highest**, and nothing else goes: of every sorted set that
    a run without NaN leaves, for every count whose buffer can be allocated. -/
theorem pops_take_extremes (hz : z.Reached) (pos : Bytes → Nat) (count : Nat) :
    TakesExtremes .lt count z (popLoop pos List.head? count z) ∧
      TakesExtremes .gt count z (popLoop pos List.getLast? count z) ∧
      (∀ r, z.popMin pos count = some r → TakesExtremes .lt count z r) ∧
      (∀ r, z.popMax pos count = some r → TakesExtremes .gt count z r) := by
  have hmin := popLoop_takesExtremes pos picks_head count hz.indexed
  have hmax := popLoop_takesExtremes pos picks_getLast count hz.indexed
  refine ⟨hmin, hmax, fun r hr => ?_, fun r hr => ?_⟩
  · unfold popMin at hr
    split at hr <;> cases hr
    exact hmin
  · unfold popMax at hr
    split at hr <;> cases hr
    exact hmax

/-- Three members, two of them with one score. -/
theorem pops_take_extremes_three :
    let ops : List Op := [.add (.fin 2) (utf8 "a"), .add (.fin 1) (utf8 "b"), .add (.fin 2) (utf8 "c")]
    TakesExtremes .lt 2 (run ops) (popLoop (fun _ => 0) List.head? 2 (run ops)) ∧
      TakesExtremes .gt 2 (run ops) (popLoop (fun _ => 0) List.getLast? 2 (run ops)) := by
  intro ops
  have hreached : (run ops).Reached := by
    refine ⟨ops, ?_, rfl⟩
    intro op hop
    simp only [ops, List.mem_cons, List.not_mem_nil, or_false] at hop
    rcases hop with rfl | rfl | rfl <;> exact F64.noConfusion
  exact ⟨(pops_take_extremes hreached _ 2).1, (pops_take_extremes hreached _ 2).2.1⟩

end SortedSetValue

end FerricCache
