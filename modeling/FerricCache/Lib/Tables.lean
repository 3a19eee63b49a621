import Mathlib

/-!
# `Lib.Tables` — finite maps and sets filled from a list

What a table holds after inserting the elements of a list in turn, that inserting the elements of a table in any
order gives the table back, and what an insertion or a removal adds to its size.
-/

namespace Lib.Tables

variable {α β : Type} {cmp : α → α → Ordering} [Std.TransCmp cmp] [Std.LawfulEqCmp cmp]

theorem getElem?_insert_eq [DecidableEq α] (m : Std.ExtTreeMap α β cmp) (k a : α) (v : β) :
    (m.insert k v)[a]? = if k = a then some v else m[a]? := by
  rw [Std.ExtTreeMap.getElem?_insert]
  by_cases h : k = a
  · rw [if_pos h, if_pos (Std.LawfulEqCmp.compare_eq_iff_eq.mpr h)]
  · rw [if_neg h, if_neg fun h' => h (Std.LawfulEqCmp.compare_eq_iff_eq.mp h')]

/-- Insert pairs one after the other. -/
def insertAll (m : Std.ExtTreeMap α β cmp) (l : List (α × β)) : Std.ExtTreeMap α β cmp :=
  l.foldl (fun m p => m.insert p.1 p.2) m

/-- With distinct keys, the table holds the pairs, and what it held at other keys. -/
theorem getElem?_insertAll {m : Std.ExtTreeMap α β cmp} {l : List (α × β)}
    (h : l.Pairwise fun p q => p.1 ≠ q.1) {k : α} {v : β} :
    (insertAll m l)[k]? = some v ↔ (k, v) ∈ l ∨ (∀ p ∈ l, p.1 ≠ k) ∧ m[k]? = some v := by
  induction l generalizing m with
  | nil => simp [insertAll]
  | cons p l ih =>
      obtain ⟨a, b⟩ := p
      obtain ⟨hhead, htail⟩ := List.pairwise_cons.mp h
      show (insertAll (m.insert a b) l)[k]? = some v ↔ _
      rw [ih htail, Std.ExtTreeMap.getElem?_insert]
      by_cases hk : a = k
      · subst hk
        have hnot : ∀ w, (a, w) ∉ l := fun w hw => hhead (a, w) hw rfl
        have hfree : ∀ p ∈ l, p.1 ≠ a := fun p hp he => hhead p hp he.symm
        simp only [hnot, Std.LawfulEqCmp.compare_eq_iff_eq, if_true, false_or, List.mem_cons,
          Prod.mk.injEq, true_and, or_false, Option.some_inj]
        constructor
        · rintro ⟨-, rfl⟩
          exact Or.inl rfl
        · rintro (rfl | ⟨hne, -⟩)
          · exact ⟨hfree, rfl⟩
          · exact absurd rfl (hne (a, b) (Or.inl rfl))
      · have hk' : ¬ k = a := fun he => hk he.symm
        simp only [Std.LawfulEqCmp.compare_eq_iff_eq, hk, if_false, List.mem_cons, Prod.mk.injEq, hk',
          false_and, false_or]
        constructor
        · rintro (hm | ⟨hne, hm⟩)
          · exact Or.inl hm
          · refine Or.inr ⟨?_, hm⟩
            rintro p (rfl | hp)
            · exact hk
            · exact hne p hp
        · rintro (hm | ⟨hne, hm⟩)
          · exact Or.inl hm
          · exact Or.inr ⟨fun p hp => hne p (Or.inr hp), hm⟩

/-- **A table is rebuilt from its pairs**, in whatever order they come. -/
theorem insertAll_toList (m : Std.ExtTreeMap α β cmp) {l : List (α × β)} (h : l.Perm m.toList) :
    insertAll ∅ l = m := by
  have hdistinct : l.Pairwise fun p q => p.1 ≠ q.1 := by
    refine (h.pairwise_iff fun {_ _} hne he => hne he.symm).mpr ?_
    refine m.distinct_keys_toList.imp ?_
    intro p q hne he
    exact hne (by rw [he]; exact Std.ReflCmp.compare_self)
  apply Std.ExtTreeMap.ext_getElem?
  intro k
  apply Option.ext
  intro v
  rw [getElem?_insertAll hdistinct, h.mem_iff, Std.ExtTreeMap.mem_toList_iff_getElem?_eq_some]
  simp

/-- Inserting a list into a set adds its elements. -/
theorem mem_foldl_insert (s : Std.ExtTreeSet α cmp) (l : List α) {a : α} :
    a ∈ l.foldl (fun s a => s.insert a) s ↔ a ∈ l ∨ a ∈ s := by
  induction l generalizing s with
  | nil => simp
  | cons b l ih =>
      rw [List.foldl_cons, ih, Std.ExtTreeSet.mem_insert, Std.LawfulEqCmp.compare_eq_iff_eq,
        List.mem_cons]
      constructor
      · rintro (h | rfl | h)
        · exact Or.inl (Or.inr h)
        · exact Or.inl (Or.inl rfl)
        · exact Or.inr h
      · rintro ((rfl | h) | h)
        · exact Or.inr (Or.inl rfl)
        · exact Or.inl h
        · exact Or.inr (Or.inr h)

/-- A set is rebuilt from its members. -/
theorem foldl_insert_toList (s : Std.ExtTreeSet α cmp) {l : List α} (h : l.Perm s.toList) :
    l.foldl (fun s a => s.insert a) ∅ = s := by
  apply Std.ExtTreeSet.ext_mem
  intro a
  rw [mem_foldl_insert, h.mem_iff, Std.ExtTreeSet.mem_toList]
  simp

/-! ## Sizes -/

omit [Std.LawfulEqCmp cmp] in
theorem size_insert_map (m : Std.ExtTreeMap α β cmp) (a : α) (b : β) :
    (m.insert a b).size = m.size + (!m.contains a).toNat := by
  rw [Std.ExtTreeMap.size_insert]
  cases m.contains a <;> rfl

omit [Std.LawfulEqCmp cmp] in
theorem size_erase_map (m : Std.ExtTreeMap α β cmp) (a : α) : (m.erase a).size + (m.contains a).toNat = m.size := by
  rw [Std.ExtTreeMap.size_erase]
  cases h : m.contains a with
  | false => rfl
  | true =>
      have hpos : m.size ≠ 0 := by
        intro hzero
        rw [Std.ExtTreeMap.eq_empty_iff_size_eq_zero.mpr hzero] at h
        simp at h
      simp only [if_true, Bool.toNat_true]
      omega

omit [Std.LawfulEqCmp cmp] in
theorem size_insert_set (s : Std.ExtTreeSet α cmp) (a : α) : (s.insert a).size = s.size + (!s.contains a).toNat := by
  rw [Std.ExtTreeSet.size_insert]
  cases s.contains a <;> rfl

omit [Std.LawfulEqCmp cmp] in
theorem size_erase_set (s : Std.ExtTreeSet α cmp) (a : α) : (s.erase a).size + (s.contains a).toNat = s.size := by
  rw [Std.ExtTreeSet.size_erase]
  cases h : s.contains a with
  | false => rfl
  | true =>
      have hpos : s.size ≠ 0 := by
        intro hzero
        rw [Std.ExtTreeSet.eq_empty_iff_size_eq_zero.mpr hzero] at h
        simp at h
      simp only [if_true, Bool.toNat_true]
      omega

/-- Inserting pairs one after the other adds one for every key that is new when it comes. -/
theorem size_insertAll (m : Std.ExtTreeMap α β cmp) (l : List (α × β)) :
    (insertAll m l).size ≤ m.size + l.length ∧
      ((insertAll m l).size = m.size + l.length ↔ (l.map Prod.fst).Nodup ∧ ∀ a ∈ l.map Prod.fst, a ∉ m) := by
  induction l generalizing m with
  | nil => simp [insertAll]
  | cons p l ih =>
      obtain ⟨a, b⟩ := p
      have hins : insertAll m ((a, b) :: l) = insertAll (m.insert a b) l := rfl
      obtain ⟨hle, hiff⟩ := ih (m.insert a b)
      rw [hins, List.length_cons, List.map_cons]
      rw [size_insert_map] at hle hiff
      by_cases ha : a ∈ m
      · -- the first key is there: at most the others are new
        rw [Std.ExtTreeMap.contains_iff_mem.mpr ha, Bool.not_true, Bool.toNat_false] at hle
        refine ⟨by omega, iff_of_false (by omega) ?_⟩
        rintro ⟨-, hnew⟩
        exact hnew a List.mem_cons_self ha
      · have hfalse : m.contains a = false := by
          rw [← Bool.not_eq_true, Std.ExtTreeMap.contains_iff_mem]
          exact ha
        rw [hfalse, Bool.not_false, Bool.toNat_true] at hle hiff
        refine ⟨by omega, ?_⟩
        rw [show m.size + (l.length + 1) = m.size + 1 + l.length by omega, hiff, List.nodup_cons]
        have hmem : ∀ k, k ∉ m.insert a b ↔ k ≠ a ∧ k ∉ m := by
          intro k
          rw [Std.ExtTreeMap.mem_insert, Std.LawfulEqCmp.compare_eq_iff_eq, not_or]
          exact and_congr_left' ⟨fun h he => h he.symm, fun h he => h he.symm⟩
        constructor
        · rintro ⟨hnodup, hnew⟩
          refine ⟨⟨fun hin => ((hmem a).mp (hnew a hin)).1 rfl, hnodup⟩, ?_⟩
          intro k hk
          rcases List.mem_cons.mp hk with rfl | hk
          · exact ha
          · exact ((hmem k).mp (hnew k hk)).2
        · rintro ⟨⟨hfirst, hnodup⟩, hnew⟩
          refine ⟨hnodup, fun k hk => (hmem k).mpr ⟨?_, hnew k (List.mem_cons_of_mem _ hk)⟩⟩
          rintro rfl
          exact hfirst hk

end Lib.Tables
