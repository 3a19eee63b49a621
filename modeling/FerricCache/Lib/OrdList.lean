import Mathlib

/-!
# `Lib.OrdList` — ordered association lists searched through a comparison

A `BTreeMap` as the list of its entries in key order. Every operation walks the list and asks `cmp`
where to go, as a node search does, so the operations are defined for **any** comparison, lawful or
not. On keys where the comparison is a lawful order (`LawfulOn`), an `Ordered` list is a finite map:
membership after `insert`/`erase` is what it should be, both keep the list ordered, `find?` is
membership, and an ordered list is determined by its members (`Ordered.ext`). Renaming the keys by a map
that keeps the comparison commutes with every operation (`insert_map`, `erase_map`).
-/

namespace Lib.OrdList

variable {κ ν : Type}

section Operations

variable (cmp : κ → κ → Ordering)

/-- `map.get(&k)`. -/
def find? (k : κ) : List (κ × ν) → Option ν
  | [] => none
  | (a, v) :: l =>
      match cmp k a with
      | .gt => find? k l
      | .eq => some v
      | .lt => none

/-- `map.insert(k, v)`: a found entry keeps its key and takes the new value. -/
def insert (k : κ) (v : ν) : List (κ × ν) → List (κ × ν)
  | [] => [(k, v)]
  | (a, w) :: l =>
      match cmp k a with
      | .gt => (a, w) :: insert k v l
      | .eq => (a, v) :: l
      | .lt => (k, v) :: (a, w) :: l

/-- `map.remove(&k)`. -/
def erase (k : κ) : List (κ × ν) → List (κ × ν)
  | [] => []
  | (a, w) :: l =>
      match cmp k a with
      | .gt => (a, w) :: erase k l
      | .eq => l
      | .lt => (a, w) :: l

end Operations

/-- `cmp` is a lawful strict order on the keys that satisfy `ok`. -/
structure LawfulOn (cmp : κ → κ → Ordering) (ok : κ → Prop) : Prop where
  eq_iff : ∀ {a b : κ}, ok a → ok b → (cmp a b = .eq ↔ a = b)
  swap : ∀ a b : κ, (cmp a b).swap = cmp b a
  trans : ∀ {a b c : κ}, ok b → cmp a b = .lt → cmp b c = .lt → cmp a c = .lt

/-- The keys are lawful and strictly increasing. -/
structure Ordered (cmp : κ → κ → Ordering) (ok : κ → Prop) (l : List (κ × ν)) : Prop where
  keys : ∀ p ∈ l, ok p.1
  pairwise : l.Pairwise fun p q => cmp p.1 q.1 = .lt

variable {cmp : κ → κ → Ordering} {ok : κ → Prop} {l : List (κ × ν)} {k a : κ} {v b : ν}

theorem LawfulOn.lt_of_gt (hc : LawfulOn cmp ok) (h : cmp k a = .gt) : cmp a k = .lt := by
  rw [← hc.swap k a, h]
  rfl

theorem LawfulOn.ne_of_lt (hc : LawfulOn cmp ok) (ha : ok a) (h : cmp k a = .lt) : k ≠ a := by
  rintro rfl
  rw [(hc.eq_iff ha ha).mpr rfl] at h
  exact absurd h (by simp)

theorem Ordered.nil : Ordered cmp ok ([] : List (κ × ν)) := ⟨by simp, List.Pairwise.nil⟩

theorem Ordered.tail {p : κ × ν} (h : Ordered cmp ok (p :: l)) : Ordered cmp ok l :=
  ⟨fun q hq => h.keys q (by simp [hq]), (List.pairwise_cons.mp h.pairwise).2⟩

/-- The head of an ordered list is below every later key. -/
theorem Ordered.head_lt {p q : κ × ν} (h : Ordered cmp ok (p :: l)) (hq : q ∈ l) :
    cmp p.1 q.1 = .lt := (List.pairwise_cons.mp h.pairwise).1 q hq

/-- A key below the head of an ordered list is below every key of it. -/
theorem Ordered.lt_of_lt_head (hc : LawfulOn cmp ok) {p q : κ × ν} (h : Ordered cmp ok (p :: l))
    (hk : cmp k p.1 = .lt) (hq : q ∈ p :: l) : cmp k q.1 = .lt := by
  rcases List.mem_cons.mp hq with rfl | hq'
  · exact hk
  · exact hc.trans (h.keys p (by simp)) hk (h.head_lt hq')

/-! ## Lookup is membership -/

theorem find?_eq_some (hc : LawfulOn cmp ok) (h : Ordered cmp ok l) (hk : ok k) :
    find? cmp k l = some v ↔ (k, v) ∈ l := by
  induction l with
  | nil => simp [find?]
  | cons p l ih =>
      obtain ⟨a, w⟩ := p
      have ha : ok a := h.keys (a, w) (by simp)
      simp only [find?]
      cases hka : cmp k a with
      | gt =>
          have hne : a ≠ k := hc.ne_of_lt hk (hc.lt_of_gt hka)
          simp [ih h.tail, Ne.symm hne]
      | eq =>
          obtain rfl := (hc.eq_iff hk ha).mp hka
          constructor
          · rintro hv
            simp_all
          · intro hm
            rcases List.mem_cons.mp hm with hm | hm
            · simp_all
            · exact absurd rfl (hc.ne_of_lt hk (h.head_lt hm))
      | lt =>
          constructor
          · simp
          · intro hm
            exact absurd rfl (hc.ne_of_lt hk (h.lt_of_lt_head hc hka hm))

/-! ## Insertion -/

theorem mem_insert (hc : LawfulOn cmp ok) (h : Ordered cmp ok l) (hk : ok k) :
    (a, b) ∈ insert cmp k v l ↔ (a = k ∧ b = v) ∨ (a ≠ k ∧ (a, b) ∈ l) := by
  -- along the list, by where the key stands to the head
  induction l with
  | nil => simp [insert]
  | cons p l ih =>
      obtain ⟨c, w⟩ := p
      have hcok : ok c := h.keys (c, w) (by simp)
      simp only [insert]
      cases hkc : cmp k c with
      | gt =>
          have hne : c ≠ k := hc.ne_of_lt hk (hc.lt_of_gt hkc)
          simp only [List.mem_cons, ih h.tail, Prod.mk.injEq]
          constructor
          · rintro (⟨rfl, rfl⟩ | hm | ⟨hn, hm⟩)
            · exact Or.inr ⟨hne, Or.inl ⟨rfl, rfl⟩⟩
            · exact Or.inl hm
            · exact Or.inr ⟨hn, Or.inr hm⟩
          · rintro (hm | ⟨hn, hm | hm⟩)
            · exact Or.inr (Or.inl hm)
            · exact Or.inl hm
            · exact Or.inr (Or.inr ⟨hn, hm⟩)
      | eq =>
          obtain rfl := (hc.eq_iff hk hcok).mp hkc
          simp only [List.mem_cons, Prod.mk.injEq]
          constructor
          · rintro (hm | hm)
            · exact Or.inl hm
            · exact Or.inr ⟨(hc.ne_of_lt (h.tail.keys _ hm) (h.head_lt hm)).symm, Or.inr hm⟩
          · rintro (hm | ⟨hn, hm | hm⟩)
            · exact Or.inl hm
            · exact absurd hm.1 hn
            · exact Or.inr hm
      | lt =>
          simp only [List.mem_cons, Prod.mk.injEq]
          constructor
          · rintro (hm | hm)
            · exact Or.inl hm
            · have hmem : (a, b) ∈ (c, w) :: l := by simpa using hm
              exact Or.inr
                ⟨(hc.ne_of_lt (h.keys _ hmem) (h.lt_of_lt_head hc hkc hmem)).symm, hm⟩
          · rintro (hm | ⟨_, hm⟩)
            · exact Or.inl hm
            · exact Or.inr hm

/-- A key after an insertion is the inserted one, or was there; whatever the comparison. -/
theorem key_of_mem_insert (cmp : κ → κ → Ordering) {p : κ × ν} (h : p ∈ insert cmp k v l) :
    p.1 = k ∨ ∃ q ∈ l, q.1 = p.1 := by
  induction l with
  | nil =>
      rw [List.mem_singleton.mp h]
      exact Or.inl rfl
  | cons q l ih =>
      obtain ⟨c, w⟩ := q
      simp only [insert] at h
      cases hkc : cmp k c with
      | gt =>
          simp only [hkc] at h
          rcases List.mem_cons.mp h with rfl | h
          · exact Or.inr ⟨_, List.mem_cons_self, rfl⟩
          · rcases ih h with hk | ⟨q, hq, hqp⟩
            · exact Or.inl hk
            · exact Or.inr ⟨q, List.mem_cons_of_mem _ hq, hqp⟩
      | eq =>
          simp only [hkc] at h
          rcases List.mem_cons.mp h with rfl | h
          · exact Or.inr ⟨_, List.mem_cons_self, rfl⟩
          · exact Or.inr ⟨p, List.mem_cons_of_mem _ h, rfl⟩
      | lt =>
          simp only [hkc] at h
          rcases List.mem_cons.mp h with rfl | h
          · exact Or.inl rfl
          · exact Or.inr ⟨p, h, rfl⟩

theorem ordered_insert (hc : LawfulOn cmp ok) (h : Ordered cmp ok l) (hk : ok k) :
    Ordered cmp ok (insert cmp k v l) := by
  constructor
  · rintro ⟨a, b⟩ hm
    rcases (mem_insert hc h hk).mp hm with ⟨rfl, _⟩ | ⟨_, hm'⟩
    · exact hk
    · exact h.keys _ hm'
  · induction l with
    | nil => simp [insert]
    | cons p l ih =>
        obtain ⟨c, w⟩ := p
        have hcok : ok c := h.keys (c, w) (by simp)
        simp only [insert]
        cases hkc : cmp k c with
        | gt =>
            refine List.pairwise_cons.mpr ⟨?_, ih h.tail⟩
            rintro ⟨a, b⟩ hm
            rcases (mem_insert hc h.tail hk).mp hm with ⟨rfl, _⟩ | ⟨_, hm'⟩
            · exact hc.lt_of_gt hkc
            · exact h.head_lt hm'
        | eq =>
            exact List.pairwise_cons.mpr (List.pairwise_cons.mp h.pairwise)
        | lt =>
            exact List.pairwise_cons.mpr ⟨fun q hq => h.lt_of_lt_head hc hkc hq, h.pairwise⟩

/-! ## Removal -/

theorem mem_erase (hc : LawfulOn cmp ok) (h : Ordered cmp ok l) (hk : ok k) :
    (a, b) ∈ erase cmp k l ↔ a ≠ k ∧ (a, b) ∈ l := by
  induction l with
  | nil => simp [erase]
  | cons p l ih =>
      obtain ⟨c, w⟩ := p
      have hcok : ok c := h.keys (c, w) (by simp)
      simp only [erase]
      cases hkc : cmp k c with
      | gt =>
          have hne : c ≠ k := hc.ne_of_lt hk (hc.lt_of_gt hkc)
          simp only [List.mem_cons, ih h.tail, Prod.mk.injEq]
          constructor
          · rintro (⟨rfl, rfl⟩ | ⟨hn, hm⟩)
            · exact ⟨hne, Or.inl ⟨rfl, rfl⟩⟩
            · exact ⟨hn, Or.inr hm⟩
          · rintro ⟨hn, hm | hm⟩
            · exact Or.inl hm
            · exact Or.inr ⟨hn, hm⟩
      | eq =>
          obtain rfl := (hc.eq_iff hk hcok).mp hkc
          simp only [List.mem_cons, Prod.mk.injEq]
          constructor
          · intro hm
            exact ⟨(hc.ne_of_lt (h.tail.keys _ hm) (h.head_lt hm)).symm, Or.inr hm⟩
          · rintro ⟨hn, hm | hm⟩
            · exact absurd hm.1 hn
            · exact hm
      | lt =>
          constructor
          · intro hm
            exact ⟨(hc.ne_of_lt (h.keys _ hm) (h.lt_of_lt_head hc hkc hm)).symm, hm⟩
          · exact fun hm => hm.2

theorem erase_sublist (k : κ) (l : List (κ × ν)) : (erase cmp k l).Sublist l := by
  induction l with
  | nil => exact List.Sublist.slnil
  | cons p l ih =>
      obtain ⟨c, w⟩ := p
      simp only [erase]
      cases cmp k c with
      | gt => exact ih.cons_cons _
      | eq => exact List.sublist_cons_self _ _
      | lt => exact List.Sublist.refl _

theorem ordered_erase (h : Ordered cmp ok l) : Ordered cmp ok (erase cmp k l) :=
  ⟨fun p hp => h.keys p ((erase_sublist k l).subset hp), h.pairwise.sublist (erase_sublist k l)⟩

/-! ## Renaming keys -/

section Rename

variable {κ' : Type} {cmp' : κ' → κ' → Ordering} {f : κ → κ'}

theorem find?_map (h : ∀ a b, cmp' (f a) (f b) = cmp a b) (k : κ) (l : List (κ × ν)) :
    find? cmp' (f k) (l.map (Prod.map f id)) = find? cmp k l := by
  induction l with
  | nil => rfl
  | cons p l ih =>
      simp only [List.map_cons, Prod.map, find?, h, id]
      cases cmp k p.1 with
      | gt => exact ih
      | eq => rfl
      | lt => rfl

theorem insert_map (h : ∀ a b, cmp' (f a) (f b) = cmp a b) (k : κ) (v : ν) (l : List (κ × ν)) :
    insert cmp' (f k) v (l.map (Prod.map f id)) = (insert cmp k v l).map (Prod.map f id) := by
  induction l with
  | nil => rfl
  | cons p l ih =>
      simp only [List.map_cons, Prod.map, insert, h, id]
      cases cmp k p.1 with
      | gt => exact congrArg (_ :: ·) ih
      | eq => rfl
      | lt => rfl

theorem erase_map (h : ∀ a b, cmp' (f a) (f b) = cmp a b) (k : κ) (l : List (κ × ν)) :
    erase cmp' (f k) (l.map (Prod.map f id)) = (erase cmp k l).map (Prod.map f id) := by
  induction l with
  | nil => rfl
  | cons p l ih =>
      simp only [List.map_cons, Prod.map, erase, h, id]
      cases cmp k p.1 with
      | gt => exact congrArg (_ :: ·) ih
      | eq => rfl
      | lt => rfl

end Rename

/-! ## An ordered list is determined by its members -/

/-- **Extensionality.** Two ordered lists with the same members are the same list. -/
theorem Ordered.ext (hc : LawfulOn cmp ok) {l m : List (κ × ν)} (hl : Ordered cmp ok l)
    (hm : Ordered cmp ok m) (h : ∀ p, p ∈ l ↔ p ∈ m) : l = m := by
  have irrefl : ∀ p ∈ l, ¬ cmp p.1 p.1 = .lt := fun p hp hlt =>
    hc.ne_of_lt (hl.keys p hp) hlt rfl
  have nodup : ∀ {n : List (κ × ν)}, Ordered cmp ok n → n.Nodup := by
    intro n hn
    refine hn.pairwise.imp_of_mem ?_
    rintro p q hp hq hlt rfl
    exact hc.ne_of_lt (hn.keys p hp) hlt rfl
  have hperm : l.Perm m := (List.perm_ext_iff_of_nodup (nodup hl) (nodup hm)).mpr h
  refine hperm.eq_of_pairwise ?_ hl.pairwise hm.pairwise
  intro p q hp hq hpq hqp
  exact absurd (hc.trans (hm.keys q hq) hpq hqp) (irrefl p hp)

end Lib.OrdList
