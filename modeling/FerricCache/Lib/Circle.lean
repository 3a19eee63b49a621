import Mathlib

/-!
# `Lib.Circle` — the next point on a circle

Points lie at positions of a linear order, read as a circle: the point **next** to a position is the first
at or after it, and past the last point the first of all. `search` finds it in a list sorted by position.
The one fact everything rests on is `Next.of_cover`: a point that stays is still next when other points are
taken away. A `walk` starts where the search ends and meets every point; what its points stand for, each listed
once in the order it is met, is `List.eraseDups`.
-/

namespace Lib.Circle

variable {α ι : Type} [LinearOrder ι] {pos : α → ι} {s t : Set α} {h : ι} {p q : α}

/-- `p` is the first point of `s` at or after `h`, going round. -/
def Next (pos : α → ι) (s : Set α) (h : ι) (p : α) : Prop :=
  p ∈ s ∧ ((h ≤ pos p ∧ ∀ q ∈ s, h ≤ pos q → pos p ≤ pos q) ∨
    ((∀ q ∈ s, pos q < h) ∧ ∀ q ∈ s, pos p ≤ pos q))

/-- A point next among many is next among fewer, if it is one of them. -/
theorem Next.of_cover (hnext : Next pos t h p) (hp : p ∈ s) (hcover : ∀ q ∈ s, ∃ q' ∈ t, pos q' = pos q) :
    Next pos s h p := by
  refine ⟨hp, hnext.2.imp ?_ ?_⟩
  · rintro ⟨hle, hfirst⟩
    refine ⟨hle, fun q hq hhq => ?_⟩
    obtain ⟨q', hq', he⟩ := hcover q hq
    rw [← he] at hhq ⊢
    exact hfirst q' hq' hhq
  · rintro ⟨hpast, hfirst⟩
    refine ⟨fun q hq => ?_, fun q hq => ?_⟩
    · obtain ⟨q', hq', he⟩ := hcover q hq
      rw [← he]
      exact hpast q' hq'
    · obtain ⟨q', hq', he⟩ := hcover q hq
      rw [← he]
      exact hfirst q' hq'

theorem Next.le (hp : Next pos s h p) (hq : Next pos s h q) : pos p ≤ pos q := by
  rcases hp.2 with ⟨hle, hfirst⟩ | ⟨-, hfirst⟩
  · rcases hq.2 with ⟨hle', -⟩ | ⟨hpast, -⟩
    · exact hfirst q hq.1 hle'
    · -- no point lies at or after `h`, yet `p` does
      exact absurd (hpast p hp.1) (not_lt.mpr hle)
  · exact hfirst q hq.1

/-- There is one position next to another. -/
theorem Next.pos_unique (hp : Next pos s h p) (hq : Next pos s h q) : pos p = pos q :=
  le_antisymm (hp.le hq) (hq.le hp)

/-- The first element at or after `h`, else the first of all. -/
def search (pos : α → ι) (h : ι) (l : List α) : Option α := (l.find? fun p => h ≤ pos p).or l.head?

theorem search_eq_none {l : List α} : search pos h l = none ↔ l = [] := by
  unfold search
  rw [Option.or_eq_none_iff, List.head?_eq_none_iff]
  constructor
  · exact fun hn => hn.2
  · rintro rfl
    exact ⟨rfl, rfl⟩

theorem find?_first {l : List α} (hl : l.Pairwise fun a b => pos a < pos b)
    (hfind : l.find? (fun p => decide (h ≤ pos p)) = some p) : ∀ q ∈ l, h ≤ pos q → pos p ≤ pos q := by
  induction l with
  | nil => cases hfind
  | cons a l ih =>
      obtain ⟨ha, hl'⟩ := List.pairwise_cons.mp hl
      rw [List.find?_cons] at hfind
      intro q hq hhq
      by_cases hle : h ≤ pos a
      · rw [decide_eq_true hle] at hfind
        cases hfind
        rcases List.mem_cons.mp hq with rfl | hq'
        · exact le_refl _
        · exact (ha q hq').le
      · rw [decide_eq_false hle] at hfind
        rcases List.mem_cons.mp hq with rfl | hq'
        · exact absurd hhq hle
        · exact ih hl' hfind q hq' hhq

theorem head?_first {l : List α} (hl : l.Pairwise fun a b => pos a < pos b) (hhead : l.head? = some p) :
    ∀ q ∈ l, pos p ≤ pos q := by
  cases l with
  | nil => cases hhead
  | cons a l =>
      cases hhead
      obtain ⟨ha, -⟩ := List.pairwise_cons.mp hl
      intro q hq
      rcases List.mem_cons.mp hq with rfl | hq'
      · exact le_refl _
      · exact (ha q hq').le

/-- **The search in a sorted list finds the next point.** -/
theorem next_of_search {l : List α} (hl : l.Pairwise fun a b => pos a < pos b)
    (hsearch : search pos h l = some p) : Next pos { q | q ∈ l } h p := by
  rcases Option.or_eq_some_iff.mp hsearch with hfind | ⟨hnone, hhead⟩
  · have hle := List.find?_some hfind
    rw [decide_eq_true_eq] at hle
    exact ⟨List.mem_of_find?_eq_some hfind, Or.inl ⟨hle, find?_first hl hfind⟩⟩
  · refine ⟨List.mem_of_mem_head? hhead, Or.inr ⟨?_, head?_first hl hhead⟩⟩
    intro q hq
    have hq' := List.find?_eq_none.mp hnone q hq
    exact not_le.mp fun hle => hq' (decide_eq_true hle)

/-! ## Walking round -/

/-- A walk from `h` to the end and then over the whole circle. -/
def walk (pos : α → ι) (h : ι) (l : List α) : List α := (l.filter fun p => h ≤ pos p) ++ l

theorem mem_walk {l : List α} : p ∈ walk pos h l ↔ p ∈ l := by
  unfold walk
  rw [List.mem_append, List.mem_filter]
  constructor
  · rintro (⟨hp, -⟩ | hp)
    · exact hp
    · exact hp
  · exact Or.inr

/-- The walk begins at the point the search finds. -/
theorem head?_walk (l : List α) : (walk pos h l).head? = search pos h l := by
  unfold walk search
  rw [List.head?_append, List.head?_filter]

section Distinct

variable {β : Type} [BEq β] [LawfulBEq β]

/-- What is met on a walk is listed once. -/
theorem nodup_eraseDups (l : List β) : l.eraseDups.Nodup := by
  match l with
  | [] => exact List.nodup_nil
  | b :: l =>
      rw [List.eraseDups_cons]
      apply List.nodup_cons.mpr
      refine ⟨?_, nodup_eraseDups _⟩
      intro hb
      have hne := (List.mem_filter.mp (List.mem_eraseDups.mp hb)).2
      rw [beq_self_eq_true] at hne
      cases hne
  termination_by l.length
  decreasing_by exact Nat.lt_succ_of_le (List.length_filter_le _ _)

omit [LawfulBEq β] in
theorem head?_eraseDups (l : List β) : l.eraseDups.head? = l.head? := by
  cases l with
  | nil => rfl
  | cons b l => rw [List.eraseDups_cons, List.head?_cons, List.head?_cons]

/-- As many are listed as there are. -/
theorem length_eraseDups (l : List β) : l.eraseDups.length = { b | b ∈ l }.ncard := by
  classical
  have hset : { b | b ∈ l } = ↑l.eraseDups.toFinset := by
    ext b
    rw [Finset.mem_coe, List.mem_toFinset, List.mem_eraseDups]
    rfl
  rw [hset, Set.ncard_coe_finset, List.toFinset_card_of_nodup (nodup_eraseDups l)]

end Distinct

end Lib.Circle
