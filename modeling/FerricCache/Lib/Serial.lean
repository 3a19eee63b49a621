import Mathlib

/-!
# `Lib.Serial` — conflict serializability

Jobs run on a shared state of cells, action by action and in between one another. The **mark** of an action says which
cells it looked at, which it wrote and what, and what it replied; the action `Obeys` it where it does just that,
whatever the other cells hold. Two actions are `Apart` when neither looks at a cell that the other writes, and where
both write they write the same. An action can change places with its neighbour when they are apart (`reorders_swap`).

`Before l i j` says that some action of job `i` comes before one of job `j` that it is not apart from. When no chain of
these leads from a job back to itself, the jobs can run one after the other, with the same replies and to the same state
(`exists_serial`). A run keeps free of such cycles when no action closes one (`acyclic_concat`).
-/

namespace Lib.Serial

open Relation

/-- What an action looked at, wrote and replied. -/
structure Mark (κ ν ρ : Type) where
  looks : Set κ
  writes : κ → Option ν
  reply : ρ

/-- Neither sees or undoes the other. -/
structure Mark.Apart {κ ν ρ : Type} (m n : Mark κ ν ρ) : Prop where
  left : ∀ k ∈ m.looks, n.writes k = none
  right : ∀ k ∈ n.looks, m.writes k = none
  same : ∀ k u v, m.writes k = some u → n.writes k = some v → u = v

/-- An action of a job. -/
structure Entry (α κ ν ρ : Type) where
  job : Nat
  action : α
  mark : Mark κ ν ρ

section Runs

variable {σ α κ ν ρ : Type} (view : σ → κ → ν) (act : α → σ → ρ × σ)

/-- Wherever the cells that the mark looks at hold what they hold here, the action does what the mark says. -/
def Obeys (a : α) (m : Mark κ ν ρ) (s : σ) : Prop :=
  ∀ t, (∀ k ∈ m.looks, view t k = view s k) →
    (act a t).1 = m.reply ∧ ∀ k, view (act a t).2 k = (m.writes k).getD (view t k)

open Classical in
/-- The mark of an action from a state: it looks at some cells, and what it leaves in others is what it writes. -/
noncomputable def record (a : α) (s : σ) (looks alters : Set κ) : Mark κ ν ρ where
  looks := looks
  writes k := if k ∈ alters then some (view (act a s).2 k) else none
  reply := (act a s).1

/-- The state after the actions. -/
def after : List (Entry α κ ν ρ) → σ → σ
  | [], s => s
  | e :: l, s => after l (act e.action s).2

/-- Every action does what its mark says. -/
def Plays : List (Entry α κ ν ρ) → σ → Prop
  | [], _ => True
  | e :: l, s => Obeys view act e.action e.mark s ∧ Plays l (act e.action s).2

/-- Where the one list plays, the other does, and ends in the same state. -/
def Reorders (l l' : List (Entry α κ ν ρ)) : Prop :=
  ∀ s, Plays view act l s → Plays view act l' s ∧ view (after act l' s) = view (after act l s)

variable {view act} {l l' r : List (Entry α κ ν ρ)} {e f : Entry α κ ν ρ} {s t : σ}

theorem Obeys.congr {a : α} {m : Mark κ ν ρ} (h : Obeys view act a m s) (hst : ∀ k ∈ m.looks, view t k = view s k) :
    Obeys view act a m t := by
  intro u hu
  exact h u fun k hk => (hu k hk).trans (hst k hk)

/-- What an action leaves in a cell. -/
theorem Obeys.view_act {a : α} {m : Mark κ ν ρ} (h : Obeys view act a m s) (k : κ) :
    view (act a s).2 k = (m.writes k).getD (view s k) := (h s fun _ _ => rfl).2 k

/-- An action whose doings depend on the cells it looks at only, and that leaves alone what it does not alter. -/
theorem obeys_record {a : α} {looks alters : Set κ}
    (h : ∀ t, (∀ k ∈ looks, view t k = view s k) → (act a t).1 = (act a s).1 ∧
      (∀ k ∈ alters, view (act a t).2 k = view (act a s).2 k) ∧ ∀ k ∉ alters, view (act a t).2 k = view t k) :
    Obeys view act a (record view act a s looks alters) s := by
  intro t ht
  obtain ⟨hreply, hwrites, hframe⟩ := h t ht
  refine ⟨hreply, fun k => ?_⟩
  by_cases hk : k ∈ alters
  · rw [hwrites k hk]
    simp [record, hk]
  · rw [hframe k hk]
    simp [record, hk]

theorem plays_append : Plays view act (l ++ r) s ↔ Plays view act l s ∧ Plays view act r (after act l s) := by
  induction l generalizing s with
  | nil => exact (iff_of_eq (true_and _)).symm
  | cons e l ih =>
      show _ ∧ Plays view act (l ++ r) _ ↔ (_ ∧ _) ∧ _
      rw [ih, and_assoc]
      rfl

theorem after_append : after act (l ++ r) s = after act r (after act l s) := by
  induction l generalizing s with
  | nil => rfl
  | cons e l ih => exact ih

/-- Only the contents of the cells matter. -/
theorem Plays.congr (h : Plays view act l s) (hst : view t = view s) :
    Plays view act l t ∧ view (after act l t) = view (after act l s) := by
  induction l generalizing s t with
  | nil => exact ⟨trivial, hst⟩
  | cons e l ih =>
      obtain ⟨hobeys, hplays⟩ := h
      have hobeys' : Obeys view act e.action e.mark t := hobeys.congr fun k _ => congrFun hst k
      have hnext : view (act e.action t).2 = view (act e.action s).2 := by
        funext k
        rw [hobeys'.view_act, hobeys.view_act, hst]
      obtain ⟨hrest, hend⟩ := ih hplays hnext
      exact ⟨⟨hobeys', hrest⟩, hend⟩

/-! ## Changing places -/

theorem Reorders.refl (l : List (Entry α κ ν ρ)) : Reorders view act l l := fun _ h => ⟨h, rfl⟩

theorem Reorders.trans (h : Reorders view act l l') (h' : Reorders view act l' r) : Reorders view act l r := by
  intro s hs
  obtain ⟨hplays, hend⟩ := h s hs
  obtain ⟨hplays', hend'⟩ := h' s hplays
  exact ⟨hplays', hend'.trans hend⟩

theorem Reorders.append_left (h : Reorders view act l l') (r : List (Entry α κ ν ρ)) :
    Reorders view act (r ++ l) (r ++ l') := by
  intro s hs
  rw [plays_append] at hs ⊢
  obtain ⟨hplays, hend⟩ := h _ hs.2
  rw [after_append, after_append]
  exact ⟨⟨hs.1, hplays⟩, hend⟩

/-- **Two actions that are apart change places.** -/
theorem reorders_swap (h : e.mark.Apart f.mark) : Reorders view act (e :: f :: l) (f :: e :: l) := by
  rintro s ⟨he, hf, hl⟩
  -- what the second looks at, the first has not written
  have hf' : Obeys view act f.action f.mark s := by
    refine hf.congr fun k hk => ?_
    rw [he.view_act, h.right k hk]
    rfl
  have he' : Obeys view act e.action e.mark (act f.action s).2 := by
    refine he.congr fun k hk => ?_
    rw [hf'.view_act, h.left k hk]
    rfl
  have hend : view (act e.action (act f.action s).2).2 = view (act f.action (act e.action s).2).2 := by
    funext k
    rw [he'.view_act, hf'.view_act, hf.view_act, he.view_act]
    cases hu : e.mark.writes k with
    | none => rfl
    | some u =>
        cases hv : f.mark.writes k with
        | none => rfl
        | some v => exact h.same k u v hu hv
  obtain ⟨hplays, hsame⟩ := hl.congr hend
  exact ⟨⟨hf', he', hplays⟩, hsame⟩

/-- An action moves behind others that it is apart from. -/
theorem reorders_push (h : ∀ f ∈ l, e.mark.Apart f.mark) : Reorders view act (e :: (l ++ r)) (l ++ e :: r) := by
  induction l with
  | nil => exact .refl _
  | cons f l ih =>
      refine (reorders_swap (h f List.mem_cons_self)).trans ?_
      exact (ih fun g hg => h g (List.mem_cons_of_mem _ hg)).append_left [f]

/-- The actions of a job move to the front when no action of another job stands in the way. -/
theorem reorders_extract {j : Nat}
    (h : l.Pairwise fun x y => x.job ≠ j → y.job = j → x.mark.Apart y.mark) :
    Reorders view act l (l.filter (fun e => e.job = j) ++ l.filter fun e => e.job ≠ j) := by
  induction l with
  | nil => exact .refl _
  | cons e l ih =>
      obtain ⟨hhead, htail⟩ := List.pairwise_cons.mp h
      have hrest := (ih htail).append_left [e]
      by_cases hj : e.job = j
      · rw [List.filter_cons_of_pos (by simpa using hj), List.filter_cons_of_neg (by simpa using hj)]
        exact hrest
      · rw [List.filter_cons_of_neg (by simpa using hj), List.filter_cons_of_pos (by simpa using hj)]
        have hpush : ∀ f ∈ l.filter (fun e => e.job = j), e.mark.Apart f.mark := by
          intro f hf
          obtain ⟨hmem, hfj⟩ := List.mem_filter.mp hf
          exact hhead f hmem hj (of_decide_eq_true hfj)
        exact hrest.trans (reorders_push hpush)

end Runs

/-! ## The order of the jobs -/

section Orders

variable {σ α κ ν ρ : Type} {view : σ → κ → ν} {act : α → σ → ρ × σ} {l l' : List (Entry α κ ν ρ)} {e : Entry α κ ν ρ}
  {js : List Nat}

/-- An action of the first job comes before an action of the second that it is not apart from. -/
def Before (l : List (Entry α κ ν ρ)) (i j : Nat) : Prop :=
  i ≠ j ∧ ∃ x y, List.Sublist [x, y] l ∧ x.job = i ∧ y.job = j ∧ ¬ x.mark.Apart y.mark

/-- No chain leads from a job back to itself. -/
def Acyclic (l : List (Entry α κ ν ρ)) : Prop := ∀ i, ¬ TransGen (Before l) i i

/-- The jobs one after the other. -/
def serial (js : List Nat) (l : List (Entry α κ ν ρ)) : List (Entry α κ ν ρ) :=
  js.flatMap fun j => l.filter fun e => e.job = j

/-- An order of the jobs of a run in which none comes before one that it has to come after. -/
structure Arranges (js : List Nat) (l : List (Entry α κ ν ρ)) : Prop where
  nodup : js.Nodup
  mem : ∀ j, j ∈ js ↔ ∃ e ∈ l, e.job = j
  order : js.Pairwise fun i j => ¬ Before l j i

theorem Before.mono (h : List.Sublist l l') {i j : Nat} (hb : Before l i j) : Before l' i j := by
  obtain ⟨hij, x, y, hxy, hrest⟩ := hb
  exact ⟨hij, x, y, hxy.trans h, hrest⟩

theorem Before.mem {i j : Nat} (h : Before l i j) : (∃ e ∈ l, e.job = i) ∧ ∃ e ∈ l, e.job = j := by
  obtain ⟨-, x, y, hxy, hx, hy, -⟩ := h
  exact ⟨⟨x, hxy.subset List.mem_cons_self, hx⟩, y, hxy.subset (List.mem_cons_of_mem _ List.mem_cons_self), hy⟩

/-- The first job of an arrangement has nothing in front of it. -/
theorem apart_of_first {j : Nat} (hmem : ∀ e ∈ l, e.job = j ∨ e.job ∈ js) (hfirst : ∀ i ∈ js, ¬ Before l i j) :
    l.Pairwise fun x y => x.job ≠ j → y.job = j → x.mark.Apart y.mark := by
  rw [List.pairwise_iff_forall_sublist]
  intro x y hxy hx hy
  by_contra hno
  have hmem := (hmem x (hxy.subset List.mem_cons_self)).resolve_left hx
  exact hfirst x.job hmem ⟨hx, x, y, hxy, rfl, hy, hno⟩

theorem serial_filter {j : Nat} (h : j ∉ js) : serial js (l.filter fun e => e.job ≠ j) = serial js l := by
  unfold serial
  refine List.flatMap_congr fun i hi => ?_
  rw [List.filter_filter]
  refine List.filter_congr fun e _ => ?_
  have hij : i ≠ j := fun he => h (he ▸ hi)
  by_cases hei : e.job = i
  · simp [hei, hij]
  · simp [hei]

theorem mem_rest {j : Nat} (hmem : ∀ e ∈ l, e.job ∈ j :: js) : ∀ e ∈ l.filter (fun e => e.job ≠ j), e.job ∈ js := by
  intro e he
  obtain ⟨hmem', hne⟩ := List.mem_filter.mp he
  exact (List.mem_cons.mp (hmem e hmem')).resolve_left (of_decide_eq_true hne)

/-- The jobs run one after the other in an order that keeps every conflict as it was. -/
theorem reorders_serial (hnodup : js.Nodup) (hmem : ∀ e ∈ l, e.job ∈ js)
    (horder : js.Pairwise fun i j => ¬ Before l j i) : Reorders view act l (serial js l) := by
  induction js generalizing l with
  | nil =>
      cases l with
      | nil => exact .refl _
      | cons e l => exact absurd (hmem e List.mem_cons_self) List.not_mem_nil
  | cons j js ih =>
      obtain ⟨hj, hnodup⟩ := List.nodup_cons.mp hnodup
      obtain ⟨hfirst, horder⟩ := List.pairwise_cons.mp horder
      have hsub : List.Sublist (l.filter fun e => e.job ≠ j) l := List.filter_sublist
      have hrest : Reorders view act (l.filter fun e => e.job ≠ j) (serial js (l.filter fun e => e.job ≠ j)) :=
        ih hnodup (mem_rest hmem) (horder.imp fun hno hb => hno (hb.mono hsub))
      rw [serial_filter hj] at hrest
      refine (reorders_extract (apart_of_first (fun e he => List.mem_cons.mp (hmem e he)) hfirst)).trans ?_
      exact hrest.append_left _

/-- **Without a cycle there is an order.** -/
theorem exists_arranges (h : Acyclic l) : ∃ js, Arranges js l := by
  classical
  let R : Nat → Nat → Prop := ReflTransGen (Before l)
  have hpartial : IsPartialOrder Nat R :=
    { refl := fun _ => .refl
      trans := fun _ _ _ => ReflTransGen.trans
      antisymm := by
        intro i j hij hji
        by_contra hne
        rcases reflTransGen_iff_eq_or_transGen.mp hij with heq | htrans
        · exact hne heq.symm
        · exact h i (htrans.trans_left hji) }
  obtain ⟨S, hlinear, hle⟩ := extend_partialOrder R
  let js := ((l.map Entry.job).dedup).insertionSort S
  have hperm : js.Perm (l.map Entry.job).dedup := List.perm_insertionSort S _
  have hnodup : js.Nodup := hperm.nodup_iff.mpr (List.nodup_dedup _)
  refine ⟨js, hnodup, ?_, ?_⟩
  · intro j
    rw [hperm.mem_iff, List.mem_dedup, List.mem_map]
  · have hsorted : js.Pairwise S := List.pairwise_insertionSort S _
    refine hsorted.imp₂ ?_ hnodup
    intro i j hij hne hb
    exact hne (hlinear.antisymm i j hij (hle j i (.single hb)))

/-- **Conflict serializability.** -/
theorem exists_serial (h : Acyclic l) : ∃ js, Arranges js l ∧ Reorders view act l (serial js l) := by
  obtain ⟨js, hjs⟩ := exists_arranges h
  exact ⟨js, hjs, reorders_serial hjs.nodup (fun e he => (hjs.mem e.job).mpr ⟨e, he, rfl⟩) hjs.order⟩

/-- A job comes in front of those it has to come before. -/
theorem Arranges.idxOf_lt (h : Arranges js l) {i j : Nat} (hb : Before l i j) : js.idxOf i < js.idxOf j := by
  have hi : i ∈ js := (h.mem i).mpr hb.mem.1
  have hj : j ∈ js := (h.mem j).mpr hb.mem.2
  by_contra hno
  have hne : js.idxOf j ≠ js.idxOf i := fun heq => hb.1 (List.idxOf_inj hi |>.mp heq.symm)
  have hlt : js.idxOf j < js.idxOf i := by omega
  have hpair := List.pairwise_iff_getElem.mp h.order _ _ (List.idxOf_lt_length_iff.mpr hj)
    (List.idxOf_lt_length_iff.mpr hi) hlt
  rw [List.getElem_idxOf, List.getElem_idxOf] at hpair
  exact hpair hb

/-- Where no action of another job stands in front of those of one, they can be listed first. -/
theorem filter_partition {j : Nat} {p : Entry α κ ν ρ → Bool}
    (h : l.Pairwise fun x y => x.job ≠ j → y.job = j → p x = true → p y = false) :
    (l.filter fun e => e.job = j).filter p ++ (l.filter fun e => e.job ≠ j).filter p = l.filter p := by
  induction l with
  | nil => rfl
  | cons e l ih =>
      obtain ⟨hhead, htail⟩ := List.pairwise_cons.mp h
      have hrest := ih htail
      by_cases hj : e.job = j
      · have hfirst : (e :: l).filter (fun e => e.job = j) = e :: l.filter fun e => e.job = j :=
          List.filter_cons_of_pos (by simpa using hj)
        have hothers : (e :: l).filter (fun e => e.job ≠ j) = l.filter fun e => e.job ≠ j :=
          List.filter_cons_of_neg (by simpa using hj)
        rw [hfirst, hothers, List.filter_cons, List.filter_cons, ← hrest]
        split <;> rfl
      · have hfirst : (e :: l).filter (fun e => e.job = j) = l.filter fun e => e.job = j :=
          List.filter_cons_of_neg (by simpa using hj)
        have hothers : (e :: l).filter (fun e => e.job ≠ j) = e :: l.filter fun e => e.job ≠ j :=
          List.filter_cons_of_pos (by simpa using hj)
        rw [hfirst, hothers]
        cases hp : p e with
        | false =>
            rw [List.filter_cons_of_neg (by simp [hp]), List.filter_cons_of_neg (by simp [hp])]
            exact hrest
        | true =>
            -- nothing of job `j` that counts comes later
            have hnil : (l.filter fun e => e.job = j).filter p = [] := by
              rw [List.filter_eq_nil_iff]
              intro y hy
              obtain ⟨hmem, hyj⟩ := List.mem_filter.mp hy
              rw [hhead y hmem hj (of_decide_eq_true hyj) hp]
              exact Bool.false_ne_true
            rw [hnil, List.nil_append] at hrest ⊢
            rw [List.filter_cons_of_pos hp, List.filter_cons_of_pos hp, hrest]

/-- Actions of which no two are apart keep their order. -/
theorem filter_serial {p : Entry α κ ν ρ → Bool}
    (hp : ∀ x ∈ l, ∀ y ∈ l, p x = true → p y = true → ¬ x.mark.Apart y.mark) (hnodup : js.Nodup)
    (hmem : ∀ e ∈ l, e.job ∈ js) (horder : js.Pairwise fun i j => ¬ Before l j i) :
    (serial js l).filter p = l.filter p := by
  induction js generalizing l with
  | nil =>
      cases l with
      | nil => rfl
      | cons e l => exact absurd (hmem e List.mem_cons_self) List.not_mem_nil
  | cons j js ih =>
      obtain ⟨hj, hnodup⟩ := List.nodup_cons.mp hnodup
      obtain ⟨hfirst, horder⟩ := List.pairwise_cons.mp horder
      have hrest := ih (l := l.filter fun e => e.job ≠ j)
        (fun x hx y hy => hp x (List.mem_of_mem_filter hx) y (List.mem_of_mem_filter hy)) hnodup (mem_rest hmem)
        (horder.imp fun hno hb => hno (hb.mono List.filter_sublist))
      rw [serial_filter hj] at hrest
      have hapart := apart_of_first (fun e he => List.mem_cons.mp (hmem e he)) hfirst
      have hpart : l.Pairwise fun x y => x.job ≠ j → y.job = j → p x = true → p y = false := by
        refine hapart.imp_of_mem fun {x y} hmemx hmemy h hx hy hpx => ?_
        by_contra hpy
        exact hp x hmemx y hmemy hpx (Bool.not_eq_false _ |>.mp hpy) (h hx hy)
      rw [← filter_partition hpart, ← hrest, ← List.filter_append]
      rfl

/-! ## Runs without cycles -/

theorem acyclic_nil : Acyclic ([] : List (Entry α κ ν ρ)) := by
  intro i hi
  obtain ⟨j, hb, -⟩ := TransGen.head'_iff.mp hi
  obtain ⟨e, he, -⟩ := hb.mem.1
  cases he

/-- The next action closes a cycle: it has to come after a job that its own job has to come before. -/
def Closes (l : List (Entry α κ ν ρ)) (e : Entry α κ ν ρ) : Prop :=
  ∃ x ∈ l, x.job ≠ e.job ∧ ¬ x.mark.Apart e.mark ∧ TransGen (Before l) e.job x.job

/-- An action closes nothing while whatever comes after an action of its job is apart from that. -/
theorem not_closes_of_apart (h : l.Pairwise fun x y => x.job = e.job → y.job ≠ e.job → x.mark.Apart y.mark) :
    ¬ Closes l e := by
  rintro ⟨x, hx, hne, hno, hchain⟩
  obtain ⟨j, ⟨hj, y, z, hyz, hy, rfl, hnot⟩, -⟩ := TransGen.head'_iff.mp hchain
  exact hnot (List.pairwise_iff_forall_sublist.mp h hyz hy hj.symm)

/-- The first action of a job closes nothing. -/
theorem not_closes_of_new (h : ∀ x ∈ l, x.job ≠ e.job) : ¬ Closes l e := by
  refine not_closes_of_apart (List.pairwise_of_forall_mem_list fun x hx y hy hxe => ?_)
  exact absurd hxe (h x hx)

theorem before_concat {i j : Nat} (h : Before (l ++ [e]) i j) :
    Before l i j ∨ j = e.job ∧ i ≠ e.job ∧ ∃ x ∈ l, x.job = i ∧ ¬ x.mark.Apart e.mark := by
  obtain ⟨hij, x, y, hxy, hx, hy, hno⟩ := h
  obtain ⟨l₁, l₂, hsplit, h₁, h₂⟩ := List.sublist_append_iff.mp hxy
  rcases List.sublist_singleton.mp h₂ with rfl | rfl
  · rw [List.append_nil] at hsplit
    exact Or.inl ⟨hij, x, y, hsplit ▸ h₁, hx, hy, hno⟩
  · -- the later action is the new one
    obtain ⟨rfl, hye⟩ : l₁ = [x] ∧ y = e := by
      cases l₁ with
      | nil => cases hsplit
      | cons z l₁ =>
          obtain ⟨rfl, hrest⟩ := List.cons_eq_cons.mp hsplit
          cases l₁ with
          | nil => exact ⟨rfl, List.head_eq_of_cons_eq hrest⟩
          | cons w l₁ =>
              have hlen := congrArg List.length hrest
              simp at hlen
    subst hye
    exact Or.inr ⟨hy.symm, fun h => hij (h.trans hy), x, List.singleton_sublist.mp h₁, hx, hno⟩

/-- A chain that the new action makes leads to a job that its own has to come after, and on from its own. -/
theorem transGen_concat (he : ¬ Closes l e) {i j : Nat} (h : TransGen (Before (l ++ [e])) i j) :
    TransGen (Before l) i j ∨ ∃ x ∈ l, x.job ≠ e.job ∧ ¬ x.mark.Apart e.mark ∧
      ReflTransGen (Before l) i x.job ∧ ReflTransGen (Before l) e.job j := by
  induction h with
  | single h =>
      rcases before_concat h with h | ⟨rfl, hne, x, hx, rfl, hno⟩
      · exact Or.inl (.single h)
      · exact Or.inr ⟨x, hx, hne, hno, .refl, .refl⟩
  | tail _ h ih =>
      rcases before_concat h with h | ⟨rfl, hne, x, hx, rfl, hno⟩
      · rcases ih with ih | ⟨x, hx, hne, hno, hto, hfrom⟩
        · exact Or.inl (ih.tail h)
        · exact Or.inr ⟨x, hx, hne, hno, hto, hfrom.tail h⟩
      · rcases ih with ih | ⟨x', hx', hne', hno', hto, hfrom⟩
        · exact Or.inr ⟨x, hx, hne, hno, ih.to_reflTransGen, .refl⟩
        · -- on from the new action to one that it comes after
          rcases reflTransGen_iff_eq_or_transGen.mp hfrom with heq | hfrom
          · exact absurd heq hne
          · exact absurd ⟨x, hx, hne, hno, hfrom⟩ he

/-- **No cycle comes about** by an action that closes none. -/
theorem acyclic_concat (h : Acyclic l) (he : ¬ Closes l e) : Acyclic (l ++ [e]) := by
  intro i hi
  rcases transGen_concat he hi with hi | ⟨x, hx, hne, hno, hto, hfrom⟩
  · exact h i hi
  · rcases reflTransGen_iff_eq_or_transGen.mp (hfrom.trans hto) with heq | hcycle
    · exact hne heq
    · exact he ⟨x, hx, hne, hno, hcycle⟩

end Orders

end Lib.Serial
