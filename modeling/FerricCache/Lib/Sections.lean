import FerricCache.Lib.Run

/-!
# `Lib.Sections` — operations made of critical sections

An operation is a program of critical sections (`Prog`): each looks at some keys of the store, may write some
of them, and says how the operation goes on. Any number of clients run operations side by side; what is atomic
is a section, so sections of other clients may run between two sections of one operation.

A section is **clear** of another client's operation that is under way when it looks at nothing that operation
has written so far, and writes nothing it has looked at. In a run of clear sections every operation has the
outcome it has when all its sections run back to back, in the order in which the operations end
(`run_serial`): what was done so far of an operation under way commutes past everything that ended meanwhile.
-/

namespace Lib.Sections

open Lib.Run

/-- The critical sections of an operation; `ε` is what a section reads of the outside. -/
inductive Prog (σ κ ε ρ : Type)
  | done (reply : ρ)
  | sect (keys writes : Set κ) (act : ε → σ → σ) (next : ε → σ → Prog σ κ ε ρ)

variable {σ κ ν ε ρ ο : Type}

namespace Prog

/-- Reply and store after all the sections, back to back, each with its own reading of the outside. -/
def result : List ε → Prog σ κ ε ρ → σ → Option (ρ × σ)
  | [], .done r, s => some (r, s)
  | e :: es, .sect _ _ act next, s => result es (next e s) (act e s)
  | _, _, _ => none

/-- The same when all sections read the outside alike. -/
def atomic (e : ε) : Prog σ κ ε ρ → σ → ρ × σ
  | .done r, s => (r, s)
  | .sect _ _ act next, s => atomic e (next e s) (act e s)

@[simp] theorem atomic_done (e : ε) (r : ρ) (s : σ) : atomic e (.done r : Prog σ κ ε ρ) s = (r, s) := rfl

@[simp] theorem atomic_sect (e : ε) (keys writes : Set κ) (act : ε → σ → σ) (next : ε → σ → Prog σ κ ε ρ) (s : σ) :
    atomic e (.sect keys writes act next) s = atomic e (next e s) (act e s) := rfl

/-- A section looks at its keys and changes, among them, those it writes. -/
def Local (look : σ → κ → ν) : Prog σ κ ε ρ → Prop
  | .done _ => True
  | .sect keys writes act next =>
      writes ⊆ keys ∧
      (∀ e s t, (∀ k ∈ keys, look s k = look t k) → next e s = next e t) ∧
      (∀ e s t, (∀ k ∈ keys, look s k = look t k) → ∀ k ∈ keys, look (act e s) k = look (act e t) k) ∧
      (∀ e s, ∀ k ∉ writes, look (act e s) k = look s k) ∧
      ∀ e s, (next e s).Local look

end Prog

/-! ## Operations under way -/

/-- The sections of `p` run so far, back to back from `s`: what is left of the operation, the store, and
    the keys looked at and written. -/
inductive Partial (p : Prog σ κ ε ρ) (s : σ) : List ε → Prog σ κ ε ρ → σ → Set κ → Set κ → Prop
  | start : Partial p s [] p s ∅ ∅
  | step {es : List ε} {keys writes : Set κ} {act : ε → σ → σ} {next : ε → σ → Prog σ κ ε ρ} {m : σ}
      {seen wrote : Set κ} (e : ε) (h : Partial p s es (.sect keys writes act next) m seen wrote) :
      Partial p s (es ++ [e]) (next e m) (act e m) (seen ∪ keys) (wrote ∪ writes)

namespace Partial

variable {look : σ → κ → ν} {p rest : Prog σ κ ε ρ} {s m t : σ} {es : List ε} {seen wrote : Set κ}

theorem result_append (h : Partial p s es rest m seen wrote) (fs : List ε) :
    p.result (es ++ fs) s = rest.result fs m := by
  induction h generalizing fs with
  | start => rfl
  | step e _ ih => rw [List.append_assoc, ih]; rfl

/-- At its end an operation has its outcome. -/
theorem result_eq {r : ρ} (h : Partial p s es (.done r) m seen wrote) : p.result es s = some (r, m) := by
  rw [← List.append_nil es, h.result_append]
  rfl

/-- Before the first section all of the operation is left. -/
theorem rest_nil (h : Partial p s [] rest m seen wrote) : rest = p ∧ m = s := by
  generalize hes : [] = es at h
  cases h with
  | start => exact ⟨rfl, rfl⟩
  | step e h => simp at hes

/-- What is left after the first section. -/
theorem rest_one {e : ε} (h : Partial p s [e] rest m seen wrote) :
    ∃ keys writes act next, p = .sect keys writes act next ∧ rest = next e s := by
  generalize hes : [e] = es at h
  cases h with
  | start => cases hes
  | @step es keys writes act next m seen wrote e' h =>
      obtain ⟨rfl, rfl⟩ : es = [] ∧ e' = e := by
        cases es with
        | nil => exact ⟨rfl, by simpa using hes.symm⟩
        | cons x xs => simp at hes
      obtain ⟨hp, rfl⟩ := h.rest_nil
      exact ⟨keys, writes, act, next, hp.symm, rfl⟩

theorem rest_local (h : Partial p s es rest m seen wrote) (hp : p.Local look) : rest.Local look := by
  induction h with
  | start => exact hp
  | step e _ ih => exact ih.2.2.2.2 e _

theorem wrote_subset (h : Partial p s es rest m seen wrote) (hp : p.Local look) : wrote ⊆ seen := by
  induction h with
  | start => exact Set.empty_subset _
  | step e h ih =>
      have hsub := (h.rest_local hp).1
      exact Set.union_subset_union ih hsub

/-- What was not written is as before. -/
theorem frame (h : Partial p s es rest m seen wrote) (hp : p.Local look) {k : κ} (hk : k ∉ wrote) :
    look m k = look s k := by
  induction h with
  | start => rfl
  | step e h ih =>
      have hk' := not_or.mp hk
      rw [(h.rest_local hp).2.2.2.1 e _ k hk'.2, ih hk'.1]

/-- Sections run the same on another store that agrees on what they look at. -/
theorem transfer (h : Partial p s es rest m seen wrote) (hp : p.Local look)
    (hst : ∀ k ∈ seen, look s k = look t k) :
    ∃ n, Partial p t es rest n seen wrote ∧ ∀ k ∈ seen, look m k = look n k := by
  induction h with
  | start => exact ⟨t, .start, hst⟩
  | @step es keys writes act next m seen wrote e h ih =>
      obtain ⟨n, hn, hmn⟩ := ih fun k hk => hst k (Or.inl hk)
      have hsub := h.wrote_subset hp
      obtain ⟨_, hnext, hact, hframe, _⟩ := h.rest_local hp
      -- a key the next section looks at for the first time was not written so far
      have hkeys : ∀ k ∈ keys, look m k = look n k := by
        intro k hk
        by_cases hs : k ∈ seen
        · exact hmn k hs
        · have hw : k ∉ wrote := fun hw => hs (hsub hw)
          rw [h.frame hp hw, hn.frame hp hw, hst k (Or.inr hk)]
      refine ⟨act e n, ?_, ?_⟩
      · rw [hnext e m n hkeys]
        exact hn.step e
      · intro k hk
        by_cases hk' : k ∈ keys
        · exact hact e m n hkeys k hk'
        · have hs : k ∈ seen := hk.resolve_right hk'
          have hw : k ∉ writes := fun hw => hk' ((h.rest_local hp).1 hw)
          rw [hframe e m k hw, hframe e n k hw, hmn k hs]

end Partial

/-! ## Clients side by side -/

/-- A client's operation that is under way: the outside readings so far, what is left, and the keys looked at
    and written. -/
structure Flight (σ κ ε ρ ο : Type) where
  op : ο
  reads : List ε
  rest : Prog σ κ ε ρ
  seen : Set κ
  wrote : Set κ

/-- An operation that ended. -/
structure Entry (ε ρ ο : Type) where
  client : Nat
  op : ο
  reads : List ε
  reply : ρ

/-- The store, the operations under way, and those that ended, in the order of their ends. -/
structure State (σ κ ε ρ ο : Type) where
  store : σ
  flights : Nat → Option (Flight σ κ ε ρ ο)
  history : List (Entry ε ρ ο)

/-- A client begins an operation, or runs the next section of its operation. -/
inductive Event (ε ο : Type)
  | start (i : Nat) (o : ο)
  | enter (i : Nat) (e : ε)

/-- Nothing is under way and nothing ended. -/
def State.init (s : σ) : State σ κ ε ρ ο := ⟨s, fun _ => none, []⟩

/-- The client's operation stands at `f`: it ended when nothing is left of it. -/
def State.land (w : State σ κ ε ρ ο) (i : Nat) (f : Flight σ κ ε ρ ο) (s : σ) : State σ κ ε ρ ο :=
  match f.rest with
  | .done r => ⟨s, Function.update w.flights i none, w.history ++ [⟨i, f.op, f.reads, r⟩]⟩
  | .sect _ _ _ _ => ⟨s, Function.update w.flights i (some f), w.history⟩

section System

variable (program : ο → Option (Prog σ κ ε ρ))

/-- One step of the system. -/
def step (w : State σ κ ε ρ ο) : Event ε ο → Option (State σ κ ε ρ ο)
  | .start i o =>
      match w.flights i, program o with
      | none, some p => some { w with flights := Function.update w.flights i (some ⟨o, [], p, ∅, ∅⟩) }
      | _, _ => none
  | .enter i e =>
      match w.flights i with
      | none => none
      | some f =>
          match f.rest with
          | .done _ => none
          | .sect keys writes act next =>
              some (w.land i ⟨f.op, f.reads ++ [e], next e w.store, f.seen ∪ keys, f.wrote ∪ writes⟩
                (act e w.store))

/-- The next section of the client looks at nothing another operation under way has written, and writes
    nothing it has looked at. -/
def Clear (w : State σ κ ε ρ ο) : Event ε ο → Prop
  | .start _ _ => True
  | .enter i _ => ∀ f keys writes act next, w.flights i = some f → f.rest = .sect keys writes act next →
      ∀ j g, j ≠ i → w.flights j = some g → Disjoint keys g.wrote ∧ Disjoint writes g.seen

/-- Run one after the other from `s`, each back to back, the operations have the recorded replies and leave
    `t`. -/
def Plays : σ → List (Entry ε ρ ο) → σ → Prop
  | s, [], t => s = t
  | s, x :: xs, t => ∃ p m, program x.op = some p ∧ p.result x.reads s = some (x.reply, m) ∧ Plays m xs t

variable {program}

theorem Plays.snoc {s t u : σ} {xs : List (Entry ε ρ ο)} {x : Entry ε ρ ο} {p : Prog σ κ ε ρ}
    (h : Plays program s xs t) (hp : program x.op = some p) (hx : p.result x.reads t = some (x.reply, u)) :
    Plays program s (xs ++ [x]) u := by
  induction xs generalizing s with
  | nil =>
      cases h
      exact ⟨p, u, hp, hx, rfl⟩
  | cons y ys ih =>
      obtain ⟨q, m, hq, hy, hm⟩ := h
      exact ⟨q, m, hq, hy, ih hm⟩

/-! ## A run of clear sections is serial -/

/-- What holds at any moment, `t` being the store after the operations that ended, one after the other:
    it is the store where nothing under way has written, and an operation under way, run from `t` as far as it
    is, would have seen what it saw. -/
structure Inv (look : σ → κ → ν) (program : ο → Option (Prog σ κ ε ρ)) (s₀ : σ) (w : State σ κ ε ρ ο) (t : σ) :
    Prop where
  plays : Plays program s₀ w.history t
  off : ∀ k, (∀ i f, w.flights i = some f → k ∉ f.wrote) → look w.store k = look t k
  flight : ∀ i f, w.flights i = some f → ∃ p m, program f.op = some p ∧
    Partial p t f.reads f.rest m f.seen f.wrote ∧ ∀ k ∈ f.seen, look m k = look w.store k
  apart : ∀ i j f g, i ≠ j → w.flights i = some f → w.flights j = some g → Disjoint f.wrote g.seen

section Serial

variable {look : σ → κ → ν} {s₀ t : σ} {w w' : State σ κ ε ρ ο}

theorem Inv.init : Inv look program s₀ (State.init s₀) s₀ where
  plays := rfl
  off _ _ := rfl
  flight _ _ h := by cases h
  apart _ _ _ _ _ h := by cases h

/-- A flight after an update is the new one, or one of the others. -/
theorem update_some {i j : Nat} {o : Option (Flight σ κ ε ρ ο)} {g : Flight σ κ ε ρ ο}
    (h : Function.update w.flights i o j = some g) : (j = i ∧ o = some g) ∨ (j ≠ i ∧ w.flights j = some g) := by
  by_cases hj : j = i
  · subst hj
    rw [Function.update_self] at h
    exact Or.inl ⟨rfl, h⟩
  · rw [Function.update_of_ne hj] at h
    exact Or.inr ⟨hj, h⟩

/-- An operation that has just begun. -/
theorem Inv.start {i : Nat} {o : ο} {p : Prog σ κ ε ρ} (h : Inv look program s₀ w t) (hi : w.flights i = none)
    (hp : program o = some p) :
    Inv look program s₀
      { w with flights := Function.update w.flights i (some ⟨o, [], p, ∅, ∅⟩) } t where
  plays := h.plays
  off k hk := by
    apply h.off
    intro j f hj
    have hne : j ≠ i := fun he => by rw [he, hi] at hj; cases hj
    exact hk j f (by rw [← hj]; exact Function.update_of_ne hne _ _)
  flight j g hg := by
    rcases update_some hg with ⟨-, he⟩ | ⟨-, hj⟩
    · cases he
      exact ⟨p, t, hp, .start, fun k hk => absurd hk (Set.notMem_empty k)⟩
    · exact h.flight j g hj
  apart j l f g hne hf hg := by
    rcases update_some hf with ⟨-, he⟩ | ⟨hj, hf'⟩
    · cases he
      exact Set.empty_disjoint _
    · rcases update_some hg with ⟨-, he⟩ | ⟨-, hg'⟩
      · cases he
        exact Set.disjoint_empty _
      · exact h.apart j l f g hne hf' hg'

/-- The next section of an operation under way, before it is known whether it is the last. -/
theorem Inv.enter (hlocal : ∀ o p, program o = some p → p.Local look) {i : Nat} {e : ε}
    {f : Flight σ κ ε ρ ο} {keys writes : Set κ} {act : ε → σ → σ} {next : ε → σ → Prog σ κ ε ρ}
    (h : Inv look program s₀ w t) (hc : Clear w (.enter i e)) (hf : w.flights i = some f)
    (hr : f.rest = .sect keys writes act next) :
    Inv look program s₀
      { w with
        store := act e w.store
        flights := Function.update w.flights i
          (some ⟨f.op, f.reads ++ [e], next e w.store, f.seen ∪ keys, f.wrote ∪ writes⟩) } t := by
  obtain ⟨p, m, hp, hm, hseen⟩ := h.flight i f hf
  rw [hr] at hm
  have hclear := hc f keys writes act next hf hr
  have hsub := hm.wrote_subset (hlocal _ p hp)
  obtain ⟨hwk, hnext, hact, hframe, -⟩ := hm.rest_local (hlocal _ p hp)
  -- the section finds what it would find right after the sections before it
  have hkeys : ∀ k ∈ keys, look m k = look w.store k := by
    intro k hk
    by_cases hs : k ∈ f.seen
    · exact hseen k hs
    · rw [hm.frame (hlocal _ p hp) fun hw => hs (hsub hw)]
      symm
      apply h.off
      intro j g hg hkg
      by_cases hj : j = i
      · subst hj
        rw [hf] at hg
        cases hg
        exact hs (hsub hkg)
      · exact Set.disjoint_left.mp (hclear j g hj hg).1 hk hkg
  refine ⟨h.plays, ?_, ?_, ?_⟩
  · intro k hk
    have hmine : k ∉ f.wrote ∪ writes := hk i _ (Function.update_self ..)
    show look (act e w.store) k = look t k
    rw [hframe e _ k fun hw => hmine (Or.inr hw)]
    apply h.off
    intro j g hg hkg
    by_cases hj : j = i
    · subst hj
      rw [hf] at hg
      cases hg
      exact hmine (Or.inl hkg)
    · exact hk j g (by rw [← hg]; exact Function.update_of_ne hj _ _) hkg
  · intro j g hg
    rcases update_some hg with ⟨-, he⟩ | ⟨hj, hg'⟩
    · cases he
      refine ⟨p, act e m, hp, ?_, ?_⟩
      · show Partial p t (f.reads ++ [e]) (next e w.store) (act e m) _ _
        rw [← hnext e m w.store hkeys]
        exact hm.step e
      · intro k hk
        show look (act e m) k = look (act e w.store) k
        by_cases hk' : k ∈ keys
        · exact hact e m w.store hkeys k hk'
        · have hw : k ∉ writes := fun hw => hk' (hwk hw)
          rw [hframe e m k hw, hframe e w.store k hw, hseen k (hk.resolve_right hk')]
    · obtain ⟨q, n, hq, hn, hagree⟩ := h.flight j g hg'
      refine ⟨q, n, hq, hn, ?_⟩
      intro k hk
      show look n k = look (act e w.store) k
      rw [hframe e _ k fun hw => Set.disjoint_left.mp (hclear j g hj hg').2 hw hk, hagree k hk]
  · intro j l g g' hne hg hg'
    rcases update_some hg with ⟨hj, he⟩ | ⟨hj, hgj⟩
    · rcases update_some hg' with ⟨hl, -⟩ | ⟨hl, hgl⟩
      · exact absurd (hj.trans hl.symm) hne
      · cases he
        refine Set.disjoint_union_left.mpr ⟨h.apart i l f g' (Ne.symm hl) hf hgl, ?_⟩
        exact (hclear l g' hl hgl).2
    · rcases update_some hg' with ⟨hl, he⟩ | ⟨-, hgl⟩
      · cases he
        refine Set.disjoint_union_right.mpr ⟨h.apart j i g f hj hgj hf, ?_⟩
        exact (hclear j g hj hgj).1.symm
      · exact h.apart j l g g' hne hgj hgl

/-- An operation of which nothing is left ends: it goes last in the order. -/
theorem Inv.land (hlocal : ∀ o p, program o = some p → p.Local look) {i : Nat} {f : Flight σ κ ε ρ ο} {r : ρ}
    (h : Inv look program s₀ w t) (hf : w.flights i = some f) (hr : f.rest = .done r) :
    ∃ u, Inv look program s₀
      ⟨w.store, Function.update w.flights i none, w.history ++ [⟨i, f.op, f.reads, r⟩]⟩ u := by
  obtain ⟨p, m, hp, hm, hseen⟩ := h.flight i f hf
  rw [hr] at hm
  refine ⟨m, h.plays.snoc hp hm.result_eq, ?_, ?_, ?_⟩
  · intro k hk
    show look w.store k = look m k
    by_cases hs : k ∈ f.seen
    · exact (hseen k hs).symm
    · have hw : k ∉ f.wrote := fun hw => hs (hm.wrote_subset (hlocal _ p hp) hw)
      rw [hm.frame (hlocal _ p hp) hw]
      apply h.off
      intro j g hg
      by_cases hj : j = i
      · subst hj
        rw [hf] at hg
        cases hg
        exact hw
      · exact hk j g (by rw [← hg]; exact Function.update_of_ne hj _ _)
  · intro j g hg
    rcases update_some hg with ⟨-, he⟩ | ⟨hj, hg'⟩
    · cases he
    · obtain ⟨q, n, hq, hn, hagree⟩ := h.flight j g hg'
      -- the operation that ended wrote nothing the other has looked at
      have hsame : ∀ k ∈ g.seen, look t k = look m k := by
        intro k hk
        exact (hm.frame (hlocal _ p hp) fun hw =>
          Set.disjoint_left.mp (h.apart i j f g (Ne.symm hj) hf hg') hw hk).symm
      obtain ⟨n', hn', hnn⟩ := hn.transfer (hlocal _ q hq) hsame
      exact ⟨q, n', hq, hn', fun k hk => (hnn k hk).symm.trans (hagree k hk)⟩
  · intro j l g g' hne hg hg'
    rcases update_some hg with ⟨-, he⟩ | ⟨-, hgj⟩
    · cases he
    · rcases update_some hg' with ⟨-, he⟩ | ⟨-, hgl⟩
      · cases he
      · exact h.apart j l g g' hne hgj hgl

/-- What a step does. -/
theorem step_cases {ev : Event ε ο} (h : step program w ev = some w') :
    (∃ i o p, ev = .start i o ∧ w.flights i = none ∧ program o = some p ∧
      w' = { w with flights := Function.update w.flights i (some ⟨o, [], p, ∅, ∅⟩) }) ∨
    (∃ i e f keys writes act next, ev = .enter i e ∧ w.flights i = some f ∧
      f.rest = .sect keys writes act next ∧
      w' = w.land i ⟨f.op, f.reads ++ [e], next e w.store, f.seen ∪ keys, f.wrote ∪ writes⟩
        (act e w.store)) := by
  cases ev with
  | start i o =>
      simp only [step] at h
      split at h
      · rename_i p hi hp
        cases h
        exact Or.inl ⟨i, o, p, rfl, hi, hp, rfl⟩
      · cases h
  | enter i e =>
      simp only [step] at h
      split at h
      · cases h
      · rename_i f hf
        split at h
        · cases h
        · rename_i keys writes act next hr
          cases h
          exact Or.inr ⟨i, e, f, keys, writes, act, next, rfl, hf, hr, rfl⟩

/-- A clear step keeps the invariant. -/
theorem Inv.step (hlocal : ∀ o p, program o = some p → p.Local look) {ev : Event ε ο}
    (h : Inv look program s₀ w t) (hc : Clear w ev) (hs : Sections.step program w ev = some w') :
    ∃ u, Inv look program s₀ w' u := by
  rcases step_cases hs with ⟨i, o, p, -, hi, hp, rfl⟩ | ⟨i, e, f, keys, writes, act, next, rfl, hf, hr, rfl⟩
  · exact ⟨t, h.start hi hp⟩
  · have hent := h.enter hlocal hc hf hr
    unfold State.land
    split
    · rename_i r hd
      obtain ⟨u, hu⟩ := hent.land hlocal (Function.update_self ..) hd
      rw [Function.update_idem] at hu
      exact ⟨u, hu⟩
    · exact ⟨t, hent⟩

/-- With nothing under way the store is the one after the operations that ended. -/
theorem Inv.store_eq (hext : ∀ s t : σ, (∀ k, look s k = look t k) → s = t) (h : Inv look program s₀ w t)
    (hnone : ∀ i, w.flights i = none) : w.store = t := by
  apply hext
  intro k
  apply h.off
  intro i f hf
  rw [hnone i] at hf
  cases hf

/-- **Every run of clear sections is serial**, and keeps what every such step keeps. -/
theorem run_serial (look : σ → κ → ν) (hlocal : ∀ o p, program o = some p → p.Local look)
    {P : State σ κ ε ρ ο → Event ε ο → Prop} {J : State σ κ ε ρ ο → Prop} (hP : ∀ w ev, P w ev → Clear w ev)
    (hJ : ∀ w t ev w', Inv look program s₀ w t → J w → P w ev → Sections.step program w ev = some w' → J w')
    {evs : List (Event ε ο)} (hc : Along (Sections.step program) P (State.init s₀) evs)
    (hr : run (Sections.step program) (State.init s₀) evs = some w) (hinit : J (State.init s₀)) :
    (∃ t, Inv look program s₀ w t) ∧ J w := by
  refine run_invariant (I := fun w => (∃ t, Inv look program s₀ w t) ∧ J w) ?_ evs _ _ hc hr
    ⟨⟨s₀, Inv.init⟩, hinit⟩
  rintro w ev w' ⟨⟨t, ht⟩, hj⟩ hclear hs
  exact ⟨ht.step hlocal (hP w ev hclear) hs, hJ w t ev w' ht hj hclear hs⟩

end Serial

end System

end Lib.Sections
