import Mathlib

/-!
# `Lib.Run` — labelled runs of a partial step function

A system is a step function `step : σ → ι → Option σ` over states `σ` and labels `ι` (`none` when the
label is not enabled). A run is a list of labels; `run` threads the state through it, and
`Along step P s is` says that `P` holds at every step the run takes, of the state **before** the step
and its label. The invariant rule `run_invariant` is the one induction every safety proof uses; `run_progress`
adds that the run exists, and `run_related` runs two systems side by side.
-/

namespace Lib.Run

variable {σ ι : Type} (step : σ → ι → Option σ)

/-- Thread the state through a list of labels; `none` as soon as one of them is not enabled. -/
def run : σ → List ι → Option σ
  | s, [] => some s
  | s, i :: is =>
      match step s i with
      | some s' => run s' is
      | none => none

/-- `P` holds of every step of the run, at the state the step starts from. -/
def Along (P : σ → ι → Prop) : σ → List ι → Prop
  | _, [] => True
  | s, i :: is => P s i ∧ ∀ s', step s i = some s' → Along P s' is

/-- A decidable condition can be checked along a run. -/
instance decidableAlong (P : σ → ι → Prop) [∀ s i, Decidable (P s i)] :
    ∀ (s : σ) (is : List ι), Decidable (Along step P s is)
  | _, [] => isTrue trivial
  | s, i :: is =>
      match h : step s i with
      | some m =>
          have := decidableAlong P m is
          decidable_of_iff (P s i ∧ Along step P m is) (by simp [Along, h])
      | none => decidable_of_iff (P s i) (by simp [Along, h])

variable {step}

theorem run_cons {s s' : σ} {i : ι} {is : List ι} :
    run step s (i :: is) = some s' ↔ ∃ m, step s i = some m ∧ run step m is = some s' := by
  simp only [run]
  cases step s i with
  | none => simp
  | some m => simp

/-- A run of a concatenation passes through the state between its two parts. -/
theorem run_append {s s' : σ} {as bs : List ι} :
    run step s (as ++ bs) = some s' ↔ ∃ m, run step s as = some m ∧ run step m bs = some s' := by
  induction as generalizing s with
  | nil => simp [run]
  | cons a as ih =>
      rw [List.cons_append, run_cons]
      constructor
      · rintro ⟨m, hm, hr⟩
        obtain ⟨n, hn, hb⟩ := ih.mp hr
        exact ⟨n, run_cons.2 ⟨m, hm, hn⟩, hb⟩
      · rintro ⟨n, hn, hb⟩
        obtain ⟨m, hm, ha⟩ := run_cons.1 hn
        exact ⟨m, hm, ih.mpr ⟨n, ha, hb⟩⟩

/-- The first part of a run satisfies what the whole run satisfies. -/
theorem along_left {P : σ → ι → Prop} {s : σ} {as bs : List ι} (h : Along step P s (as ++ bs)) :
    Along step P s as := by
  induction as generalizing s with
  | nil => trivial
  | cons a as ih => exact ⟨h.1, fun s' hs => ih (h.2 s' hs)⟩

/-- The second part of a run satisfies, from the state between, what the whole run satisfies. -/
theorem along_right {P : σ → ι → Prop} {s m : σ} {as bs : List ι}
    (h : Along step P s (as ++ bs)) (hr : run step s as = some m) : Along step P m bs := by
  induction as generalizing s with
  | nil =>
      cases hr
      exact h
  | cons a as ih =>
      obtain ⟨s', hs, hr'⟩ := run_cons.1 hr
      exact ih (h.2 s' hs) hr'

/-- **Invariant rule.** What every `P`-step preserves holds at the end of every run of `P`-steps. -/
theorem run_invariant {P : σ → ι → Prop} {I : σ → Prop}
    (hstep : ∀ s i s', I s → P s i → step s i = some s' → I s') :
    ∀ (is : List ι) (s s' : σ), Along step P s is → run step s is = some s' → I s → I s' := by
  intro is
  induction is with
  | nil =>
      intro s s' _ hr hi
      cases hr
      exact hi
  | cons i is ih =>
      intro s s' hP hr hi
      obtain ⟨m, hm, hr'⟩ := run_cons.1 hr
      exact ih m s' (hP.2 m hm) hr' (hstep s i m hi hP.1 hm)

/-- Two conditions hold along a run if each of them does. -/
theorem along_and {P Q : σ → ι → Prop} {s : σ} {is : List ι} (hP : Along step P s is) (hQ : Along step Q s is) :
    Along step (fun s i => P s i ∧ Q s i) s is := by
  induction is generalizing s with
  | nil => trivial
  | cons i is ih => exact ⟨⟨hP.1, hQ.1⟩, fun s' h => ih (hP.2 s' h) (hQ.2 s' h)⟩

theorem along_mono {P Q : σ → ι → Prop} {s : σ} {is : List ι} (hPQ : ∀ s i, P s i → Q s i)
    (h : Along step P s is) : Along step Q s is := by
  induction is generalizing s with
  | nil => trivial
  | cons i is ih => exact ⟨hPQ s i h.1, fun s' hs' => ih (h.2 s' hs')⟩

/-- What follows from an invariant and the condition of a step holds along every run of such steps. -/
theorem along_of_invariant {P Q : σ → ι → Prop} {I : σ → Prop}
    (hstep : ∀ s i s', I s → P s i → step s i = some s' → I s') (hQ : ∀ s i, I s → P s i → Q s i) :
    ∀ (is : List ι) (s : σ), Along step P s is → I s → Along step Q s is := by
  intro is
  induction is with
  | nil =>
      intro s _ _
      trivial
  | cons i is ih =>
      intro s hP hi
      exact ⟨hQ s i hi hP.1, fun m hm => ih m (hP.2 m hm) (hstep s i m hi hP.1 hm)⟩

/-- **Progress rule.** Where every `P`-step is enabled and keeps the invariant, every list of such steps is a run. -/
theorem run_progress {P : σ → ι → Prop} {I : σ → Prop}
    (hstep : ∀ s i, I s → P s i → ∃ s', step s i = some s' ∧ I s') :
    ∀ (is : List ι) (s : σ), Along step P s is → I s → ∃ s', run step s is = some s' ∧ I s' := by
  intro is
  induction is with
  | nil =>
      intro s _ hi
      exact ⟨s, rfl, hi⟩
  | cons i is ih =>
      intro s hP hi
      obtain ⟨m, hm, him⟩ := hstep s i hi hP.1
      obtain ⟨s', hr, hi'⟩ := ih m (hP.2 m hm) him
      exact ⟨s', run_cons.2 ⟨m, hm, hr⟩, hi'⟩

/-- A condition on the labels alone holds along the run. -/
theorem along_of_labels {P : ι → Prop} {is : List ι} (h : ∀ i ∈ is, P i) (s : σ) :
    Along step (fun _ i => P i) s is := by
  induction is generalizing s with
  | nil => trivial
  | cons i is ih => exact ⟨h i (List.mem_cons_self ..), fun s' _ => ih (fun j hj => h j (List.mem_cons_of_mem _ hj)) s'⟩

/-- The progress rule for labels. -/
theorem run_exists {P : ι → Prop} {I : σ → Prop}
    (hstep : ∀ s i, I s → P i → ∃ s', step s i = some s' ∧ I s') :
    ∀ (is : List ι) (s : σ), (∀ i ∈ is, P i) → I s → ∃ s', run step s is = some s' ∧ I s' :=
  fun is s hP hi => run_progress hstep is s (along_of_labels hP s) hi

/-- **Simulation rule.** Where every `P`-step of one system is matched by the other, so is every run. -/
theorem run_related {τ : Type} {step' : τ → ι → Option τ} {P : σ → ι → Prop} {R : σ → τ → Prop}
    (hstep : ∀ s t i s', R s t → P s i → step s i = some s' → ∃ t', step' t i = some t' ∧ R s' t') :
    ∀ (is : List ι) (s : σ) (t : τ) (s' : σ), Along step P s is → run step s is = some s' → R s t →
      ∃ t', run step' t is = some t' ∧ R s' t' := by
  intro is
  induction is with
  | nil =>
      intro s t s' _ hr hR
      cases hr
      exact ⟨t, rfl, hR⟩
  | cons i is ih =>
      intro s t s' hP hr hR
      obtain ⟨m, hm, hr'⟩ := run_cons.1 hr
      obtain ⟨n, hn, hRn⟩ := hstep s t i m hR hP.1 hm
      obtain ⟨t', ht, hR'⟩ := ih m n s' (hP.2 m hm) hr' hRn
      exact ⟨t', run_cons.2 ⟨n, hn, ht⟩, hR'⟩

end Lib.Run
