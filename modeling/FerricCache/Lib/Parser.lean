import Mathlib

/-!
# `Lib.Parser` — parsers over a buffer that grows

A `Parser` reads a value off the front of its input and returns the rest. Two judgments compose through `>>=`:

* `Reads p c a` — on `c`, whatever follows, `p` reads exactly `c` and gives `a`;
* `Incremental soft p` — what `p` reads at all it reads off a chunk it `Reads`, and on every proper prefix of the
  chunk it fails softly, so that a reader may wait for more and start again.

`line` is the scan for the first occurrence of a two-token end mark.
-/

namespace Lib

/-- A parser of `α` over tokens `τ` that fails with `ε`. -/
def Parser (τ ε α : Type) := List τ → Except ε (α × List τ)

namespace Parser

variable {τ ε α β : Type}

instance : Monad (Parser τ ε) where
  pure a := fun d => .ok (a, d)
  bind p q := fun d =>
    match p d with
    | .ok (a, r) => q a r
    | .error e => .error e

/-- Fail without reading. -/
def fail (e : ε) : Parser τ ε α := fun _ => .error e

/-- `n` times in a row. -/
def times (p : Parser τ ε α) : Nat → Parser τ ε (List α)
  | 0 => pure []
  | n + 1 => do
      let a ← p
      let as ← p.times n
      pure (a :: as)

theorem bind_ok {p : Parser τ ε α} {d r : List τ} {a : α} (h : p d = .ok (a, r)) (q : α → Parser τ ε β) :
    (p >>= q) d = q a r := by
  simp only [Bind.bind, h]

theorem bind_error {p : Parser τ ε α} {d : List τ} {e : ε} (h : p d = .error e) (q : α → Parser τ ε β) :
    (p >>= q) d = .error e := by
  simp only [Bind.bind, h]

theorem bind_eq_ok {p : Parser τ ε α} {q : α → Parser τ ε β} {d : List τ} {x : β × List τ} :
    (p >>= q) d = .ok x ↔ ∃ a r, p d = .ok (a, r) ∧ q a r = .ok x := by
  cases h : p d with
  | error e =>
      rw [bind_error h]
      simp
  | ok ar =>
      obtain ⟨a, r⟩ := ar
      rw [bind_ok h]
      simp

theorem length_times {p : Parser τ ε α} {n : Nat} {d r : List τ} {as : List α} (h : p.times n d = .ok (as, r)) :
    as.length = n := by
  induction n generalizing d as with
  | zero =>
      cases h
      rfl
  | succ n ih =>
      obtain ⟨a, m, -, hrest⟩ := bind_eq_ok.mp h
      obtain ⟨bs, m', hbs, hpure⟩ := bind_eq_ok.mp hrest
      cases hpure
      rw [List.length_cons, ih hbs]

/-! ## Reading a chunk -/

/-- On `c`, whatever follows, `p` reads exactly `c`. -/
def Reads (p : Parser τ ε α) (c : List τ) (a : α) : Prop := ∀ t, p (c ++ t) = .ok (a, t)

theorem Reads.pure (a : α) : Reads (pure a : Parser τ ε α) [] a := fun _ => rfl

theorem Reads.bind {p : Parser τ ε α} {q : α → Parser τ ε β} {c c' : List τ} {a : α} {b : β}
    (hp : Reads p c a) (hq : Reads (q a) c' b) : Reads (p >>= q) (c ++ c') b := by
  intro t
  rw [List.append_assoc, bind_ok (hp (c' ++ t))]
  exact hq t

/-- A parser followed by one that reads nothing. -/
theorem Reads.bind_nil {p : Parser τ ε α} {q : α → Parser τ ε β} {c : List τ} {a : α} {b : β}
    (hp : Reads p c a) (hq : Reads (q a) [] b) : Reads (p >>= q) c b := by
  have h := hp.bind hq
  rw [List.append_nil] at h
  exact h

theorem Reads.map {p : Parser τ ε α} {c : List τ} {a : α} (hp : Reads p c a) (f : α → β) :
    Reads (p >>= fun x => Pure.pure (f x)) c (f a) := hp.bind_nil (Reads.pure (f a))

/-- Chunks read one after the other. -/
theorem Reads.times {p : Parser τ ε α} {chunks : List (List τ)} {as : List α}
    (h : List.Forall₂ (Reads p) chunks as) : Reads (p.times as.length) chunks.flatten as := by
  induction h with
  | nil => exact Reads.pure []
  | @cons c a chunks as hc _ ih =>
      rw [List.flatten_cons]
      exact hc.bind (ih.map (a :: ·))

/-! ## Incremental parsers -/

variable {soft : ε → Prop}

/-- Every chunk read is read whatever follows it, and no proper prefix of it is. -/
def Incremental (soft : ε → Prop) (p : Parser τ ε α) : Prop :=
  ∀ d a r, p d = .ok (a, r) → ∃ c, d = c ++ r ∧ Reads p c a ∧
    ∀ u v, c = u ++ v → v ≠ [] → ∃ e, soft e ∧ p u = .error e

theorem Incremental.length_le {p : Parser τ ε α} (h : Incremental soft p) {d r : List τ} {a : α}
    (hp : p d = .ok (a, r)) : r.length ≤ d.length := by
  obtain ⟨c, rfl, -⟩ := h d a r hp
  simp

theorem Incremental.pure (a : α) : Incremental soft (pure a : Parser τ ε α) := by
  intro d b r h
  cases h
  refine ⟨[], rfl, Reads.pure a, ?_⟩
  intro u v hc hv
  obtain ⟨-, rfl⟩ := List.append_eq_nil_iff.mp hc.symm
  exact absurd rfl hv

theorem Incremental.fail (e : ε) : Incremental soft (fail e : Parser τ ε α) := by
  intro d a r h
  cases h

theorem Incremental.bind {p : Parser τ ε α} {q : α → Parser τ ε β} (hp : Incremental soft p)
    (hq : ∀ a, Incremental soft (q a)) : Incremental soft (p >>= q) := by
  intro d b r h
  obtain ⟨a, m, hpd, hqm⟩ := bind_eq_ok.mp h
  obtain ⟨c, rfl, hreads, hshort⟩ := hp d a m hpd
  obtain ⟨c', rfl, hreads', hshort'⟩ := hq a m b r hqm
  refine ⟨c ++ c', (List.append_assoc ..).symm, hreads.bind hreads', ?_⟩
  intro u v hc hv
  rcases List.append_eq_append_iff.mp hc with ⟨u', rfl, hc'⟩ | ⟨v', hcv, rfl⟩
  · -- the cut lies in the second chunk
    obtain ⟨e, he, hu⟩ := hshort' u' v hc' hv
    exact ⟨e, he, (bind_ok (hreads u') q).trans hu⟩
  · cases v' with
    | nil =>
        -- the cut lies between the two
        rw [List.append_nil] at hcv
        obtain ⟨e, he, hu⟩ := hshort' [] c' rfl hv
        have hpu := hreads []
        rw [List.append_nil, hcv] at hpu
        exact ⟨e, he, (bind_ok hpu q).trans hu⟩
    | cons x v' =>
        obtain ⟨e, he, hu⟩ := hshort u (x :: v') hcv (List.cons_ne_nil x v')
        exact ⟨e, he, bind_error hu q⟩

theorem Incremental.times {p : Parser τ ε α} (hp : Incremental soft p) (n : Nat) :
    Incremental soft (p.times n) := by
  induction n with
  | zero => exact Incremental.pure []
  | succ n ih => exact hp.bind fun a => ih.bind fun as => Incremental.pure (a :: as)

theorem Incremental.ite {c : Prop} [Decidable c] {p q : Parser τ ε α} (hp : Incremental soft p)
    (hq : Incremental soft q) : Incremental soft (if c then p else q) := by
  split
  · exact hp
  · exact hq

/-- Parsers that agree on short inputs agree when repeated on short inputs. -/
theorem times_congr {p q : Parser τ ε α} (hq : Incremental soft q) {bound : Nat}
    (h : ∀ d, d.length ≤ bound → p d = q d) (n : Nat) (d : List τ) (hd : d.length ≤ bound) :
    p.times n d = q.times n d := by
  induction n generalizing d with
  | zero => rfl
  | succ n ih =>
      show (p >>= fun a => p.times n >>= fun as => Pure.pure (a :: as)) d
        = (q >>= fun a => q.times n >>= fun as => Pure.pure (a :: as)) d
      cases hqd : q d with
      | error e => rw [bind_error hqd, bind_error ((h d hd).trans hqd)]
      | ok ar =>
          obtain ⟨a, r⟩ := ar
          rw [bind_ok hqd, bind_ok ((h d hd).trans hqd)]
          have hr := ih r ((hq.length_le hqd).trans hd)
          cases hqr : q.times n r with
          | error e => rw [bind_error hqr, bind_error (hr.trans hqr)]
          | ok asr =>
              obtain ⟨as, r'⟩ := asr
              rw [bind_ok hqr, bind_ok (hr.trans hqr)]

/-! ## Lines -/

section Line

variable [DecidableEq τ] {x y : τ}

/-- Cut the input at the first `x` that `y` follows. -/
def cut (x y : τ) : List τ → Option (List τ × List τ)
  | [] => none
  | b :: rest =>
      if b = x ∧ rest.head? = some y then some ([], rest.tail)
      else (cut x y rest).map fun p => (b :: p.1, p.2)

omit [DecidableEq τ] in
theorem pair_infix_cons {b : τ} {rest : List τ} :
    [x, y] <:+: b :: rest ↔ (b = x ∧ rest.head? = some y) ∨ [x, y] <:+: rest := by
  rw [List.infix_cons_iff, List.cons_prefix_cons]
  apply or_congr_left
  apply and_congr eq_comm
  cases rest with
  | nil => simp
  | cons c rest => simp [List.cons_prefix_cons, eq_comm]

theorem cut_eq_none {d : List τ} : cut x y d = none ↔ ¬ [x, y] <:+: d := by
  induction d with
  | nil => simp [cut]
  | cons b rest ih =>
      rw [cut, pair_infix_cons]
      split
      · rename_i h
        simp [h]
      · rename_i h
        rw [Option.map_eq_none_iff, ih]
        simp [h]

/-- A text without the end mark is cut at the mark that follows it. -/
theorem cut_append (hxy : x ≠ y) {l : List τ} (hl : ¬ [x, y] <:+: l) (r : List τ) :
    cut x y (l ++ x :: y :: r) = some (l, r) := by
  induction l with
  | nil => simp [cut]
  | cons b l ih =>
      rw [pair_infix_cons, not_or] at hl
      have hb : ¬ (b = x ∧ (l ++ x :: y :: r).head? = some y) := by
        rintro ⟨hb, hhead⟩
        cases l with
        | nil => exact hxy (Option.some.inj hhead)
        | cons c l => exact hl.1 ⟨hb, hhead⟩
      rw [List.cons_append, cut, if_neg hb, ih hl.2, Option.map_some]

theorem cut_eq_some {d l r : List τ} (h : cut x y d = some (l, r)) :
    d = l ++ x :: y :: r ∧ ¬ [x, y] <:+: l := by
  induction d generalizing l with
  | nil => cases h
  | cons b rest ih =>
      rw [cut] at h
      split at h
      · rename_i hb
        cases h
        cases rest with
        | nil => cases hb.2
        | cons c rest =>
            cases hb.1
            cases hb.2
            simp
      · rename_i hb
        obtain ⟨p, hp, he⟩ := Option.map_eq_some_iff.mp h
        cases he
        obtain ⟨hd, hno⟩ := ih (l := p.1) hp
        refine ⟨by rw [hd]; rfl, ?_⟩
        rw [pair_infix_cons, not_or]
        refine ⟨?_, hno⟩
        rintro ⟨hbx, hhead⟩
        refine hb ⟨hbx, ?_⟩
        cases hl : p.1 with
        | nil =>
            rw [hl] at hhead
            cases hhead
        | cons c l =>
            rw [hl] at hhead
            rw [hd, hl]
            exact hhead

omit [DecidableEq τ] in
/-- One token `x` more completes no end mark. -/
theorem not_pair_infix_concat (hxy : x ≠ y) {l : List τ} (hl : ¬ [x, y] <:+: l) : ¬ [x, y] <:+: l ++ [x] := by
  induction l with
  | nil => simp [pair_infix_cons]
  | cons b l ih =>
      rw [pair_infix_cons, not_or] at hl
      rw [List.cons_append, pair_infix_cons, not_or]
      refine ⟨?_, ih hl.2⟩
      rintro ⟨hb, hhead⟩
      cases l with
      | nil => exact hxy (Option.some.inj hhead)
      | cons c l => exact hl.1 ⟨hb, hhead⟩

/-- Read up to the end mark, and past it. -/
def line (x y : τ) (e : ε) : Parser τ ε (List τ) := fun d =>
  match cut x y d with
  | some p => .ok p
  | none => .error e

theorem Reads.line (hxy : x ≠ y) {l : List τ} (hl : ¬ [x, y] <:+: l) (e : ε) :
    Reads (line x y e) (l ++ [x, y]) l := by
  intro t
  unfold Parser.line
  rw [List.append_assoc, List.cons_append, List.cons_append, List.nil_append, cut_append hxy hl]

theorem Incremental.line (hxy : x ≠ y) {e : ε} (he : soft e) : Incremental soft (line x y e) := by
  intro d l r h
  unfold Parser.line at h
  split at h
  · rename_i p hp
    cases h
    obtain ⟨hd, hl⟩ := cut_eq_some hp
    refine ⟨l ++ [x, y], by rw [hd]; simp, Reads.line hxy hl e, ?_⟩
    intro u v hc hv
    refine ⟨e, he, ?_⟩
    -- a proper prefix ends before the mark's second token
    have hpre : u <+: l ++ [x] := by
      obtain ⟨w, z, rfl⟩ := List.eq_nil_or_concat v |>.resolve_left hv
      refine ⟨w, ?_⟩
      have hsplit : (l ++ [x]) ++ [y] = (u ++ w) ++ [z] := by
        rw [List.append_assoc, List.append_assoc]
        simpa using hc
      exact (List.append_inj' hsplit rfl).1.symm
    have hnone : cut x y u = none := by
      rw [cut_eq_none]
      intro hu
      exact not_pair_infix_concat hxy hl (hu.trans hpre.isInfix)
    unfold Parser.line
    rw [hnone]
  · cases h

end Line

end Parser

end Lib
