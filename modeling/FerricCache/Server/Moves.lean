import FerricCache.Server.Programs

/-!
# `FerricCache.Server.Moves` — two-key moves between other clients' operations

`rpoplpush`, `smove` and `rename` drop the source's lock before they take the destination's. Any number of
clients run commands side by side, critical section by critical section (`Lib.Sections` over `program`).

An operation that ends is recorded with its readings of the clock and its reply. `Sequence s h t` says that the
operations of `h`, one after the other, each undisturbed, have the recorded replies and lead from `s` to `t`, and
that each move among them `Conserves` what it moves: it changes nothing that is live, or what it took from the
source is at the destination.

The doc comments promise this of every run, in some order of the operations. It fails when another client looks
between the halves, and when the destination has another type by then (`between_the_halves`). It holds, in the
order in which the operations end, of every run whose sections stay clear of the operations under way and whose
moves find the destination absent or of their type (`moves_serial`).
-/

namespace FerricCache

open Lib.Run Lib.Sections Reply

variable [KeyHash]

/-- Clients side by side. -/
abbrev Clients := State CacheStorage Bytes Env (Option Response) Command

/-- An operation that ended. -/
abbrev Ended := Entry Env (Option Response) Command

/-! ## What a move conserves -/

/-- The payload of a live value of a kind. -/
def liveAs {τ : Type} (K : Kind τ) (now : Instant) (slot : Slot) : Option τ := (Slot.live now slot).bind K.as

/-- The elements of the live list at a key. -/
def elements (now : Instant) (slot : Slot) : List Bytes := ((liveAs Kind.list now slot).map ListValue.items).getD []

/-- A member of the live set at a key. -/
def isMember (now : Instant) (slot : Slot) (m : Bytes) : Bool :=
  ((liveAs Kind.set now slot).map fun t => t.contains m).getD false

/-- The two-key moves. -/
def isTwoKeyMove : Command → Bool
  | .rpoplpush _ _ | .smove _ _ _ | .rename _ _ => true
  | _ => false

/-- What a move took from the source at `t` is at the destination at `p`, and at the source no more. -/
def Delivered : Command → Instant → Instant → CacheStorage → CacheStorage → Prop
  | .rpoplpush a b, t, p, s, s' =>
      ∃ x rest others, elements t (s.slotAt a) = rest ++ [x] ∧ elements p (s'.slotAt b) = x :: others ∧
        (a ≠ b → elements t (s'.slotAt a) = rest ∧ others = elements p (s.slotAt b)) ∧
        (a = b → others.Sublist rest)
  | .smove a b m, t, p, s, s' =>
      isMember t (s.slotAt a) m = true ∧ isMember p (s'.slotAt b) m = true ∧
        (a ≠ b → ∀ x, (isMember t (s'.slotAt a) x = true ↔ isMember t (s.slotAt a) x = true ∧ x ≠ m) ∧
          (isMember p (s'.slotAt b) x = true ↔ x = m ∨ isMember p (s.slotAt b) x = true))
  | .rename a b, t, _, s, s' =>
      ∃ v, s.live t a = some v ∧ s'.slotAt b = some v ∧ (a ≠ b → s'.slotAt a = none)
  | _, _, _, _, _ => True

/-- A move of one section leaves every live entry, one of two sections delivers. -/
def Conserves (c : Command) : List Env → CacheStorage → CacheStorage → Prop
  | [e], s, s' => isTwoKeyMove c = true → ∀ k, s'.live e.now k = s.live e.now k
  | [e, e'], s, s' => Delivered c e.now e'.now s s'
  | _, _, _ => True

/-- The operations, one after the other and each undisturbed: the recorded replies, and no move loses or
    duplicates what it moves. -/
def Sequence : CacheStorage → List Ended → CacheStorage → Prop
  | s, [], t => s = t
  | s, x :: xs, t => ∃ p m, program x.op = some p ∧ p.result x.reads s = some (x.reply, m) ∧
      Conserves x.op x.reads s m ∧ Sequence m xs t

/-! ## Runs where nobody disturbs a move -/

/-- The destination of a move is absent or of the type it moves into. -/
def Fits : Command → CacheStorage → Prop
  | .rpoplpush _ b, s => ∀ v, s.slotAt b = some v → (Kind.list.as v).isSome
  | .smove _ b _, s => ∀ v, s.slotAt b = some v → (Kind.set.as v).isSome
  | _, _ => True

/-- The step stays clear of the other clients' operations under way, and a move that has taken finds a
    destination it fits. -/
def Undisturbed (w : Clients) (ev : Event Env Command) : Prop :=
  Clear w ev ∧ ∀ i e f, ev = .enter i e → w.flights i = some f → f.reads.length = 1 → Fits f.op w.store

/-- An operation of one client after the other's end. -/
def Idle (w : Clients) : Prop := ∀ i, w.flights i = none

/-! ## The two halves -/

section Halves

variable {τ α β : Type} {K : Kind τ} {now : Instant}

omit [KeyHash] in
theorem liveAs_of {t : τ} (h : (K.of t).isExpired now = false) : liveAs K now (some (K.of t)) = some t := by
  unfold liveAs
  rw [Slot.live_fresh h]
  exact K.as_of t

omit [KeyHash] in
/-- A first half that took nothing leaves the slot; otherwise the value was live and of the kind. -/
theorem takeFrom_cases (now : Instant) (missing : α) (take : τ → α × τ) (slot : Slot) :
    (∃ err, CacheStorage.takeFrom K now missing take slot = (.error err, slot)) ∨
    (CacheStorage.takeFrom K now missing take slot = (.ok missing, slot)) ∨
    ∃ t, slot = some (K.of t) ∧ (K.of t).isExpired now = false ∧
      CacheStorage.takeFrom K now missing take slot = (.ok (take t).1, some (K.of (take t).2)) := by
  cases slot with
  | none => exact Or.inr (Or.inl rfl)
  | some v =>
      cases hk : K.as v with
      | none =>
          refine Or.inl ⟨wrongType, ?_⟩
          simp [CacheStorage.takeFrom, Slot.writeLive, hk]
      | some t =>
          cases hx : v.isExpired now with
          | true =>
              refine Or.inl ⟨wrongType, ?_⟩
              simp [CacheStorage.takeFrom, Slot.writeLive, hk, hx]
          | false =>
              refine Or.inr (Or.inr ⟨t, ?_, ?_, ?_⟩)
              · rw [K.of_as hk]
              · rw [K.of_as hk, hx]
              · simp [CacheStorage.takeFrom, Slot.writeLive, hk, hx]

omit [KeyHash] in
/-- A second half that does not fail puts into the live value of the kind, or into a fresh one. -/
theorem putInto_ok (now : Instant) (fresh : τ) (put : τ → τ) (slot : Slot)
    (h : ∀ err, (CacheStorage.putInto K now fresh put slot).1 ≠ .error err) :
    CacheStorage.putInto K now fresh put slot
      = (.ok (), some (K.of (put ((liveAs K now slot).getD fresh)))) := by
  cases slot with
  | none => rfl
  | some v =>
      cases hk : K.as v with
      | none =>
          exfalso
          refine h wrongType ?_
          simp [CacheStorage.putInto, Slot.writeOrCreate, hk]
      | some t =>
          cases hx : v.isExpired now with
          | true =>
              simp [CacheStorage.putInto, Slot.writeOrCreate, hk, hx, Slot.insertNew, liveAs, Slot.live_expired hx]
          | false => simp [CacheStorage.putInto, Slot.writeOrCreate, hk, hx, liveAs, Slot.live_fresh hx]

omit [KeyHash] in
/-- A second half does not fail at a destination it fits. -/
theorem putInto_fits (now : Instant) (fresh : τ) (put : τ → τ) {slot : Slot}
    (h : ∀ v, slot = some v → (K.as v).isSome) (err : Bytes) :
    (CacheStorage.putInto K now fresh put slot).1 ≠ .error err := by
  cases slot with
  | none =>
      intro he
      cases he
  | some v =>
      obtain ⟨t, ht⟩ := Option.isSome_iff_exists.mp (h v rfl)
      unfold CacheStorage.putInto Slot.writeOrCreate
      simp only [ht]
      split <;> (intro he; cases he)

variable {missing : α} {take : τ → α × τ} {moved : α → Option β} {fresh : τ} {put : β → τ → τ}
  {reply : α → Response} {a b : Bytes} {s m : CacheStorage} {r : Option Response}

/-- A move that ended with its first half left its source as it was, or took nothing of a live value. -/
theorem move_ended_once {e : Env}
    (h : (moveSections K missing take moved fresh put reply a b).result [e] s = some (r, m)) :
    m = s ∨ ∃ t, s.slotAt a = some (K.of t) ∧ (K.of t).isExpired e.now = false ∧ moved (take t).1 = none ∧
      m = s.setEntry a (some (K.of (take t).2)) := by
  simp only [moveSections, Prog.result, CacheStorage.onKey] at h
  obtain ⟨err, ht⟩ | ht | ⟨t, hs, hx, ht⟩ := takeFrom_cases (K := K) e.now missing take (s.slotAt a)
  · left
    simp only [ht, afterTake, Prog.result, Option.some.injEq, Prod.mk.injEq] at h
    rw [← h.2, CacheStorage.setEntry_slotAt]
  · left
    simp only [ht, afterTake, CacheStorage.setEntry_slotAt] at h
    cases hm : moved missing with
    | none =>
        simp only [hm, Prog.result, Option.some.injEq, Prod.mk.injEq] at h
        exact h.2.symm
    | some y => simp [hm, putSection, Prog.result] at h
  · right
    simp only [ht, afterTake] at h
    cases hm : moved (take t).1 with
    | none =>
        simp only [hm, Prog.result, Option.some.injEq, Prod.mk.injEq] at h
        exact ⟨t, hs, hx, hm, h.2.symm⟩
    | some y => simp [hm, putSection, Prog.result] at h

/-- A move with a second half took from a live value, unless what a missing source gives is moved too. -/
theorem move_ended_twice {e e' : Env} (hmissing : moved missing = none)
    (h : (moveSections K missing take moved fresh put reply a b).result [e, e'] s = some (r, m)) :
    ∃ t y, s.slotAt a = some (K.of t) ∧ (K.of t).isExpired e.now = false ∧ moved (take t).1 = some y ∧
      r = orError (fun _ => reply (take t).1) ((s.setEntry a (some (K.of (take t).2))).onKey b
        (CacheStorage.putInto K e'.now fresh (put y))).1 ∧
      m = ((s.setEntry a (some (K.of (take t).2))).onKey b (CacheStorage.putInto K e'.now fresh (put y))).2 := by
  simp only [moveSections, Prog.result, CacheStorage.onKey] at h
  obtain ⟨err, ht⟩ | ht | ⟨t, hs, hx, ht⟩ := takeFrom_cases (K := K) e.now missing take (s.slotAt a)
  · simp [ht, afterTake, Prog.result] at h
  · simp [ht, afterTake, hmissing, Prog.result] at h
  · simp only [ht, afterTake] at h
    cases hm : moved (take t).1 with
    | none => simp [hm, Prog.result] at h
    | some y =>
        simp only [hm, putSection, Prog.result, Option.some.injEq, Prod.mk.injEq] at h
        exact ⟨t, y, hs, hx, hm, h.1.symm, h.2.symm⟩

end Halves

/-! ## Each move conserves -/

section Conserve

variable {a b : Bytes} {s m : CacheStorage} {r : Option Response} {reads : List Env} {p : Operation}

omit [KeyHash] in
theorem elements_list {now : Instant} {l : ListValue} (h : (CacheValue.list l).isExpired now = false) :
    elements now (some (.list l)) = l.items := by
  unfold elements
  rw [show liveAs Kind.list now (some (.list l)) = some l from liveAs_of (K := Kind.list) h]
  rfl

omit [KeyHash] in
theorem contains_add (t : SetValue) (v x : Bytes) : (t.add v).contains x = true ↔ x = v ∨ t.contains x = true := by
  rw [SetValue.contains, SetValue.contains, SetValue.add, Std.ExtTreeSet.contains_iff_mem,
    Std.ExtTreeSet.contains_iff_mem, Std.ExtTreeSet.mem_insert, Std.LawfulEqCmp.compare_eq_iff_eq]
  exact or_congr_left ⟨Eq.symm, Eq.symm⟩

omit [KeyHash] in
theorem contains_remove (t : SetValue) (v x : Bytes) :
    (t.remove v).contains x = true ↔ t.contains x = true ∧ x ≠ v := by
  rw [SetValue.contains, SetValue.contains, SetValue.remove, Std.ExtTreeSet.contains_iff_mem,
    Std.ExtTreeSet.contains_iff_mem, Std.ExtTreeSet.mem_erase, ne_eq, Std.LawfulEqCmp.compare_eq_iff_eq]
  constructor
  · rintro ⟨hne, hx⟩
    exact ⟨hx, fun he => hne he.symm⟩
  · rintro ⟨hx, hne⟩
    exact ⟨fun he => hne he.symm, hx⟩

omit [KeyHash] in
theorem remove_of_not_contains {t : SetValue} {v : Bytes} (h : t.contains v = false) : t.remove v = t := by
  have herase : t.members.erase v = t.members := by
    apply Std.ExtTreeSet.ext_mem
    intro x
    have hx := contains_remove t v x
    rw [SetValue.contains, SetValue.contains, Std.ExtTreeSet.contains_iff_mem,
      Std.ExtTreeSet.contains_iff_mem] at hx
    rw [show x ∈ t.members.erase v ↔ x ∈ t.members ∧ x ≠ v from hx]
    refine ⟨And.left, fun hm => ⟨hm, ?_⟩⟩
    rintro rfl
    rw [SetValue.contains, Std.ExtTreeSet.contains_iff_mem.mpr hm] at h
    cases h
  show ({ t with members := t.members.erase v } : SetValue) = t
  rw [herase]

omit [KeyHash] in
theorem isMember_set {now : Instant} {t : SetValue} (h : (CacheValue.set t).isExpired now = false) (x : Bytes) :
    isMember now (some (.set t)) x = t.contains x := by
  unfold isMember
  rw [show liveAs Kind.set now (some (.set t)) = some t from liveAs_of (K := Kind.set) h]
  rfl

/-- What `LPUSH` of one element makes of the destination. -/
def pushedList (now : Instant) (v : Bytes) (slot : Slot) : ListValue :=
  ((liveAs Kind.list now slot).getD ListValue.new).pushLeft v

/-- What `SADD` of one member makes of the destination. -/
def addedSet (now : Instant) (v : Bytes) (slot : Slot) : SetValue :=
  ((liveAs Kind.set now slot).getD SetValue.new).add v

omit [KeyHash] in
/-- The pushed list is live, the element in front of what was live before. -/
theorem elements_pushedList (now : Instant) (v : Bytes) (slot : Slot) :
    elements now (some (.list (pushedList now v slot))) = v :: elements now slot := by
  cases hl : liveAs Kind.list now slot with
  | none =>
      have hnew : pushedList now v slot = ⟨[v], none⟩ := by simp [pushedList, hl, ListValue.new, ListValue.pushLeft]
      rw [hnew, elements_list rfl]
      simp [elements, hl]
  | some l =>
      have hold : pushedList now v slot = l.pushLeft v := by simp [pushedList, hl]
      obtain ⟨w, hw, hk⟩ := Option.bind_eq_some_iff.mp hl
      have hx : (CacheValue.list l).isExpired now = false := by
        rw [show CacheValue.list l = w from Kind.list.of_as hk]
        exact (Slot.live_eq_some.mp hw).2
      have hx' : (CacheValue.list (l.pushLeft v)).isExpired now = false := hx
      rw [hold, elements_list hx']
      simp [elements, hl, ListValue.pushLeft]

omit [KeyHash] in
/-- The set with the member added is live and has it beside what was live before. -/
theorem isMember_addedSet (now : Instant) (v : Bytes) (slot : Slot) (x : Bytes) :
    isMember now (some (.set (addedSet now v slot))) x = true ↔ x = v ∨ isMember now slot x = true := by
  cases hl : liveAs Kind.set now slot with
  | none =>
      have hnew : addedSet now v slot = SetValue.new.add v := by simp [addedSet, hl]
      have hmem : isMember now slot x = false := by simp [isMember, hl]
      have hempty : SetValue.new.contains x = false := Std.ExtTreeSet.contains_empty
      rw [hnew, isMember_set rfl, hmem, contains_add, hempty]
  | some t =>
      have hold : addedSet now v slot = t.add v := by simp [addedSet, hl]
      obtain ⟨w, hw, hk⟩ := Option.bind_eq_some_iff.mp hl
      have hx : (CacheValue.set t).isExpired now = false := by
        rw [show CacheValue.set t = w from Kind.set.of_as hk]
        exact (Slot.live_eq_some.mp hw).2
      have hx' : (CacheValue.set (t.add v)).isExpired now = false := hx
      have hmem : isMember now slot x = t.contains x := by simp [isMember, hl]
      rw [hold, isMember_set hx', hmem]
      exact contains_add t v x

/-- `rpoplpush`: either nothing changed, or the popped element is the destination's first. -/
theorem rpoplpush_conserves (hp : program (.rpoplpush a b) = some p) (h : p.result reads s = some (r, m))
    (hr : reads.length = 2 → ∀ err, r ≠ some (.error err)) : Conserves (.rpoplpush a b) reads s m := by
  cases hp
  -- it ends after no section, after one that found nothing to take, or after two
  rcases reads with _ | ⟨e, _ | ⟨e', _ | ⟨e'', es⟩⟩⟩
  · trivial
  · intro _ k
    obtain hm | ⟨l, hs, -, hpop, hm⟩ := move_ended_once h
    · rw [hm]
    · have hnil : l.items = [] := by simpa [ListValue.popRight] using hpop
      have hsame : (ListValue.popRight l).2 = l := by
        cases l
        simp_all [ListValue.popRight]
      rw [hm, hsame, ← hs, CacheStorage.setEntry_slotAt]
  · obtain ⟨l, x, hs, hx, hpop, hreply, hm⟩ := move_ended_twice (K := Kind.list) rfl h
    have hlast : l.items.getLast? = some x := hpop
    have hput := putInto_ok (K := Kind.list) e'.now ListValue.new (fun l => l.pushLeft x)
      ((s.setEntry a (some (Kind.list.of (ListValue.popRight l).2))).slotAt b)
      (by
        intro err herr
        exact hr rfl err (by rw [hreply, CacheStorage.onKey, herr]; rfl))
    rw [CacheStorage.onKey, hput] at hm
    refine ⟨x, l.items.dropLast, elements e'.now
      ((s.setEntry a (some (.list (ListValue.popRight l).2))).slotAt b), ?_, ?_, ?_, ?_⟩
    · rw [hs, show Kind.list.of l = CacheValue.list l from rfl, elements_list hx]
      exact (List.dropLast_append_getLast? x hlast).symm
    · rw [hm, CacheStorage.slotAt_setEntry_self]
      exact elements_pushedList e'.now x _
    · intro hab
      rw [hm, CacheStorage.slotAt_setEntry_ne hab, CacheStorage.slotAt_setEntry_self,
        CacheStorage.slotAt_setEntry_ne (Ne.symm hab)]
      exact ⟨elements_list (l := (ListValue.popRight l).2) hx, rfl⟩
    · intro hab
      subst hab
      rw [CacheStorage.slotAt_setEntry_self]
      cases hx' : (CacheValue.list (ListValue.popRight l).2).isExpired e'.now with
      | true => simp [elements, liveAs, Slot.live_expired hx']
      | false =>
          rw [elements_list hx']
          exact List.Sublist.refl _
  · trivial

/-- `smove`: either nothing changed, or the member is in the destination. -/
theorem smove_conserves {v : Bytes} (hp : program (.smove a b v) = some p) (h : p.result reads s = some (r, m))
    (hr : reads.length = 2 → ∀ err, r ≠ some (.error err)) : Conserves (.smove a b v) reads s m := by
  cases hp
  rcases reads with _ | ⟨e, _ | ⟨e', _ | ⟨e'', es⟩⟩⟩
  · trivial
  · intro _ k
    obtain hm | ⟨t, hs, -, hout, hm⟩ := move_ended_once h
    · rw [hm]
    · have hnot : t.contains v = false := by simpa using hout
      have hsame := remove_of_not_contains hnot
      rw [hm, show (t.contains v, t.remove v).2 = t from hsame, ← hs, CacheStorage.setEntry_slotAt]
  · obtain ⟨t, y, hs, hx, hin, hreply, hm⟩ := move_ended_twice (K := Kind.set) (by simp) h
    have hin' : t.contains v = true := by
      by_contra hc
      simp [hc] at hin
    have hput := putInto_ok (K := Kind.set) e'.now SetValue.new (fun t => t.add v)
      ((s.setEntry a (some (Kind.set.of (t.remove v)))).slotAt b)
      (by
        intro err herr
        exact hr rfl err (by rw [hreply, CacheStorage.onKey, herr]; rfl))
    rw [CacheStorage.onKey, hput] at hm
    have hdest : ∀ x, isMember e'.now (m.slotAt b) x = true ↔
        x = v ∨ isMember e'.now ((s.setEntry a (some (.set (t.remove v)))).slotAt b) x = true := by
      intro x
      rw [hm, CacheStorage.slotAt_setEntry_self]
      exact isMember_addedSet e'.now v _ x
    refine ⟨?_, (hdest v).mpr (Or.inl rfl), ?_⟩
    · rw [hs, show Kind.set.of t = CacheValue.set t from rfl, isMember_set hx, hin']
    · intro hab x
      rw [hdest x, CacheStorage.slotAt_setEntry_ne (Ne.symm hab)]
      refine ⟨?_, Iff.rfl⟩
      rw [hm, CacheStorage.slotAt_setEntry_ne hab, CacheStorage.slotAt_setEntry_self, hs,
        show Kind.set.of t = CacheValue.set t from rfl, isMember_set hx]
      show isMember e.now (some (.set (t.remove v))) x = true ↔ _
      rw [isMember_set (t := t.remove v) hx]
      exact contains_remove t v x
  · trivial

/-- `rename`: either no live entry changed, or the value is at the new key. -/
theorem rename_conserves (hp : program (.rename a b) = some p) (h : p.result reads s = some (r, m)) :
    Conserves (.rename a b) reads s m := by
  cases hp
  rcases reads with _ | ⟨e, _ | ⟨e', _ | ⟨e'', es⟩⟩⟩
  · trivial
  · intro _ k
    simp only [renameSections, Prog.result] at h
    cases hl : s.live e.now a with
    | some v => simp [hl, insertSection, Prog.result] at h
    | none =>
        simp only [hl, insertSection, Prog.result, Option.some.injEq, Prod.mk.injEq] at h
        rw [← h.2, CacheStorage.live_setEntry]
        split
        · rename_i hk
          rw [hk, hl]
          rfl
        · rfl
  · simp only [renameSections, Prog.result] at h
    cases hl : s.live e.now a with
    | none => simp [hl, insertSection, Prog.result] at h
    | some v =>
        simp only [hl, insertSection, Prog.result, Option.some.injEq, Prod.mk.injEq] at h
        refine ⟨v, hl, ?_, ?_⟩
        · rw [← h.2, CacheStorage.slotAt_setEntry_self]
        · intro hab
          rw [← h.2, CacheStorage.slotAt_setEntry_ne hab, CacheStorage.slotAt_setEntry_self]
  · trivial

end Conserve

/-! ## A run in which no move is disturbed -/

/-- A move that has put, or failed to put, what it took. -/
def NotLost (x : Ended) : Prop := isTwoKeyMove x.op = true → x.reads.length = 2 → ∀ err, x.reply ≠ some (.error err)

/-- Every ended operation that lost nothing conserves. -/
theorem conserves_of_notLost {x : Ended} {p : Operation} {s m : CacheStorage} (hp : program x.op = some p)
    (h : p.result x.reads s = some (x.reply, m)) (hx : NotLost x) : Conserves x.op x.reads s m := by
  obtain ⟨i, c, reads, r⟩ := x
  by_cases hc : isTwoKeyMove c = true
  · cases c with
    | rpoplpush a b => exact rpoplpush_conserves hp h (hx rfl)
    | smove a b v => exact smove_conserves hp h (hx rfl)
    | rename a b => exact rename_conserves hp h
    | _ => cases hc
  · rcases reads with _ | ⟨e, _ | ⟨e', _ | ⟨e'', es⟩⟩⟩
    · trivial
    · exact fun hm => absurd hm hc
    · cases c <;> trivial
    · trivial

theorem sequence_of_plays {s t : CacheStorage} {xs : List Ended} (h : Plays program s xs t)
    (hx : ∀ x ∈ xs, NotLost x) : Sequence s xs t := by
  induction xs generalizing s with
  | nil => exact h
  | cons x xs ih =>
      obtain ⟨p, m, hp, hres, hrest⟩ := h
      refine ⟨p, m, hp, hres, ?_, ih hrest fun y hy => hx y (List.mem_cons_of_mem _ hy)⟩
      exact conserves_of_notLost hp hres (hx x (List.mem_cons_self ..))

/-- A second half that fits its destination replies what the move replies. -/
theorem afterTake_reply {τ α β : Type} {K : Kind τ} {moved : α → Option β} {fresh : τ} {put : β → τ → τ}
    {reply : α → Response} {b : Bytes} {res : Res α} {keys writes : Set Bytes}
    {act : Env → CacheStorage → CacheStorage} {next : Env → CacheStorage → Operation} {e : Env}
    {s : CacheStorage} {r : Option Response}
    (h : afterTake K moved fresh put reply b res = .sect keys writes act next) (hr : next e s = .done r)
    (hfits : ∀ v, s.slotAt b = some v → (K.as v).isSome) : ∃ x, r = some (reply x) := by
  cases res with
  | error err => cases h
  | ok x =>
      simp only [afterTake] at h
      cases hm : moved x with
      | none =>
          rw [hm] at h
          cases h
      | some y =>
          rw [hm] at h
          cases h
          cases hr
          have hput := putInto_ok e.now fresh (put y) (s.slotAt b) (putInto_fits e.now fresh (put y) hfits)
          refine ⟨x, ?_⟩
          rw [CacheStorage.onKey, hput]
          rfl

/-- An undisturbed step loses nothing. -/
theorem notLost_step {s₀ t : CacheStorage} {w w' : Clients} {ev : Event Env Command}
    (hinv : Inv CacheStorage.slotAt program s₀ w t) (h : ∀ x ∈ w.history, NotLost x) (hu : Undisturbed w ev)
    (hs : step program w ev = some w') : ∀ x ∈ w'.history, NotLost x := by
  rcases step_cases hs with ⟨i, o, p, -, hi, hp, rfl⟩ | ⟨i, e, f, keys, writes, act, next, rfl, hf, hr, rfl⟩
  · exact h
  · unfold State.land
    split
    · rename_i r hd
      intro x hx
      rcases List.mem_append.mp hx with hx | hx
      · exact h x hx
      · rw [List.mem_singleton.mp hx]
        intro hc hlen
        have hone : f.reads.length = 1 := by simpa using hlen
        have hfits := hu.2 i e f rfl hf hone
        obtain ⟨p, m, hp, hm, -⟩ := hinv.flight i f hf
        obtain ⟨e₀, he₀⟩ := List.length_eq_one_iff.mp hone
        rw [he₀] at hm
        obtain ⟨keys₀, writes₀, act₀, next₀, hprog, hrest⟩ := hm.rest_one
        rw [hr] at hrest
        -- the section that ended the move is its second half
        dsimp only at hc hd ⊢
        generalize f.op = c at hc hp hfits
        cases c with
        | rpoplpush a b =>
            cases hp
            cases hprog
            obtain ⟨x, rfl⟩ := afterTake_reply hrest.symm hd hfits
            intro err
            cases x <;> simp [valueOr]
        | smove a b v =>
            cases hp
            cases hprog
            obtain ⟨x, rfl⟩ := afterTake_reply hrest.symm hd hfits
            intro err
            simp [flag]
        | rename a b =>
            cases hp
            cases hprog
            cases hl : t.live e₀.now a with
            | none => simp [hl, insertSection] at hrest
            | some v =>
                simp only [hl, insertSection] at hrest
                cases hrest
                cases hd
                simp
        | _ => cases hc
    · exact h

/-- One list, of one element, at the key `a`. -/
def oneElement : CacheStorage :=
  CacheStorage.new.setEntry (utf8 "a") (some (.list ⟨[utf8 "x"], none⟩))

/-- A move of one client, and what another does between its halves. -/
def betweenHalves (move c : Command) (sections : Nat) : List (Event Env Command) :=
  [Event.start 0 move, .enter 0 (Env.reading 0), .start 1 c] ++
    List.replicate sections (Event.enter 1 (Env.reading 0)) ++ [Event.enter 0 (Env.reading 0)]

/-- **Undisturbed moves are atomic.** In every run whose sections stay clear of the operations under way, and
    whose moves find a destination they fit, the operations have the outcome of running one after the other, in
    the order in which they end, and no move loses or duplicates what it moves. -/
theorem moves_serial {s₀ : CacheStorage} {evs : List (Event Env Command)} {w : Clients}
    (hcalm : Along (step program) Undisturbed (State.init s₀) evs)
    (hr : run (step program) (State.init s₀) evs = some w) :
    ∃ t, Sequence s₀ w.history t ∧ (Idle w → w.store = t) := by
  obtain ⟨⟨t, ht⟩, hx⟩ := run_serial CacheStorage.slotAt (J := fun w => ∀ x ∈ w.history, NotLost x)
    (fun _ _ hp => program_local hp) (fun _ _ hu => hu.1)
    (fun _ _ _ _ hinv hj hu hs => notLost_step hinv hj hu hs) hcalm hr (fun _ hx => by cases hx)
  exact ⟨t, sequence_of_plays ht.plays hx, ht.store_eq fun _ _ h => CacheStorage.ext_entry h⟩

omit [KeyHash] in
/-- `GET c` between the halves of `RPOPLPUSH a b`. -/
theorem moves_serial_get_between : let _ := shortKeys
    ∃ w, run (step program) (State.init oneElement)
        (betweenHalves (.rpoplpush (utf8 "a") (utf8 "b")) (.get (utf8 "c")) 1) = some w ∧
      ∃ t, Sequence oneElement w.history t ∧ (Idle w → w.store = t) := by
  intro _
  have hrun : (run (step program) (State.init oneElement)
      (betweenHalves (.rpoplpush (utf8 "a") (utf8 "b")) (.get (utf8 "c")) 1)).isSome := by decide
  obtain ⟨w, hw⟩ := Option.isSome_iff_exists.mp hrun
  refine ⟨w, hw, moves_serial ?_ hw⟩
  have ha : oneElement.slotAt (utf8 "a") = some (.list ⟨[utf8 "x"], none⟩) := by decide
  have hb : oneElement.slotAt (utf8 "b") = none := by decide
  have htake : CacheStorage.takeFrom Kind.list (Env.reading 0).now none ListValue.popRight
      (some (.list ⟨[utf8 "x"], none⟩)) = (.ok (some (utf8 "x")), some (.list ⟨[], none⟩)) := by decide
  simp only [State.init, betweenHalves, List.replicate, List.cons_append, List.nil_append, Along, Undisturbed,
    Clear, reduceCtorEq, Fits, IsEmpty.forall_iff, implies_true, and_self, step, program, moveSections,
    CacheStorage.onKey, afterTake, id_eq, putSection, Option.some.injEq, ne_eq, Event.enter.injEq, and_imp, State.land,
    commandKey, Option.map_some, singleSection, isWriteCommand, Bool.false_eq_true, ↓reduceIte, dispatch, arm, Arm.read,
    Arm.run, Option.getD_some, Option.bind_some, and_true, true_and, forall_eq', Function.update, ↓reduceDIte,
    eq_rec_constant, dite_eq_ite, Option.ite_none_right_eq_some, forall_apply_eq_imp_iff₂, Set.disjoint_empty, ha,
    htake, Set.union_singleton, insert_empty_eq, Function.update_idem, one_ne_zero, zero_ne_one,
    Option.ite_none_left_eq_some]
  -- what is left are the three sections: the move's first, the other client's, the move's second
  refine ⟨?_, ⟨?_, ?_⟩, ?_, ?_⟩
  · rintro i e f rfl rfl - rfl hlen
    cases hlen
  · rintro f keys writes act next rfl hrest j g hj hg
    cases hrest
    rw [if_neg hj] at hg
    by_cases h0 : j = 0
    · rw [if_pos h0] at hg
      cases hg
      have hca : utf8 "c" ≠ utf8 "a" := by decide
      simp [hca]
    · rw [if_neg h0] at hg
      cases hg
  · rintro i e f rfl rfl hf hlen
    rw [if_pos rfl] at hf
    cases hf
    cases hlen
  · rintro f keys writes act next - - j g hj - h0
    exact absurd h0 hj
  · rintro i e f rfl rfl - - rfl - v hv
    have hbc : utf8 "b" ≠ utf8 "c" := by decide
    have hba : utf8 "b" ≠ utf8 "a" := by decide
    rw [CacheStorage.slotAt_setEntry_ne hbc, CacheStorage.slotAt_setEntry_ne hba, hb] at hv
    cases hv

/-! ## Between the halves -/

/-- The replies recorded, checked one operation after the other. -/
def replay : CacheStorage → List Ended → Option CacheStorage
  | s, [] => some s
  | s, x :: xs =>
      match program x.op with
      | none => none
      | some p =>
          match p.result x.reads s with
          | none => none
          | some q => if q.1 = x.reply then replay q.2 xs else none

theorem replay_of_sequence {s t : CacheStorage} {xs : List Ended} (h : Sequence s xs t) : replay s xs = some t := by
  induction xs generalizing s with
  | nil => exact congrArg some h
  | cons x xs ih =>
      obtain ⟨p, m, hp, hres, -, hrest⟩ := h
      simp only [replay, hp, hres]
      exact ih hrest

/-- The operation as it is recorded. -/
def endedWith (i : Nat) (c : Command) (sections : Nat) (r : Response) : Ended :=
  ⟨i, c, List.replicate sections (Env.reading 0), some r⟩

omit [KeyHash] in
/-- Two operations can follow one another in two orders. -/
theorem order_of_two {x y : Ended} {h : List Ended} (hp : h.Perm [x, y]) : h = [x, y] ∨ h = [y, x] := by
  have hm := List.mem_permutations.mpr hp
  simpa [List.permutations, List.permutationsAux, List.permutationsAux.rec] using hm

omit [KeyHash] in
/-- What is recorded when `EXISTS a b` runs between the halves of `RENAME a b`. -/
theorem history_exists_between : let _ := shortKeys
    (run (step program) (State.init oneElement)
        (betweenHalves (.rename (utf8 "a") (utf8 "b")) (.existsKeys [utf8 "a", utf8 "b"]) 3)).map State.history
      = some [endedWith 1 (.existsKeys [utf8 "a", utf8 "b"]) 3 (.integer 0),
          endedWith 0 (.rename (utf8 "a") (utf8 "b")) 2 .ok] := by
  intro _
  have hab : utf8 "b" ≠ utf8 "a" := by decide
  have ha : oneElement.live (Env.reading 0).now (utf8 "a") = some (.list ⟨[utf8 "x"], none⟩) := by decide
  have hb : oneElement.live (Env.reading 0).now (utf8 "b") = none := by decide
  simp [run, betweenHalves, step, State.init, program, renameSections, State.land, Function.update,
    List.replicate, scan, insertSection, conclude, ha, hb, hab, CacheStorage.live_setEntry, Slot.live_none,
    endedWith, count]

omit [KeyHash] in
/-- What is recorded when `SET b` runs between the halves of `RPOPLPUSH a b`. -/
theorem history_set_between : let _ := shortKeys
    (run (step program) (State.init oneElement)
        (betweenHalves (.rpoplpush (utf8 "a") (utf8 "b")) (.set (utf8 "b") (utf8 "y") none) 1)).map State.history
      = some [endedWith 1 (.set (utf8 "b") (utf8 "y") none) 1 .ok,
          endedWith 0 (.rpoplpush (utf8 "a") (utf8 "b")) 2 (.error wrongType)] := by
  intro _
  have ha : oneElement.slotAt (utf8 "a") = some (.list ⟨[utf8 "x"], none⟩) := by decide
  have htake : CacheStorage.takeFrom Kind.list (Env.reading 0).now none ListValue.popRight
      (some (.list ⟨[utf8 "x"], none⟩)) = (.ok (some (utf8 "x")), some (.list ⟨[], none⟩)) := by decide
  have hput : CacheStorage.putInto Kind.list (Env.reading 0).now ListValue.new
      (fun l => l.pushLeft (utf8 "x")) (some (.string (utf8 "y") none))
      = (.error wrongType, some (.string (utf8 "y") none)) := by decide
  simp only [State.init, betweenHalves, List.replicate, List.cons_append, List.nil_append, run, step, program,
    moveSections, CacheStorage.onKey, afterTake, id_eq, putSection, orError, Function.update, ↓reduceDIte, State.land,
    ha, htake, Set.union_singleton, insert_empty_eq, Function.update_idem, one_ne_zero, commandKey, Option.map_some,
    singleSection, dispatch, arm, Arm.write, Slot.set, Slot.deadline, Option.map_none, Arm.run, Option.getD_some,
    Option.bind_some, zero_ne_one, CacheStorage.slotAt_setEntry_self, hput, endedWith]

omit [KeyHash] in
/-- `EXISTS a b` between the halves of `RENAME a b` finds neither key, which it does in no order of the two;
    `SET b` between the halves of `RPOPLPUSH a b` makes the move fail with its element gone from everywhere. -/
theorem between_the_halves :
    let _ := shortKeys
    (∃ w, run (step program) (State.init oneElement)
        (betweenHalves (.rename (utf8 "a") (utf8 "b")) (.existsKeys [utf8 "a", utf8 "b"]) 3) = some w ∧
      w.history.map Entry.reply = [some (.integer 0), some .ok] ∧
      ¬ ∃ h t, h.Perm w.history ∧ Sequence oneElement h t) ∧
    ∃ w, run (step program) (State.init oneElement)
        (betweenHalves (.rpoplpush (utf8 "a") (utf8 "b")) (.set (utf8 "b") (utf8 "y") none) 1) = some w ∧
      w.history.map Entry.reply = [some .ok, some (.error wrongType)] ∧
      elements 0 (w.store.slotAt (utf8 "a")) = [] ∧ elements 0 (w.store.slotAt (utf8 "b")) = [] ∧
      ¬ ∃ h t, h.Perm w.history ∧ Sequence oneElement h t := by
  intro _
  constructor
  · obtain ⟨w, hw, hh⟩ := Option.map_eq_some_iff.mp history_exists_between
    refine ⟨w, hw, by rw [hh]; rfl, ?_⟩
    rintro ⟨h, t, hp, hseq⟩
    have hplay := congrArg Option.isSome (replay_of_sequence hseq)
    rw [hh] at hp
    rcases order_of_two hp with rfl | rfl
    · exact absurd (show _ = true from hplay) (by decide)
    · exact absurd (show _ = true from hplay) (by decide)
  · obtain ⟨w, hw, hh⟩ := Option.map_eq_some_iff.mp history_set_between
    have hleft : (run (step program) (State.init oneElement)
        (betweenHalves (.rpoplpush (utf8 "a") (utf8 "b")) (.set (utf8 "b") (utf8 "y") none) 1)).map
          (fun w => (elements 0 (w.store.slotAt (utf8 "a")), elements 0 (w.store.slotAt (utf8 "b"))))
        = some ([], []) := by decide
    rw [hw, Option.map_some, Option.some.injEq, Prod.mk.injEq] at hleft
    refine ⟨w, hw, by rw [hh]; rfl, hleft.1, hleft.2, ?_⟩
    rintro ⟨h, t, hp, hseq⟩
    rw [hh] at hp
    rcases order_of_two hp with rfl | rfl
    · -- the recorded replies are those of this order, but the move delivers nothing
      obtain ⟨p₁, m, hp₁, hset, -, p₂, m', hp₂, hmove, ⟨x, rest, others, -, hdest, -, -⟩, -⟩ := hseq
      cases hp₁
      cases hp₂
      have hm : oneElement.setEntry (utf8 "b") (some (.string (utf8 "y") none)) = m :=
        Option.some.inj (congrArg (Option.map Prod.snd) hset)
      subst hm
      have hgone := congrArg (Option.map fun q => elements 0 (q.2.slotAt (utf8 "b"))) hmove
      have hnil : some (elements 0 (m'.slotAt (utf8 "b"))) = some [] := hgone.symm.trans (by decide)
      rw [show elements (Env.reading 0).now (m'.slotAt (utf8 "b")) = [] from Option.some.inj hnil] at hdest
      cases hdest
    · have hplay := congrArg Option.isSome (replay_of_sequence hseq)
      exact absurd (show _ = true from hplay) (by decide)

end FerricCache
