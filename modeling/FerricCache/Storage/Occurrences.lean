import FerricCache.Storage.Slot

/-!
# `FerricCache.Storage.Occurrences` — what `LREM` takes out of a list

`lrem` removes occurrences of a value from the head on (`FirstRemoved`) or from the tail on (`LastRemoved`): a prefix
or a suffix of the list loses all of them, and the rest of the list stays as it is. The loop of the source carries the
number removed so far, and stops removing at its limit (`removeLoop_spec`).
-/

namespace FerricCache

/-- `l'` is `l` without its first `r` occurrences of `v`. -/
def FirstRemoved (r : Nat) (v : Bytes) (l l' : List Bytes) : Prop :=
  ∃ front back, l = front ++ back ∧ front.count v = r ∧ l' = front.filter (· != v) ++ back

/-- `l'` is `l` without its last `r` occurrences of `v`. -/
def LastRemoved (r : Nat) (v : Bytes) (l l' : List Bytes) : Prop :=
  ∃ front back, l = front ++ back ∧ back.count v = r ∧ l' = front ++ back.filter (· != v)

variable {r limit removed : Nat} {v : Bytes} {l l' : List Bytes}

/-- Read from the tail on, the last occurrences are the first. -/
theorem FirstRemoved.reverse (h : FirstRemoved r v l.reverse l') : LastRemoved r v l l'.reverse := by
  obtain ⟨front, back, hl, hcount, rfl⟩ := h
  refine ⟨back.reverse, front.reverse, ?_, ?_, ?_⟩
  · rw [← List.reverse_append, ← hl, List.reverse_reverse]
  · rw [List.count_reverse]
    exact hcount
  · rw [List.reverse_append, List.filter_reverse]

/-! ## The loop -/

/-- At the limit everything is kept. -/
theorem removeLoop_limit (l : List Bytes) : Slot.removeLoop limit v limit l = (l, limit) := by
  induction l with
  | nil => rfl
  | cons x l ih => rw [Slot.removeLoop, if_neg fun h => lt_irrefl limit h.1, ih]

/-- **The loop with `removed` gone so far.** -/
theorem removeLoop_spec (hle : removed ≤ limit) (l : List Bytes) :
    ∃ r, (Slot.removeLoop limit v removed l).2 = removed + r ∧ removed + r = min limit (removed + l.count v) ∧
      FirstRemoved r v l (Slot.removeLoop limit v removed l).1 := by
  induction l generalizing removed with
  | nil => exact ⟨0, rfl, by rw [List.count_nil, Nat.add_zero, Nat.min_eq_right hle], [], [], rfl, rfl, rfl⟩
  | cons x l ih =>
      rcases Nat.lt_or_eq_of_le hle with hlt | rfl
      · by_cases hx : x = v
        · -- one more occurrence goes
          subst hx
          obtain ⟨r, hremoved, hmin, front, back, rfl, hcount, hkept⟩ := ih (Nat.succ_le_of_lt hlt)
          rw [Slot.removeLoop, if_pos ⟨hlt, rfl⟩]
          refine ⟨r + 1, by rw [hremoved]; omega, ?_, x :: front, back, rfl, ?_, ?_⟩
          · rw [List.count_cons_self]
            omega
          · rw [List.count_cons_self, hcount]
          · rw [hkept, List.filter_cons_of_neg (by simp)]
        · obtain ⟨r, hremoved, hmin, front, back, rfl, hcount, hkept⟩ := ih hle
          rw [Slot.removeLoop, if_neg fun h => hx h.2]
          refine ⟨r, hremoved, ?_, x :: front, back, rfl, ?_, ?_⟩
          · rw [List.count_cons_of_ne hx]
            exact hmin
          · rw [List.count_cons_of_ne hx, hcount]
          · dsimp only
            rw [hkept, List.filter_cons_of_pos (by simpa using hx), List.cons_append]
      · rw [removeLoop_limit]
        exact ⟨0, rfl, by omega, [], x :: l, rfl, rfl, rfl⟩

/-- The limit of a negative count, which is two's complement at the least one. -/
theorem asUsize_neg (count : Int64) (h : count.toInt < 0) : asUsize (wrapI64 (-count.toInt)) = count.toInt.natAbs := by
  have hlo := count.le_toInt
  have hmod : (-count.toInt).bmod (2 ^ 64) % 2 ^ 64 = -count.toInt % 2 ^ 64 := Int.bmod_emod
  unfold asUsize wrapI64
  rw [hmod]
  omega

/-! ## The operation -/

/-- How many occurrences go: as many as there are for `0`. -/
def removedCount (count : Int64) (occurrences : Nat) : Nat :=
  if count.toInt = 0 then occurrences else min count.toInt.natAbs occurrences

/-- **`LREM` removes the right occurrences**, from the head for a count that is not negative and from the tail for a
    negative one, and nothing else of the list changes. A list has at most `usize::MAX` elements. -/
theorem lrem_removes [KeyHash] (now : Instant) (s : CacheStorage) (key : Bytes) (l : ListValue) (count : Int64)
    (value : Bytes) (hlive : s.live now key = some (.list l)) (hsize : l.items.length ≤ usizeMax) :
    ∃ items, (s.onKey key (Slot.lrem now count value)).1 = .ok (removedCount count (l.items.count value)) ∧
      (s.onKey key (Slot.lrem now count value)).2.slotAt key = some (.list ⟨items, l.expiresAt⟩) ∧
      (0 ≤ count.toInt → FirstRemoved (removedCount count (l.items.count value)) value l.items items) ∧
      (count.toInt < 0 → LastRemoved (removedCount count (l.items.count value)) value l.items items) := by
  obtain ⟨hslot, hfresh⟩ := Slot.live_eq_some.mp hlive
  have hoccurrences : l.items.count value ≤ usizeMax := (List.count_le_length ..).trans hsize
  have hstays : ¬ expiredAt now l.expiresAt = true := by
    intro h
    cases (show (CacheValue.list l).isExpired now = true from h).symm.trans hfresh
  simp only [CacheStorage.onKey, CacheStorage.slotAt_setEntry, hslot, Slot.lrem, if_neg hstays, if_true]
  by_cases hcount : 0 ≤ count.toInt
  · obtain ⟨r, hremoved, hmin, hfirst⟩ := removeLoop_spec (v := value)
      (Nat.zero_le (if count.toInt = 0 then usizeMax else count.toInt.toNat)) l.items
    have hr : r = removedCount count (l.items.count value) := by
      unfold removedCount
      split
      · rename_i hzero
        rw [if_pos hzero] at hmin
        omega
      · rename_i hzero
        rw [if_neg hzero] at hmin
        omega
    rw [if_pos hcount, ← hr]
    refine ⟨_, by rw [hremoved, Nat.zero_add], rfl, fun _ => hfirst, fun hneg => absurd hcount (by omega)⟩
  · have hneg : count.toInt < 0 := by omega
    obtain ⟨r, hremoved, hmin, hfirst⟩ := removeLoop_spec (v := value)
      (Nat.zero_le (asUsize (wrapI64 (-count.toInt)))) l.items.reverse
    have hr : r = removedCount count (l.items.count value) := by
      rw [asUsize_neg count hneg, List.count_reverse] at hmin
      unfold removedCount
      rw [if_neg (by omega)]
      omega
    rw [if_neg hcount, ← hr]
    exact ⟨_, by rw [hremoved, Nat.zero_add], rfl, fun h => absurd h hcount, fun _ => hfirst.reverse⟩

/-- `LREM l -2 a` of `a b a a`. -/
theorem lrem_removes_last_two :
    let _ := shortKeys
    let l : ListValue := ⟨[utf8 "a", utf8 "b", utf8 "a", utf8 "a"], some 7⟩
    let s := CacheStorage.new.setEntry (utf8 "l") (some (.list l))
    ∃ items, (s.onKey (utf8 "l") (Slot.lrem 5 (-2) (utf8 "a"))).1 = .ok 2 ∧
      (s.onKey (utf8 "l") (Slot.lrem 5 (-2) (utf8 "a"))).2.slotAt (utf8 "l") = some (.list ⟨items, some 7⟩) ∧
      LastRemoved 2 (utf8 "a") l.items items := by
  intro _ l s
  have hslot : s.slotAt (utf8 "l") = some (.list l) := CacheStorage.slotAt_setEntry_self _ _ _
  have hlive : s.live 5 (utf8 "l") = some (.list l) := Slot.live_eq_some.mpr ⟨hslot, rfl⟩
  obtain ⟨items, hreply, hafter, -, hlast⟩ := lrem_removes 5 s (utf8 "l") l (-2) (utf8 "a") hlive (by decide)
  have hcount : removedCount (-2) (l.items.count (utf8 "a")) = 2 := by decide
  rw [hcount] at hreply hlast
  exact ⟨items, hreply, hafter, hlast (by decide)⟩

end FerricCache
