import FerricCache.Data.Value

/-!
# `FerricCache.Data.Streams` — the ids of a stream and the reads over them

A stream is `Topped` when its last id is the greatest of its entries. An explicit id has to exceed the last one, and
an auto id does, except when the clock is not past `last_id.ms` and `last_id.seq` is `u64::MAX`: then `seq + 1`
wraps, the new id is not the greatest, and an entry may be overwritten (`Wraps`). Every run of `add` that never adds
in that state keeps the stream topped, and each add puts one entry on top (`ids_grow_iff`).

`XRANGE` and `XREAD` test their limit after pushing, so a limit of 0 returns an entry, and `XRANGE` panics on reversed
bounds (`reads_right_iff`). Paging with a limit of at least 1 visits every entry after the cursor once.
-/

namespace FerricCache

/-- The last id is the greatest id in the stream, or `0-0` when it has no entries; no entry has `0-0`. -/
structure StreamValue.Topped (s : StreamValue) : Prop where
  pos : ∀ id ∈ s.entries, compare StreamId.minId id = .lt
  le : ∀ id ∈ s.entries, (compare id s.lastId).isLE
  last : s.lastId ∈ s.entries ∨ s.entries = ∅ ∧ s.lastId = StreamId.minId

/-! ## The order of ids -/

theorem StreamId.compare_lt_iff {a b : StreamId} : compare a b = .lt ↔ a.ms < b.ms ∨ a.ms = b.ms ∧ a.seq < b.seq := by
  show (compare a.ms b.ms).then (compare a.seq b.seq) = .lt ↔ _
  rw [Ordering.then_eq_lt, Std.compare_eq_lt, Std.compare_eq_lt, Std.LawfulEqCmp.compare_eq_iff_eq]

theorem StreamId.isLE_iff_not_lt {a b : StreamId} : (compare a b).isLE = false ↔ compare b a = .lt := by
  rw [← Std.OrientedCmp.gt_iff_lt]
  cases compare a b <;> simp [Ordering.isLE]

namespace StreamValue

/-! ## Streams stay topped -/

theorem topped_new : new.Topped :=
  ⟨fun _ h => absurd h (by simp [new]), fun _ h => absurd h (by simp [new]), Or.inr ⟨rfl, rfl⟩⟩

/-- `0-0` is the least id. -/
theorem minId_le (id : StreamId) : (compare StreamId.minId id).isLE := by
  show ((compare (0 : UInt64) id.ms).then (compare (0 : UInt64) id.seq)).isLE
  rw [Ordering.isLE_then_iff_and]
  exact ⟨Std.isLE_compare.mpr UInt64.zero_le, Or.inr (Std.isLE_compare.mpr UInt64.zero_le)⟩

/-- An id above the last one goes on top. -/
theorem topped_push {s : StreamValue} {id : StreamId} (fields : List (Bytes × Bytes)) (hs : s.Topped)
    (hid : (compare id s.lastId).isLE = false) : (s.push id fields).Topped := by
  have hgt : compare id s.lastId = .gt := by
    cases hc : compare id s.lastId <;> simp_all [Ordering.isLE]
  have hlt : compare s.lastId id = .lt := Std.OrientedCmp.gt_iff_lt.mp hgt
  refine ⟨?_, ?_, Or.inl Std.ExtTreeMap.mem_insert_self⟩
  · intro id' hid'
    rcases Std.ExtTreeMap.mem_insert.mp hid' with heq | hmem
    · obtain rfl := StreamId.compare_eq_iff.mp heq
      exact Std.TransCmp.lt_of_isLE_of_lt (minId_le s.lastId) hlt
    · exact hs.pos id' hmem
  · intro id' hid'
    show (compare id' id).isLE
    rcases Std.ExtTreeMap.mem_insert.mp hid' with heq | hmem
    · obtain rfl := StreamId.compare_eq_iff.mp heq
      rw [StreamId.compare_eq_iff.mpr rfl]
      rfl
    · exact Std.TransCmp.isLE_trans (hs.le id' hmem) (by rw [hlt]; rfl)

theorem topped_add {s : StreamValue} (nowMs : UInt64) (id : StreamId) (fields : List (Bytes × Bytes))
    (hs : s.Topped) : (s.add nowMs (some id) fields).2.Topped := by
  unfold add
  by_cases hle : (compare id s.lastId).isLE = true
  · simp only [if_pos hle]
    exact hs
  · simp only [if_neg hle]
    exact topped_push fields hs (Bool.not_eq_true _ ▸ hle)

/-! ## Runs of `add` -/

/-- A call of `add`, with the clock it reads. -/
structure AddCall where
  nowMs : UInt64
  requested : Option StreamId
  fields : List (Bytes × Bytes)

/-- What the call answers, and the stream after it. -/
def call (s : StreamValue) (c : AddCall) : Res StreamId × StreamValue := s.add c.nowMs c.requested c.fields

/-- The stream after a sequence of calls. -/
def run (calls : List AddCall) : StreamValue := calls.foldl (fun s c => (s.call c).2) new

/-- An auto id is asked for, the clock is not past the last id, and its sequence number is `u64::MAX`. -/
def Wraps (s : StreamValue) (c : AddCall) : Prop :=
  c.requested = none ∧ c.nowMs ≤ s.lastId.ms ∧ s.lastId.seq.toNat + 1 = 2 ^ 64

/-- A successful call adds one entry above all others, a failed one changes nothing, and no sum overflows. -/
structure Grows (s : StreamValue) (c : AddCall) : Prop where
  above : ∀ id, (s.call c).1 = .ok id → ∀ e ∈ s.entries, compare e id = .lt
  one_more : ∀ id, (s.call c).1 = .ok id → id ∉ s.entries ∧
    (s.call c).2.entries = s.entries.insert id c.fields ∧ (s.call c).2.len = s.len + 1
  unchanged : ∀ e, (s.call c).1 = .error e → (s.call c).2 = s
  no_overflow : c.requested = none → ¬ s.lastId.ms < c.nowMs → s.lastId.seq.toNat + 1 < 2 ^ 64

/-- Each call of the run grows the stream it is made on, and the last id is on top from the start to the end. -/
def IdsGrow (calls : List AddCall) : Prop :=
  (∀ pre c post, calls = pre ++ c :: post → (run pre).Grows c) ∧ ∀ pre, pre <+: calls → (run pre).Topped

/-- An auto id that does not wrap exceeds the last id. -/
theorem lastId_lt_autoId {s : StreamValue} {c : AddCall} (hc : ¬ s.Wraps c) (hauto : c.requested = none) :
    compare s.lastId (s.autoId c.nowMs) = .lt := by
  rw [StreamId.compare_lt_iff]
  unfold autoId
  split
  · rename_i hlater
    exact Or.inl hlater
  · rename_i hlater
    refine Or.inr ⟨rfl, ?_⟩
    have hseq : s.lastId.seq.toNat + 1 ≠ 2 ^ 64 := fun h => hc ⟨hauto, UInt64.not_lt.mp hlater, h⟩
    have hlt := s.lastId.seq.toNat_lt
    rw [UInt64.lt_iff_toNat_lt, UInt64.toNat_add]
    show s.lastId.seq.toNat < (s.lastId.seq.toNat + 1) % 2 ^ 64
    omega

/-- A call that does not wrap fails and changes nothing, or puts its id on top of the last one. -/
theorem call_cases {s : StreamValue} {c : AddCall} (hc : ¬ s.Wraps c) :
    (s.call c = (.error idTooSmall, s)) ∨
      ∃ id, s.call c = (.ok id, s.push id c.fields) ∧ compare s.lastId id = .lt := by
  cases hreq : c.requested with
  | none =>
      refine Or.inr ⟨s.autoId c.nowMs, ?_, lastId_lt_autoId hc hreq⟩
      unfold call add
      rw [hreq]
  | some id =>
      unfold call add
      rw [hreq]
      by_cases hle : (compare id s.lastId).isLE = true
      · exact Or.inl (if_pos hle)
      · exact Or.inr ⟨id, if_neg hle, StreamId.isLE_iff_not_lt.mp (Bool.not_eq_true _ ▸ hle)⟩

theorem Topped.call {s : StreamValue} (hs : s.Topped) {c : AddCall} (hc : ¬ s.Wraps c) : (s.call c).2.Topped := by
  rcases call_cases hc with h | ⟨id, h, hlt⟩
  · rw [h]
    exact hs
  · rw [h]
    exact topped_push c.fields hs (StreamId.isLE_iff_not_lt.mpr hlt)

theorem Topped.grows {s : StreamValue} (hs : s.Topped) {c : AddCall} (hc : ¬ s.Wraps c) : s.Grows c := by
  have hover : c.requested = none → ¬ s.lastId.ms < c.nowMs → s.lastId.seq.toNat + 1 < 2 ^ 64 := by
    intro hreq hlater
    have hlt := s.lastId.seq.toNat_lt
    have hseq : s.lastId.seq.toNat + 1 ≠ 2 ^ 64 := fun h => hc ⟨hreq, UInt64.not_lt.mp hlater, h⟩
    omega
  rcases call_cases hc with h | ⟨id, h, hlt⟩
  · refine ⟨?_, ?_, ?_, hover⟩
    · intro id hid
      rw [h] at hid
      cases hid
    · intro id hid
      rw [h] at hid
      cases hid
    · intro e _
      rw [h]
  · -- the new id is above the last one, so above every entry
    have habove : ∀ e ∈ s.entries, compare e id = .lt := fun e he =>
      Std.TransCmp.lt_of_isLE_of_lt (hs.le e he) hlt
    have hfresh : id ∉ s.entries := by
      intro hin
      have hself := habove id hin
      rw [StreamId.compare_eq_iff.mpr rfl] at hself
      cases hself
    refine ⟨?_, ?_, ?_, hover⟩
    · intro id' hid'
      rw [h] at hid'
      cases hid'
      exact habove
    · intro id' hid'
      rw [h] at hid'
      cases hid'
      refine ⟨hfresh, by rw [h]; rfl, ?_⟩
      rw [h]
      show (s.entries.insert id c.fields).size = s.entries.size + 1
      rw [Std.ExtTreeMap.size_insert, if_neg fun h => hfresh (Std.ExtTreeMap.contains_iff_mem.mp h)]
    · intro e he
      rw [h] at he
      cases he

theorem run_concat (calls : List AddCall) (c : AddCall) : run (calls ++ [c]) = ((run calls).call c).2 := by
  unfold run
  rw [List.foldl_append]
  rfl

/-- A run in which no call wraps leaves the stream topped. -/
theorem topped_run {calls : List AddCall} (h : ∀ pre c post, calls = pre ++ c :: post → ¬ (run pre).Wraps c) :
    (run calls).Topped := by
  induction calls using List.reverseRecOn with
  | nil => exact topped_new
  | append_singleton calls c ih =>
      rw [run_concat]
      refine (ih fun pre d post hd => h pre d (post ++ [c]) ?_).call (h calls c [] rfl)
      rw [hd, List.append_assoc]
      rfl

/-- **When stream ids only grow**: exactly when no call wraps. -/
theorem ids_grow_iff (calls : List AddCall) :
    IdsGrow calls ↔ ∀ pre c post, calls = pre ++ c :: post → ¬ (run pre).Wraps c := by
  constructor
  · rintro h pre c post hpre ⟨hreq, hms, hseq⟩
    have hfits := (h.1 pre c post hpre).no_overflow hreq (UInt64.not_lt.mpr hms)
    omega
  · intro h
    have htop : ∀ pre post, calls = pre ++ post → (run pre).Topped := by
      intro pre post hpre
      refine topped_run fun pre' c post' hc => h pre' c (post' ++ post) ?_
      rw [hpre, hc, List.append_assoc]
      rfl
    constructor
    · intro pre c post hpre
      exact (htop pre (c :: post) hpre).grows (h pre c post hpre)
    · rintro pre ⟨post, hpost⟩
      exact htop pre post hpost.symm

/-- `5-0`, then `5-18446744073709551615`, then an auto id while the clock reads 5: the third entry takes the id `5-0`
    and the place of the first, and the last id goes back to `5-0`. -/
theorem auto_id_overwrites :
    let pre : List AddCall := [⟨5, some ⟨5, 0⟩, [(utf8 "f", utf8 "a")]⟩, ⟨5, some ⟨5, 18446744073709551615⟩, []⟩]
    let auto : AddCall := ⟨5, none, [(utf8 "f", utf8 "b")]⟩
    ((run pre).call auto).1 = .ok ⟨5, 0⟩ ∧ (run pre).len = 2 ∧ ((run pre).call auto).2.len = 2 ∧
      (run (pre ++ [auto])).lastId = ⟨5, 0⟩ ∧ ¬ IdsGrow (pre ++ [auto]) := by
  refine ⟨by decide, by decide, by decide, by decide, ?_⟩
  intro h
  have hmore := (h.1 _ _ [] rfl).one_more ⟨5, 0⟩ (by decide)
  exact absurd hmore.2.2 (by decide)

/-! ## The reads -/

/-- The entries from `start` to `stop`, in id order. -/
def within (s : StreamValue) (start stop : StreamId) : List (StreamId × List (Bytes × Bytes)) :=
  s.entries.toList.filter fun p => (compare start p.1).isLE && (compare p.1 stop).isLE

/-- The entries after `cursor`, in id order. -/
def after (s : StreamValue) (cursor : StreamId) : List (StreamId × List (Bytes × Bytes)) :=
  s.entries.toList.filter fun p => compare cursor p.1 = .lt

/-- The first `limit` elements; all of them when there is no limit. -/
def first {α : Type} (limit : Option Nat) (l : List α) : List α :=
  match limit with
  | none => l
  | some n => l.take n

/-- The limit is tested after pushing: only a limit of 0 lets an element too many through. -/
theorem limited_eq_first_iff {α : Type} {limit : Option Nat} {l : List α} :
    limited limit l = first limit l ↔ limit ≠ some 0 ∨ l = [] := by
  cases limit with
  | none => simp [limited, first]
  | some n =>
      cases n with
      | zero =>
          cases l with
          | nil => simp [limited, first]
          | cons a l => simp [limited, first]
      | succ n => simp [limited, first]

/-- `range` returns the entries between the bounds, up to the limit, and does not panic. -/
def RangeRight (s : StreamValue) (start stop : StreamId) (limit : Option Nat) : Prop :=
  s.range start stop limit = some (first limit (s.within start stop))

/-- `read_after` returns the entries after the cursor, up to the limit. -/
def ReadAfterRight (s : StreamValue) (cursor : StreamId) (limit : Option Nat) : Prop :=
  s.readAfter cursor limit = first limit (s.after cursor)

theorem within_eq_nil_iff {s : StreamValue} {start stop : StreamId} :
    s.within start stop = [] ↔ ¬ ∃ id ∈ s.entries, (compare start id).isLE ∧ (compare id stop).isLE := by
  unfold within
  rw [List.filter_eq_nil_iff]
  constructor
  · rintro h ⟨id, hid, hstart, hstop⟩
    have hin : (id, s.entries[id]) ∈ s.entries.toList :=
      Std.ExtTreeMap.mem_toList_iff_getElem?_eq_some.mpr (Std.ExtTreeMap.getElem?_eq_some_getElem hid)
    exact h _ hin (by simp [hstart, hstop])
  · rintro h ⟨id, fields⟩ hp hbetween
    rw [Bool.and_eq_true] at hbetween
    have hget := Std.ExtTreeMap.mem_toList_iff_getElem?_eq_some.mp hp
    exact h ⟨id, Std.ExtTreeMap.isSome_getElem?_iff_mem.mp (by rw [hget]; rfl), hbetween⟩

theorem after_eq_nil_iff {s : StreamValue} {cursor : StreamId} :
    s.after cursor = [] ↔ ¬ ∃ id ∈ s.entries, compare cursor id = .lt := by
  unfold after
  rw [List.filter_eq_nil_iff]
  constructor
  · rintro h ⟨id, hid, hafter⟩
    have hin : (id, s.entries[id]) ∈ s.entries.toList :=
      Std.ExtTreeMap.mem_toList_iff_getElem?_eq_some.mpr (Std.ExtTreeMap.getElem?_eq_some_getElem hid)
    exact h _ hin (by simp [hafter])
  · rintro h ⟨id, fields⟩ hp hafter
    have hget := Std.ExtTreeMap.mem_toList_iff_getElem?_eq_some.mp hp
    exact h ⟨id, Std.ExtTreeMap.isSome_getElem?_iff_mem.mp (by rw [hget]; rfl), of_decide_eq_true hafter⟩

theorem rangeRight_iff (s : StreamValue) (start stop : StreamId) (limit : Option Nat) :
    s.RangeRight start stop limit ↔ compare start stop ≠ .gt ∧
      ¬ (limit = some 0 ∧ ∃ id ∈ s.entries, (compare start id).isLE ∧ (compare id stop).isLE) := by
  unfold RangeRight range
  by_cases hgt : compare start stop = .gt
  · simp [hgt]
  · rw [if_neg hgt, Option.some.injEq]
    rw [and_iff_right hgt, not_and_or, ← within_eq_nil_iff]
    exact limited_eq_first_iff

theorem readAfterRight_iff (s : StreamValue) (cursor : StreamId) (limit : Option Nat) :
    s.ReadAfterRight cursor limit ↔ ¬ (limit = some 0 ∧ ∃ id ∈ s.entries, compare cursor id = .lt) := by
  rw [not_and_or, ← after_eq_nil_iff]
  exact limited_eq_first_iff

/-! ## Paging -/

/-- The reads of a client that asks for `n` entries at a time, each from the last id it got, until it gets none. -/
def pages (s : StreamValue) (n : Nat) : Nat → StreamId → List (List (StreamId × List (Bytes × Bytes)))
  | 0, _ => []
  | fuel + 1, cursor =>
      match (s.readAfter cursor (some n)).getLast? with
      | none => []
      | some e => s.readAfter cursor (some n) :: pages s n fuel e.1

/-- What is left after a page is what comes after its last entry. -/
theorem after_page {s : StreamValue} {cursor : StreamId} {n : Nat} {e : StreamId × List (Bytes × Bytes)}
    (he : ((s.after cursor).take n).getLast? = some e) : s.after e.1 = (s.after cursor).drop n := by
  have hsorted : (s.after cursor).Pairwise fun p q => compare p.1 q.1 = .lt :=
    Std.ExtTreeMap.ordered_keys_toList.sublist List.filter_sublist
  obtain ⟨page, hpage⟩ := List.getLast?_eq_some_iff.mp he
  have hcut : s.after cursor = (page ++ [e]) ++ (s.after cursor).drop n := by
    rw [← hpage, List.take_append_drop]
  have hecursor : compare cursor e.1 = .lt := by
    have hin : e ∈ s.after cursor := by
      rw [hcut]
      simp
    exact of_decide_eq_true (List.mem_filter.mp hin).2
  rw [hcut] at hsorted
  obtain ⟨hfront, -, hacross⟩ := List.pairwise_append.mp hsorted
  obtain ⟨-, -, hlast⟩ := List.pairwise_append.mp hfront
  -- the entries after `e` are among those after the cursor
  have hsub : s.after e.1 = (s.after cursor).filter fun p => compare e.1 p.1 = .lt := by
    unfold after
    rw [List.filter_filter]
    apply List.filter_congr
    intro p _
    by_cases hp : compare e.1 p.1 = .lt
    · simp [hp, Std.TransCmp.lt_trans hecursor hp]
    · simp [hp]
  have hbefore : (page ++ [e]).filter (fun p => compare e.1 p.1 = .lt) = [] := by
    rw [List.filter_eq_nil_iff]
    intro p hp hlt
    have hlt := of_decide_eq_true hlt
    rcases List.mem_append.mp hp with hp | hp
    · have hcontra := Std.TransCmp.lt_trans hlt (hlast p hp e (List.mem_singleton_self e))
      rw [StreamId.compare_eq_iff.mpr rfl] at hcontra
      cases hcontra
    · rw [List.mem_singleton.mp hp, StreamId.compare_eq_iff.mpr rfl] at hlt
      cases hlt
  have hrest : ((s.after cursor).drop n).filter (fun p => compare e.1 p.1 = .lt) = (s.after cursor).drop n := by
    rw [List.filter_eq_self]
    intro p hp
    exact decide_eq_true (hacross e (by simp) p hp)
  rw [hsub]
  conv_lhs => rw [hcut]
  rw [List.filter_append, hbefore, hrest, List.nil_append]

/-- Enough reads of at least one entry visit what is after the cursor, each entry once and in order. -/
theorem flatten_pages {s : StreamValue} {n : Nat} (hn : 0 < n) {fuel : Nat} {cursor : StreamId}
    (hfuel : (s.after cursor).length ≤ fuel) : (s.pages n fuel cursor).flatten = s.after cursor := by
  induction fuel generalizing cursor with
  | zero =>
      rw [List.eq_nil_of_length_eq_zero (Nat.le_zero.mp hfuel)]
      rfl
  | succ fuel ih =>
      have hread : s.readAfter cursor (some n) = (s.after cursor).take n := by
        show (s.after cursor).take (max n 1) = _
        rw [max_eq_left hn]
      rw [pages, hread]
      cases hlast : ((s.after cursor).take n).getLast? with
      | none =>
          rw [List.getLast?_eq_none_iff, List.take_eq_nil_iff] at hlast
          rw [hlast.resolve_left (by omega)]
          rfl
      | some e =>
          have hleft := after_page hlast
          have hlen : (s.after e.1).length ≤ fuel := by
            rw [hleft, List.length_drop]
            omega
          dsimp only
          rw [List.flatten_cons, ih hlen, hleft, List.take_append_drop]

/-- **When the stream reads return exactly what is asked for**; paging always does. -/
theorem reads_right_iff (s : StreamValue) (start stop cursor : StreamId) (limit : Option Nat) :
    (s.RangeRight start stop limit ↔ compare start stop ≠ .gt ∧
      ¬ (limit = some 0 ∧ ∃ id ∈ s.entries, (compare start id).isLE ∧ (compare id stop).isLE)) ∧
    (s.ReadAfterRight cursor limit ↔ ¬ (limit = some 0 ∧ ∃ id ∈ s.entries, compare cursor id = .lt)) ∧
    ∀ n, 0 < n → ∀ fuel, s.len ≤ fuel → (s.pages n fuel cursor).flatten = s.after cursor := by
  refine ⟨rangeRight_iff s start stop limit, readAfterRight_iff s cursor limit, ?_⟩
  intro n hn fuel hfuel
  have hlen : (s.after cursor).length ≤ s.len := by
    have hsub := (List.filter_sublist (l := s.entries.toList) (p := fun p => compare cursor p.1 = .lt)).length_le
    rw [Std.ExtTreeMap.length_toList] at hsub
    exact hsub
  exact flatten_pages hn (hlen.trans hfuel)

/-- Three entries. -/
def threeEntries : StreamValue :=
  run [⟨0, some ⟨1, 0⟩, []⟩, ⟨0, some ⟨1, 7⟩, []⟩, ⟨0, some ⟨2, 0⟩, []⟩]

theorem reads_right_three :
    threeEntries.RangeRight ⟨1, 0⟩ ⟨1, 9⟩ (some 1) ∧ threeEntries.ReadAfterRight ⟨1, 7⟩ none ∧
      (threeEntries.pages 2 3 .minId).flatten = threeEntries.after .minId :=
  ⟨(reads_right_iff threeEntries ⟨1, 0⟩ ⟨1, 9⟩ .minId (some 1)).1.mpr ⟨by decide, by simp⟩,
    (reads_right_iff threeEntries .minId .minId ⟨1, 7⟩ none).2.1.mpr (by simp),
    (reads_right_iff threeEntries .minId .minId .minId none).2.2 2 (by decide) 3 (by decide)⟩

/-- Reversed bounds panic, and a limit of 0 returns one entry. -/
theorem reads_off_the_bounds :
    threeEntries.range ⟨2, 0⟩ ⟨1, 0⟩ none = none ∧ ¬ threeEntries.RangeRight ⟨2, 0⟩ ⟨1, 0⟩ none ∧
      threeEntries.range .minId .maxId (some 0) = some [(⟨1, 0⟩, [])] ∧
      ¬ threeEntries.RangeRight .minId .maxId (some 0) ∧
      threeEntries.readAfter ⟨1, 0⟩ (some 0) = [(⟨1, 7⟩, [])] ∧ ¬ threeEntries.ReadAfterRight ⟨1, 0⟩ (some 0) := by
  have hreversed : threeEntries.range ⟨2, 0⟩ ⟨1, 0⟩ none = none := by decide
  have hrange : threeEntries.range .minId .maxId (some 0) = some [(⟨1, 0⟩, [])] := by decide
  have hread : threeEntries.readAfter ⟨1, 0⟩ (some 0) = [(⟨1, 7⟩, [])] := by decide
  refine ⟨hreversed, ?_, hrange, ?_, hread, ?_⟩
  · intro h
    cases hreversed.symm.trans h
  · intro h
    cases hrange.symm.trans h
  · intro h
    cases hread.symm.trans h

end StreamValue

end FerricCache
