import FerricCache.Data.PopOrder

/-!
# `FerricCache.Data.Representation` — the two indexes over every run of a sorted set

A `Represented` sorted set has no empty bucket, each member in one bucket, that of its score, and as many members
as its buckets hold; its range from `0` to `usize::MAX` lists each member once, with its score, in ascending
order. Scores are compared as the code compares them, so the two zeros are one score; when only one of them is
ever added, the scores are the same bit for bit (`Exact`). Every run of `add`, `remove`, `pop_min` and `pop_max`
keeps both (`run_represented`).
-/

namespace FerricCache

open Lib

namespace SortedSetValue

/-- The members in the bucket that is found at a score. -/
def bucketAt (z : SortedSetValue) (x : F64) : Std.ExtTreeSet Bytes :=
  (OrdList.find? F64.cmp x z.membersByScore).getD ∅

/-- The two indexes agree, and the whole range agrees with them. -/
structure Represented (z : SortedSetValue) : Prop where
  bucket : ∀ (m : Bytes) (x : F64), x ≠ .nan →
    (m ∈ z.bucketAt x ↔ ∃ y, z.getScore m = some y ∧ F64.cmp y x = .eq)
  nonempty : ∀ b ∈ z.membersByScore, b.2 ≠ ∅
  one_bucket : ∀ m, (z.getScore m).isSome → ∃! b, b ∈ z.membersByScore ∧ m ∈ b.2
  len_eq : z.len = (z.membersByScore.map fun b => b.2.size).sum
  range_members : z.len ≤ usizeMax → ∀ pos : Bytes → Nat,
    ((z.getRange pos 0 usizeMax true).map Prod.fst).Nodup ∧
      ∀ m, m ∈ (z.getRange pos 0 usizeMax true).map Prod.fst ↔ (z.getScore m).isSome
  range_scores : z.len ≤ usizeMax → ∀ pos : Bytes → Nat, ∀ p ∈ z.getRange pos 0 usizeMax true,
    ∃ x y, p.2 = some x ∧ z.getScore p.1 = some y ∧ F64.cmp y x = .eq
  range_sorted : z.len ≤ usizeMax → ∀ pos : Bytes → Nat,
    (z.getRange pos 0 usizeMax true).Pairwise fun p q => ∀ x ∈ p.2, ∀ y ∈ q.2, F64.cmp x y ≠ .gt

/-- The two indexes agree on the very bits of the scores. -/
structure Exact (zero : F64) (z : SortedSetValue) : Prop where
  bucket : ∀ (m : Bytes) (x : F64), F64.Ok zero x → (m ∈ z.bucketAt x ↔ z.getScore m = some x)
  range_scores : z.len ≤ usizeMax → ∀ pos : Bytes → Nat, ∀ p ∈ z.getRange pos 0 usizeMax true,
    p.2 = z.getScore p.1

variable {zero : F64} {z : SortedSetValue}

/-! ## The buckets -/

/-- The bucket found at a score, up to the sign of zero. -/
theorem Indexed.mem_bucketAt (hz : z.Indexed) {x : F64} (hx : x ≠ .nan) (m : Bytes) :
    m ∈ z.bucketAt x ↔ ∃ y, z.getScore m = some y ∧ F64.cmp y x = .eq := by
  have hfound := Consistent.mem_found hz (F64.ok_norm hx) m
  rw [show z.norm.membersByScore = z.membersByScore.map (Prod.map F64.norm id) from rfl,
    OrdList.find?_map F64.cmp_norm, getElem?_norm, Option.map_eq_some_iff] at hfound
  rw [bucketAt, hfound]
  refine exists_congr fun y => and_congr_right fun hy => ?_
  constructor
  · intro h
    rw [← F64.cmp_norm, h]
    exact F64.cmp_self _
  · exact F64.norm_eq_of_cmp_eq (hz.score_ne_nan hy) hx

theorem Indexed.bucket_nonempty (hz : z.Indexed) {b : F64 × Std.ExtTreeSet Bytes compare}
    (hb : b ∈ z.membersByScore) : b.2 ≠ ∅ := by
  obtain ⟨m, hm⟩ := hz.nonempty (Prod.map F64.norm id b) (List.mem_map_of_mem hb)
  intro hempty
  rw [show (Prod.map F64.norm id b).2 = b.2 from rfl, hempty] at hm
  exact Std.ExtTreeSet.not_mem_empty hm

/-- A member is in one bucket only: buckets with one member have scores that compare equal. -/
theorem Indexed.one_bucket (hz : z.Indexed) {m : Bytes} (hm : (z.getScore m).isSome) :
    ∃! b, b ∈ z.membersByScore ∧ m ∈ b.2 := by
  obtain ⟨x, hx⟩ := Option.isSome_iff_exists.mp hm
  obtain ⟨b, hb, hbx, hmb⟩ := hz.bucket_of_score hx
  refine ⟨b, ⟨hb, hmb⟩, ?_⟩
  rintro c ⟨hc, hmc⟩
  obtain ⟨y, hy, hyc⟩ := hz.score_of_bucket hc hmc
  obtain rfl : x = y := Option.some_inj.mp (hx.symm.trans hy)
  refine hz.bucket_eq hc hb ?_
  rw [← F64.cmp_norm, ← hyc, hbx]
  exact F64.cmp_self _

theorem length_listing_eq_sum (pos : Bytes → Nat) (z : SortedSetValue) :
    (z.listing pos).length = (z.membersByScore.map fun b => b.2.size).sum := by
  unfold listing
  rw [List.length_flatMap]
  congr 1
  apply List.map_congr_left
  intro b _
  rw [List.length_map, (iterate_perm pos id b.2.toList).length_eq, Std.ExtTreeSet.length_toList]

/-! ## The whole range -/

theorem Indexed.getRange_all (hz : z.Indexed) (hlen : z.len ≤ usizeMax) (pos : Bytes → Nat) :
    z.getRange pos 0 usizeMax true = (z.listing pos).map fun p => (p.2, some p.1) :=
  rangeLoop_all (by rw [hz.length_listing]; omega)

/-- The listing ascends: within a bucket the score is one, and the buckets are in order. -/
theorem Indexed.listing_sorted (hz : z.Indexed) (pos : Bytes → Nat) :
    (z.listing pos).Pairwise fun p q => F64.cmp p.1 q.1 ≠ .gt := by
  unfold listing
  rw [List.pairwise_flatMap]
  constructor
  · intro b _
    rw [List.pairwise_map]
    refine List.pairwise_of_forall fun m m' => ?_
    rw [F64.cmp_self]
    simp
  · refine hz.pairwise.imp ?_
    intro b c hlt p hp q hq
    obtain ⟨m, -, rfl⟩ := List.mem_map.mp hp
    obtain ⟨m', -, rfl⟩ := List.mem_map.mp hq
    show F64.cmp b.1 c.1 ≠ .gt
    rw [hlt]
    simp

/-- **A sorted set without NaN is represented.** -/
theorem Indexed.represented (hz : z.Indexed) : z.Represented where
  bucket m x hx := hz.mem_bucketAt hx m
  nonempty b hb := hz.bucket_nonempty hb
  one_bucket m hm := hz.one_bucket hm
  len_eq := by rw [← length_listing_eq_sum (fun _ => 0), hz.length_listing]
  range_members hlen pos := by
    rw [hz.getRange_all hlen, List.map_map]
    have hperm := hz.listing_perm pos
    refine ⟨hperm.nodup_iff.mpr Std.ExtTreeMap.nodup_keys, fun m => ?_⟩
    rw [show (Prod.fst ∘ fun p : F64 × Bytes => (p.2, some p.1)) = Prod.snd from rfl, hperm.mem_iff,
      Std.ExtTreeMap.mem_keys, getScore, Std.ExtTreeMap.isSome_getElem?_iff_mem]
  range_scores hlen pos p hp := by
    rw [hz.getRange_all hlen] at hp
    obtain ⟨⟨x, m⟩, hlisted, rfl⟩ := List.mem_map.mp hp
    obtain ⟨b, hb, rfl, hmb⟩ := mem_listing.mp hlisted
    obtain ⟨y, hy, hyb⟩ := hz.score_of_bucket hb hmb
    refine ⟨b.1, y, rfl, hy, ?_⟩
    rw [← F64.cmp_norm, hyb]
    exact F64.cmp_self _
  range_sorted hlen pos := by
    rw [hz.getRange_all hlen, List.pairwise_map]
    refine (hz.listing_sorted pos).imp ?_
    rintro p q hle x hx y hy
    cases hx
    cases hy
    exact hle

/-- A consistent sorted set agrees exactly. -/
theorem Consistent.exact (hz : z.Consistent zero) (hi : z.Indexed) : z.Exact zero where
  bucket m x hx := hz.mem_found hx m
  range_scores hlen pos p hp := by
    rw [hi.getRange_all hlen] at hp
    obtain ⟨⟨x, m⟩, hlisted, rfl⟩ := List.mem_map.mp hp
    exact ((hz.score m x).mpr (mem_listing.mp hlisted)).symm

/-! ## Runs -/

/-- A call of one of the four mutators; a pop draws from each bucket in an order of its own. -/
inductive Op
  | add (score : F64) (m : Bytes)
  | remove (m : Bytes)
  | popMin (pos : Bytes → Nat) (count : Nat)
  | popMax (pos : Bytes → Nat) (count : Nat)

/-- The sorted set after the call; a count whose result cannot be allocated panics before anything is taken. -/
def Op.apply (z : SortedSetValue) : Op → SortedSetValue
  | .add score m => z.add score m
  | .remove m => z.remove m
  | .popMin pos count => ((z.popMin pos count).map Prod.snd).getD z
  | .popMax pos count => ((z.popMax pos count).map Prod.snd).getD z

/-- The score that is added, if the call adds one, is one of these. -/
def Op.Scores (ok : F64 → Prop) : Op → Prop
  | .add score _ => ok score
  | _ => True

/-- The sorted set after a sequence of calls. -/
def run (ops : List Op) : SortedSetValue := ops.foldl Op.apply new

/-- A property kept by adding a score of `ok` and by removing is kept by every call. -/
theorem Op.apply_invariant {P : SortedSetValue → Prop} {ok : F64 → Prop}
    (hadd : ∀ z x m, P z → ok x → P (z.add x m)) (hremove : ∀ z m, P z → P (z.remove m)) {op : Op}
    (hop : op.Scores ok) (hz : P z) : P (op.apply z) := by
  cases op with
  | add score m => exact hadd z score m hz hop
  | remove m => exact hremove z m hz
  | popMin pos count =>
      show P (((if isizeMax < count * 40 then none else some (popLoop pos List.head? count z)).map Prod.snd).getD z)
      split
      · exact hz
      · exact popLoop_invariant hremove pos List.head? count hz
  | popMax pos count =>
      show P (((if isizeMax < count * 40 then none else some (popLoop pos List.getLast? count z)).map Prod.snd).getD z)
      split
      · exact hz
      · exact popLoop_invariant hremove pos List.getLast? count hz

/-- What every call keeps holds of every run. -/
theorem run_invariant {P : SortedSetValue → Prop} {ok : F64 → Prop} (hnew : P new)
    (hadd : ∀ z x m, P z → ok x → P (z.add x m)) (hremove : ∀ z m, P z → P (z.remove m)) {ops : List Op}
    (hops : ∀ op ∈ ops, op.Scores ok) : P (run ops) := by
  unfold run
  induction ops using List.reverseRecOn with
  | nil => exact hnew
  | append_singleton ops op ih =>
      rw [List.foldl_append]
      exact Op.apply_invariant hadd hremove (hops op (by simp)) (ih fun o ho => hops o (by simp [ho]))

theorem run_indexed {ops : List Op} (hops : ∀ op ∈ ops, op.Scores (· ≠ .nan)) : (run ops).Indexed :=
  run_invariant indexed_new (fun _ _ m hz hx => hz.add hx m) (fun _ m hz => hz.remove m) hops

/-- **The two indexes agree after every run** without NaN, and bit for bit when one zero is used. -/
theorem run_represented {ops : List Op} (hops : ∀ op ∈ ops, op.Scores (· ≠ .nan)) :
    (run ops).Represented ∧ ∀ zero, (∀ op ∈ ops, op.Scores (F64.Ok zero)) → (run ops).Exact zero := by
  have hindexed := run_indexed hops
  refine ⟨hindexed.represented, fun zero hok => ?_⟩
  have hcons : (run ops).Consistent zero :=
    run_invariant (consistent_new zero) (fun _ _ m hz hx => hz.add hx m) (fun _ m hz => hz.remove m) hok
  exact hcons.exact hindexed

/-- Re-scored, removed and popped. -/
theorem run_represented_rescored :
    let ops : List Op := [.add (.fin 2) (utf8 "a"), .add (.fin 2) (utf8 "b"), .add .negInf (utf8 "a"),
      .remove (utf8 "c"), .popMax (fun _ => 0) 1]
    (run ops).Represented ∧ (run ops).Exact (.fin 0) ∧ (run ops).len = 1 := by
  intro ops
  have hok : ∀ op ∈ ops, op.Scores (F64.Ok (.fin 0)) := by
    intro op hop
    simp only [ops, List.mem_cons, List.not_mem_nil, or_false] at hop
    rcases hop with rfl | rfl | rfl | rfl | rfl <;> first | trivial | exact ⟨by simp, by simp⟩
  have hnan : ∀ op ∈ ops, op.Scores (· ≠ .nan) := by
    intro op hop
    have h := hok op hop
    cases op with
    | add score m => exact h.ne_nan
    | remove _ | popMin _ _ | popMax _ _ => trivial
  exact ⟨(run_represented hnan).1, (run_represented hnan).2 _ hok, by decide⟩

/-- Some run without NaN leaves the sorted set, whatever its deadline. -/
def Reached (z : SortedSetValue) : Prop :=
  ∃ ops : List Op, (∀ op ∈ ops, op.Scores (· ≠ .nan)) ∧ z = { run ops with expiresAt := z.expiresAt }

theorem Reached.indexed (hz : z.Reached) : z.Indexed := by
  obtain ⟨ops, hops, he⟩ := hz
  have hindexed := run_indexed hops
  rw [he]
  exact ⟨hindexed.ordered, hindexed.nonempty, hindexed.score⟩

end SortedSetValue

end FerricCache
