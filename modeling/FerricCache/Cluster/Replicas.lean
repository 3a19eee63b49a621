import FerricCache.Cluster.Membership

/-!
# `FerricCache.Cluster.Replicas` — the nodes that keep a key's replicas

`get_nodes_for_replication` walks the circle from the key's hash and takes each owner it has not seen. What it
takes is the list of distinct owners in the order of the walk, cut to the number asked for
(`getNodesForReplication_eq`). The test of the number comes after an owner is taken, so the walk never ends with
nothing: asked for no node, it still gives one (`placed_iff`).
-/

namespace FerricCache

open Lib Lib.Circle

variable [KeyHash]

namespace ConsistentHashRing

omit [KeyHash] in
/-- The loop of `get_nodes_for_replication` over the owners to come, with `seen` and `nodes`. -/
def takeOwners (count : Nat) : List Bytes → List Bytes → List Bytes → List Bytes
  | [], _, nodes => nodes
  | id :: owners, seen, nodes =>
      if seen.contains id then takeOwners count owners seen nodes
      else if count ≤ (nodes ++ [id]).length then nodes ++ [id]
      else takeOwners count owners (id :: seen) (nodes ++ [id])

/-- The points `ring.range(hash..).chain(ring.iter())` runs over. -/
def pointsFrom (r : ConsistentHashRing) (key : Bytes) : List (UInt64 × Bytes) :=
  (r.ring.toList.filter fun p => KeyHash.xxh3_64 key ≤ p.1) ++ r.ring.toList

/-- `get_nodes_for_replication`. -/
def getNodesForReplication (r : ConsistentHashRing) (key : Bytes) (count : Nat) : List Bytes :=
  if r.ring.isEmpty then [] else takeOwners count ((r.pointsFrom key).map Prod.snd) [] []

/-! ## What the walk takes -/

omit [KeyHash] in
/-- The loop adds the owners not seen yet, each once, up to the number asked for and at least one. -/
theorem takeOwners_eq {count : Nat} (owners seen : List Bytes) {nodes : List Bytes}
    (hroom : nodes.length < max count 1) :
    takeOwners count owners seen nodes
      = nodes ++ (owners.filter fun id => !seen.contains id).eraseDups.take (max count 1 - nodes.length) := by
  -- along the walk; there is always room for one more while it goes on
  induction owners generalizing seen nodes with
  | nil => simp [takeOwners]
  | cons id owners ih =>
      by_cases hseen : seen.contains id = true
      · rw [takeOwners, if_pos hseen, ih seen hroom, List.filter_cons_of_neg (by rw [hseen]; decide)]
      · have hnew : (!seen.contains id) = true := by simpa using hseen
        have hkept : (id :: owners).filter (fun id => !seen.contains id)
            = id :: owners.filter fun id => !seen.contains id := List.filter_cons_of_pos hnew
        rw [takeOwners, if_neg hseen, hkept, List.eraseDups_cons]
        have hlen : (nodes ++ [id]).length = nodes.length + 1 := List.length_append
        by_cases hfull : count ≤ (nodes ++ [id]).length
        · -- the last one: there was room for it and there is none left
          have hone : max count 1 - nodes.length = 1 := by omega
          rw [if_pos hfull, hone, List.take_succ_cons, List.take_zero]
        · have hmore : max count 1 - nodes.length = (max count 1 - (nodes ++ [id]).length) + 1 := by omega
          have hrest : (owners.filter fun id' => !(id :: seen).contains id')
              = (owners.filter fun id' => !seen.contains id').filter fun id' => !id' == id := by
            rw [List.filter_filter]
            refine List.filter_congr fun id' _ => ?_
            rw [List.contains_cons, Bool.not_or]
          rw [if_neg hfull, ih (id :: seen) (by omega), hmore, List.take_succ_cons, hrest, List.append_assoc]
          rfl

theorem pointsFrom_eq (r : ConsistentHashRing) (key : Bytes) :
    r.pointsFrom key = walk place (KeyHash.xxh3_64 key).toNat r.ring.toList := rfl

theorem mem_pointsFrom {r : ConsistentHashRing} {key : Bytes} {p : UInt64 × Bytes} :
    p ∈ r.pointsFrom key ↔ r.ring[p.1]? = some p.2 := by
  rw [pointsFrom_eq, mem_walk]
  exact mem_points

/-- The distinct owners in the order of the walk. -/
def ownersFrom (r : ConsistentHashRing) (key : Bytes) : List Bytes := ((r.pointsFrom key).map Prod.snd).eraseDups

/-- **The replicas are the first distinct owners** of the walk. -/
theorem getNodesForReplication_eq (r : ConsistentHashRing) (key : Bytes) (count : Nat) :
    r.getNodesForReplication key count = (r.ownersFrom key).take (max count 1) := by
  unfold getNodesForReplication
  split
  · rename_i hempty
    have hnil : r.ring.toList = [] := by
      rw [← List.isEmpty_iff, Std.ExtTreeMap.isEmpty_toList]
      exact hempty
    rw [ownersFrom, pointsFrom, hnil]
    simp
  · rw [takeOwners_eq _ [] (Nat.lt_of_lt_of_le Nat.zero_lt_one (Nat.le_max_right _ _)), ownersFrom]
    simp

/-- The ids on the ring. -/
def onRing (r : ConsistentHashRing) : Set Bytes := { id | ∃ point : UInt64, r.ring[point]? = some id }

/-- The walk meets every owner. -/
theorem mem_ownersFrom {r : ConsistentHashRing} {key id : Bytes} :
    id ∈ r.ownersFrom key ↔ id ∈ r.onRing := by
  rw [ownersFrom, List.mem_eraseDups, List.mem_map]
  constructor
  · rintro ⟨p, hp, rfl⟩
    exact ⟨p.1, mem_pointsFrom.mp hp⟩
  · rintro ⟨point, hpoint⟩
    exact ⟨(point, id), mem_pointsFrom.mpr hpoint, rfl⟩

theorem length_ownersFrom (r : ConsistentHashRing) (key : Bytes) :
    (r.ownersFrom key).length = r.onRing.ncard := by
  have hset : { id | id ∈ (r.pointsFrom key).map Prod.snd } = r.onRing := by
    ext id
    exact List.mem_eraseDups.symm.trans mem_ownersFrom
  rw [ownersFrom, length_eraseDups, hset]

theorem nodup_ownersFrom (r : ConsistentHashRing) (key : Bytes) : (r.ownersFrom key).Nodup := nodup_eraseDups _

/-- The walk begins with the key's own node. -/
theorem head?_ownersFrom (r : ConsistentHashRing) (key : Bytes) : (r.ownersFrom key).head? = r.getNode key := by
  rw [ownersFrom, head?_eraseDups, List.head?_map, pointsFrom_eq, head?_walk, getNode_eq]

/-! ## Placement -/

/-- What placing `count` replicas of a key should be. -/
structure Placed (r : ConsistentHashRing) (key : Bytes) (count : Nat) : Prop where
  length : (r.getNodesForReplication key count).length = min count r.onRing.ncard
  distinct : (r.getNodesForReplication key count).Nodup
  owner : 1 ≤ count → r.ring ≠ ∅ → (r.getNodesForReplication key count).head? = r.getNode key
  grows : r.getNodesForReplication key count <+: r.getNodesForReplication key (count + 1)

/-- **Replicas are placed as asked** exactly when a replica is asked for or there is nowhere to put one. -/
theorem placed_iff (r : ConsistentHashRing) (key : Bytes) (count : Nat) :
    r.Placed key count ↔ 1 ≤ count ∨ r.ring = ∅ := by
  have hlength : (r.getNodesForReplication key count).length = min (max count 1) r.onRing.ncard := by
    rw [getNodesForReplication_eq, List.length_take, length_ownersFrom]
  constructor
  · intro h
    by_contra hno
    obtain ⟨hcount, hring⟩ := not_or.mp hno
    -- asked for none, the walk takes the key's own node
    have hsome : r.ownersFrom key ≠ [] := by
      intro hnil
      have hhead := head?_ownersFrom r key
      rw [hnil] at hhead
      exact hring (getNode_eq_none.mp hhead.symm)
    have hpos := List.length_pos_iff.mpr hsome
    rw [length_ownersFrom] at hpos
    have hzero := h.length
    omega
  · intro h
    refine ⟨?_, ?_, ?_, ?_⟩
    · rcases h with hcount | hring
      · rw [hlength, Nat.max_eq_left hcount]
      · have hnone : (r.ownersFrom key).length = 0 := by
          rw [List.length_eq_zero_iff, ← List.head?_eq_none_iff, head?_ownersFrom]
          exact getNode_eq_none.mpr hring
        rw [length_ownersFrom] at hnone
        omega
    · rw [getNodesForReplication_eq]
      exact (nodup_ownersFrom r key).sublist (List.take_sublist _ _)
    · intro _ _
      rw [getNodesForReplication_eq, List.head?_take, if_neg (by omega), head?_ownersFrom]
    · rw [getNodesForReplication_eq, getNodesForReplication_eq]
      exact List.take_prefix_take_left (by omega)

omit [KeyHash] in
/-- Asked for no replica of `k`, a cluster of one node names it. -/
theorem not_placed_none :
    let _ := smallKeys
    ¬ ∀ (v : Nat) (ops : List RingOp) (key : Bytes) (count : Nat), 1 ≤ v → (build v ops).Placed key count := by
  intro _ hall
  have hplaced := hall 1 [.add ⟨utf8 "a", utf8 "127.0.0.1:7001"⟩] (utf8 "k") 0 (Nat.le_refl _)
  have hlength := hplaced.length
  rw [Nat.zero_min] at hlength
  exact absurd hlength (by decide)

end ConsistentHashRing

end FerricCache
