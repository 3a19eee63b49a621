import FerricCache.Cluster.Ring
import FerricCache.Lib.Circle

/-!
# `FerricCache.Cluster.Membership` — what a ring does when nodes come and go

`get_node` is the search of `Lib.Circle` among the points of the ring. Adding a node puts points on the
circle (and takes over those it collides with), removing one takes its points away, so a key changes hands
only to or from that node (`getNode_moves`). The members are what the history of the ring says (`nodes_build`).
Where distinct virtual nodes have distinct hashes, the points are those of the members (`Settled`), and how the
ring came about does not matter (`routing_by_members`).
-/

namespace FerricCache

open Lib Lib.Circle

variable [KeyHash]

namespace ConsistentHashRing

/-! ## `get_node` as a search on a circle -/

omit [KeyHash] in
/-- A point's place on the circle. -/
def place (point : UInt64 × Bytes) : Nat := point.1.toNat

omit [KeyHash] in
theorem sorted_points (r : ConsistentHashRing) : r.ring.toList.Pairwise fun a b => place a < place b := by
  refine r.ring.ordered_keys_toList.imp ?_
  intro a b hab
  exact UInt64.lt_iff_toNat_lt.mp (Std.compare_eq_lt.mp hab)

theorem getNode_eq (r : ConsistentHashRing) (key : Bytes) :
    r.getNode key = (search place (KeyHash.xxh3_64 key).toNat r.ring.toList).map Prod.snd := rfl

omit [KeyHash] in
theorem mem_points {r : ConsistentHashRing} {p : UInt64 × Bytes} :
    p ∈ { q | q ∈ r.ring.toList } ↔ r.ring[p.1]? = some p.2 :=
  Std.ExtTreeMap.mem_toList_iff_getElem?_eq_some

/-- A key goes to the owner of the point next to its hash. -/
theorem getNode_eq_some {r : ConsistentHashRing} {key id : Bytes} :
    r.getNode key = some id ↔
      ∃ p, Next place { q | q ∈ r.ring.toList } (KeyHash.xxh3_64 key).toNat p ∧ p.2 = id := by
  rw [getNode_eq, Option.map_eq_some_iff]
  constructor
  · rintro ⟨p, hp, hid⟩
    exact ⟨p, next_of_search r.sorted_points hp, hid⟩
  · rintro ⟨p, hp, hid⟩
    cases hs : search place (KeyHash.xxh3_64 key).toNat r.ring.toList with
    | none =>
        rw [search_eq_none.mp hs] at hp
        cases hp.1
    | some q =>
        -- the point found lies where `p` does, so it is `p`
        have hq := next_of_search r.sorted_points hs
        have hpoint : q.1 = p.1 := UInt64.toNat_inj.mp (hq.pos_unique hp)
        have howner := mem_points.mp hq.1
        rw [hpoint, mem_points.mp hp.1] at howner
        refine ⟨q, rfl, ?_⟩
        rw [← hid]
        exact (Option.some.inj howner).symm

/-- No node answers for a key exactly when there are no points. -/
theorem getNode_eq_none {r : ConsistentHashRing} {key : Bytes} : r.getNode key = none ↔ r.ring = ∅ := by
  rw [getNode_eq, Option.map_eq_none_iff, search_eq_none, ← List.isEmpty_iff, Std.ExtTreeMap.isEmpty_toList,
    Std.ExtTreeMap.isEmpty_iff]

/-! ## Points come and go -/

/-- After the loop the points are the node's, the others as before. -/
theorem getElem?_addPoints (id : Bytes) (is : List Nat) (ring : Std.ExtTreeMap UInt64 Bytes) (point : UInt64) :
    (addPoints id is ring)[point]? = if ∃ i ∈ is, virtualHash id i = point then some id else ring[point]? := by
  induction is generalizing ring with
  | nil => simp [addPoints]
  | cons i is ih =>
      show (addPoints id is (ring.insert (virtualHash id i) id))[point]? = _
      rw [ih, Std.ExtTreeMap.getElem?_insert]
      by_cases hrest : ∃ j ∈ is, virtualHash id j = point
      · obtain ⟨j, hj, he⟩ := hrest
        rw [if_pos ⟨j, hj, he⟩, if_pos ⟨j, List.mem_cons_of_mem _ hj, he⟩]
      · rw [if_neg hrest]
        by_cases hi : virtualHash id i = point
        · rw [if_pos (Std.LawfulEqCmp.compare_eq_iff_eq.mpr hi), if_pos ⟨i, List.mem_cons_self, hi⟩]
        · rw [if_neg (fun he => hi (Std.LawfulEqCmp.eq_of_compare he)), if_neg]
          rintro ⟨j, hj, he⟩
          rcases List.mem_cons.mp hj with rfl | hj'
          · exact hi he
          · exact hrest ⟨j, hj', he⟩

theorem getElem?_addNode (r : ConsistentHashRing) (node : Node) (point : UInt64) :
    (r.addNode node).ring[point]?
      = if ∃ i < r.virtualNodes, virtualHash node.id i = point then some node.id else r.ring[point]? := by
  have h := getElem?_addPoints node.id (List.range r.virtualNodes) r.ring point
  simp only [List.mem_range] at h
  exact h

omit [KeyHash] in
theorem getElem?_removeNode {r : ConsistentHashRing} {id owner : Bytes} {point : UInt64} :
    (r.removeNode id).ring[point]? = some owner ↔ r.ring[point]? = some owner ∧ owner ≠ id := by
  simp [removeNode]

/-- Every point stays on the circle when a node comes, though it may change hands. -/
theorem stays_addNode (r : ConsistentHashRing) (node : Node) {p : UInt64 × Bytes} (h : r.ring[p.1]? = some p.2) :
    ∃ q ∈ { q | q ∈ (r.addNode node).ring.toList }, place q = place p := by
  have hpoint := getElem?_addNode r node p.1
  split at hpoint
  · exact ⟨(p.1, node.id), mem_points.mpr hpoint, rfl⟩
  · exact ⟨p, mem_points.mpr (hpoint.trans h), rfl⟩

omit [KeyHash] in
theorem ring_eq_empty {r : ConsistentHashRing}
    (h : ∀ (point : UInt64) (owner : Bytes), r.ring[point]? ≠ some owner) : r.ring = ∅ := by
  apply Std.ExtTreeMap.ext_getElem?
  intro point
  rw [Std.ExtTreeMap.getElem?_empty]
  exact Option.eq_none_iff_forall_ne_some.mpr (h point)

omit [KeyHash] in
theorem ring_ne_empty {r : ConsistentHashRing} {point : UInt64} {owner : Bytes}
    (h : r.ring[point]? = some owner) : r.ring ≠ ∅ := by
  intro he
  rw [he, Std.ExtTreeMap.getElem?_empty] at h
  cases h

theorem getNode_addNode (r : ConsistentHashRing) (node : Node) (key : Bytes) :
    (r.addNode node).getNode key = some node.id ∨ (r.addNode node).getNode key = r.getNode key := by
  cases hnew : (r.addNode node).getNode key with
  | none =>
      -- no point at all, so there was none before
      right
      symm
      apply getNode_eq_none.mpr
      apply ring_eq_empty
      intro point owner hpoint
      obtain ⟨q, hq, -⟩ := stays_addNode r node (p := (point, owner)) hpoint
      exact ring_ne_empty (mem_points.mp hq) (getNode_eq_none.mp hnew)
  | some id =>
      by_cases hid : id = node.id
      · exact Or.inl (congrArg some hid)
      · right
        obtain ⟨p, hp, rfl⟩ := getNode_eq_some.mp hnew
        symm
        refine getNode_eq_some.mpr ⟨p, hp.of_cover (mem_points.mpr ?_) ?_, rfl⟩
        · -- the point is not the new node's, so it was there before
          have hpoint := mem_points.mp hp.1
          rw [getElem?_addNode] at hpoint
          split at hpoint
          · exact absurd (Option.some.inj hpoint).symm hid
          · exact hpoint
        · exact fun q hq => stays_addNode r node (mem_points.mp hq)

theorem getNode_removeNode_of_ne {r : ConsistentHashRing} {id key : Bytes} (hne : r.getNode key ≠ some id) :
    (r.removeNode id).getNode key = r.getNode key := by
  cases hold : r.getNode key with
  | none =>
      apply getNode_eq_none.mpr
      apply ring_eq_empty
      intro point owner hpoint
      exact ring_ne_empty (getElem?_removeNode.mp hpoint).1 (getNode_eq_none.mp hold)
  | some owner =>
      obtain ⟨p, hp, rfl⟩ := getNode_eq_some.mp hold
      refine getNode_eq_some.mpr ⟨p, hp.of_cover (mem_points.mpr ?_) ?_, rfl⟩
      · exact getElem?_removeNode.mpr ⟨mem_points.mp hp.1, fun he => hne (by rw [hold, he])⟩
      · exact fun q hq => ⟨q, mem_points.mpr (getElem?_removeNode.mp (mem_points.mp hq)).1, rfl⟩

/-- Whoever answers for a key is a member. -/
theorem getNode_member {r : ConsistentHashRing} {id key : Bytes} (h : r.getNode key = some id) :
    id ∈ r.nodes := by
  obtain ⟨p, hp, rfl⟩ := getNode_eq_some.mp h
  exact r.known p.1 p.2 (mem_points.mp hp.1)

/-- **Consistent hashing moves only what it must.** A key goes to the node that came or stays where it was;
    it leaves a node only when that node leaves, for a remaining member, or for none when no point is left. -/
theorem getNode_moves (r : ConsistentHashRing) (node : Node) (key : Bytes) :
    ((r.addNode node).getNode key = some node.id ∨ (r.addNode node).getNode key = r.getNode key) ∧
      (r.getNode key ≠ some node.id → (r.removeNode node.id).getNode key = r.getNode key) ∧
      (r.getNode key = some node.id →
        (∃ id ∈ r.nodes, id ≠ node.id ∧ (r.removeNode node.id).getNode key = some id) ∨
          (r.removeNode node.id).getNode key = none ∧ (r.removeNode node.id).ring = ∅) := by
  refine ⟨getNode_addNode r node key, getNode_removeNode_of_ne, fun _ => ?_⟩
  cases hnew : (r.removeNode node.id).getNode key with
  | none => exact Or.inr ⟨rfl, getNode_eq_none.mp hnew⟩
  | some id =>
      -- whoever answers now is a member of the ring that lost the node
      obtain ⟨hne, hmem⟩ := mem_removeNode.mp (getNode_member hnew)
      exact Or.inl ⟨id, hmem, hne, rfl⟩

/-! ## Histories -/

omit [KeyHash] in
/-- A call that changes a ring. -/
inductive RingOp
  | add (node : Node)
  | remove (id : Bytes)

/-- The ring after one call. -/
def change (r : ConsistentHashRing) : RingOp → ConsistentHashRing
  | .add node => r.addNode node
  | .remove id => r.removeNode id

/-- The ring a history of calls leaves. -/
def build (virtualNodes : Nat) (ops : List RingOp) : ConsistentHashRing :=
  ops.foldl change (withVirtualNodes virtualNodes)

omit [KeyHash] in
/-- The id a call is about. -/
def RingOp.subject : RingOp → Bytes
  | .add node => node.id
  | .remove id => id

omit [KeyHash] in
/-- The node was added by the history, and no later call was about the id. -/
def AddedLast (ops : List RingOp) (id : Bytes) (node : Node) : Prop :=
  ∃ before after, ops = before ++ RingOp.add node :: after ∧ ∀ op ∈ after, op.subject ≠ id

omit [KeyHash] in
theorem addedLast_concat {ops : List RingOp} {op : RingOp} {id : Bytes} {node : Node} :
    AddedLast (ops ++ [op]) id node ↔ op = .add node ∨ op.subject ≠ id ∧ AddedLast ops id node := by
  constructor
  · rintro ⟨before, after, hsplit, hafter⟩
    rcases List.eq_nil_or_concat after with rfl | ⟨after, last, rfl⟩
    · exact Or.inl (List.singleton_inj.mp (List.append_inj' hsplit rfl).2)
    · rw [List.concat_eq_append, ← List.cons_append, ← List.append_assoc] at hsplit
      obtain ⟨rfl, hlast⟩ := List.append_inj' hsplit rfl
      rw [List.singleton_inj] at hlast
      exact Or.inr ⟨hlast ▸ hafter last (by simp), before, after, rfl, fun op h => hafter op (by simp [h])⟩
  · rintro (rfl | ⟨hop, before, after, rfl, hafter⟩)
    · exact ⟨ops, [], rfl, by simp⟩
    · refine ⟨before, after ++ [op], by simp, fun op' h => ?_⟩
      rcases List.mem_append.mp h with h | h
      · exact hafter op' h
      · rw [List.mem_singleton.mp h]
        exact hop

/-- **The members of a ring are what its history says**: the node under an id is the one added last, if no later
    call was about the id. -/
theorem nodes_build (virtualNodes : Nat) (ops : List RingOp) (id : Bytes) (node : Node) :
    (build virtualNodes ops).nodes[id]? = some node ↔ node.id = id ∧ AddedLast ops id node := by
  induction ops using List.reverseRecOn with
  | nil => simp [build, withVirtualNodes, AddedLast]
  | append_singleton ops op ih =>
      rw [build, List.foldl_append, List.foldl_cons, List.foldl_nil, ← build, addedLast_concat]
      cases op with
      | add last =>
          have hnodes : (change (build virtualNodes ops) (.add last)).nodes[id]?
              = if last.id = id then some last else (build virtualNodes ops).nodes[id]? := by
            simp only [change, addNode, Std.ExtTreeMap.getElem?_insert, Std.LawfulEqCmp.compare_eq_iff_eq]
          rw [hnodes]
          simp only [RingOp.subject, RingOp.add.injEq]
          split
          · rename_i hid
            rw [Option.some.injEq]
            exact ⟨fun he => ⟨he ▸ hid, Or.inl he⟩, fun h => h.2.resolve_right fun hlate => hlate.1 hid⟩
          · rename_i hid
            rw [ih]
            exact ⟨fun h => ⟨h.1, Or.inr ⟨hid, h.2⟩⟩, fun h => ⟨h.1, (h.2.resolve_left fun he => hid (he ▸ h.1)).2⟩⟩
      | remove gone =>
          have hnodes : (change (build virtualNodes ops) (.remove gone)).nodes[id]?
              = if gone = id then none else (build virtualNodes ops).nodes[id]? := by
            simp only [change, removeNode, Std.ExtTreeMap.getElem?_erase, Std.LawfulEqCmp.compare_eq_iff_eq]
          rw [hnodes]
          simp only [RingOp.subject, reduceCtorEq, false_or]
          split
          · rename_i hid
            exact iff_of_false (by simp) fun h => h.2.1 hid
          · rename_i hid
            rw [ih]
            exact and_congr_right fun _ => ⟨fun h => ⟨hid, h⟩, fun h => h.2⟩

omit [KeyHash] in
/-- The text of virtual node `i`. -/
def virtualText (id : Bytes) (i : Nat) : Bytes := id ++ 58 :: natText i

omit [KeyHash] in
/-- **A virtual node's text tells the node and the number**: the last colon is the one between them. -/
theorem virtualText_inj {id id' : Bytes} {i i' : Nat} (h : virtualText id i = virtualText id' i') :
    id = id' ∧ i = i' := by
  have hcolon : ∀ n : Nat, (58 : UInt8) ∉ (natText n).reverse := by
    intro n hmem
    exact Decimal.not_mem_digits (Or.inr (by decide)) (List.mem_reverse.mp hmem)
  -- read backwards, the text is cut at its first colon
  have hrev : ∀ (id : Bytes) (i : Nat), Decimal.splitOnce 58 (virtualText id i).reverse
      = some ((natText i).reverse, id.reverse) := by
    intro id i
    unfold virtualText
    rw [List.reverse_append, List.reverse_cons, List.append_assoc]
    exact Decimal.splitOnce_append (hcolon i) _
  have hcut := hrev id i
  rw [h, hrev id' i', Option.some.injEq, Prod.mk.injEq] at hcut
  obtain ⟨hnum, hid⟩ := hcut
  refine ⟨(List.reverse_inj.mp hid).symm, ?_⟩
  have hparse := Decimal.parse_digits i
  rw [show Decimal.digits i = Decimal.digits i' from (List.reverse_inj.mp hnum).symm,
    Decimal.parse_digits i'] at hparse
  exact (Option.some.inj hparse).symm

/-- Distinct texts of the virtual nodes of `ids` have distinct hashes. -/
def DistinctHashes (virtualNodes : Nat) (ids : Set Bytes) : Prop :=
  ∀ id ∈ ids, ∀ id' ∈ ids, ∀ i < virtualNodes, ∀ i' < virtualNodes,
    virtualText id i ≠ virtualText id' i' →
      KeyHash.xxh3_64 (virtualText id i) ≠ KeyHash.xxh3_64 (virtualText id' i')

/-- A point belongs to one node. -/
theorem DistinctHashes.owner {v : Nat} {ids : Set Bytes} (h : DistinctHashes v ids) {id id' : Bytes}
    (hid : id ∈ ids) (hid' : id' ∈ ids) {i i' : Nat} (hi : i < v) (hi' : i' < v)
    (he : virtualHash id i = virtualHash id' i') : id = id' := by
  by_contra hne
  refine h id hid id' hid' i hi i' hi' ?_ he
  intro htext
  exact hne (virtualText_inj htext).1

/-! ## The members decide -/

/-- The ring is what its members make it. -/
structure Settled (virtualNodes : Nat) (ids : Set Bytes) (r : ConsistentHashRing) : Prop where
  count : r.virtualNodes = virtualNodes
  points : ∀ (point : UInt64) (id : Bytes),
    r.ring[point]? = some id ↔ id ∈ r.nodes ∧ ∃ i < virtualNodes, virtualHash id i = point
  named : ∀ (id : Bytes) (node : Node), r.nodes[id]? = some node → node.id = id
  among : ∀ id ∈ r.nodes, id ∈ ids

/-- The ids a history adds. -/
def added (ops : List RingOp) : Set Bytes := { id | ∃ node, RingOp.add node ∈ ops ∧ node.id = id }

variable {v : Nat} {ids : Set Bytes} {r : ConsistentHashRing}

theorem Settled.new : Settled v ids (withVirtualNodes v) where
  count := rfl
  points point id := by simp [withVirtualNodes]
  named id node h := by simp [withVirtualNodes] at h
  among id h := by simp [withVirtualNodes] at h

theorem Settled.addNode (h : Settled v ids r) (hdistinct : DistinctHashes v ids) {node : Node}
    (hnode : node.id ∈ ids) : Settled v ids (r.addNode node) where
  count := h.count
  points point id := by
    rw [getElem?_addNode, h.count, mem_addNode]
    split
    · -- the point is the new node's, and no other member's
      rename_i hpoint
      obtain ⟨i, hi, rfl⟩ := hpoint
      constructor
      · intro he
        cases he
        exact ⟨Or.inl rfl, i, hi, rfl⟩
      · rintro ⟨hmem, j, hj, hhash⟩
        rcases hmem with rfl | hold
        · rfl
        · rw [hdistinct.owner hnode (h.among id hold) hi hj hhash.symm]
    · rename_i hpoint
      rw [h.points point id]
      constructor
      · exact fun hold => ⟨Or.inr hold.1, hold.2⟩
      · rintro ⟨hmem, hown⟩
        rcases hmem with rfl | hold
        · exact absurd hown hpoint
        · exact ⟨hold, hown⟩
  named id found hfound := by
    rw [show (r.addNode node).nodes = r.nodes.insert node.id node from rfl,
      Std.ExtTreeMap.getElem?_insert] at hfound
    split at hfound
    · rename_i he
      cases hfound
      exact Std.LawfulEqCmp.eq_of_compare he
    · exact h.named id found hfound
  among id hmem := by
    rcases mem_addNode.mp hmem with rfl | hold
    · exact hnode
    · exact h.among id hold

theorem Settled.removeNode (h : Settled v ids r) (gone : Bytes) : Settled v ids (r.removeNode gone) where
  count := h.count
  points point id := by
    rw [getElem?_removeNode, h.points point id, mem_removeNode]
    constructor
    · rintro ⟨⟨hmem, hown⟩, hne⟩
      exact ⟨⟨hne, hmem⟩, hown⟩
    · rintro ⟨⟨hne, hmem⟩, hown⟩
      exact ⟨⟨hmem, hown⟩, hne⟩
  named id found hfound := by
    rw [show (r.removeNode gone).nodes = r.nodes.erase gone from rfl, Std.ExtTreeMap.getElem?_erase] at hfound
    split at hfound
    · cases hfound
    · exact h.named id found hfound
  among id hmem := h.among id (mem_removeNode.mp hmem).2

/-- A history whose nodes are among `ids` leaves a settled ring. -/
theorem settled_foldl (hdistinct : DistinctHashes v ids) (ops : List RingOp) (h : Settled v ids r)
    (hids : added ops ⊆ ids) : Settled v ids (ops.foldl change r) := by
  induction ops generalizing r with
  | nil => exact h
  | cons op ops ih =>
      refine ih ?_ ?_
      · cases op with
        | add node => exact h.addNode hdistinct (hids ⟨node, List.mem_cons_self, rfl⟩)
        | remove id => exact h.removeNode id
      · rintro id ⟨node, hmem, rfl⟩
        exact hids ⟨node, List.mem_cons_of_mem _ hmem, rfl⟩

theorem settled_build (hdistinct : DistinctHashes v ids) {ops : List RingOp} (hids : added ops ⊆ ids) :
    Settled v ids (build v ops) :=
  settled_foldl hdistinct ops Settled.new hids

/-- Settled rings with the same members have the same points. -/
theorem Settled.nodeForKey_eq {r' : ConsistentHashRing} (h : Settled v ids r) (h' : Settled v ids r')
    (hnodes : r.nodes = r'.nodes) (key : Bytes) : r.nodeForKey key = r'.nodeForKey key := by
  have hring : r.ring = r'.ring := by
    apply Std.ExtTreeMap.ext_getElem?
    intro point
    apply Option.ext
    intro id
    rw [h.points point id, h'.points point id, hnodes]
  unfold nodeForKey getNode
  rw [hring, hnodes]

/-- A settled ring with a member routes every key to a member. -/
theorem Settled.routes (h : Settled v ids r) (hv : 1 ≤ v) {id : Bytes} (hid : id ∈ r.nodes) (key : Bytes) :
    ∃ node, r.nodeForKey key = some node ∧ r.nodes[node.id]? = some node := by
  have hpoint : r.ring[virtualHash id 0]? = some id := (h.points _ id).mpr ⟨hid, 0, hv, rfl⟩
  obtain ⟨node, hnode⟩ := Option.isSome_iff_exists.mp (r.nodeForKey_isSome hpoint key)
  refine ⟨node, hnode, ?_⟩
  obtain ⟨owner, -, hfound⟩ := Option.bind_eq_some_iff.mp hnode
  rw [h.named owner node hfound]
  exact hfound

/-- **Routing depends only on the members.** Rings whose histories end with the same members give every key
    the same node; so of servers that are the members of such rings, one serves a command with a given key and
    every other sends the client to it. -/
theorem routing_by_members {ι : Type} [Nonempty ι] (v : Nat) (hv : 1 ≤ v) (histories : ι → List RingOp)
    (hdistinct : DistinctHashes v (⋃ i, added (histories i)))
    (hsame : ∀ i j, (build v (histories i)).nodes = (build v (histories j)).nodes) :
    (∀ i j key, (build v (histories i)).nodeForKey key = (build v (histories j)).nodeForKey key) ∧
      ∀ localId : ι → Bytes, localId.Injective →
        (∀ i id, id ∈ (build v (histories i)).nodes ↔ ∃ j, localId j = id) →
        ∀ c key, commandKey c = some key → ∃ i node, (build v (histories i)).nodes[localId i]? = some node ∧
          redirect (some (build v (histories i))) (some (localId i)) c = none ∧
          ∀ j, j ≠ i → redirect (some (build v (histories j))) (some (localId j)) c
            = some (moved key node) := by
  have hsettled : ∀ i, Settled v (⋃ i, added (histories i)) (build v (histories i)) :=
    fun i => settled_build hdistinct (Set.subset_iUnion (fun i => added (histories i)) i)
  have hroute : ∀ i j key,
      (build v (histories i)).nodeForKey key = (build v (histories j)).nodeForKey key :=
    fun i j key => (hsettled i).nodeForKey_eq (hsettled j) (hsame i j) key
  refine ⟨hroute, ?_⟩
  intro localId hinj hmembers c key hkey
  obtain ⟨i₀⟩ := ‹Nonempty ι›
  obtain ⟨node, hnode, hfound⟩ := (hsettled i₀).routes hv ((hmembers i₀ _).mpr ⟨i₀, rfl⟩) key
  -- the node the key belongs to is one of the servers
  obtain ⟨i, hi⟩ := (hmembers i₀ node.id).mp (Std.ExtTreeMap.mem_iff_isSome_getElem?.mpr (by rw [hfound]; rfl))
  refine ⟨i, node, ?_, ?_, ?_⟩
  · rw [hi, hsame i i₀]
    exact hfound
  · rw [redirect_of_owns hkey ((hroute i i₀ key).trans hnode), if_pos hi.symm]
  · intro j hj
    rw [redirect_of_owns hkey ((hroute j i₀ key).trans hnode), if_neg]
    intro he
    exact hj (hinj (he.symm.trans hi.symm))

end ConsistentHashRing

/-! ## A cluster of two -/

section Cluster

open ConsistentHashRing

omit [KeyHash] in
/-- Node `b` was added, lost and added again at one server, and came once at the other. -/
def historiesOfTwo : Bool → List RingOp
  | true => [.add ⟨utf8 "a", utf8 "127.0.0.1:7001"⟩, .add ⟨utf8 "b", utf8 "127.0.0.1:7003"⟩,
      .remove (utf8 "b"), .add ⟨utf8 "b", utf8 "127.0.0.1:7002"⟩]
  | false => [.add ⟨utf8 "b", utf8 "127.0.0.1:7002"⟩, .add ⟨utf8 "a", utf8 "127.0.0.1:7001"⟩]

omit [KeyHash] in
theorem added_historiesOfTwo {id : Bytes} (h : id ∈ ⋃ i, added (historiesOfTwo i)) :
    id ∈ [utf8 "a", utf8 "b"] := by
  obtain ⟨i, node, hmem, rfl⟩ := Set.mem_iUnion.mp h
  cases i <;> simp only [historiesOfTwo, List.mem_cons, RingOp.add.injEq, List.not_mem_nil, or_false,
    reduceCtorEq, false_or] at hmem <;> rcases hmem with rfl | rfl | rfl <;> decide

omit [KeyHash] in
/-- The two servers of `historiesOfTwo`. -/
def idOfTwo (i : Bool) : Bytes := if i then utf8 "a" else utf8 "b"

omit [KeyHash] in
theorem distinctHashes_two :
    let _ := smallKeys
    DistinctHashes 2 (⋃ i, added (historiesOfTwo i)) := by
  intro _ id hid id' hid'
  have hall : ∀ id ∈ [utf8 "a", utf8 "b"], ∀ id' ∈ [utf8 "a", utf8 "b"], ∀ i < 2, ∀ i' < 2,
      virtualText id i ≠ virtualText id' i' →
        smallKeys.xxh3_64 (virtualText id i) ≠ smallKeys.xxh3_64 (virtualText id' i') := by decide
  exact hall id (added_historiesOfTwo hid) id' (added_historiesOfTwo hid')

omit [KeyHash] in
theorem nodes_of_two (i : Bool) :
    let _ := smallKeys
    (build 2 (historiesOfTwo i)).nodes.toList = [(utf8 "a", ⟨utf8 "a", utf8 "127.0.0.1:7001"⟩),
      (utf8 "b", ⟨utf8 "b", utf8 "127.0.0.1:7002"⟩)] := by
  cases i <;> decide

omit [KeyHash] in
theorem members_of_two (i : Bool) (id : Bytes) :
    let _ := smallKeys
    id ∈ (build 2 (historiesOfTwo i)).nodes ↔ ∃ j, idOfTwo j = id := by
  intro _
  rw [← Std.ExtTreeMap.mem_keys, ← Std.ExtTreeMap.map_fst_toList_eq_keys, nodes_of_two]
  constructor
  · intro h
    rcases List.mem_cons.mp h with rfl | h
    · exact ⟨true, rfl⟩
    · exact ⟨false, (List.mem_singleton.mp h).symm⟩
  · rintro ⟨j, rfl⟩
    cases j <;> decide

omit [KeyHash] in
theorem routing_by_members_two :
    let _ := smallKeys
    (build 2 (historiesOfTwo true)).nodeForKey (utf8 "k")
        = (build 2 (historiesOfTwo false)).nodeForKey (utf8 "k") ∧
      ∃ i node, (build 2 (historiesOfTwo i)).nodes[idOfTwo i]? = some node ∧
        redirect (some (build 2 (historiesOfTwo i))) (some (idOfTwo i)) (.get (utf8 "k")) = none ∧
        ∀ j, j ≠ i → redirect (some (build 2 (historiesOfTwo j))) (some (idOfTwo j)) (.get (utf8 "k"))
          = some (moved (utf8 "k") node) := by
  intro _
  obtain ⟨hroute, hserve⟩ := routing_by_members 2 (by decide) historiesOfTwo distinctHashes_two
    (fun i j => Std.ExtTreeMap.toList_inj.mp ((nodes_of_two i).trans (nodes_of_two j).symm))
  exact ⟨hroute true false _, hserve idOfTwo (by decide) members_of_two _ _ rfl⟩

end Cluster

end FerricCache
