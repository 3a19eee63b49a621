import FerricCache.Server.Keys

/-!
# `FerricCache.Cluster.Ring` — the consistent-hash ring and the routing gate

`ConsistentHashRing` maps a key to the first virtual node at or after the key's hash, clockwise. The gate of
`execute_command` (`redirect`) consults it for the command's primary key only, and lets a command through
when the ring resolves that key to the local node or to no node at all.
-/

namespace FerricCache

/-- `Node`, as far as routing reads it: `addr` is the text of the cache address. -/
structure Node where
  id : Bytes
  addr : Bytes
  deriving DecidableEq

/-- `ConsistentHashRing`: the points of the virtual nodes, each owned by a member. -/
structure ConsistentHashRing where
  ring : Std.ExtTreeMap UInt64 Bytes
  nodes : Std.ExtTreeMap Bytes Node
  virtualNodes : Nat
  known : ∀ (point : UInt64) (id : Bytes), ring[point]? = some id → id ∈ nodes

variable [KeyHash]

namespace ConsistentHashRing

omit [KeyHash] in
/-- `with_virtual_nodes`. -/
def withVirtualNodes (virtualNodes : Nat) : ConsistentHashRing := ⟨∅, ∅, virtualNodes, by simp⟩

omit [KeyHash] in
/-- `new`: `DEFAULT_VIRTUAL_NODES` is 150. -/
def new : ConsistentHashRing := withVirtualNodes 150

/-- The hash of `"{node_id}:{i}"`. -/
def virtualHash (id : Bytes) (i : Nat) : UInt64 := KeyHash.xxh3_64 (id ++ 58 :: natText i)

/-- The loop of `add_node` over the virtual nodes. -/
def addPoints (id : Bytes) (points : List Nat) (ring : Std.ExtTreeMap UInt64 Bytes) :
    Std.ExtTreeMap UInt64 Bytes :=
  points.foldl (fun ring i => ring.insert (virtualHash id i) id) ring

/-- The loop adds points of the one node. -/
theorem addPoints_owner {id owner : Bytes} (points : List Nat) (ring : Std.ExtTreeMap UInt64 Bytes)
    {point : UInt64} (h : (addPoints id points ring)[point]? = some owner) :
    owner = id ∨ ring[point]? = some owner := by
  induction points generalizing ring with
  | nil => exact Or.inr h
  | cons i points ih =>
      rcases ih (ring.insert (virtualHash id i) id) h with rfl | hp
      · exact Or.inl rfl
      · rw [Std.ExtTreeMap.getElem?_insert] at hp
        split at hp
        · cases hp
          exact Or.inl rfl
        · exact Or.inr hp

/-- `add_node`. -/
def addNode (r : ConsistentHashRing) (node : Node) : ConsistentHashRing where
  ring := addPoints node.id (List.range r.virtualNodes) r.ring
  nodes := r.nodes.insert node.id node
  virtualNodes := r.virtualNodes
  known := by
    intro point id h
    rw [Std.ExtTreeMap.mem_insert]
    rcases addPoints_owner _ _ h with rfl | hp
    · exact Or.inl Std.ReflCmp.compare_self
    · exact Or.inr (r.known point id hp)

omit [KeyHash] in
/-- `remove_node`. -/
def removeNode (r : ConsistentHashRing) (id : Bytes) : ConsistentHashRing where
  ring := r.ring.filter fun _ owner => owner != id
  nodes := r.nodes.erase id
  virtualNodes := r.virtualNodes
  known := by
    intro point owner h
    obtain ⟨hp, hne⟩ : r.ring[point]? = some owner ∧ owner ≠ id := by simpa using h
    rw [Std.ExtTreeMap.mem_erase]
    refine ⟨?_, r.known point owner hp⟩
    intro he
    exact hne (Std.LawfulEqCmp.eq_of_compare he).symm

theorem mem_addNode {r : ConsistentHashRing} {node : Node} {id : Bytes} :
    id ∈ (r.addNode node).nodes ↔ id = node.id ∨ id ∈ r.nodes := by
  show id ∈ r.nodes.insert node.id node ↔ _
  rw [Std.ExtTreeMap.mem_insert, Std.LawfulEqCmp.compare_eq_iff_eq, eq_comm]

omit [KeyHash] in
theorem mem_removeNode {r : ConsistentHashRing} {gone id : Bytes} :
    id ∈ (r.removeNode gone).nodes ↔ id ≠ gone ∧ id ∈ r.nodes := by
  show id ∈ r.nodes.erase gone ↔ _
  rw [Std.ExtTreeMap.mem_erase, ne_eq, Std.LawfulEqCmp.compare_eq_iff_eq, eq_comm]

/-- `get_node`: the first virtual node at or after the key's hash, else the first of all. -/
def getNode (r : ConsistentHashRing) (key : Bytes) : Option Bytes :=
  ((r.ring.toList.find? fun p => KeyHash.xxh3_64 key ≤ p.1).or r.ring.toList.head?).map Prod.snd

/-- `node_for_key`. -/
def nodeForKey (r : ConsistentHashRing) (key : Bytes) : Option Node :=
  (r.getNode key).bind fun id => r.nodes[id]?

end ConsistentHashRing

/-- `slot_for_key`. -/
def slotForKey (key : Bytes) : Nat := (KeyHash.xxh3_64 key % 16384).toNat

/-! ## The gate -/

/-- The reply that sends a client to another node. -/
def moved (key : Bytes) (target : Node) : Response :=
  .error (utf8 "MOVED " ++ natText (slotForKey key) ++ 32 :: target.addr)

/-- The cluster routing gate: `none` lets the command through. -/
def redirect (ring : Option ConsistentHashRing) (localId : Option Bytes) (c : Command) : Option Response :=
  match ring, localId with
  | some ring, some localId =>
      match commandKey c with
      | some key =>
          match ring.nodeForKey key with
          | some target => if target.id ≠ localId then some (moved key target) else none
          | none => none
      | none => none
  | _, _ => none

/-- The ring resolves the key to the node. -/
def ConsistentHashRing.Owns (ring : ConsistentHashRing) (id : Bytes) (key : Bytes) : Prop :=
  ∃ node, ring.nodeForKey key = some node ∧ node.id = id

/-- A command that passes the gate, on a ring that resolves its primary key, works on an owned one. -/
theorem owns_of_redirect_none {ring : ConsistentHashRing} {localId key : Bytes} {c : Command}
    (hkey : commandKey c = some key) (hsome : (ring.nodeForKey key).isSome = true)
    (h : redirect (some ring) (some localId) c = none) : ring.Owns localId key := by
  obtain ⟨node, hnode⟩ := Option.isSome_iff_exists.mp hsome
  refine ⟨node, hnode, ?_⟩
  simp only [redirect, hkey, hnode] at h
  by_contra hne
  rw [if_pos hne] at h
  cases h

/-- **Redirects for an owned key lead to its owner**: the owner serves it and every other node of the ring
    replies with the owner's address. -/
theorem redirect_of_owns {ring : ConsistentHashRing} {localId key : Bytes} {c : Command} {node : Node}
    (hkey : commandKey c = some key) (hnode : ring.nodeForKey key = some node) :
    redirect (some ring) (some localId) c = if node.id = localId then none else some (moved key node) := by
  simp only [redirect, hkey, hnode, ite_not]

/-! ## Concrete rings -/

omit [KeyHash] in
/-- `xxh3_64` of a key of four to eight bytes. -/
def xxh3Mid (key : Bytes) : UInt64 :=
  let word := fun i => (key.getD i 0).toUInt64 ||| ((key.getD (i + 1) 0).toUInt64 <<< 8) |||
    ((key.getD (i + 2) 0).toUInt64 <<< 16) ||| ((key.getD (i + 3) 0).toUInt64 <<< 24)
  let h := (word (key.length - 4) + (word 0 <<< 32)) ^^^ 0xc73ab174c5ecd5a2
  let h := h ^^^ ((h <<< 49) ||| (h >>> 15)) ^^^ ((h <<< 24) ||| (h >>> 40))
  let h := h * 0x9FB21C651E98DF25
  let h := (h ^^^ ((h >>> 35) + UInt64.ofNat key.length)) * 0x9FB21C651E98DF25
  h ^^^ (h >>> 28)

omit [KeyHash] in
/-- The hash of concrete runs on a ring, for keys of one to eight bytes. -/
@[reducible] def smallKeys : KeyHash := ⟨fun key => if key.length ≤ 3 then xxh3Short key else xxh3Mid key⟩

example : xxh3Mid (utf8 "a:149") = 0x8950e061d46cb52a := by decide

omit [KeyHash] in
/-- A cluster of the nodes `a` and `b`, as `with_clustering` builds it. -/
def ringOfTwo : ConsistentHashRing :=
  let _ := smallKeys
  (ConsistentHashRing.new.addNode ⟨utf8 "a", utf8 "127.0.0.1:7001"⟩).addNode
    ⟨utf8 "b", utf8 "127.0.0.1:7002"⟩

/-! ## A ring with a point on it -/

/-- A ring with a point resolves every key. -/
theorem ConsistentHashRing.nodeForKey_isSome (r : ConsistentHashRing) {point : UInt64} {id : Bytes}
    (hpoint : r.ring[point]? = some id) (key : Bytes) : (r.nodeForKey key).isSome = true := by
  have hmem : (point, id) ∈ r.ring.toList := Std.ExtTreeMap.mem_toList_iff_getElem?_eq_some.mpr hpoint
  obtain ⟨q, hq⟩ : ∃ q, (r.ring.toList.find? fun p => KeyHash.xxh3_64 key ≤ p.1).or r.ring.toList.head?
      = some q := by
    cases hf : r.ring.toList.find? fun p => KeyHash.xxh3_64 key ≤ p.1 with
    | some q => exact ⟨q, rfl⟩
    | none =>
        -- past the last point: the ring wraps to its first
        obtain ⟨q, rest, hl⟩ := List.exists_cons_of_ne_nil (List.ne_nil_of_mem hmem)
        exact ⟨q, by rw [hl]; rfl⟩
  have hq_mem : q ∈ r.ring.toList := by
    rcases Option.or_eq_some_iff.mp hq with hf | ⟨-, hh⟩
    · exact List.mem_of_find?_eq_some hf
    · exact List.mem_of_mem_head? hh
  have howner := r.known q.1 q.2 (Std.ExtTreeMap.mem_toList_iff_getElem?_eq_some.mp hq_mem)
  unfold ConsistentHashRing.nodeForKey ConsistentHashRing.getNode
  rw [hq]
  exact Std.ExtTreeMap.isSome_getElem?_iff_mem.mpr howner

end FerricCache
