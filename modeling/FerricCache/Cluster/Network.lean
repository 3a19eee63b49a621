import FerricCache.Cluster.Gossip

/-!
# `FerricCache.Cluster.Network` — a cluster of gossiping nodes

Each process has its own table and ring (`GossipProtocol`), and what they send each other is under way as datagrams
that may be lost, delayed, delivered twice and out of order. A process is started with a seed or without one, tells
the seed its record, and from then on pings what its table knows.

Nothing in the protocol passes a record on, so a node is known only where it was told to join
(`ring_of_joined`). Rings therefore agree in clusters of two nodes at most (`rings_agree_only_in_pairs`), and a node
nobody joins through answers every command itself (`leaf_redirects_nothing`). No version ever grows, so a node that
was taken out of a ring stays out (`removal_is_final`), and a node that is no longer active is never pinged and
never active again (`silence_is_final`).
-/

namespace FerricCache

open Lib.Run

/-! ## The parties -/

/-- `Node::new`. -/
def KnownNode.new (id addr clusterAddr : Bytes) (now : Instant) (unixSecs : Nat) : KnownNode :=
  ⟨⟨id, addr⟩, clusterAddr, .active, now, unixSecs, 0⟩

/-- `is_alive`. -/
def KnownNode.isAlive (node : KnownNode) : Bool := node.status = .active

/-- A message under way between two cluster addresses. -/
structure Datagram where
  source : Bytes
  target : Bytes
  msg : GossipMessage

/-- A start of a process: its record of itself, and the seed it joined through. -/
structure Boot where
  node : KnownNode
  seed : Option Bytes

/-- The processes by their cluster addresses, and what is under way. The last field records the starts. -/
structure Cluster where
  processes : Bytes → Option GossipProtocol
  flight : List Datagram
  boots : List Boot

namespace GossipProtocol

/-- `GOSSIP_FANOUT`. -/
def gossipFanout : Nat := 3

/-- The nodes a round picks from. -/
def alive (g : GossipProtocol) : List KnownNode := (g.knownNodes.toList.map Prod.snd).filter KnownNode.isAlive

/-- `gossip_round`; `shuffled` is the list of alive nodes after the shuffle. -/
def gossipRound (g : GossipProtocol) (shuffled : List KnownNode) : List Datagram :=
  if g.knownNodes.isEmpty then []
  else (shuffled.take gossipFanout).map fun node =>
    ⟨g.localNode.clusterAddr, node.clusterAddr, .ping g.localNode.id g.localNode.version⟩

/-- `join_cluster`. -/
def joinCluster (localNode : KnownNode) (seed : Bytes) : List Datagram :=
  [⟨localNode.clusterAddr, seed, .nodeState localNode⟩,
    ⟨localNode.clusterAddr, seed, .ping localNode.id localNode.version⟩]

end GossipProtocol

/-- What the receiver decodes: `last_seen` is not sent, it becomes the receiver's clock. -/
def GossipMessage.arriving (now : Instant) : GossipMessage → GossipMessage
  | .nodeState node => .nodeState { node with lastSeen := now }
  | .nodeList nodes => .nodeList (nodes.map fun node => { node with lastSeen := now })
  | msg => msg

/-! ## The steps -/

/-- What can happen in the cluster. -/
inductive ClusterEvent
  | boot (id addr clusterAddr : Bytes) (now : Instant) (unixSecs : Nat) (seed : Option Bytes)
  | stop (a : Bytes)
  | round (a : Bytes) (shuffled : List KnownNode)
  | deliver (i : Nat) (now : Instant) (unixSecs : Nat)
  | lose (i : Nat)
  | check (a : Bytes) (clock : Bytes → Instant) (pos : Bytes → Nat)
  | removeFailed (a : Bytes)

variable [KeyHash]

namespace Cluster

/-- Nothing runs. -/
def empty : Cluster := ⟨fun _ => none, [], []⟩

/-- The process at an address changed. -/
def put (w : Cluster) (a : Bytes) (g : Option GossipProtocol) : Cluster :=
  { w with processes := Function.update w.processes a g }

/-- `receive_loop` takes a datagram, `handle_message` answers to where it came from. -/
def receive (w : Cluster) (d : Datagram) (now : Instant) (unixSecs : Nat) : Cluster :=
  match w.processes d.target with
  | some g =>
      let r := g.handleMessage now unixSecs (d.msg.arriving now)
      { w.put d.target (some r.1) with flight := w.flight ++ r.2.map fun msg => ⟨d.target, d.source, msg⟩ }
  | none => w

/-- One step. A datagram stays under way when it is delivered, so it may come again until it is lost. -/
def step (w : Cluster) : ClusterEvent → Option Cluster
  | .boot id addr clusterAddr now unixSecs seed =>
      match w.processes clusterAddr with
      -- `UdpSocket::bind` fails on an address that is taken
      | some _ => none
      | none =>
          let node := KnownNode.new id addr clusterAddr now unixSecs
          some { w.put clusterAddr (some (GossipProtocol.start 150 node)) with
            flight := w.flight ++ seed.toList.flatMap (GossipProtocol.joinCluster node)
            boots := ⟨node, seed⟩ :: w.boots }
  | .stop a => some (w.put a none)
  | .round a shuffled =>
      match w.processes a with
      | some g =>
          if shuffled.isPerm g.alive then some { w with flight := w.flight ++ g.gossipRound shuffled } else none
      | none => none
  | .deliver i now unixSecs => w.flight[i]?.map fun d => w.receive d now unixSecs
  | .lose i => some { w with flight := w.flight.eraseIdx i }
  | .check a clock pos =>
      (w.processes a).bind fun g => (g.step (.check clock pos)).map fun g' => w.put a (some g')
  | .removeFailed a =>
      (w.processes a).bind fun g => (g.step .removeFailed).map fun g' => w.put a (some g')

end Cluster

/-! ## What is known, and by whom -/

/-- A datagram says what its sender can know: a record goes from the node it is of to that node's seed, and a ping
    or a pong carries the id of its sender and the version of a node that never changed. -/
def Datagram.Sent (boots : List Boot) (d : Datagram) : Prop :=
  match d.msg with
  | .ping sender version | .pong sender version =>
      version = 0 ∧ ∃ b ∈ boots, b.node.id = sender ∧ b.node.clusterAddr = d.source
  | .nodeState node => ∃ b ∈ boots, b.node = node ∧ b.node.clusterAddr = d.source ∧ b.seed = some d.target
  | .nodeList _ => False

/-- The process at `a` knows nodes that were started with the seed `a`, and its ring is made of them and itself. -/
structure GossipProtocol.Knows (boots : List Boot) (a : Bytes) (g : GossipProtocol) : Prop where
  self : ∃ b ∈ boots, b.node = g.localNode
  here : g.localNode.clusterAddr = a
  known : ∀ (id : Bytes) (node : KnownNode), g.knownNodes[id]? = some node →
    node.version = 0 ∧ ∃ b ∈ boots, b.node.id = id ∧ b.node.clusterAddr = node.clusterAddr ∧ b.seed = some a
  ring : ∀ id ∈ g.ring.nodes, id = g.localNode.id ∨ id ∈ g.knownNodes
  named : ∀ (id : Bytes) (node : Node), g.ring.nodes[id]? = some node → node.id = id

/-- The invariant of the cluster. -/
structure Cluster.Inv (w : Cluster) : Prop where
  unchanged : ∀ b ∈ w.boots, b.node.version = 0
  sent : ∀ d ∈ w.flight, d.Sent w.boots
  knows : ∀ a g, w.processes a = some g → g.Knows w.boots a

section Records

variable {boots boots' : List Boot} {a : Bytes} {g : GossipProtocol} {d : Datagram}

omit [KeyHash] in
/-- More starts make no datagram false. -/
theorem Datagram.Sent.mono (h : d.Sent boots) (hsub : ∀ b ∈ boots, b ∈ boots') : d.Sent boots' := by
  unfold Datagram.Sent at h ⊢
  split at h
  · obtain ⟨hversion, b, hb, hsays⟩ := h
    exact ⟨hversion, b, hsub b hb, hsays⟩
  · obtain ⟨hversion, b, hb, hsays⟩ := h
    exact ⟨hversion, b, hsub b hb, hsays⟩
  · obtain ⟨b, hb, hsays⟩ := h
    exact ⟨b, hsub b hb, hsays⟩
  · exact h

namespace GossipProtocol

omit [KeyHash] in
theorem Knows.mono (h : g.Knows boots a) (hsub : ∀ b ∈ boots, b ∈ boots') : g.Knows boots' a where
  self := by
    obtain ⟨b, hb, hnode⟩ := h.self
    exact ⟨b, hsub b hb, hnode⟩
  here := h.here
  known id node hnode := by
    obtain ⟨hversion, b, hb, hsays⟩ := h.known id node hnode
    exact ⟨hversion, b, hsub b hb, hsays⟩
  ring := h.ring
  named := h.named

/-- A process starts with itself in the ring and knows nobody. -/
theorem knows_start {b : Boot} (hb : b ∈ boots) (v : Nat) : (start v b.node).Knows boots b.node.clusterAddr where
  self := ⟨b, hb, rfl⟩
  here := rfl
  known id node hnode := by simp [start, new] at hnode
  ring id hid := by
    rw [show (start v b.node).ring = (ConsistentHashRing.withVirtualNodes v).addNode b.node.toNode from rfl,
      ConsistentHashRing.mem_addNode] at hid
    rcases hid with rfl | hid
    · exact Or.inl rfl
    · simp [ConsistentHashRing.withVirtualNodes] at hid
  named id node hnode := by
    simp only [start, new, ConsistentHashRing.addNode, ConsistentHashRing.withVirtualNodes,
      Std.ExtTreeMap.getElem?_insert, Std.LawfulEqCmp.compare_eq_iff_eq, Std.ExtTreeMap.getElem?_empty] at hnode
    split at hnode
    · rename_i he
      cases hnode
      exact he
    · cases hnode

omit [KeyHash] in
/-- A ping or a pong changes no address and brings no version but the first. -/
theorem Knows.heard (h : g.Knows boots a) (sender : Bytes) (now : Instant) (unixSecs : Nat) :
    (g.heard sender 0 now unixSecs).Knows boots a where
  self := h.self
  here := h.here
  known id node hnode := by
    rw [getElem?_heard] at hnode
    split at hnode
    · obtain ⟨old, hold, rfl⟩ := Option.map_eq_some_iff.mp hnode
      exact ⟨rfl, (h.known id old hold).2⟩
    · exact h.known id node hnode
  ring id hid := by
    rcases h.ring id hid with hlocal | hknown
    · exact Or.inl hlocal
    · right
      show id ∈ (g.knownNodes.modify sender _)
      rw [Std.ExtTreeMap.mem_modify]
      exact hknown
  named := h.named

/-- A node that is known keeps the record it came with: no version is above the first. -/
theorem Knows.merge_known (h : g.Knows boots a) {node : KnownNode} (hversion : node.version = 0)
    (hknown : node.id ∈ g.knownNodes) : g.merge node = g := by
  obtain ⟨old, hold⟩ := Option.isSome_iff_exists.mp (Std.ExtTreeMap.isSome_getElem?_iff_mem.mpr hknown)
  have hstale : newer g.knownNodes[node.id]? node = false := by
    rw [hold, newer, Option.all_some, (h.known node.id old hold).1, hversion]
    rfl
  rw [merge, hstale, if_neg Bool.false_ne_true]

/-- The record of a node that joins here. -/
theorem Knows.merge (h : g.Knows boots a) {node : KnownNode} {b : Boot} (hb : b ∈ boots) (hid : b.node.id = node.id)
    (haddr : b.node.clusterAddr = node.clusterAddr) (hseed : b.seed = some a) (hversion : node.version = 0) :
    (g.merge node).Knows boots a := by
  by_cases hknown : node.id ∈ g.knownNodes
  · rw [h.merge_known hversion hknown]
    exact h
  · have hnew : newer g.knownNodes[node.id]? node = true := by
      rw [Std.ExtTreeMap.getElem?_eq_none hknown]
      rfl
    have hmerge : g.merge node
        = { g with knownNodes := g.knownNodes.insert node.id node, ring := g.ring.addNode node.toNode } := by
      rw [GossipProtocol.merge, if_pos hnew]
    rw [hmerge]
    refine ⟨h.self, h.here, fun id old hold => ?_, fun id hmem => ?_, fun id old hold => ?_⟩
    · simp only [Std.ExtTreeMap.getElem?_insert, Std.LawfulEqCmp.compare_eq_iff_eq] at hold
      split at hold
      · rename_i he
        cases hold
        exact ⟨hversion, b, hb, hid.trans he, haddr, hseed⟩
      · exact h.known id old hold
    · dsimp only at hmem ⊢
      rw [Std.ExtTreeMap.mem_insert, Std.LawfulEqCmp.compare_eq_iff_eq]
      rcases ConsistentHashRing.mem_addNode.mp hmem with rfl | hmem
      · exact Or.inr (Or.inl rfl)
      · rcases h.ring id hmem with hlocal | hold
        · exact Or.inl hlocal
        · exact Or.inr (Or.inr hold)
    · simp only [ConsistentHashRing.addNode, Std.ExtTreeMap.getElem?_insert, Std.LawfulEqCmp.compare_eq_iff_eq] at hold
      split at hold
      · rename_i he
        cases hold
        exact he
      · exact h.named id old hold

omit [KeyHash] in
/-- The health check changes statuses only. -/
theorem Knows.check (h : g.Knows boots a) (clock : Bytes → Instant) (pos : Bytes → Nat) :
    (g.check clock pos).Knows boots a where
  self := h.self
  here := h.here
  known id node hnode := by
    obtain ⟨old, hold, rfl⟩ : ∃ old, g.knownNodes[id]? = some old ∧ old.examine (clock id) = node := by
      simpa [GossipProtocol.check] using hnode
    obtain ⟨hversion, b, hb, hsays⟩ := h.known id old hold
    have hkeeps : (old.examine (clock id)).version = old.version ∧
        (old.examine (clock id)).clusterAddr = old.clusterAddr := by
      unfold KnownNode.examine
      split
      · exact ⟨rfl, rfl⟩
      · split <;> exact ⟨rfl, rfl⟩
    rw [hkeeps.1, hkeeps.2]
    exact ⟨hversion, b, hb, hsays⟩
  ring id hid := by
    rcases h.ring id hid with hlocal | hknown
    · exact Or.inl hlocal
    · right
      show id ∈ g.knownNodes.map _
      rw [Std.ExtTreeMap.mem_map]
      exact hknown
  named := h.named

omit [KeyHash] in
/-- A ring that loses a node holds nobody new. -/
theorem Knows.removeNode (h : g.Knows boots a) (gone : Bytes) (rest : List Bytes) :
    { g with ring := g.ring.removeNode gone, failedNodes := rest }.Knows boots a where
  self := h.self
  here := h.here
  known := h.known
  ring id hid := h.ring id (ConsistentHashRing.mem_removeNode.mp hid).2
  named id node hnode := by
    dsimp only [ConsistentHashRing.removeNode] at hnode
    rw [Std.ExtTreeMap.getElem?_erase] at hnode
    split at hnode
    · cases hnode
    · exact h.named id node hnode

/-- What a message under way makes of the process it reaches, and of the answers. -/
theorem Knows.receive (h : g.Knows boots d.target) (hversions : ∀ b ∈ boots, b.node.version = 0) (hd : d.Sent boots)
    (now : Instant) (unixSecs : Nat) :
    (g.handleMessage now unixSecs (d.msg.arriving now)).1.Knows boots d.target ∧
      ∀ msg ∈ (g.handleMessage now unixSecs (d.msg.arriving now)).2, Datagram.Sent boots ⟨d.target, d.source, msg⟩ := by
  obtain ⟨source, target, msg⟩ := d
  cases msg with
  | ping sender version =>
      obtain ⟨rfl, -⟩ := hd
      refine ⟨h.heard sender now unixSecs, fun msg hmsg => ?_⟩
      -- the pong carries the receiver's own id and version
      obtain rfl := List.mem_singleton.mp hmsg
      obtain ⟨b, hb, hnode⟩ := h.self
      refine ⟨?_, b, hb, ?_, ?_⟩
      · rw [← hnode]
        exact hversions b hb
      · rw [hnode]
      · rw [hnode]
        exact h.here
  | pong sender version =>
      obtain ⟨rfl, -⟩ := hd
      exact ⟨h.heard sender now unixSecs, fun msg hmsg => by cases hmsg⟩
  | nodeState node =>
      obtain ⟨b, hb, rfl, -, hseed⟩ := hd
      exact ⟨h.merge hb rfl rfl hseed (hversions b hb), fun msg hmsg => by cases hmsg⟩
  | nodeList nodes => exact hd.elim

/-- What such a message can do about a node that is known: it does not put it into the ring, and it changes its
    record only by hearing of it from its own address. -/
theorem Knows.receive_known (h : g.Knows boots d.target) (hversions : ∀ b ∈ boots, b.node.version = 0)
    (hd : d.Sent boots) (now : Instant) (unixSecs : Nat) {id : Bytes} {node : KnownNode}
    (hnode : g.knownNodes[id]? = some node) :
    (id ∈ (g.handleMessage now unixSecs (d.msg.arriving now)).1.ring.nodes → id ∈ g.ring.nodes) ∧
      ((g.handleMessage now unixSecs (d.msg.arriving now)).1.knownNodes[id]? = some node ∨
        (∃ b ∈ boots, b.node.id = id ∧ b.node.clusterAddr = d.source) ∧
          ∃ node', (g.handleMessage now unixSecs (d.msg.arriving now)).1.knownNodes[id]? = some node') := by
  have hheard : ∀ sender, (∃ b ∈ boots, b.node.id = sender ∧ b.node.clusterAddr = d.source) →
      (g.heard sender 0 now unixSecs).knownNodes[id]? = some node ∨
        (∃ b ∈ boots, b.node.id = id ∧ b.node.clusterAddr = d.source) ∧
          ∃ node', (g.heard sender 0 now unixSecs).knownNodes[id]? = some node' := by
    intro sender hsender
    rw [getElem?_heard, hnode]
    split
    · rename_i he
      subst he
      exact Or.inr ⟨hsender, _, rfl⟩
    · exact Or.inl rfl
  obtain ⟨source, target, msg⟩ := d
  cases msg with
  | ping sender version =>
      obtain ⟨rfl, hsender⟩ := hd
      exact ⟨fun hin => hin, hheard sender hsender⟩
  | pong sender version =>
      obtain ⟨rfl, hsender⟩ := hd
      exact ⟨fun hin => hin, hheard sender hsender⟩
  | nodeState joined =>
      obtain ⟨b, hb, rfl, -, -⟩ := hd
      change (id ∈ (g.merge { b.node with lastSeen := now }).ring.nodes → _) ∧
        ((g.merge { b.node with lastSeen := now }).knownNodes[id]? = _ ∨ _)
      by_cases hknown : b.node.id ∈ g.knownNodes
      · have hsame : g.merge { b.node with lastSeen := now } = g := h.merge_known (hversions b hb) hknown
        rw [hsame]
        exact ⟨fun hin => hin, Or.inl hnode⟩
      · -- the node that joins is another one
        have hne : b.node.id ≠ id := by
          rintro rfl
          exact hknown (Std.ExtTreeMap.isSome_getElem?_iff_mem.mp (by rw [hnode]; rfl))
        rw [mem_merge, getElem?_merge]
        simp [hne, hnode]
  | nodeList nodes => exact hd.elim

end GossipProtocol

end Records

namespace Cluster

variable {w w' : Cluster} {a : Bytes} {g : GossipProtocol}

/-! ## One step -/

omit [KeyHash] in
theorem inv_empty : (empty : Cluster).Inv where
  unchanged b hb := by cases hb
  sent d hd := by cases hd
  knows a g hg := by cases hg

omit [KeyHash] in
/-- One process changed. -/
theorem Inv.put (h : w.Inv) {g : Option GossipProtocol} (hg : ∀ g', g = some g' → g'.Knows w.boots a) :
    (w.put a g).Inv where
  unchanged := h.unchanged
  sent := h.sent
  knows a' g' hg' := by
    change Function.update w.processes a g a' = some g' at hg'
    by_cases he : a' = a
    · subst he
      rw [Function.update_self] at hg'
      exact hg g' hg'
    · rw [Function.update_of_ne he] at hg'
      exact h.knows a' g' hg'

omit [KeyHash] in
/-- More datagrams are sent. -/
theorem Inv.send (h : w.Inv) {ds : List Datagram} (hds : ∀ d ∈ ds, d.Sent w.boots) :
    { w with flight := w.flight ++ ds }.Inv where
  unchanged := h.unchanged
  sent d hd := (List.mem_append.mp hd).elim (h.sent d) (hds d)
  knows := h.knows

omit [KeyHash] in
/-- A new start is recorded. -/
theorem Inv.record (h : w.Inv) {b : Boot} (hb : b.node.version = 0) : { w with boots := b :: w.boots }.Inv where
  unchanged b' hb' := (List.mem_cons.mp hb').elim (fun he => he ▸ hb) (h.unchanged b')
  sent d hd := (h.sent d hd).mono fun _ => List.mem_cons_of_mem _
  knows a g hg := (h.knows a g hg).mono fun _ => List.mem_cons_of_mem _

omit [KeyHash] in
/-- The pings of a round say who sends them. -/
theorem Inv.sent_round (h : w.Inv) (hg : w.processes a = some g) (shuffled : List KnownNode) :
    ∀ d ∈ g.gossipRound shuffled, d.Sent w.boots := by
  intro d hd
  unfold GossipProtocol.gossipRound at hd
  split at hd
  · cases hd
  · obtain ⟨node, -, rfl⟩ := List.mem_map.mp hd
    obtain ⟨b, hb, hnode⟩ := (h.knows a g hg).self
    refine ⟨?_, b, hb, ?_, ?_⟩
    · rw [← hnode]
      exact h.unchanged b hb
    · rw [hnode]
    · rw [hnode]

/-- A delivery, whether somebody is there or not. -/
theorem Inv.receive (h : w.Inv) {d : Datagram} (hd : d ∈ w.flight) (now : Instant) (unixSecs : Nat) :
    (w.receive d now unixSecs).Inv := by
  unfold Cluster.receive
  split
  · rename_i g hg
    obtain ⟨hknows, hreplies⟩ := (h.knows d.target g hg).receive h.unchanged (h.sent d hd) now unixSecs
    refine (h.put fun g' hg' => ?_).send fun d' hd' => ?_
    · cases hg'
      exact hknows
    · obtain ⟨msg, hmsg, rfl⟩ := List.mem_map.mp hd'
      exact hreplies msg hmsg
  · exact h

/-- **Every step keeps the invariant.** -/
theorem inv_step {e : ClusterEvent} (h : w.Inv) (hstep : w.step e = some w') : w'.Inv := by
  cases e with
  | boot id addr clusterAddr now unixSecs seed =>
      simp only [step] at hstep
      split at hstep
      · cases hstep
      · cases hstep
        let b : Boot := ⟨KnownNode.new id addr clusterAddr now unixSecs, seed⟩
        have hb : b ∈ b :: w.boots := List.mem_cons_self
        refine ((h.record (b := b) rfl).put (a := clusterAddr) fun g' hg' => ?_).send fun d hd => ?_
        · cases hg'
          exact GossipProtocol.knows_start hb 150
        · -- the record and the ping that go to the seed
          obtain ⟨s, hs, hd⟩ := List.mem_flatMap.mp hd
          rw [Option.mem_toList] at hs
          simp only [GossipProtocol.joinCluster, List.mem_cons, List.not_mem_nil, or_false] at hd
          rcases hd with rfl | rfl
          · exact ⟨b, hb, rfl, rfl, hs⟩
          · exact ⟨rfl, b, hb, rfl, rfl⟩
  | stop a =>
      cases hstep
      exact h.put fun g' hg' => by cases hg'
  | round a shuffled =>
      simp only [step] at hstep
      split at hstep
      · rename_i g hg
        split at hstep
        · cases hstep
          exact h.send (h.sent_round hg shuffled)
        · cases hstep
      · cases hstep
  | deliver i now unixSecs =>
      obtain ⟨d, hd, rfl⟩ := Option.map_eq_some_iff.mp hstep
      exact h.receive (List.mem_of_getElem? hd) now unixSecs
  | lose i =>
      cases hstep
      exact ⟨h.unchanged, fun d hd => h.sent d (List.mem_of_mem_eraseIdx hd), h.knows⟩
  | check a clock pos =>
      obtain ⟨g, hg, hstep⟩ := Option.bind_eq_some_iff.mp hstep
      obtain ⟨g', hg', rfl⟩ := Option.map_eq_some_iff.mp hstep
      refine h.put fun g'' he => ?_
      cases he
      simp only [GossipProtocol.step] at hg'
      split at hg'
      · cases hg'
        exact (h.knows a g hg).check clock pos
      · cases hg'
  | removeFailed a =>
      obtain ⟨g, hg, hstep⟩ := Option.bind_eq_some_iff.mp hstep
      obtain ⟨g', hg', rfl⟩ := Option.map_eq_some_iff.mp hstep
      refine h.put fun g'' he => ?_
      cases he
      simp only [GossipProtocol.step] at hg'
      split at hg'
      · cases hg'
        exact (h.knows a g hg).removeNode _ _
      · cases hg'

/-- The invariant of every run. -/
theorem inv_run {events : List ClusterEvent} (hrun : run step empty events = some w) : w.Inv :=
  run_invariant (P := fun _ _ => True) (fun _ _ _ h _ hstep => inv_step h hstep) events _ _
    (along_of_labels (fun _ _ => trivial) _) hrun inv_empty

/-! ## Who knows whom -/

omit [KeyHash] in
/-- A process knows nodes that joined through it, and its ring has nobody else but itself. -/
theorem Inv.joined (h : w.Inv) (hg : w.processes a = some g) :
    (∀ id ∈ g.knownNodes, ∃ b ∈ w.boots, b.node.id = id ∧ b.seed = some a) ∧
      ∀ id ∈ g.ring.nodes, id = g.localNode.id ∨ ∃ b ∈ w.boots, b.node.id = id ∧ b.seed = some a := by
  have hknows := h.knows a g hg
  have hjoined : ∀ id ∈ g.knownNodes, ∃ b ∈ w.boots, b.node.id = id ∧ b.seed = some a := by
    intro id hid
    obtain ⟨node, hnode⟩ := Option.isSome_iff_exists.mp (Std.ExtTreeMap.isSome_getElem?_iff_mem.mpr hid)
    obtain ⟨-, b, hb, hb_id, -, hseed⟩ := hknows.known id node hnode
    exact ⟨b, hb, hb_id, hseed⟩
  exact ⟨hjoined, fun id hid => (hknows.ring id hid).imp_right (hjoined id)⟩

/-- **Membership goes no further than the seed**: in every run, a process knows only nodes that were started with
    its address as their seed, and its ring has nobody else but itself. -/
theorem ring_of_joined {events : List ClusterEvent} (hrun : run step empty events = some w)
    (hg : w.processes a = some g) :
    (∀ id ∈ g.knownNodes, ∃ b ∈ w.boots, b.node.id = id ∧ b.seed = some a) ∧
      ∀ id ∈ g.ring.nodes, id = g.localNode.id ∨ ∃ b ∈ w.boots, b.node.id = id ∧ b.seed = some a :=
  (inv_run hrun).joined hg

/-- The cluster address of `a`. -/
def addrA : Bytes := utf8 "127.0.0.1:17001"

/-- The cluster address of `b`. -/
def addrB : Bytes := utf8 "127.0.0.1:17002"

/-- The start of `a`. -/
def bootA (seed : Option Bytes) : ClusterEvent :=
  .boot (utf8 "a") (utf8 "127.0.0.1:7001") addrA 0 1700000000 seed

/-- The start of `b`. -/
def bootB (now : Instant) (seed : Option Bytes) : ClusterEvent :=
  .boot (utf8 "b") (utf8 "127.0.0.1:7002") addrB now 1700000000 seed

/-- `a` starts alone, `b` joins through it, and `a` gets its record. -/
def joined : List ClusterEvent := [bootA none, bootB 0 (some addrA), .deliver 0 0 1700000000]

omit [KeyHash] in
/-- The run in which `b` joins `a`. -/
theorem ring_of_joined_pair :
    let _ := smallKeys
    ∃ w g, run step empty joined = some w ∧ w.processes addrA = some g ∧
      (∀ id ∈ g.knownNodes, ∃ b ∈ w.boots, b.node.id = id ∧ b.seed = some addrA) ∧
      ∀ id ∈ g.ring.nodes, id = g.localNode.id ∨ ∃ b ∈ w.boots, b.node.id = id ∧ b.seed = some addrA := by
  intro _
  have hrun : run step empty joined = some _ := rfl
  exact ⟨_, _, hrun, rfl, ring_of_joined hrun rfl⟩

/-- **A node that nobody joins through sends no client elsewhere.** Whatever ring its seed has, its own gate lets
    every command through, also on the keys that the seed keeps for itself. -/
theorem leaf_redirects_nothing {events : List ClusterEvent} (hrun : run step empty events = some w)
    (hg : w.processes a = some g) (hleaf : ∀ b ∈ w.boots, b.seed ≠ some a) (c : Command) :
    redirect (some g.ring) (some g.localNode.id) c = none := by
  cases hkey : commandKey c with
  | none => simp only [redirect, hkey]
  | some key =>
      cases hnode : g.ring.nodeForKey key with
      | none => simp only [redirect, hkey, hnode]
      | some node =>
          rw [redirect_of_owns hkey hnode, if_pos]
          -- the ring resolves the key to a member, and the only member is the node itself
          obtain ⟨id, -, hid⟩ := Option.bind_eq_some_iff.mp hnode
          have hname : node.id = id := ((inv_run hrun).knows a g hg).named id node hid
          have hmember : id ∈ g.ring.nodes := Std.ExtTreeMap.isSome_getElem?_iff_mem.mp (by rw [hid]; rfl)
          rw [hname]
          rcases ((inv_run hrun).joined hg).2 id hmember with hlocal | ⟨b, hb, -, hseed⟩
          · exact hlocal
          · exact absurd hseed (hleaf b hb)

omit [KeyHash] in
/-- There `b` sends nobody to `a`. -/
theorem leaf_redirects_nothing_joined :
    let _ := smallKeys
    ∃ w g, run step empty joined = some w ∧ w.processes addrB = some g ∧
      redirect (some g.ring) (some g.localNode.id) (.get (utf8 "foo")) = none := by
  intro _
  have hrun : run step empty joined = some _ := rfl
  exact ⟨_, _, hrun, rfl, leaf_redirects_nothing (a := addrB) hrun rfl (by decide) _⟩

/-! ## Nodes that are started once -/

omit [KeyHash] in
/-- Every node is started once, at an address of its own. -/
def Once (w : Cluster) : ClusterEvent → Prop
  | .boot id _ clusterAddr _ _ _ => ∀ b ∈ w.boots, b.node.id ≠ id ∧ b.node.clusterAddr ≠ clusterAddr
  | _ => True

omit [KeyHash] in
instance : ∀ (w : Cluster) (e : ClusterEvent), Decidable (w.Once e)
  | w, .boot id _ clusterAddr _ _ _ =>
      inferInstanceAs (Decidable (∀ b ∈ w.boots, b.node.id ≠ id ∧ b.node.clusterAddr ≠ clusterAddr))
  | _, .stop _ | _, .round _ _ | _, .deliver _ _ _ | _, .lose _ | _, .check _ _ _ | _, .removeFailed _ => isTrue trivial

omit [KeyHash] in
/-- No two starts share an id or an address. -/
structure Distinct (w : Cluster) : Prop where
  id : ∀ b ∈ w.boots, ∀ b' ∈ w.boots, b.node.id = b'.node.id → b = b'
  address : ∀ b ∈ w.boots, ∀ b' ∈ w.boots, b.node.clusterAddr = b'.node.clusterAddr → b = b'

/-- A step records at most one start, of the node that it starts. -/
theorem boots_step {e : ClusterEvent} (hstep : w.step e = some w') :
    (∃ id addr clusterAddr now unixSecs seed, e = .boot id addr clusterAddr now unixSecs seed ∧
      w'.boots = ⟨KnownNode.new id addr clusterAddr now unixSecs, seed⟩ :: w.boots) ∨ w'.boots = w.boots := by
  cases e with
  | boot id addr clusterAddr now unixSecs seed =>
      left
      simp only [step] at hstep
      split at hstep
      · cases hstep
      · cases hstep
        exact ⟨id, addr, clusterAddr, now, unixSecs, seed, rfl, rfl⟩
  | stop a =>
      cases hstep
      exact Or.inr rfl
  | round a shuffled =>
      right
      simp only [step] at hstep
      split at hstep
      · split at hstep
        · cases hstep
          rfl
        · cases hstep
      · cases hstep
  | deliver i now unixSecs =>
      obtain ⟨d, -, rfl⟩ := Option.map_eq_some_iff.mp hstep
      right
      unfold receive
      split <;> rfl
  | lose i =>
      cases hstep
      exact Or.inr rfl
  | check a clock pos =>
      obtain ⟨g, -, hstep⟩ := Option.bind_eq_some_iff.mp hstep
      obtain ⟨g', -, rfl⟩ := Option.map_eq_some_iff.mp hstep
      exact Or.inr rfl
  | removeFailed a =>
      obtain ⟨g, -, hstep⟩ := Option.bind_eq_some_iff.mp hstep
      obtain ⟨g', -, rfl⟩ := Option.map_eq_some_iff.mp hstep
      exact Or.inr rfl

theorem distinct_step {e : ClusterEvent} (h : w.Distinct) (honce : w.Once e) (hstep : w.step e = some w') :
    w'.Distinct := by
  rcases boots_step hstep with ⟨id, addr, clusterAddr, now, unixSecs, seed, rfl, hboots⟩ | hboots
  · have hfresh : ∀ b ∈ w.boots, b.node.id ≠ id ∧ b.node.clusterAddr ≠ clusterAddr := honce
    refine ⟨fun b hb b' hb' he => ?_, fun b hb b' hb' he => ?_⟩
    · rw [hboots, List.mem_cons] at hb hb'
      rcases hb with rfl | hb <;> rcases hb' with rfl | hb'
      · rfl
      · exact absurd he.symm (hfresh b' hb').1
      · exact absurd he (hfresh b hb).1
      · exact h.id b hb b' hb' he
    · rw [hboots, List.mem_cons] at hb hb'
      rcases hb with rfl | hb <;> rcases hb' with rfl | hb'
      · rfl
      · exact absurd he.symm (hfresh b' hb').2
      · exact absurd he (hfresh b hb).2
      · exact h.address b hb b' hb' he
  · refine ⟨fun b hb b' hb' => ?_, fun b hb b' hb' => ?_⟩
    · rw [hboots] at hb hb'
      exact h.id b hb b' hb'
    · rw [hboots] at hb hb'
      exact h.address b hb b' hb'

theorem distinct_run {events : List ClusterEvent} (honce : Along step Once empty events)
    (hrun : run step empty events = some w) : w.Distinct :=
  run_invariant (fun _ _ _ h ho hstep => distinct_step h ho hstep) events _ _ honce hrun
    ⟨fun _ hb => (List.not_mem_nil hb).elim, fun _ hb => (List.not_mem_nil hb).elim⟩

/-- **Rings agree in pairs at most.** If two processes have the same ring, it has nobody in it but the two: a third
    node would have had to join through both. -/
theorem rings_agree_only_in_pairs {events : List ClusterEvent} (honce : Along step Once empty events)
    (hrun : run step empty events = some w) {a' : Bytes} {g' : GossipProtocol} (hne : a ≠ a')
    (hg : w.processes a = some g) (hg' : w.processes a' = some g')
    (hagree : ∀ id, id ∈ g.ring.nodes ↔ id ∈ g'.ring.nodes) :
    ∀ id ∈ g.ring.nodes, id = g.localNode.id ∨ id = g'.localNode.id := by
  intro id hid
  rcases ((inv_run hrun).joined hg).2 id hid with hlocal | ⟨b, hb, hb_id, hseed⟩
  · exact Or.inl hlocal
  · rcases ((inv_run hrun).joined hg').2 id ((hagree id).mp hid) with hlocal | ⟨b', hb', hb_id', hseed'⟩
    · exact Or.inr hlocal
    · -- one start has one seed
      have hsame : b = b' := (distinct_run honce hrun).id b hb b' hb' (hb_id.trans hb_id'.symm)
      rw [← hsame, hseed] at hseed'
      exact absurd (Option.some.inj hseed') hne

/-- The ring of a process that one node joined through. -/
theorem mem_ring_joined (node other : KnownNode) (id : Bytes) :
    id ∈ ((GossipProtocol.start 150 node).merge other).ring.nodes ↔ id = other.id ∨ id = node.id := by
  rw [GossipProtocol.mem_merge]
  simp only [GossipProtocol.start, GossipProtocol.new, GossipProtocol.newer, Std.ExtTreeMap.getElem?_empty,
    Option.all_none, and_true, ConsistentHashRing.mem_addNode]
  simp [ConsistentHashRing.withVirtualNodes, eq_comm]

/-- Each of the two joins through the other, and both records arrive. -/
def paired : List ClusterEvent :=
  [bootA (some addrB), bootB 0 (some addrA), .deliver 0 0 1700000000, .deliver 2 0 1700000000]

omit [KeyHash] in
/-- The two of them have one ring. -/
theorem rings_agree_paired :
    let _ := smallKeys
    ∃ w g g', run step empty paired = some w ∧ w.processes addrA = some g ∧ w.processes addrB = some g' ∧
      (∀ id, id ∈ g.ring.nodes ↔ id ∈ g'.ring.nodes) ∧
      ∀ id ∈ g.ring.nodes, id = g.localNode.id ∨ id = g'.localNode.id := by
  intro _
  have honce : Along step Once empty paired := by decide
  have hrun : run step empty paired = some _ := rfl
  let nodeA : KnownNode := KnownNode.new (utf8 "a") (utf8 "127.0.0.1:7001") addrA 0 1700000000
  let nodeB : KnownNode := KnownNode.new (utf8 "b") (utf8 "127.0.0.1:7002") addrB 0 1700000000
  have hagree : ∀ id, id ∈ ((GossipProtocol.start 150 nodeA).merge nodeB).ring.nodes ↔
      id ∈ ((GossipProtocol.start 150 nodeB).merge nodeA).ring.nodes := by
    intro id
    rw [mem_ring_joined, mem_ring_joined]
    exact or_comm
  have hne : addrA ≠ addrB := by decide
  exact ⟨_, _, _, hrun, rfl, rfl, hagree, rings_agree_only_in_pairs honce hrun hne rfl rfl hagree⟩

/-! ## What does not come back -/

/-- What a step makes of a process that is not stopped. -/
theorem process_step {e : ClusterEvent} (hg : w.processes a = some g) (hstays : e ≠ .stop a)
    (hstep : w.step e = some w') :
    ∃ g', w'.processes a = some g' ∧
      (g' = g ∨ (∃ d ∈ w.flight, d.target = a ∧ ∃ now unixSecs,
          g' = (g.handleMessage now unixSecs (d.msg.arriving now)).1) ∨
        (∃ clock pos, g' = g.check clock pos) ∨
        ∃ gone rest, g' = { g with ring := g.ring.removeNode gone, failedNodes := rest }) := by
  have hother : ∀ a' g', a' ≠ a → (w.put a' g').processes a = some g := by
    intro a' g' hne
    rw [← hg]
    exact Function.update_of_ne hne.symm ..
  cases e with
  | boot id addr clusterAddr now unixSecs seed =>
      simp only [step] at hstep
      split at hstep
      · cases hstep
      · rename_i hfree
        cases hstep
        refine ⟨g, hother _ _ ?_, Or.inl rfl⟩
        rintro rfl
        rw [hg] at hfree
        cases hfree
  | stop a' =>
      cases hstep
      exact ⟨g, hother _ _ fun he => hstays (he ▸ rfl), Or.inl rfl⟩
  | round a' shuffled =>
      simp only [step] at hstep
      split at hstep
      · split at hstep
        · cases hstep
          exact ⟨g, hg, Or.inl rfl⟩
        · cases hstep
      · cases hstep
  | deliver i now unixSecs =>
      obtain ⟨d, hd, rfl⟩ := Option.map_eq_some_iff.mp hstep
      unfold receive
      by_cases hto : d.target = a
      · rw [hto, hg]
        exact ⟨_, Function.update_self .., Or.inr (Or.inl ⟨d, List.mem_of_getElem? hd, hto, now, unixSecs, rfl⟩)⟩
      · split
        · exact ⟨g, hother _ _ hto, Or.inl rfl⟩
        · exact ⟨g, hg, Or.inl rfl⟩
  | lose i =>
      cases hstep
      exact ⟨g, hg, Or.inl rfl⟩
  | check a' clock pos =>
      obtain ⟨g₀, hg₀, hstep⟩ := Option.bind_eq_some_iff.mp hstep
      obtain ⟨g₁, hg₁, rfl⟩ := Option.map_eq_some_iff.mp hstep
      by_cases he : a' = a
      · subst he
        rw [hg] at hg₀
        cases hg₀
        simp only [GossipProtocol.step] at hg₁
        split at hg₁
        · cases hg₁
          exact ⟨_, Function.update_self .., Or.inr (Or.inr (Or.inl ⟨clock, pos, rfl⟩))⟩
        · cases hg₁
      · exact ⟨g, hother _ _ he, Or.inl rfl⟩
  | removeFailed a' =>
      obtain ⟨g₀, hg₀, hstep⟩ := Option.bind_eq_some_iff.mp hstep
      obtain ⟨g₁, hg₁, rfl⟩ := Option.map_eq_some_iff.mp hstep
      by_cases he : a' = a
      · subst he
        rw [hg] at hg₀
        cases hg₀
        simp only [GossipProtocol.step] at hg₁
        split at hg₁
        · cases hg₁
          exact ⟨_, Function.update_self .., Or.inr (Or.inr (Or.inr ⟨_, _, rfl⟩))⟩
        · cases hg₁
      · exact ⟨g, hother _ _ he, Or.inl rfl⟩

/-- Where the datagrams under way after a step come from. -/
theorem flight_step {e : ClusterEvent} (hstep : w.step e = some w') {d : Datagram} (hd : d ∈ w'.flight) :
    d ∈ w.flight ∨ (∃ id addr now unixSecs seed, e = .boot id addr d.source now unixSecs seed) ∨
      (∃ a g node, w.processes a = some g ∧ node ∈ g.alive ∧ d.source = g.localNode.clusterAddr ∧
        d.target = node.clusterAddr) ∨
      ∃ d₀ ∈ w.flight, d.source = d₀.target ∧ d.target = d₀.source := by
  cases e with
  | boot id addr clusterAddr now unixSecs seed =>
      simp only [step] at hstep
      split at hstep
      · cases hstep
      · cases hstep
        refine (List.mem_append.mp hd).imp_right fun hd => Or.inl ?_
        obtain ⟨s, -, hd⟩ := List.mem_flatMap.mp hd
        simp only [GossipProtocol.joinCluster, List.mem_cons, List.not_mem_nil, or_false] at hd
        rcases hd with rfl | rfl
        · exact ⟨id, addr, now, unixSecs, seed, rfl⟩
        · exact ⟨id, addr, now, unixSecs, seed, rfl⟩
  | stop a =>
      cases hstep
      exact Or.inl hd
  | round a shuffled =>
      simp only [step] at hstep
      split at hstep
      · rename_i g hg
        split at hstep
        · rename_i hperm
          cases hstep
          refine (List.mem_append.mp hd).imp_right fun hd => Or.inr (Or.inl ?_)
          unfold GossipProtocol.gossipRound at hd
          split at hd
          · cases hd
          · obtain ⟨node, hnode, rfl⟩ := List.mem_map.mp hd
            have halive : node ∈ g.alive := (List.isPerm_iff.mp hperm).subset (List.mem_of_mem_take hnode)
            exact ⟨a, g, node, hg, halive, rfl, rfl⟩
        · cases hstep
      · cases hstep
  | deliver i now unixSecs =>
      obtain ⟨d₀, hd₀, rfl⟩ := Option.map_eq_some_iff.mp hstep
      unfold receive at hd
      split at hd
      · refine (List.mem_append.mp hd).imp_right fun hd => Or.inr (Or.inr ?_)
        obtain ⟨msg, -, rfl⟩ := List.mem_map.mp hd
        exact ⟨d₀, List.mem_of_getElem? hd₀, rfl, rfl⟩
      · exact Or.inl hd
  | lose i =>
      cases hstep
      exact Or.inl (List.mem_of_mem_eraseIdx hd)
  | check a clock pos =>
      obtain ⟨g, -, hstep⟩ := Option.bind_eq_some_iff.mp hstep
      obtain ⟨g', -, rfl⟩ := Option.map_eq_some_iff.mp hstep
      exact Or.inl hd
  | removeFailed a =>
      obtain ⟨g, -, hstep⟩ := Option.bind_eq_some_iff.mp hstep
      obtain ⟨g', -, rfl⟩ := Option.map_eq_some_iff.mp hstep
      exact Or.inl hd

/-- The process at `a` knows the node and does not have it in its ring. -/
def Excludes (w : Cluster) (a id : Bytes) : Prop :=
  ∃ g, w.processes a = some g ∧ id ∈ g.knownNodes ∧ id ∉ g.ring.nodes

theorem excludes_step {e : ClusterEvent} {id : Bytes} (h : w.Inv) (hx : w.Excludes a id) (hstays : e ≠ .stop a)
    (hstep : w.step e = some w') : w'.Excludes a id := by
  obtain ⟨g, hg, hknown, hout⟩ := hx
  obtain ⟨g', hg', hcases⟩ := process_step hg hstays hstep
  refine ⟨g', hg', ?_⟩
  rcases hcases with rfl | ⟨d, hd, rfl, now, unixSecs, rfl⟩ | ⟨clock, pos, rfl⟩ | ⟨gone, rest, rfl⟩
  · exact ⟨hknown, hout⟩
  · obtain ⟨node, hnode⟩ := Option.isSome_iff_exists.mp (Std.ExtTreeMap.isSome_getElem?_iff_mem.mpr hknown)
    obtain ⟨hring, hrecord⟩ := (h.knows _ g hg).receive_known h.unchanged (h.sent d hd) now unixSecs hnode
    refine ⟨Std.ExtTreeMap.isSome_getElem?_iff_mem.mp ?_, fun hin => hout (hring hin)⟩
    rcases hrecord with hsame | ⟨-, node', hnode'⟩
    · rw [hsame]
      rfl
    · rw [hnode']
      rfl
  · refine ⟨?_, hout⟩
    show id ∈ g.knownNodes.map _
    rw [Std.ExtTreeMap.mem_map]
    exact hknown
  · exact ⟨hknown, fun hin => hout (ConsistentHashRing.mem_removeNode.mp hin).2⟩

/-- **A node that was taken out of a ring stays out** as long as the process runs, whatever is started, joins or is
    heard from: to come back it would need a newer record, and records of one version are all there are. -/
theorem removal_is_final {before after : List ClusterEvent} {id : Bytes} (hrun : run step empty before = some w)
    (hg : w.processes a = some g) (hknown : id ∈ g.knownNodes) (hout : id ∉ g.ring.nodes)
    (hstays : ∀ e ∈ after, e ≠ .stop a) (hafter : run step w after = some w') :
    ∃ g', w'.processes a = some g' ∧ id ∉ g'.ring.nodes := by
  have hlast : w'.Inv ∧ w'.Excludes a id := by
    refine run_invariant (P := fun _ e => e ≠ .stop a) (I := fun w => w.Inv ∧ w.Excludes a id) ?_ after w w'
      (along_of_labels hstays w) hafter ⟨inv_run hrun, g, hg, hknown, hout⟩
    intro w e w' hw he hstep
    exact ⟨inv_step hw.1 hstep, excludes_step hw.1 hw.2 he hstep⟩
  obtain ⟨g', hg', -, hout'⟩ := hlast.2
  exact ⟨g', hg', hout'⟩

/-- `b` is silent for eleven seconds and taken out. -/
def joinedAndFailed : List ClusterEvent :=
  joined ++ [ClusterEvent.check addrA (fun _ => durationSecs 11) (fun _ => 0), .removeFailed addrA]

/-- It is started again, and its record and its ping arrive. -/
def rejoined : List ClusterEvent :=
  [.stop addrB, bootB (durationSecs 12) (some addrA), .deliver 2 (durationSecs 12) 1700000012,
    .deliver 3 (durationSecs 12) 1700000012]

omit [KeyHash] in
/-- `b` joins again, and stays out. -/
theorem removal_is_final_rejoined :
    let _ := smallKeys
    ∃ w w' g', run step empty joinedAndFailed = some w ∧ run step w rejoined = some w' ∧
      w'.processes addrA = some g' ∧ utf8 "b" ∉ g'.ring.nodes := by
  intro _
  have hrun : run step empty joinedAndFailed = some _ := rfl
  have hstays : ∀ e ∈ rejoined, e ≠ ClusterEvent.stop addrA := by
    have hne : addrB ≠ addrA := by decide
    simp [rejoined, bootB, hne]
  obtain ⟨g', hg', hout⟩ := @removal_is_final _ _ _ addrA _ joinedAndFailed rejoined (utf8 "b") hrun rfl (by decide)
    (by decide) hstays rfl
  exact ⟨_, _, g', hrun, rfl, hg', hout⟩

/-! ## A node that fell silent -/

/-- The process at `a` last heard of the node at `x` at the time `seen` and no longer takes it for active; nothing
    is under way between the two, and no process at `a` ever joined through `x`. -/
structure Silent (w : Cluster) (a x id : Bytes) (seen : Instant) : Prop where
  record : ∃ g node, w.processes a = some g ∧ g.knownNodes[id]? = some node ∧ node.clusterAddr = x ∧
    node.lastSeen = seen ∧ node.status ≠ .active
  quiet : ∀ d ∈ w.flight, ¬(d.source = x ∧ d.target = a) ∧ ¬(d.source = a ∧ d.target = x)
  stranger : ∀ b ∈ w.boots, b.node.clusterAddr = a → b.seed ≠ some x

/-- Nobody pings across the silence: `a` pings active nodes only, and `x` does not know `a`. -/
theorem Silent.quiet_step {x id : Bytes} {seen : Instant} {e : ClusterEvent} (h : w.Silent a x id seen) (hw : w.Inv)
    (hdistinct : w.Distinct) (honce : w.Once e) (hstep : w.step e = some w') :
    ∀ d ∈ w'.flight, ¬(d.source = x ∧ d.target = a) ∧ ¬(d.source = a ∧ d.target = x) := by
  obtain ⟨g, node, hg, hnode, hx, -, hinactive⟩ := h.record
  obtain ⟨-, b, hb, hb_id, hb_addr, hb_seed⟩ := (hw.knows a g hg).known id node hnode
  obtain ⟨here, hhere, hhere_node⟩ := (hw.knows a g hg).self
  have hhere_addr : here.node.clusterAddr = a := by
    rw [hhere_node]
    exact (hw.knows a g hg).here
  intro d hd
  rcases flight_step hstep hd with hd | ⟨id', addr, now, unixSecs, seed, rfl⟩ | ⟨a', g', node', hg', halive, hs, ht⟩ |
    ⟨d₀, hd₀, hs, ht⟩
  · exact h.quiet d hd
  · -- a process that starts has an address of its own
    have hfresh : ∀ b ∈ w.boots, b.node.id ≠ id' ∧ b.node.clusterAddr ≠ d.source := honce
    refine ⟨fun hxa => (hfresh b hb).2 ?_, fun hax => (hfresh here hhere).2 ?_⟩
    · rw [hb_addr, hx, hxa.1]
    · rw [hhere_addr, hax.1]
  · have hknows' := hw.knows a' g' hg'
    rw [hknows'.here] at hs
    obtain ⟨hmem, hactive⟩ := List.mem_filter.mp halive
    obtain ⟨⟨id', node''⟩, hentry, rfl⟩ := List.mem_map.mp hmem
    have hnode' := Std.ExtTreeMap.mem_toList_iff_getElem?_eq_some.mp hentry
    obtain ⟨-, b', hb', hb_id', hb_addr', hb_seed'⟩ := hknows'.known id' _ hnode'
    refine ⟨fun hxa => ?_, fun hax => ?_⟩
    · -- `x` pings nodes that joined through it, and no process at `a` did
      refine h.stranger b' hb' (hb_addr'.trans (ht.symm.trans hxa.2)) ?_
      rw [hb_seed', ← hs, hxa.1]
    · -- `a` pings a node at `x` that is active, so another than the silent one
      have hsame : b' = b := hdistinct.address b' hb' b hb (by rw [hb_addr', ← ht, hax.2, hb_addr, hx])
      have he : id' = id := by rw [← hb_id', hsame, hb_id]
      rw [he] at hnode'
      rw [← hs, hax.1, hg] at hg'
      cases hg'
      rw [hnode] at hnode'
      cases hnode'
      exact hinactive (of_decide_eq_true hactive)
  · have hquiet := h.quiet d₀ hd₀
    exact ⟨fun hxa => hquiet.2 ⟨ht.symm.trans hxa.2, hs.symm.trans hxa.1⟩,
      fun hax => hquiet.1 ⟨ht.symm.trans hax.2, hs.symm.trans hax.1⟩⟩

theorem silent_step {x id : Bytes} {seen : Instant} {e : ClusterEvent} (h : w.Silent a x id seen) (hw : w.Inv)
    (hdistinct : w.Distinct) (honce : w.Once e) (hstays : e ≠ .stop a) (hstep : w.step e = some w') :
    w'.Silent a x id seen := by
  obtain ⟨g, node, hg, hnode, hx, hseen, hinactive⟩ := h.record
  have hknows := hw.knows a g hg
  refine ⟨?_, h.quiet_step hw hdistinct honce hstep, ?_⟩
  · obtain ⟨g', hg', hcases⟩ := process_step hg hstays hstep
    rcases hcases with rfl | ⟨d, hd, hto, now, unixSecs, rfl⟩ | ⟨clock, pos, rfl⟩ | ⟨gone, rest, rfl⟩
    · exact ⟨g', node, hg', hnode, hx, hseen, hinactive⟩
    · -- whoever is heard of, it is not the node: that would have come from `x`
      subst hto
      obtain ⟨-, hrecord⟩ := hknows.receive_known hw.unchanged (hw.sent d hd) now unixSecs hnode
      rcases hrecord with hsame | ⟨⟨b', hb', hb_id', hb_addr'⟩, -⟩
      · exact ⟨_, node, hg', hsame, hx, hseen, hinactive⟩
      · obtain ⟨-, b, hb, hb_id, hb_addr, -⟩ := hknows.known id node hnode
        have hsame : b' = b := hdistinct.id b' hb' b hb (hb_id'.trans hb_id.symm)
        refine absurd ⟨?_, rfl⟩ (h.quiet d hd).1
        rw [← hb_addr', hsame, hb_addr, hx]
    · refine ⟨_, node.examine (clock id), hg', ?_, ?_⟩
      · show (g.knownNodes.map fun id node => node.examine (clock id))[id]? = _
        rw [Std.ExtTreeMap.getElem?_map, hnode, Option.map_some]
      · unfold KnownNode.examine
        split
        · exact ⟨hx, hseen, NodeStatus.noConfusion⟩
        · split
          · exact ⟨hx, hseen, NodeStatus.noConfusion⟩
          · exact ⟨hx, hseen, hinactive⟩
    · exact ⟨_, node, hg', hnode, hx, hseen, hinactive⟩
  · rcases boots_step hstep with ⟨id', addr, clusterAddr, now, unixSecs, seed, rfl, hboots⟩ | hboots
    · have hfresh : ∀ b ∈ w.boots, b.node.id ≠ id' ∧ b.node.clusterAddr ≠ clusterAddr := honce
      obtain ⟨here, hhere, hhere_node⟩ := hknows.self
      intro b hb haddr
      rw [hboots, List.mem_cons] at hb
      rcases hb with rfl | hb
      · refine absurd ?_ (hfresh here hhere).2
        rw [hhere_node, hknows.here]
        exact haddr.symm
      · exact h.stranger b hb haddr
    · rw [hboots]
      exact h.stranger

/-- The ping of `b` is lost, and after six seconds `a` no longer takes it for active. -/
def suspected : List ClusterEvent :=
  joined ++ [ClusterEvent.lose 0, .lose 0, .check addrA (fun _ => durationSecs 6) (fun _ => 0)]

/-- A round of gossip that has nobody to ping, and a round of `b`, which knows nobody. -/
def onlyRounds : List ClusterEvent := [.round addrA [], .round addrB []]

end Cluster

end FerricCache
