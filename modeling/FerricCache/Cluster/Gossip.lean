import FerricCache.Cluster.Ring
import FerricCache.Lib.Run

/-!
# `FerricCache.Cluster.Gossip` — who is believed alive, and who is in the ring

A gossip message updates the table of known nodes and, if it brings a newer record, the ring. The health
check marks silent nodes failed while it holds the table's lock, and takes them out of the ring after it let
go of it, so messages come in between (`failedNodes` is what it still has to take out).

`PING` and `PONG` make their sender active and never touch the ring; a newer record joins the ring whatever
status it carries; and nothing keeps the local node's own record from failing. `Careful` rules these steps
out, and without them the ring is the local node and the known nodes that have not failed
(`ring_holds_the_living`).
-/

namespace FerricCache

open Lib.Run

/-- `NodeStatus`. -/
inductive NodeStatus
  | active
  | suspicious
  | failed
  deriving DecidableEq

/-- `Node` as gossip keeps it; `lastSeen` is the receiver's own clock, also for a record that came in a
    message. -/
structure KnownNode extends Node where
  clusterAddr : Bytes
  status : NodeStatus
  lastSeen : Instant
  lastSeenTimestamp : Nat
  version : UInt64
  deriving DecidableEq

namespace KnownNode

/-- `update_last_seen`. -/
def updateLastSeen (node : KnownNode) (now : Instant) (unixSecs : Nat) : KnownNode :=
  { node with lastSeen := now, lastSeenTimestamp := unixSecs, status := .active }

/-- `mark_suspicious`. -/
def markSuspicious (node : KnownNode) : KnownNode := { node with status := .suspicious }

/-- `mark_failed`. -/
def markFailed (node : KnownNode) : KnownNode := { node with status := .failed }

/-- `time_since_last_seen`; a difference of instants saturates at zero. -/
def timeSinceLastSeen (node : KnownNode) (now : Instant) : Nat := now - node.lastSeen

/-- `FAILED_TIMEOUT`. -/
def failedTimeout : Nat := durationSecs 10

/-- `SUSPICIOUS_TIMEOUT`. -/
def suspiciousTimeout : Nat := durationSecs 5

/-- The first test of the health check. -/
def fails (node : KnownNode) (now : Instant) : Bool :=
  failedTimeout < node.timeSinceLastSeen now && node.status != .failed

/-- What the health check makes of a node. -/
def examine (node : KnownNode) (now : Instant) : KnownNode :=
  if node.fails now then node.markFailed
  else if suspiciousTimeout < node.timeSinceLastSeen now ∧ node.status = .active then node.markSuspicious
  else node

/-- A node has failed after the check exactly when it had or now does. -/
theorem examine_failed {node : KnownNode} {now : Instant} :
    (node.examine now).status = .failed ↔ node.status = .failed ∨ node.fails now = true := by
  unfold examine
  split
  · rename_i h
    exact ⟨fun _ => Or.inr h, fun _ => rfl⟩
  · rename_i h
    split
    · rename_i hsus
      simp [markSuspicious, hsus.2, h]
    · simp [h]

end KnownNode

/-- `GossipMessage`, as received. -/
inductive GossipMessage
  | ping (sender : Bytes) (version : UInt64)
  | pong (sender : Bytes) (version : UInt64)
  | nodeState (node : KnownNode)
  | nodeList (nodes : List KnownNode)

/-- `GossipProtocol`, with the failed nodes the health check has yet to take out of the ring. -/
structure GossipProtocol where
  localNode : KnownNode
  ring : ConsistentHashRing
  knownNodes : Std.ExtTreeMap Bytes KnownNode
  failedNodes : List Bytes

namespace GossipProtocol

/-- `new`. -/
def new (localNode : KnownNode) (ring : ConsistentHashRing) : GossipProtocol := ⟨localNode, ring, ∅, []⟩

/-- What `PING` and `PONG` do to the sender's record, if there is one. -/
def heard (g : GossipProtocol) (sender : Bytes) (version : UInt64) (now : Instant) (unixSecs : Nat) :
    GossipProtocol :=
  { g with
    knownNodes := g.knownNodes.modify sender fun node =>
      { node.updateLastSeen now unixSecs with version := version } }

/-- A record replaces none or an older one. -/
def newer (existing : Option KnownNode) (node : KnownNode) : Bool :=
  existing.all fun e => e.version < node.version

variable [KeyHash]

/-- Update or add a node. -/
def merge (g : GossipProtocol) (node : KnownNode) : GossipProtocol :=
  if newer g.knownNodes[node.id]? node then
    { g with
      knownNodes := g.knownNodes.insert node.id node
      ring := g.ring.addNode node.toNode }
  else g

/-- `handle_message`: the new state, and what goes back to the address the message came from. -/
def handleMessage (g : GossipProtocol) (now : Instant) (unixSecs : Nat) :
    GossipMessage → GossipProtocol × List GossipMessage
  | .ping sender version =>
      (g.heard sender version now unixSecs, [.pong g.localNode.id g.localNode.version])
  | .pong sender version => (g.heard sender version now unixSecs, [])
  | .nodeState node => (g.merge node, [])
  | .nodeList nodes => (nodes.foldl merge g, [])

omit [KeyHash] in
/-- A pass of the health check up to the release of the lock. `clock` is what the clock shows when a node is
    looked at, `pos` the order the table is walked in. -/
def check (g : GossipProtocol) (clock : Bytes → Instant) (pos : Bytes → Nat) : GossipProtocol :=
  { g with
    knownNodes := g.knownNodes.map fun id node => node.examine (clock id)
    failedNodes := (iterate pos Prod.fst
      (g.knownNodes.toList.filter fun p => p.2.fails (clock p.1))).map Prod.fst }

omit [KeyHash] in
/-- One thing that happens to a node's gossip. -/
inductive Event
  | receive (now : Instant) (unixSecs : Nat) (msg : GossipMessage)
  | check (clock : Bytes → Instant) (pos : Bytes → Nat)
  | removeFailed

/-- One event. There is one health check task: its next pass starts after the last one is done. -/
def step (g : GossipProtocol) : Event → Option GossipProtocol
  | .receive now unixSecs msg => some (g.handleMessage now unixSecs msg).1
  | .check clock pos => if g.failedNodes.isEmpty then some (g.check clock pos) else none
  | .removeFailed =>
      match g.failedNodes with
      | id :: rest => some { g with ring := g.ring.removeNode id, failedNodes := rest }
      | [] => none

/-! ## The condition -/

omit [KeyHash] in
/-- The last record of `id` that a list of records brings. -/
def accepted (id : Bytes) : Option KnownNode → List KnownNode → Option KnownNode
  | _, [] => none
  | known, node :: nodes =>
      if node.id = id ∧ newer known node then (accepted id (some node) nodes).or (some node)
      else accepted id known nodes

omit [KeyHash] in
/-- The records that come in say a node failed exactly when the health check is about to take it out. -/
def Plain (g : GossipProtocol) (nodes : List KnownNode) : Prop :=
  ∀ id, id ≠ g.localNode.id → ∀ node, accepted id g.knownNodes[id]? nodes = some node →
    (node.status = .failed ↔ id ∈ g.failedNodes)

omit [KeyHash] in
/-- The sender is not a known node that failed. -/
def NotFailed (g : GossipProtocol) (sender : Bytes) : Prop :=
  sender ≠ g.localNode.id → ∀ node, g.knownNodes[sender]? = some node → node.status ≠ .failed

omit [KeyHash] in
/-- No failed node is heard from, newer records are of nodes alive, and the local node's own record does not
    time out. -/
def Careful (g : GossipProtocol) : Event → Prop
  | .receive _ _ (.ping sender _) => g.NotFailed sender
  | .receive _ _ (.pong sender _) => g.NotFailed sender
  | .receive _ _ (.nodeState node) => g.Plain [node]
  | .receive _ _ (.nodeList nodes) => g.Plain nodes
  | .check clock _ =>
      ∀ node, g.knownNodes[g.localNode.id]? = some node → node.fails (clock g.localNode.id) = false
  | .removeFailed => True

/-! ## The invariant -/

omit [KeyHash] in
/-- A known node that has not failed. -/
def Alive (g : GossipProtocol) (id : Bytes) : Prop :=
  ∃ node, g.knownNodes[id]? = some node ∧ node.status ≠ .failed

omit [KeyHash] in
/-- The ring is the local node and the known nodes that have not failed. -/
def RingHoldsLiving (g : GossipProtocol) : Prop :=
  ∀ id, id ∈ g.ring.nodes ↔ id = g.localNode.id ∨ g.Alive id

omit [KeyHash] in
/-- The same during a pass of the health check: what it still has to take out is in the ring too. -/
structure Sound (g : GossipProtocol) : Prop where
  ring : ∀ id, id ∈ g.ring.nodes ↔ id = g.localNode.id ∨ g.Alive id ∨ id ∈ g.failedNodes
  failing : ∀ id ∈ g.failedNodes, id ≠ g.localNode.id ∧
    ∃ node, g.knownNodes[id]? = some node ∧ node.status = .failed
  nodup : g.failedNodes.Nodup

variable {g : GossipProtocol}

omit [KeyHash] in
theorem Sound.living (h : g.Sound) (hdone : g.failedNodes = []) : g.RingHoldsLiving := by
  intro id
  rw [h.ring id, hdone]
  simp only [List.not_mem_nil, or_false]

omit [KeyHash] in
theorem getElem?_heard (g : GossipProtocol) (sender id : Bytes) (version : UInt64) (now : Instant)
    (unixSecs : Nat) :
    (g.heard sender version now unixSecs).knownNodes[id]?
      = if id = sender then g.knownNodes[id]?.map fun node =>
          { node.updateLastSeen now unixSecs with version := version }
        else g.knownNodes[id]? := by
  simp only [heard, Std.ExtTreeMap.getElem?_modify, Std.LawfulEqCmp.compare_eq_iff_eq]
  by_cases he : id = sender
  · subst he
    simp only [if_true]
  · rw [if_neg (fun h => he h.symm), if_neg he]

omit [KeyHash] in
/-- Hearing from a node is harmless exactly when it had not failed. -/
theorem sound_heard (h : g.Sound) (sender : Bytes) (version : UInt64) (now : Instant) (unixSecs : Nat) :
    (g.heard sender version now unixSecs).Sound ↔ g.NotFailed sender := by
  have hknown := fun id => getElem?_heard g sender id version now unixSecs
  constructor
  · intro h' hne node hnode hfailed
    have hnow := hknown sender
    rw [if_pos rfl, hnode, Option.map_some] at hnow
    -- the sender is active now, so it is in the ring, and so it was only about to be taken out
    have hring := (h'.ring sender).mpr (Or.inr (Or.inl ⟨_, hnow, by simp [KnownNode.updateLastSeen]⟩))
    rcases (h.ring sender).mp hring with hlocal | ⟨node', hnode', halive⟩ | hfailing
    · exact hne hlocal
    · rw [hnode] at hnode'
      cases hnode'
      exact halive hfailed
    · obtain ⟨-, node', hnode', hfailed'⟩ := h'.failing sender hfailing
      rw [hnow] at hnode'
      cases hnode'
      cases hfailed'
  · intro hsender
    refine ⟨fun id => ?_, fun id hid => ?_, h.nodup⟩
    · rw [show (g.heard sender version now unixSecs).ring = g.ring from rfl, h.ring id]
      apply or_congr_right'
      intro hlocal
      apply or_congr_left
      unfold Alive
      rw [hknown id]
      by_cases he : id = sender
      · subst he
        rw [if_pos rfl]
        cases hnode : g.knownNodes[id]? with
        | none => simp
        | some node =>
            have hok := hsender hlocal node hnode
            simp [hok, KnownNode.updateLastSeen]
      · rw [if_neg he]
    · obtain ⟨hlocal, node, hnode, hfailed⟩ := h.failing id hid
      refine ⟨hlocal, node, ?_, hfailed⟩
      rw [hknown id, if_neg]
      · exact hnode
      · rintro rfl
        exact hsender hlocal node hnode hfailed

/-! ## New records -/

theorem getElem?_merge (g : GossipProtocol) (node : KnownNode) (id : Bytes) :
    (g.merge node).knownNodes[id]?
      = if node.id = id ∧ newer g.knownNodes[id]? node then some node else g.knownNodes[id]? := by
  unfold merge
  by_cases he : node.id = id
  · subst he
    by_cases hnew : newer g.knownNodes[node.id]? node
    · simp [hnew]
    · simp [hnew]
  · simp only [he, false_and, if_false]
    split
    · rw [Std.ExtTreeMap.getElem?_insert, if_neg (fun h => he (Std.LawfulEqCmp.eq_of_compare h))]
    · rfl

theorem mem_merge (g : GossipProtocol) (node : KnownNode) (id : Bytes) :
    id ∈ (g.merge node).ring.nodes
      ↔ (node.id = id ∧ newer g.knownNodes[id]? node) ∨ id ∈ g.ring.nodes := by
  unfold merge
  by_cases hnew : newer g.knownNodes[node.id]? node
  · rw [if_pos hnew, ConsistentHashRing.mem_addNode]
    constructor
    · rintro (rfl | hmem)
      · exact Or.inl ⟨rfl, hnew⟩
      · exact Or.inr hmem
    · rintro (⟨rfl, -⟩ | hmem)
      · exact Or.inl rfl
      · exact Or.inr hmem
  · rw [if_neg hnew]
    constructor
    · exact Or.inr
    · rintro (⟨rfl, hyes⟩ | hmem)
      · exact absurd hyes hnew
      · exact hmem

/-- The local node and the failing ones stay as they are. -/
theorem merge_keeps (g : GossipProtocol) (node : KnownNode) :
    (g.merge node).localNode = g.localNode ∧ (g.merge node).failedNodes = g.failedNodes := by
  unfold merge
  split
  · exact ⟨rfl, rfl⟩
  · exact ⟨rfl, rfl⟩

/-- What a list of records leaves. -/
theorem foldl_merge (g : GossipProtocol) (nodes : List KnownNode) :
    (nodes.foldl merge g).localNode = g.localNode ∧
      (nodes.foldl merge g).failedNodes = g.failedNodes ∧
      ∀ id, (nodes.foldl merge g).knownNodes[id]?
          = (accepted id g.knownNodes[id]? nodes).or g.knownNodes[id]? ∧
        (id ∈ (nodes.foldl merge g).ring.nodes
          ↔ (accepted id g.knownNodes[id]? nodes).isSome ∨ id ∈ g.ring.nodes) := by
  induction nodes generalizing g with
  | nil => exact ⟨rfl, rfl, fun id => ⟨rfl, by simp [accepted]⟩⟩
  | cons node nodes ih =>
      obtain ⟨hlocal, hfailed, hrest⟩ := ih (g.merge node)
      obtain ⟨hlocal', hfailed'⟩ := merge_keeps g node
      refine ⟨hlocal.trans hlocal', hfailed.trans hfailed', fun id => ?_⟩
      obtain ⟨hknown, hring⟩ := hrest id
      rw [getElem?_merge] at hknown hring
      rw [List.foldl_cons, hknown, hring, mem_merge, accepted]
      by_cases hc : node.id = id ∧ newer g.knownNodes[id]? node = true
      · rw [if_pos hc, if_pos hc]
        cases accepted id (some node) nodes with
        | none => simp [hc]
        | some last => simp
      · rw [if_neg hc, if_neg hc]
        simp [hc]

/-- New records are harmless exactly when they are plain. -/
theorem sound_merge (h : g.Sound) (nodes : List KnownNode) :
    (nodes.foldl merge g).Sound ↔ g.Plain nodes := by
  obtain ⟨hlocal, hfailed, hnodes⟩ := foldl_merge g nodes
  constructor
  · intro h' id hne node hnode
    obtain ⟨hknown, hring⟩ := hnodes id
    rw [hnode, Option.some_or] at hknown
    constructor
    · intro hdead
      -- the node is in the ring now, and not for being alive
      have hin := (h'.ring id).mp (hring.mpr (Or.inl (by rw [hnode]; rfl)))
      rw [hlocal, hfailed] at hin
      rcases hin with he | ⟨node', hnode', halive⟩ | hin
      · exact absurd he hne
      · rw [hknown] at hnode'
        cases hnode'
        exact absurd hdead halive
      · exact hin
    · intro hin
      obtain ⟨-, node', hnode', hdead⟩ := h'.failing id (hfailed ▸ hin)
      rw [hknown] at hnode'
      cases hnode'
      exact hdead
  · intro hplain
    refine ⟨fun id => ?_, fun id hid => ?_, hfailed ▸ h.nodup⟩
    · obtain ⟨hknown, hring⟩ := hnodes id
      rw [hring, hlocal, hfailed]
      unfold Alive
      rw [hknown]
      by_cases he : id = g.localNode.id
      · simp [he, h.ring g.localNode.id]
      · cases hnode : accepted id g.knownNodes[id]? nodes with
        | none => simp [h.ring id, Alive]
        | some node =>
            have hdead := hplain id he node hnode
            by_cases hin : id ∈ g.failedNodes
            · simp [hin]
            · simp [mt hdead.mp hin]
    · rw [hfailed] at hid
      obtain ⟨hne, node, hnode, hdead⟩ := h.failing id hid
      rw [hlocal, (hnodes id).1]
      refine ⟨hne, ?_⟩
      cases hnew : accepted id g.knownNodes[id]? nodes with
      | none => exact ⟨node, hnode, hdead⟩
      | some node' => exact ⟨node', rfl, (hplain id hne node' hnew).mpr hid⟩

/-! ## The health check -/

omit [KeyHash] in
theorem mem_failedNodes_check {clock : Bytes → Instant} {pos : Bytes → Nat} {id : Bytes} :
    id ∈ (g.check clock pos).failedNodes
      ↔ ∃ node, g.knownNodes[id]? = some node ∧ node.fails (clock id) = true := by
  simp only [check, List.mem_map, mem_iterate, List.mem_filter]
  constructor
  · rintro ⟨p, ⟨hp, hfails⟩, rfl⟩
    exact ⟨p.2, Std.ExtTreeMap.mem_toList_iff_getElem?_eq_some.mp hp, hfails⟩
  · rintro ⟨node, hnode, hfails⟩
    exact ⟨(id, node), ⟨Std.ExtTreeMap.mem_toList_iff_getElem?_eq_some.mpr hnode, hfails⟩, rfl⟩

omit [KeyHash] in
theorem nodup_failedNodes_check (g : GossipProtocol) (clock : Bytes → Instant) (pos : Bytes → Nat) :
    (g.check clock pos).failedNodes.Nodup := by
  have hkeys : (g.knownNodes.toList.map Prod.fst).Nodup := by
    rw [Std.ExtTreeMap.map_fst_toList_eq_keys]
    exact Std.ExtTreeMap.nodup_keys
  refine List.Perm.nodup ((iterate_perm pos Prod.fst _).map Prod.fst).symm ?_
  exact hkeys.sublist (List.filter_sublist.map Prod.fst)

omit [KeyHash] in
/-- Whoever was alive is, or is about to be taken out. -/
theorem alive_check {clock : Bytes → Instant} {pos : Bytes → Nat} {id : Bytes} :
    g.Alive id ↔ (g.check clock pos).Alive id ∨ id ∈ (g.check clock pos).failedNodes := by
  rw [mem_failedNodes_check]
  unfold Alive
  rw [show (g.check clock pos).knownNodes[id]? = g.knownNodes[id]?.map fun node => node.examine (clock id) from
    Std.ExtTreeMap.getElem?_map]
  cases hnode : g.knownNodes[id]? with
  | none => simp
  | some node =>
      have hfails : node.fails (clock id) = true → node.status ≠ .failed := by
        intro hf
        simpa using (Bool.and_eq_true_iff.mp hf).2
      simp only [Option.map_some, Option.some.injEq, exists_eq_left', ne_eq, KnownNode.examine_failed, not_or]
      tauto

omit [KeyHash] in
/-- A pass of the health check is harmless exactly when it spares the local node. -/
theorem sound_check (h : g.Sound) (hdone : g.failedNodes = []) (clock : Bytes → Instant) (pos : Bytes → Nat) :
    (g.check clock pos).Sound
      ↔ ∀ node, g.knownNodes[g.localNode.id]? = some node → node.fails (clock g.localNode.id) = false := by
  constructor
  · intro h' node hnode
    by_contra hfails
    rw [Bool.not_eq_false] at hfails
    exact (h'.failing _ (mem_failedNodes_check.mpr ⟨node, hnode, hfails⟩)).1 rfl
  · intro hspared
    refine ⟨fun id => ?_, fun id hid => ?_, nodup_failedNodes_check g clock pos⟩
    · rw [show (g.check clock pos).ring = g.ring from rfl, h.living hdone id]
      exact or_congr_right alive_check
    · obtain ⟨node, hnode, hfails⟩ := mem_failedNodes_check.mp hid
      refine ⟨?_, node.examine (clock id), ?_, KnownNode.examine_failed.mpr (Or.inr hfails)⟩
      · rintro rfl
        exact Bool.false_ne_true ((hspared node hnode).symm.trans hfails)
      · show (g.knownNodes.map fun id node => node.examine (clock id))[id]? = _
        rw [Std.ExtTreeMap.getElem?_map, hnode, Option.map_some]

/-! ## Runs -/

/-- **A step keeps the ring sound exactly when it is careful.** -/
theorem sound_step {g' : GossipProtocol} {e : Event} (h : g.Sound) (hstep : g.step e = some g') :
    g'.Sound ↔ g.Careful e := by
  cases e with
  | receive now unixSecs msg =>
      cases hstep
      cases msg with
      | ping sender version => exact sound_heard h sender version now unixSecs
      | pong sender version => exact sound_heard h sender version now unixSecs
      | nodeState node => exact sound_merge h [node]
      | nodeList nodes => exact sound_merge h nodes
  | check clock pos =>
      simp only [step] at hstep
      split at hstep
      · rename_i hdone
        cases hstep
        exact sound_check h (List.isEmpty_iff.mp hdone) clock pos
      · cases hstep
  | removeFailed =>
      simp only [step] at hstep
      split at hstep
      · rename_i id rest hfailed
        cases hstep
        refine ⟨fun _ => trivial, fun _ => ?_⟩
        have hnodup := h.nodup
        rw [hfailed, List.nodup_cons] at hnodup
        obtain ⟨hne, node, hnode, hdead⟩ := h.failing id (by rw [hfailed]; exact List.mem_cons_self)
        refine ⟨fun id' => ?_, fun id' hid' => h.failing id' ?_, hnodup.2⟩
        · rw [ConsistentHashRing.mem_removeNode, h.ring id', hfailed, List.mem_cons]
          by_cases he : id' = id
          · subst he
            simp [hne, hnodup.1, Alive, hnode, hdead]
          · simp only [ne_eq, he, not_false_eq_true, true_and, false_or]
            rfl
        · rw [hfailed]
          exact List.mem_cons_of_mem _ hid'
      · cases hstep

/-- A node starts with itself in the ring, as `with_clustering` sets it up. -/
def start (virtualNodes : Nat) (localNode : KnownNode) : GossipProtocol :=
  new localNode ((ConsistentHashRing.withVirtualNodes virtualNodes).addNode localNode.toNode)

theorem sound_start (virtualNodes : Nat) (localNode : KnownNode) : (start virtualNodes localNode).Sound := by
  refine ⟨fun id => ?_, fun id hid => ?_, List.nodup_nil⟩
  · rw [show (start virtualNodes localNode).ring
        = (ConsistentHashRing.withVirtualNodes virtualNodes).addNode localNode.toNode from rfl,
      ConsistentHashRing.mem_addNode]
    simp [start, new, Alive, ConsistentHashRing.withVirtualNodes]
  · cases hid

/-- **The ring holds exactly the nodes believed alive**, whenever no pass of the health check is under way,
    in every run of careful steps. -/
theorem ring_holds_the_living (virtualNodes : Nat) (localNode : KnownNode) (events : List Event)
    (hcareful : Along step Careful (start virtualNodes localNode) events) (before : List Event)
    (hbefore : before <+: events) (g : GossipProtocol)
    (hrun : run step (start virtualNodes localNode) before = some g) (hdone : g.failedNodes = []) :
    g.RingHoldsLiving := by
  obtain ⟨rest, rfl⟩ := hbefore
  apply Sound.living _ hdone
  refine run_invariant ?_ before _ _ (along_left hcareful) hrun (sound_start virtualNodes localNode)
  intro g e g' hg he hstep
  exact (sound_step hg hstep).mpr he

/-! ## Two nodes -/

omit [KeyHash] in
def nodeA : KnownNode := ⟨⟨utf8 "a", utf8 "127.0.0.1:7001"⟩, utf8 "127.0.0.1:17001", .active, 0, 1700000000, 0⟩

omit [KeyHash] in
def nodeB : KnownNode := ⟨⟨utf8 "b", utf8 "127.0.0.1:7002"⟩, utf8 "127.0.0.1:17002", .active, 0, 1700000000, 0⟩

omit [KeyHash] in
/-- `b` joins, is heard from once more and then not for eleven seconds. -/
def joinAndFail : List Event :=
  [.receive 0 1700000000 (.nodeState nodeB), .receive 1 1700000000 (.pong (utf8 "b") 0),
    .check (fun _ => durationSecs 11) (fun _ => 0), .removeFailed]

omit [KeyHash] in
theorem careful_joinAndFail :
    let _ := smallKeys
    Along step Careful (start 150 nodeA) joinAndFail := by
  intro _
  refine ⟨?_, fun g hg => ⟨?_, fun g' hg' => ⟨?_, fun g'' hg'' => ⟨trivial, fun _ _ => trivial⟩⟩⟩⟩
  · intro id hne node hnode
    unfold accepted accepted at hnode
    split at hnode
    · cases hnode
      simp [nodeB, start, new]
    · cases hnode
  · cases hg
    have hb : ((start 150 nodeA).merge nodeB).knownNodes[utf8 "b"]? = some nodeB := by decide
    intro _ node hnode
    cases hb.symm.trans hnode
    decide
  · cases hg
    cases hg'
    have ha : (((start 150 nodeA).merge nodeB).heard (utf8 "b") 0 1 1700000000).knownNodes[utf8 "a"]? = none := by
      decide
    intro node hnode
    cases ha.symm.trans hnode

omit [KeyHash] in
theorem ring_holds_the_living_after_failure :
    let _ := smallKeys
    ∃ g, run step (start 150 nodeA) joinAndFail = some g ∧ g.failedNodes = [] ∧ g.RingHoldsLiving := by
  intro _
  exact ⟨_, rfl, by decide, ring_holds_the_living 150 nodeA joinAndFail careful_joinAndFail _
    List.prefix_rfl _ rfl (by decide)⟩

omit [KeyHash] in
/-- A `PONG` of the failed node makes it active, and the ring never hears of it. -/
theorem failed_node_heard_again :
    let _ := smallKeys
    ¬ ∀ g, run step (start 150 nodeA) (joinAndFail ++ [Event.receive 2 1700000011 (.pong (utf8 "b") 0)]) = some g →
      g.failedNodes = [] → g.RingHoldsLiving := by
  intro _ h
  have hring := (h _ rfl (by decide) (utf8 "b")).mpr (Or.inr ⟨_, rfl, by decide +kernel⟩)
  revert hring
  decide

end GossipProtocol

end FerricCache
