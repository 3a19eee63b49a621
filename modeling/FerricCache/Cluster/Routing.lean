import FerricCache.Server.Requests

/-!
# `FerricCache.Cluster.Routing` — which keys a clustered node stores

The routing gate looks at a command's primary key. A node stores only keys it owns (`stores_owned`) as long as
the other keys a dispatched command writes are its own too: the keys of `MSET`, the destination of `RPOPLPUSH`
and `SMOVE`, the new name of `RENAME` (`strayKeys`). A key written elsewhere is acknowledged, and from then on
every command on it is redirected to a node that does not have it.
-/

namespace FerricCache

open Lib.Run

variable [KeyHash] [Lua] [Codec] {cfg : ServerConfig} {ring : ConsistentHashRing} {node : Bytes}

omit [KeyHash] [Lua] [Codec] in
/-- The keys a command writes besides its primary key. -/
def strayKeys : Command → List Bytes
  | .mset pairs => pairs.map Prod.fst
  | .rpoplpush _ destination => [destination]
  | .smove _ destination _ => [destination]
  | .rename _ newKey => [newKey]
  | _ => []

omit [KeyHash] [Lua] [Codec] in
/-- The footprint of a write is its primary key and its stray keys. -/
theorem mem_footprint_of_write {c : Command} {keys : List Bytes} {k : Bytes} (hw : isWriteCommand c = true)
    (hkeys : footprint c = some keys) (hk : k ∈ keys) : commandKey c = some k ∨ k ∈ strayKeys c := by
  have hpair : ∀ {a b : Bytes}, some [a, b] = some keys → some a = some k ∨ k ∈ [b] := by
    intro a b h
    cases h
    rcases List.mem_cons.mp hk with rfl | hk
    · exact Or.inl rfl
    · exact Or.inr hk
  cases c with
  | mset pairs =>
      cases hkeys
      exact Or.inr hk
  | rpoplpush source destination => exact hpair hkeys
  | smove source destination member => exact hpair hkeys
  | rename key newKey => exact hpair hkeys
  | flushAll => cases hkeys
  | _ =>
      first
        | (cases hw; done)
        | (cases hkeys
           exact Or.inl (congrArg some (List.mem_singleton.mp hk).symm))

/-! ## Dispatched commands -/

/-- The command loads no script, and the keys it writes besides its primary key are the node's. -/
def WritesOwned (ring : ConsistentHashRing) (node : Bytes) : DispatchProp := fun _ c _ _ =>
  isScript c = false ∧ ∀ k ∈ strayKeys c, ring.Owns node k

/-- Everything stored was there before, or is the node's. -/
def StoresOwned (ring : ConsistentHashRing) (node : Bytes) (before : CacheStorage) (srv : Server) : Prop :=
  ∀ k v, srv.storage.slotAt k = some v → before.slotAt k = some v ∨ ring.Owns node k

omit [Lua] [Codec] in
/-- A storage arm that got past the gate. -/
theorem run_owned {rd : Readings} {c : Command} {a : Arm} {before s : CacheStorage} {point : UInt64}
    (hring : ring.ring[point]? = some node) (ha : arm rd.env c = some a)
    (hroute : redirect (some ring) (some node) c = none) (hstray : ∀ k ∈ strayKeys c, ring.Owns node k)
    (hs : ∀ k v, s.slotAt k = some v → before.slotAt k = some v ∨ ring.Owns node k) (k : Bytes)
    (v : CacheValue) (hv : (a.run s).2.slotAt k = some v) :
    before.slotAt k = some v ∨ ring.Owns node k := by
  by_cases hw : isWriteCommand c = true
  · have hlocal := arm_local ha
    cases hkeys : footprint c with
    | none =>
        -- the only write without a list of keys is `FLUSHALL`, which leaves nothing
        have hflush : c = .flushAll := by
          cases c <;> first | rfl | (cases hw; done) | cases hkeys
        subst hflush
        cases ha
        rw [show ((Arm.store fun s : CacheStorage => (some Response.ok, s.flushall)).run s).2 = s.flushall from
          rfl, CacheStorage.slotAt_flushall] at hv
        cases hv
    | some keys =>
        by_cases hk : k ∈ keys
        · right
          rcases mem_footprint_of_write hw hkeys hk with hprimary | hother
          · exact owns_of_redirect_none hprimary (ring.nodeForKey_isSome hring k) hroute
          · exact hstray k hother
        · rw [hlocal.frame s k keys hkeys hk] at hv
          exact hs k v hv
  · rw [run_read ha (Bool.not_eq_true _ ▸ hw)] at hv
    exact hs k v hv

/-- **One dispatched command stores owned keys only.** -/
theorem executePlain_owned {before : CacheStorage} {point : UInt64} (hcfg : cfg.ring = some ring)
    (hnode : cfg.localNodeId = some node) (hring : ring.ring[point]? = some node) (rd : Readings)
    (c : QueuedCommand) (srv : Server) (conn : ConnState) (hI : StoresOwned ring node before srv)
    (hP : gate cfg conn c = none → WritesOwned ring node rd c srv conn) :
    StoresOwned ring node before (executePlain cfg rd c srv conn).2.1 := by
  obtain ⟨c, htx⟩ := c
  cases hg : gate cfg conn c with
  | some r =>
      simp only [executePlain, hg]
      exact hI
  | none =>
      obtain ⟨hscript, hstray⟩ := hP hg
      have hroute := (Option.or_eq_none_iff.mp hg).1
      rw [hcfg, hnode] at hroute
      by_cases hs : sessionCommand c = false
      · obtain ⟨a, ha⟩ := arm_isSome rd.env htx hs
        simp only [executePlain, hg, perform_arm ha]
        split
        · exact run_owned hring ha hroute hstray hI
        · exact run_owned hring ha hroute hstray hI
      · cases c with
        | luaEval script keys argv => cases hscript
        | luaEvalSha sha1 keys argv => cases hscript
        | publish channel payload =>
            simp only [executePlain, hg, isWriteCommand, Bool.false_eq_true, if_false, perform]
            exact hI
        | subscribe channels =>
            simp only [executePlain, hg, isWriteCommand, Bool.false_eq_true, if_false, perform]
            exact hI
        | unsubscribe channels =>
            simp only [executePlain, hg, isWriteCommand, Bool.false_eq_true, if_false, perform]
            exact hI
        | auth username password =>
            obtain ⟨r, user, hkeeps⟩ := authArm_keeps cfg.auth username password conn
            simp only [executePlain, hg, isWriteCommand, Bool.false_eq_true, if_false, perform, hkeeps]
            exact hI
        | _ => exact absurd rfl hs

/-! ## Whole runs -/

/-- Every key the requests created or changed is the node's, and a client that follows redirects for it ends
    at the node: it serves every command with that primary key, and every other node of the ring replies
    with its address. -/
def KeepsToOwnKeys (cfg : ServerConfig) (ring : ConsistentHashRing) (node : Bytes) (x : Connection)
    (reqs : List Request) : Prop :=
  ∀ x', run (Connection.step cfg) x reqs = some x' →
    ∀ k v, x'.server.storage.slotAt k = some v → x.server.storage.slotAt k ≠ some v →
      ∃ owner, ring.nodeForKey k = some owner ∧ owner.id = node ∧
        ∀ other c, commandKey c = some k → redirect (some ring) (some other) c
          = if owner.id = other then none else some (moved k owner)

/-- **A clustered node only stores keys it owns**, scripts apart, as long as the stray keys of every command
    dispatched on the way are the node's. -/
theorem stores_owned (cfg : ServerConfig) (ring : ConsistentHashRing) (node : Bytes) (point : UInt64)
    (hcfg : cfg.ring = some ring) (hnode : cfg.localNodeId = some node)
    (hring : ring.ring[point]? = some node) (x : Connection) (reqs : List Request)
    (howned : Along (Connection.step cfg)
      (fun y req => Meets (WritesOwned ring node) cfg req y.server y.conn) x reqs) :
    KeepsToOwnKeys cfg ring node x reqs := by
  intro x' hrun k v hv hchanged
  have hinv : StoresOwned ring node x.server.storage x'.server := by
    refine run_invariant (I := fun y => StoresOwned ring node x.server.storage y.server) ?_ reqs x x' howned
      hrun fun k v h => Or.inl h
    intro y req y' hy hmeets hstep
    unfold Connection.step at hstep
    split at hstep
    · cases hstep
      exact execute_invariant (I := fun srv _ => StoresOwned ring node x.server.storage srv)
        (fun rd c srv conn h hP => executePlain_owned hcfg hnode hring rd c srv conn h hP)
        (fun srv conn tx h => h) hy hmeets
    · cases hstep
  rcases hinv k v hv with h | ⟨owner, howner, hid⟩
  · exact absurd h hchanged
  · exact ⟨owner, howner, hid, fun other c hkey => redirect_of_owns hkey howner⟩

omit [KeyHash] [Lua] [Codec] in
theorem stores_owned_set :
    let _ := smallKeys
    let _ := noScripts
    let _ := incrCodec
    KeepsToOwnKeys ⟨none, some ringOfTwo, some (utf8 "a")⟩ ringOfTwo (utf8 "a")
      (Connection.open Server.fresh ConnState.new) [.plain 0 (.set (utf8 "d") (utf8 "v") none)] := by
  intro _ _ _
  refine stores_owned _ ringOfTwo (utf8 "a") (ConsistentHashRing.virtualHash (utf8 "a") 0) rfl rfl ?_ _ _ ?_
  · decide +kernel
  · exact ⟨fun _ _ => ⟨rfl, fun k hk => absurd hk List.not_mem_nil⟩, fun _ _ => trivial⟩

omit [KeyHash] [Lua] [Codec] in
/-- Node `a` takes `MSET k v`, although the ring gives `k` to `b`. -/
theorem mset_stores_key_of_other_node :
    let _ := smallKeys
    let _ := noScripts
    let _ := incrCodec
    ¬ KeepsToOwnKeys ⟨none, some ringOfTwo, some (utf8 "a")⟩ ringOfTwo (utf8 "a")
      (Connection.open Server.fresh ConnState.new) [.plain 0 (.mset [(utf8 "k", utf8 "v")])] := by
  intro _ _ _ h
  obtain ⟨owner, howner, hid, -⟩ := h _ rfl (utf8 "k") (.string (utf8 "v") none)
    (CacheStorage.slotAt_setEntry_self _ _ _) (by decide)
  have hb : (ringOfTwo.nodeForKey (utf8 "k")).map Node.id = some (utf8 "b") := by decide +kernel
  rw [howner, Option.map_some, hid] at hb
  revert hb
  decide

end FerricCache
