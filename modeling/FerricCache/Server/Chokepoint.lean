import FerricCache.Server.Requests

/-!
# `FerricCache.Server.Chokepoint` — every mutation passes the write chokepoint

Three tables have to agree with what the dispatch arms do: `isWriteCommand` decides what is logged and replicated,
`bumpVersionsFor` which shards are counted, and `footprint` is what the arms write. `mutation_counted` says that they
do: a command that changes a key was logged, replicated and counted on the key's shard.
-/

namespace FerricCache

section Chokepoint

variable [KeyHash]

/-! ## Versions -/

/-- The shards whose versions a write moves, each as often as it moves them. -/
def bumpedShards (c : Command) : List (Fin 64) :=
  match c with
  | .mset pairs => pairs.map fun p => shardIndex p.1
  | .rpoplpush source destination => [shardIndex source, shardIndex destination]
  | .smove source destination _ => [shardIndex source, shardIndex destination]
  | .rename key newKey => [shardIndex key, shardIndex newKey]
  | .flushAll => List.finRange 64
  | c => ((commandKey c).map shardIndex).toList

theorem bumpVersionsFor_eq (c : Command) (versions : ShardVersions) :
    bumpVersionsFor c versions = (bumpedShards c).foldl ShardVersions.bump versions := by
  cases c with
  | mset pairs => exact List.foldl_map.symm
  | _ => rfl

omit [KeyHash] in
/-- A shard's version moves by the number of its bumps. -/
theorem foldl_bump (shards : List (Fin 64)) (versions : ShardVersions) (i : Fin 64) :
    shards.foldl ShardVersions.bump versions i = versions i + UInt64.ofNat (shards.count i) := by
  induction shards generalizing versions with
  | nil => exact (UInt64.add_zero _).symm
  | cons j shards ih =>
      rw [List.foldl_cons, ih, ShardVersions.bump, List.count_cons]
      by_cases hij : j = i
      · rw [hij, Function.update_self, beq_self_eq_true, if_pos rfl, UInt64.ofNat_add, UInt64.add_assoc]
        exact congrArg (versions i + ·) (UInt64.add_comm _ _)
      · rw [Function.update_of_ne (Ne.symm hij), if_neg (by simpa using hij), Nat.add_zero]

/-- The version of a shard without a key of the command. -/
theorem bumpVersionsFor_of_notMem {c : Command} {i : Fin 64} (h : i ∉ bumpedShards c) (versions : ShardVersions) :
    bumpVersionsFor c versions i = versions i := by
  rw [bumpVersionsFor_eq, foldl_bump, List.count_eq_zero_of_not_mem h]
  exact UInt64.add_zero _

/-- A write moves the version of the shard of every key it may change. -/
theorem mem_bumpedShards {c : Command} {k : Bytes} (hw : isWriteCommand c = true)
    (hk : ∀ keys, footprint c = some keys → k ∈ keys) : shardIndex k ∈ bumpedShards c := by
  have hpair : ∀ {a b : Bytes}, k ∈ [a, b] → shardIndex k ∈ [shardIndex a, shardIndex b] := by
    intro a b h
    exact List.mem_map_of_mem h
  cases c with
  | mset pairs =>
      obtain ⟨p, hp, rfl⟩ := List.mem_map.mp (hk _ rfl)
      exact List.mem_map.mpr ⟨p, hp, rfl⟩
  | rpoplpush source destination => exact hpair (hk _ rfl)
  | smove source destination member => exact hpair (hk _ rfl)
  | rename key newKey => exact hpair (hk _ rfl)
  | flushAll => exact List.mem_finRange _
  | _ =>
      first
        | (cases hw; done)
        | (rw [List.mem_singleton.mp (hk _ rfl)]
           exact List.mem_singleton_self _)

/-! ## Dispatched commands -/

variable [Lua] [Codec] {cfg : ServerConfig}

/-- A command dispatched past the gates: the storage is its arm's, and everything else is as the chokepoint left
    it. -/
theorem perform_storage (cfg : ServerConfig) (rd : Readings) {c : Command} (htx : txControl c = none)
    (hscript : isScript c = false) (srv : Server) (conn : ConnState) :
    ((perform cfg rd c srv conn).2.1.storage = srv.storage ∧ isWriteCommand c = false) ∨
      ∃ a, arm rd.env c = some a ∧
        (perform cfg rd c srv conn).2.1 = { srv with storage := (a.run srv.storage).2 } := by
  cases hs : sessionCommand c with
  | false =>
      obtain ⟨a, ha⟩ := arm_isSome rd.env htx hs
      exact Or.inr ⟨a, ha, by rw [perform_arm ha]⟩
  | true =>
      refine Or.inl ?_
      cases c with
      | publish channel payload => exact ⟨rfl, rfl⟩
      | subscribe channels => exact ⟨rfl, rfl⟩
      | unsubscribe channels => exact ⟨rfl, rfl⟩
      | luaEval script keys argv => cases hscript
      | luaEvalSha sha1 keys argv => cases hscript
      | auth username password =>
          obtain ⟨r, user, hauth⟩ := authArm_keeps cfg.auth username password conn
          refine ⟨?_, rfl⟩
          show (authArm cfg.auth username password srv conn).2.1.storage = srv.storage
          rw [hauth srv]
      | _ => cases hs

/-- What the chokepoint promises of a request. -/
structure Chokepoint (cfg : ServerConfig) (req : Request) (srv : Server) (conn : ConnState) : Prop where
  /-- A command that is not a write leaves the storage alone. -/
  reads : isWriteCommand req.command = false → (execute cfg req srv conn).2.1.storage = srv.storage
  /-- A command that changes an entry is a write, and it was logged, replicated and counted. -/
  logged : ∀ k, (execute cfg req srv conn).2.1.storage.slotAt k ≠ srv.storage.slotAt k →
    isWriteCommand req.command = true ∧
      (execute cfg req srv conn).2.1
        = { srv.logWrite req.readings.env.unixMs req.command with
            storage := (execute cfg req srv conn).2.1.storage }
  /-- The version of the entry's shard was incremented, at least once. -/
  counted : ∀ k, (execute cfg req srv conn).2.1.storage.slotAt k ≠ srv.storage.slotAt k →
    0 < (bumpedShards req.command).count (shardIndex k) ∧
      bumpVersionsFor req.command srv.versions (shardIndex k)
        = srv.versions (shardIndex k) + UInt64.ofNat ((bumpedShards req.command).count (shardIndex k)) ∧
      shardIndexFor k 64 = (shardIndex k).val

/-- A request that leaves the storage alone. -/
theorem chokepoint_of_storage {req : Request} {srv : Server} {conn : ConnState}
    (h : (execute cfg req srv conn).2.1.storage = srv.storage) : Chokepoint cfg req srv conn where
  reads _ := h
  logged k hk := absurd (by rw [h]) hk
  counted k hk := absurd (by rw [h]) hk

/-- A command that is not transaction control, past the gates. -/
theorem chokepoint_plain {req : Request} {srv : Server} {conn : ConnState} {c : QueuedCommand}
    (hreq : req.command = c.1) (hscript : isScript req.command = false) (hmulti : conn.tx.inMulti = false)
    (hgate : gate cfg conn c = none) : Chokepoint cfg req srv conn := by
  have hexecute : execute cfg req srv conn
      = perform cfg req.readings c
          (if isWriteCommand c then srv.logWrite req.readings.env.unixMs c else srv) conn := by
    rw [execute_plain hreq hmulti, executePlain, hgate]
  cases hw : isWriteCommand c with
  | false =>
      -- nothing is logged, and the arm only looks
      rw [hw, if_neg (by decide)] at hexecute
      apply chokepoint_of_storage
      rw [hexecute]
      rcases perform_storage cfg req.readings c.2 (hreq ▸ hscript) srv conn with ⟨hsame, -⟩ | ⟨a, ha, hperform⟩
      · exact hsame
      · rw [hperform]
        exact run_read ha hw srv.storage
  | true =>
      rw [hw, if_pos rfl] at hexecute
      rcases perform_storage cfg req.readings c.2 (hreq ▸ hscript) (srv.logWrite req.readings.env.unixMs c) conn with
        ⟨-, hnot⟩ | ⟨a, ha, hperform⟩
      · cases hw.symm.trans hnot
      · have hserver : (execute cfg req srv conn).2.1
            = { srv.logWrite req.readings.env.unixMs req.command with storage := (a.run srv.storage).2 } := by
          rw [hexecute, hperform, hreq]
          rfl
        refine ⟨fun hread => ?_, fun k _ => ⟨hreq ▸ hw, by rw [hserver]⟩, fun k hk => ?_⟩
        · cases hw.symm.trans (hreq ▸ hread)
        · -- a key that changed is in the footprint of the arm
          have hmem : ∀ keys, footprint c = some keys → k ∈ keys := by
            intro keys hkeys
            by_contra hout
            apply hk
            rw [hserver]
            exact (arm_local ha).frame srv.storage k keys hkeys hout
          rw [hreq, bumpVersionsFor_eq]
          refine ⟨List.count_pos_iff.mpr (mem_bumpedShards hw hmem), foldl_bump _ _ _, shardIndexFor_eq k⟩

/-- **Every mutation passes the chokepoint.** -/
theorem mutation_counted (cfg : ServerConfig) (req : Request) (srv : Server) (conn : ConnState)
    (hexec : req.command ≠ .exec) (hscript : isScript req.command = false) : Chokepoint cfg req srv conn := by
  cases htx : txControl req.command with
  | none =>
      cases hmulti : conn.tx.inMulti with
      | true =>
          apply chokepoint_of_storage
          unfold execute
          split
          · rw [if_pos hmulti]
          · rename_i t ht
            cases htx.symm.trans ht
      | false =>
          cases hgate : gate cfg conn req.command with
          | some r =>
              apply chokepoint_of_storage
              rw [execute_plain (c := ⟨req.command, htx⟩) rfl hmulti, executePlain, hgate]
          | none => exact chokepoint_plain (c := ⟨req.command, htx⟩) rfl hscript hmulti hgate
  | some t =>
      apply chokepoint_of_storage
      cases hgate : gate cfg conn req.command with
      | some r =>
          unfold execute
          split
          · rename_i h
            cases htx.symm.trans h
          · rw [hgate]
      | none =>
          have ht : t ≠ .exec := by
            rintro rfl
            apply hexec
            cases hc : req.command <;> first | rfl | (rw [hc] at htx; cases htx)
          obtain ⟨r, tx, hkeeps⟩ := control_keeps cfg ht req.queued srv.versions conn
          rw [execute_control htx hgate, hkeeps srv rfl]

end Chokepoint

/-- A `SET` on a fresh server. -/
theorem mutation_counted_set :
    let _ := smallKeys
    let _ := noScripts
    let _ := incrCodec
    let req := Request.plain (durationSecs 1) (.set (utf8 "k") (utf8 "v") none)
    (execute ⟨none, none, none⟩ req Server.fresh ConnState.new).2.1.storage.slotAt (utf8 "k")
        = some (.string (utf8 "v") none) ∧
      Chokepoint ⟨none, none, none⟩ req Server.fresh ConnState.new := by
  intro _ _ _ req
  refine ⟨by decide, mutation_counted ⟨none, none, none⟩ req Server.fresh ConnState.new ?_ rfl⟩
  intro h
  cases h

end FerricCache
