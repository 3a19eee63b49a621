import FerricCache.Scripting
import FerricCache.Server.Failure
import FerricCache.Server.Steady

/-!
# `FerricCache.Persistence.ScriptWrites` — the writes a script records

A script changes the storage through `redis.call`, and the server logs and replicates the commands that the bridge
recorded on the way. Replaying them does what the script did (`recordedWrites_reproduce`), at whatever clock
reading: the bridge sets no deadline, and a call that records nothing has changed nothing. A call that changes a key
records a write on that key (`CallDone.records`).
-/

namespace FerricCache

variable [KeyHash]

/-- Replaying the writes takes the storage to the one they were recorded on. -/
def Reproduces {α : Type} (replay : Nat → Env) (m : Nat) (s : CacheStorage) (r : (α × List Command) × CacheStorage) :
    Prop :=
  applyAll replay m r.1.2 s = (some (), r.2)

/-! ## What a call can do -/

omit [KeyHash] in
/-- The key that an arm may write. -/
def BridgeOp.written : BridgeOp → List Bytes → Option Bytes
  | .get, _ | .exists, _ | .hget, _ => none
  | _, args => args.head?

omit [KeyHash] in
/-- The key that a call may write. -/
def writtenKey (cmd : Bytes) (args : List Bytes) : Option Bytes :=
  (bridgeOp (toAsciiUppercase cmd)).bind fun op => op.written args

/-- A write of a script is on one key, sets no deadline, reads no clock and does not panic. -/
structure BridgedWrite (c : Command) (key : Bytes) : Prop where
  keys : footprint c = some [key]
  steady : ∀ s : CacheStorage, Steady c s
  clockless : ∀ env env' (s : CacheStorage), applyWriteCommand env c s = applyWriteCommand env' c s
  returns : ∀ env (s : CacheStorage), (applyWriteCommand env c s).1 = some ()

omit [KeyHash] in
/-- The commands that the bridge records, with their keys. -/
def recordable : Command → Option Bytes
  | .set key _ none | .delete key | .incr key | .decr key | .hset key _ _ | .lpush key _ | .rpush key _
  | .sadd key _ => some key
  | _ => none

theorem bridgedWrite {c : Command} {key : Bytes} (h : recordable c = some key) : BridgedWrite c key := by
  cases c with
  | set k value ttl =>
      cases ttl with
      | none =>
          cases h
          exact ⟨rfl, fun _ => ⟨rfl, rfl, rfl, trivial, trivial⟩, fun _ _ _ => rfl, fun _ _ => rfl⟩
      | some n => cases h
  | _ =>
      first
        | (cases h; done)
        | (cases h
           exact ⟨rfl, fun _ => ⟨rfl, rfl, rfl, trivial, trivial⟩, fun _ _ _ => rfl, fun _ _ => rfl⟩)

/-- A call changes nothing and records nothing, or it runs one write and records it. -/
inductive CallDone (s : CacheStorage) (written : Option Bytes) : (Response × List Command) × CacheStorage → Prop
  | nothing (reply : Response) : CallDone s written ((reply, []), s)
  | wrote {c : Command} {key : Bytes} {slot : Slot} (reply : Response) (hc : BridgedWrite c key)
      (hkey : written = some key) (hreplay : ∀ env, applyWriteCommand env c s = (some (), s.setEntry key slot)) :
      CallDone s written ((reply, [c]), s.setEntry key slot)

variable {s : CacheStorage}

/-- The arms that record the command unless its operation failed. -/
theorem callDone_recorded {α : Type} {key : Bytes} {op : Slot → Res α × Slot} {c : Command} (hop : Keeps op)
    (hc : BridgedWrite c key) (hreplay : ∀ env, applyWriteCommand env c s = applyKey s key op) (f : α → Response) :
    CallDone s (some key) (s.bridged key op (recorded c f)) := by
  unfold CacheStorage.bridged
  cases hr : (s.onKey key op).1 with
  | ok a => exact .wrote _ hc rfl hreplay
  | error e =>
      -- the operation failed, so the key is as it was
      have hsame : (s.onKey key op).2 = s := by
        show s.setEntry key (op (s.slotAt key)).2 = s
        rw [hop _ e hr]
        exact s.setEntry_slotAt key
      rw [hsame]
      exact .nothing _

theorem callDone_delete (key : Bytes) :
    CallDone s (some key) (s.bridged key Slot.delete fun deleted =>
      (.integer (if deleted then 1 else 0), if deleted then [.delete key] else [])) := by
  have hdeleted : (s.onKey key Slot.delete).1 = (s.slotAt key).isSome := rfl
  unfold CacheStorage.bridged
  rw [hdeleted]
  cases hslot : s.slotAt key with
  | some v => exact .wrote _ (bridgedWrite (by rfl)) rfl fun _ => rfl
  | none =>
      have hsame : (s.onKey key Slot.delete).2 = s := by
        show s.setEntry key none = s
        rw [← hslot]
        exact s.setEntry_slotAt key
      rw [hsame]
      exact .nothing _

theorem callDone_bridgeArm (now : Env) (op : BridgeOp) (args : List Bytes) :
    CallDone s (op.written args) (bridgeArm now op args s) := by
  cases op with
  | get =>
      rcases args with _ | ⟨key, rest⟩
      · exact .nothing _
      · exact .nothing _
  | set =>
      rcases args with _ | ⟨key, _ | ⟨value, rest⟩⟩
      · exact .nothing _
      · exact .nothing _
      · exact .wrote _ (bridgedWrite (by rfl)) rfl fun _ => rfl
  | del =>
      rcases args with _ | ⟨key, rest⟩
      · exact .nothing _
      · exact callDone_delete key
  | «exists» => exact .nothing _
  | incr =>
      rcases args with _ | ⟨key, rest⟩
      · exact .nothing _
      · exact callDone_recorded (keeps_bump 1) (bridgedWrite (by rfl)) (fun _ => rfl) _
  | decr =>
      rcases args with _ | ⟨key, rest⟩
      · exact .nothing _
      · exact callDone_recorded (keeps_bump (-1)) (bridgedWrite (by rfl)) (fun _ => rfl) _
  | hget =>
      rcases args with _ | ⟨key, _ | ⟨field, rest⟩⟩
      · exact .nothing _
      · exact .nothing _
      · exact .nothing _
  | hset =>
      rcases args with _ | ⟨key, _ | ⟨field, _ | ⟨value, rest⟩⟩⟩
      · exact .nothing _
      · exact .nothing _
      · exact .nothing _
      · exact callDone_recorded (keeps_writeAny fun h e he => by cases he) (bridgedWrite (by rfl)) (fun _ => rfl) _
  | lpush =>
      rcases args with _ | ⟨key, _ | ⟨value, rest⟩⟩
      · exact .nothing _
      · exact .nothing _
      · exact callDone_recorded (keeps_writeAny fun l e he => by cases he) (bridgedWrite (by rfl)) (fun _ => rfl) _
  | rpush =>
      rcases args with _ | ⟨key, _ | ⟨value, rest⟩⟩
      · exact .nothing _
      · exact .nothing _
      · exact callDone_recorded (keeps_writeAny fun l e he => by cases he) (bridgedWrite (by rfl)) (fun _ => rfl) _
  | sadd =>
      rcases args with _ | ⟨key, _ | ⟨member, rest⟩⟩
      · exact .nothing _
      · exact .nothing _
      · exact callDone_recorded (keeps_writeAny fun m e he => by cases he) (bridgedWrite (by rfl)) (fun _ => rfl) _

/-- **One call**: what the bridge recorded is what it did. -/
theorem callDone_redisCallBridge [Lua] (now : Env) (acl : AclCheck) (cmd : Bytes) (args : List Bytes) :
    CallDone s (writtenKey cmd args) (redisCallBridge now acl cmd args s) := by
  unfold redisCallBridge writtenKey
  simp only
  split
  · exact .nothing _
  · cases bridgeOp (toAsciiUppercase cmd) with
    | none => exact .nothing _
    | some op => exact callDone_bridgeArm now op args

/-! ## Replaying the writes -/

theorem CallDone.reproduces {written : Option Bytes} {r : (Response × List Command) × CacheStorage}
    (h : CallDone s written r) (replay : Nat → Env) (m : Nat) : Reproduces replay m s r := by
  cases h with
  | nothing reply => rfl
  | wrote reply hc hkey hreplay => simp only [Reproduces, applyAll, hreplay (replay m)]

/-- **The recorded writes of a script reproduce its effect**, whatever calls it makes and at whatever readings. -/
theorem recordedWrites_reproduce [Lua] (replay envs : Nat → Env) (acl : AclCheck) (m n : Nat) (script : Script)
    (s : CacheStorage) : Reproduces replay m s (runScript envs acl n script s) := by
  -- on the tree of calls: the writes of the first call, then those of the rest
  induction script generalizing m n s with
  | done r => exact rfl
  | call cmd args next ih =>
      have hcall : Reproduces replay m s (redisCallBridge (envs n) acl cmd args s) :=
        (callDone_redisCallBridge (envs n) acl cmd args).reproduces replay m
      have hrest := ih (redisCallBridge (envs n) acl cmd args s).1.1
        (m + (redisCallBridge (envs n) acl cmd args s).1.2.length) (n + 1)
        (redisCallBridge (envs n) acl cmd args s).2
      show applyAll replay m ((redisCallBridge (envs n) acl cmd args s).1.2 ++ _) s = (some (), _)
      rw [applyAll_append hcall]
      exact hrest

/-! ## Which keys the writes are on -/

/-- **A call that changes a key records a write on it.** -/
theorem CallDone.records {written : Option Bytes} {r : (Response × List Command) × CacheStorage}
    (h : CallDone s written r) (k : Bytes) :
    r.2.slotAt k = s.slotAt k ∨ ∃ w ∈ r.1.2, isWriteCommand w = true ∧ touchesKey w k = true := by
  cases h with
  | nothing reply => exact Or.inl rfl
  | @wrote c key slot reply hc hkey hreplay =>
      by_cases hk : k = key
      · refine Or.inr ⟨c, List.mem_singleton_self c, (hc.steady s).write, touchesKey_iff.mpr fun keys hkeys => ?_⟩
        cases hc.keys.symm.trans hkeys
        exact List.mem_singleton.mpr hk
      · exact Or.inl (CacheStorage.slotAt_setEntry_ne hk)

end FerricCache
