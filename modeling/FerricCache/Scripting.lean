import FerricCache.Server.Keys
import FerricCache.Security.Acl

/-!
# `FerricCache.Scripting` — `redis.call` and the runs of Lua scripts

The Lua interpreter is third-party code (`Lua`). What the server sees of a run is a tree (`Script`): the calls
it makes, each continued by the reply, and its value. No time limit is set, so there may never be one:
`while true do end` has no value (`NeverReturns`). `redisCallBridge` is the server's side of a call.

A call is local to the keys it names (`redisCallBridge_local`): its first argument, and all of them for
`EXISTS`.
-/

namespace FerricCache

/-- A run of a script. `done none` is one that never returns from here; a script that never stops calling is cut
    after some of its calls. -/
inductive Script
  | done (r : Option Response)
  | call (cmd : Bytes) (args : List Bytes) (next : Response → Script)

/-- The interpreter: `eval` is `lua.load(source).eval()` with `KEYS` and `ARGV` set, `toLowercase` the
    `str::to_lowercase` of the names a script may call. -/
class Lua where
  sha1Hex : Bytes → Bytes
  eval : Env → Bytes → List Bytes → List Bytes → Script
  toLowercase : Bytes → Bytes

/-- The interpreter of concrete runs that evaluate no script. -/
@[reducible] def noScripts : Lua := ⟨fun _ => [], fun _ _ _ _ => .done (some .null), id⟩

/-- The interpreter of concrete runs whose scripts are all `while true do end`. -/
@[reducible] def endlessScripts : Lua := ⟨fun _ => [], fun _ _ _ _ => .done none, id⟩

/-- `AclCheck`: the command's name and its first key. -/
abbrev AclCheck := Bytes → Option Bytes → Bool

/-- `allow_all_acl`. -/
def allowAllAcl : AclCheck := fun _ _ => true

/-! ## The bridge -/

/-- The arms of the `match` on the command's uppercase name. -/
inductive BridgeOp
  | get | set | del | exists | incr | decr | hget | hset | lpush | rpush | sadd
  deriving DecidableEq

/-- The name of an arm; `DELETE` is a second name of `DEL`. -/
def bridgeOp (upper : Bytes) : Option BridgeOp :=
  if upper = utf8 "GET" then some .get
  else if upper = utf8 "SET" then some .set
  else if upper = utf8 "DEL" ∨ upper = utf8 "DELETE" then some .del
  else if upper = utf8 "EXISTS" then some .exists
  else if upper = utf8 "INCR" then some .incr
  else if upper = utf8 "DECR" then some .decr
  else if upper = utf8 "HGET" then some .hget
  else if upper = utf8 "HSET" then some .hset
  else if upper = utf8 "LPUSH" then some .lpush
  else if upper = utf8 "RPUSH" then some .rpush
  else if upper = utf8 "SADD" then some .sadd
  else none

/-- `Some(v) => Value(v)`, `None => Null`. -/
def valueOrNull : Option Bytes → Response
  | some v => .value v
  | none => .null

/-- The reply of a write, which is recorded when it succeeded. -/
def recorded {α : Type} (c : Command) (f : α → Response) : Res α → Response × List Command
  | .ok a => (f a, [c])
  | .error e => (.error e, [])

variable [KeyHash]

/-- A critical section of the bridge on one key. -/
def CacheStorage.bridged {α : Type} (s : CacheStorage) (key : Bytes) (op : Slot → α × Slot)
    (reply : α → Response × List Command) : (Response × List Command) × CacheStorage :=
  (reply (s.onKey key op).1, (s.onKey key op).2)

/-- The arms of `redis_call_bridge`: the reply, the write to record, and the storage. -/
def bridgeArm (env : Env) (op : BridgeOp) (args : List Bytes) (s : CacheStorage) :
    (Response × List Command) × CacheStorage :=
  let refuse := fun (text : String) => ((Response.error (utf8 text), []), s)
  match op, args with
  | .get, key :: _ => ((valueOrNull (Slot.get env.now (s.slotAt key)), []), s)
  | .get, [] => refuse "ERR GET key"
  | .set, key :: value :: _ =>
      s.bridged key (Slot.set env.now value none) fun _ => (.ok, [.set key value none])
  | .set, _ => refuse "ERR SET key value"
  | .del, key :: _ =>
      s.bridged key Slot.delete fun deleted =>
        (.integer (if deleted then 1 else 0), if deleted then [.delete key] else [])
  | .del, [] => refuse "ERR DEL key"
  | .exists, keys => ((.integer (s.existsCount env.now keys), []), s)
  | .incr, key :: _ => s.bridged key Slot.incr (recorded (.incr key) .integer)
  | .incr, [] => refuse "ERR INCR key"
  | .decr, key :: _ => s.bridged key Slot.decr (recorded (.decr key) .integer)
  | .decr, [] => refuse "ERR DECR key"
  | .hget, key :: field :: _ => ((valueOrNull (Slot.hget env.now field (s.slotAt key)), []), s)
  | .hget, _ => refuse "ERR HGET key field"
  | .hset, key :: field :: value :: _ =>
      s.bridged key (Slot.hset field value) (recorded (.hset key field value) fun _ => .integer 1)
  | .hset, _ => refuse "ERR HSET key field value"
  | .lpush, key :: value :: values =>
      s.bridged key (Slot.lpush (value :: values)) (recorded (.lpush key (value :: values)) Reply.count)
  | .lpush, _ => refuse "ERR LPUSH key value"
  | .rpush, key :: value :: values =>
      s.bridged key (Slot.rpush (value :: values)) (recorded (.rpush key (value :: values)) Reply.count)
  | .rpush, _ => refuse "ERR RPUSH key value"
  | .sadd, key :: member :: members =>
      s.bridged key (Slot.sadd (member :: members)) (recorded (.sadd key (member :: members)) Reply.count)
  | .sadd, _ => refuse "ERR SADD key member"

/-- `redis_call_bridge`: the caller's ACL is asked about the first argument only. -/
def redisCallBridge [Lua] (env : Env) (acl : AclCheck) (cmd : Bytes) (args : List Bytes) (s : CacheStorage) :
    (Response × List Command) × CacheStorage :=
  let upper := toAsciiUppercase cmd
  if acl upper args.head? = false then
    ((.error (utf8 "NOPERM this user has no permissions to run the '" ++ Lua.toLowercase upper ++
      utf8 "' command"), []), s)
  else
    match bridgeOp upper with
    | some op => bridgeArm env op args s
    | none =>
        ((.error (utf8 "ERR redis.call: '" ++ cmd ++ utf8 "' not implemented in scripting bridge"), []), s)

/-! ## Runs -/

/-- `run_script`: the reply, which a script that never returns does not give, the recorded writes, and the storage.
    The `n`-th call runs at `envs n`. -/
def runScript [Lua] (envs : Nat → Env) (acl : AclCheck) : Nat → Script → CacheStorage →
    (Option Response × List Command) × CacheStorage
  | _, .done r, s => ((r, []), s)
  | n, .call cmd args next, s =>
      let r := redisCallBridge (envs n) acl cmd args s
      let rest := runScript envs acl (n + 1) (next r.1.1) r.2
      ((rest.1.1, r.1.2 ++ rest.1.2), rest.2)

/-- With the replies its calls get, the script comes to a point from which it never returns. -/
def NeverReturns [Lua] (envs : Nat → Env) (acl : AclCheck) : Nat → Script → CacheStorage → Bool
  | _, .done r, _ => r.isNone
  | n, .call cmd args next, s =>
      let r := redisCallBridge (envs n) acl cmd args s
      NeverReturns envs acl (n + 1) (next r.1.1) r.2

theorem runScript_eq_none_iff [Lua] {envs : Nat → Env} {acl : AclCheck} (n : Nat) (script : Script)
    (s : CacheStorage) : (runScript envs acl n script s).1.1 = none ↔ NeverReturns envs acl n script s = true := by
  induction script generalizing n s with
  | done r => exact Option.isNone_iff_eq_none.symm
  | call cmd args next ih => exact ih _ (n + 1) _

/-- Every call the run makes has the property. -/
def CallsMade [Lua] (P : Bytes → List Bytes → Prop) (envs : Nat → Env) (acl : AclCheck) :
    Nat → Script → CacheStorage → Prop
  | _, .done _, _ => True
  | n, .call cmd args next, s =>
      P cmd args ∧
        let r := redisCallBridge (envs n) acl cmd args s
        CallsMade P envs acl (n + 1) (next r.1.1) r.2

/-! ## Locality -/

omit [KeyHash] in
/-- The keys a call looks at. -/
def bridgeKeys (cmd : Bytes) (args : List Bytes) : List Bytes :=
  if toAsciiUppercase cmd = utf8 "EXISTS" then args else args.take 1

theorem bridged_local {α : Type} {key : Bytes} {keys : List Bytes} (hkey : key ∈ keys) (op : Slot → α × Slot)
    (reply : α → Response × List Command) :
    LocalTo (some keys) fun s => s.bridged key op reply :=
  (LocalTo.onKey hkey op).map reply

/-- An arm other than `EXISTS` is local to its first argument. -/
theorem bridgeArm_local (env : Env) {op : BridgeOp} (hop : op ≠ .exists) (args : List Bytes) :
    LocalTo (some (args.take 1)) (bridgeArm env op args) := by
  have hread : ∀ (key : Bytes) (g : Slot → Response × List Command) (rest : List Bytes),
      LocalTo (some ((key :: rest).take 1)) fun s : CacheStorage => (g (s.slotAt key), s) := by
    intro key g rest
    refine LocalTo.read fun s t hst => ?_
    rw [hst key (by simp)]
  have hconst : ∀ (r : Response × List Command) (F : Option (List Bytes)),
      LocalTo F fun s : CacheStorage => (r, s) := by
    intro r F
    exact LocalTo.read fun _ _ _ => rfl
  have hwrite : ∀ {α : Type} (key : Bytes) (rest : List Bytes) (f : Slot → α × Slot)
      (reply : α → Response × List Command),
      LocalTo (some ((key :: rest).take 1)) fun s : CacheStorage => s.bridged key f reply := by
    intro α key rest f reply
    exact bridged_local (by simp) f reply
  -- with too few arguments an arm is constant, else it reads or writes the one key
  cases op with
  | «exists» => exact absurd rfl hop
  | get =>
      rcases args with _ | ⟨key, rest⟩
      · exact hconst _ _
      · exact hread key (fun slot => (valueOrNull (Slot.get env.now slot), [])) rest
  | set =>
      rcases args with _ | ⟨key, _ | ⟨value, rest⟩⟩
      · exact hconst _ _
      · exact hconst _ _
      · exact hwrite key _ (Slot.set env.now value none) fun _ => (.ok, [.set key value none])
  | del =>
      rcases args with _ | ⟨key, rest⟩
      · exact hconst _ _
      · exact hwrite key _ Slot.delete fun deleted =>
          (.integer (if deleted then 1 else 0), if deleted then [.delete key] else [])
  | incr =>
      rcases args with _ | ⟨key, rest⟩
      · exact hconst _ _
      · exact hwrite key _ _ _
  | decr =>
      rcases args with _ | ⟨key, rest⟩
      · exact hconst _ _
      · exact hwrite key _ _ _
  | hget =>
      rcases args with _ | ⟨key, _ | ⟨field, rest⟩⟩
      · exact hconst _ _
      · exact hconst _ _
      · exact hread key (fun slot => (valueOrNull (Slot.hget env.now field slot), [])) _
  | hset =>
      rcases args with _ | ⟨key, _ | ⟨field, _ | ⟨value, rest⟩⟩⟩
      · exact hconst _ _
      · exact hconst _ _
      · exact hconst _ _
      · exact hwrite key _ _ _
  | lpush =>
      rcases args with _ | ⟨key, _ | ⟨value, rest⟩⟩
      · exact hconst _ _
      · exact hconst _ _
      · exact hwrite key _ _ _
  | rpush =>
      rcases args with _ | ⟨key, _ | ⟨value, rest⟩⟩
      · exact hconst _ _
      · exact hconst _ _
      · exact hwrite key _ _ _
  | sadd =>
      rcases args with _ | ⟨key, _ | ⟨member, rest⟩⟩
      · exact hconst _ _
      · exact hconst _ _
      · exact hwrite key _ _ _

theorem bridgeArm_exists_local (env : Env) (keys : List Bytes) :
    LocalTo (some keys) (bridgeArm env .exists keys) := by
  refine LocalTo.read fun s t hst => ?_
  rw [existsCount_agree hst]

omit [KeyHash] in
theorem bridgeOp_exists {upper : Bytes} (h : bridgeOp upper = some .exists) : upper = utf8 "EXISTS" := by
  unfold bridgeOp at h
  by_contra hne
  -- the other names have other arms
  simp only [if_neg hne, ite_eq_iff, Option.some.injEq, reduceCtorEq, and_false, or_false] at h

omit [KeyHash] in
theorem bridgeOp_of_exists : bridgeOp (utf8 "EXISTS") = some .exists := by decide

/-- **A call is local to the keys it names.** -/
theorem redisCallBridge_local [Lua] (env : Env) (acl : AclCheck) (cmd : Bytes) (args : List Bytes) :
    LocalTo (some (bridgeKeys cmd args)) (redisCallBridge env acl cmd args) := by
  unfold redisCallBridge
  by_cases hacl : acl (toAsciiUppercase cmd) args.head? = false
  · simp only [if_pos hacl]
    exact LocalTo.read fun _ _ _ => rfl
  · simp only [if_neg hacl]
    cases hop : bridgeOp (toAsciiUppercase cmd) with
    | none => exact LocalTo.read fun _ _ _ => rfl
    | some op =>
        unfold bridgeKeys
        by_cases he : toAsciiUppercase cmd = utf8 "EXISTS"
        · rw [he, bridgeOp_of_exists] at hop
          cases hop
          rw [if_pos he]
          exact bridgeArm_exists_local env args
        · have hne : op ≠ .exists := by
            rintro rfl
            exact he (bridgeOp_exists hop)
          rw [if_neg he]
          exact bridgeArm_local env hne args

end FerricCache
