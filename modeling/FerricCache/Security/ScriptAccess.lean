import FerricCache.Cluster.Ring
import FerricCache.Scripting

/-!
# `FerricCache.Security.ScriptAccess` — which entries a script may reach

A direct command is checked under its own name and key. `redis.call` checks the name the script spelled and the
first argument: `DELETE` reaches what `DEL` reaches under another name, and `EXISTS` looks at every argument.
`scriptAccess_iff` says exactly when a call reaches nothing that its caller may not.
-/

namespace FerricCache

section Touches

variable [KeyHash] {α : Type} (g : CacheStorage → α × CacheStorage) (s : CacheStorage) (k : Bytes)

/-- What the operation returns depends on the entry. -/
def LooksAt : Prop := ∃ slot, (g (s.setEntry k slot)).1 ≠ (g s).1

/-- The operation changes the entry. -/
def Alters : Prop := (g s).2.slotAt k ≠ s.slotAt k

/-- The operation reads or mutates the entry. -/
def Touches : Prop := LooksAt g s k ∨ Alters g s k

variable {g s k}

/-- An operation touches nothing outside its footprint. -/
theorem LocalTo.mem_of_touches {keys : List Bytes} (h : LocalTo (some keys) g) (htouch : Touches g s k) :
    k ∈ keys := by
  by_contra hk
  rcases htouch with ⟨slot, hreply⟩ | halters
  · apply hreply
    apply h.reply
    intro x hx
    exact CacheStorage.slotAt_setEntry_ne fun he => hk (he ▸ hx)
  · exact halters (h.frame s k keys rfl hk)

end Touches

/-! ## Names -/

/-- The command that an arm of the bridge performs. -/
def BridgeOp.command : BridgeOp → List Bytes → Option Command
  | .get, key :: _ => some (.get key)
  | .set, key :: value :: _ => some (.set key value none)
  | .del, key :: _ => some (.delete key)
  | .exists, keys => some (.existsKeys keys)
  | .incr, key :: _ => some (.incr key)
  | .decr, key :: _ => some (.decr key)
  | .hget, key :: field :: _ => some (.hget key field)
  | .hset, key :: field :: value :: _ => some (.hset key field value)
  | .lpush, key :: value :: values => some (.lpush key (value :: values))
  | .rpush, key :: value :: values => some (.rpush key (value :: values))
  | .sadd, key :: member :: members => some (.sadd key (member :: members))
  | _, _ => none

/-- The command that a call performs. -/
def bridgeCommand (cmd : Bytes) (args : List Bytes) : Option Command :=
  (bridgeOp (toAsciiUppercase cmd)).bind fun op => op.command args

/-- The name an arm has as a command. -/
def BridgeOp.name : BridgeOp → Bytes
  | .get => utf8 "GET"
  | .set => utf8 "SET"
  | .del => utf8 "DEL"
  | .exists => utf8 "EXISTS"
  | .incr => utf8 "INCR"
  | .decr => utf8 "DECR"
  | .hget => utf8 "HGET"
  | .hset => utf8 "HSET"
  | .lpush => utf8 "LPUSH"
  | .rpush => utf8 "RPUSH"
  | .sadd => utf8 "SADD"

theorem commandName_command {op : BridgeOp} {args : List Bytes} {c : Command} (h : op.command args = some c) :
    commandName c = op.name := by
  unfold BridgeOp.command at h
  split at h <;> first | (cases h; rfl) | cases h

/-- An arm is reached under its own name, `DEL` also under another. -/
theorem bridgeOp_name {upper : Bytes} {op : BridgeOp} (h : bridgeOp upper = some op) :
    upper = op.name ∨ (upper = utf8 "DELETE" ∧ op = .del) := by
  unfold bridgeOp at h
  -- one name after the other
  repeat
    rw [ite_eq_iff] at h
    rcases h with ⟨hupper, hop⟩ | ⟨-, h⟩
    · cases hop
      first | exact Or.inl hupper | exact hupper.imp id fun hdelete => ⟨hdelete, rfl⟩
  cases h

theorem bridgeOp_delete : bridgeOp (utf8 "DELETE") = some .del := by decide

/-! ## Access -/

section Access

variable [KeyHash] [Lua]

/-- Every entry the call touches is one the caller may touch, by the name the same command has when it is sent
    directly. -/
def WithinRights (env : Env) (acl : AclCheck) (cmd : Bytes) (args : List Bytes) (s : CacheStorage) : Prop :=
  ∀ k, Touches (redisCallBridge env acl cmd args) s k →
    ∃ c, bridgeCommand cmd args = some c ∧ acl (commandName c) (some k) = true

omit [KeyHash] [Lua] in
/-- The check of the first argument under the spelled name covers the call. -/
def CheckCovers (acl : AclCheck) (cmd : Bytes) (args : List Bytes) : Prop :=
  acl (toAsciiUppercase cmd) args.head? = true →
    (toAsciiUppercase cmd = utf8 "DELETE" → ∀ key ∈ args.head?, acl (utf8 "DEL") (some key) = true) ∧
      (toAsciiUppercase cmd = utf8 "EXISTS" → ∀ key ∈ args.tail, acl (utf8 "EXISTS") (some key) = true)

variable {env : Env} {acl : AclCheck} {cmd : Bytes} {args : List Bytes} {s : CacheStorage} {k : Bytes}

/-- A call that the check refuses touches nothing. -/
theorem acl_of_touches (h : Touches (redisCallBridge env acl cmd args) s k) :
    acl (toAsciiUppercase cmd) args.head? = true := by
  by_contra hacl
  have hrefused : ∀ t, redisCallBridge env acl cmd args t
      = ((.error (utf8 "NOPERM this user has no permissions to run the '" ++
          Lua.toLowercase (toAsciiUppercase cmd) ++ utf8 "' command"), []), t) := by
    intro t
    unfold redisCallBridge
    simp only [if_pos (Bool.eq_false_of_not_eq_true hacl)]
  rcases h with ⟨slot, hreply⟩ | halters
  · exact hreply (by rw [hrefused, hrefused])
  · exact halters (by rw [hrefused])

/-- A call past the check is its arm. -/
theorem redisCallBridge_eq {op : BridgeOp} (hacl : acl (toAsciiUppercase cmd) args.head? = true)
    (hop : bridgeOp (toAsciiUppercase cmd) = some op) : redisCallBridge env acl cmd args = bridgeArm env op args := by
  funext t
  unfold redisCallBridge
  simp only [hacl, hop, Bool.true_eq_false, if_false]

omit [Lua] in
/-- With too few arguments an arm refuses. -/
theorem bridgeArm_refuses (env : Env) {op : BridgeOp} (h : op.command args = none) :
    ∃ text, ∀ t : CacheStorage, bridgeArm env op args t = ((.error text, []), t) := by
  cases op <;> rcases args with _ | ⟨a, _ | ⟨b, _ | ⟨d, rest⟩⟩⟩ <;>
    first | exact ⟨_, fun t => rfl⟩ | cases h

/-- A call that performs no command touches nothing. -/
theorem command_of_touches (h : Touches (redisCallBridge env acl cmd args) s k) :
    ∃ op c, bridgeOp (toAsciiUppercase cmd) = some op ∧ op.command args = some c := by
  have hacl := acl_of_touches h
  cases hop : bridgeOp (toAsciiUppercase cmd) with
  | none =>
      exfalso
      have hunknown : ∀ t, redisCallBridge env acl cmd args t
          = ((.error (utf8 "ERR redis.call: '" ++ cmd ++ utf8 "' not implemented in scripting bridge"), []), t) := by
        intro t
        unfold redisCallBridge
        simp only [hacl, hop, Bool.true_eq_false, if_false]
      rcases h with ⟨slot, hreply⟩ | halters
      · exact hreply (by rw [hunknown, hunknown])
      · exact halters (by rw [hunknown])
  | some op =>
      rw [redisCallBridge_eq hacl hop] at h
      cases hc : op.command args with
      | some c => exact ⟨op, c, rfl, hc⟩
      | none =>
          exfalso
          obtain ⟨text, hrefuses⟩ := bridgeArm_refuses env hc
          rcases h with ⟨slot, hreply⟩ | halters
          · exact hreply (by rw [hrefuses, hrefuses])
          · exact halters (by rw [hrefuses])

omit [Lua] in
/-- A call other than `EXISTS` touches its first argument only. -/
theorem head_of_touches {op : BridgeOp} (hop : op ≠ .exists) (h : Touches (bridgeArm env op args) s k) :
    args.head? = some k := by
  have hmem := (bridgeArm_local env hop args).mem_of_touches h
  cases args with
  | nil => cases hmem
  | cons a rest => rw [List.mem_singleton.mp hmem, List.head?_cons]

omit [Lua] in
/-- More live keys, a larger count. -/
theorem existsCount_lt {now : Instant} {keys : List Bytes} {t : CacheStorage}
    (hle : ∀ x, (s.live now x).isSome = true → (t.live now x).isSome = true) (hk : k ∈ keys)
    (hs : (s.live now k).isSome = false) (ht : (t.live now k).isSome = true) :
    s.existsCount now keys < t.existsCount now keys := by
  obtain ⟨before, after, rfl⟩ := List.append_of_mem hk
  unfold CacheStorage.existsCount
  simp only [← List.countP_eq_length_filter, List.countP_append, List.countP_cons, hs, ht]
  have hbefore := List.countP_mono_left (l := before) (fun x _ h => hle x h)
  have hafter := List.countP_mono_left (l := after) (fun x _ h => hle x h)
  simp only [Bool.false_eq_true, if_false, if_true]
  omega

omit [Lua] in
/-- `EXISTS` looks at every argument. -/
theorem looksAt_exists (hk : k ∈ args) : LooksAt (bridgeArm env .exists args) s k := by
  -- an entry that is live where there was none, or none where one was live
  have hother : ∀ slot x, x ≠ k → (s.setEntry k slot).live env.now x = s.live env.now x := by
    intro slot x hx
    rw [CacheStorage.live_setEntry, if_neg hx]
  have hdiffers : ∀ t : CacheStorage, t.existsCount env.now args ≠ s.existsCount env.now args →
      (bridgeArm env .exists args t).1 ≠ (bridgeArm env .exists args s).1 := by
    intro t hne h
    have hcount : (Response.integer (t.existsCount env.now args)) = .integer (s.existsCount env.now args) :=
      congrArg Prod.fst h
    injection hcount with hcount
    exact hne (Int.ofNat.inj hcount)
  cases hlive : (s.live env.now k).isSome with
  | true =>
      refine ⟨none, hdiffers _ (Nat.ne_of_lt ?_)⟩
      refine existsCount_lt (fun x hx => ?_) hk ?_ hlive
      · by_cases hxk : x = k
        · rw [hxk]
          exact hlive
        · rw [← hother none x hxk]
          exact hx
      · rw [CacheStorage.live_setEntry, if_pos rfl]
        rfl
  | false =>
      have hset : ((s.setEntry k (some (.string [] none))).live env.now k).isSome = true := by
        rw [CacheStorage.live_setEntry, if_pos rfl]
        rfl
      refine ⟨some (.string [] none), hdiffers _ (Nat.ne_of_gt ?_)⟩
      refine existsCount_lt (fun x hx => ?_) hk hlive hset
      by_cases hxk : x = k
      · rw [hxk]
        exact hset
      · rw [hother _ x hxk]
        exact hx

omit [Lua] in
/-- `DEL` looks at its key. -/
theorem looksAt_del (rest : List Bytes) : LooksAt (bridgeArm env .del (k :: rest)) s k := by
  have hreply : ∀ t : CacheStorage, (bridgeArm env .del (k :: rest) t).1.1
      = .integer (if (t.slotAt k).isSome then 1 else 0) := fun t => rfl
  cases hslot : s.slotAt k with
  | none =>
      refine ⟨some (.string [] none), fun h => ?_⟩
      have h := congrArg Prod.fst h
      rw [hreply, hreply, hslot, CacheStorage.slotAt_setEntry_self] at h
      cases h
  | some v =>
      refine ⟨none, fun h => ?_⟩
      have h := congrArg Prod.fst h
      rw [hreply, hreply, hslot, CacheStorage.slotAt_setEntry_self] at h
      cases h

/-- **When a script stays within its caller's rights.** -/
theorem scriptAccess_iff (env : Env) (acl : AclCheck) (cmd : Bytes) (args : List Bytes) (s : CacheStorage) :
    WithinRights env acl cmd args s ↔ CheckCovers acl cmd args := by
  constructor
  · intro h hacl
    constructor
    · intro hdelete key hkey
      have hop : bridgeOp (toAsciiUppercase cmd) = some .del := by rw [hdelete, bridgeOp_delete]
      cases args with
      | nil => cases hkey
      | cons a rest =>
          cases hkey
          obtain ⟨c, hc, hright⟩ := h key (by
            rw [redisCallBridge_eq hacl hop]
            exact Or.inl (looksAt_del rest))
          rw [bridgeCommand, hop] at hc
          cases hc
          exact hright
    · intro hexists key hkey
      have hop : bridgeOp (toAsciiUppercase cmd) = some .exists := by rw [hexists, bridgeOp_of_exists]
      obtain ⟨c, hc, hright⟩ := h key (by
        rw [redisCallBridge_eq hacl hop]
        exact Or.inl (looksAt_exists (List.mem_of_mem_tail hkey)))
      rw [bridgeCommand, hop] at hc
      cases hc
      exact hright
  · intro h k htouch
    have hacl := acl_of_touches htouch
    obtain ⟨hdelete, hexists⟩ := h hacl
    obtain ⟨op, c, hop, hc⟩ := command_of_touches htouch
    refine ⟨c, by rw [bridgeCommand, hop]; exact hc, ?_⟩
    rw [commandName_command hc]
    rw [redisCallBridge_eq hacl hop] at htouch
    by_cases hex : op = .exists
    · -- every argument: the first by the check, the others by the condition
      rw [hex] at hop htouch ⊢
      have hname := bridgeOp_exists hop
      have hmem := (bridgeArm_exists_local env args).mem_of_touches htouch
      cases args with
      | nil => cases hmem
      | cons a rest =>
          rcases List.mem_cons.mp hmem with rfl | hrest
          · rw [hname] at hacl
            exact hacl
          · exact hexists hname k hrest
    · have hhead := head_of_touches hex htouch
      rcases bridgeOp_name hop with hname | ⟨hname, rfl⟩
      · rw [hname, hhead] at hacl
        exact hacl
      · exact hdelete hname k hhead

end Access

/-- A user who may not `DEL` deletes, and one who may ask for `a` only learns of `b`. -/
theorem script_deletes_and_looks_beyond :
    let _ := smallKeys
    let _ := noScripts
    let env := Env.reading (durationSecs 1)
    let noDel : AclCheck := fun name _ => name != utf8 "DEL"
    let onlyA : AclCheck := fun _ key => key == some (utf8 "a")
    ¬ WithinRights env noDel (utf8 "delete") [utf8 "k"] CacheStorage.new ∧
      ¬ WithinRights env onlyA (utf8 "EXISTS") [utf8 "a", utf8 "b"] CacheStorage.new := by
  intro _ _ env noDel onlyA
  constructor
  · intro h
    have hbridge : redisCallBridge env noDel (utf8 "delete") [utf8 "k"] = bridgeArm env .del [utf8 "k"] :=
      redisCallBridge_eq (by decide) (by decide)
    obtain ⟨c, hc, hright⟩ := h (utf8 "k") (by
      rw [hbridge]
      exact Or.inl (looksAt_del []))
    have hdel : bridgeCommand (utf8 "delete") [utf8 "k"] = some (.delete (utf8 "k")) := rfl
    cases hdel.symm.trans hc
    exact absurd hright (by decide)
  · intro h
    have hbridge : redisCallBridge env onlyA (utf8 "EXISTS") [utf8 "a", utf8 "b"]
        = bridgeArm env .exists [utf8 "a", utf8 "b"] :=
      redisCallBridge_eq (by decide) (by decide)
    obtain ⟨c, hc, hright⟩ := h (utf8 "b") (by
      rw [hbridge]
      exact Or.inl (looksAt_exists (by decide)))
    exact absurd hright (by simp only [onlyA]; decide)

end FerricCache
