import FerricCache.Server.Requests

/-!
# `FerricCache.Security.Confinement` — key patterns and the keys a command really touches

The ACL gate asks the rules about one key, the command's primary key, and the bridge of the scripts about the
first argument. A user is confined to the keys of the rules' patterns (`confined_of_aside`) as long as no
command that is dispatched reaches a key outside them in another position: as one of the keys of `MGET`,
`MSET`, `EXISTS`, the set algebra or `XREAD`, as the destination of `RPOPLPUSH` or `SMOVE`, as the new name of
`RENAME`, or as a later argument of a script's `EXISTS`.
-/

namespace FerricCache

open Lib.Run

variable [KeyHash] [Lua] [Codec] {cfg : ServerConfig} {am : AuthManager}

/-! ## Servers that differ at one key -/

omit [Lua] [Codec] in
/-- The storages agree on every other key. -/
def AgreeOff (k : Bytes) (s t : CacheStorage) : Prop := ∀ k', k' ≠ k → s.slotAt k' = t.slotAt k'

omit [Lua] [Codec] in
/-- An operation that does not look at the key replies the same, and leaves both storages' entries there
    alone. -/
theorem LocalTo.off {α : Type} {keys : List Bytes} {g : CacheStorage → α × CacheStorage}
    (hg : LocalTo (some keys) g) {k : Bytes} (hk : k ∉ keys) {s t : CacheStorage} (h : AgreeOff k s t) :
    (g s).1 = (g t).1 ∧ AgreeOff k (g s).2 (g t).2 ∧ (g s).2.slotAt k = s.slotAt k := by
  have hkeys : AgreeOn (some keys) s t := fun k' hk' => h k' fun he => hk (he ▸ hk')
  refine ⟨hg.reply s t hkeys, ?_, hg.frame s k keys rfl hk⟩
  intro k' hne
  by_cases hk' : k' ∈ keys
  · exact hg.agree s t hkeys k' hk'
  · rw [hg.frame s k' keys rfl hk', hg.frame t k' keys rfl hk', h k' hne]

/-- The servers differ in the entry at `k` only, which is `v` in one and `v'` in the other. -/
structure OffBy (k : Bytes) (v v' : Slot) (srv srv' : Server) : Prop where
  rest : srv' = { srv with storage := srv'.storage }
  agree : AgreeOff k srv.storage srv'.storage
  here : srv.storage.slotAt k = v
  there : srv'.storage.slotAt k = v'

section OffBy

variable {k : Bytes} {v v' : Slot} {srv srv' : Server}

omit [Lua] [Codec] in
theorem AgreeOff.symm {s t : CacheStorage} (h : AgreeOff k s t) : AgreeOff k t s :=
  fun k' hne => (h k' hne).symm

omit [Lua] [Codec] in
/-- An operation on the storage that does not look at the key. -/
theorem OffBy.onStorage {α : Type} {keys : List Bytes} {g : CacheStorage → α × CacheStorage}
    (h : OffBy k v v' srv srv') (hg : LocalTo (some keys) g) (hk : k ∉ keys) :
    (g srv'.storage).1 = (g srv.storage).1 ∧
      OffBy k v v' { srv with storage := (g srv.storage).2 } { srv' with storage := (g srv'.storage).2 } := by
  obtain ⟨hreply, hagree, hhere⟩ := hg.off hk h.agree
  obtain ⟨-, -, hthere⟩ := hg.off hk h.agree.symm
  refine ⟨hreply.symm, ?_, hagree, hhere.trans h.here, hthere.trans h.there⟩
  rw [h.rest]

omit [Lua] in
theorem OffBy.logWrite (h : OffBy k v v' srv srv') (timestamp : UInt64) (c : Command) :
    OffBy k v v' (srv.logWrite timestamp c) (srv'.logWrite timestamp c) := by
  refine ⟨?_, h.agree, h.here, h.there⟩
  rw [h.rest]
  rfl

omit [Lua] in
theorem OffBy.persistScriptWrites (h : OffBy k v v' srv srv') (stamp : Nat → UInt64) (n : Nat)
    (ws : List Command) :
    OffBy k v v' (srv.persistScriptWrites stamp n ws) (srv'.persistScriptWrites stamp n ws) := by
  induction ws generalizing srv srv' n with
  | nil => exact h
  | cons w ws ih => exact ih (h.logWrite _ w) (n + 1)

end OffBy

/-! ## Scripts -/

/-- The calls the rules see in full: the key is not named, or is the first argument. -/
def CallAside (k : Bytes) (cmd : Bytes) (args : List Bytes) : Prop :=
  k ∈ bridgeKeys cmd args → args.head? = some k

omit [Codec] in
/-- A run of a script whose rules refuse the key as a first argument. -/
theorem runScript_off {k : Bytes} {acl : AclCheck} (hacl : ∀ cmd, acl cmd (some k) = false)
    (envs : Nat → Env) (script : Script) (n : Nat) (s t : CacheStorage) (h : AgreeOff k s t)
    (hcalls : CallsMade (CallAside k) envs acl n script s) :
    (runScript envs acl n script s).1 = (runScript envs acl n script t).1 ∧
      AgreeOff k (runScript envs acl n script s).2 (runScript envs acl n script t).2 ∧
      (runScript envs acl n script s).2.slotAt k = s.slotAt k ∧
      (runScript envs acl n script t).2.slotAt k = t.slotAt k := by
  induction script generalizing n s t with
  | done r => exact ⟨rfl, h, rfl, rfl⟩
  | call cmd args next ih =>
      obtain ⟨haside, hrest⟩ := hcalls
      -- either the call is refused, whatever the storage, or it does not look at the key
      have hcall : (redisCallBridge (envs n) acl cmd args s).1 = (redisCallBridge (envs n) acl cmd args t).1 ∧
          AgreeOff k (redisCallBridge (envs n) acl cmd args s).2 (redisCallBridge (envs n) acl cmd args t).2 ∧
          (redisCallBridge (envs n) acl cmd args s).2.slotAt k = s.slotAt k ∧
          (redisCallBridge (envs n) acl cmd args t).2.slotAt k = t.slotAt k := by
        by_cases hk : k ∈ bridgeKeys cmd args
        · have hrefuse : acl (toAsciiUppercase cmd) args.head? = false := by
            rw [haside hk]
            exact hacl _
          obtain ⟨r, hr⟩ : ∃ r, ∀ u : CacheStorage, redisCallBridge (envs n) acl cmd args u = (r, u) :=
            ⟨_, fun u => if_pos hrefuse⟩
          rw [hr s, hr t]
          exact ⟨rfl, h, rfl, rfl⟩
        · obtain ⟨hreply, hagree, hs⟩ := (redisCallBridge_local (envs n) acl cmd args).off hk h
          exact ⟨hreply, hagree, hs, ((redisCallBridge_local (envs n) acl cmd args).off hk h.symm).2.2⟩
      obtain ⟨hreply, hagree, hs, ht⟩ := hcall
      obtain ⟨hr, ha, hs', ht'⟩ := ih _ (n + 1) _ _ hagree hrest
      rw [hreply] at hr ha hs' ht'
      simp only [runScript, hreply]
      exact ⟨by rw [hr], ha, hs'.trans hs, ht'.trans ht⟩

/-- The script a command loads. -/
def loadedScript (srv : Server) : Command → Option (Bytes × List Bytes × List Bytes)
  | .luaEval script keys argv => some (script, keys, argv)
  | .luaEvalSha sha1 keys argv => srv.scripts[sha1.map F64.lowerAscii]?.map fun source => (source, keys, argv)
  | _ => none

/-! ## Dispatched commands -/

/-- The command is dispatched for `name`, works on listed keys, and names `k` at most as the key the rules are
    asked about; so do the calls of the script it loads. -/
structure Aside (cfg : ServerConfig) (name k : Bytes) (rd : Readings) (c : Command) (srv : Server)
    (conn : ConnState) : Prop where
  user : conn.authedUser = some name
  keyed : footprint c ≠ none
  named : ∀ keys, footprint c = some keys → k ∈ keys → commandKey c = some k
  calls : ∀ source keys argv, loadedScript srv c = some (source, keys, argv) →
    CallsMade (CallAside k) rd.call (buildScriptAcl cfg.auth conn.authedUser) 0
      (Lua.eval rd.env source keys argv) srv.storage

section Barred

variable {name k : Bytes} {user : User} (hauth : cfg.auth = some am) (hreq : am.requireAuth = true)
  (huser : am.users name = some user) (hadmin : user.isAdmin = false) (hbarred : user.Barred (lossy k))

include hreq huser hadmin hbarred

omit [KeyHash] [Lua] [Codec] in
/-- The rules refuse every command on the key. -/
theorem checkPermission_barred (command : Bytes) :
    am.checkPermission name command (some (lossy k)) = false := by
  simp only [AuthManager.checkPermission, hreq, huser, hbarred.denied hadmin]
  rfl

include hauth

omit [Lua] [Codec] in
/-- The gates refuse every command whose primary key it is. -/
theorem commandKey_ne_of_gate_none {conn : ConnState} {c : Command} (hname : conn.authedUser = some name)
    (h : gate cfg conn c = none) : commandKey c ≠ some k := by
  intro hkey
  have hgate := (Option.or_eq_none_iff.mp h).2
  have hexempt : gateExempt c = false := by
    cases c <;> first | rfl | cases hkey
  rw [hauth, hname] at hgate
  simp [authGate, hexempt, hkey, checkPermission_barred hreq huser hadmin hbarred] at hgate

omit [KeyHash] [Lua] [Codec] in
/-- The bridge refuses every call whose first argument it is. -/
theorem buildScriptAcl_barred {authedUser : Option Bytes} (hname : authedUser = some name) (cmd : Bytes) :
    buildScriptAcl cfg.auth authedUser cmd (some k) = false := by
  rw [hauth, hname]
  simp only [buildScriptAcl, hreq, if_true, Option.map_some]
  exact checkPermission_barred hreq huser hadmin hbarred cmd

/-- A script run for the user. -/
theorem runLoaded_off {v v' : Slot} {srv srv' : Server} {conn : ConnState} {rd : Readings} {source : Bytes}
    {keys argv : List Bytes} (h : OffBy k v v' srv srv') (hname : conn.authedUser = some name)
    (hcalls : CallsMade (CallAside k) rd.call (buildScriptAcl cfg.auth conn.authedUser) 0
      (Lua.eval rd.env source keys argv) srv.storage) :
    ∃ srv'', runLoaded cfg rd source keys argv srv' conn
        = ((runLoaded cfg rd source keys argv srv conn).1, srv'',
          (runLoaded cfg rd source keys argv srv conn).2.2) ∧
      OffBy k v v' (runLoaded cfg rd source keys argv srv conn).2.1 srv'' := by
  obtain ⟨hreply, hagree, hhere, hthere⟩ := runScript_off
    (buildScriptAcl_barred hauth hreq huser hadmin hbarred hname) rd.call _ 0 _ _ h.agree hcalls
  refine ⟨(runLoaded cfg rd source keys argv srv' conn).2.1, ?_, ?_⟩
  · simp only [runLoaded, hreply]
  · simp only [runLoaded, hreply]
    apply OffBy.persistScriptWrites
    refine ⟨?_, hagree, hhere.trans h.here, hthere.trans h.there⟩
    rw [h.rest]

/-- **One dispatched command keeps two servers in step** that differ at the key only. -/
theorem executePlain_off {v v' : Slot} {srv srv' : Server} {conn : ConnState} {rd : Readings}
    {c : QueuedCommand} (h : OffBy k v v' srv srv')
    (hP : gate cfg conn c = none → Aside cfg name k rd c srv conn) :
    ∃ srv'', executePlain cfg rd c srv' conn
        = ((executePlain cfg rd c srv conn).1, srv'', (executePlain cfg rd c srv conn).2.2) ∧
      OffBy k v v' (executePlain cfg rd c srv conn).2.1 srv'' := by
  obtain ⟨c, htx⟩ := c
  cases hg : gate cfg conn c with
  | some r =>
      simp only [executePlain, hg]
      exact ⟨srv', rfl, h⟩
  | none =>
      obtain ⟨hname, hkeyed, hnamed, hcalls⟩ := hP hg
      obtain ⟨keys, hkeys⟩ := Option.ne_none_iff_exists'.mp hkeyed
      have hk : k ∉ keys := fun hmem =>
        commandKey_ne_of_gate_none hauth hreq huser hadmin hbarred hname hg (hnamed keys hkeys hmem)
      by_cases hs : sessionCommand c = false
      · obtain ⟨a, ha⟩ := arm_isSome rd.env htx hs
        have hlocal := hkeys ▸ arm_local ha
        by_cases hw : isWriteCommand c = true
        · obtain ⟨hreply, hoff⟩ := (h.logWrite rd.env.unixMs c).onStorage hlocal hk
          simp only [executePlain, hg, hw, if_true, perform_arm ha]
          exact ⟨_, by rw [hreply], hoff⟩
        · obtain ⟨hreply, hoff⟩ := h.onStorage hlocal hk
          simp only [executePlain, hg, hw, Bool.false_eq_true, if_false, perform_arm ha]
          exact ⟨_, by rw [hreply], hoff⟩
      · -- the servers share everything these arms look at, except the storage a script sees
        have hpub : srv'.pubsub = srv.pubsub := by rw [h.rest]
        have hscripts : srv'.scripts = srv.scripts := by rw [h.rest]
        cases c with
        | luaEval script keys argv =>
            have hstored : OffBy k v v'
                { srv with scripts := srv.scripts.insert (Lua.sha1Hex script) script }
                { srv' with scripts := srv'.scripts.insert (Lua.sha1Hex script) script } := by
              refine ⟨?_, h.agree, h.here, h.there⟩
              rw [h.rest]
            simp only [executePlain, hg, isWriteCommand, Bool.false_eq_true, if_false, perform]
            exact runLoaded_off hauth hreq huser hadmin hbarred hstored hname (hcalls script keys argv rfl)
        | luaEvalSha sha1 keys argv =>
            simp only [executePlain, hg, isWriteCommand, Bool.false_eq_true, if_false, perform, hscripts]
            cases hsource : srv.scripts[sha1.map F64.lowerAscii]? with
            | none => exact ⟨srv', rfl, h⟩
            | some source =>
                refine runLoaded_off hauth hreq huser hadmin hbarred h hname (hcalls source keys argv ?_)
                simp only [loadedScript, hsource, Option.map_some]
        | publish channel payload =>
            simp only [executePlain, hg, isWriteCommand, Bool.false_eq_true, if_false, perform, hpub]
            exact ⟨_, rfl, by rw [h.rest], h.agree, h.here, h.there⟩
        | subscribe channels =>
            simp only [executePlain, hg, isWriteCommand, Bool.false_eq_true, if_false, perform, hpub]
            exact ⟨_, rfl, by rw [h.rest], h.agree, h.here, h.there⟩
        | unsubscribe channels =>
            simp only [executePlain, hg, isWriteCommand, Bool.false_eq_true, if_false, perform, hpub]
            exact ⟨_, rfl, by rw [h.rest], h.agree, h.here, h.there⟩
        | auth username password =>
            obtain ⟨r, user', hkeeps⟩ := authArm_keeps cfg.auth username password conn
            simp only [executePlain, hg, isWriteCommand, Bool.false_eq_true, if_false, perform, hkeeps]
            exact ⟨srv', rfl, h⟩
        | _ => exact absurd rfl hs

end Barred

/-! ## Whole runs -/

/-- The connection, on a server with other contents. -/
def Connection.onStorage (x : Connection) (s : CacheStorage) : Connection :=
  { x with server := { x.server with storage := s } }

/-- The requests leave the entry at `k` alone, and are answered the same from any storage that differs from
    the server's at `k` only. -/
def Confined (cfg : ServerConfig) (k : Bytes) (x : Connection) (reqs : List Request) : Prop :=
  ∀ x', run (Connection.step cfg) x reqs = some x' →
    x'.server.storage.slotAt k = x.server.storage.slotAt k ∧
    ∀ s, AgreeOff k x.server.storage s →
      ∃ y', run (Connection.step cfg) (x.onStorage s) reqs = some y' ∧ y'.replies = x'.replies

/-- **Key patterns confine a user** as long as every command dispatched on the way, directly, by `EXEC` or
    through a script, names a key outside them at most where the rules look. -/
theorem confined_of_aside (cfg : ServerConfig) (am : AuthManager) (hauth : cfg.auth = some am)
    (hreq : am.requireAuth = true) (name : Bytes) (user : User) (huser : am.users name = some user)
    (hadmin : user.isAdmin = false) (k : Bytes) (hbarred : user.Barred (lossy k)) (x : Connection)
    (reqs : List Request)
    (haside : Along (Connection.step cfg) (fun y req => Meets (Aside cfg name k) cfg req y.server y.conn)
      x reqs) :
    Confined cfg k x reqs := by
  intro x' hrun
  have hpair : ∀ s, AgreeOff k x.server.storage s → ∃ y',
      run (Connection.step cfg) (x.onStorage s) reqs = some y' ∧
        (OffBy k (x.server.storage.slotAt k) (s.slotAt k) x'.server y'.server ∧ y'.conn = x'.conn ∧
          y'.replies = x'.replies ∧ y'.alive = x'.alive) := by
    intro s hs
    refine run_related (P := fun y req => Meets (Aside cfg name k) cfg req y.server y.conn)
      (R := fun (y z : Connection) => OffBy k (x.server.storage.slotAt k) (s.slotAt k) y.server z.server ∧
        z.conn = y.conn ∧ z.replies = y.replies ∧ z.alive = y.alive) ?_ reqs x _ x' haside hrun
      ⟨⟨rfl, hs, rfl, rfl⟩, rfl, rfl, rfl⟩
    rintro y z req y' ⟨hoff, hconn, hreplies, halive⟩ hmeets hstep
    unfold Connection.step at hstep ⊢
    split at hstep
    · rename_i hlive
      cases hstep
      obtain ⟨last, hlast, hR⟩ := execute_related (P := Aside cfg name k)
        (R := fun srv srv' _ => OffBy k (x.server.storage.slotAt k) (s.slotAt k) srv srv')
        (fun rd c srv srv' conn h hP => executePlain_off hauth hreq huser hadmin hbarred h hP)
        (fun srv srv' conn tx h => h) (fun srv srv' conn h => by rw [h.rest]) hoff hmeets
      refine ⟨_, if_pos (halive.trans hlive), ?_⟩
      rw [hconn, hlast]
      exact ⟨hR, rfl, by rw [hreplies], rfl⟩
    · cases hstep
  constructor
  · obtain ⟨y', -, hoff, -⟩ := hpair x.server.storage fun _ _ => rfl
    exact hoff.here
  · intro s hs
    obtain ⟨y', hy, -, -, hreplies, -⟩ := hpair s hs
    exact ⟨y', hy, hreplies⟩

omit [KeyHash] [Lua] [Codec] in
/-- A user of every command, on keys that start with `a`. -/
def keysOfA : AuthManager where
  users name :=
    if name = utf8 "app" then
      some ⟨fun p => p == utf8 "secret", [⟨[.allCommands], [utf8 "a*"]⟩], false⟩
    else none
  requireAuth := true

omit [KeyHash] [Lua] [Codec] in
theorem barred_keysOfA {user : User} (h : keysOfA.users (utf8 "app") = some user) :
    user.Barred (lossy (utf8 "k")) := by
  cases h
  intro rule hrule
  fin_cases hrule
  decide

omit [KeyHash] [Lua] [Codec] in
/-- The rules refuse `SET k v`, and nothing else is asked for. -/
theorem confined_of_aside_set :
    let _ := shortKeys
    let _ := noScripts
    let _ := incrCodec
    Confined ⟨some keysOfA, none, none⟩ (utf8 "k")
      (Connection.open Server.fresh { ConnState.new with authedUser := some (utf8 "app") })
      [.plain 0 (.set (utf8 "k") (utf8 "v") none)] := by
  intro _ _ _
  refine confined_of_aside _ keysOfA rfl rfl (utf8 "app") _ rfl rfl (utf8 "k") (barred_keysOfA rfl) _ _ ?_
  refine ⟨?_, fun _ _ => trivial⟩
  intro _ _
  refine ⟨rfl, by decide, ?_, ?_⟩
  · intro keys hkeys hk
    rfl
  · intro source keys argv h
    cases h

omit [KeyHash] [Lua] [Codec] in
/-- `MSET k v` has no primary key, so the rules are never asked about `k`. -/
theorem mset_leaves_confinement :
    let _ := shortKeys
    let _ := noScripts
    let _ := incrCodec
    (∃ user, keysOfA.users (utf8 "app") = some user ∧ user.isAdmin = false ∧
      user.Barred (lossy (utf8 "k"))) ∧
    ¬ Confined ⟨some keysOfA, none, none⟩ (utf8 "k")
      (Connection.open Server.fresh { ConnState.new with authedUser := some (utf8 "app") })
      [.plain 0 (.mset [(utf8 "k", utf8 "v")])] := by
  intro _ _ _
  refine ⟨⟨_, rfl, rfl, barred_keysOfA rfl⟩, fun h => ?_⟩
  obtain ⟨hkept, -⟩ := h _ rfl
  revert hkept
  decide

end FerricCache
