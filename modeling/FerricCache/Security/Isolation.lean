import FerricCache.Server.Requests

/-!
# `FerricCache.Security.Isolation` — connections without a user, and users who may only read

Two consequences of the order of the gates. A connection that never authenticates gets a reply that does not
depend on the server, and leaves no trace (`unauthenticated_inert`): the queueing gate comes first, so the
invariant is that such a connection is not in `MULTI`. A user whose rules grant `ReadCommands` only leaves the
server as it was (`readOnly_inert`): the rules' list of read commands names no write, and neither `MULTI` nor
`EXEC` nor a script.
-/

namespace FerricCache

open Lib.Run

variable [KeyHash] [Lua] [Codec] {cfg : ServerConfig} {am : AuthManager}

/-! ## Connections without a user -/

omit [KeyHash] [Lua] [Codec] in
theorem exempt_cases {c : Command} (h : gateExempt c = true) :
    (∃ username password, c = .auth username password) ∨ c = .ping := by
  cases c with
  | auth username password => exact Or.inl ⟨username, password, rfl⟩
  | ping => exact Or.inr rfl
  | _ => cases h

omit [Lua] [Codec] in
/-- Without a user, what passes the gates is exempt from them. -/
theorem gateExempt_of_gate_none {conn : ConnState} {c : Command} (hauth : cfg.auth = some am)
    (hreq : am.requireAuth = true) (huser : conn.authedUser = none) (h : gate cfg conn c = none) :
    gateExempt c = true := by
  have hgate := (Option.or_eq_none_iff.mp h).2
  rw [hauth, huser] at hgate
  by_contra hne
  simp [authGate, hreq, hne] at hgate

/-- No `AUTH` among the requests succeeds. -/
def NeverAuthenticates (am : AuthManager) (req : Request) : Prop :=
  ∀ username password, req.command = .auth username password →
    am.authenticate (authName username) (lossy password) = false

/-- **An unauthenticated request is answered without looking at the server**, and changes nothing. -/
theorem execute_unauthenticated (conn : ConnState) {req : Request} (hauth : cfg.auth = some am)
    (hreq : am.requireAuth = true) (huser : conn.authedUser = none) (hqueue : conn.tx.queue = none)
    (hfail : NeverAuthenticates am req) :
    ∃ r, ∀ srv : Server, execute cfg req srv conn = (some r, srv, conn) := by
  have hmulti : conn.tx.inMulti = false := by rw [TxState.inMulti, hqueue]; rfl
  cases hg : gate cfg conn req.command with
  | some r =>
      refine ⟨r, fun srv => ?_⟩
      unfold execute
      split
      · simp only [hmulti, Bool.false_eq_true, if_false, executePlain, hg]
      · simp only [hg]
  | none =>
      -- only `AUTH` and `PING` get here, and neither is transaction control or a write
      rcases exempt_cases (gateExempt_of_gate_none hauth hreq huser hg) with ⟨username, password, hc⟩ | hc
      · have hwrong : am.authenticate (authName username) (lossy password) = false :=
          hfail username password hc
        refine ⟨wrongPass, fun srv => ?_⟩
        obtain ⟨command, readings, queued⟩ := req
        subst hc
        simp only [execute, txControl, hmulti, executePlain, hg, isWriteCommand, perform, authArm, hauth,
          hwrong, Bool.false_eq_true, if_false]
      · refine ⟨.value (utf8 "PONG"), fun srv => ?_⟩
        obtain ⟨command, readings, queued⟩ := req
        subst hc
        simp only [execute, txControl, hmulti, executePlain, hg, isWriteCommand, Bool.false_eq_true, if_false]
        rfl

/-- **Unauthenticated connections learn and change nothing.** On a fresh connection on which no `AUTH`
    succeeds, every request up to any point is served with the same replies whatever the server holds, and
    leaves the server and the connection's state, transaction and user included, as they were. -/
theorem unauthenticated_inert (cfg : ServerConfig) (am : AuthManager) (hauth : cfg.auth = some am)
    (hreq : am.requireAuth = true) (reqs : List Request) (hfail : ∀ req ∈ reqs, NeverAuthenticates am req)
    (pre : List Request) (hpre : pre <+: reqs) :
    ∃ replies, ∀ srv : Server, run (Connection.step cfg) (Connection.open srv ConnState.new) pre
      = some ⟨srv, ConnState.new, replies, true⟩ := by
  have hserve : ∀ (reqs : List Request) (before : List Response),
      (∀ req ∈ reqs, NeverAuthenticates am req) →
      ∃ replies, ∀ srv : Server, run (Connection.step cfg) ⟨srv, ConnState.new, before, true⟩ reqs
        = some ⟨srv, ConnState.new, replies, true⟩ := by
    intro reqs
    induction reqs with
    | nil =>
        intro before _
        exact ⟨before, fun srv => rfl⟩
    | cons req reqs ih =>
        intro before hfail
        obtain ⟨r, hr⟩ := execute_unauthenticated ConnState.new hauth hreq rfl rfl
          (hfail req (List.mem_cons_self ..))
        obtain ⟨replies, hrest⟩ := ih (before ++ [r]) fun q hq => hfail q (List.mem_cons_of_mem _ hq)
        refine ⟨replies, fun srv => run_cons.mpr ⟨_, ?_, hrest srv⟩⟩
        simp only [Connection.step, if_true, hr srv, Option.toList, Option.isSome]
  exact hserve pre [] fun req hmem => hfail req (hpre.subset hmem)

omit [KeyHash] [Lua] [Codec] in
/-- An administrator's account and a reader's, both with the password `secret`. -/
def twoUsers : AuthManager where
  users name :=
    if name = utf8 "admin" then some ⟨fun p => p == utf8 "secret", [], true⟩
    else if name = utf8 "reader" then
      some ⟨fun p => p == utf8 "secret", [⟨[.readCommands], [utf8 "*"]⟩], false⟩
    else none
  requireAuth := true

omit [KeyHash] [Lua] [Codec] in
theorem unauthenticated_inert_guesses :
    let _ := shortKeys
    let _ := noScripts
    let _ := incrCodec
    ∃ replies, ∀ srv : Server,
      run (Connection.step ⟨some twoUsers, none, none⟩) (Connection.open srv ConnState.new)
        [.plain 0 (.auth none (utf8 "guess")), .plain 1 .multi, .plain 2 (.set (utf8 "k") (utf8 "v") none)]
      = some ⟨srv, ConnState.new, replies, true⟩ := by
  intro _ _ _
  refine unauthenticated_inert _ twoUsers rfl rfl _ ?_ _ (List.prefix_refl _)
  intro req hreq username password hc
  fin_cases hreq
  · cases hc
    decide
  · cases hc
  · cases hc

/-! ## Users who may only read -/

omit [KeyHash] [Lua] [Codec] in
/-- The rules' read list names no transaction control. -/
theorem txControl_of_isReadCommand {c : Command}
    (h : ACLRule.isReadCommand (toUppercase (commandName c)) = true) : txControl c = none := by
  cases c <;> first | rfl | exact absurd h (by simp only [commandName]; decide)

omit [Lua] [Codec] in
/-- The rules' read list names commands that read the storage. -/
theorem reads_of_isReadCommand {c : Command}
    (h : ACLRule.isReadCommand (toUppercase (commandName c)) = true) (env : Env) :
    isWriteCommand c = false ∧ ∃ a, arm env c = some a := by
  cases c <;> first | exact ⟨rfl, _, rfl⟩ | exact absurd h (by simp only [commandName]; decide)

/-- A command that is not a write and has a storage arm leaves the server alone. -/
theorem executePlain_read {rd : Readings} {c : QueuedCommand} {a : Arm} (ha : arm rd.env c = some a)
    (hw : isWriteCommand c = false) (srv : Server) (conn : ConnState) :
    (executePlain cfg rd c srv conn).2.1 = srv := by
  unfold executePlain
  split
  · rfl
  · simp only [hw, Bool.false_eq_true, if_false, perform_arm ha, run_read ha hw]

omit [Codec] [Lua] in
/-- What a read-only user gets past the gates. -/
theorem isReadCommand_of_gate_none {conn : ConnState} {c : Command} {name : Bytes} {user : User}
    (hauth : cfg.auth = some am) (hreq : am.requireAuth = true) (hname : conn.authedUser = some name)
    (huser : am.users name = some user) (hro : user.ReadOnly) (h : gate cfg conn c = none) :
    gateExempt c = true ∨ ACLRule.isReadCommand (toUppercase (commandName c)) = true := by
  have hgate := (Option.or_eq_none_iff.mp h).2
  rw [hauth, hname] at hgate
  by_cases hx : gateExempt c = true
  · exact Or.inl hx
  · right
    have hperm : am.checkPermission name (commandName c) ((commandKey c).map lossy) = true := by
      by_contra hne
      simp [authGate, hx, hne] at hgate
    apply hro.isReadCommand
    simpa [AuthManager.checkPermission, hreq, huser] using hperm

/-- A request of a read-only user leaves the server alone. -/
theorem execute_readOnly {conn : ConnState} {name : Bytes} {user : User} (hauth : cfg.auth = some am)
    (hreq : am.requireAuth = true) (hname : conn.authedUser = some name) (huser : am.users name = some user)
    (hro : user.ReadOnly) (req : Request) (srv : Server) : (execute cfg req srv conn).2.1 = srv := by
  unfold execute
  split
  · rename_i hc
    split
    · rfl
    · cases hg : gate cfg conn req.command with
      | some r => simp only [executePlain, hg]
      | none =>
          rcases isReadCommand_of_gate_none hauth hreq hname huser hro hg with hx | hread
          · -- `AUTH` may change the user of the connection, `PING` reads nothing
            rcases exempt_cases hx with ⟨username, password, hcmd⟩ | hcmd
            · obtain ⟨r, user', hkeeps⟩ := authArm_keeps cfg.auth username password conn
              rw [hcmd] at hg
              simp only [executePlain, hcmd, hg, isWriteCommand, Bool.false_eq_true, if_false, perform, hkeeps]
            · rw [hcmd] at hg
              simp only [executePlain, hcmd, hg, isWriteCommand, Bool.false_eq_true, if_false]
              rfl
          · obtain ⟨hw, a, ha⟩ := reads_of_isReadCommand hread req.readings.env
            exact executePlain_read ha hw srv conn
  · rename_i t hc
    cases hg : gate cfg conn req.command with
    | some r => rfl
    | none =>
        rcases isReadCommand_of_gate_none hauth hreq hname huser hro hg with hx | hread
        · rcases exempt_cases hx with ⟨username, password, hcmd⟩ | hcmd
          · rw [hcmd] at hc
            cases hc
          · rw [hcmd] at hc
            cases hc
        · rw [txControl_of_isReadCommand hread] at hc
          cases hc

/-- **Read-only users cannot write.** On a connection authenticated throughout as a user all of whose rules
    grant `ReadCommands` only, no list of requests changes the server: not the storage, the log, the
    replication stream or the shard versions, nor the Pub/Sub registry or the script cache. -/
theorem readOnly_inert (cfg : ServerConfig) (am : AuthManager) (hauth : cfg.auth = some am)
    (hreq : am.requireAuth = true) (name : Bytes) (user : User) (huser : am.users name = some user)
    (hro : user.ReadOnly) (reqs : List Request) (x x' : Connection)
    (hthroughout : Along (Connection.step cfg) (fun y _ => y.conn.authedUser = some name) x reqs)
    (hrun : run (Connection.step cfg) x reqs = some x') : x'.server = x.server := by
  refine run_invariant (I := fun y => y.server = x.server) ?_ reqs x x' hthroughout hrun rfl
  intro y req y' hy hname hstep
  unfold Connection.step at hstep
  split at hstep
  · cases hstep
    exact (execute_readOnly hauth hreq hname huser hro req y.server).trans hy
  · cases hstep

omit [KeyHash] [Lua] [Codec] in
theorem readOnly_inert_set :
    let _ := shortKeys
    let _ := noScripts
    let _ := incrCodec
    ∃ x', run (Connection.step ⟨some twoUsers, none, none⟩)
        (Connection.open Server.fresh { ConnState.new with authedUser := some (utf8 "reader") })
        [.plain 0 (.set (utf8 "k") (utf8 "v") none)] = some x' ∧
      x'.server = Server.fresh := by
  intro _ _ _
  refine ⟨_, rfl, ?_⟩
  refine readOnly_inert ⟨some twoUsers, none, none⟩ twoUsers rfl rfl (utf8 "reader") _ rfl ?_
    [.plain 0 (.set (utf8 "k") (utf8 "v") none)]
    (Connection.open Server.fresh { ConnState.new with authedUser := some (utf8 "reader") }) _ ?_ rfl
  · refine ⟨rfl, ?_⟩
    intro rule hrule p hp
    fin_cases hrule
    fin_cases hp
    rfl
  · exact ⟨rfl, fun _ _ => trivial⟩

end FerricCache
