import FerricCache.Server.Execute
import FerricCache.Lib.Run

/-!
# `FerricCache.Server.Requests` — from one dispatched command to whole requests

A request dispatches no command (refused, or queued), one, or the whole queue of an `EXEC`. `Meets` says that a
property holds of every command a request dispatches, at the state it is dispatched from; `execute_invariant`
and `execute_related` lift what holds of one dispatched command to requests, for one run and for two runs side
by side.
-/

namespace FerricCache

variable [KeyHash] [Lua] [Codec] {cfg : ServerConfig}

/-! ## Dispatch -/

/-- A storage arm changes the storage and nothing else. -/
theorem perform_arm {rd : Readings} {c : Command} {a : Arm} (h : arm rd.env c = some a) (srv : Server)
    (conn : ConnState) :
    perform cfg rd c srv conn
      = ((a.run srv.storage).1, { srv with storage := (a.run srv.storage).2 }, conn) := by
  cases c <;> first | (cases h; done) | simp only [perform, h]

/-- Commands without a storage arm. -/
def sessionCommand : Command → Bool
  | .publish _ _ | .subscribe _ | .unsubscribe _ | .luaEval _ _ _ | .luaEvalSha _ _ _ | .auth _ _ => true
  | _ => false

omit [Lua] [Codec] in
/-- Every other command that can be queued has one. -/
theorem arm_isSome (env : Env) {c : Command} (htx : txControl c = none) (hs : sessionCommand c = false) :
    ∃ a, arm env c = some a := by
  cases c <;> first | (cases htx; done) | (cases hs; done) | exact ⟨_, rfl⟩

omit [Lua] in
@[simp] theorem logWrite_storage (srv : Server) (timestamp : UInt64) (c : Command) :
    (srv.logWrite timestamp c).storage = srv.storage := rfl

omit [Lua] in
@[simp] theorem persistScriptWrites_storage (srv : Server) (stamp : Nat → UInt64) (n : Nat)
    (ws : List Command) : (srv.persistScriptWrites stamp n ws).storage = srv.storage := by
  induction ws generalizing srv n with
  | nil => rfl
  | cons w ws ih =>
      rw [Server.persistScriptWrites, ih]
      rfl

omit [Lua] [Codec] in
/-- `AUTH` replies, and changes the user of the connection only. -/
theorem authArm_keeps (auth : Option AuthManager) (username : Option Bytes) (password : Bytes)
    (conn : ConnState) :
    ∃ r user, ∀ srv : Server, authArm auth username password srv conn
      = (some r, srv, { conn with authedUser := user }) := by
  cases auth with
  | none => exact ⟨_, conn.authedUser, fun srv => rfl⟩
  | some am =>
      by_cases h : am.authenticate (authName username) (lossy password) = true
      · exact ⟨.ok, some (authName username), fun srv => if_pos h⟩
      · exact ⟨wrongPass, conn.authedUser, fun srv => if_neg h⟩

/-! ## What a request dispatches -/

/-- A property of a command that is about to be dispatched. -/
abbrev DispatchProp := Readings → Command → Server → ConnState → Prop

/-- Every command of the rest of a queue that gets past the gates has the property when it is dispatched. -/
def QueueMeets (P : DispatchProp) (cfg : ServerConfig) (rd : Nat → Readings) :
    Nat → List QueuedCommand → Server → ConnState → Prop
  | _, [], _, _ => True
  | n, c :: cs, srv, conn =>
      (gate cfg conn c = none → P (rd n) c srv conn) ∧
        let r := executePlain cfg (rd n) c srv conn
        (r.1.isSome → QueueMeets P cfg rd (n + 1) cs r.2.1 r.2.2)

/-- The connection `EXEC` goes on with: the queue taken, the watches dropped. -/
def ConnState.execTaken (conn : ConnState) : ConnState :=
  { conn with tx := { conn.tx with queue := none }.unwatch }

/-- Every command the request dispatches has the property when it is dispatched. -/
def Meets (P : DispatchProp) (cfg : ServerConfig) (req : Request) (srv : Server) (conn : ConnState) : Prop :=
  match txControl req.command with
  | none => conn.tx.inMulti = false → gate cfg conn req.command = none → P req.readings req.command srv conn
  | some .exec =>
      gate cfg conn req.command = none → conn.tx.anyWatchedChanged srv.versions = false →
        ∀ queue, conn.tx.queue = some queue →
          QueueMeets P cfg req.queued 0 queue srv conn.execTaken
  | some _ => True

/-- Transaction control other than `EXEC` replies, and changes the transaction state only. -/
theorem control_keeps (cfg : ServerConfig) {t : TxControl} (ht : t ≠ .exec) (rd : Nat → Readings)
    (versions : ShardVersions)
    (conn : ConnState) :
    ∃ r tx, ∀ srv : Server, srv.versions = versions →
      control cfg rd t srv conn = (some r, srv, { conn with tx := tx }) := by
  have hmulti : conn.tx.inMulti = true ∨ conn.tx.inMulti = false := by
    cases conn.tx.inMulti
    · exact Or.inr rfl
    · exact Or.inl rfl
  cases t with
  | exec => exact absurd rfl ht
  | multi =>
      rcases hmulti with hm | hm
      · exact ⟨_, conn.tx, fun srv _ => by simp only [control, hm, if_true]; rfl⟩
      · exact ⟨_, _, fun srv _ => by simp only [control, hm, Bool.false_eq_true, if_false]; rfl⟩
  | discard =>
      rcases hmulti with hm | hm
      · exact ⟨_, _, fun srv _ => by simp only [control, hm, Bool.not_true, Bool.false_eq_true, if_false]; rfl⟩
      · exact ⟨_, conn.tx, fun srv _ => by simp only [control, hm, Bool.not_false, if_true]; rfl⟩
  | watch keys =>
      rcases hmulti with hm | hm
      · exact ⟨_, conn.tx, fun srv _ => by simp only [control, hm, if_true]; rfl⟩
      · refine ⟨.ok, watchLoop versions keys conn.tx, ?_⟩
        rintro srv rfl
        simp only [control, hm, Bool.false_eq_true, if_false]
  | unwatch => exact ⟨_, _, fun srv _ => rfl⟩

/-- `EXEC` without a queue, or after a watched shard changed, runs nothing. -/
theorem control_exec_aborts (cfg : ServerConfig) {versions : ShardVersions} {conn : ConnState} (rd : Nat → Readings)
    (h : conn.tx.queue = none ∨ conn.tx.anyWatchedChanged versions = true) :
    ∃ r tx, ∀ srv : Server, srv.versions = versions →
      control cfg rd .exec srv conn = (some r, srv, { conn with tx := tx }) := by
  cases hq : conn.tx.queue with
  | none => exact ⟨_, conn.tx, fun srv _ => by simp only [control, hq]; rfl⟩
  | some queue =>
      have hchanged : conn.tx.anyWatchedChanged versions = true := by
        rcases h with h | h
        · rw [hq] at h
          cases h
        · exact h
      refine ⟨Reply.nullArray, conn.execTaken.tx, ?_⟩
      rintro srv rfl
      simp only [control, hq, hchanged, if_true]
      rfl

/-- `EXEC` with the watched shards unchanged runs the queue. -/
theorem control_exec_runs {conn : ConnState} {srv : Server} {queue : List QueuedCommand}
    (rd : Nat → Readings) (hqueue : conn.tx.queue = some queue)
    (h : conn.tx.anyWatchedChanged srv.versions = false) :
    control cfg rd .exec srv conn
      = ((runQueue cfg rd 0 queue srv conn.execTaken).1.map
          fun out => .raw (Reply.header queue.length ++ out),
        (runQueue cfg rd 0 queue srv conn.execTaken).2) := by
  simp only [control, hqueue, h, Bool.false_eq_true, if_false]
  rfl

/-- A command that is not transaction control, outside `MULTI`. -/
theorem execute_plain {req : Request} {c : QueuedCommand} {srv : Server} {conn : ConnState}
    (hreq : req.command = c.1) (hmulti : conn.tx.inMulti = false) :
    execute cfg req srv conn = executePlain cfg req.readings c srv conn := by
  obtain ⟨command, readings, queued⟩ := req
  obtain ⟨c, htx⟩ := c
  cases hreq
  unfold execute
  split
  · rw [if_neg (by rw [hmulti]; decide)]
  · rename_i t ht
    cases htx.symm.trans ht

/-- Transaction control that the gates let through. -/
theorem execute_control {req : Request} {t : TxControl} {srv : Server} {conn : ConnState}
    (ht : txControl req.command = some t) (hgate : gate cfg conn req.command = none) :
    execute cfg req srv conn = control cfg req.queued t srv conn := by
  unfold execute
  split
  · rename_i h
    cases h.symm.trans ht
  · rename_i t' ht'
    cases ht.symm.trans ht'
    rw [hgate]

/-- **An `EXEC` that commits** runs the queue. -/
theorem execute_exec {req : Request} {srv : Server} {conn : ConnState} {queue : List QueuedCommand}
    (hreq : req.command = .exec) (hgate : gate cfg conn .exec = none) (hqueue : conn.tx.queue = some queue)
    (hwatched : conn.tx.anyWatchedChanged srv.versions = false) :
    execute cfg req srv conn
      = ((runQueue cfg req.queued 0 queue srv conn.execTaken).1.map
          fun out => .raw (Reply.header queue.length ++ out),
        (runQueue cfg req.queued 0 queue srv conn.execTaken).2) := by
  have ht : txControl req.command = some .exec := by
    rw [hreq]
    rfl
  rw [← hreq] at hgate
  rw [execute_control ht hgate, control_exec_runs req.queued hqueue hwatched]

/-! ## One run -/

section Invariant

variable {P : DispatchProp} {I : Server → ConnState → Prop}
  (hplain : ∀ rd (c : QueuedCommand) srv conn, I srv conn → (gate cfg conn c = none → P rd c srv conn) →
    I (executePlain cfg rd c srv conn).2.1 (executePlain cfg rd c srv conn).2.2)

include hplain

theorem runQueue_invariant (rd : Nat → Readings) (n : Nat) (cs : List QueuedCommand) (srv : Server)
    (conn : ConnState) (hI : I srv conn) (hP : QueueMeets P cfg rd n cs srv conn) :
    I (runQueue cfg rd n cs srv conn).2.1 (runQueue cfg rd n cs srv conn).2.2 := by
  induction cs generalizing n srv conn with
  | nil => exact hI
  | cons c cs ih =>
      have hstep := hplain (rd n) c srv conn hI hP.1
      have hrest := hP.2
      rw [runQueue]
      generalize executePlain cfg (rd n) c srv conn = r at hstep hrest
      obtain ⟨reply, srv', conn'⟩ := r
      cases reply with
      | none => exact hstep
      | some r => exact ih (n + 1) srv' conn' hstep (hrest rfl)

/-- **What every dispatched command keeps, every request keeps**, unless it is about the transaction
    state. -/
theorem execute_invariant (htx : ∀ srv conn tx, I srv conn → I srv { conn with tx := tx }) {req : Request}
    {srv : Server} {conn : ConnState} (hI : I srv conn) (hP : Meets P cfg req srv conn) :
    I (execute cfg req srv conn).2.1 (execute cfg req srv conn).2.2 := by
  unfold Meets at hP
  unfold execute
  split
  · rename_i hc
    rw [hc] at hP
    split
    · exact htx srv conn _ hI
    · rename_i hm
      exact hplain _ _ srv conn hI (hP (Bool.not_eq_true _ ▸ hm))
  · rename_i t hc
    rw [hc] at hP
    split
    · exact hI
    · rename_i hgate
      by_cases ht : t = .exec
      · subst ht
        by_cases hab : conn.tx.queue = none ∨ conn.tx.anyWatchedChanged srv.versions = true
        · obtain ⟨r, tx, heq⟩ := control_exec_aborts cfg req.queued hab
          rw [heq srv rfl]
          exact htx srv conn tx hI
        · obtain ⟨hq, hchanged⟩ := not_or.mp hab
          obtain ⟨queue, hqueue⟩ := Option.ne_none_iff_exists'.mp hq
          rw [Bool.not_eq_true] at hchanged
          rw [control_exec_runs req.queued hqueue hchanged]
          exact runQueue_invariant hplain req.queued 0 queue srv _ (htx srv conn _ hI)
            (hP hgate hchanged queue hqueue)
      · obtain ⟨r, tx, heq⟩ := control_keeps cfg ht req.queued srv.versions conn
        rw [heq srv rfl]
        exact htx srv conn tx hI

end Invariant

/-! ## Two runs -/

section Related

variable {P : DispatchProp} {R : Server → Server → ConnState → Prop}
  (hplain : ∀ rd (c : QueuedCommand) srv srv' conn, R srv srv' conn →
    (gate cfg conn c = none → P rd c srv conn) →
    ∃ srv'', executePlain cfg rd c srv' conn
        = ((executePlain cfg rd c srv conn).1, srv'', (executePlain cfg rd c srv conn).2.2) ∧
      R (executePlain cfg rd c srv conn).2.1 srv'' (executePlain cfg rd c srv conn).2.2)

include hplain

theorem runQueue_related (rd : Nat → Readings) (n : Nat) (cs : List QueuedCommand) (srv srv' : Server)
    (conn : ConnState) (hR : R srv srv' conn) (hP : QueueMeets P cfg rd n cs srv conn) :
    ∃ srv'', runQueue cfg rd n cs srv' conn
        = ((runQueue cfg rd n cs srv conn).1, srv'', (runQueue cfg rd n cs srv conn).2.2) ∧
      R (runQueue cfg rd n cs srv conn).2.1 srv'' (runQueue cfg rd n cs srv conn).2.2 := by
  induction cs generalizing n srv srv' conn with
  | nil => exact ⟨srv', rfl, hR⟩
  | cons c cs ih =>
      obtain ⟨mid, hmid, hRmid⟩ := hplain (rd n) c srv srv' conn hR hP.1
      have hrest := hP.2
      rw [runQueue, runQueue, hmid]
      generalize executePlain cfg (rd n) c srv conn = r at hRmid hrest
      obtain ⟨reply, next, conn'⟩ := r
      cases reply with
      | none => exact ⟨mid, rfl, hRmid⟩
      | some r =>
          obtain ⟨last, hlast, hRlast⟩ := ih (n + 1) next mid conn' hRmid (hrest rfl)
          refine ⟨last, ?_, hRlast⟩
          simp only [hlast]

/-- **Two runs that every dispatched command keeps in step, every request keeps in step.** -/
theorem execute_related (htx : ∀ srv srv' conn tx, R srv srv' conn → R srv srv' { conn with tx := tx })
    (hversions : ∀ srv srv' conn, R srv srv' conn → srv'.versions = srv.versions) {req : Request}
    {srv srv' : Server} {conn : ConnState} (hR : R srv srv' conn) (hP : Meets P cfg req srv conn) :
    ∃ srv'', execute cfg req srv' conn
        = ((execute cfg req srv conn).1, srv'', (execute cfg req srv conn).2.2) ∧
      R (execute cfg req srv conn).2.1 srv'' (execute cfg req srv conn).2.2 := by
  unfold Meets at hP
  unfold execute
  split
  · rename_i hc
    rw [hc] at hP
    split
    · exact ⟨srv', rfl, htx srv srv' conn _ hR⟩
    · rename_i hm
      exact hplain _ _ srv srv' conn hR (hP (Bool.not_eq_true _ ▸ hm))
  · rename_i t hc
    rw [hc] at hP
    split
    · exact ⟨srv', rfl, hR⟩
    · rename_i hgate
      have hv := hversions srv srv' conn hR
      by_cases ht : t = .exec
      · subst ht
        by_cases hab : conn.tx.queue = none ∨ conn.tx.anyWatchedChanged srv.versions = true
        · obtain ⟨r, tx, heq⟩ := control_exec_aborts cfg req.queued hab
          -- the versions are the same on both sides, so both abort
          rw [heq srv rfl, heq srv' hv]
          exact ⟨srv', rfl, htx srv srv' conn tx hR⟩
        · obtain ⟨hq, hchanged⟩ := not_or.mp hab
          obtain ⟨queue, hqueue⟩ := Option.ne_none_iff_exists'.mp hq
          rw [Bool.not_eq_true] at hchanged
          obtain ⟨last, hlast, hRlast⟩ := runQueue_related hplain req.queued 0 queue srv srv' _
            (htx srv srv' conn _ hR) (hP hgate hchanged queue hqueue)
          rw [control_exec_runs req.queued hqueue hchanged,
            control_exec_runs req.queued hqueue (hv ▸ hchanged)]
          refine ⟨last, ?_, hRlast⟩
          simp only [ConnState.execTaken, hlast]
      · obtain ⟨r, tx, heq⟩ := control_keeps cfg ht req.queued srv.versions conn
        rw [heq srv rfl, heq srv' hv]
        exact ⟨srv', rfl, htx srv srv' conn tx hR⟩

end Related

end FerricCache
