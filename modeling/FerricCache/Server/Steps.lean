import FerricCache.Server.Chokepoint
import FerricCache.Server.Steady

/-!
# `FerricCache.Server.Steps` — `execute_command` between its awaits

`execute` runs a command in one go. The task that serves a connection does not: it appends a write to the log, puts it
into the replicas' channels, counts it and applies it, and other tasks run in between. A script goes the other way
round: each `redis.call` applies at once, and the writes it recorded are appended, sent and counted when it is over,
which may be never.

`Point` is where a task stands, `Runtime` the server and its tasks. `Stride` lists what one step can do. A task that
nobody interrupts does what `executePlain` does (`alone_executePlain`), unless it gets stuck in a script.
-/

namespace FerricCache

open Lib.Run

/-! ## Where a task stands -/

/-- A command that passes the write chokepoint. -/
abbrev WriteCommand := { c : Command // isWriteCommand c = true }

/-- The steps of the chokepoint. -/
inductive LogStage
  | append
  | send
  | count
  deriving DecidableEq

/-- The stage after this one. -/
def LogStage.next : LogStage → Option LogStage
  | .append => some .send
  | .send => some .count
  | .count => none

/-- Where a task stands in `execute_command`. -/
inductive Point
  | idle
  /-- The write is about to take the stage. -/
  | logging (stage : LogStage) (w : WriteCommand)
  /-- The write has passed the chokepoint and is not applied. -/
  | applying (w : WriteCommand)
  /-- The rest of a script, and the writes it recorded so far. -/
  | scripting (acl : AclCheck) (script : Script) (writes : List Command)
  /-- The script is over; a write of it is about to take the stage, and those of `ws` come after it. -/
  | recording (stage : LogStage) (w : Command) (ws : List Command)

/-- `persist_script_writes` with these writes left. -/
def Point.record : List Command → Point
  | [] => .idle
  | w :: ws => .recording .append w ws

/-- The task of a connection: its state, what is left of the queue of its `EXEC`, where it stands, and whether it
    lives. -/
structure ConnTask where
  conn : ConnState
  running : Option (List QueuedCommand)
  point : Point
  alive : Bool

/-- A connection that was just accepted. -/
def ConnTask.new : ConnTask := ⟨ConnState.new, none, .idle, true⟩

/-- The server and the tasks of its `n` connections. -/
structure Runtime [KeyHash] (n : Nat) where
  server : Server
  tasks : Fin n → ConnTask

/-- A connection takes a command, or goes on with what it does. -/
inductive TaskEvent (n : Nat)
  | receive (i : Fin n) (c : Command) (rd : Readings)
  | go (i : Fin n) (rd : Readings)

section Steps

variable [KeyHash]

/-- `wal.append_command`. -/
def Server.appendLog [Codec] (srv : Server) (timestamp : UInt64) (w : Command) : Server :=
  { srv with wal := srv.wal.map fun p => p.1.appendCommand p.2 timestamp w }

/-- `rep.replicate_write`. -/
def Server.send (srv : Server) (w : Command) : Server :=
  { srv with replicator := srv.replicator.map fun m => m.replicateWrite w }

/-- `bump_versions_for`. -/
def Server.count (srv : Server) (w : Command) : Server :=
  { srv with versions := bumpVersionsFor w srv.versions }

/-- One stage of the chokepoint. -/
def Server.pass [Codec] (srv : Server) (timestamp : UInt64) (w : Command) : LogStage → Server
  | .append => srv.appendLog timestamp w
  | .send => srv.send w
  | .count => srv.count w

variable [Lua] [Codec] (cfg : ServerConfig)

omit [Lua] in
/-- A stage leaves the storage alone, and the versions unless it counts. -/
theorem pass_frame (srv : Server) (timestamp : UInt64) (w : Command) (stage : LogStage) :
    (srv.pass timestamp w stage).storage = srv.storage ∧
      (srv.pass timestamp w stage).versions
        = if stage = .count then bumpVersionsFor w srv.versions else srv.versions := by
  cases stage with
  | append => exact ⟨rfl, rfl⟩
  | send => exact ⟨rfl, rfl⟩
  | count => exact ⟨rfl, rfl⟩

omit [Codec] in
/-- A script is loaded, and about to run. -/
def ConnTask.load (rd : Readings) (source : Bytes) (keys argv : List Bytes) (t : ConnTask) : ConnTask :=
  { t with
    point := .scripting (buildScriptAcl cfg.auth t.conn.authedUser) (Lua.eval rd.env source keys argv) [] }

/-- The `match` of `execute_command`; a script only begins. -/
def ConnTask.dispatch (rd : Readings) (c : Command) (srv : Server) (t : ConnTask) : Server × ConnTask :=
  match c with
  | .luaEval script keys argv =>
      ({ srv with scripts := srv.scripts.insert (Lua.sha1Hex script) script }, t.load cfg rd script keys argv)
  | .luaEvalSha sha1 keys argv =>
      match srv.scripts[sha1.map F64.lowerAscii]? with
      | some source => (srv, t.load cfg rd source keys argv)
      | none => (srv, { t with point := .idle })
  | c =>
      let r := perform cfg rd c srv t.conn
      (r.2.1, { t with conn := r.2.2, alive := r.1.isSome, point := .idle })

/-- `execute_command` up to its first await: a write is at the chokepoint, anything else is dispatched. -/
def ConnTask.begin (rd : Readings) (c : QueuedCommand) (srv : Server) (t : ConnTask) : Server × ConnTask :=
  match gate cfg t.conn c with
  | some _ => (srv, t)
  | none =>
      if h : isWriteCommand c then (srv, { t with point := .logging .append ⟨c, h⟩ })
      else t.dispatch cfg rd c srv

/-- Transaction control past the gates. `EXEC` stops where it would run the queue. -/
def ConnTask.control (rd : Readings) (x : TxControl) (srv : Server) (t : ConnTask) : ConnTask :=
  match x with
  | .exec =>
      match t.conn.tx.queue with
      | none => t
      | some queue =>
          let taken := { t with conn := t.conn.execTaken }
          if t.conn.tx.anyWatchedChanged srv.versions then taken else { taken with running := some queue }
  | x => { t with conn := (FerricCache.control cfg (fun _ => rd) x srv t.conn).2.2 }

/-- One command taken. -/
def ConnTask.receive (rd : Readings) (c : Command) (srv : Server) (t : ConnTask) : Server × ConnTask :=
  match h : txControl c with
  | none =>
      if t.conn.tx.inMulti then
        (srv, { t with conn := { t.conn with tx := t.conn.tx.enqueue ⟨c, h⟩ } })
      else t.begin cfg rd ⟨c, h⟩ srv
  | some x =>
      match gate cfg t.conn c with
      | some _ => (srv, t)
      | none => (srv, t.control cfg rd x srv)

/-- The next step of a task; there is none in a script that never returns. -/
def ConnTask.go (rd : Readings) (srv : Server) (t : ConnTask) : Option (Server × ConnTask) :=
  match t.point with
  | .logging stage w =>
      some (srv.pass rd.env.unixMs w stage,
        { t with point := (stage.next.map (Point.logging · w)).getD (.applying w) })
  | .applying w => some (t.dispatch cfg rd w srv)
  | .scripting acl (.call cmd args next) writes =>
      let r := redisCallBridge rd.env acl cmd args srv.storage
      some ({ srv with storage := r.2 }, { t with point := .scripting acl (next r.1.1) (writes ++ r.1.2) })
  | .scripting _ (.done (some _)) writes => some (srv, { t with point := .record writes })
  | .scripting _ (.done none) _ => none
  | .recording stage w ws =>
      some (srv.pass rd.env.unixMs w stage,
        { t with point := (stage.next.map (Point.recording · w ws)).getD (.record ws) })
  | .idle =>
      match t.running with
      | none => none
      | some [] => some (srv, { t with running := none })
      | some (c :: rest) => some ({ t with running := some rest }.begin cfg rd c srv)

omit [Lua] [Codec] in
/-- What one task did to the server. -/
def Runtime.put {n : Nat} (r : Runtime n) (i : Fin n) (p : Server × ConnTask) : Runtime n :=
  ⟨p.1, Function.update r.tasks i p.2⟩

/-- One event. A task that is in the middle of a command, or of an `EXEC`, takes no other. -/
def Runtime.step {n : Nat} (r : Runtime n) : TaskEvent n → Option (Runtime n)
  | .receive i c rd =>
      match (r.tasks i).point with
      | .idle =>
          if (r.tasks i).alive && (r.tasks i).running.isNone then
            some (r.put i ((r.tasks i).receive cfg rd c r.server))
          else none
      | _ => none
  | .go i rd => if (r.tasks i).alive then ((r.tasks i).go cfg rd r.server).map (r.put i) else none

omit [Lua] [Codec] in
/-- A server all of whose connections are new. -/
def Runtime.start (n : Nat) (srv : Server) : Runtime n := ⟨srv, fun _ => ConnTask.new⟩

omit [Lua] [Codec] in
/-- The connection an event is of. -/
def TaskEvent.task {n : Nat} : TaskEvent n → Fin n
  | .receive i _ _ => i
  | .go i _ => i

end Steps

/-! ## What a step can do -/

section Strides

variable [KeyHash] [Lua] [Codec] {cfg : ServerConfig} {rd : Readings} {srv srv' : Server} {t t' : ConnTask}

omit [Lua] [Codec] in
/-- Storage, log, replicas and versions are as they were. -/
structure Server.Alike (srv srv' : Server) : Prop where
  storage : srv'.storage = srv.storage
  wal : srv'.wal = srv.wal
  replicator : srv'.replicator = srv.replicator
  versions : srv'.versions = srv.versions

omit [Lua] [Codec] in
theorem Server.Alike.refl (srv : Server) : srv.Alike srv := ⟨rfl, rfl, rfl, rfl⟩

/-- **What one step can do**, to the server and to where the task stands. -/
inductive Stride (rd : Readings) (srv : Server) (t : ConnTask) (srv' : Server) (t' : ConnTask) : Prop
  | quiet (hat : t.point = .idle) (hto : t'.point = .idle) (hserver : srv.Alike srv')
  | loads {acl : AclCheck} {script : Script} (hat : t.point = .idle) (hto : t'.point = .scripting acl script [])
      (hserver : srv.Alike srv')
  | arrives (w : WriteCommand) (hat : t.point = .idle) (hto : t'.point = .logging .append w) (hserver : srv' = srv)
  | passes (stage : LogStage) (w : WriteCommand) (hat : t.point = .logging stage w)
      (hto : t'.point = (stage.next.map (Point.logging · w)).getD (.applying w))
      (hserver : srv' = srv.pass rd.env.unixMs w stage)
  | applies (w : WriteCommand) (hat : t.point = .applying w) (hto : t'.point = .idle)
      (hserver : srv' = { srv with storage := effect rd.env w srv.storage })
  | calls {acl : AclCheck} {cmd : Bytes} {args : List Bytes} {next : Response → Script} {writes : List Command}
      (hat : t.point = .scripting acl (.call cmd args next) writes)
      (hto : t'.point = .scripting acl (next (redisCallBridge rd.env acl cmd args srv.storage).1.1)
        (writes ++ (redisCallBridge rd.env acl cmd args srv.storage).1.2))
      (hserver : srv' = { srv with storage := (redisCallBridge rd.env acl cmd args srv.storage).2 })
  | ends {acl : AclCheck} {r : Response} (writes : List Command)
      (hat : t.point = .scripting acl (.done (some r)) writes)
      (hto : t'.point = .record writes) (hserver : srv' = srv)
  | records (stage : LogStage) (w : Command) (ws : List Command) (hat : t.point = .recording stage w ws)
      (hto : t'.point = (stage.next.map (Point.recording · w ws)).getD (.record ws))
      (hserver : srv' = srv.pass rd.env.unixMs w stage)

omit [KeyHash] [Lua] [Codec] in
/-- A script is not a write. -/
theorem isScript_of_write {c : Command} (hw : isWriteCommand c = true) : isScript c = false := by
  cases c with
  | luaEval script keys argv => cases hw
  | luaEvalSha sha1 keys argv => cases hw
  | _ => rfl

variable (cfg rd srv) in
/-- The dispatch of a command that is neither a write nor a script. -/
theorem perform_alike {c : Command} (htx : txControl c = none) (hscript : isScript c = false)
    (hw : isWriteCommand c = false) (conn : ConnState) :
    srv.Alike (perform cfg rd c srv conn).2.1 ∧ (perform cfg rd c srv conn).2.2.tx = conn.tx := by
  cases hs : sessionCommand c with
  | false =>
      obtain ⟨a, ha⟩ := arm_isSome rd.env htx hs
      rw [perform_arm ha]
      exact ⟨⟨run_read ha hw _, rfl, rfl, rfl⟩, rfl⟩
  | true =>
      cases c with
      | publish channel payload => exact ⟨⟨rfl, rfl, rfl, rfl⟩, rfl⟩
      | subscribe channels => exact ⟨⟨rfl, rfl, rfl, rfl⟩, rfl⟩
      | unsubscribe channels => exact ⟨⟨rfl, rfl, rfl, rfl⟩, rfl⟩
      | luaEval script keys argv => cases hscript
      | luaEvalSha sha1 keys argv => cases hscript
      | auth username password =>
          obtain ⟨r, user, hauth⟩ := authArm_keeps cfg.auth username password conn
          show srv.Alike (authArm cfg.auth username password srv conn).2.1 ∧
            (authArm cfg.auth username password srv conn).2.2.tx = conn.tx
          rw [hauth srv]
          exact ⟨.refl srv, rfl⟩
      | _ => cases hs

theorem dispatch_eq_perform {c : Command} (hscript : isScript c = false) :
    t.dispatch cfg rd c srv = ((perform cfg rd c srv t.conn).2.1,
      { t with conn := (perform cfg rd c srv t.conn).2.2, alive := (perform cfg rd c srv t.conn).1.isSome,
               point := .idle }) := by
  cases c with
  | luaEval script keys argv => cases hscript
  | luaEvalSha sha1 keys argv => cases hscript
  | _ => rfl

/-- A command that is not a write is dispatched, and a script among them begins. -/
theorem dispatch_stride {c : Command} (hat : t.point = .idle) (htx : txControl c = none)
    (hw : isWriteCommand c = false) :
    Stride rd srv t (t.dispatch cfg rd c srv).1 (t.dispatch cfg rd c srv).2 ∧
      (t.dispatch cfg rd c srv).2.conn.tx = t.conn.tx := by
  cases hscript : isScript c with
  | false =>
      obtain ⟨halike, htx⟩ := perform_alike cfg rd srv htx hscript hw t.conn
      rw [dispatch_eq_perform hscript]
      exact ⟨.quiet hat rfl halike, htx⟩
  | true =>
      cases c with
      | luaEval script keys argv => exact ⟨.loads hat rfl ⟨rfl, rfl, rfl, rfl⟩, rfl⟩
      | luaEvalSha sha1 keys argv =>
          rw [ConnTask.dispatch]
          split
          · exact ⟨.loads hat rfl (.refl srv), rfl⟩
          · exact ⟨.quiet hat rfl (.refl srv), rfl⟩
      | _ => cases hscript

variable (cfg rd srv) in
theorem begin_stride (hat : t.point = .idle) (c : QueuedCommand) :
    Stride rd srv t (t.begin cfg rd c srv).1 (t.begin cfg rd c srv).2 ∧
      (t.begin cfg rd c srv).2.conn.tx = t.conn.tx := by
  unfold ConnTask.begin
  split
  · exact ⟨.quiet hat hat (.refl srv), rfl⟩
  · split
    · exact ⟨.arrives _ hat rfl rfl, rfl⟩
    · rename_i hw
      exact dispatch_stride hat c.2 (Bool.eq_false_iff.mpr hw)

variable (cfg rd srv) in
/-- The dispatch of a write that has passed the chokepoint. -/
theorem apply_stride (w : WriteCommand) (hat : t.point = .applying w) :
    Stride rd srv t (t.dispatch cfg rd w srv).1 (t.dispatch cfg rd w srv).2 ∧
      (t.dispatch cfg rd w srv).2.conn = t.conn := by
  obtain ⟨a, ha⟩ := arm_of_write rd.env w.2
  rw [dispatch_eq_perform (isScript_of_write w.2), perform_arm ha]
  exact ⟨.applies w hat rfl (by rw [effect_of_arm ha]), rfl⟩

theorem go_stride {p : Server × ConnTask} (h : t.go cfg rd srv = some p) :
    Stride rd srv t p.1 p.2 ∧ p.2.conn.tx = t.conn.tx := by
  unfold ConnTask.go at h
  split at h
  · rename_i stage w hat
    cases h
    exact ⟨.passes stage w hat rfl rfl, rfl⟩
  · rename_i w hat
    cases h
    obtain ⟨hstride, hconn⟩ := apply_stride cfg rd srv w hat
    exact ⟨hstride, by rw [hconn]⟩
  · rename_i hat
    cases h
    exact ⟨.calls hat rfl rfl, rfl⟩
  · rename_i hat
    cases h
    exact ⟨.ends _ hat rfl rfl, rfl⟩
  · cases h
  · rename_i stage w ws hat
    cases h
    exact ⟨.records stage w ws hat rfl rfl, rfl⟩
  · rename_i hat
    split at h
    · cases h
    · cases h
      exact ⟨.quiet hat hat (.refl srv), rfl⟩
    · rename_i c rest _
      cases h
      obtain ⟨hstride, htx⟩ := begin_stride cfg rd srv (t := { t with running := some rest }) hat c
      refine ⟨?_, htx⟩
      -- only the point of the task counts, and it is that of the task with the shorter queue
      cases hstride with
      | quiet _ hto hserver => exact .quiet hat hto hserver
      | loads _ hto hserver => exact .loads hat hto hserver
      | arrives w _ hto hserver => exact .arrives w hat hto hserver
      | passes _ _ hno _ _ => cases hat.symm.trans hno
      | applies _ hno _ _ => cases hat.symm.trans hno
      | calls hno _ _ => cases hat.symm.trans hno
      | ends _ hno _ _ => cases hat.symm.trans hno
      | records _ _ _ hno _ _ => cases hat.symm.trans hno

theorem control_point (x : TxControl) : (t.control cfg rd x srv).point = t.point := by
  cases x with
  | exec =>
      rw [ConnTask.control]
      split
      · rfl
      · simp only
        split
        · rfl
        · rfl
  | _ => rfl

theorem receive_stride (hat : t.point = .idle) (c : Command) :
    Stride rd srv t (t.receive cfg rd c srv).1 (t.receive cfg rd c srv).2 := by
  unfold ConnTask.receive
  split
  · split
    · exact .quiet hat hat (.refl srv)
    · exact (begin_stride cfg rd srv hat _).1
  · split
    · exact .quiet hat hat (.refl srv)
    · exact .quiet hat ((control_point _).trans hat) (.refl srv)

/-- The clock and the rest of the outside that an event reads. -/
def TaskEvent.readings {n : Nat} : TaskEvent n → Readings
  | .receive _ _ rd => rd
  | .go _ rd => rd

variable {n : Nat} {r r' : Runtime n} {e : TaskEvent n}

/-- **What an event can do**: it is one stride of its task, and the other tasks stay where they are. -/
theorem Runtime.step_cases (h : r.step cfg e = some r') :
    (∃ i c rd, e = .receive i c rd ∧ (r.tasks i).point = .idle ∧
        r' = r.put i ((r.tasks i).receive cfg rd c r.server)) ∨
      (∃ i rd p, e = .go i rd ∧ (r.tasks i).go cfg rd r.server = some p ∧ r' = r.put i p) := by
  cases e with
  | receive i c rd =>
      rw [Runtime.step] at h
      split at h
      · rename_i hat
        split at h
        · cases h
          exact Or.inl ⟨i, c, rd, rfl, hat, rfl⟩
        · cases h
      · cases h
  | go i rd =>
      rw [Runtime.step] at h
      split at h
      · obtain ⟨p, hp, rfl⟩ := Option.map_eq_some_iff.mp h
        exact Or.inr ⟨i, rd, p, rfl, hp, rfl⟩
      · cases h

/-- A task in the middle of something goes on, it takes no command. -/
theorem Runtime.go_of_busy (h : r.step cfg e = some r') (hbusy : (r.tasks e.task).point ≠ .idle) :
    ∃ rd, e = .go e.task rd := by
  rcases Runtime.step_cases h with ⟨j, c, rd, rfl, hat, -⟩ | ⟨j, rd, p, rfl, -, -⟩
  · exact absurd hat hbusy
  · exact ⟨rd, rfl⟩

theorem Runtime.step_stride (h : r.step cfg e = some r') :
    ∃ p, r' = r.put e.task p ∧ Stride e.readings r.server (r.tasks e.task) p.1 p.2 := by
  rcases Runtime.step_cases h with ⟨i, c, rd, rfl, hat, rfl⟩ | ⟨i, rd, p, rfl, hp, rfl⟩
  · exact ⟨_, rfl, receive_stride hat c⟩
  · exact ⟨p, rfl, (go_stride hp).1⟩

omit [Lua] [Codec] in
@[simp] theorem Runtime.put_server (i : Fin n) (p : Server × ConnTask) : (r.put i p).server = p.1 := rfl

omit [Lua] [Codec] in
@[simp] theorem Runtime.put_tasks (i : Fin n) (p : Server × ConnTask) : (r.put i p).tasks i = p.2 :=
  Function.update_self ..

omit [Lua] [Codec] in
theorem Runtime.put_tasks_ne {i j : Fin n} (h : j ≠ i) (p : Server × ConnTask) :
    (r.put i p).tasks j = r.tasks j := Function.update_of_ne h ..

/-! ## A task alone -/

variable (cfg) in
/-- A living task goes on. -/
def Goes (p q : Server × ConnTask) : Prop := p.2.alive = true ∧ ∃ rd, p.2.go cfg rd p.1 = some q

open Relation (ReflTransGen)

/-- `persist_script_writes`, undisturbed. -/
theorem goes_record (rd : Readings) (n : Nat) (ws : List Command) (srv : Server) (t : ConnTask)
    (halive : t.alive = true) :
    ReflTransGen (Goes cfg) (srv, { t with point := .record ws })
      (srv.persistScriptWrites rd.stamp n ws, { t with point := .idle }) := by
  induction ws generalizing n srv with
  | nil => exact .refl
  | cons w ws ih =>
      -- the three stages, at the write's own timestamp
      let stamped : Readings := { rd with env := { rd.env with unixMs := rd.stamp n } }
      refine .head ⟨halive, stamped, rfl⟩ (.head ⟨halive, stamped, rfl⟩ (.head ⟨halive, stamped, rfl⟩ ?_))
      exact ih (n + 1) (srv.logWrite (rd.stamp n) w)

/-- A script that returns, undisturbed: its calls, then what they recorded. -/
theorem goes_script (rd : Readings) (acl : AclCheck) (n : Nat) (script : Script) (writes : List Command) (srv : Server)
    (t : ConnTask) (halive : t.alive = true) (hreturns : NeverReturns rd.call acl n script srv.storage = false) :
    ReflTransGen (Goes cfg) (srv, { t with point := .scripting acl script writes })
      ({ srv with storage := (runScript rd.call acl n script srv.storage).2 }.persistScriptWrites rd.stamp 0
          (writes ++ (runScript rd.call acl n script srv.storage).1.2), { t with point := .idle }) := by
  induction script generalizing n writes srv with
  | done reply =>
      obtain ⟨r, rfl⟩ : ∃ r, reply = some r := Option.isSome_iff_exists.mp (by simpa [NeverReturns] using hreturns)
      refine .head ⟨halive, rd, rfl⟩ ?_
      show ReflTransGen (Goes cfg) (srv, { t with point := .record writes })
        (srv.persistScriptWrites rd.stamp 0 (writes ++ []), _)
      rw [List.append_nil]
      exact goes_record rd 0 writes srv t halive
  | call cmd args next ih =>
      let called : Readings := { rd with env := rd.call n }
      refine .head ⟨halive, called, rfl⟩ ?_
      have hrest := ih (redisCallBridge (rd.call n) acl cmd args srv.storage).1.1 (n + 1)
        (writes ++ (redisCallBridge (rd.call n) acl cmd args srv.storage).1.2)
        { srv with storage := (redisCallBridge (rd.call n) acl cmd args srv.storage).2 } hreturns
      rw [List.append_assoc] at hrest
      exact hrest

variable (cfg) in
theorem goes_runLoaded (rd : Readings) (source : Bytes) (keys argv : List Bytes) (srv : Server) (t : ConnTask)
    (halive : t.alive = true)
    (hreturns : NeverReturns rd.call (buildScriptAcl cfg.auth t.conn.authedUser) 0 (Lua.eval rd.env source keys argv)
      srv.storage = false) :
    (runLoaded cfg rd source keys argv srv t.conn).1.isSome = true ∧
      ReflTransGen (Goes cfg) (srv, t.load cfg rd source keys argv)
        ((runLoaded cfg rd source keys argv srv t.conn).2.1, { t with point := .idle }) := by
  have hsome : (runScript rd.call (buildScriptAcl cfg.auth t.conn.authedUser) 0 (Lua.eval rd.env source keys argv)
      srv.storage).1.1.isSome = true := by
    rw [Option.isSome_iff_ne_none, ne_eq, runScript_eq_none_iff, hreturns]
    exact Bool.false_ne_true
  refine ⟨hsome, ?_⟩
  simp only [runLoaded, returnedWrites, hsome, if_true]
  exact goes_script rd _ 0 _ [] srv t halive hreturns

/-- A task that has begun a command comes to where `executePlain` ends. -/
theorem goes_executePlain (rd : Readings) (c : QueuedCommand) (srv : Server) (t : ConnTask) (hat : t.point = .idle)
    (halive : t.alive = true) (hreturns : RunsForever cfg rd c srv t.conn = false) :
    ReflTransGen (Goes cfg) (t.begin cfg rd c srv)
      ((executePlain cfg rd c srv t.conn).2.1,
        { t with conn := (executePlain cfg rd c srv t.conn).2.2,
                 alive := (executePlain cfg rd c srv t.conn).1.isSome }) := by
  unfold ConnTask.begin executePlain
  cases hgate : gate cfg t.conn c with
  | some reply =>
      show ReflTransGen (Goes cfg) (srv, t) (srv, { t with alive := true })
      rw [← halive]
  | none =>
      simp only
      by_cases hw : isWriteCommand c.1 = true
      · rw [dif_pos hw, if_pos hw]
        -- the chokepoint in three steps, and the dispatch
        refine .head ⟨halive, rd, rfl⟩ (.head ⟨halive, rd, rfl⟩ (.head ⟨halive, rd, rfl⟩
          (.head ⟨halive, rd, rfl⟩ ?_)))
        show ReflTransGen (Goes cfg) (ConnTask.dispatch cfg rd c.1 (srv.logWrite rd.env.unixMs c) _) _
        rw [dispatch_eq_perform (isScript_of_write hw), ← hat]
      · rw [dif_neg hw, if_neg hw]
        cases hscript : isScript c.1 with
        | false =>
            rw [dispatch_eq_perform hscript, ← hat]
        | true =>
            obtain ⟨c, htx⟩ := c
            cases c with
            | luaEval script keys argv =>
                obtain ⟨hsome, hgoes⟩ := goes_runLoaded cfg rd script keys argv
                  { srv with scripts := srv.scripts.insert (Lua.sha1Hex script) script } t halive hreturns
                rw [← hat] at hgoes
                simp only [ConnTask.dispatch, perform, hsome]
                rw [← halive]
                exact hgoes
            | luaEvalSha sha1 keys argv =>
                simp only [ConnTask.dispatch, perform]
                simp only [RunsForever] at hreturns
                cases hsource : srv.scripts[sha1.map F64.lowerAscii]? with
                | some source =>
                    rw [hsource] at hreturns
                    obtain ⟨hsome, hgoes⟩ := goes_runLoaded cfg rd source keys argv srv t halive hreturns
                    rw [← hat] at hgoes
                    simp only [hsome]
                    rw [← halive]
                    exact hgoes
                | none =>
                    show ReflTransGen (Goes cfg) (srv, { t with point := .idle }) (srv, { t with alive := true })
                    rw [← hat, ← halive]
            | _ => cases hscript

/-- **A task that nobody interrupts does what `executePlain` does.** -/
theorem alone_executePlain (r : Runtime n) (i : Fin n) (c : QueuedCommand) (rd : Readings)
    (hat : (r.tasks i).point = .idle) (halive : (r.tasks i).alive = true) (hidle : (r.tasks i).running = none)
    (hmulti : (r.tasks i).conn.tx.inMulti = false)
    (hreturns : RunsForever cfg rd c r.server (r.tasks i).conn = false) :
    ∃ rds : List Readings,
      run (Runtime.step cfg) r (.receive i c rd :: rds.map (TaskEvent.go i))
        = some (r.put i ((executePlain cfg rd c r.server (r.tasks i).conn).2.1,
            { r.tasks i with
              conn := (executePlain cfg rd c r.server (r.tasks i).conn).2.2
              alive := (executePlain cfg rd c r.server (r.tasks i).conn).1.isSome })) := by
  have hreceive : r.step cfg (.receive i c rd) = some (r.put i ((r.tasks i).begin cfg rd c r.server)) := by
    have hplain : (r.tasks i).receive cfg rd c r.server = (r.tasks i).begin cfg rd c r.server := by
      unfold ConnTask.receive
      split
      · rw [if_neg (by rw [hmulti]; exact Bool.false_ne_true)]
      · rename_i x hx
        cases c.2.symm.trans hx
    rw [Runtime.step, hat]
    simp only [halive, hidle, Option.isNone_none, Bool.and_self, if_true, hplain]
  -- the steps of the task alone are steps of the runtime
  have hlift : ∀ p q, ReflTransGen (Goes cfg) p q →
      ∃ rds : List Readings, run (Runtime.step cfg) (r.put i p) (rds.map (TaskEvent.go i)) = some (r.put i q) := by
    intro p q h
    induction h using ReflTransGen.head_induction_on with
    | refl => exact ⟨[], rfl⟩
    | head hstep _ ih =>
        obtain ⟨hlives, rd, hgo⟩ := hstep
        obtain ⟨rds, hrun⟩ := ih
        refine ⟨rd :: rds, run_cons.mpr ⟨_, ?_, hrun⟩⟩
        rw [Runtime.step, Runtime.put_tasks, if_pos hlives, Runtime.put_server, hgo, Option.map_some]
        unfold Runtime.put
        rw [Function.update_idem]
  obtain ⟨rds, hrun⟩ := hlift _ _ (goes_executePlain rd c r.server (r.tasks i) hat halive hreturns)
  exact ⟨rds, run_cons.mpr ⟨_, hreceive, hrun⟩⟩

end Strides

/-! ## For concrete runs -/

/-- The interpreter whose scripts are all `return redis.call('INCR', KEYS[1])`. -/
@[reducible] def incrScripts : Lua :=
  ⟨fun _ => [], fun _ _ keys _ => .call (utf8 "INCR") keys fun r => .done (some r), id⟩

/-- Readings at a plain clock. -/
def Readings.plain (secs : Nat) : Readings := (Request.plain (durationSecs secs) .exec).readings

end FerricCache
