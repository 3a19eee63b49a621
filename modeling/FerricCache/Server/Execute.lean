import FerricCache.Cluster.Ring
import FerricCache.Persistence.Wal
import FerricCache.Protocol.Resp
import FerricCache.Pubsub
import FerricCache.Scripting
import FerricCache.Transactions

/-!
# `FerricCache.Server.Execute` — `execute_command` and the life of a connection

A command passes the gates in the source's order: transaction queueing, cluster routing, authentication,
permissions. One that gets through is logged, replicated and counted if it is a write, and then dispatched.
`EXEC` sends every queued command through the same gates again.

`Connection` is one client's view: the shared server, the connection's own state and the replies so far.
A reply of `none` is a panic or a script that never returns, after which the connection serves nothing.
-/

namespace FerricCache

/-! ## State -/

/-- A registered replica, with the commands put into its channel. -/
structure Replica where
  id : Bytes
  sent : List Command

/-- `MasterReplicator`. -/
structure MasterReplicator where
  replicationOffset : UInt64
  replicas : List Replica

/-- `replicate_write`. -/
def MasterReplicator.replicateWrite (m : MasterReplicator) (c : Command) : MasterReplicator where
  replicationOffset := m.replicationOffset + 1
  replicas := m.replicas.map fun r => { r with sent := r.sent ++ [c] }

/-- What `execute_command` is given and never changes. -/
structure ServerConfig where
  auth : Option AuthManager
  ring : Option ConsistentHashRing
  localNodeId : Option Bytes

/-- What all connections share. -/
structure Server [KeyHash] where
  storage : CacheStorage
  wal : Option (WriteAheadLog × Disk)
  replicator : Option MasterReplicator
  versions : ShardVersions
  pubsub : PubSub
  scripts : Std.ExtTreeMap Bytes Bytes

/-- `ConnState`. -/
structure ConnState where
  authedUser : Option Bytes
  sub : SubscriberState
  tx : TxState

/-- `ConnState::new`. -/
def ConnState.new : ConnState := ⟨none, SubscriberState.new, TxState.new⟩

/-- What one command observes: the environment of its dispatch arm, of each `redis.call`, and the log
    timestamps of the writes a script made. -/
structure Readings where
  env : Env
  call : Nat → Env
  stamp : Nat → UInt64

/-- A command as it arrives, with the readings of its own execution and of the commands it may release. -/
structure Request where
  command : Command
  readings : Readings
  queued : Nat → Readings

/-- A request at a plain clock reading, for concrete runs. -/
def Request.plain (now : Instant) (c : Command) : Request where
  command := c
  readings := ⟨Env.reading now, fun _ => Env.reading now, fun _ => 1700000000000⟩
  queued _ := ⟨Env.reading now, fun _ => Env.reading now, fun _ => 1700000000000⟩

/-! ## Gates -/

/-- `AUTH` and `PING` pass both gates. -/
def gateExempt : Command → Bool
  | .auth _ _ | .ping => true
  | _ => false

def noAuth : Response := .error (utf8 "NOAUTH Authentication required.")

def noPerm (name : Bytes) : Response :=
  .error (utf8 "NOPERM this user has no permissions to run the '" ++ name.map F64.lowerAscii ++
    utf8 "' command")

def wrongPass : Response :=
  .error (utf8 "WRONGPASS invalid username-password pair or user is disabled.")

/-- The auth gate and the ACL gate; `none` lets the command through. -/
def authGate (auth : Option AuthManager) (authedUser : Option Bytes) (c : Command) : Option Response :=
  match auth, authedUser with
  | some am, none => if am.requireAuth && !gateExempt c then some noAuth else none
  | some am, some user =>
      if !gateExempt c && !am.checkPermission user (commandName c) ((commandKey c).map lossy) then
        some (noPerm (commandName c))
      else none
  | none, _ => none

/-- The user an `AUTH` names. -/
def authName (username : Option Bytes) : Bytes := (username.map lossy).getD (utf8 "default")

/-- `build_script_acl`. -/
def buildScriptAcl (auth : Option AuthManager) (authedUser : Option Bytes) : AclCheck :=
  match auth, authedUser with
  | some am, some user =>
      if am.requireAuth then fun cmd key => am.checkPermission user cmd (key.map lossy) else allowAllAcl
  | _, _ => allowAllAcl

section Execute

variable [KeyHash] [Lua] [Codec]

/-- Routing, authentication and permissions; `none` lets the command through. -/
def gate (cfg : ServerConfig) (conn : ConnState) (c : Command) : Option Response :=
  (redirect cfg.ring cfg.localNodeId c).or (authGate cfg.auth conn.authedUser c)

/-! ## The write chokepoint -/

omit [Lua] in
/-- Log, replicate and count one write. -/
def Server.logWrite (srv : Server) (timestamp : UInt64) (c : Command) : Server :=
  { srv with
    wal := srv.wal.map fun p => p.1.appendCommand p.2 timestamp c
    replicator := srv.replicator.map fun m => m.replicateWrite c
    versions := bumpVersionsFor c srv.versions }

omit [Lua] in
/-- `persist_script_writes`, from the `n`-th write on. -/
def Server.persistScriptWrites (srv : Server) (stamp : Nat → UInt64) : Nat → List Command → Server
  | _, [] => srv
  | n, w :: ws => (srv.logWrite (stamp n) w).persistScriptWrites stamp (n + 1) ws

/-! ## Dispatch -/

/-- What a command leaves: its reply, unless it panics or never returns, the server and the connection's state. -/
abbrev Outcome := Option Response × Server × ConnState

/-- The recorded writes that the server gets to persist: none, if the script never returns. -/
def returnedWrites (r : Option Response × List Command) : List Command := if r.1.isSome then r.2 else []

/-- Run a loaded script and persist its writes. -/
def runLoaded (cfg : ServerConfig) (rd : Readings) (source : Bytes) (keys argv : List Bytes) (srv : Server)
    (conn : ConnState) : Outcome :=
  let r := runScript rd.call (buildScriptAcl cfg.auth conn.authedUser) 0
    (Lua.eval rd.env source keys argv) srv.storage
  (r.1.1, { srv with storage := r.2 }.persistScriptWrites rd.stamp 0 (returnedWrites r.1), conn)

omit [Codec] in
/-- The script that the command runs comes, with the replies its calls get, to a point from which it never
    returns. -/
def RunsForever (cfg : ServerConfig) (rd : Readings) (c : Command) (srv : Server) (conn : ConnState) : Bool :=
  let endless := fun (source : Bytes) (keys argv : List Bytes) =>
    NeverReturns rd.call (buildScriptAcl cfg.auth conn.authedUser) 0 (Lua.eval rd.env source keys argv) srv.storage
  match c with
  | .luaEval script keys argv => endless script keys argv
  | .luaEvalSha sha1 keys argv =>
      (srv.scripts[sha1.map F64.lowerAscii]?).any fun source => endless source keys argv
  | _ => false

/-- The `AUTH` arm. -/
def authArm (auth : Option AuthManager) (username : Option Bytes) (password : Bytes) (srv : Server)
    (conn : ConnState) : Outcome :=
  match auth with
  | some am =>
      if am.authenticate (authName username) (lossy password) then
        (some .ok, srv, { conn with authedUser := some (authName username) })
      else (some wrongPass, srv, conn)
  | none =>
      (some (.error (utf8 ("ERR Client sent AUTH, but no password is set. " ++
        "Did you mean AUTH <username> <password>?"))), srv, conn)

/-- The `match` of `execute_command`, less the transaction control commands. -/
def perform (cfg : ServerConfig) (rd : Readings) (c : Command) (srv : Server) (conn : ConnState) :
    Outcome :=
  match c with
  | .luaEval script keys argv =>
      let srv := { srv with scripts := srv.scripts.insert (Lua.sha1Hex script) script }
      runLoaded cfg rd script keys argv srv conn
  | .luaEvalSha sha1 keys argv =>
      match srv.scripts[sha1.map F64.lowerAscii]? with
      | some source => runLoaded cfg rd source keys argv srv conn
      | none => (some (.error (utf8 "NOSCRIPT No matching script. Please use EVAL.")), srv, conn)
  | .publish channel payload =>
      let r := srv.pubsub.publish channel payload
      (some (Reply.count r.1), { srv with pubsub := r.2 }, conn)
  | .subscribe channels =>
      let r := subscribeLoop channels (conn.sub, srv.pubsub)
      (some (.raw r.1), { srv with pubsub := r.2.2 }, { conn with sub := r.2.1 })
  | .unsubscribe channels =>
      let toRemove := if channels.isEmpty then conn.sub.channels else channels
      let r := unsubscribeLoop toRemove (conn.sub, srv.pubsub)
      (some (.raw r.1), { srv with pubsub := r.2.2 }, { conn with sub := r.2.1 })
  | .auth username password => authArm cfg.auth username password srv conn
  | c =>
      match arm rd.env c with
      | some a => ((a.run srv.storage).1, { srv with storage := (a.run srv.storage).2 }, conn)
      -- only transaction control is left, and it never gets here
      | none => (none, srv, conn)

/-- `execute_command` for a command that is not transaction control, outside `MULTI`. -/
def executePlain (cfg : ServerConfig) (rd : Readings) (c : QueuedCommand) (srv : Server)
    (conn : ConnState) : Outcome :=
  match gate cfg conn c with
  | some r => (some r, srv, conn)
  | none =>
      let srv := if isWriteCommand c then srv.logWrite rd.env.unixMs c else srv
      perform cfg rd c srv conn

/-- The loop of `EXEC` over the commands left, from the `n`-th on: the serialized replies. -/
def runQueue (cfg : ServerConfig) (rd : Nat → Readings) : Nat → List QueuedCommand → Server → ConnState →
    Option Bytes × Server × ConnState
  | _, [], srv, conn => (some [], srv, conn)
  | n, c :: cs, srv, conn =>
      match executePlain cfg (rd n) c srv conn with
      | (some r, srv', conn') =>
          let rest := runQueue cfg rd (n + 1) cs srv' conn'
          (rest.1.map fun out => serializeResponse r ++ out, rest.2)
      | (none, srv', conn') => (none, srv', conn')

/-- The loop of `WATCH`. -/
def watchLoop (versions : ShardVersions) : List Bytes → TxState → TxState
  | [], tx => tx
  | k :: keys, tx => watchLoop versions keys (tx.watch (shardIndex k) (versions (shardIndex k)))

/-- The transaction arms. -/
def control (cfg : ServerConfig) (rd : Nat → Readings) (t : TxControl) (srv : Server) (conn : ConnState) :
    Outcome :=
  match t with
  | .multi =>
      if conn.tx.inMulti then (some (.error (utf8 "ERR MULTI calls can not be nested")), srv, conn)
      else (some .ok, srv, { conn with tx := conn.tx.start })
  | .discard =>
      if !conn.tx.inMulti then (some (.error (utf8 "ERR DISCARD without MULTI")), srv, conn)
      else (some .ok, srv, { conn with tx := conn.tx.discard })
  | .watch keys =>
      if conn.tx.inMulti then (some (.error (utf8 "ERR WATCH inside MULTI is not allowed")), srv, conn)
      else (some .ok, srv, { conn with tx := watchLoop srv.versions keys conn.tx })
  | .unwatch => (some .ok, srv, { conn with tx := conn.tx.unwatch })
  | .exec =>
      match conn.tx.queue with
      | none => (some (.error (utf8 "ERR EXEC without MULTI")), srv, conn)
      | some queue =>
          -- the queue is taken and the watches dropped whether or not the transaction runs
          let conn' := { conn with tx := { conn.tx with queue := none }.unwatch }
          if conn.tx.anyWatchedChanged srv.versions then (some Reply.nullArray, srv, conn')
          else
            let r := runQueue cfg rd 0 queue srv conn'
            (r.1.map fun out => .raw (Reply.header queue.length ++ out), r.2)

/-- **`execute_command`.** Transaction control is never a write, so the chokepoint has nothing to do for
    it. -/
def execute (cfg : ServerConfig) (req : Request) (srv : Server) (conn : ConnState) : Outcome :=
  match h : txControl req.command with
  | none =>
      if conn.tx.inMulti then
        (some (.raw (utf8 "+QUEUED\r\n")), srv,
          { conn with tx := conn.tx.enqueue ⟨req.command, h⟩ })
      else executePlain cfg req.readings ⟨req.command, h⟩ srv conn
  | some t =>
      match gate cfg conn req.command with
      | some r => (some r, srv, conn)
      | none => control cfg req.queued t srv conn

end Execute

/-! ## Connections -/

/-- One client's connection to the server. -/
structure Connection [KeyHash] where
  server : Server
  conn : ConnState
  replies : List Response
  alive : Bool

section Connection

variable [KeyHash] [Lua] [Codec]

omit [Lua] [Codec] in
/-- A connection that has sent nothing. -/
def Connection.open (server : Server) (conn : ConnState) : Connection := ⟨server, conn, [], true⟩

/-- One request served. -/
def Connection.step (cfg : ServerConfig) (x : Connection) (req : Request) : Option Connection :=
  if x.alive then
    let r := execute cfg req x.server x.conn
    some ⟨r.2.1, r.2.2, x.replies ++ r.1.toList, r.1.isSome⟩
  else none

end Connection

/-- A server that holds nothing and keeps no log. -/
def Server.fresh [KeyHash] : Server := ⟨CacheStorage.new, none, none, ShardVersions.new, PubSub.new, ∅⟩

end FerricCache
