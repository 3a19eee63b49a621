import FerricCache.Server.Requests
import FerricCache.Protocol.ParseCommand

/-!
# `FerricCache.Server.Interleave` — connections side by side

Any number of connections share the server. A connection handles one input at a time; an `EXEC` that commits runs its
queue command by command, and other connections may run in between (`WorldEvent.proceed` is one of these commands, or
the end of the `EXEC`). `Client.history` records what a connection did, for the statements about whole runs.

A run of an `EXEC` without others in between is `execute` (`proceeds_runQueue`).
-/

namespace FerricCache

open Lib.Run

/-- What a connection did. -/
inductive Deed
  /-- A frame was refused by `parse_command`. -/
  | rejected
  /-- `MULTI` opened a transaction. -/
  | began
  /-- A command was queued. -/
  | queued (c : QueuedCommand)
  /-- A command was dispatched on arrival. -/
  | direct (c : QueuedCommand)
  /-- A command was dispatched from the queue of an `EXEC`. -/
  | dispatched (c : QueuedCommand)
  /-- `DISCARD` dropped the queue. -/
  | discarded
  /-- `EXEC` found a watched shard changed. -/
  | aborted
  /-- `EXEC` took the queue and goes on to run it. -/
  | committing
  /-- `EXEC` replied. -/
  | committed

/-- A connection: its state, what is left of the queue of the `EXEC` it works on, and whether its task still
    lives. -/
structure Client where
  conn : ConnState
  running : Option (List QueuedCommand)
  alive : Bool
  history : List Deed

/-- A new connection. -/
def Client.new : Client := ⟨ConnState.new, none, true, []⟩

/-- Record a deed. -/
def Client.did (cl : Client) (d : Deed) : Client := { cl with history := cl.history ++ [d] }

/-- The server and its connections. -/
structure World [KeyHash] where
  server : Server
  clients : Nat → Client

/-- What can happen next: a connection takes an input (a frame as `parse_command` sees it), or goes on with its
    `EXEC`. -/
inductive WorldEvent
  | receive (i : Nat) (input : Parse Command) (rd : Readings)
  | proceed (i : Nat) (rd : Readings)

/-- A frame as it comes off the wire, at a plain clock reading. -/
def WorldEvent.frame [UnicodeTables] (i : Nat) (words : List Bytes) : WorldEvent :=
  .receive i (parseCommand (.array (words.map fun b => .bulkString (some b))))
    (Request.plain (durationSecs 1) .exec).readings

section Steps

variable [KeyHash] [Lua] [Codec] (cfg : ServerConfig)

/-- One command through the gates and the dispatch, which is recorded as `d`. -/
def Client.run (d : Deed) (rd : Readings) (c : QueuedCommand) (srv : Server) (cl : Client) : Server × Client :=
  let r := executePlain cfg rd c srv cl.conn
  let cl' := { cl with conn := r.2.2, alive := r.1.isSome }
  (r.2.1, if (gate cfg cl.conn c).isNone then cl'.did d else cl')

/-- Transaction control past the gates. `EXEC` stops where it would run the queue. -/
def Client.control (rd : Readings) (t : TxControl) (srv : Server) (cl : Client) : Client :=
  let cl' := { cl with conn := (FerricCache.control cfg (fun _ => rd) t srv cl.conn).2.2 }
  match t with
  | .multi => if cl.conn.tx.inMulti then cl' else cl'.did .began
  | .discard => if cl.conn.tx.inMulti then cl'.did .discarded else cl'
  | .watch _ => cl'
  | .unwatch => cl'
  | .exec =>
      match cl.conn.tx.queue with
      | none => cl
      | some queue =>
          let taken := { cl with conn := cl.conn.execTaken }
          if cl.conn.tx.anyWatchedChanged srv.versions then taken.did .aborted
          else { taken with running := some queue }.did .committing

/-- One input handled. -/
def Client.receive (input : Parse Command) (rd : Readings) (srv : Server) (cl : Client) : Server × Client :=
  match input with
  | .error (.err _) => (srv, cl.did .rejected)
  | .error .panic => (srv, { cl with alive := false })
  | .ok c =>
      match h : txControl c with
      | none =>
          if cl.conn.tx.inMulti then
            (srv, { cl with conn := { cl.conn with tx := cl.conn.tx.enqueue ⟨c, h⟩ } }.did (.queued ⟨c, h⟩))
          else cl.run cfg (.direct ⟨c, h⟩) rd ⟨c, h⟩ srv
      | some t =>
          match gate cfg cl.conn c with
          | some _ => (srv, cl)
          | none => (srv, cl.control cfg rd t srv)

/-- One more command of the `EXEC`, or its end. -/
def Client.proceed (rd : Readings) (srv : Server) (cl : Client) : Option (Server × Client) :=
  match cl.running with
  | none => none
  | some [] => some (srv, { cl with running := none }.did .committed)
  | some (c :: rest) => some ({ cl with running := some rest }.run cfg (.dispatched c) rd c srv)

omit [Lua] [Codec] in
/-- What one connection did to the world. -/
def World.put (w : World) (i : Nat) (p : Server × Client) : World :=
  ⟨p.1, Function.update w.clients i p.2⟩

/-- One event. A connection whose task is gone, or that is in the middle of an `EXEC`, takes no input. -/
def World.step (w : World) : WorldEvent → Option World
  | .receive i input rd =>
      if (w.clients i).alive && (w.clients i).running.isNone then
        some (w.put i ((w.clients i).receive cfg input rd w.server))
      else none
  | .proceed i rd =>
      if (w.clients i).alive then ((w.clients i).proceed cfg rd w.server).map (w.put i) else none

omit [Lua] [Codec] in
/-- A server all of whose connections are new. -/
def World.start (srv : Server) : World := ⟨srv, fun _ => Client.new⟩

/-- The connection an event is of. -/
def WorldEvent.client : WorldEvent → Nat
  | .receive i _ _ => i
  | .proceed i _ => i

end Steps

section Lemmas

variable [KeyHash] [Lua] [Codec] {cfg : ServerConfig} {w w' : World} {e : WorldEvent}

/-- **What an event can do**: it is its connection's, and every other connection is left alone. -/
theorem World.step_cases (h : w.step cfg e = some w') :
    (∃ i input rd, e = .receive i input rd ∧ (w.clients i).alive = true ∧ (w.clients i).running = none ∧
        w' = w.put i ((w.clients i).receive cfg input rd w.server)) ∨
      (∃ i rd p, e = .proceed i rd ∧ (w.clients i).alive = true ∧
        (w.clients i).proceed cfg rd w.server = some p ∧ w' = w.put i p) := by
  cases e with
  | receive i input rd =>
      rw [World.step] at h
      split at h
      · rename_i hgo
        rw [Bool.and_eq_true, Option.isNone_iff_eq_none] at hgo
        cases h
        exact Or.inl ⟨i, input, rd, rfl, hgo.1, hgo.2, rfl⟩
      · cases h
  | proceed i rd =>
      rw [World.step] at h
      split at h
      · rename_i hgo
        obtain ⟨p, hp, rfl⟩ := Option.map_eq_some_iff.mp h
        exact Or.inr ⟨i, rd, p, rfl, hgo, hp, rfl⟩
      · cases h

omit [Lua] [Codec] in
/-- What transaction control can do to a connection. -/
inductive Client.Turn (srv : Server) (t : TxControl) (cl cl' : Client) : Prop
  | same (hqueue : cl'.conn.tx.queue = cl.conn.tx.queue) (hrunning : cl'.running = cl.running)
      (hhistory : cl'.history = cl.history)
  | opens (hqueue : cl.conn.tx.queue = none) (hqueue' : cl'.conn.tx.queue = some [])
      (hrunning : cl'.running = cl.running) (hhistory : cl'.history = cl.history ++ [Deed.began])
  | drops {cs : List QueuedCommand} {d : Deed} (hd : d = .discarded ∨ d = .aborted)
      (hqueue : cl.conn.tx.queue = some cs) (hqueue' : cl'.conn.tx.queue = none)
      (hrunning : cl'.running = cl.running) (hhistory : cl'.history = cl.history ++ [d])
  | commits {cs : List QueuedCommand} (ht : t = .exec) (hqueue : cl.conn.tx.queue = some cs)
      (hwatched : cl.conn.tx.anyWatchedChanged srv.versions = false) (hconn : cl'.conn = cl.conn.execTaken)
      (hrunning : cl'.running = some cs) (hhistory : cl'.history = cl.history ++ [Deed.committing])

omit [Lua] [Codec] in
theorem queue_watchLoop (versions : ShardVersions) (keys : List Bytes) (tx : TxState) :
    (watchLoop versions keys tx).queue = tx.queue := by
  induction keys generalizing tx with
  | nil => rfl
  | cons k keys ih =>
      rw [watchLoop, ih]
      rfl

theorem Client.control_turn (cl : Client) (t : TxControl) (rd : Readings) (srv : Server) :
    cl.Turn srv t (cl.control cfg rd t srv) := by
  -- by whether a queue is open
  cases t with
  | unwatch => exact .same rfl rfl rfl
  | multi =>
      cases hqueue : cl.conn.tx.queue with
      | none =>
          simp only [Client.control, FerricCache.control, TxState.inMulti, hqueue, Option.isSome_none,
            Bool.false_eq_true, if_false]
          exact .opens hqueue rfl rfl rfl
      | some cs =>
          simp only [Client.control, FerricCache.control, TxState.inMulti, hqueue, Option.isSome_some, if_true]
          exact .same rfl rfl rfl
  | discard =>
      cases hqueue : cl.conn.tx.queue with
      | none =>
          simp only [Client.control, FerricCache.control, TxState.inMulti, hqueue, Option.isSome_none,
            Bool.false_eq_true, if_false, Bool.not_false, if_true]
          exact .same rfl rfl rfl
      | some cs =>
          simp only [Client.control, FerricCache.control, TxState.inMulti, hqueue, Option.isSome_some,
            Bool.not_true, Bool.false_eq_true, if_false, if_true]
          exact .drops (.inl rfl) hqueue rfl rfl rfl
  | watch keys =>
      cases hqueue : cl.conn.tx.queue with
      | none =>
          simp only [Client.control, FerricCache.control, TxState.inMulti, hqueue, Option.isSome_none,
            Bool.false_eq_true, if_false]
          exact .same (queue_watchLoop _ _ _) rfl rfl
      | some cs =>
          simp only [Client.control, FerricCache.control, TxState.inMulti, hqueue, Option.isSome_some, if_true]
          exact .same rfl rfl rfl
  | exec =>
      cases hqueue : cl.conn.tx.queue with
      | none =>
          simp only [Client.control, hqueue]
          exact .same rfl rfl rfl
      | some cs =>
          simp only [Client.control, hqueue]
          cases hwatched : cl.conn.tx.anyWatchedChanged srv.versions with
          | true => exact .drops (.inr rfl) hqueue rfl rfl rfl
          | false => exact .commits rfl hqueue hwatched rfl rfl rfl

/-- Properties of single connections: what every input and every command of an `EXEC` keeps, every run keeps. -/
theorem clients_invariant {P : World → WorldEvent → Prop} {I : Client → Prop}
    (hreceive : ∀ w i input rd, I (w.clients i) → P w (.receive i input rd) → (w.clients i).alive = true →
      (w.clients i).running = none → I ((w.clients i).receive cfg input rd w.server).2)
    (hproceed : ∀ w i rd p, I (w.clients i) → P w (.proceed i rd) → (w.clients i).alive = true →
      (w.clients i).proceed cfg rd w.server = some p → I p.2)
    {es : List WorldEvent} (hes : Along (World.step cfg) P w es) (hrun : run (World.step cfg) w es = some w')
    (hw : ∀ i, I (w.clients i)) : ∀ i, I (w'.clients i) := by
  refine run_invariant (I := fun w => ∀ i, I (w.clients i)) ?_ es w w' hes hrun hw
  intro s e s' hs hP hstep i
  have hput : ∀ j p, I p.2 → I ((s.put j p).clients i) := by
    intro j p hp
    show I (Function.update s.clients j p.2 i)
    by_cases hij : i = j
    · rw [hij, Function.update_self]
      exact hp
    · rw [Function.update_of_ne hij]
      exact hs i
  rcases World.step_cases hstep with ⟨j, input, rd, rfl, halive, hidle, rfl⟩ | ⟨j, rd, p, rfl, halive, hp, rfl⟩
  · exact hput j _ (hreceive s j input rd (hs j) hP halive hidle)
  · exact hput j p (hproceed s j rd p (hs j) hP halive hp)

/-! ## Without others in between -/

omit [Lua] [Codec] in
theorem World.put_clients (w : World) (i : Nat) (p : Server × Client) : (w.put i p).clients i = p.2 := by
  show Function.update w.clients i p.2 i = p.2
  rw [Function.update_self]

variable (cfg) in
theorem Client.run_conn (d : Deed) (rd : Readings) (c : QueuedCommand) (srv : Server) (cl : Client) :
    (cl.run cfg d rd c srv).1 = (executePlain cfg rd c srv cl.conn).2.1 ∧
      (cl.run cfg d rd c srv).2.conn = (executePlain cfg rd c srv cl.conn).2.2 ∧
      (cl.run cfg d rd c srv).2.alive = (executePlain cfg rd c srv cl.conn).1.isSome ∧
      (cl.run cfg d rd c srv).2.running = cl.running := by
  unfold Client.run
  split
  · exact ⟨rfl, rfl, rfl, rfl⟩
  · exact ⟨rfl, rfl, rfl, rfl⟩

/-- The events that take a connection through the rest of its `EXEC`. -/
def proceeds (i : Nat) (rd : Nat → Readings) : Nat → List QueuedCommand → List WorldEvent
  | n, [] => [.proceed i (rd n)]
  | n, _ :: cs => .proceed i (rd n) :: proceeds i rd (n + 1) cs

/-- **An `EXEC` that nobody interrupts is `runQueue`.** -/
theorem proceeds_runQueue (i : Nat) (rd : Nat → Readings) (n : Nat) (cs : List QueuedCommand) (w : World)
    (hrunning : (w.clients i).running = some cs) (halive : (w.clients i).alive = true)
    (hreplies : (runQueue cfg rd n cs w.server (w.clients i).conn).1.isSome = true) :
    ∃ w', run (World.step cfg) w (proceeds i rd n cs) = some w' ∧
      w'.server = (runQueue cfg rd n cs w.server (w.clients i).conn).2.1 ∧
      (w'.clients i).conn = (runQueue cfg rd n cs w.server (w.clients i).conn).2.2 ∧
      (w'.clients i).running = none ∧ (w'.clients i).alive = true := by
  induction cs generalizing n w with
  | nil =>
      refine ⟨w.put i (w.server, { w.clients i with running := none }.did .committed), ?_, rfl, ?_⟩
      · refine run_cons.mpr ⟨_, ?_, rfl⟩
        rw [World.step, if_pos halive, Client.proceed, hrunning, Option.map_some]
      · rw [World.put_clients]
        exact ⟨rfl, rfl, halive⟩
  | cons c cs ih =>
      obtain ⟨hserver, hconn, hlives, hrest⟩ :=
        Client.run_conn cfg (.dispatched c) (rd n) c w.server { w.clients i with running := some cs }
      -- the world after the first command
      let next := w.put i ({ w.clients i with running := some cs }.run cfg (.dispatched c) (rd n) c w.server)
      have hstep : w.step cfg (.proceed i (rd n)) = some next := by
        rw [World.step, if_pos halive, Client.proceed, hrunning, Option.map_some]
      rw [runQueue] at hreplies ⊢
      cases hx : executePlain cfg (rd n) c w.server (w.clients i).conn with
      | mk reply next =>
          obtain ⟨srv', conn'⟩ := next
          simp only [hx] at hserver hconn hlives hreplies ⊢
          cases reply with
          | none => cases hreplies
          | some r =>
              simp only [Option.isSome_map] at hreplies ⊢
              have hput : next.server = srv' := hserver
              have hclient : next.clients i
                  = ({ w.clients i with running := some cs }.run cfg (.dispatched c) (rd n) c w.server).2 :=
                w.put_clients i _
              obtain ⟨w', hrun, hsrv, hc, hr, ha⟩ := ih (n + 1) next
                (by rw [hclient]; exact hrest) (by rw [hclient]; exact hlives)
                (by rw [hput, hclient, hconn]; exact hreplies)
              rw [hput, hclient, hconn] at hsrv hc
              exact ⟨w', run_cons.mpr ⟨_, hstep, hrun⟩, hsrv, hc, hr, ha⟩

/-- An `EXEC` that commits, taken in and run to its end, does what `execute` does. -/
theorem exec_steps_execute (i : Nat) (req : Request) (hreq : req.command = .exec) (w : World)
    {queue : List QueuedCommand} (halive : (w.clients i).alive = true) (hidle : (w.clients i).running = none)
    (hgate : gate cfg (w.clients i).conn .exec = none) (hqueue : (w.clients i).conn.tx.queue = some queue)
    (hwatched : (w.clients i).conn.tx.anyWatchedChanged w.server.versions = false)
    (hreplies : (execute cfg req w.server (w.clients i).conn).1.isSome = true) :
    ∃ w', run (World.step cfg) w (.receive i (.ok .exec) req.readings :: proceeds i req.queued 0 queue) = some w' ∧
      w'.server = (execute cfg req w.server (w.clients i).conn).2.1 ∧
      (w'.clients i).conn = (execute cfg req w.server (w.clients i).conn).2.2 := by
  have hexec := execute_exec hreq hgate hqueue hwatched
  let taken : Client := { w.clients i with conn := (w.clients i).conn.execTaken, running := some queue }
  have hreceive : (w.clients i).receive cfg (.ok .exec) req.readings w.server = (w.server, taken.did .committing) := by
    simp only [Client.receive, txControl, hgate, Client.control, hqueue, hwatched, Bool.false_eq_true, if_false]
    rfl
  have hstep : w.step cfg (.receive i (.ok .exec) req.readings) = some (w.put i (w.server, taken.did .committing)) := by
    rw [World.step, halive, hidle, hreceive]
    rfl
  have hclient := w.put_clients i (w.server, taken.did .committing)
  rw [hexec] at hreplies ⊢
  simp only [Option.isSome_map] at hreplies
  obtain ⟨w', hrun, hsrv, hconn, -, -⟩ := proceeds_runQueue i req.queued 0 queue
    (w.put i (w.server, taken.did .committing)) (by rw [hclient]; rfl) (by rw [hclient]; exact halive)
    (by rw [hclient]; exact hreplies)
  rw [hclient] at hsrv hconn
  exact ⟨w', run_cons.mpr ⟨_, hstep, hrun⟩, hsrv, hconn⟩

end Lemmas

end FerricCache
