import FerricCache.Server.Interleave
import FerricCache.Server.ExecReply

/-!
# `FerricCache.Server.TxHistory` — what becomes of queued commands

Two statements about whole histories of a connection, whatever the other connections do.

* A history is a sequence of commands dispatched on arrival and of transactions, and a transaction is dropped as a
  whole or dispatches the commands it queued, each once and in order (`Orderly`). An `EXEC` is cut short only by a
  queued command that panics or never returns (`transactional_of_run`).
* `EXEC` does not ask whether a frame was refused since `MULTI`: it runs the commands that were not
  (`rejected_never_executed`).
-/

namespace FerricCache

open Lib.Run

/-! ## Histories -/

/-- What a connection does between `MULTI` and the end of the transaction, with the commands it queues. -/
inductive Queueing : List QueuedCommand → List Deed → Prop
  | nil : Queueing [] []
  | queued {cs : List QueuedCommand} {mid : List Deed} (h : Queueing cs mid) (c : QueuedCommand) :
      Queueing (cs ++ [c]) (mid ++ [Deed.queued c])
  | rejected {cs : List QueuedCommand} {mid : List Deed} (h : Queueing cs mid) : Queueing cs (mid ++ [Deed.rejected])

/-- A history with no transaction under way: **queued commands are dispatched each once, in order, or not at
    all.** -/
inductive Orderly : List Deed → Prop
  | nil : Orderly []
  | rejected {l : List Deed} (h : Orderly l) : Orderly (l ++ [Deed.rejected])
  | direct {l : List Deed} (h : Orderly l) (c : QueuedCommand) : Orderly (l ++ [Deed.direct c])
  | discarded {l mid : List Deed} {cs : List QueuedCommand} (h : Orderly l) (hmid : Queueing cs mid) :
      Orderly (l ++ .began :: mid ++ [Deed.discarded])
  | aborted {l mid : List Deed} {cs : List QueuedCommand} (h : Orderly l) (hmid : Queueing cs mid) :
      Orderly (l ++ .began :: mid ++ [Deed.aborted])
  | committed {l mid : List Deed} {cs : List QueuedCommand} (h : Orderly l) (hmid : Queueing cs mid) :
      Orderly (l ++ .began :: mid ++ Deed.committing :: cs.map Deed.dispatched ++ [Deed.committed])

/-- Where a connection stands, and that its history is orderly up to there. -/
inductive Client.Ordered (cl : Client) : Prop
  | idle (hqueue : cl.conn.tx.queue = none) (hrunning : cl.running = none) (h : Orderly cl.history)
  | queueing {l mid : List Deed} {cs : List QueuedCommand} (hqueue : cl.conn.tx.queue = some cs)
      (hrunning : cl.running = none) (hl : Orderly l) (hmid : Queueing cs mid)
      (h : cl.history = l ++ .began :: mid)
  | executing {l mid : List Deed} {done rest : List QueuedCommand} (hqueue : cl.conn.tx.queue = none)
      (hwatched : cl.conn.tx.watched = fun _ => none) (hrunning : cl.running = some rest) (hl : Orderly l)
      (hmid : Queueing (done ++ rest) mid)
      (h : cl.history = l ++ .began :: mid ++ Deed.committing :: done.map Deed.dispatched)

section Steps

variable [KeyHash] [Lua] [Codec] {cfg : ServerConfig}

/-- Dispatch leaves the transaction state alone. -/
theorem tx_executePlain (rd : Readings) (c : QueuedCommand) (srv : Server) (conn : ConnState) :
    (executePlain cfg rd c srv conn).2.2.tx = conn.tx := by
  unfold executePlain
  cases gate cfg conn c with
  | some r => rfl
  | none =>
      simp only
      generalize (if isWriteCommand c then srv.logWrite rd.env.unixMs c else srv) = logged
      cases hs : sessionCommand c with
      | false =>
          obtain ⟨a, ha⟩ := arm_isSome rd.env c.2 hs
          rw [perform_arm ha]
      | true =>
          obtain ⟨c, htx⟩ := c
          cases c with
          | publish _ _ => rfl
          | subscribe _ => rfl
          | unsubscribe _ => rfl
          | luaEval _ _ _ => rfl
          | luaEvalSha sha1 keys argv =>
              rw [perform]
              split
              · rfl
              · rfl
          | auth username password =>
              obtain ⟨r, user, hauth⟩ := authArm_keeps cfg.auth username password conn
              show (authArm cfg.auth username password logged conn).2.2.tx = conn.tx
              rw [hauth logged]
          | _ => cases hs

omit [Lua] [Codec] in
/-- A server without a cluster and without authentication has no gates. -/
theorem gate_eq_none (hauth : cfg.auth = none) (hring : cfg.ring = none) (conn : ConnState) (c : Command) :
    gate cfg conn c = none := by
  unfold gate redirect authGate
  rw [hauth, hring]
  rfl

/-- A command that gets past the gates is recorded. -/
theorem Client.run_history (cl : Client) (c : QueuedCommand) (hgate : gate cfg cl.conn c = none) (d : Deed)
    (rd : Readings) (srv : Server) : (cl.run cfg d rd c srv).2.history = cl.history ++ [d] := by
  unfold Client.run
  rw [hgate]
  rfl

variable (hauth : cfg.auth = none) (hring : cfg.ring = none)

theorem ordered_control {cl : Client} (h : cl.Ordered) (hidle : cl.running = none) (t : TxControl) (rd : Readings)
    (srv : Server) : (cl.control cfg rd t srv).Ordered := by
  have hturn : cl.Turn srv t (cl.control cfg rd t srv) := cl.control_turn t rd srv
  cases h with
  | executing _ _ hrunning _ _ _ => cases hidle.symm.trans hrunning
  | idle hqueue hrunning h =>
      cases hturn with
      | same hqueue' hrunning' hhistory =>
          exact .idle (hqueue'.trans hqueue) (hrunning'.trans hrunning) (by rw [hhistory]; exact h)
      | opens _ hqueue' hrunning' hhistory => exact .queueing hqueue' (hrunning'.trans hrunning) h .nil hhistory
      | drops _ hsome _ _ _ => cases hqueue.symm.trans hsome
      | commits _ hsome _ _ _ _ => cases hqueue.symm.trans hsome
  | @queueing l mid cs hqueue hrunning hl hmid h =>
      cases hturn with
      | same hqueue' hrunning' hhistory =>
          exact .queueing (hqueue'.trans hqueue) (hrunning'.trans hrunning) hl hmid (hhistory.trans h)
      | opens hnone _ _ _ => cases hqueue.symm.trans hnone
      | drops hd _ hqueue' hrunning' hhistory =>
          refine .idle hqueue' (hrunning'.trans hrunning) ?_
          rw [hhistory, h]
          rcases hd with rfl | rfl
          · exact hl.discarded hmid
          · exact hl.aborted hmid
      | @commits cs' _ hsome _ hconn hrunning' hhistory =>
          cases hqueue.symm.trans hsome
          refine .executing ?_ ?_ hrunning' hl (show Queueing ([] ++ cs) mid from hmid) ?_
          · rw [hconn]
            rfl
          · rw [hconn]
            rfl
          · rw [hhistory, h]
            rfl

include hauth hring

theorem ordered_receive {cl : Client} (h : cl.Ordered) (hidle : cl.running = none) (input : Parse Command)
    (rd : Readings) (srv : Server) : (cl.receive cfg input rd srv).2.Ordered := by
  unfold Client.receive
  split
  · cases h with
    | idle hqueue hrunning h => exact .idle hqueue hrunning h.rejected
    | @queueing l mid cs hqueue hrunning hl hmid h =>
        refine .queueing hqueue hrunning hl hmid.rejected ?_
        show cl.history ++ [Deed.rejected] = _
        rw [h, List.append_assoc, List.cons_append]
    | executing _ _ hrunning _ _ _ => cases hidle.symm.trans hrunning
  · cases h with
    | idle hqueue hrunning h => exact .idle hqueue hrunning h
    | queueing hqueue hrunning hl hmid h => exact .queueing hqueue hrunning hl hmid h
    | executing hqueue hwatched hrunning hl hmid h => exact .executing hqueue hwatched hrunning hl hmid h
  · rename_i c
    split
    · rename_i htx
      split
      · rename_i hmulti
        cases h with
        | idle hqueue _ _ =>
            rw [TxState.inMulti, hqueue] at hmulti
            cases hmulti
        | @queueing l mid cs hqueue hrunning hl hmid h =>
            refine .queueing ?_ hrunning hl (hmid.queued ⟨c, htx⟩) ?_
            · show (cl.conn.tx.enqueue ⟨c, htx⟩).queue = _
              rw [TxState.enqueue, hqueue]
              rfl
            · show cl.history ++ [Deed.queued ⟨c, htx⟩] = _
              rw [h, List.append_assoc, List.cons_append]
        | executing _ _ hrunning _ _ _ => cases hidle.symm.trans hrunning
      · rename_i hmulti
        obtain ⟨-, hconn, -, hrun⟩ := Client.run_conn cfg (.direct ⟨c, htx⟩) rd ⟨c, htx⟩ srv cl
        have hhistory := cl.run_history ⟨c, htx⟩ (gate_eq_none hauth hring _ _) (.direct ⟨c, htx⟩) rd srv
        cases h with
        | idle hqueue hrunning h =>
            refine .idle ?_ (hrun.trans hrunning) ?_
            · rw [hconn, tx_executePlain]
              exact hqueue
            · rw [hhistory]
              exact h.direct _
        | queueing hqueue _ _ _ _ =>
            rw [TxState.inMulti, hqueue] at hmulti
            exact absurd rfl hmulti
        | executing _ _ hrunning _ _ _ => cases hidle.symm.trans hrunning
    · rw [gate_eq_none hauth hring]
      exact ordered_control h hidle _ rd srv

theorem ordered_proceed {cl : Client} (h : cl.Ordered) {rd : Readings} {srv : Server} {p : Server × Client}
    (hp : cl.proceed cfg rd srv = some p) : p.2.Ordered := by
  cases h with
  | idle _ hrunning _ =>
      rw [Client.proceed, hrunning] at hp
      cases hp
  | queueing _ hrunning _ _ _ =>
      rw [Client.proceed, hrunning] at hp
      cases hp
  | @executing l mid done rest hqueue hwatched hrunning hl hmid h =>
      rw [Client.proceed, hrunning] at hp
      cases rest with
      | nil =>
          cases hp
          refine .idle hqueue rfl ?_
          rw [List.append_nil] at hmid
          show Orderly (cl.history ++ [Deed.committed])
          rw [h]
          exact hl.committed hmid
      | cons c rest =>
          cases hp
          obtain ⟨-, hconn, -, hrun⟩ := Client.run_conn cfg (.dispatched c) rd c srv { cl with running := some rest }
          have hhistory := Client.run_history { cl with running := some rest } c
            (gate_eq_none hauth hring _ _) (.dispatched c) rd srv
          have hmore : Queueing ((done ++ [c]) ++ rest) mid := by
            rw [List.append_assoc]
            exact hmid
          refine .executing ?_ ?_ hrun hl hmore ?_
          · rw [hconn, tx_executePlain]
            exact hqueue
          · rw [hconn, tx_executePlain]
            exact hwatched
          · rw [hhistory]
            show cl.history ++ [Deed.dispatched c] = _
            rw [h, List.map_append, List.append_assoc]
            rfl

omit hauth hring in
/-- Control leaves the task alive. -/
theorem Client.control_alive (cl : Client) (t : TxControl) (rd : Readings) (srv : Server) :
    (cl.control cfg rd t srv).alive = cl.alive := by
  unfold Client.control
  cases t with
  | multi =>
      simp only
      split
      · rfl
      · rfl
  | discard =>
      simp only
      split
      · rfl
      · rfl
  | watch keys => rfl
  | unwatch => rfl
  | exec =>
      simp only
      split
      · rfl
      · split
        · rfl
        · rfl

omit hauth hring in
/-- Only an `EXEC` that commits has a queue to run, and the task goes on living. -/
theorem Client.receive_running {cl : Client} (hidle : cl.running = none) (halive : cl.alive = true)
    (input : Parse Command) (rd : Readings) (srv : Server)
    (h : (cl.receive cfg input rd srv).2.running ≠ none) : (cl.receive cfg input rd srv).2.alive = true := by
  unfold Client.receive at h ⊢
  split at h
  · exact absurd hidle h
  · exact absurd hidle h
  · split at h
    · split at h
      · exact absurd hidle h
      · obtain ⟨-, -, -, hrun⟩ := Client.run_conn cfg (.direct ⟨_, ‹_›⟩) rd ⟨_, ‹_›⟩ srv cl
        exact absurd (hrun.trans hidle) h
    · split at h
      · exact absurd hidle h
      · exact (cl.control_alive _ rd srv).trans halive

end Steps

/-! ## Once, in order, or not at all -/

section Transactional

variable [KeyHash] [Lua] [Codec] {cfg : ServerConfig}

variable (cfg) in
/-- The next command of an `EXEC` neither panics nor runs a script that never returns. -/
def QueuedAnswered (w : World) : WorldEvent → Prop
  | .receive _ _ _ => True
  | .proceed i rd =>
      ∀ c rest, (w.clients i).running = some (c :: rest) → ¬ Unanswered cfg rd c.1 w.server (w.clients i).conn

instance (w : World) : ∀ e, Decidable (QueuedAnswered cfg w e)
  | .receive _ _ _ => isTrue trivial
  | .proceed i rd =>
      match hrunning : (w.clients i).running with
      | some (c :: rest) =>
          decidable_of_iff (¬ Unanswered cfg rd c.1 w.server (w.clients i).conn)
            ⟨fun h c' rest' hrest => by cases hrunning.symm.trans hrest; exact h, fun h => h c rest hrunning⟩
      | some [] => isTrue fun c rest hrest => by cases hrunning.symm.trans hrest
      | none => isTrue fun c rest hrest => by cases hrunning.symm.trans hrest

/-- What transactions promise, of every connection. -/
structure Transactional (cfg : ServerConfig) (w : World) : Prop where
  /-- The commands of a transaction ran each once and in order, or none of them ran. -/
  ordered : ∀ i, (w.clients i).Ordered
  /-- An `EXEC` that runs its queue can go on. -/
  completes : ∀ i rd, (w.clients i).running ≠ none → ∃ w', w.step cfg (.proceed i rd) = some w'
  /-- A command that arrives inside `MULTI` is put into the queue, and nothing else changes. -/
  queues : ∀ i (c : QueuedCommand) rd, (w.clients i).conn.tx.inMulti = true →
    (w.clients i).receive cfg (.ok c.1) rd w.server
      = (w.server, { w.clients i with
          conn := { (w.clients i).conn with tx := (w.clients i).conn.tx.enqueue c } }.did (.queued c))
  /-- `EXEC` and `DISCARD` leave `MULTI`, and what they end has no watches left. -/
  ends : ∀ i c rd, c = .exec ∨ c = .discard →
    ((w.clients i).receive cfg (.ok c) rd w.server).2.conn.tx.queue = none ∧
      ((w.clients i).conn.tx.inMulti = true →
        ((w.clients i).receive cfg (.ok c) rd w.server).2.conn.tx.watched = fun _ => none)
  /-- The same after every command of the queue and at the end of the `EXEC`. -/
  stays : ∀ i rd p, (w.clients i).proceed cfg rd w.server = some p →
    p.2.conn.tx.queue = none ∧ p.2.conn.tx.watched = fun _ => none
  /-- No control command is queued. -/
  noControl : ∀ i cs, (w.clients i).conn.tx.queue = some cs ∨ (w.clients i).running = some cs →
    ∀ c ∈ cs, txControl c.1 = none
  /-- The call that `EXEC` makes for a queued command dispatches it and calls nothing again. -/
  noRecursion : ∀ i c rest req, (w.clients i).running = some (c :: rest) → req.command = c.1 →
    execute cfg req w.server (w.clients i).conn = executePlain cfg req.readings c w.server (w.clients i).conn

theorem Client.receive_queued {cl : Client} (hmulti : cl.conn.tx.inMulti = true) (c : QueuedCommand) (rd : Readings)
    (srv : Server) :
    cl.receive cfg (.ok c.1) rd srv
      = (srv, { cl with conn := { cl.conn with tx := cl.conn.tx.enqueue c } }.did (.queued c)) := by
  simp only [Client.receive]
  split
  · rw [if_pos hmulti]
  · rename_i t ht
    cases c.2.symm.trans ht

omit [KeyHash] [Lua] [Codec] in
theorem Client.Ordered.proceeding {cl : Client} (h : cl.Ordered) {rest : List QueuedCommand}
    (hrunning : cl.running = some rest) :
    cl.conn.tx.queue = none ∧ cl.conn.tx.watched = fun _ => none := by
  cases h with
  | idle _ hidle _ => cases hidle.symm.trans hrunning
  | queueing _ hidle _ _ _ => cases hidle.symm.trans hrunning
  | executing hqueue hwatched _ _ _ _ => exact ⟨hqueue, hwatched⟩

/-- `EXEC` and `DISCARD` past the gates. -/
theorem Client.control_ends (cl : Client) {t : TxControl} (ht : t = .exec ∨ t = .discard) (rd : Readings)
    (srv : Server) :
    (cl.control cfg rd t srv).conn.tx.queue = none ∧
      (cl.conn.tx.inMulti = true → (cl.control cfg rd t srv).conn.tx.watched = fun _ => none) := by
  rcases ht with rfl | rfl
  · simp only [Client.control]
    cases hqueue : cl.conn.tx.queue with
    | none =>
        refine ⟨hqueue, fun hmulti => ?_⟩
        rw [TxState.inMulti, hqueue] at hmulti
        cases hmulti
    | some queue =>
        simp only
        split
        · exact ⟨rfl, fun _ => rfl⟩
        · exact ⟨rfl, fun _ => rfl⟩
  · cases hqueue : cl.conn.tx.queue with
    | none =>
        have hmulti : cl.conn.tx.inMulti = false := by rw [TxState.inMulti, hqueue]; rfl
        simp only [Client.control, FerricCache.control, hmulti, Bool.not_false, Bool.false_eq_true, if_true, if_false]
        exact ⟨hqueue, fun h => (by cases h)⟩
    | some queue =>
        have hmulti : cl.conn.tx.inMulti = true := by rw [TxState.inMulti, hqueue]; rfl
        simp only [Client.control, FerricCache.control, hmulti, Bool.not_true, Bool.false_eq_true, if_true, if_false]
        exact ⟨rfl, fun _ => rfl⟩

end Transactional

/-- A frame of a connection, at a plain clock reading. -/
def WorldEvent.plain (i : Nat) (c : Command) : WorldEvent :=
  .receive i (.ok c) (Request.plain (durationSecs 1) c).readings

/-- The next command of an `EXEC`, at a plain clock reading. -/
def WorldEvent.next (i : Nat) : WorldEvent := .proceed i (Request.plain (durationSecs 1) .exec).readings

section Stuck

variable [KeyHash] [Lua] [Codec] {cfg : ServerConfig} {w : World} {i : Nat}

/-- A connection that is stopped in the middle of an `EXEC` does not come to its end. -/
theorem not_transactional_of_stopped (hrunning : (w.clients i).running.isSome = true)
    (hstopped : (w.clients i).alive = false) : ¬ Transactional cfg w := by
  intro h
  obtain ⟨w', hstep⟩ :=
    h.completes i (Request.plain (durationSecs 1) .exec).readings (Option.isSome_iff_ne_none.mp hrunning)
  rw [World.step, hstopped] at hstep
  cases hstep

end Stuck

/-- Where a history stands, and whether a frame was refused since its `MULTI`. -/
inductive Moment
  | outside
  | inside (refused : Bool)
  | executing (refused : Bool)
  deriving DecidableEq

/-- The moment after one more deed. -/
def Moment.after : Moment → Deed → Moment
  | .outside, .began => .inside false
  | .inside _, .rejected => .inside true
  | .inside _, .discarded => .outside
  | .inside _, .aborted => .outside
  | .inside refused, .committing => .executing refused
  | .executing _, .committed => .outside
  | m, _ => m

/-- The moment at the end of a history. -/
def moment (h : List Deed) : Moment := h.foldl Moment.after .outside

/-- No queued command was dispatched by an `EXEC` that came after a refused frame. -/
def NoneAfterRefusal (h : List Deed) : Prop :=
  ∀ l c r, h = l ++ .dispatched c :: r → moment l ≠ .executing true

theorem moment_append (h : List Deed) (d : Deed) : moment (h ++ [d]) = (moment h).after d :=
  List.foldl_concat Moment.after Moment.outside d h

theorem noneAfterRefusal_append {h : List Deed} (hh : NoneAfterRefusal h) {d : Deed}
    (hd : ∀ c, d = .dispatched c → moment h ≠ .executing true) : NoneAfterRefusal (h ++ [d]) := by
  intro l c r hlr
  rcases List.eq_nil_or_concat r with rfl | ⟨r, x, rfl⟩
  · obtain ⟨rfl, hc⟩ := List.append_inj' hlr rfl
    exact hd c (List.cons.inj hc).1
  · rw [List.concat_eq_append, ← List.cons_append, ← List.append_assoc] at hlr
    exact hh l c r (List.append_inj' hlr rfl).1

section Refusal

variable [KeyHash] [Lua] [Codec] (cfg : ServerConfig)

omit [Lua] [Codec] in
/-- An `EXEC` after a refused frame dispatches nothing anyway: the gates refuse it or every command it queued, or a
    watched shard changed. -/
def Client.Harmless (srv : Server) (cl : Client) (c : Command) : Prop :=
  txControl c = some .exec → moment cl.history = .inside true → gate cfg cl.conn c = none →
    cl.conn.tx.anyWatchedChanged srv.versions = false →
    ∀ q ∈ cl.conn.tx.queue.getD [], gate cfg cl.conn q.1 ≠ none

instance (srv : Server) (cl : Client) (c : Command) : Decidable (cl.Harmless cfg srv c) :=
  inferInstanceAs (Decidable (_ → _ → _ → _ → ∀ q ∈ cl.conn.tx.queue.getD [], gate cfg cl.conn q.1 ≠ none))

/-- Every `EXEC` after a refused frame dispatches nothing anyway. -/
def RefusalHarmless (w : World) : WorldEvent → Prop
  | .receive i (.ok c) _ => (w.clients i).Harmless cfg w.server c
  | .receive _ (.error _) _ => True
  | .proceed _ _ => True

instance (w : World) : ∀ e, Decidable (RefusalHarmless cfg w e)
  | .receive i (.ok c) _ => inferInstanceAs (Decidable ((w.clients i).Harmless cfg w.server c))
  | .receive _ (.error _) _ => isTrue trivial
  | .proceed _ _ => isTrue trivial

/-- Where a connection stands, read off its history. -/
inductive Client.Standing (cl : Client) : Prop
  | outside (hmoment : moment cl.history = .outside) (hqueue : cl.conn.tx.queue = none) (hrunning : cl.running = none)
  | inside (refused : Bool) {cs : List QueuedCommand} (hmoment : moment cl.history = .inside refused)
      (hqueue : cl.conn.tx.queue = some cs) (hrunning : cl.running = none)
  | executing (refused : Bool) {rest : List QueuedCommand} (hmoment : moment cl.history = .executing refused)
      (hqueue : cl.conn.tx.queue = none) (hrunning : cl.running = some rest)
      (hrest : refused = true → ∀ c ∈ rest, gate cfg cl.conn c.1 ≠ none)

variable {cfg}

/-- A command through the gates is recorded or refused. -/
theorem Client.run_recorded (cl : Client) (d : Deed) (c : QueuedCommand) (rd : Readings) (srv : Server) :
    (gate cfg cl.conn c = none ∧ (cl.run cfg d rd c srv).2.history = cl.history ++ [d]) ∨
      (gate cfg cl.conn c ≠ none ∧ (cl.run cfg d rd c srv).2.history = cl.history ∧
        (cl.run cfg d rd c srv).2.conn = cl.conn) := by
  cases hgate : gate cfg cl.conn c with
  | none => exact Or.inl ⟨rfl, cl.run_history c hgate d rd srv⟩
  | some r =>
      refine Or.inr ⟨fun h => (by cases h), ?_⟩
      simp only [Client.run, executePlain, hgate]
      exact ⟨rfl, rfl⟩

/-- The connection stands where its history says, and kept the promise. -/
def Client.Kept (cfg : ServerConfig) (cl : Client) : Prop := cl.Standing cfg ∧ NoneAfterRefusal cl.history

theorem kept_control {cl : Client} (h : cl.Kept cfg) (hidle : cl.running = none) (t : TxControl) (rd : Readings)
    (srv : Server)
    (ht : t = .exec → moment cl.history = .inside true → cl.conn.tx.anyWatchedChanged srv.versions = false →
      ∀ cs, cl.conn.tx.queue = some cs → ∀ c ∈ cs, gate cfg cl.conn c.1 ≠ none) :
    (cl.control cfg rd t srv).Kept cfg := by
  obtain ⟨hstands, hnone⟩ := h
  have hturn : cl.Turn srv t (cl.control cfg rd t srv) := cl.control_turn t rd srv
  -- what control records is never a dispatch
  have hrecord : ∀ d : Deed, (∀ c, d ≠ .dispatched c) → NoneAfterRefusal (cl.history ++ [d]) :=
    fun d hd => noneAfterRefusal_append hnone fun c hc => absurd hc (hd c)
  cases hstands with
  | executing _ _ _ hrunning _ => cases hidle.symm.trans hrunning
  | outside hmoment hqueue hrunning =>
      cases hturn with
      | same hqueue' hrunning' hhistory =>
          exact ⟨.outside (by rw [hhistory, hmoment]) (hqueue'.trans hqueue) (hrunning'.trans hrunning),
            by rw [hhistory]; exact hnone⟩
      | opens _ hqueue' hrunning' hhistory =>
          refine ⟨.inside false ?_ hqueue' (hrunning'.trans hrunning), ?_⟩
          · rw [hhistory, moment_append, hmoment]
            rfl
          · rw [hhistory]
            exact hrecord _ fun c hc => (by cases hc)
      | drops _ hsome _ _ _ => cases hqueue.symm.trans hsome
      | commits _ hsome _ _ _ _ => cases hqueue.symm.trans hsome
  | @inside refused cs hmoment hqueue hrunning =>
      cases hturn with
      | same hqueue' hrunning' hhistory =>
          exact ⟨.inside refused (by rw [hhistory, hmoment]) (hqueue'.trans hqueue) (hrunning'.trans hrunning),
            by rw [hhistory]; exact hnone⟩
      | opens hempty _ _ _ => cases hqueue.symm.trans hempty
      | drops hd _ hqueue' hrunning' hhistory =>
          rw [Client.Kept, hhistory]
          rcases hd with rfl | rfl
          · refine ⟨.outside ?_ hqueue' (hrunning'.trans hrunning), hrecord _ fun c hc => (by cases hc)⟩
            rw [hhistory, moment_append, hmoment]
            rfl
          · refine ⟨.outside ?_ hqueue' (hrunning'.trans hrunning), hrecord _ fun c hc => (by cases hc)⟩
            rw [hhistory, moment_append, hmoment]
            rfl
      | @commits cs' hexec hsome hwatched hconn hrunning' hhistory =>
          cases hqueue.symm.trans hsome
          rw [Client.Kept, hhistory]
          refine ⟨.executing refused ?_ ?_ hrunning' ?_, hrecord _ fun c hc => (by cases hc)⟩
          · rw [hhistory, moment_append, hmoment]
            rfl
          · rw [hconn]
            rfl
          · intro hrefused
            rw [hrefused] at hmoment
            rw [hconn]
            exact ht hexec hmoment hwatched cs hqueue

theorem kept_receive {w : World} {i : Nat} {input : Parse Command} {rd : Readings} (h : (w.clients i).Kept cfg)
    (hidle : (w.clients i).running = none) (hharmless : RefusalHarmless cfg w (.receive i input rd)) :
    ((w.clients i).receive cfg input rd w.server).2.Kept cfg := by
  generalize hcl : w.clients i = cl at h hidle ⊢
  obtain ⟨hstands, hnone⟩ := h
  unfold Client.receive
  split
  · -- a malformed request
    have hmore : NoneAfterRefusal (cl.history ++ [Deed.rejected]) :=
      noneAfterRefusal_append hnone fun c hc => (by cases hc)
    cases hstands with
    | outside hmoment hqueue hrunning =>
        refine ⟨.outside ?_ hqueue hrunning, hmore⟩
        show moment (cl.history ++ [Deed.rejected]) = _
        rw [moment_append, hmoment]
        rfl
    | inside _ hmoment hqueue hrunning =>
        refine ⟨.inside true ?_ hqueue hrunning, hmore⟩
        show moment (cl.history ++ [Deed.rejected]) = _
        rw [moment_append, hmoment]
        rfl
    | executing _ _ _ hrunning _ => cases hidle.symm.trans hrunning
  · -- the parser panicked: only the connection ends
    refine ⟨?_, hnone⟩
    cases hstands with
    | outside hmoment hqueue hrunning => exact .outside hmoment hqueue hrunning
    | inside refused hmoment hqueue hrunning => exact .inside refused hmoment hqueue hrunning
    | executing _ _ _ hrunning _ => cases hidle.symm.trans hrunning
  · rename_i c
    split
    · rename_i htx
      split
      · rename_i hmulti
        cases hstands with
        | outside _ hqueue _ =>
            rw [TxState.inMulti, hqueue] at hmulti
            cases hmulti
        | @inside refused cs hmoment hqueue hrunning =>
            have hqueue' : (cl.conn.tx.enqueue ⟨c, htx⟩).queue = some (cs ++ [⟨c, htx⟩]) := by
              rw [TxState.enqueue, hqueue]
              rfl
            refine ⟨.inside refused ?_ hqueue' hrunning, noneAfterRefusal_append hnone fun c hc => (by cases hc)⟩
            show moment (cl.history ++ [Deed.queued ⟨c, htx⟩]) = _
            rw [moment_append, hmoment]
            rfl
        | executing _ _ _ hrunning _ => cases hidle.symm.trans hrunning
      · rename_i hmulti
        obtain ⟨-, hconn, -, hrun⟩ := Client.run_conn cfg (.direct ⟨c, htx⟩) rd ⟨c, htx⟩ w.server cl
        have hqueue' : (cl.run cfg (.direct ⟨c, htx⟩) rd ⟨c, htx⟩ w.server).2.conn.tx.queue = cl.conn.tx.queue := by
          rw [hconn, tx_executePlain]
        cases hstands with
        | outside hmoment hqueue hrunning =>
            rcases cl.run_recorded (.direct ⟨c, htx⟩) ⟨c, htx⟩ rd w.server with ⟨-, hhistory⟩ | ⟨-, hhistory, -⟩
            · refine ⟨.outside ?_ (hqueue'.trans hqueue) (hrun.trans hrunning), ?_⟩
              · rw [hhistory, moment_append, hmoment]
                rfl
              · rw [hhistory]
                exact noneAfterRefusal_append hnone fun c hc => (by cases hc)
            · refine ⟨.outside ?_ (hqueue'.trans hqueue) (hrun.trans hrunning), ?_⟩
              · rw [hhistory, hmoment]
              · rw [hhistory]
                exact hnone
        | inside _ _ hqueue _ =>
            rw [TxState.inMulti, hqueue] at hmulti
            exact absurd rfl hmulti
        | executing _ _ _ hrunning _ => cases hidle.symm.trans hrunning
    · rename_i t htx
      cases hgate : gate cfg cl.conn c with
      | some r => exact ⟨hstands, hnone⟩
      | none =>
          refine kept_control ⟨hstands, hnone⟩ hidle t rd w.server fun hexec hmoment hwatched cs hqueue => ?_
          rw [hexec] at htx
          rw [RefusalHarmless, hcl, Client.Harmless, hqueue] at hharmless
          exact hharmless htx hmoment hgate hwatched

theorem kept_proceed {cl : Client} (h : cl.Kept cfg) {rd : Readings} {srv : Server} {p : Server × Client}
    (hp : cl.proceed cfg rd srv = some p) : p.2.Kept cfg := by
  obtain ⟨hstands, hnone⟩ := h
  cases hstands with
  | outside _ _ hrunning =>
      rw [Client.proceed, hrunning] at hp
      cases hp
  | inside _ _ _ hrunning =>
      rw [Client.proceed, hrunning] at hp
      cases hp
  | @executing refused rest hmoment hqueue hrunning hrest =>
      rw [Client.proceed, hrunning] at hp
      cases rest with
      | nil =>
          cases hp
          refine ⟨.outside ?_ hqueue rfl, noneAfterRefusal_append hnone fun c hc => (by cases hc)⟩
          show moment (cl.history ++ [Deed.committed]) = _
          rw [moment_append, hmoment]
          rfl
      | cons c rest =>
          cases hp
          let going : Client := { cl with running := some rest }
          obtain ⟨-, hconn, -, hrun⟩ := Client.run_conn cfg (.dispatched c) rd c srv going
          have hqueue' : (going.run cfg (.dispatched c) rd c srv).2.conn.tx.queue = none := by
            rw [hconn, tx_executePlain]
            exact hqueue
          rcases going.run_recorded (.dispatched c) c rd srv with ⟨hgate, hhistory⟩ | ⟨-, hhistory, hsame⟩
          · -- a command that was dispatched is not one the gates refuse
            have hclean : refused = false := by
              cases refused with
              | false => rfl
              | true => exact absurd hgate (hrest rfl c List.mem_cons_self)
            refine ⟨.executing refused ?_ hqueue' hrun ?_, ?_⟩
            · rw [hhistory, moment_append]
              show (moment cl.history).after _ = _
              rw [hmoment]
              rfl
            · rw [hclean]
              intro hfalse
              cases hfalse
            · rw [hhistory]
              refine noneAfterRefusal_append hnone fun c _ => ?_
              show moment cl.history ≠ _
              rw [hmoment, hclean]
              intro hfalse
              cases hfalse
          · refine ⟨.executing refused ?_ hqueue' hrun ?_, ?_⟩
            · rw [hhistory]
              exact hmoment
            · rw [hsame]
              exact fun hrefused d hd => hrest hrefused d (List.mem_cons_of_mem _ hd)
            · rw [hhistory]
              exact hnone

/-- **An `EXEC` runs a transaction with a refused frame**, unless something else keeps it from dispatching: in the
    runs where that is so, no command queued beside a refused frame is ever dispatched. -/
theorem rejected_never_executed (cfg : ServerConfig) (srv : Server) (es : List WorldEvent) (w : World)
    (hes : Along (World.step cfg) (RefusalHarmless cfg) (World.start srv) es)
    (hrun : run (World.step cfg) (World.start srv) es = some w) (i : Nat) :
    NoneAfterRefusal (w.clients i).history := by
  have hkept : ∀ i, (w.clients i).Kept cfg := by
    refine clients_invariant (I := Client.Kept cfg) ?_ ?_ hes hrun ?_
    · intro w i input rd hkept hharmless _ hidle
      exact kept_receive hkept hidle hharmless
    · intro w i rd p hkept _ _ hp
      exact kept_proceed hkept hp
    · intro i
      refine ⟨.outside rfl rfl rfl, fun l c r h => ?_⟩
      cases l with
      | nil => cases h
      | cons d l => cases h
  exact (hkept i).2

end Refusal

/-- A refused frame in a transaction that `EXEC` aborts, for a watched key was written meanwhile. -/
theorem rejected_never_executed_watch :
    let _ := smallKeys
    let _ := noScripts
    let _ := incrCodec
    let _ := noEscapes
    let events := [WorldEvent.frame 0 [utf8 "WATCH", utf8 "k"], .frame 0 [utf8 "MULTI"],
      .frame 0 [utf8 "SET", utf8 "k", utf8 "v"], .frame 0 [utf8 "NOSUCH"],
      .frame 1 [utf8 "SET", utf8 "k", utf8 "w"], .frame 0 [utf8 "EXEC"]]
    ∃ w, run (World.step ⟨none, none, none⟩) (World.start Server.fresh) events = some w ∧
      (w.clients 0).history.length = 4 ∧ NoneAfterRefusal (w.clients 0).history := by
  intro _ _ _ _ events
  have hlength : (run (World.step ⟨none, none, none⟩) (World.start Server.fresh) events).map
      (fun w => (w.clients 0).history.length) = some 4 := by
    decide
  have hes : Along (World.step ⟨none, none, none⟩) (RefusalHarmless ⟨none, none, none⟩) (World.start Server.fresh)
      events := by
    decide +revert
  obtain ⟨w, hw, hfour⟩ := Option.map_eq_some_iff.mp hlength
  exact ⟨w, hw, hfour, rejected_never_executed ⟨none, none, none⟩ Server.fresh events w hes hw 0⟩

/-- Whether a deed dispatched a queued command. -/
def Deed.fromQueue : Deed → Bool
  | .dispatched _ => true
  | _ => false

theorem Deed.fromQueue_iff {d : Deed} : d.fromQueue = true ↔ ∃ c, d = .dispatched c := by
  constructor
  · intro h
    cases d with
    | dispatched c => exact ⟨c, rfl⟩
    | _ => cases h
  · rintro ⟨c, rfl⟩
    rfl

/-- `MULTI`, a `SET`, an unknown command, `EXEC`: the `SET` is dispatched. -/
theorem exec_after_unknown_command :
    let _ := smallKeys
    let _ := noScripts
    let _ := incrCodec
    let _ := noEscapes
    let events := [WorldEvent.frame 0 [utf8 "MULTI"], .frame 0 [utf8 "SET", utf8 "k", utf8 "v"],
      .frame 0 [utf8 "NOSUCH"], .frame 0 [utf8 "EXEC"], .next 0, .next 0]
    ∃ w, run (World.step ⟨none, none, none⟩) (World.start Server.fresh) events = some w ∧
      ¬ NoneAfterRefusal (w.clients 0).history := by
  intro _ _ _ _ events
  have hfifth : (run (World.step ⟨none, none, none⟩) (World.start Server.fresh) events).map
      (fun w => ((w.clients 0).history[4]?.map Deed.fromQueue, moment ((w.clients 0).history.take 4)))
        = some (some true, .executing true) := by
    decide
  obtain ⟨w, hw, hdeed⟩ := Option.map_eq_some_iff.mp hfifth
  obtain ⟨hget, hmoment⟩ := Prod.ext_iff.mp hdeed
  obtain ⟨d, hd, hqueue⟩ := Option.map_eq_some_iff.mp hget
  obtain ⟨hlt, hd⟩ := List.getElem?_eq_some_iff.mp hd
  obtain ⟨c, rfl⟩ := Deed.fromQueue_iff.mp hqueue
  refine ⟨w, hw, fun h => h ((w.clients 0).history.take 4) c ((w.clients 0).history.drop 5) ?_ hmoment⟩
  rw [← hd, ← List.drop_eq_getElem_cons hlt, List.take_append_drop]

end FerricCache
