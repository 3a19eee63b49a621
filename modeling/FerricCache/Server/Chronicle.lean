import FerricCache.Server.Contention
import FerricCache.Server.TxHistory

/-!
# `FerricCache.Server.Chronicle` — runs and what was done in them

`EXEC` runs its queue command by command, and other connections run commands in between. A `Chronicle` is a run with
what was done in it: every `WATCH`, every `EXEC` that went on to run its queue, and every command dispatched, each with
the job it belongs to (an `EXEC` and its commands are one job, anything else is a job by itself) and the mark of what it
looked at and wrote.

What was done, one thing after the other, is what happened (`faithful_step`), and no cycle of conflicts comes about
while no step closes one (`acyclic_step`).
-/

namespace FerricCache

open Lib.Run Lib.Serial

/-! ## What is done -/

/-- Something a connection did that has to have its place in an order of all. -/
inductive Action
  /-- `WATCH` took versions. -/
  | watch (i : Nat) (keys : List Bytes)
  /-- `EXEC` found its watches unchanged, each with the job of its `WATCH`, and goes on to run the queue. -/
  | commit (i : Nat) (watched : List (Bytes × Nat)) (queue : List QueuedCommand)
  /-- A command went through the gates and the dispatch. -/
  | command (i : Nat) (rd : Readings) (c : QueuedCommand)

/-- The connection. -/
def Action.client : Action → Nat
  | .watch i _ | .commit i _ _ | .command i _ _ => i

/-- The command that was dispatched. -/
def Action.dispatched : Action → Option QueuedCommand
  | .command _ _ c => some c
  | .watch _ _ | .commit _ _ _ => none

/-- A part of the server, or a connection's own state. -/
inductive Cell
  | shared (x : Shared)
  | conn (i : Nat)

/-- The server and the state of every connection. -/
structure Scene [KeyHash] where
  server : Server
  conns : Nat → ConnState

section Actions

variable [KeyHash]

/-- What the cells hold. -/
def Scene.view (h : Scene) : Cell → Datum
  | .shared x => h.server.look x
  | .conn i => .conn (h.conns i).authedUser (h.conns i).sub

/-- The server and the connections of a world. -/
def World.scene (w : World) : Scene := ⟨w.server, fun i => (w.clients i).conn⟩

variable [Lua] [Codec] (cfg : ServerConfig)

/-- Do it: the replies, and what comes of it. `WATCH` and the test of `EXEC` leave everything as it is. -/
def Action.run : Action → Scene → List Response × Scene
  | .watch _ _, h => ([.ok], h)
  | .commit _ _ _, h => ([], h)
  | .command i rd c, h =>
      let r := executePlain cfg rd c h.server (h.conns i)
      (r.1.toList, ⟨r.2.1, Function.update h.conns i r.2.2⟩)

/-- What an action looks at: `WATCH` and `EXEC` at the watched keys, a command at what its `looks` says, and all at
    their connection. -/
def Action.looks (h : Scene) : Action → Set Cell
  | .watch i keys => {x | x = .conn i ∨ ∃ k ∈ keys, x = .shared (.entry k)}
  | .commit i watched _ => {x | x = .conn i ∨ ∃ p ∈ watched, x = .shared (.entry p.1)}
  | .command i rd c => {x | x = .conn i ∨ ∃ y ∈ FerricCache.looks cfg rd c h.server (h.conns i), x = .shared y}

/-- What an action writes. -/
def Action.alters (h : Scene) : Action → Set Cell
  | .watch i _ | .commit i _ _ => {.conn i}
  | .command i rd c => {x | x = .conn i ∨ ∃ y ∈ FerricCache.alters cfg rd c h.server (h.conns i), x = .shared y}

/-- An action in a run. -/
abbrev Act := Entry Action Cell Datum (List Response)

/-- The action with the mark it has here. -/
noncomputable def Action.mark (a : Action) (h : Scene) : Mark Cell Datum (List Response) :=
  record Scene.view (Action.run cfg) a h (a.looks cfg h) (a.alters cfg h)

variable {cfg}

/-- **The marks are right.** -/
theorem obeys_mark (a : Action) (h : Scene) : Obeys Scene.view (Action.run cfg) a (a.mark cfg h) h := by
  refine obeys_record fun t ht => ?_
  cases a with
  | watch i keys =>
      refine ⟨rfl, ?_, fun _ _ => rfl⟩
      rintro x rfl
      exact ht (.conn i) (Or.inl rfl)
  | commit i watched queue =>
      refine ⟨rfl, ?_, fun _ _ => rfl⟩
      rintro x rfl
      exact ht (.conn i) (Or.inl rfl)
  | command i rd c =>
      have hconn : SameConn (h.conns i) (t.conns i) := by
        obtain ⟨huser, hsub⟩ := Datum.conn.inj (ht (.conn i) (Or.inl rfl))
        exact ⟨huser, hsub⟩
      obtain ⟨hreply, hconn', hwrites, hframe⟩ := executePlain_within cfg rd c h.server (h.conns i) t.server (t.conns i)
        (fun y hy => ht (.shared y) (Or.inr ⟨y, hy, rfl⟩)) hconn
      refine ⟨congrArg Option.toList hreply, ?_, ?_⟩
      · rintro x (rfl | ⟨y, hy, rfl⟩)
        · show Datum.conn (Function.update t.conns i _ i).authedUser (Function.update t.conns i _ i).sub
            = Datum.conn (Function.update h.conns i _ i).authedUser (Function.update h.conns i _ i).sub
          rw [Function.update_self, Function.update_self, hconn'.user, hconn'.sub]
        · exact hwrites y hy
      · intro x hx
        cases x with
        | shared y => exact hframe y fun hy => hx (Or.inr ⟨y, hy, rfl⟩)
        | conn j =>
            have hij : j ≠ i := fun hij => hx (Or.inl (by rw [hij]))
            show Datum.conn (Function.update t.conns i _ j).authedUser (Function.update t.conns i _ j).sub = _
            rw [Function.update_of_ne hij]
            rfl

theorem mark_writes {a : Action} {h : Scene} {x : Cell} : (a.mark cfg h).writes x ≠ none ↔ x ∈ a.alters cfg h := by
  unfold Action.mark record
  dsimp only
  split
  · exact iff_of_true (Option.some_ne_none _) ‹_›
  · exact iff_of_false (fun h => h rfl) ‹_›

omit [Lua] [Codec] in
theorem Scene.view_ext {h t : Scene} (hserver : t.server.look = h.server.look)
    (hconns : ∀ j, SameConn (h.conns j) (t.conns j)) : t.view = h.view := by
  funext x
  cases x with
  | shared y => exact congrFun hserver y
  | conn j =>
      show Datum.conn (t.conns j).authedUser (t.conns j).sub = _
      rw [(hconns j).user, (hconns j).sub]
      rfl

/-- Two actions of one connection are never apart. -/
theorem not_apart_of_client {a b : Action} {h h' : Scene} (hab : a.client = b.client) :
    ¬ (a.mark cfg h).Apart (b.mark cfg h') := by
  intro hapart
  have hlooks : Cell.conn a.client ∈ a.looks cfg h := by cases a <;> exact Or.inl rfl
  have halters : Cell.conn a.client ∈ b.alters cfg h' := by
    rw [hab]
    cases b with
    | command i rd c => exact Or.inl rfl
    | _ => rfl
  exact mark_writes.mpr halters (hapart.left _ hlooks)

/-- The test of an `EXEC` and another connection's command that writes no watched key. -/
theorem apart_commit {i j : Nat} (hij : i ≠ j) {watched : List (Bytes × Nat)} {queue : List QueuedCommand}
    {rd : Readings} {c : QueuedCommand} {h h' : Scene}
    (hkeys : ∀ p ∈ watched, .entry p.1 ∉ alters cfg rd c h'.server (h'.conns j)) :
    ((Action.commit i watched queue).mark cfg h).Apart ((Action.command j rd c).mark cfg h') := by
  refine ⟨fun y hy => ?_, fun y hy => ?_, fun y u v hu hv => ?_⟩
  · by_contra hno
    rcases mark_writes.mp hno with rfl | ⟨z, hz, rfl⟩
    · rcases hy with hy | ⟨p, -, hy⟩
      · exact hij (Cell.conn.inj hy).symm
      · cases hy
    · rcases hy with hy | ⟨p, hp, hy⟩
      · cases hy
      · cases hy
        exact hkeys p hp hz
  · by_contra hno
    have hconn : y = .conn i := mark_writes.mp hno
    subst hconn
    rcases hy with hy | ⟨z, -, hy⟩
    · exact hij (Cell.conn.inj hy)
    · cases hy
  · have hconn : y = .conn i := mark_writes.mp (hu ▸ Option.some_ne_none u)
    subst hconn
    rcases mark_writes.mp (hv ▸ Option.some_ne_none v) with hy | ⟨z, -, hy⟩
    · exact absurd (Cell.conn.inj hy) hij
    · cases hy

end Actions

/-! ## Runs with what was done -/

/-- A world, what was done in it so far, the keys that each connection watches with the jobs of their `WATCH`, and the
    job that each connection last began. -/
structure Chronicle [KeyHash] where
  world : World
  entries : List Act
  watching : Nat → List (Bytes × Nat)
  job : Nat → Nat

namespace Chronicle

variable [KeyHash]

/-- Nothing done yet. -/
def start (srv : Server) : Chronicle := ⟨World.start srv, [], fun _ => [], fun _ => 0⟩

/-- What transaction control past the gates does, and what the connection watches then. -/
def controls (x : Chronicle) (i : Nat) : TxControl → Option Action × List (Bytes × Nat)
  | .multi => (none, x.watching i)
  | .discard => (none, if (x.world.clients i).conn.tx.inMulti then [] else x.watching i)
  | .unwatch => (none, [])
  | .watch keys =>
      if (x.world.clients i).conn.tx.inMulti then (none, x.watching i)
      else (some (.watch i keys), x.watching i ++ keys.map fun k => (k, x.entries.length))
  | .exec =>
      match (x.world.clients i).conn.tx.queue with
      | none => (none, x.watching i)
      | some queue =>
          (if (x.world.clients i).conn.tx.anyWatchedChanged x.world.server.versions then none
            else some (.commit i (x.watching i) queue), [])

variable [Lua] [Codec] (cfg : ServerConfig)

/-- What an event does, and what its connection watches then. -/
def does (x : Chronicle) : WorldEvent → Option Action × List (Bytes × Nat)
  | .receive i (.ok c) rd =>
      match h : txControl c with
      | none =>
          (if (x.world.clients i).conn.tx.inMulti then none else some (.command i rd ⟨c, h⟩), x.watching i)
      | some t => if (gate cfg (x.world.clients i).conn c).isSome then (none, x.watching i) else x.controls i t
  | .receive i (.error _) _ => (none, x.watching i)
  | .proceed i rd =>
      ((x.world.clients i).running.bind fun queue => queue.head?.map fun c => .command i rd c, x.watching i)

omit [Lua] [Codec] in
/-- A command of a queue belongs to its `EXEC`, anything else is a job of its own. -/
def jobOf (x : Chronicle) : WorldEvent → Nat
  | .receive _ _ _ => x.entries.length
  | .proceed i _ => x.job i

/-- What an event adds to the chronicle. -/
noncomputable def entry (x : Chronicle) (e : WorldEvent) : Option Act :=
  (x.does cfg e).1.map fun a => ⟨x.jobOf e, a, a.mark cfg x.world.scene⟩

/-- The chronicle of the world after an event. -/
noncomputable def next (x : Chronicle) (e : WorldEvent) (w : World) : Chronicle where
  world := w
  entries := x.entries ++ (x.entry cfg e).toList
  watching := Function.update x.watching e.client (x.does cfg e).2
  job := Function.update x.job e.client (x.jobOf e)

/-- One event. -/
noncomputable def step (x : Chronicle) (e : WorldEvent) : Option Chronicle := (x.world.step cfg e).map (x.next cfg e)

/-! ## One step -/

/-- The other connections are left alone. -/
structure Spares (i : Nat) (x x' : Chronicle) : Prop where
  clients : ∀ j, j ≠ i → x'.world.clients j = x.world.clients j
  watching : ∀ j, j ≠ i → x'.watching j = x.watching j
  job : ∀ j, j ≠ i → x'.job j = x.job j

/-- What a step of a connection can be. -/
inductive Turn (i : Nat) (x x' : Chronicle) : Prop
  /-- Nothing that needs a place in the order. -/
  | quiet (hentries : x'.entries = x.entries) (hserver : x'.world.server = x.world.server)
      (hconn : SameConn (x.world.clients i).conn (x'.world.clients i).conn)
      (hwatching : x'.watching i = [] ∨ x'.watching i = x.watching i ∧
        (x'.world.clients i).conn.tx.watched = (x.world.clients i).conn.tx.watched)
      (hrunning : (x.world.clients i).running = none ∨ (x.world.clients i).running = some [])
      (hrunning' : (x'.world.clients i).running = none)
  | watches {keys : List Bytes}
      (hentries : x'.entries = x.entries ++
        [⟨x.entries.length, .watch i keys, (Action.watch i keys).mark cfg x.world.scene⟩])
      (hserver : x'.world.server = x.world.server)
      (hconn : SameConn (x.world.clients i).conn (x'.world.clients i).conn)
      (hwatching : x'.watching i = x.watching i ++ keys.map fun k => (k, x.entries.length))
      (htx : (x'.world.clients i).conn.tx = watchLoop x.world.server.versions keys (x.world.clients i).conn.tx)
      (hrunning : (x.world.clients i).running = none) (hrunning' : (x'.world.clients i).running = none)
  | commits {queue : List QueuedCommand}
      (hentries : x'.entries = x.entries ++ [⟨x.entries.length, .commit i (x.watching i) queue,
        (Action.commit i (x.watching i) queue).mark cfg x.world.scene⟩])
      (hserver : x'.world.server = x.world.server)
      (hconn : SameConn (x.world.clients i).conn (x'.world.clients i).conn) (hwatching : x'.watching i = [])
      (hsame : (x.world.clients i).conn.tx.anyWatchedChanged x.world.server.versions = false)
      (hrunning : (x.world.clients i).running = none) (hrunning' : (x'.world.clients i).running = some queue)
      (hjob : x'.job i = x.entries.length)
  | commands {n : Nat} {rd : Readings} {c : QueuedCommand}
      (hentries : x'.entries = x.entries ++ [⟨n, .command i rd c, (Action.command i rd c).mark cfg x.world.scene⟩])
      (hserver : x'.world.server = (executePlain cfg rd c x.world.server (x.world.clients i).conn).2.1)
      (hconn : (x'.world.clients i).conn = (executePlain cfg rd c x.world.server (x.world.clients i).conn).2.2)
      (hwatching : x'.watching i = x.watching i)
      (hjob : (n = x.entries.length ∧ (x.world.clients i).running = none ∧ (x'.world.clients i).running = none) ∨
        n = x.job i ∧ x'.job i = x.job i ∧ ∃ rest, (x.world.clients i).running = some (c :: rest) ∧
          (x'.world.clients i).running = some rest)

variable {cfg} {x x' : Chronicle} {e : WorldEvent} {i : Nat}

theorem next_clients (p : Server × Client) :
    (x.next cfg e (x.world.put e.client p)).world.clients e.client = p.2 := World.put_clients _ _ _

theorem next_watching (w : World) : (x.next cfg e w).watching e.client = (x.does cfg e).2 := Function.update_self _ _ _

theorem next_job (w : World) : (x.next cfg e w).job e.client = x.jobOf e := Function.update_self _ _ _

theorem next_entries {a : Action} (h : (x.does cfg e).1 = some a) (w : World) :
    (x.next cfg e w).entries = x.entries ++ [⟨x.jobOf e, a, a.mark cfg x.world.scene⟩] := by
  unfold next entry
  rw [h]
  rfl

theorem next_entries_none (h : (x.does cfg e).1 = none) (w : World) : (x.next cfg e w).entries = x.entries := by
  unfold next entry
  rw [h]
  exact List.append_nil _

/-- An input that needs no place in the order. -/
theorem turn_quiet {cl' : Client} (hdoes : (x.does cfg e).1 = none)
    (hconn : SameConn (x.world.clients e.client).conn cl'.conn)
    (hwatching : (x.does cfg e).2 = [] ∨ (x.does cfg e).2 = x.watching e.client ∧
      cl'.conn.tx.watched = (x.world.clients e.client).conn.tx.watched)
    (hrunning : (x.world.clients e.client).running = none ∨ (x.world.clients e.client).running = some [])
    (hrunning' : cl'.running = none) :
    Turn cfg e.client x (x.next cfg e (x.world.put e.client (x.world.server, cl'))) := by
  have hclient : (x.next cfg e (x.world.put e.client (x.world.server, cl'))).world.clients e.client = cl' :=
    next_clients (x.world.server, cl')
  refine .quiet (next_entries_none hdoes _) rfl ?_ ?_ hrunning ?_
  · rw [hclient]
    exact hconn
  · rw [next_watching, hclient]
    exact hwatching
  · rw [hclient]
    exact hrunning'

omit [Lua] [Codec] in
theorem does_plain (c : QueuedCommand) (rd : Readings) : x.does cfg (.receive i (.ok c.1) rd)
    = (if (x.world.clients i).conn.tx.inMulti then none else some (.command i rd c), x.watching i) := by
  simp only [does]
  split
  · rfl
  · rename_i t ht
    cases c.2.symm.trans ht

omit [Lua] [Codec] in
theorem does_control {c : Command} {t : TxControl} (hc : txControl c = some t) (rd : Readings) :
    x.does cfg (.receive i (.ok c) rd)
      = if (gate cfg (x.world.clients i).conn c).isSome then (none, x.watching i) else x.controls i t := by
  simp only [does]
  split
  · rename_i hno
    cases hc.symm.trans hno
  · rename_i t' ht
    cases hc.symm.trans ht
    rfl

theorem receive_direct {cl : Client} (hmulti : cl.conn.tx.inMulti = false) (c : QueuedCommand) (rd : Readings)
    (srv : Server) : cl.receive cfg (.ok c.1) rd srv = cl.run cfg (.direct c) rd c srv := by
  simp only [Client.receive]
  split
  · rw [if_neg (Bool.eq_false_iff.mp hmulti)]
  · rename_i t ht
    cases c.2.symm.trans ht

theorem receive_control {cl : Client} {c : Command} {t : TxControl} (hc : txControl c = some t) (rd : Readings)
    (srv : Server) :
    cl.receive cfg (.ok c) rd srv
      = if (gate cfg cl.conn c).isSome then (srv, cl) else (srv, cl.control cfg rd t srv) := by
  simp only [Client.receive]
  split
  · rename_i hno
    cases hc.symm.trans hno
  · rename_i t' ht
    cases hc.symm.trans ht
    cases gate cfg cl.conn c <;> rfl

/-- A command dispatched on arrival, or put into the queue. -/
theorem turn_plain (c : QueuedCommand) (rd : Readings) (hidle : (x.world.clients i).running = none) :
    Turn cfg i x (x.next cfg (.receive i (.ok c.1) rd)
      (x.world.put i ((x.world.clients i).receive cfg (.ok c.1) rd x.world.server))) := by
  have hdoes : x.does cfg (.receive i (.ok c.1) rd) = _ := does_plain (i := i) c rd
  cases hmulti : (x.world.clients i).conn.tx.inMulti with
  | true =>
      rw [hmulti, if_pos rfl] at hdoes
      rw [Client.receive_queued hmulti]
      refine turn_quiet (e := .receive i (.ok c.1) rd) (congrArg Prod.fst hdoes) ⟨rfl, rfl⟩ ?_ (Or.inl hidle) hidle
      exact Or.inr ⟨congrArg Prod.snd hdoes, rfl⟩
  | false =>
      rw [hmulti, if_neg Bool.false_ne_true] at hdoes
      rw [receive_direct hmulti]
      obtain ⟨hserver, hconn, -, hrunning⟩ := Client.run_conn cfg (.direct c) rd c x.world.server (x.world.clients i)
      have hclient := World.put_clients x.world i ((x.world.clients i).run cfg (.direct c) rd c x.world.server)
      refine .commands (next_entries (congrArg Prod.fst hdoes) _) hserver ?_ ?_ (Or.inl ⟨rfl, hidle, ?_⟩)
      · exact (congrArg Client.conn hclient).trans hconn
      · exact (next_watching (e := .receive i (.ok c.1) rd) _).trans (congrArg Prod.snd hdoes)
      · exact (congrArg Client.running hclient).trans (hrunning.trans hidle)

/-- Transaction control past the gates. -/
theorem turn_past_gate {c : Command} {t : TxControl} {rd : Readings}
    (hdoes : x.does cfg (.receive i (.ok c) rd) = x.controls i t) (hidle : (x.world.clients i).running = none) :
    Turn cfg i x (x.next cfg (.receive i (.ok c) rd)
      (x.world.put i (x.world.server, (x.world.clients i).control cfg rd t x.world.server))) := by
  have hquiet : ∀ {cl' : Client}, (x.controls i t).1 = none → SameConn (x.world.clients i).conn cl'.conn →
      ((x.controls i t).2 = [] ∨ (x.controls i t).2 = x.watching i ∧
        cl'.conn.tx.watched = (x.world.clients i).conn.tx.watched) → cl'.running = none →
      Turn cfg i x (x.next cfg (.receive i (.ok c) rd) (x.world.put i (x.world.server, cl'))) := by
    intro cl' hnone hconn hwatching hrunning
    exact turn_quiet (e := .receive i (.ok c) rd) (hdoes ▸ hnone) hconn (hdoes ▸ hwatching) (Or.inl hidle) hrunning
  -- by whether a transaction is open; only an accepted `WATCH` and the test of an `EXEC` look past the connection
  cases t with
  | multi =>
      cases hmulti : (x.world.clients i).conn.tx.inMulti with
      | true =>
          simp only [Client.control, FerricCache.control, hmulti, if_true]
          exact hquiet rfl ⟨rfl, rfl⟩ (Or.inr ⟨rfl, rfl⟩) hidle
      | false =>
          simp only [Client.control, FerricCache.control, hmulti, Bool.false_eq_true, if_false]
          exact hquiet rfl ⟨rfl, rfl⟩ (Or.inr ⟨rfl, rfl⟩) hidle
  | discard =>
      cases hmulti : (x.world.clients i).conn.tx.inMulti with
      | true =>
          have hnothing : (x.controls i .discard).2 = [] := by simp only [controls, hmulti, if_true]
          simp only [Client.control, FerricCache.control, hmulti, Bool.not_true, Bool.false_eq_true, if_false, if_true]
          exact hquiet rfl ⟨rfl, rfl⟩ (Or.inl hnothing) hidle
      | false =>
          have hkept : (x.controls i .discard).2 = x.watching i := by
            simp only [controls, hmulti, Bool.false_eq_true, if_false]
          simp only [Client.control, FerricCache.control, hmulti, Bool.not_false, Bool.false_eq_true, if_false, if_true]
          exact hquiet rfl ⟨rfl, rfl⟩ (Or.inr ⟨hkept, rfl⟩) hidle
  | unwatch => exact hquiet rfl ⟨rfl, rfl⟩ (Or.inl rfl) hidle
  | watch keys =>
      cases hmulti : (x.world.clients i).conn.tx.inMulti with
      | true =>
          have hkept : x.controls i (.watch keys) = (none, x.watching i) := by simp only [controls, hmulti, if_true]
          simp only [Client.control, FerricCache.control, hmulti, if_true]
          exact hquiet (by rw [hkept]) ⟨rfl, rfl⟩ (Or.inr ⟨by rw [hkept], rfl⟩) hidle
      | false =>
          have hadds : x.controls i (.watch keys)
              = (some (.watch i keys), x.watching i ++ keys.map fun k => (k, x.entries.length)) := by
            simp only [controls, hmulti, Bool.false_eq_true, if_false]
          rw [hadds] at hdoes
          have hclient := World.put_clients x.world i
            (x.world.server, (x.world.clients i).control cfg rd (.watch keys) x.world.server)
          simp only [Client.control, FerricCache.control, hmulti, Bool.false_eq_true, if_false] at hclient ⊢
          refine .watches (next_entries (congrArg Prod.fst hdoes) _) rfl ?_ ?_ ?_ hidle ?_
          · exact (congrArg Client.conn hclient).symm ▸ ⟨rfl, rfl⟩
          · exact (next_watching (e := .receive i (.ok c) rd) _).trans (congrArg Prod.snd hdoes)
          · exact congrArg (fun cl : Client => cl.conn.tx) hclient
          · exact (congrArg Client.running hclient).trans hidle
  | exec =>
      cases hqueue : (x.world.clients i).conn.tx.queue with
      | none =>
          have hkept : x.controls i .exec = (none, x.watching i) := by simp only [controls, hqueue]
          simp only [Client.control, hqueue]
          exact hquiet (by rw [hkept]) ⟨rfl, rfl⟩ (Or.inr ⟨by rw [hkept], rfl⟩) hidle
      | some queue =>
          cases hchanged : (x.world.clients i).conn.tx.anyWatchedChanged x.world.server.versions with
          | true =>
              have haborts : x.controls i .exec = (none, []) := by simp only [controls, hqueue, hchanged, if_true]
              simp only [Client.control, hqueue, hchanged, if_true]
              exact hquiet (by rw [haborts]) ⟨rfl, rfl⟩ (Or.inl (by rw [haborts])) hidle
          | false =>
              have hruns : x.controls i .exec = (some (.commit i (x.watching i) queue), []) := by
                simp only [controls, hqueue, hchanged, Bool.false_eq_true, if_false]
              rw [hruns] at hdoes
              have hclient := World.put_clients x.world i
                (x.world.server, (x.world.clients i).control cfg rd .exec x.world.server)
              simp only [Client.control, hqueue, hchanged, Bool.false_eq_true, if_false] at hclient ⊢
              refine .commits (next_entries (congrArg Prod.fst hdoes) _) rfl ?_ ?_ hchanged hidle ?_ ?_
              · exact (congrArg Client.conn hclient).symm ▸ ⟨rfl, rfl⟩
              · exact (next_watching (e := .receive i (.ok c) rd) _).trans (congrArg Prod.snd hdoes)
              · exact congrArg Client.running hclient
              · exact next_job (e := .receive i (.ok c) rd) _

theorem turn_control {c : Command} {t : TxControl} (hc : txControl c = some t) (rd : Readings)
    (hidle : (x.world.clients i).running = none) :
    Turn cfg i x (x.next cfg (.receive i (.ok c) rd)
      (x.world.put i ((x.world.clients i).receive cfg (.ok c) rd x.world.server))) := by
  have hdoes : x.does cfg (.receive i (.ok c) rd) = _ := does_control (i := i) hc rd
  rw [receive_control hc]
  cases hgate : gate cfg (x.world.clients i).conn c with
  | some r =>
      rw [hgate, Option.isSome_some, if_pos rfl] at hdoes
      rw [Option.isSome_some, if_pos rfl]
      exact turn_quiet (e := .receive i (.ok c) rd) (congrArg Prod.fst hdoes) ⟨rfl, rfl⟩
        (Or.inr ⟨congrArg Prod.snd hdoes, rfl⟩) (Or.inl hidle) hidle
  | none =>
      rw [hgate, Option.isSome_none, if_neg Bool.false_ne_true] at hdoes
      rw [Option.isSome_none, if_neg Bool.false_ne_true]
      exact turn_past_gate hdoes hidle

/-- A command of the queue, or the end of the `EXEC`. -/
theorem turn_proceed {rd : Readings} {p : Server × Client}
    (hp : (x.world.clients i).proceed cfg rd x.world.server = some p) :
    Turn cfg i x (x.next cfg (.proceed i rd) (x.world.put i p)) := by
  unfold Client.proceed at hp
  cases hrunning : (x.world.clients i).running with
  | none =>
      rw [hrunning] at hp
      cases hp
  | some queue =>
      rw [hrunning] at hp
      cases queue with
      | nil =>
          cases hp
          have hnone : (x.does cfg (.proceed i rd)).1 = none := by
            simp only [does, hrunning]
            rfl
          exact turn_quiet (e := .proceed i rd) hnone ⟨rfl, rfl⟩ (Or.inr ⟨rfl, rfl⟩) (Or.inr hrunning) rfl
      | cons c rest =>
          cases hp
          have hsome : (x.does cfg (.proceed i rd)).1 = some (.command i rd c) := by
            simp only [does, hrunning]
            rfl
          obtain ⟨hserver, hconn, -, hrest⟩ := Client.run_conn cfg (.dispatched c) rd c x.world.server
            { x.world.clients i with running := some rest }
          have hclient := World.put_clients x.world i
            ({ x.world.clients i with running := some rest }.run cfg (.dispatched c) rd c x.world.server)
          refine .commands (next_entries hsome _) hserver ?_ ?_ (Or.inr ⟨rfl, ?_, rest, hrunning, ?_⟩)
          · exact (congrArg Client.conn hclient).trans hconn
          · exact next_watching (e := .proceed i rd) _
          · exact next_job (e := .proceed i rd) _
          · exact (congrArg Client.running hclient).trans hrest

/-- **What a step can be.** -/
theorem step_turn (h : x.step cfg e = some x') : Spares e.client x x' ∧ Turn cfg e.client x x' := by
  obtain ⟨w, hw, rfl⟩ := Option.map_eq_some_iff.mp h
  constructor
  · refine ⟨?_, fun j hj => Function.update_of_ne hj _ _, fun j hj => Function.update_of_ne hj _ _⟩
    intro j hj
    rcases World.step_cases hw with ⟨i, input, rd, rfl, -, -, rfl⟩ | ⟨i, rd, p, rfl, -, -, rfl⟩
    · exact Function.update_of_ne hj _ _
    · exact Function.update_of_ne hj _ _
  · rcases World.step_cases hw with ⟨i, input, rd, rfl, -, hidle, rfl⟩ | ⟨i, rd, p, rfl, -, hp, rfl⟩
    · cases input with
      | error refusal =>
          have hwatching : (x.does cfg (.receive i (.error refusal) rd)).2 = x.watching i := rfl
          cases refusal with
          | err text =>
              exact turn_quiet (e := .receive i (.error (.err text)) rd) rfl ⟨rfl, rfl⟩ (Or.inr ⟨rfl, rfl⟩)
                (Or.inl hidle) hidle
          | panic =>
              exact turn_quiet (e := .receive i (.error .panic) rd) rfl ⟨rfl, rfl⟩ (Or.inr ⟨rfl, rfl⟩) (Or.inl hidle)
                hidle
      | ok c =>
          cases hc : txControl c with
          | none => exact turn_plain ⟨c, hc⟩ rd hidle
          | some t => exact turn_control hc rd hidle
    · exact turn_proceed hp

/-! ## The order of conflicts -/

variable (cfg) in
/-- No write leaves the version of its shard at one that a connection watches: counting it does not bring that version
    back, and no script that never returns, so that its writes are not counted, writes there. -/
def KeepsVersions (x : Chronicle) (e : WorldEvent) : Prop :=
  ∀ i rd c, (x.does cfg e).1 = some (.command i rd c) →
    ∀ j s version, (x.world.clients j).conn.tx.watched s = some version →
      (∃ w ∈ written cfg rd c x.world.server (x.world.clients i).conn, s ∈ bumpedShards w) →
        countAll (counted cfg rd c x.world.server (x.world.clients i).conn) x.world.server.versions s ≠ version

variable (cfg) in
/-- **The condition of a step**: what is done closes no cycle of conflicts, and no write leaves a
    watched version as it is. -/
def ClosesNone (x : Chronicle) (e : WorldEvent) : Prop :=
  (∀ f, x.entry cfg e = some f → ¬ Closes x.entries f) ∧ KeepsVersions cfg x e

/-- Where nothing is done nothing is closed. -/
theorem closesNone_of_none (h : (x.does cfg e).1 = none) : ClosesNone cfg x e := by
  constructor
  · intro f hf
    rw [entry, h] at hf
    cases hf
  · intro i rd c hdoes
    cases h.symm.trans hdoes

omit [Codec] in
/-- A step that dispatches no command takes no version back. -/
theorem keepsVersions_of_none (h : (x.does cfg e).1.bind Action.dispatched = none) :
    KeepsVersions cfg x e := by
  intro i rd c hdoes
  rw [hdoes] at h
  cases h

omit [Codec] in
/-- Nor does transaction control. -/
theorem keepsVersions_control {c : Command} {t : TxControl} (hc : txControl c = some t) (rd : Readings) :
    KeepsVersions cfg x (.receive i (.ok c) rd) := by
  apply keepsVersions_of_none
  rw [does_control hc]
  split
  · rfl
  · cases t with
    | multi => rfl
    | discard => rfl
    | unwatch => rfl
    | watch keys =>
        simp only [controls]
        split
        · rfl
        · rfl
    | exec =>
        simp only [controls]
        split
        · rfl
        · split
          · rfl
          · rfl

theorem entries_step (h : x.step cfg e = some x') : x'.entries = x.entries ++ (x.entry cfg e).toList := by
  obtain ⟨w, -, rfl⟩ := Option.map_eq_some_iff.mp h
  rfl

/-- The action that a step did. -/
theorem does_of_entries (h : x.step cfg e = some x') {f : Act} (hf : x'.entries = x.entries ++ [f]) :
    (x.does cfg e).1 = some f.action := by
  have hlist : (x.entry cfg e).toList = [f] := List.append_cancel_left ((entries_step h).symm.trans hf)
  obtain ⟨a, ha, rfl⟩ := Option.map_eq_some_iff.mp (Option.toList_eq_singleton_iff.mp hlist)
  exact ha

theorem acyclic_step (hacyclic : Acyclic x.entries) (hcond : ClosesNone cfg x e) (h : x.step cfg e = some x') :
    Acyclic x'.entries := by
  rw [entries_step h]
  cases hf : x.entry cfg e with
  | none => exact (List.append_nil x.entries).symm ▸ hacyclic
  | some f => exact acyclic_concat hacyclic (hcond.1 f hf)

/-! ## What was done is what happened -/

/-- What was done, one thing after the other, is what happened. -/
structure Faithful (cfg : ServerConfig) (srv : Server) (x : Chronicle) : Prop where
  plays : Plays Scene.view (Action.run cfg) x.entries (World.start srv).scene
  scene : (after (Action.run cfg) x.entries (World.start srv).scene).view = x.world.scene.view
  marks : ∀ e ∈ x.entries, ∃ h, e.mark = e.action.mark cfg h

/-- One more thing done. -/
theorem Faithful.concat {srv : Server} (hx : Faithful cfg srv x) {n : Nat} {a : Action}
    (hentries : x'.entries = x.entries ++ [⟨n, a, a.mark cfg x.world.scene⟩])
    (hscene : x'.world.scene.view = (a.run cfg x.world.scene).2.view) : Faithful cfg srv x' := by
  have hobeys : Obeys Scene.view (Action.run cfg) a (a.mark cfg x.world.scene)
      (after (Action.run cfg) x.entries (World.start srv).scene) :=
    (obeys_mark a x.world.scene).congr fun k _ => congrFun hx.scene k
  refine ⟨?_, ?_, ?_⟩
  · rw [hentries, plays_append]
    exact ⟨hx.plays, hobeys, trivial⟩
  · rw [hentries, after_append, hscene]
    funext k
    show (a.run cfg (after (Action.run cfg) x.entries (World.start srv).scene)).2.view k = _
    rw [hobeys.view_act, (obeys_mark a x.world.scene).view_act, hx.scene]
  · intro e he
    rw [hentries] at he
    rcases List.mem_append.mp he with he | he
    · exact hx.marks e he
    · cases List.mem_singleton.mp he
      exact ⟨_, rfl⟩

theorem faithful_step {srv : Server} (hx : Faithful cfg srv x) (h : x.step cfg e = some x') : Faithful cfg srv x' := by
  obtain ⟨hspares, hturn⟩ := step_turn h
  have hconns : SameConn (x.world.clients e.client).conn (x'.world.clients e.client).conn →
      ∀ j, SameConn (x.world.scene.conns j) (x'.world.scene.conns j) := by
    intro hown j
    by_cases hj : j = e.client
    · rw [hj]
      exact hown
    · show SameConn (x.world.clients j).conn (x'.world.clients j).conn
      rw [hspares.clients j hj]
      exact .refl _
  cases hturn with
  | quiet hentries hserver hconn hwatching hrunning hrunning' =>
      have hview : x'.world.scene.view = x.world.scene.view :=
        Scene.view_ext (congrArg Server.look hserver) (hconns hconn)
      refine ⟨hentries ▸ hx.plays, ?_, hentries ▸ hx.marks⟩
      rw [hentries, hview]
      exact hx.scene
  | watches hentries hserver hconn hwatching htx hrunning hrunning' =>
      exact hx.concat hentries (Scene.view_ext (congrArg Server.look hserver) (hconns hconn))
  | commits hentries hserver hconn hwatching hsame hrunning hrunning' hjob =>
      exact hx.concat hentries (Scene.view_ext (congrArg Server.look hserver) (hconns hconn))
  | @commands n rd c hentries hserver hconn hwatching hjob =>
      refine hx.concat hentries (Scene.view_ext (congrArg Server.look hserver) fun j => ?_)
      show SameConn (Function.update x.world.scene.conns e.client _ j) (x'.world.clients j).conn
      by_cases hj : j = e.client
      · rw [hj, Function.update_self, hconn]
        exact .refl _
      · rw [Function.update_of_ne hj, hspares.clients j hj]
        exact .refl _

end Chronicle

end FerricCache
