import FerricCache.Commands
import FerricCache.Lib.Run

/-!
# `FerricCache.Replication.Handshake` — replicas that connect while the master writes

The master tells a connecting replica its offset and registers it later, as separate steps; a write counts itself
under the offset lock and is then sent to the replicas registered **at that moment**. A write that fans out between
the two reaches everybody but the replica that is connecting, whose own counter never shows it.

`Replication` has the master, the write that holds the offset lock, and a link for each connection; `step` is one
step of any of them. As long as no write fans out while a link is between its two steps (`Unhurried`), a replica
applies exactly the writes after the offset it was told: `replica_follows`.
-/

namespace FerricCache

open Lib.Run

variable [KeyHash]

/-! ## The parties -/

/-- `MasterReplicator`: the offset, and for each replica id the link its `tx` leads to. -/
structure Handshake.MasterReplicator where
  replicationOffset : UInt64
  replicas : List (Bytes × Nat)

/-- `ReplicaClient`. -/
structure ReplicaClient where
  storage : CacheStorage
  replicationOffset : UInt64

/-- What the master writes to a replica's stream. -/
inductive Message
  | connected (offset : UInt64)
  | write (command : Command)

/-- How far `handle_replica_connection` has got. -/
inductive Stage
  | absent
  | asked
  | offsetRead (offset : UInt64)
  | told (offset : UInt64)
  | registered (offset : UInt64)
  deriving DecidableEq

/-- A connection: the master's task, the messages under way and the replica. The last field records what the
    replica has applied since it connected. -/
structure Link where
  replicaId : Bytes
  stage : Stage
  up : Bool
  stream : List Message
  replica : ReplicaClient
  applied : List Command

/-- Where the `replicate_write` that holds the offset lock stands. -/
inductive WriteCall
  | idle
  | counted (command : Command)
  | sending (command : Command) (rest : List Nat)

/-- The whole system. The last field records the writes in the order of their numbers. -/
structure Replication where
  master : Handshake.MasterReplicator
  call : WriteCall
  links : Nat → Link
  log : List Command

/-! ## The steps -/

/-- The steps of the parties. -/
inductive ReplicationEvent
  | connect (i : Nat) (replicaId : Bytes) (storage : CacheStorage)
  | readOffset (i : Nat)
  | sendConnected (i : Nat)
  | register (i : Nat)
  | count (command : Command)
  | fanOut (order : List Nat)
  | sendNext
  | finish
  | receive (i : Nat) (env : Env)
  | hangUp (i : Nat)

/-- `apply_command` of a write; `none` is a panic of the apply. -/
def ReplicaClient.applyCommand (r : ReplicaClient) (env : Env) (c : Command) : Option ReplicaClient :=
  match applyWriteCommand env c r.storage with
  | (some (), s) => some ⟨s, r.replicationOffset + 1⟩
  | (none, _) => none

/-- `tx.send(..)`, whose error is dropped when the connection is gone. -/
def Link.send (l : Link) (m : Message) : Link := if l.up then { l with stream := l.stream ++ [m] } else l

/-- The replica reads a message; a panic ends the connection. -/
def Link.receive (l : Link) (env : Env) : Option Link :=
  match l.up, l.stream with
  | true, .connected offset :: rest =>
      some { l with stream := rest, replica := { l.replica with replicationOffset := offset } }
  | true, .write c :: rest =>
      match l.replica.applyCommand env c with
      | some r => some { l with stream := rest, replica := r, applied := l.applied ++ [c] }
      | none => some { l with stream := rest, up := false }
  | _, _ => none

namespace Replication

/-- One link changed. -/
def setLink (w : Replication) (i : Nat) (l : Link) : Replication :=
  { w with links := Function.update w.links i l }

/-- `replicas.insert(replica_id, ..)`; a link whose entry it replaces is closed, since its `tx` is dropped. -/
def enlist (w : Replication) (i : Nat) (offset : UInt64) : Replication :=
  let id := (w.links i).replicaId
  { w with
    master := { w.master with replicas := (id, i) :: w.master.replicas.filter (·.1 ≠ id) }
    links := fun j =>
      if j = i then { w.links i with stage := .registered offset }
      else if (id, j) ∈ w.master.replicas then { w.links j with up := false }
      else w.links j }

/-- One step; `none` where the party does not stand there, or a lock it needs is taken. -/
def step (w : Replication) : ReplicationEvent → Option Replication
  | .connect i replicaId storage =>
      if (w.links i).stage = .absent then
        some (w.setLink i ⟨replicaId, .asked, true, [], ⟨storage, 0⟩, []⟩)
      else none
  | .readOffset i =>
      -- `replication_offset.read()` waits for the write that holds the lock
      match (w.links i).stage, w.call with
      | .asked, .idle =>
          if (w.links i).up then
            some (w.setLink i { w.links i with stage := .offsetRead w.master.replicationOffset })
          else none
      | _, _ => none
  | .sendConnected i =>
      match (w.links i).stage with
      | .offsetRead offset =>
          if (w.links i).up then some (w.setLink i { (w.links i).send (.connected offset) with stage := .told offset })
          else none
      | _ => none
  | .register i =>
      -- `replicas.write()` waits for a write that is sending
      match (w.links i).stage, w.call with
      | _, .sending _ _ => none
      | .told offset, _ =>
          if (w.links i).up then some (w.enlist i offset) else none
      | _, _ => none
  | .count c =>
      match w.call with
      | .idle =>
          some { w with
            master := { w.master with replicationOffset := w.master.replicationOffset + 1 }
            call := .counted c
            log := w.log ++ [c] }
      | _ => none
  | .fanOut order =>
      -- `replicas.values()` in the map's order
      match w.call with
      | .counted c =>
          if order.isPerm (w.master.replicas.map Prod.snd) then some { w with call := .sending c order } else none
      | _ => none
  | .sendNext =>
      match w.call with
      | .sending c (i :: rest) =>
          some { w with call := .sending c rest, links := Function.update w.links i ((w.links i).send (.write c)) }
      | _ => none
  | .finish =>
      match w.call with
      | .sending _ [] => some { w with call := .idle }
      | _ => none
  | .receive i env => ((w.links i).receive env).map (w.setLink i)
  | .hangUp i => some (w.setLink i { w.links i with up := false })

/-- Nobody has connected, nothing is written. -/
def start : Replication :=
  ⟨⟨0, []⟩, .idle, fun _ => ⟨[], .absent, false, [], ⟨.new, 0⟩, []⟩, []⟩

end Replication

/-- The offset in the `Connected` message, once it is sent. -/
def Stage.toldOffset : Stage → Option UInt64
  | .told offset | .registered offset => some offset
  | _ => none

/-- The offset has been read, and the replica is not registered yet. -/
def Stage.between : Stage → Bool
  | .offsetRead _ | .told _ => true
  | _ => false

/-- No write is sent to the registered replicas while an open link is between its two steps. -/
def Unhurried (w : Replication) : ReplicationEvent → Prop
  | .fanOut _ => ∀ i, (w.links i).up = true → (w.links i).stage.between = false
  | _ => True

/-! ## What a link carries -/

/-- The replica has applied a part of `cs`, counted from `offset`, and the rest is under way in order. -/
def Link.Carries (l : Link) (offset : UInt64) (cs : List Command) : Prop :=
  ∃ ws, l.applied ++ ws = cs ∧
    ((l.stream = .connected offset :: ws.map .write ∧ l.applied = []) ∨
      (l.stream = ws.map .write ∧ l.replica.replicationOffset = offset + UInt64.ofNat l.applied.length))

theorem Link.Carries.send {l : Link} {offset : UInt64} {cs : List Command} (h : l.Carries offset cs) (hup : l.up = true)
    (c : Command) : (l.send (.write c)).Carries offset (cs ++ [c]) := by
  obtain ⟨ws, hcs, hstream⟩ := h
  rw [Link.send, if_pos hup]
  refine ⟨ws ++ [c], ?_, ?_⟩
  · rw [← List.append_assoc, hcs]
  · rcases hstream with ⟨hs, hnone⟩ | ⟨hs, hoffset⟩
    · left
      refine ⟨?_, hnone⟩
      show l.stream ++ [Message.write c] = _
      rw [hs, List.map_append]
      rfl
    · right
      refine ⟨?_, hoffset⟩
      show l.stream ++ [Message.write c] = _
      rw [hs, List.map_append]
      rfl

/-- Reading a message moves it from what is under way to what is applied. -/
theorem Link.Carries.receive {l l' : Link} {offset : UInt64} {cs : List Command} (h : l.Carries offset cs) {env : Env}
    (hl : l.receive env = some l') (hup : l'.up = true) : l'.Carries offset cs := by
  obtain ⟨ws, hcs, hstream⟩ := h
  unfold Link.receive at hl
  split at hl
  · -- the answer to the handshake is the first message, or none is under way
    rename_i offset' rest _ hs
    cases hl
    rcases hstream with ⟨hs', hnone⟩ | ⟨hs', -⟩
    · rw [hs] at hs'
      cases hs'
      refine ⟨ws, hcs, Or.inr ⟨rfl, ?_⟩⟩
      show offset = offset + UInt64.ofNat l.applied.length
      rw [hnone]
      exact (UInt64.add_zero offset).symm
    · rw [hs] at hs'
      cases ws with
      | nil => cases hs'
      | cons _ _ => cases hs'
  · -- a command: the replica applied it, since the link is up afterwards
    rename_i c rest _ hs
    cases happly : l.replica.applyCommand env c with
    | none =>
        rw [happly] at hl
        cases hl
        cases hup
    | some r =>
        rw [happly] at hl
        cases hl
        rcases hstream with ⟨hs', -⟩ | ⟨hs', hoffset⟩
        · rw [hs] at hs'
          cases hs'
        · rw [hs] at hs'
          cases ws with
          | nil => cases hs'
          | cons c' ws =>
              rw [List.map_cons] at hs'
              injection hs' with hhead htail
              cases hhead
              refine ⟨ws, ?_, Or.inr ⟨htail, ?_⟩⟩
              · show l.applied ++ [c] ++ ws = cs
                rw [List.append_assoc]
                exact hcs
              · have hr : r.replicationOffset = l.replica.replicationOffset + 1 := by
                  unfold ReplicaClient.applyCommand at happly
                  split at happly
                  · cases happly
                    rfl
                  · cases happly
                show r.replicationOffset = offset + UInt64.ofNat (l.applied ++ [c]).length
                rw [hr, hoffset, List.length_append, UInt64.ofNat_add, UInt64.add_assoc]
                rfl
  · cases hl

/-- The link together with what it is owed has every write of the log after those its offset stands for. -/
def Link.Complete (l : Link) (log owed : List Command) : Prop :=
  match l.stage with
  | .offsetRead offset => ∃ n ≤ log.length, UInt64.ofNat n = offset ∧ log.drop n = owed
  | .told offset | .registered offset =>
      ∃ n ≤ log.length, UInt64.ofNat n = offset ∧ ∃ cs, l.Carries offset cs ∧ cs ++ owed = log.drop n
  | _ => True

/-- Reading changes neither the id nor the stage, and does not open a link. -/
theorem Link.receive_frame {l l' : Link} {env : Env} (hl : l.receive env = some l') :
    l'.replicaId = l.replicaId ∧ l'.stage = l.stage ∧ l.up = true ∧ l.stream ≠ [] := by
  unfold Link.receive at hl
  split at hl
  · rename_i hup hs
    cases hl
    exact ⟨rfl, rfl, hup, by rw [hs]; exact List.cons_ne_nil _ _⟩
  · rename_i c rest hup hs
    cases happly : l.replica.applyCommand env c with
    | none =>
        rw [happly] at hl
        cases hl
        exact ⟨rfl, rfl, hup, by rw [hs]; exact List.cons_ne_nil _ _⟩
    | some r =>
        rw [happly] at hl
        cases hl
        exact ⟨rfl, rfl, hup, by rw [hs]; exact List.cons_ne_nil _ _⟩
  · cases hl

@[simp] theorem Link.send_stage (l : Link) (m : Message) : (l.send m).stage = l.stage := by
  unfold Link.send
  split <;> rfl

@[simp] theorem Link.send_up (l : Link) (m : Message) : (l.send m).up = l.up := by
  unfold Link.send
  split <;> rfl

@[simp] theorem Link.send_replicaId (l : Link) (m : Message) : (l.send m).replicaId = l.replicaId := by
  unfold Link.send
  split <;> rfl

/-! ## The invariant -/

namespace Replication

/-- The write that is counted and has not reached the link yet. -/
def owed (w : Replication) (i : Nat) : List Command :=
  match w.call with
  | .idle => []
  | .counted c => [c]
  | .sending c rest => if i ∈ rest then [c] else []

/-- The invariant of the runs in which no write overtakes a link. -/
structure Inv (w : Replication) : Prop where
  numbered : w.master.replicationOffset = UInt64.ofNat w.log.length
  quiet : ∀ i, (w.links i).stage.toldOffset = none → (w.links i).stream = [] ∧ (w.links i).applied = []
  complete : ∀ i, (w.links i).up = true → (w.links i).Complete w.log (w.owed i)
  waits : ∀ i c rest, (w.links i).up = true → (w.links i).stage.between = true → w.call ≠ .sending c rest
  entries : ∀ p ∈ w.master.replicas,
    (∃ offset, (w.links p.2).stage = .registered offset) ∧ (w.links p.2).replicaId = p.1
  listed : ∀ i offset, (w.links i).up = true → (w.links i).stage = .registered offset →
    ((w.links i).replicaId, i) ∈ w.master.replicas
  distinct : (w.master.replicas.map Prod.snd).Nodup
  once : ∀ c rest, w.call = .sending c rest →
    rest.Nodup ∧ ∀ j ∈ rest, ∃ offset, (w.links j).stage = .registered offset

theorem inv_start : (start : Replication).Inv where
  numbered := rfl
  quiet _ _ := ⟨rfl, rfl⟩
  complete i h := by cases h
  waits i c rest h := by cases h
  entries p h := by cases h
  listed i offset h := by cases h
  distinct := List.nodup_nil
  once c rest h := by cases h

variable {w : Replication}

/-- A step that changes one link. -/
theorem Inv.setLink (h : w.Inv) {i : Nat} {l : Link}
    (hquiet : l.stage.toldOffset = none → l.stream = [] ∧ l.applied = [])
    (hcomplete : l.up = true → l.Complete w.log (w.owed i))
    (hwaits : ∀ c rest, l.up = true → l.stage.between = true → w.call ≠ .sending c rest)
    (hstays : (∃ offset, (w.links i).stage = .registered offset) →
      (∃ offset, l.stage = .registered offset) ∧ l.replicaId = (w.links i).replicaId)
    (hlisted : ∀ offset, l.up = true → l.stage = .registered offset → (l.replicaId, i) ∈ w.master.replicas) :
    (w.setLink i l).Inv := by
  have hself : (w.setLink i l).links i = l := Function.update_self ..
  have hother : ∀ j, j ≠ i → (w.setLink i l).links j = w.links j := fun j hj => Function.update_of_ne hj ..
  refine ⟨h.numbered, fun j => ?_, fun j => ?_, fun j c rest => ?_, fun p hp => ?_, fun j offset => ?_, h.distinct,
    fun c rest hs => ⟨(h.once c rest hs).1, fun j hj' => ?_⟩⟩
  · -- each clause at the changed link is a hypothesis, at any other it is the old one
    by_cases hj : j = i
    · rw [hj, hself]
      exact hquiet
    · rw [hother j hj]
      exact h.quiet j
  · by_cases hj : j = i
    · rw [hj, hself]
      exact hcomplete
    · rw [hother j hj]
      exact h.complete j
  · by_cases hj : j = i
    · rw [hj, hself]
      exact hwaits c rest
    · rw [hother j hj]
      exact h.waits j c rest
  · obtain ⟨hreg, hid⟩ := h.entries p hp
    by_cases hj : p.2 = i
    · rw [hj] at hreg hid ⊢
      rw [hself]
      obtain ⟨hreg', hid'⟩ := hstays hreg
      exact ⟨hreg', hid'.trans hid⟩
    · rw [hother p.2 hj]
      exact ⟨hreg, hid⟩
  · by_cases hj : j = i
    · rw [hj, hself]
      exact hlisted offset
    · rw [hother j hj]
      exact h.listed j offset
  · have hreg := (h.once c rest hs).2 j hj'
    by_cases hj : j = i
    · rw [hj] at hreg
      rw [hj, hself]
      exact (hstays hreg).1
    · rw [hother j hj]
      exact hreg

theorem Inv.connect (h : w.Inv) {i : Nat} (habsent : (w.links i).stage = .absent) (replicaId : Bytes)
    (storage : CacheStorage) : (w.setLink i ⟨replicaId, .asked, true, [], ⟨storage, 0⟩, []⟩).Inv := by
  refine h.setLink (fun _ => ⟨rfl, rfl⟩) (fun _ => trivial) (fun c rest _ hb => by cases hb) ?_
    (fun o _ ho => by cases ho)
  rintro ⟨o, ho⟩
  rw [habsent] at ho
  cases ho

theorem Inv.readOffset (h : w.Inv) {i : Nat} (hasked : (w.links i).stage = .asked) (hidle : w.call = .idle) :
    (w.setLink i { w.links i with stage := .offsetRead w.master.replicationOffset }).Inv := by
  have hquiet : (w.links i).stream = [] ∧ (w.links i).applied = [] := h.quiet i (by rw [hasked]; rfl)
  refine h.setLink (fun _ => hquiet) (fun _ => ?_) (fun c rest _ _ hs => by rw [hidle] at hs; cases hs) ?_
    (fun o _ ho => by cases ho)
  · -- nothing is counted yet that the link is not told of
    have howed : w.owed i = [] := by rw [owed, hidle]
    refine ⟨w.log.length, Nat.le_refl _, h.numbered.symm, ?_⟩
    rw [howed, List.drop_length]
  · rintro ⟨o, ho⟩
    rw [hasked] at ho
    cases ho

theorem Inv.sendConnected (h : w.Inv) {i : Nat} {offset : UInt64} (hread : (w.links i).stage = .offsetRead offset)
    (hup : (w.links i).up = true) :
    (w.setLink i { (w.links i).send (.connected offset) with stage := .told offset }).Inv := by
  obtain ⟨hstream, happlied⟩ : (w.links i).stream = [] ∧ (w.links i).applied = [] := h.quiet i (by rw [hread]; rfl)
  have hcomplete := h.complete i hup
  rw [Link.Complete, hread] at hcomplete
  obtain ⟨n, hle, hn, hdrop⟩ := hcomplete
  refine h.setLink (fun ho => by cases ho) (fun _ => ?_) (fun c rest _ _ => h.waits i c rest hup (by rw [hread]; rfl))
    ?_
    (fun o _ ho => by cases ho)
  · refine ⟨n, hle, hn, [], ⟨[], ?_, Or.inl ⟨?_, ?_⟩⟩, hdrop.symm⟩
    · rw [Link.send, if_pos hup]
      exact (List.append_nil _).trans happlied
    · rw [Link.send, if_pos hup]
      show (w.links i).stream ++ [Message.connected offset] = _
      rw [hstream]
      rfl
    · rw [Link.send, if_pos hup]
      exact happlied
  · rintro ⟨o, ho⟩
    rw [hread] at ho
    cases ho

theorem Inv.receive (h : w.Inv) {i : Nat} {env : Env} {l : Link} (hl : (w.links i).receive env = some l) :
    (w.setLink i l).Inv := by
  obtain ⟨hid, hstage, hup, hstream⟩ := Link.receive_frame hl
  have hcomplete := h.complete i hup
  refine h.setLink (fun hnone => ?_) (fun hl' => ?_) (fun c rest _ hb => ?_) (fun hreg => ?_) (fun offset _ ho => ?_)
  · rw [hstage] at hnone
    exact absurd (h.quiet i hnone).1 hstream
  · unfold Link.Complete at hcomplete ⊢
    rw [hstage]
    split at hcomplete
    · exact hcomplete
    · obtain ⟨n, hle, hn, cs, hcarries, hcs⟩ := hcomplete
      exact ⟨n, hle, hn, cs, hcarries.receive hl hl', hcs⟩
    · obtain ⟨n, hle, hn, cs, hcarries, hcs⟩ := hcomplete
      exact ⟨n, hle, hn, cs, hcarries.receive hl hl', hcs⟩
    · exact trivial
  · rw [hstage] at hb
    exact h.waits i c rest hup hb
  · rw [hstage, hid]
    exact ⟨hreg, rfl⟩
  · rw [hstage] at ho
    rw [hid]
    exact h.listed i offset hup ho

theorem Inv.hangUp (h : w.Inv) (i : Nat) : (w.setLink i { w.links i with up := false }).Inv :=
  h.setLink (h.quiet i) (fun hup => by cases hup) (fun c rest hup => by cases hup) (fun hreg => ⟨hreg, rfl⟩)
    (fun o hup => by cases hup)

/-- A write counts itself: it is owed to every link. -/
theorem Inv.count (h : w.Inv) (hidle : w.call = .idle) (c : Command) :
    Inv { w with
      master := { w.master with replicationOffset := w.master.replicationOffset + 1 }
      call := .counted c
      log := w.log ++ [c] } := by
  refine ⟨?_, h.quiet, fun i hup => ?_, fun _ _ _ _ _ hs => ?_, h.entries, h.listed, h.distinct, fun _ _ hs => ?_⟩
  · show w.master.replicationOffset + 1 = UInt64.ofNat (w.log ++ [c]).length
    rw [h.numbered, List.length_append, UInt64.ofNat_add]
    rfl
  · have howed : w.owed i = [] := by rw [owed, hidle]
    have hcomplete := h.complete i hup
    rw [howed] at hcomplete
    show (w.links i).Complete (w.log ++ [c]) [c]
    have hlonger : ∀ {n : Nat}, n ≤ w.log.length → (w.log ++ [c]).drop n = w.log.drop n ++ [c] :=
      fun hle => List.drop_append_of_le_length hle
    have hlength : (w.log ++ [c]).length = w.log.length + 1 := List.length_append
    unfold Link.Complete at hcomplete ⊢
    split at hcomplete
    · obtain ⟨n, hle, hn, hdrop⟩ := hcomplete
      refine ⟨n, by omega, hn, ?_⟩
      rw [hlonger hle, hdrop]
      rfl
    · obtain ⟨n, hle, hn, cs, hcarries, hcs⟩ := hcomplete
      refine ⟨n, by omega, hn, cs, hcarries, ?_⟩
      rw [hlonger hle, ← hcs, List.append_nil]
    · obtain ⟨n, hle, hn, cs, hcarries, hcs⟩ := hcomplete
      refine ⟨n, by omega, hn, cs, hcarries, ?_⟩
      rw [hlonger hle, ← hcs, List.append_nil]
    · exact trivial
  · cases hs
  · cases hs

/-- A write starts sending: every open link it is owed to is registered, so it is on its way to it. -/
theorem Inv.fanOut (h : w.Inv) {c : Command} (hcounted : w.call = .counted c) {order : List Nat}
    (horder : order.Perm (w.master.replicas.map Prod.snd))
    (hunhurried : ∀ i, (w.links i).up = true → (w.links i).stage.between = false) :
    Inv { w with call := .sending c order } := by
  refine ⟨h.numbered, h.quiet, fun i hup => ?_, fun i c' rest hup hb => ?_, h.entries, h.listed, h.distinct, ?_⟩
  · have howed : w.owed i = [c] := by rw [owed, hcounted]
    have hcomplete := h.complete i hup
    rw [howed] at hcomplete
    show (w.links i).Complete w.log (if i ∈ order then [c] else [])
    cases hstage : (w.links i).stage with
    | absent | asked => simp only [Link.Complete, hstage]
    | offsetRead o | told o =>
        have hbetween := hunhurried i hup
        rw [hstage] at hbetween
        cases hbetween
    | registered o =>
        have hmem : i ∈ order := by
          rw [horder.mem_iff]
          exact List.mem_map_of_mem (h.listed i o hup hstage)
        rw [if_pos hmem]
        exact hcomplete
  · rw [hunhurried i hup] at hb
    cases hb
  · rintro c' rest hs
    cases hs
    refine ⟨horder.nodup_iff.mpr h.distinct, fun j hj => ?_⟩
    obtain ⟨p, hp, rfl⟩ := List.mem_map.mp (horder.mem_iff.mp hj)
    exact (h.entries p hp).1

/-- A write is put on one link's stream. -/
theorem Inv.sendNext (h : w.Inv) {c : Command} {i : Nat} {rest : List Nat}
    (hsending : w.call = .sending c (i :: rest)) :
    Inv { w with call := .sending c rest, links := Function.update w.links i ((w.links i).send (.write c)) } := by
  obtain ⟨hnodup, hregistered⟩ := h.once c (i :: rest) hsending
  obtain ⟨hnot, hrest⟩ := List.nodup_cons.mp hnodup
  obtain ⟨offset, hoffset⟩ := hregistered i List.mem_cons_self
  have hstays : ∀ j, (Function.update w.links i ((w.links i).send (.write c)) j).stage = (w.links j).stage ∧
      (Function.update w.links i ((w.links i).send (.write c)) j).up = (w.links j).up ∧
      (Function.update w.links i ((w.links i).send (.write c)) j).replicaId = (w.links j).replicaId := by
    intro j
    by_cases hj : j = i
    · rw [hj, Function.update_self, Link.send_stage, Link.send_up, Link.send_replicaId]
      exact ⟨rfl, rfl, rfl⟩
    · rw [Function.update_of_ne hj]
      exact ⟨rfl, rfl, rfl⟩
  refine ⟨h.numbered, fun j hnone => ?_, fun j hup => ?_, fun j c' rest' hup hb => ?_, fun p hp => ?_,
    fun j o hup hstage => ?_, h.distinct, fun c' rest' hs => ?_⟩
  · rw [(hstays j).1] at hnone
    have hj : j ≠ i := by
      rintro rfl
      rw [hoffset] at hnone
      cases hnone
    show (Function.update w.links i _ j).stream = [] ∧ (Function.update w.links i _ j).applied = []
    rw [Function.update_of_ne hj]
    exact h.quiet j hnone
  · rw [(hstays j).2.1] at hup
    have hcomplete := h.complete j hup
    show (Function.update w.links i ((w.links i).send (.write c)) j).Complete w.log (if j ∈ rest then [c] else [])
    by_cases hj : j = i
    · -- the write the link was owed is on its stream
      subst hj
      have howed : w.owed j = [c] := by rw [owed, hsending]; exact if_pos List.mem_cons_self
      rw [howed, Link.Complete, hoffset] at hcomplete
      obtain ⟨n, hle, hn, cs, hcarries, hcs⟩ := hcomplete
      rw [Function.update_self, if_neg hnot, Link.Complete, Link.send_stage, hoffset]
      exact ⟨n, hle, hn, cs ++ [c], hcarries.send hup c, (List.append_nil _).trans hcs⟩
    · have howed : w.owed j = if j ∈ rest then [c] else [] := by
        rw [owed, hsending]
        simp only [List.mem_cons, hj, false_or]
      rw [howed] at hcomplete
      rw [Function.update_of_ne hj]
      exact hcomplete
  · rw [(hstays j).2.1] at hup
    rw [(hstays j).1] at hb
    exact absurd hsending (h.waits j c (i :: rest) hup hb)
  · rw [(hstays p.2).1, (hstays p.2).2.2]
    exact h.entries p hp
  · rw [(hstays j).2.1] at hup
    rw [(hstays j).1] at hstage
    rw [(hstays j).2.2]
    exact h.listed j o hup hstage
  · cases hs
    refine ⟨hrest, fun j hj => ?_⟩
    rw [(hstays j).1]
    exact hregistered j (List.mem_cons_of_mem _ hj)

theorem Inv.finish (h : w.Inv) {c : Command} (hsending : w.call = .sending c []) : Inv { w with call := .idle } := by
  refine ⟨h.numbered, h.quiet, fun i hup => ?_, fun _ _ _ _ _ hs => ?_, h.entries, h.listed, h.distinct,
    fun _ _ hs => ?_⟩
  · have howed : w.owed i = [] := by
      rw [owed, hsending]
      exact if_neg List.not_mem_nil
    have hcomplete := h.complete i hup
    rw [howed] at hcomplete
    exact hcomplete
  · cases hs
  · cases hs

theorem enlist_self (w : Replication) (i : Nat) (offset : UInt64) :
    (w.enlist i offset).links i = { w.links i with stage := .registered offset } := if_pos rfl

/-- Another link is as it was, or closed because it had the id. -/
theorem enlist_other (w : Replication) {i j : Nat} (offset : UInt64) (hj : j ≠ i) :
    ((w.enlist i offset).links j = w.links j ∧ ((w.links i).replicaId, j) ∉ w.master.replicas) ∨
      (w.enlist i offset).links j = { w.links j with up := false } := by
  show ((if j = i then _ else _) = _ ∧ _) ∨ (if j = i then _ else _) = _
  rw [if_neg hj]
  split
  · exact Or.inr rfl
  · exact Or.inl ⟨rfl, ‹_›⟩

/-- A link joins the replicas. -/
theorem Inv.register (h : w.Inv) {i : Nat} {offset : UInt64} (htold : (w.links i).stage = .told offset)
    (hup : (w.links i).up = true)
    (hcall : ∀ c rest, w.call ≠ .sending c rest) : (w.enlist i offset).Inv := by
  have hnot : ∀ p ∈ w.master.replicas, p.2 ≠ i := by
    intro p hp he
    obtain ⟨⟨o, ho⟩, -⟩ := h.entries p hp
    rw [he, htold] at ho
    cases ho
  refine ⟨h.numbered, fun j hnone => ?_, fun j hj' => ?_, fun j c rest _ _ => hcall c rest, fun p hp => ?_,
    fun j o hj' hstage => ?_, ?_, fun c rest hs => absurd hs (hcall c rest)⟩
  · by_cases hj : j = i
    · rw [hj, enlist_self] at hnone
      cases hnone
    · rcases w.enlist_other offset hj with ⟨hsame, -⟩ | hclosed
      · rw [hsame] at hnone ⊢
        exact h.quiet j hnone
      · rw [hclosed] at hnone ⊢
        exact h.quiet j hnone
  · by_cases hj : j = i
    · have hcomplete := h.complete i hup
      rw [Link.Complete, htold] at hcomplete
      rw [hj, enlist_self]
      exact hcomplete
    · rcases w.enlist_other offset hj with ⟨hsame, -⟩ | hclosed
      · rw [hsame] at hj' ⊢
        exact h.complete j hj'
      · rw [hclosed] at hj'
        cases hj'
  · rcases List.mem_cons.mp hp with rfl | hp
    · rw [enlist_self]
      exact ⟨⟨offset, rfl⟩, rfl⟩
    · have hmem := List.mem_of_mem_filter hp
      rcases w.enlist_other offset (hnot p hmem) with ⟨hsame, -⟩ | hclosed
      · rw [hsame]
        exact h.entries p hmem
      · rw [hclosed]
        exact h.entries p hmem
  · by_cases hj : j = i
    · rw [hj, enlist_self]
      exact List.mem_cons_self
    · rcases w.enlist_other offset hj with ⟨hsame, hkept⟩ | hclosed
      · rw [hsame] at hj' hstage ⊢
        have hmem := h.listed j o hj' hstage
        refine List.mem_cons_of_mem _ (List.mem_filter.mpr ⟨hmem, ?_⟩)
        rw [decide_eq_true_eq]
        intro heq
        exact hkept (heq ▸ hmem)
      · rw [hclosed] at hj'
        cases hj'
  · show (List.map Prod.snd (((w.links i).replicaId, i) :: w.master.replicas.filter _)).Nodup
    rw [List.map_cons, List.nodup_cons]
    constructor
    · intro hmem
      obtain ⟨p, hp, he⟩ := List.mem_map.mp hmem
      exact hnot p (List.mem_of_mem_filter hp) he
    · exact h.distinct.sublist (List.filter_sublist.map Prod.snd)

/-- **Every step keeps the invariant.** -/
theorem step_inv {e : ReplicationEvent} {w' : Replication} (h : w.Inv) (hunhurried : Unhurried w e)
    (hstep : w.step e = some w') : w'.Inv := by
  -- one lemma for each event; a step out of turn is none
  cases e with
  | connect i replicaId storage =>
      simp only [step] at hstep
      split at hstep
      · cases hstep
        exact h.connect ‹_› replicaId storage
      · cases hstep
  | readOffset i =>
      simp only [step] at hstep
      split at hstep
      · split at hstep
        · cases hstep
          exact h.readOffset ‹_› ‹_›
        · cases hstep
      · cases hstep
  | sendConnected i =>
      simp only [step] at hstep
      split at hstep
      · split at hstep
        · cases hstep
          exact h.sendConnected ‹_› ‹_›
        · cases hstep
      · cases hstep
  | register i =>
      simp only [step] at hstep
      split at hstep
      · cases hstep
      · rename_i hcall
        split at hstep
        · cases hstep
          exact h.register ‹_› ‹_› fun c rest hs => hcall c rest hs
        · cases hstep
      · cases hstep
  | count c =>
      simp only [step] at hstep
      split at hstep
      · cases hstep
        exact h.count ‹_› c
      · cases hstep
  | fanOut order =>
      simp only [step] at hstep
      split at hstep
      · split at hstep
        · cases hstep
          exact h.fanOut ‹_› (List.isPerm_iff.mp ‹_›) hunhurried
        · cases hstep
      · cases hstep
  | sendNext =>
      simp only [step] at hstep
      split at hstep
      · cases hstep
        exact h.sendNext ‹_›
      · cases hstep
  | finish =>
      simp only [step] at hstep
      split at hstep
      · cases hstep
        exact h.finish ‹_›
      · cases hstep
  | receive i env =>
      obtain ⟨l, hl, rfl⟩ := Option.map_eq_some_iff.mp hstep
      exact h.receive hl
  | hangUp i =>
      cases hstep
      exact h.hangUp i

/-- **A replica applies exactly the writes after the offset it was told**, in every run in which no write overtakes
a link. The offset stands for a number `n` of writes, up to the wrap of a `u64`; what the replica has applied is the
first of the writes after them, and once every message is delivered it has applied all of them and its offset is the
master's. -/
theorem replica_follows (es : List ReplicationEvent) (w : Replication) (halong : Along step Unhurried start es)
    (hrun : run step start es = some w) (i : Nat) (offset : UInt64) (hup : (w.links i).up = true)
    (htold : (w.links i).stage.toldOffset = some offset) :
    ∃ n ≤ w.log.length, UInt64.ofNat n = offset ∧ (w.log.length < 2 ^ 64 → n = offset.toNat) ∧
      (w.links i).applied <+: w.log.drop n ∧
        ((w.links i).stream = [] → w.call = .idle →
          (w.links i).applied = w.log.drop n ∧
            (w.links i).replica.replicationOffset = w.master.replicationOffset) := by
  have hinv : w.Inv := run_invariant (fun _ _ _ h => step_inv h) es start w halong hrun inv_start
  obtain ⟨n, hle, hn, cs, ⟨ws, hws, hstream⟩, hcs⟩ : ∃ n ≤ w.log.length, UInt64.ofNat n = offset ∧
      ∃ cs, (w.links i).Carries offset cs ∧ cs ++ w.owed i = w.log.drop n := by
    have hcomplete := hinv.complete i hup
    unfold Link.Complete at hcomplete
    cases hstage : (w.links i).stage with
    | told o | registered o =>
        rw [hstage] at htold hcomplete
        cases htold
        exact hcomplete
    | absent | asked | offsetRead _ =>
        rw [hstage] at htold
        cases htold
  refine ⟨n, hle, hn, fun hfew => ?_, ⟨ws ++ w.owed i, ?_⟩, fun hempty hidle => ?_⟩
  · rw [← hn, UInt64.toNat_ofNat', Nat.mod_eq_of_lt (by omega)]
  · rw [← List.append_assoc, hws, hcs]
  · rcases hstream with ⟨hs, -⟩ | ⟨hs, hoffset⟩
    · rw [hempty] at hs
      cases hs
    · rw [hempty] at hs
      have howed : w.owed i = [] := by rw [owed, hidle]
      have hnil : ws = [] := List.map_eq_nil_iff.mp hs.symm
      rw [howed, List.append_nil, ← hws, hnil, List.append_nil] at hcs
      refine ⟨hcs, ?_⟩
      -- the replica counted on from where the master stood
      rw [hoffset, hcs, List.length_drop, hinv.numbered, ← hn, ← UInt64.ofNat_add, Nat.add_sub_cancel' hle]

end Replication

open Replication

/-- A replica connects, and then a write is sent to it. -/
def connectThenWrite : List ReplicationEvent :=
  [.connect 0 (utf8 "r") .new, .readOffset 0, .sendConnected 0, .register 0,
    .count (.set (utf8 "k") (utf8 "v") none), .fanOut [0], .sendNext, .finish, .receive 0 (Env.reading 1),
    .receive 0 (Env.reading 1)]

/-- A write fans out after the offset is read and before the replica is registered. -/
def writeInHandshake : List ReplicationEvent :=
  [.connect 0 (utf8 "r") .new, .readOffset 0, .count (.set (utf8 "k") (utf8 "v") none), .fanOut [], .finish,
    .sendConnected 0, .register 0, .receive 0 (Env.reading 1)]

omit [KeyHash] in
theorem replica_follows_set :
    let _ := shortKeys
    ∃ w, run step start connectThenWrite = some w ∧
      (w.links 0).applied = w.log ∧ (w.links 0).replica.replicationOffset = w.master.replicationOffset := by
  intro _
  have halong : Along step Unhurried start connectThenWrite := by
    -- nobody but link 0 ever opens, and it is registered when the write is sent
    refine ⟨trivial, fun w hw => ?_⟩
    cases hw
    refine ⟨trivial, fun w hw => ?_⟩
    cases hw
    refine ⟨trivial, fun w hw => ?_⟩
    cases hw
    refine ⟨trivial, fun w hw => ?_⟩
    cases hw
    refine ⟨trivial, fun w hw => ?_⟩
    cases hw
    refine ⟨fun i hi => ?_, fun w hw => ?_⟩
    · cases i with
      | zero => rfl
      | succ n => cases hi
    · cases hw
      refine ⟨trivial, fun w hw => ?_⟩
      cases hw
      refine ⟨trivial, fun w hw => ?_⟩
      cases hw
      refine ⟨trivial, fun w hw => ?_⟩
      cases hw
      exact ⟨trivial, fun w hw => trivial⟩
  obtain ⟨n, -, -, hfew, -, hall⟩ := replica_follows connectThenWrite _ halong rfl 0 0 rfl rfl
  obtain ⟨happlied, hoffset⟩ := hall rfl rfl
  refine ⟨_, rfl, ?_, hoffset⟩
  rw [happlied, hfew (by decide)]
  rfl

omit [KeyHash] in
/-- The write is never sent to the replica, and the two offsets stay apart with nothing under way. -/
theorem write_in_handshake_missed :
    let _ := shortKeys
    ∃ w, run step start writeInHandshake = some w ∧
      (w.links 0).up = true ∧ (w.links 0).stage = .registered 0 ∧ (w.links 0).stream = [] ∧ w.call = .idle ∧
      (w.links 0).applied ≠ w.log.drop 0 ∧
      (w.links 0).replica.replicationOffset ≠ w.master.replicationOffset := by
  intro _
  refine ⟨_, rfl, rfl, rfl, rfl, rfl, ?_, ?_⟩
  · exact (List.cons_ne_nil _ _).symm
  · exact (by decide : (0 : UInt64) ≠ 1)

end FerricCache
