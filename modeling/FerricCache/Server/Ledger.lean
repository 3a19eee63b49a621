import FerricCache.Persistence.ScriptWrites
import FerricCache.Server.Steps

/-!
# `FerricCache.Server.Ledger` — the orders in which writes are logged, sent and applied

Three things are done with every write: it is appended to the log, sent to the replicas and applied. Each of them is
atomic and nothing ties them together, so two writes under way can pass them in different orders. A `Ledger` keeps the
three orders beside the runtime. At any time a task is **ahead** with a write that took a stage and is not applied,
or, for a script, **behind** with writes that are applied and did not take it.

Where no write begins on a key that another task has a write under way on (`Spaced`), what took a stage is what was
applied, key by key, up to what one task is ahead or behind (`Ordered`).
-/

namespace FerricCache

open Lib.Run

/-! ## What is under way -/

/-- A write at this stage has yet to take the other. -/
def LogStage.upTo : LogStage → LogStage → Bool
  | .append, _ => true
  | .send, .append => false
  | .send, _ => true
  | .count, .count => true
  | .count, _ => false

namespace Point

/-- The writes of a script that are applied and have not taken the stage. -/
def behind (stage : LogStage) : Point → List Command
  | .scripting _ _ writes => writes
  | .recording at' w ws => if at'.upTo stage then w :: ws else ws
  | _ => []

/-- The write that has taken the stage and is not applied. -/
def ahead (stage : LogStage) : Point → List Command
  | .logging at' w => if at'.upTo stage then [] else [w.1]
  | .applying w => [w.1]
  | _ => []

/-- The writes of the task that are under way. -/
def underway : Point → List Command
  | .idle => []
  | .logging _ w => [w.1]
  | .applying w => [w.1]
  | .scripting _ _ writes => writes
  | .recording _ w ws => w :: ws

/-- The write that takes the stage in the next step. -/
def takes (stage : LogStage) : Point → List Command
  | .logging at' w => if at' = stage then [w.1] else []
  | .recording at' w _ => if at' = stage then [w] else []
  | _ => []

/-- The writes that the next step applies. -/
def applies [KeyHash] [Lua] (env : Env) (s : CacheStorage) : Point → List Command
  | .applying w => [w.1]
  | .scripting acl (.call cmd args _) _ => (redisCallBridge env acl cmd args s).1.2
  | _ => []

end Point

section Ledger

variable [KeyHash] {n : Nat}

/-- The runtime, the writes that took each stage and those that were applied, in order and with their tasks. -/
structure Ledger [KeyHash] (n : Nat) where
  runtime : Runtime n
  taken : LogStage → List (Fin n × Command)
  applied : List (Fin n × Command)

/-- Before the first command. -/
def Ledger.start (n : Nat) (srv : Server) : Ledger n := ⟨.start n srv, fun _ => [], []⟩

/-- The task has a write on the key under way. -/
def Runtime.Busy (r : Runtime n) (k : Bytes) (i : Fin n) : Prop :=
  ∃ c ∈ (r.tasks i).point.underway, touchesKey c k = true

variable [Lua] [Codec] (cfg : ServerConfig)

/-- One event. -/
def Ledger.step (x : Ledger n) (e : TaskEvent n) : Option (Ledger n) :=
  (x.runtime.step cfg e).map fun r =>
    let point := (x.runtime.tasks e.task).point
    { runtime := r
      taken := fun stage => x.taken stage ++ (point.takes stage).map (e.task, ·)
      applied := x.applied ++ (point.applies e.readings.env x.runtime.server.storage).map (e.task, ·) }

/-- The write that an idle task begins with the event. -/
def Runtime.arriving (r : Runtime n) : TaskEvent n → Option Command
  | .receive i c _ =>
      if !(r.tasks i).conn.tx.inMulti && (gate cfg (r.tasks i).conn c).isNone && isWriteCommand c then some c else none
  | .go i _ =>
      match (r.tasks i).running with
      | some (c :: _) => if (gate cfg (r.tasks i).conn c).isNone && isWriteCommand c then some c.1 else none
      | _ => none

/-- The keys that the event begins a write on, if it does; `none` inside is the whole keyspace. -/
def Runtime.brings (r : Runtime n) (e : TaskEvent n) : Option (Option (List Bytes)) :=
  match (r.tasks e.task).point with
  | .idle => (r.arriving cfg e).map footprint
  | .scripting _ (.call cmd args _) _ => (writtenKey cmd args).map fun key => some [key]
  | _ => none

/-- No write begins on a key that another task has a write under way on. -/
def Spaced (x : Ledger n) (e : TaskEvent n) : Prop :=
  ∀ F ∈ x.runtime.brings cfg e, ∀ l, l ≠ e.task →
    ∀ c ∈ (x.runtime.tasks l).point.underway, meets F (footprint c) = false

instance (x : Ledger n) (e : TaskEvent n) : Decidable (Spaced cfg x e) :=
  inferInstanceAs (Decidable (∀ F ∈ x.runtime.brings cfg e, ∀ l, l ≠ e.task →
    ∀ c ∈ (x.runtime.tasks l).point.underway, meets F (footprint c) = false))

/-! ## Which writes begin -/

variable {cfg} {r r' : Runtime n} {e : TaskEvent n} {k : Bytes}

theorem dispatch_not_logging {rd : Readings} {c : Command} {srv : Server} {t : ConnTask} {stage : LogStage}
    {w : WriteCommand} (hat : t.point = .idle) (htx : txControl c = none) (hw : isWriteCommand c = false) :
    (t.dispatch cfg rd c srv).2.point ≠ .logging stage w := by
  intro hto
  cases (dispatch_stride hat htx hw).1 with
  | quiet _ hidle _ => cases hidle.symm.trans hto
  | loads _ hscript _ => cases hscript.symm.trans hto
  | arrives v _ _ _ =>
      -- a dispatch never comes to the chokepoint
      cases hscript : isScript c with
      | false =>
          rw [dispatch_eq_perform hscript] at hto
          cases hto
      | true =>
          cases c with
          | luaEval script keys argv => cases hto
          | luaEvalSha sha1 keys argv =>
              rw [ConnTask.dispatch] at hto
              split at hto
              · cases hto
              · cases hto
          | _ => cases hscript
  | passes _ _ hno _ _ => cases hat.symm.trans hno
  | applies _ hno _ _ => cases hat.symm.trans hno
  | calls hno _ _ => cases hat.symm.trans hno
  | ends _ hno _ _ => cases hat.symm.trans hno
  | records _ _ _ hno _ _ => cases hat.symm.trans hno

/-- A command that comes to the chokepoint is a write that passed the gates. -/
theorem begin_logging {rd : Readings} {c : QueuedCommand} {srv : Server} {t : ConnTask} {w : WriteCommand}
    (hat : t.point = .idle) (hto : (t.begin cfg rd c srv).2.point = .logging .append w) :
    (gate cfg t.conn c).isNone = true ∧ isWriteCommand c = true ∧ w.1 = c.1 := by
  unfold ConnTask.begin at hto
  split at hto
  · cases hat.symm.trans hto
  · rename_i hgate
    split at hto
    · rename_i hw
      cases hto
      exact ⟨by rw [hgate]; rfl, hw, rfl⟩
    · rename_i hw
      exact absurd hto (dispatch_not_logging hat c.2 (Bool.eq_false_iff.mpr hw))

theorem arriving_of_logging (h : r.step cfg e = some r') {w : WriteCommand} (hat : (r.tasks e.task).point = .idle)
    (hto : (r'.tasks e.task).point = .logging .append w) : r.arriving cfg e = some w.1 := by
  rcases Runtime.step_cases h with ⟨j, c, rd, rfl, -, rfl⟩ | ⟨j, rd, p, rfl, hp, rfl⟩
  · have hat : (r.tasks j).point = .idle := hat
    rw [TaskEvent.task, Runtime.put_tasks] at hto
    unfold ConnTask.receive at hto
    split at hto
    · split at hto
      · cases hat.symm.trans hto
      · rename_i htx hmulti
        obtain ⟨hgate, hw, hc⟩ := begin_logging hat hto
        rw [Runtime.arriving, hc, Bool.eq_false_iff.mpr hmulti, hgate, hw]
        rfl
    · split at hto
      · cases hat.symm.trans hto
      · rw [control_point] at hto
        cases hat.symm.trans hto
  · have hat : (r.tasks j).point = .idle := hat
    rw [TaskEvent.task, Runtime.put_tasks] at hto
    unfold ConnTask.go at hp
    rw [hat] at hp
    simp only at hp
    split at hp
    · cases hp
    · cases hp
      cases hto
    · rename_i c rest hrunning
      cases hp
      obtain ⟨hgate, hw, hc⟩ := begin_logging (c := c) rfl hto
      simp only [Runtime.arriving, hrunning]
      rw [hc, hgate, hw]
      rfl

omit [KeyHash] [Lua] [Codec] in
theorem meets_of_touches {c d : Command} (hc : touchesKey c k = true) (hd : touchesKey d k = true) :
    meets (footprint c) (footprint d) = true := by
  rw [touchesKey_iff] at hc hd
  cases hF : footprint c with
  | none =>
      cases hG : footprint d with
      | none => rfl
      | some ls => simpa [meets] using List.ne_nil_of_mem (hd ls hG)
  | some ks =>
      cases hG : footprint d with
      | none => simpa [meets] using List.ne_nil_of_mem (hc ks hF)
      | some ls =>
          simp only [meets, List.any_eq_true, List.contains_iff_mem]
          exact ⟨k, hc ks hF, hd ls hG⟩

/-! ## At most one task a key -/

/-- What a step does to the writes under way: those that are new are the ones that begin. -/
theorem underway_step {x : Ledger n} (h : x.runtime.step cfg e = some r') (hs : Spaced cfg x e) {c : Command}
    (hc : c ∈ (r'.tasks e.task).point.underway) :
    c ∈ (x.runtime.tasks e.task).point.underway ∨
      ∀ l, l ≠ e.task → ∀ d ∈ (x.runtime.tasks l).point.underway, meets (footprint c) (footprint d) = false := by
  have harriving := fun w hat hto => arriving_of_logging (w := w) h hat hto
  obtain ⟨p, rfl, hstride⟩ := Runtime.step_stride h
  rw [Runtime.put_tasks] at hc
  -- only an arriving write and a script call put a new write under way
  cases hstride with
  | quiet _ hto _ => rw [hto] at hc; cases hc
  | loads _ hto _ => rw [hto] at hc; cases hc
  | applies w _ hto _ => rw [hto] at hc; cases hc
  | arrives w hat hto _ =>
      rw [hto] at hc
      obtain rfl := List.mem_singleton.mp hc
      right
      apply hs
      rw [Runtime.brings, hat]
      simp only
      rw [harriving w hat (by rw [Runtime.put_tasks]; exact hto)]
      rfl
  | passes stage w hat hto _ =>
      left
      rw [hat]
      rw [hto] at hc
      cases stage with
      | append => exact hc
      | send => exact hc
      | count => exact hc
  | @calls acl cmd args next writes hat hto _ =>
      rw [hto] at hc
      rcases List.mem_append.mp hc with hc | hc
      · left
        rw [hat]
        exact hc
      · right
        have hdone := callDone_redisCallBridge (s := x.runtime.server.storage) e.readings.env acl cmd args
        revert hc hdone
        generalize redisCallBridge e.readings.env acl cmd args x.runtime.server.storage = called
        intro hc hdone
        cases hdone with
        | nothing reply => cases hc
        | @wrote d key slot reply hd hkey hreplay =>
            obtain rfl := List.mem_singleton.mp hc
            rw [hd.keys]
            apply hs
            rw [Runtime.brings, hat]
            simp only [hkey, Option.map_some]
            rfl
  | ends writes hat hto _ =>
      left
      rw [hat]
      rw [hto] at hc
      cases writes with
      | nil => cases hc
      | cons w ws => exact hc
  | records stage w ws hat hto _ =>
      left
      rw [hat]
      rw [hto] at hc
      cases stage with
      | append => exact hc
      | send => exact hc
      | count =>
          cases ws with
          | nil => cases hc
          | cons w' ws => exact List.mem_cons_of_mem _ hc

omit [Lua] [Codec] in
/-- No key has writes of two tasks under way. -/
def Runtime.Alone (r : Runtime n) : Prop := ∀ k i j, r.Busy k i → r.Busy k j → i = j

theorem tasks_step (h : r.step cfg e = some r') {l : Fin n} (hl : l ≠ e.task) : r'.tasks l = r.tasks l := by
  obtain ⟨p, rfl, -⟩ := Runtime.step_stride h
  exact Runtime.put_tasks_ne hl p

theorem busy_other (h : r.step cfg e = some r') {l : Fin n} (hl : l ≠ e.task) : r'.Busy k l ↔ r.Busy k l := by
  unfold Runtime.Busy
  rw [tasks_step h hl]

theorem busy_step {x : Ledger n} (h : x.runtime.step cfg e = some r') (hs : Spaced cfg x e) (hb : r'.Busy k e.task) :
    x.runtime.Busy k e.task ∨ ∀ l, l ≠ e.task → ¬ x.runtime.Busy k l := by
  obtain ⟨c, hc, hk⟩ := hb
  rcases underway_step h hs hc with hold | hnew
  · exact Or.inl ⟨c, hold, hk⟩
  · right
    rintro l hl ⟨d, hd, hkd⟩
    cases (hnew l hl d hd).symm.trans (meets_of_touches hk hkd)

theorem alone_step {x : Ledger n} (h : x.runtime.step cfg e = some r') (hs : Spaced cfg x e)
    (halone : x.runtime.Alone) : r'.Alone := by
  have hmine : ∀ k l, l ≠ e.task → r'.Busy k e.task → ¬ r'.Busy k l := by
    intro k l hl hb hbl
    rw [busy_other h hl] at hbl
    rcases busy_step h hs hb with hold | hnew
    · exact hl (halone k l e.task hbl hold)
    · exact hnew l hl hbl
  intro k i j hi hj
  by_cases hie : i = e.task
  · by_contra hne
    exact hmine k j (fun hje => hne (hie.trans hje.symm)) (hie ▸ hi) hj
  · by_cases hje : j = e.task
    · exact absurd hi (hmine k i hie (hje ▸ hj))
    · rw [busy_other h hie] at hi
      rw [busy_other h hje] at hj
      exact halone k i j hi hj

/-! ## One step of the orders -/

/-- A step moves writes between what took the stage, what was applied, and what the task is ahead or behind. -/
theorem stride_lists {rd : Readings} {srv srv' : Server} {t t' : ConnTask} (h : Stride rd srv t srv' t')
    (stage : LogStage)
    {β : Type} {f : List Command → List β} (hnil : f [] = []) (happ : ∀ a b, f (a ++ b) = f a ++ f b) {T A : List β}
    (heq : T ++ f (t.point.behind stage) = A ++ f (t.point.ahead stage)) :
    T ++ f (t.point.takes stage) ++ f (t'.point.behind stage)
      = A ++ f (t.point.applies rd.env srv.storage) ++ f (t'.point.ahead stage) := by
  have hrecord : ∀ ws, (Point.record ws).behind stage = ws ∧ (Point.record ws).ahead stage = [] := by
    intro ws
    cases ws with
    | nil => exact ⟨rfl, rfl⟩
    | cons w ws => exact ⟨rfl, rfl⟩
  -- a write leaves one of the lists where it enters another
  cases h with
  | quiet hat hto _ => simpa [hat, hto, Point.takes, Point.applies, hnil] using heq
  | loads hat hto _ =>
      rw [hat] at heq ⊢
      rw [hto]
      simpa [Point.takes, Point.applies, Point.behind, Point.ahead, hnil] using heq
  | arrives w hat hto _ =>
      rw [hat] at heq ⊢
      rw [hto]
      simpa [Point.takes, Point.applies, Point.behind, Point.ahead, LogStage.upTo, hnil] using heq
  | applies w hat hto _ =>
      rw [hat] at heq ⊢
      rw [hto]
      simpa [Point.takes, Point.applies, Point.behind, Point.ahead, hnil] using heq
  | calls hat hto _ =>
      rw [hat] at heq ⊢
      rw [hto]
      simp only [Point.takes, Point.applies, Point.behind, Point.ahead, hnil, happ, List.append_nil] at heq ⊢
      rw [← List.append_assoc, heq]
  | ends writes hat hto _ =>
      rw [hat] at heq ⊢
      rw [hto, (hrecord writes).1, (hrecord writes).2]
      simpa [Point.takes, Point.applies, Point.behind, Point.ahead, hnil] using heq
  | passes at' w hat hto _ =>
      rw [hat] at heq ⊢
      rw [hto]
      cases at' <;> cases stage <;>
        simpa [Point.takes, Point.applies, Point.behind, Point.ahead, LogStage.upTo, LogStage.next, hnil] using heq
  | records at' w ws hat hto _ =>
      rw [hat] at heq ⊢
      have hcons : f (w :: ws) = f [w] ++ f ws := happ [w] ws
      cases at' with
      | append =>
          rw [hto]
          cases stage <;>
            simpa [Point.takes, Point.applies, Point.behind, Point.ahead, LogStage.upTo, LogStage.next, hnil, hcons]
              using heq
      | send =>
          rw [hto]
          cases stage <;>
            simpa [Point.takes, Point.applies, Point.behind, Point.ahead, LogStage.upTo, LogStage.next, hnil, hcons]
              using heq
      | count =>
          rw [show t'.point = .record ws from hto, (hrecord ws).1, (hrecord ws).2]
          cases stage <;>
            simpa [Point.takes, Point.applies, Point.behind, Point.ahead, LogStage.upTo, hnil, hcons] using heq

section Underway

omit [KeyHash] [Lua] [Codec]

variable {point : Point} {stage : LogStage} {c : Command}

theorem underway_of_behind (h : c ∈ point.behind stage) : c ∈ point.underway := by
  cases point with
  | scripting acl script writes => exact h
  | recording at' w ws =>
      rw [Point.behind] at h
      split at h
      · exact h
      · exact List.mem_cons_of_mem _ h
  | _ => cases h

theorem underway_of_ahead (h : c ∈ point.ahead stage) : c ∈ point.underway := by
  cases point with
  | logging at' w =>
      rw [Point.ahead] at h
      split at h
      · cases h
      · exact h
  | applying w => exact h
  | _ => cases h

theorem underway_of_takes (h : c ∈ point.takes stage) : c ∈ point.underway := by
  cases point with
  | logging at' w =>
      rw [Point.takes] at h
      split at h
      · exact h
      · cases h
  | recording at' w ws =>
      rw [Point.takes] at h
      split at h
      · rw [List.mem_singleton.mp h]
        exact List.mem_cons_self
      · cases h
  | _ => cases h

end Underway

theorem underway_of_applies {rd : Readings} {srv srv' : Server} {t t' : ConnTask} (h : Stride rd srv t srv' t')
    {c : Command} (hc : c ∈ t.point.applies rd.env srv.storage) :
    c ∈ t.point.underway ∨ c ∈ t'.point.underway := by
  cases h with
  | applies w hat _ _ =>
      rw [hat] at hc ⊢
      exact Or.inl hc
  | calls hat hto _ =>
      rw [hat] at hc
      rw [hto]
      exact Or.inr (List.mem_append_right _ hc)
  | quiet hat _ _ => rw [hat] at hc; cases hc
  | loads hat _ _ => rw [hat] at hc; cases hc
  | arrives w hat _ _ => rw [hat] at hc; cases hc
  | passes stage w hat _ _ => rw [hat] at hc; cases hc
  | ends writes hat _ _ => rw [hat] at hc; cases hc
  | records stage w ws hat _ _ => rw [hat] at hc; cases hc

/-! ## Key by key -/

omit [KeyHash] [Lua] [Codec] in
/-- The writes on the key. -/
def writesOn (k : Bytes) (l : List (Fin n × Command)) : List (Fin n × Command) :=
  l.filter fun p => touchesKey p.2 k

omit [KeyHash] [Lua] [Codec] in
theorem writesOn_append (l l' : List (Fin n × Command)) : writesOn k (l ++ l') = writesOn k l ++ writesOn k l' :=
  List.filter_append ..

omit [Lua] [Codec] in
/-- A task that has nothing under way on the key has done nothing there. -/
theorem writesOn_nil {i : Fin n} {l : List Command} (hb : ¬ r.Busy k i)
    (hl : ∀ c ∈ l, c ∈ (r.tasks i).point.underway) : writesOn k (l.map (i, ·)) = [] := by
  apply List.filter_eq_nil_iff.mpr
  intro p hp
  obtain ⟨c, hc, rfl⟩ := List.mem_map.mp hp
  exact fun hk => hb ⟨c, hl c hc, hk⟩

/-- On the key, what took a stage is what was applied, up to what one task is ahead or behind. -/
structure Ordered (k : Bytes) (x : Ledger n) : Prop where
  task : ∀ i, (∀ j, j ≠ i → ¬ x.runtime.Busy k j) → ∀ stage,
    writesOn k (x.taken stage) ++ writesOn k (((x.runtime.tasks i).point.behind stage).map (i, ·))
      = writesOn k x.applied ++ writesOn k (((x.runtime.tasks i).point.ahead stage).map (i, ·))
  rest : (∀ j, ¬ x.runtime.Busy k j) → ∀ stage, writesOn k (x.taken stage) = writesOn k x.applied

theorem Ledger.step_cases {x x' : Ledger n} (h : x.step cfg e = some x') :
    x.runtime.step cfg e = some x'.runtime ∧
      (∀ stage, x'.taken stage
        = x.taken stage ++ ((x.runtime.tasks e.task).point.takes stage).map (e.task, ·)) ∧
      x'.applied = x.applied ++
        ((x.runtime.tasks e.task).point.applies e.readings.env x.runtime.server.storage).map (e.task, ·) := by
  obtain ⟨r, hr, rfl⟩ := Option.map_eq_some_iff.mp h
  exact ⟨hr, fun _ => rfl, rfl⟩

/-- **A spaced step keeps the orders in step.** -/
theorem Ordered.step {x x' : Ledger n} (ho : Ordered k x) (halone : x.runtime.Alone) (h : x.step cfg e = some x') :
    Ordered k x' := by
  obtain ⟨hstep, htaken, happlied⟩ := Ledger.step_cases h
  obtain ⟨p, hp, hstride⟩ := Runtime.step_stride hstep
  have hpoint : p.2 = x'.runtime.tasks e.task := by rw [hp, Runtime.put_tasks]
  rw [hpoint] at hstride
  -- the task of the event
  have hmine : (∀ j, j ≠ e.task → ¬ x.runtime.Busy k j) → ∀ stage,
      writesOn k (x'.taken stage) ++ writesOn k (((x'.runtime.tasks e.task).point.behind stage).map (e.task, ·))
        = writesOn k x'.applied ++ writesOn k (((x'.runtime.tasks e.task).point.ahead stage).map (e.task, ·)) := by
    intro hothers stage
    have hlists := stride_lists hstride stage (f := fun l => writesOn k (l.map (e.task, ·))) rfl
      (fun a b => by rw [List.map_append, writesOn_append]) (ho.task e.task hothers stage)
    rw [htaken, happlied, writesOn_append, writesOn_append]
    exact hlists
  -- a task that has come to an end on the key, or had nothing to do with it
  have hdone : ¬ x'.runtime.Busy k e.task → x.runtime.Busy k e.task → ∀ stage,
      writesOn k (x'.taken stage) = writesOn k x'.applied := by
    intro hnot hbusy stage
    have hothers : ∀ j, j ≠ e.task → ¬ x.runtime.Busy k j := fun j hj hb => hj (halone k j e.task hb hbusy)
    have heq := hmine hothers stage
    rwa [writesOn_nil hnot fun c hc => underway_of_behind hc, writesOn_nil hnot fun c hc => underway_of_ahead hc,
      List.append_nil, List.append_nil] at heq
  have hidle : ¬ x'.runtime.Busy k e.task → ¬ x.runtime.Busy k e.task →
      (∀ stage, writesOn k (x'.taken stage) = writesOn k (x.taken stage)) ∧
        writesOn k x'.applied = writesOn k x.applied := by
    intro hnot hbefore
    constructor
    · intro stage
      rw [htaken, writesOn_append, writesOn_nil hbefore fun c hc => underway_of_takes hc, List.append_nil]
    · rw [happlied, writesOn_append]
      refine List.append_right_eq_self.mpr (List.filter_eq_nil_iff.mpr ?_)
      intro q hq hk
      obtain ⟨c, hc, rfl⟩ := List.mem_map.mp hq
      rcases underway_of_applies hstride hc with hold | hnew
      · exact hbefore ⟨c, hold, hk⟩
      · exact hnot ⟨c, hnew, hk⟩
  refine ⟨fun j hj => ?_, fun hnone => ?_⟩
  · by_cases hje : j = e.task
    · subst hje
      exact hmine fun l hl hb => hj l hl ((busy_other hstep hl).mpr hb)
    · have hnot : ¬ x'.runtime.Busy k e.task := hj e.task (Ne.symm hje)
      rw [tasks_step hstep hje]
      intro stage
      by_cases hbusy : x.runtime.Busy k e.task
      · have hfree : ¬ x.runtime.Busy k j := fun hb => hje (halone k j e.task hb hbusy)
        rw [hdone hnot hbusy stage, writesOn_nil hfree fun c hc => underway_of_behind hc,
          writesOn_nil hfree fun c hc => underway_of_ahead hc]
      · rw [(hidle hnot hbusy).1, (hidle hnot hbusy).2]
        apply ho.task j
        intro l hl hb
        by_cases hle : l = e.task
        · exact hbusy (hle ▸ hb)
        · exact hj l hl ((busy_other hstep hle).mpr hb)
  · intro stage
    by_cases hbusy : x.runtime.Busy k e.task
    · exact hdone (hnone e.task) hbusy stage
    · rw [(hidle (hnone e.task) hbusy).1, (hidle (hnone e.task) hbusy).2]
      apply ho.rest
      intro l hb
      by_cases hle : l = e.task
      · exact hbusy (hle ▸ hb)
      · exact hnone l ((busy_other hstep hle).mpr hb)

/-! ## One order for each key -/

/-- **There is one order of the writes on each key**: the log, the replicas' streams and the storage each have a first
    part of it. -/
def Ledger.SameOrder (x : Ledger n) : Prop :=
  ∀ k, ∃ order, ∀ l ∈ [x.taken .append, x.taken .send, x.applied], writesOn k l <+: order

omit [Lua] [Codec] in
theorem sameOrder_of_ordered {x : Ledger n} (halone : x.runtime.Alone) (ho : ∀ k, Ordered k x) : x.SameOrder := by
  intro k
  by_cases hbusy : ∃ i, x.runtime.Busy k i
  · obtain ⟨i, hi⟩ := hbusy
    have heq := (ho k).task i fun j hj hb => hj (halone k j i hb hi)
    -- a task is ahead with what it has under way, or behind, never both
    refine ⟨writesOn k x.applied ++ writesOn k (((x.runtime.tasks i).point.ahead .append).map (i, ·)), ?_⟩
    have hstage : ∀ stage, stage = .append ∨ stage = .send →
        writesOn k (((x.runtime.tasks i).point.ahead stage).map (i, ·))
          <+: writesOn k (((x.runtime.tasks i).point.ahead .append).map (i, ·)) := by
      rintro stage (rfl | rfl)
      · exact List.prefix_rfl
      · cases (x.runtime.tasks i).point with
        | logging at' w =>
            cases at' with
            | append => exact List.prefix_rfl
            | send => exact List.nil_prefix
            | count => exact List.prefix_rfl
        | _ => exact List.prefix_rfl
    have htaken : ∀ stage, stage = .append ∨ stage = .send → writesOn k (x.taken stage)
        <+: writesOn k x.applied ++ writesOn k (((x.runtime.tasks i).point.ahead .append).map (i, ·)) := by
      intro stage hs
      have hprefix := List.prefix_append (writesOn k (x.taken stage))
        (writesOn k (((x.runtime.tasks i).point.behind stage).map (i, ·)))
      rw [heq stage] at hprefix
      exact hprefix.trans ((List.prefix_append_right_inj _).mpr (hstage stage hs))
    intro l hl
    simp only [List.mem_cons, List.not_mem_nil, or_false] at hl
    rcases hl with rfl | rfl | rfl
    · exact htaken .append (Or.inl rfl)
    · exact htaken .send (Or.inr rfl)
    · exact List.prefix_append _ _
  · have heq := (ho k).rest (not_exists.mp hbusy)
    refine ⟨writesOn k x.applied, fun l hl => ?_⟩
    simp only [List.mem_cons, List.not_mem_nil, or_false] at hl
    rcases hl with rfl | rfl | rfl
    · rw [heq]
    · rw [heq]
    · exact List.prefix_rfl

/-- What every spaced run keeps. -/
theorem ordered_run {srv : Server} {es : List (TaskEvent n)} {x : Ledger n}
    (hes : Along (Ledger.step cfg) (Spaced cfg) (Ledger.start n srv) es)
    (hrun : run (Ledger.step cfg) (Ledger.start n srv) es = some x) :
    x.runtime.Alone ∧ ∀ k, Ordered k x := by
  refine run_invariant (I := fun x => x.runtime.Alone ∧ ∀ k, Ordered k x) ?_ es _ _ hes hrun ⟨?_, fun k => ⟨?_, ?_⟩⟩
  · rintro x e x' ⟨halone, ho⟩ hs h
    exact ⟨alone_step (Ledger.step_cases h).1 hs halone, fun k => (ho k).step halone h⟩
  · rintro k i j ⟨c, hc, -⟩
    cases hc
  · intro i _ stage
    rfl
  · intro _ stage
    rfl

end Ledger

end FerricCache
