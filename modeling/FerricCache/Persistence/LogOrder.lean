import FerricCache.Persistence.Journal
import FerricCache.Server.Ledger

/-!
# `FerricCache.Persistence.LogOrder` — replaying the log and the replicas' streams

The log and every replica's stream have the writes on a key in the order in which the storage got them, in every run
that is spaced (`log_order_is_apply_order`). So a replay of either one ends with the storage of the server, once
nothing is under way. What a replay has at a time differs from the storage by what tasks are ahead or behind
(`Shadows`).

Two writes on one key that are under way together can be logged in one order and applied in the other
(`log_order_differs`).
-/

namespace FerricCache

open Lib.Run

variable [KeyHash]

section Slots

variable {env : Env} {c : Command} {k : Bytes} {s t : CacheStorage}

theorem apply_frame (hw : isWriteCommand c = true) (hk : touchesKey c k = false) (s : CacheStorage) :
    (applyWriteCommand env c s).2.slotAt k = s.slotAt k := by
  unfold touchesKey at hk
  cases hF : footprint c with
  | none =>
      rw [hF] at hk
      cases hk
  | some keys =>
      rw [hF] at hk
      refine (apply_local env hw).frame s k keys hF fun hmem => ?_
      cases hk.symm.trans (List.contains_iff_mem.mpr hmem)

theorem agreeOn_of_touches (h : ∀ k, touchesKey c k = true → s.slotAt k = t.slotAt k) : AgreeOn (footprint c) s t := by
  cases hF : footprint c with
  | none =>
      apply CacheStorage.ext_entry
      intro k
      apply h
      rw [touchesKey, hF]
  | some keys =>
      intro k hk
      apply h
      rw [touchesKey, hF]
      exact List.contains_iff_mem.mpr hk

theorem apply_slot (hw : isWriteCommand c = true) (h : ∀ k, touchesKey c k = true → s.slotAt k = t.slotAt k)
    (hk : s.slotAt k = t.slotAt k) :
    (applyWriteCommand env c s).2.slotAt k = (applyWriteCommand env c t).2.slotAt k := by
  cases htouch : touchesKey c k with
  | false => rw [apply_frame hw htouch, apply_frame hw htouch, hk]
  | true =>
      have hagree := (apply_local env hw).agree s t (agreeOn_of_touches h)
      rw [touchesKey] at htouch
      cases hF : footprint c with
      | none =>
          rw [hF] at hagree
          rw [show (applyWriteCommand env c s).2 = _ from hagree]
      | some keys =>
          rw [hF] at hagree htouch
          exact hagree k (List.contains_iff_mem.mp htouch)

/-- What the commands do, panic or not. -/
def effects (env : Env) (cs : List Command) (s : CacheStorage) : CacheStorage :=
  cs.foldl (fun s c => (applyWriteCommand env c s).2) s

variable {cs : List Command}

theorem effects_frame (hw : ∀ c ∈ cs, isWriteCommand c = true) (hk : ∀ c ∈ cs, touchesKey c k = false)
    (s : CacheStorage) : (effects env cs s).slotAt k = s.slotAt k := by
  induction cs generalizing s with
  | nil => rfl
  | cons c cs ih =>
      show (effects env cs (applyWriteCommand env c s).2).slotAt k = _
      rw [ih (fun d hd => hw d (List.mem_cons_of_mem _ hd)) (fun d hd => hk d (List.mem_cons_of_mem _ hd)),
        apply_frame (hw c List.mem_cons_self) (hk c List.mem_cons_self)]

/-- What commands do on the keys they touch depends on these keys. -/
theorem effects_agree {K : Set Bytes} (hw : ∀ c ∈ cs, isWriteCommand c = true)
    (hK : ∀ c ∈ cs, ∀ k, touchesKey c k = true → k ∈ K) (h : ∀ k ∈ K, s.slotAt k = t.slotAt k) :
    ∀ k ∈ K, (effects env cs s).slotAt k = (effects env cs t).slotAt k := by
  induction cs generalizing s t with
  | nil => exact h
  | cons c cs ih =>
      apply ih (fun d hd => hw d (List.mem_cons_of_mem _ hd)) fun d hd => hK d (List.mem_cons_of_mem _ hd)
      intro k hk
      exact apply_slot (hw c List.mem_cons_self) (fun k hk => h k (hK c List.mem_cons_self k hk)) (h k hk)

end Slots

/-! ## A replay beside the storage -/

omit [KeyHash] in
/-- The writes of a script that are under way. -/
def Point.recorded : Point → List Command
  | .scripting _ _ writes => writes
  | .recording _ w ws => w :: ws
  | _ => []

section Shadows

variable {n : Nat}

/-- They are writes that the bridge records. -/
def Runtime.Bridged (r : Runtime n) : Prop := ∀ i, ∀ c ∈ (r.tasks i).point.recorded, ∃ key, BridgedWrite c key

theorem Runtime.Bridged.write {r : Runtime n} (h : r.Bridged) {i : Fin n} {c : Command}
    (hc : c ∈ (r.tasks i).point.underway) : isWriteCommand c = true := by
  have hi := h i
  cases hat : (r.tasks i).point with
  | idle =>
      rw [hat] at hc
      cases hc
  | logging at' w =>
      rw [hat] at hc
      rw [List.mem_singleton.mp hc]
      exact w.2
  | applying w =>
      rw [hat] at hc
      rw [List.mem_singleton.mp hc]
      exact w.2
  | scripting acl script writes =>
      rw [hat] at hc hi
      obtain ⟨key, hkey⟩ := hi c hc
      exact (hkey.steady CacheStorage.new).write
  | recording at' w ws =>
      rw [hat] at hc hi
      obtain ⟨key, hkey⟩ := hi c hc
      exact (hkey.steady CacheStorage.new).write

/-- What a replay of the writes that took the stage has come to: the storage, but for what a task is ahead or behind. -/
structure Shadows (stage : LogStage) (env : Env) (t : CacheStorage) (r : Runtime n) : Prop where
  task : ∀ k i, (∀ j, j ≠ i → ¬ r.Busy k j) →
    (effects env ((r.tasks i).point.behind stage) t).slotAt k
      = (effects env ((r.tasks i).point.ahead stage) r.server.storage).slotAt k
  rest : ∀ k, (∀ j, ¬ r.Busy k j) → t.slotAt k = r.server.storage.slotAt k

variable {r r' : Runtime n} {stage : LogStage} {env : Env} {t t' : CacheStorage} {k : Bytes} {i : Fin n}

/-- A task that has nothing under way on the key is neither ahead nor behind there. -/
theorem effects_behind (hb : r.Bridged) (hfree : ¬ r.Busy k i) (s : CacheStorage) :
    (effects env ((r.tasks i).point.behind stage) s).slotAt k = s.slotAt k := by
  apply effects_frame (fun c hc => hb.write (underway_of_behind hc))
  intro c hc
  by_contra hk
  exact hfree ⟨c, underway_of_behind hc, Bool.eq_true_of_not_eq_false hk⟩

theorem effects_ahead (hb : r.Bridged) (hfree : ¬ r.Busy k i) (s : CacheStorage) :
    (effects env ((r.tasks i).point.ahead stage) s).slotAt k = s.slotAt k := by
  apply effects_frame (fun c hc => hb.write (underway_of_ahead hc))
  intro c hc
  by_contra hk
  exact hfree ⟨c, underway_of_ahead hc, Bool.eq_true_of_not_eq_false hk⟩

variable [Lua] [Codec] {cfg : ServerConfig} {e : TaskEvent n}

/-- **What one task does on its keys leaves the others where they were.** -/
theorem Shadows.confined (hm : Shadows stage env t r) (h : r.step cfg e = some r') (halone : r.Alone)
    (halone' : r'.Alone) (hb : r.Bridged) (hb' : r'.Bridged)
    (hconfined : ∀ k, ¬ r.Busy k e.task → ¬ r'.Busy k e.task →
      t'.slotAt k = t.slotAt k ∧ r'.server.storage.slotAt k = r.server.storage.slotAt k)
    (hmine : ∀ k, (∀ j, j ≠ e.task → ¬ r.Busy k j) →
      (effects env ((r'.tasks e.task).point.behind stage) t').slotAt k
        = (effects env ((r'.tasks e.task).point.ahead stage) r'.server.storage).slotAt k) :
    Shadows stage env t' r' := by
  have hdone : ∀ k, r.Busy k e.task → ¬ r'.Busy k e.task → t'.slotAt k = r'.server.storage.slotAt k := by
    intro k hbusy hnot
    have heq := hmine k fun j hj hbj => hj (halone k j e.task hbj hbusy)
    rwa [effects_behind hb' hnot, effects_ahead hb' hnot] at heq
  refine ⟨fun k j hj => ?_, fun k hnone => ?_⟩
  · by_cases hje : j = e.task
    · subst hje
      exact hmine k fun l hl hbl => hj l hl ((busy_other h hl).mpr hbl)
    · have hnot : ¬ r'.Busy k e.task := hj e.task (Ne.symm hje)
      rw [tasks_step h hje]
      by_cases hbusy : r.Busy k e.task
      · have hfree : ¬ r.Busy k j := fun hbj => hje (halone k j e.task hbj hbusy)
        rw [effects_behind hb hfree, effects_ahead hb hfree]
        exact hdone k hbusy hnot
      · have hothers : ∀ l, l ≠ j → ¬ r.Busy k l := by
          intro l hl hbl
          by_cases hle : l = e.task
          · exact hbusy (hle ▸ hbl)
          · exact hj l hl ((busy_other h hle).mpr hbl)
        by_cases hbj : r.Busy k j
        · -- on the keys that the other task is busy with, nothing has changed
          have hsame : ∀ k' ∈ { k' | r.Busy k' j },
              t'.slotAt k' = t.slotAt k' ∧ r'.server.storage.slotAt k' = r.server.storage.slotAt k' := by
            intro k' hk'
            refine hconfined k' (fun hbe => hje (halone k' j e.task hk' hbe)) fun hbe => ?_
            exact hje (halone' k' j e.task ((busy_other h hje).mpr hk') hbe)
          have hbehind : (effects env ((r.tasks j).point.behind stage) t').slotAt k
              = (effects env ((r.tasks j).point.behind stage) t).slotAt k :=
            effects_agree (K := { k' | r.Busy k' j }) (fun c hc => hb.write (underway_of_behind hc))
              (fun c hc k' hk' => ⟨c, underway_of_behind hc, hk'⟩) (fun k' hk' => (hsame k' hk').1) k hbj
          have hahead : (effects env ((r.tasks j).point.ahead stage) r'.server.storage).slotAt k
              = (effects env ((r.tasks j).point.ahead stage) r.server.storage).slotAt k :=
            effects_agree (K := { k' | r.Busy k' j }) (fun c hc => hb.write (underway_of_ahead hc))
              (fun c hc k' hk' => ⟨c, underway_of_ahead hc, hk'⟩) (fun k' hk' => (hsame k' hk').2) k hbj
          rw [hbehind, hahead]
          exact hm.task k j hothers
        · rw [effects_behind hb hbj, effects_ahead hb hbj, (hconfined k hbusy hnot).1, (hconfined k hbusy hnot).2]
          apply hm.rest
          intro l hbl
          by_cases hl : l = j
          · exact hbj (hl ▸ hbl)
          · exact hothers l hl hbl
  · by_cases hbusy : r.Busy k e.task
    · exact hdone k hbusy (hnone e.task)
    · rw [(hconfined k hbusy (hnone e.task)).1, (hconfined k hbusy (hnone e.task)).2]
      apply hm.rest
      intro l hbl
      by_cases hle : l = e.task
      · exact hbusy (hle ▸ hbl)
      · exact hnone l ((busy_other h hle).mpr hbl)

theorem bridged_step (h : r.step cfg e = some r') (hb : r.Bridged) : r'.Bridged := by
  intro l
  by_cases hl : l = e.task
  · subst hl
    have hold := hb e.task
    obtain ⟨p, rfl, hstride⟩ := Runtime.step_stride h
    rw [Runtime.put_tasks]
    have hrecord : ∀ ws, (Point.record ws).recorded = ws := by
      intro ws
      cases ws with
      | nil => rfl
      | cons w ws => rfl
    -- only a script call records, and it records what its arm wrote
    cases hstride with
    | quiet _ hto _ => rw [hto]; exact fun c hc => by cases hc
    | loads _ hto _ => rw [hto]; exact fun c hc => by cases hc
    | arrives w _ hto _ => rw [hto]; exact fun c hc => by cases hc
    | applies w _ hto _ => rw [hto]; exact fun c hc => by cases hc
    | passes at' w _ hto _ =>
        rw [hto]
        cases at' with
        | append => exact fun c hc => by cases hc
        | send => exact fun c hc => by cases hc
        | count => exact fun c hc => by cases hc
    | ends writes hat hto _ =>
        rw [hat] at hold
        rw [hto, hrecord]
        exact hold
    | records at' w ws hat hto _ =>
        rw [hat] at hold
        cases at' with
        | append => rw [hto]; exact hold
        | send => rw [hto]; exact hold
        | count =>
            rw [show p.2.point = .record ws from hto, hrecord]
            exact fun c hc => hold c (List.mem_cons_of_mem _ hc)
    | @calls acl cmd args next writes hat hto _ =>
        rw [hat] at hold
        rw [hto]
        intro c hc
        rcases List.mem_append.mp hc with hc | hc
        · exact hold c hc
        · have hdone := callDone_redisCallBridge (s := r.server.storage) e.readings.env acl cmd args
          generalize redisCallBridge e.readings.env acl cmd args r.server.storage = called at hc hdone
          cases hdone with
          | nothing reply => cases hc
          | wrote reply hd hkey hreplay =>
              rw [List.mem_singleton.mp hc]
              exact ⟨_, hd⟩
  · rw [tasks_step h hl]
    exact hb l

/-- Every write is one that a replay carries out as the server does, and the server does not panic on it. -/
def Repeatable (x : Ledger n) (e : TaskEvent n) : Prop :=
  match (x.runtime.tasks e.task).point with
  | .logging _ w => Steady w.1 x.runtime.server.storage ∧ Returns e.readings.env w.1 x.runtime.server.storage
  | .applying w => Steady w.1 x.runtime.server.storage
  | _ => True

theorem plain_step {x : Ledger n} (h : x.runtime.step cfg e = some r') (hset : Repeatable x e)
    (hplain : x.runtime.server.storage.Plain) : r'.server.storage.Plain := by
  obtain ⟨p, rfl, hstride⟩ := Runtime.step_stride h
  rw [Runtime.put_server]
  cases hstride with
  | quiet _ _ hserver => rw [hserver.storage]; exact hplain
  | loads _ _ hserver => rw [hserver.storage]; exact hplain
  | arrives w _ _ hserver => rw [hserver]; exact hplain
  | ends writes _ _ hserver => rw [hserver]; exact hplain
  | passes at' w _ _ hserver => rw [hserver, (pass_frame _ _ w at').1]; exact hplain
  | records at' w ws _ _ hserver => rw [hserver, (pass_frame _ _ w at').1]; exact hplain
  | applies w hat _ hserver =>
      rw [Repeatable, hat] at hset
      rw [hserver]
      exact effect_plain _ hplain hset
  | @calls acl cmd args next writes hat _ hserver =>
      rw [hserver]
      have hdone := callDone_redisCallBridge (s := x.runtime.server.storage) e.readings.env acl cmd args
      generalize redisCallBridge e.readings.env acl cmd args x.runtime.server.storage = called at hdone
      cases hdone with
      | nothing reply => exact hplain
      | wrote reply hc hkey hreplay =>
          have heffect := apply_eq_effect e.readings.env e.readings.env hplain (hc.steady x.runtime.server.storage)
          rw [hreplay] at heffect
          show CacheStorage.Plain _
          rw [heffect]
          exact effect_plain _ hplain (hc.steady _)

/-! ## One step of a replay -/

section Step

variable {x : Ledger n} {w : WriteCommand}

/-- A step that moves no write, and leaves the storage alone. -/
theorem Shadows.still (hm : Shadows stage env t r) (h : r.step cfg e = some r') (halone : r.Alone)
    (halone' : r'.Alone) (hb : r.Bridged) (hb' : r'.Bridged) (hserver : r'.server.storage = r.server.storage)
    (hbehind : (r'.tasks e.task).point.behind stage = (r.tasks e.task).point.behind stage)
    (hahead : (r'.tasks e.task).point.ahead stage = (r.tasks e.task).point.ahead stage) :
    Shadows stage env t r' := by
  apply hm.confined h halone halone' hb hb'
  · intro k _ _
    rw [hserver]
    exact ⟨rfl, rfl⟩
  · intro k hothers
    rw [hbehind, hahead, hserver]
    exact hm.task k e.task hothers

omit [Lua] [Codec] in
/-- On the keys of a write that is about to take the stage, the replay has what the storage has. -/
theorem Shadows.agree (hm : Shadows stage env t r) (hat : (r.tasks i).point = .logging stage w)
    (hk : ∀ j, j ≠ i → ¬ r.Busy k j) : t.slotAt k = r.server.storage.slotAt k := by
  have heq := hm.task k i hk
  rw [hat] at heq
  cases stage with
  | append => exact heq
  | send => exact heq
  | count => exact heq

theorem Shadows.takes (hm : Shadows stage env t r) (h : r.step cfg e = some r') (halone : r.Alone)
    (halone' : r'.Alone) (hb : r.Bridged) (hb' : r'.Bridged) (hplain : r.server.storage.Plain) (ht : t.Plain)
    (hat : (r.tasks e.task).point = .logging stage w)
    (hto : (r'.tasks e.task).point = (stage.next.map (Point.logging · w)).getD (.applying w))
    (hserver : r'.server.storage = r.server.storage) (hsteady : Steady w.1 r.server.storage)
    (hreturns : Returns e.readings.env w.1 r.server.storage) (env' : Env) :
    (applyWriteCommand env' w t).1 = some () ∧ (applyWriteCommand env' w t).2.Plain ∧
      Shadows stage env (applyWriteCommand env' w t).2 r' := by
  have hbusy : ∀ k, touchesKey w.1 k = true → r.Busy k e.task := by
    intro k hk
    refine ⟨w.1, ?_, hk⟩
    rw [hat]
    exact List.mem_singleton_self w.1
  have hkeys : ∀ k, touchesKey w.1 k = true → t.slotAt k = r.server.storage.slotAt k := by
    intro k hk
    exact hm.agree hat fun j hj hbj => hj (halone k j e.task hbj (hbusy k hk))
  have hagree : AgreeOn (footprint w.1) t r.server.storage := agreeOn_of_touches hkeys
  have hsteady' : Steady w.1 t := steady_of_agree (agreeOn_of_touches fun k hk => (hkeys k hk).symm) hsteady
  refine ⟨?_, ?_, hm.confined h halone halone' hb hb' ?_ ?_⟩
  · rw [(apply_local env' w.2).reply _ _ hagree]
    exact apply_returns e.readings.env env' hplain hsteady hreturns
  · rw [apply_eq_effect env' env' ht hsteady']
    exact effect_plain env' ht hsteady'
  · intro k hfree _
    refine ⟨apply_frame w.2 ?_ t, by rw [hserver]⟩
    cases htouch : touchesKey w.1 k with
    | false => rfl
    | true => exact absurd (hbusy k htouch) hfree
  · intro k hothers
    have hslot : (applyWriteCommand env' w.1 t).2.slotAt k = (applyWriteCommand env' w.1 r.server.storage).2.slotAt k :=
      apply_slot w.2 hkeys (hm.agree hat hothers)
    -- on the storage the write does the same whatever it reads
    rw [apply_eq_effect env env' hplain hsteady, ← apply_eq_effect env env hplain hsteady] at hslot
    rw [hto, hserver]
    cases stage with
    | append => exact hslot
    | send => exact hslot
    | count => exact hslot

theorem Shadows.records {c : Command} {cs : List Command} (hm : Shadows stage env t r) (h : r.step cfg e = some r')
    (halone : r.Alone) (halone' : r'.Alone) (hb : r.Bridged) (hb' : r'.Bridged) (ht : t.Plain)
    (hat : (r.tasks e.task).point = .recording stage c cs)
    (hto : (r'.tasks e.task).point = (stage.next.map (Point.recording · c cs)).getD (.record cs))
    (hserver : r'.server.storage = r.server.storage) (env' : Env) :
    (applyWriteCommand env' c t).1 = some () ∧ (applyWriteCommand env' c t).2.Plain ∧
      Shadows stage env (applyWriteCommand env' c t).2 r' := by
  obtain ⟨key, hkey⟩ : ∃ key, BridgedWrite c key := by
    have hrecorded := hb e.task
    rw [hat] at hrecorded
    exact hrecorded c List.mem_cons_self
  have hrecord : ∀ cs, (Point.record cs).behind stage = cs ∧ (Point.record cs).ahead stage = [] := by
    intro cs
    cases cs with
    | nil => exact ⟨rfl, rfl⟩
    | cons c cs => exact ⟨rfl, rfl⟩
  refine ⟨hkey.returns env' t, ?_, hm.confined h halone halone' hb hb' ?_ ?_⟩
  · rw [apply_eq_effect env' env' ht (hkey.steady t)]
    exact effect_plain env' ht (hkey.steady t)
  · intro k hfree _
    refine ⟨apply_frame (hkey.steady t).write ?_ t, by rw [hserver]⟩
    cases htouch : touchesKey c k with
    | false => rfl
    | true =>
        refine absurd ⟨c, ?_, htouch⟩ hfree
        rw [hat]
        exact List.mem_cons_self
  · intro k hothers
    have heq := hm.task k e.task hothers
    rw [hat] at heq
    rw [hto, hserver, hkey.clockless env' env t]
    cases stage with
    | append => exact heq
    | send => exact heq
    | count =>
        show (effects env ((Point.record cs).behind .count) _).slotAt k
          = (effects env ((Point.record cs).ahead .count) _).slotAt k
        rw [(hrecord cs).1, (hrecord cs).2]
        exact heq

theorem Shadows.applies (hm : Shadows stage env t r) (h : r.step cfg e = some r') (halone : r.Alone)
    (halone' : r'.Alone) (hb : r.Bridged) (hb' : r'.Bridged) (hplain : r.server.storage.Plain)
    (hat : (r.tasks e.task).point = .applying w) (hto : (r'.tasks e.task).point = .idle)
    (hserver : r'.server.storage = effect e.readings.env w r.server.storage) (hsteady : Steady w.1 r.server.storage) :
    Shadows stage env t r' := by
  rw [← apply_eq_effect e.readings.env env hplain hsteady] at hserver
  apply hm.confined h halone halone' hb hb'
  · intro k hfree _
    rw [hserver]
    refine ⟨rfl, apply_frame w.2 ?_ r.server.storage⟩
    cases htouch : touchesKey w.1 k with
    | false => rfl
    | true =>
        refine absurd ⟨w.1, ?_, htouch⟩ hfree
        rw [hat]
        exact List.mem_singleton_self w.1
  · intro k hothers
    have heq := hm.task k e.task hothers
    rw [hat] at heq
    rw [hto, hserver]
    exact heq

theorem Shadows.calls {acl : AclCheck} {script script' : Script} {cs : List Command} {written : Option Bytes}
    {called : (Response × List Command) × CacheStorage} (hm : Shadows stage env t r) (h : r.step cfg e = some r')
    (halone : r.Alone) (halone' : r'.Alone) (hb : r.Bridged) (hb' : r'.Bridged)
    (hat : (r.tasks e.task).point = .scripting acl script cs)
    (hto : (r'.tasks e.task).point = .scripting acl script' (cs ++ called.1.2))
    (hserver : r'.server.storage = called.2) (hdone : CallDone r.server.storage written called) :
    Shadows stage env t r' := by
  cases hdone with
  | nothing reply =>
      apply hm.still h halone halone' hb hb' hserver
      · rw [hat, hto]
        exact List.append_nil cs
      · rw [hat, hto]
        rfl
  | @wrote c key slot reply hc hkey hreplay =>
      have hbusy : ∀ k, touchesKey c k = true → r'.Busy k e.task := by
        intro k hk
        refine ⟨c, ?_, hk⟩
        rw [hto]
        exact List.mem_append_right cs (List.mem_singleton_self c)
      apply hm.confined h halone halone' hb hb'
      · intro k _ hfree
        rw [hserver]
        refine ⟨rfl, CacheStorage.slotAt_setEntry_ne fun hk => hfree (hbusy k ?_)⟩
        rw [touchesKey, hc.keys, hk]
        exact List.contains_iff_mem.mpr (List.mem_singleton_self key)
      · intro k hothers
        -- the writes before this call come to the storage it runs on, at the key and wherever nobody else is
        have hbefore : ∀ k, (∀ j, j ≠ e.task → ¬ r.Busy k j) →
            (effects env cs t).slotAt k = r.server.storage.slotAt k := by
          intro k hk
          have heq := hm.task k e.task hk
          rw [hat] at heq
          exact heq
        have hagree : ∀ k', touchesKey c k' = true → (effects env cs t).slotAt k' = r.server.storage.slotAt k' := by
          intro k' hk'
          apply hbefore
          intro j hj hbj
          exact hj (halone' k' j e.task ((busy_other h hj).mpr hbj) (hbusy k' hk'))
        have hslot : (applyWriteCommand env c (effects env cs t)).2.slotAt k =
            (applyWriteCommand env c r.server.storage).2.slotAt k :=
          apply_slot (hc.steady t).write hagree (hbefore k hothers)
        rw [hreplay env] at hslot
        rw [hto, hserver]
        show (effects env (cs ++ [c]) t).slotAt k = _
        rw [effects, List.foldl_append]
        exact hslot

/-- **One step of a spaced run**, and of a replay of what takes the stage. -/
theorem shadows_step (hm : Shadows stage env t x.runtime) (h : x.runtime.step cfg e = some r')
    (halone : x.runtime.Alone) (halone' : r'.Alone) (hb : x.runtime.Bridged) (hplain : x.runtime.server.storage.Plain)
    (ht : t.Plain) (hset : Repeatable x e) (envs : Nat → Env) (m : Nat) :
    ∃ t', applyAll envs m ((x.runtime.tasks e.task).point.takes stage) t = (some (), t') ∧ t'.Plain ∧
      Shadows stage env t' r' := by
  have hb' := bridged_step h hb
  obtain ⟨p, hp, hstride⟩ := Runtime.step_stride h
  have hto : (r'.tasks e.task).point = p.2.point := by rw [hp, Runtime.put_tasks]
  have hstorage : r'.server.storage = p.1.storage := by rw [hp, Runtime.put_server]
  have hone : ∀ c, (applyWriteCommand (envs m) c t).1 = some () →
      applyAll envs m [c] t = (some (), (applyWriteCommand (envs m) c t).2) := by
    intro c hc
    rw [applyAll]
    generalize applyWriteCommand (envs m) c t = done at hc
    obtain ⟨done, t'⟩ := done
    cases hc
    rfl
  -- the replay moves when a write takes the stage; at any other step both storages stay related as they are
  cases hstride with
  | quiet hat hto' hserver =>
      rw [hat]
      refine ⟨t, rfl, ht, hm.still h halone halone' hb hb' (hstorage.trans hserver.storage) ?_ ?_⟩
      · rw [hto, hto', hat]
      · rw [hto, hto', hat]
  | loads hat hto' hserver =>
      rw [hat]
      refine ⟨t, rfl, ht, hm.still h halone halone' hb hb' (hstorage.trans hserver.storage) ?_ ?_⟩
      · rw [hto, hto', hat]
        rfl
      · rw [hto, hto', hat]
        rfl
  | arrives w hat hto' hserver =>
      rw [hat]
      refine ⟨t, rfl, ht, hm.still h halone halone' hb hb' (hstorage.trans (by rw [hserver])) ?_ ?_⟩
      · rw [hto, hto', hat]
        rfl
      · rw [hto, hto', hat]
        rfl
  | ends writes hat hto' hserver =>
      rw [hat]
      refine ⟨t, rfl, ht, hm.still h halone halone' hb hb' (hstorage.trans (by rw [hserver])) ?_ ?_⟩
      · rw [hto, hto', hat]
        cases writes with
        | nil => rfl
        | cons c cs => rfl
      · rw [hto, hto', hat]
        cases writes with
        | nil => rfl
        | cons c cs => rfl
  | applies w hat hto' hserver =>
      rw [Repeatable, hat] at hset
      rw [hat]
      refine ⟨t, rfl, ht, hm.applies h halone halone' hb hb' hplain hat (hto.trans hto') ?_ hset⟩
      rw [hstorage, hserver]
  | calls hat hto' hserver =>
      rw [hat]
      refine ⟨t, rfl, ht, hm.calls h halone halone' hb hb' hat (hto.trans hto') ?_
        (callDone_redisCallBridge e.readings.env _ _ _)⟩
      rw [hstorage, hserver]
  | passes at' w hat hto' hserver =>
      have hsame : r'.server.storage = x.runtime.server.storage := by
        rw [hstorage, hserver, (pass_frame _ _ w at').1]
      by_cases hstage : at' = stage
      · subst hstage
        rw [Repeatable, hat] at hset
        obtain ⟨hreturns, hplain', hm'⟩ := hm.takes h halone halone' hb hb' hplain ht hat (hto.trans hto') hsame hset.1
          hset.2 (envs m)
        rw [hat, Point.takes, if_pos rfl]
        exact ⟨_, hone w.1 hreturns, hplain', hm'⟩
      · rw [hat, Point.takes, if_neg hstage]
        refine ⟨t, rfl, ht, hm.still h halone halone' hb hb' hsame ?_ ?_⟩
        · rw [hto, hto', hat]
          cases at' <;> rfl
        · rw [hto, hto', hat]
          cases at' <;> cases stage <;> first | rfl | exact absurd rfl hstage
  | records at' w ws hat hto' hserver =>
      have hsame : r'.server.storage = x.runtime.server.storage := by
        rw [hstorage, hserver, (pass_frame _ _ w at').1]
      by_cases hstage : at' = stage
      · subst hstage
        obtain ⟨hreturns, hplain', hm'⟩ := hm.records h halone halone' hb hb' ht hat (hto.trans hto') hsame (envs m)
        rw [hat, Point.takes, if_pos rfl]
        exact ⟨_, hone w hreturns, hplain', hm'⟩
      · rw [hat, Point.takes, if_neg hstage]
        refine ⟨t, rfl, ht, hm.still h halone halone' hb hb' hsame ?_ ?_⟩
        · rw [hto, hto', hat]
          cases at' <;> cases stage <;> first | rfl | exact absurd rfl hstage | (cases ws <;> rfl)
        · rw [hto, hto', hat]
          cases at' <;> first | rfl | (cases ws <;> rfl)

end Step

/-! ## What the log and the streams hold -/

omit [KeyHash] [Lua] [Codec] in
/-- A step takes a stage with one write, or with none. -/
theorem takes_cases (point : Point) (stage : LogStage) : point.takes stage = [] ∨ ∃ c, point.takes stage = [c] := by
  cases point with
  | logging at' w =>
      rw [Point.takes]
      split
      · exact Or.inr ⟨w.1, rfl⟩
      · exact Or.inl rfl
  | recording at' w ws =>
      rw [Point.takes]
      split
      · exact Or.inr ⟨w, rfl⟩
      · exact Or.inl rfl
  | _ => exact Or.inl rfl

/-- The log and the replicas get what takes their stage, and nothing else. -/
theorem stride_server {rd : Readings} {srv srv' : Server} {t t' : ConnTask} (h : Stride rd srv t srv' t') :
    srv'.wal = (t.point.takes .append).foldl (fun log c => log.map fun p => p.1.appendCommand p.2 rd.env.unixMs c)
        srv.wal ∧
      srv'.replicator = (t.point.takes .send).foldl (fun m c => m.map fun m => m.replicateWrite c) srv.replicator := by
  cases h with
  | quiet hat _ hserver =>
      rw [hat]
      exact ⟨hserver.wal, hserver.replicator⟩
  | loads hat _ hserver =>
      rw [hat]
      exact ⟨hserver.wal, hserver.replicator⟩
  | arrives w hat _ hserver =>
      rw [hat, hserver]
      exact ⟨rfl, rfl⟩
  | applies w hat _ hserver =>
      rw [hat, hserver]
      exact ⟨rfl, rfl⟩
  | calls hat _ hserver =>
      rw [hat, hserver]
      exact ⟨rfl, rfl⟩
  | ends writes hat _ hserver =>
      rw [hat, hserver]
      exact ⟨rfl, rfl⟩
  | passes at' w hat _ hserver =>
      rw [hat, hserver]
      cases at' <;> exact ⟨rfl, rfl⟩
  | records at' w ws hat _ hserver =>
      rw [hat, hserver]
      cases at' <;> exact ⟨rfl, rfl⟩

/-- The write appended can be read back, and a rotation that it brings about drops no segment. -/
def Shelved (x : Ledger n) (e : TaskEvent n) : Prop :=
  ∀ c ∈ (x.runtime.tasks e.task).point.takes .append, Encodes c ∧
    ∀ p ∈ x.runtime.server.wal, (p.1.logCommand p.2 e.readings.env.unixMs c).1.shouldRotate = true →
      p.2.segment (segmentsToKeep p.1.backupCount) = none

/-- The log holds what was appended. -/
def Ledger.Shelf (config : PersistenceConfig) (x : Ledger n) : Prop :=
  ∃ j : Journal, x.runtime.server.wal = some (j.wal, j.disk) ∧ j.appended = (x.taken .append).map Prod.snd ∧
    j.wal.backupCount = config.walBackupCount ∧ j.rotatedAt.length ≤ segmentsToKeep config.walBackupCount ∧
    ∃ chunks act, j.Recorded chunks act

section Kept

variable {x x' : Ledger n} {config : PersistenceConfig}

theorem shelf_step (hs : x.Shelf config) (hcond : Shelved x e) (h : x.step cfg e = some x') : x'.Shelf config := by
  obtain ⟨j, hwal, happended, hcount, hroom, chunks, act, hrec⟩ := hs
  obtain ⟨hstep, htaken, -⟩ := Ledger.step_cases h
  obtain ⟨p, hp, hstride⟩ := Runtime.step_stride hstep
  have hlog := (stride_server hstride).1
  have hserver : x'.runtime.server = p.1 := by rw [hp, Runtime.put_server]
  rw [← hserver] at hlog
  rcases takes_cases (x.runtime.tasks e.task).point .append with hnone | ⟨c, hc⟩
  · -- nothing is appended
    rw [hnone] at hlog
    refine ⟨j, hlog.trans hwal, ?_, hcount, hroom, chunks, act, hrec⟩
    rw [htaken, hnone]
    exact happended.trans (by rw [List.map_nil, List.append_nil])
  · obtain ⟨hencodes, hfree⟩ := hcond c (by rw [hc]; exact List.mem_singleton_self c)
    obtain ⟨chunks', act', hrec'⟩ := hrec.append e.readings.env.unixMs c hencodes
    refine ⟨j.append e.readings.env.unixMs c, ?_, ?_, ?_, ?_, chunks', act', hrec'⟩
    · rw [hlog, hc, hwal]
      rfl
    · rw [htaken, hc, List.map_append, ← happended]
      rfl
    · exact (WriteAheadLog.appendCommand_backupCount e.readings.env.unixMs c j.wal j.disk).trans hcount
    · show (if _ then _ else _ : List Nat).length ≤ _
      split
      · rename_i hrotates
        -- the last segment is free, so there are fewer chunks than segments
        have hlast := hfree (j.wal, j.disk) (by rw [hwal]; rfl) hrotates
        have hkeep : 1 ≤ segmentsToKeep j.wal.backupCount := Nat.le_max_right _ _
        have hchunk := hrec.filed.segment (segmentsToKeep j.wal.backupCount - 1) (Nat.sub_lt hkeep Nat.one_pos)
        rw [Nat.sub_add_cancel hkeep, hlast] at hchunk
        have hfew := List.getElem?_eq_none_iff.mp hchunk.symm
        rw [List.length_map, hcount] at hfew
        rw [List.length_append, hrec.rotations, List.length_singleton]
        rw [hcount] at hkeep
        omega
      · exact hroom

omit [Lua] in
/-- **What a replay of the log reads**, once it is flushed. -/
theorem shelf_replay (hs : x.Shelf config) :
    ∃ wal disk entries, x.runtime.server.wal = some (wal, disk) ∧
      (wal.sync disk).1.replay (wal.sync disk).2 = (entries, .ok entries.length) ∧
      entries.map WALEntry.command = (x.taken .append).map Prod.snd := by
  obtain ⟨j, hwal, happended, hcount, hroom, chunks, act, hrec⟩ := hs
  obtain ⟨entries, hreplay, hentries⟩ := (hrec.sync hcount).replay_eq
  refine ⟨j.wal, j.disk, entries, hwal, hreplay, ?_⟩
  rw [hentries, ← happended]
  show j.appended.drop (j.mark (j.rotatedAt.length - segmentsToKeep config.walBackupCount)) = _
  rw [Nat.sub_eq_zero_of_le hroom]
  rfl

omit [Lua] in
theorem shelf_start {srv : Server} (hwal : srv.wal = some ((Journal.start config).wal, (Journal.start config).disk)) :
    (Ledger.start n srv).Shelf config :=
  ⟨Journal.start config, hwal, rfl, rfl, Nat.zero_le _, (Journal.sound_start config).recorded⟩

/-- Every replica's stream has grown by what was sent. -/
def Ledger.Streams (master : Option MasterReplicator) (x : Ledger n) : Prop :=
  x.runtime.server.replicator.map MasterReplicator.replicas
    = master.map fun m => m.replicas.map fun rep => { rep with sent := rep.sent ++ (x.taken .send).map Prod.snd }

theorem streams_step {master : Option MasterReplicator} (hs : x.Streams master) (h : x.step cfg e = some x') :
    x'.Streams master := by
  obtain ⟨hstep, htaken, -⟩ := Ledger.step_cases h
  obtain ⟨p, hp, hstride⟩ := Runtime.step_stride hstep
  have hsent := (stride_server hstride).2
  have hserver : x'.runtime.server = p.1 := by rw [hp, Runtime.put_server]
  rw [← hserver] at hsent
  unfold Ledger.Streams at hs ⊢
  rw [htaken, hsent]
  rcases takes_cases (x.runtime.tasks e.task).point .send with hnone | ⟨c, hc⟩
  · rw [hnone, List.map_nil, List.append_nil]
    exact hs
  · rw [hc]
    simp only [List.foldl_cons, List.foldl_nil, List.map_cons, List.map_nil, List.map_append]
    cases hm : x.runtime.server.replicator with
    | none =>
        rw [hm] at hs
        cases master with
        | none => rfl
        | some m => cases hs
    | some m =>
        rw [hm] at hs
        cases master with
        | none => cases hs
        | some m₀ =>
            have hreplicas : m.replicas = _ := Option.some.inj hs
            simp only [Option.map_some, MasterReplicator.replicateWrite, hreplicas, List.map_map, List.append_assoc,
              Function.comp_def]

end Kept

/-! ## Runs -/

section Runs

variable {x : Ledger n} {srv : Server} {es : List (TaskEvent n)}

/-- What a replay of the writes that took the stage has come to, and why. -/
structure Ledger.Replays (stage : LogStage) (envs : Nat → Env) (s : CacheStorage) (x : Ledger n) : Prop where
  plain : x.runtime.server.storage.Plain
  alone : x.runtime.Alone
  bridged : x.runtime.Bridged
  replayed : ∃ t, applyAll envs 0 ((x.taken stage).map Prod.snd) s = (some (), t) ∧ t.Plain ∧
    Shadows stage (envs 0) t x.runtime

theorem replays_run (envs : Nat → Env) (stage : LogStage) (hplain : srv.storage.Plain)
    (hspaced : Along (Ledger.step cfg) (Spaced cfg) (Ledger.start n srv) es)
    (hsettled : Along (Ledger.step cfg) Repeatable (Ledger.start n srv) es)
    (hrun : run (Ledger.step cfg) (Ledger.start n srv) es = some x) : x.Replays stage envs srv.storage := by
  refine run_invariant (P := fun x e => Spaced cfg x e ∧ Repeatable x e) (I := Ledger.Replays stage envs srv.storage) ?_
    es _ _ (along_and hspaced hsettled) hrun
    ⟨hplain, ?_, ?_, srv.storage, rfl, hplain, fun _ _ _ => rfl, fun _ _ => rfl⟩
  · rintro x e x' ⟨hp, halone, hb, t, ht, htp, hm⟩ ⟨hspace, hset⟩ h
    obtain ⟨hstep, htaken, -⟩ := Ledger.step_cases h
    have halone' := alone_step hstep hspace halone
    obtain ⟨t', ht', htp', hm'⟩ := shadows_step hm hstep halone halone' hb hp htp hset envs (x.taken stage).length
    refine ⟨plain_step hstep hset hp, halone', bridged_step hstep hb, t', ?_, htp', hm'⟩
    rw [htaken, List.map_append, applyAll_append ht, List.map_map, Nat.zero_add, List.length_map]
    rw [show (Prod.snd ∘ fun c : Command => (e.task, c)) = id from rfl, List.map_id]
    exact ht'
  · rintro k i j ⟨c, hc, -⟩
    cases hc
  · intro i c hc
    cases hc

omit [Lua] [Codec] in
/-- With nothing under way a replay has what the storage has. -/
theorem Ledger.Replays.settled {stage : LogStage} {envs : Nat → Env} {s : CacheStorage} (h : x.Replays stage envs s)
    (hidle : ∀ i, (x.runtime.tasks i).point.underway = []) :
    applyAll envs 0 ((x.taken stage).map Prod.snd) s = (some (), x.runtime.server.storage) := by
  obtain ⟨t, ht, -, hm⟩ := h.replayed
  rw [ht]
  refine congrArg (Prod.mk _) (CacheStorage.ext_entry fun k => hm.rest k ?_)
  rintro j ⟨c, hc, -⟩
  rw [hidle j] at hc
  cases hc

end Runs

end Shadows

/-- **The log and the streams have the order of the storage**, key by key, in every run in which no write begins on a
    key that a write of another task is under way on. The log and the streams then end with the server's storage. -/
theorem log_order_is_apply_order [Lua] [Codec] {n : Nat} (cfg : ServerConfig) (config : PersistenceConfig)
    (srv : Server) (es : List (TaskEvent n)) (x : Ledger n)
    (hspaced : Along (Ledger.step cfg) (Spaced cfg) (Ledger.start n srv) es)
    (hrun : run (Ledger.step cfg) (Ledger.start n srv) es = some x) :
    x.SameOrder ∧ x.Streams srv.replicator ∧
      (srv.wal = some ((Journal.start config).wal, (Journal.start config).disk) →
        Along (Ledger.step cfg) Shelved (Ledger.start n srv) es →
        ∃ wal disk entries, x.runtime.server.wal = some (wal, disk) ∧
          (wal.sync disk).1.replay (wal.sync disk).2 = (entries, .ok entries.length) ∧
          entries.map WALEntry.command = (x.taken .append).map Prod.snd) ∧
      (srv.storage.Plain → Along (Ledger.step cfg) Repeatable (Ledger.start n srv) es →
        (∀ i, (x.runtime.tasks i).point.underway = []) →
        ∀ envs stage, applyAll envs 0 ((x.taken stage).map Prod.snd) srv.storage
          = (some (), x.runtime.server.storage)) := by
  refine ⟨?_, ?_, ?_, ?_⟩
  · obtain ⟨halone, ho⟩ := ordered_run hspaced hrun
    exact sameOrder_of_ordered halone ho
  · refine run_invariant (I := Ledger.Streams srv.replicator) ?_ es _ _ hspaced hrun ?_
    · intro x e x' hs _ h
      exact streams_step hs h
    · show srv.replicator.map MasterReplicator.replicas
        = srv.replicator.map fun m => m.replicas.map fun rep => { rep with sent := rep.sent ++ [] }
      simp only [List.append_nil, List.map_id']
  · intro hwal hshelved
    refine shelf_replay (run_invariant (I := Ledger.Shelf config) ?_ es _ _ hshelved hrun (shelf_start hwal))
    intro x e x' hs hcond h
    exact shelf_step hs hcond h
  · intro hplain hsettled hidle envs stage
    exact (replays_run envs stage hplain hspaced hsettled hrun).settled hidle

section Incrs

variable {n : Nat}

omit [KeyHash] in
/-- An operation that gives a result or an error gives a reply. -/
theorem orError_returns {α : Type} (f : α → Response) (r : Res α) : some (Reply.orError f r) ≠ some none := by
  cases r with
  | ok a => exact fun h => by cases h
  | error err => exact fun h => by cases h

theorem returns_of_recordable (env : Env) {c : Command} {key : Bytes} (h : recordable c = some key) (s : CacheStorage) :
    Returns env c s := by
  cases c with
  | set k value ttl =>
      cases ttl with
      | none => exact fun hpanic => by cases hpanic
      | some n => cases h
  | delete k => exact fun hpanic => by cases hpanic
  | incr k => exact orError_returns _ _
  | decr k => exact orError_returns _ _
  | hset k field value => exact orError_returns _ _
  | lpush k values => exact orError_returns _ _
  | rpush k values => exact orError_returns _ _
  | sadd k members => exact orError_returns _ _
  | _ => cases h

/-- A write of the bridge is one that a replay carries out, and it does not panic. -/
theorem settled_of_recordable {x : Ledger n} {e : TaskEvent n}
    (h : ∀ c ∈ (x.runtime.tasks e.task).point.underway, (recordable c).isSome = true) : Repeatable x e := by
  unfold Repeatable
  split
  · rename_i w hat
    rw [hat] at h
    obtain ⟨key, hkey⟩ := Option.isSome_iff_exists.mp (h w.1 (List.mem_singleton_self w.1))
    exact ⟨(bridgedWrite hkey).steady _, returns_of_recordable e.readings.env hkey _⟩
  · rename_i w hat
    rw [hat] at h
    obtain ⟨key, hkey⟩ := Option.isSome_iff_exists.mp (h w.1 (List.mem_singleton_self w.1))
    exact (bridgedWrite hkey).steady _
  · trivial

omit [KeyHash] in
/-- An `INCR` that the codec of the concrete runs carries. -/
def shortIncr : Command → Bool
  | .incr key => key.length < 2 ^ 31
  | _ => false

omit [KeyHash] in
theorem encodes_of_shortIncr {c : Command} (h : shortIncr c = true) : @Encodes incrCodec c := by
  cases c with
  | incr key => exact encodes_incr key (of_decide_eq_true h)
  | _ => cases h

end Incrs

omit [KeyHash] in
/-- An `INCR` of one client beside a script of another, each on its key. -/
theorem log_order_is_apply_order_incr :
    let _ := shortKeys
    let _ := incrScripts
    let _ := incrCodec
    let journal := Journal.start ⟨.everySecond, 1000, 1⟩
    let srv : Server :=
      { Server.fresh with
        wal := some (journal.wal, journal.disk)
        replicator := some ⟨0, [⟨utf8 "r", []⟩]⟩ }
    let go : Fin 2 → TaskEvent 2 := fun i => .go i (.plain 1)
    let es := [.receive 0 (.incr (utf8 "a")) (.plain 1),
      .receive 1 (.luaEval (utf8 "return redis.call('INCR', KEYS[1])") [utf8 "b"] []) (.plain 1),
      go 0, go 1, go 1, go 1, go 0, go 0, go 1, go 1, go 0]
    ∃ x, run (Ledger.step ⟨none, none, none⟩) (Ledger.start 2 srv) es = some x ∧ x.SameOrder ∧
      x.Streams srv.replicator ∧ (x.taken .append).map Prod.fst = [0, 1] ∧ x.applied.map Prod.fst = [1, 0] ∧
      (∃ wal disk entries, x.runtime.server.wal = some (wal, disk) ∧
        (wal.sync disk).1.replay (wal.sync disk).2 = (entries, .ok entries.length) ∧
        entries.map WALEntry.command = (x.taken .append).map Prod.snd) ∧
      ∀ envs stage, applyAll envs 0 ((x.taken stage).map Prod.snd) srv.storage
        = (some (), x.runtime.server.storage) := by
  intro _ _ _ journal srv go es
  have hrun : (run (Ledger.step ⟨none, none, none⟩) (Ledger.start 2 srv) es).map
      (fun x => ((x.taken .append).map Prod.fst, x.applied.map Prod.fst,
        decide (∀ i, (x.runtime.tasks i).point.underway.length = 0))) = some ([0, 1], [1, 0], true) := by decide
  obtain ⟨x, hx, hshown⟩ := Option.map_eq_some_iff.mp hrun
  simp only [Prod.mk.injEq, decide_eq_true_eq, List.length_eq_zero_iff] at hshown
  obtain ⟨hlog, happlied, hidle⟩ := hshown
  have hspaced : Along (Ledger.step ⟨none, none, none⟩) (Spaced ⟨none, none, none⟩) (Ledger.start 2 srv) es := by
    decide +revert
  have hshort : Along (Ledger.step ⟨none, none, none⟩) (fun (x : Ledger 2) e =>
      (∀ c ∈ (x.runtime.tasks e.task).point.underway, (recordable c).isSome = true) ∧
        ∀ c ∈ (x.runtime.tasks e.task).point.takes .append, shortIncr c = true ∧
          ∀ p ∈ x.runtime.server.wal, (p.1.logCommand p.2 e.readings.env.unixMs c).1.shouldRotate = true →
            p.2.segment (segmentsToKeep p.1.backupCount) = none) (Ledger.start 2 srv) es := by
    decide +revert
  obtain ⟨hsame, hstreams, hwal, hstorage⟩ :=
    log_order_is_apply_order ⟨none, none, none⟩ ⟨.everySecond, 1000, 1⟩ srv es x hspaced hx
  refine ⟨x, hx, hsame, hstreams, hlog, happlied, hwal rfl (along_mono ?_ hshort), ?_⟩
  · intro x e hse c hc
    exact ⟨encodes_of_shortIncr (hse.2 c hc).1, (hse.2 c hc).2⟩
  · refine hstorage plain_new (along_mono ?_ hshort) hidle
    intro x e hse
    exact settled_of_recordable hse.1

/-! ## Two orders -/

/-- One order of all the writes on a key is one order of the first of them. -/
theorem Ledger.SameOrder.eq {n : Nat} {x : Ledger n} (h : x.SameOrder) (k : Bytes)
    (hlen : (writesOn k (x.taken .append)).length = (writesOn k x.applied).length) :
    writesOn k (x.taken .append) = writesOn k x.applied := by
  obtain ⟨order, horder⟩ := h k
  have hlog := horder (x.taken .append) (by simp)
  have happlied := horder x.applied (by simp)
  exact (List.prefix_of_prefix_length_le hlog happlied hlen.le).eq_of_length hlen

/-- A run that ends with nothing under way, the storage with one value of the key, and every replica with another. -/
def Diverges [Lua] [Codec] {n : Nat} (cfg : ServerConfig) (srv : Server) (k : Bytes) (es : List (TaskEvent n)) : Prop :=
  ∃ x master, run (Ledger.step cfg) (Ledger.start n srv) es = some x ∧ (∀ i, (x.runtime.tasks i).point.underway = []) ∧
    ¬ x.SameOrder ∧ x.runtime.server.replicator = some master ∧ master.replicas ≠ [] ∧
    ∀ rep ∈ master.replicas,
      (applyAll (fun _ => Env.reading 1) 0 rep.sent srv.storage).2.slotAt k ≠ x.runtime.server.storage.slotAt k

/-- What a run shows of itself: whether nothing is under way, whose writes on the key are in the log and in the
    storage, and whether a replica differs. -/
def shown [Lua] [Codec] {n : Nat} (cfg : ServerConfig) (srv : Server) (k : Bytes) (es : List (TaskEvent n)) :
    Option (Bool × List (Fin n) × List (Fin n) × Option (List Bool)) :=
  (run (Ledger.step cfg) (Ledger.start n srv) es).map fun x =>
    (decide (∀ i, ((x.runtime.tasks i).point.underway).length = 0), (writesOn k (x.taken .append)).map Prod.fst,
      (writesOn k x.applied).map Prod.fst, x.runtime.server.replicator.map fun m => m.replicas.map fun rep =>
        decide ((applyAll (fun _ => Env.reading 1) 0 rep.sent srv.storage).2.slotAt k
          = x.runtime.server.storage.slotAt k))

theorem diverges_of_shown [Lua] [Codec] {n : Nat} {cfg : ServerConfig} {srv : Server} {k : Bytes}
    {es : List (TaskEvent n)} {log applied : List (Fin n)}
    (h : shown cfg srv k es = some (true, log, applied, some [false])) (hlen : log.length = applied.length)
    (hdiffer : log ≠ applied) : Diverges cfg srv k es := by
  obtain ⟨x, hrun, hshown⟩ := Option.map_eq_some_iff.mp h
  simp only [Prod.mk.injEq, decide_eq_true_eq, List.length_eq_zero_iff] at hshown
  obtain ⟨hidle, rfl, rfl, hsent⟩ := hshown
  obtain ⟨master, hmaster, hreplicas⟩ := Option.map_eq_some_iff.mp hsent
  refine ⟨x, master, hrun, hidle, ?_, hmaster, ?_, ?_⟩
  · intro hsame
    rw [List.length_map, List.length_map] at hlen
    exact hdiffer (by rw [hsame.eq k hlen])
  · intro hnone
    rw [hnone] at hreplicas
    cases hreplicas
  · intro rep hrep
    have hmem := List.mem_map_of_mem (f := fun rep : Replica => decide
      ((applyAll (fun _ => Env.reading 1) 0 rep.sent srv.storage).2.slotAt k = x.runtime.server.storage.slotAt k)) hrep
    rw [hreplicas] at hmem
    exact of_decide_eq_false (List.mem_singleton.mp hmem)

omit [KeyHash] in
/-- Two `SET`s that are logged and sent in one order and applied in the other, and a `SET` between the `INCR` of a
    script and its recording. -/
theorem log_order_differs :
    let _ := shortKeys
    let _ := incrScripts
    let _ := incrCodec
    let k := utf8 "k"
    let journal := Journal.start ⟨.everySecond, 1000, 1⟩
    let srv : Server :=
      { Server.fresh with
        wal := some (journal.wal, journal.disk)
        replicator := some ⟨0, [⟨utf8 "r", []⟩]⟩ }
    let go : Fin 2 → TaskEvent 2 := fun i => .go i (.plain 1)
    Diverges ⟨none, none, none⟩ srv k
        [.receive 0 (.set k (utf8 "a") none) (.plain 1), .receive 1 (.set k (utf8 "b") none) (.plain 1),
          go 0, go 0, go 0, go 1, go 1, go 1, go 1, go 0] ∧
      Diverges ⟨none, none, none⟩ srv k
        [.receive 0 (.luaEval (utf8 "return redis.call('INCR', KEYS[1])") [k] []) (.plain 1), go 0,
          .receive 1 (.set k (utf8 "5") none) (.plain 1), go 1, go 1, go 1, go 1, go 0, go 0, go 0, go 0] := by
  intro _ _ _ k journal srv go
  constructor
  · have hshown : shown ⟨none, none, none⟩ srv k
        [.receive 0 (.set k (utf8 "a") none) (.plain 1), .receive 1 (.set k (utf8 "b") none) (.plain 1),
          go 0, go 0, go 0, go 1, go 1, go 1, go 1, go 0] = some (true, [0, 1], [1, 0], some [false]) := by decide
    exact diverges_of_shown hshown rfl (by decide)
  · have hshown : shown ⟨none, none, none⟩ srv k
        [.receive 0 (.luaEval (utf8 "return redis.call('INCR', KEYS[1])") [k] []) (.plain 1), go 0,
          .receive 1 (.set k (utf8 "5") none) (.plain 1), go 1, go 1, go 1, go 1, go 0, go 0, go 0, go 0] =
        some (true, [1, 0], [0, 1], some [false]) := by decide
    exact diverges_of_shown hshown rfl (by decide)

end FerricCache
