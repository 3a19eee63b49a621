import FerricCache.Persistence.ScriptWrites
import FerricCache.Server.Dated
import FerricCache.Server.Steps

/-!
# `FerricCache.Server.Watched` — what `EXEC` can know of a watched key

A version that is still the watched one says that no write on the shard was **counted** since `WATCH`. A write is
counted before it is applied, and those of a script after. So a key can change under an unchanged version in two ways:
`WATCH` found a write counted and not applied (`Point.due`), or `EXEC` finds a write that a script applied and did not
count (`Point.owes`). Where neither is so (`Guarded`), an `EXEC` that passes its test finds the key as `WATCH` left
it, and so did every read in between (`watch_detects`).
-/

namespace FerricCache

open Lib.Run

/-! ## Counted and applied -/

/-- A write on the key was counted and is not applied. -/
def Point.due (k : Bytes) : Point → Bool
  | .applying w => touchesKey w k
  | _ => false

/-- A script has applied a write on the key that is not counted. -/
def Point.owes (k : Bytes) : Point → Bool
  | .scripting _ _ writes => writes.any fun w => isWriteCommand w && touchesKey w k
  | .recording _ w ws => (w :: ws).any fun w => isWriteCommand w && touchesKey w k
  | _ => false

/-- The write that the next step counts. -/
def Point.counts : Point → Option Command
  | .logging .count w => some w
  | .recording .count w _ => some w
  | _ => none

/-- The connection drops its watches. -/
def TaskEvent.dropsWatches {n : Nat} (i : Fin n) : TaskEvent n → Bool
  | .receive j .unwatch _ | .receive j .discard _ | .receive j .exec _ => j == i
  | _ => false

section Watched

variable [KeyHash] {n : Nat}

/-- No write on the key is due when it is watched, and none is owed when `EXEC` runs its test. -/
def Ready (k : Bytes) (r : Runtime n) : Option TxControl → Prop
  | some (.watch keys) => k ∈ keys → ∀ l, (r.tasks l).point.due k = false
  | some .exec => ∀ l, (r.tasks l).point.owes k = false
  | _ => True

/-- The connection watches the key and runs `EXEC` when it is ready for it, and no count takes the version of the key's
    shard back to the one that the connection watches. -/
def Guarded (i : Fin n) (k : Bytes) (r : Runtime n) : TaskEvent n → Prop
  | .receive j c _ => j = i → Ready k r (txControl c)
  | .go j _ => ∀ w ∈ (r.tasks j).point.counts, shardIndex k ∈ bumpedShards w →
      (r.tasks i).conn.tx.watched (shardIndex k) ≠ some (bumpVersionsFor w r.server.versions (shardIndex k))

instance decidableReady (k : Bytes) (r : Runtime n) : ∀ x, Decidable (Ready k r x)
  | some (.watch keys) => inferInstanceAs (Decidable (k ∈ keys → ∀ l, (r.tasks l).point.due k = false))
  | some .exec => inferInstanceAs (Decidable (∀ l, (r.tasks l).point.owes k = false))
  | none | some .multi | some .discard | some .unwatch => isTrue trivial

instance decidableGuarded (i : Fin n) (k : Bytes) (r : Runtime n) : ∀ e, Decidable (Guarded i k r e)
  | .receive j c _ => inferInstanceAs (Decidable (j = i → Ready k r (txControl c)))
  | .go j _ => inferInstanceAs (Decidable (∀ w ∈ (r.tasks j).point.counts, shardIndex k ∈ bumpedShards w → _ ≠ _))

/-- What the connection relies on: from `WATCH` at `r₁` (at the time `now₁`) to the test of `EXEC` at `r₂`. -/
structure Detects [Lua] [Codec] (cfg : ServerConfig) (k : Bytes) (now₁ now₂ : Instant) (r₁ r₂ : Runtime n)
    (mid : List (TaskEvent n)) : Prop where
  /-- The key has the value it had. -/
  value : r₂.server.storage.live now₂ k = r₁.server.storage.live now₁ k
  /-- Whoever read it in between read that value. -/
  reads : ∀ as bs u now, mid = as ++ bs → run (Runtime.step cfg) r₁ as = some u → now₁ ≤ now → now ≤ now₂ →
    u.server.storage.live now k = r₂.server.storage.live now₂ k
  /-- And got the reply that the same read gets at the test. -/
  replies : ∀ as bs u env c a, mid = as ++ bs → run (Runtime.step cfg) r₁ as = some u → arm env c = some a →
    footprint c = some [k] → (a.run u.server.storage).1 = (a.run r₂.server.storage).1

/-! ## One step -/

/-- The change shows in the version, or is owed to it. -/
def Shown (k : Bytes) (version : UInt64) (r : Runtime n) : Prop :=
  r.server.versions (shardIndex k) ≠ version ∨ ∃ l, (r.tasks l).point.owes k = true

/-- The key holds the entry, and nothing is about to change it without counting. -/
def Calm (k : Bytes) (entry : Slot) (r : Runtime n) : Prop :=
  (∀ l, (r.tasks l).point.due k = false) ∧ r.server.storage.slotAt k = entry

theorem effect_frame {c : Command} {k : Bytes} (env : Env) (hc : touchesKey c k = false) (s : CacheStorage) :
    (effect env c s).slotAt k = s.slotAt k := by
  cases ha : arm env c with
  | none =>
      unfold effect FerricCache.dispatch
      rw [ha]
      rfl
  | some a =>
      rw [effect_of_arm ha]
      unfold touchesKey at hc
      cases hkeys : footprint c with
      | none =>
          rw [hkeys] at hc
          cases hc
      | some keys =>
          rw [hkeys] at hc
          refine (arm_local ha).frame s k keys hkeys fun hk => ?_
          cases hc.symm.trans (List.contains_iff_mem.mpr hk)

variable [Lua] [Codec] {cfg : ServerConfig} {r r' : Runtime n} {e : TaskEvent n} {i : Fin n} {k : Bytes}
  {version : UInt64} {entry : Slot}

omit [Lua] [Codec] in
/-- A count on the key's shard leaves another version than the watched one. -/
theorem Guarded.counted {j : Fin n} {rd : Readings} {w : Command} (hg : Guarded i k r (.go j rd))
    (hwatched : (r.tasks i).conn.tx.watched (shardIndex k) = some version)
    (hcounts : (r.tasks j).point.counts = some w) (hw : shardIndex k ∈ bumpedShards w) :
    bumpVersionsFor w r.server.versions (shardIndex k) ≠ version := by
  intro heq
  apply hg w hcounts hw
  rw [hwatched, heq]

/-- What a step can do to the versions: nothing, or count the write of its task. -/
theorem step_versions (h : r.step cfg e = some r') :
    r'.server.versions = r.server.versions ∨
      ∃ j rd w, e = .go j rd ∧ (r.tasks j).point.counts = some w ∧
        r'.server.versions = bumpVersionsFor w r.server.versions := by
  have hcount : ∀ stage w, r'.server = r.server.pass e.readings.env.unixMs w stage →
      (r.tasks e.task).point ≠ .idle → (stage = .count → (r.tasks e.task).point.counts = some w) →
      r'.server.versions = r.server.versions ∨
        ∃ j rd w, e = .go j rd ∧ (r.tasks j).point.counts = some w ∧
          r'.server.versions = bumpVersionsFor w r.server.versions := by
    intro stage w hserver hbusy hat
    obtain ⟨rd, he⟩ := Runtime.go_of_busy h hbusy
    rw [hserver, (pass_frame _ _ w stage).2]
    by_cases hstage : stage = .count
    · rw [if_pos hstage]
      exact Or.inr ⟨e.task, rd, w, he, hat hstage, rfl⟩
    · rw [if_neg hstage]
      exact Or.inl rfl
  obtain ⟨p, rfl, hstride⟩ := Runtime.step_stride h
  rw [Runtime.put_server] at hcount ⊢
  -- only the last stage of a write counts it
  cases hstride with
  | quiet _ _ hserver => exact Or.inl hserver.versions
  | loads _ _ hserver => exact Or.inl hserver.versions
  | arrives w _ _ hserver => exact Or.inl (by rw [hserver])
  | applies w _ _ hserver => exact Or.inl (by rw [hserver])
  | calls _ _ hserver => exact Or.inl (by rw [hserver])
  | ends writes _ _ hserver => exact Or.inl (by rw [hserver])
  | passes stage w hat _ hserver =>
      apply hcount stage w hserver
      · rw [hat]
        intro hno
        cases hno
      · rintro rfl
        rw [hat]
        rfl
  | records stage w ws hat _ hserver =>
      apply hcount stage w hserver
      · rw [hat]
        intro hno
        cases hno
      · rintro rfl
        rw [hat]
        rfl

/-- A version that has moved on never comes back. -/
theorem versions_step (h : r.step cfg e = some r') (hg : Guarded i k r e)
    (hwatched : (r.tasks i).conn.tx.watched (shardIndex k) = some version)
    (hmoved : r.server.versions (shardIndex k) ≠ version) : r'.server.versions (shardIndex k) ≠ version := by
  rcases step_versions h with hsame | ⟨j, rd, w, rfl, hcounts, hversions⟩
  · rw [hsame]
    exact hmoved
  · rw [hversions]
    by_cases hw : shardIndex k ∈ bumpedShards w
    · exact hg.counted hwatched hcounts hw
    · rw [bumpVersionsFor_of_notMem hw]
      exact hmoved

omit [KeyHash] [Lua] [Codec] in
theorem owes_record (ws : List Command) :
    (Point.record ws).owes k = ws.any fun w => isWriteCommand w && touchesKey w k := by
  cases ws with
  | nil => rfl
  | cons w ws => rfl

omit [KeyHash] [Lua] [Codec] in
theorem due_record (ws : List Command) : (Point.record ws).due k = false := by
  cases ws with
  | nil => rfl
  | cons w ws => rfl

omit [Lua] [Codec] in
theorem mem_bumpedShards_of_touches {w : Command} (hw : isWriteCommand w = true) (hk : touchesKey w k = true) :
    shardIndex k ∈ bumpedShards w := mem_bumpedShards hw (touchesKey_iff.mp hk)

/-- What is owed stays owed until it is counted. -/
theorem owes_step (h : r.step cfg e = some r') (hg : Guarded i k r e)
    (hwatched : (r.tasks i).conn.tx.watched (shardIndex k) = some version) {l : Fin n}
    (hl : (r.tasks l).point.owes k = true) : Shown k version r' := by
  obtain ⟨p, rfl, hstride⟩ := Runtime.step_stride h
  by_cases hne : l = e.task
  · subst hne
    -- the task that owes takes the step
    have howes : ∀ (hto : p.2.point.owes k = true), Shown k version (r.put e.task p) := by
      intro hto
      refine Or.inr ⟨e.task, ?_⟩
      rw [Runtime.put_tasks]
      exact hto
    cases hstride with
    | quiet hat _ _ => rw [hat] at hl; cases hl
    | loads hat _ _ => rw [hat] at hl; cases hl
    | arrives w hat _ _ => rw [hat] at hl; cases hl
    | passes stage w hat _ _ => rw [hat] at hl; cases hl
    | applies w hat _ _ => rw [hat] at hl; cases hl
    | calls hat hto _ =>
        apply howes
        rw [hat] at hl
        rw [hto, Point.owes, List.any_append]
        exact Bool.or_eq_true_iff.mpr (Or.inl hl)
    | ends writes hat hto _ =>
        apply howes
        rw [hat] at hl
        rw [hto, owes_record]
        exact hl
    | records stage w ws hat hto hserver =>
        rw [hat] at hl
        cases stage with
        | append =>
            apply howes
            rw [hto]
            exact hl
        | send =>
            apply howes
            rw [hto]
            exact hl
        | count =>
            -- the write that is counted is the one owed, or one that comes after it
            rcases Bool.or_eq_true_iff.mp hl with hw | hws
            · left
              obtain ⟨hw, hk⟩ := Bool.and_eq_true_iff.mp hw
              obtain ⟨rd, he⟩ := Runtime.go_of_busy h (by rw [hat]; exact fun hno => by cases hno)
              rw [Runtime.put_server, hserver]
              rw [he] at hg
              exact hg.counted hwatched (by rw [hat]; rfl) (mem_bumpedShards_of_touches hw hk)
            · apply howes
              rw [hto]
              show (Point.record ws).owes k = true
              rw [owes_record]
              exact hws
  · refine Or.inr ⟨l, ?_⟩
    rw [Runtime.put_tasks_ne hne]
    exact hl

theorem Shown.step (hs : Shown k version r) (h : r.step cfg e = some r') (hg : Guarded i k r e)
    (hwatched : (r.tasks i).conn.tx.watched (shardIndex k) = some version) : Shown k version r' := by
  rcases hs with hmoved | ⟨l, hl⟩
  · exact Or.inl (versions_step h hg hwatched hmoved)
  · exact owes_step h hg hwatched hl

/-- **A step keeps the key calm, or its change will show.** -/
theorem Calm.step (hc : Calm k entry r) (h : r.step cfg e = some r') (hg : Guarded i k r e)
    (hwatched : (r.tasks i).conn.tx.watched (shardIndex k) = some version) :
    Calm k entry r' ∨ Shown k version r' := by
  obtain ⟨hdue, hentry⟩ := hc
  obtain ⟨p, rfl, hstride⟩ := Runtime.step_stride h
  have hcalm : p.2.point.due k = false → p.1.storage.slotAt k = entry → Calm k entry (r.put e.task p) := by
    intro hpoint hslot
    refine ⟨fun l => ?_, hslot⟩
    by_cases hne : l = e.task
    · rw [hne, Runtime.put_tasks]
      exact hpoint
    · rw [Runtime.put_tasks_ne hne]
      exact hdue l
  cases hstride with
  | quiet _ hto hserver => exact Or.inl (hcalm (by rw [hto]; rfl) (by rw [hserver.storage]; exact hentry))
  | loads _ hto hserver => exact Or.inl (hcalm (by rw [hto]; rfl) (by rw [hserver.storage]; exact hentry))
  | arrives w _ hto hserver => exact Or.inl (hcalm (by rw [hto]; rfl) (by rw [hserver]; exact hentry))
  | ends writes _ hto hserver =>
      exact Or.inl (hcalm (by rw [hto]; exact due_record writes) (by rw [hserver]; exact hentry))
  | applies w hat hto hserver =>
      -- what is applied is not on the key, for nothing was due
      have hw : touchesKey w k = false := by
        have hdue := hdue e.task
        rw [hat] at hdue
        exact hdue
      refine Or.inl (hcalm (by rw [hto]; rfl) ?_)
      rw [hserver]
      exact (effect_frame _ hw _).trans hentry
  | @calls acl cmd args next writes hat hto hserver =>
      rcases (callDone_redisCallBridge e.readings.env acl cmd args).records k with hsame | ⟨w, hmem, hw, hk⟩
      · refine Or.inl (hcalm (by rw [hto]; rfl) ?_)
        rw [hserver]
        exact hsame.trans hentry
      · refine Or.inr (Or.inr ⟨e.task, ?_⟩)
        rw [Runtime.put_tasks, hto, Point.owes, List.any_append]
        refine Bool.or_eq_true_iff.mpr (Or.inr (List.any_eq_true.mpr ⟨w, hmem, ?_⟩))
        rw [hw, hk]
        rfl
  | records stage w ws _ hto hserver =>
      refine Or.inl (hcalm ?_ ?_)
      · rw [hto]
        cases stage with
        | count => exact due_record ws
        | _ => rfl
      · rw [hserver, (pass_frame _ _ w stage).1]
        exact hentry
  | passes stage w hat hto hserver =>
      have hslot : p.1.storage.slotAt k = entry := by
        rw [hserver, (pass_frame _ _ w stage).1]
        exact hentry
      cases stage with
      | append => exact Or.inl (hcalm (by rw [hto]; rfl) hslot)
      | send => exact Or.inl (hcalm (by rw [hto]; rfl) hslot)
      | count =>
          cases hk : touchesKey w k with
          | false =>
              refine Or.inl (hcalm ?_ hslot)
              rw [hto]
              exact hk
          | true =>
              -- the write is counted on the key's shard
              obtain ⟨rd, he⟩ := Runtime.go_of_busy h (by rw [hat]; exact fun hno => by cases hno)
              refine Or.inr (Or.inl ?_)
              rw [Runtime.put_server, hserver]
              rw [he] at hg
              exact hg.counted hwatched (by rw [hat]; rfl) (mem_bumpedShards_of_touches w.2 hk)

/-! ## The watches of a connection -/

omit [Lua] [Codec] in
/-- `WATCH` keeps the version first observed. -/
theorem watched_watchLoop (versions : ShardVersions) (keys : List Bytes) (tx : TxState) {s : Fin 64}
    (h : tx.watched s = some version) : (watchLoop versions keys tx).watched s = some version := by
  induction keys generalizing tx with
  | nil => exact h
  | cons key keys ih =>
      rw [watchLoop]
      apply ih
      show Function.update tx.watched (shardIndex key) _ s = some version
      by_cases hs : s = shardIndex key
      · rw [hs] at h ⊢
        rw [Function.update_self, h]
        rfl
      · rw [Function.update_of_ne hs]
        exact h

omit [Lua] [Codec] in
/-- Every key of a `WATCH` has a version in the end. -/
theorem watched_of_mem (versions : ShardVersions) {keys : List Bytes} (hk : k ∈ keys) (tx : TxState) :
    ∃ version, (watchLoop versions keys tx).watched (shardIndex k) = some version := by
  induction keys generalizing tx with
  | nil => cases hk
  | cons key keys ih =>
      rw [watchLoop]
      rcases List.mem_cons.mp hk with rfl | hk
      · have hhead : ∃ version, (tx.watch (shardIndex k) (versions (shardIndex k))).watched (shardIndex k)
            = some version := by
          show ∃ version, Function.update tx.watched (shardIndex k) _ (shardIndex k) = some version
          rw [Function.update_self]
          cases tx.watched (shardIndex k) with
          | none => exact ⟨_, rfl⟩
          | some v => exact ⟨v, rfl⟩
        obtain ⟨version, hversion⟩ := hhead
        exact ⟨version, watched_watchLoop versions keys _ hversion⟩
      · exact ih hk _

omit [KeyHash] [Lua] [Codec] in
/-- The command that is this control. -/
def TxControl.command : TxControl → Command
  | .multi => .multi
  | .exec => .exec
  | .discard => .discard
  | .watch keys => .watch keys
  | .unwatch => .unwatch

omit [KeyHash] [Lua] [Codec] in
theorem command_of_txControl {c : Command} {x : TxControl} (h : txControl c = some x) : c = x.command := by
  cases c <;> first | (cases h; done) | (cases h; rfl)

/-- Control that does not drop the watches. -/
theorem watched_control {rd : Readings} {x : TxControl} {srv : Server} {t : ConnTask} {s : Fin 64}
    (hx : x = .multi ∨ ∃ keys, x = .watch keys) (h : t.conn.tx.watched s = some version) :
    (t.control cfg rd x srv).conn.tx.watched s = some version := by
  rcases hx with rfl | ⟨keys, rfl⟩
  · simp only [ConnTask.control, FerricCache.control]
    split
    · exact h
    · exact h
  · simp only [ConnTask.control, FerricCache.control]
    split
    · exact h
    · exact watched_watchLoop _ keys _ h

theorem watched_step (h : r.step cfg e = some r') (hkeep : e.dropsWatches i = false) {s : Fin 64}
    (hwatched : (r.tasks i).conn.tx.watched s = some version) :
    (r'.tasks i).conn.tx.watched s = some version := by
  rcases Runtime.step_cases h with ⟨j, c, rd, rfl, hat, rfl⟩ | ⟨j, rd, p, rfl, hp, rfl⟩
  · by_cases hij : i = j
    · subst hij
      rw [Runtime.put_tasks]
      unfold ConnTask.receive
      split
      · split
        · exact hwatched
        · rw [(begin_stride cfg rd r.server hat _).2]
          exact hwatched
      · rename_i x hx
        split
        · exact hwatched
        · rw [command_of_txControl hx] at hkeep
          refine watched_control ?_ hwatched
          cases x with
          | multi => exact Or.inl rfl
          | watch keys => exact Or.inr ⟨keys, rfl⟩
          | _ => simp [TxControl.command, TaskEvent.dropsWatches] at hkeep
    · rw [Runtime.put_tasks_ne hij]
      exact hwatched
  · by_cases hij : i = j
    · subst hij
      rw [Runtime.put_tasks, (go_stride hp).2]
      exact hwatched
    · rw [Runtime.put_tasks_ne hij]
      exact hwatched

/-! ## Whole runs -/

variable (entry) in
/-- The key stays calm, or its change shows in the end; and what shows goes on showing. -/
theorem calm_run {mid : List (TaskEvent n)} (hg : Along (Runtime.step cfg) (Guarded i k) r mid)
    (hkeep : ∀ e ∈ mid, e.dropsWatches i = false) (hrun : run (Runtime.step cfg) r mid = some r')
    (hwatched : (r.tasks i).conn.tx.watched (shardIndex k) = some version) :
    (r'.tasks i).conn.tx.watched (shardIndex k) = some version ∧
      (Calm k entry r → Calm k entry r' ∨ Shown k version r') ∧ (Shown k version r → Shown k version r') := by
  induction mid generalizing r with
  | nil =>
      cases hrun
      exact ⟨hwatched, Or.inl, id⟩
  | cons e mid ih =>
      obtain ⟨m, hm, hrest⟩ := run_cons.mp hrun
      obtain ⟨hend, hcalm, hshown⟩ := ih (hg.2 m hm) (fun e he => hkeep e (List.mem_cons_of_mem _ he)) hrest
        (watched_step hm (hkeep e List.mem_cons_self) hwatched)
      refine ⟨hend, fun hc => ?_, fun hs => hshown (hs.step hm hg.1 hwatched)⟩
      rcases hc.step hm hg.1 hwatched with hc | hs
      · exact hcalm hc
      · exact Or.inr (hshown hs)

omit [KeyHash] [Lua] [Codec] in
theorem version_of_unchanged {tx : TxState} {versions : ShardVersions} {s : Fin 64}
    (h : tx.anyWatchedChanged versions = false) (hwatched : tx.watched s = some version) : versions s = version := by
  have hall := List.any_eq_false.mp h s (List.mem_finRange s)
  rw [hwatched] at hall
  simpa using hall

omit [KeyHash] [Lua] [Codec] in
theorem live_congr {slot : Slot} {now now' : Instant}
    (hsame : ∀ v, slot = some v → v.isExpired now = v.isExpired now') : Slot.live now slot = Slot.live now' slot := by
  cases slot with
  | none => rfl
  | some v => simp only [Slot.live, Option.filter_some, hsame v rfl]

omit [KeyHash] [Lua] [Codec] in
/-- An entry that does not pass its deadline between two readings is the same at all readings in between. -/
theorem live_between {slot : Slot} {now₁ now now₂ : Instant} (h₁ : now₁ ≤ now) (h₂ : now ≤ now₂)
    (hsame : ∀ v, slot = some v → v.isExpired now₁ = v.isExpired now₂) : Slot.live now slot = Slot.live now₂ slot := by
  apply live_congr
  intro v hv
  cases hend : v.isExpired now₂ with
  | true => exact isExpired_mono ((hsame v hv).trans hend) h₁
  | false =>
      by_contra hlapsed
      rw [Bool.not_eq_false] at hlapsed
      cases hend.symm.trans (isExpired_mono hlapsed h₂)

/-- **`EXEC` detects what happened to a watched key** in every run that is guarded, unless the key's entry passes its
    deadline in between. -/
theorem watch_detects (cfg : ServerConfig) (srv : Server) (i : Fin n) (k : Bytes) (keys : List Bytes) (hk : k ∈ keys)
    (rd₁ rd₂ : Readings) (pre mid : List (TaskEvent n)) (r₀ r₁ r₂ : Runtime n)
    (hes : Along (Runtime.step cfg) (Guarded i k) (Runtime.start n srv)
      (pre ++ (.receive i (.watch keys) rd₁ :: mid) ++ [TaskEvent.receive i .exec rd₂]))
    (hpre : run (Runtime.step cfg) (Runtime.start n srv) pre = some r₀)
    (hgate : gate cfg (r₀.tasks i).conn (.watch keys) = none) (hmulti : (r₀.tasks i).conn.tx.inMulti = false)
    (hwatch : r₀.step cfg (.receive i (.watch keys) rd₁) = some r₁)
    (hmid : run (Runtime.step cfg) r₁ mid = some r₂) (hkeep : ∀ e ∈ mid, e.dropsWatches i = false)
    (hpass : (r₂.tasks i).conn.tx.anyWatchedChanged r₂.server.versions = false)
    (hdeadline : ∀ v, r₁.server.storage.slotAt k = some v →
      v.isExpired rd₁.env.now = v.isExpired rd₂.env.now) :
    Detects cfg k rd₁.env.now rd₂.env.now r₁ r₂ mid := by
  rw [List.append_assoc] at hes
  have hes := along_right hes hpre
  have hguard : Along (Runtime.step cfg) (Guarded i k) r₁ mid := along_left (hes.2 r₁ hwatch)
  have howes := (along_right (hes.2 r₁ hwatch) hmid).1 rfl
  -- `WATCH` itself
  have hr₁ : r₁ = r₀.put i (r₀.server, { r₀.tasks i with
      conn := { (r₀.tasks i).conn with tx := watchLoop r₀.server.versions keys (r₀.tasks i).conn.tx } }) := by
    rcases Runtime.step_cases hwatch with ⟨j, c, rd, he, hat, hr⟩ | ⟨j, rd, p, he, -, -⟩
    · cases he
      rw [hr]
      simp only [ConnTask.receive, txControl, hgate, ConnTask.control, FerricCache.control, hmulti,
        Bool.false_eq_true, if_false]
    · cases he
  obtain ⟨version, hversion⟩ := watched_of_mem r₀.server.versions hk (r₀.tasks i).conn.tx
  have hwatched : (r₁.tasks i).conn.tx.watched (shardIndex k) = some version := by
    rw [hr₁, Runtime.put_tasks]
    exact hversion
  have hcalm : Calm k (r₁.server.storage.slotAt k) r₁ := by
    refine ⟨fun l => ?_, rfl⟩
    have hdue := hes.1 rfl hk
    rw [hr₁]
    by_cases hl : l = i
    · rw [hl, Runtime.put_tasks]
      exact hdue i
    · rw [Runtime.put_tasks_ne hl]
      exact hdue l
  -- at the test nothing shows, so nothing showed before
  have hsame : ∀ as bs u, mid = as ++ bs → run (Runtime.step cfg) r₁ as = some u →
      u.server.storage.slotAt k = r₁.server.storage.slotAt k := by
    intro as bs u hsplit hu
    subst hsplit
    obtain ⟨m, hm, hbs⟩ := run_append.mp hmid
    cases hu.symm.trans hm
    obtain ⟨hwatched', hu', -⟩ := calm_run (r₁.server.storage.slotAt k) (along_left hguard)
      (fun e he => hkeep e (List.mem_append_left _ he)) hu hwatched
    rcases hu' hcalm with hc | hs
    · exact hc.2
    · obtain ⟨hend, -, hshown⟩ := calm_run none (along_right hguard hu)
        (fun e he => hkeep e (List.mem_append_right _ he)) hbs hwatched'
      rcases hshown hs with hmoved | ⟨l, hl⟩
      · exact absurd (version_of_unchanged hpass hend) hmoved
      · rw [howes l] at hl
        cases hl
  have hr₂ := hsame mid [] r₂ (List.append_nil mid).symm hmid
  refine ⟨?_, ?_, ?_⟩
  · rw [CacheStorage.live, CacheStorage.live, hr₂]
    exact (live_congr hdeadline).symm
  · intro as bs u now hsplit hu h₁ h₂
    rw [CacheStorage.live, CacheStorage.live, hr₂, hsame as bs u hsplit hu]
    exact live_between h₁ h₂ hdeadline
  · intro as bs u env c a hsplit hu ha hfoot
    refine (arm_local ha).reply _ _ ?_
    rw [hfoot]
    intro key hkey
    rw [List.mem_singleton.mp hkey, hsame as bs u hsplit hu, hr₂]

/-! ## What goes unseen -/

/-- `WATCH`, `EXEC` passes its test, and the key is not what it was. -/
def Overlooked (cfg : ServerConfig) (srv : Server) (i : Fin n) (k : Bytes) (rd₁ rd₂ : Readings)
    (pre mid : List (TaskEvent n)) : Prop :=
  ∃ r₀ r₁ r₂, run (Runtime.step cfg) (Runtime.start n srv) pre = some r₀ ∧
    gate cfg (r₀.tasks i).conn (.watch [k]) = none ∧ (r₀.tasks i).conn.tx.inMulti = false ∧
    r₀.step cfg (.receive i (.watch [k]) rd₁) = some r₁ ∧
    run (Runtime.step cfg) r₁ mid = some r₂ ∧ (∀ e ∈ mid, e.dropsWatches i = false) ∧
    (r₂.tasks i).conn.tx.queue.isSome = true ∧
    (r₂.tasks i).conn.tx.anyWatchedChanged r₂.server.versions = false ∧
    ¬ Detects cfg k rd₁.env.now rd₂.env.now r₁ r₂ mid

/-- What a schedule shows of itself. -/
def observed (cfg : ServerConfig) (srv : Server) (i : Fin n) (k : Bytes) (rd₁ rd₂ : Readings)
    (pre mid : List (TaskEvent n)) : Option (Bool × Bool × Bool × Bool × Bool) :=
  (run (Runtime.step cfg) (Runtime.start n srv) pre).bind fun r₀ =>
    (r₀.step cfg (.receive i (.watch [k]) rd₁)).bind fun r₁ =>
      (run (Runtime.step cfg) r₁ mid).map fun r₂ =>
        ((gate cfg (r₀.tasks i).conn (.watch [k])).isNone, (r₀.tasks i).conn.tx.inMulti,
          (r₂.tasks i).conn.tx.queue.isSome, (r₂.tasks i).conn.tx.anyWatchedChanged r₂.server.versions,
          decide ((r₂.server.storage.live rd₂.env.now k).isSome = (r₁.server.storage.live rd₁.env.now k).isSome))

theorem overlooked_of_observed {srv : Server} {rd₁ rd₂ : Readings} {pre mid : List (TaskEvent n)}
    (h : observed cfg srv i k rd₁ rd₂ pre mid = some (true, false, true, false, false))
    (hkeep : ∀ e ∈ mid, e.dropsWatches i = false) : Overlooked cfg srv i k rd₁ rd₂ pre mid := by
  obtain ⟨r₀, hpre, h⟩ := Option.bind_eq_some_iff.mp h
  obtain ⟨r₁, hwatch, h⟩ := Option.bind_eq_some_iff.mp h
  obtain ⟨r₂, hmid, h⟩ := Option.map_eq_some_iff.mp h
  simp only [Prod.mk.injEq] at h
  obtain ⟨hgate, hmulti, hqueue, hpass, hdiffer⟩ := h
  refine ⟨r₀, r₁, r₂, hpre, Option.isNone_iff_eq_none.mp hgate, hmulti, hwatch, hmid, hkeep, hqueue, hpass, ?_⟩
  intro hdetects
  exact of_decide_eq_false hdiffer (by rw [hdetects.value])

end Watched

/-- `INCR x` and a `GET k` between `WATCH k` and `EXEC`, where `k` holds a value. -/
theorem watch_detects_quiet :
    let _ := shortKeys
    let _ := noScripts
    let _ := incrCodec
    let k := utf8 "k"
    let held := CacheValue.string (utf8 "v") none
    let srv := { Server.fresh with storage := CacheStorage.new.setEntry k (some held) }
    let go : TaskEvent 2 := .go 1 (.plain 2)
    let mid : List (TaskEvent 2) :=
      [.receive 1 (.incr (utf8 "x")) (.plain 2), go, go, .receive 0 (.get k) (.plain 2), go, go,
        .receive 0 .multi (.plain 2)]
    ∃ r₁ r₂, (Runtime.start 2 srv).step ⟨none, none, none⟩ (.receive 0 (.watch [k]) (.plain 1)) = some r₁ ∧
      run (Runtime.step ⟨none, none, none⟩) r₁ mid = some r₂ ∧ r₁.server.storage.slotAt k = some held ∧
      r₂.server.storage.slotAt (utf8 "x") = some (.string (utf8 "1") none) ∧
      Detects ⟨none, none, none⟩ k (Readings.plain 1).env.now (Readings.plain 3).env.now r₁ r₂ mid := by
  intro _ _ _ k held srv go mid
  have hrun : (((Runtime.start 2 srv).step ⟨none, none, none⟩ (.receive 0 (.watch [k]) (.plain 1))).bind
      fun r₁ => (run (Runtime.step ⟨none, none, none⟩) r₁ mid).map fun r₂ =>
        (r₁.server.storage.slotAt k, r₂.server.storage.slotAt (utf8 "x"),
          (r₂.tasks 0).conn.tx.anyWatchedChanged r₂.server.versions))
      = some (some held, some (.string (utf8 "1") none), false) := by decide
  obtain ⟨r₁, hwatch, hrun⟩ := Option.bind_eq_some_iff.mp hrun
  obtain ⟨r₂, hmid, hrun⟩ := Option.map_eq_some_iff.mp hrun
  simp only [Prod.mk.injEq] at hrun
  obtain ⟨hheld, hx, hpass⟩ := hrun
  have hes : Along (Runtime.step ⟨none, none, none⟩) (Guarded 0 k) (Runtime.start 2 srv)
      ([] ++ (.receive 0 (.watch [k]) (.plain 1) :: mid) ++ [TaskEvent.receive 0 .exec (.plain 3)]) := by
    decide +revert
  refine ⟨r₁, r₂, hwatch, hmid, hheld, hx, watch_detects ⟨none, none, none⟩ srv 0 k [k] (List.mem_singleton_self k)
    (.plain 1) (.plain 3) [] mid _ r₁ r₂ hes rfl rfl rfl hwatch hmid ?_ hpass ?_⟩
  · decide
  · intro v hv
    cases hheld.symm.trans hv
    rfl

/-- A write that another connection's `WATCH` finds counted and not applied; a write that another connection's `EXEC`
    finds applied by a script and not counted; and a deadline that passes. Each time the key is read after `WATCH`. -/
theorem watch_overlooks :
    let _ := shortKeys
    let _ := incrScripts
    let _ := incrCodec
    let k := utf8 "k"
    let go : TaskEvent 2 := .go 1 (.plain 1)
    let get : TaskEvent 2 := .receive 0 (.get k) (.plain 1)
    let multi : TaskEvent 2 := .receive 0 .multi (.plain 1)
    Overlooked ⟨none, none, none⟩ Server.fresh 0 k (.plain 1) (.plain 1) [.receive 1 (.incr k) (.plain 1), go, go, go]
        [get, go, multi] ∧
      Overlooked ⟨none, none, none⟩ Server.fresh 0 k (.plain 1) (.plain 1) []
        [.receive 1 (.luaEval (utf8 "return redis.call('INCR', KEYS[1])") [k] []) (.plain 1), get, go, multi] ∧
      Overlooked ⟨none, none, none⟩ Server.fresh 0 k (.plain 1) (.plain 5)
        [.receive 1 (.setEx k 2 (utf8 "v")) (.plain 1), go, go, go, go] [get, multi] := by
  intro _ _ _ k go get multi
  refine ⟨overlooked_of_observed ?_ ?_, overlooked_of_observed ?_ ?_, overlooked_of_observed ?_ ?_⟩
  · decide
  · decide
  · decide
  · decide
  · decide
  · decide

end FerricCache
