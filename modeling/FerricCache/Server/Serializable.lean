import FerricCache.Server.Chronicle
import FerricCache.Server.Watched

/-!
# `FerricCache.Server.Serializable` — `EXEC` among other connections

The run of a chronicle is `Isolated` when its jobs could have run one after the other: with the same replies, to the
same storage, every connection's in its own order, and with no write to a watched key between the `WATCH` and the
`EXEC`. It is when no step closes a cycle of conflicts (`exec_isolated`), and otherwise need not be
(`exec_interleaved`).
-/

namespace FerricCache

open Lib.Run Lib.Serial

namespace Chronicle

variable [KeyHash] [Lua] [Codec] {cfg : ServerConfig} {x x' : Chronicle} {e : WorldEvent} {i : Nat}

/-! ## The blocks of the `EXEC`s -/

/-- The job of an `EXEC` consists of it and of these commands, in order. -/
def BlockAt (l : List Act) (e : Act) (cs : List QueuedCommand) : Prop :=
  ∃ done, l.filter (fun f => f.job = e.job) = e :: done ∧ done.map (fun f => f.action.dispatched) = cs.map some

/-- What a connection has left to do of a job. -/
def left (x : Chronicle) (i j : Nat) : List QueuedCommand :=
  if j = x.job i then (x.world.clients i).running.getD [] else []

/-- The jobs are as they should be. -/
structure Grouped (x : Chronicle) : Prop where
  fresh : ∀ e ∈ x.entries, e.job < x.entries.length
  /-- A `WATCH` is a job of its own. -/
  watches : ∀ e ∈ x.entries, ∀ i keys, e.action = .watch i keys → x.entries.filter (fun f => f.job = e.job) = [e]
  /-- An `EXEC` has run the part of its queue that is not left. -/
  commits : ∀ e ∈ x.entries, ∀ i watched queue, e.action = .commit i watched queue →
    ∃ cs, BlockAt x.entries e cs ∧ queue = cs ++ x.left i e.job
  /-- A connection that is at an `EXEC` has begun it. -/
  running : ∀ i, (x.world.clients i).running ≠ none → ∃ e ∈ x.entries, ∃ watched queue,
    e.job = x.job i ∧ e.action = .commit i watched queue

omit [Lua] [Codec] in
theorem grouped_start (srv : Server) : Grouped (start srv) :=
  ⟨fun _ he => absurd he List.not_mem_nil, fun _ he => absurd he List.not_mem_nil,
    fun _ he => absurd he List.not_mem_nil, fun _ hi => absurd rfl hi⟩

omit [Lua] [Codec] in
theorem left_of_idle {j : Nat} (h : (x.world.clients i).running.getD [] = []) : x.left i j = [] := by
  unfold left
  split
  · exact h
  · rfl

omit [Lua] [Codec] in
theorem left_of_ne {j : Nat} (h : j ≠ x.job i) : x.left i j = [] := if_neg h

omit [Lua] [Codec] in
theorem Spares.left (h : Spares e.client x x') {j : Nat} (hij : i ≠ e.client) : x'.left i j = x.left i j := by
  unfold Chronicle.left
  rw [h.clients i hij, h.job i hij]

section Blocks

variable {l : List Act} {f g : Act} {cs : List QueuedCommand}

omit [KeyHash] [Lua] [Codec] in
theorem filter_concat_ne {j : Nat} (h : f.job ≠ j) :
    (l ++ [f]).filter (fun e => e.job = j) = l.filter fun e => e.job = j := by
  rw [List.filter_append, List.filter_cons_of_neg (by simpa using h)]
  exact List.append_nil _

omit [KeyHash] [Lua] [Codec] in
theorem filter_concat_new (h : ∀ e ∈ l, e.job ≠ f.job) : (l ++ [f]).filter (fun e => e.job = f.job) = [f] := by
  have hnone : l.filter (fun e => e.job = f.job) = [] := by
    rw [List.filter_eq_nil_iff]
    intro e he
    simpa using h e he
  rw [List.filter_append, hnone, List.filter_cons_of_pos (by simp)]
  rfl

omit [KeyHash] [Lua] [Codec] in
theorem BlockAt.concat (h : BlockAt l g cs) (hf : f.job ≠ g.job) : BlockAt (l ++ [f]) g cs := by
  obtain ⟨done, hfilter, hdone⟩ := h
  exact ⟨done, (filter_concat_ne hf).trans hfilter, hdone⟩

omit [KeyHash] [Lua] [Codec] in
/-- The next command of the queue. -/
theorem BlockAt.dispatch (h : BlockAt l g cs) (hf : f.job = g.job) {c : QueuedCommand}
    (hc : f.action.dispatched = some c) : BlockAt (l ++ [f]) g (cs ++ [c]) := by
  obtain ⟨done, hfilter, hdone⟩ := h
  refine ⟨done ++ [f], ?_, ?_⟩
  · rw [List.filter_append, hfilter, List.filter_cons_of_pos (by simpa using hf)]
    rfl
  · rw [List.map_append, List.map_append, hdone]
    exact congrArg (cs.map some ++ [·]) hc

omit [KeyHash] [Lua] [Codec] in
/-- Of a job's actions, the `EXEC` is the one that is no command. -/
theorem BlockAt.eq_of_job (h : BlockAt l g cs) (hf : f ∈ l) (hjob : f.job = g.job)
    (hnone : f.action.dispatched = none) : f = g := by
  obtain ⟨done, hfilter, hdone⟩ := h
  have hmem : f ∈ l.filter fun e => e.job = g.job := List.mem_filter.mpr ⟨hf, by simpa using hjob⟩
  rw [hfilter] at hmem
  refine (List.mem_cons.mp hmem).resolve_right fun hmem => ?_
  have hsome : f.action.dispatched ∈ cs.map some := hdone ▸ List.mem_map_of_mem hmem
  rw [hnone] at hsome
  obtain ⟨c, -, hc⟩ := List.mem_map.mp hsome
  cases hc

end Blocks

omit [Lua] [Codec] in
/-- What a new job does to the others. -/
theorem Grouped.concat (hx : Grouped x) {f : Act} (hentries : x'.entries = x.entries ++ [f])
    (hjob : f.job = x.entries.length)
    (hleft : ∀ e ∈ x.entries, ∀ i, x'.left i e.job = x.left i e.job)
    (hnew : ∀ i watched queue, f.action = .commit i watched queue → x'.left i f.job = queue)
    (hrunning : ∀ i, (x'.world.clients i).running ≠ none →
      (x.world.clients i).running ≠ none ∧ x'.job i = x.job i ∨
        ∃ watched queue, f.job = x'.job i ∧ f.action = .commit i watched queue) : Grouped x' := by
  have hother : ∀ e ∈ x.entries, f.job ≠ e.job := by
    intro e he heq
    have := hx.fresh e he
    omega
  refine ⟨?_, ?_, ?_, ?_⟩
  · intro e he
    rw [hentries] at he ⊢
    rw [List.length_append, List.length_singleton]
    rcases List.mem_append.mp he with he | he
    · have := hx.fresh e he
      omega
    · cases List.mem_singleton.mp he
      omega
  · intro e he i keys haction
    rw [hentries] at he ⊢
    rcases List.mem_append.mp he with he | he
    · exact (filter_concat_ne (hother e he)).trans (hx.watches e he i keys haction)
    · cases List.mem_singleton.mp he
      exact filter_concat_new fun e he => (hother e he).symm
  · intro e he i watched queue haction
    rw [hentries] at he ⊢
    rcases List.mem_append.mp he with he | he
    · obtain ⟨cs, hblock, hqueue⟩ := hx.commits e he i watched queue haction
      exact ⟨cs, hblock.concat (hother e he), (hleft e he i).symm ▸ hqueue⟩
    · cases List.mem_singleton.mp he
      exact ⟨[], ⟨[], filter_concat_new fun e he => (hother e he).symm, rfl⟩, (hnew i watched queue haction).symm⟩
  · intro i hi
    rw [hentries]
    rcases hrunning i hi with ⟨hbefore, hsame⟩ | ⟨watched, queue, hf, haction⟩
    · obtain ⟨e, he, watched, queue, hejob, haction⟩ := hx.running i hbefore
      exact ⟨e, List.mem_append_left _ he, watched, queue, hejob.trans hsame.symm, haction⟩
    · exact ⟨f, List.mem_append_right _ (List.mem_singleton_self f), watched, queue, hf, haction⟩

omit [Lua] [Codec] in
/-- A further command of a job that was begun. -/
theorem Grouped.dispatch (hx : Grouped x) {f : Act} {c : QueuedCommand} {rest : List QueuedCommand}
    (hentries : x'.entries = x.entries ++ [f]) (hjob : f.job = x.job i) (hc : f.action.dispatched = some c)
    (hrunning : (x.world.clients i).running = some (c :: rest))
    (hrunning' : (x'.world.clients i).running = some rest) (hjob' : x'.job i = x.job i)
    (hleft : ∀ k j, k ≠ i → x'.left k j = x.left k j)
    (hothers : ∀ k, k ≠ i → (x'.world.clients k).running = (x.world.clients k).running ∧ x'.job k = x.job k) :
    Grouped x' := by
  -- the `EXEC` that is going on
  obtain ⟨g, hg, watched₀, queue₀, hgjob, hgaction⟩ := hx.running i (hrunning ▸ Option.some_ne_none _)
  obtain ⟨cs, hblock, hqueue⟩ := hx.commits g hg i watched₀ queue₀ hgaction
  have hleftg : x.left i g.job = c :: rest := by
    unfold left
    rw [if_pos hgjob, hrunning]
    rfl
  have hleftg' : x'.left i g.job = rest := by
    unfold left
    rw [if_pos (hgjob.trans hjob'.symm), hrunning']
    rfl
  have hfg : f.job = g.job := hjob.trans hgjob.symm
  have honly : ∀ e ∈ x.entries, e.action.dispatched = none → e ≠ g → f.job ≠ e.job :=
    fun e he hnone hne heq => hne (hblock.eq_of_job he (heq.symm.trans hfg) hnone)
  have hfaction : ∀ {a : Action}, a.dispatched = none → f.action ≠ a := by
    intro a ha heq
    rw [heq, ha] at hc
    cases hc
  refine ⟨?_, ?_, ?_, ?_⟩
  · intro e he
    rw [hentries] at he ⊢
    rw [List.length_append, List.length_singleton]
    rcases List.mem_append.mp he with he | he
    · have := hx.fresh e he
      omega
    · cases List.mem_singleton.mp he
      have := hx.fresh g hg
      omega
  · intro e he k keys haction
    rw [hentries] at he ⊢
    rcases List.mem_append.mp he with he | he
    · have hne : e ≠ g := by
        rintro rfl
        cases haction.symm.trans hgaction
      exact (filter_concat_ne (honly e he (haction ▸ rfl) hne)).trans (hx.watches e he k keys haction)
    · cases List.mem_singleton.mp he
      exact absurd haction (hfaction rfl)
  · intro e he k watched queue haction
    rw [hentries] at he ⊢
    rcases List.mem_append.mp he with he | he
    · by_cases heg : e = g
      · subst heg
        obtain ⟨rfl, rfl, rfl⟩ := Action.commit.inj (haction.symm.trans hgaction)
        refine ⟨cs ++ [c], hblock.dispatch hfg hc, ?_⟩
        rw [hqueue, hleftg, hleftg', List.append_assoc]
        rfl
      · have hne := honly e he (haction ▸ rfl) heg
        obtain ⟨cs', hblock', hqueue'⟩ := hx.commits e he k watched queue haction
        refine ⟨cs', hblock'.concat hne, ?_⟩
        rw [hqueue']
        by_cases hk : k = i
        · subst hk
          have hejob : e.job ≠ x.job k := fun heq => hne (hjob.trans heq.symm)
          rw [left_of_ne hejob, left_of_ne (hjob'.symm ▸ hejob)]
        · rw [hleft k _ hk]
    · cases List.mem_singleton.mp he
      exact absurd haction (hfaction rfl)
  · intro k hk
    rw [hentries]
    by_cases hki : k = i
    · subst hki
      exact ⟨g, List.mem_append_left _ hg, watched₀, queue₀, hgjob.trans hjob'.symm, hgaction⟩
    · obtain ⟨hsame, hsamejob⟩ := hothers k hki
      obtain ⟨e, he, watched, queue, hejob, haction⟩ := hx.running k (hsame ▸ hk)
      exact ⟨e, List.mem_append_left _ he, watched, queue, hejob.trans hsamejob.symm, haction⟩

theorem grouped_step (hx : Grouped x) (h : x.step cfg e = some x') : Grouped x' := by
  obtain ⟨hspares, hturn⟩ := step_turn h
  -- a connection that is not at an `EXEC` before and after
  have hleft : (x.world.clients e.client).running.getD [] = [] →
      (x'.world.clients e.client).running.getD [] = [] → ∀ i j, x'.left i j = x.left i j := by
    intro hbefore hafter i j
    by_cases hi : i = e.client
    · rw [hi, left_of_idle hbefore, left_of_idle hafter]
    · exact hspares.left hi
  have hothers : ∀ i, i ≠ e.client →
      (x'.world.clients i).running = (x.world.clients i).running ∧ x'.job i = x.job i :=
    fun i hi => ⟨congrArg Client.running (hspares.clients i hi), hspares.job i hi⟩
  have hstill : (x'.world.clients e.client).running = none → ∀ i, (x'.world.clients i).running ≠ none →
      (x.world.clients i).running ≠ none ∧ x'.job i = x.job i := by
    intro hidle i hi
    by_cases hie : i = e.client
    · exact absurd (hie ▸ hidle) hi
    · obtain ⟨hsame, hjob⟩ := hothers i hie
      exact ⟨hsame ▸ hi, hjob⟩
  cases hturn with
  | quiet hentries hserver hconn hwatching hrunning hrunning' =>
      have hbefore : (x.world.clients e.client).running.getD [] = [] := by
        rcases hrunning with h | h <;> rw [h] <;> rfl
      have hsame := hleft hbefore (by rw [hrunning']; rfl)
      refine ⟨hentries ▸ hx.fresh, hentries ▸ hx.watches, ?_, ?_⟩
      · intro f hf i watched queue haction
        rw [hentries] at hf ⊢
        obtain ⟨cs, hblock, hqueue⟩ := hx.commits f hf i watched queue haction
        exact ⟨cs, hblock, (hsame i f.job).symm ▸ hqueue⟩
      · intro i hi
        obtain ⟨hbefore, hjob⟩ := hstill hrunning' i hi
        rw [hentries, hjob]
        exact hx.running i hbefore
  | watches hentries hserver hconn hwatching htx hrunning hrunning' =>
      refine hx.concat hentries rfl (fun f _ i => hleft (by rw [hrunning]; rfl) (by rw [hrunning']; rfl) i f.job) ?_ ?_
      · intro i watched queue haction
        cases haction
      · exact fun i hi => Or.inl (hstill hrunning' i hi)
  | @commits queue hentries hserver hconn hwatching hsame hrunning hrunning' hjob =>
      refine hx.concat hentries rfl ?_ ?_ ?_
      · intro f hf i
        by_cases hi : i = e.client
        · subst hi
          have hne : f.job ≠ x'.job e.client := by
            have := hx.fresh f hf
            omega
          rw [left_of_ne hne, left_of_idle (by rw [hrunning]; rfl)]
        · exact hspares.left hi
      · intro i watched queue' haction
        cases haction
        unfold left
        rw [if_pos hjob.symm, hrunning']
        rfl
      · intro i hi
        by_cases hie : i = e.client
        · subst hie
          exact Or.inr ⟨_, _, hjob.symm, rfl⟩
        · obtain ⟨hstays, hsamejob⟩ := hothers i hie
          exact Or.inl ⟨hstays ▸ hi, hsamejob⟩
  | @commands n rd c hentries hserver hconn hwatching hjob =>
      rcases hjob with ⟨rfl, hrunning, hrunning'⟩ | ⟨rfl, hjob', rest, hrunning, hrunning'⟩
      · refine hx.concat hentries rfl (fun f _ i => hleft (by rw [hrunning]; rfl) (by rw [hrunning']; rfl) i f.job)
          ?_ ?_
        · intro i watched queue haction
          cases haction
        · exact fun i hi => Or.inl (hstill hrunning' i hi)
      · exact hx.dispatch hentries rfl rfl hrunning hrunning' hjob' (fun k j hk => hspares.left hk) hothers

/-- An input closes no cycle. -/
theorem closesNone_receive (hx : Grouped x) {input : Parse Command} {rd : Readings}
    (hkeeps : KeepsVersions cfg x (.receive i input rd)) : ClosesNone cfg x (.receive i input rd) := by
  refine ⟨fun f hf => not_closes_of_new fun y hy => ?_, hkeeps⟩
  obtain ⟨a, -, rfl⟩ := Option.map_eq_some_iff.mp hf
  exact (hx.fresh y hy).ne

/-! ## Watched keys -/

/-- Since a `WATCH` of the connection on the key, which was this job, nobody wrote the key. -/
def Untouched (i : Nat) (p : Bytes × Nat) (l : List Act) : Prop :=
  ∃ (before : List Act) (w : Act) (since : List Act) (keys : List Bytes),
    l = before ++ w :: since ∧ w.job = p.2 ∧ w.action = .watch i keys ∧ p.1 ∈ keys ∧
    ∀ z ∈ since, z.mark.writes (.shared (.entry p.1)) = none

/-- What the watches know. -/
structure Vigilant (x : Chronicle) : Prop where
  /-- A watched key was not written, or the version of its shard shows it. -/
  watching : ∀ i, ∀ p ∈ x.watching i, ∃ version,
    (x.world.clients i).conn.tx.watched (shardIndex p.1) = some version ∧
      (Untouched i p x.entries ∨ x.world.server.versions (shardIndex p.1) ≠ version)
  /-- Where an `EXEC` ran, nobody had written the keys. -/
  commits : ∀ (l : List Act) (e : Act) (r : List Act), x.entries = l ++ e :: r →
    ∀ i watched queue, e.action = .commit i watched queue → ∀ p ∈ watched, Untouched i p l

section Watches

variable {l r since : List Act} {f g : Act} {p : Bytes × Nat}

omit [KeyHash] [Lua] [Codec] in
theorem Untouched.concat (h : Untouched i p l) (hf : f.mark.writes (.shared (.entry p.1)) = none) :
    Untouched i p (l ++ [f]) := by
  obtain ⟨before, w, since, keys, rfl, hjob, haction, hp, hsince⟩ := h
  refine ⟨before, w, since ++ [f], keys, by simp, hjob, haction, hp, fun z hz => ?_⟩
  rcases List.mem_append.mp hz with hz | hz
  · exact hsince z hz
  · cases List.mem_singleton.mp hz
    exact hf

omit [KeyHash] [Lua] [Codec] in
theorem concat_eq_split (h : l ++ [f] = r ++ g :: since) :
    (since = [] ∧ g = f ∧ r = l) ∨ ∃ since', l = r ++ g :: since' := by
  rcases List.eq_nil_or_concat since with rfl | ⟨since', z, rfl⟩
  · obtain ⟨rfl, hfg⟩ := List.append_inj' h rfl
    exact Or.inl ⟨rfl, (List.cons.inj hfg).1.symm, rfl⟩
  · rw [List.concat_eq_append, ← List.cons_append, ← List.append_assoc] at h
    rw [List.concat_eq_append]
    exact Or.inr ⟨since', (List.append_inj' h rfl).1⟩

end Watches

/-- Only commands write entries. -/
theorem mark_writes_entry {a : Action} {h : Scene} {k : Bytes} (ha : a.dispatched = none) :
    (a.mark cfg h).writes (.shared (.entry k)) = none := by
  by_contra hno
  have hmem := mark_writes.mp hno
  cases a with
  | watch i keys => cases hmem
  | commit i watched queue => cases hmem
  | command i rd c => cases ha

omit [Lua] [Codec] in
/-- The watches of the other connections. -/
theorem Vigilant.spared (hx : Vigilant x) (hspares : Spares e.client x x') (hne : i ≠ e.client)
    (hkeep : ∀ version p, (x.world.clients i).conn.tx.watched (shardIndex p.1) = some version →
      Untouched i p x.entries ∨ x.world.server.versions (shardIndex p.1) ≠ version →
        Untouched i p x'.entries ∨ x'.world.server.versions (shardIndex p.1) ≠ version) :
    ∀ p ∈ x'.watching i, ∃ version,
      (x'.world.clients i).conn.tx.watched (shardIndex p.1) = some version ∧
        (Untouched i p x'.entries ∨ x'.world.server.versions (shardIndex p.1) ≠ version) := by
  intro p hp
  rw [hspares.watching i hne] at hp
  obtain ⟨version, hversion, hor⟩ := hx.watching i p hp
  exact ⟨version, (hspares.clients i hne).symm ▸ hversion, hkeep version p hversion hor⟩

/-- **A write to a watched key shows.** -/
theorem vigilant_step (hx : Vigilant x) (hkeeps : KeepsVersions cfg x e) (h : x.step cfg e = some x') :
    Vigilant x' := by
  obtain ⟨hspares, hturn⟩ := step_turn h
  cases hturn with
  | quiet hentries hserver hconn hwatching hrunning hrunning' =>
      refine ⟨fun i => ?_, hentries ▸ hx.commits⟩
      have hkeep : ∀ version p, Untouched i p x.entries ∨ x.world.server.versions (shardIndex p.1) ≠ version →
          Untouched i p x'.entries ∨ x'.world.server.versions (shardIndex p.1) ≠ version := by
        intro version p hor
        rw [hentries, hserver]
        exact hor
      by_cases hi : i = e.client
      · subst hi
        intro p hp
        rcases hwatching with hnone | ⟨hsame, hwatched⟩
        · rw [hnone] at hp
          cases hp
        · rw [hsame] at hp
          obtain ⟨version, hversion, hor⟩ := hx.watching _ p hp
          exact ⟨version, hwatched.symm ▸ hversion, hkeep version p hor⟩
      · exact hx.spared hspares hi fun version p _ hor => hkeep version p hor
  | @watches keys hentries hserver hconn hwatching htx hrunning hrunning' =>
      have hkeep : ∀ i version p, Untouched i p x.entries ∨ x.world.server.versions (shardIndex p.1) ≠ version →
          Untouched i p x'.entries ∨ x'.world.server.versions (shardIndex p.1) ≠ version := by
        intro i version p hor
        rw [hentries, hserver]
        exact hor.imp_left fun h => h.concat (mark_writes_entry rfl)
      constructor
      · intro i
        by_cases hi : i = e.client
        · subst hi
          intro p hp
          rw [hwatching] at hp
          rw [htx]
          rcases List.mem_append.mp hp with hp | hp
          · obtain ⟨version, hversion, hor⟩ := hx.watching _ p hp
            exact ⟨version, watched_watchLoop _ keys _ hversion, hkeep _ version p hor⟩
          · -- the key is watched from now on
            obtain ⟨k, hk, rfl⟩ := List.mem_map.mp hp
            obtain ⟨version, hversion⟩ := watched_of_mem x.world.server.versions hk (x.world.clients e.client).conn.tx
            refine ⟨version, hversion, Or.inl ?_⟩
            rw [hentries]
            exact ⟨x.entries, _, [], keys, rfl, rfl, rfl, hk, fun z hz => absurd hz List.not_mem_nil⟩
        · exact hx.spared hspares hi fun version p _ hor => hkeep i version p hor
      · intro l g r hsplit
        rw [hentries] at hsplit
        rcases concat_eq_split hsplit with ⟨-, rfl, -⟩ | ⟨r', hold⟩
        · intro i watched queue haction
          cases haction
        · exact hx.commits l g r' hold
  | @commits queue hentries hserver hconn hwatching hsame hrunning hrunning' hjob =>
      constructor
      · intro i
        by_cases hi : i = e.client
        · subst hi
          rw [hwatching]
          exact fun p hp => absurd hp List.not_mem_nil
        · refine hx.spared hspares hi fun version p _ hor => ?_
          rw [hentries, hserver]
          exact hor.imp_left fun h => h.concat (mark_writes_entry rfl)
      · intro l g r hsplit
        rw [hentries] at hsplit
        rcases concat_eq_split hsplit with ⟨-, rfl, rfl⟩ | ⟨r', hold⟩
        · -- the test of this `EXEC` passed
          intro i watched queue' haction p hp
          cases haction
          obtain ⟨version, hversion, hor⟩ := hx.watching _ p hp
          exact hor.resolve_right fun hmoved => hmoved (version_of_unchanged hsame hversion)
        · exact hx.commits l g r' hold
  | @commands n rd c hentries hserver hconn hwatching hjob =>
      have hdoes := does_of_entries h hentries
      have hversions : x'.world.server.versions
          = countAll (counted cfg rd c x.world.server (x.world.clients e.client).conn) x.world.server.versions := by
        rw [hserver, versions_executePlain]
      have hkeep : ∀ i version p, (x.world.clients i).conn.tx.watched (shardIndex p.1) = some version →
          Untouched i p x.entries ∨ x.world.server.versions (shardIndex p.1) ≠ version →
            Untouched i p x'.entries ∨ x'.world.server.versions (shardIndex p.1) ≠ version := by
        intro i version p hversion hor
        by_cases hwritten : ∃ w ∈ written cfg rd c x.world.server (x.world.clients e.client).conn,
            shardIndex p.1 ∈ bumpedShards w
        · -- a write on the shard
          right
          rw [hversions]
          exact hkeeps e.client rd c hdoes i _ version hversion hwritten
        · rw [hversions, countAll_of_notMem fun w hw hs => hwritten ⟨w, written_of_counted hw, hs⟩, hentries]
          refine hor.imp_left fun h => h.concat ?_
          by_contra hno
          rcases mark_writes.mp hno with hcell | ⟨y, hy, hcell⟩
          · cases hcell
          · cases hcell
            exact hwritten (written_of_alters hy)
      constructor
      · intro i
        by_cases hi : i = e.client
        · subst hi
          intro p hp
          rw [hwatching] at hp
          obtain ⟨version, hversion, hor⟩ := hx.watching _ p hp
          refine ⟨version, ?_, hkeep _ version p hversion hor⟩
          rw [hconn, tx_executePlain]
          exact hversion
        · exact hx.spared hspares hi (hkeep i)
      · intro l g r hsplit
        rw [hentries] at hsplit
        rcases concat_eq_split hsplit with ⟨-, rfl, -⟩ | ⟨r', hold⟩
        · intro i watched queue haction
          cases haction
        · exact hx.commits l g r' hold

/-! ## One after the other -/

variable (cfg) in
/-- The actions one after the other: the replies, and what comes of it. Each has the readings that it had. -/
def doAll : List Action → Scene → List (List Response) × Scene
  | [], h => ([], h)
  | a :: l, h =>
      let r := a.run cfg h
      let p := doAll l r.2
      (r.1 :: p.1, p.2)

/-- The jobs of a run, one after the other in this order, come to the same. -/
structure SerialOrder (cfg : ServerConfig) (srv : Server) (x : Chronicle) (js : List Nat) : Prop where
  nodup : js.Nodup
  jobs : ∀ j, j ∈ js ↔ ∃ e ∈ x.entries, e.job = j
  replies : (doAll cfg ((serial js x.entries).map Entry.action) (World.start srv).scene).1
    = (serial js x.entries).map fun e => e.mark.reply
  storage : (doAll cfg ((serial js x.entries).map Entry.action) (World.start srv).scene).2.server.storage
    = x.world.server.storage
  /-- Every connection's actions are in their own order. -/
  own : ∀ i, (serial js x.entries).filter (fun e => e.action.client = i) = x.entries.filter fun e => e.action.client = i
  /-- No job that writes a watched key is between the `WATCH` and the `EXEC`. -/
  watches : ∀ e ∈ x.entries, ∀ i watched queue, e.action = .commit i watched queue → ∀ p ∈ watched,
    (∃ w ∈ x.entries, w.job = p.2 ∧ ∃ keys, w.action = .watch i keys ∧ p.1 ∈ keys) ∧
      js.idxOf p.2 < js.idxOf e.job ∧ ∀ z ∈ x.entries, z.mark.writes (.shared (.entry p.1)) ≠ none →
        ¬ (js.idxOf p.2 < js.idxOf z.job ∧ js.idxOf z.job < js.idxOf e.job)

/-- **`EXEC` is isolated**: it could have run its queue, in order and as far as it has got, with nothing in between. -/
structure Isolated (cfg : ServerConfig) (srv : Server) (x : Chronicle) : Prop where
  order : ∃ js, SerialOrder cfg srv x js
  /-- As far as it has got: to the end, or its connection is still at it. -/
  blocks : ∀ e ∈ x.entries, ∀ i watched queue, e.action = .commit i watched queue →
    ∃ cs, BlockAt x.entries e cs ∧
      (cs = queue ∨ ∃ rest, (x.world.clients i).running = some rest ∧ queue = cs ++ rest)

theorem doAll_of_plays {l : List Act} {h : Scene} (hl : Plays Scene.view (Action.run cfg) l h) :
    doAll cfg (l.map Entry.action) h = (l.map fun e => e.mark.reply, after (Action.run cfg) l h) := by
  induction l generalizing h with
  | nil => rfl
  | cons e l ih =>
      obtain ⟨hobeys, hrest⟩ := hl
      have hreply : (e.action.run cfg h).1 = e.mark.reply := (hobeys h fun _ _ => rfl).1
      simp only [List.map_cons, doAll, ih hrest, hreply]
      rfl

omit [Lua] [Codec] in
theorem storage_of_view {h t : Scene} (hview : h.view = t.view) : h.server.storage = t.server.storage :=
  CacheStorage.ext_entry fun k => Datum.entry.inj (congrFun hview (.shared (.entry k)))

/-- The `WATCH` of a key that an `EXEC` found unwritten comes before it, and every write before the one or after the
    other. -/
theorem watches_of_arranges {js : List Nat} (hjs : Arranges js x.entries) (hgrouped : Grouped x)
    (hmarks : ∀ e ∈ x.entries, ∃ h, e.mark = e.action.mark cfg h) {l r : List Act} {f : Act}
    (hsplit : x.entries = l ++ f :: r) {watched : List (Bytes × Nat)} {queue : List QueuedCommand}
    (haction : f.action = .commit i watched queue) {p : Bytes × Nat} (hp : p ∈ watched) (hl : Untouched i p l) :
    (∃ w ∈ x.entries, w.job = p.2 ∧ ∃ keys, w.action = .watch i keys ∧ p.1 ∈ keys) ∧
      js.idxOf p.2 < js.idxOf f.job ∧ ∀ z ∈ x.entries, z.mark.writes (.shared (.entry p.1)) ≠ none →
        ¬ (js.idxOf p.2 < js.idxOf z.job ∧ js.idxOf z.job < js.idxOf f.job) := by
  obtain ⟨before, w, since, keys, rfl, hjob, hwatch, hkey, hsince⟩ := hl
  have hw : w ∈ x.entries := by simp [hsplit]
  have hf : f ∈ x.entries := by simp [hsplit]
  -- what the two look at
  have hlooksw : Cell.shared (.entry p.1) ∈ w.mark.looks := by
    obtain ⟨h, hmark⟩ := hmarks w hw
    rw [hmark, hwatch]
    exact Or.inr ⟨p.1, hkey, rfl⟩
  have hlooksf : Cell.shared (.entry p.1) ∈ f.mark.looks := by
    obtain ⟨h, hmark⟩ := hmarks f hf
    rw [hmark, haction]
    exact Or.inr ⟨p, hp, rfl⟩
  have hnone : ∀ z ∈ x.entries, z.action.dispatched = none → z.mark.writes (.shared (.entry p.1)) = none := by
    intro z hz hdispatched
    obtain ⟨h, hmark⟩ := hmarks z hz
    rw [hmark]
    exact mark_writes_entry hdispatched
  have halone : ∀ z ∈ x.entries, z.job = w.job → z = w := by
    intro z hz hzw
    have hmem : z ∈ x.entries.filter fun e => e.job = w.job := List.mem_filter.mpr ⟨hz, by simpa using hzw⟩
    rw [hgrouped.watches w hw i keys hwatch] at hmem
    exact List.mem_singleton.mp hmem
  refine ⟨⟨w, hw, hjob, keys, hwatch, hkey⟩, ?_, ?_⟩
  · rw [← hjob]
    refine hjs.idxOf_lt ⟨fun heq => ?_, w, f, ?_, rfl, rfl, ?_⟩
    · have hfw := halone f hf heq.symm
      rw [hfw, hwatch] at haction
      cases haction
    · rw [hsplit]
      exact (List.singleton_sublist.mpr (by simp)).append (List.singleton_sublist.mpr List.mem_cons_self)
    · obtain ⟨h, hmark⟩ := hmarks w hw
      obtain ⟨h', hmark'⟩ := hmarks f hf
      rw [hmark, hmark']
      exact not_apart_of_client (by rw [hwatch, haction]; rfl)
  · intro z hz hwrites hbetween
    have hplace : z ∈ before ∨ z ∈ r := by
      rw [hsplit] at hz
      rcases List.mem_append.mp hz with hz | hz
      · rcases List.mem_append.mp hz with hz | hz
        · exact Or.inl hz
        · rcases List.mem_cons.mp hz with rfl | hz
          · exact absurd (hnone z hw (hwatch ▸ rfl)) hwrites
          · exact absurd (hsince z hz) hwrites
      · rcases List.mem_cons.mp hz with rfl | hz
        · exact absurd (hnone z hf (haction ▸ rfl)) hwrites
        · exact Or.inr hz
    rcases hplace with hplace | hplace
    · -- before the `WATCH`, and it stays there
      have hlt : js.idxOf z.job < js.idxOf w.job := by
        refine hjs.idxOf_lt ⟨fun heq => ?_, z, w, ?_, rfl, rfl, fun hapart => hwrites (hapart.right _ hlooksw)⟩
        · exact hwrites (halone z hz heq ▸ hnone w hw (hwatch ▸ rfl))
        · rw [hsplit, List.append_assoc]
          exact (List.singleton_sublist.mpr hplace).append (List.singleton_sublist.mpr (by simp))
      rw [hjob] at hlt
      omega
    · have hlt : js.idxOf f.job < js.idxOf z.job := by
        refine hjs.idxOf_lt ⟨fun heq => ?_, f, z, ?_, rfl, rfl, fun hapart => hwrites (hapart.left _ hlooksf)⟩
        · rw [heq] at hbetween
          omega
        · rw [hsplit]
          exact ((List.singleton_sublist.mpr hplace).cons_cons f).trans (List.sublist_append_right _ _)
      omega

/-- What every run keeps whose steps close no cycle. -/
structure Sound (cfg : ServerConfig) (srv : Server) (x : Chronicle) : Prop where
  faithful : Faithful cfg srv x
  acyclic : Acyclic x.entries
  grouped : Grouped x
  vigilant : Vigilant x

theorem sound_start (srv : Server) : Sound cfg srv (start srv) where
  faithful := ⟨trivial, rfl, fun e he => absurd he List.not_mem_nil⟩
  acyclic := acyclic_nil
  grouped := grouped_start srv
  vigilant := ⟨fun i p hp => absurd hp List.not_mem_nil, fun l e r h => absurd h.symm (by simp [start])⟩

theorem sound_step {srv : Server} (hx : Sound cfg srv x) (hcond : ClosesNone cfg x e) (h : x.step cfg e = some x') :
    Sound cfg srv x' :=
  ⟨faithful_step hx.faithful h, acyclic_step hx.acyclic hcond h, grouped_step hx.grouped h,
    vigilant_step hx.vigilant hcond.2 h⟩

theorem Sound.isolated {srv : Server} (hx : Sound cfg srv x) : Isolated cfg srv x := by
  constructor
  · obtain ⟨js, hjs, hreorders⟩ : ∃ js, Arranges js x.entries ∧
        Reorders Scene.view (Action.run cfg) x.entries (serial js x.entries) := exists_serial hx.acyclic
    obtain ⟨hplays, hend⟩ := hreorders _ hx.faithful.plays
    have hdoes := doAll_of_plays hplays
    refine ⟨js, hjs.nodup, hjs.mem, congrArg Prod.fst hdoes, ?_, ?_, ?_⟩
    · rw [hdoes]
      exact storage_of_view (hend.trans hx.faithful.scene)
    · intro i
      refine filter_serial ?_ hjs.nodup (fun e he => (hjs.mem e.job).mpr ⟨e, he, rfl⟩) hjs.order
      intro f hf g hg hfi hgi
      obtain ⟨h, hmark⟩ := hx.faithful.marks f hf
      obtain ⟨h', hmark'⟩ := hx.faithful.marks g hg
      rw [hmark, hmark']
      exact not_apart_of_client ((of_decide_eq_true hfi).trans (of_decide_eq_true hgi).symm)
    · intro f hf i watched queue haction p hp
      obtain ⟨l, r, hsplit⟩ := List.append_of_mem hf
      exact watches_of_arranges hjs hx.grouped hx.faithful.marks hsplit haction hp
        (hx.vigilant.commits l f r hsplit i watched queue haction p hp)
  · intro f hf i watched queue haction
    obtain ⟨cs, hblock, hqueue⟩ := hx.grouped.commits f hf i watched queue haction
    refine ⟨cs, hblock, ?_⟩
    unfold left at hqueue
    split at hqueue
    · cases hrunning : (x.world.clients i).running with
      | none =>
          rw [hrunning] at hqueue
          exact Or.inl ((List.append_nil cs).symm.trans hqueue.symm)
      | some rest =>
          rw [hrunning] at hqueue
          exact Or.inr ⟨rest, rfl, hqueue⟩
    · exact Or.inl ((List.append_nil cs).symm.trans hqueue.symm)

/-- **`EXEC` is isolated** in every run whose steps close no cycle of conflicts and leave no watched version as
    it is behind a write. -/
theorem exec_isolated (cfg : ServerConfig) (srv : Server) (es : List WorldEvent) (x : Chronicle)
    (hes : Along (Chronicle.step cfg) (ClosesNone cfg) (start srv) es)
    (hrun : run (Chronicle.step cfg) (start srv) es = some x) : Isolated cfg srv x :=
  (run_invariant (I := Sound cfg srv) (fun _ _ _ hx hcond h => sound_step hx hcond h) es _ x hes hrun
    (sound_start srv)).isolated

end Chronicle

open Chronicle

/-- `WATCH k`, and a `SET k` in a transaction, with a `GET j` of another connection before the queue is run. -/
theorem exec_isolated_get :
    let _ := shortKeys
    let _ := noScripts
    let _ := incrCodec
    let events := [WorldEvent.plain 0 (.watch [utf8 "k"]), .plain 0 .multi, .plain 0 (.set (utf8 "k") (utf8 "v") none),
      .plain 0 .exec, .plain 1 (.get (utf8 "j")), .next 0, .next 0]
    ∃ x, run (Chronicle.step ⟨none, none, none⟩) (Chronicle.start Server.fresh) events = some x ∧
      x.entries.map Entry.job = [0, 1, 2, 1] ∧ x.Isolated ⟨none, none, none⟩ Server.fresh := by
  intro _ _ _ events
  have hrun : (run (Chronicle.step ⟨none, none, none⟩) (Chronicle.start Server.fresh) events).map
      (fun x => x.entries.map Entry.job) = some [0, 1, 2, 1] := by
    decide
  obtain ⟨x, hx, hjobs⟩ := Option.map_eq_some_iff.mp hrun
  refine ⟨x, hx, hjobs, exec_isolated ⟨none, none, none⟩ Server.fresh events x ?_ hx⟩
  have hstart : Grouped (start Server.fresh) := grouped_start Server.fresh
  refine ⟨closesNone_receive hstart (keepsVersions_control rfl _), fun x₁ h₁ => ?_⟩
  have hx₁ := grouped_step hstart h₁
  refine ⟨closesNone_receive hx₁ (keepsVersions_control rfl _), fun x₂ h₂ => ?_⟩
  have hx₂ := grouped_step hx₁ h₂
  refine ⟨closesNone_receive hx₂ (keepsVersions_of_none (by cases h₁; cases h₂; rfl)), fun x₃ h₃ => ?_⟩
  have hx₃ := grouped_step hx₂ h₃
  refine ⟨closesNone_receive hx₃ (keepsVersions_control rfl _), fun x₄ h₄ => ?_⟩
  have hx₄ := grouped_step hx₃ h₄
  -- the last event is the end of the `EXEC`
  have hlast : ∀ x₆, run (Chronicle.step ⟨none, none, none⟩) (start Server.fresh) (events.take 6) = some x₆ →
      (x₆.does ⟨none, none, none⟩ (.next 0)).1 = none := by
    intro x₆ hx₆
    have hnone : (run (Chronicle.step ⟨none, none, none⟩) (Chronicle.start Server.fresh) (events.take 6)).map
        (fun x => (x.does ⟨none, none, none⟩ (.next 0)).1.isNone) = some true := by
      decide
    rw [hx₆] at hnone
    exact Option.isNone_iff_eq_none.mp (Option.some.inj hnone)
  -- `EXEC` finds the watched shard unchanged
  have hcommit : ∃ queue,
      x₃.does ⟨none, none, none⟩ (.plain 0 .exec) = (some (.commit 0 [(utf8 "k", 0)] queue), []) := by
    have hsame : (x₃.world.clients 0).conn.tx.anyWatchedChanged x₃.world.server.versions = false := by
      cases h₁
      cases h₂
      cases h₃
      decide
    have hwatching : x₃.watching 0 = [(utf8 "k", 0)] := by
      cases h₁
      cases h₂
      cases h₃
      rfl
    have hqueue : ∃ queue, (x₃.world.clients 0).conn.tx.queue = some queue := by
      cases h₁
      cases h₂
      cases h₃
      exact ⟨_, rfl⟩
    obtain ⟨queue, hqueue⟩ := hqueue
    refine ⟨queue, (does_control rfl _).trans ?_⟩
    show x₃.controls 0 .exec = _
    simp only [controls, hqueue, hsame, hwatching, Bool.false_eq_true, if_false]
  obtain ⟨queue, hcommit⟩ := hcommit
  have hother : ∀ j, j ≠ 0 → x₄.world.clients j = Client.new := by
    intro j hj
    rw [(step_turn h₄).1.clients j hj, (step_turn h₃).1.clients j hj, (step_turn h₂).1.clients j hj,
      (step_turn h₁).1.clients j hj]
    rfl
  have hget : (x₄.does ⟨none, none, none⟩ (.plain 1 (.get (utf8 "j")))).1
      = some (.command 1 (Request.plain (durationSecs 1) (.get (utf8 "j"))).readings ⟨.get (utf8 "j"), rfl⟩) := by
    refine (congrArg Prod.fst (does_plain (x := x₄) (i := 1) ⟨.get (utf8 "j"), rfl⟩ _)).trans ?_
    rw [hother 1 Nat.one_ne_zero]
    rfl
  refine ⟨closesNone_receive hx₄ ?_, fun x₅ h₅ => ⟨⟨?_, ?_⟩, fun x₆ h₆ =>
    ⟨closesNone_of_none (hlast x₆ ?_), fun _ _ => trivial⟩⟩⟩
  · rintro i rd c hdoes j s version - ⟨w, hw, -⟩
    cases hget.symm.trans hdoes
    cases hw
  · -- only the test of the `EXEC` is before the `GET`, and they are apart
    intro f hf
    have hjob : f.job = 1 := by
      obtain ⟨_, -, rfl⟩ := Option.map_eq_some_iff.mp hf
      show x₅.job 0 = 1
      rw [(step_turn h₅).1.job 0 Nat.zero_ne_one]
      cases h₁
      cases h₂
      cases h₃
      cases h₄
      rfl
    obtain ⟨watches, hwatches, hentries₃⟩ : ∃ watches, watches.job = 0 ∧ x₃.entries = [watches] := by
      cases h₁
      cases h₂
      cases h₃
      exact ⟨_, rfl, rfl⟩
    have hentries₄ := entries_step h₄
    rw [entry, hcommit, hentries₃] at hentries₄
    have hentries₅ := entries_step h₅
    rw [entry, hget, hentries₄] at hentries₅
    refine not_closes_of_apart ?_
    rw [hentries₅, hjob]
    refine List.pairwise_cons.mpr ⟨fun z hz hw => ?_, List.pairwise_cons.mpr ⟨fun z hz _ _ => ?_, ?_⟩⟩
    · cases hwatches.symm.trans hw
    · cases List.mem_singleton.mp hz
      refine apart_commit Nat.zero_ne_one fun p hp hno => ?_
      cases hno.2.1
    · exact List.pairwise_singleton _ _
  · -- nobody watches anything any more
    have hfirst : ∀ s, (x₄.world.clients 0).conn.tx.watched s = none := by
      cases h₁
      cases h₂
      cases h₃
      cases h₄
      decide
    have hsecond : ∀ s, (x₅.world.clients 1).conn.tx.watched s = none := by
      cases h₁
      cases h₂
      cases h₃
      cases h₄
      cases h₅
      decide
    intro i rd c _ j s version hwatched
    exfalso
    by_cases hj : j = 0
    · rw [hj, (step_turn h₅).1.clients 0 Nat.zero_ne_one, hfirst] at hwatched
      cases hwatched
    · by_cases hj' : j = 1
      · rw [hj', hsecond] at hwatched
        cases hwatched
      · rw [(step_turn h₅).1.clients j hj', hother j hj] at hwatched
        cases hwatched
  · exact run_cons.mpr ⟨x₁, h₁, run_cons.mpr ⟨x₂, h₂, run_cons.mpr ⟨x₃, h₃, run_cons.mpr ⟨x₄, h₄, run_cons.mpr
      ⟨x₅, h₅, run_cons.mpr ⟨x₆, h₆, rfl⟩⟩⟩⟩⟩⟩

/-- Another connection's `SET` between the `SET` and the `GET` of an `EXEC`: no order of the two gives the same
    replies. -/
theorem exec_interleaved :
    let _ := shortKeys
    let _ := noScripts
    let _ := incrCodec
    let _ := noEscapes
    let events := [WorldEvent.frame 0 [utf8 "MULTI"], .frame 0 [utf8 "SET", utf8 "k", utf8 "1"],
      .frame 0 [utf8 "GET", utf8 "k"], .frame 0 [utf8 "EXEC"], .next 0,
      .frame 1 [utf8 "SET", utf8 "k", utf8 "2"], .next 0, .next 0]
    ∃ x, run (Chronicle.step ⟨none, none, none⟩) (Chronicle.start Server.fresh) events = some x ∧
      ¬ x.Isolated ⟨none, none, none⟩ Server.fresh := by
  intro _ _ _ _ events
  have hrun : (run (Chronicle.step ⟨none, none, none⟩) (Chronicle.start Server.fresh) events).map
      (fun x => (x.entries.map Entry.job,
        [[0, 2], [2, 0]].map fun js =>
          decide ((doAll ⟨none, none, none⟩ ((serial js x.entries).map Entry.action) (World.start Server.fresh).scene).1
            = (serial js x.entries).map fun e => e.mark.reply)))
        = some ([0, 0, 2, 0], [false, false]) := by
    decide
  obtain ⟨x, hx, hfacts⟩ := Option.map_eq_some_iff.mp hrun
  simp only [Prod.mk.injEq, List.map_cons, List.map_nil, List.cons.injEq, decide_eq_false_iff_not, and_true] at hfacts
  obtain ⟨hjobs, hfirst, hsecond⟩ := hfacts
  refine ⟨x, hx, fun hisolated => ?_⟩
  obtain ⟨js, hjs⟩ := hisolated.order
  -- the two jobs, in one order or the other
  have hperm : js.Perm [0, 2] := by
    rw [List.perm_ext_iff_of_nodup hjs.nodup (by decide)]
    intro j
    rw [hjs.jobs, ← List.mem_map, hjobs]
    simp [or_comm]
  rcases List.perm_pair.mp hperm with rfl | rfl
  · exact hfirst hjs.replies
  · exact hsecond hjs.replies

end FerricCache
