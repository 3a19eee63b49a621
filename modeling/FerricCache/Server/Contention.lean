import FerricCache.Lib.Serial
import FerricCache.Persistence.ScriptWrites
import FerricCache.Server.Chokepoint

/-!
# `FerricCache.Server.Contention` — what a command looks at and what it writes

The replies of a command depend on entries of the storage, on the script cache, on the Pub/Sub registry and on its own
connection. `looks` and `alters` say on which of these, for a command that runs from a given state: the keys of a
command are those of its `footprint`, those of a script are the ones its calls name. A command is **confined** to them
(`executePlain_within`): whatever else differs, it replies the same and writes the same, and it leaves the rest alone.
-/

namespace FerricCache

/-- A part of the server that replies can depend on. -/
inductive Shared
  | entry (key : Bytes)
  | script (sha1 : Bytes)
  | registry

/-- What a part of the server, or a connection, holds. Of a mailbox only counts whether it is closed. -/
inductive Datum
  | entry (slot : Slot)
  | script (source : Option Bytes)
  | registry (channels : Std.ExtTreeMap Bytes (List Nat)) (closed : List Bool)
  | conn (user : Option Bytes) (sub : SubscriberState)

variable [KeyHash]

/-- What the server holds. -/
def Server.look (srv : Server) : Shared → Datum
  | .entry key => .entry (srv.storage.slotAt key)
  | .script sha1 => .script srv.scripts[sha1]?
  | .registry => .registry srv.pubsub.channels (srv.pubsub.mailboxes.map Mailbox.closed)

omit [KeyHash] in
/-- The entries of some keys, or all of them. -/
def entriesOf : Option (List Bytes) → Set Shared
  | some keys => {x | ∃ k ∈ keys, x = .entry k}
  | none => {x | ∃ k, x = .entry k}

omit [KeyHash] in
/-- The entries that some writes are on. -/
def entriesWritten (ws : List Command) : Set Shared := {x | ∃ w ∈ ws, ∃ k, touchesKey w k = true ∧ x = .entry k}

omit [KeyHash] in
/-- Transaction state is no matter of the other commands. -/
structure SameConn (conn conn' : ConnState) : Prop where
  user : conn'.authedUser = conn.authedUser
  sub : conn'.sub = conn.sub

/-- The second outcome repeats the first: the reply, what is written in `W`, and nothing else. -/
structure Repeats (W : Set Shared) (srv' : Server) (o o' : Outcome) : Prop where
  reply : o'.1 = o.1
  conn : SameConn o.2.2 o'.2.2
  writes : ∀ x ∈ W, o'.2.1.look x = o.2.1.look x
  frame : ∀ x ∉ W, o'.2.1.look x = srv'.look x

/-- Where the server holds the same in `L`, the operation does the same, and writes in `W` only. -/
def Within (L W : Set Shared) (f : Server → ConnState → Outcome) (srv : Server) (conn : ConnState) : Prop :=
  ∀ srv' conn', (∀ x ∈ L, srv'.look x = srv.look x) → SameConn conn conn' →
    Repeats W srv' (f srv conn) (f srv' conn')

/-! ## Storage commands -/

theorem agreeOn_of_look {F : Option (List Bytes)} {srv srv' : Server}
    (h : ∀ x ∈ entriesOf F, srv'.look x = srv.look x) : AgreeOn F srv'.storage srv.storage := by
  have hslot : ∀ k, .entry k ∈ entriesOf F → srv'.storage.slotAt k = srv.storage.slotAt k :=
    fun k hk => Datum.entry.inj (h _ hk)
  cases F with
  | some keys => exact fun k hk => hslot k ⟨k, hk, rfl⟩
  | none => exact CacheStorage.ext_entry fun k => hslot k ⟨k, rfl⟩

/-- An operation on the storage is confined to its footprint. -/
theorem within_storage {F : Option (List Bytes)} {g : CacheStorage → Option Response × CacheStorage} (hg : LocalTo F g)
    (srv : Server) (conn : ConnState) :
    Within (entriesOf F) (entriesOf F)
      (fun srv conn => ((g srv.storage).1, { srv with storage := (g srv.storage).2 }, conn)) srv conn := by
  intro srv' conn' hL hconn
  have hagree := agreeOn_of_look hL
  refine ⟨hg.reply _ _ hagree, hconn, ?_, ?_⟩
  · have hafter := hg.agree _ _ hagree
    intro x hx
    cases F with
    | some keys =>
        obtain ⟨k, hk, rfl⟩ := hx
        exact congrArg Datum.entry (hafter k hk)
    | none =>
        obtain ⟨k, rfl⟩ := hx
        exact congrArg (fun s : CacheStorage => Datum.entry (s.slotAt k)) hafter
  · intro x hx
    cases x with
    | entry k =>
        cases F with
        | some keys => exact congrArg Datum.entry (hg.frame _ k keys rfl fun hk => hx ⟨k, hk, rfl⟩)
        | none => exact absurd ⟨k, rfl⟩ hx
    | script sha1 => rfl
    | registry => rfl

/-- An operation that only reads writes nothing. -/
theorem within_read {F : Option (List Bytes)} {g : CacheStorage → Option Response × CacheStorage} (hg : LocalTo F g)
    (hread : ∀ s, (g s).2 = s) (srv : Server) (conn : ConnState) :
    Within (entriesOf F) ∅
      (fun srv conn => ((g srv.storage).1, { srv with storage := (g srv.storage).2 }, conn)) srv conn := by
  intro srv' conn' hL hconn
  refine ⟨hg.reply _ _ (agreeOn_of_look hL), hconn, fun x hx => hx.elim, fun x _ => ?_⟩
  show Server.look { srv' with storage := (g srv'.storage).2 } x = _
  rw [hread]

/-! ## Scripts -/

/-- The keys that the calls of a run name. -/
def scriptKeys [Lua] (envs : Nat → Env) (acl : AclCheck) : Nat → Script → CacheStorage → List Bytes
  | _, .done _, _ => []
  | n, .call cmd args next, s =>
      let r := redisCallBridge (envs n) acl cmd args s
      bridgeKeys cmd args ++ scriptKeys envs acl (n + 1) (next r.1.1) r.2

/-- A recorded write is on the key that the call may write. -/
theorem CallDone.written_of_touches {s : CacheStorage} {written : Option Bytes}
    {r : (Response × List Command) × CacheStorage} (h : CallDone s written r) {w : Command} {k : Bytes} (hw : w ∈ r.1.2)
    (hk : touchesKey w k = true) : written = some k := by
  cases h with
  | nothing reply => cases hw
  | wrote reply hc hkey hreplay =>
      cases List.mem_singleton.mp hw
      rw [hkey, List.mem_singleton.mp (touchesKey_iff.mp hk _ hc.keys)]

omit [KeyHash] in
/-- A call names the key that it may write. -/
theorem mem_bridgeKeys {cmd : Bytes} {args : List Bytes} {k : Bytes} (h : writtenKey cmd args = some k) :
    k ∈ bridgeKeys cmd args := by
  obtain ⟨op, hop, hk⟩ := Option.bind_eq_some_iff.mp h
  have hexists : toAsciiUppercase cmd ≠ utf8 "EXISTS" := by
    intro he
    rw [he, bridgeOp_of_exists] at hop
    cases hop
    cases hk
  have hhead : args.head? = some k := by
    cases op <;> first | exact hk | cases hk
  unfold bridgeKeys
  rw [if_neg hexists]
  cases args with
  | nil => cases hhead
  | cons key args =>
      cases hhead
      exact List.mem_singleton_self k

section Scripts

variable [Lua] {envs : Nat → Env} {acl : AclCheck}

/-- A key that no recorded write is on is as it was. -/
theorem runScript_frame (n : Nat) (script : Script) (s : CacheStorage) {k : Bytes}
    (hk : ∀ w ∈ (runScript envs acl n script s).1.2, touchesKey w k = false) :
    (runScript envs acl n script s).2.slotAt k = s.slotAt k := by
  induction script generalizing n s with
  | done r => rfl
  | call cmd args next ih =>
      have hcall : (redisCallBridge (envs n) acl cmd args s).2.slotAt k = s.slotAt k := by
        rcases (callDone_redisCallBridge (s := s) (envs n) acl cmd args).records k with hsame | ⟨w, hw, -, htouches⟩
        · exact hsame
        · exact absurd htouches (by rw [hk w (List.mem_append_left _ hw)]; exact Bool.false_ne_true)
      exact (ih _ _ _ fun w hw => hk w (List.mem_append_right _ hw)).trans hcall

/-- A run writes where its calls say. -/
theorem mem_scriptKeys_of_touches (n : Nat) (script : Script) (s : CacheStorage) {w : Command} {k : Bytes}
    (hw : w ∈ (runScript envs acl n script s).1.2) (hk : touchesKey w k = true) :
    k ∈ scriptKeys envs acl n script s := by
  induction script generalizing n s with
  | done r => cases hw
  | call cmd args next ih =>
      rcases List.mem_append.mp hw with hw | hw
      · have hwritten := (callDone_redisCallBridge (s := s) (envs n) acl cmd args).written_of_touches hw hk
        exact List.mem_append_left _ (mem_bridgeKeys hwritten)
      · exact List.mem_append_right _ (ih _ _ _ hw)

/-- Where the storages agree on the keys a run names, it makes the same calls, and they agree afterwards wherever they
    did. -/
theorem runScript_agree (n : Nat) (script : Script) {s t : CacheStorage}
    (hst : ∀ k ∈ scriptKeys envs acl n script s, t.slotAt k = s.slotAt k) :
    (runScript envs acl n script t).1 = (runScript envs acl n script s).1 ∧
      ∀ k, t.slotAt k = s.slotAt k →
        (runScript envs acl n script t).2.slotAt k = (runScript envs acl n script s).2.slotAt k := by
  induction script generalizing n s t with
  | done r => exact ⟨rfl, fun k hk => hk⟩
  | call cmd args next ih =>
      have hlocal := redisCallBridge_local (envs n) acl cmd args
      have hagree : AgreeOn (some (bridgeKeys cmd args)) t s := fun k hk => hst k (List.mem_append_left _ hk)
      have hreply := hlocal.reply t s hagree
      have hafter : ∀ k, t.slotAt k = s.slotAt k →
          (redisCallBridge (envs n) acl cmd args t).2.slotAt k
            = (redisCallBridge (envs n) acl cmd args s).2.slotAt k := by
        intro k hk
        by_cases hmem : k ∈ bridgeKeys cmd args
        · exact hlocal.agree t s hagree k hmem
        · rw [hlocal.frame t k _ rfl hmem, hlocal.frame s k _ rfl hmem, hk]
      obtain ⟨hrest, hslots⟩ := ih (redisCallBridge (envs n) acl cmd args s).1.1 (n + 1)
        (t := (redisCallBridge (envs n) acl cmd args t).2) fun k hk => hafter k (hst k (List.mem_append_right _ hk))
      unfold runScript
      dsimp only
      rw [hreply]
      exact ⟨by rw [hrest], fun k hk => hslots k (hafter k hk)⟩

variable [Codec]

omit [Lua] in
theorem look_logWrite (srv : Server) (timestamp : UInt64) (c : Command) :
    (srv.logWrite timestamp c).look = srv.look := by
  funext x
  cases x <;> rfl

omit [Lua] in
theorem look_persistScriptWrites (srv : Server) (stamp : Nat → UInt64) (n : Nat) (ws : List Command) :
    (srv.persistScriptWrites stamp n ws).look = srv.look := by
  induction ws generalizing srv n with
  | nil => rfl
  | cons w ws ih => exact (ih _ _).trans (look_logWrite srv (stamp n) w)

/-- The writes that a loaded script makes. -/
def scriptWrites (cfg : ServerConfig) (rd : Readings) (source : Bytes) (keys argv : List Bytes) (srv : Server)
    (conn : ConnState) : List Command :=
  (runScript rd.call (buildScriptAcl cfg.auth conn.authedUser) 0 (Lua.eval rd.env source keys argv) srv.storage).1.2

/-- The keys that it looks at. -/
def scriptLooks (cfg : ServerConfig) (rd : Readings) (source : Bytes) (keys argv : List Bytes) (srv : Server)
    (conn : ConnState) : List Bytes :=
  scriptKeys rd.call (buildScriptAcl cfg.auth conn.authedUser) 0 (Lua.eval rd.env source keys argv) srv.storage

/-- **A script is confined to the keys its calls name.** -/
theorem within_runLoaded (cfg : ServerConfig) (rd : Readings) (source : Bytes) (keys argv : List Bytes) (srv : Server)
    (conn : ConnState) :
    Within (entriesOf (some (scriptLooks cfg rd source keys argv srv conn)))
      (entriesWritten (scriptWrites cfg rd source keys argv srv conn)) (runLoaded cfg rd source keys argv) srv
      conn := by
  intro srv' conn' hL hconn
  have hagree := agreeOn_of_look hL
  have hrun := runScript_agree 0 (Lua.eval rd.env source keys argv) hagree
  unfold runLoaded
  rw [hconn.user]
  refine ⟨congrArg (fun r : Option Response × List Command => r.1) hrun.1, hconn, ?_, ?_⟩
  · rintro x ⟨w, hw, k, hk, rfl⟩
    rw [look_persistScriptWrites, look_persistScriptWrites]
    exact congrArg Datum.entry (hrun.2 k (hagree k (mem_scriptKeys_of_touches 0 _ _ hw hk)))
  · intro x hx
    rw [look_persistScriptWrites]
    cases x with
    | entry k =>
        refine congrArg Datum.entry (runScript_frame 0 _ _ fun w hw => ?_)
        rw [hrun.1] at hw
        exact Bool.eq_false_iff.mpr fun hk => hx ⟨w, hw, k, hk, rfl⟩
    | script sha1 => rfl
    | registry => rfl

end Scripts

/-! ## Pub/Sub -/

omit [KeyHash] in
/-- The registries have the same channels and the same closed mailboxes. -/
structure PubSub.Alike (ps ps' : PubSub) : Prop where
  channels : ps'.channels = ps.channels
  closed : ps'.mailboxes.map Mailbox.closed = ps.mailboxes.map Mailbox.closed

section Registry

omit [KeyHash]

variable {ps ps' : PubSub}

theorem PubSub.Alike.isClosed (h : ps.Alike ps') : ps'.isClosed = ps.isClosed := by
  funext tx
  have hclosed := congrArg (fun l => l[tx]?) h.closed
  simp only [List.getElem?_map] at hclosed
  unfold PubSub.isClosed
  rw [hclosed]

theorem PubSub.Alike.trans {ps'' : PubSub} (h : ps.Alike ps') (h' : ps'.Alike ps'') : ps.Alike ps'' :=
  ⟨h'.channels.trans h.channels, h'.closed.trans h.closed⟩

theorem alike_send (msg : PubSubMessage) (ps : PubSub) (tx : Nat) : ps.Alike (ps.send msg tx) := by
  refine ⟨rfl, List.ext_getElem? fun i => ?_⟩
  unfold PubSub.send
  rw [List.getElem?_map, List.getElem?_map, List.getElem?_modify]
  cases ps.mailboxes[i]? with
  | none => rfl
  | some box =>
      show some (Mailbox.closed (if tx = i then _ else _)) = _
      split
      · rw [Option.map_some]
        split <;> rfl
      · rfl

/-- Messages are no matter of the registry. -/
theorem alike_publish (ps : PubSub) (channel payload : Bytes) : ps.Alike (ps.publish channel payload).2 := by
  have hloop : ∀ (list : List Nat) (ps : PubSub),
      ps.Alike (list.foldl (fun ps tx => ps.send ⟨channel, payload⟩ tx) ps) := by
    intro list
    induction list with
    | nil => exact fun ps => ⟨rfl, rfl⟩
    | cons tx list ih => exact fun ps => (alike_send _ ps tx).trans (ih _)
  unfold PubSub.publish
  cases ps.channels[channel]? with
  | none => exact ⟨rfl, rfl⟩
  | some list => exact hloop list ps

theorem PubSub.Alike.publish (h : ps.Alike ps') (channel payload : Bytes) :
    (ps'.publish channel payload).1 = (ps.publish channel payload).1 := by
  unfold PubSub.publish
  rw [h.channels, h.isClosed]
  cases ps.channels[channel]? <;> rfl

theorem PubSub.Alike.ensureSender (h : ps.Alike ps') (sub : SubscriberState) :
    (sub.ensureSender ps').1 = (sub.ensureSender ps).1 ∧ (sub.ensureSender ps').2.1 = (sub.ensureSender ps).2.1 ∧
      (sub.ensureSender ps).2.2.Alike (sub.ensureSender ps').2.2 := by
  unfold SubscriberState.ensureSender
  cases sub.tx with
  | some tx => exact ⟨rfl, rfl, h⟩
  | none =>
      -- the next mailbox has the same number
      have hlength : ps'.mailboxes.length = ps.mailboxes.length := by
        simpa using congrArg List.length h.closed
      refine ⟨hlength, by rw [hlength], h.channels, ?_⟩
      rw [List.map_append, List.map_append, h.closed]

theorem PubSub.Alike.subscribe (h : ps.Alike ps') (channel : Bytes) (tx : Nat) :
    (ps.subscribe channel tx).Alike (ps'.subscribe channel tx) := by
  refine ⟨?_, h.closed⟩
  unfold PubSub.subscribe
  rw [h.channels]

theorem PubSub.Alike.pruneClosed (h : ps.Alike ps') (channel : Bytes) :
    (ps.pruneClosed channel).Alike (ps'.pruneClosed channel) := by
  unfold PubSub.pruneClosed
  rw [h.channels, h.isClosed]
  cases ps.channels[channel]? with
  | none => exact h
  | some list => exact ⟨rfl, h.closed⟩

theorem PubSub.Alike.subscribeLoop (h : ps.Alike ps') (channels : List Bytes) (sub : SubscriberState) :
    (FerricCache.subscribeLoop channels (sub, ps')).1 = (FerricCache.subscribeLoop channels (sub, ps)).1 ∧
      (FerricCache.subscribeLoop channels (sub, ps')).2.1 = (FerricCache.subscribeLoop channels (sub, ps)).2.1 ∧
      (FerricCache.subscribeLoop channels (sub, ps)).2.2.Alike (FerricCache.subscribeLoop channels (sub, ps')).2.2 := by
  induction channels generalizing sub ps ps' with
  | nil => exact ⟨rfl, rfl, h⟩
  | cons ch rest ih =>
      obtain ⟨htx, hsub, halike⟩ := h.ensureSender sub
      unfold FerricCache.subscribeLoop
      dsimp only
      rw [htx, hsub]
      obtain ⟨hout, hsub', hps⟩ := ih (halike.subscribe ch _)
        (if (sub.ensureSender ps).2.1.channels.contains ch then (sub.ensureSender ps).2.1
          else { (sub.ensureSender ps).2.1 with channels := (sub.ensureSender ps).2.1.channels ++ [ch] })
      exact ⟨by rw [hout], hsub', hps⟩

theorem PubSub.Alike.unsubscribeLoop (h : ps.Alike ps') (channels : List Bytes) (sub : SubscriberState) :
    (FerricCache.unsubscribeLoop channels (sub, ps')).1 = (FerricCache.unsubscribeLoop channels (sub, ps)).1 ∧
      (FerricCache.unsubscribeLoop channels (sub, ps')).2.1 = (FerricCache.unsubscribeLoop channels (sub, ps)).2.1 ∧
      (FerricCache.unsubscribeLoop channels (sub, ps)).2.2.Alike
        (FerricCache.unsubscribeLoop channels (sub, ps')).2.2 := by
  induction channels generalizing sub ps ps' with
  | nil => exact ⟨rfl, rfl, h⟩
  | cons ch rest ih =>
      unfold FerricCache.unsubscribeLoop
      dsimp only
      obtain ⟨hout, hsub, hps⟩ := ih (h.pruneClosed ch) { sub with channels := sub.channels.filter fun c => c != ch }
      exact ⟨by rw [hout], hsub, hps⟩

end Registry

/-! ## Any command -/

section Any

variable [Lua] [Codec]

/-- What a command that passed the gates looks at, from here. -/
def performLooks (cfg : ServerConfig) (rd : Readings) (c : Command) (srv : Server) (conn : ConnState) : Set Shared :=
  match c with
  | .luaEval script keys argv => entriesOf (some (scriptLooks cfg rd script keys argv srv conn))
  | .luaEvalSha sha1 keys argv =>
      {.script (sha1.map F64.lowerAscii)} ∪
        {x | ∃ source, srv.scripts[sha1.map F64.lowerAscii]? = some source ∧
          x ∈ entriesOf (some (scriptLooks cfg rd source keys argv srv conn))}
  | .publish _ _ | .subscribe _ | .unsubscribe _ => {.registry}
  | c => entriesOf (footprint c)

/-- What it writes. -/
def performAlters (cfg : ServerConfig) (rd : Readings) (c : Command) (srv : Server) (conn : ConnState) : Set Shared :=
  match c with
  | .luaEval script keys argv =>
      {.script (Lua.sha1Hex script)} ∪ entriesWritten (scriptWrites cfg rd script keys argv srv conn)
  | .luaEvalSha sha1 keys argv =>
      {x | ∃ source, srv.scripts[sha1.map F64.lowerAscii]? = some source ∧
        x ∈ entriesWritten (scriptWrites cfg rd source keys argv srv conn)}
  | .subscribe _ | .unsubscribe _ => {.registry}
  | c => {x | isWriteCommand c = true ∧ x ∈ entriesOf (footprint c)}

/-- What a command looks at: nothing when a gate refuses it. -/
def looks (cfg : ServerConfig) (rd : Readings) (c : Command) (srv : Server) (conn : ConnState) : Set Shared :=
  {x | gate cfg conn c = none ∧ x ∈ performLooks cfg rd c srv conn}

/-- What a command writes. -/
def alters (cfg : ServerConfig) (rd : Readings) (c : Command) (srv : Server) (conn : ConnState) : Set Shared :=
  {x | gate cfg conn c = none ∧ x ∈ performAlters cfg rd c srv conn}

omit [Lua] [Codec] in
theorem alike_of_look {srv srv' : Server} (h : srv'.look .registry = srv.look .registry) :
    srv.pubsub.Alike srv'.pubsub := by
  obtain ⟨hchannels, hclosed⟩ := Datum.registry.inj h
  exact ⟨hchannels, hclosed⟩

omit [Lua] [Codec] in
theorem look_of_alike {srv srv' : Server} (h : srv.pubsub.Alike srv'.pubsub) :
    srv'.look .registry = srv.look .registry := by
  unfold Server.look
  rw [h.channels, h.closed]

omit [Lua] [Codec] in
/-- A change of subscriptions is confined to the registry. -/
theorem within_registry {f : SubscriberState × PubSub → Bytes × SubscriberState × PubSub}
    (hf : ∀ (ps ps' : PubSub) sub, ps.Alike ps' → (f (sub, ps')).1 = (f (sub, ps)).1 ∧
      (f (sub, ps')).2.1 = (f (sub, ps)).2.1 ∧ (f (sub, ps)).2.2.Alike (f (sub, ps')).2.2) (srv : Server)
    (conn : ConnState) :
    Within {.registry} {.registry} (fun srv conn => (some (.raw (f (conn.sub, srv.pubsub)).1),
      { srv with pubsub := (f (conn.sub, srv.pubsub)).2.2 }, { conn with sub := (f (conn.sub, srv.pubsub)).2.1 }))
      srv conn := by
  intro srv' conn' hL hconn
  obtain ⟨hreply, hsub, halike⟩ := hf _ _ conn.sub (alike_of_look (hL .registry rfl))
  dsimp only
  rw [hconn.sub]
  refine ⟨congrArg (fun out => some (Response.raw out)) hreply, ⟨hconn.user, hsub⟩, ?_, ?_⟩
  · rintro x rfl
    exact look_of_alike halike
  · intro x hx
    cases x with
    | entry k => rfl
    | script sha1 => rfl
    | registry => exact absurd rfl hx

omit [Lua] [Codec] in
/-- Publishing looks at the registry and leaves it alone. -/
theorem within_publish (channel payload : Bytes) (srv : Server) (conn : ConnState) :
    Within {.registry} ∅ (fun srv conn => (some (Reply.count (srv.pubsub.publish channel payload).1),
      { srv with pubsub := (srv.pubsub.publish channel payload).2 }, conn)) srv conn := by
  intro srv' conn' hL hconn
  have hreply := (alike_of_look (hL .registry rfl)).publish channel payload
  refine ⟨congrArg (fun n => some (Reply.count n)) hreply, hconn, fun x hx => hx.elim, fun x _ => ?_⟩
  cases x with
  | entry k => rfl
  | script sha1 => rfl
  | registry => exact look_of_alike (alike_publish _ _ _)

omit [Lua] [Codec] in
/-- `AUTH` works on the connection only. -/
theorem within_auth (auth : Option AuthManager) (username : Option Bytes) (password : Bytes) (srv : Server)
    (conn : ConnState) (L : Set Shared) : Within L ∅ (authArm auth username password) srv conn := by
  intro srv' conn' _ hconn
  unfold authArm
  cases auth with
  | none => exact ⟨rfl, hconn, fun x hx => hx.elim, fun x _ => rfl⟩
  | some am =>
      dsimp only
      split
      · exact ⟨rfl, ⟨rfl, hconn.sub⟩, fun x hx => hx.elim, fun x _ => rfl⟩
      · exact ⟨rfl, hconn, fun x hx => hx.elim, fun x _ => rfl⟩

omit [Lua] [Codec] in
/-- Loading a script touches its place in the cache only. -/
theorem look_load (srv : Server) (sha1 source : Bytes) {x : Shared} (hx : x ≠ .script sha1) :
    { srv with scripts := srv.scripts.insert sha1 source }.look x = srv.look x := by
  cases x with
  | entry k => rfl
  | script sha =>
      have hne : sha1 ≠ sha := fun h => hx (by rw [h])
      show Datum.script (srv.scripts.insert sha1 source)[sha]? = _
      rw [Std.ExtTreeMap.getElem?_insert, if_neg (by simpa using hne)]
      rfl
  | registry => rfl

omit [Lua] [Codec] in
theorem look_load_self (srv : Server) (sha1 source : Bytes) :
    { srv with scripts := srv.scripts.insert sha1 source }.look (.script sha1) = .script (some source) := by
  show Datum.script (srv.scripts.insert sha1 source)[sha1]? = _
  rw [Std.ExtTreeMap.getElem?_insert_self]

omit [KeyHash] [Lua] [Codec] in
theorem not_mem_entriesWritten {ws : List Command} {x : Shared} (h : ∀ k, x ≠ .entry k) : x ∉ entriesWritten ws := by
  rintro ⟨w, -, k, -, rfl⟩
  exact h k rfl

omit [KeyHash] [Lua] [Codec] in
theorem SameConn.refl (conn : ConnState) : SameConn conn conn := ⟨rfl, rfl⟩

/-- `EVAL` loads its script and runs it. -/
theorem within_luaEval (cfg : ServerConfig) (rd : Readings) (script : Bytes) (keys argv : List Bytes) (srv : Server)
    (conn : ConnState) :
    Within (performLooks cfg rd (.luaEval script keys argv) srv conn)
      (performAlters cfg rd (.luaEval script keys argv) srv conn) (perform cfg rd (.luaEval script keys argv)) srv
      conn := by
  intro srv' conn' hL hconn
  let load := fun srv : Server => { srv with scripts := srv.scripts.insert (Lua.sha1Hex script) script }
  have hlook : ∀ x ∈ entriesOf (some (scriptLooks cfg rd script keys argv (load srv) conn)),
      (load srv').look x = (load srv).look x := by
    rintro x ⟨k, hk, rfl⟩
    exact hL _ ⟨k, hk, rfl⟩
  have hrun := within_runLoaded cfg rd script keys argv (load srv) conn
  obtain ⟨hreply, hconn', hwrites, hframe⟩ := hrun (load srv') conn' hlook hconn
  have hframe₀ := (hrun (load srv) conn (fun _ _ => rfl) (.refl conn)).frame
  refine ⟨hreply, hconn', ?_, ?_⟩
  · rintro x (rfl | hx)
    · -- the cache holds the script, whatever it held before
      have hout : Shared.script (Lua.sha1Hex script)
          ∉ entriesWritten (scriptWrites cfg rd script keys argv (load srv) conn) :=
        not_mem_entriesWritten fun k h => by cases h
      exact (hframe _ hout).trans
        ((look_load_self srv' _ _).trans ((look_load_self srv _ _).symm.trans (hframe₀ _ hout).symm))
    · exact hwrites x hx
  · intro x hx
    refine (hframe x fun h => hx (Or.inr h)).trans (look_load srv' _ _ ?_)
    rintro rfl
    exact hx (Or.inl rfl)

/-- `EVALSHA` looks its script up and runs it. -/
theorem within_luaEvalSha (cfg : ServerConfig) (rd : Readings) (sha1 : Bytes) (keys argv : List Bytes) (srv : Server)
    (conn : ConnState) :
    Within (performLooks cfg rd (.luaEvalSha sha1 keys argv) srv conn)
      (performAlters cfg rd (.luaEvalSha sha1 keys argv) srv conn) (perform cfg rd (.luaEvalSha sha1 keys argv)) srv
      conn := by
  intro srv' conn' hL hconn
  have hscript : srv'.scripts[sha1.map F64.lowerAscii]? = srv.scripts[sha1.map F64.lowerAscii]? :=
    Datum.script.inj (hL (.script _) (Or.inl rfl))
  unfold perform
  dsimp only
  rw [hscript]
  cases hsource : srv.scripts[sha1.map F64.lowerAscii]? with
  | none =>
      refine ⟨rfl, hconn, ?_, fun x _ => rfl⟩
      rintro x ⟨source, hno, -⟩
      cases hsource.symm.trans hno
  | some source =>
      have hlook : ∀ x ∈ entriesOf (some (scriptLooks cfg rd source keys argv srv conn)), srv'.look x = srv.look x :=
        fun x hx => hL x (Or.inr ⟨source, hsource, hx⟩)
      obtain ⟨hreply, hconn', hwrites, hframe⟩ :=
        within_runLoaded cfg rd source keys argv srv conn srv' conn' hlook hconn
      refine ⟨hreply, hconn', ?_, fun x hx => hframe x fun h => hx ⟨source, hsource, h⟩⟩
      rintro x ⟨source', hsource', hx⟩
      cases hsource.symm.trans hsource'
      exact hwrites x hx

omit [Codec] in
theorem performLooks_of_arm {rd : Readings} {c : Command} {a : Arm} (h : arm rd.env c = some a) (cfg : ServerConfig)
    (srv : Server) (conn : ConnState) :
    performLooks cfg rd c srv conn = entriesOf (footprint c) ∧
      performAlters cfg rd c srv conn = {x | isWriteCommand c = true ∧ x ∈ entriesOf (footprint c)} := by
  cases c <;> first | (cases h; done) | exact ⟨rfl, rfl⟩

theorem within_perform (cfg : ServerConfig) (rd : Readings) (c : QueuedCommand) (srv : Server) (conn : ConnState) :
    Within (performLooks cfg rd c srv conn) (performAlters cfg rd c srv conn) (perform cfg rd c) srv conn := by
  obtain ⟨c, htx⟩ := c
  cases hs : sessionCommand c with
  | false =>
      obtain ⟨a, ha⟩ := arm_isSome rd.env htx hs
      have hperform : perform cfg rd c
          = fun srv conn => ((a.run srv.storage).1, { srv with storage := (a.run srv.storage).2 }, conn) := by
        funext srv conn
        exact perform_arm ha srv conn
      obtain ⟨hlooks, halters⟩ := performLooks_of_arm ha cfg srv conn
      show Within (performLooks cfg rd c srv conn) (performAlters cfg rd c srv conn) (perform cfg rd c) srv conn
      -- a storage command is its arm, local to its footprint
      rw [hperform, hlooks, halters]
      cases hw : isWriteCommand c with
      | true =>
          simp only [true_and, Set.ofPred_mem_eq]
          exact within_storage (arm_local ha) srv conn
      | false =>
          simp only [Bool.false_eq_true, false_and, Set.ofPred_false]
          exact within_read (arm_local ha) (run_read ha hw) srv conn
  | true =>
      cases c with
      | publish channel payload =>
          have hnone : performAlters cfg rd (.publish channel payload) srv conn = ∅ := by
            ext x
            exact iff_of_false (fun h => by cases h.1) id
          show Within {.registry} (performAlters cfg rd (.publish channel payload) srv conn) _ srv conn
          rw [hnone]
          exact within_publish channel payload srv conn
      | subscribe channels => exact within_registry (fun _ _ sub h => h.subscribeLoop channels sub) srv conn
      | unsubscribe channels =>
          refine within_registry (f := fun st => unsubscribeLoop
            (if channels.isEmpty then st.1.channels else channels) st) (fun _ _ sub h => ?_) srv conn
          exact h.unsubscribeLoop _ sub
      | luaEval script keys argv => exact within_luaEval cfg rd script keys argv srv conn
      | luaEvalSha sha1 keys argv => exact within_luaEvalSha cfg rd sha1 keys argv srv conn
      | auth username password =>
          have hnone : performAlters cfg rd (.auth username password) srv conn = ∅ := by
            ext x
            exact iff_of_false (fun h => by cases h.1) id
          show Within _ (performAlters cfg rd (.auth username password) srv conn) _ srv conn
          rw [hnone]
          exact within_auth cfg.auth username password srv conn _
      | _ => cases hs

omit [Lua] [Codec] in
theorem gate_congr (cfg : ServerConfig) (c : Command) {conn conn' : ConnState} (h : SameConn conn conn') :
    gate cfg conn' c = gate cfg conn c := by
  unfold gate
  rw [h.user]

/-- The chokepoint is no matter of the command. -/
theorem performLooks_logWrite (cfg : ServerConfig) (rd : Readings) (c : Command) (srv : Server) (conn : ConnState)
    (timestamp : UInt64) (w : Command) :
    performLooks cfg rd c (srv.logWrite timestamp w) conn = performLooks cfg rd c srv conn ∧
      performAlters cfg rd c (srv.logWrite timestamp w) conn = performAlters cfg rd c srv conn := by
  cases c <;> exact ⟨rfl, rfl⟩

/-- **A command is confined to what it looks at and what it writes.** -/
theorem executePlain_within (cfg : ServerConfig) (rd : Readings) (c : QueuedCommand) (srv : Server)
    (conn : ConnState) :
    Within (looks cfg rd c srv conn) (alters cfg rd c srv conn) (executePlain cfg rd c) srv conn := by
  intro srv' conn' hL hconn
  unfold executePlain
  rw [gate_congr cfg c hconn]
  cases hgate : gate cfg conn c with
  | some r =>
      refine ⟨rfl, hconn, ?_, fun x _ => rfl⟩
      rintro x ⟨hpass, -⟩
      cases hgate.symm.trans hpass
  | none =>
      have hpass : ∀ x ∈ performLooks cfg rd c srv conn, srv'.look x = srv.look x := fun x hx => hL x ⟨hgate, hx⟩
      have halters : ∀ {x}, x ∈ alters cfg rd c srv conn ↔ x ∈ performAlters cfg rd c srv conn := and_iff_right hgate
      cases hw : isWriteCommand c with
      | false =>
          simp only [Bool.false_eq_true, if_false]
          obtain ⟨hreply, hconn', hwrites, hframe⟩ := within_perform cfg rd c srv conn srv' conn' hpass hconn
          exact ⟨hreply, hconn', fun x hx => hwrites x (halters.mp hx),
            fun x hx => hframe x fun h => hx (halters.mpr h)⟩
      | true =>
          simp only [if_true]
          obtain ⟨hlooks', halters'⟩ := performLooks_logWrite cfg rd c srv conn rd.env.unixMs c
          have hrun := within_perform cfg rd c (srv.logWrite rd.env.unixMs c) conn (srv'.logWrite rd.env.unixMs c) conn'
          rw [hlooks', halters', look_logWrite, look_logWrite] at hrun
          obtain ⟨hreply, hconn', hwrites, hframe⟩ := hrun hpass hconn
          refine ⟨hreply, hconn', fun x hx => hwrites x (halters.mp hx), fun x hx => ?_⟩
          rw [hframe x fun h => hx (halters.mpr h), look_logWrite]

/-! ## What is counted -/

/-- The writes that a command that passed the gates makes, or would have to count. -/
def performWrites (cfg : ServerConfig) (rd : Readings) (c : Command) (srv : Server) (conn : ConnState) :
    List Command :=
  match c with
  | .luaEval script keys argv => scriptWrites cfg rd script keys argv srv conn
  | .luaEvalSha sha1 keys argv =>
      match srv.scripts[sha1.map F64.lowerAscii]? with
      | some source => scriptWrites cfg rd source keys argv srv conn
      | none => []
  | c => if isWriteCommand c then [c] else []

/-- The writes that are to be counted on the shards of their keys. -/
def written (cfg : ServerConfig) (rd : Readings) (c : Command) (srv : Server) (conn : ConnState) : List Command :=
  if (gate cfg conn c).isSome then [] else performWrites cfg rd c srv conn

/-- The writes that a command counts: a script that never returns does not get to it. -/
def counted (cfg : ServerConfig) (rd : Readings) (c : Command) (srv : Server) (conn : ConnState) : List Command :=
  if RunsForever cfg rd c srv conn then [] else written cfg rd c srv conn

omit [Codec] in
theorem written_of_counted {cfg : ServerConfig} {rd : Readings} {c w : Command} {srv : Server} {conn : ConnState}
    (h : w ∈ counted cfg rd c srv conn) : w ∈ written cfg rd c srv conn := by
  unfold counted at h
  split at h
  · cases h
  · exact h

/-- The versions after some writes are counted. -/
def countAll (ws : List Command) (versions : ShardVersions) : ShardVersions :=
  ws.foldl (fun v w => bumpVersionsFor w v) versions

omit [Lua] in
theorem versions_persistScriptWrites (srv : Server) (stamp : Nat → UInt64) (n : Nat) (ws : List Command) :
    (srv.persistScriptWrites stamp n ws).versions = countAll ws srv.versions := by
  induction ws generalizing srv n with
  | nil => rfl
  | cons w ws ih => exact ih _ _

omit [Codec] in
theorem performWrites_of_arm {rd : Readings} {c : Command} {a : Arm} (h : arm rd.env c = some a) (cfg : ServerConfig)
    (srv : Server) (conn : ConnState) :
    performWrites cfg rd c srv conn = if isWriteCommand c then [c] else [] := by
  cases c <;> first | (cases h; done) | rfl

omit [Codec] in
theorem runsForever_of_arm {rd : Readings} {c : Command} {a : Arm} (h : arm rd.env c = some a) (cfg : ServerConfig)
    (srv : Server) (conn : ConnState) : RunsForever cfg rd c srv conn = false := by
  cases c <;> first | rfl | cases h

/-- A script that returns counts its writes; one that does not counts none. -/
theorem versions_runLoaded (cfg : ServerConfig) (rd : Readings) (source : Bytes) (keys argv : List Bytes)
    (srv : Server) (conn : ConnState) :
    (runLoaded cfg rd source keys argv srv conn).2.1.versions = countAll
      (if NeverReturns rd.call (buildScriptAcl cfg.auth conn.authedUser) 0 (Lua.eval rd.env source keys argv)
          srv.storage then [] else scriptWrites cfg rd source keys argv srv conn) srv.versions := by
  unfold runLoaded returnedWrites scriptWrites
  rw [versions_persistScriptWrites]
  split <;> rename_i hsome
  · obtain ⟨r, hr⟩ := Option.isSome_iff_exists.mp hsome
    rw [if_neg fun hnever => by rw [(runScript_eq_none_iff 0 _ _).mpr hnever] at hr; cases hr]
  · rw [if_pos ((runScript_eq_none_iff 0 _ _).mp (Option.not_isSome_iff_eq_none.mp hsome))]

/-- **The versions move by what is counted.** -/
theorem versions_executePlain (cfg : ServerConfig) (rd : Readings) (c : QueuedCommand) (srv : Server)
    (conn : ConnState) :
    (executePlain cfg rd c srv conn).2.1.versions = countAll (counted cfg rd c srv conn) srv.versions := by
  unfold executePlain counted written
  cases hgate : gate cfg conn c with
  | some r =>
      simp only [Option.isSome_some, if_true, ite_self]
      rfl
  | none =>
      simp only [Option.isSome_none, Bool.false_eq_true, if_false]
      obtain ⟨c, htx⟩ := c
      cases hs : sessionCommand c with
      | false =>
          obtain ⟨a, ha⟩ := arm_isSome rd.env htx hs
          rw [perform_arm ha, performWrites_of_arm ha, runsForever_of_arm ha]
          cases isWriteCommand c <;> rfl
      | true =>
          cases c with
          | publish channel payload => rfl
          | subscribe channels => rfl
          | unsubscribe channels => rfl
          | luaEval script keys argv => exact versions_runLoaded cfg rd script keys argv _ conn
          | luaEvalSha sha1 keys argv =>
              have hread : isWriteCommand (.luaEvalSha sha1 keys argv) = false := rfl
              simp only [hread, Bool.false_eq_true, if_false, perform, performWrites]
              obtain hnone | ⟨source, hsource⟩ := Option.eq_none_or_eq_some srv.scripts[sha1.map F64.lowerAscii]?
              · simp only [hnone, RunsForever, Option.any_none, Bool.false_eq_true, if_false]
                rfl
              · simp only [hsource, RunsForever, Option.any_some]
                exact versions_runLoaded cfg rd source keys argv srv conn
          | auth username password =>
              obtain ⟨r, user, hauth⟩ := authArm_keeps cfg.auth username password conn
              show (authArm cfg.auth username password srv conn).2.1.versions = srv.versions
              rw [hauth srv]
          | _ => cases hs

omit [Codec] in
/-- What a script records are writes. -/
theorem write_of_runScript {envs : Nat → Env} {acl : AclCheck} (n : Nat) (script : Script) (s : CacheStorage)
    {w : Command} (hw : w ∈ (runScript envs acl n script s).1.2) : isWriteCommand w = true := by
  induction script generalizing n s with
  | done r => cases hw
  | call cmd args next ih =>
      rcases List.mem_append.mp hw with hw | hw
      · cases hcall : redisCallBridge (envs n) acl cmd args s with
        | mk reply t =>
            have hdone := callDone_redisCallBridge (s := s) (envs n) acl cmd args
            rw [hcall] at hdone hw
            cases hdone with
            | nothing reply => cases hw
            | wrote reply hc hkey hreplay =>
                cases List.mem_singleton.mp hw
                exact (hc.steady s).write
      · exact ih _ _ _ hw

omit [Codec] in
/-- **Whoever writes an entry has a write to count on its shard.** -/
theorem written_of_alters {cfg : ServerConfig} {rd : Readings} {c : QueuedCommand} {srv : Server} {conn : ConnState}
    {k : Bytes} (h : .entry k ∈ alters cfg rd c srv conn) :
    ∃ w ∈ written cfg rd c srv conn, shardIndex k ∈ bumpedShards w := by
  obtain ⟨hgate, h⟩ := h
  have hscript : ∀ {source keys argv}, Shared.entry k ∈ entriesWritten (scriptWrites cfg rd source keys argv srv conn) →
      ∃ w ∈ scriptWrites cfg rd source keys argv srv conn, shardIndex k ∈ bumpedShards w := by
    rintro source keys argv ⟨w, hw, _, hk, ⟨⟩⟩
    exact ⟨w, hw, mem_bumpedShards (write_of_runScript _ _ _ hw) (touchesKey_iff.mp hk)⟩
  unfold written
  rw [hgate]
  simp only [Option.isSome_none, Bool.false_eq_true, if_false]
  obtain ⟨c, htx⟩ := c
  cases hs : sessionCommand c with
  | false =>
      obtain ⟨a, ha⟩ := arm_isSome rd.env htx hs
      rw [(performLooks_of_arm ha cfg srv conn).2] at h
      obtain ⟨hw, hk⟩ := h
      rw [performWrites_of_arm ha, hw, if_pos rfl]
      refine ⟨c, List.mem_singleton_self c, mem_bumpedShards hw fun keys hkeys => ?_⟩
      rw [hkeys] at hk
      obtain ⟨_, hmem, ⟨⟩⟩ := hk
      exact hmem
  | true =>
      cases c with
      | publish channel payload => cases h.1
      | subscribe channels => cases h
      | unsubscribe channels => cases h
      | luaEval script keys argv =>
          rcases h with h | h
          · cases h
          · exact hscript h
      | luaEvalSha sha1 keys argv =>
          obtain ⟨source, hsource, h⟩ := h
          dsimp only [performWrites]
          rw [hsource]
          exact hscript h
      | auth username password => cases h.1
      | _ => cases hs

omit [Lua] [Codec] in
/-- A count on other shards. -/
theorem countAll_of_notMem {ws : List Command} {i : Fin 64} (h : ∀ w ∈ ws, i ∉ bumpedShards w)
    (versions : ShardVersions) : countAll ws versions i = versions i := by
  induction ws generalizing versions with
  | nil => rfl
  | cons w ws ih =>
      show countAll ws (bumpVersionsFor w versions) i = _
      rw [ih fun w' hw' => h w' (List.mem_cons_of_mem _ hw')]
      exact bumpVersionsFor_of_notMem (h w List.mem_cons_self) versions

end Any

end FerricCache
