import FerricCache.Server.Replies

/-!
# `FerricCache.Server.ExecReply` — the array `EXEC` replies with

`EXEC` writes a header of the queue's length and behind it whatever the queued commands reply. It is an array of
their replies exactly when each reply is one frame: `SUBSCRIBE` and `UNSUBSCRIBE` reply with one frame a channel
(`exec_array_iff`).
-/

namespace FerricCache

open Lib Reply

/-! ## Confirmations of subscriptions -/

/-- The value of a confirmation. -/
def subscriptionValue (kind channel : Bytes) (left : Nat) : RespValue :=
  .array [bulkValue kind, bulkValue channel, .integer left]

theorem subscriptionFrame_eq (kind channel : Bytes) (left : Nat) :
    subscriptionFrame kind channel left = writeResp (subscriptionValue kind channel left) := by
  simp only [subscriptionFrame, subscriptionValue, writeResp, writeItems, writeResp_bulkValue, List.length_cons,
    List.length_nil, List.append_nil, List.append_assoc]
  rfl

theorem complete_subscriptionFrame {kind channel : Bytes} {left : Nat} (hkind : kind.length ≤ isizeMax)
    (hchannel : channel.length ≤ isizeMax) (hleft : left < 2 ^ 63) :
    Complete (subscriptionFrame kind channel left) (subscriptionValue kind channel left) := by
  rw [subscriptionFrame_eq]
  refine complete_writeResp (.array (show 3 * respValueSize ≤ isizeMax by decide) fun v hv => ?_)
    (.array fun v hv => ?_)
  · simp only [List.mem_cons, List.not_mem_nil, or_false] at hv
    rcases hv with rfl | rfl | rfl
    · exact .bulk hkind
    · exact .bulk hchannel
    · exact .integer (by omega) (by exact_mod_cast hleft)
  · simp only [List.mem_cons, List.not_mem_nil, or_false] at hv
    rcases hv with rfl | rfl | rfl
    · exact .bulk _
    · exact .bulk _
    · exact .integer _

/-- What `SUBSCRIBE` replies for its first channel. -/
theorem subscribeLoop_cons (ch : Bytes) (rest : List Bytes) (sub : SubscriberState) (ps : PubSub) :
    ∃ st : SubscriberState × PubSub, st.1.channels.length ≤ sub.channels.length + 1 ∧
      subscribeLoop (ch :: rest) (sub, ps)
        = (subscriptionFrame (utf8 "subscribe") ch st.1.channels.length ++ (subscribeLoop rest st).1,
          (subscribeLoop rest st).2) := by
  have hchannels : (sub.ensureSender ps).2.1.channels = sub.channels := by
    unfold SubscriberState.ensureSender
    split
    · rfl
    · rfl
  generalize hr : sub.ensureSender ps = r at hchannels
  refine ⟨(if r.2.1.channels.contains ch then r.2.1 else { r.2.1 with channels := r.2.1.channels ++ [ch] },
    r.2.2.subscribe ch r.1), ?_, ?_⟩
  · split
    · rw [hchannels]
      omega
    · simp [hchannels]
  · rw [subscribeLoop, hr]

/-- What `UNSUBSCRIBE` replies for its first channel. -/
theorem unsubscribeLoop_cons (ch : Bytes) (rest : List Bytes) (sub : SubscriberState) (ps : PubSub) :
    ∃ st : SubscriberState × PubSub, st.1.channels.length ≤ sub.channels.length ∧
      unsubscribeLoop (ch :: rest) (sub, ps)
        = (subscriptionFrame (utf8 "unsubscribe") ch st.1.channels.length ++ (unsubscribeLoop rest st).1,
          (unsubscribeLoop rest st).2) := by
  refine ⟨({ sub with channels := sub.channels.filter fun c => c != ch }, ps.pruneClosed ch), ?_, ?_⟩
  · exact List.length_filter_le _ _
  · rw [unsubscribeLoop]

/-- Several confirmations are not one frame. -/
theorem oneFrame_confirmation_iff {kind channel tail : Bytes} {left : Nat} (hleft : left < 2 ^ 63)
    (hfits : (Response.raw (subscriptionFrame kind channel left ++ tail)).Fits) :
    (Response.raw (subscriptionFrame kind channel left ++ tail)).OneFrame ↔ tail = [] := by
  have hsize : (subscriptionFrame kind channel left ++ tail).length * respValueSize ≤ isizeMax := hfits.size
  simp only [subscriptionFrame, bulk, List.length_append, List.length_cons, respValueSize] at hsize
  have hframe : Complete (subscriptionFrame kind channel left) (subscriptionValue kind channel left) :=
    complete_subscriptionFrame (by omega) (by omega) hleft
  constructor
  · rintro ⟨v, hv⟩
    exact hframe.append_eq_nil hv
  · rintro rfl
    refine ⟨subscriptionValue kind channel left, ?_⟩
    show Complete (subscriptionFrame kind channel left ++ []) _
    rw [List.append_nil]
    exact hframe

theorem subscriptionFrame_ne_nil (kind channel : Bytes) (left : Nat) : subscriptionFrame kind channel left ≠ [] := by
  simp [subscriptionFrame, header]

theorem not_oneFrame_nil : ¬ (Response.raw []).OneFrame := by
  rintro ⟨v, hv⟩
  exact hv.ne_nil rfl

theorem oneFrame_subscribe_iff {channels : List Bytes} {sub : SubscriberState} {ps : PubSub}
    (hsubs : sub.channels.length + 1 < 2 ^ 63) (hfits : (Response.raw (subscribeLoop channels (sub, ps)).1).Fits) :
    (Response.raw (subscribeLoop channels (sub, ps)).1).OneFrame ↔ channels.length = 1 := by
  cases channels with
  | nil => exact iff_of_false not_oneFrame_nil (by simp)
  | cons ch rest =>
      obtain ⟨st, hle, hloop⟩ := subscribeLoop_cons ch rest sub ps
      rw [hloop] at hfits ⊢
      rw [oneFrame_confirmation_iff (by omega) hfits, List.length_cons, Nat.add_eq_right, List.length_eq_zero_iff]
      cases rest with
      | nil => exact iff_of_true rfl rfl
      | cons ch' rest =>
          obtain ⟨st', -, hloop'⟩ := subscribeLoop_cons ch' rest st.1 st.2
          rw [hloop']
          refine iff_of_false (fun h => ?_) (List.cons_ne_nil _ _)
          exact subscriptionFrame_ne_nil _ _ _ (List.append_eq_nil_iff.mp h).1

theorem oneFrame_unsubscribe_iff {channels : List Bytes} {sub : SubscriberState} {ps : PubSub}
    (hsubs : sub.channels.length < 2 ^ 63) (hfits : (Response.raw (unsubscribeLoop channels (sub, ps)).1).Fits) :
    (Response.raw (unsubscribeLoop channels (sub, ps)).1).OneFrame ↔ channels.length = 1 := by
  cases channels with
  | nil => exact iff_of_false not_oneFrame_nil (by simp)
  | cons ch rest =>
      obtain ⟨st, hle, hloop⟩ := unsubscribeLoop_cons ch rest sub ps
      rw [hloop] at hfits ⊢
      rw [oneFrame_confirmation_iff (by omega) hfits, List.length_cons, Nat.add_eq_right, List.length_eq_zero_iff]
      cases rest with
      | nil => exact iff_of_true rfl rfl
      | cons ch' rest =>
          obtain ⟨st', -, hloop'⟩ := unsubscribeLoop_cons ch' rest st.1 st.2
          rw [hloop']
          refine iff_of_false (fun h => ?_) (List.cons_ne_nil _ _)
          exact subscriptionFrame_ne_nil _ _ _ (List.append_eq_nil_iff.mp h).1

theorem length_subscribeLoop_le (channels : List Bytes) (sub : SubscriberState) (ps : PubSub) :
    (subscribeLoop channels (sub, ps)).2.1.channels.length ≤ sub.channels.length + channels.length := by
  induction channels generalizing sub ps with
  | nil => exact Nat.le_refl _
  | cons ch rest ih =>
      obtain ⟨st, hle, hloop⟩ := subscribeLoop_cons ch rest sub ps
      have hrest : (subscribeLoop rest st).2.1.channels.length ≤ st.1.channels.length + rest.length := ih st.1 st.2
      rw [hloop, List.length_cons]
      show (subscribeLoop rest st).2.1.channels.length ≤ _
      omega

theorem length_unsubscribeLoop_le (channels : List Bytes) (sub : SubscriberState) (ps : PubSub) :
    (unsubscribeLoop channels (sub, ps)).2.1.channels.length ≤ sub.channels.length := by
  induction channels generalizing sub ps with
  | nil => exact Nat.le_refl _
  | cons ch rest ih =>
      obtain ⟨st, hle, hloop⟩ := unsubscribeLoop_cons ch rest sub ps
      have hrest : (unsubscribeLoop rest st).2.1.channels.length ≤ st.1.channels.length := ih st.1 st.2
      rw [hloop]
      show (unsubscribeLoop rest st).2.1.channels.length ≤ _
      omega

/-! ## Scripts -/

/-- No run of the script ends in a frame of its own: `lua_to_response` never makes one. -/
inductive Script.NeverRaw : Script → Prop
  | done {r : Option Response} (h : ∀ frame, r ≠ some (.raw frame)) : NeverRaw (.done r)
  | call {cmd : Bytes} {args : List Bytes} {next : Response → Script} (h : ∀ r, NeverRaw (next r)) :
      NeverRaw (.call cmd args next)

theorem runScript_ne_raw [KeyHash] [Lua] {script : Script} (h : script.NeverRaw) (envs : Nat → Env) (acl : AclCheck)
    (n : Nat) (s : CacheStorage) (frame : Bytes) : (runScript envs acl n script s).1.1 ≠ some (.raw frame) := by
  induction h generalizing n s with
  | done h => exact h frame
  | call _ ih => exact ih _ (n + 1) _

/-! ## One queued command -/

section Queue

variable [KeyHash] [Lua] [Codec]

omit [KeyHash] [Lua] [Codec] in
/-- How many frames the reply of a dispatched command is. -/
def frameCount (conn : ConnState) : Command → Nat
  | .subscribe channels => channels.length
  | .unsubscribe channels => (if channels.isEmpty then conn.sub.channels else channels).length
  | _ => 1

/-- The interpreter's scripts never end in a frame of their own. -/
def ScriptsTyped : Prop := ∀ env source keys argv, (Lua.eval env source keys argv).NeverRaw

omit [Codec] in
/-- The dispatch of the command panics or never returns. -/
def Unanswered (cfg : ServerConfig) (rd : Readings) (c : Command) (srv : Server) (conn : ConnState) : Prop :=
  Panics rd.env c srv.storage ∨ RunsForever cfg rd c srv conn = true

omit [Codec] in
instance (cfg : ServerConfig) (rd : Readings) (c : Command) (srv : Server) (conn : ConnState) :
    Decidable (Unanswered cfg rd c srv conn) := inferInstanceAs (Decidable (_ ∨ _))

/-- The queued command, at its turn: refused by a gate, or dispatched to a reply of one frame. -/
structure RepliesOnce (cfg : ServerConfig) (rd : Readings) (c : QueuedCommand) (srv : Server) (conn : ConnState) :
    Prop where
  answered : gate cfg conn c = none → ¬ Unanswered cfg rd c srv conn
  count : gate cfg conn c = none → frameCount conn c = 1

variable {cfg : ServerConfig} {rd : Readings} {c : QueuedCommand} {srv : Server} {conn : ConnState}

omit [Lua] [Codec] in
/-- The gates refuse with an error. -/
theorem gate_error {c : Command} {r : Response} (h : gate cfg conn c = some r) : ∃ text, r = .error text := by
  rcases Option.or_eq_some_iff.mp h with h | ⟨-, h⟩
  · unfold redirect at h
    repeat' split at h
    all_goals cases h
    exact ⟨_, rfl⟩
  · unfold authGate at h
    repeat' split at h
    all_goals cases h
    · exact ⟨_, rfl⟩
    · exact ⟨_, rfl⟩

omit [KeyHash] [Lua] [Codec] in
theorem Response.oneFrame_of_ne_raw {r : Response} (hfits : r.Fits) (herr : ∀ text, r = .error text → OneLine text)
    (hraw : ∀ frame, r ≠ .raw frame) : r.OneFrame := by
  refine Response.Plain.oneFrame ?_ hfits
  cases r with
  | error text => exact herr text rfl
  | raw frame => exact absurd rfl (hraw frame)
  | _ => exact trivial

/-- A script replies with its value. -/
theorem runLoaded_ne_raw (hlua : ScriptsTyped) (source : Bytes) (keys argv : List Bytes) {r : Response}
    (h : (runLoaded cfg rd source keys argv srv conn).1 = some r) (frame : Bytes) : r ≠ .raw frame := by
  rintro rfl
  exact runScript_ne_raw (hlua rd.env source keys argv) _ _ _ _ frame h

omit [Codec] in
theorem runsForever_eq_false {c : Command} (h : special c = false) : RunsForever cfg rd c srv conn = false := by
  cases c <;> first | rfl | cases h

theorem runLoaded_eq_none_iff (source : Bytes) (keys argv : List Bytes) :
    (runLoaded cfg rd source keys argv srv conn).1 = none ↔
      NeverReturns rd.call (buildScriptAcl cfg.auth conn.authedUser) 0 (Lua.eval rd.env source keys argv) srv.storage
        = true :=
  runScript_eq_none_iff 0 _ _

/-- **When a dispatched command has no reply**: its arm panics, or its script never returns. -/
theorem perform_eq_none_iff {c : Command} (htx : txControl c = none) :
    (perform cfg rd c srv conn).1 = none ↔ Unanswered cfg rd c srv conn := by
  cases hspecial : special c with
  | false => rw [perform_panics_iff htx hspecial, Unanswered, runsForever_eq_false hspecial, or_iff_left (by simp)]
  | true =>
      -- a special command has no storage arm that could panic
      have hforever : Unanswered cfg rd c srv conn ↔ RunsForever cfg rd c srv conn = true := by
        refine or_iff_right ?_
        rintro ⟨a, ha, -⟩
        cases c <;> first | (cases ha; done) | cases hspecial
      rw [hforever]
      cases c with
      | subscribe channels => exact iff_of_false (fun h => by cases h) (fun h => by cases h)
      | unsubscribe channels => exact iff_of_false (fun h => by cases h) (fun h => by cases h)
      | luaEval script keys argv => exact runLoaded_eq_none_iff script keys argv
      | luaEvalSha sha1 keys argv =>
          rw [perform, RunsForever]
          cases srv.scripts[sha1.map F64.lowerAscii]? with
          | none => simp
          | some source => exact runLoaded_eq_none_iff source keys argv
      | exec => cases htx
      | _ => cases hspecial

/-- **A queued command replies** unless it is dispatched and panics or never returns. -/
theorem executePlain_eq_none_iff :
    (executePlain cfg rd c srv conn).1 = none ↔ gate cfg conn c = none ∧ Unanswered cfg rd c srv conn := by
  cases hgate : gate cfg conn c with
  | some g =>
      rw [executePlain, hgate]
      simp
  | none =>
      have hsame : Unanswered cfg rd c (if isWriteCommand c then srv.logWrite rd.env.unixMs c else srv) conn
          ↔ Unanswered cfg rd c srv conn := by
        split
        · exact Iff.rfl
        · exact Iff.rfl
      rw [executePlain, hgate, and_iff_right rfl, ← hsame]
      exact perform_eq_none_iff c.2

omit [KeyHash] [Lua] [Codec] in
theorem frameCount_eq_one {c : Command} (h : special c = false) : frameCount conn c = 1 := by
  cases c <;> first | rfl | cases h

/-- A dispatched command with frames of its own: a subscription change or a script. -/
theorem oneFrame_special_iff (hlua : ScriptsTyped) (hsubs : conn.sub.channels.length + 1 < 2 ^ 63)
    (hspecial : special c = true) {r : Response} (hr : (perform cfg rd c srv conn).1 = some r) (hfits : r.Fits)
    (herr : ∀ text, r = .error text → OneLine text) :
    r.OneFrame ↔ frameCount conn c = 1 := by
  obtain ⟨c, htx⟩ := c
  cases c with
  | subscribe channels =>
      cases hr
      exact oneFrame_subscribe_iff hsubs hfits
  | unsubscribe channels =>
      cases hr
      exact oneFrame_unsubscribe_iff (by omega) hfits
  | luaEval script keys argv =>
      refine iff_of_true (Response.oneFrame_of_ne_raw hfits herr ?_) rfl
      exact runLoaded_ne_raw hlua script keys argv hr
  | luaEvalSha sha1 keys argv =>
      refine iff_of_true (Response.oneFrame_of_ne_raw hfits herr ?_) rfl
      rw [perform] at hr
      split at hr
      · rename_i source hsource
        exact runLoaded_ne_raw hlua source keys argv hr
      · cases hr
        intro frame hframe
        cases hframe
  | exec => cases htx
  | _ => cases hspecial

/-- **The reply of a queued command is one frame exactly when its arm writes one.** -/
theorem oneFrame_executePlain_iff (hlua : ScriptsTyped) (hsubs : conn.sub.channels.length + 1 < 2 ^ 63)
    {r : Response} (hr : (executePlain cfg rd c srv conn).1 = some r) (hfits : r.Fits)
    (herr : ∀ text, r = .error text → OneLine text) : r.OneFrame ↔ RepliesOnce cfg rd c srv conn := by
  cases hgate : gate cfg conn c with
  | some g =>
      rw [executePlain, hgate] at hr
      cases hr
      obtain ⟨text, rfl⟩ := gate_error hgate
      refine iff_of_true ((complete_error_iff text).mpr (herr text rfl)) ⟨fun h => ?_, fun h => ?_⟩
      · cases hgate.symm.trans h
      · cases hgate.symm.trans h
  | none =>
      cases hspecial : special c with
      | false =>
          obtain ⟨hnone, hrefused, hframed⟩ := executePlain_reply cfg rd srv conn hgate hspecial
          have hno : ¬ Unanswered cfg rd c srv conn := fun h => by
            cases (executePlain_eq_none_iff.mpr ⟨hgate, h⟩).symm.trans hr
          refine iff_of_true ?_ ⟨fun _ => hno, fun _ => frameCount_eq_one hspecial⟩
          cases hid : refusedId rd.env.now srv.storage c with
          | none => exact (hframed hid r hr).oneFrame hfits
          | some id =>
              cases (hrefused id hid).symm.trans hr
              exact (complete_error_iff _).mpr (herr _ rfl)
      | true =>
          have hno : ¬ Unanswered cfg rd c srv conn := fun h => by
            cases (executePlain_eq_none_iff.mpr ⟨hgate, h⟩).symm.trans hr
          rw [executePlain, hgate] at hr
          rw [oneFrame_special_iff hlua hsubs hspecial hr hfits herr]
          exact ⟨fun h => ⟨fun _ => hno, fun _ => h⟩, fun h => h.count hgate⟩

theorem sub_perform (hspecial : special c = false) : (perform cfg rd c srv conn).2.2.sub = conn.sub := by
  cases hs : sessionCommand c with
  | false =>
      obtain ⟨a, ha⟩ := arm_isSome rd.env c.2 hs
      rw [perform_arm ha]
  | true =>
      obtain ⟨c, htx⟩ := c
      cases c with
      | publish channel payload => rfl
      | auth username password =>
          obtain ⟨r, user, hauth⟩ := authArm_keeps cfg.auth username password conn
          show (authArm cfg.auth username password srv conn).2.2.sub = conn.sub
          rw [hauth srv]
      | subscribe _ => cases hspecial
      | unsubscribe _ => cases hspecial
      | luaEval _ _ _ => cases hspecial
      | luaEvalSha _ _ _ => cases hspecial
      | _ => cases hs

/-- One frame confirms one subscription at most. -/
theorem length_channels_le (h : RepliesOnce cfg rd c srv conn) :
    (executePlain cfg rd c srv conn).2.2.sub.channels.length ≤ conn.sub.channels.length + 1 := by
  unfold executePlain
  cases hgate : gate cfg conn c with
  | some g => exact Nat.le_succ _
  | none =>
      have hcount := h.count hgate
      simp only
      generalize (if isWriteCommand c then srv.logWrite rd.env.unixMs c else srv) = logged
      cases hspecial : special c with
      | false =>
          rw [sub_perform hspecial]
          exact Nat.le_succ _
      | true =>
          obtain ⟨c, htx⟩ := c
          cases c with
          | subscribe channels =>
              have hle := length_subscribeLoop_le channels conn.sub logged.pubsub
              have hone : channels.length = 1 := hcount
              rw [hone] at hle
              exact hle
          | unsubscribe channels =>
              exact (length_unsubscribeLoop_le _ conn.sub logged.pubsub).trans (Nat.le_succ _)
          | luaEval script keys argv => exact Nat.le_succ _
          | luaEvalSha sha1 keys argv =>
              rw [perform]
              split
              · exact Nat.le_succ _
              · exact Nat.le_succ _
          | exec => cases htx
          | _ => cases hspecial

/-! ## The queue -/

/-- The replies of the queued commands, up to one that has none. -/
def queueReplies (cfg : ServerConfig) (rd : Nat → Readings) : Nat → List QueuedCommand → Server → ConnState →
    List Response
  | _, [], _, _ => []
  | n, c :: cs, srv, conn =>
      match executePlain cfg (rd n) c srv conn with
      | (some r, srv', conn') => r :: queueReplies cfg rd (n + 1) cs srv' conn'
      | (none, _, _) => []

/-- Every queued command replies with one frame at its turn. -/
def QueueRepliesOnce (cfg : ServerConfig) (rd : Nat → Readings) : Nat → List QueuedCommand → Server → ConnState →
    Prop
  | _, [], _, _ => True
  | n, c :: cs, srv, conn =>
      RepliesOnce cfg (rd n) c srv conn ∧
        let r := executePlain cfg (rd n) c srv conn
        QueueRepliesOnce cfg rd (n + 1) cs r.2.1 r.2.2

variable {rd : Nat → Readings}

/-- The queue runs to its end exactly when every command replies, and what it writes are the replies. -/
theorem runQueue_out (n : Nat) (cs : List QueuedCommand) (srv : Server) (conn : ConnState) :
    (runQueue cfg rd n cs srv conn).1
      = if (queueReplies cfg rd n cs srv conn).length = cs.length then
          some ((queueReplies cfg rd n cs srv conn).flatMap serializeResponse)
        else none := by
  induction cs generalizing n srv conn with
  | nil => rfl
  | cons c cs ih =>
      rw [runQueue, queueReplies]
      generalize executePlain cfg (rd n) c srv conn = r
      obtain ⟨reply, srv', conn'⟩ := r
      cases reply with
      | none => rfl
      | some r =>
          simp only [ih, List.length_cons, Nat.add_right_cancel_iff]
          split
          · rfl
          · rfl

/-- **Every queued reply is one frame exactly when every queued command writes one**, by induction on the queue; the
    number of subscriptions stays within the number of commands. -/
theorem queueReplies_oneFrame_iff (hlua : ScriptsTyped) (n : Nat) (cs : List QueuedCommand) (srv : Server)
    (conn : ConnState) (hsubs : conn.sub.channels.length + cs.length < 2 ^ 63)
    (hfits : ∀ r ∈ queueReplies cfg rd n cs srv conn, r.Fits)
    (herr : ∀ r ∈ queueReplies cfg rd n cs srv conn, ∀ text, r = .error text → OneLine text) :
    ((queueReplies cfg rd n cs srv conn).length = cs.length ∧ ∀ r ∈ queueReplies cfg rd n cs srv conn, r.OneFrame)
      ↔ QueueRepliesOnce cfg rd n cs srv conn := by
  -- along the queue; a command that replies once adds one channel at most, which keeps the bound
  induction cs generalizing n srv conn with
  | nil => exact iff_of_true ⟨rfl, by simp [queueReplies]⟩ trivial
  | cons c cs ih =>
      rw [List.length_cons] at hsubs
      cases hx : executePlain cfg (rd n) c srv conn with
      | mk reply next =>
          obtain ⟨srv', conn'⟩ := next
          cases reply with
          | none =>
              refine iff_of_false (fun h => ?_) (fun h => ?_)
              · simp [queueReplies, hx] at h
              · obtain ⟨hgate, hnone⟩ := executePlain_eq_none_iff.mp (congrArg Prod.fst hx)
                exact h.1.answered hgate hnone
          | some r =>
              have hreplies : queueReplies cfg rd n (c :: cs) srv conn
                  = r :: queueReplies cfg rd (n + 1) cs srv' conn' := by
                rw [queueReplies, hx]
              rw [hreplies] at hfits herr ⊢
              rw [List.forall_mem_cons] at hfits herr
              have hone : r.OneFrame ↔ RepliesOnce cfg (rd n) c srv conn :=
                oneFrame_executePlain_iff hlua (by omega) (by rw [hx]) hfits.1 herr.1
              have hnext : RepliesOnce cfg (rd n) c srv conn → conn'.sub.channels.length + cs.length < 2 ^ 63 := by
                intro h
                have hle := length_channels_le h
                rw [hx] at hle
                simp only at hle
                omega
              rw [QueueRepliesOnce, hx, ← hone, List.forall_mem_cons, List.length_cons, List.length_cons,
                Nat.add_right_cancel_iff]
              constructor
              · rintro ⟨hlen, hr, hrest⟩
                exact ⟨hr, (ih (n + 1) srv' conn' (hnext (hone.mp hr)) hfits.2 herr.2).mp ⟨hlen, hrest⟩⟩
              · rintro ⟨hr, hrest⟩
                obtain ⟨hlen, hall⟩ := (ih (n + 1) srv' conn' (hnext (hone.mp hr)) hfits.2 herr.2).mpr hrest
                exact ⟨hlen, hr, hall⟩

/-- The reply is one array: its `i`-th element is what the `i`-th reply decodes to, and nothing is left over. -/
def ArrayOf (out : Option Response) (length : Nat) (replies : List Response) : Prop :=
  ∃ r values, out = some r ∧ Complete (serializeResponse r) (.array values) ∧ values.length = length ∧
    List.Forall₂ (fun r w => Complete (serializeResponse r) w) replies values

/-- **`EXEC` replies with an array of the queued commands' replies exactly when each of them is one frame.** -/
theorem exec_array_iff (hlua : ScriptsTyped) (cfg : ServerConfig) (req : Request) (hreq : req.command = .exec)
    (srv : Server) (conn : ConnState) (queue : List QueuedCommand) (hgate : gate cfg conn .exec = none)
    (hqueue : conn.tx.queue = some queue) (hwatched : conn.tx.anyWatchedChanged srv.versions = false)
    (hsize : queue.length * respValueSize ≤ isizeMax)
    (hsubs : conn.sub.channels.length + queue.length < 2 ^ 63)
    (hfits : ∀ r ∈ queueReplies cfg req.queued 0 queue srv conn.execTaken, r.Fits)
    (herr : ∀ r ∈ queueReplies cfg req.queued 0 queue srv conn.execTaken, ∀ text, r = .error text → OneLine text) :
    ArrayOf (execute cfg req srv conn).1 queue.length (queueReplies cfg req.queued 0 queue srv conn.execTaken)
      ↔ QueueRepliesOnce cfg req.queued 0 queue srv conn.execTaken := by
  rw [← queueReplies_oneFrame_iff hlua 0 queue srv conn.execTaken hsubs hfits herr]
  rw [execute_exec hreq hgate hqueue hwatched, runQueue_out]
  constructor
  · rintro ⟨r, values, hr, -, hlen, hvalues⟩
    exact ⟨hvalues.length_eq.trans hlen, exists_values_iff.mp ⟨values, hvalues⟩⟩
  · rintro ⟨hlen, hone⟩
    obtain ⟨values, hvalues⟩ := exists_values_iff.mpr hone
    have hcount : values.length = queue.length := hvalues.length_eq.symm.trans hlen
    rw [if_pos hlen]
    refine ⟨_, values, rfl, ?_, hcount, hvalues⟩
    have harray := complete_array (hcount ▸ hsize) (List.forall₂_map_left_iff.mpr hvalues)
    rw [hcount, ← List.flatMap_def] at harray
    exact harray

end Queue

/-- A connection that queued the commands and nothing else. -/
def ConnState.queueing (queue : List QueuedCommand) : ConnState :=
  { ConnState.new with tx := { TxState.new with queue := some queue } }

/-- `PING` and a `SUBSCRIBE` to one channel. -/
theorem exec_array_ping_subscribe :
    let _ := smallKeys
    let _ := noScripts
    let _ := incrCodec
    ArrayOf
      (execute ⟨none, none, none⟩ (Request.plain (durationSecs 1) .exec) Server.fresh
        (ConnState.queueing [⟨.ping, rfl⟩, ⟨.subscribe [utf8 "news"], rfl⟩])).1 2
      [.value (utf8 "PONG"), .raw (utf8 "*3\r\n$9\r\nsubscribe\r\n$4\r\nnews\r\n:1\r\n")] := by
  intro _ _ _
  have hreplies : queueReplies ⟨none, none, none⟩ (Request.plain (durationSecs 1) .exec).queued 0
      [⟨.ping, rfl⟩, ⟨.subscribe [utf8 "news"], rfl⟩] Server.fresh
      (ConnState.queueing [⟨.ping, rfl⟩, ⟨.subscribe [utf8 "news"], rfl⟩]).execTaken
        = [.value (utf8 "PONG"), .raw (utf8 "*3\r\n$9\r\nsubscribe\r\n$4\r\nnews\r\n:1\r\n")] := by
    decide
  have h := (exec_array_iff (fun _ _ _ _ => .done (fun frame h => (by cases h))) ⟨none, none, none⟩
    (Request.plain (durationSecs 1) .exec) rfl Server.fresh
    (ConnState.queueing [⟨.ping, rfl⟩, ⟨.subscribe [utf8 "news"], rfl⟩])
    [⟨.ping, rfl⟩, ⟨.subscribe [utf8 "news"], rfl⟩] rfl rfl (by decide) (by decide) (by decide) ?_ ?_).mpr ?_
  · rw [hreplies] at h
    exact h
  · rw [hreplies]
    intro r hr
    rcases List.mem_cons.mp hr with rfl | hr
    · exact ⟨fun n h => (by cases h), by decide⟩
    · rw [List.mem_singleton.mp hr]
      exact ⟨fun n h => (by cases h), by decide⟩
  · rw [hreplies]
    intro r hr text h
    rcases List.mem_cons.mp hr with rfl | hr
    · cases h
    · cases (List.mem_singleton.mp hr).symm.trans h
  · refine ⟨⟨fun _ => ?_, fun _ => rfl⟩, ⟨fun _ => ?_, fun _ => rfl⟩, trivial⟩
    · rintro (⟨a, ha, hnone⟩ | hforever)
      · cases ha
        cases hnone
      · cases hforever
    · rintro (⟨a, ha, -⟩ | hforever)
      · cases ha
      · cases hforever

/-- A queued `SUBSCRIBE` to two channels: one array element is announced and two frames follow. -/
theorem exec_subscribe_two_channels :
    let _ := smallKeys
    let _ := noScripts
    let _ := incrCodec
    (execute ⟨none, none, none⟩ (Request.plain (durationSecs 1) .exec) Server.fresh
        (ConnState.queueing [⟨.subscribe [utf8 "a", utf8 "b"], rfl⟩])).1
        = some (.raw (utf8 ("*1\r\n*3\r\n$9\r\nsubscribe\r\n$1\r\na\r\n:1\r\n" ++
            "*3\r\n$9\r\nsubscribe\r\n$1\r\nb\r\n:2\r\n"))) ∧
      ¬ ArrayOf
        (execute ⟨none, none, none⟩ (Request.plain (durationSecs 1) .exec) Server.fresh
          (ConnState.queueing [⟨.subscribe [utf8 "a", utf8 "b"], rfl⟩])).1 1
        (queueReplies ⟨none, none, none⟩ (Request.plain (durationSecs 1) .exec).queued 0
          [⟨.subscribe [utf8 "a", utf8 "b"], rfl⟩] Server.fresh
          (ConnState.queueing [⟨.subscribe [utf8 "a", utf8 "b"], rfl⟩]).execTaken) := by
  intro _ _ _
  refine ⟨by decide, ?_⟩
  rintro ⟨r, values, -, -, -, hvalues⟩
  have hone := exists_values_iff.mp ⟨values, hvalues⟩
  have hreplies : queueReplies ⟨none, none, none⟩ (Request.plain (durationSecs 1) .exec).queued 0
      [⟨.subscribe [utf8 "a", utf8 "b"], rfl⟩] Server.fresh
      (ConnState.queueing [⟨.subscribe [utf8 "a", utf8 "b"], rfl⟩]).execTaken
        = [.raw (subscribeLoop [utf8 "a", utf8 "b"] (SubscriberState.new, PubSub.new)).1] := by
    decide
  rw [hreplies] at hone
  have hfits : (Response.raw (subscribeLoop [utf8 "a", utf8 "b"] (SubscriberState.new, PubSub.new)).1).Fits :=
    ⟨fun n h => (by cases h), by decide⟩
  have hcount := (oneFrame_subscribe_iff (by decide) hfits).mp (hone _ List.mem_cons_self)
  cases hcount

end FerricCache
