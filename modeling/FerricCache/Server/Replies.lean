import FerricCache.Server.Pipeline
import FerricCache.Server.Requests
import FerricCache.Server.ReplyTexts
import FerricCache.Protocol.Rejections

/-!
# `FerricCache.Server.Replies` — one reply frame per request

A connection that sends `n` frames reads back `n` values, the `i`-th the reply to the `i`-th frame, as long as every
reply is one frame. The replies that are not are the errors that quote a line end of the client's: in an unknown
command name, in an argument that is no number, in a stream id (`oneFramePerRequest_iff`).
-/

namespace FerricCache

open Lib Reply

/-! ## Gates -/

section Gates

variable [KeyHash]

/-- A node's address is the text of a `SocketAddr`, which has no line end. -/
def ServerConfig.AddressesOneLine (cfg : ServerConfig) : Prop :=
  ∀ ring, cfg.ring = some ring → ∀ (id : Bytes) (node : Node), ring.nodes[id]? = some node → OneLine node.addr

theorem plain_redirect {cfg : ServerConfig} (haddr : cfg.AddressesOneLine) {c : Command} {r : Response}
    (h : redirect cfg.ring cfg.localNodeId c = some r) : r.Plain := by
  unfold redirect at h
  split at h
  · rename_i ring localId hring hlocal
    cases hkey : commandKey c with
    | none =>
        rw [hkey] at h
        cases h
    | some key =>
        rw [hkey] at h
        simp only at h
        cases hnode : ring.nodeForKey key with
        | none =>
            rw [hnode] at h
            cases h
        | some target =>
            rw [hnode] at h
            simp only at h
            split at h
            · cases h
              obtain ⟨id, -, hid⟩ := Option.bind_eq_some_iff.mp hnode
              have hprefix : 13 ∉ utf8 "MOVED " ++ natText (slotForKey key) ++ [32] := by
                have hmoved : 13 ∉ utf8 "MOVED " := by decide
                simp [hmoved, not_mem_natText]
              have hone := (oneLine_append hprefix).mpr (haddr ring hring id target hid)
              rw [List.append_assoc] at hone
              exact hone
            · cases h
  · cases h

omit [KeyHash] in
theorem not_mem_commandName (c : Command) : 13 ∉ (commandName c).map F64.lowerAscii := by
  cases c <;> simp only [commandName] <;> decide

omit [KeyHash] in
theorem plain_authGate {auth : Option AuthManager} {user : Option Bytes} {c : Command} {r : Response}
    (h : authGate auth user c = some r) : r.Plain := by
  have hnoAuth : noAuth.Plain := oneLine_of_not_mem (by decide)
  have hnoPerm : (noPerm (commandName c)).Plain := by
    refine oneLine_of_not_mem ?_
    have hopen : 13 ∉ utf8 "NOPERM this user has no permissions to run the '" := by decide
    have hclose : 13 ∉ utf8 "' command" := by decide
    have hname := not_mem_commandName c
    simp only [List.mem_append, not_or]
    exact ⟨⟨hopen, hname⟩, hclose⟩
  unfold authGate at h
  split at h
  · split at h
    · cases h
      exact hnoAuth
    · cases h
  · split at h
    · cases h
      exact hnoPerm
    · cases h
  · cases h

theorem plain_gate {cfg : ServerConfig} (haddr : cfg.AddressesOneLine) {conn : ConnState} {c : Command}
    {r : Response} (h : gate cfg conn c = some r) : r.Plain := by
  rcases Option.or_eq_some_iff.mp h with h | ⟨-, h⟩
  · exact plain_redirect haddr h
  · exact plain_authGate h

end Gates

/-! ## Dispatch -/

section Dispatch

variable [KeyHash]

/-- The command's arm panics on the storage. -/
def Panics (env : Env) (c : Command) (s : CacheStorage) : Prop := ∃ a, arm env c = some a ∧ (a.run s).1 = none

instance (env : Env) (c : Command) (s : CacheStorage) : Decidable (Panics env c s) :=
  match harm : arm env c with
  | some a =>
      decidable_of_iff ((a.run s).1 = none)
        ⟨fun h => ⟨a, harm, h⟩, by rintro ⟨b, hb, h⟩; cases harm.symm.trans hb; exact h⟩
  | none => isFalse (by rintro ⟨b, hb, -⟩; cases harm.symm.trans hb)

variable [Lua] [Codec] {cfg : ServerConfig} {rd : Readings} {c : Command} {srv : Server} {conn : ConnState}

omit [Lua] [Codec] in
theorem plain_authArm (auth : Option AuthManager) (username : Option Bytes) (password : Bytes) :
    ∃ r, (authArm auth username password srv conn).1 = some r ∧ r.Plain := by
  have hwrong : wrongPass.Plain := oneLine_of_not_mem (by decide)
  have hnone : OneLine (utf8 ("ERR Client sent AUTH, but no password is set. " ++
      "Did you mean AUTH <username> <password>?")) := oneLine_of_not_mem (by decide)
  cases auth with
  | none => exact ⟨_, rfl, hnone⟩
  | some am =>
      rw [authArm]
      split
      · exact ⟨_, rfl, trivial⟩
      · exact ⟨_, rfl, hwrong⟩

variable (cfg conn) in
/-- A command is dispatched to its storage arm, or is a `PUBLISH` or an `AUTH`, which have fixed replies. -/
theorem perform_reply (htx : txControl c = none) (hspecial : special c = false) :
    (∃ a, arm rd.env c = some a ∧ (perform cfg rd c srv conn).1 = (a.run srv.storage).1) ∨
      (arm rd.env c = none ∧ refusedId rd.env.now srv.storage c = none ∧
        ∃ r, (perform cfg rd c srv conn).1 = some r ∧ r.Plain) := by
  cases hs : sessionCommand c with
  | false =>
      obtain ⟨a, ha⟩ := arm_isSome rd.env htx hs
      exact Or.inl ⟨a, ha, by rw [perform_arm ha]⟩
  | true =>
      cases c with
      | publish channel payload => exact Or.inr ⟨rfl, rfl, _, rfl, trivial⟩
      | auth username password => exact Or.inr ⟨rfl, rfl, plain_authArm cfg.auth username password⟩
      | subscribe _ => cases hspecial
      | unsubscribe _ => cases hspecial
      | luaEval _ _ _ => cases hspecial
      | luaEvalSha _ _ _ => cases hspecial
      | _ => cases hs

theorem perform_panics_iff (htx : txControl c = none) (hspecial : special c = false) :
    (perform cfg rd c srv conn).1 = none ↔ Panics rd.env c srv.storage := by
  rcases perform_reply cfg conn htx hspecial with ⟨a, ha, hreply⟩ | ⟨ha, -, r, hreply, -⟩
  · rw [hreply]
    refine ⟨fun h => ⟨a, ha, h⟩, ?_⟩
    rintro ⟨b, hb, h⟩
    cases ha.symm.trans hb
    exact h
  · rw [hreply]
    refine ⟨fun h => (by cases h), ?_⟩
    rintro ⟨b, hb, -⟩
    cases ha.symm.trans hb

theorem perform_framed (htx : txControl c = none) (hspecial : special c = false)
    (hid : refusedId rd.env.now srv.storage c = none) {r : Response}
    (h : (perform cfg rd c srv conn).1 = some r) : r.Framed := by
  rcases perform_reply cfg conn htx hspecial with ⟨a, ha, hreply⟩ | ⟨-, -, r', hreply, hplain⟩
  · rw [hreply] at h
    exact arm_framed ha hid h
  · rw [hreply] at h
    cases h
    exact .plain hplain

theorem perform_refused (htx : txControl c = none) (hspecial : special c = false) {id : Bytes}
    (hid : refusedId rd.env.now srv.storage c = some id) :
    (perform cfg rd c srv conn).1 = some (.error (StreamId.invalid id)) := by
  rcases perform_reply cfg conn htx hspecial with ⟨a, ha, hreply⟩ | ⟨-, hnone, -⟩
  · rw [hreply]
    exact arm_refused ha hid
  · rw [hnone] at hid
    cases hid

omit [Lua] in
/-- The storage a command is dispatched on: the write chokepoint does not touch it. -/
theorem storage_logged (srv : Server) (timestamp : UInt64) (c : Command) :
    (if isWriteCommand c then srv.logWrite timestamp c else srv).storage = srv.storage := by
  split
  · rfl
  · rfl

variable (cfg rd srv conn) in
/-- **What `execute_command` replies to a command it dispatches**: nothing if the arm panics, the refusal of a stream
    id if there is one, and else one frame. -/
theorem executePlain_reply {c : QueuedCommand} (hgate : gate cfg conn c = none) (hspecial : special c = false) :
    ((executePlain cfg rd c srv conn).1 = none ↔ Panics rd.env c srv.storage) ∧
      (∀ id, refusedId rd.env.now srv.storage c = some id →
        (executePlain cfg rd c srv conn).1 = some (.error (StreamId.invalid id))) ∧
      (refusedId rd.env.now srv.storage c = none → ∀ r, (executePlain cfg rd c srv conn).1 = some r → r.Framed) := by
  have hstorage := storage_logged srv rd.env.unixMs c
  rw [executePlain, hgate]
  simp only
  generalize (if isWriteCommand c then srv.logWrite rd.env.unixMs c else srv) = logged at hstorage
  rw [← hstorage]
  refine ⟨perform_panics_iff c.2 hspecial, fun id hid => perform_refused c.2 hspecial hid, fun hid r hr => ?_⟩
  exact perform_framed c.2 hspecial hid hr

end Dispatch

/-! ## One frame -/

section Frames

variable [KeyHash] [Lua] [Codec] [UnicodeTables]

/-- The command is dispatched when it arrives: it is not queued, and the gates let it through. -/
def DispatchedAtOnce (cfg : ServerConfig) (conn : ConnState) (c : Command) : Prop :=
  txControl c = none ∧ conn.tx.inMulti = false ∧ gate cfg conn c = none

/-- Serving the frame neither panics nor quotes a line end of the client's. -/
structure TidyAt (cfg : ServerConfig) (supply : Supply) (s : Serving) (v : RespValue) : Prop where
  /-- A refusal by `parse_command` quotes one line. -/
  quoted : ∀ text quoted, parseCommand v = .error (.err text) → Quotes v text quoted → OneLine quoted
  /-- A dispatched command does not panic. -/
  noPanic : ∀ c, parseCommand v = .ok c → DispatchedAtOnce cfg s.conn c →
    ¬ Panics (supply s.frames).1.env c s.server.storage
  /-- A refused stream id is one line. -/
  streamId : ∀ c, parseCommand v = .ok c → DispatchedAtOnce cfg s.conn c →
    ∀ id, refusedId (supply s.frames).1.env.now s.server.storage c = some id → OneLine id

variable {cfg : ServerConfig} {supply : Supply} {s : Serving} {v : RespValue}

omit [UnicodeTables] in
/-- Transaction control other than `EXEC` has fixed replies. -/
theorem plain_control {t : TxControl} (ht : t ≠ .exec) (rd : Nat → Readings) (srv : Server) (conn : ConnState) :
    ∃ r, (control cfg rd t srv conn).1 = some r ∧ r.Plain := by
  have hplain : ∀ (b : Bool) (text : Bytes) (tx : TxState), OneLine text →
      ∃ r, (if b then (some (.error text), srv, conn) else (some .ok, srv, { conn with tx := tx }) : Outcome).1
        = some r ∧ r.Plain := by
    intro b text tx htext
    cases b with
    | true => exact ⟨_, rfl, htext⟩
    | false => exact ⟨_, rfl, trivial⟩
  cases t with
  | exec => exact absurd rfl ht
  | multi => exact hplain _ _ _ (oneLine_of_not_mem (by decide))
  | discard => exact hplain _ _ _ (oneLine_of_not_mem (by decide))
  | watch keys => exact hplain _ _ _ (oneLine_of_not_mem (by decide))
  | unwatch => exact ⟨_, rfl, trivial⟩

omit [KeyHash] [Lua] [Codec] [UnicodeTables] in
theorem framed_queued : (Response.raw (utf8 "+QUEUED\r\n")).Framed :=
  .fixed (v := .simpleString (utf8 "QUEUED")) (by rfl)

omit [UnicodeTables] in
theorem execute_dispatched {c : Command} (h : DispatchedAtOnce cfg s.conn c) (rd : Readings) (queued : Nat → Readings) :
    execute cfg ⟨c, rd, queued⟩ s.server s.conn = executePlain cfg rd ⟨c, h.1⟩ s.server s.conn :=
  execute_plain rfl h.2.1

omit [UnicodeTables] in
/-- A command that is queued, refused by a gate or transaction control is answered with one frame. -/
theorem execute_not_dispatched (haddr : cfg.AddressesOneLine) {c : Command} {srv : Server} {conn : ConnState}
    (hspecial : special c = false) (h : ¬ DispatchedAtOnce cfg conn c) (rd : Readings) (queued : Nat → Readings) :
    ∃ r, (execute cfg ⟨c, rd, queued⟩ srv conn).1 = some r ∧ r.Framed := by
  unfold execute
  split
  · rename_i htx
    split
    · exact ⟨_, rfl, framed_queued⟩
    · rename_i hmulti
      cases hgate : gate cfg conn c with
      | none => exact absurd ⟨htx, Bool.eq_false_iff.mpr hmulti, hgate⟩ h
      | some r =>
          refine ⟨r, ?_, .plain (plain_gate haddr hgate)⟩
          rw [executePlain, hgate]
  · rename_i t ht
    split
    · rename_i r hgate
      exact ⟨r, rfl, .plain (plain_gate haddr hgate)⟩
    · have hexec : t ≠ .exec := by
        rintro rfl
        cases c <;> first | (cases ht; done) | cases hspecial
      obtain ⟨r, hr, hplain⟩ := plain_control hexec queued srv conn
      exact ⟨r, hr, .plain hplain⟩

omit [KeyHash] [Lua] [Codec] in
/-- The command a frame that names no special command stands for is not special. -/
theorem special_eq_false (hv : v.Utf8Texts) (hname : ¬ Names specialNames v) {c : Command}
    (h : parseCommand v = .ok c) : special c = false := by
  have hyields := parseCommand_yields hv
  rw [h] at hyields
  rw [← Bool.not_eq_true]
  exact fun hc => hname (hyields hc)

omit [KeyHash] [Lua] [Codec] [UnicodeTables] in
theorem oneLine_err {text : Bytes} : OneLine (utf8 "ERR " ++ text) ↔ OneLine text := oneLine_append (by decide)

omit [KeyHash] [Lua] [Codec] [UnicodeTables] in
theorem oneLine_invalid {id : Bytes} : OneLine (StreamId.invalid id) ↔ OneLine id := oneLine_append (by decide)

theorem serveFrame_ok {c : Command} (hc : parseCommand v = .ok c) :
    (serveFrame cfg supply s v).1
      = (execute cfg ⟨c, (supply s.frames).1, (supply s.frames).2⟩ s.server s.conn).1 := by
  rw [serveFrame, hc]

theorem serveFrame_err {text : Bytes} (hc : parseCommand v = .error (.err text)) :
    (serveFrame cfg supply s v).1 = some (.error (utf8 "ERR " ++ text)) := by
  rw [serveFrame, hc]

/-- **A tidy frame is answered with one frame.** -/
theorem serveFrame_tidy (haddr : cfg.AddressesOneLine) (hv : v.Utf8Texts) (hname : ¬ Names specialNames v)
    (h : TidyAt cfg supply s v) : ∃ r, (serveFrame cfg supply s v).1 = some r ∧ r.Framed := by
  have hyields := parseCommand_yields hv
  cases hc : parseCommand v with
  | error e =>
      rw [hc] at hyields
      cases e with
      | panic => exact hyields.elim
      | err text =>
          refine ⟨_, serveFrame_err hc, .plain (oneLine_err.mpr ?_)⟩
          rcases hyields with hone | ⟨quoted, hquoted⟩
          · exact hone
          · exact hquoted.oneLine_iff.mpr (h.quoted text quoted hc hquoted)
  | ok c =>
      have hspecial := special_eq_false hv hname hc
      rw [serveFrame_ok hc]
      by_cases hd : DispatchedAtOnce cfg s.conn c
      · rw [execute_dispatched hd]
        obtain ⟨hnone, hrefused, hframed⟩ :=
          executePlain_reply cfg (supply s.frames).1 s.server s.conn (c := ⟨c, hd.1⟩) hd.2.2 hspecial
        obtain ⟨r, hr⟩ := Option.ne_none_iff_exists'.mp (hnone.not.mpr (h.noPanic c hc hd))
        refine ⟨r, hr, ?_⟩
        cases hid : refusedId (supply s.frames).1.env.now s.server.storage c with
        | none => exact hframed hid r hr
        | some id =>
            cases (hrefused id hid).symm.trans hr
            exact .plain (oneLine_invalid.mpr (h.streamId c hc hd id hid))
      · exact execute_not_dispatched haddr hspecial hd _ _

/-- **A frame that is not tidy is not answered, or with a text of several lines.** -/
theorem serveFrame_untidy (hv : v.Utf8Texts) (hname : ¬ Names specialNames v) (h : ¬ TidyAt cfg supply s v) :
    (serveFrame cfg supply s v).1 = none ∨
      ∃ text, (serveFrame cfg supply s v).1 = some (.error text) ∧ ¬ OneLine text := by
  by_contra hno
  rw [not_or] at hno
  obtain ⟨hsome, hone⟩ := hno
  have hdispatched : ∀ c, parseCommand v = .ok c → ∀ hd : DispatchedAtOnce cfg s.conn c,
      (serveFrame cfg supply s v).1 = (executePlain cfg (supply s.frames).1 ⟨c, hd.1⟩ s.server s.conn).1 := by
    intro c hc hd
    rw [serveFrame_ok hc, execute_dispatched hd]
  refine h ⟨fun text quoted hc hquoted => ?_, fun c hc hd hpanic => ?_, fun c hc hd id hid => ?_⟩
  · by_contra hlines
    exact hone ⟨_, serveFrame_err hc, fun h => hlines (hquoted.oneLine_iff.mp (oneLine_err.mp h))⟩
  · obtain ⟨hnone, -, -⟩ := executePlain_reply cfg (supply s.frames).1 s.server s.conn (c := ⟨c, hd.1⟩) hd.2.2
      (special_eq_false hv hname hc)
    exact hsome ((hdispatched c hc hd).trans (hnone.mpr hpanic))
  · obtain ⟨-, hrefused, -⟩ := executePlain_reply cfg (supply s.frames).1 s.server s.conn (c := ⟨c, hd.1⟩) hd.2.2
      (special_eq_false hv hname hc)
    by_contra hlines
    exact hone ⟨_, (hdispatched c hc hd).trans (hrefused id hid), fun h => hlines (oneLine_invalid.mp h)⟩

/-! ## The whole stream -/

/-- Every frame is tidy when its turn comes. -/
def Tidy (cfg : ServerConfig) (supply : Supply) : List RespValue → Serving → Prop
  | [], _ => True
  | v :: vs, s => TidyAt cfg supply s v ∧ Tidy cfg supply vs (serveFrame cfg supply s v).2

omit [KeyHash] [Lua] [Codec] [UnicodeTables] in
/-- The bytes decode to `n` values and nothing is left over: the `i`-th is what the `i`-th reply decodes to. -/
def OneFramePerRequest (n : Nat) (written : Bytes) (replies : List Response) : Prop :=
  ∃ values, parseResp.times n written = .ok (values, []) ∧
    List.Forall₂ (fun r w => Complete (serializeResponse r) w) replies values

theorem replies_of_tidy (haddr : cfg.AddressesOneLine) {vs : List RespValue} (hvs : ∀ v ∈ vs, v.Utf8Texts)
    (hnames : ∀ v ∈ vs, ¬ Names specialNames v) (h : Tidy cfg supply vs s) :
    (serveFrames cfg supply vs s).stopped = false ∧ (serveFrames cfg supply vs s).replies.length = vs.length ∧
      ∀ r ∈ (serveFrames cfg supply vs s).replies, r.Framed := by
  induction vs generalizing s with
  | nil => exact ⟨rfl, rfl, by simp [serveFrames]⟩
  | cons v vs ih =>
      obtain ⟨r, hr, hframed⟩ := serveFrame_tidy haddr (hvs v List.mem_cons_self) (hnames v List.mem_cons_self) h.1
      obtain ⟨hno, hlen, hall⟩ := ih (fun w hw => hvs w (List.mem_cons_of_mem _ hw))
        (fun w hw => hnames w (List.mem_cons_of_mem _ hw)) h.2
      have hserve : serveFrame cfg supply s v = (some r, (serveFrame cfg supply s v).2) := Prod.ext hr rfl
      rw [serveFrames_cons_some vs hserve]
      refine ⟨hno, congrArg (· + 1) hlen, fun r' hr' => ?_⟩
      rcases List.mem_cons.mp hr' with rfl | hr'
      · exact hframed
      · exact hall r' hr'

theorem tidy_of_replies {vs : List RespValue} (hvs : ∀ v ∈ vs, v.Utf8Texts)
    (hnames : ∀ v ∈ vs, ¬ Names specialNames v)
    (hlen : (serveFrames cfg supply vs s).replies.length = vs.length)
    (hone : ∀ r ∈ (serveFrames cfg supply vs s).replies, r.OneFrame) : Tidy cfg supply vs s := by
  induction vs generalizing s with
  | nil => exact trivial
  | cons v vs ih =>
      cases hserve : serveFrame cfg supply s v with
      | mk reply s' =>
          cases reply with
          | none =>
              rw [serveFrames_cons_none vs hserve] at hlen
              cases hlen
          | some r =>
              rw [serveFrames_cons_some vs hserve] at hlen hone
              refine ⟨?_, ?_⟩
              · by_contra htidy
                rcases serveFrame_untidy (hvs v List.mem_cons_self) (hnames v List.mem_cons_self) htidy with
                  hnone | ⟨text, htext, hlines⟩
                · rw [hserve] at hnone
                  cases hnone
                · rw [hserve] at htext
                  cases htext
                  exact hlines ((complete_error_iff text).mp (hone _ List.mem_cons_self))
              · rw [hserve]
                exact ih (fun w hw => hvs w (List.mem_cons_of_mem _ hw))
                  (fun w hw => hnames w (List.mem_cons_of_mem _ hw)) (Nat.succ.inj hlen)
                  fun r hr => hone r (List.mem_cons_of_mem _ hr)

omit [KeyHash] [Lua] [Codec] [UnicodeTables] in
/-- Replies that are one frame each, and the values they decode to. -/
theorem exists_values_iff {replies : List Response} :
    (∃ values, List.Forall₂ (fun r w => Complete (serializeResponse r) w) replies values)
      ↔ ∀ r ∈ replies, r.OneFrame := by
  induction replies with
  | nil => exact ⟨fun _ r hr => absurd hr List.not_mem_nil, fun _ => ⟨[], List.Forall₂.nil⟩⟩
  | cons r replies ih =>
      rw [List.forall_mem_cons, ← ih]
      constructor
      · rintro ⟨values, hvalues⟩
        obtain ⟨w, ws, hw, hws, rfl⟩ := List.forall₂_cons_left_iff.mp hvalues
        exact ⟨⟨w, hw⟩, ws, hws⟩
      · rintro ⟨⟨w, hw⟩, ws, hws⟩
        exact ⟨w :: ws, List.Forall₂.cons hw hws⟩

/-- **One reply frame per request, exactly when every frame is tidy**: however the frames are cut into reads, the
    bytes written decode to one value for each, in order. -/
theorem oneFramePerRequest_iff (cfg : ServerConfig) (haddr : cfg.AddressesOneLine) (supply : Supply) (s : Serving)
    (fs : Stream) (hfs : fs.Whole) (hnames : ∀ v ∈ fs.values, ¬ Names specialNames v)
    (hfits : ∀ r ∈ (serveFrames cfg supply fs.values s).replies, r.Fits) (chunks : List Bytes)
    (hreads : ReadsOf cfg supply s fs chunks) :
    OneFramePerRequest fs.length (handleConnection cfg supply s chunks).written
        (serveFrames cfg supply fs.values s).replies
      ↔ Tidy cfg supply fs.values s := by
  have hlength : fs.values.length = fs.length := List.length_map _
  have hutf : ∀ v ∈ fs.values, v.Utf8Texts := by
    intro v hv
    obtain ⟨f, hf, rfl⟩ := List.mem_map.mp hv
    exact (hfs f hf).utf8Texts
  obtain ⟨-, -, hwritten, -⟩ := served_of_reads cfg supply s hfs chunks hreads.bytes hreads.bounded
  refine ⟨?_, fun htidy => ?_⟩
  · rintro ⟨values, htimes, hvalues⟩
    refine tidy_of_replies hutf hnames ?_ (exists_values_iff.mp ⟨values, hvalues⟩)
    rw [hlength, hvalues.length_eq, Parser.length_times htimes]
  · obtain ⟨hno, hlen, hframed⟩ := replies_of_tidy haddr hutf hnames htidy
    obtain ⟨values, hvalues⟩ := exists_values_iff.mpr fun r hr => (hframed r hr).oneFrame (hfits r hr)
    refine ⟨values, ?_, hvalues⟩
    have hdecode := decodes_of_complete (List.forall₂_map_left_iff.mpr hvalues)
    rw [← hvalues.length_eq, hlen, hlength, ← List.flatMap_def] at hdecode
    rw [hwritten hno]
    exact hdecode

omit [KeyHash] [Lua] [Codec] in
theorem not_names {names : List Bytes} {first : RespValue} {rest : List RespValue} {word : Bytes}
    (hword : commandWord first = .ok word) (hno : word ∉ names) : ¬ Names names (.array (first :: rest)) := by
  rintro ⟨first', rest', word', he, hword', hin⟩
  cases he
  cases hword.symm.trans hword'
  exact hno hin

theorem readsOf_whole {fs : Stream} (hfs : fs.Whole) (hne : fs ≠ []) : ReadsOf cfg supply s fs [fs.bytes] where
  nonempty := by
    intro chunk hchunk
    rw [List.mem_singleton.mp hchunk]
    exact Stream.bytes_ne_nil hfs hne
  bytes := by simp
  bounded := (handle_whole cfg supply s hfs).1

end Frames

/-- `PING` and a command that does not exist. -/
theorem oneFramePerRequest_ping_unknown :
    let _ := smallKeys
    let _ := noScripts
    let _ := incrCodec
    let _ := noEscapes
    OneFramePerRequest 2
      (handleConnection ⟨none, none, none⟩ plainSupply Serving.fresh
        [(requests [[utf8 "PING"], [utf8 "GETT"]]).bytes]).written
      [.value (utf8 "PONG"), .error (utf8 "ERR Unknown command: GETT")] := by
  intro _ _ _ _
  have hwhole : (requests [[utf8 "PING"], [utf8 "GETT"]]).Whole := whole_requests (by decide) (by decide)
  have hreplies : (serveFrames ⟨none, none, none⟩ plainSupply
      (requests [[utf8 "PING"], [utf8 "GETT"]]).values Serving.fresh).replies
        = [.value (utf8 "PONG"), .error (utf8 "ERR Unknown command: GETT")] := by
    decide
  have htidy : Tidy ⟨none, none, none⟩ plainSupply (requests [[utf8 "PING"], [utf8 "GETT"]]).values Serving.fresh := by
    have hping : parseCommand (request [utf8 "PING"]) = .ok .ping := by rfl
    have hgett : parseCommand (request [utf8 "GETT"]) = .error (.err (utf8 "Unknown command: GETT")) := by rfl
    refine ⟨⟨fun text quoted hc _ => ?_, fun c hc _ hpanic => ?_, fun c hc _ id hid => ?_⟩,
      ⟨fun text quoted hc hquoted => ?_, fun c hc _ => ?_, fun c hc _ => ?_⟩, trivial⟩
    · cases hping.symm.trans hc
    · cases hping.symm.trans hc
      obtain ⟨a, ha, hnone⟩ := hpanic
      cases ha
      cases hnone
    · cases hping.symm.trans hc
      cases hid
    · cases hgett.symm.trans hc
      exact hquoted.oneLine_iff.mp (by decide)
    · cases hgett.symm.trans hc
    · cases hgett.symm.trans hc
  have h := (oneFramePerRequest_iff ⟨none, none, none⟩ (fun ring h => by cases h) plainSupply Serving.fresh _ hwhole
    ?_ ?_ _ (readsOf_whole hwhole (by decide))).mpr htidy
  · rw [hreplies] at h
    exact h
  · intro v hv
    have hv' : v ∈ [request [utf8 "PING"], request [utf8 "GETT"]] := hv
    rcases List.mem_cons.mp hv' with rfl | hv'
    · exact not_names (show commandWord _ = .ok (utf8 "PING") from rfl) (by decide)
    · rw [List.mem_singleton.mp hv']
      exact not_names (show commandWord _ = .ok (utf8 "GETT") from rfl) (by decide)
  · rw [hreplies]
    intro r hr
    rcases List.mem_cons.mp hr with rfl | hr
    · exact ⟨fun n h => (by cases h), by decide⟩
    · rw [List.mem_singleton.mp hr]
      exact ⟨fun n h => (by cases h), by decide⟩

/-- A command name with a line end in it: its reply is two frames. -/
theorem unknown_name_splits_reply :
    let _ := smallKeys
    let _ := noScripts
    let _ := incrCodec
    let _ := noEscapes
    (handleConnection ⟨none, none, none⟩ plainSupply Serving.fresh [(requests [[utf8 "X\r\n+OK"]]).bytes]).written
        = utf8 "-ERR Unknown command: X\r\n+OK\r\n" ∧
      ¬ OneFramePerRequest 1
        (handleConnection ⟨none, none, none⟩ plainSupply Serving.fresh
          [(requests [[utf8 "X\r\n+OK"]]).bytes]).written
        (serveFrames ⟨none, none, none⟩ plainSupply (requests [[utf8 "X\r\n+OK"]]).values Serving.fresh).replies := by
  intro _ _ _ _
  have hreplies : (serveFrames ⟨none, none, none⟩ plainSupply
      (requests [[utf8 "X\r\n+OK"]]).values Serving.fresh).replies
        = [.error (utf8 "ERR Unknown command: X\r\n+OK")] := by
    decide
  refine ⟨by decide, ?_⟩
  rintro ⟨values, -, hvalues⟩
  have hone := exists_values_iff.mp ⟨values, hvalues⟩
  rw [hreplies] at hone
  have hline := (complete_error_iff _).mp (hone _ List.mem_cons_self)
  revert hline
  decide

end FerricCache
