import FerricCache.Server.Execute
import FerricCache.Protocol.ParseCommand
import FerricCache.Protocol.Frames

/-!
# `FerricCache.Server.Pipeline` — the read loop of a connection

`handle_connection` appends what a read brought to its buffer, serves every complete frame in it and writes the
replies of the batch at once. A command that panics or never returns stops the task, with the replies it has not
written yet.

Where the reads cut the stream does not matter to what is executed (`served_of_reads`). It matters to what is
written only if a command stops the task after one that was answered (`cutInvariant_iff`).
-/

namespace FerricCache

open Lib

variable [KeyHash] [Lua] [Codec] [UnicodeTables]

/-- What serving a frame may change, the commands executed so far, and the number of frames served: it tells
    which readings the next frame gets. -/
structure Serving where
  server : Server
  conn : ConnState
  executed : List Command
  frames : Nat

/-- The readings of each frame and of the commands it may release. -/
abbrev Supply := Nat → Readings × (Nat → Readings)

/-- One frame served; without a reply the task stops. -/
def serveFrame (cfg : ServerConfig) (supply : Supply) (s : Serving) (v : RespValue) : Option Response × Serving :=
  match parseCommand v with
  | .ok c =>
      let r := execute cfg ⟨c, (supply s.frames).1, (supply s.frames).2⟩ s.server s.conn
      (r.1, ⟨r.2.1, r.2.2, s.executed ++ [c], s.frames + 1⟩)
  | .error (.err e) => (some (.error (utf8 "ERR " ++ e)), { s with frames := s.frames + 1 })
  | .error .panic => (none, s)

/-- What is left after a batch: the replies, the bytes that are not a frame yet, and whether the task
    stopped, at a panic or in a script that never returns. -/
structure Batch where
  out : Bytes
  rest : Bytes
  serving : Serving
  stopped : Bool

/-- The loop over the buffer, for at most `fuel` frames. -/
def drain (cfg : ServerConfig) (supply : Supply) : Nat → Bytes → Serving → Batch
  | 0, buffer, s => ⟨[], buffer, s, false⟩
  | fuel + 1, buffer, s =>
      if buffer = [] then ⟨[], [], s, false⟩
      else
        match parseResp buffer with
        | .ok (v, rest) =>
            match serveFrame cfg supply s v with
            | (some reply, s') =>
                let b := drain cfg supply fuel rest s'
                { b with out := serializeResponse reply ++ b.out }
            | (none, s') => ⟨[], rest, s', true⟩
        | .error (.err _) => ⟨[], buffer, s, false⟩
        | .error .panic => ⟨[], buffer, s, true⟩

/-- The state of a connection's task. -/
structure Task where
  serving : Serving
  buffer : Bytes
  written : Bytes
  stopped : Bool
  overflowed : Bool

/-- A new connection. -/
def Task.start (s : Serving) : Task := ⟨s, [], [], false, false⟩

/-- One read. A task that stopped or gave up reads nothing. -/
def Task.read (cfg : ServerConfig) (supply : Supply) (t : Task) (chunk : Bytes) : Task :=
  if t.stopped || t.overflowed then t
  else
    let b := drain cfg supply (t.buffer ++ chunk).length (t.buffer ++ chunk) t.serving
    if b.stopped then { t with serving := b.serving, buffer := b.rest, stopped := true }
    else ⟨b.serving, b.rest, t.written ++ b.out, false, decide (1024 * 1024 < b.rest.length)⟩

/-- `handle_connection`, over the chunks its reads bring. -/
def handleConnection (cfg : ServerConfig) (supply : Supply) (s : Serving) (chunks : List Bytes) : Task :=
  chunks.foldl (Task.read cfg supply) (Task.start s)

/-! ## Frames served in turn -/

/-- The replies to the frames up to the one the task stops at, and what they left. -/
structure Served where
  replies : List Response
  serving : Serving
  stopped : Bool

def serveFrames (cfg : ServerConfig) (supply : Supply) : List RespValue → Serving → Served
  | [], s => ⟨[], s, false⟩
  | v :: vs, s =>
      match serveFrame cfg supply s v with
      | (some reply, s') =>
          let r := serveFrames cfg supply vs s'
          { r with replies := reply :: r.replies }
      | (none, s') => ⟨[], s', true⟩

variable {cfg : ServerConfig} {supply : Supply}

theorem serveFrames_cons_some {s s' : Serving} {v : RespValue} {reply : Response} (vs : List RespValue)
    (h : serveFrame cfg supply s v = (some reply, s')) :
    serveFrames cfg supply (v :: vs) s
      = { serveFrames cfg supply vs s' with replies := reply :: (serveFrames cfg supply vs s').replies } := by
  simp only [serveFrames, h]

theorem serveFrames_cons_none {s s' : Serving} {v : RespValue} (vs : List RespValue)
    (h : serveFrame cfg supply s v = (none, s')) : serveFrames cfg supply (v :: vs) s = ⟨[], s', true⟩ := by
  simp only [serveFrames, h]

/-- Frames after the task stopped are not served. -/
theorem serveFrames_append_stopped {vs : List RespValue} {s : Serving} (ws : List RespValue)
    (h : (serveFrames cfg supply vs s).stopped = true) :
    serveFrames cfg supply (vs ++ ws) s = serveFrames cfg supply vs s := by
  induction vs generalizing s with
  | nil => cases h
  | cons v vs ih =>
      cases hv : serveFrame cfg supply s v with
      | mk reply s' =>
          cases reply with
          | none => rw [List.cons_append, serveFrames_cons_none _ hv, serveFrames_cons_none _ hv]
          | some reply =>
              rw [serveFrames_cons_some _ hv] at h
              rw [List.cons_append, serveFrames_cons_some _ hv, serveFrames_cons_some _ hv, ih h]

theorem serveFrames_append {vs : List RespValue} {s : Serving} (ws : List RespValue)
    (h : (serveFrames cfg supply vs s).stopped = false) :
    serveFrames cfg supply (vs ++ ws) s
      = { serveFrames cfg supply ws (serveFrames cfg supply vs s).serving with
          replies := (serveFrames cfg supply vs s).replies ++
            (serveFrames cfg supply ws (serveFrames cfg supply vs s).serving).replies } := by
  induction vs generalizing s with
  | nil => rfl
  | cons v vs ih =>
      cases hv : serveFrame cfg supply s v with
      | mk reply s' =>
          cases reply with
          | none =>
              rw [serveFrames_cons_none _ hv] at h
              cases h
          | some reply =>
              rw [serveFrames_cons_some _ hv] at h
              rw [List.cons_append, serveFrames_cons_some _ hv, serveFrames_cons_some _ hv, ih h]
              rfl

/-- The task stops after frames that were answered. -/
theorem serveFrames_split {vs : List RespValue} {s : Serving}
    (h : (serveFrames cfg supply vs s).stopped = true) :
    ∃ before v after, vs = before ++ v :: after ∧ (serveFrames cfg supply before s).stopped = false ∧
      (serveFrames cfg supply before s).replies = (serveFrames cfg supply vs s).replies := by
  induction vs generalizing s with
  | nil => cases h
  | cons v vs ih =>
      cases hv : serveFrame cfg supply s v with
      | mk reply s' =>
          cases reply with
          | none => exact ⟨[], v, vs, rfl, rfl, by rw [serveFrames_cons_none _ hv]; rfl⟩
          | some reply =>
              rw [serveFrames_cons_some _ hv] at h
              obtain ⟨before, w, after, rfl, hno, hreplies⟩ := ih h
              refine ⟨v :: before, w, after, rfl, ?_, ?_⟩
              · rw [serveFrames_cons_some _ hv]
                exact hno
              · rw [serveFrames_cons_some _ hv, serveFrames_cons_some _ hv, hreplies]

/-! ## One batch -/

omit [KeyHash] [Lua] [Codec] [UnicodeTables] in
/-- A stream of frames, and the values they carry. -/
abbrev Stream := List (Bytes × RespValue)

/-- The bytes of a stream. -/
def Stream.bytes (fs : Stream) : Bytes := fs.flatMap Prod.fst

/-- The values of a stream. -/
def Stream.values (fs : Stream) : List RespValue := fs.map Prod.snd

/-- Every frame is a whole one. -/
def Stream.Whole (fs : Stream) : Prop := ∀ f ∈ fs, Complete f.1 f.2

variable (cfg supply) in
/-- **A buffer of whole frames and the start of another**: the frames are served, the start is kept. -/
theorem drain_frames (fs : Stream) (hfs : fs.Whole) {p : Bytes} (hp : Incomplete p) (fuel : Nat) (s : Serving)
    (hfuel : (fs.bytes ++ p).length ≤ fuel) :
    (drain cfg supply fuel (fs.bytes ++ p) s).stopped = (serveFrames cfg supply fs.values s).stopped ∧
      (drain cfg supply fuel (fs.bytes ++ p) s).serving = (serveFrames cfg supply fs.values s).serving ∧
      ((serveFrames cfg supply fs.values s).stopped = false →
        (drain cfg supply fuel (fs.bytes ++ p) s).out
            = (serveFrames cfg supply fs.values s).replies.flatMap serializeResponse ∧
          (drain cfg supply fuel (fs.bytes ++ p) s).rest = p) := by
  induction fs generalizing fuel s with
  | nil =>
      -- nothing whole is left
      have hkeep : drain cfg supply fuel p s = ⟨[], p, s, false⟩ := by
        cases fuel with
        | zero => rfl
        | succ fuel =>
            by_cases hne : p = []
            · rw [hne, drain, if_pos rfl]
            · obtain ⟨text, hp⟩ := hp.resolve_left hne
              rw [drain, if_neg hne, hp]
      rw [show Stream.bytes [] ++ p = p from rfl, hkeep]
      exact ⟨rfl, rfl, fun _ => ⟨rfl, rfl⟩⟩
  | cons f fs ih =>
      obtain ⟨c, v⟩ := f
      have hc : Complete c v := hfs (c, v) List.mem_cons_self
      have hbytes : Stream.bytes ((c, v) :: fs) ++ p = c ++ (Stream.bytes fs ++ p) := List.append_assoc ..
      have hpos := List.length_pos_iff.mpr hc.ne_nil
      rw [hbytes] at hfuel ⊢
      rw [List.length_append] at hfuel
      cases fuel with
      | zero => omega
      | succ fuel =>
          have hne : c ++ (Stream.bytes fs ++ p) ≠ [] := fun h => hc.ne_nil (List.append_eq_nil_iff.mp h).1
          have hrest := ih (fun f hf => hfs f (List.mem_cons_of_mem _ hf)) fuel
          rw [drain, if_neg hne, hc.reads (Stream.bytes fs ++ p)]
          rw [show Stream.values ((c, v) :: fs) = v :: Stream.values fs from rfl]
          cases hv : serveFrame cfg supply s v with
          | mk reply s' =>
              cases reply with
              | none =>
                  rw [serveFrames_cons_none _ hv]
                  simp only [hv]
                  exact ⟨trivial, trivial, fun h => by cases h⟩
              | some reply =>
                  rw [serveFrames_cons_some _ hv]
                  simp only [hv]
                  obtain ⟨hpan, hserv, hout⟩ := hrest s' (by omega)
                  refine ⟨hpan, hserv, fun h => ?_⟩
                  rw [(hout h).1, (hout h).2]
                  exact ⟨rfl, rfl⟩

omit [KeyHash] [Lua] [Codec] [UnicodeTables] in
/-- Wherever a stream is cut, whole frames come before the cut and an incomplete one at it. -/
theorem Stream.cut (fs : Stream) (hfs : fs.Whole) {d w : Bytes} (h : d ++ w = fs.bytes) :
    ∃ (done todo : Stream) (p : Bytes), fs = done ++ todo ∧ d = done.bytes ++ p ∧ Incomplete p ∧
      p ++ w = todo.bytes := by
  induction fs generalizing d with
  | nil =>
      obtain ⟨rfl, rfl⟩ := List.append_eq_nil_iff.mp h
      exact ⟨[], [], [], rfl, rfl, Or.inl rfl, rfl⟩
  | cons f fs ih =>
      obtain ⟨c, v⟩ := f
      have hc : Complete c v := hfs (c, v) List.mem_cons_self
      have hrest : Stream.Whole fs := fun f hf => hfs f (List.mem_cons_of_mem _ hf)
      have hbytes : d ++ w = c ++ Stream.bytes fs := h
      rcases List.append_eq_append_iff.mp hbytes with ⟨u, hu, hw⟩ | ⟨d', rfl, hd⟩
      · by_cases hnil : u = []
        · -- the cut lies right after the frame
          rw [hnil, List.append_nil] at hu
          rw [hnil, List.nil_append] at hw
          refine ⟨[(c, v)], fs, [], rfl, ?_, Or.inl rfl, hw⟩
          rw [← hu]
          simp [Stream.bytes]
        · exact ⟨[], (c, v) :: fs, d, rfl, rfl, hc.incomplete hu hnil, h⟩
      · obtain ⟨done, todo, p, rfl, rfl, hp, hpw⟩ := ih hrest hd.symm
        refine ⟨(c, v) :: done, todo, p, rfl, ?_, hp, hpw⟩
        exact (List.append_assoc ..).symm

/-! ## Reads -/

variable (cfg supply) in
/-- What one read of frames does. -/
theorem Task.read_frames (t : Task) {chunk p' : Bytes} (done : Stream) (hdone : done.Whole)
    (hp : Incomplete p') (hbuffer : t.buffer ++ chunk = done.bytes ++ p') (hrun : t.stopped = false)
    (hover : t.overflowed = false) :
    (t.read cfg supply chunk).stopped = (serveFrames cfg supply done.values t.serving).stopped ∧
      (t.read cfg supply chunk).serving = (serveFrames cfg supply done.values t.serving).serving ∧
      ((serveFrames cfg supply done.values t.serving).stopped = true →
        (t.read cfg supply chunk).written = t.written ∧ (t.read cfg supply chunk).overflowed = false) ∧
      ((serveFrames cfg supply done.values t.serving).stopped = false →
        (t.read cfg supply chunk).written
            = t.written ++ (serveFrames cfg supply done.values t.serving).replies.flatMap serializeResponse ∧
          (t.read cfg supply chunk).buffer = p' ∧
          (t.read cfg supply chunk).overflowed = decide (1024 * 1024 < p'.length)) := by
  obtain ⟨hpan, hserv, hout⟩ := drain_frames cfg supply done hdone hp (t.buffer ++ chunk).length t.serving
    (by rw [hbuffer])
  rw [← hbuffer] at hpan hserv hout
  simp only [Task.read, hrun, hover, Bool.or_self, Bool.false_eq_true, if_false]
  cases hb : (drain cfg supply (t.buffer ++ chunk).length (t.buffer ++ chunk) t.serving).stopped with
  | true =>
      rw [hb] at hpan
      rw [if_pos rfl]
      exact ⟨hpan, hserv, fun _ => ⟨rfl, rfl⟩, fun h => absurd (hpan.trans h) (by decide)⟩
  | false =>
      rw [hb] at hpan
      obtain ⟨hbytes, hrest⟩ := hout hpan.symm
      rw [if_neg (by decide)]
      refine ⟨hpan, hserv, fun h => absurd (hpan.trans h) (by decide), fun _ => ?_⟩
      rw [hbytes, hrest]
      exact ⟨rfl, rfl, rfl⟩

/-- Where the task stands after some reads of a stream, with `w` still to come. -/
inductive OnTrack (cfg : ServerConfig) (supply : Supply) (fs : Stream) (s : Serving) (t : Task) (w : Bytes) : Prop
  | running (done todo : Stream) (hfs : fs = done ++ todo)
      (hno : (serveFrames cfg supply done.values s).stopped = false)
      (hserving : t.serving = (serveFrames cfg supply done.values s).serving)
      (hwritten : t.written = (serveFrames cfg supply done.values s).replies.flatMap serializeResponse)
      (hbuffer : t.buffer ++ w = todo.bytes) (hpart : Incomplete t.buffer) (hrun : t.stopped = false)
      (hover : t.overflowed = false)
  | stopped (hpan : (serveFrames cfg supply fs.values s).stopped = true)
      (hserving : t.serving = (serveFrames cfg supply fs.values s).serving)
      (hwritten : ∃ some, some <+: (serveFrames cfg supply fs.values s).replies ∧
        t.written = some.flatMap serializeResponse)
      (hstop : t.stopped = true)

variable {fs : Stream} {s : Serving} {t : Task} {w : Bytes}

omit [KeyHash] [Lua] [Codec] [UnicodeTables] in
theorem Stream.values_append (fs gs : Stream) : (fs ++ gs : Stream).values = fs.values ++ gs.values :=
  List.map_append

theorem OnTrack.read {chunk : Bytes} (hfs : fs.Whole) (h : OnTrack cfg supply fs s t (chunk ++ w))
    (hover : (t.read cfg supply chunk).overflowed = false) :
    OnTrack cfg supply fs s (t.read cfg supply chunk) w := by
  cases h with
  | stopped hpan hserving hwritten hstop =>
      have hsame : t.read cfg supply chunk = t := by
        simp only [Task.read, hstop, Bool.true_or, if_true]
      rw [hsame]
      exact .stopped hpan hserving hwritten hstop
  | running done todo hsplit hno hserving hwritten hbuffer hpart hrun hnot =>
      have htodo : todo.Whole := fun f hf => hfs f (hsplit ▸ List.mem_append_right _ hf)
      rw [← List.append_assoc] at hbuffer
      obtain ⟨now, later, p', rfl, hbytes, hp', hw⟩ := todo.cut htodo hbuffer
      have hnow : now.Whole := fun f hf => htodo f (List.mem_append_left _ hf)
      obtain ⟨hpan, hserv, hstops, hgoes⟩ := t.read_frames cfg supply now hnow hp' hbytes hrun hnot
      rw [hserving] at hpan hserv hstops hgoes
      have hboth := serveFrames_append now.values hno
      cases hr : (serveFrames cfg supply now.values (serveFrames cfg supply done.values s).serving).stopped with
      | true =>
          -- the batch stops, and so does the whole stream at that frame
          have hdone : (serveFrames cfg supply (done.values ++ now.values) s).stopped = true := by
            rw [hboth]
            exact hr
          have hall : serveFrames cfg supply fs.values s
              = serveFrames cfg supply (done.values ++ now.values) s := by
            rw [hsplit, Stream.values_append, Stream.values_append, ← List.append_assoc]
            exact serveFrames_append_stopped _ hdone
          refine .stopped (hall ▸ hdone) ?_ ?_ (hpan.trans hr)
          · rw [hserv, hall, hboth]
          · refine ⟨(serveFrames cfg supply done.values s).replies, ?_, (hstops hr).1.trans hwritten⟩
            rw [hall, hboth]
            exact List.prefix_append _ _
      | false =>
          obtain ⟨hout, hrest, -⟩ := hgoes hr
          refine .running (done ++ now) later ?_ ?_ ?_ ?_ ?_ ?_ (hpan.trans hr) hover
          · rw [hsplit, List.append_assoc]
          · rw [Stream.values_append, hboth]
            exact hr
          · rw [hserv, Stream.values_append, hboth]
          · rw [hout, hwritten, Stream.values_append, hboth, List.flatMap_append]
          · rw [hrest]
            exact hw
          · rw [hrest]
            exact hp'

theorem Task.read_overflowed (t : Task) (chunk : Bytes) (h : t.overflowed = true) :
    t.read cfg supply chunk = t := by
  simp only [Task.read, h, Bool.or_true, if_true]

theorem Task.reads_overflowed (t : Task) (chunks : List Bytes) (h : t.overflowed = true) :
    chunks.foldl (Task.read cfg supply) t = t := by
  induction chunks with
  | nil => rfl
  | cons chunk chunks ih => rw [List.foldl_cons, Task.read_overflowed t chunk h, ih]

theorem OnTrack.reads (hfs : fs.Whole) (chunks : List Bytes) (h : OnTrack cfg supply fs s t chunks.flatten)
    (hover : (chunks.foldl (Task.read cfg supply) t).overflowed = false) :
    OnTrack cfg supply fs s (chunks.foldl (Task.read cfg supply) t) [] := by
  induction chunks generalizing t with
  | nil => exact h
  | cons chunk chunks ih =>
      rw [List.foldl_cons] at hover ⊢
      refine ih (h.read hfs ?_) hover
      by_contra hyes
      rw [Bool.not_eq_false] at hyes
      rw [Task.reads_overflowed _ chunks hyes, hyes] at hover
      cases hover

omit [KeyHash] [Lua] [Codec] [UnicodeTables] in
/-- Whole frames are not incomplete. -/
theorem Stream.eq_nil_of_incomplete (fs : Stream) (hfs : fs.Whole) (h : Incomplete fs.bytes) : fs = [] := by
  cases fs with
  | nil => rfl
  | cons f fs =>
      obtain ⟨c, v⟩ := f
      have hc : Complete c v := hfs (c, v) List.mem_cons_self
      have hparse := hc.reads (Stream.bytes fs)
      rcases h with hnil | ⟨text, herr⟩
      · exact absurd (List.append_eq_nil_iff.mp hnil).1 hc.ne_nil
      · cases hparse.symm.trans herr

variable (cfg supply s) in
/-- **Where the reads cut the stream does not matter to what is executed**, and every reply is written unless a
    command stops the task. -/
theorem served_of_reads (hfs : fs.Whole) (chunks : List Bytes) (hbytes : chunks.flatten = fs.bytes)
    (hover : (handleConnection cfg supply s chunks).overflowed = false) :
    (handleConnection cfg supply s chunks).serving = (serveFrames cfg supply fs.values s).serving ∧
      (handleConnection cfg supply s chunks).stopped = (serveFrames cfg supply fs.values s).stopped ∧
      ((serveFrames cfg supply fs.values s).stopped = false →
        (handleConnection cfg supply s chunks).written
          = (serveFrames cfg supply fs.values s).replies.flatMap serializeResponse) ∧
      ∃ some, some <+: (serveFrames cfg supply fs.values s).replies ∧
        (handleConnection cfg supply s chunks).written = some.flatMap serializeResponse := by
  have hstart : OnTrack cfg supply fs s (Task.start s) chunks.flatten :=
    .running [] fs rfl rfl rfl rfl hbytes (Or.inl rfl) rfl rfl
  cases hstart.reads hfs chunks hover with
  | running done todo hsplit hno hserving hwritten hbuffer hpart hrun _ =>
      rw [List.append_nil] at hbuffer
      have htodo := todo.eq_nil_of_incomplete (fun f hf => hfs f (hsplit ▸ List.mem_append_right _ hf))
        (hbuffer ▸ hpart)
      rw [htodo, List.append_nil] at hsplit
      subst hsplit
      exact ⟨hserving, hrun.trans hno.symm, fun _ => hwritten, _, List.prefix_rfl, hwritten⟩
  | stopped hpan hserving hwritten hstop =>
      exact ⟨hserving, hstop.trans hpan.symm, fun h => absurd (hpan.symm.trans h) (by decide), hwritten⟩

variable (cfg supply s) in
/-- The whole stream in one read: the replies go out together, or not at all. -/
theorem handle_whole (hfs : fs.Whole) :
    (handleConnection cfg supply s [fs.bytes]).overflowed = false ∧
      (handleConnection cfg supply s [fs.bytes]).written
        = if (serveFrames cfg supply fs.values s).stopped then []
          else (serveFrames cfg supply fs.values s).replies.flatMap serializeResponse := by
  have hall : (Task.start s).buffer ++ fs.bytes = fs.bytes ++ [] := by simp [Task.start]
  obtain ⟨-, -, hstops, hgoes⟩ := (Task.start s).read_frames cfg supply fs hfs (Or.inl rfl) hall rfl rfl
  show ((Task.start s).read cfg supply fs.bytes).overflowed = false ∧
    ((Task.start s).read cfg supply fs.bytes).written = _
  cases hr : (serveFrames cfg supply fs.values s).stopped with
  | true =>
      obtain ⟨hwritten, hover⟩ := hstops hr
      exact ⟨hover, hwritten⟩
  | false =>
      obtain ⟨hwritten, -, hover⟩ := hgoes hr
      exact ⟨hover, hwritten⟩

/-- The reads bring the stream, none of them empty, and leave no more than a mebibyte undecoded. -/
structure ReadsOf (cfg : ServerConfig) (supply : Supply) (s : Serving) (fs : Stream) (chunks : List Bytes) :
    Prop where
  nonempty : ∀ chunk ∈ chunks, chunk ≠ []
  bytes : chunks.flatten = fs.bytes
  bounded : (handleConnection cfg supply s chunks).overflowed = false

omit [KeyHash] [Lua] [Codec] [UnicodeTables] in
theorem Stream.bytes_ne_nil {fs : Stream} (hfs : fs.Whole) (hne : fs ≠ []) : fs.bytes ≠ [] := by
  intro h
  exact hne (fs.eq_nil_of_incomplete hfs (Or.inl h))

variable (cfg supply s) in
/-- A read that ends right before the frame the task stops at: the replies so far are out. -/
theorem cut_before_stop (hfs : fs.Whole) (hr : (serveFrames cfg supply fs.values s).stopped = true)
    (hne : (serveFrames cfg supply fs.values s).replies.flatMap serializeResponse ≠ []) :
    ∃ chunks, ReadsOf cfg supply s fs chunks ∧ (handleConnection cfg supply s chunks).written ≠ [] := by
  obtain ⟨before, v, after, hsplit, hno, hreplies⟩ := serveFrames_split hr
  obtain ⟨done, todo, rfl, hdone, htodo⟩ := List.map_eq_append_iff.mp hsplit
  have hwhole : Stream.Whole done := fun f hf => hfs f (List.mem_append_left _ hf)
  have hwhole' : Stream.Whole todo := fun f hf => hfs f (List.mem_append_right _ hf)
  have hvalues : Stream.values done = before := hdone
  rw [← hvalues] at hno hreplies
  have hfirst : (Task.start s).buffer ++ Stream.bytes done = Stream.bytes done ++ [] := by simp [Task.start]
  obtain ⟨hpan, hserv, -, hgoes⟩ :=
    (Task.start s).read_frames cfg supply done hwhole (Or.inl rfl) hfirst rfl rfl
  obtain ⟨hout, hbuffer, hover⟩ := hgoes hno
  have hstopped : (serveFrames cfg supply (Stream.values todo)
      ((Task.start s).read cfg supply (Stream.bytes done)).serving).stopped = true := by
    rw [hserv]
    rw [Stream.values_append, serveFrames_append _ hno] at hr
    exact hr
  have hsecond : ((Task.start s).read cfg supply (Stream.bytes done)).buffer ++ Stream.bytes todo
      = Stream.bytes todo ++ [] := by
    rw [hbuffer, List.nil_append, List.append_nil]
  obtain ⟨-, -, hstops, -⟩ := Task.read_frames cfg supply _ todo hwhole' (Or.inl rfl) hsecond (hpan.trans hno) hover
  obtain ⟨hkept, hlast⟩ := hstops hstopped
  refine ⟨[Stream.bytes done, Stream.bytes todo], ⟨?_, ?_, hlast⟩, ?_⟩
  · intro chunk hchunk
    rcases List.mem_cons.mp hchunk with rfl | hchunk
    · refine Stream.bytes_ne_nil hwhole ?_
      rintro rfl
      rw [← hreplies] at hne
      exact hne rfl
    · rw [List.mem_singleton.mp hchunk]
      refine Stream.bytes_ne_nil hwhole' ?_
      rintro rfl
      cases htodo
  · simp [Stream.bytes]
  · show (((Task.start s).read cfg supply (Stream.bytes done)).read cfg supply (Stream.bytes todo)).written ≠ []
    rw [hkept, hout]
    show (serveFrames cfg supply (Stream.values done) s).replies.flatMap serializeResponse ≠ []
    rw [hreplies]
    exact hne

/-- The task does the same however the stream is cut: it executes the same commands to the same effect and writes
    the same replies. -/
def CutInvariant (cfg : ServerConfig) (supply : Supply) (s : Serving) (fs : Stream) : Prop :=
  ∀ chunks, ReadsOf cfg supply s fs chunks →
    (handleConnection cfg supply s chunks).serving = (handleConnection cfg supply s [fs.bytes]).serving ∧
      (handleConnection cfg supply s chunks).written = (handleConnection cfg supply s [fs.bytes]).written

/-- A reply before the frame the task stops at tells the ways to cut the stream apart. -/
theorem not_cutInvariant (hfs : fs.Whole) (hr : (serveFrames cfg supply fs.values s).stopped = true)
    (hne : (serveFrames cfg supply fs.values s).replies.flatMap serializeResponse ≠ []) :
    ¬ CutInvariant cfg supply s fs := by
  intro hsame
  obtain ⟨chunks, hreads, hout⟩ := cut_before_stop cfg supply s hfs hr hne
  rw [(hsame chunks hreads).2, (handle_whole cfg supply s hfs).2, hr] at hout
  exact hout rfl

/-- **How the stream is cut into reads does not matter, exactly when no command stops the task after one that was
    answered.** It rests on `parse_resp`: a frame is read as soon as it is complete, whatever follows, and every
    proper prefix is an error. -/
theorem cutInvariant_iff (cfg : ServerConfig) (supply : Supply) (s : Serving) (fs : Stream) (hfs : fs.Whole) :
    (CutInvariant cfg supply s fs ↔
      (serveFrames cfg supply fs.values s).stopped = false ∨
        (serveFrames cfg supply fs.values s).replies.flatMap serializeResponse = []) ∧
      ∀ c v, Complete c v → (∀ rest, parseResp (c ++ rest) = .ok (v, rest)) ∧
        ∀ u w, c = u ++ w → w ≠ [] → ∃ text, parseResp u = .error (.err text) := by
  obtain ⟨hwhole, hwritten⟩ := handle_whole cfg supply s hfs
  obtain ⟨hserving, -⟩ := served_of_reads cfg supply s hfs [fs.bytes] (by simp) hwhole
  refine ⟨⟨fun hsame => ?_, fun hcond chunks hreads => ?_⟩, fun c v hc => ⟨hc.reads, fun u w hu hw => ?_⟩⟩
  · cases hr : (serveFrames cfg supply fs.values s).stopped with
    | false => exact Or.inl rfl
    | true =>
        right
        by_contra hne
        exact not_cutInvariant hfs hr hne hsame
  · obtain ⟨hserv, -, hall, some, hpre, hsome⟩ := served_of_reads cfg supply s hfs chunks hreads.bytes hreads.bounded
    refine ⟨hserv.trans hserving.symm, ?_⟩
    rw [hwritten]
    cases hr : (serveFrames cfg supply fs.values s).stopped with
    | false =>
        rw [if_neg (by decide)]
        exact hall hr
    | true =>
        rw [if_pos rfl, hsome]
        obtain ⟨more, hmore⟩ := hpre
        have hnone := hcond.resolve_left (by rw [hr]; decide)
        rw [← hmore, List.flatMap_append] at hnone
        exact (List.append_eq_nil_iff.mp hnone).1
  · rcases hc.incomplete hu hw with rfl | herr
    · exact ⟨utf8 "Empty buffer", rfl⟩
    · exact herr

/-! ## Two frames -/

omit [KeyHash] [Lua] [Codec] [UnicodeTables] in
/-- The frames of some requests. -/
def requests (l : List (List Bytes)) : Stream := l.map fun words => (writeResp (request words), request words)

omit [KeyHash] [Lua] [Codec] [UnicodeTables] in
theorem whole_requests {l : List (List Bytes)} (hcount : ∀ words ∈ l, words.length * respValueSize ≤ isizeMax)
    (hsize : ∀ words ∈ l, ∀ w ∈ words, w.length ≤ isizeMax) : (requests l).Whole := by
  intro f hf
  obtain ⟨words, hwords, rfl⟩ := List.mem_map.mp hf
  exact complete_request (hcount words hwords) (hsize words hwords)

omit [KeyHash] [Lua] [Codec] [UnicodeTables] in
/-- Every frame a second after the clock's zero. -/
def plainSupply : Supply := fun _ =>
  ((Request.plain (durationSecs 1) .ping).readings, (Request.plain (durationSecs 1) .ping).queued)

omit [Lua] [Codec] [UnicodeTables] in
/-- A connection that has sent nothing to a server that holds nothing. -/
def Serving.fresh : Serving := ⟨Server.fresh, ConnState.new, [], 0⟩

omit [KeyHash] [Lua] [Codec] [UnicodeTables] in
theorem cutInvariant_set_get :
    let _ := smallKeys
    let _ := noScripts
    let _ := incrCodec
    let _ := noEscapes
    CutInvariant ⟨none, none, none⟩ plainSupply Serving.fresh
      (requests [[utf8 "set", utf8 "k", utf8 "v"], [utf8 "GET", utf8 "k"]]) := by
  intro _ _ _ _
  apply (cutInvariant_iff _ _ _ _ (whole_requests (by decide) (by decide))).1.mpr
  left
  decide

omit [KeyHash] [Lua] [Codec] [UnicodeTables] in
/-- `PING` and an `EXPIRE` that overflows the clock: in one read the reply to the `PING` is lost, in two it is
    not. So it is with `PING` and a script that never returns. -/
theorem ping_reply_lost :
    let _ := smallKeys
    let _ := incrCodec
    let _ := noEscapes
    (let _ := noScripts
     ¬ CutInvariant ⟨none, none, none⟩ plainSupply Serving.fresh
        (requests [[utf8 "PING"], [utf8 "EXPIRE", utf8 "k", utf8 "9223372036854775807"]])) ∧
      let _ := endlessScripts
      ¬ CutInvariant ⟨none, none, none⟩ plainSupply Serving.fresh
        (requests [[utf8 "PING"], [utf8 "EVAL", utf8 "while true do end", utf8 "0"]]) := by
  intro _ _ _
  constructor
  · intro _
    exact not_cutInvariant (whole_requests (by decide) (by decide)) (by decide) (by decide +kernel)
  · intro _
    exact not_cutInvariant (whole_requests (by decide) (by decide)) (by decide) (by decide +kernel)

end FerricCache
