import FerricCache.Server.Pipeline

/-!
# `FerricCache.Server.Malformed` — bytes that no frame starts with

The read loop takes every `Err` of `parse_resp` for a frame that is not complete yet. Bytes that no frame starts with
(`Malformed`) are kept like any others: `malformed_refused_iff` says that only the limit on the buffer ever ends
that, and `swallows_of_malformed` that nothing sent meanwhile is executed or answered.
-/

namespace FerricCache

open Lib

/-- No continuation makes a complete frame. -/
def Malformed (b : Bytes) : Prop := ∀ t, ∃ text, parseResp (b ++ t) = .error (.err text)

theorem Malformed.incomplete {b : Bytes} (h : Malformed b) : Incomplete b := by
  obtain ⟨text, htext⟩ := h []
  rw [List.append_nil] at htext
  exact Or.inr ⟨text, htext⟩

theorem Malformed.append {b : Bytes} (h : Malformed b) (c : Bytes) : Malformed (b ++ c) := by
  intro t
  rw [List.append_assoc]
  exact h (c ++ t)

/-- An unknown marker starts no frame. -/
theorem malformed_of_marker {marker : UInt8} (h : marker ∉ [43, 45, 58, 36, 42]) (rest : Bytes) :
    Malformed (marker :: rest) := by
  intro t
  simp only [List.mem_cons, List.not_mem_nil, or_false, not_or] at h
  obtain ⟨hplus, hminus, hcolon, hdollar, hstar⟩ := h
  refine ⟨utf8 "Unknown RESP type marker: " ++ latin1 marker, ?_⟩
  show parseMarked (parseNested (rest ++ t).length) marker (rest ++ t) = _
  unfold parseMarked
  rw [if_neg hplus, if_neg hminus, if_neg hcolon, if_neg hdollar, if_neg hstar]
  rfl

section Reads

variable [KeyHash] [Lua] [Codec] [UnicodeTables]

/-- The task keeps the bytes in its buffer and waits for more, and has written no more than this. -/
structure Task.LeftWaiting (t : Task) (b written : Bytes) : Prop where
  running : t.stopped = false
  open_ : t.overflowed = false
  buffer : t.buffer = b
  silent : t.written = written

variable {cfg : ServerConfig} {supply : Supply}

/-- **Only a full buffer refuses malformed bytes**: whatever frames come before them in the read. -/
theorem malformed_refused_iff (cfg : ServerConfig) (supply : Supply) (t : Task) (chunk : Bytes) (done : Stream)
    (b : Bytes) (hrun : t.stopped = false) (hover : t.overflowed = false) (hdone : done.Whole) (hb : Malformed b)
    (hbuffer : t.buffer ++ chunk = done.bytes ++ b)
    (hserved : (serveFrames cfg supply done.values t.serving).stopped = false) :
    ¬ (t.read cfg supply chunk).LeftWaiting b
        (t.written ++ (serveFrames cfg supply done.values t.serving).replies.flatMap serializeResponse)
      ↔ 1024 * 1024 < b.length := by
  obtain ⟨hstopped, -, -, hread⟩ := t.read_frames cfg supply done hdone hb.incomplete hbuffer hrun hover
  obtain ⟨hwritten, hkept, hfull⟩ := hread hserved
  constructor
  · intro h
    by_contra hroom
    refine h ⟨hstopped.trans hserved, ?_, hkept, hwritten⟩
    rw [hfull]
    exact decide_eq_false hroom
  · intro hlong hwaits
    have hopen := hwaits.open_
    rw [hfull, decide_eq_true hlong] at hopen
    cases hopen

variable (cfg supply) in
/-- One more read of a task that waits on malformed bytes. -/
theorem read_malformed {t : Task} {b written : Bytes} (h : t.LeftWaiting b written) (hb : Malformed b)
    (chunk : Bytes) :
    (t.read cfg supply chunk).serving = t.serving ∧ (t.read cfg supply chunk).written = written ∧
      (t.read cfg supply chunk).buffer = b ++ chunk ∧ (t.read cfg supply chunk).stopped = false := by
  have hbuffer : t.buffer ++ chunk = Stream.bytes [] ++ (b ++ chunk) := by rw [h.buffer]; rfl
  obtain ⟨hstopped, hserving, -, hread⟩ := t.read_frames cfg supply [] (fun f hf => by cases hf)
    (hb.append chunk).incomplete hbuffer h.running h.open_
  obtain ⟨hwritten, hkept, -⟩ := hread rfl
  refine ⟨hserving, ?_, hkept, hstopped⟩
  rw [hwritten, ← h.silent]
  exact List.append_nil _

/-- **Nothing sent behind malformed bytes is executed or answered**, however it is cut into reads. -/
theorem swallows_of_malformed {t : Task} {b written : Bytes} (h : t.LeftWaiting b written) (hb : Malformed b)
    (chunks : List Bytes) :
    (chunks.foldl (Task.read cfg supply) t).serving = t.serving ∧
      (chunks.foldl (Task.read cfg supply) t).written = written := by
  induction chunks generalizing t b with
  | nil => exact ⟨rfl, h.silent⟩
  | cons chunk chunks ih =>
      obtain ⟨hserving, hwritten, hbuffer, hstopped⟩ := read_malformed cfg supply h hb chunk
      rw [List.foldl_cons]
      cases hover : (t.read cfg supply chunk).overflowed with
      | false =>
          obtain ⟨hsame, hsilent⟩ := ih ⟨hstopped, hover, hbuffer, hwritten⟩ (hb.append chunk)
          exact ⟨hsame.trans hserving, hsilent⟩
      | true =>
          -- the connection is closed, and reads nothing more
          rw [Task.reads_overflowed _ chunks hover]
          exact ⟨hserving, hwritten⟩

end Reads

/-- A megabyte and one byte of an unknown marker. -/
theorem malformed_refused_long :
    let _ := smallKeys
    let _ := noScripts
    let _ := incrCodec
    let _ := noEscapes
    let b : Bytes := 33 :: List.replicate (1024 * 1024) 33
    ¬ ((Task.start Serving.fresh).read ⟨none, none, none⟩ plainSupply b).LeftWaiting b [] := by
  intro _ _ _ _ b
  refine (malformed_refused_iff ⟨none, none, none⟩ plainSupply (Task.start Serving.fresh) b [] b rfl rfl
    (fun f hf => by cases hf) (malformed_of_marker (by decide) _) rfl rfl).mpr ?_
  rw [List.length_cons, List.length_replicate]
  exact Nat.lt_succ_self _

/-- A command typed without its framing: it is kept, and the `PING` after it is neither executed nor answered. -/
theorem inline_command_swallows :
    let _ := smallKeys
    let _ := noScripts
    let _ := incrCodec
    let _ := noEscapes
    let t := (Task.start Serving.fresh).read ⟨none, none, none⟩ plainSupply (utf8 "PING\r\n")
    Malformed (utf8 "PING\r\n") ∧ t.LeftWaiting (utf8 "PING\r\n") [] ∧
      (t.read ⟨none, none, none⟩ plainSupply (requests [[utf8 "PING"]]).bytes).written = [] := by
  intro _ _ _ _ t
  have hmarker : (80 : UInt8) ∉ [43, 45, 58, 36, 42] := by decide
  refine ⟨malformed_of_marker hmarker _, ⟨?_, ?_, ?_, ?_⟩, ?_⟩
  all_goals decide

end FerricCache
