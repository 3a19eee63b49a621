import FerricCache.Protocol.Frames

/-!
# `FerricCache.Protocol.Panics` — where the parser can panic

`parseRespChecked` is `parse_resp` with every operation that may panic written out: reads of the cursor, the addition
of lengths, and the memory asked for. It does what `parseResp` does on every input a slice can hold
(`parseRespChecked_eq`), so that all but one of these operations are safe.

`Frame` is the grammar of RESP as the server accepts it, in its own terms. The one panic is an array whose announced
count asks for more than `isize::MAX` bytes, at any place the parser gets to (`Overlong`, `parser_returns_iff`).
-/

namespace FerricCache

open Lib Lib.Parser Reply

/-! ## Operations that may panic -/

/-- `buf.get_u8()`. -/
def getU8 : Reader UInt8
  | [] => .error .panic
  | b :: d => .ok (b, d)

/-- `buf.remaining()`. -/
def remaining : Reader Nat := fun d => .ok (d.length, d)

/-- `buf.copy_to_slice` into `len` bytes. -/
def copyToSlice (len : Nat) : Reader Bytes := fun d =>
  if d.length < len then .error .panic else .ok (d.take len, d.drop len)

/-- `a + b` as `usize`. -/
def usizeAdd (a b : Nat) : Reader Nat := if a + b < 2 ^ 64 then pure (a + b) else Parser.fail .panic

/-- A request for memory. -/
def reserve (bytes : Nat) : Reader Unit := if isizeMax < bytes then Parser.fail .panic else pure ()

/-- `parse_bulk_string`. -/
def parseBulkStringChecked : Reader RespValue := do
  let line ← readLine
  match parseI64 line with
  | none => readErr (utf8 "Invalid bulk string length: " ++ line)
  | some len =>
      if len = -1 then pure (.bulkString none)
      else if len < 0 then readErr (utf8 "Invalid bulk string length: " ++ intText len)
      else do
        let needed ← usizeAdd len.toNat 2
        let left ← remaining
        if left < needed then readErr (utf8 "Incomplete bulk string")
        else do
          reserve len.toNat
          let data ← copyToSlice len.toNat
          let left ← remaining
          if left < 2 then readErr (utf8 "Missing CRLF after bulk string")
          else do
            let cr ← getU8
            let lf ← getU8
            if cr ≠ 13 ∨ lf ≠ 10 then readErr (utf8 "Invalid CRLF after bulk string")
            else pure (.bulkString (some data))

/-- `parse_array`, given the reader of its elements. -/
def parseArrayChecked (element : Reader RespValue) : Reader RespValue := do
  let line ← readLine
  match parseI64 line with
  | none => readErr (utf8 "Invalid array length: " ++ line)
  | some count =>
      if count < 0 then pure (.array [])
      else do
        reserve (count.toNat * respValueSize)
        let array ← element.times count.toNat
        pure (.array array)

/-- What follows a marker. -/
def parseMarkedChecked (element : Reader RespValue) (marker : UInt8) : Reader RespValue :=
  if marker = 43 then parseSimpleString
  else if marker = 45 then parseError
  else if marker = 58 then parseInteger
  else if marker = 36 then parseBulkStringChecked
  else if marker = 42 then parseArrayChecked element
  else readErr (utf8 "Unknown RESP type marker: " ++ latin1 marker)

/-- `parse_resp` down to a nesting depth. -/
def parseNestedChecked : Nat → Reader RespValue
  | 0 => readErr (utf8 "Empty buffer")
  | depth + 1 => do
      let left ← remaining
      if left = 0 then readErr (utf8 "Empty buffer")
      else do
        let marker ← getU8
        parseMarkedChecked (parseNestedChecked depth) marker

/-- **`parse_resp`**, with its panics. -/
def parseRespChecked : Reader RespValue := fun d => parseNestedChecked d.length d

/-! ## The checks that never fail -/

theorem usizeAdd_two {len : Nat} (h : len < 2 ^ 63) (d : Bytes) : usizeAdd len 2 d = .ok (len + 2, d) := by
  unfold usizeAdd
  rw [if_pos (by omega)]
  rfl

theorem reserve_ok {bytes : Nat} (h : bytes ≤ isizeMax) (d : Bytes) : reserve bytes d = .ok ((), d) := by
  unfold reserve
  rw [if_neg (by omega)]
  rfl

theorem copyToSlice_ok {len : Nat} {d : Bytes} (h : len ≤ d.length) :
    copyToSlice len d = .ok (d.take len, d.drop len) := by
  unfold copyToSlice
  rw [if_neg (by omega)]

theorem toNat_lt_of_parseI64 {line : Bytes} {n : Int} (h : parseI64 line = some n) : n.toNat < 2 ^ 63 := by
  have hlt := (Decimal.parseSigned_bounds (by decide) h).2
  omega

theorem parseArrayChecked_eq (element : Reader RespValue) : parseArrayChecked element = parseArray element := by
  funext d
  unfold parseArrayChecked parseArray
  cases hline : readLine d with
  | error e => rw [bind_error hline, bind_error hline]
  | ok lr =>
      obtain ⟨line, r⟩ := lr
      rw [bind_ok hline, bind_ok hline]
      cases parseI64 line with
      | none => rfl
      | some count =>
          simp only
          by_cases hneg : count < 0
          · rw [if_pos hneg, if_pos hneg]
          · rw [if_neg hneg, if_neg hneg]
            by_cases hlong : isizeMax < count.toNat * respValueSize
            · rw [if_pos hlong, bind_error (e := .panic) (by unfold reserve; rw [if_pos hlong]; rfl)]
              rfl
            · rw [if_neg hlong, bind_ok (reserve_ok (by omega) r)]

/-- On what a slice can hold, reading a bulk string step by step is reading it. -/
theorem parseBulkStringChecked_eq (d : Bytes) (hd : d.length ≤ isizeMax) :
    parseBulkStringChecked d = parseBulkString d := by
  unfold parseBulkStringChecked parseBulkString
  cases hline : readLine d with
  | error e => rw [bind_error hline, bind_error hline]
  | ok lr =>
      obtain ⟨line, r⟩ := lr
      have hr : r.length ≤ isizeMax := (incremental_readLine.length_le hline).trans hd
      rw [bind_ok hline, bind_ok hline]
      cases hlen : parseI64 line with
      | none => rfl
      | some len =>
          simp only
          by_cases hnull : len = -1
          · rw [if_pos hnull, if_pos hnull]
          rw [if_neg hnull, if_neg hnull]
          by_cases hneg : len < 0
          · rw [if_pos hneg, if_pos hneg]
          rw [if_neg hneg, if_neg hneg, bind_ok (usizeAdd_two (toNat_lt_of_parseI64 hlen) r),
            bind_ok (show remaining r = .ok (r.length, r) from rfl)]
          by_cases hshort : r.length < len.toNat + 2
          · have hpayload : readPayload len.toNat r = .error (.err (utf8 "Incomplete bulk string")) := if_pos hshort
            rw [if_pos hshort, bind_error hpayload]
            rfl
          -- the payload is there, and two bytes after it
          obtain ⟨a, b, rest, hrest⟩ : ∃ a b rest, r.drop len.toNat = a :: b :: rest := by
            have hlength : 2 ≤ (r.drop len.toNat).length := by
              rw [List.length_drop]
              omega
            rcases hdrop : r.drop len.toNat with _ | ⟨a, _ | ⟨b, rest⟩⟩
            · rw [hdrop] at hlength
              cases hlength
            · rw [hdrop] at hlength
              simp at hlength
            · exact ⟨a, b, rest, rfl⟩
          have hafter : r.drop (len.toNat + 2) = rest := by
            rw [← List.drop_drop, hrest]
            rfl
          rw [if_neg hshort, bind_ok (reserve_ok (by omega) r), bind_ok (copyToSlice_ok (by omega)), hrest,
            bind_ok (show remaining (a :: b :: rest) = .ok ((a :: b :: rest).length, a :: b :: rest) from rfl),
            if_neg (by simp), bind_ok (show getU8 (a :: b :: rest) = .ok (a, b :: rest) from rfl),
            bind_ok (show getU8 (b :: rest) = .ok (b, rest) from rfl)]
          by_cases hcrlf : a ≠ 13 ∨ b ≠ 10
          · have hpayload : readPayload len.toNat r = .error (.err (utf8 "Invalid CRLF after bulk string")) := by
              unfold readPayload
              rw [if_neg hshort, hrest, hafter, if_neg]
              intro h
              have hab : a = 13 ∧ b = 10 := by simpa using h
              exact hcrlf.elim (fun ha => ha hab.1) fun hb => hb hab.2
            rw [if_pos hcrlf, bind_error hpayload]
            rfl
          · obtain ⟨rfl, rfl⟩ : a = 13 ∧ b = 10 := by
              simpa using hcrlf
            have hpayload : readPayload len.toNat r = .ok (r.take len.toNat, rest) := by
              unfold readPayload
              rw [if_neg hshort, hrest, hafter, if_pos rfl]
            rw [if_neg hcrlf, bind_ok hpayload]

theorem parseMarkedChecked_eq (element : Reader RespValue) (marker : UInt8) (d : Bytes) (hd : d.length ≤ isizeMax) :
    parseMarkedChecked element marker d = parseMarked element marker d := by
  unfold parseMarkedChecked parseMarked
  split
  · rfl
  · split
    · rfl
    · split
      · rfl
      · split
        · exact parseBulkStringChecked_eq d hd
        · rw [parseArrayChecked_eq]

theorem parseNestedChecked_eq (depth : Nat) (d : Bytes) (hd : d.length ≤ isizeMax) :
    parseNestedChecked depth d = parseNested depth d := by
  induction depth generalizing d with
  | zero => rfl
  | succ depth ih =>
      cases d with
      | nil => rfl
      | cons marker d =>
          have hd' : d.length ≤ isizeMax := by
            rw [List.length_cons] at hd
            omega
          show parseMarkedChecked (parseNestedChecked depth) marker d = parseMarked (parseNested depth) marker d
          rw [parseMarkedChecked_eq _ marker d hd']
          exact parseMarked_congr (incremental_parseNested depth) ih marker d hd'

/-- **Nothing but the capacity of an array can panic.** -/
theorem parseRespChecked_eq (d : Bytes) (hd : d.length ≤ isizeMax) : parseRespChecked d = parseResp d :=
  parseNestedChecked_eq d.length d hd

/-! ## The grammar -/

/-- The bytes of one frame: a marker and a line, the payload of a bulk string, the elements of an array. -/
inductive Frame : Bytes → Prop
  | text {marker : UInt8} {line : Bytes} (hmarker : marker = 43 ∨ marker = 45) (hline : OneLine line) :
      Frame (marker :: (line ++ crlf))
  | integer {line : Bytes} {n : Int} (hline : OneLine line) (hn : parseI64 (lossy line) = some n) :
      Frame (58 :: (line ++ crlf))
  | null {line : Bytes} (hline : OneLine line) (hn : parseI64 (lossy line) = some (-1)) :
      Frame (36 :: (line ++ crlf))
  | bulk {line b : Bytes} (hline : OneLine line) (hn : parseI64 (lossy line) = some (b.length : Int)) :
      Frame (36 :: (line ++ crlf ++ (b ++ crlf)))
  | negative {line : Bytes} {n : Int} (hline : OneLine line) (hn : parseI64 (lossy line) = some n) (hneg : n < 0) :
      Frame (42 :: (line ++ crlf))
  | array {line : Bytes} {frames : List Bytes} (hline : OneLine line)
      (hn : parseI64 (lossy line) = some (frames.length : Int)) (hsize : frames.length * respValueSize ≤ isizeMax)
      (h : ∀ f ∈ frames, Frame f) : Frame (42 :: (line ++ crlf ++ frames.flatten))

/-- An array is announced whose elements would take more than `isize::MAX` bytes: at the front, or as the next
    element of an array that is not complete. -/
inductive Overlong : Bytes → Prop
  | here {line rest : Bytes} {n : Int} (hline : OneLine line) (hn : parseI64 (lossy line) = some n)
      (hsize : isizeMax < n.toNat * respValueSize) : Overlong (42 :: (line ++ crlf ++ rest))
  | inside {line rest : Bytes} {n : Int} {frames : List Bytes} (hline : OneLine line)
      (hn : parseI64 (lossy line) = some n) (hsize : n.toNat * respValueSize ≤ isizeMax)
      (hframes : ∀ f ∈ frames, Frame f) (hmore : frames.length < n.toNat) (h : Overlong rest) :
      Overlong (42 :: (line ++ crlf ++ (frames.flatten ++ rest)))

/-- A line is what comes before the first line end. -/
theorem readLine_eq_ok {d line r : Bytes} (h : readLine d = .ok (line, r)) :
    ∃ l, d = l ++ crlf ++ r ∧ OneLine l ∧ line = lossy l := by
  obtain ⟨l, r', hl, hpure⟩ := bind_eq_ok.mp h
  cases hpure
  unfold Parser.line at hl
  split at hl
  · rename_i p hp
    cases hl
    obtain ⟨hd, hone⟩ := cut_eq_some hp
    exact ⟨l, by rw [hd]; simp [crlf], hone, rfl⟩
  · cases hl

/-! ## What is read is a frame -/

section Sound

variable {p : Reader RespValue} (hp : ∀ d v r, p d = .ok (v, r) → ∃ c, d = c ++ r ∧ Frame c)

include hp

/-- Elements read in a row are frames in a row. -/
theorem frames_of_times {n : Nat} {d r : Bytes} {vs : List RespValue} (h : p.times n d = .ok (vs, r)) :
    ∃ frames : List Bytes, frames.length = n ∧ (∀ f ∈ frames, Frame f) ∧ d = frames.flatten ++ r := by
  induction n generalizing d vs with
  | zero =>
      cases h
      exact ⟨[], rfl, fun f hf => (by cases hf), rfl⟩
  | succ n ih =>
      obtain ⟨v, m, hv, hrest⟩ := bind_eq_ok.mp h
      obtain ⟨vs', m', hvs, hpure⟩ := bind_eq_ok.mp hrest
      cases hpure
      obtain ⟨c, rfl, hc⟩ := hp d v m hv
      obtain ⟨frames, hlength, hframes, rfl⟩ := ih hvs
      refine ⟨c :: frames, by rw [List.length_cons, hlength], List.forall_mem_cons.mpr ⟨hc, hframes⟩, ?_⟩
      rw [List.flatten_cons, List.append_assoc]

/-- Elements up to one that panics. -/
theorem frames_of_times_panic {n : Nat} {d : Bytes} (h : p.times n d = .error .panic) :
    ∃ (frames : List Bytes) (rest : Bytes), frames.length < n ∧ (∀ f ∈ frames, Frame f) ∧
      d = frames.flatten ++ rest ∧ p rest = .error .panic := by
  induction n generalizing d with
  | zero => cases h
  | succ n ih =>
      cases hd : p d with
      | error e =>
          have he := (bind_error hd fun a => p.times n >>= fun as => pure (a :: as)).symm.trans h
          cases he
          exact ⟨[], d, Nat.succ_pos n, fun f hf => (by cases hf), rfl, hd⟩
      | ok vr =>
          obtain ⟨v, m⟩ := vr
          have hrest : (p.times n >>= fun as => pure (v :: as) : Reader (List RespValue)) m = .error .panic :=
            (bind_ok hd fun a => p.times n >>= fun as => pure (a :: as)).symm.trans h
          obtain ⟨c, rfl, hc⟩ := hp d v m hd
          cases hm : p.times n m with
          | ok as =>
              obtain ⟨as, r⟩ := as
              rw [bind_ok hm] at hrest
              cases hrest
          | error e =>
              rw [bind_error hm] at hrest
              cases hrest
              obtain ⟨frames, rest, hlength, hframes, rfl, hpanic⟩ := ih hm
              refine ⟨c :: frames, rest, Nat.succ_lt_succ hlength, List.forall_mem_cons.mpr ⟨hc, hframes⟩, ?_, hpanic⟩
              rw [List.flatten_cons, List.append_assoc]

end Sound

theorem frame_of_line {f : Bytes → RespValue} {marker : UInt8} (hmarker : marker = 43 ∨ marker = 45) {d r : Bytes}
    {v : RespValue} (h : (readLine >>= fun line => pure (f line) : Reader RespValue) d = .ok (v, r)) :
    ∃ c, d = c ++ r ∧ Frame (marker :: c) := by
  obtain ⟨line, m, hline, hpure⟩ := bind_eq_ok.mp h
  cases hpure
  obtain ⟨l, rfl, hl, -⟩ := readLine_eq_ok hline
  exact ⟨_, rfl, .text hmarker hl⟩

theorem frame_of_parseInteger {d r : Bytes} {v : RespValue} (h : parseInteger d = .ok (v, r)) :
    ∃ c, d = c ++ r ∧ Frame (58 :: c) := by
  obtain ⟨line, m, hline, hrest⟩ := bind_eq_ok.mp h
  obtain ⟨l, rfl, hl, rfl⟩ := readLine_eq_ok hline
  cases hn : parseI64 (lossy l) with
  | none =>
      simp only [hn] at hrest
      cases hrest
  | some n =>
      simp only [hn] at hrest
      cases hrest
      exact ⟨_, rfl, .integer hl hn⟩

theorem readPayload_eq_ok {len : Nat} {d data r : Bytes} (h : readPayload len d = .ok (data, r)) :
    d = data ++ crlf ++ r ∧ data.length = len := by
  unfold readPayload at h
  split at h
  · cases h
  · rename_i hlong
    split at h
    · rename_i hcrlf
      cases h
      refine ⟨?_, by rw [List.length_take]; omega⟩
      rw [List.append_assoc]
      exact (List.take_append_drop len d).symm.trans (congrArg (d.take len ++ ·) hcrlf)
    · cases h

theorem frame_of_parseBulkString {d r : Bytes} {v : RespValue} (h : parseBulkString d = .ok (v, r)) :
    ∃ c, d = c ++ r ∧ Frame (36 :: c) := by
  obtain ⟨line, m, hline, hrest⟩ := bind_eq_ok.mp h
  obtain ⟨l, rfl, hl, rfl⟩ := readLine_eq_ok hline
  cases hn : parseI64 (lossy l) with
  | none =>
      simp only [hn] at hrest
      cases hrest
  | some len =>
      simp only [hn] at hrest
      split at hrest
      · rename_i hnull
        cases hrest
        exact ⟨_, rfl, .null hl (hnull ▸ hn)⟩
      · split at hrest
        · cases hrest
        · rename_i hneg
          obtain ⟨data, m', hdata, hpure⟩ := bind_eq_ok.mp hrest
          cases hpure
          obtain ⟨rfl, hlength⟩ := readPayload_eq_ok hdata
          refine ⟨l ++ crlf ++ (data ++ crlf), by simp, .bulk hl ?_⟩
          rw [hn, hlength, Int.toNat_of_nonneg (by omega)]

theorem frame_of_parseArray {p : Reader RespValue} (hp : ∀ d v r, p d = .ok (v, r) → ∃ c, d = c ++ r ∧ Frame c)
    {d r : Bytes} {v : RespValue} (h : parseArray p d = .ok (v, r)) : ∃ c, d = c ++ r ∧ Frame (42 :: c) := by
  obtain ⟨line, m, hline, hrest⟩ := bind_eq_ok.mp h
  obtain ⟨l, rfl, hl, rfl⟩ := readLine_eq_ok hline
  cases hn : parseI64 (lossy l) with
  | none =>
      simp only [hn] at hrest
      cases hrest
  | some count =>
      simp only [hn] at hrest
      split at hrest
      · rename_i hneg
        cases hrest
        exact ⟨_, rfl, .negative hl hn hneg⟩
      · rename_i hneg
        split at hrest
        · cases hrest
        · rename_i hsize
          obtain ⟨vs, m', hvs, hpure⟩ := bind_eq_ok.mp hrest
          cases hpure
          obtain ⟨frames, hlength, hframes, rfl⟩ := frames_of_times hp hvs
          refine ⟨l ++ crlf ++ frames.flatten, by simp, .array hl ?_ (by rw [hlength]; omega) hframes⟩
          rw [hn, hlength, Int.toNat_of_nonneg (by omega)]

/-- **What is read is a frame.** -/
theorem frame_of_parseNested {depth : Nat} {d r : Bytes} {v : RespValue} (h : parseNested depth d = .ok (v, r)) :
    ∃ c, d = c ++ r ∧ Frame c := by
  induction depth generalizing d v r with
  | zero => cases h
  | succ depth ih =>
      cases d with
      | nil => cases h
      | cons marker d =>
          have h : parseMarked (parseNested depth) marker d = .ok (v, r) := h
          have hmarked : ∃ c, d = c ++ r ∧ Frame (marker :: c) := by
            unfold parseMarked at h
            split at h
            · exact frame_of_line (Or.inl ‹_›) h
            · split at h
              · exact frame_of_line (Or.inr ‹_›) h
              · split at h
                · rename_i hmarker
                  rw [hmarker]
                  exact frame_of_parseInteger h
                · split at h
                  · rename_i hmarker
                    rw [hmarker]
                    exact frame_of_parseBulkString h
                  · split at h
                    · rename_i hmarker
                      rw [hmarker]
                      exact frame_of_parseArray (fun d v r hd => ih hd) h
                    · cases h
          obtain ⟨c, rfl, hc⟩ := hmarked
          exact ⟨marker :: c, rfl, hc⟩

/-! ## A frame is read -/

theorem reads_all {p : Reader RespValue} {frames : List Bytes} (h : ∀ f ∈ frames, ∃ v, Parser.Reads p f v) :
    ∃ vs, List.Forall₂ (Parser.Reads p) frames vs := by
  induction frames with
  | nil => exact ⟨[], .nil⟩
  | cons f frames ih =>
      obtain ⟨v, hv⟩ := h f List.mem_cons_self
      obtain ⟨vs, hvs⟩ := ih fun g hg => h g (List.mem_cons_of_mem _ hg)
      exact ⟨v :: vs, .cons hv hvs⟩

/-- A frame is read at every depth that covers it. -/
theorem Frame.reads {c : Bytes} (h : Frame c) {depth : Nat} (hdepth : c.length ≤ depth) :
    ∃ v, Parser.Reads (parseNested depth) c v := by
  -- each level of an array takes one of the depth
  induction h generalizing depth with
  | @text marker line hmarker hline =>
      cases depth with
      | zero => cases hdepth
      | succ depth =>
          rcases hmarker with rfl | rfl
          · exact ⟨_, reads_marked ((reads_readLine hline).map RespValue.simpleString)⟩
          · exact ⟨_, reads_marked ((reads_readLine hline).map RespValue.error)⟩
  | @integer line n hline hn =>
      cases depth with
      | zero => cases hdepth
      | succ depth =>
          refine ⟨.integer n, reads_marked ((reads_readLine hline).bind_nil ?_)⟩
          simp only [hn]
          exact Parser.Reads.pure _
  | @null line hline hn =>
      cases depth with
      | zero => cases hdepth
      | succ depth =>
          refine ⟨.bulkString none, reads_marked ((reads_readLine hline).bind_nil ?_)⟩
          simp only [hn, if_true]
          exact Parser.Reads.pure _
  | @bulk line b hline hn =>
      cases depth with
      | zero => cases hdepth
      | succ depth =>
          refine ⟨.bulkString (some b), reads_marked ((reads_readLine hline).bind ?_)⟩
          simp only [hn]
          rw [if_neg (by omega), if_neg (by omega), Int.toNat_natCast]
          exact (reads_readPayload b).map fun data => RespValue.bulkString (some data)
  | @negative line n hline hn hneg =>
      cases depth with
      | zero => cases hdepth
      | succ depth =>
          refine ⟨.array [], reads_marked ((reads_readLine hline).bind_nil ?_)⟩
          simp only [hn]
          rw [if_pos hneg]
          exact Parser.Reads.pure _
  | @array line frames hline hn hsize _ ih =>
      cases depth with
      | zero => cases hdepth
      | succ depth =>
          have hlengths : ∀ f ∈ frames, f.length ≤ depth := by
            intro f hf
            have hflat := (List.sublist_flatten_of_mem hf).length_le
            simp only [List.length_cons, List.length_append] at hdepth
            omega
          obtain ⟨vs, hvs⟩ := reads_all fun f hf => ih f hf (hlengths f hf)
          refine ⟨.array vs, reads_marked ((reads_readLine hline).bind ?_)⟩
          simp only [hn]
          rw [if_neg (by omega), Int.toNat_natCast, if_neg (by omega), hvs.length_eq]
          exact (Parser.Reads.times hvs).map RespValue.array

/-! ## The panic -/

/-- Elements that are read, and then one that is not. -/
theorem times_error {p : Reader RespValue} {frames : List Bytes} {vs : List RespValue} {rest : Bytes} {e : ReadError}
    (hframes : List.Forall₂ (Parser.Reads p) frames vs) (hrest : p rest = .error e) {n : Nat}
    (hn : frames.length < n) : p.times n (frames.flatten ++ rest) = .error e := by
  induction hframes generalizing n with
  | nil =>
      cases n with
      | zero => cases hn
      | succ n => exact bind_error hrest _
  | @cons f v frames vs hf _ ih =>
      cases n with
      | zero => cases hn
      | succ n =>
          rw [List.flatten_cons, List.append_assoc]
          refine (bind_ok (hf _) _).trans ?_
          exact bind_error (ih (Nat.lt_of_succ_lt_succ hn)) _

/-- An array announced beyond the capacity panics, wherever the parser gets to it. -/
theorem Overlong.panics {d : Bytes} (h : Overlong d) {depth : Nat} (hdepth : d.length ≤ depth) :
    parseNested depth d = .error .panic := by
  induction h generalizing depth with
  | @here line rest n hline hn hsize =>
      cases depth with
      | zero => cases hdepth
      | succ depth =>
          show parseArray (parseNested depth) (line ++ crlf ++ rest) = .error .panic
          refine (bind_ok (reads_readLine hline rest) _).trans ?_
          have hnat : 0 ≤ n := by
            by_contra hneg
            rw [Int.toNat_of_nonpos (by omega), Nat.zero_mul] at hsize
            cases hsize
          simp only [hn]
          rw [if_neg (by omega), if_pos hsize]
          rfl
  | @inside line rest n frames hline hn hsize hframes hmore _ ih =>
      cases depth with
      | zero => cases hdepth
      | succ depth =>
          simp only [List.length_cons, List.length_append] at hdepth
          have hdeep : ∀ f ∈ frames, f.length ≤ depth := by
            intro f hf
            have hflat := (List.sublist_flatten_of_mem hf).length_le
            omega
          obtain ⟨vs, hvs⟩ := reads_all fun f hf => (hframes f hf).reads (hdeep f hf)
          show parseArray (parseNested depth) (line ++ crlf ++ (frames.flatten ++ rest)) = .error .panic
          refine (bind_ok (reads_readLine hline _) _).trans ?_
          simp only [hn]
          rw [if_neg (by omega), if_neg (by omega)]
          exact bind_error (times_error hvs (ih (by omega)) hmore) _

theorem readLine_ne_panic (d : Bytes) : readLine d ≠ .error .panic := by
  intro h
  cases hl : (Parser.line 13 10 (.err (utf8 "Incomplete line")) : Reader Bytes) d with
  | ok lr => cases (bind_ok hl _).symm.trans h
  | error e =>
      cases (bind_error hl _).symm.trans h
      unfold Parser.line at hl
      split at hl
      · cases hl
      · cases hl

/-- A reader that goes on from a line panics only after the line. -/
theorem panic_after_line {q : Bytes → Reader RespValue} {d : Bytes} (h : (readLine >>= q) d = .error .panic) :
    ∃ l r, d = l ++ crlf ++ r ∧ OneLine l ∧ q (lossy l) r = .error .panic := by
  cases hline : readLine d with
  | error e =>
      cases (bind_error hline q).symm.trans h
      exact absurd hline (readLine_ne_panic d)
  | ok lr =>
      obtain ⟨line, r⟩ := lr
      obtain ⟨l, hd, hl, rfl⟩ := readLine_eq_ok hline
      exact ⟨l, r, hd, hl, (bind_ok hline q).symm.trans h⟩

theorem parseBulkString_ne_panic (d : Bytes) : parseBulkString d ≠ .error .panic := by
  intro h
  obtain ⟨l, r, -, -, hq⟩ := panic_after_line h
  cases hn : parseI64 (lossy l) with
  | none =>
      simp only [hn] at hq
      cases hq
  | some len =>
      simp only [hn] at hq
      split at hq
      · cases hq
      · split at hq
        · cases hq
        · cases hdata : readPayload len.toNat r with
          | ok x => cases (bind_ok hdata _).symm.trans hq
          | error e =>
              cases (bind_error hdata _).symm.trans hq
              unfold readPayload at hdata
              split at hdata
              · cases hdata
              · split at hdata
                · cases hdata
                · cases hdata

theorem parseInteger_ne_panic (d : Bytes) : parseInteger d ≠ .error .panic := by
  intro h
  obtain ⟨l, r, -, -, hq⟩ := panic_after_line h
  cases hn : parseI64 (lossy l) with
  | none =>
      simp only [hn] at hq
      cases hq
  | some n =>
      simp only [hn] at hq
      cases hq

/-- **A panic is an array announced beyond the capacity.** -/
theorem overlong_of_panic {depth : Nat} {d : Bytes} (h : parseNested depth d = .error .panic) : Overlong d := by
  induction depth generalizing d with
  | zero => cases h
  | succ depth ih =>
      cases d with
      | nil => cases h
      | cons marker d =>
          have h : parseMarked (parseNested depth) marker d = .error .panic := h
          unfold parseMarked at h
          split at h
          · obtain ⟨l, r, -, -, hq⟩ := panic_after_line h
            cases hq
          split at h
          · obtain ⟨l, r, -, -, hq⟩ := panic_after_line h
            cases hq
          split at h
          · exact absurd h (parseInteger_ne_panic d)
          split at h
          · exact absurd h (parseBulkString_ne_panic d)
          split at h
          · rename_i hmarker
            obtain ⟨l, r, rfl, hl, hq⟩ := panic_after_line h
            rw [hmarker]
            cases hn : parseI64 (lossy l) with
            | none =>
                simp only [hn] at hq
                cases hq
            | some count =>
                simp only [hn] at hq
                split at hq
                · cases hq
                · split at hq
                  · exact .here hl hn ‹_›
                  · rename_i hsize
                    cases htimes : (parseNested depth).times count.toNat r with
                    | ok x => cases (bind_ok htimes _).symm.trans hq
                    | error e =>
                        cases (bind_error htimes _).symm.trans hq
                        obtain ⟨frames, rest, hmore, hframes, rfl, hpanic⟩ :=
                          frames_of_times_panic (fun d v r hd => frame_of_parseNested hd) htimes
                        exact .inside hl hn (by omega) hframes hmore (ih hpanic)
          · cases h

/-- **The parser returns unless an array is announced beyond the capacity.** -/
theorem parser_returns_iff (d : Bytes) (hd : d.length ≤ isizeMax) :
    parseRespChecked d ≠ .error .panic ↔ ¬ Overlong d := by
  rw [parseRespChecked_eq d hd]
  apply not_congr
  constructor
  · intro h
    exact overlong_of_panic h
  · intro h
    exact h.panics (Nat.le_refl _)

instance (x : Except ReadError (RespValue × Bytes)) (e : ReadError) : Decidable (x = .error e) :=
  match x with
  | .ok _ => isFalse fun h => by cases h
  | .error e' => decidable_of_iff (e' = e) ⟨congrArg _, fun h => by cases h; rfl⟩

/-- A nested array that is not complete. -/
theorem parser_returns_nested :
    (utf8 "*2\r\n*1\r\n$4\r\nPI").length ≤ isizeMax ∧ parseRespChecked (utf8 "*2\r\n*1\r\n$4\r\nPI") ≠ .error .panic ∧
      ¬ Overlong (utf8 "*2\r\n*1\r\n$4\r\nPI") := by
  have hreturns : parseRespChecked (utf8 "*2\r\n*1\r\n$4\r\nPI") ≠ .error .panic := by decide
  exact ⟨by decide, hreturns, (parser_returns_iff _ (by decide)).mp hreturns⟩

/-- One header of an array of `2^63 - 1` elements. -/
theorem parser_panics_on_count : parseRespChecked (utf8 "*9223372036854775807\r\n") = .error .panic := by
  decide

end FerricCache
