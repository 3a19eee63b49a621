import FerricCache.Protocol.Resp
import FerricCache.Lib.Parser

/-!
# `FerricCache.Protocol.Parse` — reading RESP

`parseResp` is `parse_resp`: a parser over the bytes after the cursor. It reads back what `serialize_resp` wrote
(`parseResp_serializeResp`), whatever follows, and it is incremental: a frame is read as soon as it is complete
and never before (`parseResp_incremental`).
-/

namespace FerricCache

open Lib Lib.Parser Reply

/-- Why a frame is not read: an `Err`, or a panic on a capacity beyond `isize::MAX` bytes. -/
inductive ReadError
  | err (text : Bytes)
  | panic
  deriving DecidableEq

/-- An `Err`. -/
def ReadError.Soft : ReadError → Prop
  | .err _ => True
  | .panic => False

/-- A reader of the bytes after the cursor. -/
abbrev Reader := Parser UInt8 ReadError

/-- `Err(text)`. -/
def readErr {α : Type} (text : Bytes) : Reader α := Parser.fail (.err text)

/-- `read_line`. -/
def readLine : Reader Bytes := do
  let line ← Parser.line 13 10 (.err (utf8 "Incomplete line"))
  pure (lossy line)

/-- `parse_simple_string`. -/
def parseSimpleString : Reader RespValue := do
  let line ← readLine
  pure (.simpleString line)

/-- `parse_error`. -/
def parseError : Reader RespValue := do
  let line ← readLine
  pure (.error line)

/-- `parse_integer`. -/
def parseInteger : Reader RespValue := do
  let line ← readLine
  match parseI64 line with
  | some num => pure (.integer num)
  | none => readErr (utf8 "Invalid integer: " ++ line)

/-- The payload of a bulk string and the line end after it. -/
def readPayload (len : Nat) : Reader Bytes := fun d =>
  if d.length < len + 2 then .error (.err (utf8 "Incomplete bulk string"))
  else if d.drop len = 13 :: 10 :: d.drop (len + 2) then .ok (d.take len, d.drop (len + 2))
  else .error (.err (utf8 "Invalid CRLF after bulk string"))

/-- `parse_bulk_string`. -/
def parseBulkString : Reader RespValue := do
  let line ← readLine
  match parseI64 line with
  | none => readErr (utf8 "Invalid bulk string length: " ++ line)
  | some len =>
      if len = -1 then pure (.bulkString none)
      else if len < 0 then readErr (utf8 "Invalid bulk string length: " ++ intText len)
      else do
        let data ← readPayload len.toNat
        pure (.bulkString (some data))

/-- `size_of::<RespValue>()`. -/
def respValueSize : Nat := 40

/-- `parse_array`, given the reader of its elements. `Vec::with_capacity` panics when the room it asks for is
    more than `isize::MAX` bytes. -/
def parseArray (element : Reader RespValue) : Reader RespValue := do
  let line ← readLine
  match parseI64 line with
  | none => readErr (utf8 "Invalid array length: " ++ line)
  | some count =>
      if count < 0 then pure (.array [])
      else if isizeMax < count.toNat * respValueSize then Parser.fail .panic
      else do
        let array ← element.times count.toNat
        pure (.array array)

/-- `marker as char`, as UTF-8. -/
def latin1 (b : UInt8) : Bytes := if b < 128 then [b] else [(192 : UInt8) ||| b >>> 6, (128 : UInt8) ||| (b &&& 63)]

/-- What follows a marker. -/
def parseMarked (element : Reader RespValue) (marker : UInt8) : Reader RespValue :=
  if marker = 43 then parseSimpleString
  else if marker = 45 then parseError
  else if marker = 58 then parseInteger
  else if marker = 36 then parseBulkString
  else if marker = 42 then parseArray element
  else readErr (utf8 "Unknown RESP type marker: " ++ latin1 marker)

/-- The marker of the next frame. -/
def readMarker : Reader UInt8
  | [] => .error (.err (utf8 "Empty buffer"))
  | marker :: d => .ok (marker, d)

/-- `parse_resp` down to a nesting depth. -/
def parseNested : Nat → Reader RespValue
  | 0 => readErr (utf8 "Empty buffer")
  | depth + 1 => do
      let marker ← readMarker
      parseMarked (parseNested depth) marker

/-- **`parse_resp`.** Every level of nesting takes a marker, so no frame is deeper than it is long. -/
def parseResp : Reader RespValue := fun d => parseNested d.length d

/-! ## Frames as they come in -/

/-- Complete or not, a frame is read the same way: see `Lib.Parser.Incremental`. -/
abbrev Incremental {α : Type} (p : Reader α) : Prop := Parser.Incremental ReadError.Soft p

theorem incremental_readErr {α : Type} (text : Bytes) : Incremental (readErr text : Reader α) :=
  Parser.Incremental.fail _

theorem incremental_readLine : Incremental readLine :=
  (Parser.Incremental.line (by decide) trivial).bind fun line => Parser.Incremental.pure (lossy line)

theorem incremental_parseInteger : Incremental parseInteger := by
  refine incremental_readLine.bind fun line => ?_
  cases parseI64 line with
  | some num => exact Parser.Incremental.pure _
  | none => exact incremental_readErr _

theorem reads_readPayload (b : Bytes) : Parser.Reads (readPayload b.length) (b ++ crlf) b := by
  intro t
  unfold readPayload
  rw [if_neg (by simp [crlf]), if_pos]
  · simp [crlf]
  · simp [crlf]

theorem incremental_readPayload (len : Nat) : Incremental (readPayload len) := by
  intro d data r h
  unfold readPayload at h
  split at h
  · cases h
  · rename_i hlen
    split at h
    · rename_i hcrlf
      cases h
      have hdata : (d.take len).length = len := by
        rw [List.length_take]
        omega
      have hreads := reads_readPayload (d.take len)
      rw [hdata] at hreads
      refine ⟨d.take len ++ crlf, ?_, hreads, ?_⟩
      · rw [List.append_assoc]
        exact (List.take_append_drop len d).symm.trans (congrArg (d.take len ++ ·) hcrlf)
      · intro u v hc hv
        refine ⟨.err (utf8 "Incomplete bulk string"), trivial, if_pos ?_⟩
        have hlengths := congrArg List.length hc
        have hpos := List.length_pos_iff.mpr hv
        simp only [List.length_append, hdata, crlf, List.length_cons, List.length_nil] at hlengths
        omega
    · cases h

theorem incremental_parseBulkString : Incremental parseBulkString := by
  refine incremental_readLine.bind fun line => ?_
  cases parseI64 line with
  | none => exact incremental_readErr _
  | some len =>
      refine (Parser.Incremental.pure _).ite ((incremental_readErr _).ite ?_)
      exact (incremental_readPayload _).bind fun data => Parser.Incremental.pure _

theorem incremental_parseArray {element : Reader RespValue} (h : Incremental element) :
    Incremental (parseArray element) := by
  refine incremental_readLine.bind fun line => ?_
  cases parseI64 line with
  | none => exact incremental_readErr _
  | some count =>
      refine (Parser.Incremental.pure _).ite ((Parser.Incremental.fail _).ite ?_)
      exact (h.times _).bind fun array => Parser.Incremental.pure _

theorem incremental_parseMarked {element : Reader RespValue} (h : Incremental element) (marker : UInt8) :
    Incremental (parseMarked element marker) := by
  have hline : ∀ f : Bytes → RespValue, Incremental (readLine >>= fun line => pure (f line)) :=
    fun f => incremental_readLine.bind fun line => Parser.Incremental.pure (f line)
  unfold parseMarked
  refine (hline _).ite ((hline _).ite (incremental_parseInteger.ite (incremental_parseBulkString.ite ?_)))
  exact (incremental_parseArray h).ite (incremental_readErr _)

theorem incremental_readMarker : Incremental readMarker := by
  intro d marker r h
  cases d with
  | nil => cases h
  | cons b d =>
      cases h
      refine ⟨[marker], rfl, fun t => rfl, ?_⟩
      intro u v hc hv
      cases u with
      | nil => exact ⟨.err (utf8 "Empty buffer"), trivial, rfl⟩
      | cons c u =>
          obtain ⟨-, hrest⟩ := List.cons_eq_cons.mp hc
          exact absurd (List.append_eq_nil_iff.mp hrest.symm).2 hv

theorem incremental_parseNested (depth : Nat) : Incremental (parseNested depth) := by
  induction depth with
  | zero => exact incremental_readErr _
  | succ depth ih => exact incremental_readMarker.bind fun marker => incremental_parseMarked ih marker

/-! ## The depth does not matter -/

/-- Readers that agree on short inputs read the same arrays there. -/
theorem parseMarked_congr {p q : Reader RespValue} (hq : Incremental q) {bound : Nat}
    (h : ∀ d, d.length ≤ bound → p d = q d) (marker : UInt8) (d : Bytes) (hd : d.length ≤ bound) :
    parseMarked p marker d = parseMarked q marker d := by
  have harray : parseArray p d = parseArray q d := by
    unfold parseArray
    cases hline : readLine d with
    | error e => rw [bind_error hline, bind_error hline]
    | ok lr =>
        obtain ⟨line, r⟩ := lr
        rw [bind_ok hline, bind_ok hline]
        cases parseI64 line with
        | none => rfl
        | some count =>
            show (if _ then _ else if _ then _ else _ : Reader RespValue) r
              = (if _ then _ else if _ then _ else _ : Reader RespValue) r
            split
            · rfl
            · split
              · rfl
              · have htimes := times_congr hq h count.toNat r
                  ((incremental_readLine.length_le hline).trans hd)
                cases hqr : q.times count.toNat r with
                | error e => rw [bind_error hqr, bind_error (htimes.trans hqr)]
                | ok x => rw [bind_ok hqr, bind_ok (htimes.trans hqr)]
  unfold parseMarked
  split
  · rfl
  · split
    · rfl
    · split
      · rfl
      · split
        · rfl
        · split
          · exact harray
          · rfl

/-- A depth as large as the input is enough. -/
theorem parseNested_succ (depth : Nat) (d : Bytes) (hd : d.length ≤ depth) :
    parseNested (depth + 1) d = parseNested depth d := by
  induction depth generalizing d with
  | zero =>
      rw [List.length_eq_zero_iff.mp (Nat.le_zero.mp hd)]
      rfl
  | succ depth ih =>
      cases d with
      | nil => rfl
      | cons marker d =>
          have hd' : d.length ≤ depth := by
            rw [List.length_cons] at hd
            omega
          exact parseMarked_congr (incremental_parseNested depth) (fun d hd => ih d hd) marker d hd'

theorem parseNested_eq (depth : Nat) (d : Bytes) (hd : d.length ≤ depth) :
    parseNested depth d = parseResp d := by
  induction depth, hd using Nat.le_induction with
  | base => rfl
  | succ depth hd ih => exact (parseNested_succ depth d hd).trans ih

/-- **A frame is read as soon as it is complete, whatever follows it, and never before.** -/
theorem parseResp_incremental : Incremental parseResp := by
  intro d v r h
  obtain ⟨c, rfl, hreads, hshort⟩ := incremental_parseNested d.length d v r h
  have hc : c.length ≤ (c ++ r).length := by simp
  refine ⟨c, rfl, fun t => ?_, fun u w hu hw => ?_⟩
  · -- read at a depth that covers both what came and what follows now
    obtain ⟨c', he, hreads', -⟩ := incremental_parseNested (max (c ++ r).length (c ++ t).length) (c ++ r) v r
      ((parseNested_eq _ _ (le_max_left _ _)).trans h)
    have hsame : c' = c := (List.append_cancel_right he).symm
    rw [hsame] at hreads'
    exact (parseNested_eq _ _ (le_max_right _ _)).symm.trans (hreads' t)
  · obtain ⟨e, he, hfail⟩ := hshort u w hu hw
    refine ⟨e, he, ?_⟩
    rw [← hfail, parseNested_eq]
    have := congrArg List.length hu
    simp only [List.length_append] at this hc ⊢
    omega

/-! ## Text -/

/-- Well-formed UTF-8, which the content of a `String` always is: every character is a leading byte and the
    bytes it requires after itself. -/
inductive Utf8 : Bytes → Prop
  | nil : Utf8 []
  | char {b : UInt8} {ranges : List (UInt8 × UInt8)} {tail rest : Bytes} (hlead : trailing b = some ranges)
      (htail : List.Forall₂ (fun (r : UInt8 × UInt8) c => r.1 ≤ c ∧ c ≤ r.2) ranges tail) (hrest : Utf8 rest) :
      Utf8 (b :: (tail ++ rest))

theorem continuation_of_forall₂ {ranges : List (UInt8 × UInt8)} {tail : Bytes}
    (h : List.Forall₂ (fun (r : UInt8 × UInt8) c => r.1 ≤ c ∧ c ≤ r.2) ranges tail) (rest : Bytes) :
    continuation ranges (tail ++ rest) = ranges.length := by
  induction h with
  | nil => cases rest <;> rfl
  | cons hc _ ih =>
      rw [List.cons_append, continuation, if_pos hc, ih, List.length_cons, Nat.add_comm]

/-- `from_utf8_lossy` keeps a well-formed text as it is. -/
theorem lossyLoop_of_utf8 {text : Bytes} (h : Utf8 text) (fuel : Nat) (hfuel : text.length ≤ fuel) :
    lossyLoop fuel text = text := by
  induction h generalizing fuel with
  | nil => cases fuel <;> rfl
  | @char b ranges tail rest hlead htail _ ih =>
      have hlen := htail.length_eq
      cases fuel with
      | zero => cases hfuel
      | succ fuel =>
          simp only [List.length_cons, List.length_append] at hfuel
          simp only [lossyLoop, hlead, continuation_of_forall₂ htail rest, if_true]
          rw [hlen, List.take_left, List.drop_left, ih fuel (by omega), List.cons_append]

theorem lossy_of_utf8 {text : Bytes} (h : Utf8 text) : lossy text = text :=
  lossyLoop_of_utf8 h text.length (Nat.le_refl _)

theorem forall₂_of_continuation {ranges : List (UInt8 × UInt8)} {rest : Bytes}
    (h : continuation ranges rest = ranges.length) :
    List.Forall₂ (fun (r : UInt8 × UInt8) c => r.1 ≤ c ∧ c ≤ r.2) ranges (rest.take ranges.length) := by
  induction ranges generalizing rest with
  | nil => exact List.Forall₂.nil
  | cons r ranges ih =>
      cases rest with
      | nil => cases h
      | cons c rest =>
          rw [continuation] at h
          split at h
          · rename_i hc
            rw [List.length_cons, List.take_succ_cons]
            exact List.Forall₂.cons hc (ih (by rw [List.length_cons] at h; omega))
          · cases h

/-- What `from_utf8_lossy` puts in place of an ill-formed piece. -/
theorem utf8_replacement {text : Bytes} (h : Utf8 text) : Utf8 ([0xEF, 0xBF, 0xBD] ++ text) := by
  have hlead : trailing 0xEF = some [(0x80, 0xBF), (0x80, 0xBF)] := by decide
  have htail : List.Forall₂ (fun (r : UInt8 × UInt8) c => r.1 ≤ c ∧ c ≤ r.2) [(0x80, 0xBF), (0x80, 0xBF)]
      [0xBF, 0xBD] :=
    List.Forall₂.cons (by decide) (List.Forall₂.cons (by decide) List.Forall₂.nil)
  exact Utf8.char hlead htail h

/-- `from_utf8_lossy` gives a well-formed text. -/
theorem utf8_lossyLoop (fuel : Nat) (b : Bytes) : Utf8 (lossyLoop fuel b) := by
  induction fuel generalizing b with
  | zero => cases b <;> exact Utf8.nil
  | succ fuel ih =>
      cases b with
      | nil => exact Utf8.nil
      | cons b rest =>
          rw [lossyLoop]
          cases hlead : trailing b with
          | none => exact utf8_replacement (ih _)
          | some ranges =>
              by_cases hn : continuation ranges rest = ranges.length
              · simp only [hn]
                exact Utf8.char hlead (forall₂_of_continuation hn) (ih _)
              · simp only [if_neg hn]
                exact utf8_replacement (ih _)

theorem utf8_lossy (b : Bytes) : Utf8 (lossy b) := utf8_lossyLoop b.length b

theorem utf8_of_ascii {text : Bytes} (h : ∀ b ∈ text, b ≤ 0x7F) : Utf8 text := by
  induction text with
  | nil => exact Utf8.nil
  | cons b text ih =>
      have hlead : trailing b = some [] := by
        unfold trailing
        rw [if_pos (h b List.mem_cons_self)]
      exact Utf8.char hlead List.Forall₂.nil (ih fun c hc => h c (List.mem_cons_of_mem _ hc))

/-- The bytes of a printed integer. -/
theorem mem_intText {n : Int} {b : UInt8} (h : b ∈ intText n) : 45 ≤ b ∧ b ≤ 57 := by
  have hdigits : ∀ m : Nat, b ∈ Decimal.digits m → 45 ≤ b ∧ b ≤ 57 := by
    intro m hm
    obtain ⟨hlo, hhi⟩ := Decimal.digit_of_mem_digits hm
    exact ⟨UInt8.le_trans (by decide) hlo, hhi⟩
  unfold intText at h
  cases n with
  | ofNat m => exact hdigits m h
  | negSucc m =>
      rcases List.mem_cons.mp h with rfl | h
      · decide
      · exact hdigits _ h

theorem lossy_intText (n : Int) : lossy (intText n) = intText n := by
  apply lossy_of_utf8
  apply utf8_of_ascii
  intro b hb
  exact UInt8.le_trans (mem_intText hb).2 (by decide)

/-- No line end within. -/
def OneLine (text : Bytes) : Prop := ¬ crlf <:+: text

instance decidableOneLine (text : Bytes) : Decidable (OneLine text) :=
  decidable_of_iff (Parser.cut 13 10 text = none) Parser.cut_eq_none

theorem oneLine_intText (n : Int) : OneLine (intText n) := by
  intro h
  have hcr : (13 : UInt8) ∈ intText n := h.subset List.mem_cons_self
  exact absurd (mem_intText hcr).1 (by decide)

/-- A line without a line end is read up to the one that follows. -/
theorem reads_readLine {text : Bytes} (h : OneLine text) : Parser.Reads readLine (text ++ crlf) (lossy text) :=
  (Parser.Reads.line (by decide) h _).map lossy

theorem reads_intLine (n : Int) : Parser.Reads readLine (intText n ++ crlf) (intText n) := by
  have h := reads_readLine (oneLine_intText n)
  rw [lossy_intText] at h
  exact h

/-! ## The round trip -/

/-- What the Rust type can hold: a `String` is well-formed UTF-8, an integer is an `i64`, and no buffer or
    vector takes more than `isize::MAX` bytes. -/
inductive RespValue.Representable : RespValue → Prop
  | simpleString {text : Bytes} (h : Utf8 text) : Representable (.simpleString text)
  | error {text : Bytes} (h : Utf8 text) : Representable (.error text)
  | integer {n : Int} (hlo : -2 ^ 63 ≤ n) (hhi : n < 2 ^ 63) : Representable (.integer n)
  | null : Representable (.bulkString none)
  | bulk {b : Bytes} (h : b.length ≤ isizeMax) : Representable (.bulkString (some b))
  | array {items : List RespValue} (hsize : items.length * respValueSize ≤ isizeMax)
      (h : ∀ v ∈ items, Representable v) : Representable (.array items)

/-- The texts of simple strings and errors have no line end within. -/
inductive RespValue.OneLineTexts : RespValue → Prop
  | simpleString {text : Bytes} (h : OneLine text) : OneLineTexts (.simpleString text)
  | error {text : Bytes} (h : OneLine text) : OneLineTexts (.error text)
  | integer (n : Int) : OneLineTexts (.integer n)
  | bulk (b : Option Bytes) : OneLineTexts (.bulkString b)
  | array {items : List RespValue} (h : ∀ v ∈ items, OneLineTexts v) : OneLineTexts (.array items)

theorem writeItems_eq (items : List RespValue) : writeItems items = items.flatMap writeResp := by
  induction items with
  | nil => rfl
  | cons v items ih => rw [writeItems, ih, List.flatMap_cons]

/-- A marker and what follows it. -/
theorem reads_marked {depth : Nat} {marker : UInt8} {c : Bytes} {v : RespValue}
    (h : Parser.Reads (parseMarked (parseNested depth) marker) c v) :
    Parser.Reads (parseNested (depth + 1)) (marker :: c) v :=
  Parser.Reads.bind (c := [marker]) (fun _ => rfl) h

theorem parseI64_intText_of_range {n : Int} (hlo : -2 ^ 63 ≤ n) (hhi : n < 2 ^ 63) :
    parseI64 (intText n) = some n :=
  Decimal.parseSigned_signed (by exact_mod_cast hlo) (by exact_mod_cast hhi)

theorem reads_bulk {b : Bytes} (h : b.length ≤ isizeMax) :
    Parser.Reads parseBulkString (natText b.length ++ crlf ++ (b ++ crlf)) (.bulkString (some b)) := by
  refine (reads_intLine b.length).bind ?_
  have hlen : parseI64 (intText (b.length : Int)) = some (b.length : Int) :=
    parseI64_intText_of_range (by omega) (by simp only [isizeMax] at h; omega)
  simp only [hlen]
  rw [if_neg (by omega), if_neg (by omega), Int.toNat_natCast]
  exact (reads_readPayload b).map fun data => RespValue.bulkString (some data)

theorem reads_array {element : Reader RespValue} {chunks : List Bytes} {items : List RespValue}
    (hsize : items.length * respValueSize ≤ isizeMax) (h : List.Forall₂ (Parser.Reads element) chunks items) :
    Parser.Reads (parseArray element) (natText items.length ++ crlf ++ chunks.flatten) (.array items) := by
  refine (reads_intLine items.length).bind ?_
  have hlen : parseI64 (intText (items.length : Int)) = some (items.length : Int) := by
    refine parseI64_intText_of_range (by omega) ?_
    simp only [isizeMax, respValueSize] at hsize
    omega
  simp only [hlen]
  rw [if_neg (by omega), Int.toNat_natCast, if_neg (by omega)]
  exact (Parser.Reads.times h).map RespValue.array

theorem reads_integer {n : Int} (hlo : -2 ^ 63 ≤ n) (hhi : n < 2 ^ 63) :
    Parser.Reads parseInteger (intText n ++ crlf) (.integer n) := by
  refine (reads_intLine n).bind_nil ?_
  simp only [parseI64_intText_of_range hlo hhi]
  exact Parser.Reads.pure _

theorem reads_null : Parser.Reads parseBulkString (utf8 "-1\r\n") (.bulkString none) := by
  refine (reads_intLine (-1)).bind_nil ?_
  simp only [parseI64_intText_of_range (n := -1) (by decide) (by decide), if_true]
  exact Parser.Reads.pure _

/-- A value read back at any depth that covers its bytes. -/
theorem reads_writeResp {v : RespValue} (hv : v.Representable) (hone : v.OneLineTexts) (depth : Nat)
    (hdepth : (writeResp v).length ≤ depth) : Parser.Reads (parseNested depth) (writeResp v) v := by
  induction hv generalizing depth with
  | @simpleString text hutf =>
      cases hone with
      | simpleString hline =>
          cases depth with
          | zero => cases hdepth
          | succ depth =>
              have hread := (reads_readLine hline).map RespValue.simpleString
              rw [lossy_of_utf8 hutf] at hread
              exact reads_marked hread
  | @error text hutf =>
      cases hone with
      | error hline =>
          cases depth with
          | zero => cases hdepth
          | succ depth =>
              have hread := (reads_readLine hline).map RespValue.error
              rw [lossy_of_utf8 hutf] at hread
              exact reads_marked hread
  | integer hlo hhi =>
      cases depth with
      | zero => cases hdepth
      | succ depth => exact reads_marked (reads_integer hlo hhi)
  | null =>
      cases depth with
      | zero => cases hdepth
      | succ depth => exact reads_marked reads_null
  | @bulk b hlen =>
      cases depth with
      | zero => cases hdepth
      | succ depth =>
          have hread := reads_bulk hlen
          rw [← List.append_assoc] at hread
          exact reads_marked hread
  | @array items hsize _ ih =>
      cases hone with
      | array hone =>
          cases depth with
          | zero => cases hdepth
          | succ depth =>
              rw [writeResp, writeItems_eq, List.flatMap_def] at hdepth ⊢
              refine reads_marked (reads_array hsize ?_)
              rw [List.forall₂_map_left_iff, List.forall₂_same]
              intro v hv
              refine ih v hv (hone v hv) depth ?_
              -- the items lie behind the header
              have hitem : (writeResp v).length ≤ (items.map writeResp).flatten.length :=
                (List.sublist_flatten_of_mem (List.mem_map_of_mem hv)).length_le
              simp only [List.length_append, header, List.length_cons] at hdepth
              omega

/-- **RESP decode undoes encode**: a value comes back, and nothing after it is touched. -/
theorem parseResp_serializeResp (v : RespValue) (hv : v.Representable) (hone : v.OneLineTexts) (rest : Bytes) :
    parseResp (serializeResp v ++ rest) = .ok (v, rest) := by
  unfold parseResp serializeResp
  exact reads_writeResp hv hone _ (by simp) rest

/-- A reply with a payload that looks like frames, a null and a text that ends in a carriage return. -/
def nestedReply : RespValue :=
  .array [.bulkString (some (utf8 "a\r\n$3\r\n")), .array [.bulkString none, .integer (-5)],
    .simpleString (utf8 "OK\r")]

theorem parseResp_serializeResp_nestedReply :
    parseResp (serializeResp nestedReply ++ utf8 "*1\r\n") = .ok (nestedReply, utf8 "*1\r\n") := by
  apply parseResp_serializeResp
  · refine .array (by decide) fun v hv => ?_
    simp only [List.mem_cons, List.not_mem_nil, or_false] at hv
    rcases hv with rfl | rfl | rfl
    · exact .bulk (by decide)
    · refine .array (by decide) fun v hv => ?_
      simp only [List.mem_cons, List.not_mem_nil, or_false] at hv
      rcases hv with rfl | rfl
      · exact .null
      · exact .integer (by decide) (by decide)
    · exact .simpleString (utf8_of_ascii (by decide +kernel))
  · refine .array fun v hv => ?_
    simp only [List.mem_cons, List.not_mem_nil, or_false] at hv
    rcases hv with rfl | rfl | rfl
    · exact .bulk _
    · refine .array fun v hv => ?_
      simp only [List.mem_cons, List.not_mem_nil, or_false] at hv
      rcases hv with rfl | rfl
      · exact .bulk none
      · exact .integer (-5)
    · exact .simpleString (by decide)

end FerricCache
