import FerricCache.Protocol.ParseCommand
import FerricCache.Protocol.Frames

/-!
# `FerricCache.Protocol.Rejections` — what `parse_command` says when it refuses a frame

`Yields` is the judgment that carries the analysis through the arms: a result with a property, or an error text
with one, and never a panic. Of every frame `parse_resp` can give, `parse_command` refuses with a text that is one
line, or that quotes the client: the name of an unknown command, or an argument that is no number
(`parseCommand_yields`). The `Debug` output of a value escapes its line ends and quotes nothing.
-/

namespace FerricCache

open Lib

/-! ## Values that were read -/

/-- The texts of simple strings and errors are well formed. -/
inductive RespValue.Utf8Texts : RespValue → Prop
  | simpleString {text : Bytes} (h : Utf8 text) : Utf8Texts (.simpleString text)
  | error {text : Bytes} (h : Utf8 text) : Utf8Texts (.error text)
  | integer (n : Int) : Utf8Texts (.integer n)
  | bulk (b : Option Bytes) : Utf8Texts (.bulkString b)
  | array {items : List RespValue} (h : ∀ v ∈ items, Utf8Texts v) : Utf8Texts (.array items)

/-- Everything a reader gives has the property. -/
def Gives {α : Type} (R : α → Prop) (p : Reader α) : Prop := ∀ d a r, p d = .ok (a, r) → R a

section Gives

variable {α β : Type} {R : α → Prop} {S : β → Prop}

theorem Gives.pure {a : α} (h : R a) : Gives R (Pure.pure a : Reader α) := by
  intro d b r hb
  cases hb
  exact h

theorem Gives.fail (e : ReadError) : Gives R (Parser.fail e : Reader α) := by
  intro d b r hb
  cases hb

theorem Gives.bind {p : Reader α} {q : α → Reader β} (hp : Gives R p) (hq : ∀ a, R a → Gives S (q a)) :
    Gives S (p >>= q) := by
  intro d b r h
  obtain ⟨a, m, ha, hb⟩ := Parser.bind_eq_ok.mp h
  exact hq a (hp d a m ha) m b r hb

theorem Gives.ite {c : Prop} [Decidable c] {p q : Reader α} (hp : Gives R p) (hq : Gives R q) :
    Gives R (if c then p else q) := by
  split
  · exact hp
  · exact hq

theorem Gives.times {p : Reader α} (hp : Gives R p) (n : Nat) : Gives (fun as => ∀ a ∈ as, R a) (p.times n) := by
  induction n with
  | zero => exact Gives.pure (by simp)
  | succ n ih =>
      refine hp.bind fun a ha => ih.bind fun as has => Gives.pure ?_
      intro b hb
      rcases List.mem_cons.mp hb with rfl | hb
      · exact ha
      · exact has b hb

end Gives

theorem gives_readLine : Gives Utf8 readLine := by
  have hany : Gives (fun _ => True) (Parser.line 13 10 (.err (utf8 "Incomplete line")) : Reader Bytes) :=
    fun _ _ _ _ => trivial
  exact hany.bind fun line _ => Gives.pure (utf8_lossy line)

theorem gives_parseMarked {element : Reader RespValue} (h : Gives RespValue.Utf8Texts element) (marker : UInt8) :
    Gives RespValue.Utf8Texts (parseMarked element marker) := by
  have hint : Gives RespValue.Utf8Texts parseInteger := by
    refine gives_readLine.bind fun line _ => ?_
    cases parseI64 line with
    | some num => exact Gives.pure (.integer num)
    | none => exact Gives.fail _
  have hbulk : Gives RespValue.Utf8Texts parseBulkString := by
    have hany : ∀ len, Gives (fun _ => True) (readPayload len) := fun _ _ _ _ _ => trivial
    refine gives_readLine.bind fun line _ => ?_
    cases parseI64 line with
    | none => exact Gives.fail _
    | some len =>
        refine (Gives.pure (.bulk none)).ite ((Gives.fail _).ite ?_)
        exact (hany _).bind fun data _ => Gives.pure (.bulk (some data))
  have harray : Gives RespValue.Utf8Texts (parseArray element) := by
    refine gives_readLine.bind fun line _ => ?_
    cases parseI64 line with
    | none => exact Gives.fail _
    | some count =>
        refine (Gives.pure (.array (by simp))).ite ((Gives.fail _).ite ?_)
        exact (h.times _).bind fun array harray => Gives.pure (.array harray)
  have htext : ∀ f : Bytes → RespValue, (∀ text, Utf8 text → (f text).Utf8Texts) →
      Gives RespValue.Utf8Texts (readLine >>= fun line => pure (f line)) :=
    fun f hf => gives_readLine.bind fun line hline => Gives.pure (hf line hline)
  unfold parseMarked
  refine Gives.ite ?_ (Gives.ite ?_ (hint.ite (hbulk.ite (harray.ite (Gives.fail _)))))
  · exact htext RespValue.simpleString fun _ => .simpleString
  · exact htext RespValue.error fun _ => .error

theorem gives_parseNested (depth : Nat) : Gives RespValue.Utf8Texts (parseNested depth) := by
  induction depth with
  | zero => exact Gives.fail _
  | succ depth ih =>
      have hany : Gives (fun _ => True) readMarker := fun _ _ _ _ => trivial
      exact hany.bind fun marker _ => gives_parseMarked ih marker

theorem Complete.utf8Texts {c : Bytes} {v : RespValue} (h : Complete c v) : v.Utf8Texts :=
  gives_parseNested c.length c v [] h

/-! ## `Debug` output -/

theorem not_mem_hexText (n : Nat) : 13 ∉ hexText n := by
  have hdigit : ∀ d : Fin 16, (13 : UInt8) ≠ (Nat.digitChar d).toNat.toUInt8 := by decide
  induction n using Nat.strongRecOn with
  | ind n ih =>
      unfold hexText at ih ⊢
      rw [Nat.toDigits_eq_if (by decide)]
      split
      · rename_i hlt
        have := hdigit ⟨n, hlt⟩
        simpa using this
      · rename_i hge
        have hlast := hdigit ⟨n % 16, Nat.mod_lt _ (by decide)⟩
        rw [List.map_append, List.mem_append, not_or]
        exact ⟨ih (n / 16) (by omega), by simpa using hlast⟩

theorem not_mem_unicodeEscape (code : Nat) : 13 ∉ unicodeEscape code := by
  simp [unicodeEscape, not_mem_hexText]

theorem not_mem_debugAscii (b : UInt8) : 13 ∉ debugAscii b := by
  unfold debugAscii
  split_ifs with h0 h9 h10 h13 hquote hplain
  · decide
  · decide
  · decide
  · decide
  · rcases hquote with rfl | rfl
    · decide
    · decide
  · rw [List.mem_singleton]
    rintro rfl
    exact absurd hplain.1 (by decide)
  · exact not_mem_unicodeEscape _

theorem not_mem_debugByte (b : UInt8) : 13 ∉ debugByte b := by
  have hhex := not_mem_hexText b.toNat
  unfold debugByte
  split_ifs with h10 h13 h9 hquote h0 hplain hsmall
  · decide
  · decide
  · decide
  · rcases hquote with rfl | rfl
    · decide
    · decide
  · decide
  · rw [List.mem_singleton]
    rintro rfl
    exact absurd hplain.1 (by decide)
  · simp [hhex]
  · simp [hhex]

theorem trailing_ge {b : UInt8} {ranges : List (UInt8 × UInt8)} (h : trailing b = some ranges) :
    ∀ r ∈ ranges, 0x80 ≤ r.1 := by
  unfold trailing at h
  split_ifs at h <;> cases h <;> simp

theorem ge_of_forall₂ {ranges : List (UInt8 × UInt8)} {tail : Bytes}
    (h : List.Forall₂ (fun (r : UInt8 × UInt8) c => r.1 ≤ c ∧ c ≤ r.2) ranges tail)
    (hranges : ∀ r ∈ ranges, 0x80 ≤ r.1) : ∀ c ∈ tail, 0x80 ≤ c := by
  induction h with
  | nil => simp
  | @cons r c ranges tail hc _ ih =>
      intro d hd
      rcases List.mem_cons.mp hd with rfl | hd
      · exact UInt8.le_trans (hranges r List.mem_cons_self) hc.1
      · exact ih (fun r hr => hranges r (List.mem_cons_of_mem _ hr)) d hd

variable [UnicodeTables]

/-- The characters of a well-formed text as `Debug` writes them: the bytes after a leading byte are not ASCII. -/
theorem not_mem_debugLoop {text : Bytes} (h : Utf8 text) (fuel : Nat) : 13 ∉ debugLoop fuel text := by
  induction h generalizing fuel with
  | nil => cases fuel <;> exact List.not_mem_nil
  | @char b ranges tail rest hlead htail _ ih =>
      cases fuel with
      | zero => exact List.not_mem_nil
      | succ fuel =>
          rw [debugLoop]
          by_cases hascii : b < 128
          · have hle : b ≤ 0x7F := by
              rw [UInt8.le_iff_toNat_le]
              rw [UInt8.lt_iff_toNat_lt] at hascii
              exact Nat.le_of_lt_succ hascii
            rw [trailing, if_pos hle] at hlead
            cases hlead
            cases htail
            rw [if_pos hascii, List.mem_append, not_or]
            exact ⟨not_mem_debugAscii b, ih fuel⟩
          · have htake : (tail ++ rest).take ((trailing b).getD []).length = tail := by
              rw [hlead, Option.getD_some, htail.length_eq, List.take_left]
            have htailByte : 13 ∉ b :: tail := by
              rw [List.mem_cons, not_or]
              refine ⟨?_, fun hin => ?_⟩
              · rintro rfl
                exact hascii (by decide)
              · exact absurd (ge_of_forall₂ htail (trailing_ge hlead) 13 hin) (by decide)
            simp only [if_neg hascii, htake, List.drop_left]
            rw [List.mem_append, not_or]
            refine ⟨?_, ih fuel⟩
            split
            · exact not_mem_unicodeEscape _
            · exact htailByte

theorem not_mem_debugStr {text : Bytes} (h : Utf8 text) : 13 ∉ debugStr text := by
  simp [debugStr, not_mem_debugLoop h]

omit [UnicodeTables] in
theorem not_mem_debugBytes (b : Bytes) : 13 ∉ debugBytes b := by
  have hbytes : 13 ∉ b.flatMap debugByte := by
    rw [List.mem_flatMap]
    rintro ⟨c, -, hc⟩
    exact not_mem_debugByte c hc
  simp [debugBytes, hbytes]

omit [UnicodeTables] in
theorem not_mem_intText (n : Int) : 13 ∉ intText n := by
  intro h
  exact absurd (mem_intText h).1 (by decide)

omit [UnicodeTables] in
theorem not_mem_natText (n : Nat) : 13 ∉ natText n := not_mem_intText n

theorem not_mem_debugItems {items : List RespValue} (h : ∀ v ∈ items, 13 ∉ debugResp v) :
    13 ∉ debugItems items := by
  have hcomma : 13 ∉ utf8 ", " := by decide
  induction items with
  | nil => exact List.not_mem_nil
  | cons v items ih =>
      have hv := h v List.mem_cons_self
      have hrest := ih fun w hw => h w (List.mem_cons_of_mem _ hw)
      cases items with
      | nil => exact hv
      | cons w items =>
          rw [debugItems, List.mem_append, List.mem_append, not_or, not_or]
          exact ⟨⟨hv, hcomma⟩, hrest⟩

/-- `{:?}` of a value that was read has no carriage return. -/
theorem not_mem_debugResp {v : RespValue} (h : v.Utf8Texts) : 13 ∉ debugResp v := by
  induction h with
  | simpleString htext =>
      have hname : 13 ∉ utf8 "SimpleString(" := by decide
      simp [debugResp, hname, not_mem_debugStr htext]
  | error htext =>
      have hname : 13 ∉ utf8 "Error(" := by decide
      simp [debugResp, hname, not_mem_debugStr htext]
  | integer n =>
      have hname : 13 ∉ utf8 "Integer(" := by decide
      simp [debugResp, hname, not_mem_intText]
  | bulk b =>
      cases b with
      | none =>
          rw [debugResp]
          decide
      | some b =>
          have hname : 13 ∉ utf8 "BulkString(Some(" := by decide
          have hclose : 13 ∉ utf8 "))" := by decide
          simp [debugResp, hname, hclose, not_mem_debugBytes]
  | array _ ih =>
      have hopen : 13 ∉ utf8 "Array([" := by decide
      have hclose : 13 ∉ utf8 "])" := by decide
      simp [debugResp, hopen, hclose, not_mem_debugItems ih]

/-! ## The judgment -/

/-- A result with `R`, or an error text with `Q`, and never a panic. -/
def Yields {α : Type} (Q : Bytes → Prop) (R : α → Prop) : Parse α → Prop
  | .ok a => R a
  | .error (.err text) => Q text
  | .error .panic => False

section Yields

variable {α β : Type} {Q : Bytes → Prop} {R : α → Prop} {S : β → Prop}

omit [UnicodeTables]

theorem Yields.pure {a : α} (h : R a) : Yields Q R (Pure.pure a) := h

theorem Yields.reject {text : Bytes} (h : Q text) : Yields Q R (FerricCache.reject text) := h

theorem Yields.bind {p : Parse α} {f : α → Parse β} (hp : Yields Q R p) (hf : ∀ a, R a → Yields Q S (f a)) :
    Yields Q S (p >>= f) := by
  rcases p with (text | _) | a
  · exact hp
  · exact hp.elim
  · exact hf a hp

theorem Yields.imp {Q' : Bytes → Prop} {R' : α → Prop} {p : Parse α} (hp : Yields Q R p)
    (hQ : ∀ text, Q text → Q' text) (hR : ∀ a, p = .ok a → R a → R' a) : Yields Q' R' p := by
  rcases p with (text | _) | a
  · exact hQ text hp
  · exact hp
  · exact hR a rfl hp

theorem Yields.ite {c : Prop} [Decidable c] {p q : Parse α} (hp : c → Yields Q R p) (hq : ¬ c → Yields Q R q) :
    Yields Q R (if c then p else q) := by
  split
  · exact hp ‹_›
  · exact hq ‹_›

/-- A check that refuses, and what follows it. -/
theorem Yields.guard {c : Prop} [Decidable c] {text : Bytes} {f : Unit → Parse β} (htext : Q text)
    (hf : ¬ c → Yields Q S (f ())) : Yields Q S (if c then FerricCache.reject text >>= f else f ()) :=
  Yields.ite (fun _ => htext) hf

theorem Yields.mapM {f : α → Parse β} {l : List α} (hf : ∀ a ∈ l, Yields Q S (f a)) :
    Yields Q (fun _ => True) (l.mapM f) := by
  induction l with
  | nil => exact Yields.pure trivial
  | cons a l ih =>
      rw [List.mapM_cons]
      refine (hf a List.mem_cons_self).bind fun _ _ => ?_
      refine (ih fun b hb => hf b (List.mem_cons_of_mem _ hb)).bind fun _ _ => ?_
      exact Yields.pure trivial

end Yields

/-! ## Arguments -/

/-- The text quotes an argument that is no number. -/
inductive QuotesArgument (array : List RespValue) : Bytes → Bytes → Prop
  | integer {b : Bytes} (hmem : .bulkString (some b) ∈ array) (hno : parseI64 (lossy b) = none) :
      QuotesArgument array (utf8 "Invalid integer: " ++ lossy b) (lossy b)
  | float {b : Bytes} (hmem : .bulkString (some b) ∈ array) (hno : F64.parse (lossy b) = none) :
      QuotesArgument array (utf8 "Invalid float: " ++ lossy b) (lossy b)

/-- What an arm may say about its arguments. -/
def ArgumentText (array : List RespValue) (text : Bytes) : Prop :=
  OneLine text ∨ ∃ quoted, QuotesArgument array text quoted

section Arguments

variable {array : List RespValue} {R : Command → Prop} (harray : ∀ v ∈ array, v.Utf8Texts)

omit [UnicodeTables] in
theorem argumentText_of_not_mem {text : Bytes} (h : 13 ∉ text) : ArgumentText array text :=
  Or.inl (oneLine_of_not_mem h)

include harray

theorem yields_extractBulkString {v : RespValue} (hv : v ∈ array) :
    Yields (ArgumentText array) (fun _ => True) (extractBulkString v) := by
  have hgot : 13 ∉ utf8 "Expected bulk string, got " ++ debugResp v := by
    have hname : 13 ∉ utf8 "Expected bulk string, got " := by decide
    simp [hname, not_mem_debugResp (harray v hv)]
  cases v with
  | bulkString b =>
      cases b with
      | some b => exact Yields.pure trivial
      | none => exact Yields.reject (argumentText_of_not_mem (by decide))
  | simpleString text => exact Yields.pure trivial
  | error text => exact Yields.reject (argumentText_of_not_mem hgot)
  | integer n => exact Yields.reject (argumentText_of_not_mem hgot)
  | array items => exact Yields.reject (argumentText_of_not_mem hgot)

theorem yields_extractInteger {v : RespValue} (hv : v ∈ array) :
    Yields (ArgumentText array) (fun _ => True) (extractInteger v) := by
  have hgot : 13 ∉ utf8 "Expected integer, got " ++ debugResp v := by
    have hname : 13 ∉ utf8 "Expected integer, got " := by decide
    simp [hname, not_mem_debugResp (harray v hv)]
  cases v with
  | bulkString b =>
      cases b with
      | none => exact Yields.reject (argumentText_of_not_mem hgot)
      | some b =>
          rw [extractInteger]
          cases hparse : parseI64 (lossy b) with
          | some n => exact Yields.pure trivial
          | none => exact Yields.reject (Or.inr ⟨lossy b, .integer hv hparse⟩)
  | integer n => exact Yields.pure trivial
  | simpleString text => exact Yields.reject (argumentText_of_not_mem hgot)
  | error text => exact Yields.reject (argumentText_of_not_mem hgot)
  | array items => exact Yields.reject (argumentText_of_not_mem hgot)

theorem yields_extractFloat {v : RespValue} (hv : v ∈ array) :
    Yields (ArgumentText array) (fun _ => True) (extractFloat v) := by
  have hgot : 13 ∉ utf8 "Expected float, got " ++ debugResp v := by
    have hname : 13 ∉ utf8 "Expected float, got " := by decide
    simp [hname, not_mem_debugResp (harray v hv)]
  cases v with
  | bulkString b =>
      cases b with
      | none => exact Yields.reject (argumentText_of_not_mem hgot)
      | some b =>
          rw [extractFloat]
          cases hparse : F64.parse (lossy b) with
          | some x => exact Yields.pure trivial
          | none => exact Yields.reject (Or.inr ⟨lossy b, .float hv hparse⟩)
  | integer n => exact Yields.pure trivial
  | simpleString text => exact Yields.reject (argumentText_of_not_mem hgot)
  | error text => exact Yields.reject (argumentText_of_not_mem hgot)
  | array items => exact Yields.reject (argumentText_of_not_mem hgot)

omit [UnicodeTables] harray in
theorem yields_nth {i : Nat} (hi : i < array.length) :
    Yields (ArgumentText array) (fun v => v ∈ array) (nth array i) := by
  rw [nth, List.getElem?_eq_getElem hi]
  exact List.getElem_mem hi

theorem yields_bulkAt {i : Nat} (hi : i < array.length) :
    Yields (ArgumentText array) (fun _ => True) (bulkAt array i) :=
  (yields_nth hi).bind fun _ hv => yields_extractBulkString harray hv

theorem yields_intAt {i : Nat} (hi : i < array.length) :
    Yields (ArgumentText array) (fun _ => True) (intAt array i) :=
  (yields_nth hi).bind fun _ hv => yields_extractInteger harray hv

theorem yields_floatAt {i : Nat} (hi : i < array.length) :
    Yields (ArgumentText array) (fun _ => True) (floatAt array i) :=
  (yields_nth hi).bind fun _ hv => yields_extractFloat harray hv

theorem yields_keywordAt {i : Nat} (hi : i < array.length) :
    Yields (ArgumentText array) (fun _ => True) (keywordAt array i) :=
  (yields_bulkAt harray hi).bind fun _ _ => Yields.pure trivial

theorem yields_bulks {l : List RespValue} (hl : l ⊆ array) :
    Yields (ArgumentText array) (fun _ => True) (l.mapM extractBulkString) :=
  Yields.mapM fun _ hv => yields_extractBulkString harray (hl hv)

theorem yields_bulksFrom {i : Nat} (hi : i ≤ array.length) :
    Yields (ArgumentText array) (fun _ => True) (bulksFrom array i) := by
  rw [bulksFrom, if_neg (by omega)]
  exact yields_bulks harray (List.drop_subset i array)

theorem yields_pairsOf {l : List RespValue} (hl : l ⊆ array) :
    Yields (ArgumentText array) (fun _ => True) (pairsOf l) := by
  induction l using pairsOf.induct with
  | case1 k v rest ih =>
      refine (yields_extractBulkString harray (hl List.mem_cons_self)).bind fun _ _ => ?_
      refine (yields_extractBulkString harray (hl (List.mem_cons_of_mem _ List.mem_cons_self))).bind fun _ _ => ?_
      refine (ih fun w hw => hl (List.mem_cons_of_mem _ (List.mem_cons_of_mem _ hw))).bind fun _ _ => ?_
      exact Yields.pure trivial
  | case2 l hl' =>
      unfold pairsOf
      split
      · exact absurd rfl (hl' _ _ _)
      · exact Yields.pure trivial

omit [UnicodeTables] harray in
theorem yields_ensureArgCount (expected : Nat) :
    Yields (ArgumentText array) (fun _ => array.length = expected) (ensureArgCount array expected) := by
  have htext : 13 ∉ utf8 "Expected " ++ natText expected ++ utf8 " arguments, got " ++ natText array.length := by
    have hexpected : 13 ∉ utf8 "Expected " := by decide
    have hgot : 13 ∉ utf8 " arguments, got " := by decide
    simp [hexpected, hgot, not_mem_natText]
  refine Yields.ite (fun _ => Yields.reject (argumentText_of_not_mem htext)) fun h => ?_
  exact not_not.mp h

/-! ## Arms -/

omit [UnicodeTables] harray in
theorem yields_nameOnly {c : Command} (hR : R c) : Yields (ArgumentText array) R (nameOnly c array) :=
  (yields_ensureArgCount 1).bind fun _ _ => Yields.pure hR

theorem yields_withKey {mk : Bytes → Command} (hR : ∀ k, R (mk k)) :
    Yields (ArgumentText array) R (withKey mk array) := by
  refine (yields_ensureArgCount 2).bind fun _ hlen => ?_
  refine (yields_bulkAt harray (by omega)).bind fun key _ => ?_
  exact Yields.pure (hR key)

theorem yields_withKeyValue {mk : Bytes → Bytes → Command} (hR : ∀ k v, R (mk k v)) :
    Yields (ArgumentText array) R (withKeyValue mk array) := by
  refine (yields_ensureArgCount 3).bind fun _ hlen => ?_
  refine (yields_bulkAt harray (by omega)).bind fun key _ => ?_
  refine (yields_bulkAt harray (by omega)).bind fun value _ => ?_
  exact Yields.pure (hR key value)

theorem yields_withThree {mk : Bytes → Bytes → Bytes → Command} (hR : ∀ a b c, R (mk a b c)) :
    Yields (ArgumentText array) R (withThree mk array) := by
  refine (yields_ensureArgCount 4).bind fun _ hlen => ?_
  refine (yields_bulkAt harray (by omega)).bind fun a _ => ?_
  refine (yields_bulkAt harray (by omega)).bind fun b _ => ?_
  refine (yields_bulkAt harray (by omega)).bind fun c _ => ?_
  exact Yields.pure (hR a b c)

theorem yields_withKeyInt {mk : Bytes → Int64 → Command} (hR : ∀ k n, R (mk k n)) :
    Yields (ArgumentText array) R (withKeyInt mk array) := by
  refine (yields_ensureArgCount 3).bind fun _ hlen => ?_
  refine (yields_bulkAt harray (by omega)).bind fun key _ => ?_
  refine (yields_intAt harray (by omega)).bind fun n _ => ?_
  exact Yields.pure (hR key _)

theorem yields_withKeyInts {mk : Bytes → Int64 → Int64 → Command} (hR : ∀ k m n, R (mk k m n)) :
    Yields (ArgumentText array) R (withKeyInts mk array) := by
  refine (yields_ensureArgCount 4).bind fun _ hlen => ?_
  refine (yields_bulkAt harray (by omega)).bind fun key _ => ?_
  refine (yields_intAt harray (by omega)).bind fun m _ => ?_
  refine (yields_intAt harray (by omega)).bind fun n _ => ?_
  exact Yields.pure (hR key _ _)

theorem yields_withKeyIntValue {mk : Bytes → Int → Bytes → Command} (hR : ∀ k n v, R (mk k n v)) :
    Yields (ArgumentText array) R (withKeyIntValue mk array) := by
  refine (yields_ensureArgCount 4).bind fun _ hlen => ?_
  refine (yields_bulkAt harray (by omega)).bind fun key _ => ?_
  refine (yields_intAt harray (by omega)).bind fun n _ => ?_
  refine (yields_bulkAt harray (by omega)).bind fun value _ => ?_
  exact Yields.pure (hR key n value)

theorem yields_keyAndMore {text : String} (htext : 13 ∉ utf8 text) {mk : Bytes → List Bytes → Command}
    (hR : ∀ k l, R (mk k l)) : Yields (ArgumentText array) R (keyAndMore text mk array) := by
  unfold keyAndMore
  refine Yields.guard (argumentText_of_not_mem htext) fun hlen => ?_
  refine (yields_bulkAt harray (by omega)).bind fun key _ => ?_
  refine (yields_bulksFrom harray (by omega)).bind fun more _ => ?_
  exact Yields.pure (hR key more)

theorem yields_keysOnly {text : String} (htext : 13 ∉ utf8 text) {mk : List Bytes → Command} (hR : ∀ l, R (mk l)) :
    Yields (ArgumentText array) R (keysOnly text mk array) := by
  unfold keysOnly
  refine Yields.guard (argumentText_of_not_mem htext) fun hlen => ?_
  refine (yields_bulksFrom harray (by omega)).bind fun keys _ => ?_
  exact Yields.pure (hR keys)

theorem yields_setOptions {l : List RespValue} (hl : l ⊆ array) (ttlSecs : Option UInt32) :
    Yields (ArgumentText array) (fun _ => True) (setOptions l ttlSecs) := by
  induction hn : l.length using Nat.strongRecOn generalizing l ttlSecs with
  | ind n ih =>
      subst hn
      cases l with
      | nil =>
          unfold setOptions
          exact Yields.pure trivial
      | cons opt rest =>
          have hrest : rest ⊆ array := fun w hw => hl (List.mem_cons_of_mem _ hw)
          unfold setOptions
          refine (yields_extractBulkString harray (hl List.mem_cons_self)).bind fun word _ => ?_
          refine Yields.ite (fun _ => ?_) fun _ => Yields.ite (fun _ => ?_) fun _ => ?_
          · cases rest with
            | nil => exact Yields.reject (argumentText_of_not_mem (by decide))
            | cons secs rest =>
                refine (yields_extractInteger harray (hrest List.mem_cons_self)).bind fun _ _ => ?_
                exact ih rest.length (by simp) (fun w hw => hrest (List.mem_cons_of_mem _ hw)) _ rfl
          · cases rest with
            | nil => exact Yields.reject (argumentText_of_not_mem (by decide))
            | cons millis rest =>
                refine (yields_extractInteger harray (hrest List.mem_cons_self)).bind fun _ _ => ?_
                exact ih rest.length (by simp) (fun w hw => hrest (List.mem_cons_of_mem _ hw)) _ rfl
          · exact ih rest.length (by simp) hrest _ rfl

theorem yields_parseSet (hR : ∀ k v t, R (.set k v t)) : Yields (ArgumentText array) R (parseSet array) := by
  unfold parseSet
  refine Yields.guard (argumentText_of_not_mem (by decide)) fun hlen => ?_
  refine (yields_bulkAt harray (by omega)).bind fun key _ => ?_
  refine (yields_bulkAt harray (by omega)).bind fun value _ => ?_
  refine (yields_setOptions harray (List.drop_subset 3 array) none).bind fun ttl _ => ?_
  exact Yields.pure (hR key value ttl)

/-- The loop of `ZADD` reads in range: it is given an even number of values. -/
theorem yields_scoresOf {l : List RespValue} (hl : l ⊆ array) (heven : l.length % 2 = 0) :
    Yields (ArgumentText array) (fun _ => True) (scoresOf l) := by
  induction hn : l.length using Nat.strongRecOn generalizing l with
  | ind n ih =>
      subst hn
      rcases l with _ | ⟨score, _ | ⟨member, rest⟩⟩
      · rw [scoresOf]
        exact Yields.pure trivial
      · cases heven
      · have hmem : member ∈ array := hl (List.mem_cons_of_mem _ List.mem_cons_self)
        have hrest : rest ⊆ array := fun w hw => hl (List.mem_cons_of_mem _ (List.mem_cons_of_mem _ hw))
        rw [scoresOf]
        refine (yields_extractFloat harray (hl List.mem_cons_self)).bind fun _ _ => ?_
        refine (yields_extractBulkString harray hmem).bind fun _ _ => ?_
        refine (ih rest.length (by simp) hrest ?_ rfl).bind fun _ _ => Yields.pure trivial
        simp only [List.length_cons] at heven
        omega

theorem yields_parseZadd (hR : ∀ k l, R (.zadd k l)) : Yields (ArgumentText array) R (parseZadd array) := by
  unfold parseZadd
  refine Yields.guard (argumentText_of_not_mem (by decide)) fun hlen => ?_
  refine (yields_bulkAt harray (by omega)).bind fun key _ => ?_
  refine (yields_scoresOf harray (List.drop_subset 2 array) ?_).bind fun scores _ => Yields.pure (hR key scores)
  rw [List.length_drop]
  omega

theorem yields_parseZrange (hR : ∀ k m n b, R (.zrange k m n b)) :
    Yields (ArgumentText array) R (parseZrange array) := by
  unfold parseZrange
  refine Yields.guard (argumentText_of_not_mem (by decide)) fun hlen => ?_
  refine (yields_bulkAt harray (by omega)).bind fun key _ => ?_
  refine (yields_intAt harray (by omega)).bind fun start _ => ?_
  refine (yields_intAt harray (by omega)).bind fun stop _ => ?_
  refine Yields.ite (fun hmore => ?_) fun _ => Yields.pure (hR _ _ _ _)
  refine (yields_keywordAt harray (by omega)).bind fun word _ => ?_
  exact Yields.pure (hR _ _ _ _)

theorem yields_parseZcount (hR : ∀ k x y, R (.zcount k x y)) : Yields (ArgumentText array) R (parseZcount array) := by
  refine (yields_ensureArgCount 4).bind fun _ hlen => ?_
  refine (yields_bulkAt harray (by omega)).bind fun key _ => ?_
  refine (yields_floatAt harray (by omega)).bind fun min _ => ?_
  refine (yields_floatAt harray (by omega)).bind fun max _ => ?_
  exact Yields.pure (hR key min max)

theorem yields_parseKeys (hR : ∀ p, R (.keys p)) : Yields (ArgumentText array) R (parseKeys array) := by
  refine (yields_ensureArgCount 2).bind fun _ hlen => ?_
  refine (yields_bulkAt harray (by omega)).bind fun pattern _ => ?_
  exact Yields.pure (hR _)

theorem yields_parseAuth (hR : ∀ u p, R (.auth u p)) : Yields (ArgumentText array) R (parseAuth array) := by
  unfold parseAuth
  refine Yields.ite (fun hlen => ?_) fun _ => Yields.ite (fun hlen => ?_) fun _ => ?_
  · refine (yields_bulkAt harray (by omega)).bind fun password _ => ?_
    exact Yields.pure (hR _ _)
  · refine (yields_bulkAt harray (by omega)).bind fun user _ => ?_
    refine (yields_bulkAt harray (by omega)).bind fun password _ => ?_
    exact Yields.pure (hR _ _)
  · exact Yields.reject (argumentText_of_not_mem (by decide))

theorem yields_parseMset (hR : ∀ l, R (.mset l)) : Yields (ArgumentText array) R (parseMset array) := by
  unfold parseMset
  refine Yields.guard (argumentText_of_not_mem (by decide)) fun _ => ?_
  refine (yields_pairsOf harray (List.drop_subset 1 array)).bind fun pairs _ => ?_
  exact Yields.pure (hR pairs)

theorem yields_parseIncrByFloat (hR : ∀ k x, R (.incrByFloat k x)) :
    Yields (ArgumentText array) R (parseIncrByFloat array) := by
  refine (yields_ensureArgCount 3).bind fun _ hlen => ?_
  refine (yields_bulkAt harray (by omega)).bind fun key _ => ?_
  refine (yields_floatAt harray (by omega)).bind fun delta _ => ?_
  exact Yields.pure (hR key delta)

theorem yields_parseHmset (hR : ∀ k l, R (.hmset k l)) : Yields (ArgumentText array) R (parseHmset array) := by
  unfold parseHmset
  refine Yields.guard (argumentText_of_not_mem (by decide)) fun hlen => ?_
  refine (yields_bulkAt harray (by omega)).bind fun key _ => ?_
  refine (yields_pairsOf harray (List.drop_subset 2 array)).bind fun pairs _ => ?_
  exact Yields.pure (hR key pairs)

theorem yields_parseHincrBy (hR : ∀ k f n, R (.hincrBy k f n)) :
    Yields (ArgumentText array) R (parseHincrBy array) := by
  refine (yields_ensureArgCount 4).bind fun _ hlen => ?_
  refine (yields_bulkAt harray (by omega)).bind fun key _ => ?_
  refine (yields_bulkAt harray (by omega)).bind fun field _ => ?_
  refine (yields_intAt harray (by omega)).bind fun delta _ => ?_
  exact Yields.pure (hR key field _)

theorem yields_keyAndCount {text : String} (htext : 13 ∉ utf8 text) {mk : Bytes → Option Int → Command}
    (hR : ∀ k n, R (mk k n)) : Yields (ArgumentText array) R (keyAndCount text mk array) := by
  unfold keyAndCount
  refine Yields.guard (argumentText_of_not_mem htext) fun hlen => ?_
  refine Yields.ite (fun hthree => ?_) fun _ => ?_
  · refine (yields_intAt harray (by omega)).bind fun n _ => ?_
    refine (yields_bulkAt harray (by omega)).bind fun key _ => ?_
    exact Yields.pure (hR key _)
  · refine (yields_bulkAt harray (by omega)).bind fun key _ => ?_
    exact Yields.pure (hR key none)

theorem yields_parseZincrBy (hR : ∀ k x m, R (.zincrBy k x m)) :
    Yields (ArgumentText array) R (parseZincrBy array) := by
  refine (yields_ensureArgCount 4).bind fun _ hlen => ?_
  refine (yields_bulkAt harray (by omega)).bind fun key _ => ?_
  refine (yields_floatAt harray (by omega)).bind fun delta _ => ?_
  refine (yields_bulkAt harray (by omega)).bind fun member _ => ?_
  exact Yields.pure (hR key delta member)

theorem yields_withScoresAt : Yields (ArgumentText array) (fun _ => True) (withScoresAt array) := by
  unfold withScoresAt
  refine Yields.ite (fun hlen => ?_) fun _ => Yields.pure trivial
  refine (yields_keywordAt harray (by omega)).bind fun word _ => ?_
  exact Yields.pure trivial

theorem yields_parseZrangeByScore (hR : ∀ k x y b, R (.zrangeByScore k x y b)) :
    Yields (ArgumentText array) R (parseZrangeByScore array) := by
  unfold parseZrangeByScore
  refine Yields.guard (argumentText_of_not_mem (by decide)) fun hlen => ?_
  refine (yields_withScoresAt harray).bind fun withScores _ => ?_
  refine (yields_bulkAt harray (by omega)).bind fun key _ => ?_
  refine (yields_floatAt harray (by omega)).bind fun min _ => ?_
  refine (yields_floatAt harray (by omega)).bind fun max _ => ?_
  exact Yields.pure (hR key min max withScores)

theorem yields_parseZrevrange (hR : ∀ k m n b, R (.zrevrange k m n b)) :
    Yields (ArgumentText array) R (parseZrevrange array) := by
  unfold parseZrevrange
  refine Yields.guard (argumentText_of_not_mem (by decide)) fun hlen => ?_
  refine (yields_withScoresAt harray).bind fun withScores _ => ?_
  refine (yields_bulkAt harray (by omega)).bind fun key _ => ?_
  refine (yields_intAt harray (by omega)).bind fun start _ => ?_
  refine (yields_intAt harray (by omega)).bind fun stop _ => ?_
  exact Yields.pure (hR key _ _ withScores)

theorem yields_parseUnsubscribe (hne : array ≠ []) (hR : ∀ l, R (.unsubscribe l)) :
    Yields (ArgumentText array) R (parseUnsubscribe array) := by
  unfold parseUnsubscribe
  refine Yields.ite (fun _ => Yields.pure (hR [])) fun _ => ?_
  refine (yields_bulksFrom harray (List.length_pos_iff.mpr hne)).bind fun channels _ => ?_
  exact Yields.pure (hR channels)

theorem yields_parseXadd (hR : ∀ k id l, R (.xadd k id l)) : Yields (ArgumentText array) R (parseXadd array) := by
  unfold parseXadd
  refine Yields.guard (argumentText_of_not_mem (by decide)) fun hlen => ?_
  refine (yields_bulkAt harray (by omega)).bind fun key _ => ?_
  refine (yields_bulkAt harray (by omega)).bind fun id _ => ?_
  refine (yields_pairsOf harray (List.drop_subset 3 array)).bind fun fields _ => ?_
  exact Yields.pure (hR key _ fields)

theorem yields_parseXrange (hR : ∀ k a b n, R (.xrange k a b n)) :
    Yields (ArgumentText array) R (parseXrange array) := by
  unfold parseXrange
  refine Yields.guard (argumentText_of_not_mem (by decide)) fun hlen => ?_
  have hrest : ∀ n, Yields (ArgumentText array) R (do
      return .xrange (← bulkAt array 1) (lossy (← bulkAt array 2)) (lossy (← bulkAt array 3)) n) := by
    intro n
    refine (yields_bulkAt harray (by omega)).bind fun key _ => ?_
    refine (yields_bulkAt harray (by omega)).bind fun start _ => ?_
    refine (yields_bulkAt harray (by omega)).bind fun stop _ => ?_
    exact Yields.pure (hR key _ _ n)
  refine Yields.ite (fun hcount => ?_) fun _ => hrest none
  refine (yields_keywordAt harray (by omega)).bind fun word _ => ?_
  refine Yields.guard (argumentText_of_not_mem (by decide)) fun _ => ?_
  refine (yields_intAt harray (by omega)).bind fun n _ => ?_
  exact hrest _

theorem yields_xreadCount : Yields (ArgumentText array) (fun _ => True) (xreadCount array) := by
  unfold xreadCount
  refine Yields.ite (fun hlen => ?_) fun _ => Yields.pure trivial
  refine (yields_keywordAt harray (by omega)).bind fun word _ => ?_
  refine Yields.ite (fun _ => ?_) fun _ => Yields.pure trivial
  refine (yields_intAt harray (by omega)).bind fun n _ => ?_
  exact Yields.pure trivial

theorem yields_xreadBlock (idx : Nat) : Yields (ArgumentText array) (fun _ => True) (xreadBlock array idx) := by
  unfold xreadBlock
  refine Yields.ite (fun hlen => ?_) fun _ => Yields.pure trivial
  refine (yields_keywordAt harray (by omega)).bind fun word _ => ?_
  exact Yields.ite (fun _ => Yields.pure trivial) fun _ => Yields.pure trivial

theorem yields_parseXread (hR : ∀ n ks ids, R (.xread n ks ids)) :
    Yields (ArgumentText array) R (parseXread array) := by
  refine (yields_xreadCount harray).bind fun start _ => ?_
  obtain ⟨count, idx⟩ := start
  refine (yields_xreadBlock harray idx).bind fun idx _ => ?_
  refine Yields.guard (argumentText_of_not_mem (by decide)) fun hlen => ?_
  refine (yields_keywordAt harray (by omega)).bind fun word _ => ?_
  refine Yields.guard (argumentText_of_not_mem (by decide)) fun _ => ?_
  refine Yields.guard (argumentText_of_not_mem (by decide)) fun _ => ?_
  have hrest : array.drop (idx + 1) ⊆ array := List.drop_subset _ _
  refine (yields_bulks harray (List.Subset.trans (List.take_subset _ _) hrest)).bind fun keys _ => ?_
  refine (yields_bulks harray (List.Subset.trans (List.drop_subset _ _) hrest)).bind fun ids _ => ?_
  exact Yields.pure (hR count keys _)

theorem yields_parseEval {name : String} (hname : 13 ∉ utf8 name) {mk : Bytes → List Bytes → List Bytes → Command}
    (hR : ∀ s ks as, R (mk s ks as)) : Yields (ArgumentText array) R (parseEval name mk array) := by
  have hfew : 13 ∉ utf8 name ++ utf8 " requires script + numkeys" := by
    have hrest : 13 ∉ utf8 " requires script + numkeys" := by decide
    simp [hname, hrest]
  unfold parseEval
  refine Yields.guard (argumentText_of_not_mem hfew) fun hlen => ?_
  refine (yields_bulkAt harray (by omega)).bind fun script _ => ?_
  refine (yields_intAt harray (by omega)).bind fun n _ => ?_
  have hmany : 13 ∉ utf8 name ++ utf8 ": not enough keys for numkeys=" ++ natText (clampUsize n).toNat := by
    have hrest : 13 ∉ utf8 ": not enough keys for numkeys=" := by decide
    have hnat : 13 ∉ natText (clampUsize n).toNat := not_mem_natText _
    simp [hname, hrest, hnat]
  refine Yields.guard (argumentText_of_not_mem hmany) fun hkeys => ?_
  refine (yields_bulks harray (List.Subset.trans (List.take_subset _ _) (List.drop_subset _ _))).bind fun keys _ => ?_
  refine (yields_bulksFrom harray (by omega)).bind fun argv _ => ?_
  exact Yields.pure (hR _ keys argv)

end Arguments

/-! ## Frames -/

omit [UnicodeTables] in
/-- The names of commands that push frames of their own, release other commands or run a script. -/
def specialNames : List Bytes :=
  [utf8 "SUBSCRIBE", utf8 "UNSUBSCRIBE", utf8 "EXEC", utf8 "EVAL", utf8 "EVALSHA"]

omit [UnicodeTables] in
/-- The commands of those names. -/
def special : Command → Bool
  | .subscribe _ | .unsubscribe _ | .exec | .luaEval _ _ _ | .luaEvalSha _ _ _ => true
  | _ => false

/-- Every arm of `parse_command`: what it says when it refuses, and that only the special names give special
    commands. -/
theorem yields_arm {array : List RespValue} (hne : array ≠ []) (harray : ∀ v ∈ array, v.Utf8Texts) :
    ∀ entry ∈ commandTable,
      Yields (ArgumentText array) (fun c => entry.1 ∉ specialNames → special c = false) (entry.2 array) := by
  unfold commandTable
  simp only [List.forall_mem_cons, List.not_mem_nil, false_implies, implies_true, and_true]
  constructorm* _ ∧ _
  -- by the shape of the arm
  all_goals first
    | with_reducible refine yields_withKey harray ?_
    | with_reducible refine yields_withKeyValue harray ?_
    | with_reducible refine yields_withThree harray ?_
    | with_reducible refine yields_withKeyInt harray ?_
    | with_reducible refine yields_withKeyInts harray ?_
    | with_reducible refine yields_withKeyIntValue harray ?_
    | with_reducible refine yields_keyAndMore harray (by decide) ?_
    | with_reducible refine yields_keysOnly harray (by decide) ?_
    | with_reducible refine yields_keyAndCount harray (by decide) ?_
    | with_reducible refine yields_nameOnly ?_
    | with_reducible refine yields_parseSet harray ?_
    | with_reducible refine yields_parseZadd harray ?_
    | with_reducible refine yields_parseZrange harray ?_
    | with_reducible refine yields_parseZcount harray ?_
    | with_reducible refine yields_parseKeys harray ?_
    | with_reducible refine yields_parseAuth harray ?_
    | with_reducible refine yields_parseMset harray ?_
    | with_reducible refine yields_parseIncrByFloat harray ?_
    | with_reducible refine yields_parseHmset harray ?_
    | with_reducible refine yields_parseHincrBy harray ?_
    | with_reducible refine yields_parseZincrBy harray ?_
    | with_reducible refine yields_parseZrangeByScore harray ?_
    | with_reducible refine yields_parseZrevrange harray ?_
    | with_reducible refine yields_parseUnsubscribe harray hne ?_
    | with_reducible refine yields_parseXadd harray ?_
    | with_reducible refine yields_parseXrange harray ?_
    | with_reducible refine yields_parseXread harray ?_
    | with_reducible refine yields_parseEval harray (by decide) ?_
    | refine Yields.pure ?_
  all_goals intros
  -- the command each arm makes
  all_goals first
    | rfl
    | (rename_i hname
       exact absurd (by decide) hname)

/-- The frame names one of the commands. -/
def Names (names : List Bytes) (v : RespValue) : Prop :=
  ∃ first rest word, v = .array (first :: rest) ∧ commandWord first = .ok word ∧ word ∈ names

/-- A refusal that quotes the client, and what it quotes. -/
inductive Quotes : RespValue → Bytes → Bytes → Prop
  | name {first : RespValue} {rest : List RespValue} {word : Bytes} (hword : commandWord first = .ok word)
      (hno : commandTable.lookup word = none) :
      Quotes (.array (first :: rest)) (utf8 "Unknown command: " ++ word) word
  | argument {items : List RespValue} {text quoted : Bytes} (h : QuotesArgument items text quoted) :
      Quotes (.array items) text quoted

omit [UnicodeTables] in
theorem QuotesArgument.oneLine_iff {array : List RespValue} {text quoted : Bytes}
    (h : QuotesArgument array text quoted) : OneLine text ↔ OneLine quoted := by
  cases h with
  | integer _ _ => exact oneLine_append (by decide)
  | float _ _ => exact oneLine_append (by decide)

/-- A refusal is one line exactly when what it quotes is. -/
theorem Quotes.oneLine_iff {v : RespValue} {text quoted : Bytes} (h : Quotes v text quoted) :
    OneLine text ↔ OneLine quoted := by
  cases h with
  | name _ _ => exact oneLine_append (by decide)
  | argument h => exact h.oneLine_iff

/-- **What `parse_command` makes of a frame that was read**: a special command only under a special name, and an
    error text that is one line or quotes the client. It never panics. -/
theorem parseCommand_yields {v : RespValue} (hv : v.Utf8Texts) :
    Yields (fun text => OneLine text ∨ ∃ quoted, Quotes v text quoted)
      (fun c => special c = true → Names specialNames v) (parseCommand v) := by
  have hnot : ∀ w, (∀ items, w ≠ RespValue.array items) →
      Yields (fun text => OneLine text ∨ ∃ quoted, Quotes w text quoted)
        (fun c => special c = true → Names specialNames w) (parseCommand w) := by
    intro w hw
    cases w with
    | array items => exact absurd rfl (hw items)
    | _ => exact Or.inl (oneLine_of_not_mem (by decide))
  cases hv with
  | @array items hitems =>
      cases items with
      | nil => exact Or.inl (oneLine_of_not_mem (by decide))
      | cons first rest =>
          have hlift : ∀ text, ArgumentText (first :: rest) text →
              OneLine text ∨ ∃ quoted, Quotes (.array (first :: rest)) text quoted := by
            rintro text (h | ⟨quoted, h⟩)
            · exact Or.inl h
            · exact Or.inr ⟨quoted, .argument h⟩
          have hfirst : Yields (ArgumentText (first :: rest)) (fun _ => True) (commandWord first) :=
            (yields_extractBulkString hitems List.mem_cons_self).bind fun _ _ => Yields.pure trivial
          rw [parseCommand]
          refine (hfirst.imp hlift fun word hword _ => hword).bind fun word hword => ?_
          cases hlookup : commandTable.lookup word with
          | none => exact Or.inr ⟨word, .name hword hlookup⟩
          | some arm =>
              obtain ⟨before, after, htable, -⟩ := List.lookup_eq_some_iff.mp hlookup
              have hmem : (word, arm) ∈ commandTable := by
                rw [htable]
                exact List.mem_append_right _ List.mem_cons_self
              refine (yields_arm (List.cons_ne_nil first rest) hitems (word, arm) hmem).imp hlift ?_
              intro c _ hc hspecial
              refine ⟨first, rest, word, rfl, hword, ?_⟩
              by_contra hno
              rw [hc hno] at hspecial
              cases hspecial
  | simpleString _ => exact hnot _ (by simp)
  | error _ => exact hnot _ (by simp)
  | integer _ => exact hnot _ (by simp)
  | bulk _ => exact hnot _ (by simp)

end FerricCache
