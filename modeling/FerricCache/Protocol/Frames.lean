import FerricCache.Protocol.Parse

/-!
# `FerricCache.Protocol.Frames` — bytes that are one frame

`Complete c v` says that `parse_resp` reads all of `c` and gives `v`. Complete chunks in a row decode one by one
(`decodes_of_complete`), and behind a header of their number they are an array (`complete_array`). An error text is
one frame exactly when it has no line end within (`complete_error_iff`).
-/

namespace FerricCache

open Lib Reply

/-- The bytes are one whole frame. -/
def Complete (c : Bytes) (v : RespValue) : Prop := parseResp c = .ok (v, [])

theorem Complete.reads {c : Bytes} {v : RespValue} (h : Complete c v) : Parser.Reads parseResp c v := by
  obtain ⟨c', hc, hreads, -⟩ := parseResp_incremental c v [] h
  rw [List.append_nil] at hc
  rw [hc]
  exact hreads

theorem Complete.ne_nil {c : Bytes} {v : RespValue} (h : Complete c v) : c ≠ [] := by
  rintro rfl
  cases h

/-- The bytes so far of a frame that is not complete: nothing, or something `parse_resp` refuses. -/
def Incomplete (p : Bytes) : Prop := p = [] ∨ ∃ text, parseResp p = .error (.err text)

theorem Complete.incomplete {c : Bytes} {v : RespValue} (h : Complete c v) {u w : Bytes} (hc : c = u ++ w)
    (hw : w ≠ []) : Incomplete u := by
  obtain ⟨c', hc', -, hshort⟩ := parseResp_incremental c v [] h
  rw [List.append_nil] at hc'
  obtain ⟨e, he, hu⟩ := hshort u w (hc' ▸ hc) hw
  cases e with
  | err text => exact Or.inr ⟨text, hu⟩
  | panic => cases he

/-- Nothing comes after a frame within a frame. -/
theorem Complete.append_eq_nil {c d : Bytes} {v w : RespValue} (hc : Complete c v) (hd : Complete (c ++ d) w) :
    d = [] := by
  cases (hc.reads d).symm.trans hd
  rfl

/-- A frame is read at every depth that covers it. -/
theorem Complete.nested {c : Bytes} {v : RespValue} (h : Complete c v) {depth : Nat} (hdepth : c.length ≤ depth) :
    Parser.Reads (parseNested depth) c v := by
  have hread : parseNested depth c = .ok (v, []) := (parseNested_eq depth c hdepth).trans h
  obtain ⟨c', hc', hreads, -⟩ := incremental_parseNested depth c v [] hread
  rw [List.append_nil] at hc'
  rw [hc']
  exact hreads

/-! ## Frames in a row -/

/-- **Frames in a row decode one by one.** -/
theorem decodes_of_complete {chunks : List Bytes} {vs : List RespValue} (h : List.Forall₂ Complete chunks vs) :
    parseResp.times vs.length chunks.flatten = .ok (vs, []) := by
  have hreads := Parser.Reads.times (h.imp fun _ _ hc => hc.reads) []
  rw [List.append_nil] at hreads
  exact hreads

/-- **Frames behind a header of their number are an array.** -/
theorem complete_array {chunks : List Bytes} {vs : List RespValue}
    (hsize : vs.length * respValueSize ≤ isizeMax) (h : List.Forall₂ Complete chunks vs) :
    Complete (header vs.length ++ chunks.flatten) (.array vs) := by
  have hitems : List.Forall₂ (Parser.Reads (parseNested (header vs.length ++ chunks.flatten).length)) chunks vs := by
    rw [List.forall₂_iff_zip] at h ⊢
    refine ⟨h.1, fun hcv => (h.2 hcv).nested ?_⟩
    have hchunk := (List.sublist_flatten_of_mem (List.of_mem_zip hcv).1).length_le
    rw [List.length_append]
    omega
  have hmarked : Parser.Reads (parseNested ((header vs.length ++ chunks.flatten).length + 1))
      (header vs.length ++ chunks.flatten) (.array vs) := reads_marked (reads_array hsize hitems)
  have hread := hmarked []
  rw [List.append_nil] at hread
  exact (parseNested_eq _ _ (Nat.le_succ _)).symm.trans hread

/-! ## Texts on one line -/

theorem oneLine_of_not_mem {text : Bytes} (h : 13 ∉ text) : OneLine text := by
  intro hin
  exact h (hin.subset List.mem_cons_self)

/-- A line end lies behind a text without a carriage return. -/
theorem oneLine_append {p q : Bytes} (hp : 13 ∉ p) : OneLine (p ++ q) ↔ OneLine q := by
  induction p with
  | nil => rfl
  | cons b p ih =>
      rw [List.mem_cons, not_or] at hp
      unfold OneLine crlf
      rw [List.cons_append, Parser.pair_infix_cons, not_or]
      refine ⟨fun h => (ih hp.2).mp h.2, fun h => ⟨?_, (ih hp.2).mpr h⟩⟩
      rintro ⟨rfl, -⟩
      exact hp.1 rfl

/-- **An error is one frame exactly when its text has no line end within.** -/
theorem complete_error_iff (text : Bytes) : (∃ v, Complete (writeResp (.error text)) v) ↔ OneLine text := by
  have hreads : ∀ line, OneLine line → Complete (writeResp (.error line)) (.error (lossy line)) := by
    intro line hline
    have hmarked : Parser.Reads (parseNested ((line ++ crlf).length + 1)) (45 :: (line ++ crlf))
        (.error (lossy line)) :=
      reads_marked ((reads_readLine hline).map RespValue.error)
    have hread := hmarked []
    rw [List.append_nil] at hread
    exact hread
  refine ⟨?_, fun h => ⟨_, hreads text h⟩⟩
  rintro ⟨v, hv⟩
  by_contra hno
  -- the frame ends at the first line end, and the rest of the text is left over
  cases hcut : Parser.cut 13 10 text with
  | none => exact hno (Parser.cut_eq_none.mp hcut)
  | some lr =>
      obtain ⟨line, rest⟩ := lr
      obtain ⟨rfl, hline⟩ := Parser.cut_eq_some hcut
      have hsplit : writeResp (.error (line ++ 13 :: 10 :: rest)) = writeResp (.error line) ++ (rest ++ crlf) := by
        simp [writeResp, crlf]
      rw [hsplit] at hv
      have hnil := (hreads line hline).append_eq_nil hv
      exact absurd (List.append_eq_nil_iff.mp hnil).2 (by decide)

/-! ## Values of bulk strings -/

theorem complete_writeResp {v : RespValue} (hv : v.Representable) (hone : v.OneLineTexts) :
    Complete (writeResp v) v := by
  have hread := reads_writeResp hv hone (writeResp v).length (Nat.le_refl _) []
  rw [List.append_nil] at hread
  exact hread

/-- Bulk strings and arrays of them. -/
inductive RespValue.Binary : RespValue → Prop
  | bulk (b : Option Bytes) : Binary (.bulkString b)
  | array {items : List RespValue} (h : ∀ v ∈ items, Binary v) : Binary (.array items)

theorem RespValue.Binary.oneLineTexts {v : RespValue} (h : v.Binary) : v.OneLineTexts := by
  induction h with
  | bulk b => exact .bulk b
  | array _ ih => exact .array ih

theorem length_le_writeItems {items : List RespValue} {v : RespValue} (h : v ∈ items) :
    (writeResp v).length ≤ (writeItems items).length := by
  rw [writeItems_eq, List.flatMap_def]
  exact (List.sublist_flatten_of_mem (List.mem_map_of_mem h)).length_le

theorem writeResp_ne_nil (v : RespValue) : writeResp v ≠ [] := by
  cases v with
  | bulkString b =>
      cases b with
      | none => decide
      | some b => exact List.cons_ne_nil _ _
  | _ => simp [writeResp, header]

/-- Every item takes a byte at least. -/
theorem length_items_le (items : List RespValue) : items.length ≤ (writeItems items).length := by
  induction items with
  | nil => exact Nat.le_refl _
  | cons v items ih =>
      have hpos := List.length_pos_iff.mpr (writeResp_ne_nil v)
      rw [writeItems, List.length_append, List.length_cons]
      omega

theorem RespValue.Binary.representable {v : RespValue} (h : v.Binary)
    (hsize : (writeResp v).length * respValueSize ≤ isizeMax) : v.Representable := by
  induction h with
  | bulk b =>
      cases b with
      | none => exact .null
      | some b =>
          refine .bulk ?_
          simp only [writeResp, Reply.bulk, List.length_cons, List.length_append, respValueSize] at hsize
          omega
  | @array items _ ih =>
      have hbody : (writeItems items).length ≤ (writeResp (.array items)).length := by
        rw [writeResp, List.length_append]
        omega
      have hbound := Nat.mul_le_mul_right respValueSize hbody
      refine .array ?_ fun v hv => ih v hv ?_
      · have hitems := Nat.mul_le_mul_right respValueSize (length_items_le items)
        omega
      · have hitem := Nat.mul_le_mul_right respValueSize (length_le_writeItems hv)
        omega

theorem RespValue.Binary.complete {v : RespValue} (h : v.Binary)
    (hsize : (writeResp v).length * respValueSize ≤ isizeMax) : Complete (writeResp v) v :=
  complete_writeResp (h.representable hsize) h.oneLineTexts

/-! ## Requests -/

/-- A command as a client sends it: an array of bulk strings. -/
def request (words : List Bytes) : RespValue := .array (words.map fun w => .bulkString (some w))

theorem representable_request {words : List Bytes} (hcount : words.length * respValueSize ≤ isizeMax)
    (hsize : ∀ w ∈ words, w.length ≤ isizeMax) : (request words).Representable := by
  refine .array (by rwa [List.length_map]) fun v hv => ?_
  obtain ⟨w, hw, rfl⟩ := List.mem_map.mp hv
  exact .bulk (hsize w hw)

theorem oneLineTexts_request (words : List Bytes) : (request words).OneLineTexts := by
  refine .array fun v hv => ?_
  obtain ⟨w, -, rfl⟩ := List.mem_map.mp hv
  exact .bulk (some w)

/-- A request is one frame, whatever bytes its words hold. -/
theorem complete_request {words : List Bytes} (hcount : words.length * respValueSize ≤ isizeMax)
    (hsize : ∀ w ∈ words, w.length ≤ isizeMax) : Complete (writeResp (request words)) (request words) :=
  complete_writeResp (representable_request hcount hsize) (oneLineTexts_request words)

end FerricCache
