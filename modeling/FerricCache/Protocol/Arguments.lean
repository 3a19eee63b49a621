import FerricCache.Protocol.Rejections
import FerricCache.Protocol.Frames

/-!
# `FerricCache.Protocol.Arguments` — the commands that take any number of arguments

`MSET`, `HMSET`, `ZADD`, `XADD`, `XREAD`, `EVAL` and `EVALSHA` each take their arguments apart with index arithmetic of
their own. An accepted command holds all of them, in order: `Args` relates the arguments to the byte strings they carry,
and `variadic_arguments` says which arguments each command holds. The ids of `XREAD` are texts, so a byte of an id that
is no UTF-8 is replaced; all other arguments are kept byte for byte.
-/

namespace FerricCache

variable [UnicodeTables]

/-! ## What an accepted command says of its arguments -/

omit [UnicodeTables] in
/-- A step that succeeds, and what came after it. -/
theorem Parse.bind_eq_ok {α β : Type} {p : Parse α} {f : α → Parse β} {b : β} :
    (p >>= f) = .ok b ↔ ∃ a, p = .ok a ∧ f a = .ok b := by
  cases p with
  | error e => exact iff_of_false (fun h => by cases h) (by rintro ⟨a, h, -⟩; cases h)
  | ok a => exact ⟨fun h => ⟨a, rfl, h⟩, by rintro ⟨a', h, hf⟩; cases h; exact hf⟩

omit [UnicodeTables] in
theorem Parse.pure_eq_ok {α : Type} {a b : α} : (pure a : Parse α) = .ok b ↔ a = b :=
  Except.ok.injEq a b ▸ Iff.rfl

/-- The arm that a name selects. -/
theorem parseCommand_word {name : RespValue} {word : Bytes} {arm : List RespValue → Parse Command}
    (hname : commandWord name = .ok word) (harm : commandTable.lookup word = some arm) (rest : List RespValue) :
    parseCommand (.array (name :: rest)) = arm (name :: rest) := by
  rw [parseCommand, hname]
  dsimp only [bind, Except.bind]
  rw [harm]

/-- The byte strings that the arguments carry. -/
def Args : List RespValue → List Bytes → Prop := List.Forall₂ fun v b => extractBulkString v = .ok b

/-- Scores and members, in turn. -/
inductive Scored : List RespValue → List (F64 × Bytes) → Prop
  | nil : Scored [] []
  | cons {score member : RespValue} {rest : List RespValue} {x : F64} {m : Bytes} {members : List (F64 × Bytes)}
      (hscore : extractFloat score = .ok x) (hmember : extractBulkString member = .ok m) (h : Scored rest members) :
      Scored (score :: member :: rest) ((x, m) :: members)

/-- The argument is this keyword, in any case. -/
def Keyword (v : RespValue) (word : Bytes) : Prop :=
  ∃ b, extractBulkString v = .ok b ∧ toAsciiUppercase (lossy b) = word

/-- What may stand between `XREAD` and `STREAMS`. -/
inductive XreadOptions : List RespValue → Prop
  | none : XreadOptions []
  | count {w : RespValue} (hw : Keyword w (utf8 "COUNT")) (n : RespValue) : XreadOptions [w, n]
  | block {w : RespValue} (hw : Keyword w (utf8 "BLOCK")) (ms : RespValue) : XreadOptions [w, ms]
  | both {w w' : RespValue} (hw : Keyword w (utf8 "COUNT")) (n : RespValue) (hw' : Keyword w' (utf8 "BLOCK"))
      (ms : RespValue) : XreadOptions [w, n, w', ms]

/-- Pairs, one after the other. -/
def flatten (pairs : List (Bytes × Bytes)) : List Bytes := pairs.flatMap fun p => [p.1, p.2]

/-! ## The loops -/

theorem args_mapM {l : List RespValue} {bs : List Bytes} (h : l.mapM extractBulkString = .ok bs) : Args l bs := by
  induction l generalizing bs with
  | nil =>
      cases h
      exact .nil
  | cons v l ih =>
      rw [List.mapM_cons] at h
      obtain ⟨b, hb, h⟩ := Parse.bind_eq_ok.mp h
      obtain ⟨bs', hbs, h⟩ := Parse.bind_eq_ok.mp h
      cases h
      exact .cons hb (ih hbs)

/-- Arguments taken in two parts. -/
theorem args_split {l : List RespValue} {n : Nat} {bs bs' : List Bytes} (h : Args (l.take n) bs)
    (h' : Args (l.drop n) bs') : Args l (bs ++ bs') := by
  have happend : Args (l.take n ++ l.drop n) (bs ++ bs') := List.rel_append h h'
  rwa [List.take_append_drop] at happend

/-- An even number of values is taken two at a time, and none is left. -/
theorem args_pairsOf {l : List RespValue} {pairs : List (Bytes × Bytes)} (h : pairsOf l = .ok pairs)
    (heven : l.length % 2 = 0) : Args l (flatten pairs) := by
  induction l using pairsOf.induct generalizing pairs with
  | case1 k v rest ih =>
      rw [pairsOf] at h
      obtain ⟨kb, hk, h⟩ := Parse.bind_eq_ok.mp h
      obtain ⟨vb, hv, h⟩ := Parse.bind_eq_ok.mp h
      obtain ⟨pairs', hrest, h⟩ := Parse.bind_eq_ok.mp h
      cases h
      refine .cons hk (.cons hv (ih hrest ?_))
      simp only [List.length_cons] at heven
      omega
  | case2 l hl =>
      -- nothing, or one value that the parity excludes
      cases l with
      | nil =>
          cases h
          exact .nil
      | cons v l =>
          cases l with
          | nil => simp at heven
          | cons w l => exact absurd rfl (hl v w l)

theorem scored_scoresOf : ∀ (l : List RespValue) {members : List (F64 × Bytes)},
    scoresOf l = .ok members → Scored l members
  | [], _, h => by
      cases h
      exact .nil
  | [score], _, h => by
      rw [scoresOf] at h
      obtain ⟨x, -, h⟩ := Parse.bind_eq_ok.mp h
      cases h
  | score :: member :: rest, _, h => by
      rw [scoresOf] at h
      obtain ⟨x, hx, h⟩ := Parse.bind_eq_ok.mp h
      obtain ⟨m, hm, h⟩ := Parse.bind_eq_ok.mp h
      obtain ⟨members', hrest, h⟩ := Parse.bind_eq_ok.mp h
      cases h
      exact .cons hx hm (scored_scoresOf rest hrest)

/-! ## The arms -/

variable {name : RespValue} {rest : List RespValue} {c : Command}

theorem parseMset_keeps (h : parseMset (name :: rest) = .ok c) :
    ∃ pairs, c = .mset pairs ∧ Args rest (flatten pairs) := by
  unfold parseMset at h
  split at h
  · cases h
  · rename_i hlen
    simp only [Parse.bind_eq_ok, Parse.pure_eq_ok] at h
    obtain ⟨pairs, hpairs, rfl⟩ := h
    refine ⟨pairs, rfl, args_pairsOf hpairs ?_⟩
    simp only [List.length_cons] at hlen
    omega

theorem parseHmset_keeps (h : parseHmset (name :: rest) = .ok c) :
    ∃ key pairs, c = .hmset key pairs ∧ Args rest (key :: flatten pairs) := by
  unfold parseHmset at h
  split at h
  · cases h
  · rename_i hlen
    simp only [Parse.bind_eq_ok, Parse.pure_eq_ok] at h
    obtain ⟨key, hkey, pairs, hpairs, rfl⟩ := h
    cases rest with
    | nil => exact absurd (Or.inl (by simp)) hlen
    | cons k rest =>
        refine ⟨key, pairs, rfl, .cons hkey (args_pairsOf hpairs ?_)⟩
        simp only [List.length_cons] at hlen
        omega

theorem parseZadd_keeps (h : parseZadd (name :: rest) = .ok c) :
    ∃ key members, c = .zadd key members ∧
      ∃ k tail, rest = k :: tail ∧ extractBulkString k = .ok key ∧ Scored tail members := by
  unfold parseZadd at h
  split at h
  · cases h
  · rename_i hlen
    simp only [Parse.bind_eq_ok, Parse.pure_eq_ok] at h
    obtain ⟨key, hkey, members, hmembers, rfl⟩ := h
    cases rest with
    | nil => exact absurd (Or.inl (by simp)) hlen
    | cons k rest => exact ⟨key, members, rfl, k, rest, rfl, hkey, scored_scoresOf rest hmembers⟩

theorem parseXadd_keeps (h : parseXadd (name :: rest) = .ok c) :
    ∃ key id fields, c = .xadd key id fields ∧ Args (rest.drop 2) (flatten fields) := by
  unfold parseXadd at h
  split at h
  · cases h
  · rename_i hlen
    simp only [Parse.bind_eq_ok, Parse.pure_eq_ok] at h
    obtain ⟨key, -, id, -, fields, hfields, rfl⟩ := h
    refine ⟨key, _, fields, rfl, args_pairsOf hfields ?_⟩
    simp only [List.length_cons, List.length_drop] at hlen ⊢
    omega

theorem keywordAt_eq_ok {array : List RespValue} {i : Nat} {word : Bytes} (h : keywordAt array i = .ok word) :
    ∃ v, array[i]? = some v ∧ Keyword v word := by
  unfold keywordAt bulkAt nth at h
  simp only [Parse.bind_eq_ok, Parse.pure_eq_ok] at h
  obtain ⟨b, ⟨v, hv, hb⟩, rfl⟩ := h
  split at hv <;> cases hv
  exact ⟨v, ‹_›, b, hb, rfl⟩

/-- The optional `BLOCK ms`, when the arguments go on at `tail`. -/
theorem xreadBlock_cases (before : List RespValue) {tail : List RespValue} {idx : Nat}
    (h : xreadBlock (before ++ tail) before.length = .ok idx) :
    idx = before.length ∨
      ∃ w ms tail', tail = w :: ms :: tail' ∧ Keyword w (utf8 "BLOCK") ∧ idx = before.length + 2 := by
  unfold xreadBlock at h
  split at h
  · rename_i hlen
    obtain ⟨word, hword, h⟩ := Parse.bind_eq_ok.mp h
    split at h
    · rename_i hblock
      cases h
      obtain ⟨w, hw, hkeyword⟩ := keywordAt_eq_ok hword
      rw [List.length_append] at hlen
      cases tail with
      | nil => simp at hlen
      | cons v tail =>
          cases tail with
          | nil =>
              rw [List.length_singleton] at hlen
              omega
          | cons ms tail' =>
              rw [List.getElem?_append_right (Nat.le_refl _), Nat.sub_self] at hw
              obtain rfl : v = w := by simpa using hw
              exact Or.inr ⟨v, ms, tail', rfl, hblock ▸ hkeyword, rfl⟩
    · cases h
      exact Or.inl rfl
  · cases h
    exact Or.inl rfl

/-- What stands before `STREAMS`. -/
theorem xread_options {count : Option UInt64} {idx idx' : Nat} (hcount : xreadCount (name :: rest) = .ok (count, idx))
    (hblock : xreadBlock (name :: rest) idx = .ok idx') :
    ∃ options tail, rest = options ++ tail ∧ XreadOptions options ∧ idx' = options.length + 1 := by
  have hnone : idx = 1 →
      ∃ options tail, rest = options ++ tail ∧ XreadOptions options ∧ idx' = options.length + 1 := by
    rintro rfl
    rcases xreadBlock_cases [name] hblock with rfl | ⟨w, ms, tail, rfl, hw, rfl⟩
    · exact ⟨[], rest, rfl, .none, rfl⟩
    · exact ⟨[w, ms], tail, rfl, .block hw ms, rfl⟩
  unfold xreadCount at hcount
  split at hcount
  · rename_i hlen
    obtain ⟨word, hword, hcount⟩ := Parse.bind_eq_ok.mp hcount
    split at hcount
    · rename_i hword'
      obtain ⟨v, hv, hkeyword⟩ := keywordAt_eq_ok hword
      simp only [Parse.bind_eq_ok, Parse.pure_eq_ok, Prod.mk.injEq] at hcount
      obtain ⟨n, -, -, rfl⟩ := hcount
      obtain ⟨w, ms, tail, rfl⟩ : ∃ w ms tail, rest = w :: ms :: tail := by
        match rest, hlen with
        | w :: ms :: tail, _ => exact ⟨w, ms, tail, rfl⟩
      obtain rfl : w = v := by simpa using hv
      rw [hword'] at hkeyword
      rcases xreadBlock_cases [name, w, ms] hblock with rfl | ⟨w', ms', tail', rfl, hw', rfl⟩
      · exact ⟨[w, ms], tail, rfl, .count hkeyword ms, rfl⟩
      · exact ⟨[w, ms, w', ms'], tail', rfl, .both hkeyword ms hw' ms', rfl⟩
    · cases hcount
      exact hnone rfl
  · cases hcount
    exact hnone rfl

theorem parseXread_keeps (h : parseXread (name :: rest) = .ok c) :
    ∃ count keys ids, c = .xread count keys ids ∧ keys.length = ids.length ∧ 0 < keys.length ∧
      ∃ options streams tail raw, rest = options ++ streams :: tail ∧ XreadOptions options ∧
        Keyword streams (utf8 "STREAMS") ∧ Args tail (keys ++ raw) ∧ ids = raw.map lossy := by
  unfold parseXread at h
  obtain ⟨⟨count, idx⟩, hcount, h⟩ := Parse.bind_eq_ok.mp h
  obtain ⟨idx', hblock, h⟩ := Parse.bind_eq_ok.mp h
  obtain ⟨options, tail, rfl, hoptions, rfl⟩ := xread_options hcount hblock
  split at h
  · cases h
  · obtain ⟨word, hword, h⟩ := Parse.bind_eq_ok.mp h
    obtain ⟨streams, hstreams, hkeyword⟩ := keywordAt_eq_ok hword
    split at h
    · cases h
    · rename_i hword'
      rw [not_ne_iff.mp hword'] at hkeyword
      cases tail with
      | nil => simp at hstreams
      | cons v tail =>
          have hv : v = streams := by simpa using hstreams
          have hdrop : (name :: (options ++ v :: tail)).drop (options.length + 1 + 1) = tail := by simp
          dsimp only at h
          rw [hdrop] at h
          split at h
          · cases h
          · -- the first half are keys, the second half are ids
            rename_i heven
            simp only [Parse.bind_eq_ok, Parse.pure_eq_ok] at h
            obtain ⟨keys, hkeys, raw, hraw, rfl⟩ := h
            have hargs : Args tail (keys ++ raw) := args_split (args_mapM hkeys) (args_mapM hraw)
            have hlen := (args_mapM hkeys).length_eq
            have hlen' := (args_mapM hraw).length_eq
            rw [List.length_take] at hlen
            rw [List.length_drop] at hlen'
            refine ⟨count, keys, raw.map lossy, rfl, ?_, ?_, options, streams, tail, raw, by rw [hv], hoptions,
              hkeyword, hargs, rfl⟩
            · rw [List.length_map]
              omega
            · omega

/-- A number of the client is an `i64`. -/
theorem extractInteger_lt {v : RespValue} (hv : v.Representable) {n : Int} (h : extractInteger v = .ok n) :
    n < 2 ^ 63 := by
  cases hv with
  | integer hlo hhi =>
      cases h
      exact hhi
  | @bulk b _ =>
      rw [extractInteger] at h
      split at h
      · rename_i hn
        cases h
        exact (Lib.Decimal.parseSigned_bounds (by decide) hn).2
      · cases h
  | simpleString _ | error _ | null | array _ _ => cases h

/-- The command holds the keys, as many as `numkeys` says, and the arguments that follow it. -/
def KeepsScript (mk : Bytes → List Bytes → List Bytes → Command) (rest : List RespValue) (c : Command) : Prop :=
  ∃ script keys argv, c = mk script keys argv ∧ ∃ s numkeys tail n, rest = s :: numkeys :: tail ∧
    extractInteger numkeys = .ok n ∧ keys.length = (max n 0).toNat ∧ Args tail (keys ++ argv)

theorem parseEval_keeps {text : String} {mk : Bytes → List Bytes → List Bytes → Command}
    (hrest : ∀ v ∈ rest, v.Representable) (h : parseEval text mk (name :: rest) = .ok c) : KeepsScript mk rest c := by
  unfold parseEval at h
  split at h
  · cases h
  · rename_i hlen
    obtain ⟨s, numkeys, tail, rfl⟩ : ∃ s numkeys tail, rest = s :: numkeys :: tail := by
      match rest, hlen with
      | [], hlen => exact absurd (by simp) hlen
      | [_], hlen => exact absurd (by simp) hlen
      | s :: numkeys :: tail, _ => exact ⟨s, numkeys, tail, rfl⟩
    obtain ⟨script, -, h⟩ := Parse.bind_eq_ok.mp h
    obtain ⟨n, hn, h⟩ := Parse.bind_eq_ok.mp h
    have hlt : n < 2 ^ 63 := extractInteger_lt (hrest numkeys (by simp)) hn
    have hclamp : (clampUsize n).toNat = (max n 0).toNat := by
      unfold clampUsize
      rw [UInt64.toNat_ofNat', Nat.mod_eq_of_lt]
      omega
    dsimp only at h
    rw [hclamp] at h
    split at h
    · cases h
    · rename_i henough
      simp only [Parse.bind_eq_ok, Parse.pure_eq_ok, bulksFrom] at h
      obtain ⟨keys, hkeys, argv, hargv, rfl⟩ := h
      split at hargv
      · cases hargv
      · have hdrop : (name :: s :: numkeys :: tail).drop (3 + (max n 0).toNat) = tail.drop (max n 0).toNat := by
          rw [Nat.add_comm]
          rfl
        rw [hdrop] at hargv
        have hargs : Args tail (keys ++ argv) := args_split (args_mapM hkeys) (args_mapM hargv)
        refine ⟨lossy script, keys, argv, rfl, s, numkeys, tail, n, rfl, hn, ?_, hargs⟩
        have hkeysLen := (args_mapM hkeys).length_eq
        simp only [List.length_take, List.length_drop, List.length_cons] at hkeysLen henough
        omega

/-! ## Together -/

omit [UnicodeTables] in
theorem RespValue.Representable.utf8Texts {v : RespValue} (hv : v.Representable) : v.Utf8Texts := by
  induction hv with
  | simpleString h => exact .simpleString h
  | error h => exact .error h
  | integer _ _ => exact .integer _
  | null => exact .bulk none
  | bulk _ => exact .bulk (some _)
  | array _ _ ih => exact .array ih

/-- No index is out of range. -/
theorem parseCommand_no_panic {v : RespValue} (hv : v.Representable) : parseCommand v ≠ .error .panic := by
  intro h
  have hyields := parseCommand_yields hv.utf8Texts
  rw [h] at hyields
  exact hyields

/-- **The variadic commands keep every argument, in order**, and no value makes the parser index out of range: the
    pairs of `MSET`, `HMSET`, `ZADD` and `XADD` are all that follows what the command takes first, the keys and the
    arguments of `EVAL` and `EVALSHA` are all that follows `numkeys`, and the keys and ids of `XREAD` are all that
    follows `STREAMS`, whatever options stand before it, with the ids read as text. -/
theorem variadic_arguments {v : RespValue} (hv : v.Representable) :
    parseCommand v ≠ .error .panic ∧
    ∀ name rest word c, v = .array (name :: rest) → commandWord name = .ok word → parseCommand v = .ok c →
      (word = utf8 "MSET" → ∃ pairs, c = .mset pairs ∧ Args rest (flatten pairs)) ∧
      (word = utf8 "HMSET" → ∃ key pairs, c = .hmset key pairs ∧ Args rest (key :: flatten pairs)) ∧
      (word = utf8 "ZADD" → ∃ key members, c = .zadd key members ∧
        ∃ k tail, rest = k :: tail ∧ extractBulkString k = .ok key ∧ Scored tail members) ∧
      (word = utf8 "XADD" → ∃ key id fields, c = .xadd key id fields ∧ Args (rest.drop 2) (flatten fields)) ∧
      (word = utf8 "XREAD" → ∃ count keys ids, c = .xread count keys ids ∧ keys.length = ids.length ∧
        0 < keys.length ∧ ∃ options streams tail raw, rest = options ++ streams :: tail ∧ XreadOptions options ∧
          Keyword streams (utf8 "STREAMS") ∧ Args tail (keys ++ raw) ∧ ids = raw.map lossy) ∧
      (word = utf8 "EVAL" → KeepsScript .luaEval rest c) ∧
      (word = utf8 "EVALSHA" → KeepsScript .luaEvalSha rest c) := by
  refine ⟨parseCommand_no_panic hv, ?_⟩
  rintro name rest word c rfl hword h
  have hrest : ∀ v ∈ rest, v.Representable := by
    cases hv with
    | array _ hitems => exact fun v hmem => hitems v (List.mem_cons_of_mem _ hmem)
  have hselect : ∀ {arm : List RespValue → Parse Command}, commandTable.lookup word = some arm →
      arm (name :: rest) = .ok c := by
    intro arm harm
    rw [← parseCommand_word hword harm]
    exact h
  refine ⟨?_, ?_, ?_, ?_, ?_, ?_, ?_⟩
  · rintro rfl
    exact parseMset_keeps (hselect rfl)
  · rintro rfl
    exact parseHmset_keeps (hselect rfl)
  · rintro rfl
    exact parseZadd_keeps (hselect rfl)
  · rintro rfl
    exact parseXadd_keeps (hselect rfl)
  · rintro rfl
    exact parseXread_keeps (hselect rfl)
  · rintro rfl
    exact parseEval_keeps hrest (hselect rfl)
  · rintro rfl
    exact parseEval_keeps hrest (hselect rfl)

omit [UnicodeTables] in
/-- `MSET a 1 b 2`, and the lower-case `xread` with both options. -/
theorem variadic_arguments_mset :
    let _ := noEscapes
    (∃ pairs, parseCommand (request [utf8 "MSET", utf8 "a", utf8 "1", utf8 "b", utf8 "2"]) = .ok (.mset pairs) ∧
      flatten pairs = [utf8 "a", utf8 "1", utf8 "b", utf8 "2"]) ∧
    ∃ count keys ids, parseCommand (request [utf8 "xread", utf8 "COUNT", utf8 "2", utf8 "BLOCK", utf8 "0",
      utf8 "STREAMS", utf8 "s", utf8 "t", utf8 "0", utf8 "1-1"]) = .ok (.xread count keys ids) ∧
      keys.length = ids.length := by
  intro _
  constructor
  · have hv : (request [utf8 "MSET", utf8 "a", utf8 "1", utf8 "b", utf8 "2"]).Representable :=
      representable_request (by decide) (by decide)
    obtain ⟨pairs, hc, hargs⟩ := ((variadic_arguments hv).2 _ _ _ _ rfl rfl rfl).1 rfl
    cases hc
    exact ⟨_, rfl, rfl⟩
  · have hv : (request [utf8 "xread", utf8 "COUNT", utf8 "2", utf8 "BLOCK", utf8 "0", utf8 "STREAMS", utf8 "s",
        utf8 "t", utf8 "0", utf8 "1-1"]).Representable := representable_request (by decide) (by decide)
    obtain ⟨count, keys, ids, hc, hlen, -⟩ := ((variadic_arguments hv).2 _ _ _ _ rfl rfl rfl).2.2.2.2.1 rfl
    cases hc
    exact ⟨_, _, _, rfl, hlen⟩

omit [UnicodeTables] in
/-- `XREAD STREAMS s` with an id of the one byte `0xFF`: the id the command holds is the replacement character. -/
theorem xread_id_replaced :
    let _ := noEscapes
    parseCommand (request [utf8 "XREAD", utf8 "STREAMS", utf8 "s", [0xFF]])
        = .ok (.xread none [utf8 "s"] [[0xEF, 0xBF, 0xBD]]) ∧
      ¬ Args [.bulkString (some (utf8 "s")), .bulkString (some [0xFF])] ([utf8 "s"] ++ [[0xEF, 0xBF, 0xBD]]) := by
  intro _
  refine ⟨rfl, ?_⟩
  intro h
  cases h with
  | cons _ h =>
      cases h with
      | cons hid _ => cases hid

end FerricCache
