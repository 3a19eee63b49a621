import FerricCache.Protocol.Arguments

/-!
# `FerricCache.Protocol.SetOptions` — the options of `SET`

`setOptions` reads the option words one after the other: `EX n` and `PX n` set the lifetime, any other word is skipped
(`setOptions_ok_iff`). It narrows `n` to 32 bits and counts in whole seconds, so the lifetime is the one that was asked
for only when the options are those two, their numbers are positive, and the last fits 32 bits and whole seconds
(`set_options_iff`).
-/

namespace FerricCache

/-- One option of `SET` as the loop reads it. -/
inductive SetOption
  | ex (n : Int)
  | px (n : Int)
  /-- A word that is skipped. -/
  | other

namespace SetOption

/-- An option that the server implements, with a lifetime that can be meant. -/
def Meant : SetOption → Prop
  | ex n | px n => 0 < n
  | other => False

/-- The milliseconds that the option asks for. -/
def millis : SetOption → Int
  | ex n => 1000 * n
  | px n => n
  | other => 0

instance (o : SetOption) : Decidable o.Meant :=
  match o with
  | ex n | px n => inferInstanceAs (Decidable (0 < n))
  | other => .isFalse id

/-- A lifetime that whole seconds in 32 bits can express. -/
def Expressible : SetOption → Prop
  | ex n => n < 2 ^ 32
  | px n => n < 2 ^ 32 ∧ n % 1000 = 0
  | other => False

instance (o : SetOption) : Decidable o.Expressible :=
  match o with
  | ex n => inferInstanceAs (Decidable (n < 2 ^ 32))
  | px n => inferInstanceAs (Decidable (n < 2 ^ 32 ∧ n % 1000 = 0))
  | other => .isFalse id

/-- What the loop has for a lifetime after the option. -/
def apply (ttlSecs : Option UInt32) : SetOption → Option UInt32
  | ex n => some (asU32 n)
  | px n => some (asU32 n / 1000)
  | other => ttlSecs

end SetOption

variable [UnicodeTables]

/-- The arguments after the value, read as options. -/
inductive OptionWords : List RespValue → List SetOption → Prop
  | nil : OptionWords [] []
  | ex {w v : RespValue} {rest : List RespValue} {n : Int} {os : List SetOption} (hw : Keyword w (utf8 "EX"))
      (hn : extractInteger v = .ok n) (h : OptionWords rest os) : OptionWords (w :: v :: rest) (.ex n :: os)
  | px {w v : RespValue} {rest : List RespValue} {n : Int} {os : List SetOption} (hw : Keyword w (utf8 "PX"))
      (hn : extractInteger v = .ok n) (h : OptionWords rest os) : OptionWords (w :: v :: rest) (.px n :: os)
  | other {w : RespValue} {rest : List RespValue} {os : List SetOption} {word : Bytes} (hw : Keyword w word)
      (hex : word ≠ utf8 "EX") (hpx : word ≠ utf8 "PX") (h : OptionWords rest os) :
      OptionWords (w :: rest) (.other :: os)

theorem Keyword.unique {w : RespValue} {word word' : Bytes} (h : Keyword w word) (h' : Keyword w word') :
    word = word' := by
  obtain ⟨b, hb, rfl⟩ := h
  obtain ⟨b', hb', rfl⟩ := h'
  cases hb.symm.trans hb'
  rfl

/-- The options are read in one way. -/
theorem OptionWords.unique {opts : List RespValue} {os os' : List SetOption} (h : OptionWords opts os)
    (h' : OptionWords opts os') : os = os' := by
  induction h generalizing os' with
  | nil =>
      cases h'
      rfl
  | ex hw hn _ ih =>
      cases h' with
      | ex _ hn' h' =>
          cases hn.symm.trans hn'
          rw [ih h']
      | px hw' _ _ => exact absurd (hw.unique hw') (by decide)
      | other hw' hex _ _ => exact absurd (hw'.unique hw) hex
  | px hw hn _ ih =>
      cases h' with
      | ex hw' _ _ => exact absurd (hw.unique hw') (by decide)
      | px _ hn' h' =>
          cases hn.symm.trans hn'
          rw [ih h']
      | other hw' _ hpx _ => exact absurd (hw'.unique hw) hpx
  | other hw hex hpx _ ih =>
      cases h' with
      | ex hw' _ _ => exact absurd (hw.unique hw') hex
      | px hw' _ _ => exact absurd (hw.unique hw') hpx
      | other _ _ _ h' => rw [ih h']

/-! ## The loop -/

/-- **The option loop** accepts what reads as options, and folds them. -/
theorem setOptions_of_words {opts : List RespValue} {os : List SetOption} (h : OptionWords opts os)
    (ttlSecs : Option UInt32) : setOptions opts ttlSecs = .ok (os.foldl SetOption.apply ttlSecs) := by
  induction h generalizing ttlSecs with
  | nil => rfl
  | @ex w v rest n os hw hn _ ih =>
      obtain ⟨b, hb, hword⟩ := hw
      rw [setOptions, hb]
      show (if toAsciiUppercase (lossy b) = utf8 "EX" then _ else _) = _
      rw [if_pos hword]
      show (extractInteger v >>= fun n => setOptions rest (some (asU32 n))) = _
      rw [hn]
      exact ih _
  | @px w v rest n os hw hn _ ih =>
      obtain ⟨b, hb, hword⟩ := hw
      rw [setOptions, hb]
      show (if toAsciiUppercase (lossy b) = utf8 "EX" then _ else
        if toAsciiUppercase (lossy b) = utf8 "PX" then _ else _) = _
      rw [hword, if_neg (by decide), if_pos rfl]
      show (extractInteger v >>= fun n => setOptions rest (some (asU32 n / 1000))) = _
      rw [hn]
      exact ih _
  | @other w rest os word hw hex hpx _ ih =>
      obtain ⟨b, hb, hword⟩ := hw
      rw [setOptions.eq_def]
      dsimp only
      rw [hb]
      show (if toAsciiUppercase (lossy b) = utf8 "EX" then _ else
        if toAsciiUppercase (lossy b) = utf8 "PX" then _ else _) = _
      rw [hword, if_neg hex, if_neg hpx]
      exact ih _

/-- It accepts nothing else. -/
theorem words_of_setOptions : ∀ (opts : List RespValue) {ttlSecs r : Option UInt32},
    setOptions opts ttlSecs = .ok r → ∃ os, OptionWords opts os
  | [], _, _, _ => ⟨[], .nil⟩
  | w :: opts, ttlSecs, r, h => by
      rw [setOptions.eq_def] at h
      obtain ⟨b, hb, h⟩ := Parse.bind_eq_ok.mp h
      dsimp only at h
      split at h
      · rename_i hex
        cases opts with
        | nil => cases h
        | cons v rest =>
            obtain ⟨n, hn, h⟩ := Parse.bind_eq_ok.mp h
            obtain ⟨os, hos⟩ := words_of_setOptions rest h
            exact ⟨_, .ex ⟨b, hb, hex⟩ hn hos⟩
      · rename_i hex
        split at h
        · rename_i hpx
          cases opts with
          | nil => cases h
          | cons v rest =>
              obtain ⟨n, hn, h⟩ := Parse.bind_eq_ok.mp h
              obtain ⟨os, hos⟩ := words_of_setOptions rest h
              exact ⟨_, .px ⟨b, hb, hpx⟩ hn hos⟩
        · rename_i hpx
          obtain ⟨os, hos⟩ := words_of_setOptions opts h
          exact ⟨_, .other ⟨b, hb, rfl⟩ hex hpx hos⟩

/-! ## The lifetime -/

/-- The milliseconds that the options ask for; the last one decides. -/
def lifetime (os : List SetOption) : Option Int := os.getLast?.map SetOption.millis

/-- The milliseconds that a command holds. -/
def held (ttlSecs : Option UInt32) : Option Int := ttlSecs.map fun s => 1000 * (s.toNat : Int)

omit [UnicodeTables] in
/-- The last option decides in the loop, too. -/
theorem foldl_apply {os : List SetOption} (h : ∀ o ∈ os, o.Meant) :
    os.foldl SetOption.apply none = os.getLast?.bind (SetOption.apply none) := by
  induction os using List.reverseRecOn with
  | nil => rfl
  | append_singleton os o =>
      rw [List.foldl_append, List.getLast?_concat]
      cases o with
      | ex n => rfl
      | px n => rfl
      | other => exact (h .other (by simp)).elim

omit [UnicodeTables] in
theorem toNat_asU32 (n : Int) : ((asU32 n).toNat : Int) = n % 2 ^ 32 := by
  unfold asU32
  rw [UInt32.toNat_ofNat', Nat.mod_eq_of_lt (by omega)]
  omega

omit [UnicodeTables] in
/-- What is held of an option is what it asks for exactly when seconds in 32 bits can express it. -/
theorem held_apply_iff {o : SetOption} (h : o.Meant) :
    held (o.apply none) = some o.millis ↔ o.Expressible := by
  cases o with
  | ex n =>
      have hn := toNat_asU32 n
      show some (1000 * ((asU32 n).toNat : Int)) = some (1000 * n) ↔ n < 2 ^ 32
      rw [Option.some_inj, hn]
      have hpos : 0 < n := h
      omega
  | px n =>
      have hn := toNat_asU32 n
      show some (1000 * ((asU32 n / 1000).toNat : Int)) = some n ↔ n < 2 ^ 32 ∧ n % 1000 = 0
      rw [Option.some_inj, UInt32.toNat_div]
      have hpos : 0 < n := h
      show 1000 * (((asU32 n).toNat / 1000 : Nat) : Int) = n ↔ _
      omega
  | other => exact h.elim

/-! ## The command -/

/-- `SET` with these options means what it says: it is accepted exactly when they are a sequence of `EX n` and `PX n`
    with positive numbers, and it holds the lifetime that the last of them asks for. -/
def SetMeans (name : RespValue) (k v : RespValue) (key value : Bytes) (opts : List RespValue) : Prop :=
  ((∃ c, parseCommand (.array (name :: k :: v :: opts)) = .ok c) ↔
      ∃ os, OptionWords opts os ∧ ∀ o ∈ os, o.Meant) ∧
    ∀ os, OptionWords opts os → (∀ o ∈ os, o.Meant) →
      ∃ ttlSecs, parseCommand (.array (name :: k :: v :: opts)) = .ok (.set key value ttlSecs) ∧
        held ttlSecs = lifetime os

variable {name k v : RespValue} {key value : Bytes}

/-- `SET` takes the options as the loop does. -/
theorem parseCommand_set (hname : commandWord name = .ok (utf8 "SET")) (hkey : extractBulkString k = .ok key)
    (hvalue : extractBulkString v = .ok value) (opts : List RespValue) :
    parseCommand (.array (name :: k :: v :: opts))
      = (setOptions opts none >>= fun ttlSecs => pure (Command.set key value ttlSecs)) := by
  rw [parseCommand_word hname rfl]
  show (extractBulkString k >>= fun key => extractBulkString v >>= fun value =>
    setOptions opts none >>= fun ttlSecs => pure (Command.set key value ttlSecs)) = _
  rw [hkey, hvalue]
  rfl

/-- **`SET` options mean what they say** exactly when every word is one of the two options, every number is positive,
    and the last lifetime is whole seconds in 32 bits. (Options that the loop does not accept at all are refused, as
    they should be.) -/
theorem set_options_iff (hname : commandWord name = .ok (utf8 "SET")) (hkey : extractBulkString k = .ok key)
    (hvalue : extractBulkString v = .ok value) (opts : List RespValue) :
    SetMeans name k v key value opts ↔
      ∀ os, OptionWords opts os → (∀ o ∈ os, o.Meant) ∧ ∀ o, os.getLast? = some o → o.Expressible := by
  have hparse := parseCommand_set hname hkey hvalue opts
  have haccepts : ∀ {os}, OptionWords opts os →
      parseCommand (.array (name :: k :: v :: opts)) = .ok (.set key value (os.foldl SetOption.apply none)) := by
    intro os hos
    rw [hparse, setOptions_of_words hos]
    rfl
  have hlifetime : ∀ {os : List SetOption}, (∀ o ∈ os, o.Meant) →
      (held (os.foldl SetOption.apply none) = lifetime os ↔ ∀ o, os.getLast? = some o → o.Expressible) := by
    intro os hmeant
    rw [foldl_apply hmeant, lifetime]
    cases hlast : os.getLast? with
    | none => exact iff_of_true rfl (by simp)
    | some o =>
        refine (held_apply_iff (hmeant o (List.mem_of_getLast? hlast))).trans ?_
        simp
  constructor
  · rintro ⟨haccepted, hheld⟩ os hos
    obtain ⟨os', hos', hmeant⟩ := haccepted.mp ⟨_, haccepts hos⟩
    cases hos.unique hos'
    obtain ⟨ttlSecs, hset, hsame⟩ := hheld os hos hmeant
    cases (haccepts hos).symm.trans hset
    exact ⟨hmeant, (hlifetime hmeant).mp hsame⟩
  · intro h
    refine ⟨⟨?_, ?_⟩, ?_⟩
    · rintro ⟨c, hc⟩
      rw [hparse] at hc
      obtain ⟨ttlSecs, hopts, -⟩ := Parse.bind_eq_ok.mp hc
      obtain ⟨os, hos⟩ := words_of_setOptions opts hopts
      exact ⟨os, hos, (h os hos).1⟩
    · rintro ⟨os, hos, -⟩
      exact ⟨_, haccepts hos⟩
    · intro os hos hmeant
      exact ⟨_, haccepts hos, (hlifetime hmeant).mpr (h os hos).2⟩

omit [UnicodeTables] in
/-- `SET k v EX 60 px 2000`: accepted, for two seconds. -/
theorem set_options_iff_px :
    let _ := noEscapes
    let bulk := fun (text : String) => RespValue.bulkString (some (utf8 text))
    SetMeans (bulk "set") (bulk "k") (bulk "v") (utf8 "k") (utf8 "v")
      [bulk "EX", bulk "60", bulk "px", bulk "2000"] := by
  intro _ bulk
  refine (set_options_iff rfl rfl rfl _).mpr fun os hos => ?_
  have hwords : OptionWords [bulk "EX", bulk "60", bulk "px", bulk "2000"] [.ex 60, .px 2000] :=
    .ex ⟨_, rfl, rfl⟩ rfl (.px ⟨_, rfl, rfl⟩ rfl .nil)
  cases hos.unique hwords
  constructor
  · intro o ho
    fin_cases ho <;> decide
  · rintro o ⟨⟩
    decide

omit [UnicodeTables] in
/-- `SET k v NX` is accepted with `NX` dropped, `SET k v PX 500` and `SET k v EX 4294967296` with a lifetime of 0, and
    `SET k v EX -1` with one of 136 years. -/
theorem set_options_dropped :
    let _ := noEscapes
    let bulk := fun (text : String) => RespValue.bulkString (some (utf8 text))
    let means := SetMeans (bulk "SET") (bulk "k") (bulk "v") (utf8 "k") (utf8 "v")
    (parseCommand (request [utf8 "SET", utf8 "k", utf8 "v", utf8 "NX"]) = .ok (.set (utf8 "k") (utf8 "v") none) ∧
        ¬ means [bulk "NX"]) ∧
      (parseCommand (request [utf8 "SET", utf8 "k", utf8 "v", utf8 "PX", utf8 "500"])
          = .ok (.set (utf8 "k") (utf8 "v") (some 0)) ∧ ¬ means [bulk "PX", bulk "500"]) ∧
      (parseCommand (request [utf8 "SET", utf8 "k", utf8 "v", utf8 "EX", utf8 "4294967296"])
          = .ok (.set (utf8 "k") (utf8 "v") (some 0)) ∧ ¬ means [bulk "EX", bulk "4294967296"]) ∧
      (parseCommand (request [utf8 "SET", utf8 "k", utf8 "v", utf8 "EX", utf8 "-1"])
          = .ok (.set (utf8 "k") (utf8 "v") (some 4294967295)) ∧ ¬ means [bulk "EX", bulk "-1"]) := by
  intro _ bulk means
  have hiff : ∀ opts, means opts ↔
      ∀ os, OptionWords opts os → (∀ o ∈ os, o.Meant) ∧ ∀ o, os.getLast? = some o → o.Expressible :=
    fun opts => set_options_iff rfl rfl rfl opts
  refine ⟨⟨rfl, fun h => ?_⟩, ⟨rfl, fun h => ?_⟩, ⟨rfl, fun h => ?_⟩, ⟨rfl, fun h => ?_⟩⟩
  · have hwords : OptionWords [bulk "NX"] [.other] := .other ⟨_, rfl, rfl⟩ (by decide) (by decide) .nil
    exact ((hiff _).mp h _ hwords).1 _ List.mem_cons_self
  · have hwords : OptionWords [bulk "PX", bulk "500"] [.px 500] := .px ⟨_, rfl, rfl⟩ rfl .nil
    exact absurd (((hiff _).mp h _ hwords).2 _ rfl) (by decide)
  · have hwords : OptionWords [bulk "EX", bulk "4294967296"] [.ex 4294967296] := .ex ⟨_, rfl, rfl⟩ rfl .nil
    exact absurd (((hiff _).mp h _ hwords).2 _ rfl) (by decide)
  · have hwords : OptionWords [bulk "EX", bulk "-1"] [.ex (-1)] := .ex ⟨_, rfl, rfl⟩ rfl .nil
    exact absurd (((hiff _).mp h _ hwords).1 _ List.mem_cons_self) (by decide)

end FerricCache
