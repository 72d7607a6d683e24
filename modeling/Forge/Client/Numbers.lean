import Forge.Client.Submit

/-!
# Integers on the command line and in a record

`workers`, `priority`, `nice` and `cpu` reach their `int` on two ways: through
`need_i` of `cmd_submit` (main.cpp:195-208) and through `assign_meta_field`
(store.cpp:345-368). Both parse 64 bits and narrow the result without a check.

* `parsers_exact`: `parse_u64` accepts its range and nothing else; `parse_i64` also
  accepts the magnitudes from `2^63` up to `2^64`, and `parser_wraps` shows two.
* `decimal_of_parseI64`: what the parser returns is the denoted integer up to a
  multiple of `2^64`.
* `integers_exact`: the stored `int` is the denoted integer exactly when that
  integer fits in an `int`.
* `integer_wraps`: two texts that are accepted and stored as another number.
-/

namespace Forge

open KeyValue

/-! ## What a text denotes -/

/-- The number that a text of digits denotes. -/
def magnitude (text : List Char) : Option ℕ :=
  if text = [] then none
  else if text.all Char.isDigit then some (Nat.ofDigitChars 10 text 0)
  else none

/-- The integer that a text denotes: digits, with a minus sign or without. -/
def decimal : List Char → Option ℤ
  | '-' :: text => (magnitude text).map fun n : ℕ => -(n : ℤ)
  | text => (magnitude text).map fun n : ℕ => (n : ℤ)

/-- The text denotes an integer that fits in an `int`. -/
def FitsInt (text : String) : Prop :=
  ∃ n, decimal text.toList = some n ∧ -2 ^ 31 ≤ n ∧ n < 2 ^ 31

theorem magnitude_of_parseU64 {text : List Char} {n : ℕ} (h : parseU64 text = some n) :
    magnitude text = some n := by
  obtain ⟨hnil, hdigits, hvalue, -⟩ := (parseU64_eq_some_iff text n).mp h
  unfold magnitude
  rw [if_neg hnil, if_pos (List.all_eq_true.mpr hdigits), hvalue]

/-- Narrowing keeps the residue modulo `2^32`, so it does not see whether 64 bits
    were exceeded before. -/
theorem toInt_toInt64 (n : ℤ) : toInt (toInt64 n) = toInt n := by
  unfold toInt toInt64
  exact Int.bmod_bmod_of_dvd (by norm_num)

/-- The parser and the denoted integer agree after the narrowing. -/
theorem decimal_of_parseI64 {text : List Char} {v : ℤ} (h : parseI64 text = some v) :
    ∃ n, decimal text = some n ∧ toInt v = toInt n := by
  unfold parseI64 at h
  split at h
  · cases h
  · next text =>
    obtain ⟨mag, hmag, rfl⟩ := Option.map_eq_some_iff.mp h
    refine ⟨-mag, ?_, ?_⟩
    · show (magnitude text).map _ = _
      rw [magnitude_of_parseU64 hmag, Option.map_some]
    · rw [toInt64_neg_toInt64, toInt_toInt64]
  · next text hnil hminus =>
    obtain ⟨mag, hmag, rfl⟩ := Option.map_eq_some_iff.mp h
    refine ⟨mag, ?_, toInt_toInt64 mag⟩
    unfold decimal
    split
    · exact absurd rfl (hminus _)
    · rw [magnitude_of_parseU64 hmag, Option.map_some]

/-- Without a sign, `parse_i64` reads what `parse_u64` reads. -/
theorem parseI64_of_parseU64 {text : List Char} {n : ℕ} (h : parseU64 text = some n) :
    parseI64 text = some (toInt64 n) := by
  obtain ⟨hnil, hdigits, -, -⟩ := (parseU64_eq_some_iff text n).mp h
  rw [parseI64_of_digits hnil hdigits, h, Option.map_some]

/-! ## The ranges of the parsers -/

/-- What a call that parses a number leaves behind: its result and its output
    argument. -/
def report {α : Type} (value : Option α) (out : α) : Bool × α :=
  match value with
  | some v => (true, v)
  | none => (false, out)

/-- `parse_u64(text, out)` (store.cpp:70-87), with its output argument. -/
def parseU64Into (text : List Char) (out : ℕ) : Bool × ℕ := report (parseU64 text) out

/-- `-v` of an `int64_t`: the negation of the least value overflows. -/
def negI64 (v : ℤ) : Option ℤ := if v = -2 ^ 63 then none else some (-v)

/-- `parse_i64(text, out)` (store.cpp:89-108), with its output argument; `none` is
    a signed overflow, for which C++ promises nothing. -/
def parseI64Into (text : List Char) (out : ℤ) : Option (Bool × ℤ) :=
  match text with
  | [] => some (false, out)
  | '-' :: text =>
    match parseU64Into text 0 with
    | (false, _) => some (false, out)
    | (true, mag) => (negI64 (toInt64 mag)).map fun v => (true, v)
  | text =>
    match parseU64Into text 0 with
    | (false, _) => some (false, out)
    | (true, mag) => some (true, toInt64 mag)

/-- The number fits in a `uint64_t`. -/
abbrev FitsU64 (n : ℕ) : Prop := n < 2 ^ 64

/-- The integer fits in an `int64_t`. -/
abbrev FitsI64 (n : ℤ) : Prop := -2 ^ 63 ≤ n ∧ n < 2 ^ 63

/-- `parse_u64` reads the numbers below `2^64` and nothing else. -/
def U64Exact (text : List Char) : Prop :=
  ∀ out, parseU64Into text out = report ((magnitude text).filter FitsU64) out

/-- `parse_i64` reads the integers of 64 bits and nothing else, and never
    overflows. -/
def I64Exact (text : List Char) : Prop :=
  ∀ out, parseI64Into text out =
    some (report ((decimal text).filter FitsI64) out)

/-- The text after its sign. -/
def unsigned : List Char → List Char
  | '-' :: text => text
  | text => text

theorem parseU64_eq_filter (text : List Char) :
    parseU64 text = (magnitude text).filter FitsU64 := by
  have hle : ∀ v : ℕ, FitsU64 v ↔ v ≤ uint64Max := fun v => by
    unfold uint64Max
    omega
  apply Option.ext
  intro v
  rw [parseU64_eq_some_iff, Option.filter_eq_some_iff]
  unfold magnitude
  split_ifs with hnil hdigits
  · simp [hnil]
  · rw [List.all_eq_true] at hdigits
    simp only [Option.some.injEq, decide_eq_true_eq, hle]
    constructor
    · rintro ⟨-, -, rfl, hv⟩
      exact ⟨rfl, hv⟩
    · rintro ⟨rfl, hv⟩
      exact ⟨hnil, hdigits, rfl, hv⟩
  · rw [List.all_eq_true] at hdigits
    simp [hdigits]

theorem u64Exact (text : List Char) : U64Exact text := fun out => by
  rw [parseU64Into, parseU64_eq_filter]

theorem toInt64_of_top {mag : ℕ} (hlow : 2 ^ 63 ≤ mag) (hhigh : mag < 2 ^ 64) :
    toInt64 mag = mag - 2 ^ 64 := by
  unfold toInt64
  rw [Int.bmod_def]
  split_ifs <;> omega

theorem parseI64Into_minus (text : List Char) (out : ℤ) :
    parseI64Into ('-' :: text) out =
      match parseU64 text with
      | none => some (false, out)
      | some mag => (negI64 (toInt64 mag)).map fun v => (true, v) := by
  show (match parseU64Into text 0 with
    | (false, _) => some (false, out)
    | (true, mag) => (negI64 (toInt64 mag)).map fun v => (true, v)) = _
  unfold parseU64Into
  cases parseU64 text <;> rfl

theorem parseI64Into_plain {text : List Char} (hplain : ∀ rest, text ≠ '-' :: rest) (out : ℤ) :
    parseI64Into text out =
      some (report ((parseU64 text).map fun mag : ℕ => toInt64 mag) out) := by
  unfold parseI64Into
  split
  · rfl
  · next rest => exact absurd rfl (hplain rest)
  · unfold parseU64Into
    cases parseU64 text <;> rfl

theorem filter_of {α : Type} {p : α → Prop} [DecidablePred p] {v : α} (h : p v) :
    (some v).filter p = some v :=
  Option.filter_some_pos (decide_eq_true h)

theorem filter_of_not {α : Type} {p : α → Prop} [DecidablePred p] {v : α} (h : ¬p v) :
    (some v).filter p = none :=
  Option.filter_some_neg (by simpa using h)

/-- Behind a sign: the magnitudes from `2^63` on overflow or change the sign. -/
theorem i64Exact_minus (text : List Char) :
    I64Exact ('-' :: text) ↔ ∀ mag ∈ magnitude text, mag < 2 ^ 63 ∨ 2 ^ 64 ≤ mag := by
  unfold I64Exact
  simp only [parseI64Into_minus, parseU64_eq_filter, decimal]
  cases magnitude text with
  | none => simp [report]
  | some mag =>
    simp only [Option.mem_def, Option.some.injEq, forall_eq', Option.map_some]
    by_cases htop : FitsU64 mag
    · rw [filter_of htop]
      by_cases hlow : mag < 2 ^ 63
      · have hvalue : negI64 (toInt64 mag) = some (-(mag : ℤ)) := by
          rw [toInt64_of_range (by omega)]
          exact if_neg (by omega)
        have hfits : FitsI64 (-(mag : ℤ)) := by omega
        simp only [hvalue, filter_of hfits, report, Option.map_some, hlow, true_or, implies_true]
      · have hout : ¬FitsI64 (-(mag : ℤ)) ∨ mag = 2 ^ 63 := by omega
        refine iff_of_false (fun hexact => ?_) (by omega)
        have h : (negI64 (toInt64 mag)).map (fun v => (true, v)) = _ := hexact 0
        rw [toInt64_of_top (by omega) htop] at h
        rcases hout with hout | rfl
        · -- a positive number is reported where none is in range
          rw [filter_of_not hout] at h
          rw [negI64, if_neg (by omega)] at h
          simp [report] at h
        · cases h
    · have hout : ¬FitsI64 (-(mag : ℤ)) := by omega
      rw [filter_of_not htop, filter_of_not hout]
      simp only [report, implies_true, true_iff]
      omega

/-- Without a sign: they become negative. -/
theorem i64Exact_plain {text : List Char} (hplain : ∀ rest, text ≠ '-' :: rest) :
    I64Exact text ↔ ∀ mag ∈ magnitude text, mag < 2 ^ 63 ∨ 2 ^ 64 ≤ mag := by
  have hdecimal : decimal text = (magnitude text).map fun n : ℕ => (n : ℤ) := by
    unfold decimal
    split
    · next rest => exact absurd rfl (hplain rest)
    · rfl
  unfold I64Exact
  simp only [parseI64Into_plain hplain, parseU64_eq_filter, hdecimal]
  cases magnitude text with
  | none => simp [report]
  | some mag =>
    simp only [Option.mem_def, Option.some.injEq, forall_eq', Option.map_some]
    by_cases htop : FitsU64 mag
    · rw [filter_of htop]
      by_cases hlow : mag < 2 ^ 63
      · have hfits : FitsI64 mag := by omega
        simp only [toInt64_of_range hfits, filter_of hfits, Option.map_some, hlow, true_or,
          implies_true]
      · have hout : ¬FitsI64 mag := by omega
        refine iff_of_false (fun hexact => ?_) (by omega)
        have h := hexact 0
        rw [filter_of_not hout] at h
        cases h
    · have hout : ¬FitsI64 mag := by omega
      rw [filter_of_not htop, filter_of_not hout]
      simp only [report, Option.map_none, implies_true, true_iff]
      omega

/-- **The number parsers accept exactly their ranges**: `parse_u64` always,
    `parse_i64` unless the digits denote a number from `2^63` up to `2^64`. -/
theorem parsers_exact (text : List Char) :
    U64Exact text ∧
      (I64Exact text ↔ ∀ mag ∈ magnitude (unsigned text), mag < 2 ^ 63 ∨ 2 ^ 64 ≤ mag) := by
  refine ⟨u64Exact text, ?_⟩
  unfold unsigned
  split
  · next rest => exact i64Exact_minus rest
  · next hplain => exact i64Exact_plain fun rest h => hplain rest h

/-- `2^63` is reported as `-2^63`, and the negation of the text `-2^63` overflows. -/
theorem parser_wraps :
    parseI64Into "9223372036854775808".toList 0 = some (true, -9223372036854775808) ∧
      decimal "9223372036854775808".toList = some 9223372036854775808 ∧
      parseI64Into "-9223372036854775808".toList 0 = none ∧
      decimal "-9223372036854775808".toList = some (-9223372036854775808) ∧
      ¬I64Exact "9223372036854775808".toList ∧ ¬I64Exact "-9223372036854775808".toList := by
  have hwrap : parseI64Into "9223372036854775808".toList 0 = some (true, -9223372036854775808) := by
    decide +kernel
  have hoverflow : parseI64Into "-9223372036854775808".toList 0 = none := by decide +kernel
  refine ⟨hwrap, by decide +kernel, hoverflow, by decide +kernel, fun hexact => ?_, fun hexact => ?_⟩
  · have h := hexact 0
    rw [hwrap] at h
    revert h
    decide +kernel
  · have h := hexact 0
    rw [hoverflow] at h
    cases h

/-- Away from the overflow, this is `parse_i64` as the rest of the model uses it. -/
theorem parseI64Into_eq (text : List Char) (out : ℤ) :
    parseI64Into text out = none ∨ parseI64Into text out = some (report (parseI64 text) out) := by
  cases text with
  | nil => exact .inr rfl
  | cons c text =>
    by_cases hminus : c = '-'
    · subst hminus
      rw [parseI64Into_minus]
      show _ ∨ _ = some (report ((parseU64 text).map _) out)
      cases parseU64 text with
      | none => exact .inr rfl
      | some mag =>
        show (negI64 (toInt64 mag)).map _ = _ ∨ (negI64 (toInt64 mag)).map _ = _
        unfold negI64
        split_ifs with hleast
        · exact .inl rfl
        · -- the negation is in range, so wrapping does not change it
          have hrange : -2 ^ 63 ≤ -toInt64 mag ∧ -toInt64 mag < 2 ^ 63 := by
            have h := toInt64_range mag
            omega
          right
          rw [Option.map_some, Option.map_some, toInt64_of_range hrange, report]
    · have hplain : ∀ rest, c :: text ≠ '-' :: rest := fun rest h => hminus (List.cons.inj h).1
      have hread : parseI64 (c :: text) = (parseU64 (c :: text)).map fun mag : ℕ => toInt64 mag := by
        unfold parseI64
        split
        · next h => cases h
        · next rest h => exact absurd h (hplain rest)
        · rfl
      right
      rw [parseI64Into_plain hplain, hread]

/-- The `int` is what the text was narrowed to. -/
def Narrowed (text : String) (n : ℤ) : Prop := ∃ v, parseI64 text.toList = some v ∧ n = toInt v

theorem Narrowed.of_parseU64 {text : String} {n : ℕ} (h : parseU64 text.toList = some n) :
    Narrowed text (toInt n) :=
  ⟨toInt64 n, parseI64_of_parseU64 h, (toInt_toInt64 n).symm⟩

theorem Narrowed.exact_iff {text : String} {n : ℤ} (h : Narrowed text n) :
    decimal text.toList = some n ↔ FitsInt text := by
  obtain ⟨v, hparse, rfl⟩ := h
  obtain ⟨d, hdecimal, hnarrow⟩ := decimal_of_parseI64 hparse
  rw [hnarrow]
  constructor
  · intro hexact
    exact ⟨toInt d, hexact, toInt_range d⟩
  · rintro ⟨d', hd', hrange⟩
    rw [hdecimal] at hd'
    cases hd'
    rw [hdecimal, toInt_of_range hrange]

/-! ## The options -/

/-- The options and fields that hold an `int`. -/
inductive IntOption where
  | workers
  | priority
  | nice
  | cpu
  deriving DecidableEq

namespace IntOption

/-- The flag of `cmd_submit`. -/
def flag : IntOption → String
  | workers => "--workers"
  | priority => "--priority"
  | nice => "--nice"
  | cpu => "--cpu"

/-- The key in a record. -/
def key : IntOption → String
  | workers => "workers"
  | priority => "priority"
  | nice => "nice"
  | cpu => "cpu"

/-- The `int` of the record. -/
def stored (m : Meta) : IntOption → ℤ
  | workers => m.workers
  | priority => m.priority
  | nice => m.nice
  | cpu => m.cpu

/-- The arguments in which the flag is looked up (main.cpp:183-222): those before
    it have been taken. -/
def remaining (args : List String) (o : IntOption) : List String :=
  let args := (flagOr "--workspace" "" args).2
  let args := (flagOr "--operation" "" args).2
  let args := (flagOr "--input" "" args).2
  let args := (flagOr "--exec" "" args).2
  let args := (flagOr "--io" "mmap" args).2
  let workers := (hasFlag "--wait" args).2
  let priority := (flagOr "--workers" "" workers).2
  let nice := (flagOr "--priority" "" priority).2
  let cpu := (flagOr "--nice" "" nice).2
  match o with
  | .workers => workers
  | .priority => priority
  | .nice => nice
  | .cpu => cpu

/-- The text that the command line gives to the flag. -/
def given (args : List String) (o : IntOption) : Option String :=
  (takeFlag o.flag (o.remaining args)).map (·.1)

end IntOption

/-- What `need_i` stores for a text that is given: the fallback for the empty text,
    otherwise the narrowed value. -/
theorem needI_given {name text : String} {fallback n : ℤ} {args rest : List String}
    (h : needI name fallback args = .ok (n, rest))
    (hgiven : (takeFlag name args).map (·.1) = some text) : text = "" ∨ Narrowed text n := by
  obtain ⟨⟨text', args'⟩, htake, rfl⟩ := Option.map_eq_some_iff.mp hgiven
  have hflag : flagOr name "" args = (text', args') := by
    unfold flagOr
    rw [htake, Option.getD_some]
  unfold needI at h
  rw [hflag] at h
  dsimp only at h
  split_ifs at h with hempty
  · exact .inl hempty
  · split at h
    · cases h
    · next v hparse =>
      cases h
      exact .inr ⟨v, hparse, rfl⟩

theorem needI_rest {name : String} {fallback n : ℤ} {args rest : List String}
    (h : needI name fallback args = .ok (n, rest)) : rest = (flagOr name "" args).2 := by
  unfold needI at h
  dsimp only at h
  split_ifs at h
  · cases h
    rfl
  · split at h <;> cases h
    rfl

/-- The paths, the id and the time do not touch the numbers. -/
theorem resolve_stored {s : System} {m m' : Meta} (h : s.resolve m = .ok m') (o : IntOption) :
    o.stored m' = o.stored m := by
  unfold System.resolve at h
  split_ifs at h
  · split at h
    · cases h
    · split at h <;> cases h
      cases o <;> rfl
  · split at h <;> cases h
    cases o <;> rfl

theorem parseSubmit_given {args : List String} {m : Meta} {o : IntOption} {text : String}
    (h : parseSubmit (flagOr "--workspace" "" args).2 = .ok m) (hgiven : o.given args = some text) :
    text = "" ∨ Narrowed text (o.stored m) := by
  unfold parseSubmit at h
  dsimp only at h
  obtain ⟨⟨workers, args₁⟩, hworkers, h⟩ := Except.bind_ok h
  obtain ⟨⟨priority, args₂⟩, hpriority, h⟩ := Except.bind_ok h
  obtain ⟨⟨nice, args₃⟩, hnice, h⟩ := Except.bind_ok h
  obtain ⟨⟨cpu, args₄⟩, hcpu, h⟩ := Except.bind_ok h
  obtain ⟨_, -, h⟩ := Except.bind_ok h
  obtain ⟨_, -, h⟩ := Except.bind_ok h
  obtain ⟨_, -, h⟩ := Except.bind_ok h
  obtain ⟨_, -, h⟩ := Except.bind_ok h
  obtain ⟨_, -, h⟩ := Except.bind_ok h
  dsimp only at h hpriority hnice hcpu
  rw [needI_rest hworkers] at hpriority
  rw [needI_rest hpriority] at hnice
  rw [needI_rest hnice] at hcpu
  split at h <;> cases h
  cases o with
  | workers => exact needI_given hworkers hgiven
  | priority => exact needI_given hpriority hgiven
  | nice => exact needI_given hnice hgiven
  | cpu => exact needI_given hcpu hgiven

/-- The options of an accepted command line. -/
theorem cmdSubmit_given {s : System} {args : List String} {m : Meta} {o : IntOption} {text : String}
    (h : cmdSubmit s args = .ok m) (hgiven : o.given args = some text) :
    decimal text.toList = some (o.stored m) ↔ FitsInt text := by
  unfold cmdSubmit at h
  dsimp only at h
  obtain ⟨_, -, h⟩ := Except.bind_ok h
  obtain ⟨parsed, hparsed, h⟩ := Except.bind_ok h
  obtain ⟨resolved, hresolve, h⟩ := Except.bind_ok h
  obtain ⟨id, -, h⟩ := Except.bind_ok h
  cases h
  have hstored : o.stored (resolved.setSubmitted id s.now) = o.stored parsed := by
    rw [← resolve_stored hresolve o]
    cases o <;> rfl
  rw [hstored]
  rcases parseSubmit_given hparsed hgiven with rfl | hnarrowed
  · -- the empty text counts as no text, and denotes no integer
    have hnone : decimal "".toList = none := rfl
    constructor
    · intro hexact
      cases hnone.symm.trans hexact
    · rintro ⟨n, hn, -⟩
      cases hnone.symm.trans hn
  · exact hnarrowed.exact_iff

/-! ## The record -/

/-- The value that a line of a record gives to a key (store.cpp:483-491). -/
def lineValue (key : String) (line : List Char) : Option String :=
  if line = [] ∨ line.head? = some '#' then none
  else
    match splitField '=' (dropCr '\r' line) with
    | none => none
    | some (k, val) => if String.ofList k = key then some (String.ofList val) else none

/-- The value of a key: later lines win. -/
def lastValue (key : String) : List (List Char) → Option String
  | [] => none
  | line :: lines => lastValue key lines <|> lineValue key line

/-- The text that a record gives to the field. -/
def IntOption.recorded (file : String) (o : IntOption) : Option String :=
  lastValue o.key (getlines '\n' file.toList)

theorem needU64_ok {key val : String} {dest : ℕ → Meta} {m : Meta}
    (h : needU64 key val dest = .ok m) : ∃ n, parseU64 val.toList = some n ∧ m = dest n := by
  unfold needU64 at h
  split at h
  · cases h
  · next n hparse =>
    cases h
    exact ⟨n, hparse, rfl⟩

theorem needI64_ok {key val : String} {dest : ℤ → Meta} {m : Meta}
    (h : needI64 key val dest = .ok m) : ∃ n, parseI64 val.toList = some n ∧ m = dest n := by
  unfold needI64 at h
  split at h
  · cases h
  · next n hparse =>
    cases h
    exact ⟨n, hparse, rfl⟩

/-- The key of the field: the value is narrowed. -/
theorem assignMetaField_key {m m' : Meta} {val : String} (o : IntOption)
    (h : assignMetaField m o.key val = .ok m') : Narrowed val (o.stored m') := by
  unfold assignMetaField at h
  cases o
  all_goals simp only [IntOption.key, String.reduceEq, reduceIte] at h
  case workers =>
    obtain ⟨n, hparse, hm⟩ := needU64_ok h
    have hstored : m'.workers = toInt n := by rw [hm]
    have hnarrowed : Narrowed val (toInt n) := .of_parseU64 hparse
    rw [← hstored] at hnarrowed
    exact hnarrowed
  case priority =>
    obtain ⟨n, hparse, hm⟩ := needI64_ok h
    have hstored : m'.priority = toInt n := by rw [hm]
    exact ⟨n, hparse, hstored⟩
  case nice =>
    obtain ⟨n, hparse, hm⟩ := needI64_ok h
    have hstored : m'.nice = toInt n := by rw [hm]
    exact ⟨n, hparse, hstored⟩
  case cpu =>
    obtain ⟨n, hparse, hm⟩ := needI64_ok h
    have hstored : m'.cpu = toInt n := by rw [hm]
    exact ⟨n, hparse, hstored⟩

/-- A read that succeeds yields a record with this value in the field. -/
def Stores (o : IntOption) (n : ℤ) (read : Except String Meta) : Prop :=
  ∀ m, read = .ok m → o.stored m = n

/-- Any other key leaves the field alone. -/
theorem assignMetaField_other {m : Meta} {key val : String} (o : IntOption) (hkey : key ≠ o.key) :
    Stores o (o.stored m) (assignMetaField m key val) := by
  show Yields (fun m' => o.stored m' = o.stored m) _
  unfold assignMetaField
  repeat' apply Yields.ite
  all_goals first
    | exact Yields.ok rfl
    | intro hk
  all_goals with_reducible first
    | apply Yields.ok
    | apply Yields.needU64; intro v _
    | apply Yields.needI64; intro v _
  all_goals cases o <;> simp only [IntOption.key] at hkey
  all_goals first
    | with_reducible exact absurd hk hkey
    | simp only [IntOption.stored]

/-- What one line does to a field that holds an `int`. -/
theorem readMetaLine_stored {m m' : Meta} {line : List Char} (o : IntOption)
    (h : readMetaLine m line = .ok m') :
    (∀ text, lineValue o.key line = some text → Narrowed text (o.stored m')) ∧
      (lineValue o.key line = none → o.stored m' = o.stored m) := by
  unfold readMetaLine at h
  split_ifs at h with hskip
  · cases h
    rw [lineValue, if_pos hskip]
    simp
  · dsimp only at h
    split at h
    · cases h
    · next k val hsplit =>
      have hvalue : lineValue o.key line =
          if String.ofList k = o.key then some (String.ofList val) else none := by
        rw [lineValue, if_neg hskip, hsplit]
      rw [hvalue]
      split_ifs with hkey
      · rw [hkey] at h
        have hnarrowed := assignMetaField_key o h
        simp [hnarrowed]
      · have hother := assignMetaField_other o hkey m' h
        simp [hother]

/-- By induction on the lines: the last line with the key decides. -/
theorem readMetaLines_stored {lines : List (List Char)} {m m' : Meta} (o : IntOption)
    (h : lines.foldlM readMetaLine m = .ok m') :
    (∀ text, lastValue o.key lines = some text → Narrowed text (o.stored m')) ∧
      (lastValue o.key lines = none → o.stored m' = o.stored m) := by
  induction lines generalizing m with
  | nil =>
    cases h
    simp [lastValue]
  | cons line lines ih =>
    rw [List.foldlM_cons] at h
    obtain ⟨m₁, hread, h⟩ := Except.bind_ok h
    obtain ⟨hsome, hnone⟩ := readMetaLine_stored o hread
    obtain ⟨ihsome, ihnone⟩ := ih h
    unfold lastValue
    cases hlast : lastValue o.key lines with
    | some later =>
      have hlater := ihsome later hlast
      simp [hlater]
    | none =>
      -- no later line has the key, so the value stays as this line left it
      have hkept := ihnone hlast
      rw [hkept]
      exact ⟨hsome, hnone⟩

/-- The fields of an accepted record. -/
theorem textToMeta_recorded {file text : String} {m : Meta} {o : IntOption}
    (h : textToMeta file = .ok m) (hrecorded : o.recorded file = some text) :
    decimal text.toList = some (o.stored m) ↔ FitsInt text := by
  unfold textToMeta at h
  split at h
  · cases h
  · next m' hread =>
    split_ifs at h
    cases h
    exact ((readMetaLines_stored o hread).1 text hrecorded).exact_iff

/-! ## The theorem -/

/-- **Integers are taken at face value** exactly when they fit in an `int`: on the
    command line and in a record. -/
theorem integers_exact (o : IntOption) (text : String) :
    (∀ (s : System) (args : List String) (m : Meta), cmdSubmit s args = .ok m →
      o.given args = some text → (decimal text.toList = some (o.stored m) ↔ FitsInt text)) ∧
    (∀ (file : String) (m : Meta), textToMeta file = .ok m →
      o.recorded file = some text → (decimal text.toList = some (o.stored m) ↔ FitsInt text)) :=
  ⟨fun _ _ _ haccepted hgiven => cmdSubmit_given haccepted hgiven,
    fun _ _ haccepted hrecorded => textToMeta_recorded haccepted hrecorded⟩

theorem integers_exact_priority :
    let args := ["--operation", "count", "--input", "a", "--priority", "-5"]
    let file := "id=7\nstate=submitted\nop=count\npriority=-5\n"
    cmdSubmit (System.smooth "/w/a") args = .ok { countMeta "/w/a" with priority := -5 } ∧
      textToMeta file = .ok { id := 7, state := "submitted", op := "count", priority := -5 } ∧
      (decimal "-5".toList = some (-5) ↔ FitsInt "-5") ∧
      (decimal "-5".toList = some (-5) ↔ FitsInt "-5") := by
  intro args file
  have hsubmit : cmdSubmit (System.smooth "/w/a") args =
      .ok { countMeta "/w/a" with priority := -5 } := by decide +kernel
  have hread : textToMeta file =
      .ok { id := 7, state := "submitted", op := "count", priority := -5 } := by decide +kernel
  obtain ⟨hgiven, hrecorded⟩ := integers_exact .priority "-5"
  refine ⟨hsubmit, hread, ?_, ?_⟩
  · exact hgiven _ _ _ hsubmit (by decide +kernel)
  · exact hrecorded _ _ hread (by decide +kernel)

/-- `2^32 + 1` is accepted and stored as 1, on the command line and in a record. -/
theorem integer_wraps :
    let args := ["--operation", "count", "--input", "a", "--priority", "4294967297"]
    let file := "id=7\nstate=submitted\nop=count\nworkers=4294967297\n"
    cmdSubmit (System.smooth "/w/a") args = .ok { countMeta "/w/a" with priority := 1 } ∧
      IntOption.priority.given args = some "4294967297" ∧
      textToMeta file = .ok { id := 7, state := "submitted", op := "count", workers := 1 } ∧
      IntOption.workers.recorded file = some "4294967297" ∧
      decimal "4294967297".toList = some 4294967297 := by
  decide +kernel

end Forge
