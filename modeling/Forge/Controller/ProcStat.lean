import Forge.Controller.ProcList
import Forge.Lib.Words

/-!
# The start time of a process

`proc_starttime` (os/linux/platform.cpp:500-512) takes field 22 out of
`/proc/<pid>/stat`. The second field is the name of the command in parentheses, and
a process may choose it: it may hold spaces, line breaks and parentheses.

* `procStarttime_line`: no name can move the field that is read.
-/

namespace Forge

open Words

/-! ## The model -/

/-- `std::isspace` in the C locale. -/
def isSpace (c : Char) : Bool :=
  c = ' ' || c = '\t' || c = '\n' || c = '\x0b' || c = '\x0c' || c = '\r'

/-- `text.rfind(ch)`. -/
def rfind (ch : Char) (text : List Char) : Option ℕ :=
  (text.reverse.idxOf? ch).map fun i => text.length - 1 - i

/-- The sign that `>>` accepts before a number, and the rest. -/
def takeSign : List Char → Bool × List Char
  | '-' :: s => (true, s)
  | '+' :: s => (false, s)
  | s => (false, s)

/-- `in >> ticks` for a `uint64_t`: the value, unless the extraction fails. A
    negative number is taken modulo `2^64`. -/
def readTicks (s : List Char) : Option ℕ :=
  let (negative, s) := takeSign (s.dropWhile isSpace)
  let digits := s.takeWhile Char.isDigit
  if digits = [] then none
  else
    let n := Nat.ofDigitChars 10 digits 0
    if n < 2 ^ 64 then some (if negative then (2 ^ 64 - n) % 2 ^ 64 else n) else none

/-- `proc_starttime` (os/linux/platform.cpp:500-512) on what `read_text_file` has
    answered. -/
def procStarttime (file : Option (List Char)) : Option ℕ :=
  match file with
  | none => none
  | some text =>
    match rfind ')' text with
    | none => none
    | some rparen =>
      match skip isSpace 19 (text.drop (rparen + 1)) with
      | none => none
      | some rest => readTicks rest

/-- The line of a process: its pid, its name, and the fields from the third on. -/
def statLine (pid : ℕ) (comm : List Char) (fields : List (List Char)) : List Char :=
  Nat.toDigits 10 pid ++ " (".toList ++ comm ++ ')' :: render ' ' fields

/-- A field of the line: not empty, without white space and without `)`. -/
def IsField (field : List Char) : Prop := IsWord isSpace field ∧ ')' ∉ field

/-! ## The last parenthesis -/

theorem rfind_append {ch : Char} (before : List Char) {after : List Char} (h : ch ∉ after) :
    rfind ch (before ++ ch :: after) = some before.length := by
  have hrev : (before ++ ch :: after).reverse = after.reverse ++ ch :: before.reverse := by simp
  have hmem : ch ∉ after.reverse := by simpa using h
  unfold rfind
  rw [hrev, idxOf?_of_notMem hmem, Option.map_some]
  congr 1
  simp

theorem paren_notMem_render {fields : List (List Char)} (h : ∀ field ∈ fields, IsField field) :
    ')' ∉ render ' ' fields := by
  intro hmem
  obtain ⟨field, hfield, hmem⟩ := List.mem_flatMap.mp hmem
  rcases List.mem_cons.mp hmem with heq | hmem
  · exact absurd heq (by decide)
  · exact (h field hfield).2 hmem

/-! ## The number -/

theorem isSpace_of_isDigit {c : Char} (h : c.isDigit = true) : isSpace c = false := by
  have hne : ∀ d : Char, d.isDigit = false → c ≠ d := fun d hd heq => by
    rw [← heq, h] at hd
    cases hd
  simp [isSpace, hne ' ' rfl, hne '\t' rfl, hne '\n' rfl, hne '\x0b' rfl, hne '\x0c' rfl,
    hne '\r' rfl]

theorem isDigit_of_isSpace {c : Char} (h : isSpace c = true) : c.isDigit = false := by
  by_contra hdigit
  rw [isSpace_of_isDigit (by simpa using hdigit)] at h
  cases h

theorem takeSign_digit {c : Char} (h : c.isDigit = true) (s : List Char) :
    takeSign (c :: s) = (false, c :: s) := by
  unfold takeSign
  split
  · next heq => cases heq; cases h
  · next heq => cases heq; cases h
  · rfl

/-- A number after one space, up to the next space or the end. -/
theorem readTicks_field {field rest : List Char} {n : ℕ} (hvalue : magnitude field = some n)
    (hn : n < 2 ^ 64) (hrest : Ends isSpace rest) : readTicks (' ' :: (field ++ rest)) = some n := by
  unfold magnitude at hvalue
  split_ifs at hvalue with hnil hall
  rw [List.all_eq_true] at hall
  obtain ⟨c, tail, rfl⟩ := List.exists_cons_of_ne_nil hnil
  have hc : c.isDigit = true := hall c List.mem_cons_self
  have hskip : (' ' :: (c :: tail ++ rest)).dropWhile isSpace = c :: tail ++ rest := by
    rw [List.dropWhile_cons_of_pos rfl, List.cons_append,
      List.dropWhile_cons_of_neg (by simp [isSpace_of_isDigit hc])]
  have hstop : rest.takeWhile Char.isDigit = [] := by
    cases rest with
    | nil => rfl
    | cons d rest =>
      rw [List.takeWhile_cons_of_neg (by simp [isDigit_of_isSpace (hrest d rfl)])]
  have hdigits : (c :: tail ++ rest).takeWhile Char.isDigit = c :: tail := by
    rw [List.takeWhile_append_of_pos hall, hstop, List.append_nil]
  unfold readTicks
  rw [hskip, List.cons_append, takeSign_digit hc]
  dsimp only
  rw [← List.cons_append, hdigits, if_neg hnil, Option.some.inj hvalue, if_pos hn]
  rfl

theorem readTicks_blank {s : List Char} (h : ∀ c ∈ s, isSpace c = true) : readTicks s = none := by
  unfold readTicks
  rw [List.dropWhile_eq_nil_iff.mpr h]
  rfl

/-! ## The line -/

theorem procStarttime_eq {pid : ℕ} {comm : List Char} {fields : List (List Char)}
    {tail : List Char} (hfields : ∀ field ∈ fields, IsField field) (htail : ')' ∉ tail) :
    procStarttime (some (statLine pid comm fields ++ tail)) =
      (skip isSpace 19 (render ' ' fields ++ tail)).bind readTicks := by
  have hafter : ')' ∉ render ' ' fields ++ tail := by
    rw [List.mem_append, not_or]
    exact ⟨paren_notMem_render hfields, htail⟩
  have hline : statLine pid comm fields ++ tail =
      (Nat.toDigits 10 pid ++ " (".toList ++ comm) ++ ')' :: (render ' ' fields ++ tail) := by
    simp [statLine]
  unfold procStarttime
  rw [hline]
  dsimp only
  rw [rfind_append _ hafter]
  dsimp only
  rw [drop_after]
  cases skip isSpace 19 (render ' ' fields ++ tail) <;> rfl

/-- **The start time is field 22 whatever the name of the command is**, and there is
    none in a line with fewer fields. White space may follow the fields, as the line
    break that the kernel writes. -/
theorem procStarttime_line (pid : ℕ) (comm : List Char) (fields : List (List Char))
    (tail : List Char) (hfields : ∀ field ∈ fields, IsField field)
    (htail : ∀ c ∈ tail, isSpace c = true) :
    (∀ field n, fields[19]? = some field → magnitude field = some n → n < 2 ^ 64 →
      procStarttime (some (statLine pid comm fields ++ tail)) = some n) ∧
    (fields.length < 20 → procStarttime (some (statLine pid comm fields ++ tail)) = none) := by
  have hwords : ∀ field ∈ fields, IsWord isSpace field := fun field h => (hfields field h).1
  have hparen : ')' ∉ tail := fun h => absurd (htail _ h) (by decide)
  have hends : Ends isSpace tail := fun c hc => htail c (List.mem_of_mem_head? hc)
  rw [procStarttime_eq hfields hparen]
  constructor
  · intro field n hfield hvalue hn
    obtain ⟨hlt, hget⟩ := List.getElem?_eq_some_iff.mp hfield
    have hdrop : fields.drop 19 = field :: fields.drop 20 := by
      rw [← hget]
      exact List.drop_eq_getElem_cons hlt
    have htext : render ' ' (field :: fields.drop 20) ++ tail =
        ' ' :: (field ++ (render ' ' (fields.drop 20) ++ tail)) := by
      simp [render]
    rw [skip_render rfl hends hwords hlt.le, hdrop, htext, Option.bind_some]
    exact readTicks_field hvalue hn (ends_render rfl _ hends)
  · intro hshort
    by_cases hlast : fields.length < 19
    · rw [skip_render_short rfl htail hwords hlast, Option.bind_none]
    · -- the nineteen fields are skipped, and nothing is left to read
      have hnone : fields.drop 19 = [] := List.drop_eq_nil_of_le (by omega)
      rw [skip_render rfl hends hwords (by omega), hnone, Option.bind_some]
      exact readTicks_blank htail

/-- The command calls itself `a) R 1 (b`, with a line break. -/
theorem procStarttime_line_imitated :
    let fields := List.replicate 19 ['1'] ++ [['7', '7'], ['0']]
    (∀ field ∈ fields, IsField field) ∧
      procStarttime (some (statLine 5 "a) R 1\n(b".toList fields ++ ['\n'])) = some 77 := by
  intro fields
  have hfield : ∀ text : List Char, text ∈ [['1'], ['7', '7'], ['0']] → IsField text := by
    simp [IsField, IsWord, isSpace]
  have hfields : ∀ field ∈ fields, IsField field := by
    intro field h
    apply hfield
    rcases List.mem_append.mp h with h | h
    · rw [(List.mem_replicate.mp h).2]
      exact List.mem_cons_self
    · exact List.mem_cons_of_mem _ h
  refine ⟨hfields, ?_⟩
  exact (procStarttime_line 5 "a) R 1\n(b".toList fields ['\n'] hfields
    (by simp [isSpace])).1 ['7', '7'] 77 rfl (by decide +kernel) (by norm_num)

end Forge
