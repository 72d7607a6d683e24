import Forge.Lib.Framing

/-!
# Lines of keys and values

A text over an arbitrary alphabet is read line by line, as `std::getline` does;
a trailing carriage return is dropped, and the line is cut at its first `eq`.

* `getlines_encode`: the lines of a text that was written field by field.
* `splitField_encode`: a line gives its key and value back.
* `not_mem_getlines`: no line holds a line break.
-/

namespace KeyValue

open Framing

variable {α : Type*} [DecidableEq α]

/-- The lines of a text. What follows the last line break is a line unless it is
    empty. -/
def getlines (nl : α) (s : List α) : List (List α) :=
  frames nl s ++ if pending nl s = [] then [] else [pending nl s]

/-- A line without the carriage return at its end. -/
def dropCr (cr : α) (line : List α) : List α :=
  if line.getLast? = some cr then line.dropLast else line

/-- The key before the first `eq` of a line, and the value after it. -/
def splitField (eq : α) (line : List α) : Option (List α × List α) :=
  match line.dropWhile (· ≠ eq) with
  | [] => none
  | _ :: val => some (line.takeWhile (· ≠ eq), val)

/-- The line of a field. -/
def line (eq : α) (field : List α × List α) : List α := field.1 ++ eq :: field.2

/-- One line for each field. -/
def encode (eq nl : α) (fields : List (List α × List α)) : List α :=
  ((fields.map (line eq)).map (· ++ [nl])).flatten

omit [DecidableEq α] in
theorem encode_cons (eq nl : α) (field : List α × List α) (fields : List (List α × List α)) :
    encode eq nl (field :: fields) =
      (field.1 ++ [eq]) ++ (field.2 ++ ([nl] ++ encode eq nl fields)) := by
  simp [encode, line]

omit [DecidableEq α] in
/-- What the text of the fields is made of. -/
theorem mem_encode {eq nl a : α} {fields : List (List α × List α)} :
    a ∈ encode eq nl fields ↔
      ∃ field ∈ fields, a ∈ field.1 ∨ a = eq ∨ a ∈ field.2 ∨ a = nl := by
  simp [encode, line]

/-! ## Lines -/

theorem getlines_append_cons {nl : α} {line : List α} (h : nl ∉ line) (s : List α) :
    getlines nl (line ++ nl :: s) = line :: getlines nl s := by
  unfold getlines
  rw [frames_append_cons h, pending_append_cons h, List.cons_append]

/-- The lines of a text that was written field by field. -/
theorem getlines_encode {eq nl : α} (hne : eq ≠ nl) (fields : List (List α × List α))
    (hfields : ∀ field ∈ fields, nl ∉ field.1 ∧ nl ∉ field.2) :
    getlines nl (encode eq nl fields) = fields.map (line eq) := by
  have hlines : ∀ l ∈ fields.map (line eq), nl ∉ l := by
    intro l hl
    obtain ⟨field, hmem, rfl⟩ := List.mem_map.mp hl
    obtain ⟨hkey, hval⟩ := hfields field hmem
    simp only [line, List.mem_append, List.mem_cons, not_or]
    exact ⟨hkey, hne.symm, hval⟩
  unfold getlines encode
  rw [frames_flatten hlines, pending_flatten hlines, if_pos rfl, List.append_nil]

theorem not_mem_getlines {nl : α} {s line : List α} (h : line ∈ getlines nl s) : nl ∉ line := by
  induction s using frameInduction (d := nl) with
  | unfinished s hs =>
    unfold getlines at h
    rw [frames_of_not_mem hs, pending_of_not_mem hs] at h
    split_ifs at h
    · cases h
    · rw [List.nil_append, List.mem_singleton] at h
      rwa [h]
  | frame first s hfirst ih =>
    rw [getlines_append_cons hfirst, List.mem_cons] at h
    rcases h with rfl | h
    · exact hfirst
    · exact ih h

/-! ## Fields -/

/-- A line gives its key and value back. -/
theorem splitField_encode {eq : α} {key : List α} (h : eq ∉ key) (val : List α) :
    splitField eq (line eq (key, val)) = some (key, val) := by
  have hkey : ∀ c ∈ key, decide (c ≠ eq) = true := by
    intro c hc
    exact decide_eq_true fun heq => h (heq ▸ hc)
  unfold splitField line
  rw [List.dropWhile_append_of_pos hkey, List.takeWhile_append_of_pos hkey]
  simp

theorem splitField_mem {eq : α} {line key val : List α} (h : splitField eq line = some (key, val))
    {c : α} (hc : c ∈ val) : c ∈ line := by
  unfold splitField at h
  split at h
  · cases h
  · next first val' hdrop =>
    cases h
    have hmem : c ∈ line.dropWhile (· ≠ eq) := by
      rw [hdrop]
      exact List.mem_cons_of_mem _ hc
    exact (List.dropWhile_sublist _).subset hmem

/-! ## Carriage returns -/

theorem dropCr_of_ne {cr : α} {line : List α} (h : line.getLast? ≠ some cr) :
    dropCr cr line = line := if_neg h

theorem dropCr_eq_self_iff {cr : α} {line : List α} :
    dropCr cr line = line ↔ line.getLast? ≠ some cr := by
  refine ⟨fun h hcr => ?_, dropCr_of_ne⟩
  unfold dropCr at h
  rw [if_pos hcr] at h
  have hlen := congrArg List.length h
  have hnil : line ≠ [] := by
    rintro rfl
    cases hcr
  have hpos := List.length_pos_of_ne_nil hnil
  rw [List.length_dropLast] at hlen
  omega

/-- Only the value of a field can end in a carriage return. -/
theorem dropCr_encode {cr eq : α} (hne : eq ≠ cr) (key val : List α) :
    dropCr cr (line eq (key, val)) = line eq (key, dropCr cr val) := by
  unfold dropCr line
  rcases List.eq_nil_or_concat val with rfl | ⟨init, last, rfl⟩
  · simp [hne]
  · rw [List.concat_eq_append, ← List.cons_append, ← List.append_assoc]
    simp only [List.getLast?_append, List.getLast?_singleton, Option.some_or, List.dropLast_concat]
    split_ifs
    · rfl
    · simp

theorem mem_of_mem_dropCr {cr c : α} {line : List α} (h : c ∈ dropCr cr line) : c ∈ line := by
  unfold dropCr at h
  split_ifs at h
  · exact (List.dropLast_sublist _).subset h
  · exact h

end KeyValue
