import Mathlib.Data.List.TakeWhile

/-!
# Words in a stream

A stream over an arbitrary alphabet is read word by word, as the extraction of
strings does: leading separators are skipped, and a word ends before the next
separator or at the end of the stream.

* `skip_render`: reading `n` words of a text in which one separator stands before
  each word leaves the words after them.
* `skip_render_short`: a text with fewer words than are read has no such rest.
-/

namespace Words

variable {α : Type*} (sep : α → Bool)

/-- The next word, and what follows it. -/
def next (s : List α) : Option (List α × List α) :=
  let s := s.dropWhile sep
  if s.isEmpty then none else some (s.takeWhile fun c => !sep c, s.dropWhile fun c => !sep c)

/-- The stream after `n` words. -/
def skip : ℕ → List α → Option (List α)
  | 0, s => some s
  | n + 1, s =>
    match next sep s with
    | none => none
    | some (_, rest) => skip n rest

/-- The words of a text, each after the separator `s`. -/
def render (s : α) (words : List (List α)) : List α := words.flatMap fun word => s :: word

variable {sep}

/-- A word may end here: the text is over, or a separator follows. -/
def Ends (sep : α → Bool) (rest : List α) : Prop := ∀ c ∈ rest.head?, sep c = true

/-- The word is not empty and holds no separator. -/
def IsWord (sep : α → Bool) (word : List α) : Prop := word ≠ [] ∧ ∀ c ∈ word, sep c = false

theorem next_word {s : α} {word rest : List α} (hs : sep s = true) (hword : IsWord sep word)
    (hrest : Ends sep rest) : next sep (s :: (word ++ rest)) = some (word, rest) := by
  obtain ⟨hne, hall⟩ := hword
  have hstart : (s :: (word ++ rest)).dropWhile sep = word ++ rest := by
    rw [List.dropWhile_cons_of_pos hs]
    obtain ⟨c, tail, rfl⟩ := List.exists_cons_of_ne_nil hne
    have hc : ¬sep c = true := by simp [hall c List.mem_cons_self]
    rw [List.cons_append, List.dropWhile_cons_of_neg hc]
  have hkeep : ∀ c ∈ word, (!sep c) = true := fun c hc => by simp [hall c hc]
  have hstop : rest.takeWhile (fun c => !sep c) = [] ∧ rest.dropWhile (fun c => !sep c) = rest := by
    cases rest with
    | nil => exact ⟨rfl, rfl⟩
    | cons c rest =>
      have hc : ¬(!sep c) = true := by simp [hrest c rfl]
      exact ⟨List.takeWhile_cons_of_neg hc, List.dropWhile_cons_of_neg hc⟩
  unfold next
  dsimp only
  rw [hstart, if_neg (by simp [hne]), List.takeWhile_append_of_pos hkeep,
    List.dropWhile_append_of_pos hkeep, hstop.1, hstop.2, List.append_nil]

theorem next_blank {rest : List α} (h : ∀ c ∈ rest, sep c = true) : next sep rest = none := by
  unfold next
  dsimp only
  rw [List.dropWhile_eq_nil_iff.mpr h]
  rfl

theorem ends_render {s : α} (hs : sep s = true) (words : List (List α)) {tail : List α}
    (htail : Ends sep tail) : Ends sep (render s words ++ tail) := by
  cases words with
  | nil => exact htail
  | cons word words =>
    intro c hc
    cases hc
    exact hs

theorem skip_render {s : α} (hs : sep s = true) {tail : List α} (htail : Ends sep tail)
    {words : List (List α)} (hwords : ∀ word ∈ words, IsWord sep word) {n : ℕ}
    (hn : n ≤ words.length) :
    skip sep n (render s words ++ tail) = some (render s (words.drop n) ++ tail) := by
  induction n generalizing words with
  | zero => rfl
  | succ n ih =>
    obtain ⟨word, words, rfl⟩ := List.exists_cons_of_length_pos (show 0 < words.length by omega)
    have hword := hwords word List.mem_cons_self
    have htext : render s (word :: words) ++ tail = s :: (word ++ (render s words ++ tail)) := by
      simp [render]
    rw [skip, htext, next_word hs hword (ends_render hs words htail)]
    dsimp only
    rw [ih (fun w hw => hwords w (List.mem_cons_of_mem _ hw)) (by simpa using hn), List.drop_succ_cons]

theorem skip_render_short {s : α} (hs : sep s = true) {tail : List α}
    (htail : ∀ c ∈ tail, sep c = true) {words : List (List α)}
    (hwords : ∀ word ∈ words, IsWord sep word) {n : ℕ} (hn : words.length < n) :
    skip sep n (render s words ++ tail) = none := by
  have hends : Ends sep tail := fun c hc => htail c (List.mem_of_mem_head? hc)
  induction words generalizing n with
  | nil =>
    obtain ⟨n, rfl⟩ := Nat.exists_eq_add_of_lt hn
    have hblank : next sep (render s [] ++ tail) = none := next_blank htail
    rw [skip, hblank]
  | cons word words ih =>
    obtain ⟨n, rfl⟩ : ∃ k, n = k + 1 := ⟨n - 1, by omega⟩
    have hword := hwords word List.mem_cons_self
    have htext : render s (word :: words) ++ tail = s :: (word ++ (render s words ++ tail)) := by
      simp [render]
    rw [skip, htext, next_word hs hword (ends_render hs words hends)]
    exact ih (fun w hw => hwords w (List.mem_cons_of_mem _ hw)) (by simpa using hn)

end Words
