import Mathlib.Data.List.Basic

/-!
# Delimited frames in a stream

A stream over an arbitrary alphabet carries frames that each end with the
delimiter `d`. `frames d s` are the complete frames of `s` without their
delimiters, `pending d s` is what follows the last delimiter.

* `frames_append`, `pending_append`: a reader may stop anywhere and go on from
  the pending part alone.
* `not_mem_pending`: the pending part holds no delimiter.
* `eq_of_frames`: frames and pending part give the stream back.
* `frames_prepend`, `pending_of_suffix`: a stream that has lost its beginning.
-/

namespace Framing

variable {α : Type*} [DecidableEq α] (d : α)

/-- The complete frames of a stream. -/
def frames (s : List α) : List (List α) := (s.splitOn d).dropLast

/-- The part of a stream after its last delimiter. -/
def pending (s : List α) : List α := (s.splitOn d).getLast (List.splitOn_ne_nil d s)

variable {d}

theorem frames_of_not_mem {s : List α} (h : d ∉ s) : frames d s = [] := by
  rw [frames, List.splitOn_eq_singleton h, List.dropLast_singleton]

theorem pending_of_not_mem {s : List α} (h : d ∉ s) : pending d s = s := by
  simp only [pending, List.splitOn_eq_singleton h, List.getLast_singleton]

/-- The first delimiter ends the first frame. -/
theorem frames_append_cons {l : List α} (h : d ∉ l) (s : List α) :
    frames d (l ++ d :: s) = l :: frames d s := by
  rw [frames, List.splitOn_append_cons_self_of_not_mem h,
    List.dropLast_cons_of_ne_nil (List.splitOn_ne_nil d s), frames]

theorem pending_append_cons {l : List α} (h : d ∉ l) (s : List α) :
    pending d (l ++ d :: s) = pending d s := by
  simp only [pending, List.splitOn_append_cons_self_of_not_mem h]
  exact List.getLast_cons (List.splitOn_ne_nil d s)

/-- A stream is free of delimiters, or has a first one. -/
theorem not_mem_or_first (s : List α) : d ∉ s ∨ ∃ l t, d ∉ l ∧ s = l ++ d :: t := by
  by_cases h : d ∈ s
  · obtain ⟨l, t, hs, hl⟩ := List.eq_append_cons_of_mem h
    exact Or.inr ⟨l, t, hl, hs⟩
  · exact Or.inl h

/-- Induction over the frames of a stream. -/
theorem frameInduction {motive : List α → Prop} (unfinished : ∀ s, d ∉ s → motive s)
    (frame : ∀ l s, d ∉ l → motive s → motive (l ++ d :: s)) (s : List α) : motive s := by
  induction hn : s.length using Nat.strongRecOn generalizing s with
  | _ n ih =>
    rcases not_mem_or_first (d := d) s with h | ⟨l, t, hl, rfl⟩
    · exact unfinished s h
    · exact frame l t hl (ih t.length (by simp at hn; omega) t rfl)

theorem not_mem_pending (s : List α) : d ∉ pending d s := by
  induction s using frameInduction (d := d) with
  | unfinished s h => rwa [pending_of_not_mem h]
  | frame l s hl ih => rwa [pending_append_cons hl]

/-- **Cutting.** The frames of `s ++ t` are those of `s`, then those of the
    pending part of `s` followed by `t`. -/
theorem frames_append (s t : List α) :
    frames d (s ++ t) = frames d s ++ frames d (pending d s ++ t) := by
  induction s using frameInduction (d := d) with
  | unfinished s h => rw [frames_of_not_mem h, pending_of_not_mem h, List.nil_append]
  | frame l s hl ih =>
    rw [List.append_assoc, List.cons_append, frames_append_cons hl, ih, frames_append_cons hl,
      pending_append_cons hl, List.cons_append]

theorem pending_append (s t : List α) :
    pending d (s ++ t) = pending d (pending d s ++ t) := by
  induction s using frameInduction (d := d) with
  | unfinished s h => rw [pending_of_not_mem h]
  | frame l s hl ih =>
    rw [List.append_assoc, List.cons_append, pending_append_cons hl, ih, pending_append_cons hl]

/-- **Nothing is lost or invented.** -/
theorem eq_of_frames (s : List α) :
    ((frames d s).map (· ++ [d])).flatten ++ pending d s = s := by
  induction s using frameInduction (d := d) with
  | unfinished s h => rw [frames_of_not_mem h, pending_of_not_mem h]; rfl
  | frame l s hl ih =>
    rw [frames_append_cons hl, pending_append_cons hl, List.map_cons, List.flatten_cons,
      List.append_assoc, ih, List.append_assoc, List.singleton_append]

/-- The frames of a stream written frame by frame. -/
theorem frames_flatten {ls : List (List α)} (h : ∀ l ∈ ls, d ∉ l) :
    frames d (ls.map (· ++ [d])).flatten = ls := by
  induction ls with
  | nil => exact frames_of_not_mem List.not_mem_nil
  | cons l ls ih =>
    rw [List.map_cons, List.flatten_cons, List.append_assoc, List.singleton_append,
      frames_append_cons (h l List.mem_cons_self), ih fun m hm => h m (List.mem_cons_of_mem l hm)]

theorem pending_flatten {ls : List (List α)} (h : ∀ l ∈ ls, d ∉ l) :
    pending d (ls.map (· ++ [d])).flatten = [] := by
  induction ls with
  | nil => exact pending_of_not_mem List.not_mem_nil
  | cons l ls ih =>
    rw [List.map_cons, List.flatten_cons, List.append_assoc, List.singleton_append,
      pending_append_cons (h l List.mem_cons_self), ih fun m hm => h m (List.mem_cons_of_mem l hm)]

/-- What comes before the first delimiter belongs to the first frame. -/
theorem frames_prepend {p : List α} (hp : d ∉ p) (s : List α) :
    frames d (p ++ s) = (frames d s).modifyHead (p ++ ·) := by
  rcases not_mem_or_first (d := d) s with hs | ⟨l, t, hl, rfl⟩
  · rw [frames_of_not_mem hs, frames_of_not_mem (by simp [hp, hs])]
    rfl
  · rw [← List.append_assoc, frames_append_cons (by simp [hp, hl]), frames_append_cons hl]
    rfl

/-- A stream that ends with a delimiter does so wherever it begins. -/
theorem pending_of_suffix {s t : List α} (hsuf : t <:+ s) (h : pending d s = []) :
    pending d t = [] := by
  obtain ⟨p, rfl⟩ := hsuf
  rw [pending_append] at h
  have hp := not_mem_pending (d := d) p
  rcases not_mem_or_first (d := d) t with ht | ⟨l, t, hl, rfl⟩
  · rw [pending_of_not_mem (by simp [hp, ht]), List.append_eq_nil_iff] at h
    rw [h.2, pending_of_not_mem List.not_mem_nil]
  · rw [← List.append_assoc, pending_append_cons (by simp [hp, hl])] at h
    rwa [pending_append_cons hl]

theorem splitOn_eq (s : List α) : s.splitOn d = frames d s ++ [pending d s] :=
  (List.dropLast_append_getLast (List.splitOn_ne_nil d s)).symm

/-- The pending part of a prefix is the start of a piece of the stream. -/
theorem length_pending_le {s t : List α} {bound : ℕ}
    (h : ∀ l ∈ (s ++ t).splitOn d, l.length ≤ bound) : (pending d s).length ≤ bound := by
  induction s using frameInduction (d := d) with
  | unfinished s hs =>
    rw [pending_of_not_mem hs]
    rcases not_mem_or_first (d := d) t with ht | ⟨l, t, hl, rfl⟩
    · have := h (s ++ t) (by
        rw [List.splitOn_eq_singleton (by simp [hs, ht])]; exact List.mem_singleton_self _)
      rw [List.length_append] at this
      omega
    · have := h (s ++ l) (by
        rw [← List.append_assoc, List.splitOn_append_cons_self_of_not_mem (by simp [hs, hl])]
        exact List.mem_cons_self)
      rw [List.length_append] at this
      omega
  | frame l s hl ih =>
    rw [pending_append_cons hl]
    apply ih
    intro m hm
    apply h m
    rw [List.append_assoc, List.cons_append, List.splitOn_append_cons_self_of_not_mem hl]
    exact List.mem_cons_of_mem l hm

end Framing
