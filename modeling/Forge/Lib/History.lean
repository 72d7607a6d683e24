import Mathlib.Data.List.Infix

/-!
# Properties of a history, newest entry first

A history is a list of entries with the newest first, so that what had happened
before an entry is its tail. `All ok h` says that every entry of `h` was `ok`
given what had happened before it.

* `All.suffix`: an earlier state of a history has the property too.
* `All.at`: the entry that follows a given past is `ok`.
* `all_append`: entries added to a history.
-/

namespace History

variable {E : Type*} {ok ok' : E → List E → Prop}

/-- Every entry is `ok` with respect to the entries before it. -/
def All (ok : E → List E → Prop) : List E → Prop
  | [] => True
  | e :: h => ok e h ∧ All ok h

theorem All.suffix {h h' : List E} (hall : All ok h) (hsuf : h' <:+ h) : All ok h' := by
  obtain ⟨new, rfl⟩ := hsuf
  induction new with
  | nil => exact hall
  | cons e new ih => exact ih hall.2

theorem All.at {e : E} {past h : List E} (hall : All ok h) (hsuf : e :: past <:+ h) : ok e past :=
  (hall.suffix hsuf).1

theorem all_of {h : List E} (hok : ∀ e past, e :: past <:+ h → ok e past) : All ok h := by
  induction h with
  | nil => trivial
  | cons e h ih =>
    exact ⟨hok e h (List.suffix_refl _),
      ih fun e' past hsuf => hok e' past (hsuf.trans (List.suffix_cons e h))⟩

/-- Entries that are `ok` whatever is added before them, after `h`, may be added to `h`. -/
theorem all_append {new h : List E} (hnew : ∀ e ∈ new, ∀ past, h <:+ past → ok e past)
    (hall : All ok h) : All ok (new ++ h) := by
  induction new with
  | nil => exact hall
  | cons e new ih =>
    exact ⟨hnew e List.mem_cons_self _ (List.suffix_append new h),
      ih fun e' he' => hnew e' (List.mem_cons_of_mem e he')⟩

end History
