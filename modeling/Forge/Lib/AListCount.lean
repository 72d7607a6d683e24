import Mathlib.Data.List.AList

/-!
# Counting the entries of a finite map

`countVals p s` counts the entries of an association list whose value satisfies
`p`, and `flatVals f s` lists what `f` gives for the values. Each operation changes
them by what it does at one key.

* `entries_perm`: an entry can be put in front of the others.
* `countVals_insert`, `countVals_erase`, `flatVals_insert`, `flatVals_erase`: the
  effect of an insertion and a removal.
* `countVals_pos`: an entry that satisfies `p` is counted.
* `countVals_eq_length`: the count is the length of a list of the keys counted.
* `erase_insert`: removing what was just inserted.
-/

namespace AList

variable {α : Type*} {β : Type*} [DecidableEq α]

/-- The number of entries whose value satisfies `p`. -/
def countVals (p : β → Bool) (s : AList fun _ : α => β) : ℕ := s.entries.countP fun e => p e.2

variable {p : β → Bool} {s : AList fun _ : α => β} {a : α} {b : β}

theorem erase_insert : (s.insert a b).erase a = s.erase a := by
  apply AList.ext
  exact List.kerase_cons_eq (s := (⟨a, b⟩ : Sigma fun _ : α => β)) rfl

theorem countVals_insert :
    countVals p (s.insert a b) = countVals p (s.erase a) + if p b then 1 else 0 := by
  show List.countP _ (⟨a, b⟩ :: List.kerase a s.entries) = _
  rw [List.countP_cons]
  rfl

theorem entries_perm (h : s.lookup a = some b) : s.entries.Perm (⟨a, b⟩ :: (s.erase a).entries) := by
  have hmem : a ∈ s.entries.keys := by
    rw [← AList.keys, ← AList.mem_keys, ← AList.lookup_isSome, h]
    rfl
  obtain ⟨b', l₁, l₂, hnotin, hsplit, herase⟩ := List.exists_of_kerase hmem
  have hb : b' = b := by
    have hentry : (⟨a, b'⟩ : Sigma fun _ : α => β) ∈ s.entries := by
      rw [hsplit]
      exact List.mem_append_right _ List.mem_cons_self
    have hlookup : s.lookup a = some b' := List.mem_dlookup s.nodupKeys hentry
    rw [h] at hlookup
    exact (Option.some.inj hlookup).symm
  subst hb
  show s.entries.Perm (_ :: List.kerase a s.entries)
  rw [herase, hsplit]
  exact List.perm_middle

theorem countVals_erase (h : s.lookup a = some b) :
    countVals p s = countVals p (s.erase a) + if p b then 1 else 0 := by
  unfold countVals
  rw [(entries_perm h).countP_eq, List.countP_cons]

/-- What `f` gives for each value. -/
def flatVals {γ : Type*} (f : β → List γ) (s : AList fun _ : α => β) : List γ :=
  s.entries.flatMap fun e => f e.2

omit [DecidableEq α] in
@[simp] theorem flatVals_empty {γ : Type*} {f : β → List γ} :
    flatVals f (∅ : AList fun _ : α => β) = [] := rfl

theorem flatVals_insert {γ : Type*} {f : β → List γ} :
    flatVals f (s.insert a b) = f b ++ flatVals f (s.erase a) := rfl

theorem flatVals_erase {γ : Type*} {f : β → List γ} (h : s.lookup a = some b) :
    (flatVals f s).Perm (f b ++ flatVals f (s.erase a)) :=
  (entries_perm h).flatMap_right _

/-- Erasing a key that is absent. -/
theorem erase_of_lookup_none (h : s.lookup a = none) : s.erase a = s := by
  apply AList.ext
  exact List.kerase_of_notMem_keys (AList.lookup_eq_none.mp h)

theorem countVals_pos (h : s.lookup a = some b) (hp : p b = true) : 0 < countVals p s := by
  rw [countVals_erase h, if_pos hp]
  omega

theorem exists_of_countVals_pos (h : 0 < countVals p s) : ∃ a b, s.lookup a = some b ∧ p b = true := by
  obtain ⟨⟨a, b⟩, hmem, hp⟩ := List.countP_pos_iff.mp h
  exact ⟨a, b, AList.mem_lookup_iff.mpr hmem, hp⟩

theorem countVals_eq_length {l : List α} (hnodup : l.Nodup)
    (h : ∀ a, a ∈ l ↔ ∃ b, s.lookup a = some b ∧ p b = true) : countVals p s = l.length := by
  induction l generalizing s with
  | nil =>
    unfold countVals
    rw [List.length_nil, List.countP_eq_zero]
    intro e he hp
    exact List.not_mem_nil ((h e.1).mpr ⟨e.2, List.mem_dlookup s.nodupKeys he, hp⟩)
  | cons a l ih =>
    obtain ⟨hnotin, hnodup⟩ := List.nodup_cons.mp hnodup
    obtain ⟨b, hlookup, hp⟩ := (h a).mp List.mem_cons_self
    rw [countVals_erase hlookup, if_pos hp, List.length_cons, ih hnodup]
    intro a'
    by_cases ha : a' = a
    · subst ha
      rw [lookup_erase]
      simp [hnotin]
    · rw [lookup_erase_ne ha, ← h a', List.mem_cons]
      simp [ha]

end AList
