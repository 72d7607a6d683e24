import Mathlib

/-!
# The first elements of a list in the order of a key

`Among key k l x` says that `x` is one of the `k` elements of `l` with the least
keys, whatever the order of `l`: fewer than `k` others come before it.

* `among_succ`: taking the least element off the list leaves the choice of the rest.
* `take_eq_among_iff`: the first `k` elements of a list are those exactly when no
  later element comes before one of them.
-/

namespace Selection

variable {α β : Type*} [LinearOrder β] {key : α → β} {l : List α} {k : ℕ} {x y : α}

/-- `x` is one of the `k` elements of `l` with the least keys. -/
def Among (key : α → β) (k : ℕ) (l : List α) (x : α) : Prop :=
  x ∈ l ∧ l.countP (fun y => key y < key x) < k

instance [DecidableEq α] : Decidable (Among key k l x) :=
  inferInstanceAs (Decidable (x ∈ l ∧ l.countP (fun y => key y < key x) < k))

@[simp] theorem not_among_zero : ¬ Among key 0 l x := fun h => Nat.not_lt_zero _ h.2

@[simp] theorem not_among_nil : ¬ Among key k [] x := fun h => List.not_mem_nil h.1

/-- Only the keys of the list's elements matter. -/
theorem among_congr {key' : α → β} (h : ∀ y ∈ l, key y = key' y) :
    Among key k l x ↔ Among key' k l x := by
  unfold Among
  refine and_congr_right fun hx => ?_
  have hcount : l.countP (fun y => key y < key x) = l.countP fun y => key' y < key' x := by
    apply List.countP_congr
    intro y hy
    rw [h y hy, h x hx]
  rw [hcount]

/-- The order of the list does not matter. -/
theorem among_perm {l' : List α} (h : l.Perm l') : Among key k l x ↔ Among key k l' x := by
  unfold Among
  rw [h.mem_iff, h.countP_eq]

/-- An element does not come before itself. -/
theorem countP_lt_length (hx : x ∈ l) : l.countP (fun y => key y < key x) < l.length := by
  rw [List.countP_lt_length_iff]
  exact ⟨x, hx, by simp⟩

/-- All elements are among the first, if there are no more. -/
theorem among_of_length_le (hk : l.length ≤ k) (hx : x ∈ l) : Among key k l x :=
  ⟨hx, Nat.lt_of_lt_of_le (countP_lt_length hx) hk⟩

/-- The least element comes first, and the others follow as in the rest of the list. -/
theorem among_succ [DecidableEq α] (hx : x ∈ l) (hnodup : l.Nodup)
    (hleast : ∀ y ∈ l, y ≠ x → key x < key y) :
    Among key (k + 1) l y ↔ y = x ∨ Among key k (l.erase x) y := by
  have hcount : ∀ p : α → Bool, l.countP p = (l.erase x).countP p + if p x then 1 else 0 := by
    intro p
    rw [(List.perm_cons_erase hx).countP_eq p, List.countP_cons]
  by_cases hy : y = x
  · subst hy
    have hzero : l.countP (fun z => key z < key y) = 0 := by
      rw [List.countP_eq_zero]
      intro z hz hlt
      rw [decide_eq_true_eq] at hlt
      by_cases hzy : z = y
      · exact lt_irrefl _ (hzy ▸ hlt)
      · exact lt_asymm hlt (hleast z hz hzy)
    exact iff_of_true ⟨hx, by omega⟩ (Or.inl rfl)
  · unfold Among
    rw [hnodup.mem_erase_iff]
    simp only [hy, ne_eq, not_false_eq_true, true_and, false_or]
    refine and_congr_right fun hmem => ?_
    rw [hcount, if_pos (decide_eq_true (hleast y hmem hy))]
    omega

/-- The first `k` elements of a list are the ones with the least keys exactly when
    no later element has a smaller key. -/
theorem take_eq_among_iff (hnodup : l.Nodup) (hkey : ∀ x ∈ l, ∀ y ∈ l, key x = key y → x = y) :
    (∀ x, x ∈ l.take k ↔ Among key k l x) ↔ ∀ x ∈ l.take k, ∀ y ∈ l.drop k, key x < key y := by
  have hsplit : ∀ p : α → Bool, l.countP p = (l.take k).countP p + (l.drop k).countP p := by
    intro p
    rw [← List.countP_append, List.take_append_drop]
  have hdisjoint : ∀ y ∈ l.drop k, y ∉ l.take k := by
    rw [← List.take_append_drop k l, List.nodup_append'] at hnodup
    exact fun y hdrop htake => hnodup.2.2 htake hdrop
  constructor
  · intro hfirst x hx y hy
    by_contra hnot
    -- then `y` comes before `x`, and as few elements before it
    have hxl := List.mem_of_mem_take hx
    have hyl := List.mem_of_mem_drop hy
    have hne : key y ≠ key x := fun heq => hdisjoint y hy (hkey y hyl x hxl heq ▸ hx)
    have hlt : key y < key x := lt_of_le_of_ne (not_lt.mp hnot) hne
    have hmono : l.countP (fun z => key z < key y) ≤ l.countP (fun z => key z < key x) := by
      apply List.countP_mono_left
      intro z _ hz
      rw [decide_eq_true_eq] at hz ⊢
      exact hz.trans hlt
    have hfew := ((hfirst x).mp hx).2
    exact hdisjoint y hy ((hfirst y).mpr ⟨hyl, Nat.lt_of_le_of_lt hmono hfew⟩)
  · intro horder x
    constructor
    · intro hx
      refine ⟨List.mem_of_mem_take hx, ?_⟩
      have hlater : (l.drop k).countP (fun z => key z < key x) = 0 := by
        rw [List.countP_eq_zero]
        intro z hz hlt
        rw [decide_eq_true_eq] at hlt
        exact lt_asymm hlt (horder x hx z hz)
      have hearlier := @countP_lt_length _ _ _ key _ _ hx
      have hlen := List.length_take_le k l
      rw [hsplit]
      omega
    · rintro ⟨hmem, hfew⟩
      by_contra hnot
      rw [← List.take_append_drop k l, List.mem_append] at hmem
      have hdrop := hmem.resolve_left hnot
      have hall : (l.take k).countP (fun z => key z < key x) = (l.take k).length := by
        rw [List.countP_eq_length]
        intro z hz
        exact decide_eq_true (horder z hz x hdrop)
      have hlen : (l.take k).length = k := by
        have hpos := List.length_pos_of_mem hdrop
        rw [List.length_drop] at hpos
        rw [List.length_take]
        omega
      rw [hsplit] at hfew
      omega

end Selection
