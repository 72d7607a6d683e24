import Mathlib.Algebra.Order.Group.Multiset
import Mathlib.Data.Finset.Card

/-!
# Who answers for what is open

A process has a table of open handles, and each handle that it opened after it was
started is owned by exactly one of its variables. `Owned` says so of a table and the
multiset of what the variables hold.

* `Owned.acquire`, `Owned.release`: opening a handle adds one owner, and closing
  what is owned takes its owner away.
* `Owned.closeExcept`: a copy of the table in which everything owned is closed, up
  to what is to be kept, has the first handles and the kept ones open.
* `lowestFree_notMem`: the lowest number that is not in use is free.
-/

namespace Ownership

variable {α : Type*}

/-- What is open was open at the start or is owned, and nothing is owned twice. -/
def Owned (base opened : Finset α) (owned : Multiset α) : Prop := opened.val = base.val + owned

variable {base opened : Finset α} {owned rest : Multiset α} {a : α} {o : Option α}

theorem Owned.start : Owned base base 0 := (add_zero _).symm

theorem Owned.congr (h : Owned base opened owned) (howned : owned = rest) :
    Owned base opened rest := howned ▸ h

theorem Owned.mem_iff (h : Owned base opened owned) : a ∈ opened ↔ a ∈ base ∨ a ∈ owned := by
  rw [← Finset.mem_val, h, Multiset.mem_add, Finset.mem_val]

/-- What is owned was not open at the start. -/
theorem Owned.notMem_base (h : Owned base opened owned) (ha : a ∈ owned) : a ∉ base := by
  have hnodup : (base.val + owned).Nodup := h ▸ opened.nodup
  intro hbase
  exact Multiset.disjoint_left.mp (Multiset.nodup_add.mp hnodup).2.2 hbase ha

theorem Owned.nodup (h : Owned base opened owned) : owned.Nodup := by
  have hnodup : (base.val + owned).Nodup := h ▸ opened.nodup
  exact (Multiset.nodup_add.mp hnodup).2.1

/-! ## Opening and closing -/

variable [DecidableEq α]

/-- Closes what a variable holds, if it holds something. -/
def close : Option α → Finset α → Finset α
  | none, opened => opened
  | some a, opened => opened.erase a

/-- Closes the members of a list one after another, up to those that satisfy `keep`. -/
def closeExcept (keep : α → Bool) : List α → Finset α → Finset α
  | [], opened => opened
  | a :: as, opened => closeExcept keep as (if keep a then opened else opened.erase a)

theorem Owned.acquire (h : Owned base opened owned) (ha : a ∉ opened) :
    Owned base (insert a opened) (a ::ₘ owned) := by
  unfold Owned at h ⊢
  rw [Finset.insert_val_of_notMem ha, h, Multiset.add_cons]

theorem Owned.release (h : Owned base opened (a ::ₘ owned)) :
    Owned base (opened.erase a) owned := by
  unfold Owned at h ⊢
  rw [Finset.erase_val, h, Multiset.add_cons, Multiset.erase_cons_head]

theorem Owned.close (h : Owned base opened (Multiset.ofList o.toList + owned)) :
    Owned base (close o opened) owned := by
  cases o with
  | none => exact h.congr (zero_add owned)
  | some a => exact (h.congr (Multiset.singleton_add a owned)).release

/-! ## Closing in a copy -/

theorem mem_closeExcept {keep : α → Bool} {as : List α} :
    a ∈ closeExcept keep as opened ↔ a ∈ opened ∧ (a ∈ as → keep a = true) := by
  induction as generalizing opened with
  | nil => simp [closeExcept]
  | cons b as ih =>
    rw [closeExcept, ih, List.mem_cons]
    by_cases hkeep : keep b = true
    · rw [if_pos hkeep]
      have hb : a = b → keep a = true := fun h => h ▸ hkeep
      tauto
    · rw [if_neg hkeep, Finset.mem_erase]
      have hb : a = b → ¬ keep a = true := fun h => h ▸ hkeep
      tauto

/-- Closing everything on the list but `kept`, where the list and `kept` are what is
    owned. -/
theorem Owned.closeExcept {keep : α → Bool} {as kept : List α}
    (h : Owned base opened (Multiset.ofList as + Multiset.ofList kept))
    (hkeep : ∀ a, keep a = true ↔ a ∈ kept) :
    closeExcept keep as opened = base ∪ kept.toFinset := by
  have hnodup : (as ++ kept).Nodup := Multiset.coe_nodup.mp h.nodup
  ext a
  rw [mem_closeExcept, h.mem_iff, Multiset.mem_add, Multiset.mem_coe, Multiset.mem_coe,
    Finset.mem_union, List.mem_toFinset]
  constructor
  · rintro ⟨hbase | hmem | hkept, hlist⟩
    · exact Or.inl hbase
    · exact Or.inr ((hkeep a).mp (hlist hmem))
    · exact Or.inr hkept
  · rintro (hbase | hkept)
    · refine ⟨Or.inl hbase, fun hmem => ?_⟩
      exact absurd hbase (h.notMem_base (Multiset.mem_add.mpr (Or.inl hmem)))
    · refine ⟨Or.inr (Or.inr hkept), fun hmem => ?_⟩
      exact absurd hkept (List.disjoint_of_nodup_append hnodup hmem)

/-! ## Numbers -/

/-- The lowest number that is not in use. -/
def lowestFree (opened : Finset ℕ) : ℕ :=
  ((List.range (opened.card + 1)).find? (· ∉ opened)).getD 0

theorem lowestFree_notMem (opened : Finset ℕ) : lowestFree opened ∉ opened := by
  have hcard : opened.card < (Finset.range (opened.card + 1)).card := by
    rw [Finset.card_range]
    exact Nat.lt_succ_self _
  obtain ⟨n, hn, hfree⟩ := Finset.exists_mem_notMem_of_card_lt_card hcard
  have hsome : ((List.range (opened.card + 1)).find? (· ∉ opened)).isSome := by
    rw [List.find?_isSome]
    exact ⟨n, List.mem_range.mpr (Finset.mem_range.mp hn), by simpa using hfree⟩
  obtain ⟨m, hm⟩ := Option.isSome_iff_exists.mp hsome
  have hfound := List.find?_some hm
  rw [lowestFree, hm]
  simpa using hfound

end Ownership
