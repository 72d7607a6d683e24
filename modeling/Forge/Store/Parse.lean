import Forge.Basic

/-!
# `parse_u64`

Every number the program reads back — job ids, meta fields, control lines, the
id counter — goes through `parse_u64` (store.cpp:70-87). `parseU64_eq_some_iff`
characterises it, and `parseU64_toDigits` is the round trip with
`std::to_string`.
-/

namespace Forge

/-- `UINT64_MAX`. -/
def uint64Max : ℕ := 2 ^ 64 - 1

/-- The loop of `parse_u64` on the value accumulated so far (store.cpp:75-84). -/
def parseDigits : List Char → ℕ → Option ℕ
  | [], value => some value
  | c :: text, value =>
    if c < '0' ∨ '9' < c then none
    else
      let digit := c.toNat - '0'.toNat
      if value > (uint64Max - digit) / 10 then none
      else parseDigits text (value * 10 + digit)

/-- `parse_u64(text, out)` (store.cpp:70-87): the new value of `out`, or `none`
    when the call returns `false` and leaves `out` alone. -/
def parseU64 (text : List Char) : Option ℕ :=
  if text = [] then none else parseDigits text 0

theorem isDigit_iff (c : Char) : c.isDigit = true ↔ ¬(c < '0' ∨ '9' < c) := by
  simp [Char.isDigit, Char.lt_def]

theorem digit_lt {c : Char} (h : c.isDigit) : c.toNat - '0'.toNat < 10 := by
  have h9 : c.toNat ≤ '9'.toNat := by
    simp [Char.isDigit] at h
    exact h.2
  have : '9'.toNat = 57 := rfl
  have : '0'.toNat = 48 := rfl
  omega

theorem parseDigits_eq_some_iff (text : List Char) :
    ∀ value v, value ≤ uint64Max → (parseDigits text value = some v ↔
      (∀ c ∈ text, c.isDigit) ∧ v = Nat.ofDigitChars 10 text value ∧ v ≤ uint64Max) := by
  induction text with
  | nil =>
    intro value v hv
    simp only [parseDigits, Option.some.injEq, List.not_mem_nil, false_implies, implies_true,
      true_and, Nat.ofDigitChars_nil]
    exact ⟨fun h => ⟨h.symm, h ▸ hv⟩, fun h => h.1.symm⟩
  | cons c text ih =>
    intro value v hv
    simp only [parseDigits, Nat.ofDigitChars_cons, List.forall_mem_cons]
    split_ifs with hdigit hover
    · have hc : ¬c.isDigit = true := fun h => (isDigit_iff c).mp h hdigit
      simp [hc]
    · -- the next value does not fit, and later digits only make it larger
      have hmono : ∀ n, n ≤ Nat.ofDigitChars 10 text n := fun n => by
        rw [Nat.ofDigitChars_eq_ofDigitChars_zero]
        have := Nat.le_mul_of_pos_left n (show 0 < 10 ^ text.length by positivity)
        omega
      have := hmono (10 * value + (c.toNat - '0'.toNat))
      have hd := digit_lt ((isDigit_iff c).mpr hdigit)
      simp only [false_iff, not_and]
      rintro - rfl
      unfold uint64Max at *
      omega
    · have hd := digit_lt ((isDigit_iff c).mpr hdigit)
      rw [ih _ v (by unfold uint64Max at *; omega), Nat.mul_comm value 10,
        (isDigit_iff c).mpr hdigit]
      simp

/-- `parse_u64` succeeds exactly on non-empty strings of ASCII digits whose value
    fits in 64 bits. -/
theorem parseU64_eq_some_iff (text : List Char) (v : ℕ) :
    parseU64 text = some v ↔
      text ≠ [] ∧ (∀ c ∈ text, c.isDigit) ∧ v = Nat.ofDigitChars 10 text 0 ∧ v ≤ uint64Max := by
  unfold parseU64
  split_ifs with hnil
  · simp [hnil]
  · rw [parseDigits_eq_some_iff text 0 v (Nat.zero_le _)]
    simp [hnil]

/-- What `std::to_string` prints for a 64-bit value is read back. -/
theorem parseU64_toDigits {n : ℕ} (hn : n < 2 ^ 64) : parseU64 (Nat.toDigits 10 n) = some n := by
  rw [parseU64_eq_some_iff]
  refine ⟨Nat.toDigits_ne_nil, fun c hc => ?_, Nat.ofDigitChars_ten_toDigits.symm, ?_⟩
  · exact Nat.isDigit_of_mem_toDigits (by norm_num) (by norm_num) hc
  · unfold uint64Max; omega

theorem parseU64_lt {text : List Char} {v : ℕ} (h : parseU64 text = some v) : v < 2 ^ 64 := by
  have := ((parseU64_eq_some_iff text v).mp h).2.2.2
  unfold uint64Max at this
  omega

end Forge
