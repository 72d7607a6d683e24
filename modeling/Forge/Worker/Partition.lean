import Forge.Controller.Handlers

/-!
# How evenly `split_ranges` divides

The sizes of the ranges of forge.hpp:134-180, and the same function with every
`uint64_t` operation checked. `Forge.Worker.Ranges` has that the ranges lie end
to end.

* `splitRanges_checked`: no operation of `split_ranges` overflows.
* `splitRanges_even`, `splitRanges_aligned`: the lengths without and with alignment.
* `splitRanges_partition`: all of it, and what a `direct` worker is handed.
-/

namespace Forge

/-! ## Checked arithmetic -/

/-- `a + b` in `uint64_t`, if it does not wrap. -/
def addU64 (a b : ℕ) : Option ℕ := if a + b < 2 ^ 64 then some (a + b) else none

/-- `a - b` in `uint64_t`, if it does not wrap. -/
def subU64 (a b : ℕ) : Option ℕ := if b ≤ a then some (a - b) else none

/-- `a * b` in `uint64_t`, if it does not wrap. -/
def mulU64 (a b : ℕ) : Option ℕ := if a * b < 2 ^ 64 then some (a * b) else none

/-- The bodies of the two loops, with each length `n` and `off += n` checked. -/
def layOutChecked : ℕ → List (Option ℕ) → Option (List ByteRange)
  | _, [] => some []
  | off, n :: ns => do
    let n ← n
    let next ← addU64 off n
    let rest ← layOutChecked next ns
    return ⟨off, n⟩ :: rest

/-- `split_ranges` (forge.hpp:134-180) with every operation checked. -/
def splitRangesChecked (size : ℕ) (workers : ℤ) (align : ℕ) : Option (List ByteRange) :=
  let workers := workerCount workers
  if size = 0 ∨ workers = 1 then some [⟨0, size⟩]
  else if align ≤ 1 then
    layOutChecked 0 ((List.range workers).map fun i =>
      addU64 (size / workers) (if i < size % workers then 1 else 0))
  else do
    let pre ← subU64 size (size % align)
    if pre = 0 then return [⟨0, size⟩]
    let blocks := pre / align
    layOutChecked 0 ((List.range workers).map fun i => do
      let b ← addU64 (blocks / workers) (if i < blocks % workers then 1 else 0)
      let n ← mulU64 b align
      if i = workers - 1 then addU64 n (← subU64 size pre) else return n)

theorem addU64_eq {a b : ℕ} (h : a + b < 2 ^ 64) : addU64 a b = some (a + b) := if_pos h

theorem subU64_eq {a b : ℕ} (h : b ≤ a) : subU64 a b = some (a - b) := if_pos h

theorem mulU64_eq {a b : ℕ} (h : a * b < 2 ^ 64) : mulU64 a b = some (a * b) := if_pos h

/-- The loop overflows nowhere if the lengths fit together. -/
theorem layOutChecked_eq {off : ℕ} {ns : List ℕ} (h : off + ns.sum < 2 ^ 64) :
    layOutChecked off (ns.map some) = some (layOut off ns) := by
  induction ns generalizing off with
  | nil => rfl
  | cons n ns ih =>
    rw [List.sum_cons] at h
    have hnext : addU64 off n = some (off + n) := addU64_eq (by omega)
    have hrest : layOutChecked (off + n) (ns.map some) = some (layOut (off + n) ns) := ih (by omega)
    simp only [List.map_cons, layOutChecked, Option.bind_eq_bind, Option.bind_some, hnext, hrest,
      layOut]
    rfl

/-! ## Lengths -/

theorem layOut_lengths (off : ℕ) (ns : List ℕ) : (layOut off ns).map (·.length) = ns := by
  induction ns generalizing off with
  | nil => rfl
  | cons n ns ih => rw [layOut, List.map_cons, ih]

/-- The sum of the lengths bounds each of them. -/
theorem le_of_shares {n total : ℕ} {f : ℕ → ℕ} (hsum : ((List.range n).map f).sum = total) {i : ℕ}
    (hi : i < n) : f i ≤ total := by
  rw [← hsum]
  exact List.le_sum_of_mem (List.mem_map_of_mem (List.mem_range.mpr hi))

/-- `n` shares of `blocks` blocks of `align` bytes, the last one with the tail. -/
theorem sum_aligned {n size align : ℕ} (hn : 0 < n) :
    ((List.range n).map fun i => ((size - size % align) / align / n +
      if i < (size - size % align) / align % n then 1 else 0) * align +
        if i = n - 1 then size - (size - size % align) else 0).sum = size := by
  have hmod := Nat.mod_le size align
  have hdvd : (size - size % align) / align * align = size - size % align :=
    Nat.div_mul_cancel (Nat.dvd_sub_mod size)
  rw [List.sum_map_add, sum_last hn, List.sum_map_mul_right, sum_shares hn, hdvd]
  omega

/-- **No operation of `split_ranges` overflows.** -/
theorem splitRanges_checked {size : ℕ} (workers : ℤ) (align : ℕ) (hsize : size < 2 ^ 64) :
    splitRangesChecked size workers align = some (splitRanges size workers align) := by
  have hw := workerCount_pos workers
  unfold splitRangesChecked splitRanges
  generalize workerCount workers = n at *
  dsimp only
  split_ifs with hone halign hpre
  · rfl
  · -- byte-granular: each share is at most `size`
    have hsum := sum_shares hw size
    rw [← layOutChecked_eq (by rw [hsum]; omega), List.map_map]
    congr 1
    apply List.map_congr_left
    intro i hi
    have hle := le_of_shares hsum (List.mem_range.mp hi)
    exact addU64_eq (by omega)
  · rw [subU64_eq (Nat.mod_le _ _), Option.bind_eq_bind, Option.bind_some, if_pos hpre]
    rfl
  · have hsum := @sum_aligned _ size align hw
    rw [subU64_eq (Nat.mod_le _ _), Option.bind_eq_bind, Option.bind_some, if_neg hpre,
      ← layOutChecked_eq (by rw [hsum]; omega), List.map_map]
    congr 1
    apply List.map_congr_left
    intro i hi
    have hle := le_of_shares hsum (List.mem_range.mp hi)
    dsimp only [Function.comp]
    generalize hc : (if i < (size - size % align) / align % n then 1 else 0) = c at hle ⊢
    generalize hb : (size - size % align) / align / n + c = b at hle ⊢
    have hble : b ≤ b * align := Nat.le_mul_of_pos_right b (by omega)
    have hshare : b * align ≤ size := (Nat.le_add_right _ _).trans hle
    have hb' : addU64 ((size - size % align) / align / n) c = some b := by
      rw [← hb]
      exact addU64_eq (by omega)
    have hn : mulU64 b align = some (b * align) := mulU64_eq (by omega)
    rw [hb', Option.bind_eq_bind, Option.bind_some, hn, Option.bind_some]
    by_cases hlast : i = n - 1
    · rw [if_pos hlast] at hle ⊢
      rw [if_pos hlast, subU64_eq (Nat.sub_le _ _), Option.bind_some]
      exact addU64_eq (by omega)
    · rw [if_neg hlast, if_neg hlast]
      rfl

/-- One range, where there is nothing to divide. -/
theorem length_splitRanges_one {size : ℕ} {workers : ℤ} {align : ℕ}
    (h : size = 0 ∨ workers ≤ 1 ∨ size < align) : (splitRanges size workers align).length = 1 := by
  have hcount : workers ≤ 1 → workerCount workers = 1 := by
    intro hle
    unfold workerCount
    split_ifs <;> omega
  unfold splitRanges
  dsimp only
  split_ifs with hone halign hpre
  · rfl
  · rcases h with h | h | h <;> omega
  · rfl
  · rcases h with h | h | h
    · omega
    · exact absurd (Or.inr (hcount h)) hone
    · rw [Nat.mod_eq_of_lt h] at hpre
      omega

theorem length_splitRanges_le_max (size : ℕ) (workers : ℤ) (align : ℕ) :
    ((splitRanges size workers align).length : ℤ) ≤ max workers 1 := by
  rcases le_or_gt 1 workers with hw | hw
  · have := @length_splitRanges_le size workers align hw
    omega
  · have := @length_splitRanges_one size workers align (Or.inr (Or.inl (by omega)))
    omega

/-- **Byte-granular ranges are even**, and the longer ones come first. -/
theorem splitRanges_even (size : ℕ) (workers : ℤ) :
    (splitRanges size workers 1).Pairwise fun r r' =>
      r'.length ≤ r.length ∧ r.length ≤ r'.length + 1 := by
  unfold splitRanges
  dsimp only
  split_ifs with hone halign
  · exact List.pairwise_singleton _ _
  · rw [← List.pairwise_map (f := ByteRange.length)
      (R := fun a b => b ≤ a ∧ a ≤ b + 1), layOut_lengths, List.pairwise_map]
    refine List.pairwise_lt_range.imp fun {i j} hij => ?_
    constructor
    · split_ifs <;> omega
    · split_ifs <;> omega
  · exact absurd le_rfl halign
  · exact absurd le_rfl halign

/-! ## Alignment -/

/-- If all lengths but the last are multiples of `d`, all offsets are. -/
theorem layOut_dvd {d off : ℕ} {ns : List ℕ} (hoff : d ∣ off) (hns : ∀ n ∈ ns.dropLast, d ∣ n) :
    ∀ r ∈ layOut off ns, d ∣ r.offset := by
  induction ns generalizing off with
  | nil => simp [layOut]
  | cons n ns ih =>
    intro r hr
    rcases List.mem_cons.mp hr with rfl | hr
    · exact hoff
    · cases ns with
      | nil => cases hr
      | cons n' ns =>
        rw [List.dropLast_cons_cons] at hns
        exact ih (Nat.dvd_add hoff (hns n List.mem_cons_self))
          (fun k hk => hns k (List.mem_cons_of_mem n hk)) r hr

/-- What the ranges of an aligned split with more than one range look like. -/
structure AlignedRanges (size align : ℕ) (rs : List ByteRange) : Prop where
  offsets : ∀ r ∈ rs, align ∣ r.offset
  lengths : ∀ r ∈ rs.dropLast, align ∣ r.length
  last : ∀ r ∈ rs.getLast?, r.length % align = size % align
  blocks : ∀ r ∈ rs, ∀ r' ∈ rs, r.length / align ≤ r'.length / align + 1

/-- The lengths of an aligned split are blocks, with the tail on the last one. -/
theorem alignedRanges_layOut {n size align : ℕ} (hn : 0 < n) (halign : 0 < align) {f : ℕ → ℕ}
    (hf : ∀ i j, f i ≤ f j + 1) :
    AlignedRanges size align (layOut 0 ((List.range n).map fun i =>
      f i * align + if i = n - 1 then size - (size - size % align) else 0)) := by
  have htail : size - (size - size % align) = size % align := by
    have := Nat.mod_le size align
    omega
  rw [htail]
  obtain ⟨m, rfl⟩ : ∃ m, n = m + 1 := ⟨n - 1, by omega⟩
  rw [Nat.add_sub_cancel]
  have hlt := Nat.mod_lt size halign
  have hinit : ((List.range (m + 1)).map fun i =>
      f i * align + if i = m then size % align else 0) =
      ((List.range m).map fun i => f i * align) ++ [f m * align + size % align] := by
    rw [List.range_succ, List.map_append, List.map_singleton, if_pos rfl]
    congr 1
    apply List.map_congr_left
    intro i hi
    rw [if_neg (List.mem_range.mp hi).ne, Nat.add_zero]
  have hlen := layOut_lengths 0 ((List.range (m + 1)).map fun i =>
      f i * align + if i = m then size % align else 0)
  constructor
  · apply layOut_dvd (Nat.dvd_zero align)
    intro k hk
    rw [hinit, List.dropLast_concat] at hk
    obtain ⟨i, -, rfl⟩ := List.mem_map.mp hk
    exact Nat.dvd_mul_left align (f i)
  · intro r hr
    have hmem := List.mem_map_of_mem (f := ByteRange.length) hr
    rw [List.map_dropLast, hlen, hinit, List.dropLast_concat] at hmem
    obtain ⟨i, -, hi⟩ := List.mem_map.mp hmem
    exact hi ▸ Nat.dvd_mul_left align (f i)
  · intro r hr
    have hmem : r.length ∈ ((layOut 0 ((List.range (m + 1)).map fun i =>
        f i * align + if i = m then size % align else 0)).map (·.length)).getLast? := by
      rw [List.getLast?_map]
      exact Option.mem_map_of_mem _ hr
    rw [hlen, hinit, List.getLast?_concat] at hmem
    have hlength : f m * align + size % align = r.length := Option.some.inj hmem
    rw [← hlength, Nat.mul_comm, Nat.mul_add_mod, Nat.mod_mod]
  · have hblocks : ∀ r ∈ layOut 0 ((List.range (m + 1)).map fun i =>
        f i * align + if i = m then size % align else 0), ∃ i, r.length / align = f i := by
      intro r hr
      have hmem := List.mem_map_of_mem (f := ByteRange.length) hr
      rw [hlen] at hmem
      obtain ⟨i, -, hi⟩ := List.mem_map.mp hmem
      refine ⟨i, ?_⟩
      rw [← hi, Nat.mul_comm, Nat.mul_add_div halign]
      split_ifs
      · rw [Nat.div_eq_of_lt hlt, Nat.add_zero]
      · rw [Nat.zero_div, Nat.add_zero]
    intro r hr r' hr'
    obtain ⟨i, hi⟩ := hblocks r hr
    obtain ⟨j, hj⟩ := hblocks r' hr'
    rw [hi, hj]
    exact hf i j

/-- **Aligned ranges consist of whole blocks**, but for the tail of the last one. -/
theorem splitRanges_aligned {size align : ℕ} {workers : ℤ} (halign : 1 < align)
    (hmany : 1 < (splitRanges size workers align).length) :
    AlignedRanges size align (splitRanges size workers align) := by
  have hw := workerCount_pos workers
  revert hmany
  unfold splitRanges
  dsimp only
  split_ifs with hone hle hpre
  · exact fun hmany => absurd hmany (lt_irrefl 1)
  · omega
  · exact fun hmany => absurd hmany (lt_irrefl 1)
  · intro _
    refine alignedRanges_layOut hw (by omega) fun i j => ?_
    split_ifs <;> omega

theorem splitRanges_offset_dvd {size align : ℕ} {workers : ℤ} (halign : 1 < align) {r : ByteRange}
    (hr : r ∈ splitRanges size workers align) : align ∣ r.offset := by
  rcases Nat.lt_or_ge 1 (splitRanges size workers align).length with hmany | hfew
  · exact (splitRanges_aligned halign hmany).offsets r hr
  · -- a single range starts at 0
    have hcovers := splitRanges_covers size workers align
    generalize splitRanges size workers align = rs at *
    match rs, hfew with
    | [r'], _ =>
      cases List.mem_singleton.mp hr
      rw [hcovers.1]
      exact Nat.dvd_zero align

/-- **`split_ranges` is an exact, balanced, aligned partition**, and a `direct`
    worker gets an offset that `feed_range` accepts. -/
theorem splitRanges_partition (size : ℕ) (workers : ℤ) (align : ℕ) (hsize : size < 2 ^ 64)
    (halign : 1 ≤ align) :
    splitRangesChecked size workers align = some (splitRanges size workers align) ∧
    let rs := splitRanges size workers align
    Covers 0 rs size ∧ (rs.map (·.length)).sum = size ∧
    (1 ≤ rs.length ∧ (rs.length : ℤ) ≤ max workers 1 ∧
      (size = 0 ∨ workers ≤ 1 ∨ size < align → rs.length = 1)) ∧
    (align = 1 → rs.Pairwise fun r r' => r'.length ≤ r.length ∧ r.length ≤ r'.length + 1) ∧
    (1 < align → 1 < rs.length → AlignedRanges size align rs) ∧
    ∀ m : Meta, m.io = "direct" → ∀ r ∈ launchRanges m, r.offset % kDirectAlign = 0 := by
  refine ⟨splitRanges_checked workers align hsize, ?_⟩
  intro rs
  have hcovers := splitRanges_covers size workers align
  refine ⟨hcovers, ?_, ⟨?_, ?_, length_splitRanges_one⟩, ?_, splitRanges_aligned,
    fun m hio r hr => ?_⟩
  · have hsum := hcovers.sum_length
    rwa [Nat.zero_add] at hsum
  · exact List.length_pos_iff.mpr (splitRanges_ne_nil size workers align)
  · exact length_splitRanges_le_max size workers align
  · rintro rfl
    exact splitRanges_even size workers
  · rw [launchRanges, hio, if_pos rfl] at hr
    exact Nat.mod_eq_zero_of_dvd (splitRanges_offset_dvd (by decide) hr)

/-- 8202 bytes for four workers in blocks of 4096: two blocks and a tail. -/
theorem splitRanges_partition_tail :
    splitRangesChecked 8202 4 4096 = some (splitRanges 8202 4 4096) ∧
    let rs := splitRanges 8202 4 4096
    Covers 0 rs 8202 ∧ (rs.map (·.length)).sum = 8202 ∧
    (1 ≤ rs.length ∧ (rs.length : ℤ) ≤ max 4 1 ∧
      (8202 = 0 ∨ (4 : ℤ) ≤ 1 ∨ 8202 < 4096 → rs.length = 1)) ∧
    (4096 = 1 → rs.Pairwise fun r r' => r'.length ≤ r.length ∧ r.length ≤ r'.length + 1) ∧
    (1 < 4096 → 1 < rs.length → AlignedRanges 8202 4096 rs) ∧
    ∀ m : Meta, m.io = "direct" → ∀ r ∈ launchRanges m, r.offset % kDirectAlign = 0 :=
  splitRanges_partition 8202 4 4096 (by norm_num) (by norm_num)

end Forge
