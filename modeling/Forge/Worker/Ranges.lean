import Forge.Store.Meta

/-!
# `split_ranges`

Model of forge.hpp:118-180. `size`, `align` and all offsets are `uint64_t`; no
sum below exceeds `size`, so they are natural numbers here.

* `splitRanges_covers`: the ranges lie end to end from 0 and fill `size`.
* `length_splitRanges_le`, `splitRanges_single`: how many there are.
-/

namespace Forge

/-- `struct ByteRange` (forge.hpp:118-121). -/
structure ByteRange where
  offset : ℕ
  length : ℕ
  deriving DecidableEq

/-- The bodies of the two `for` loops: `off` moves past each range laid out. -/
def layOut : ℕ → List ℕ → List ByteRange
  | _, [] => []
  | off, n :: ns => ⟨off, n⟩ :: layOut (off + n) ns

/-- `if (workers < 1) workers = 1` (forge.hpp:137-139). -/
def workerCount (workers : ℤ) : ℕ := (if workers < 1 then 1 else workers).toNat

theorem workerCount_pos (workers : ℤ) : 0 < workerCount workers := by
  unfold workerCount
  split_ifs <;> omega

theorem workerCount_eq {workers : ℤ} (h : 1 ≤ workers) : workerCount workers = workers.toNat := by
  rw [workerCount, if_neg (by omega)]

/-- `split_ranges` (forge.hpp:134-180). -/
def splitRanges (size : ℕ) (workers : ℤ) (align : ℕ) : List ByteRange :=
  let workers := workerCount workers
  if size = 0 ∨ workers = 1 then [⟨0, size⟩]
  else if align ≤ 1 then
    let base := size / workers
    let rem := size % workers
    layOut 0 ((List.range workers).map fun i => base + if i < rem then 1 else 0)
  else
    let pre := size - size % align
    if pre = 0 then [⟨0, size⟩]
    else
      let blocks := pre / align
      let baseBlocks := blocks / workers
      let remBlocks := blocks % workers
      layOut 0 ((List.range workers).map fun i =>
        (baseBlocks + if i < remBlocks then 1 else 0) * align +
          if i = workers - 1 then size - pre else 0)

/-- The ranges lie end to end from `off` to `stop`. -/
def Covers : ℕ → List ByteRange → ℕ → Prop
  | off, [], stop => off = stop
  | off, r :: rs, stop => r.offset = off ∧ Covers (off + r.length) rs stop

theorem layOut_covers (off : ℕ) (ns : List ℕ) : Covers off (layOut off ns) (off + ns.sum) := by
  induction ns generalizing off with
  | nil => simp [layOut, Covers]
  | cons n ns ih =>
    refine ⟨rfl, ?_⟩
    rw [List.sum_cons, ← Nat.add_assoc]
    exact ih (off + n)

theorem length_layOut (off : ℕ) (ns : List ℕ) : (layOut off ns).length = ns.length := by
  induction ns generalizing off with
  | nil => rfl
  | cons n ns ih => simp [layOut, ih]

/-- `n` shares of `total / n`, the first `total % n` of them one larger. -/
theorem sum_shares {n : ℕ} (hn : 0 < n) (total : ℕ) :
    ((List.range n).map fun i => total / n + if i < total % n then 1 else 0).sum = total := by
  have hsmall : ∀ k, ((List.range k).map fun i => if i < total % n then 1 else 0).sum =
      min k (total % n) := by
    intro k
    induction k with
    | zero => simp
    | succ k ih =>
      rw [List.range_succ, List.map_append, List.sum_append, ih, List.map_singleton,
        List.sum_singleton]
      split_ifs <;> omega
  have hmod := Nat.mod_lt total hn
  rw [List.sum_map_add, hsmall n, List.map_const', List.sum_replicate, List.length_range,
    Nat.min_eq_right hmod.le, smul_eq_mul]
  exact Nat.div_add_mod total n

/-- The last share alone gets the tail. -/
theorem sum_last {n tail : ℕ} (hn : 0 < n) :
    ((List.range n).map fun i => if i = n - 1 then tail else 0).sum = tail := by
  obtain ⟨m, rfl⟩ : ∃ m, n = m + 1 := ⟨n - 1, by omega⟩
  have hzero : ((List.range m).map fun i => if i = m + 1 - 1 then tail else 0).sum = 0 := by
    apply List.sum_eq_zero
    intro x hx
    obtain ⟨i, hi, rfl⟩ := List.mem_map.mp hx
    rw [if_neg (by have := List.mem_range.mp hi; omega)]
  rw [List.range_succ, List.map_append, List.sum_append, hzero, List.map_singleton,
    List.sum_singleton, if_pos (by omega), Nat.zero_add]

/-- **Covering.** The ranges fill `[0, size)` without gap or overlap. -/
theorem splitRanges_covers (size : ℕ) (workers : ℤ) (align : ℕ) :
    Covers 0 (splitRanges size workers align) size := by
  have hw := workerCount_pos workers
  unfold splitRanges
  generalize workerCount workers = n at *
  dsimp only
  split_ifs with _ halign hpre <;> try exact ⟨rfl, Nat.zero_add size⟩
  · conv => rhs; rw [← sum_shares hw size, ← Nat.zero_add (List.sum _)]
    exact layOut_covers 0 _
  · have hmod := Nat.mod_le size align
    have hdvd : (size - size % align) / align * align = size - size % align :=
      Nat.div_mul_cancel (Nat.dvd_sub_mod size)
    have hsum : ((List.range n).map fun i =>
        ((size - size % align) / align / n +
          if i < (size - size % align) / align % n then 1 else 0) * align +
          if i = n - 1 then size - (size - size % align) else 0).sum = size := by
      rw [List.sum_map_add, sum_last hw, List.sum_map_mul_right, sum_shares hw, hdvd]
      omega
    conv => rhs; rw [← hsum, ← Nat.zero_add (List.sum _)]
    exact layOut_covers 0 _

theorem splitRanges_single {size : ℕ} {align : ℕ} : splitRanges size 1 align = [⟨0, size⟩] := by
  simp [splitRanges, workerCount]

theorem length_splitRanges_le {size : ℕ} {workers : ℤ} {align : ℕ} (hw : 1 ≤ workers) :
    (splitRanges size workers align).length ≤ workers.toNat := by
  unfold splitRanges
  rw [workerCount_eq hw]
  dsimp only
  split_ifs <;> simp only [length_layOut, List.length_map, List.length_range, List.length_singleton,
    le_refl] <;> omega

theorem splitRanges_ne_nil (size : ℕ) (workers : ℤ) (align : ℕ) :
    splitRanges size workers align ≠ [] := by
  have hw := workerCount_pos workers
  rw [← List.length_pos_iff]
  unfold splitRanges
  dsimp only
  split_ifs <;> simp only [length_layOut, List.length_map, List.length_range, List.length_singleton,
    Nat.one_pos, hw]

/-! ## Reassembling -/

/-- The bytes of a range. -/
def slice (f : Bytes) (offset length : ℕ) : Bytes := (f.drop offset).take length

theorem Covers.le {rs : List ByteRange} {off stop : ℕ} (h : Covers off rs stop) : off ≤ stop := by
  induction rs generalizing off with
  | nil => exact le_of_eq h
  | cons r rs ih => exact (Nat.le_add_right off r.length).trans (ih h.2)

theorem Covers.mem {rs : List ByteRange} {off stop : ℕ} (h : Covers off rs stop) {r : ByteRange}
    (hr : r ∈ rs) : off ≤ r.offset ∧ r.offset + r.length ≤ stop := by
  induction rs generalizing off with
  | nil => cases hr
  | cons a rs ih =>
    obtain ⟨ha, hrest⟩ := h
    rcases List.mem_cons.mp hr with rfl | hr
    · exact ⟨ha.ge, by rw [ha]; exact hrest.le⟩
    · have := ih hrest hr
      exact ⟨(Nat.le_add_right _ _).trans this.1, this.2⟩

/-- **Reassembling.** The slices put together are the bytes from `off` to `stop`. -/
theorem Covers.flatten_slices {rs : List ByteRange} {off : ℕ} {f : Bytes}
    (h : Covers off rs f.length) :
    (rs.map fun r => slice f r.offset r.length).flatten = f.drop off := by
  induction rs generalizing off with
  | nil =>
    rw [h, List.drop_length]
    rfl
  | cons r rs ih =>
    obtain ⟨rfl, hrest⟩ := h
    rw [List.map_cons, List.flatten_cons, ih hrest, slice, ← List.drop_drop,
      List.take_append_drop]

theorem Covers.sum_length {rs : List ByteRange} {off stop : ℕ} (h : Covers off rs stop) :
    off + (rs.map (·.length)).sum = stop := by
  induction rs generalizing off with
  | nil => exact h
  | cons r rs ih =>
    rw [List.map_cons, List.sum_cons, ← Nat.add_assoc]
    exact ih h.2

end Forge
