import Mathlib.Data.List.Basic
import Mathlib.Tactic.Ring

/-!
# Folding a function over the fixed-size blocks of a stream

An iterated compression function sees its input only in blocks of `n`
elements. A streaming implementation keeps a chaining state and a buffer of
fewer than `n` pending elements, and is handed the input in pieces of any size.

Main results:

* `foldBlocks_append`: blocks are folded left to right, so a prefix made of
  whole blocks can be folded first.
* `Absorbed`: the relation between everything fed so far and the pair (chaining
  state, pending buffer); `Absorbed.append` and `Absorbed.block` are its two
  step rules, `Absorbed.finish` reads the result off when no element is
  pending.
-/

namespace BlockFold

variable {σ α : Type*} {n : ℕ} {f : σ → List α → σ}

/-- Fold `f` over the consecutive blocks of `n` elements of `l`. A shorter tail
    is ignored. -/
def foldBlocks (n : ℕ) (f : σ → List α → σ) (s : σ) (l : List α) : σ :=
  if _h : 0 < n ∧ n ≤ l.length then foldBlocks n f (f s (l.take n)) (l.drop n) else s
termination_by l.length
decreasing_by simp only [List.length_drop]; omega

theorem foldBlocks_short (s : σ) {l : List α} (h : l.length < n) : foldBlocks n f s l = s := by
  rw [foldBlocks, dif_neg (by omega)]

theorem foldBlocks_block (hn : 0 < n) (s : σ) {b : List α} (hb : b.length = n) (l : List α) :
    foldBlocks n f s (b ++ l) = foldBlocks n f (f s b) l := by
  rw [foldBlocks, dif_pos (by simp; omega)]
  simp [← hb]

/-- A prefix of whole blocks is folded first. -/
theorem foldBlocks_append (hn : 0 < n) (k : ℕ) :
    ∀ (s : σ) (p l : List α), p.length = k * n →
      foldBlocks n f s (p ++ l) = foldBlocks n f (foldBlocks n f s p) l := by
  induction k with
  | zero =>
    intro s p l hp
    have : p = [] := List.length_eq_zero_iff.mp (by simpa using hp)
    subst this
    rw [foldBlocks_short (l := []) s (by simpa using hn), List.nil_append]
  | succ k ih =>
    intro s p l hp
    have hlen : n ≤ p.length := by rw [hp, Nat.succ_mul]; omega
    have hb : (p.take n).length = n := by simp; omega
    have hd : (p.drop n).length = k * n := by rw [List.length_drop, hp, Nat.succ_mul]; omega
    rw [← List.take_append_drop n p, List.append_assoc, foldBlocks_block hn _ hb,
      foldBlocks_block hn _ hb, ih _ _ _ hd]

/-- After `m` has been fed to a streaming fold started in `s₀`, the chaining
    state is `s` and `buf` is pending: `m` is a sequence of whole blocks, folded
    into `s`, followed by the incomplete block `buf`. -/
structure Absorbed (n : ℕ) (f : σ → List α → σ) (s₀ : σ) (m : List α) (s : σ) (buf : List α) :
    Prop where
  pending_lt : buf.length < n
  split : ∃ whole k, m = whole ++ buf ∧ whole.length = k * n ∧ s = foldBlocks n f s₀ whole

namespace Absorbed

variable {s₀ s : σ} {m buf : List α}

theorem nil (hn : 0 < n) (s₀ : σ) : Absorbed n f s₀ [] s₀ [] :=
  ⟨hn, [], 0, rfl, by simp, (foldBlocks_short s₀ (by simpa using hn)).symm⟩

/-- A piece that does not complete the pending block is only buffered. -/
theorem append (h : Absorbed n f s₀ m s buf) {piece : List α}
    (hlt : buf.length + piece.length < n) : Absorbed n f s₀ (m ++ piece) s (buf ++ piece) := by
  obtain ⟨whole, k, rfl, hw, rfl⟩ := h.split
  exact ⟨by simpa using hlt, whole, k, by simp, hw, rfl⟩

/-- A piece that completes the pending block lets `f` consume it. -/
theorem block (h : Absorbed n f s₀ m s buf) {piece : List α}
    (heq : buf.length + piece.length = n) :
    Absorbed n f s₀ (m ++ piece) (f s (buf ++ piece)) [] := by
  obtain ⟨whole, k, rfl, hw, rfl⟩ := h.split
  have hn : 0 < n := by have := h.pending_lt; omega
  have hb : (buf ++ piece).length = n := by simpa using heq
  refine ⟨hn, whole ++ (buf ++ piece), k + 1, by simp, ?_, ?_⟩
  · rw [List.length_append, hw, hb]; ring
  · have hblock := foldBlocks_block (f := f) hn (foldBlocks n f s₀ whole) hb []
    rw [List.append_nil, foldBlocks_short (l := []) _ (by simpa using hn)] at hblock
    rw [foldBlocks_append hn k _ _ _ hw, hblock]

/-- The number of pending elements is the length of the input modulo `n`. -/
theorem pending_length (h : Absorbed n f s₀ m s buf) : buf.length = m.length % n := by
  obtain ⟨whole, k, rfl, hw, -⟩ := h.split
  rw [List.length_append, hw, Nat.mul_comm, Nat.mul_add_mod, Nat.mod_eq_of_lt h.pending_lt]

/-- With nothing pending, the chaining state is the fold over the whole input. -/
theorem finish (h : Absorbed n f s₀ m s []) : s = foldBlocks n f s₀ m := by
  obtain ⟨whole, k, rfl, -, rfl⟩ := h.split
  rw [List.append_nil]

end Absorbed

end BlockFold
