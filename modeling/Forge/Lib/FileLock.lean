import Mathlib.Data.Finset.Image
import Mathlib.Data.Finset.Prod

/-!
# Exclusive locks on open files

A lock that belongs to an open file description, as flock(2) has it, and not to
a process. After a fork two processes have the same description open, and the
lock is dropped when the last of them has closed it.

* `Table.owner_eq_none_iff`: the lock is free if and only if nobody has it.
* `Table.holds_opened`, `Table.holds_forked`, `Table.holds_closed`, `Table.holds_flock`: who
  has it after a call.
-/

namespace FileLock

variable {P D : Type*}

/-- Which process has which description open, and the description that has the lock. -/
@[ext] structure Table (P D : Type*) where
  refs : Finset (P × D)
  owner : Option D
  held : ∀ d, owner = some d → ∃ p, (p, d) ∈ refs

namespace Table

/-- The process has the lock, by itself or with others. -/
def Holds (t : Table P D) (p : P) : Prop := ∃ d, t.owner = some d ∧ (p, d) ∈ t.refs

variable {t : Table P D} {p q : P} {d : D}

/-- **The lock is free if and only if nobody has it.** -/
theorem owner_eq_none_iff : t.owner = none ↔ ∀ p, ¬ t.Holds p := by
  constructor
  · rintro hnone p ⟨d, howner, -⟩
    cases hnone.symm.trans howner
  · intro hall
    cases howner : t.owner with
    | none => rfl
    | some d =>
      obtain ⟨p, hp⟩ := t.held d howner
      exact absurd ⟨d, howner, hp⟩ (hall p)

/-- Nobody has opened the file. -/
def empty : Table P D := ⟨∅, none, by simp⟩

variable [DecidableEq P] [DecidableEq D]

/-- `p` opens the file, which makes the description `d`. -/
def opened (t : Table P D) (p : P) (d : D) : Table P D where
  refs := insert (p, d) t.refs
  owner := t.owner
  held := fun d' howner => (t.held d' howner).imp fun _ hp => Finset.mem_insert_of_mem hp

/-- `q` is a copy of `p`. -/
def forked (t : Table P D) (p q : P) : Table P D where
  refs := t.refs ∪ (t.refs.filter (·.1 = p)).image fun r => (q, r.2)
  owner := t.owner
  held := fun d howner => (t.held d howner).imp fun _ hp => Finset.mem_union_left _ hp

/-- Only what satisfies `keep` stays open. -/
def keep (t : Table P D) (keep : P × D → Bool) : Table P D where
  refs := t.refs.filter fun r => keep r
  owner := t.owner.filter fun d => d ∈ (t.refs.filter fun r => keep r).image Prod.snd
  held := by
    intro d howner
    rw [Option.filter_eq_some_iff, decide_eq_true_eq, Finset.mem_image] at howner
    obtain ⟨-, ⟨p, d'⟩, hmem, rfl⟩ := howner
    exact ⟨p, hmem⟩

/-- `p` closes the file, or ends. -/
def closed (t : Table P D) (p : P) : Table P D := t.keep fun r => r.1 ≠ p

/-- `flock(d, LOCK_EX | LOCK_NB)`. It fails if another description has the lock, and does
    nothing if nobody has `d` open. -/
def flock (t : Table P D) (d : D) : Table P D :=
  if h : t.owner = none ∧ d ∈ t.refs.image Prod.snd then
    { refs := t.refs
      owner := some d
      held := by
        rintro d' ⟨⟩
        obtain ⟨⟨p, d'⟩, hmem, rfl⟩ := Finset.mem_image.mp h.2
        exact ⟨p, hmem⟩ }
  else t

@[simp] theorem mem_opened {r : P × D} : r ∈ (t.opened p d).refs ↔ r = (p, d) ∨ r ∈ t.refs :=
  Finset.mem_insert

@[simp] theorem mem_forked {r : P × D} :
    r ∈ (t.forked p q).refs ↔ r ∈ t.refs ∨ (r.1 = q ∧ (p, r.2) ∈ t.refs) := by
  obtain ⟨a, d⟩ := r
  simp only [forked, Finset.mem_union, Finset.mem_image, Finset.mem_filter, Prod.mk.injEq,
    Prod.exists]
  constructor
  · rintro (hmem | ⟨b, d', ⟨hmem, rfl⟩, rfl, rfl⟩)
    · exact Or.inl hmem
    · exact Or.inr ⟨rfl, hmem⟩
  · rintro (hmem | ⟨rfl, hmem⟩)
    · exact Or.inl hmem
    · exact Or.inr ⟨p, d, ⟨hmem, rfl⟩, rfl, rfl⟩

@[simp] theorem mem_closed {r : P × D} : r ∈ (t.closed p).refs ↔ r ∈ t.refs ∧ r.1 ≠ p := by
  simp [closed, keep]

theorem owner_of_closed (h : (t.closed p).owner = some d) : t.owner = some d :=
  (Option.filter_eq_some_iff.mp h).1

omit [DecidableEq P] in
theorem flock_owner (hfree : t.owner = none) (hd : (p, d) ∈ t.refs) :
    (t.flock d).owner = some d := by
  unfold flock
  rw [dif_pos ⟨hfree, Finset.mem_image.mpr ⟨(p, d), hd, rfl⟩⟩]

omit [DecidableEq P] in
@[simp] theorem flock_refs : (t.flock d).refs = t.refs := by
  unfold flock
  split_ifs <;> rfl

theorem holds_opened (hd : t.owner ≠ some d) : (t.opened p d).Holds q ↔ t.Holds q := by
  refine exists_congr fun d' => and_congr_right fun howner => ?_
  rw [mem_opened, or_iff_right]
  rintro ⟨⟩
  exact hd howner

theorem holds_forked {r : P} : (t.forked p q).Holds r ↔ t.Holds r ∨ (r = q ∧ t.Holds p) := by
  constructor
  · rintro ⟨d, howner, hmem⟩
    rcases mem_forked.mp hmem with hold | ⟨heq, hnew⟩
    · exact Or.inl ⟨d, howner, hold⟩
    · exact Or.inr ⟨heq, d, howner, hnew⟩
  · rintro (⟨d, howner, hmem⟩ | ⟨rfl, d, howner, hmem⟩)
    · exact ⟨d, howner, mem_forked.mpr (Or.inl hmem)⟩
    · exact ⟨d, howner, mem_forked.mpr (Or.inr ⟨rfl, hmem⟩)⟩

/-- Closing takes the lock from the process, and from nobody else. -/
theorem holds_closed : (t.closed p).Holds q ↔ t.Holds q ∧ q ≠ p := by
  constructor
  · rintro ⟨d, howner, hmem⟩
    obtain ⟨hmem, hne⟩ := mem_closed.mp hmem
    exact ⟨⟨d, owner_of_closed howner, hmem⟩, hne⟩
  · rintro ⟨⟨d, howner, hmem⟩, hne⟩
    have hleft : (q, d) ∈ (t.closed p).refs := mem_closed.mpr ⟨hmem, hne⟩
    refine ⟨d, Option.filter_eq_some_iff.mpr ⟨howner, ?_⟩, hleft⟩
    exact decide_eq_true (Finset.mem_image.mpr ⟨(q, d), hleft, rfl⟩)

omit [DecidableEq P] in
/-- A free lock goes to those who have the description open. -/
theorem holds_flock (hfree : t.owner = none) (hd : (p, d) ∈ t.refs) :
    (t.flock d).Holds q ↔ (q, d) ∈ t.refs := by
  have howner := flock_owner hfree hd
  constructor
  · rintro ⟨d', howner', hmem⟩
    cases howner.symm.trans howner'
    rwa [flock_refs] at hmem
  · intro hmem
    exact ⟨d, howner, by rwa [flock_refs]⟩

end Table

end FileLock
