import Mathlib.Logic.Function.Basic
import Mathlib.Logic.Relation
import Mathlib.Data.Set.Subsingleton

/-!
# The start gate

Model of `wait_for_start_gate` and `open_start_gate` (worker.cpp:487-514,
584-588) over the two backends (os/linux/platform.cpp:260-269,
os/mac/platform.cpp:252-272). The workers, indexed by any type, and the parent
take one step at a time: a load, a compare-and-sleep, a return from sleep, the
store, the wake call.

* `gate_opens`: when the parent makes its wake call, nobody is ever left asleep
  exactly if the backend wakes every sleeper or at most one worker sleeps.
* `gate_lost_wakeup`: on macOS a second sleeper is left asleep until its timeout.
-/

namespace Forge

/-! ## Model -/

/-- The directories of os/. -/
inductive Backend where
  | linux
  | mac
  deriving DecidableEq

def gateTimeout : String := "start gate was not opened within 30s"

/-- Where a worker is in `wait_for_start_gate` (worker.cpp:487-514). -/
inductive Waiter where
  /-- Before the load of the gate. -/
  | load
  /-- It has loaded something else than 1. -/
  | wait
  | asleep
  /-- A wake has been delivered, and the call has not returned. -/
  | woken
  | passed
  | failed (err : String)
  | killed
  deriving DecidableEq

/-- Where the parent is in `open_start_gate` (worker.cpp:584-588). -/
inductive Opener where
  | before
  | stored
  | opened
  deriving DecidableEq

structure GateState (ι : Type*) where
  gate : ℕ
  opener : Opener
  waiter : ι → Waiter

namespace GateState

variable {ι : Type*}

/-- The region is zeroed before the fork. -/
def start : GateState ι := ⟨0, .before, fun _ => .load⟩

def move [DecidableEq ι] (s : GateState ι) (i : ι) (w : Waiter) : GateState ι :=
  { s with waiter := Function.update s.waiter i w }

/-- The workers that sleep on the gate without a wake on its way. -/
def sleepers (s : GateState ι) : Set ι := {i | s.waiter i = .asleep}

end GateState

variable {ι : Type*} [DecidableEq ι]

/-- `futex_wake`: `FUTEX_WAKE` with `INT_MAX` wakes every sleeper,
    `os_sync_wake_by_address_any` wakes one if there is one. -/
inductive Backend.Wakes : Backend → (ι → Waiter) → (ι → Waiter) → Prop
  | all {w : ι → Waiter} :
      Wakes .linux w fun i => if w i = .asleep then .woken else w i
  | one {w : ι → Waiter} {i : ι} (h : w i = .asleep) :
      Wakes .mac w (Function.update w i .woken)
  | nobody {w : ι → Waiter} (h : ∀ i, w i ≠ .asleep) : Wakes .mac w w

/-- A step of a worker or of the parent. -/
inductive GateStep (b : Backend) : GateState ι → GateState ι → Prop
  | pass {s : GateState ι} {i : ι} (h : s.waiter i = .load) (hgate : s.gate = 1) :
      GateStep b s (s.move i .passed)
  | closed {s : GateState ι} {i : ι} (h : s.waiter i = .load) (hgate : s.gate ≠ 1) :
      GateStep b s (s.move i .wait)
  -- `futex_wait(&gate, 0, …)` compares and sleeps in one step
  | sleep {s : GateState ι} {i : ι} (h : s.waiter i = .wait) (hgate : s.gate = 0) :
      GateStep b s (s.move i .asleep)
  | again {s : GateState ι} {i : ι} (h : s.waiter i = .wait) (hgate : s.gate ≠ 0) :
      GateStep b s (s.move i .load)
  | resume {s : GateState ι} {i : ι} (h : s.waiter i = .woken) : GateStep b s (s.move i .load)
  -- a signal or a spurious wake
  | interrupt {s : GateState ι} {i : ι} (h : s.waiter i = .asleep) :
      GateStep b s (s.move i .load)
  | timeout {s : GateState ι} {i : ι} (h : s.waiter i = .asleep) :
      GateStep b s (s.move i (.failed gateTimeout))
  -- any other errno; on macOS also a positive number of remaining sleepers
  | refuse {s : GateState ι} {i : ι} {errno : String} (h : s.waiter i = .wait ∨ s.waiter i = .woken) :
      GateStep b s (s.move i (.failed ("futex wait: " ++ errno)))
  | kill {s : GateState ι} {i : ι} : GateStep b s (s.move i .killed)
  | store {s : GateState ι} (h : s.opener = .before) :
      GateStep b s { s with gate := 1, opener := .stored }
  | wake {s : GateState ι} {w : ι → Waiter} (h : s.opener = .stored) (hwake : b.Wakes s.waiter w) :
      GateStep b s { s with opener := .opened, waiter := w }

/-- What can happen after `s`. -/
abbrev GateRun (b : Backend) : GateState ι → GateState ι → Prop :=
  Relation.ReflTransGen (GateStep b)

/-! ## The gate never closes -/

/-- The parent has stored 1 before it makes the wake call. -/
def GateState.Stored (s : GateState ι) : Prop := s.opener ≠ .before → s.gate = 1

theorem GateStep.stored {b : Backend} {s s' : GateState ι} (h : GateStep b s s')
    (hs : s.Stored) : s'.Stored := by
  cases h with
  | store => exact fun _ => rfl
  | wake hopener => exact fun _ => hs (by simp [hopener])
  | _ => exact hs

theorem stored_of_run {b : Backend} {s : GateState ι} (h : GateRun b .start s) : s.Stored := by
  induction h with
  | refl => exact fun h => absurd rfl h
  | tail _ hstep ih => exact hstep.stored ih

/-- Nobody sleeps on an open gate. -/
structure GateState.Awake (s : GateState ι) : Prop where
  gate : s.gate = 1
  opened : s.opener = .opened
  waiter : ∀ i, s.waiter i ≠ .asleep

theorem GateState.Awake.move {s : GateState ι} (h : s.Awake) {i : ι} {w : Waiter}
    (hw : w ≠ .asleep) : (s.move i w).Awake := by
  refine ⟨h.gate, h.opened, fun j => ?_⟩
  unfold GateState.move
  by_cases hj : j = i
  · subst hj
    simpa using hw
  · simpa [Function.update_of_ne hj] using h.waiter j

/-- A worker that is not at the gate's timeout before a move is not there after it. -/
theorem GateState.move_timeout {s : GateState ι} {i j : ι} {w : Waiter}
    (hw : w ≠ .failed gateTimeout) (h : (s.move i w).waiter j = .failed gateTimeout) :
    s.waiter j = .failed gateTimeout := by
  unfold GateState.move at h
  by_cases hj : j = i
  · subst hj
    simp only [Function.update_self] at h
    exact absurd h hw
  · simpa [Function.update_of_ne hj] using h

/-- **Step.** Once nobody sleeps on the open gate, nobody will, and nobody times out. -/
theorem GateStep.awake {b : Backend} {s s' : GateState ι} (h : GateStep b s s') (hs : s.Awake) :
    s'.Awake ∧
      ∀ i, s'.waiter i = .failed gateTimeout → s.waiter i = .failed gateTimeout := by
  cases h with
  | sleep _ hgate => exact absurd (hs.gate.symm.trans hgate) (by decide)
  | interrupt h => exact absurd h (hs.waiter _)
  | timeout h => exact absurd h (hs.waiter _)
  | store h => exact absurd (hs.opened.symm.trans h) (by decide)
  | wake h => exact absurd (hs.opened.symm.trans h) (by decide)
  | refuse h =>
    refine ⟨hs.move (by simp), fun i => GateState.move_timeout fun heq => ?_⟩
    have htext := congrArg String.toList (Waiter.failed.inj heq)
    simp [gateTimeout, String.toList_append] at htext
  | _ => exact ⟨hs.move (by simp), fun i => GateState.move_timeout (by simp)⟩

/-- **Run.** -/
theorem awake_of_run {b : Backend} {s t : GateState ι} (hs : s.Awake) (h : GateRun b s t) :
    t.Awake ∧ ∀ i, t.waiter i = .failed gateTimeout → s.waiter i = .failed gateTimeout := by
  induction h with
  | refl => exact ⟨hs, fun _ h => h⟩
  | tail _ hstep ih =>
    obtain ⟨hawake, hback⟩ := hstep.awake ih.1
    exact ⟨hawake, fun i h => ih.2 i (hback i h)⟩

/-! ## The wake call -/

/-- The wake call reaches every sleeper exactly when the backend wakes all of
    them or there is at most one. -/
theorem Backend.Wakes.all_awake {b : Backend} {w w' : ι → Waiter} (h : b.Wakes w w') :
    (∀ i, w' i ≠ .asleep) ↔ b = .linux ∨ {i | w i = .asleep}.Subsingleton := by
  cases h with
  | all =>
    refine ⟨fun _ => Or.inl rfl, fun _ i => ?_⟩
    dsimp only
    split_ifs with hi
    · simp
    · exact hi
  | @one _ i hi =>
    constructor
    · intro hall
      right
      have honly : ∀ j, w j = .asleep → j = i := by
        intro j hj
        by_contra hne
        have hstill := hall j
        rw [Function.update_of_ne hne] at hstill
        exact hstill hj
      intro j hj k hk
      exact (honly j hj).trans (honly k hk).symm
    · rintro (hlinux | hsub) j
      · cases hlinux
      · by_cases hj : j = i
        · subst hj
          simp
        · rw [Function.update_of_ne hj]
          exact fun hjasleep => hj (hsub hjasleep hi)
  | nobody h =>
    refine ⟨fun _ => Or.inr ?_, fun _ => h⟩
    intro i hi
    exact absurd hi (h i)

/-- **No lost wakeup.** Nobody is asleep in any state after the parent's wake
    call, and nobody times out there, exactly when the backend wakes every sleeper
    or at most one worker slept on the gate. -/
theorem gate_opens {b : Backend} {s s' : GateState ι} (hrun : GateRun b .start s)
    (hstored : s.opener = .stored) (hwake : GateStep b s s') (hopened : s'.opener = .opened) :
    (∀ t, GateRun b s' t → (∀ i, t.waiter i ≠ .asleep) ∧
        ∀ i, t.waiter i = .failed gateTimeout → s'.waiter i = .failed gateTimeout) ↔
      b = .linux ∨ s.sleepers.Subsingleton := by
  have hgate := stored_of_run hrun (by simp [hstored])
  cases hwake with
  | @wake w _ hwakes =>
    rw [GateState.sleepers, ← hwakes.all_awake]
    constructor
    · exact fun h => (h _ .refl).1
    · intro hall t ht
      have hs' : GateState.Awake ⟨s.gate, .opened, w⟩ := ⟨hgate, rfl, hall⟩
      obtain ⟨hawake, hback⟩ := awake_of_run hs' ht
      exact ⟨hawake.waiter, hback⟩
  | store h => exact absurd (hstored.symm.trans h) (by decide)
  | _ => exact absurd (hstored.symm.trans hopened) (by decide)

/-- Two workers asleep when the parent has stored 1. -/
def twoAsleep : GateState Bool := ⟨1, .stored, fun _ => .asleep⟩

theorem gateRun_twoAsleep (b : Backend) : GateRun b .start twoAsleep := by
  have hfirst : GateRun b .start ((GateState.start.move true .wait).move true .asleep) :=
    (Relation.ReflTransGen.single (.closed rfl (by decide))).tail (.sleep rfl rfl)
  have hsecond := (hfirst.tail (.closed (i := false) rfl (by decide))).tail (.sleep (i := false) rfl rfl)
  convert hsecond.tail (.store rfl) using 1
  unfold twoAsleep
  congr 1
  funext i
  cases i <;> rfl

theorem gate_opens_linux :
    let opened : GateState Bool := ⟨1, .opened, fun _ => .woken⟩
    (∀ t, GateRun .linux opened t → (∀ i, t.waiter i ≠ .asleep) ∧
        ∀ i, t.waiter i = .failed gateTimeout → opened.waiter i = .failed gateTimeout) ↔
      Backend.linux = .linux ∨ twoAsleep.sleepers.Subsingleton :=
  gate_opens (gateRun_twoAsleep .linux) rfl (.wake rfl .all) rfl

/-- **A lost wakeup.** On macOS the wake call reaches one of two sleepers; the
    other one times out, although the gate is open. -/
theorem gate_lost_wakeup :
    ∃ opened late : GateState Bool, GateRun .mac .start opened ∧ opened.opener = .opened ∧
      opened.waiter false = .asleep ∧ GateStep .mac opened late ∧
      late.waiter false = .failed gateTimeout := by
  refine ⟨_, _, (gateRun_twoAsleep .mac).tail (.wake rfl (.one (i := true) rfl)), rfl, rfl,
    .timeout (i := false) rfl, rfl⟩

end Forge
