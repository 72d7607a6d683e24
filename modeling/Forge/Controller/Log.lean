import Forge.Controller.State
import Forge.Lib.History

/-!
# Reading the log

What the readings of a log (`disk`, `launches`, `forks`, `status`, …) say after
effects have been added to it, and after the controller has died.

* `disk_id`: the record of an id carries that id.
* `mem_launches_suffix`, `reaped_cons`: what has happened stays.
-/

namespace Forge

namespace Log

variable {log log' : Log}

/-- Every record that someone else writes carries its directory's id. -/
def IdsMatch (log : Log) : Prop := ∀ id m, Effect.record id m ∈ log → m.id = id

/-- The record of an id carries it, if no one else has put another one there. -/
theorem disk_id_of {id : ℕ} (h : ∀ m, Effect.record id m ∈ log → m.id = id) {m : Meta}
    (hdisk : log.disk id = some m) : m.id = id := by
  induction log with
  | nil => cases hdisk
  | cons e log ih =>
    have hlog : ∀ m', Effect.record id m' ∈ log → m'.id = id :=
      fun m' hm' => h m' (List.mem_cons_of_mem e hm')
    cases e with
    | record i m' =>
      rw [disk] at hdisk
      split_ifs at hdisk with hi
      · cases hdisk
        subst hi
        exact h m List.mem_cons_self
      · exact ih hlog hdisk
    | save j m' =>
      rw [disk] at hdisk
      split_ifs at hdisk with hi
      · cases hdisk
        exact hi
      · exact ih hlog hdisk
    | _ => exact ih hlog hdisk

theorem disk_id (h : log.IdsMatch) {id : ℕ} {m : Meta} (hdisk : log.disk id = some m) :
    m.id = id := disk_id_of (h id) hdisk

theorem disk_save (j : ℕ) (m : Meta) (log : Log) : disk (.save j m :: log) m.id = some m :=
  if_pos rfl

theorem disk_save_ne {j : ℕ} {m : Meta} {id : ℕ} (h : m.id ≠ id) (log : Log) :
    disk (.save j m :: log) id = disk log id := if_neg h

/-! ## Signals -/

/-- The effect is a signal, which no reading of the log looks at. -/
def IsSignal : Effect → Prop
  | .kill _ _ _ => True
  | .leftover _ _ => True
  | _ => False

/-- A property of logs that signals do not change. -/
theorem signals_append {α : Type*} {f : Log → α}
    (hf : ∀ e log, IsSignal e → f (e :: log) = f log) {es : List Effect}
    (hes : ∀ e ∈ es, IsSignal e) (log : Log) : f (es ++ log) = f log := by
  induction es with
  | nil => rfl
  | cons e es ih =>
    rw [List.cons_append, hf e _ (hes e List.mem_cons_self)]
    exact ih fun e' he' => hes e' (List.mem_cons_of_mem e he')

theorem forks_signal {e : Effect} (h : IsSignal e) (log : Log) : forks (e :: log) = forks log := by
  cases e <;> first | rfl | cases h

/-! ## Records and launches -/

/-- The record of the id is in a terminal state. -/
def Terminal (log : Log) (id : ℕ) : Prop :=
  ∃ m, log.disk id = some m ∧ isTerminalState m.state = true

/-- A worker has been forked for the id, by this controller or an earlier one. -/
def Launched (log : Log) (id : ℕ) : Prop := ∃ l ∈ log.launches, l.id = id

/-- The effect changes neither a record nor the set of launches. -/
def IsQuiet : Effect → Prop
  | .record _ _ => False
  | .save _ _ => False
  | .fork _ => False
  | _ => True

theorem disk_quiet {e : Effect} (h : IsQuiet e) (log : Log) (id : ℕ) :
    disk (e :: log) id = disk log id := by
  cases e <;> first | rfl | cases h

theorem launches_quiet {e : Effect} (h : IsQuiet e) (log : Log) :
    launches (e :: log) = launches log := by
  cases e <;> first | rfl | cases h

theorem IsSignal.quiet {e : Effect} (h : IsSignal e) : IsQuiet e := by
  cases e <;> trivial

theorem disk_quiets {es : List Effect} (h : ∀ e ∈ es, IsQuiet e) (log : Log) (id : ℕ) :
    disk (es ++ log) id = disk log id := by
  induction es with
  | nil => rfl
  | cons e es ih =>
    rw [List.cons_append, disk_quiet (h e List.mem_cons_self)]
    exact ih fun e' he' => h e' (List.mem_cons_of_mem e he')

theorem launches_quiets {es : List Effect} (h : ∀ e ∈ es, IsQuiet e) (log : Log) :
    launches (es ++ log) = launches log := by
  induction es with
  | nil => rfl
  | cons e es ih =>
    rw [List.cons_append, launches_quiet (h e List.mem_cons_self)]
    exact ih fun e' he' => h e' (List.mem_cons_of_mem e he')

/-! ## What stays -/

theorem reaped_cons {e : Effect} {child : ℕ} (h : log.Reaped child) :
    Reaped (e :: log) child := List.mem_cons_of_mem e h

theorem mem_launches_cons {e : Effect} {l : Launch} (h : l ∈ log.launches) :
    l ∈ launches (e :: log) := by
  cases e <;> first | exact h | exact List.mem_cons_of_mem _ h

theorem mem_launches_suffix (h : log <:+ log') {l : Launch} (hl : l ∈ log.launches) :
    l ∈ log'.launches := by
  obtain ⟨new, rfl⟩ := h
  induction new with
  | nil => exact hl
  | cons e new ih => exact mem_launches_cons ih

theorem fork_of_mem_launches {l : Launch} (h : l ∈ log.launches) : Effect.fork l ∈ log := by
  induction log with
  | nil => cases h
  | cons e log ih =>
    cases e with
    | fork l' =>
      rcases List.mem_cons.mp h with rfl | h
      · exact List.mem_cons_self
      · exact List.mem_cons_of_mem _ (ih h)
    | _ => exact List.mem_cons_of_mem _ (ih h)

theorem forks_subset {l : Launch} (h : l ∈ log.forks) : l ∈ log.launches := by
  induction log with
  | nil => cases h
  | cons e log ih =>
    cases e with
    | fork l' =>
      rcases List.mem_cons.mp h with rfl | h
      · exact List.mem_cons_self
      · exact List.mem_cons_of_mem l' (ih h)
    | died => cases h
    | _ => exact ih h

end Log

end Forge
