import Forge.Controller.Attribution
import Forge.Controller.Effects
import Forge.Controller.Publication
import Forge.Controller.Scheduling
import Forge.Controller.Shutdown
import Forge.Controller.Tokens

/-!
# What the controller sleeps on

`loop` (controller.cpp:842-891) sleeps in `epoll_wait` without a timeout, and is
woken by signals that do not queue: SIGCHLD for any number of children, SIGTERM
and SIGINT. `Poller::wait` (os/linux/platform.cpp:158-193) takes one of them at a
time, and `reap` (controller.cpp:257-275) takes all children that have ended.
Children end at any moment, also between two turns of that loop.

* `Follows.does`: a child that has ended has raised SIGCHLD.
* `Watchful.step`: a signal that matters is pending, or on its way to its handler.
* `nothing_missed`: how things stand when the controller sleeps.
-/

namespace Forge

variable {o : Oracle}

/-! ## Model -/

def sigint : ℕ := 2

def sigchld : ℕ := 17

/-- `supervisor_mask` (os/linux/platform.cpp:38-43). -/
def supervisorMask : Finset ℕ := {sigchld, sigterm, sigint}

/-- A `read` of the signalfd takes the lowest of the pending signals. -/
def takeSignal (pending : Finset ℕ) : Option (ℕ × Finset ℕ) :=
  if h : pending.Nonempty then some (pending.min' h, pending.erase (pending.min' h)) else none

structure WaitEvent where
  token : ℕ
  signo : ℕ
  deriving DecidableEq

/-- The loop of `Poller::wait` over what `epoll_wait` has returned
    (os/linux/platform.cpp:169-192). -/
def waitEvents (pending : Finset ℕ) : List ℕ → List WaitEvent × Finset ℕ
  | [] => ([], pending)
  | token :: tokens =>
    if token = packWake .signal 0 then
      match takeSignal pending with
      | none => waitEvents pending tokens
      | some (signo, pending) =>
        (⟨token, signo⟩ :: (waitEvents pending tokens).1, (waitEvents pending tokens).2)
    else (⟨token, 0⟩ :: (waitEvents pending tokens).1, (waitEvents pending tokens).2)

/-- Where the loop is. -/
inductive LoopPhase where
  /-- In `epoll_wait`. -/
  | waiting
  /-- The events that are left of this turn. -/
  | handling (events : List WaitEvent)
  /-- In the loop of `reap`. -/
  | reaping (events : List WaitEvent)
  | returned (code : ℕ)
  deriving DecidableEq

/-- Whether `wait` has returned any events (controller.cpp:861). -/
def LoopPhase.turn (events : List WaitEvent) : LoopPhase :=
  if events.isEmpty then .waiting else .handling events

/-- The workers that have ended and not been reaped. -/
def World.zombies (w : World) : List Launch :=
  w.log.forks.filter fun l => (w.log.status l.child).isSome && !w.log.Reaped l.child

def Effect.isExit : Effect → Bool
  | .exit _ _ => true
  | _ => false

def Log.exits (log : Log) : ℕ := List.countP Effect.isExit log

/-- The controller, the signals that are pending in the signalfd, and whether it has been sent
    SIGTERM or SIGINT. -/
structure EventLoop where
  world : World
  pending : Finset ℕ
  phase : LoopPhase
  asked : Bool

inductive LoopEvent where
  /-- What a worker or a client does. -/
  | outside (input : { input : Input // input.outside = true })
  | signal (signo : ℕ)
  /-- `epoll_wait` returns these tokens. -/
  | wakes (tokens : List ℕ)
  | waitFails
  /-- The next event of the turn; `lines` are those that `on_fifo` reads. -/
  | next (lines : List (List Char))
  /-- `waitid` returns a child, or none. -/
  | waitid (child : Option ℕ)

namespace EventLoop

/-- The input is handled. A child that ends raises SIGCHLD. -/
def does (o : Oracle) (s : EventLoop) (input : Input) : EventLoop :=
  let w := handle o s.world input
  { s with
    world := w
    pending := if s.world.log.exits < w.log.exits then insert sigchld s.pending else s.pending }

def goto (s : EventLoop) (phase : LoopPhase) : EventLoop := { s with phase := phase }

def done (s : EventLoop) : Bool := s.world.ctl.shuttingDown && s.world.ctl.idle

/-- The head of the loop (controller.cpp:848-853). -/
def top (s : EventLoop) : EventLoop := s.goto (if s.done then .returned 0 else .waiting)

/-- The switch (controller.cpp:863-886). -/
def dispatch (o : Oracle) (s : EventLoop) (e : WaitEvent) (lines : List (List Char))
    (rest : List WaitEvent) : EventLoop :=
  match wakeKind e.token with
  | some .signal =>
    if e.signo = sigchld then s.goto (.reaping rest)
    else if e.signo = sigterm ∨ e.signo = sigint then
      (s.does o (.line "SHUTDOWN".toList)).goto (.handling rest)
    else s.goto (.handling rest)
  | some .fifo => (lines.foldl (fun s line => s.does o (.line line)) s).goto (.handling rest)
  | some .tick =>
    let s := s.does o .tick
    s.goto (if s.done then .returned 0 else .handling rest)
  | some .jobDeadline => (s.does o (.deadline (wakeJob e.token))).goto (.handling rest)
  | _ => s.goto (.handling rest)

def step (o : Oracle) (s : EventLoop) : LoopEvent → EventLoop
  | .outside input => s.does o input
  | .signal signo =>
    { s with
      pending := if signo ∈ supervisorMask then insert signo s.pending else s.pending
      asked := s.asked || signo = sigterm || signo = sigint }
  | .wakes tokens =>
    match s.phase with
    | .waiting =>
      let (events, pending) := waitEvents s.pending tokens
      if tokens.length ≤ 16 then { s with pending := pending, phase := .turn events } else s
    | _ => s
  | .waitFails =>
    match s.phase with
    | .waiting => s.goto (.returned 1)
    | _ => s
  | .next lines =>
    match s.phase with
    | .handling (e :: rest) => s.dispatch o e lines rest
    | .handling [] => (s.does o .schedule).top
    | _ => s
  | .waitid child =>
    match s.phase, child with
    | .reaping _, some child =>
      if child ∈ s.world.zombies.map (·.child) then s.does o (.reap child) else s
    | .reaping rest, none =>
      if s.world.zombies = [] then (s.does o .schedule).goto (.handling rest) else s
    | _, _ => s

/-- `run_controller` enters the loop. -/
def start (o : Oracle) (w : World) : EventLoop :=
  ((⟨w, ∅, .waiting, false⟩ : EventLoop).does o .recover).top

end EventLoop

/-! ## Workers that have ended -/

variable {log : Log} {new : List Effect}

theorem mem_zombies {w : World} {l : Launch} : l ∈ w.zombies ↔
    l ∈ w.log.forks ∧ w.log.status l.child ≠ none ∧ ¬ w.log.Reaped l.child := by
  simp [World.zombies, Option.isSome_iff_ne_none]

theorem exits_append (new : List Effect) (log : Log) :
    Log.exits (new ++ log) = new.countP Effect.isExit + Log.exits log := List.countP_append

/-- While nobody ends, the ends stay as they are. -/
theorem status_of_exits (h : Log.exits (new ++ log) ≤ Log.exits log) (child : ℕ) :
    Log.status (new ++ log) child = Log.status log child := by
  induction new with
  | nil => rfl
  | cons e new ih =>
    rw [exits_append, List.countP_cons] at h
    have hrest := ih (by rw [exits_append]; omega)
    cases e with
    | exit => simp [Effect.isExit] at h
    | _ => exact hrest

/-- A worker that has ended has been forked before. -/
theorem forks_of_ended (hall : History.All ChildOk (new ++ log)) {l : Launch}
    (hl : l ∈ Log.forks (new ++ log)) (hended : Log.status log l.child ≠ none) :
    l ∈ Log.forks log := by
  induction new with
  | nil => exact hl
  | cons e new ih =>
    obtain ⟨hok, hall⟩ := hall
    cases e with
    | fork l' =>
      rcases List.mem_cons.mp hl with rfl | hl
      · obtain ⟨status, hstatus⟩ := Option.ne_none_iff_exists'.mp hended
        obtain ⟨l₀, hl₀, hchild⟩ := launch_of_status (hall.suffix (List.suffix_append new log)) hstatus
        have hlt := (launch_child_lt (hall.suffix (List.suffix_append new log)) hl₀).1
        have hlater : l.child = (new ++ log).length := hok.1
        rw [hchild, hlater, List.length_append] at hlt
        omega
      · exact ih hall hl
    | died => cases hl
    | _ => exact ih hall hl

/-- A worker that is found to have ended has raised SIGCHLD since, or had ended before. -/
theorem zombies_after {w w' : World} (hsuf : w.log <:+ w'.log) (hall : History.All ChildOk w'.log)
    (hsame : w'.log.exits ≤ w.log.exits) {l : Launch} (hl : l ∈ w'.zombies) : l ∈ w.zombies := by
  obtain ⟨new, hlog⟩ := hsuf
  obtain ⟨hfork, hended, hreaped⟩ := mem_zombies.mp hl
  rw [← hlog] at hfork hended hreaped hsame hall
  rw [status_of_exits hsame] at hended
  exact mem_zombies.mpr ⟨forks_of_ended hall hfork hended, hended,
    fun hr => hreaped (List.mem_append_right _ hr)⟩

/-! ## Shutting down -/

theorem requestStop_keeps (id : ℕ) (job : LiveJob) (reason : String) (w : World) :
    (requestStop o id job reason w).ctl.shuttingDown = w.ctl.shuttingDown ∧
      (requestStop o id job reason w).ctl.queue = w.ctl.queue := by
  unfold requestStop
  dsimp only
  split_ifs <;> exact ⟨rfl, rfl⟩

theorem onCancel_up (id : ℕ) (w : World) :
    (onCancel o id w).ctl.shuttingDown = w.ctl.shuttingDown := by
  unfold onCancel World.push
  dsimp only
  split
  · split
    · rfl
    · split_ifs
      · rfl
      · rw [saveMeta_ctl]
        rfl
  · split_ifs
    · simp only [World.eraseJob, World.dequeue, saveMeta_ctl]
      rfl
    · exact (requestStop_keeps _ _ _ _).1

theorem finalize_up (id : ℕ) (w : World) :
    (finalize o id w).ctl.shuttingDown = w.ctl.shuttingDown := by
  cases hlive : w.ctl.live.lookup id with
  | none =>
    unfold finalize
    rw [hlive]
  | some job =>
    cases hopen : job.finished with
    | true => rw [finalize_of_finished hlive hopen]
    | false =>
      rw [(finalize_finish (o := o) hlive hopen).ctl]
      rfl

theorem noteReap_up (pid : ℕ) (status : WaitStatus) (w : World) :
    (noteReap o pid status w).ctl.shuttingDown = w.ctl.shuttingDown := by
  unfold noteReap
  split
  · rfl
  · split
    · rfl
    · dsimp only
      split_ifs
      · rw [finalize_up, (requestStop_keeps _ _ _ _).1]
        rfl
      · rw [finalize_up]
        rfl
      · rw [(requestStop_keeps _ _ _ _).1]
        rfl
      · rfl

theorem foldl_up {f : World → ℕ → World}
    (hf : ∀ w id, (f w id).ctl.shuttingDown = w.ctl.shuttingDown) (ids : List ℕ) (w : World) :
    (ids.foldl f w).ctl.shuttingDown = w.ctl.shuttingDown := by
  induction ids generalizing w with
  | nil => rfl
  | cons id ids ih => rw [List.foldl_cons, ih, hf]

theorem escalate_up (now id : ℕ) (w : World) :
    (escalate now w id).ctl.shuttingDown = w.ctl.shuttingDown := by
  unfold escalate
  split
  · rfl
  · split_ifs <;> rfl

theorem recover_up (w : World) : (recover o w).ctl.shuttingDown = w.ctl.shuttingDown := by
  refine foldl_up (fun w id => ?_) _ _
  unfold recoverJob
  dsimp only
  split
  · rfl
  · next m _ =>
    split_ifs
    · rw [saveMeta_ctl]
      exact congrArg Controller.shuttingDown (killLeftover_view (parseProcs m.procs) w.ask).1
    · exact (enqueue_keeps id w.ask).1
    · rfl

/-- What is outside of the controller changes one of its jobs at most. -/
theorem handle_outside {input : Input} (h : input.outside = true) (w : World) :
    (handle o w input).ctl = w.ctl ∨
      ∃ id job, (handle o w input).ctl = { w.ctl with live := w.ctl.live.insert id job } := by
  have hregion : ∀ (l : Launch) (f : SharedRegion → SharedRegion) (e : Effect),
      ((updateRegion l f w).push e).ctl = w.ctl ∨
        ∃ id job, ((updateRegion l f w).push e).ctl =
          { w.ctl with live := w.ctl.live.insert id job } := by
    intro l f e
    unfold updateRegion World.push
    split
    · exact Or.inl rfl
    · split_ifs
      · exact Or.inr ⟨_, _, rfl⟩
      · exact Or.inl rfl
  cases input with
  | exit =>
    simp only [handle, workerStep]
    split <;> exact Or.inl rfl
  | slot =>
    simp only [handle, workerStep]
    split
    · exact Or.inl rfl
    · split_ifs
      · exact hregion _ _ _
      · exact Or.inl rfl
  | bump =>
    simp only [handle, workerStep]
    split
    · exact Or.inl rfl
    · exact hregion _ _ _
  | output =>
    simp only [handle, workerStep]
    split <;> exact Or.inl rfl
  | spawn =>
    simp only [handle, spawnMember]
    split
    · exact Or.inl rfl
    · split_ifs <;> exact Or.inl rfl
  | gone => exact Or.inl rfl
  | record =>
    simp only [handle]
    split_ifs <;> exact Or.inl rfl
  | _ => cases h

/-- Only SHUTDOWN shuts down. -/
theorem handle_up {w : World} (hrun : w.ctl.running = true) {input : Input}
    (h : input ≠ .line "SHUTDOWN".toList) :
    (handle o w input).ctl.shuttingDown = w.ctl.shuttingDown := by
  by_cases hout : input.outside = true
  · rcases @handle_outside o input hout w with hctl | ⟨id, job, hctl⟩ <;> rw [hctl]
  · cases input with
    | recover => simp [handle, hrun]
    | line text =>
      have hline : text ≠ "SHUTDOWN".toList := fun heq => h (congrArg Input.line heq)
      simp only [handle, hrun, if_true, handleLine, if_neg hline]
      split_ifs
      · split
        · rfl
        · exact (enqueue_keeps _ w).1
      · split
        · rfl
        · exact onCancel_up _ w
      · rfl
    | reap child =>
      simp only [handle, hrun, if_true, reap]
      split
      · split_ifs
        · rfl
        · exact noteReap_up _ _ _
      · rfl
    | schedule =>
      simp only [handle, hrun, if_true, schedule]
      split_ifs
      · rfl
      · exact scheduleLoop_keeps.1
    | deadline id =>
      simp only [handle, hrun, if_true, onDeadline]
      split
      · rfl
      · split_ifs
        · rfl
        · exact (requestStop_keeps _ _ _ _).1
    | tick =>
      simp only [handle, hrun, if_true, onTick]
      exact foldl_up (fun w id => escalate_up _ id w) _ _
    | _ => exact absurd rfl hout

theorem onCancel_queue {w : World} (hrepr : w.ctl.Repr) (id : ℕ) {x : ℕ}
    (hx : x ∈ (onCancel o id w).ctl.queue) : x ∈ w.ctl.queue ∧ x ≠ id := by
  have hother : (∀ job, w.ctl.live.lookup id = some job → job.jobMeta.state ≠ "queued") →
      x ∈ w.ctl.queue → x ≠ id := by
    rintro hstate hmem rfl
    obtain ⟨job, hlive, hqueued⟩ := (hrepr.queue x).mp hmem
    exact hstate job hlive hqueued
  unfold onCancel World.push at hx
  dsimp only at hx
  split at hx
  · next hlive =>
    have hnone := hother (fun job hsome => by cases hlive.symm.trans hsome)
    split at hx
    · exact ⟨hx, hnone hx⟩
    · split_ifs at hx
      · exact ⟨hx, hnone hx⟩
      · rw [saveMeta_ctl] at hx
        exact ⟨hx, hnone hx⟩
  · next job hlive =>
    split_ifs at hx with hqueued
    · simp only [World.eraseJob, World.dequeue, saveMeta_ctl] at hx
      simpa [World.ask] using hx
    · rw [(requestStop_keeps _ _ _ _).2] at hx
      refine ⟨hx, hother (fun job' hlive' => ?_) hx⟩
      cases hlive.symm.trans hlive'
      exact hqueued

theorem onCancels_queue {ids : List ℕ} {w : World} (hrepr : w.ctl.Repr)
    (hids : ∀ x ∈ w.ctl.queue, x ∈ ids) :
    (ids.foldl (fun w id => onCancel o id w) w).ctl.queue = [] := by
  induction ids generalizing w with
  | nil => exact List.eq_nil_iff_forall_not_mem.mpr fun x hx => by cases hids x hx
  | cons id ids ih =>
    have hrepr' : (onCancel o id w).ctl.Repr :=
      (onCancel_steps (o := o) (g := .any) id w).keeps (P := fun v => v.ctl.Repr)
        (fun _ _ _ hv hstep => hv.change hstep.change) hrepr
    refine ih hrepr' fun x hx => ?_
    obtain ⟨hmem, hne⟩ := onCancel_queue hrepr id hx
    exact (List.mem_cons.mp (hids x hmem)).resolve_left hne

theorem stopRunning_keeps (w : World) (id : ℕ) :
    (stopRunning o w id).ctl.shuttingDown = w.ctl.shuttingDown ∧
      (stopRunning o w id).ctl.queue = w.ctl.queue := by
  unfold stopRunning
  split
  · exact ⟨rfl, rfl⟩
  · split_ifs
    · exact requestStop_keeps _ _ _ _
    · exact ⟨rfl, rfl⟩

/-- SHUTDOWN leaves no job in the queue. -/
theorem onShutdown_queue {w : World} (hrepr : w.ctl.Repr) : (onShutdown o w).ctl.queue = [] := by
  have hstops : ∀ (ids : List ℕ) (w : World),
      (ids.foldl (stopRunning o) w).ctl.queue = w.ctl.queue := by
    intro ids w
    induction ids generalizing w with
    | nil => rfl
    | cons id ids ih => rw [List.foldl_cons, ih, (stopRunning_keeps _ _).2]
  have hrepr' : (w.setCtl { w.ctl with shuttingDown := true }).ctl.Repr :=
    hrepr.same rfl rfl rfl rfl rfl
  unfold onShutdown
  dsimp only
  rw [hstops]
  exact onCancels_queue hrepr' fun x hx => hx

theorem onShutdown_up (w : World) : (onShutdown o w).ctl.shuttingDown = true := by
  unfold onShutdown
  dsimp only
  rw [foldl_up (fun w id => (stopRunning_keeps w id).1)]
  exact foldl_up (fun w id => onCancel_up id w) _ _

/-- A controller that is shutting down queues nothing. -/
theorem Step.closed {g : Guard} {id : ℕ} {v v' : View} (h : Step o g id v v')
    (hshut : v.ctl.shuttingDown = true) (hqueue : v.ctl.queue = []) : v'.ctl.queue = [] := by
  have hfilter : ∀ x, v.ctl.queue.filter (· ≠ x) = [] := fun x => by rw [hqueue, List.filter_nil]
  cases h with
  | enter hup => cases hup.symm.trans hshut
  | launchFail hjob => cases hjob.up.symm.trans hshut
  | launchSpawnFail hjob => cases hjob.up.symm.trans hshut
  | launch hjob => cases hjob.up.symm.trans hshut
  | cancelQueued => exact hfilter _
  | reapLast _ _ _ _ _ _ hfinish =>
    rw [hfinish.ctl]
    exact hfilter _
  | reapLastBad _ _ _ _ _ _ _ hfinish =>
    rw [hfinish.ctl]
    exact hfilter _
  | workerRegion =>
    dsimp only
    split
    · exact hqueue
    · split_ifs <;> exact hqueue
  | _ => exact hqueue

theorem handle_shutdown {w : World} (hrun : w.ctl.running = true) :
    handle o w (.line "SHUTDOWN".toList) = onShutdown o w := by
  show (if w.ctl.running = true then handleLine o "SHUTDOWN".toList w else w) = _
  rw [if_pos hrun]
  unfold handleLine
  exact if_pos rfl

/-- **While it shuts down, nothing is queued.** -/
theorem handle_closed {w : World} (h : w.Sound) (hrun : w.ctl.running = true)
    (hclosed : w.ctl.shuttingDown = true → w.ctl.queue = []) (input : Input)
    (hshut : (handle o w input).ctl.shuttingDown = true) : (handle o w input).ctl.queue = [] := by
  cases hwas : w.ctl.shuttingDown with
  | true =>
    have hsteps := handle_steps (o := o) h.down (Guard.any_allows w input)
    exact (hsteps.keeps (P := fun v => v.ctl.shuttingDown = true ∧ v.ctl.queue = [])
      (fun _ _ _ hv hstep => ⟨(hstep.shut hv.1).1, hstep.closed hv.1 hv.2⟩)
      ⟨hwas, hclosed hwas⟩).2
  | false =>
    have hline : input = .line "SHUTDOWN".toList := by
      by_contra hne
      rw [handle_up hrun hne, hwas] at hshut
      cases hshut
    rw [hline, handle_shutdown hrun]
    exact onShutdown_queue h.repr

/-! ## The invariant -/

/-- The signal has been taken, and is not handled yet. -/
def WaitEvent.Brings (e : WaitEvent) (signo : ℕ) : Prop :=
  wakeKind e.token = some .signal ∧ e.signo = signo

def LoopPhase.events : LoopPhase → List WaitEvent
  | .handling events => events
  | .reaping events => events
  | _ => []

/-- The loop of `reap` will still see every child that has ended. -/
def LoopPhase.Reaps : LoopPhase → Prop
  | .reaping _ => True
  | .returned _ => True
  | phase => ∃ e ∈ phase.events, e.Brings sigchld

def LoopPhase.Stops (phase : LoopPhase) : Prop :=
  (∃ code, phase = .returned code) ∨
    ∃ e ∈ phase.events, e.Brings sigterm ∨ e.Brings sigint

theorem LoopPhase.turn_events (events : List WaitEvent) : (turn events).events = events := by
  unfold turn
  split_ifs with hempty
  · exact (List.isEmpty_iff.mp hempty).symm
  · rfl

theorem LoopPhase.reaps_turn {events : List WaitEvent} (h : ∃ e ∈ events, e.Brings sigchld) :
    (turn events).Reaps := by
  have hne : ¬ events.isEmpty = true := by
    obtain ⟨e, he, -⟩ := h
    exact fun hempty => by cases List.isEmpty_iff.mp hempty ▸ he
  unfold turn
  rw [if_neg hne]
  exact h

theorem LoopPhase.stops_turn {events : List WaitEvent}
    (h : ∃ e ∈ events, e.Brings sigterm ∨ e.Brings sigint) : (turn events).Stops := by
  right
  rw [turn_events]
  exact h

theorem LoopPhase.reaps_rest {e : WaitEvent} {rest : List WaitEvent} (he : ¬ e.Brings sigchld)
    (h : (handling (e :: rest)).Reaps) : (handling rest).Reaps := by
  obtain ⟨e', hmem, hbrings⟩ := h
  rcases List.mem_cons.mp hmem with rfl | hmem
  · exact absurd hbrings he
  · exact ⟨e', hmem, hbrings⟩

theorem LoopPhase.stops_rest {e : WaitEvent} {rest : List WaitEvent}
    (he : ¬ (e.Brings sigterm ∨ e.Brings sigint)) (h : (handling (e :: rest)).Stops) :
    ∃ e ∈ rest, e.Brings sigterm ∨ e.Brings sigint := by
  rcases h with ⟨_, hcode⟩ | ⟨e', hmem, hbrings⟩
  · cases hcode
  · rcases List.mem_cons.mp hmem with rfl | hmem
    · exact absurd hbrings he
    · exact ⟨e', hmem, hbrings⟩

/-- Nothing is left for `schedule` to do. -/
def Controller.Scheduled (c : Controller) : Prop :=
  c.shuttingDown = true ∨ c.slotsUsed = c.slotsMax ∨ c.queue = []

namespace EventLoop

variable {s : EventLoop} {slots : ℕ}

/-- The part of the invariant that is about the world. -/
structure Sound (o : Oracle) (slots : ℕ) (s : EventLoop) : Prop where
  reach : ∃ es, s.world = Machine.run (World.step o) (World.start slots) es
  running : s.world.ctl.running = true
  closed : s.world.ctl.shuttingDown = true → s.world.ctl.queue = []

/-- A signal that matters is pending, or on its way to its handler. -/
structure Watchful (o : Oracle) (slots : ℕ) (s : EventLoop) : Prop extends Sound o slots s where
  children : s.world.zombies ≠ [] → sigchld ∈ s.pending ∨ s.phase.Reaps
  stops : s.asked = true → sigint ∈ s.pending ∨ sigterm ∈ s.pending ∨ s.phase.Stops ∨
    s.world.ctl.shuttingDown = true
  asleep : s.phase = .waiting → s.world.ctl.Scheduled ∧ s.done = false

namespace Sound

theorem world (h : s.Sound o slots) : s.world.Sound := by
  obtain ⟨es, hes⟩ := h.reach
  rw [hes]
  exact run_sound o slots es

theorem crew (h : s.Sound o slots) : Crew s.world.view := by
  obtain ⟨es, hes⟩ := h.reach
  rw [hes]
  exact run_crew (along_any _ _)

theorem does (h : s.Sound o slots) (input : Input) : (s.does o input).Sound o slots where
  reach := by
    obtain ⟨es, hes⟩ := h.reach
    refine ⟨es ++ [.handled input], ?_⟩
    rw [Machine.run_append, ← hes]
    rfl
  running := handle_running h.world h.running input
  closed := handle_closed h.world h.running h.closed input

theorem goto (h : s.Sound o slots) (phase : LoopPhase) : (s.goto phase).Sound o slots :=
  ⟨h.reach, h.running, h.closed⟩

end Sound

/-- Handling an input, the controller is shut down at most. -/
theorem does_stays (h : s.Sound o slots) {input : Input} (hshut : s.world.ctl.shuttingDown = true) :
    (s.does o input).world.ctl.shuttingDown = true := by
  by_cases hline : input = .line "SHUTDOWN".toList
  · subst hline
    show (handle o s.world _).ctl.shuttingDown = true
    rw [handle_shutdown h.running]
    exact onShutdown_up _
  · show (handle o s.world input).ctl.shuttingDown = true
    rw [handle_up h.running hline]
    exact hshut

theorem does_pending (input : Input) : s.pending ⊆ (s.does o input).pending := by
  show s.pending ⊆ if _ then _ else _
  split_ifs
  · exact Finset.subset_insert _ _
  · exact Finset.Subset.refl _

/-- What handling inputs leaves as it is, apart from the phase. -/
structure Follows (o : Oracle) (slots : ℕ) (s s' : EventLoop) : Prop where
  sound : s'.Sound o slots
  zombies : s'.world.zombies ≠ [] → sigchld ∈ s'.pending ∨ s.world.zombies ≠ []
  pending : s.pending ⊆ s'.pending
  asked : s'.asked = s.asked
  stays : s.world.ctl.shuttingDown = true → s'.world.ctl.shuttingDown = true

namespace Follows

theorem refl (h : s.Sound o slots) : Follows o slots s s :=
  ⟨h, Or.inr, Finset.Subset.refl _, rfl, fun hshut => hshut⟩

theorem trans {s' s'' : EventLoop} (h : Follows o slots s s') (h' : Follows o slots s' s'') :
    Follows o slots s s'' where
  sound := h'.sound
  zombies := by
    intro hz
    rcases h'.zombies hz with hpending | hz'
    · exact Or.inl hpending
    · exact (h.zombies hz').imp_left fun hpending => h'.pending hpending
  pending := h.pending.trans h'.pending
  asked := h'.asked.trans h.asked
  stays := fun hshut => h'.stays (h.stays hshut)

/-- **A child that has ended has raised SIGCHLD**, or had ended before. -/
theorem does (h : s.Sound o slots) (input : Input) : Follows o slots s (s.does o input) where
  sound := h.does input
  zombies := by
    intro hz
    by_cases hexits : s.world.log.exits < (handle o s.world input).log.exits
    · left
      show sigchld ∈ if _ then _ else _
      rw [if_pos hexits]
      exact Finset.mem_insert_self _ _
    · right
      obtain ⟨l, hl⟩ := List.exists_mem_of_ne_nil _ hz
      exact List.ne_nil_of_mem (zombies_after (World.step_suffix h.world.down (.handled input))
        (h.does input).crew.children (Nat.le_of_not_lt hexits) hl)
  pending := does_pending input
  asked := rfl
  stays := does_stays h

theorem lines (h : s.Sound o slots) (lines : List (List Char)) :
    Follows o slots s (lines.foldl (fun s line => s.does o (.line line)) s) := by
  induction lines generalizing s with
  | nil => exact refl h
  | cons line lines ih => exact (does h _).trans (ih (h.does _))

end Follows

/-- The controller goes on to `phase`. -/
theorem Watchful.follows (h : s.Watchful o slots) {s' : EventLoop} (hf : Follows o slots s s')
    {phase : LoopPhase} (hreaps : s.phase.Reaps → phase.Reaps ∨ s.world.zombies = [])
    (hstops : s.phase.Stops → phase.Stops ∨ s'.world.ctl.shuttingDown = true)
    (hasleep : phase = .waiting → s'.world.ctl.Scheduled ∧ s'.done = false) :
    (s'.goto phase).Watchful o slots where
  toSound := hf.sound.goto phase
  children := by
    intro hz
    rcases hf.zombies hz with hpending | hz'
    · exact Or.inl hpending
    · rcases h.children hz' with hpending | hwas
      · exact Or.inl (hf.pending hpending)
      · exact Or.inr ((hreaps hwas).resolve_right hz')
  stops := by
    intro hasked
    rcases h.stops (hf.asked ▸ hasked) with hint | hterm | hphase | hshut
    · exact Or.inl (hf.pending hint)
    · exact Or.inr (Or.inl (hf.pending hterm))
    · exact Or.inr (Or.inr (hstops hphase))
    · exact Or.inr (Or.inr (Or.inr (hf.stays hshut)))
  asleep := hasleep

/-- A pending signal stays pending, or is taken. -/
theorem waitEvents_brings {pending : Finset ℕ} {signo : ℕ} (h : signo ∈ pending) (tokens : List ℕ) :
    signo ∈ (waitEvents pending tokens).2 ∨
      ∃ e ∈ (waitEvents pending tokens).1, e.Brings signo := by
  induction tokens generalizing pending with
  | nil => exact Or.inl h
  | cons token tokens ih =>
    unfold waitEvents
    split_ifs with htoken
    · have hne : pending.Nonempty := ⟨signo, h⟩
      rw [takeSignal, dif_pos hne]
      dsimp only
      by_cases hmin : signo = pending.min' hne
      · refine Or.inr ⟨_, List.mem_cons_self, ?_, hmin.symm⟩
        rw [htoken]
        exact wakeKind_packWake .signal 0
      · rcases ih (Finset.mem_erase.mpr ⟨hmin, h⟩) with hleft | ⟨e, he, hbrings⟩
        · exact Or.inl hleft
        · exact Or.inr ⟨e, List.mem_cons_of_mem _ he, hbrings⟩
    · rcases ih h with hleft | ⟨e, he, hbrings⟩
      · exact Or.inl hleft
      · exact Or.inr ⟨e, List.mem_cons_of_mem _ he, hbrings⟩

namespace Watchful

theorem outside (h : s.Watchful o slots) {input : Input} (hinput : input.outside = true) :
    (s.does o input).Watchful o slots := by
  refine h.follows (.does h.toSound input) Or.inl Or.inl fun hwaiting => ?_
  obtain ⟨hscheduled, hbusy⟩ := h.asleep hwaiting
  show (s.does o input).world.ctl.Scheduled ∧
    ((s.does o input).world.ctl.shuttingDown && (s.does o input).world.ctl.idle) = false
  have hctl : (s.does o input).world.ctl = s.world.ctl ∨ ∃ id job, (s.does o input).world.ctl =
      { s.world.ctl with live := s.world.ctl.live.insert id job } := handle_outside hinput s.world
  rcases hctl with hctl | ⟨id, job, hctl⟩
  · rw [hctl]
    exact ⟨hscheduled, hbusy⟩
  · have hidle : (s.does o input).world.ctl.idle = false := by
      rw [hctl, Controller.idle, AList.keys_insert]
      rfl
    rw [hidle, Bool.and_false, hctl]
    exact ⟨hscheduled, rfl⟩

theorem signal (h : s.Watchful o slots) (signo : ℕ) : (s.step o (.signal signo)).Watchful o slots := by
  have hsub : s.pending ⊆ (s.step o (.signal signo)).pending := by
    show s.pending ⊆ if _ then _ else _
    split_ifs
    · exact Finset.subset_insert _ _
    · exact Finset.Subset.refl _
  refine ⟨⟨h.reach, h.running, h.closed⟩, fun hz => (h.children hz).imp_left fun hp => hsub hp,
    fun hasked => ?_, h.asleep⟩
  have hraise : signo ∈ supervisorMask → signo ∈ (s.step o (.signal signo)).pending := by
    intro hmask
    show signo ∈ if _ then _ else _
    rw [if_pos hmask]
    exact Finset.mem_insert_self _ _
  by_cases hterm : signo = sigterm
  · exact Or.inr (Or.inl (hterm ▸ hraise (by simp [hterm, supervisorMask])))
  · by_cases hint : signo = sigint
    · exact Or.inl (hint ▸ hraise (by simp [hint, supervisorMask]))
    · have hwas : s.asked = true := by
        simpa [EventLoop.step, hterm, hint] using hasked
      rcases h.stops hwas with hp | hp | hrest
      · exact Or.inl (hsub hp)
      · exact Or.inr (Or.inl (hsub hp))
      · exact Or.inr (Or.inr hrest)

theorem wakes (h : s.Watchful o slots) (hphase : s.phase = .waiting) (tokens : List ℕ) :
    ({ s with
      pending := (waitEvents s.pending tokens).2
      phase := .turn (waitEvents s.pending tokens).1 } : EventLoop).Watchful o slots := by
  have hchildren := h.children
  have hstops := h.stops
  rw [hphase] at hchildren hstops
  refine ⟨⟨h.reach, h.running, h.closed⟩, fun hz => ?_, fun hasked => ?_, fun _ => h.asleep hphase⟩
  · have hpending : sigchld ∈ s.pending := (hchildren hz).resolve_right fun ⟨e, he, _⟩ => by cases he
    exact (waitEvents_brings hpending tokens).imp_right LoopPhase.reaps_turn
  · rcases hstops hasked with hint | hterm | hnone | hshut
    · rcases waitEvents_brings hint tokens with hp | ⟨e, he, hbrings⟩
      · exact Or.inl hp
      · exact Or.inr (Or.inr (Or.inl (LoopPhase.stops_turn ⟨e, he, Or.inr hbrings⟩)))
    · rcases waitEvents_brings hterm tokens with hp | ⟨e, he, hbrings⟩
      · exact Or.inr (Or.inl hp)
      · exact Or.inr (Or.inr (Or.inl (LoopPhase.stops_turn ⟨e, he, Or.inl hbrings⟩)))
    · rcases hnone with ⟨_, hcode⟩ | ⟨e, he, _⟩
      · cases hcode
      · cases he
    · exact Or.inr (Or.inr (Or.inr hshut))

/-- An event that brings no signal, or one that has been handled. -/
theorem passes (h : s.Watchful o slots) {e : WaitEvent} {rest : List WaitEvent}
    (hphase : s.phase = .handling (e :: rest)) {s' : EventLoop} (hf : Follows o slots s s')
    (hchld : ¬ e.Brings sigchld)
    (hstop : ¬ (e.Brings sigterm ∨ e.Brings sigint) ∨ s'.world.ctl.shuttingDown = true) :
    (s'.goto (.handling rest)).Watchful o slots := by
  refine h.follows hf (fun hreaps => ?_) (fun hstops => ?_) nofun
  · rw [hphase] at hreaps
    exact Or.inl (LoopPhase.reaps_rest hchld hreaps)
  · rw [hphase] at hstops
    rcases hstop with hno | hshut
    · exact Or.inl (Or.inr (LoopPhase.stops_rest hno hstops))
    · exact Or.inr hshut

theorem returns (h : s.Watchful o slots) {s' : EventLoop} (hf : Follows o slots s s') (code : ℕ) :
    (s'.goto (.returned code)).Watchful o slots :=
  h.follows hf (fun _ => Or.inl trivial) (fun _ => Or.inl (Or.inl ⟨code, rfl⟩)) nofun

/-- One event of a turn. -/
theorem dispatch (h : s.Watchful o slots) {e : WaitEvent} {rest : List WaitEvent}
    (hphase : s.phase = .handling (e :: rest)) (lines : List (List Char)) :
    (s.dispatch o e lines rest).Watchful o slots := by
  have hother : ∀ {kind}, wakeKind e.token = kind → kind ≠ some .signal →
      ∀ signo, ¬ e.Brings signo := fun hkind hne _ hbrings => hne (hkind.symm.trans hbrings.1)
  unfold EventLoop.dispatch
  split
  · next hkind =>
    split_ifs with hchld hstop
    · refine h.follows (.refl h.toSound) (fun _ => Or.inl trivial) (fun hstops => ?_) nofun
      rw [hphase] at hstops
      refine Or.inl (Or.inr (LoopPhase.stops_rest ?_ hstops))
      rintro (⟨-, hno⟩ | ⟨-, hno⟩) <;> cases hchld.symm.trans hno
    · refine h.passes hphase (.does h.toSound _) (fun hbrings => hchld hbrings.2) (Or.inr ?_)
      show (handle o s.world _).ctl.shuttingDown = true
      rw [handle_shutdown h.running]
      exact onShutdown_up _
    · refine h.passes hphase (.refl h.toSound) (fun hbrings => hchld hbrings.2) (Or.inl ?_)
      exact fun hbrings => hstop (hbrings.imp (·.2) (·.2))
  · next hkind =>
    have hno := hother hkind (by decide)
    exact h.passes hphase (.lines h.toSound lines) (hno _) (Or.inl (by simp [hno]))
  · next hkind =>
    have hno := hother hkind (by decide)
    dsimp only
    split_ifs
    · exact h.returns (.does h.toSound _) 0
    · exact h.passes hphase (.does h.toSound _) (hno _) (Or.inl (by simp [hno]))
  · next hkind =>
    have hno := hother hkind (by decide)
    exact h.passes hphase (.does h.toSound _) (hno _) (Or.inl (by simp [hno]))
  · next hsignal _ _ _ =>
    have hno := hother rfl hsignal
    exact h.passes hphase (.refl h.toSound) (hno _) (Or.inl (by simp [hno]))

/-- The end of a turn. -/
theorem top {s' : EventLoop} (h : s.Watchful o slots) (hphase : s.phase.events = [])
    (hreturned : ∀ code, s.phase ≠ .returned code) (hreaping : ∀ events, s.phase ≠ .reaping events)
    (hf : Follows o slots s s') (hscheduled : s'.world.ctl.Scheduled) : s'.top.Watchful o slots := by
  refine h.follows hf (fun hreaps => ?_) (fun hstops => ?_) fun hwaiting => ⟨hscheduled, ?_⟩
  · exfalso
    cases hs : s.phase with
    | reaping events => exact hreaping events hs
    | returned code => exact hreturned code hs
    | _ =>
      rw [hs] at hreaps hphase
      obtain ⟨e, he, -⟩ := hreaps
      rw [hphase] at he
      cases he
  · exfalso
    rcases hstops with ⟨code, hcode⟩ | ⟨e, he, -⟩
    · exact hreturned code hcode
    · rw [hphase] at he
      cases he
  · cases hdone : s'.done with
    | false => rfl
    | true => simp [hdone] at hwaiting

theorem schedule_scheduled (h : s.Sound o slots) :
    (s.does o .schedule).world.ctl.Scheduled := by
  have hsettled := schedule_settling (o := o) h.world.repr
  have hhandle : (s.does o .schedule).world = schedule o s.world := by
    show handle o s.world .schedule = _
    simp only [handle, h.running, if_true]
  rw [hhandle]
  exact hsettled.imp_right (Or.imp_right fun hempty => hempty.1)

/-- **Every step keeps the invariant.** -/
theorem step (h : s.Watchful o slots) (e : LoopEvent) : (s.step o e).Watchful o slots := by
  cases e with
  | outside input => exact h.outside input.property
  | signal signo => exact h.signal signo
  | wakes tokens =>
    simp only [EventLoop.step]
    split
    · next hphase =>
      split_ifs
      · exact h.wakes hphase tokens
      · exact h
    · exact h
  | waitFails =>
    simp only [EventLoop.step]
    split
    · exact h.returns (.refl h.toSound) 1
    · exact h
  | next lines =>
    simp only [EventLoop.step]
    split
    · next hphase => exact h.dispatch hphase lines
    · next hphase =>
      refine h.top ?_ ?_ ?_ (.does h.toSound .schedule) (schedule_scheduled h.toSound) <;>
        simp [hphase, LoopPhase.events]
    · exact h
  | waitid child =>
    simp only [EventLoop.step]
    split
    · next events child hphase =>
      split_ifs
      · refine h.follows (.does h.toSound (.reap child)) Or.inl Or.inl fun hwaiting => ?_
        cases hphase.symm.trans hwaiting
      · exact h
    · next rest hphase =>
      split_ifs with hnone
      · refine h.follows (.does h.toSound .schedule) (fun _ => Or.inr hnone) (fun hstops => ?_) nofun
        rw [hphase] at hstops
        rcases hstops with ⟨_, hcode⟩ | hevents
        · cases hcode
        · exact Or.inl (Or.inr hevents)
      · exact h
    · exact h

end Watchful

/-! ## Runs -/

/-- A controller that is down has no workers. -/
theorem zombies_of_down {w : World} (hcrew : Crew w.view) (hdown : w.Down) : w.zombies = [] := by
  refine List.eq_nil_iff_forall_not_mem.mpr fun l hl => ?_
  obtain ⟨hfork, -, hreaped⟩ := mem_zombies.mp hl
  obtain ⟨job, hlive, -⟩ := hcrew.home l hfork hreaped
  have hnone : w.ctl.live.lookup l.id = some job := hlive
  rw [hdown.live, AList.lookup_empty] at hnone
  cases hnone

/-- **After `recover`**, before the first sleep. -/
theorem start_watchful {es : List Event}
    (hdown : (Machine.run (World.step o) (World.start slots) es).ctl.running = false) :
    (start o (Machine.run (World.step o) (World.start slots) es)).Watchful o slots := by
  have hsound := run_sound o slots es
  have hcrew := @run_crew o .any slots es (along_any _ _)
  have hnext := @run_crew o .any slots (es ++ [.handled .recover]) (along_any _ _)
  generalize hw : Machine.run (World.step o) (World.start slots) es = w at hdown hsound hcrew ⊢
  have hreach : Machine.run (World.step o) (World.start slots) (es ++ [.handled .recover]) =
      handle o w .recover := by
    rw [Machine.run_append, hw]
    rfl
  rw [hreach] at hnext
  have hrecover : handle o w .recover =
      (recover o w).setCtl { (recover o w).ctl with running := true } := by
    simp [handle, hdown]
  have hup : (handle o w .recover).ctl.shuttingDown = false := by
    rw [hrecover]
    exact (recover_up w).trans (hsound.down hdown).up
  refine ⟨⟨⟨_, hreach.symm⟩, ?_, fun hshut => ?_⟩, fun hz => ?_, fun hasked => ?_,
    fun _ => ⟨?_, ?_⟩⟩
  · show (handle o w .recover).ctl.running = true
    rw [hrecover]
    rfl
  · cases hup.symm.trans hshut
  · left
    show sigchld ∈ if _ then _ else _
    split_ifs with hexits
    · exact Finset.mem_insert_self _ _
    · exfalso
      obtain ⟨l, hl⟩ := List.exists_mem_of_ne_nil _ hz
      have hbefore : l ∈ w.zombies := zombies_after
        (World.step_suffix hsound.down (.handled .recover)) hnext.children
        (Nat.le_of_not_lt hexits) hl
      rw [zombies_of_down hcrew (hsound.down hdown)] at hbefore
      cases hbefore
  · exact absurd hasked Bool.false_ne_true
  · show (handle o w .recover).ctl.Scheduled
    rw [hrecover]
    exact (recover_sites hsound hdown).2.imp_right (Or.imp_right fun hempty => hempty.1)
  · show ((handle o w .recover).ctl.shuttingDown && _) = false
    rw [hup, Bool.false_and]

/-! ## Attribution -/

/-- `waitid` does not return the last worker of a job while a worker of another job has one of
    its pids. -/
def spares (s : EventLoop) : LoopEvent → Bool
  | .waitid (some child) => s.world.sparesOwners (.reap child)
  | _ => true

theorem attributed_handle {w : World} (hdown : w.ctl.running = false → w.Down)
    (hv : Crew w.view ∧ Attributed w.view) {input : Input} (hspares : w.sparesOwners input = true) :
    Attributed (handle o w input).view := by
  have hsteps := handle_steps (o := o) hdown (sparing_allows hspares)
  exact (hsteps.keeps (P := fun v => Crew v ∧ Attributed v)
    (fun _ _ _ hv hstep => ⟨hv.1.step hstep, hv.2.step hv.1 hstep⟩) hv).2

theorem attributed_does (h : s.Sound o slots) (ha : Attributed s.world.view) {input : Input}
    (hspares : s.world.sparesOwners input = true) : Attributed (s.does o input).world.view :=
  attributed_handle h.world.down ⟨h.crew, ha⟩ hspares

theorem attributed_lines (h : s.Sound o slots) (ha : Attributed s.world.view)
    (lines : List (List Char)) :
    Attributed (lines.foldl (fun s line => s.does o (.line line)) s).world.view := by
  induction lines generalizing s with
  | nil => exact ha
  | cons line lines ih => exact ih (h.does _) (attributed_does h ha rfl)

theorem attributed_dispatch (h : s.Sound o slots) (ha : Attributed s.world.view) (e : WaitEvent)
    (lines : List (List Char)) (rest : List WaitEvent) :
    Attributed (s.dispatch o e lines rest).world.view := by
  unfold EventLoop.dispatch
  split
  · split_ifs
    · exact ha
    · exact attributed_does h ha rfl
    · exact ha
  · exact attributed_lines h ha lines
  · exact attributed_does h ha rfl
  · exact attributed_does h ha rfl
  · exact ha

theorem attributed_step (h : s.Sound o slots) (ha : Attributed s.world.view) {e : LoopEvent}
    (hspares : s.spares e = true) : Attributed (s.step o e).world.view := by
  cases e with
  | outside input =>
    obtain ⟨input, houtside⟩ := input
    refine attributed_does h ha ?_
    cases input with
    | reap => cases houtside
    | _ => rfl
  | signal => exact ha
  | wakes tokens =>
    simp only [EventLoop.step]
    split
    · split_ifs <;> exact ha
    · exact ha
  | waitFails =>
    simp only [EventLoop.step]
    split <;> exact ha
  | next lines =>
    simp only [EventLoop.step]
    split
    · exact attributed_dispatch h ha _ lines _
    · exact attributed_does h ha rfl
    · exact ha
  | waitid child =>
    simp only [EventLoop.step]
    split
    · split_ifs
      · exact attributed_does h ha hspares
      · exact ha
    · split_ifs
      · exact attributed_does h ha rfl
      · exact ha
    · exact ha

theorem start_attributed {w : World} (hdown : w.Down) (hcrew : Crew w.view) :
    Attributed (start o w).world.view := by
  have hnone : ∀ id, w.view.ctl.live.lookup id = none := fun id => by
    show w.ctl.live.lookup id = none
    rw [hdown.live, AList.lookup_empty]
  have ha : Attributed w.view := by
    refine ⟨fun l hl hr => ?_, fun id job hlive => ?_⟩
    · obtain ⟨job, hlive, -⟩ := hcrew.home l hl hr
      cases (hnone _).symm.trans hlive
    · cases (hnone _).symm.trans hlive
  have hrecover : Attributed (handle o w .recover).view :=
    attributed_handle (fun _ => hdown) ⟨hcrew, ha⟩ rfl
  exact hrecover

/-! ## Asleep -/

/-- In `epoll_wait`, with nothing in the signalfd. -/
def Asleep (s : EventLoop) : Prop := s.phase = .waiting ∧ s.pending = ∅

theorem Watchful.reaped (h : s.Watchful o slots) (hsleep : s.Asleep) : s.world.zombies = [] := by
  obtain ⟨hphase, hpending⟩ := hsleep
  by_contra hz
  have hbrings := h.children hz
  rw [hphase, hpending] at hbrings
  rcases hbrings with hmem | ⟨e, he, -⟩
  · simp at hmem
  · cases he

theorem Watchful.stopping (h : s.Watchful o slots) (hsleep : s.Asleep) (hasked : s.asked = true) :
    s.world.ctl.shuttingDown = true := by
  obtain ⟨hphase, hpending⟩ := hsleep
  have hstops := h.stops hasked
  rw [hphase, hpending] at hstops
  rcases hstops with hmem | hmem | (⟨_, hcode⟩ | ⟨e, he, -⟩) | hshut
  · simp at hmem
  · simp at hmem
  · cases hcode
  · cases he
  · exact hshut

/-- A job that has been launched has a worker that runs. -/
theorem Sound.working (h : s.Sound o slots) (ha : Attributed s.world.view)
    (hnone : s.world.zombies = []) {id : ℕ} {job : LiveJob}
    (hlive : s.world.ctl.live.lookup id = some job) (hstate : job.jobMeta.state ≠ "queued") :
    ∃ l ∈ s.world.log.forks, l.id = id ∧ s.world.log.status l.child = none := by
  obtain ⟨hopen, call, ws, hst⟩ := (h.crew.jobs id job hlive).staffed hstate
  obtain ⟨pr, hpr, hmark⟩ : ∃ pr ∈ job.procs, pr.reaped = false := by
    simpa [LiveJob.allReaped] using hopen
  have hpair := List.mem_map_of_mem (f := fun pr : ProcRef => (pr.child, pr.pid)) hpr
  rw [hst.pairs] at hpair
  obtain ⟨l, hl, heq⟩ := List.mem_map.mp hpair
  have hchild : l.child = pr.child := congrArg Prod.fst heq
  obtain ⟨hfork, hid, -⟩ := hst.belongs l hl
  refine ⟨l, hfork, hid, ?_⟩
  by_contra hended
  have hreaped : s.world.log.Reaped l.child := by
    by_contra hr
    have hzombie := mem_zombies.mpr ⟨hfork, hended, hr⟩
    rw [hnone] at hzombie
    cases hzombie
  have hmarked := ha.marked id job hlive pr hpr (hchild ▸ hreaped)
  rw [hmark] at hmarked
  cases hmarked

/-- Where jobs wait, or the controller shuts down, a job has been launched. -/
theorem Watchful.launched (h : s.Watchful o slots) (hphase : s.phase = .waiting)
    (hslots : 0 < s.world.ctl.slotsMax)
    (hwork : s.world.ctl.shuttingDown = true ∨ s.world.ctl.queue ≠ []) :
    ∃ id job, s.world.ctl.live.lookup id = some job ∧ job.jobMeta.state ≠ "queued" := by
  obtain ⟨hscheduled, hbusy⟩ := h.asleep hphase
  cases hshut : s.world.ctl.shuttingDown with
  | true =>
    have hqueue := h.closed hshut
    have hkeys : s.world.ctl.live.keys ≠ [] := by
      intro hempty
      simp [done, Controller.idle, hshut, hqueue, hempty] at hbusy
    obtain ⟨id, hid⟩ := List.exists_mem_of_ne_nil _ hkeys
    obtain ⟨job, hlive⟩ := Option.isSome_iff_exists.mp (AList.lookup_isSome.mpr hid)
    refine ⟨id, job, hlive, fun hqueued => ?_⟩
    have hmem := (h.world.repr.queue id).mpr ⟨job, hlive, hqueued⟩
    rw [hqueue] at hmem
    cases hmem
  | false =>
    have hqueue : s.world.ctl.queue ≠ [] := hwork.resolve_left (by simp [hshut])
    have hfull : s.world.ctl.slotsUsed = s.world.ctl.slotsMax := by
      rcases hscheduled with hup | hfull | hempty
      · cases hshut.symm.trans hup
      · exact hfull
      · exact absurd hempty hqueue
    have hpos : 0 < s.world.ctl.live.countVals LiveJob.isRunning := by
      have hused := h.world.repr.used
      omega
    obtain ⟨id, job, hlive, hrunning⟩ := AList.exists_of_countVals_pos hpos
    refine ⟨id, job, hlive, fun hqueued => ?_⟩
    simp [LiveJob.isRunning, hqueued] at hrunning

end EventLoop

/-- **The controller sleeps through nothing.** Whatever the order in which workers end, clients
    write and signals arrive: when it is asleep, all workers that have ended have been reaped,
    no job could be started, and a SIGTERM or SIGINT has shut it down. If whenever a job is
    finalized no worker of another job has one of its pids, then each job that has been
    launched has a worker that still runs, whose end will wake the controller; in
    particular it does not sleep while jobs wait, or while it shuts down, with no worker. -/
theorem nothing_missed (o : Oracle) (slots : ℕ) (es : List Event)
    (hdown : (Machine.run (World.step o) (World.start slots) es).ctl.running = false)
    (evs : List LoopEvent) :
    let s₀ := EventLoop.start o (Machine.run (World.step o) (World.start slots) es)
    let s := Machine.run (EventLoop.step o) s₀ evs
    s.Asleep →
    (∀ l ∈ s.world.log.forks, s.world.log.status l.child ≠ none → s.world.log.Reaped l.child) ∧
    s.world.ctl.Scheduled ∧ (s.asked = true → s.world.ctl.shuttingDown = true) ∧
    (Machine.Along (EventLoop.step o) (fun s e => s.spares e = true) s₀ evs →
      (∀ id job, s.world.ctl.live.lookup id = some job → job.jobMeta.state ≠ "queued" →
        ∃ l ∈ s.world.log.forks, l.id = id ∧ s.world.log.status l.child = none) ∧
      (0 < s.world.ctl.slotsMax → s.world.ctl.shuttingDown = true ∨ s.world.ctl.queue ≠ [] →
        ∃ l ∈ s.world.log.forks, s.world.log.status l.child = none)) := by
  intro s₀ s hsleep
  have hstart : s₀.Watchful o slots := EventLoop.start_watchful hdown
  have hs : s.Watchful o slots := Machine.run_always (fun _ e h => h.step e) evs hstart
  have hnone := hs.reaped hsleep
  refine ⟨fun l hl hended => ?_, (hs.asleep hsleep.1).1, hs.stopping hsleep, fun hspares => ?_⟩
  · by_contra hr
    have hzombie := mem_zombies.mpr ⟨hl, hended, hr⟩
    rw [hnone] at hzombie
    cases hzombie
  · have hbegin : Attributed s₀.world.view :=
      EventLoop.start_attributed (run_down o slots es hdown) (run_crew (along_any _ _))
    have ha : s.Watchful o slots ∧ Attributed s.world.view :=
      Machine.run_invariant (P := fun s => s.Watchful o slots ∧ Attributed s.world.view)
        (fun _ e h hgood => ⟨h.1.step e, EventLoop.attributed_step h.1.toSound h.2 hgood⟩)
        hspares ⟨hstart, hbegin⟩
    refine ⟨fun id job hlive hstate => hs.working ha.2 hnone hlive hstate, fun hslots hwork => ?_⟩
    obtain ⟨id, job, hlive, hstate⟩ := hs.launched hsleep.1 hslots hwork
    obtain ⟨l, hl, -, hruns⟩ := hs.working ha.2 hnone hlive hstate
    exact ⟨l, hl, hruns⟩

/-- Job 1 has the only slot, and its worker ends. One SIGCHLD brings `reap`, which starts
    job 2; job 3 waits, and the controller sleeps until the worker of job 2 ends. -/
theorem nothing_missed_next :
    let o := Oracle.smooth fun _ i => 7 + i
    let s := Machine.run (EventLoop.step o) (EventLoop.start o (World.start 1))
      [.outside ⟨.record 1 (execMeta 1), rfl⟩, .outside ⟨.record 2 (execMeta 2), rfl⟩,
       .outside ⟨.record 3 (execMeta 3), rfl⟩, .wakes [packWake .fifo 0],
       .next ["SUBMIT 1".toList, "SUBMIT 2".toList, "SUBMIT 3".toList],
       .outside ⟨.exit 6 (.exited 0), rfl⟩, .next [], .wakes [packWake .signal 0], .next [],
       .waitid (some 6), .waitid none, .next []]
    (∀ l ∈ s.world.log.forks, s.world.log.status l.child ≠ none → s.world.log.Reaped l.child) ∧
      ∃ l ∈ s.world.log.forks, s.world.log.status l.child = none := by
  have hmissed := nothing_missed (Oracle.smooth fun _ i => 7 + i) 1 [] rfl
    [.outside ⟨.record 1 (execMeta 1), rfl⟩, .outside ⟨.record 2 (execMeta 2), rfl⟩,
     .outside ⟨.record 3 (execMeta 3), rfl⟩, .wakes [packWake .fifo 0],
     .next ["SUBMIT 1".toList, "SUBMIT 2".toList, "SUBMIT 3".toList],
     .outside ⟨.exit 6 (.exited 0), rfl⟩, .next [], .wakes [packWake .signal 0], .next [],
     .waitid (some 6), .waitid none, .next []]
    ⟨by decide +kernel, by decide +kernel⟩
  exact ⟨hmissed.1, (hmissed.2.2.2 (by decide +kernel)).2 (by decide +kernel)
    (Or.inr (by decide +kernel))⟩

end Forge
