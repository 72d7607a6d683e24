import Forge.Controller.Workers
import Forge.Lib.Ownership

/-!
# The descriptors of the controller and of its workers

`fork` copies the table of descriptors, so a worker closes by number what
`fds_to_close` (controller.cpp:196-218) has collected. Model of the calls that open
and close descriptors on Linux: `Poller` (os/linux/platform.cpp:52-247), `setup`,
`launch_job`, `release_runtime`, `finalize` and the close loop of `worker_entry`
(worker.cpp:590-600). Calls that have closed what they opened when they return
(`save_meta`, `append_job_log`, `proc_starttime`) are left out.

* `Held.launchJob`: everything the controller has open after a launch, failed or
  not, is on the list of `fds_to_close`.
* `Held.run`: so it is in every state of a run.
* `worker_isolated`: a worker has the standard descriptors, its log and its wake
  descriptor open, and nothing else.
* `run_isolated`: that holds of every launch of the controller's model.
-/

namespace Forge

open Ownership

/-! ## The owners -/

/-- `Poller::Impl` (platform.cpp:52-60), without tokens. A timer is the descriptor
    under its id. -/
structure Poller where
  ep : Option ℕ := none
  sig : Option ℕ := none
  nextTimer : ℕ := 1
  timers : AList fun _ : ℕ => ℕ := ∅
  fresh : ∀ id ∈ timers, id < nextTimer := by simp

/-- `struct Notify` (platform.hpp:63-68). -/
structure Notify where
  held : Option ℕ := none
  writeEnd : Option ℕ := none
  childWrite : Option ℕ := none
  childClose : Option ℕ := none

/-- What a `LiveJob` (controller.cpp:51-64) has open. -/
structure JobFds where
  shared : Option ℕ := none
  notify : Notify := {}
  deadlineId : Option ℕ := none
  logFd : Option ℕ := none

/-- What the `Controller` (controller.cpp:66-81) has open, and the table of its
    process. -/
structure Descriptors where
  opened : Finset ℕ
  lockFd : Option ℕ := none
  poller : Poller := {}
  fifoFd : Option ℕ := none
  logFd : Option ℕ := none
  live : AList fun _ : ℕ => JobFds := ∅

/-- Standard input, output and error. -/
def stdFds : Finset ℕ := {0, 1, 2}

/-- A call that opens a descriptor: the lowest that is free, if it succeeds. -/
def openFd (ok : Bool) (opened : Finset ℕ) : Option ℕ × Finset ℕ :=
  if ok then (some (lowestFree opened), insert (lowestFree opened) opened) else (none, opened)

/-! ## `Poller` -/

namespace Poller

/-- `Poller::inherited_fds` (platform.cpp:195-204). -/
def inheritedFds (p : Poller) : List ℕ :=
  p.ep.toList ++ p.sig.toList ++ p.timers.flatVals fun fd => [fd]

/-- Where `Poller::watch_timer` ends. -/
inductive TimerAnswer where
  | notCreated
  | notArmed
  | notWatched
  | watched
  deriving DecidableEq

/-- The timer under the next id (platform.cpp:143-145). -/
def addTimer (p : Poller) (tfd : ℕ) : Poller :=
  { p with
    nextTimer := p.nextTimer + 1
    timers := p.timers.insert p.nextTimer tfd
    fresh := by
      intro id hid
      rcases AList.mem_insert p.timers |>.mp hid with rfl | hid
      · exact Nat.lt_succ_self _
      · exact (p.fresh id hid).trans (Nat.lt_succ_self _) }

/-- `Poller::watch_timer` (platform.cpp:122-147): the timer's id. -/
def watchTimer (answer : TimerAnswer) (p : Poller) (opened : Finset ℕ) :
    Option ℕ × Poller × Finset ℕ :=
  match openFd (answer ≠ .notCreated) opened with
  | (none, opened) => (none, p, opened)
  | (some tfd, opened) =>
    if answer = .watched then (some p.nextTimer, p.addTimer tfd, opened)
    else (none, p, close (some tfd) opened)

/-- The poller without a timer (platform.cpp:152-155). -/
def removeTimer (p : Poller) (id : ℕ) : Poller :=
  { p with
    timers := p.timers.erase id
    fresh := fun id' hid => p.fresh id' (AList.mem_erase.mp hid).2 }

/-- `Poller::unwatch_timer` (platform.cpp:149-156). -/
def unwatchTimer (id : ℕ) (p : Poller) (opened : Finset ℕ) : Poller × Finset ℕ :=
  match p.timers.lookup id with
  | none => (p, opened)
  | some fd => (p.removeTimer id, close (some fd) opened)

end Poller

open Poller (TimerAnswer)

/-! ## Releasing a job -/

/-- What a job has open, in the order of `fds_to_close` (controller.cpp:212-215). -/
def JobFds.fds (job : JobFds) : List ℕ :=
  job.notify.held.toList ++ job.notify.writeEnd.toList ++ job.shared.toList ++ job.logFd.toList

/-- The destructors of `job.log_fd`, `job.notify` and `job.shared`. -/
def JobFds.destroy (job : JobFds) (opened : Finset ℕ) : Finset ℕ :=
  close job.shared (close job.notify.held (close job.notify.writeEnd (close job.logFd opened)))

namespace Descriptors

/-- `fds_to_close` (controller.cpp:196-218). -/
def fdsToClose (d : Descriptors) : List ℕ :=
  d.poller.inheritedFds ++ d.fifoFd.toList ++ d.logFd.toList ++ d.lockFd.toList ++
    d.live.flatVals JobFds.fds

/-- `c.live.erase(id)`. -/
def eraseJob (id : ℕ) (d : Descriptors) : Descriptors :=
  match d.live.lookup id with
  | none => d
  | some job => { d with opened := job.destroy d.opened, live := d.live.erase id }

/-- The timer of a job in `release_runtime` (controller.cpp:162-165). -/
def dropDeadline (job : JobFds) (d : Descriptors) : Descriptors :=
  match job.deadlineId with
  | none => d
  | some timer =>
    { d with
      poller := (d.poller.unwatchTimer timer d.opened).1
      opened := (d.poller.unwatchTimer timer d.opened).2 }

/-- `release_runtime` (controller.cpp:157-174) for the job that is live as `id`. -/
def releaseRuntime (id : ℕ) (job : JobFds) (d : Descriptors) : Descriptors :=
  let opened := close job.notify.writeEnd (close job.notify.held (close job.shared d.opened))
  let job := { job with shared := none, notify := {} }
  let d := { d with opened, live := d.live.insert id job }.dropDeadline job
  { d with opened := close job.logFd d.opened, live := d.live.insert id {} }

/-- The end of `finalize` (controller.cpp:416-417). -/
def finalize (id : ℕ) (d : Descriptors) : Descriptors :=
  match d.live.lookup id with
  | none => d
  | some job => (d.releaseRuntime id job).eraseJob id

end Descriptors

/-! ## Launching a job -/

/-- The answers to the calls of `launch_job` that the descriptors depend on. -/
structure LaunchCalls where
  /-- `inspect_file` finds a regular file. -/
  regular : Bool
  openLog : Bool
  memfd : Bool
  /-- `ftruncate` and `mmap`. -/
  mapped : Bool
  eventfd : Bool
  /-- The `i`-th `fork`. -/
  fork : ℕ → Bool
  timer : TimerAnswer

/-- A worker after the close loop of `worker_entry`: its table, and the descriptors
    of its `WorkerLaunch` (forge.hpp:406-418). `shared` is the controller's number
    for the shared memory. -/
structure WorkerFds where
  job : ℕ
  chunkIndex : ℕ
  logFd : ℕ
  eventFd : Option ℕ
  shared : Option ℕ
  opened : Finset ℕ

/-- `create_shared_map` (platform.cpp:206-225): whether it succeeds, and the
    descriptor, which stays open on failure. -/
def createSharedMap (a : LaunchCalls) (opened : Finset ℕ) : Bool × Option ℕ × Finset ℕ :=
  match openFd a.memfd opened with
  | (none, opened) => (false, none, opened)
  | (some fd, opened) => (a.mapped, some fd, opened)

/-- `create_notify` (platform.cpp:235-247). -/
def createNotify (a : LaunchCalls) (opened : Finset ℕ) : Bool × Notify × Finset ℕ :=
  match openFd a.eventfd opened with
  | (none, opened) => (false, {}, opened)
  | (some fd, opened) => (true, { held := some fd, childWrite := some fd }, opened)

/-- The close loop of `worker_entry` (worker.cpp:596-600), in the copy of the table
    that `fork` made. -/
def closeLoop (closeFds : List ℕ) (logFd : ℕ) (eventFd : Option ℕ) (opened : Finset ℕ) :
    Finset ℕ :=
  closeExcept (fun fd => fd = logFd || some fd = eventFd) closeFds opened

namespace Descriptors

/-- The end of the scope of `log_fd`, `shared` and `notify` in `launch_job`, when
    they have not been moved into the job. -/
def leaveScope (logFd : ℕ) (shared : Option ℕ) (notify : Notify) (d : Descriptors) : Descriptors :=
  { d with
    opened :=
      close (some logFd) (close shared (close notify.held (close notify.writeEnd d.opened))) }

/-- `launch_job` once everything is forked (controller.cpp:611-633). -/
def keepJob (a : LaunchCalls) (id : ℕ) (m : Meta) (job : JobFds) (logFd : ℕ) (shared : Option ℕ)
    (notify : Notify) (d : Descriptors) : Descriptors :=
  -- Moving into the job closes what it held.
  let opened := job.destroy d.opened
  if m.deadlineS > 0 then
    let (deadlineId, poller, opened) := d.poller.watchTimer a.timer opened
    { d with opened, poller, live := d.live.insert id ⟨shared, notify, deadlineId, some logFd⟩ }
  else { d with opened, live := d.live.insert id ⟨shared, notify, job.deadlineId, some logFd⟩ }

/-- `launch_job` from the fork loop on (controller.cpp:545-633): the workers, each
    after its close loop. -/
def spawnJob (a : LaunchCalls) (id : ℕ) (m : Meta) (job : JobFds) (logFd : ℕ) (shared : Option ℕ)
    (notify : Notify) (d : Descriptors) : List WorkerFds × Descriptors :=
  let closeFds := d.fdsToClose ++ notify.childClose.toList ++ shared.toList
  let chunks := List.range (launchRanges m).length
  let workers := (chunks.takeWhile a.fork).map fun i =>
    ⟨id, i, logFd, notify.childWrite, shared, closeLoop closeFds logFd notify.childWrite d.opened⟩
  (workers, if chunks.all a.fork then d.keepJob a id m job logFd shared notify
    else (d.eraseJob id).leaveScope logFd shared notify)

/-- `launch_job` with the log open (controller.cpp:528-633). -/
def prepareJob (a : LaunchCalls) (id : ℕ) (m : Meta) (job : JobFds) (logFd : ℕ) (d : Descriptors) :
    List WorkerFds × Descriptors :=
  if m.op = "exec" then d.spawnJob a id m job logFd none {}
  else
    match createSharedMap a d.opened with
    | (false, shared, opened) => ([], ({ d with opened }.eraseJob id).leaveScope logFd shared {})
    | (true, shared, opened) =>
      match createNotify a opened with
      | (false, notify, opened) =>
        ([], ({ d with opened }.eraseJob id).leaveScope logFd shared notify)
      | (true, notify, opened) => { d with opened }.spawnJob a id m job logFd shared notify

/-- `launch_job` (controller.cpp:490-633) with the record `m` that it forks with. -/
def launchJob (a : LaunchCalls) (id : ℕ) (m : Meta) (d : Descriptors) :
    List WorkerFds × Descriptors :=
  match d.live.lookup id with
  | none => ([], d)
  | some job =>
    if m.op ≠ "exec" ∧ a.regular = false then ([], (d.releaseRuntime id job).eraseJob id)
    else
      match openFd a.openLog d.opened with
      | (none, opened) => ([], { d with opened }.eraseJob id)
      | (some logFd, opened) => { d with opened }.prepareJob a id m job logFd

end Descriptors

/-! ## Start-up and runs -/

/-- How `acquire_controller_lock` ends. -/
inductive LockAnswer where
  | notOpened
  | notLocked
  | locked
  deriving DecidableEq

/-- The answers to the calls of `setup`. -/
structure SetupCalls where
  workspace : Bool
  lock : LockAnswer
  pidFile : Bool
  sigmask : Bool
  signalfd : Bool
  epoll : Bool
  fifo : Bool
  log : Bool
  watchSignals : Bool
  watchFifo : Bool
  tick : TimerAnswer

/-- `acquire_controller_lock` (store.cpp:192-216). -/
def acquireControllerLock (answer : LockAnswer) (opened : Finset ℕ) : Option ℕ × Finset ℕ :=
  match openFd (answer ≠ .notOpened) opened with
  | (none, opened) => (none, opened)
  | (some fd, opened) =>
    if answer = .locked then (some fd, opened) else (none, close (some fd) opened)

/-- `Poller::open` (platform.cpp:74-95). -/
def Poller.open (a : SetupCalls) (opened : Finset ℕ) : Option (Poller × Finset ℕ) := do
  guard a.sigmask
  let (sig, opened) := openFd a.signalfd opened
  let (ep, opened) := openFd a.epoll opened
  guard (sig.isSome ∧ ep.isSome)
  some ({ ep, sig }, opened)

/-- `setup` (controller.cpp:810-836) of a process that was started with the
    descriptors `base`. The controller ends when it fails. -/
def setup (a : SetupCalls) (base : Finset ℕ) : Option Descriptors := do
  guard a.workspace
  let (lockFd, opened) := acquireControllerLock a.lock base
  guard (lockFd.isSome ∧ a.pidFile)
  let (poller, opened) ← Poller.open a opened
  let (fifoFd, opened) := openFd a.fifo opened
  let (logFd, opened) := openFd a.log opened
  guard (fifoFd.isSome ∧ logFd.isSome)
  guard (a.watchSignals ∧ a.watchFifo)
  let (tick, poller, opened) := poller.watchTimer a.tick opened
  guard tick.isSome
  some { opened, lockFd, poller, fifoFd, logFd }

/-- A call of the controller that changes its descriptors. -/
inductive FdCall where
  /-- `enqueue` puts a job into `c.live` (controller.cpp:485). -/
  | enter (id : ℕ)
  | launch (id : ℕ) (m : Meta) (answers : LaunchCalls)
  /-- `on_cancel` erases a queued job (controller.cpp:660). -/
  | cancel (id : ℕ)
  | finalize (id : ℕ)

namespace Descriptors

/-- A call, and the workers that it forks. -/
def call (d : Descriptors) : FdCall → List WorkerFds × Descriptors
  | .enter id => ([], if id ∈ d.live then d else { d with live := d.live.insert id {} })
  | .launch id m answers => d.launchJob answers id m
  | .cancel id => ([], d.eraseJob id)
  | .finalize id => ([], d.finalize id)

/-- Any number of calls, and the workers that they fork, in order. -/
def run (d : Descriptors) : List FdCall → List WorkerFds × Descriptors
  | [] => ([], d)
  | c :: cs => ((d.call c).1 ++ ((d.call c).2.run cs).1, ((d.call c).2.run cs).2)

end Descriptors

/-! ## Every descriptor has an owner -/

/-- What the process has open, apart from what it was started with, is what
    `fds_to_close` lists and what a function on the stack still holds. -/
def Held (base : Finset ℕ) (d : Descriptors) (stack : List ℕ) : Prop :=
  Owned base d.opened (Multiset.ofList d.fdsToClose + Multiset.ofList stack)

variable {base opened : Finset ℕ} {owned : Multiset ℕ} {d : Descriptors} {id : ℕ} {job : JobFds}

theorem owned_openFd (howned : Owned base opened owned) (ok : Bool) :
    Owned base (openFd ok opened).2 (Multiset.ofList (openFd ok opened).1.toList + owned) := by
  unfold openFd
  split_ifs
  · exact howned.acquire (lowestFree_notMem opened)
  · exact howned.congr (zero_add owned).symm

theorem openFd_owned {ok : Bool} {fd : Option ℕ} {opened' : Finset ℕ}
    (h : openFd ok opened = (fd, opened')) (howned : Owned base opened owned) :
    Owned base opened' (Multiset.ofList fd.toList + owned) := by
  have hopen := owned_openFd howned ok
  rwa [h] at hopen

namespace Poller

variable {p : Poller}

theorem inheritedFds_addTimer (tfd : ℕ) :
    Multiset.ofList (p.addTimer tfd).inheritedFds = {tfd} + Multiset.ofList p.inheritedFds := by
  have hnew : p.timers.erase p.nextTimer = p.timers := by
    apply AList.erase_of_lookup_none
    rw [AList.lookup_eq_none]
    exact fun hmem => (p.fresh _ hmem).false
  simp only [inheritedFds, addTimer, AList.flatVals_insert, hnew, ← Multiset.coe_add,
    Multiset.coe_singleton]
  abel

theorem inheritedFds_removeTimer {timer fd : ℕ} (h : p.timers.lookup timer = some fd) :
    Multiset.ofList p.inheritedFds = {fd} + Multiset.ofList (p.removeTimer timer).inheritedFds := by
  have hperm := Multiset.coe_eq_coe.mpr (AList.flatVals_erase (f := fun fd => [fd]) h)
  simp only [inheritedFds, removeTimer, ← Multiset.coe_add, hperm, Multiset.coe_singleton]
  abel

theorem watchTimer_owned (answer : TimerAnswer)
    (howned : Owned base opened (Multiset.ofList p.inheritedFds + owned)) :
    Owned base (p.watchTimer answer opened).2.2
      (Multiset.ofList (p.watchTimer answer opened).2.1.inheritedFds + owned) := by
  unfold watchTimer
  split
  · next opened₁ hopen => exact (openFd_owned hopen howned).congr (zero_add _)
  · next tfd opened₁ hopen =>
    have hnew := openFd_owned hopen howned
    split_ifs with hwatched
    · exact hnew.congr (by rw [inheritedFds_addTimer, add_assoc]; rfl)
    · exact hnew.close

theorem unwatchTimer_owned (timer : ℕ)
    (howned : Owned base opened (Multiset.ofList p.inheritedFds + owned)) :
    Owned base (p.unwatchTimer timer opened).2
      (Multiset.ofList (p.unwatchTimer timer opened).1.inheritedFds + owned) := by
  unfold unwatchTimer
  split
  · exact howned
  · next fd hlookup =>
    rw [inheritedFds_removeTimer hlookup, add_assoc] at howned
    exact Owned.close (o := some fd) howned

end Poller

/-! ## Releasing keeps every owner -/

theorem JobFds.coe_fds (job : JobFds) :
    Multiset.ofList job.fds = Multiset.ofList job.notify.held.toList +
      Multiset.ofList job.notify.writeEnd.toList + Multiset.ofList job.shared.toList +
      Multiset.ofList job.logFd.toList := by
  simp only [JobFds.fds, ← Multiset.coe_add]

theorem JobFds.destroy_owned (howned : Owned base opened (Multiset.ofList job.fds + owned)) :
    Owned base (job.destroy opened) owned := by
  refine Owned.close (Owned.close (Owned.close (Owned.close (howned.congr ?_))))
  rw [job.coe_fds]
  abel

namespace Descriptors

/-- What `fds_to_close` lists besides the descriptors of live jobs. -/
def common (d : Descriptors) : Multiset ℕ :=
  Multiset.ofList d.poller.inheritedFds + Multiset.ofList d.fifoFd.toList +
    Multiset.ofList d.logFd.toList + Multiset.ofList d.lockFd.toList

theorem coe_fdsToClose (d : Descriptors) :
    Multiset.ofList d.fdsToClose = d.common + Multiset.ofList (d.live.flatVals JobFds.fds) := by
  simp only [fdsToClose, common, ← Multiset.coe_add]

/-- The descriptors of one live job and the others. -/
theorem coe_fdsToClose_of_live (h : d.live.lookup id = some job) :
    Multiset.ofList d.fdsToClose = Multiset.ofList job.fds +
      (d.common + Multiset.ofList ((d.live.erase id).flatVals JobFds.fds)) := by
  have hperm := Multiset.coe_eq_coe.mpr (AList.flatVals_erase (f := JobFds.fds) h)
  rw [coe_fdsToClose, hperm, ← Multiset.coe_add]
  abel

end Descriptors

open Descriptors

variable {stack : List ℕ}

/-- A call that opens or closes descriptors of the stack leaves the others alone. -/
theorem Held.of_owned
    (h : Owned base opened (Multiset.ofList stack + Multiset.ofList d.fdsToClose)) :
    Held base { d with opened } stack :=
  h.congr (add_comm _ _)

/-- A job that holds nothing is entered, or replaces one whose descriptors are closed. -/
theorem Held.of_insert {fds : JobFds}
    (howned : Owned base opened (Multiset.ofList fds.fds +
      (d.common + Multiset.ofList ((d.live.erase id).flatVals JobFds.fds)) +
      Multiset.ofList stack)) :
    Held base { d with opened, live := d.live.insert id fds } stack := by
  refine howned.congr ?_
  rw [coe_fdsToClose]
  simp only [common, AList.flatVals_insert, ← Multiset.coe_add]
  abel

theorem Held.eraseJob (h : Held base d stack) : Held base (d.eraseJob id) stack := by
  unfold Descriptors.eraseJob
  split
  · exact h
  · next job hlookup =>
    unfold Held at h
    rw [coe_fdsToClose_of_live hlookup, add_assoc] at h
    refine (JobFds.destroy_owned h).congr ?_
    rw [coe_fdsToClose]
    rfl

theorem Held.dropDeadline (h : Held base d stack) : Held base (d.dropDeadline job) stack := by
  unfold Descriptors.dropDeadline
  split
  · exact h
  · next timer _ =>
    have hpoller : Owned base d.opened (Multiset.ofList d.poller.inheritedFds +
        (Multiset.ofList d.fifoFd.toList + Multiset.ofList d.logFd.toList +
          Multiset.ofList d.lockFd.toList +
          Multiset.ofList (d.live.flatVals JobFds.fds) + Multiset.ofList stack)) := by
      refine Owned.congr h ?_
      rw [coe_fdsToClose, common]
      abel
    refine (Poller.unwatchTimer_owned timer hpoller).congr ?_
    rw [coe_fdsToClose, common]
    abel

@[simp] theorem dropDeadline_live (job : JobFds) (d : Descriptors) :
    (d.dropDeadline job).live = d.live := by
  unfold Descriptors.dropDeadline
  split <;> rfl

theorem Held.releaseRuntime (h : Held base d stack) (hlive : d.live.lookup id = some job) :
    Held base (d.releaseRuntime id job) stack := by
  unfold Held at h
  rw [coe_fdsToClose_of_live hlive, job.coe_fds] at h
  -- The shared memory and the notification are closed, the log is left.
  have hlog : Held base { d with
      opened := close job.notify.writeEnd (close job.notify.held (close job.shared d.opened))
      live := d.live.insert id { job with shared := none, notify := {} } } stack := by
    refine Held.of_insert (Owned.close (Owned.close (Owned.close (h.congr ?_))))
    simp only [JobFds.coe_fds, Option.toList_none, Multiset.coe_nil]
    abel
  have hdeadline := @Held.dropDeadline base _ { job with shared := none, notify := {} } stack hlog
  unfold Held at hdeadline
  rw [coe_fdsToClose_of_live (by rw [dropDeadline_live, AList.lookup_insert]), JobFds.coe_fds]
    at hdeadline
  refine Held.of_insert (Owned.close (hdeadline.congr ?_))
  simp only [JobFds.coe_fds, Option.toList_none, Multiset.coe_nil]
  abel

theorem Held.finalize (h : Held base d stack) : Held base (d.finalize id) stack := by
  unfold Descriptors.finalize
  split
  · exact h
  · next hlive => exact (h.releaseRuntime hlive).eraseJob

/-! ## Launching keeps every owner -/

/-- The notification is an `eventfd`: the worker writes to what the controller holds. -/
structure Notify.Linux (n : Notify) : Prop where
  writeEnd : n.writeEnd = none
  childWrite : n.childWrite = n.held
  childClose : n.childClose = none

theorem Notify.linux_none : Notify.Linux {} := ⟨rfl, rfl, rfl⟩

/-- What `launch_job` holds on its stack before it forks. -/
def launchStack (logFd : ℕ) (shared : Option ℕ) (notify : Notify) : List ℕ :=
  shared.toList ++ (logFd :: notify.held.toList)

variable {a : LaunchCalls} {logFd : ℕ} {shared : Option ℕ} {notify : Notify}

theorem createSharedMap_owned {opened' : Finset ℕ} {ok : Bool}
    (h : createSharedMap a opened = (ok, shared, opened')) (howned : Owned base opened owned) :
    (ok = true → shared.isSome = true) ∧
      Owned base opened' (Multiset.ofList shared.toList + owned) := by
  unfold createSharedMap at h
  split at h
  · next hopen =>
    cases h
    exact ⟨fun hok => absurd hok (by decide), openFd_owned hopen howned⟩
  · next hopen =>
    cases h
    exact ⟨fun _ => rfl, openFd_owned hopen howned⟩

theorem createNotify_owned {opened' : Finset ℕ} {ok : Bool}
    (h : createNotify a opened = (ok, notify, opened')) (howned : Owned base opened owned) :
    notify.Linux ∧ (ok = true → notify.held.isSome = true) ∧
      Owned base opened' (Multiset.ofList notify.held.toList + owned) := by
  unfold createNotify at h
  split at h
  · next hopen =>
    cases h
    exact ⟨Notify.linux_none, fun hok => absurd hok (by decide), openFd_owned hopen howned⟩
  · next hopen =>
    cases h
    exact ⟨⟨rfl, rfl, rfl⟩, fun _ => rfl, openFd_owned hopen howned⟩

theorem coe_launchStack : Multiset.ofList (launchStack logFd shared notify) =
    Multiset.ofList shared.toList + {logFd} + Multiset.ofList notify.held.toList := by
  simp only [launchStack, ← Multiset.coe_add, ← Multiset.cons_coe, ← Multiset.singleton_add]
  abel

/-- The stack of `launch_job` becomes the job. -/
theorem coe_fds_launched (hn : notify.Linux) (deadlineId : Option ℕ) :
    Multiset.ofList (JobFds.fds ⟨shared, notify, deadlineId, some logFd⟩) =
      Multiset.ofList (launchStack logFd shared notify) := by
  simp only [JobFds.coe_fds, coe_launchStack, hn.writeEnd, Option.toList_none, Option.toList_some,
    Multiset.coe_nil, Multiset.coe_singleton]
  abel

theorem Held.leaveScope (h : Held base d (launchStack logFd shared notify)) (hn : notify.Linux) :
    Held base (d.leaveScope logFd shared notify) [] := by
  refine Owned.close (Owned.close (Owned.close (Owned.close (Owned.congr h ?_))))
  have hsame : (d.leaveScope logFd shared notify).fdsToClose = d.fdsToClose := rfl
  rw [hsame, coe_launchStack, hn.writeEnd]
  simp only [Option.toList_none, Option.toList_some, Multiset.coe_nil, Multiset.coe_singleton,
    add_zero]
  abel

theorem Held.keepJob (h : Held base d (launchStack logFd shared notify)) (hn : notify.Linux)
    (hlive : d.live.lookup id = some job) (m : Meta) :
    Held base (d.keepJob a id m job logFd shared notify) [] := by
  unfold Held at h
  rw [coe_fdsToClose_of_live hlive, add_assoc] at h
  have hclosed := JobFds.destroy_owned h
  unfold Descriptors.keepJob
  split_ifs with hdeadline
  · rcases htimer : d.poller.watchTimer a.timer (job.destroy d.opened) with ⟨timer, poller, opened⟩
    have hpoller := Poller.watchTimer_owned a.timer (hclosed.congr (by
      rw [common, add_assoc, add_assoc, add_assoc, add_assoc]))
    rw [htimer] at hpoller
    simp only [htimer]
    refine Held.of_insert (d := { d with poller }) (hpoller.congr ?_)
    rw [coe_fds_launched hn, common, Multiset.coe_nil]
    abel
  · refine Held.of_insert (hclosed.congr ?_)
    rw [coe_fds_launched hn, Multiset.coe_nil]
    abel

/-! ## What a worker has open -/

/-- The worker has what the process was started with, its log and, for a built-in
    operation, its wake descriptor open, and nothing else. `inherited` is what else
    the controller had open when it forked. -/
structure WorkerFds.Isolated (base : Finset ℕ) (exec : Bool) (inherited : List ℕ) (w : WorkerFds) :
    Prop where
  opened : w.opened = base ∪ insert w.logFd w.eventFd.toFinset
  eventFd : w.eventFd.isSome = !exec
  shared : w.shared.isSome = !exec
  closed : ∀ fd ∈ w.shared.toList ++ inherited, fd ∉ w.opened
  kept : ∀ fd ∈ insert w.logFd w.eventFd.toFinset, fd ∉ base

/-- The close loop of a worker that is forked with the stack of `launch_job`. -/
theorem Held.closeLoop (h : Held base d (launchStack logFd shared notify)) (hn : notify.Linux) :
    closeLoop (d.fdsToClose ++ notify.childClose.toList ++ shared.toList) logFd notify.childWrite
      d.opened = base ∪ insert logFd notify.held.toFinset := by
  have howned : Owned base d.opened
      (Multiset.ofList (d.fdsToClose ++ notify.childClose.toList ++ shared.toList) +
        Multiset.ofList (logFd :: notify.held.toList)) := by
    refine Owned.congr h ?_
    rw [hn.childClose]
    simp only [launchStack, ← Multiset.coe_add, Option.toList_none, Multiset.coe_nil]
    abel
  have hkeep : ∀ fd, (fd = logFd || some fd = notify.childWrite : Bool) = true ↔
      fd ∈ logFd :: notify.held.toList := by
    intro fd
    rw [hn.childWrite, List.mem_cons, Option.mem_toList, Bool.or_eq_true,
      decide_eq_true_iff, decide_eq_true_iff, eq_comm (b := notify.held)]
  rw [Forge.closeLoop, Owned.closeExcept howned hkeep, List.toFinset_cons]
  cases notify.held <;> rfl

theorem Held.isolated {exec : Bool} {i : ℕ} (h : Held base d (launchStack logFd shared notify))
    (hn : notify.Linux) (hheld : notify.held.isSome = !exec) (hshared : shared.isSome = !exec) :
    WorkerFds.Isolated base exec d.fdsToClose ⟨id, i, logFd, notify.childWrite, shared,
      Forge.closeLoop (d.fdsToClose ++ notify.childClose.toList ++ shared.toList) logFd
        notify.childWrite d.opened⟩ := by
  have hstack : ∀ fd ∈ insert logFd notify.held.toFinset, fd ∈ logFd :: notify.held.toList := by
    intro fd hfd
    simpa using hfd
  have hnodup : (d.fdsToClose ++ launchStack logFd shared notify).Nodup :=
    Multiset.coe_nodup.mp (Owned.nodup h)
  have hdisjoint : ∀ fd ∈ shared.toList ++ d.fdsToClose, fd ∉ logFd :: notify.held.toList := by
    intro fd hfd hkept
    obtain ⟨_, hstack, hsplit⟩ := List.nodup_append.mp hnodup
    rcases List.mem_append.mp hfd with hfd | hfd
    · exact (List.nodup_append.mp hstack).2.2 fd hfd fd hkept rfl
    · exact hsplit fd hfd fd (List.mem_append_right _ hkept) rfl
  refine ⟨?_, by rw [hn.childWrite, hheld], hshared, ?_, ?_⟩
  · rw [h.closeLoop hn, hn.childWrite]
  · intro fd hfd hopen
    rw [h.closeLoop hn] at hopen
    rcases Finset.mem_union.mp hopen with hbase | hkept
    · refine Owned.notMem_base h ?_ hbase
      rw [Multiset.mem_add, Multiset.mem_coe, Multiset.mem_coe, launchStack, List.mem_append]
      rcases List.mem_append.mp hfd with hfd | hfd
      · exact Or.inr (Or.inl hfd)
      · exact Or.inl hfd
    · exact hdisjoint fd hfd (hstack fd hkept)
  · intro fd hfd
    rw [hn.childWrite] at hfd
    refine Owned.notMem_base h (Multiset.mem_add.mpr (Or.inr ?_))
    exact List.mem_append_right _ (hstack fd hfd)

/-! ## Launches and runs -/

/-- What a call that starts with nothing on the stack does: its workers are isolated
    from what was open before it, and every descriptor has an owner after it. -/
structure Isolating (base : Finset ℕ) (exec : Bool) (d : Descriptors)
    (result : List WorkerFds × Descriptors) : Prop where
  workers : ∀ w ∈ result.1, w.Isolated base exec d.fdsToClose
  held : Held base result.2 []

theorem Held.isolating {exec : Bool} {d' : Descriptors} (h : Held base d' []) :
    Isolating base exec d ([], d') :=
  ⟨fun _ hw => absurd hw List.not_mem_nil, h⟩

theorem Held.spawnJob {m : Meta} {exec : Bool} (h : Held base d (launchStack logFd shared notify))
    (hn : notify.Linux) (hheld : notify.held.isSome = !exec) (hshared : shared.isSome = !exec)
    (hlive : d.live.lookup id = some job) :
    Isolating base exec d (d.spawnJob a id m job logFd shared notify) where
  workers := by
    intro w hw
    obtain ⟨i, _, rfl⟩ := List.mem_map.mp hw
    exact h.isolated hn hheld hshared
  held := by
    unfold Descriptors.spawnJob
    dsimp only
    split_ifs
    · exact h.keepJob hn hlive m
    · exact h.eraseJob.leaveScope hn

theorem Held.prepareJob {m : Meta} (h : Held base d [logFd]) (hlive : d.live.lookup id = some job) :
    Isolating base (m.op = "exec") d (d.prepareJob a id m job logFd) := by
  unfold Descriptors.prepareJob
  split_ifs with hexec
  · have hstack : Held base d (launchStack logFd none {}) := h
    exact hstack.spawnJob Notify.linux_none (by simp [hexec]) (by simp [hexec]) hlive
  · split
    · next shared opened hshared =>
      obtain ⟨_, howned⟩ := createSharedMap_owned hshared h
      have hstack : Held base { d with opened } (launchStack logFd shared {}) := by
        refine Held.of_owned (howned.congr ?_)
        simp only [coe_launchStack, Option.toList_none, Multiset.coe_nil, Multiset.coe_singleton]
        abel
      exact (hstack.eraseJob.leaveScope Notify.linux_none).isolating
    · next shared opened hshared =>
      obtain ⟨hmapped, hsharedOwned⟩ := createSharedMap_owned hshared h
      -- What `create_notify` holds is on the stack, whether or not it succeeds.
      have hstack : ∀ {ok : Bool} {notify : Notify} {opened' : Finset ℕ},
          createNotify a opened = (ok, notify, opened') → notify.Linux ∧
          (ok = true → notify.held.isSome = true) ∧
          Held base { d with opened := opened' } (launchStack logFd shared notify) := by
        intro ok notify opened' hnotify
        obtain ⟨hlinux, hok, howned⟩ := createNotify_owned hnotify hsharedOwned
        refine ⟨hlinux, hok, Held.of_owned (howned.congr ?_)⟩
        simp only [coe_launchStack, Multiset.coe_singleton]
        abel
      split
      · next notify opened hnotify =>
        obtain ⟨hlinux, _, hheld⟩ := hstack hnotify
        exact (hheld.eraseJob.leaveScope hlinux).isolating
      · next notify opened hnotify =>
        obtain ⟨hlinux, hok, hheld⟩ := hstack hnotify
        have hstep : Isolating base (m.op = "exec") { d with opened }
            ({ d with opened }.spawnJob a id m job logFd shared notify) :=
          hheld.spawnJob hlinux (by simpa [hexec] using hok rfl)
            (by simpa [hexec] using hmapped rfl) hlive
        exact ⟨hstep.workers, hstep.held⟩

theorem Held.launchJob (h : Held base d []) (a : LaunchCalls) (id : ℕ) (m : Meta) :
    Isolating base (m.op = "exec") d (d.launchJob a id m) := by
  unfold Descriptors.launchJob
  split
  · exact h.isolating
  · next job hlive =>
    split_ifs with hregular
    · exact (h.releaseRuntime hlive).eraseJob.isolating
    · split
      · next opened hopen =>
        exact (Held.eraseJob (d := { d with opened }) (openFd_owned hopen h)).isolating
      · next logFd opened hopen =>
        have hlog : Held base { d with opened } [logFd] := by
          refine Held.of_owned ((openFd_owned hopen h).congr ?_)
          rw [Multiset.coe_nil, add_zero, Option.toList_some]
        have hstep := hlog.prepareJob (a := a) (m := m) hlive
        exact ⟨hstep.workers, hstep.held⟩

theorem Held.call (h : Held base d []) (c : FdCall) : Held base (d.call c).2 [] := by
  cases c with
  | enter id =>
    unfold Descriptors.call
    dsimp only
    split_ifs with hmem
    · exact h
    · refine Held.of_insert (Owned.congr h ?_)
      have hnew : d.live.erase id = d.live :=
        AList.erase_of_lookup_none (AList.lookup_eq_none.mpr hmem)
      rw [hnew, coe_fdsToClose, JobFds.coe_fds]
      simp only [Option.toList_none, Multiset.coe_nil, zero_add, add_zero]
  | launch id m answers => exact (h.launchJob answers id m).held
  | cancel id => exact h.eraseJob
  | finalize id => exact h.finalize

theorem Held.run (h : Held base d []) (cs : List FdCall) : Held base (d.run cs).2 [] := by
  induction cs generalizing d with
  | nil => exact h
  | cons c cs ih => exact ih (h.call c)

theorem owned_acquireControllerLock (howned : Owned base opened owned)
    (answer : LockAnswer) : Owned base (acquireControllerLock answer opened).2
      (Multiset.ofList (acquireControllerLock answer opened).1.toList + owned) := by
  unfold acquireControllerLock
  split
  · next hopen => exact openFd_owned hopen howned
  · next fd opened' hopen =>
    have hnew := openFd_owned hopen howned
    split_ifs
    · exact hnew
    · exact hnew.close.congr (zero_add owned).symm

theorem Poller.open_owned {a : SetupCalls} {p : Poller} {opened' : Finset ℕ}
    (h : Poller.open a opened = some (p, opened')) (howned : Owned base opened owned) :
    Owned base opened' (Multiset.ofList p.inheritedFds + owned) := by
  unfold Poller.open at h
  simp only [Option.bind_eq_bind, Option.bind_eq_some_iff] at h
  obtain ⟨_, _, _, _, h⟩ := h
  obtain ⟨rfl, rfl⟩ := Prod.mk.inj (Option.some.inj h)
  have hopened := owned_openFd (owned_openFd howned a.signalfd) a.epoll
  refine hopened.congr ?_
  simp only [inheritedFds, AList.flatVals_empty, List.append_nil, ← Multiset.coe_add, add_assoc]

/-- Every descriptor that `setup` has opened is a member of the controller. -/
theorem setup_held {a : SetupCalls} (h : setup a base = some d) : Held base d [] := by
  simp only [setup, Option.bind_eq_bind, Option.bind_eq_some_iff] at h
  obtain ⟨_, _, _, _, ⟨poller, opened⟩, hpoller, _, _, _, _, _, _, h⟩ := h
  have hpolled := Poller.open_owned hpoller (owned_acquireControllerLock Owned.start a.lock)
  have hopened := owned_openFd (owned_openFd hpolled a.fifo) a.log
  have htimer := Poller.watchTimer_owned (p := poller) a.tick (hopened.congr (by
    rw [← add_assoc, add_left_comm]))
  obtain rfl := Option.some.inj h
  refine htimer.congr ?_
  simp only [coe_fdsToClose, common, AList.flatVals_empty, Multiset.coe_nil, add_zero]
  abel

/-! ## No descriptor leaks into a worker -/

/-- Every worker that `launch_job` forks, from any state of a controller that was
    started with the standard descriptors open, whether or not the launch succeeds. -/
theorem worker_isolated {a : SetupCalls} {d : Descriptors} (hsetup : setup a stdFds = some d)
    (cs : List FdCall) (id : ℕ) (m : Meta) (answers : LaunchCalls) :
    ∀ w ∈ ((d.run cs).2.launchJob answers id m).1,
      w.Isolated stdFds (m.op = "exec") (d.run cs).2.fdsToClose :=
  (((setup_held hsetup).run cs).launchJob answers id m).workers

/-- Every call succeeds. -/
def SetupCalls.succeed : SetupCalls :=
  ⟨true, .locked, true, true, true, true, true, true, true, true, .watched⟩

/-- Every call succeeds, up to the forks after the first `n`. -/
def LaunchCalls.succeed (n : ℕ) : LaunchCalls :=
  ⟨true, true, true, true, true, fun i => i < n, .watched⟩

/-- The second job is forked while an `exec` job with a deadline runs. -/
theorem worker_isolated_second : ∃ d, setup .succeed stdFds = some d ∧
    let cs := [.enter 1, .launch 1 { id := 1, op := "exec", deadlineS := 5 } (.succeed 1), .enter 2]
    let m : Meta := { id := 2, op := "count", workers := 2, bytes := 10 }
    ((d.run cs).2.launchJob (.succeed 2) 2 m).1.length = 2 ∧
      ∀ w ∈ ((d.run cs).2.launchJob (.succeed 2) 2 m).1,
        w.Isolated stdFds false (d.run cs).2.fdsToClose :=
  ⟨_, rfl, by decide +kernel, worker_isolated (a := .succeed) rfl _ 2 _ (.succeed 2)⟩

/-! ## The launches of the controller -/

section Tracks

variable {o : Oracle} {g : Guard} {v v' : View}

namespace Descriptors

@[simp] theorem eraseJob_live (id : ℕ) (d : Descriptors) :
    (d.eraseJob id).live = d.live.erase id := by
  unfold eraseJob
  split
  · next hnone => exact (AList.erase_of_lookup_none hnone).symm
  · rfl

@[simp] theorem finalize_live (id : ℕ) (d : Descriptors) :
    (d.finalize id).live = d.live.erase id := by
  unfold finalize
  split
  · next hnone => exact (AList.erase_of_lookup_none hnone).symm
  · simp only [eraseJob_live, releaseRuntime, dropDeadline_live, AList.erase_insert]

theorem run_append (d : Descriptors) (cs cs' : List FdCall) :
    (d.run (cs ++ cs')).2 = ((d.run cs).2.run cs').2 := by
  induction cs generalizing d with
  | nil => rfl
  | cons c cs ih => exact ih (d.call c).2

/-- Moving into the job. -/
theorem keepJob_live (m : Meta) (d : Descriptors) (id' : ℕ) :
    id' ∈ (d.keepJob a id m job logFd shared notify).live ↔ id' = id ∨ id' ∈ d.live := by
  unfold keepJob
  dsimp only
  split_ifs <;> exact AList.mem_insert _

/-- A launch in which the first `n` forks succeed reaches the fork loop. -/
theorem launchJob_eq_spawnJob (n : ℕ) (m : Meta) (hlive : d.live.lookup id = some job) :
    ∃ logFd shared notify opened, d.launchJob (.succeed n) id m =
      { d with opened }.spawnJob (.succeed n) id m job logFd shared notify := by
  have hopen : ∀ opened, openFd true opened =
      (some (lowestFree opened), insert (lowestFree opened) opened) := fun _ => rfl
  by_cases hexec : m.op = "exec"
  · simp only [launchJob, hlive, LaunchCalls.succeed, Bool.true_eq_false, and_false, if_false,
      hopen, prepareJob, if_pos hexec]
    exact ⟨_, _, _, _, rfl⟩
  · simp only [launchJob, hlive, LaunchCalls.succeed, Bool.true_eq_false, and_false, if_false,
      hopen, prepareJob, if_neg hexec, createSharedMap, createNotify]
    exact ⟨_, _, _, _, rfl⟩

theorem launchJob_worker {n i : ℕ} (m : Meta) (hlive : d.live.lookup id = some job) (hi : i < n)
    (hlen : i < (launchRanges m).length) :
    ∃ w ∈ (d.launchJob (.succeed n) id m).1, w.chunkIndex = i := by
  obtain ⟨logFd, shared, notify, opened, h⟩ := launchJob_eq_spawnJob n m hlive
  obtain ⟨rest, hrest⟩ := Nat.exists_eq_add_of_lt hlen
  have hmem : i ∈ (List.range (launchRanges m).length).takeWhile (LaunchCalls.succeed n).fork := by
    rw [hrest, Nat.add_right_comm, List.range_add, List.takeWhile_append_of_pos]
    · exact List.mem_append_left _ (List.mem_range.mpr (Nat.lt_succ_self i))
    · intro j hj
      have := List.mem_range.mp hj
      exact decide_eq_true (by omega)
  rw [h]
  exact ⟨_, List.mem_map_of_mem hmem, rfl⟩

theorem launchJob_others {n id' : ℕ} (m : Meta) (hlive : d.live.lookup id = some job)
    (hne : id' ≠ id) : id' ∈ (d.launchJob (.succeed n) id m).2.live ↔ id' ∈ d.live := by
  obtain ⟨logFd, shared, notify, opened, h⟩ := launchJob_eq_spawnJob n m hlive
  rw [h, spawnJob]
  dsimp only
  split_ifs
  · rw [keepJob_live]
    exact or_iff_right hne
  · simp only [leaveScope, eraseJob_live, AList.mem_erase]
    exact and_iff_right hne

theorem launchJob_kept {n : ℕ} (m : Meta) (hlive : d.live.lookup id = some job)
    (hlen : (launchRanges m).length ≤ n) : id ∈ (d.launchJob (.succeed n) id m).2.live := by
  obtain ⟨logFd, shared, notify, opened, h⟩ := launchJob_eq_spawnJob n m hlive
  have hall : (List.range (launchRanges m).length).all (LaunchCalls.succeed n).fork = true := by
    rw [List.all_eq_true]
    intro i hi
    exact decide_eq_true ((List.mem_range.mp hi).trans_le hlen)
  rw [h, spawnJob]
  dsimp only
  rw [if_pos hall, keepJob_live]
  exact Or.inl rfl

end Descriptors

/-- The same jobs are live in both models of the controller. -/
def Tracks (c : Controller) (d : Descriptors) : Prop := ∀ id, id ∈ d.live ↔ id ∈ c.live

/-- The launch has forked a worker in the model of the descriptors. -/
def Forks (d : Descriptors) (l : Launch) : Prop :=
  ∃ answers, ∃ w ∈ (d.launchJob answers l.id l.jobMeta).1, w.chunkIndex = l.chunkIndex

theorem Adds.launches_eq {log log' : Log} (h : Adds Forkless log log') :
    log'.launches = log.launches := by
  obtain ⟨new, rfl, hnew⟩ := h
  induction new with
  | nil => rfl
  | cons e new ih =>
    have he := hnew e List.mem_cons_self
    rw [← ih fun e' he' => hnew e' (List.mem_cons_of_mem e he')]
    cases e with
    | fork l => exact he.elim
    | died => exact he.elim
    | _ => rfl

theorem mem_of_lookup {c : Controller} {job : LiveJob} (h : c.live.lookup id = some job) :
    id ∈ c.live := by
  rw [← AList.lookup_isSome, h]
  rfl

/-- A change of the controller that forks nobody. -/
theorem Tracks.change {c c' : Controller} {log : Log} (ht : Tracks c d) (h : Change c log c') :
    ∃ cs, Tracks c' (d.run cs).2 := by
  have herase : ∀ {id : ℕ} {d' : Descriptors}, d'.live = d.live.erase id →
      c'.live = c.live.erase id → Tracks c' d' := by
    intro id d' hd hc other
    rw [hd, hc, AList.mem_erase, AList.mem_erase, ht other]
  have hinsert : ∀ {id : ℕ} {job job' : LiveJob}, c.live.lookup id = some job →
      c'.live = c.live.insert id job' → Tracks c' d := by
    intro id job job' hlive hc other
    rw [hc, AList.mem_insert, ht other]
    exact ⟨Or.inr, fun h => h.elim (fun heq => heq ▸ mem_of_lookup hlive) fun h => h⟩
  cases h with
  | same hlive => exact ⟨[], fun other => by rw [hlive]; exact ht other⟩
  | update hlive _ => exact ⟨[], hinsert hlive rfl⟩
  | @enter id m hlive _ _ =>
    have hnew : id ∉ d.live := by
      rw [ht id]
      exact AList.lookup_eq_none.mp hlive
    refine ⟨[.enter id], fun other => ?_⟩
    simp only [run, Descriptors.call, if_neg hnew, AList.mem_insert, ht other]
  | @drop id _ _ _ _ hctl =>
    refine ⟨[.cancel id], herase (eraseJob_live id d) ?_⟩
    rcases hctl with rfl | rfl <;> rfl
  | launch hjob _ _ => exact ⟨[], hinsert hjob.live rfl⟩
  | @finish id => exact ⟨[.finalize id], herase (finalize_live id d) rfl⟩

/-- **A step of the controller is a number of calls**, and a worker that it forks is
    forked by one of them. -/
theorem Tracks.step {id : ℕ} (ht : Tracks v.ctl d) (h : Step o g id v v') :
    ∃ cs, Tracks v'.ctl (d.run cs).2 ∧
      ∀ l ∈ v'.log.launches, l ∈ v.log.launches ∨ Forks d l := by
  rcases h.spawns with hadds | ⟨job, m, procs, log₁, log₂, hspawn⟩
  · obtain ⟨cs, hcs⟩ := ht.change h.change
    exact ⟨cs, hcs, fun l hl => Or.inl (hadds.launches_eq ▸ hl)⟩
  obtain ⟨n, hfork⟩ := hspawn.forked
  obtain ⟨ws, hws⟩ := hfork.workers
  have hmem : id ∈ v.ctl.live := mem_of_lookup hspawn.ready.live
  obtain ⟨fds, hfds⟩ := Option.isSome_iff_exists.mp (AList.lookup_isSome.mpr ((ht id).mpr hmem))
  have hlen : ws.length ≤ (launchRanges m).length := by
    have hranges := congrArg List.length hws.ranges
    rw [List.length_map, List.length_take] at hranges
    omega
  have hlaunches : ∀ l ∈ v'.log.launches, l ∈ v.log.launches ∨ Forks d l := by
    intro l hl
    rw [hspawn.after.launches_eq, hws.launches, hspawn.before.launches_eq] at hl
    rcases List.mem_append.mp hl with hl | hl
    · have hl := List.mem_reverse.mp hl
      have hindex : l.chunkIndex ∈ List.range' 0 ws.length :=
        hws.index ▸ List.mem_map_of_mem hl
      have hlt : l.chunkIndex < ws.length := by simpa using hindex
      obtain ⟨hid, _, hm⟩ := hws.belongs l hl
      rw [Forks, hid, hm]
      exact Or.inr ⟨.succeed ws.length, launchJob_worker m hfds hlt (hlt.trans_le hlen)⟩
    · exact Or.inl hl
  rcases hspawn.outcome with ⟨-, hlive⟩ | ⟨deadlineId, hlive, hprocs, -⟩
  · refine ⟨[.launch id m (.succeed ws.length), .cancel id], fun other => ?_, hlaunches⟩
    simp only [run, Descriptors.call, eraseJob_live, hlive, AList.mem_erase]
    by_cases hother : other = id
    · simp [hother]
    · rw [launchJob_others m hfds hother, ht other]
  · refine ⟨[.launch id m (.succeed (launchRanges m).length)], fun other => ?_, hlaunches⟩
    simp only [run, Descriptors.call, hlive, AList.mem_insert]
    by_cases hother : other = id
    · simp [hother, launchJob_kept m hfds le_rfl]
    · rw [launchJob_others m hfds hother, ht other, or_iff_right hother]

/-- A controller that was started with the standard descriptors open gets here. -/
def Descriptors.Reachable (d : Descriptors) : Prop :=
  ∃ a d₀ cs, setup a stdFds = some d₀ ∧ (d₀.run cs).2 = d

theorem Descriptors.Reachable.run (h : d.Reachable) (cs : List FdCall) : (d.run cs).2.Reachable := by
  obtain ⟨a, d₀, cs₀, hsetup, rfl⟩ := h
  exact ⟨a, d₀, cs₀ ++ cs, hsetup, run_append d₀ cs₀ cs⟩

theorem Descriptors.Reachable.held (h : d.Reachable) : Held stdFds d [] := by
  obtain ⟨a, d₀, cs, hsetup, rfl⟩ := h
  exact (setup_held hsetup).run cs

/-- The descriptors of a controller that has just been started. -/
theorem exists_tracks (slots : ℕ) : ∃ d : Descriptors, d.Reachable ∧ Tracks { slotsMax := slots } d :=
  ⟨_, ⟨.succeed, _, [], rfl, rfl⟩, fun _ => Iff.rfl⟩

/-- **Every launch of a run** of the controller, over crashes and restarts, forks a
    worker that has only its own descriptors open. -/
theorem run_isolated (o : Oracle) (slots : ℕ) (es : List Event) {l : Launch}
    (hl : l ∈ (Machine.run (World.step o) (World.start slots) es).log.launches) :
    ∃ d : Descriptors, d.Reachable ∧ ∃ answers, ∃ w ∈ (d.launchJob answers l.id l.jobMeta).1,
      w.chunkIndex = l.chunkIndex ∧
        w.Isolated stdFds (l.jobMeta.op = "exec") d.fdsToClose := by
  have hrun := run_view (o := o) (P := fun v =>
      (∃ d : Descriptors, d.Reachable ∧ Tracks v.ctl d) ∧
        ∀ l ∈ v.log.launches, ∃ d : Descriptors, d.Reachable ∧ Forks d l)
    (fun slots => ⟨exists_tracks slots, fun l hl => absurd hl List.not_mem_nil⟩)
    (fun id v v' hv hstep => ?_)
    (fun v log slots hv hsuf => ⟨exists_tracks slots, fun l hl =>
      hv.2 l (Log.mem_launches_suffix hsuf hl)⟩) (along_any (World.start slots) es)
  · obtain ⟨d, hd, answers, w, hw, hindex⟩ := hrun.2 l hl
    exact ⟨d, hd, answers, w, hw, hindex, (hd.held.launchJob answers l.id l.jobMeta).workers w hw⟩
  · obtain ⟨⟨d, hd, ht⟩, hlaunches⟩ := hv
    obtain ⟨cs, ht', hnew⟩ := ht.step hstep
    refine ⟨⟨_, hd.run cs, ht'⟩, fun l hl => ?_⟩
    rcases hnew l hl with hold | hfork
    · exact hlaunches l hold
    · exact ⟨d, hd, hfork⟩

end Tracks

end Forge
