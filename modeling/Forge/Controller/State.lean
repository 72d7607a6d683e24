import Forge.Store.Parse
import Forge.Worker.Ranges

/-!
# The controller, the disk and the worker processes

`Controller` is `struct Controller` (controller.cpp:66-81) without its file
descriptors, which `Poller` and the handlers pass around unchanged. Everything
outside the controller's memory (records and outputs on disk, child processes,
signals sent) is a log of `Effect`s, newest first, and is read back from it, so
a crash in the middle of a handler is a suffix of the handler's log.

`Oracle` holds the answers of the kernel and of the clock to the controller's
calls, by the number of the call.
-/

namespace Forge

/-! ## Shared memory -/

def kShmMagic : ℕ := 0x464F5247

/-- `struct ChunkResult` (forge.hpp:218-227). -/
structure ChunkResult where
  index : ℕ := 0
  ok : ℕ := 0
  offset : ℕ := 0
  length : ℕ := 0
  bytes : ℕ := 0
  aux : ℕ := 0
  hex : String := ""
  error : String := ""
  deriving DecidableEq

/-- `struct SharedRegion` (forge.hpp:229-235). -/
structure SharedRegion where
  magic : ℕ := 0
  nchunks : ℕ := 0
  startGate : ℕ := 0
  chunksDone : ℕ := 0
  chunks : ℕ → ChunkResult := fun _ => {}

/-! ## Controller memory -/

/-- `struct ProcRef` (controller.cpp:43-49). `child` is not in the source: it
    tells the processes apart that were given the same pid one after another. -/
structure ProcRef where
  pid : ℕ := 0
  start : ℕ := 0
  reaped : Bool := false
  grouped : Bool := false
  how : String := ""
  child : ℕ := 0
  deriving DecidableEq

/-- `struct LiveJob` (controller.cpp:51-64). -/
structure LiveJob where
  jobMeta : Meta
  procs : List ProcRef := []
  deadlineId : ℤ := -1
  shm : Option SharedRegion := none
  usesSlot : Bool := false
  finished : Bool := false
  killEscalated : Bool := false
  stopReason : String := ""
  stopSentMs : ℕ := 0

/-- `struct Controller` (controller.cpp:66-81). `running` says that the process
    is up and has recovered the workspace. -/
structure Controller where
  slotsMax : ℤ := 1
  slotsUsed : ℤ := 0
  shuttingDown : Bool := false
  live : AList fun _ : ℕ => LiveJob := ∅
  queue : List ℕ := []
  pidOwner : ℕ → Option ℕ := fun _ => none
  running : Bool := false

/-! ## The world outside -/

/-- The answer to writing a file: `visible` tells whether the new contents are
    in place although the call reports an error. -/
inductive WriteAnswer where
  | ok
  | failed (err : String) (visible : Bool)
  deriving DecidableEq

/-- What `waitid` reports of a child. -/
inductive WaitStatus where
  | exited (status : ℕ)
  | killed (signal : ℕ)
  | dumped (signal : ℕ)
  | other (code status : ℤ)
  deriving DecidableEq

/-- `struct WorkerLaunch` (forge.hpp:406-418), as far as the worker's result
    depends on it. `call` tells the `launch_job` calls apart: it is the length of
    the log when the call was made. `start` is the start time that the controller
    read after the fork, 0 if it could not be read. -/
structure Launch where
  child : ℕ
  call : ℕ
  id : ℕ
  pid : ℕ
  start : ℕ
  jobMeta : Meta
  chunkIndex : ℕ
  offset : ℕ
  length : ℕ

def sigterm : ℕ := 15

def sigkill : ℕ := 9

inductive Effect where
  /-- Someone else writes a record: `cmd_submit`, or the user's files. -/
  | record (id : ℕ) (m : Meta)
  /-- The controller's `save_meta` for job `id` replaces `jobs/<m.id>/meta`. -/
  | save (id : ℕ) (m : Meta)
  /-- The controller's `save_meta` for job `id` fails and changes nothing. -/
  | lost (id : ℕ) (m : Meta)
  /-- `c.live.emplace(id, …)`. -/
  | admitted (id : ℕ)
  /-- `c.live.erase(id)`. -/
  | removed (id : ℕ)
  /-- `finalize` replaces `jobs/<id>/output`. -/
  | output (id : ℕ) (body : Bytes)
  /-- A worker publishes its copy as `jobs/<id>/output`. -/
  | copied (child : ℕ) (id : ℕ) (body : Bytes)
  | fork (launch : Launch)
  /-- The worker stores its slot. -/
  | slot (child : ℕ) (chunk : ChunkResult)
  /-- The worker increments `chunks_done`. -/
  | bump (child : ℕ)
  | exit (child : ℕ) (status : WaitStatus)
  /-- A process of the worker's group starts process `d` in it. -/
  | spawned (child d : ℕ)
  /-- A process that was started in a worker's group ends. -/
  | gone (d : ℕ)
  /-- `waitid` returns the child. -/
  | reap (child : ℕ)
  /-- `kill` of a child of this controller. -/
  | kill (pid : ℕ) (signal : ℕ) (group : Bool)
  /-- `recover` kills what an earlier controller has left. -/
  | leftover (pid : ℕ) (group : Bool)
  /-- `request_stop` is called, whether or not it is the first time. -/
  | stop (id : ℕ) (reason : String)
  /-- `on_cancel` returns. -/
  | cancelled (id : ℕ)
  /-- `finalize` has judged `job`, with what it saw of the output and how the
      write of the output ended, if it made one. -/
  | finalized (id : ℕ) (state : String) (job : LiveJob) (inspect : Except String ℕ)
      (write : Option WriteAnswer)
  /-- The controller process dies. -/
  | died

def Effect.isForkOf (child : ℕ) : Effect → Bool
  | .fork l => l.child = child
  | _ => false

def Effect.isSpawnOf (d : ℕ) : Effect → Bool
  | .spawned _ d' => d' = d
  | _ => false

abbrev Log := List Effect

namespace Log

/-- The record in `jobs/<id>/meta`. -/
def disk : Log → ℕ → Option Meta
  | [], _ => none
  | .record i m :: log, id => if i = id then some m else disk log id
  | .save _ m :: log, id => if m.id = id then some m else disk log id
  | _ :: log, id => disk log id

/-- The ids that have a directory under `jobs/`. -/
def jobIds : Log → List ℕ
  | [] => []
  | .record i _ :: log => List.insert i (jobIds log)
  | .save _ m :: log => List.insert m.id (jobIds log)
  | _ :: log => jobIds log

/-- The contents of `jobs/<id>/output`. -/
def outputs : Log → ℕ → Option Bytes
  | [], _ => none
  | .output i body :: log, id => if i = id then some body else outputs log id
  | .copied _ i body :: log, id => if i = id then some body else outputs log id
  | _ :: log, id => outputs log id

/-- All launches, newest first. -/
def launches : Log → List Launch
  | [] => []
  | .fork l :: log => l :: launches log
  | _ :: log => launches log

/-- The launches of this controller, newest first. -/
def forks : Log → List Launch
  | [] => []
  | .fork l :: log => l :: forks log
  | .died :: _ => []
  | _ :: log => forks log

/-- `waitid` has returned the child. -/
def Reaped (log : Log) (child : ℕ) : Prop := Effect.reap child ∈ log

instance (log : Log) (child : ℕ) : Decidable (log.Reaped child) :=
  decidable_of_iff (log.any fun e => match e with | .reap c => c = child | _ => false) (by
    unfold Log.Reaped
    rw [List.any_eq_true]
    constructor
    · rintro ⟨e, he, h⟩
      cases e <;> simp_all
    · exact fun h => ⟨_, h, by simp⟩)

/-- How the child ended, if it has. -/
def status : Log → ℕ → Option WaitStatus
  | [], _ => none
  | .exit c s :: log, child => if c = child then some s else status log child
  | _ :: log, child => status log child

/-- The processes in the worker's group, besides the worker, that have not ended. -/
def members : Log → ℕ → List ℕ
  | [], _ => []
  | .spawned c d :: log, child => if c = child then d :: members log child else members log child
  | .gone d :: log, child => (members log child).filter (· ≠ d)
  | _ :: log, child => members log child

/-- The group of pid `pid` has been sent SIGKILL since the last effect that
    satisfies `since`. -/
def groupKilled (since : Effect → Bool) (pid : ℕ) : Log → Bool
  | [] => false
  | e :: log =>
    !since e && ((match e with | .kill p sig group => p = pid && sig = sigkill && group | _ => false)
      || groupKilled since pid log)

/-- The pids of this controller's children that `waitid` has not returned. -/
def unreaped (log : Log) : List ℕ :=
  ((forks log).filter fun l => ¬ log.Reaped l.child).map (·.pid)

end Log

structure World where
  ctl : Controller
  calls : ℕ
  log : Log

namespace World

def push (w : World) (e : Effect) : World := { w with log := e :: w.log }

/-- One more call has been answered. -/
def ask (w : World) : World := { w with calls := w.calls + 1 }

@[simp] theorem ask_ctl (w : World) : w.ask.ctl = w.ctl := rfl

def setCtl (w : World) (c : Controller) : World := { w with ctl := c }

def putJob (w : World) (id : ℕ) (job : LiveJob) : World :=
  { w with ctl := { w.ctl with live := w.ctl.live.insert id job } }

/-- `c.live.erase(id)`. -/
def eraseJob (w : World) (id : ℕ) : World :=
  { w with ctl := { w.ctl with live := w.ctl.live.erase id }, log := .removed id :: w.log }

/-- `c.queue.erase(std::remove(…, id), c.queue.end())`. -/
def dequeue (w : World) (id : ℕ) : World :=
  { w with ctl := { w.ctl with queue := w.ctl.queue.filter (· ≠ id) } }

end World

/-! ## Answers -/

structure ForkAnswer where
  pid : ℕ
  grouped : Bool
  start : ℕ

/-- The answers to the calls of one `launch_job`. -/
structure LaunchAnswers where
  /-- `inspect_file(input)`: an error, or whether it is regular, and its size. -/
  inspect : Except String (Bool × ℕ)
  openLog : Except String Unit
  sharedMap : Except String Unit
  notify : Except String Unit
  /-- The `i`-th `fork`. -/
  fork : ℕ → Except String ForkAnswer
  /-- `watch_timer`. -/
  timer : ℤ

/-- The handlers that read records. -/
inductive Reader where
  | submit
  | cancel
  | recover
  deriving DecidableEq

/-- The answers to the controller's calls, by the number of the call. -/
structure Oracle where
  /-- The workspace. -/
  root : String
  /-- Whether a handler gets to read this record. -/
  load : Reader → ℕ → Meta → Bool
  save : ℕ → WriteAnswer
  writeOutput : ℕ → WriteAnswer
  /-- The error of `inspect_file` on an output. -/
  inspectOutput : ℕ → Option String
  launch : ℕ → LaunchAnswers
  realtimeMs : ℕ → ℤ
  monoMs : ℕ → ℕ
  /-- `proc_starttime(pid, …)`. -/
  procStart : ℕ → ℕ → Option ℕ
  /-- The order in which the hash map is walked. -/
  order : ℕ → List ℕ → List ℕ
  order_perm : ∀ k ids, (order k ids).Perm ids

/-- The kernel's pid for a new child: the answer's, unless a child that has not
    been reaped still has it. -/
def freshPid (unreaped : List ℕ) (pid : ℕ) : ℕ :=
  if pid = 0 ∨ pid ∈ unreaped then unreaped.sum + 1 else pid

theorem freshPid_notMem (unreaped : List ℕ) (pid : ℕ) : freshPid unreaped pid ∉ unreaped := by
  unfold freshPid
  split_ifs with h
  · intro hmem
    have := List.le_sum_of_mem hmem
    omega
  · tauto

theorem freshPid_pos (unreaped : List ℕ) (pid : ℕ) : 0 < freshPid unreaped pid := by
  unfold freshPid
  split_ifs <;> omega

end Forge
