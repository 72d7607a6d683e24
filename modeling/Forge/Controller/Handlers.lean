import Forge.Controller.Results

/-!
# The handlers of the controller

Model of controller.cpp:92-135, 157-194, 230-275, 376-808. Each handler is a
function on the world; log lines and the status file are left out, since nothing
reads them. A C++ reference to a job that is in `c.live` is a local `job` that is
put back, or erased with its entry.
-/

namespace Forge

open World

/-! ## Records -/

/-- `save_meta` as the controller sees it; `Forge.Store.AtomicWrite` has its
    system calls. `id` is not an argument in the source: it is the job for which
    the record is written, and goes into the log only. -/
def saveMeta (o : Oracle) (id : ℕ) (m : Meta) (w : World) : Except String Unit × World :=
  match o.save w.calls with
  | .ok => (.ok (), w.ask.push (.save id m))
  | .failed err true => (.error err, w.ask.push (.save id m))
  | .failed err false => (.error err, w.ask.push (.lost id m))

/-- `load_meta` (store.cpp:612-618), on records that are already decoded: it fails
    where there is no record, and where the record there cannot be read. -/
def loadMeta (o : Oracle) (r : Reader) (id : ℕ) (w : World) : Option Meta :=
  (w.log.disk id).filter (o.load r w.calls)

/-- `set_state` (controller.cpp:92-100). -/
def setState (o : Oracle) (id : ℕ) (job : LiveJob) (state : String) (w : World) :
    LiveJob × World :=
  let job := { job with jobMeta := job.jobMeta.setState state }
  (job, (saveMeta o id job.jobMeta w).2)

/-! ## Releasing and signalling -/

/-- `release_runtime` (controller.cpp:157-174). -/
def releaseRuntime (job : LiveJob) (c : Controller) : Controller :=
  { c with
    pidOwner := fun pid => if pid ∈ job.procs.map (·.pid) then none else c.pidOwner pid
    slotsUsed := if job.usesSlot then c.slotsUsed - 1 else c.slotsUsed }

/-- The `kill` calls of `signal_job` (controller.cpp:176-184). -/
def signalEffects (job : LiveJob) (sig : ℕ) : List Effect :=
  (job.procs.filter fun pr => !pr.reaped && pr.pid ≠ 0).map fun pr => .kill pr.pid sig pr.grouped

/-- `signal_job` (controller.cpp:176-184). -/
def signalJob (job : LiveJob) (sig : ℕ) (w : World) : World :=
  { w with log := (signalEffects job sig).reverse ++ w.log }

/-- A job whose stop reason is set (controller.cpp:188-189). -/
def stoppedJob (job : LiveJob) (reason : String) (now : ℕ) : LiveJob :=
  { job with stopReason := reason, stopSentMs := now }

/-- `request_stop` (controller.cpp:186-194). -/
def requestStop (o : Oracle) (id : ℕ) (job : LiveJob) (reason : String) (w : World) : World :=
  let w := w.push (.stop id reason)
  if job.stopReason ≠ "" then w
  else
    let job := stoppedJob job reason (o.monoMs w.calls)
    signalJob job sigterm (w.ask.putJob id job)

/-! ## Finishing a job -/

/-- The size of `job_directory(id) + "/output"`, or the error where it is not there. -/
def outputSize (root : String) (id : ℕ) (log : Log) : Except String ℕ :=
  match log.outputs id with
  | none => .error ("statx " ++ jobDirectory root id ++ "/output: " ++
      "No such file or directory (errno 2)")
  | some body => .ok body.length

/-- What `inspect_file(job_directory(id) + "/output")` answers, which may fail
    otherwise. -/
def inspectOutput (o : Oracle) (id : ℕ) (w : World) : Except String ℕ :=
  match o.inspectOutput w.calls with
  | some err => .error err
  | none => outputSize o.root id w.log

/-- `atomic_write_file(…/output, body, err)` (controller.cpp:408). -/
def writeOutput (o : Oracle) (id : ℕ) (body : Bytes) (w : World) : WriteAnswer × World :=
  match o.writeOutput w.calls with
  | .failed err false => (.failed err false, w.ask)
  | answer => (answer, w.ask.push (.output id body))

/-- The output and the final state (controller.cpp:404-413): the record to save,
    the state, and how the write ended. -/
def persist (o : Oracle) (id : ℕ) (m : Meta) (state : String) (result : Except String String)
    (w : World) : Meta × String × Option WriteAnswer × World :=
  match result with
  | .error _ => (m, state, none, w)
  | .ok body =>
    if body = "" then (m, state, none, w)
    else
      let m := m.setState "persisting"
      let w := (saveMeta o id m w).2
      match writeOutput o id (textBytes body) w with
      | (.ok, w) => (m, state, some .ok, w)
      | (.failed err visible, w) => (m.setError err, "failed", some (.failed err visible), w)

/-- The job as `results_ok` gets to see it (controller.cpp:380-382). -/
def judgedJob (job : LiveJob) (finishedMs : ℤ) : LiveJob :=
  { job with
    finished := true
    jobMeta := (job.jobMeta.setExits (joinExits job)).setFinished finishedMs }

/-- The controller once a job has left it (controller.cpp:416-418). -/
def withoutJob (id : ℕ) (job : LiveJob) (c : Controller) : Controller :=
  { releaseRuntime job c with live := c.live.erase id, queue := c.queue.filter (· ≠ id) }

/-- `finalize` (controller.cpp:376-419). -/
def finalize (o : Oracle) (id : ℕ) (w : World) : World :=
  match w.ctl.live.lookup id with
  | none => w
  | some job =>
    if job.finished then w
    else
      let judged := judgedJob job (o.realtimeMs w.calls)
      let w := w.ask
      let inspect := inspectOutput o judged.jobMeta.id w
      let result := resultsOk judged inspect
      let (m, state) := settle job.stopReason judged.jobMeta result
      let (m, state, write, w) := persist o id m state result w
      let w := (saveMeta o id (m.setState state) w).2
      let w := w.push (.finalized id state judged inspect write)
      (w.push (.removed id)).setCtl (withoutJob id job w.ctl)

/-- The loop over the processes in `note_reap` (controller.cpp:240-249). -/
def markReaped (pid : ℕ) (status : WaitStatus) (procs : List ProcRef) : List ProcRef :=
  procs.map fun pr =>
    if pr.pid = pid then { pr with reaped := true, how := describeWait status } else pr

/-- A job one of whose processes `waitid` has returned. -/
def reapedJob (job : LiveJob) (pid : ℕ) (status : WaitStatus) : LiveJob :=
  { job with procs := markReaped pid status job.procs }

def LiveJob.anyBad (job : LiveJob) : Bool :=
  job.procs.any fun pr => pr.reaped && pr.how ≠ "exited:0"

def LiveJob.allReaped (job : LiveJob) : Bool := job.procs.all (·.reaped)

/-- `note_reap` (controller.cpp:230-255). -/
def noteReap (o : Oracle) (pid : ℕ) (status : WaitStatus) (w : World) : World :=
  match w.ctl.pidOwner pid with
  | none => w
  | some id =>
    match w.ctl.live.lookup id with
    | none => w
    | some job =>
      let job := reapedJob job pid status
      let w := w.putJob id job
      let w := if job.anyBad ∧ job.stopReason = "" then requestStop o id job "failed" w else w
      if job.allReaped then finalize o id w else w

/-- One turn of the loop of `reap` (controller.cpp:257-275): `waitid` returns
    the child, if it has ended and has not been returned before. -/
def reap (o : Oracle) (child : ℕ) (w : World) : World :=
  match w.log.forks.find? (·.child = child), w.log.status child with
  | some l, some status =>
    if w.log.Reaped child then w else noteReap o l.pid status (w.push (.reap child))
  | _, _ => w

/-! ## Starting jobs -/

/-- The better of two queued jobs: higher priority, then smaller id
    (controller.cpp:430-437). -/
def better (live : AList fun _ : ℕ => LiveJob) (best : Option (ℕ × ℤ)) (cand : ℕ) :
    Option (ℕ × ℤ) :=
  match live.lookup cand with
  | none => best
  | some job =>
    if job.jobMeta.state ≠ "queued" then best
    else
      match best with
      | none => some (cand, job.jobMeta.priority)
      | some (b, pri) =>
        if job.jobMeta.priority > pri ∨ (job.jobMeta.priority = pri ∧ cand < b) then
          some (cand, job.jobMeta.priority)
        else some (b, pri)

/-- `pick_next` (controller.cpp:423-443): the job it takes off the queue. -/
def pickNext (c : Controller) : Option ℕ :=
  (c.queue.foldl (better c.live) none).map (·.1)

/-- One process of the fork loop (controller.cpp:558-590). -/
def forkWorker (id call : ℕ) (m : Meta) (i : ℕ) (range : ByteRange) (answer : ForkAnswer)
    (w : World) : ProcRef × World :=
  let pid := freshPid w.log.unreaped answer.pid
  let child := w.log.length
  ({ pid := pid, start := answer.start, grouped := answer.grouped, child := child },
    w.push (.fork ⟨child, call, id, pid, answer.start, m, i, range.offset, range.length⟩))

/-- The fork loop (controller.cpp:558-590): the processes, and the error of the
    fork that failed. -/
def forkLoop (id call : ℕ) (m : Meta) (fork : ℕ → Except String ForkAnswer) :
    ℕ → List ByteRange → World → List ProcRef × Option String × World
  | _, [], w => ([], none, w)
  | i, range :: ranges, w =>
    match fork i with
    | .error e => ([], some ("fork: " ++ e), w)
    | .ok answer =>
      let (pr, w) := forkWorker id call m i range answer w
      let (procs, err, w) := forkLoop id call m fork (i + 1) ranges w
      (pr :: procs, err, w)

/-- Killing and reaping the processes of a failed launch (controller.cpp:592-600). -/
def killSpawned : List ProcRef → World → World
  | [], w => w
  | pr :: procs, w =>
    killSpawned procs (((w.push (.kill pr.pid sigkill pr.grouped)).push
      (.exit pr.child (.killed sigkill))).push (.reap pr.child))

/-- A launch that gives the job up: its record says `failed`, and it leaves
    `c.live`. -/
def giveUp (o : Oracle) (id : ℕ) (m : Meta) (w : World) : World :=
  (saveMeta o id (m.setState "failed") w).2.eraseJob id

/-- `format_procs` (controller.cpp:128-135). -/
def formatProcs (procs : List ProcRef) : String :=
  ",".intercalate (procs.map fun pr => toString pr.pid ++ "@" ++ toString pr.start)

/-- The ranges `launch_job` forks workers for (controller.cpp:514-517). -/
def launchRanges (m : Meta) : List ByteRange :=
  splitRanges m.bytes (if m.op = "exec" then 1 else m.workers)
    (if m.io = "direct" then kDirectAlign else 1)

/-- The job once its workers are forked (controller.cpp:611-630); `m` is the
    record they were given. -/
def launchedJob (job : LiveJob) (m : Meta) (procs : List ProcRef) (deadlineId : ℤ) : LiveJob :=
  { job with
    procs := procs
    jobMeta := (m.setProcs (formatProcs procs)).setState "running"
    shm := if m.op = "exec" then none
      else some { magic := kShmMagic, nchunks := (launchRanges m).length, startGate := 1 }
    deadlineId := deadlineId
    usesSlot := true }

/-- `launch_job` from the fork loop on (controller.cpp:545-633). -/
def spawnJob (o : Oracle) (id call : ℕ) (job : LiveJob) (w : World) : World :=
  let answers := o.launch call
  let launch := w.log.length
  let (job, w) := setState o id job "starting" w
  let m := job.jobMeta.setStarted (o.realtimeMs w.calls)
  match forkLoop id launch m answers.fork 0 (launchRanges m) w.ask with
  | (procs, some err, w) =>
    giveUp o id ((m.setError err).setFinished (o.realtimeMs w.calls)) (killSpawned procs w).ask
  | (procs, none, w) =>
    let deadlineId := if m.deadlineS > 0 then answers.timer else job.deadlineId
    let job := launchedJob job m procs deadlineId
    let c := { w.ctl with
      pidOwner := fun pid => if pid ∈ procs.map (·.pid) then some id else w.ctl.pidOwner pid
      slotsUsed := w.ctl.slotsUsed + 1 }
    ((saveMeta o id job.jobMeta (w.setCtl c)).2).putJob id job

/-- `launch_job` once the input has been inspected (controller.cpp:514-633). -/
def prepareJob (o : Oracle) (id call : ℕ) (job : LiveJob) (w : World) : World :=
  let answers := o.launch call
  match answers.openLog with
  | .error e => giveUp o id (job.jobMeta.setError e) w
  | .ok () =>
    if job.jobMeta.op = "exec" then spawnJob o id call job w
    else
      match answers.sharedMap, answers.notify with
      | .error e, _ => giveUp o id (job.jobMeta.setError e) w
      | _, .error e => giveUp o id (job.jobMeta.setError e) w
      | .ok (), .ok () => spawnJob o id call job w

/-- The error of an input that cannot be used (controller.cpp:499). -/
def inputError (answer : Except String (Bool × ℕ)) : String :=
  match answer with
  | .error e => if e = "" then "input is not a regular file" else e
  | .ok _ => "input is not a regular file"

/-- `launch_job` (controller.cpp:490-633). -/
def launchJob (o : Oracle) (id : ℕ) (w : World) : World :=
  match w.ctl.live.lookup id with
  | none => w
  | some job =>
    let call := w.calls
    let w := w.ask
    if job.jobMeta.op = "exec" then prepareJob o id call job w
    else
      match (o.launch call).inspect with
      | .ok (true, size) =>
        prepareJob o id call { job with jobMeta := job.jobMeta.setBytes size } w
      | answer =>
        let m := (job.jobMeta.setError (inputError answer)).setFinished (o.realtimeMs w.calls)
        let w := (saveMeta o id (m.setState "failed") w.ask).2
        (w.setCtl (releaseRuntime job w.ctl)).eraseJob id

/-- The loop of `schedule` (controller.cpp:447-451). Each turn takes one job off
    the queue, so its length bounds the turns. -/
def scheduleLoop (o : Oracle) : ℕ → World → World
  | 0, w => w
  | n + 1, w =>
    if w.ctl.slotsUsed < w.ctl.slotsMax then
      match pickNext w.ctl with
      | none => w
      | some id => scheduleLoop o n (launchJob o id (w.dequeue id))
    else w

/-- `schedule` (controller.cpp:445-452). -/
def schedule (o : Oracle) (w : World) : World :=
  if w.ctl.shuttingDown then w else scheduleLoop o w.ctl.queue.length w

/-- `enqueue` (controller.cpp:454-488). -/
def enqueue (o : Oracle) (id : ℕ) (w : World) : World :=
  if w.ctl.shuttingDown then
    let loaded := loadMeta o .submit id w
    let w := w.ask
    match loaded with
    | none => w
    | some m =>
      if isTerminalState m.state then w
      else
        let m := (m.setState "cancelled").setError "controller is shutting down"
        (saveMeta o id (m.setFinished (o.realtimeMs w.calls)) w.ask).2
  else if (w.ctl.live.lookup id).isSome then w
  else
    let loaded := loadMeta o .submit id w
    let w := w.ask
    match loaded with
    | none => w
    | some m =>
      if isTerminalState m.state then w
      else
        match validateMeta m with
        | some err =>
          let m := (m.setState "failed").setError err
          (saveMeta o id (m.setFinished (o.realtimeMs w.calls)) w.ask).2
        | none =>
          let m := m.setState "queued"
          let w := (saveMeta o id m w).2
          let c := { w.ctl with
            queue := w.ctl.queue ++ [id], live := w.ctl.live.insert id { jobMeta := m } }
          schedule o ((w.push (.admitted id)).setCtl c)

/-! ## Control lines, timers and start-up -/

/-- `on_cancel` (controller.cpp:635-664). -/
def onCancel (o : Oracle) (id : ℕ) (w : World) : World :=
  let w := match w.ctl.live.lookup id with
    | none =>
      let loaded := loadMeta o .cancel id w
      let w := w.ask
      match loaded with
      | none => w
      | some m =>
        if isTerminalState m.state then w
        else
          let m := (m.setState "cancelled").setError "cancelled"
          (saveMeta o id (m.setFinished (o.realtimeMs w.calls)) w.ask).2
    | some job =>
      if job.jobMeta.state = "queued" then
        let m := (job.jobMeta.setState "cancelled").setError "cancelled before start"
        let w := (saveMeta o id (m.setFinished (o.realtimeMs w.calls)) w.ask).2
        (w.dequeue id).eraseJob id
      else requestStop o id job "cancelled" w
  w.push (.cancelled id)

/-- `on_deadline` (controller.cpp:684-688). -/
def onDeadline (o : Oracle) (id : ℕ) (w : World) : World :=
  match w.ctl.live.lookup id with
  | none => w
  | some job => if job.deadlineId < 0 then w else requestStop o id job "timed_out" w

def escalatedJob (job : LiveJob) : LiveJob := { job with killEscalated := true }

/-- The body of the loop of `on_tick` for one job (controller.cpp:694-704). -/
def escalate (now : ℕ) (w : World) (id : ℕ) : World :=
  match w.ctl.live.lookup id with
  | none => w
  | some job =>
    if job.stopReason ≠ "" ∧ !job.killEscalated ∧ job.stopSentMs ≠ 0 ∧
        (now + 2 ^ 64 - job.stopSentMs) % 2 ^ 64 > 1000 then
      signalJob job sigkill (w.putJob id (escalatedJob job))
    else w

/-- `on_tick` (controller.cpp:690-714). -/
def onTick (o : Oracle) (w : World) : World :=
  let now := o.monoMs w.calls
  let ids := o.order w.calls w.ctl.live.keys
  ids.foldl (escalate now) w.ask

/-- The body of the second loop of `SHUTDOWN` (controller.cpp:724-730). -/
def stopRunning (o : Oracle) (w : World) (id : ℕ) : World :=
  match w.ctl.live.lookup id with
  | none => w
  | some job =>
    if job.jobMeta.state = "running" ∨ job.jobMeta.state = "starting" then
      requestStop o id job "shutdown" w
    else w

/-- The `SHUTDOWN` branch of `handle_line` (controller.cpp:717-731). -/
def onShutdown (o : Oracle) (w : World) : World :=
  let w := w.setCtl { w.ctl with shuttingDown := true }
  let w := w.ctl.queue.foldl (fun w id => onCancel o id w) w
  let ids := o.order w.calls w.ctl.live.keys
  ids.foldl (stopRunning o) w.ask

/-- `handle_line` (controller.cpp:716-752). -/
def handleLine (o : Oracle) (line : List Char) (w : World) : World :=
  if line = "SHUTDOWN".toList then onShutdown o w
  else if "SUBMIT ".toList.isPrefixOf line then
    match parseU64 (line.drop 7) with
    | none => w
    | some id => enqueue o id w
  else if "CANCEL ".toList.isPrefixOf line then
    match parseU64 (line.drop 7) with
    | none => w
    | some id => onCancel o id w
  else w

/-- `static_cast<int>(pid)`, where it is positive. -/
def intPid (pid : ℕ) : Option ℕ :=
  let p := pid % 2 ^ 32
  if 0 < p ∧ p < 2 ^ 31 then some p else none

/-- `parse_procs` (controller.cpp:102-126): the pid and start of each process. -/
def parseProcs (text : String) : List (ℕ × ℕ) :=
  ((text.toList.splitOn ',').filter (· ≠ [])).filterMap fun cur =>
    match cur.idxOf? '@' with
    | none => (intPid ((parseU64 cur).getD 0)).map (·, 0)
    | some at_ =>
      (intPid ((parseU64 (cur.take at_)).getD 0)).map
        (·, (parseU64 (cur.drop (at_ + 1))).getD 0)

/-- Killing one process of an unfinished job (controller.cpp:790-797). -/
def killLeftover (o : Oracle) (w : World) (pr : ℕ × ℕ) : World :=
  if pr.2 ≠ 0 ∧ o.procStart w.calls pr.1 = some pr.2 then
    (w.ask.push (.leftover pr.1 true)).push (.leftover pr.1 false)
  else w.ask

/-- The body of the loop of `recover` (controller.cpp:785-807). -/
def recoverJob (o : Oracle) (w : World) (id : ℕ) : World :=
  let loaded := loadMeta o .recover id w
  let w := w.ask
  match loaded with
  | none => w
  | some m =>
    if m.state = "running" ∨ m.state = "starting" ∨ m.state = "persisting" then
      let w := (parseProcs m.procs).foldl (killLeftover o) w
      let m := (m.setState "failed").setError "controller restarted while the job was in progress"
      (saveMeta o id (m.setFinished (o.realtimeMs w.calls)) w.ask).2
    else if m.state = "submitted" ∨ m.state = "queued" then enqueue o id w
    else w

/-- `list_job_ids` (store.cpp:644-664): the directories under `jobs/` are the
    ones `save_meta` makes. A directory that is not listed is one whose record
    `recover` cannot read. -/
def listJobIds (w : World) : List ℕ := w.log.jobIds.mergeSort

/-- `recover` (controller.cpp:781-808). -/
def recover (o : Oracle) (w : World) : World := (listJobIds w).foldl (recoverJob o) w

/-! ## Runs -/

/-- What can happen next: to a controller that is up (`recover` starts one that
    is down), to its workers, or on the disk. -/
inductive Input where
  | recover
  /-- A control line; SIGTERM and SIGINT are the line `SHUTDOWN`. -/
  | line (text : List Char)
  | reap (child : ℕ)
  | schedule
  | deadline (id : ℕ)
  | tick
  /-- A worker ends. -/
  | exit (child : ℕ) (status : WaitStatus)
  | slot (child : ℕ) (chunk : ChunkResult)
  | bump (child : ℕ)
  /-- A worker publishes a copy. -/
  | output (child : ℕ) (body : Bytes)
  /-- A process of a worker's group starts another one. -/
  | spawn (child : ℕ)
  /-- A process that was started in a worker's group ends. -/
  | gone (d : ℕ)
  /-- A record appears under an id that has none. -/
  | record (id : ℕ) (m : Meta)

/-- Changes the shared region of the job that still owns the worker. -/
def updateRegion (l : Launch) (f : SharedRegion → SharedRegion) (w : World) : World :=
  match w.ctl.live.lookup l.id with
  | none => w
  | some job =>
    if l.child ∈ job.procs.map (·.child) then w.putJob l.id { job with shm := job.shm.map f } else w

/-- The launch of a worker that has not ended. -/
def World.worker (w : World) (child : ℕ) : Option Launch :=
  if (w.log.status child).isSome then none else w.log.launches.find? (·.child = child)

/-- `shm->chunks[chunk.index] = chunk` in a worker (worker.cpp:520). -/
def writeSlot (chunk : ChunkResult) (shm : SharedRegion) : SharedRegion :=
  { shm with chunks := Function.update shm.chunks chunk.index chunk }

/-- `chunks_done.fetch_add(1)` in a worker (worker.cpp:521-522). -/
def bumpDone (shm : SharedRegion) : SharedRegion := { shm with chunksDone := shm.chunksDone + 1 }

/-- What a worker does to the world while it runs. -/
def workerStep (w : World) (child : ℕ) (act : Launch → World → World) : World :=
  match w.worker child with
  | none => w
  | some l => act l w

/-- A process of the worker's group starts another one, if one of them is still
    there and the group has not been sent SIGKILL. -/
def spawnMember (child : ℕ) (w : World) : World :=
  match w.log.launches.find? (·.child = child) with
  | none => w
  | some l =>
    if ((w.log.status child).isNone || w.log.members child ≠ []) ∧
        w.log.groupKilled (·.isForkOf child) l.pid = false then
      w.push (.spawned child w.log.length)
    else w

def handle (o : Oracle) (w : World) : Input → World
  | .recover =>
    if w.ctl.running then w
    else
      let w := recover o w
      w.setCtl { w.ctl with running := true }
  | .line text => if w.ctl.running then handleLine o text w else w
  | .reap child => if w.ctl.running then reap o child w else w
  | .schedule => if w.ctl.running then schedule o w else w
  | .deadline id => if w.ctl.running then onDeadline o id w else w
  | .tick => if w.ctl.running then onTick o w else w
  | .exit child status => workerStep w child fun _ w => w.push (.exit child status)
  | .slot child chunk => workerStep w child fun l w =>
      -- a worker stores no slot but its own (`program_slot`)
      if chunk.index = l.chunkIndex then
        (updateRegion l (writeSlot chunk) w).push (.slot child chunk)
      else w
  | .bump child => workerStep w child fun l w => (updateRegion l bumpDone w).push (.bump child)
  | .output child body => workerStep w child fun l w => w.push (.copied l.child l.id body)
  | .spawn child => spawnMember child w
  | .gone d => w.push (.gone d)
  | .record id m => if w.log.disk id = none then w.push (.record id m) else w

/-- An input is handled, or the controller dies when only the first `kept`
    effects of handling it have happened; the next one will have `slots` slots. -/
inductive Event where
  | handled (input : Input)
  | crash (input : Input) (kept slots : ℕ)

def World.step (o : Oracle) (w : World) : Event → World
  | .handled input => handle o w input
  | .crash input kept slots =>
    let w' := handle o w input
    { ctl := { slotsMax := slots }
      calls := w'.calls
      log := .died :: w'.log.drop (w'.log.length - w.log.length - kept) }

/-- An empty workspace and a controller that is down. -/
def World.start (slots : ℕ) : World :=
  { ctl := { slotsMax := slots }, calls := 0, log := [] }

end Forge
