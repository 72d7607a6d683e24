import Mathlib.Logic.Relation
import Forge.Controller.Handlers
import Forge.Controller.Log
import Forge.Lib.AListCount

/-!
# What a step of the controller can do

`Step` lists the branches of the handlers: for each, when it is taken, what it
does to the controller and which effects it has. Every handler is a sequence of
steps, so a property that each branch keeps holds over every
run; the proofs about the controller go by cases on `Step` and never unfold a
handler.

* `Saved`, `Forked`, `Persisted`, `Finish`: the parts that several branches share.
* `Step.concerns`: a step is about one job.
-/

namespace Forge

open World

/-- The controller and the log; the number of calls made does not matter. -/
structure View where
  ctl : Controller
  log : Log

def World.view (w : World) : View := ⟨w.ctl, w.log⟩

/-- An assumption about the inputs: which records appear, for which ids a SUBMIT
    line is handled while shutting down, and which children are reaped. -/
structure Guard where
  record : ℕ → Meta → Prop := fun _ _ => True
  late : Controller → ℕ → Prop := fun _ _ => True
  reap : Controller → Log → Launch → Prop := fun _ _ _ => True

/-! ## Shared parts -/

/-- No `save_meta` fails. -/
def Oracle.SavesAlways (o : Oracle) : Prop := ∀ k, o.save k = .ok

/-- A record that `recover` marks as failed (controller.cpp:789). -/
def Meta.InProgress (m : Meta) : Prop :=
  m.state = "running" ∨ m.state = "starting" ∨ m.state = "persisting"

instance (m : Meta) : Decidable m.InProgress :=
  inferInstanceAs (Decidable (m.state = "running" ∨ m.state = "starting" ∨ m.state = "persisting"))

/-- The records that matter are read: `recover` reads those in progress, and
    `on_cancel` those that are not terminal. -/
structure Oracle.Loads (o : Oracle) : Prop where
  recover : ∀ k m, m.InProgress → o.load .recover k m = true
  cancel : ∀ k m, isTerminalState m.state = false → o.load .cancel k m = true

/-- What is read is on the disk. -/
theorem disk_of_loadMeta {o : Oracle} {r : Reader} {id : ℕ} {m : Meta} {w : World}
    (h : loadMeta o r id w = some m) : w.log.disk id = some m :=
  (Option.filter_eq_some_iff.mp h).1

/-- A record that is not read is not there, or its read fails. -/
theorem loadMeta_eq_none {o : Oracle} {r : Reader} {id : ℕ} {m : Meta} {w : World}
    (h : loadMeta o r id w = none) (hdisk : w.log.disk id = some m) :
    o.load r w.calls m = false := by
  unfold loadMeta at h
  rw [hdisk, Option.filter_some] at h
  simpa using h

theorem Oracle.Loads.loadMeta_recover {o : Oracle} (h : o.Loads) {id : ℕ} {m : Meta} {w : World}
    (hdisk : w.log.disk id = some m) (hprog : m.InProgress) :
    loadMeta o .recover id w = some m := by
  rw [loadMeta, hdisk, Option.filter_some, h.recover _ m hprog]
  rfl

/-- A call of `save_meta` for job `id`, which may fail unless saves always succeed. -/
inductive Saved (o : Oracle) (log : Log) (id : ℕ) (m : Meta) : Log → Prop
  | written : Saved o log id m (.save id m :: log)
  | lost (h : ¬ o.SavesAlways) : Saved o log id m (.lost id m :: log)

/-- The fork loop: each new pid is positive and not that of an unreaped child. -/
inductive Forked (id call : ℕ) (m : Meta) : ℕ → List ByteRange → Log → List ProcRef → Log → Prop
  | nil {i : ℕ} {log : Log} : Forked id call m i [] log [] log
  | cons {i : ℕ} {range : ByteRange} {ranges : List ByteRange} {log log' : Log}
      {pid start : ℕ} {grouped : Bool} {procs : List ProcRef}
      (hpid : pid ∉ log.unreaped) (hpos : 0 < pid)
      (hrest : Forked id call m (i + 1) ranges
        (.fork ⟨log.length, call, id, pid, start, m, i, range.offset, range.length⟩ :: log) procs log') :
      Forked id call m i (range :: ranges) log
        ({ pid := pid, start := start, grouped := grouped, child := log.length } :: procs) log'

/-- The effects of killing and reaping a list of processes. -/
def killedLog : List ProcRef → Log → Log
  | [], log => log
  | pr :: procs, log =>
    killedLog procs (.reap pr.child :: .exit pr.child (.killed sigkill) ::
      .kill pr.pid sigkill pr.grouped :: log)

/-- What `finalize` writes before the final state. -/
inductive Persisted (o : Oracle) (id : ℕ) (m : Meta) (state : String) (log : Log) :
    Except String String → Meta → String → Option WriteAnswer → Log → Prop
  | failed {why : String} : Persisted o id m state log (.error why) m state none log
  | silent : Persisted o id m state log (.ok "") m state none log
  | written {body : String} {log' : Log} (hbody : body ≠ "")
      (hsave : Saved o log id (m.setState "persisting") log') :
      Persisted o id m state log (.ok body) (m.setState "persisting") state (some .ok)
        (.output id (textBytes body) :: log')
  | unwritten {body err : String} {visible : Bool} {log' : Log} (hbody : body ≠ "")
      (hsave : Saved o log id (m.setState "persisting") log') :
      Persisted o id m state log (.ok body) ((m.setState "persisting").setError err) "failed"
        (some (.failed err visible))
        (if visible then .output id (textBytes body) :: log' else log')

/-- What `inspect_file` may answer on the output of job `id`. -/
inductive Inspected (o : Oracle) (id : ℕ) (log : Log) : Except String ℕ → Prop
  | size : Inspected o id log (outputSize o.root id log)
  | failed {k : ℕ} {err : String} (h : o.inspectOutput k = some err) :
      Inspected o id log (.error err)

/-- The answer depends on the output of the job only. -/
theorem Inspected.of_outputs {o : Oracle} {id : ℕ} {log log' : Log} {inspect : Except String ℕ}
    (h : Inspected o id log inspect) (hsame : log'.outputs id = log.outputs id) :
    Inspected o id log' inspect := by
  cases h with
  | size =>
    have hsize : outputSize o.root id log = outputSize o.root id log' := by
      rw [outputSize, outputSize, hsame]
    exact hsize ▸ .size
  | failed h => exact .failed h

/-- `finalize` of a live job. -/
inductive Finish (o : Oracle) (id : ℕ) (job : LiveJob) (c : Controller) (log : Log) :
    Controller → Log → Prop
  | mk {t : ℤ} {m : Meta} {state : String} {write : Option WriteAnswer} {log₁ log₂ : Log}
      {inspect : Except String ℕ} (hinspect : Inspected o job.jobMeta.id log inspect)
      (hpersist :
        let judged := judgedJob job t
        let result := resultsOk judged inspect
        let settled := settle job.stopReason judged.jobMeta result
        Persisted o id settled.1 settled.2 log result m state write log₁)
      (hsave : Saved o log₁ id (m.setState state) log₂) :
      Finish o id job c log (withoutJob id job c)
        (.removed id :: .finalized id state (judgedJob job t) inspect write :: log₂)

/-- The job is not waiting in the queue, as far as the handlers look. -/
def LiveJob.PastQueue (job : LiveJob) : Prop := job.jobMeta.state ≠ "queued" ∨ 0 ≤ job.deadlineId

/-- A child of this controller that has ended and that `waitid` has not returned. -/
structure Zombie (g : Guard) (c : Controller) (log : Log) (l : Launch) (status : WaitStatus) :
    Prop where
  forked : l ∈ log.forks
  ended : log.status l.child = some status
  unreaped : ¬ log.Reaped l.child
  allowed : g.reap c log l

/-- A queued job that a free slot lets run. -/
structure Launchable (c : Controller) (id : ℕ) (job : LiveJob) : Prop where
  up : c.shuttingDown = false
  room : c.slotsUsed < c.slotsMax
  queue : id ∈ c.queue
  live : c.live.lookup id = some job
  queued : job.jobMeta.state = "queued"

/-! ## Steps -/

/-- One branch of a handler. It is about job `id`, or about none. -/
inductive Step (o : Oracle) (g : Guard) : ℕ → View → View → Prop
  /-- `recover` has returned: no record in progress that it could read is left of an
      earlier controller. -/
  | started {c : Controller} {log : Log} {id : ℕ}
      (hdone : o.SavesAlways → o.Loads → log.IdsMatch → ∀ other m, log.disk other = some m →
        m.InProgress → c.live.lookup other ≠ none) :
      Step o g id ⟨c, log⟩ ⟨{ c with running := true }, log⟩
  /-- `recover` marks a job that was in progress as failed. -/
  | recoverFail {c : Controller} {log log' : Log} {id : ℕ} {m : Meta} {t : ℤ} {kills : List Effect}
      (hlive : c.live.lookup id = none) (hdisk : log.disk id = some m)
      (hstate : m.InProgress)
      (hkills : ∀ e ∈ kills, ∃ pid group, e = .leftover pid group)
      (hsave : Saved o (kills ++ log) id (((m.setState "failed").setError
        "controller restarted while the job was in progress").setFinished t) log') :
      Step o g id ⟨c, log⟩ ⟨c, log'⟩
  /-- SUBMIT while shutting down. -/
  | cancelLate {c : Controller} {log log' : Log} {id : ℕ} {m : Meta} {t : ℤ}
      (hshut : c.shuttingDown = true) (hlate : g.late c id) (hdisk : log.disk id = some m)
      (hopen : isTerminalState m.state = false)
      (hsave : Saved o log id
        (((m.setState "cancelled").setError "controller is shutting down").setFinished t) log') :
      Step o g id ⟨c, log⟩ ⟨c, log'⟩
  /-- SUBMIT of an invalid record. -/
  | reject {c : Controller} {log log' : Log} {id : ℕ} {m : Meta} {err : String} {t : ℤ}
      (hup : c.shuttingDown = false) (hlive : c.live.lookup id = none)
      (hdisk : log.disk id = some m) (hopen : isTerminalState m.state = false)
      (hinvalid : validateMeta m = some err)
      (hsave : Saved o log id (((m.setState "failed").setError err).setFinished t) log') :
      Step o g id ⟨c, log⟩ ⟨c, log'⟩
  /-- SUBMIT of a valid record. -/
  | enter {c : Controller} {log log' : Log} {id : ℕ} {m : Meta}
      (hup : c.shuttingDown = false) (hlive : c.live.lookup id = none)
      (hdisk : log.disk id = some m) (hopen : isTerminalState m.state = false)
      (hvalid : validateMeta m = none) (hphase : c.running = true ∨ ¬ m.InProgress)
      (hsave : Saved o log id (m.setState "queued") log') :
      Step o g id ⟨c, log⟩
        ⟨{ c with queue := c.queue ++ [id],
                  live := c.live.insert id { jobMeta := m.setState "queued" } },
          .admitted id :: log'⟩
  /-- `launch_job` gives up before the first fork. -/
  | launchFail {c c' : Controller} {log log' : Log} {id : ℕ} {job : LiveJob} {m : Meta}
      (hjob : Launchable c id job)
      (hid : m.id = job.jobMeta.id) (hstate : m.state = "failed") (hsave : Saved o log id m log')
      (hctl : c' = withoutJob id job c ∨
        c' = { c with live := c.live.erase id, queue := c.queue.filter (· ≠ id) }) :
      Step o g id ⟨c, log⟩ ⟨c', .removed id :: log'⟩
  /-- A fork fails; the processes already forked are killed and reaped. -/
  | launchSpawnFail {c : Controller} {log log₁ log₂ log' : Log} {id n : ℕ} {job : LiveJob}
      {m m' : Meta} {procs : List ProcRef}
      (hjob : Launchable c id job)
      (hid : m.id = job.jobMeta.id) (hstarting : m.state = "starting")
      (hid' : m'.id = job.jobMeta.id) (hstate' : m'.state = "failed") {t : ℤ}
      (hstart : Saved o log id (m.setStarted t) log₁)
      (hfork : Forked id log.length m 0 ((launchRanges m).take n) log₁ procs log₂)
      (hsave : Saved o (killedLog procs log₂) id m' log')
      (hmeta : ∃ bytes t', m = ((job.jobMeta.setBytes bytes).setState "starting").setStarted t')
      (hfail : ∃ call i err, (o.launch call).fork i = .error err) :
      Step o g id ⟨c, log⟩
        ⟨{ c with live := c.live.erase id, queue := c.queue.filter (· ≠ id) },
          .removed id :: log'⟩
  /-- All workers are forked. -/
  | launch {c : Controller} {log log₁ log₂ log' : Log} {id call : ℕ} {job : LiveJob} {m : Meta}
      {procs : List ProcRef} {deadlineId : ℤ} {t : ℤ}
      (hjob : Launchable c id job)
      {bytes : ℕ} {t' : ℤ}
      (hmeta : m = ((job.jobMeta.setBytes bytes).setState "starting").setStarted t')
      (hinspect : m.op ≠ "exec" → (o.launch call).inspect = .ok (true, m.bytes))
      (hstart : Saved o log id (m.setStarted t) log₁)
      (hfork : Forked id log.length m 0 (launchRanges m) log₁ procs log₂)
      (hrun : Saved o log₂ id ((m.setProcs (formatProcs procs)).setState "running") log') :
      Step o g id ⟨c, log⟩
        ⟨{ c with
            live := c.live.insert id (launchedJob job m procs deadlineId)
            queue := c.queue.filter (· ≠ id)
            pidOwner := fun pid => if pid ∈ procs.map (·.pid) then some id else c.pidOwner pid
            slotsUsed := c.slotsUsed + 1 }, log'⟩
  /-- CANCEL of an id that is not live and has nothing to cancel, as far as can be read. -/
  | cancelNothing {c : Controller} {log : Log} {id : ℕ} (hlive : c.live.lookup id = none)
      (hdisk : o.Loads → ∀ m, log.disk id = some m → isTerminalState m.state = true) :
      Step o g id ⟨c, log⟩ ⟨c, .cancelled id :: log⟩
  /-- CANCEL of a record that is not live. -/
  | cancelRecord {c : Controller} {log log' : Log} {id : ℕ} {m : Meta} {t : ℤ}
      (hlive : c.live.lookup id = none) (hdisk : log.disk id = some m)
      (hopen : isTerminalState m.state = false)
      (hsave : Saved o log id
        (((m.setState "cancelled").setError "cancelled").setFinished t) log') :
      Step o g id ⟨c, log⟩ ⟨c, .cancelled id :: log'⟩
  /-- CANCEL of a queued job. -/
  | cancelQueued {c : Controller} {log log' : Log} {id : ℕ} {job : LiveJob} {t : ℤ}
      (hlive : c.live.lookup id = some job) (hqueued : job.jobMeta.state = "queued")
      (hsave : Saved o log id (((job.jobMeta.setState "cancelled").setError
        "cancelled before start").setFinished t) log') :
      Step o g id ⟨c, log⟩
        ⟨{ c with live := c.live.erase id, queue := c.queue.filter (· ≠ id) },
          .cancelled id :: .removed id :: log'⟩
  /-- CANCEL of a running job has been passed on. -/
  | cancelRunning {c : Controller} {log : Log} {id : ℕ} {job : LiveJob}
      (hlive : c.live.lookup id = some job) (hrunning : job.jobMeta.state ≠ "queued") :
      Step o g id ⟨c, log⟩ ⟨c, .cancelled id :: log⟩
  /-- The first stop cause of a job. -/
  | stop {c : Controller} {log : Log} {id now : ℕ} {job : LiveJob} {reason : String}
      (hlive : c.live.lookup id = some job) (hrunning : job.PastQueue)
      (hreason : reason ≠ "") (hfirst : job.stopReason = "") :
      Step o g id ⟨c, log⟩
        ⟨{ c with live := c.live.insert id (stoppedJob job reason now) },
          (signalEffects job sigterm).reverse ++ .stop id reason :: log⟩
  /-- A later stop cause. -/
  | stopAgain {c : Controller} {log : Log} {id : ℕ} {job : LiveJob} {reason : String}
      (hlive : c.live.lookup id = some job) (hrunning : job.PastQueue)
      (hreason : reason ≠ "") (hstopped : job.stopReason ≠ "") :
      Step o g id ⟨c, log⟩ ⟨c, .stop id reason :: log⟩
  /-- SIGKILL for a job that was stopped a second ago. -/
  | escalate {c : Controller} {log : Log} {id : ℕ} {job : LiveJob}
      (hlive : c.live.lookup id = some job) (hstopped : job.stopReason ≠ "") :
      Step o g id ⟨c, log⟩
        ⟨{ c with live := c.live.insert id (escalatedJob job) },
          (signalEffects job sigkill).reverse ++ log⟩
  | shutdown {c : Controller} {log : Log} {id : ℕ} :
      Step o g id ⟨c, log⟩ ⟨{ c with shuttingDown := true }, log⟩
  /-- A child is reaped that no live job owns. -/
  | reapUnknown {c : Controller} {log : Log} {l : Launch} {status : WaitStatus} {id : ℕ}
      (hzombie : Zombie g c log l status)
      (howner : ∀ owner, c.pidOwner l.pid = some owner → c.live.lookup owner = none) :
      Step o g id ⟨c, log⟩ ⟨c, .reap l.child :: log⟩
  /-- A child is reaped, and its job has others left. -/
  | reapSome {c : Controller} {log : Log} {l : Launch} {status : WaitStatus} {id : ℕ} {job : LiveJob}
      (hzombie : Zombie g c log l status) (howner : c.pidOwner l.pid = some id)
      (hlive : c.live.lookup id = some job)
      (hleft : (reapedJob job l.pid status).allReaped = false ∨ job.finished = true)
      (hgood : (reapedJob job l.pid status).anyBad = false ∨ job.stopReason ≠ "") :
      Step o g id ⟨c, log⟩
        ⟨{ c with live := c.live.insert id (reapedJob job l.pid status) }, .reap l.child :: log⟩
  /-- A child is reaped that failed, and its job has others left and is stopped. -/
  | reapBad {c : Controller} {log : Log} {l : Launch} {status : WaitStatus} {id now : ℕ}
      {job : LiveJob} (hzombie : Zombie g c log l status) (howner : c.pidOwner l.pid = some id)
      (hlive : c.live.lookup id = some job)
      (hleft : (reapedJob job l.pid status).allReaped = false ∨ job.finished = true)
      (hbad : (reapedJob job l.pid status).anyBad = true) (hfirst : job.stopReason = "") :
      Step o g id ⟨c, log⟩
        ⟨{ c with live := c.live.insert id (stoppedJob (reapedJob job l.pid status) "failed" now) },
          (signalEffects (reapedJob job l.pid status) sigterm).reverse ++
            .stop id "failed" :: .reap l.child :: log⟩
  /-- The last child of a job is reaped. -/
  | reapLast {c c' : Controller} {log log' : Log} {l : Launch} {status : WaitStatus} {id : ℕ}
      {job : LiveJob} (hzombie : Zombie g c log l status) (howner : c.pidOwner l.pid = some id)
      (hlive : c.live.lookup id = some job) (hopen : job.finished = false)
      (hall : (reapedJob job l.pid status).allReaped = true)
      (hgood : (reapedJob job l.pid status).anyBad = false ∨ job.stopReason ≠ "")
      (hfinish : Finish o id (reapedJob job l.pid status) c (.reap l.child :: log) c' log') :
      Step o g id ⟨c, log⟩ ⟨c', log'⟩
  /-- The last child of a job is reaped, and its end is the job's first stop cause. -/
  | reapLastBad {c c' : Controller} {log log' : Log} {l : Launch} {status : WaitStatus} {id now : ℕ}
      {job : LiveJob} (hzombie : Zombie g c log l status) (howner : c.pidOwner l.pid = some id)
      (hlive : c.live.lookup id = some job) (hopen : job.finished = false)
      (hall : (reapedJob job l.pid status).allReaped = true)
      (hbad : (reapedJob job l.pid status).anyBad = true) (hfirst : job.stopReason = "")
      (hfinish : Finish o id (stoppedJob (reapedJob job l.pid status) "failed" now) c
        (.stop id "failed" :: .reap l.child :: log) c' log') :
      Step o g id ⟨c, log⟩ ⟨c', log'⟩
  | workerExit {c : Controller} {log : Log} {l : Launch} {status : WaitStatus} {id : ℕ}
      (hlaunch : l ∈ log.launches) (halive : log.status l.child = none) :
      Step o g id ⟨c, log⟩ ⟨c, .exit l.child status :: log⟩
  | workerOutput {c : Controller} {log : Log} {l : Launch} {body : Bytes} {id : ℕ}
      (hlaunch : l ∈ log.launches) (halive : log.status l.child = none) :
      Step o g id ⟨c, log⟩ ⟨c, .copied l.child l.id body :: log⟩
  /-- A process of the worker's group starts another one. -/
  | memberSpawned {c : Controller} {log : Log} {l : Launch} {id : ℕ} (hlaunch : l ∈ log.launches)
      (hopen : log.groupKilled (·.isForkOf l.child) l.pid = false) :
      Step o g id ⟨c, log⟩ ⟨c, .spawned l.child log.length :: log⟩
  | memberGone {c : Controller} {log : Log} {d id : ℕ} : Step o g id ⟨c, log⟩ ⟨c, .gone d :: log⟩
  /-- A worker stores its slot or counts it as published. -/
  | workerRegion {c : Controller} {log : Log} {l : Launch} {e : Effect}
      {f : SharedRegion → SharedRegion}
      (hlaunch : l ∈ log.launches) (halive : log.status l.child = none)
      (hf : (∃ chunk : ChunkResult, chunk.index = l.chunkIndex ∧ e = .slot l.child chunk ∧
          f = writeSlot chunk) ∨ (e = .bump l.child ∧ f = bumpDone)) :
      Step o g l.id ⟨c, log⟩
        ⟨match c.live.lookup l.id with
          | none => c
          | some job =>
            if l.child ∈ job.procs.map (·.child) then
              { c with live := c.live.insert l.id { job with shm := job.shm.map f } }
            else c, e :: log⟩
  | record {c : Controller} {log : Log} {id : ℕ} {m : Meta} (hnew : log.disk id = none)
      (hrecord : g.record id m) :
      Step o g id ⟨c, log⟩ ⟨c, .record id m :: log⟩

/-- Any number of steps. -/
def Steps (o : Oracle) (g : Guard) : View → View → Prop :=
  Relation.ReflTransGen fun v v' => ∃ id, Step o g id v v'

variable {o : Oracle}

namespace Steps

variable {g : Guard} {v v' v'' : View} {id : ℕ}

theorem refl : Steps o g v v := Relation.ReflTransGen.refl

theorem trans (h : Steps o g v v') (h' : Steps o g v' v'') : Steps o g v v'' :=
  Relation.ReflTransGen.trans h h'

theorem one (h : Step o g id v v') : Steps o g v v' := Relation.ReflTransGen.single ⟨id, h⟩

theorem snoc (h : Steps o g v v') (h' : Step o g id v' v'') : Steps o g v v'' := h.trans (one h')

/-- A property that every step keeps. -/
theorem keeps {P : View → Prop} (hstep : ∀ id v v', P v → Step o g id v v' → P v')
    (h : Steps o g v v') (hv : P v) : P v' := by
  induction h with
  | refl => exact hv
  | tail _ h ih =>
    obtain ⟨id, h⟩ := h
    exact hstep id _ _ ih h

end Steps

/-! ## The shared parts of the handlers -/

@[simp] theorem saveMeta_ctl (id : ℕ) (m : Meta) (w : World) :
    (saveMeta o id m w).2.ctl = w.ctl := by
  unfold saveMeta
  split <;> rfl

theorem saveMeta_calls (id : ℕ) (m : Meta) (w : World) :
    (saveMeta o id m w).2.calls = w.calls + 1 := by
  unfold saveMeta
  split <;> rfl

theorem saveMeta_saved (id : ℕ) (m : Meta) (w : World) :
    Saved o w.log id m (saveMeta o id m w).2.log := by
  unfold saveMeta
  split
  · exact .written
  · exact .written
  · next hfail =>
    apply Saved.lost
    intro hall
    rw [hall] at hfail
    cases hfail

/-- Saves that always succeed are in the log. -/
theorem Saved.eq (ho : o.SavesAlways) {log log' : Log} {id : ℕ} {m : Meta}
    (h : Saved o log id m log') : log' = .save id m :: log := by
  cases h with
  | written => rfl
  | lost hno => exact absurd ho hno

theorem forkLoop_forked {id call : ℕ} {m : Meta} {fork : ℕ → Except String ForkAnswer}
    {ranges : List ByteRange} {i : ℕ} {w w' : World} {procs : List ProcRef} {err : Option String}
    (h : forkLoop id call m fork i ranges w = (procs, err, w')) :
    w'.ctl = w.ctl ∧ (err = none → Forked id call m i ranges w.log procs w'.log) ∧
      (err ≠ none → ∃ k e, fork k = .error e) ∧
      ∃ n, Forked id call m i (ranges.take n) w.log procs w'.log := by
  induction ranges generalizing i w procs err w' with
  | nil =>
    cases h
    exact ⟨rfl, fun _ => .nil, fun hsome => absurd rfl hsome, 0, .nil⟩
  | cons range ranges ih =>
    rw [forkLoop] at h
    split at h
    · next e herror =>
      cases h
      exact ⟨rfl, fun hnone => (by cases hnone), fun _ => ⟨i, e, herror⟩, 0, .nil⟩
    · next answer hanswer =>
      rcases hrest : forkLoop id call m fork (i + 1) ranges (forkWorker id call m i range answer w).2
        with ⟨procs', err', w''⟩
      obtain ⟨hctl, hall, hfail, n, hsome⟩ := ih hrest
      simp only [hrest] at h
      cases h
      refine ⟨hctl, fun hnone => ?_, hfail, n + 1, ?_⟩
      · exact .cons (freshPid_notMem _ _) (freshPid_pos _ _) (hall hnone)
      · exact .cons (freshPid_notMem _ _) (freshPid_pos _ _) hsome

theorem killSpawned_view (procs : List ProcRef) (w : World) :
    (killSpawned procs w).view = ⟨w.ctl, killedLog procs w.log⟩ := by
  induction procs generalizing w with
  | nil => rfl
  | cons pr procs ih => exact ih _

theorem better_mem {live : AList fun _ : ℕ => LiveJob} {queue : List ℕ} {best : Option (ℕ × ℤ)}
    {id : ℕ} {pri : ℤ} (h : queue.foldl (better live) best = some (id, pri)) :
    best = some (id, pri) ∨
      (id ∈ queue ∧ ∃ job, live.lookup id = some job ∧ job.jobMeta.state = "queued") := by
  induction queue generalizing best with
  | nil => exact Or.inl h
  | cons cand queue ih =>
    rcases ih h with hbest | ⟨hmem, hjob⟩
    · unfold better at hbest
      split at hbest
      · exact Or.inl hbest
      · next job hlive =>
        split_ifs at hbest with hstate
        · exact Or.inl hbest
        · have hqueued : job.jobMeta.state = "queued" := by simpa using hstate
          split at hbest
          · cases hbest
            exact Or.inr ⟨List.mem_cons_self, job, hlive, hqueued⟩
          · split_ifs at hbest
            · cases hbest
              exact Or.inr ⟨List.mem_cons_self, job, hlive, hqueued⟩
            · exact Or.inl hbest
    · exact Or.inr ⟨List.mem_cons_of_mem cand hmem, hjob⟩

theorem pickNext_mem {c : Controller} {id : ℕ} (h : pickNext c = some id) :
    id ∈ c.queue ∧ ∃ job, c.live.lookup id = some job ∧ job.jobMeta.state = "queued" := by
  unfold pickNext at h
  obtain ⟨⟨id', pri⟩, hbest, rfl⟩ := Option.map_eq_some_iff.mp h
  exact (better_mem hbest).resolve_left (by simp)

/-! ## The record of a finished job -/

theorem settle_state (reason : String) (m : Meta) (result : Except String String) :
    (settle reason m result).1.id = m.id ∧
      isTerminalState (settle reason m result).2 = true := by
  unfold settle
  cases result with
  | error why =>
    refine ⟨rfl, ?_⟩
    dsimp only
    split_ifs <;> rfl
  | ok body => exact ⟨rfl, rfl⟩

theorem Persisted.id_eq {id : ℕ} {m m' : Meta} {state state' : String} {log log' : Log}
    {result : Except String String} {write : Option WriteAnswer}
    (h : Persisted o id m state log result m' state' write log') : m'.id = m.id := by
  cases h <;> rfl

/-! ## The log grows -/

/-- `log'` is `log` with newer effects, all of which satisfy `P`. -/
def Adds (P : Effect → Prop) (log log' : Log) : Prop :=
  ∃ new : List Effect, log' = new ++ log ∧ ∀ e ∈ new, P e

namespace Adds

variable {P : Effect → Prop} {log log₁ log₂ : Log}

theorem refl (log : Log) : Adds P log log := ⟨[], rfl, by simp⟩

theorem trans (h : Adds P log log₁) (h' : Adds P log₁ log₂) : Adds P log log₂ := by
  obtain ⟨new, rfl, hnew⟩ := h
  obtain ⟨new', rfl, hnew'⟩ := h'
  refine ⟨new' ++ new, (List.append_assoc _ _ _).symm, fun e he => ?_⟩
  rcases List.mem_append.mp he with he | he
  · exact hnew' e he
  · exact hnew e he

theorem imp {Q : Effect → Prop} (h : Adds P log log₁) (hPQ : ∀ e, P e → Q e) :
    Adds Q log log₁ := by
  obtain ⟨new, hlog, hnew⟩ := h
  exact ⟨new, hlog, fun e he => hPQ e (hnew e he)⟩

theorem suffix (h : Adds P log log₁) : log <:+ log₁ := by
  obtain ⟨new, rfl, -⟩ := h
  exact List.suffix_append new log

theorem append {new : List Effect} (h : Adds P log log₁) (hnew : ∀ e ∈ new, P e) :
    Adds P log (new ++ log₁) := h.trans ⟨new, rfl, hnew⟩

theorem cons {e : Effect} (h : Adds P log log₁) (he : P e) : Adds P log (e :: log₁) :=
  @append P log log₁ [e] h (by simpa using he)

theorem saved {id : ℕ} {m : Meta} (h : Adds P log log₁) (hP : P (.save id m))
    (hlost : P (.lost id m)) (hsave : Saved o log₁ id m log₂) : Adds P log log₂ := by
  cases hsave with
  | written => exact h.cons hP
  | lost => exact h.cons hlost

theorem forked {id call i : ℕ} {m : Meta} {ranges : List ByteRange} {procs : List ProcRef}
    (h : Adds P log log₁) (hP : ∀ l : Launch, l.id = id → l.call = call → P (.fork l))
    (hfork : Forked id call m i ranges log₁ procs log₂) : Adds P log log₂ := by
  induction hfork with
  | nil => exact h
  | cons _ _ _ ih => exact ih (h.cons (hP _ rfl rfl))

theorem killed (h : Adds P log log₁) (hkill : ∀ pid sig group, P (.kill pid sig group))
    (hexit : ∀ child status, P (.exit child status)) (hreap : ∀ child, P (.reap child))
    (procs : List ProcRef) : Adds P log (killedLog procs log₁) := by
  induction procs generalizing log₁ with
  | nil => exact h
  | cons pr procs ih => exact ih (((h.cons (hkill _ _ _)).cons (hexit _ _)).cons (hreap _))

theorem signals (h : Adds P log log₁) (hkill : ∀ pid sig group, P (.kill pid sig group))
    (job : LiveJob) (sig : ℕ) : Adds P log ((signalEffects job sig).reverse ++ log₁) := by
  refine h.append fun e he => ?_
  obtain ⟨_, _, rfl⟩ := List.mem_map.mp (List.mem_reverse.mp he)
  exact hkill _ _ _

theorem persisted {id : ℕ} {m m' : Meta} {state state' : String}
    {result : Except String String} {write : Option WriteAnswer} (h : Adds P log log₁)
    (hsaved : ∀ m₁ : Meta, m₁.id = m.id → P (.save id m₁) ∧ P (.lost id m₁))
    (houtput : ∀ body, P (.output id body))
    (hpersist : Persisted o id m state log₁ result m' state' write log₂) : Adds P log log₂ := by
  cases hpersist with
  | failed => exact h
  | silent => exact h
  | written _ hsave =>
    obtain ⟨hsaved, hlost⟩ := hsaved (m.setState "persisting") rfl
    exact (h.saved hsaved hlost hsave).cons (houtput _)
  | @unwritten _ _ visible _ _ hsave =>
    obtain ⟨hsaved, hlost⟩ := hsaved (m.setState "persisting") rfl
    cases visible
    · exact h.saved hsaved hlost hsave
    · exact (h.saved hsaved hlost hsave).cons (houtput _)

theorem finished {id : ℕ} {job : LiveJob} {c c' : Controller} (h : Adds P log log₁)
    (hfinish : Finish o id job c log₁ c' log₂)
    (hsaved : ∀ m : Meta, m.id = job.jobMeta.id → P (.save id m) ∧ P (.lost id m))
    (hremoved : P (.removed id)) (houtput : ∀ body, P (.output id body))
    (hfinal : ∀ state t inspect write, P (.finalized id state (judgedJob job t) inspect write)) :
    Adds P log log₂ := by
  obtain @⟨t, m, state, write, log', log'', inspect, hinspect, hpersist, hsave⟩ := hfinish
  have hid : _ = job.jobMeta.id := (settle_state job.stopReason (judgedJob job t).jobMeta
    (resultsOk (judgedJob job t) inspect)).1
  have hadds := h.persisted (fun m₁ hm₁ => hsaved m₁ (hm₁.trans hid)) houtput hpersist
  obtain ⟨hfinal₁, hfinal₂⟩ := hsaved (m.setState state) (hpersist.id_eq.trans hid)
  exact ((hadds.saved hfinal₁ hfinal₂ hsave).cons (hfinal _ _ _ _)).cons hremoved

end Adds

/-- The record is that of job `id`, in `c.live` or on the disk, as far as its id goes. -/
def View.Derives (v : View) (id : ℕ) (m : Meta) : Prop :=
  (∃ job, v.ctl.live.lookup id = some job ∧ m.id = job.jobMeta.id) ∨
    ∃ m₀, v.log.disk id = some m₀ ∧ m.id = m₀.id

/-- What the effects of a step may be that concerns job `id`. -/
def Concerns (g : Guard) (v : View) (id : ℕ) : Effect → Prop
  | .record i m => i = id ∧ g.record i m
  | .fork l => l.id = id ∧ l.call = v.log.length ∧ v.ctl.shuttingDown = false
  | .slot child _ => ∃ l ∈ v.log.launches, l.child = child ∧ l.id = id
  | .bump child => ∃ l ∈ v.log.launches, l.child = child ∧ l.id = id
  | .stop i _ => i = id
  | .save i m => i = id ∧ v.Derives id m
  | .lost i m => i = id ∧ v.Derives id m
  | .admitted i => i = id
  | .removed i => i = id
  | .finalized i _ job' _ _ => i = id ∧ ∃ job, v.ctl.live.lookup id = some job ∧
    job'.procs.map (·.child) = job.procs.map (·.child)
  | .died => False
  | _ => True

/-- Saving a job's record concerns the job. -/
theorem Saved.concerns {g : Guard} {v : View} {id : ℕ} {m : Meta} {log log' : Log}
    (h : Saved o log id m log') (hm : v.Derives id m) : Adds (Concerns g v id) log log' :=
  (Adds.refl log).saved ⟨rfl, hm⟩ ⟨rfl, hm⟩ h

theorem markReaped_pairs (pid : ℕ) (status : WaitStatus) (procs : List ProcRef) :
    (markReaped pid status procs).map (fun pr => (pr.child, pr.pid)) =
      procs.map fun pr => (pr.child, pr.pid) := by
  unfold markReaped
  rw [List.map_map]
  apply List.map_congr_left
  intro pr _
  dsimp only [Function.comp]
  split_ifs <;> rfl

theorem reapedJob_children (job : LiveJob) (pid : ℕ) (status : WaitStatus) :
    (reapedJob job pid status).procs.map (·.child) = job.procs.map (·.child) := by
  have hpairs := congrArg (List.map Prod.fst) (markReaped_pairs pid status job.procs)
  rw [List.map_map, List.map_map] at hpairs
  exact hpairs

/-- **A step concerns one job**: its effects are that job's, and the other live
    jobs are untouched. -/
theorem Step.concerns {g : Guard} {id : ℕ} {v v' : View} (h : Step o g id v v') :
    Adds (Concerns g v id) v.log v'.log ∧
      ∀ other, other ≠ id → v'.ctl.live.lookup other = v.ctl.live.lookup other := by
  cases h with
  | started => exact ⟨.refl _, fun _ _ => rfl⟩
  | @recoverFail c log log' id m t kills _ hdisk _ hkills hsave =>
    refine ⟨(Adds.append (.refl log) fun e he => ?_).trans (hsave.concerns (Or.inr ⟨m, hdisk, rfl⟩)),
      fun _ _ => rfl⟩
    obtain ⟨_, _, rfl⟩ := hkills e he
    trivial
  | cancelLate _ _ hdisk _ hsave =>
    exact ⟨hsave.concerns (Or.inr ⟨_, hdisk, rfl⟩), fun _ _ => rfl⟩
  | reject _ _ hdisk _ _ hsave =>
    exact ⟨hsave.concerns (Or.inr ⟨_, hdisk, rfl⟩), fun _ _ => rfl⟩
  | @enter c log log' id m _ _ hdisk _ _ _ hsave =>
    exact ⟨(hsave.concerns (Or.inr ⟨m, hdisk, rfl⟩)).cons rfl, fun _ hne => AList.lookup_insert_ne hne⟩
  | @launchFail c c' log log' id job m hjob hid _ hsave hctl =>
    refine ⟨(hsave.concerns (Or.inl ⟨job, hjob.live, hid⟩)).cons rfl, fun other hne => ?_⟩
    rcases hctl with rfl | rfl <;> exact AList.lookup_erase_ne hne
  | @launchSpawnFail c log log₁ log₂ log' id _ job m m' procs hjob hid _ hid' _ t hstart hfork
      hsave =>
    have hforked : Adds (Concerns g ⟨c, log⟩ id) log log₂ :=
      (hstart.concerns (Or.inl ⟨job, hjob.live, hid⟩)).forked
        (fun _ hid hcall => ⟨hid, hcall, hjob.up⟩) hfork
    have hkilled := hforked.killed (fun _ _ _ => trivial) (fun _ _ => trivial) (fun _ => trivial) procs
    exact ⟨(hkilled.trans (hsave.concerns (Or.inl ⟨job, hjob.live, hid'⟩))).cons rfl,
      fun _ hne => AList.lookup_erase_ne hne⟩
  | @launch c log log₁ log₂ log' id call job m procs deadlineId t hjob bytes t' hmeta _ hstart hfork
      hrun =>
    have hid : m.id = job.jobMeta.id := by rw [hmeta]; rfl
    exact ⟨((hstart.concerns (Or.inl ⟨job, hjob.live, hid⟩)).forked
      (fun _ hid hcall => ⟨hid, hcall, hjob.up⟩) hfork).trans
        (hrun.concerns (Or.inl ⟨job, hjob.live, hid⟩)), fun _ hne => AList.lookup_insert_ne hne⟩
  | cancelNothing => exact ⟨(Adds.refl _).cons trivial, fun _ _ => rfl⟩
  | @cancelRecord c log log' id m t _ hdisk _ hsave =>
    exact ⟨(hsave.concerns (Or.inr ⟨m, hdisk, rfl⟩)).cons trivial, fun _ _ => rfl⟩
  | @cancelQueued c log log' id job t hlive _ hsave =>
    have hremoved : Adds (Concerns g ⟨c, log⟩ id) log (.removed id :: log') :=
      (hsave.concerns (Or.inl ⟨job, hlive, rfl⟩)).cons rfl
    exact ⟨hremoved.cons trivial,
      fun _ hne => AList.lookup_erase_ne hne⟩
  | cancelRunning => exact ⟨(Adds.refl _).cons trivial, fun _ _ => rfl⟩
  | @stop c log id now job reason =>
    have hstop : Adds (Concerns g ⟨c, log⟩ id) log (.stop id reason :: log) :=
      (Adds.refl log).cons rfl
    exact ⟨hstop.signals (fun _ _ _ => trivial) job sigterm,
      fun _ hne => AList.lookup_insert_ne hne⟩
  | stopAgain => exact ⟨(Adds.refl _).cons rfl, fun _ _ => rfl⟩
  | escalate =>
    exact ⟨(Adds.refl _).signals (fun _ _ _ => trivial) _ _,
      fun _ hne => AList.lookup_insert_ne hne⟩
  | shutdown => exact ⟨.refl _, fun _ _ => rfl⟩
  | reapUnknown => exact ⟨(Adds.refl _).cons trivial, fun _ _ => rfl⟩
  | reapSome =>
    exact ⟨(Adds.refl _).cons trivial, fun _ hne => AList.lookup_insert_ne hne⟩
  | @reapBad c log l status id now job =>
    have hreap : Adds (Concerns g ⟨c, log⟩ id) log (.reap l.child :: log) :=
      (Adds.refl log).cons trivial
    have hstop : Adds (Concerns g ⟨c, log⟩ id) log (.stop id "failed" :: .reap l.child :: log) :=
      hreap.cons rfl
    exact ⟨hstop.signals (fun _ _ _ => trivial) _ _, fun _ hne => AList.lookup_insert_ne hne⟩
  | @reapLast c c' log log' l status id job _ _ hlive _ _ _ hfinish =>
    have hreap : Adds (Concerns g ⟨c, log⟩ id) log (.reap l.child :: log) :=
      (Adds.refl log).cons trivial
    refine ⟨hreap.finished hfinish (fun m hm => ⟨⟨rfl, Or.inl ⟨job, hlive, hm⟩⟩, rfl,
      Or.inl ⟨job, hlive, hm⟩⟩) rfl (fun _ => trivial) (fun _ _ _ _ =>
      ⟨rfl, job, hlive, reapedJob_children job l.pid status⟩), fun other hne => ?_⟩
    cases hfinish
    exact AList.lookup_erase_ne hne
  | @reapLastBad c c' log log' l status id now job _ _ hlive _ _ _ _ hfinish =>
    have hreap : Adds (Concerns g ⟨c, log⟩ id) log (.reap l.child :: log) :=
      (Adds.refl log).cons trivial
    have hstop : Adds (Concerns g ⟨c, log⟩ id) log (.stop id "failed" :: .reap l.child :: log) :=
      hreap.cons rfl
    refine ⟨hstop.finished hfinish (fun m hm => ⟨⟨rfl, Or.inl ⟨job, hlive, hm⟩⟩, rfl,
      Or.inl ⟨job, hlive, hm⟩⟩) rfl (fun _ => trivial) (fun _ _ _ _ =>
      ⟨rfl, job, hlive, reapedJob_children job l.pid status⟩), fun other hne => ?_⟩
    cases hfinish
    exact AList.lookup_erase_ne hne
  | workerExit => exact ⟨(Adds.refl _).cons trivial, fun _ _ => rfl⟩
  | workerOutput => exact ⟨(Adds.refl _).cons trivial, fun _ _ => rfl⟩
  | memberSpawned => exact ⟨(Adds.refl _).cons trivial, fun _ _ => rfl⟩
  | memberGone => exact ⟨(Adds.refl _).cons trivial, fun _ _ => rfl⟩
  | @workerRegion c log l e f hlaunch _ hf =>
    have he : Concerns g ⟨c, log⟩ l.id e := by
      rcases hf with ⟨_, _, rfl, _⟩ | ⟨rfl, _⟩
      · exact ⟨l, hlaunch, rfl, rfl⟩
      · exact ⟨l, hlaunch, rfl, rfl⟩
    refine ⟨(Adds.refl log).cons he, fun other hne => ?_⟩
    dsimp only
    split
    · rfl
    · split_ifs
      · exact AList.lookup_insert_ne hne
      · rfl
  | record _ hrecord => exact ⟨(Adds.refl _).cons ⟨rfl, hrecord⟩, fun _ _ => rfl⟩

/-- `log'` is `log` with newer effects, whose records the guard allows. -/
abbrev Grows (g : Guard) : Log → Log → Prop := Adds fun e => ∀ id m, e = .record id m → g.record id m

/-- A step adds to the log. -/
theorem Step.grows {g : Guard} {id : ℕ} {v v' : View} (h : Step o g id v v') :
    Grows g v.log v'.log := by
  refine h.concerns.1.imp fun e he i m heq => ?_
  subst heq
  exact he.2

/-- If the guard allows only records that carry their ids, the ids match. -/
theorem Adds.idsMatch {g : Guard} {log log' : Log} (h : Grows g log log')
    (hg : ∀ id m, g.record id m → m.id = id) (hids : log.IdsMatch) : log'.IdsMatch := by
  obtain ⟨new, rfl, hnew⟩ := h
  intro id m hmem
  rcases List.mem_append.mp hmem with hmem | hmem
  · exact hg id m (hnew _ hmem id m rfl)
  · exact hids id m hmem

end Forge
