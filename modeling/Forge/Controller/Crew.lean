import Forge.Controller.Children
import Forge.Controller.Repr

/-!
# Live jobs and their workers

`Staffed` says what the log knows of a job that `launch_job` has started: which
workers it has, what has become of them, which stop cause came first and what
they have stored in the shared region.

* `Staffed.keep`: effects of other jobs change nothing.
* `Crew.others`, `Crew.subject`: a step keeps the jobs staffed.
-/

namespace Forge

/-! ## Reading the log -/

namespace Log

/-- The first reason for which `request_stop` was called since the job's workers
    were forked, or the empty string. -/
def stopCause : Log → ℕ → String
  | [], _ => ""
  | .stop i reason :: log, id =>
    if i = id ∧ stopCause log id = "" then reason else stopCause log id
  | .fork l :: log, id => if l.id = id then "" else stopCause log id
  | _ :: log, id => stopCause log id

/-- How often the children have counted themselves as published. -/
def bumps : Log → List ℕ → ℕ
  | [], _ => 0
  | .bump child :: log, cs => if child ∈ cs then bumps log cs + 1 else bumps log cs
  | _ :: log, cs => bumps log cs

/-- The slots as the children have stored them. -/
def slots : Log → List ℕ → ℕ → ChunkResult
  | [], _ => fun _ => {}
  | .slot child chunk :: log, cs =>
    if child ∈ cs then Function.update (slots log cs) chunk.index chunk else slots log cs
  | _ :: log, cs => slots log cs

/-- The shared region of a job with `n` ranges and the given children. -/
def region (log : Log) (cs : List ℕ) (n : ℕ) : SharedRegion where
  magic := kShmMagic
  nchunks := n
  startGate := 1
  chunksDone := log.bumps cs
  chunks := log.slots cs

/-- The job has been judged with one of the children among its processes. -/
def Judged (log : Log) (child : ℕ) : Prop :=
  ∃ id state job inspect write, Effect.finalized id state job inspect write ∈ log ∧
    child ∈ job.procs.map (·.child)

end Log

variable {log log' : Log}

/-- A job is judged after its workers have been forked. -/
def JudgedOk : Effect → Log → Prop
  | .finalized _ _ job _ _, log =>
    ∀ child ∈ job.procs.map (·.child), ∃ l ∈ log.launches, l.child = child
  | _, _ => True

theorem launch_of_judged (h : History.All JudgedOk log) {child : ℕ} (hjudged : log.Judged child) :
    ∃ l ∈ log.launches, l.child = child := by
  obtain ⟨id, state, job, inspect, write, hmem, hchild⟩ := hjudged
  obtain ⟨new, past, rfl⟩ := List.append_of_mem hmem
  obtain ⟨l, hl, hl'⟩ := h.at ⟨new, rfl⟩ child hchild
  exact ⟨l, Log.mem_launches_suffix ⟨new ++ [.finalized id state job inspect write], by simp⟩ hl, hl'⟩

/-! ## Staffed jobs -/

/-- What the log knows of a live job and its workers `ws`. -/
structure Staffed (log : Log) (id : ℕ) (job : LiveJob) (call : ℕ) (ws : List Launch) : Prop where
  pairs : job.procs.map (fun pr => (pr.child, pr.pid)) = ws.map fun l => (l.child, l.pid)
  belongs : ∀ l ∈ ws, l ∈ log.forks ∧ l.id = id ∧ l.call = call
  all : ∀ l ∈ log.launches, l.call = call → l ∈ ws
  recent : call < log.length
  pids : (ws.map (·.pid)).Nodup
  index : ws.map (·.chunkIndex) = List.range ws.length
  ranges : ws.map (fun l => (⟨l.offset, l.length⟩ : ByteRange)) = launchRanges job.jobMeta
  metas : ∀ l ∈ ws, job.jobMeta = (l.jobMeta.setProcs job.jobMeta.procs).setState "running"
  admitted : job.jobMeta.Admitted
  done : ∀ pr ∈ job.procs, pr.reaped = true → log.Reaped pr.child ∧
    ∃ status, log.status pr.child = some status ∧ pr.how = describeWait status
  fresh : ∀ pr ∈ job.procs, pr.reaped = false → pr.how = ""
  cause : job.stopReason = log.stopCause id
  shm : job.shm = if job.jobMeta.op = "exec" then none
    else some (log.region (ws.map (·.child)) ws.length)
  once : ∀ l ∈ ws, ¬ log.Judged l.child

/-- The effect is none of the job's own, or one that the job does not notice. -/
def Foreign (id call : ℕ) (cs : List ℕ) : Effect → Prop
  | .fork l => l.id ≠ id ∧ l.call ≠ call
  | .slot child _ => child ∉ cs
  | .bump child => child ∉ cs
  | .stop i _ => i ≠ id
  | .finalized _ _ job _ _ => ∀ child ∈ job.procs.map (·.child), child ∉ cs
  | .died => False
  | _ => True

theorem mem_forks_cons {e : Effect} (he : e ≠ .died) {l : Launch} (h : l ∈ log.forks) :
    l ∈ Log.forks (e :: log) := by
  cases e with
  | died => exact absurd rfl he
  | fork l' => exact List.mem_cons_of_mem l' h
  | _ => exact h

/-- How a child has ended does not change. -/
theorem status_cons {e : Effect} (hok : ChildOk e log) {child : ℕ} {status : WaitStatus}
    (h : log.status child = some status) : Log.status (e :: log) child = some status := by
  cases e with
  | exit c s =>
    have hne : c ≠ child := by
      rintro rfl
      cases hok.2.symm.trans h
    exact (if_neg hne).trans h
  | _ => exact h

theorem region_keep {id call n : ℕ} {cs : List ℕ} {e : Effect} (he : Foreign id call cs e) :
    Log.region (e :: log) cs n = Log.region log cs n := by
  cases e with
  | slot child chunk =>
    have hslots : Log.slots (.slot child chunk :: log) cs = Log.slots log cs := if_neg he
    simp only [Log.region, hslots]
    rfl
  | bump child =>
    have hbumps : Log.bumps (.bump child :: log) cs = Log.bumps log cs := if_neg he
    simp only [Log.region, hbumps]
    rfl
  | _ => rfl

theorem Staffed.keep {id call : ℕ} {job : LiveJob} {ws : List Launch} {e : Effect}
    (h : Staffed log id job call ws) (hok : ChildOk e log)
    (he : Foreign id call (ws.map (·.child)) e) : Staffed (e :: log) id job call ws := by
  have hdied : e ≠ .died := by
    rintro rfl
    exact he
  refine ⟨h.pairs, fun l hl => ?_, fun l hl hcall => ?_, ?_, h.pids, h.index, h.ranges, h.metas,
    h.admitted, fun pr hpr hreaped => ?_, h.fresh, ?_, ?_, fun l hl => ?_⟩
  · obtain ⟨hfork, hbelongs⟩ := h.belongs l hl
    exact ⟨mem_forks_cons hdied hfork, hbelongs⟩
  · cases e with
    | fork l' =>
      rcases List.mem_cons.mp hl with rfl | hl
      · exact absurd hcall he.2
      · exact h.all l hl hcall
    | _ => exact h.all l hl hcall
  · have := h.recent
    rw [List.length_cons]
    omega
  · obtain ⟨hreap, status, hstatus, hhow⟩ := h.done pr hpr hreaped
    exact ⟨Log.reaped_cons hreap, status, status_cons hok hstatus, hhow⟩
  · rw [h.cause]
    cases e with
    | stop i reason => exact (if_neg fun hno => he hno.1).symm
    | fork l => exact (if_neg he.1).symm
    | _ => rfl
  · rw [h.shm, region_keep he]
  · rintro ⟨id', state, job', inspect, write, hmem, hchild⟩
    rcases List.mem_cons.mp hmem with rfl | hmem
    · exact he l.child hchild (List.mem_map_of_mem hl)
    · exact h.once l hl ⟨id', state, job', inspect, write, hmem, hchild⟩

/-- Effects of other jobs change nothing. -/
theorem Staffed.keep_append {id call : ℕ} {job : LiveJob} {ws : List Launch} {es : List Effect}
    (h : Staffed log id job call ws) (hall : History.All ChildOk (es ++ log))
    (hes : ∀ e ∈ es, Foreign id call (ws.map (·.child)) e) :
    Staffed (es ++ log) id job call ws := by
  induction es with
  | nil => exact h
  | cons e es ih =>
    exact (ih hall.2 fun e' he' => hes e' (List.mem_cons_of_mem e he')).keep hall.1
      (hes e List.mem_cons_self)

theorem Staffed.children {id call : ℕ} {job : LiveJob} {ws : List Launch}
    (h : Staffed log id job call ws) : job.procs.map (·.child) = ws.map (·.child) := by
  have hpairs := congrArg (List.map Prod.fst) h.pairs
  rw [List.map_map, List.map_map] at hpairs
  exact hpairs

theorem Staffed.pids_eq {id call : ℕ} {job : LiveJob} {ws : List Launch}
    (h : Staffed log id job call ws) : job.procs.map (·.pid) = ws.map (·.pid) := by
  have hpairs := congrArg (List.map Prod.snd) h.pairs
  rw [List.map_map, List.map_map] at hpairs
  exact hpairs

/-- The launch of a process. -/
theorem Staffed.launch_of_proc {id call : ℕ} {job : LiveJob} {ws : List Launch}
    (h : Staffed log id job call ws) {pr : ProcRef} (hpr : pr ∈ job.procs) :
    ∃ l ∈ ws, l.child = pr.child ∧ l.pid = pr.pid := by
  have hmem : (pr.child, pr.pid) ∈ job.procs.map fun pr => (pr.child, pr.pid) :=
    List.mem_map_of_mem (f := fun pr : ProcRef => (pr.child, pr.pid)) hpr
  rw [h.pairs] at hmem
  obtain ⟨l, hl, heq⟩ := List.mem_map.mp hmem
  exact ⟨l, hl, congrArg Prod.fst heq, congrArg Prod.snd heq⟩

/-- The process of a worker. -/
theorem Staffed.proc_of_launch {id call : ℕ} {job : LiveJob} {ws : List Launch}
    (h : Staffed log id job call ws) {l : Launch} (hl : l ∈ ws) :
    ∃ pr ∈ job.procs, pr.child = l.child ∧ pr.pid = l.pid := by
  have hmem : (l.child, l.pid) ∈ ws.map fun l => (l.child, l.pid) :=
    List.mem_map_of_mem (f := fun l : Launch => (l.child, l.pid)) hl
  rw [← h.pairs] at hmem
  obtain ⟨pr, hpr, heq⟩ := List.mem_map.mp hmem
  exact ⟨pr, hpr, congrArg Prod.fst heq, congrArg Prod.snd heq⟩

/-! ## The invariant -/

/-- A live job is queued and untouched, or staffed with a worker left to reap. -/
structure Tended (log : Log) (id : ℕ) (job : LiveJob) : Prop where
  waiting : job.jobMeta.state = "queued" → job.stopReason = "" ∧ job.jobMeta.Admitted
  staffed : job.jobMeta.state ≠ "queued" → job.allReaped = false ∧
    ∃ call ws, Staffed log id job call ws

/-- The live jobs and the children that have not been reaped belong together. -/
structure Crew (v : View) : Prop where
  repr : v.ctl.Repr
  children : History.All ChildOk v.log
  jobs : ∀ id job, v.ctl.live.lookup id = some job → Tended v.log id job
  judged : History.All JudgedOk v.log
  owner : ∀ l ∈ v.log.forks, ¬ v.log.Reaped l.child → ∀ id, v.ctl.pidOwner l.pid = some id →
    id = l.id
  home : ∀ l ∈ v.log.forks, ¬ v.log.Reaped l.child →
    ∃ job, v.ctl.live.lookup l.id = some job ∧ l.child ∈ job.procs.map (·.child)

theorem Crew.staffed {v : View} (hv : Crew v) {id : ℕ} {job : LiveJob}
    (hlive : v.ctl.live.lookup id = some job) (hstate : job.jobMeta.state ≠ "queued") :
    ∃ call ws, Staffed v.log id job call ws := ((hv.jobs id job hlive).staffed hstate).2

variable {o : Oracle} {g : Guard}

/-- The effects of another job are foreign. -/
theorem Crew.foreign {v : View} (hv : Crew v) {id₀ id call : ℕ} {job : LiveJob} {ws : List Launch}
    (hne : id ≠ id₀) (h : Staffed v.log id job call ws) {e : Effect} (he : Concerns g v id₀ e) :
    Foreign id call (ws.map (·.child)) e := by
  have hother : ∀ l ∈ v.log.launches, l.id = id₀ → l.child ∉ ws.map (·.child) := by
    intro l hl hid hmem
    obtain ⟨l', hl', hchild⟩ := List.mem_map.mp hmem
    obtain ⟨hfork, hid', -⟩ := h.belongs l' hl'
    have := launch_unique hv.children hl (Log.forks_subset hfork) hchild
    subst this
    exact hne (hid'.symm.trans hid)
  cases e with
  | fork l =>
    obtain ⟨hid, hcall, -⟩ := he
    have := h.recent
    exact ⟨by rw [hid]; exact Ne.symm hne, by omega⟩
  | slot child chunk =>
    obtain ⟨l, hl, rfl, hid⟩ := he
    exact hother l hl hid
  | bump child =>
    obtain ⟨l, hl, rfl, hid⟩ := he
    exact hother l hl hid
  | stop i reason =>
    have hi : i = id₀ := he
    rw [Foreign, hi]
    exact Ne.symm hne
  | finalized i state job' inspect write =>
    obtain ⟨-, job₀, hlive, hchildren⟩ := he
    intro child hchild
    rw [hchildren] at hchild
    by_cases hqueued : job₀.jobMeta.state = "queued"
    · rw [(hv.repr.waiting id₀ job₀ hlive hqueued).procs] at hchild
      cases hchild
    · obtain ⟨call₀, ws₀, h₀⟩ := hv.staffed hlive hqueued
      rw [h₀.children] at hchild
      obtain ⟨l, hl, rfl⟩ := List.mem_map.mp hchild
      obtain ⟨hfork, hid, -⟩ := h₀.belongs l hl
      exact hother l (Log.forks_subset hfork) hid
  | died => exact he.elim
  | _ => trivial

/-- A step keeps the jobs staffed that it is not about. -/
theorem Crew.others {id₀ id call : ℕ} {v v' : View} {job : LiveJob} {ws : List Launch}
    (hv : Crew v) (h : Step o g id₀ v v') (hne : id ≠ id₀) (hst : Staffed v.log id job call ws) :
    Staffed v'.log id job call ws := by
  obtain ⟨⟨es, hlog, hes⟩, -⟩ := h.concerns
  have hall := h.children hv.children
  rw [hlog] at hall ⊢
  exact hst.keep_append hall fun e he => hv.foreign hne hst (hes e he)

/-! ### The job a step is about -/

/-- No job notices the effect. -/
def Unnoticed : Effect → Prop
  | .fork _ => False
  | .slot _ _ => False
  | .bump _ => False
  | .stop _ _ => False
  | .finalized _ _ _ _ _ => False
  | .died => False
  | _ => True

theorem Unnoticed.foreign {e : Effect} (h : Unnoticed e) (id call : ℕ) (cs : List ℕ) :
    Foreign id call cs e := by
  cases e <;> trivial

/-- Effects that no job notices leave it staffed. -/
theorem Staffed.unnoticed {id call : ℕ} {job : LiveJob} {ws : List Launch}
    (h : Staffed log id job call ws) (hall : History.All ChildOk log')
    (hadds : Adds Unnoticed log log') : Staffed log' id job call ws := by
  obtain ⟨es, rfl, hes⟩ := hadds
  exact h.keep_append hall fun e he => (hes e he).foreign _ _ _

/-- The first stop cause. -/
theorem Staffed.stop {id call : ℕ} {job : LiveJob} {ws : List Launch} {reason : String}
    (h : Staffed log id job call ws) (hfirst : job.stopReason = "") (now : ℕ) :
    Staffed (.stop id reason :: log) id (stoppedJob job reason now) call ws where
  pairs := h.pairs
  belongs := h.belongs
  all := h.all
  recent := Nat.lt_succ_of_lt h.recent
  pids := h.pids
  index := h.index
  ranges := h.ranges
  metas := h.metas
  admitted := h.admitted
  done := fun pr hpr hreaped => by
    obtain ⟨hreap, hstatus⟩ := h.done pr hpr hreaped
    exact ⟨Log.reaped_cons hreap, hstatus⟩
  fresh := h.fresh
  cause := by
    have hnone : log.stopCause id = "" := h.cause.symm.trans hfirst
    exact (if_pos ⟨rfl, hnone⟩).symm
  shm := h.shm
  once := by
    rintro l hl ⟨id', state, job', inspect, write, hmem, hchild⟩
    rcases List.mem_cons.mp hmem with hmem | hmem
    · cases hmem
    · exact h.once l hl ⟨id', state, job', inspect, write, hmem, hchild⟩

/-- A later stop cause. -/
theorem Staffed.stopAgain {id call : ℕ} {job : LiveJob} {ws : List Launch} {reason : String}
    (h : Staffed log id job call ws) (hstopped : job.stopReason ≠ "") :
    Staffed (.stop id reason :: log) id job call ws where
  pairs := h.pairs
  belongs := h.belongs
  all := h.all
  recent := Nat.lt_succ_of_lt h.recent
  pids := h.pids
  index := h.index
  ranges := h.ranges
  metas := h.metas
  admitted := h.admitted
  done := fun pr hpr hreaped => by
    obtain ⟨hreap, hstatus⟩ := h.done pr hpr hreaped
    exact ⟨Log.reaped_cons hreap, hstatus⟩
  fresh := h.fresh
  cause := by
    have hsome : ¬ (id = id ∧ log.stopCause id = "") := fun hno => hstopped (h.cause.trans hno.2)
    exact h.cause.trans (if_neg hsome).symm
  shm := h.shm
  once := by
    rintro l hl ⟨id', state, job', inspect, write, hmem, hchild⟩
    rcases List.mem_cons.mp hmem with hmem | hmem
    · cases hmem
    · exact h.once l hl ⟨id', state, job', inspect, write, hmem, hchild⟩

/-- One of the workers is reaped. -/
theorem Staffed.reap {id call : ℕ} {job : LiveJob} {ws : List Launch} {l : Launch}
    {status : WaitStatus} (h : Staffed log id job call ws) (hl : l ∈ ws)
    (hended : log.status l.child = some status) :
    Staffed (.reap l.child :: log) id (reapedJob job l.pid status) call ws := by
  have hchild : ∀ pr ∈ job.procs, pr.pid = l.pid → pr.child = l.child := by
    intro pr hpr hpid
    obtain ⟨l', hl', hchild', hpid'⟩ := h.launch_of_proc hpr
    have := List.inj_on_of_nodup_map h.pids hl' hl (hpid'.trans hpid)
    rw [← hchild', this]
  refine ⟨(markReaped_pairs _ _ _).trans h.pairs, h.belongs, h.all, Nat.lt_succ_of_lt h.recent,
    h.pids, h.index, h.ranges, h.metas, h.admitted, ?_, ?_, h.cause, h.shm, ?_⟩
  · intro pr' hpr' hreaped
    obtain ⟨pr, hpr, rfl⟩ := List.mem_map.mp hpr'
    by_cases hpid : pr.pid = l.pid
    · rw [if_pos hpid]
      refine ⟨?_, status, ?_, rfl⟩
      · rw [hchild pr hpr hpid]
        exact List.mem_cons_self
      · rw [hchild pr hpr hpid]
        exact hended
    · rw [if_neg hpid] at hreaped ⊢
      obtain ⟨hreap, hstatus⟩ := h.done pr hpr hreaped
      exact ⟨Log.reaped_cons hreap, hstatus⟩
  · intro pr' hpr' hreaped
    obtain ⟨pr, hpr, rfl⟩ := List.mem_map.mp hpr'
    by_cases hpid : pr.pid = l.pid
    · rw [if_pos hpid] at hreaped
      cases hreaped
    · rw [if_neg hpid] at hreaped ⊢
      exact h.fresh pr hpr hreaped
  · rintro l' hl' ⟨id', state, job', inspect, write, hmem, hmem'⟩
    rcases List.mem_cons.mp hmem with hmem | hmem
    · cases hmem
    · exact h.once l' hl' ⟨id', state, job', inspect, write, hmem, hmem'⟩

/-- One of the workers stores its slot or counts it as published. -/
theorem Staffed.store {id call : ℕ} {job : LiveJob} {ws : List Launch} {l : Launch} {e : Effect}
    {f : SharedRegion → SharedRegion} (h : Staffed log id job call ws)
    (hl : l.child ∈ ws.map (·.child))
    (hf : (∃ chunk : ChunkResult, chunk.index = l.chunkIndex ∧ e = .slot l.child chunk ∧
      f = writeSlot chunk) ∨ (e = .bump l.child ∧ f = bumpDone)) :
    Staffed (e :: log) id { job with shm := job.shm.map f } call ws := by
  have hregion : Log.region (e :: log) (ws.map (·.child)) ws.length =
      f (log.region (ws.map (·.child)) ws.length) := by
    rcases hf with ⟨chunk, -, rfl, rfl⟩ | ⟨rfl, rfl⟩
    · have hslots : Log.slots (.slot l.child chunk :: log) (ws.map (·.child)) =
          Function.update (Log.slots log (ws.map (·.child))) chunk.index chunk := if_pos hl
      simp only [Log.region, hslots]
      rfl
    · have hbumps : Log.bumps (.bump l.child :: log) (ws.map (·.child)) =
          Log.bumps log (ws.map (·.child)) + 1 := if_pos hl
      simp only [Log.region, hbumps]
      rfl
  have hrest : (∀ child, Log.Reaped (e :: log) child ↔ log.Reaped child) ∧
      (∀ child, Log.status (e :: log) child = log.status child) ∧
      Log.launches (e :: log) = log.launches ∧ Log.forks (e :: log) = log.forks ∧
      Log.stopCause (e :: log) id = log.stopCause id ∧
      ∀ child, Log.Judged (e :: log) child ↔ log.Judged child := by
    rcases hf with ⟨chunk, -, rfl, -⟩ | ⟨rfl, -⟩
    · exact ⟨by simp [Log.Reaped], fun _ => rfl, rfl, rfl, rfl, by simp [Log.Judged]⟩
    · exact ⟨by simp [Log.Reaped], fun _ => rfl, rfl, rfl, rfl, by simp [Log.Judged]⟩
  obtain ⟨hreaped, hstatus, hlaunches, hforks, hcause, hjudged⟩ := hrest
  refine ⟨h.pairs, ?_, ?_, Nat.lt_succ_of_lt h.recent, h.pids, h.index, h.ranges, h.metas,
    h.admitted, ?_, h.fresh, h.cause.trans hcause.symm, ?_, ?_⟩
  · rw [hforks]
    exact h.belongs
  · rw [hlaunches]
    exact h.all
  · intro pr hpr hpr'
    rw [hreaped, hstatus]
    exact h.done pr hpr hpr'
  · dsimp only
    rw [h.shm, hregion]
    split_ifs <;> rfl
  · intro l' hl'
    rw [hjudged]
    exact h.once l' hl'

/-- Only the record, the processes, the stop reason and the region matter. -/
theorem Staffed.congr {id call : ℕ} {job job' : LiveJob} {ws : List Launch}
    (h : Staffed log id job call ws) (hmeta : job'.jobMeta = job.jobMeta)
    (hprocs : job'.procs = job.procs) (hstop : job'.stopReason = job.stopReason)
    (hshm : job'.shm = job.shm) : Staffed log id job' call ws := by
  constructor
  · rw [hprocs]; exact h.pairs
  · exact h.belongs
  · exact h.all
  · exact h.recent
  · exact h.pids
  · exact h.index
  · rw [hmeta]; exact h.ranges
  · rw [hmeta]; exact h.metas
  · rw [hmeta]; exact h.admitted
  · rw [hprocs]; exact h.done
  · rw [hprocs]; exact h.fresh
  · rw [hstop]; exact h.cause
  · rw [hshm, hmeta]; exact h.shm
  · exact h.once

/-- No job notices signals. -/
theorem signals_unnoticed (job : LiveJob) (sig : ℕ) (log : Log) :
    Adds Unnoticed log ((signalEffects job sig).reverse ++ log) :=
  (Adds.refl log).signals (fun _ _ _ => trivial) job sig

/-! ### Launches -/

/-- Children that have not been forked have stored nothing. -/
theorem region_fresh (h : History.All ChildOk log) {cs : List ℕ}
    (hcs : ∀ child ∈ cs, log.length ≤ child) (n : ℕ) :
    log.region cs n = { magic := kShmMagic, nchunks := n, startGate := 1 } := by
  have hboth : log.bumps cs = 0 ∧ log.slots cs = fun _ => {} := by
    induction log with
    | nil => exact ⟨rfl, rfl⟩
    | cons e log ih =>
      obtain ⟨hok, hall⟩ := h
      have hcs' : ∀ child ∈ cs, log.length ≤ child := by
        intro child hchild
        have := hcs child hchild
        rw [List.length_cons] at this
        omega
      have hnot : ∀ l ∈ Log.launches log, l.child ∉ cs := by
        intro l hl hmem
        have hlt := (launch_child_lt hall hl).1
        have := hcs' l.child hmem
        omega
      obtain ⟨hbumps, hslots⟩ := ih hall hcs'
      cases e with
      | slot child chunk =>
        obtain ⟨l, hl, rfl, -⟩ := hok
        exact ⟨hbumps, (if_neg (hnot l hl)).trans hslots⟩
      | bump child =>
        obtain ⟨l, hl, rfl, -⟩ := hok
        exact ⟨(if_neg (hnot l hl)).trans hbumps, hslots⟩
      | _ => exact ⟨hbumps, hslots⟩
  unfold Log.region
  rw [hboth.1, hboth.2]

theorem Forked.readings {id call i : ℕ} {m : Meta} {ranges : List ByteRange}
    {procs : List ProcRef} (h : Forked id call m i ranges log procs log') :
    (∀ cs n, log'.region cs n = log.region cs n) ∧ (∀ child, log'.Judged child ↔ log.Judged child) ∧
      (log.stopCause id = "" → log'.stopCause id = "") := by
  induction h with
  | nil => exact ⟨fun _ _ => rfl, fun _ => Iff.rfl, fun h => h⟩
  | cons _ _ _ ih =>
    obtain ⟨hregion, hjudged, hcause⟩ := ih
    refine ⟨fun cs n => (hregion cs n).trans rfl, fun child => (hjudged child).trans ?_,
      fun _ => hcause (if_pos rfl)⟩
    simp [Log.Judged]

theorem Forked.stopCause {id call i : ℕ} {m : Meta} {ranges : List ByteRange}
    {procs : List ProcRef} (h : Forked id call m i ranges log procs log') (hne : procs ≠ []) :
    log'.stopCause id = "" := by
  cases h with
  | nil => exact absurd rfl hne
  | cons _ _ hrest => exact hrest.readings.2.2 (if_pos rfl)

theorem Saved.readings {id : ℕ} {m : Meta} (h : Saved o log id m log') :
    log'.forks = log.forks ∧ log'.launches = log.launches ∧ (∀ id, log'.stopCause id = log.stopCause id) ∧
      (∀ cs n, log'.region cs n = log.region cs n) ∧ (∀ child, log'.Judged child ↔ log.Judged child) ∧
      (∀ child, log'.Reaped child ↔ log.Reaped child) ∧ log.length ≤ log'.length := by
  cases h with
  | written =>
    exact ⟨rfl, rfl, fun _ => rfl, fun _ _ => rfl, by simp [Log.Judged], by simp [Log.Reaped], by simp⟩
  | lost =>
    exact ⟨rfl, rfl, fun _ => rfl, fun _ _ => rfl, by simp [Log.Judged], by simp [Log.Reaped], by simp⟩

/-- A job whose workers have just been forked. -/
theorem Crew.launched {c : Controller} {log₁ log₂ : Log} {id bytes : ℕ} {t t' : ℤ} {job : LiveJob}
    {m m' : Meta} {procs : List ProcRef} {deadlineId : ℤ} (hv : Crew ⟨c, log⟩)
    (hjob : Launchable c id job)
    (hmeta : m = ((job.jobMeta.setBytes bytes).setState "starting").setStarted t')
    (hstart : Saved o log id (m.setStarted t) log₁)
    (hfork : Forked id log.length m 0 (launchRanges m) log₁ procs log₂)
    (hrun : Saved o log₂ id m' log') (hall' : History.All ChildOk log') :
    ∃ ws, Staffed log' id (launchedJob job m procs deadlineId) log.length ws := by
  obtain ⟨ws, hws⟩ := hfork.workers
  obtain ⟨hforks₁, hlaunches₁, -, hregion₁, hjudged₁, hreaped₁, hlen₁⟩ := hstart.readings
  obtain ⟨hforks', hlaunches', hcause', hregion', hjudged', hreaped', hlen'⟩ := hrun.readings
  obtain ⟨hregion₂, hjudged₂, -⟩ := hfork.readings
  obtain ⟨hreason, hadmitted⟩ := (hv.jobs id job hjob.live).waiting hjob.queued
  have hmem : ∀ l ∈ ws, l ∈ log'.forks := by
    intro l hl
    rw [hforks', hws.forks]
    exact List.mem_append_left _ (List.mem_reverse.mpr hl)
  have hnewer : ∀ l ∈ ws, log.length ≤ l.child := fun l hl => hlen₁.trans (hws.newer l hl)
  have hunreaped : ∀ l ∈ ws, ¬ log'.Reaped l.child := by
    intro l hl
    rw [hreaped', hws.reaped, hreaped₁]
    exact (fresh_child hv.children (hnewer l hl)).2
  refine ⟨ws, hws.pairs, fun l hl => ?_, fun l hl hcall => ?_, ?_, ?_, ?_, hws.ranges,
    fun l hl => ?_, ?_, fun pr hpr hreaped => ?_, fun pr hpr _ => (hws.fresh pr hpr).2, ?_, ?_, ?_⟩
  · obtain ⟨hid, hcall, -⟩ := hws.belongs l hl
    exact ⟨hmem l hl, hid, hcall⟩
  · rw [hlaunches', hws.launches, hlaunches₁] at hl
    rcases List.mem_append.mp hl with hl | hl
    · exact List.mem_reverse.mp hl
    · have hlt : l.call < log.length := (launch_child_lt hv.children hl).2
      omega
  · obtain ⟨l, hl⟩ : ∃ l, l ∈ ws := by
      apply List.exists_mem_of_ne_nil
      rintro rfl
      exact launchRanges_ne_nil m hws.ranges.symm
    have hlt := (launch_child_lt hall' (Log.forks_subset (hmem l hl))).1
    have := hnewer l hl
    omega
  · rw [List.nodup_map_iff_inj_on hws.children.of_map]
    intro l hl l' hl' hpid
    exact (unreaped_unique hall' (hmem l hl) (hmem l' hl') (hunreaped l hl) (hunreaped l' hl')
      hpid.symm).symm
  · rw [hws.index, List.range_eq_range']
  · rw [(hws.belongs l hl).2.2]
    rfl
  · rw [launchedJob, hmeta]
    exact ⟨hadmitted.op, hadmitted.io, hadmitted.workers_pos, hadmitted.workers_le,
      hadmitted.single⟩
  · rw [(hws.fresh pr hpr).1] at hreaped
    cases hreaped
  · rw [hcause', hfork.stopCause hfork.ne_nil]
    exact hreason
  · have hlen : ws.length = (launchRanges m).length := by rw [← hws.ranges, List.length_map]
    have hregion : log'.region (ws.map (·.child)) ws.length =
        { magic := kShmMagic, nchunks := ws.length, startGate := 1 } := by
      rw [hregion', hregion₂, hregion₁]
      apply region_fresh hv.children
      intro child hchild
      obtain ⟨l, hl, rfl⟩ := List.mem_map.mp hchild
      exact hnewer l hl
    rw [hregion, hlen]
    rfl
  · intro l hl hjudged
    rw [hjudged', hjudged₂, hjudged₁] at hjudged
    obtain ⟨l', hl', hchild⟩ := launch_of_judged hv.judged hjudged
    have hlt : l'.child < log.length := (launch_child_lt hv.children hl').1
    have := hnewer l hl
    omega

/-! ### Steps -/

/-- A child that is reaped is a worker of the job that owns its pid. -/
theorem Crew.worker_of_owner {v : View} (hv : Crew v) {l : Launch} {status : WaitStatus} {id : ℕ}
    {job : LiveJob} (hzombie : Zombie g v.ctl v.log l status)
    (howner : v.ctl.pidOwner l.pid = some id) (hlive : v.ctl.live.lookup id = some job) :
    ∃ call ws, Staffed v.log id job call ws ∧ l ∈ ws := by
  have hid : id = l.id := hv.owner l hzombie.forked hzombie.unreaped id howner
  subst hid
  obtain ⟨job', hlive', hmem⟩ := hv.home l hzombie.forked hzombie.unreaped
  cases hlive.symm.trans hlive'
  have hrunning := hv.repr.running_of_owner howner hlive
  have hstate : job.jobMeta.state ≠ "queued" := by
    rw [hrunning.state]
    decide
  obtain ⟨call, ws, hst⟩ := hv.staffed hlive hstate
  rw [hst.children] at hmem
  obtain ⟨l', hl', hchild⟩ := List.mem_map.mp hmem
  have hfork := (hst.belongs l' hl').1
  have heq : l' = l := launch_unique hv.children (Log.forks_subset hzombie.forked)
    (Log.forks_subset hfork) hchild
  exact ⟨call, ws, hst, heq ▸ hl'⟩

/-- A job that owns a pid is past the queue. -/
theorem Crew.past_of_owner {v : View} (hv : Crew v) {pid id : ℕ} {job : LiveJob}
    (howner : v.ctl.pidOwner pid = some id) (hlive : v.ctl.live.lookup id = some job) :
    job.jobMeta.state ≠ "queued" := by
  rw [(hv.repr.running_of_owner howner hlive).state]
  decide

/-- A job that can be stopped is not queued. -/
theorem Crew.past_of_pastQueue {v : View} (hv : Crew v) {id : ℕ} {job : LiveJob}
    (hlive : v.ctl.live.lookup id = some job) (hpast : job.PastQueue) :
    job.jobMeta.state ≠ "queued" := by
  intro hqueued
  have hdeadline := (hv.repr.waiting id job hlive hqueued).deadlineId
  rcases hpast with hne | hle
  · exact hne hqueued
  · omega

/-- A running job is not finished. -/
theorem Crew.allReaped_of_left {v : View} (hv : Crew v) {id : ℕ} {job job' : LiveJob}
    (hlive : v.ctl.live.lookup id = some job) (hstate : job.jobMeta.state ≠ "queued")
    (hleft : job'.allReaped = false ∨ job.finished = true) : job'.allReaped = false := by
  refine hleft.resolve_right fun hfin => ?_
  rw [(hv.repr.running id job hlive hstate).finished] at hfin
  cases hfin

/-- A staffed job with a worker left to reap is tended. -/
theorem tended_of_staffed {id call : ℕ} {job : LiveJob} {ws : List Launch}
    (hstate : job.jobMeta.state ≠ "queued") (hleft : job.allReaped = false)
    (hst : Staffed log id job call ws) : Tended log id job :=
  ⟨fun hqueued => absurd hqueued hstate, fun _ => ⟨hleft, call, ws, hst⟩⟩

/-- **A step keeps the job tended that it is about.** -/
theorem Crew.subject {id : ℕ} {v v' : View} (hv : Crew v) (h : Step o g id v v') {job' : LiveJob}
    (hlive' : v'.ctl.live.lookup id = some job') : Tended v'.log id job' := by
  have hall := h.children hv.children
  -- effects that no job notices, and the same job
  have hquiet : Adds Unnoticed v.log v'.log → v.ctl.live.lookup id = some job' →
      Tended v'.log id job' := by
    intro hadds hlive
    have hold := hv.jobs id job' hlive
    refine ⟨hold.waiting, fun hstate => ?_⟩
    obtain ⟨hleft, call, ws, hst⟩ := hold.staffed hstate
    exact ⟨hleft, call, ws, hst.unnoticed hall hadds⟩
  have hnone : ∀ {c : Controller}, (c.live.erase id).lookup id = some job' → False := by
    intro c hno
    rw [AList.lookup_erase] at hno
    cases hno
  cases h with
  | started => exact hquiet (.refl _) hlive'
  | recoverFail hlive => cases hlive.symm.trans hlive'
  | cancelLate _ _ _ _ hsave => exact hquiet (Adds.saved (.refl _) trivial trivial hsave) hlive'
  | reject _ hlive => cases hlive.symm.trans hlive'
  | enter _ _ _ _ hvalid =>
    rw [AList.lookup_insert] at hlive'
    cases hlive'
    have hadmitted := validateMeta_eq_none hvalid
    exact ⟨fun _ => ⟨rfl, ⟨hadmitted.op, hadmitted.io, hadmitted.workers_pos, hadmitted.workers_le,
      hadmitted.single⟩⟩, fun hno => absurd rfl hno⟩
  | launchFail _ _ _ _ hctl =>
    rcases hctl with rfl | rfl
    · exact (hnone hlive').elim
    · exact (hnone hlive').elim
  | launchSpawnFail => exact (hnone hlive').elim
  | @launch c log log₁ log₂ log' id call job m procs deadlineId t hjob bytes t' hmeta _ hstart hfork
      hrun =>
    rw [AList.lookup_insert] at hlive'
    cases hlive'
    obtain ⟨ws, hst⟩ := hv.launched hjob hmeta hstart hfork hrun hall
    refine tended_of_staffed ?_ ?_ hst
    · show "running" ≠ "queued"
      decide
    · obtain ⟨pr, hpr⟩ := List.exists_mem_of_ne_nil _ hfork.ne_nil
      obtain ⟨_, hws⟩ := hfork.workers
      apply Bool.eq_false_of_not_eq_true
      intro hreaped
      have hreaped : pr.reaped = true := List.all_eq_true.mp hreaped pr hpr
      rw [(hws.fresh pr hpr).1] at hreaped
      cases hreaped
  | cancelNothing hlive => cases hlive.symm.trans hlive'
  | cancelRecord hlive => cases hlive.symm.trans hlive'
  | cancelQueued => exact (hnone hlive').elim
  | cancelRunning => exact hquiet ((Adds.refl _).cons trivial) hlive'
  | @stop c log id now job reason hlive hpast hreason hfirst =>
    rw [AList.lookup_insert] at hlive'
    cases hlive'
    have hstate := hv.past_of_pastQueue hlive hpast
    obtain ⟨hleft, call, ws, hst⟩ := (hv.jobs id job hlive).staffed hstate
    exact tended_of_staffed hstate hleft
      ((hst.stop hfirst now).unnoticed hall (signals_unnoticed job sigterm _))
  | stopAgain hlive hpast _ hstopped =>
    cases hlive.symm.trans hlive'
    have hstate := hv.past_of_pastQueue hlive hpast
    obtain ⟨hleft, call, ws, hst⟩ := (hv.jobs _ job' hlive).staffed hstate
    exact tended_of_staffed hstate hleft (hst.stopAgain hstopped)
  | @escalate c log id job hlive hstopped =>
    rw [AList.lookup_insert] at hlive'
    cases hlive'
    have hstate : job.jobMeta.state ≠ "queued" :=
      fun hqueued => hstopped ((hv.jobs id job hlive).waiting hqueued).1
    obtain ⟨hleft, call, ws, hst⟩ := (hv.jobs id job hlive).staffed hstate
    have hst' : Staffed log id (escalatedJob job) call ws := hst.congr rfl rfl rfl rfl
    exact tended_of_staffed hstate hleft (hst'.unnoticed hall (signals_unnoticed job sigkill _))
  | shutdown => exact hquiet (.refl _) hlive'
  | reapUnknown => exact hquiet ((Adds.refl _).cons trivial) hlive'
  | @reapSome c log l status id job hzombie howner hlive hleft =>
    rw [AList.lookup_insert] at hlive'
    cases hlive'
    have hstate := hv.past_of_owner howner hlive
    obtain ⟨call, ws, hst, hmem⟩ := hv.worker_of_owner hzombie howner hlive
    exact tended_of_staffed hstate (hv.allReaped_of_left hlive hstate hleft)
      (hst.reap hmem hzombie.ended)
  | @reapBad c log l status id now job hzombie howner hlive hleft _ hfirst =>
    rw [AList.lookup_insert] at hlive'
    cases hlive'
    have hstate := hv.past_of_owner howner hlive
    obtain ⟨call, ws, hst, hmem⟩ := hv.worker_of_owner hzombie howner hlive
    have hreaped := hst.reap hmem hzombie.ended
    exact tended_of_staffed hstate (hv.allReaped_of_left hlive hstate hleft)
      ((hreaped.stop hfirst now).unnoticed hall (signals_unnoticed _ sigterm _))
  | reapLast _ _ _ _ _ _ hfinish =>
    rw [hfinish.ctl] at hlive'
    exact (hnone hlive').elim
  | reapLastBad _ _ _ _ _ _ _ hfinish =>
    rw [hfinish.ctl] at hlive'
    exact (hnone hlive').elim
  | workerExit => exact hquiet ((Adds.refl _).cons trivial) hlive'
  | workerOutput => exact hquiet ((Adds.refl _).cons trivial) hlive'
  | memberSpawned => exact hquiet ((Adds.refl _).cons trivial) hlive'
  | memberGone => exact hquiet ((Adds.refl _).cons trivial) hlive'
  | @workerRegion c log l e f hlaunch halive hf =>
    cases hlive : c.live.lookup l.id with
    | none =>
      simp only [hlive] at hlive'
      cases hlive'
    | some job =>
      have hold := hv.jobs l.id job hlive
      simp only [hlive] at hlive'
      by_cases hmem : l.child ∈ job.procs.map (·.child)
      · simp only [if_pos hmem] at hlive'
        rw [AList.lookup_insert] at hlive'
        cases hlive'
        have hstate : job.jobMeta.state ≠ "queued" := by
          intro hqueued
          rw [(hv.repr.waiting l.id job hlive hqueued).procs] at hmem
          cases hmem
        obtain ⟨hleft, call, ws, hst⟩ := hold.staffed hstate
        rw [hst.children] at hmem
        exact tended_of_staffed hstate hleft (hst.store hmem hf)
      · simp only [if_neg hmem] at hlive'
        cases hlive.symm.trans hlive'
        refine ⟨hold.waiting, fun hstate => ?_⟩
        obtain ⟨hleft, call, ws, hst⟩ := hold.staffed hstate
        rw [hst.children] at hmem
        refine ⟨hleft, call, ws, hst.keep hall.1 ?_⟩
        rcases hf with ⟨_, -, rfl, -⟩ | ⟨rfl, -⟩
        · exact hmem
        · exact hmem
  | record => exact hquiet ((Adds.refl _).cons trivial) hlive'

end Forge
