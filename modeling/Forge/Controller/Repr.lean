import Forge.Controller.Steps

/-!
# The controller's representation invariant

`Change` sums up what a step does to the queue, the live jobs and the slots, and
`Repr` is the invariant that `c.queue`, `c.live`, `c.slots_used` and
`c.pid_owner` keep among each other.

* `Step.change`: every step is one of the changes.
* `Repr.change`: every change keeps the invariant.
-/

namespace Forge

/-! ## Changes -/

/-- The job has the same record, processes and slot, whatever is known of how
    the processes ended. -/
structure LiveJob.Sibling (job' job : LiveJob) : Prop where
  jobMeta : job'.jobMeta = job.jobMeta
  pairs : job'.procs.map (fun pr => (pr.child, pr.pid)) = job.procs.map fun pr => (pr.child, pr.pid)
  deadlineId : job'.deadlineId = job.deadlineId
  usesSlot : job'.usesSlot = job.usesSlot
  finished : job'.finished = job.finished

theorem LiveJob.Sibling.pids {job job' : LiveJob} (h : job'.Sibling job) :
    job'.procs.map (·.pid) = job.procs.map (·.pid) := by
  have hpairs := congrArg (List.map Prod.snd) h.pairs
  rw [List.map_map, List.map_map] at hpairs
  exact hpairs

theorem sibling_stopped (job : LiveJob) (reason : String) (now : ℕ) :
    (stoppedJob job reason now).Sibling job := ⟨rfl, rfl, rfl, rfl, rfl⟩

theorem sibling_escalated (job : LiveJob) : (escalatedJob job).Sibling job :=
  ⟨rfl, rfl, rfl, rfl, rfl⟩

theorem sibling_reaped (job : LiveJob) (pid : ℕ) (status : WaitStatus) :
    (reapedJob job pid status).Sibling job :=
  ⟨rfl, markReaped_pairs pid status job.procs, rfl, rfl, rfl⟩

theorem sibling_reaped_stopped (job : LiveJob) (pid : ℕ) (status : WaitStatus) (reason : String)
    (now : ℕ) : (stoppedJob (reapedJob job pid status) reason now).Sibling job :=
  ⟨rfl, markReaped_pairs pid status job.procs, rfl, rfl, rfl⟩

/-- The controller when a queued job leaves it. -/
def withoutQueued (id : ℕ) (c : Controller) : Controller :=
  { c with live := c.live.erase id, queue := c.queue.filter (· ≠ id) }

/-- What a step can do to the jobs, the queue and the slots. -/
inductive Change (c : Controller) (log : Log) : Controller → Prop
  | same {c' : Controller} (hlive : c'.live = c.live) (hqueue : c'.queue = c.queue)
      (hused : c'.slotsUsed = c.slotsUsed) (hmax : c'.slotsMax = c.slotsMax)
      (howner : c'.pidOwner = c.pidOwner) : Change c log c'
  | update {id : ℕ} {job job' : LiveJob} (hlive : c.live.lookup id = some job)
      (hsame : job'.Sibling job) : Change c log { c with live := c.live.insert id job' }
  | enter {id : ℕ} {m : Meta} (hlive : c.live.lookup id = none) (hdisk : log.disk id = some m)
      (hvalid : validateMeta m = none) :
      Change c log { c with
        queue := c.queue ++ [id], live := c.live.insert id { jobMeta := m.setState "queued" } }
  | drop {id : ℕ} {job : LiveJob} {c' : Controller} (hlive : c.live.lookup id = some job)
      (hqueued : job.jobMeta.state = "queued")
      (hctl : c' = withoutJob id job c ∨ c' = withoutQueued id c) : Change c log c'
  | launch {id bytes : ℕ} {t : ℤ} {job : LiveJob} {m : Meta} {procs : List ProcRef}
      {deadlineId : ℤ} (hjob : Launchable c id job) (hprocs : procs ≠ [])
      (hmeta : m = ((job.jobMeta.setBytes bytes).setState "starting").setStarted t) :
      Change c log { c with
        live := c.live.insert id (launchedJob job m procs deadlineId)
        queue := c.queue.filter (· ≠ id)
        pidOwner := fun pid => if pid ∈ procs.map (·.pid) then some id else c.pidOwner pid
        slotsUsed := c.slotsUsed + 1 }
  | finish {id pid : ℕ} {job job' : LiveJob} (hlive : c.live.lookup id = some job)
      (howner : c.pidOwner pid = some id) (hopen : job.finished = false)
      (hsame : job'.Sibling job) : Change c log (withoutJob id job' c)

theorem Forked.length {id call i : ℕ} {m : Meta} {ranges : List ByteRange} {log log' : Log}
    {procs : List ProcRef} (h : Forked id call m i ranges log procs log') :
    procs.length = ranges.length := by
  induction h with
  | nil => rfl
  | cons _ _ _ ih => rw [List.length_cons, List.length_cons, ih]

theorem launchRanges_ne_nil (m : Meta) : launchRanges m ≠ [] := splitRanges_ne_nil _ _ _

/-- The job's processes are as many as its ranges, so there is at least one. -/
theorem Forked.ne_nil {id call i : ℕ} {m : Meta} {log log' : Log} {procs : List ProcRef}
    (h : Forked id call m i (launchRanges m) log procs log') : procs ≠ [] := by
  intro hnil
  have hlen := h.length
  rw [hnil, List.length_nil] at hlen
  exact launchRanges_ne_nil m (List.length_eq_zero_iff.mp hlen.symm)

variable {o : Oracle} {g : Guard}

theorem Finish.ctl {id : ℕ} {job : LiveJob} {c c' : Controller} {log log' : Log}
    (h : Finish o id job c log c' log') : c' = withoutJob id job c := by
  cases h
  rfl

/-- **Every step is one of the changes.** -/
theorem Step.change {id : ℕ} {v v' : View} (h : Step o g id v v') :
    Change v.ctl v.log v'.ctl := by
  cases h with
  | enter _ hlive hdisk _ hvalid _ _ => exact .enter hlive hdisk hvalid
  | launchFail hjob _ _ _ hctl => exact .drop hjob.live hjob.queued hctl
  | launchSpawnFail hjob => exact .drop hjob.live hjob.queued (Or.inr rfl)
  | launch hjob hmeta _ _ hfork _ => exact .launch hjob hfork.ne_nil hmeta
  | cancelQueued hlive hqueued _ => exact .drop hlive hqueued (Or.inr rfl)
  | stop hlive _ _ _ => exact .update hlive (sibling_stopped _ _ _)
  | escalate hlive _ => exact .update hlive (sibling_escalated _)
  | reapSome _ _ hlive _ _ => exact .update hlive (sibling_reaped _ _ _)
  | reapBad _ _ hlive _ _ _ => exact .update hlive (sibling_reaped_stopped _ _ _ _ _)
  | reapLast _ howner hlive hopen _ _ hfinish =>
    rw [hfinish.ctl]
    exact .finish hlive howner hopen (sibling_reaped _ _ _)
  | reapLastBad _ howner hlive hopen _ _ _ hfinish =>
    rw [hfinish.ctl]
    exact .finish hlive howner hopen (sibling_reaped_stopped _ _ _ _ _)
  | @workerRegion c log l e f _ _ _ =>
    dsimp only
    split
    · exact .same rfl rfl rfl rfl rfl
    · next job hlive =>
      split_ifs
      · exact .update hlive ⟨rfl, rfl, rfl, rfl, rfl⟩
      · exact .same rfl rfl rfl rfl rfl
  | _ => exact .same rfl rfl rfl rfl rfl

theorem Change.slotsMax {c c' : Controller} {log : Log} (h : Change c log c') :
    c'.slotsMax = c.slotsMax := by
  cases h with
  | same _ _ _ hmax => exact hmax
  | drop _ _ hctl => rcases hctl with rfl | rfl <;> rfl
  | _ => rfl

/-! ## The invariant -/

/-- A queued job, as `enqueue` makes it. -/
structure LiveJob.Waiting (job : LiveJob) : Prop where
  procs : job.procs = []
  usesSlot : job.usesSlot = false
  deadlineId : job.deadlineId < 0
  finished : job.finished = false

/-- A job that `launch_job` has started. -/
structure LiveJob.Running (job : LiveJob) : Prop where
  state : job.jobMeta.state = "running"
  procs : job.procs ≠ []
  usesSlot : job.usesSlot = true
  finished : job.finished = false

def LiveJob.isRunning (job : LiveJob) : Bool := job.jobMeta.state = "running"

/-- The representation invariant of `Controller`. -/
structure Controller.Repr (c : Controller) : Prop where
  nodup : c.queue.Nodup
  queue : ∀ id, id ∈ c.queue ↔ ∃ job, c.live.lookup id = some job ∧ job.jobMeta.state = "queued"
  waiting : ∀ id job, c.live.lookup id = some job → job.jobMeta.state = "queued" → job.Waiting
  running : ∀ id job, c.live.lookup id = some job → job.jobMeta.state ≠ "queued" → job.Running
  used : c.slotsUsed = (c.live.countVals LiveJob.isRunning : ℤ)
  bound : c.slotsUsed ≤ c.slotsMax
  owner : ∀ pid id, c.pidOwner pid = some id →
    ∃ job, c.live.lookup id = some job ∧ pid ∈ job.procs.map (·.pid)

namespace Controller.Repr

variable {c c' : Controller} {log : Log}

/-- A job that owns a pid is running. -/
theorem running_of_owner (h : c.Repr) {pid id : ℕ} {job : LiveJob}
    (howner : c.pidOwner pid = some id) (hlive : c.live.lookup id = some job) : job.Running := by
  apply h.running id job hlive
  intro hqueued
  obtain ⟨job', hlive', hmem⟩ := h.owner pid id howner
  cases hlive.symm.trans hlive'
  rw [(h.waiting id job hlive hqueued).procs] at hmem
  cases hmem

theorem isRunning_of_sibling {job job' : LiveJob} (h : job'.Sibling job) :
    job'.isRunning = job.isRunning := by
  unfold LiveJob.isRunning
  rw [h.jobMeta]

theorem waiting_of_sibling {job job' : LiveJob} (h : job'.Sibling job) (hw : job.Waiting) :
    job'.Waiting where
  procs := by
    have hpids := h.pids
    rw [hw.procs, List.map_nil] at hpids
    exact List.map_eq_nil_iff.mp hpids
  usesSlot := h.usesSlot.trans hw.usesSlot
  deadlineId := h.deadlineId ▸ hw.deadlineId
  finished := h.finished.trans hw.finished

theorem running_of_sibling {job job' : LiveJob} (h : job'.Sibling job) (hr : job.Running) :
    job'.Running where
  state := h.jobMeta ▸ hr.state
  procs := by
    intro hnil
    have hpids := h.pids
    rw [hnil, List.map_nil] at hpids
    exact hr.procs (List.map_eq_nil_iff.mp hpids.symm)
  usesSlot := h.usesSlot.trans hr.usesSlot
  finished := h.finished.trans hr.finished

theorem same (h : c.Repr) (hlive : c'.live = c.live) (hqueue : c'.queue = c.queue)
    (hused : c'.slotsUsed = c.slotsUsed) (hmax : c'.slotsMax = c.slotsMax)
    (howner : c'.pidOwner = c.pidOwner) : c'.Repr := by
  constructor
  · rw [hqueue]; exact h.nodup
  · rw [hqueue, hlive]; exact h.queue
  · rw [hlive]; exact h.waiting
  · rw [hlive]; exact h.running
  · rw [hused, hlive]; exact h.used
  · rw [hused, hmax]; exact h.bound
  · rw [howner, hlive]; exact h.owner

/-- The entries of a map after an insertion. -/
theorem lookup_insert_cases {live : AList fun _ : ℕ => LiveJob} {id other : ℕ} {job job' : LiveJob}
    (h : (live.insert id job').lookup other = some job) :
    (other = id ∧ job = job') ∨ (other ≠ id ∧ live.lookup other = some job) := by
  by_cases hid : other = id
  · subst hid
    rw [AList.lookup_insert] at h
    exact Or.inl ⟨rfl, (Option.some.inj h).symm⟩
  · rw [AList.lookup_insert_ne hid] at h
    exact Or.inr ⟨hid, h⟩

/-- The entries of a map after a removal. -/
theorem lookup_erase_cases {live : AList fun _ : ℕ => LiveJob} {id other : ℕ} {job : LiveJob}
    (h : (live.erase id).lookup other = some job) :
    other ≠ id ∧ live.lookup other = some job := by
  by_cases hid : other = id
  · subst hid
    rw [AList.lookup_erase] at h
    cases h
  · rw [AList.lookup_erase_ne hid] at h
    exact ⟨hid, h⟩

theorem update (h : c.Repr) {id : ℕ} {job job' : LiveJob} (hlive : c.live.lookup id = some job)
    (hsame : job'.Sibling job) : Controller.Repr { c with live := c.live.insert id job' } where
  nodup := h.nodup
  queue := by
    intro other
    dsimp only
    rw [h.queue]
    by_cases hid : other = id
    · subst hid
      rw [AList.lookup_insert, hlive]
      constructor
      · rintro ⟨_, ⟨⟩, hstate⟩
        exact ⟨job', rfl, by rwa [hsame.jobMeta]⟩
      · rintro ⟨_, ⟨⟩, hstate⟩
        exact ⟨job, rfl, by rwa [← hsame.jobMeta]⟩
    · rw [AList.lookup_insert_ne hid]
  waiting := by
    intro other job₁ hother hstate
    rcases lookup_insert_cases hother with ⟨rfl, rfl⟩ | ⟨-, hother⟩
    · rw [hsame.jobMeta] at hstate
      exact waiting_of_sibling hsame (h.waiting other job hlive hstate)
    · exact h.waiting other job₁ hother hstate
  running := by
    intro other job₁ hother hstate
    rcases lookup_insert_cases hother with ⟨rfl, rfl⟩ | ⟨-, hother⟩
    · rw [hsame.jobMeta] at hstate
      exact running_of_sibling hsame (h.running other job hlive hstate)
    · exact h.running other job₁ hother hstate
  used := by
    dsimp only
    rw [AList.countVals_insert, isRunning_of_sibling hsame, ← AList.countVals_erase hlive]
    exact h.used
  bound := h.bound
  owner := by
    intro pid other hpid
    obtain ⟨job₁, hother, hmem⟩ := h.owner pid other hpid
    by_cases hid : other = id
    · subst hid
      cases hlive.symm.trans hother
      exact ⟨job', AList.lookup_insert _, by rwa [hsame.pids]⟩
    · exact ⟨job₁, (AList.lookup_insert_ne hid).trans hother, hmem⟩

theorem enter (h : c.Repr) {id : ℕ} (m : Meta) (hlive : c.live.lookup id = none) :
    Controller.Repr { c with
      queue := c.queue ++ [id], live := c.live.insert id { jobMeta := m.setState "queued" } } where
  nodup := by
    have hnotin : id ∉ c.queue := by
      rw [h.queue, hlive]
      rintro ⟨_, ⟨⟩, _⟩
    exact h.nodup.append (List.nodup_singleton id) (by simpa using hnotin)
  queue := by
    intro other
    dsimp only
    rw [List.mem_append, List.mem_singleton]
    by_cases hid : other = id
    · subst hid
      simp only [or_true, true_iff, AList.lookup_insert]
      exact ⟨_, rfl, rfl⟩
    · rw [AList.lookup_insert_ne hid, ← h.queue]
      exact or_iff_left hid
  waiting := by
    intro other job hother hstate
    rcases lookup_insert_cases hother with ⟨rfl, rfl⟩ | ⟨-, hother⟩
    · exact ⟨rfl, rfl, by norm_num, rfl⟩
    · exact h.waiting other job hother hstate
  running := by
    intro other job hother hstate
    rcases lookup_insert_cases hother with ⟨rfl, rfl⟩ | ⟨-, hother⟩
    · exact absurd rfl hstate
    · exact h.running other job hother hstate
  used := by
    have hnot : LiveJob.isRunning { jobMeta := m.setState "queued" } = false := rfl
    dsimp only
    rw [AList.countVals_insert, AList.erase_of_lookup_none hlive, hnot]
    exact h.used
  bound := h.bound
  owner := by
    intro pid other hpid
    obtain ⟨job, hother, hmem⟩ := h.owner pid other hpid
    have hid : other ≠ id := by
      rintro rfl
      cases hlive.symm.trans hother
    exact ⟨job, (AList.lookup_insert_ne hid).trans hother, hmem⟩

/-- `release_runtime` of a queued job does nothing. -/
theorem withoutJob_waiting {id : ℕ} {job : LiveJob} (hw : job.Waiting) :
    withoutJob id job c = withoutQueued id c := by
  unfold withoutJob withoutQueued releaseRuntime
  rw [hw.procs, hw.usesSlot]
  rfl

/-- The queue once a job has left it. -/
theorem mem_dequeued (h : c.Repr) {id other : ℕ} :
    other ∈ c.queue.filter (· ≠ id) ↔
      ∃ job, (c.live.erase id).lookup other = some job ∧ job.jobMeta.state = "queued" := by
  rw [List.mem_filter, h.queue]
  by_cases hid : other = id
  · subst hid
    simp
  · simp [hid, AList.lookup_erase_ne hid]

theorem drop (h : c.Repr) {id : ℕ} {job : LiveJob} (hlive : c.live.lookup id = some job)
    (hqueued : job.jobMeta.state = "queued") : (withoutQueued id c).Repr where
  nodup := h.nodup.filter _
  queue := fun _ => h.mem_dequeued
  waiting := fun other job hother => h.waiting other job (lookup_erase_cases hother).2
  running := fun other job hother => h.running other job (lookup_erase_cases hother).2
  used := by
    have hnot : job.isRunning = false := by
      unfold LiveJob.isRunning
      rw [hqueued]
      rfl
    have hcount := AList.countVals_erase (p := LiveJob.isRunning) hlive
    rw [hnot] at hcount
    have hused := h.used
    rw [hcount] at hused
    exact hused
  bound := h.bound
  owner := by
    intro pid other hpid
    obtain ⟨job', hother, hmem⟩ := h.owner pid other hpid
    have hid : other ≠ id := by
      rintro rfl
      cases hlive.symm.trans hother
      rw [(h.waiting other job hlive hqueued).procs] at hmem
      cases hmem
    exact ⟨job', (AList.lookup_erase_ne hid).trans hother, hmem⟩

theorem launch (h : c.Repr) {id : ℕ} {job : LiveJob} {m : Meta} {procs : List ProcRef}
    {deadlineId : ℤ} (hjob : Launchable c id job) (hprocs : procs ≠ []) :
    Controller.Repr { c with
      live := c.live.insert id (launchedJob job m procs deadlineId)
      queue := c.queue.filter (· ≠ id)
      pidOwner := fun pid => if pid ∈ procs.map (·.pid) then some id else c.pidOwner pid
      slotsUsed := c.slotsUsed + 1 } where
  nodup := h.nodup.filter _
  queue := by
    intro other
    dsimp only
    rw [h.mem_dequeued]
    by_cases hid : other = id
    · subst hid
      rw [AList.lookup_insert, AList.lookup_erase]
      constructor
      · rintro ⟨_, ⟨⟩, _⟩
      · rintro ⟨_, ⟨⟩, hstate⟩
        have hne : "running" ≠ "queued" := by decide
        exact absurd hstate hne
    · rw [AList.lookup_insert_ne hid, AList.lookup_erase_ne hid]
  waiting := by
    intro other job₁ hother hstate
    rcases lookup_insert_cases hother with ⟨rfl, rfl⟩ | ⟨-, hother⟩
    · have hne : "running" ≠ "queued" := by decide
      exact absurd hstate hne
    · exact h.waiting other job₁ hother hstate
  running := by
    intro other job₁ hother hstate
    rcases lookup_insert_cases hother with ⟨rfl, rfl⟩ | ⟨-, hother⟩
    · exact ⟨rfl, hprocs, rfl, (h.waiting other job hjob.live hjob.queued).finished⟩
    · exact h.running other job₁ hother hstate
  used := by
    have hrun : (launchedJob job m procs deadlineId).isRunning = true := rfl
    have hnot : job.isRunning = false := by
      unfold LiveJob.isRunning
      rw [hjob.queued]
      rfl
    have hcount := AList.countVals_erase (p := LiveJob.isRunning) hjob.live
    rw [hnot] at hcount
    have hused := h.used
    dsimp only
    rw [AList.countVals_insert, hrun, hused, hcount]
    push_cast
    simp
  bound := by
    have := hjob.room
    dsimp only
    omega
  owner := by
    intro pid other hpid
    dsimp only at hpid ⊢
    split_ifs at hpid with hmem
    · cases hpid
      exact ⟨_, AList.lookup_insert _, hmem⟩
    · obtain ⟨job₁, hother, hmem₁⟩ := h.owner pid other hpid
      have hid : other ≠ id := by
        rintro rfl
        cases hjob.live.symm.trans hother
        rw [(h.waiting other job hjob.live hjob.queued).procs] at hmem₁
        cases hmem₁
      exact ⟨job₁, (AList.lookup_insert_ne hid).trans hother, hmem₁⟩

theorem finish (h : c.Repr) {id : ℕ} {job job' : LiveJob} (hlive : c.live.lookup id = some job)
    (hrun : job.Running) (hsame : job'.Sibling job) : (withoutJob id job' c).Repr where
  nodup := h.nodup.filter _
  queue := fun _ => h.mem_dequeued
  waiting := fun other job hother => h.waiting other job (lookup_erase_cases hother).2
  running := fun other job hother => h.running other job (lookup_erase_cases hother).2
  used := by
    have hslot : job'.usesSlot = true := hsame.usesSlot.trans hrun.usesSlot
    have hcounted : job.isRunning = true := by
      unfold LiveJob.isRunning
      rw [hrun.state]
      rfl
    have hcount := AList.countVals_erase (p := LiveJob.isRunning) hlive
    rw [hcounted] at hcount
    have hused := h.used
    rw [hcount] at hused
    unfold withoutJob releaseRuntime
    simp only [hslot, if_true] at hused ⊢
    rw [hused]
    push_cast
    ring
  bound := by
    have hbound := h.bound
    unfold withoutJob releaseRuntime
    dsimp only
    split_ifs
    · omega
    · exact hbound
  owner := by
    intro pid other hpid
    unfold withoutJob releaseRuntime at hpid
    dsimp only at hpid
    split_ifs at hpid with hmem
    obtain ⟨job₁, hother, hmem₁⟩ := h.owner pid other hpid
    have hid : other ≠ id := by
      rintro rfl
      cases hlive.symm.trans hother
      rw [hsame.pids] at hmem
      exact hmem hmem₁
    exact ⟨job₁, (AList.lookup_erase_ne hid).trans hother, hmem₁⟩

/-- **Every change keeps the invariant.** -/
theorem change (h : c.Repr) (hchange : Change c log c') : c'.Repr := by
  cases hchange with
  | same hlive hqueue hused hmax howner => exact h.same hlive hqueue hused hmax howner
  | update hlive hsame => exact h.update hlive hsame
  | enter hlive _ _ => exact h.enter _ hlive
  | drop hlive hqueued hctl =>
    rcases hctl with rfl | rfl
    · rw [withoutJob_waiting (h.waiting _ _ hlive hqueued)]
      exact h.drop hlive hqueued
    · exact h.drop hlive hqueued
  | launch hjob hprocs _ => exact h.launch hjob hprocs
  | finish hlive howner _ hsame => exact h.finish hlive (h.running_of_owner howner hlive) hsame

/-- A controller that has just been started. -/
theorem fresh (slots : ℕ) : Controller.Repr { slotsMax := slots } where
  nodup := List.nodup_nil
  queue := by simp
  waiting := by simp
  running := by simp
  used := rfl
  bound := by simp
  owner := by simp

end Controller.Repr

/-! ## Records of live jobs -/

/-- The record of every live job has the property. -/
def Controller.Holds (P : Meta → Prop) (c : Controller) : Prop :=
  ∀ id job, c.live.lookup id = some job → P job.jobMeta

namespace Controller.Holds

variable {P : Meta → Prop} {c : Controller}

theorem insert (h : c.Holds P) {id : ℕ} {job : LiveJob} (hjob : P job.jobMeta) :
    Controller.Holds P { c with live := c.live.insert id job } := by
  intro other job' hlive
  by_cases hother : other = id
  · subst hother
    rw [AList.lookup_insert] at hlive
    cases hlive
    exact hjob
  · rw [AList.lookup_insert_ne hother] at hlive
    exact h other job' hlive

theorem erase (h : c.Holds P) (id : ℕ) :
    Controller.Holds P { c with live := c.live.erase id } := by
  intro other job hlive
  by_cases hother : other = id
  · subst hother
    rw [AList.lookup_erase] at hlive
    cases hlive
  · rw [AList.lookup_erase_ne hother] at hlive
    exact h other job hlive

theorem fresh (slots : ℕ) : Controller.Holds P { slotsMax := slots } := by
  intro id job hlive
  cases hlive

end Controller.Holds

end Forge
