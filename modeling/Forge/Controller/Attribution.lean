import Forge.Controller.Workers

/-!
# Worker exits and the jobs they are attributed to

`c.pid_owner` (controller.cpp:230-275) maps a pid to a job. A job keeps the pids
of its reaped workers until it is finalized, and `release_runtime` then erases
all of them, also one that the kernel has handed out again in the meantime.

* `Step.reaps`, `Step.procs`: what a step reaps, and what becomes of the processes.
* `Attributed.step`: as long as no such pid is in use again, every child is
  attributed to its job.
* `exits_attributed`: so it is in every run.
* `exit_unattributed`: a pid used again by another job.
-/

namespace Forge

variable {o : Oracle} {g : Guard} {log log' : Log}

/-! ## What a step reaps -/

def Reapless : Effect → Prop
  | .reap _ => False
  | _ => True

theorem Adds.reaped (h : Adds Reapless log log') {child : ℕ} (hr : log'.Reaped child) :
    log.Reaped child := by
  obtain ⟨new, rfl, hnew⟩ := h
  rcases List.mem_append.mp hr with hr | hr
  · exact (hnew _ hr).elim
  · exact hr

/-- What `waitid` returned in the step: a child that no live job owns, or one of
    the job that the step is about. -/
inductive ReapedIn (id : ℕ) (v v' : View) (l : Launch) : Prop
  | unknown (howner : ∀ owner, v.ctl.pidOwner l.pid = some owner →
      v.ctl.live.lookup owner = none)
  | known (howner : v.ctl.pidOwner l.pid = some id)
      (hprocs : ∀ job', v'.ctl.live.lookup id = some job' → ∃ job status,
        v.ctl.live.lookup id = some job ∧ job'.procs = markReaped l.pid status job.procs)

theorem killedLog_reaps {procs : List ProcRef} {child : ℕ}
    (h : (killedLog procs log).Reaped child) :
    log.Reaped child ∨ child ∈ procs.map (·.child) := by
  induction procs generalizing log with
  | nil => exact Or.inl h
  | cons pr procs ih =>
    rcases ih h with h | h
    · rcases List.mem_cons.mp h with heq | h
      · cases heq
        exact Or.inr List.mem_cons_self
      · left
        simpa [Log.Reaped] using h
    · exact Or.inr (List.mem_cons_of_mem _ h)

/-- **What a step reaps**: nothing, new children, or one zombie. -/
theorem Step.reaps {id : ℕ} {v v' : View} (h : Step o g id v v') {child : ℕ}
    (hr : v'.log.Reaped child) :
    v.log.Reaped child ∨ v.log.length ≤ child ∨
      ∃ l status, l.child = child ∧ Zombie g v.ctl v.log l status ∧ ReapedIn id v v' l := by
  have hold : Adds Reapless v.log v'.log → v.log.Reaped child ∨ v.log.length ≤ child ∨
      ∃ l status, l.child = child ∧ Zombie g v.ctl v.log l status ∧ ReapedIn id v v' l :=
    fun hadds => Or.inl (hadds.reaped hr)
  have hsaved : ∀ {m : Meta} {log log' : Log}, Saved o log id m log' → Adds Reapless log log' :=
    fun hsave => Adds.saved (.refl _) trivial trivial hsave
  have hsignals : ∀ {job : LiveJob} {sig : ℕ} {log log' : Log}, Adds Reapless log log' →
      Adds Reapless log ((signalEffects job sig).reverse ++ log') :=
    fun hadds => hadds.signals (fun _ _ _ => trivial) _ _
  have hfinished : ∀ {job : LiveJob} {c c' : Controller} {log log₁ log' : Log},
      Adds Reapless log log₁ → Finish o id job c log₁ c' log' → Adds Reapless log log' :=
    fun hadds hfinish => hadds.finished hfinish (fun _ _ => ⟨trivial, trivial⟩) trivial
      (fun _ => trivial) fun _ _ _ _ => trivial
  cases h with
  | started => exact hold (.refl _)
  | recoverFail _ _ _ hkills hsave =>
    refine hold (((Adds.refl _).append fun e he => ?_).trans (hsaved hsave))
    obtain ⟨_, _, rfl⟩ := hkills e he
    trivial
  | cancelLate _ _ _ _ hsave => exact hold (hsaved hsave)
  | reject _ _ _ _ _ hsave => exact hold (hsaved hsave)
  | enter _ _ _ _ _ _ hsave => exact hold ((hsaved hsave).cons trivial)
  | launchFail _ _ _ hsave _ => exact hold ((hsaved hsave).cons trivial)
  | @launchSpawnFail c log log₁ log₂ log' _ n job m m' procs hjob _ _ _ _ t hstart hfork hsave =>
    obtain ⟨ws, hws⟩ := hfork.workers
    have hremoved : Adds Reapless (killedLog procs log₂) (.removed id :: log') :=
      (hsaved hsave).cons trivial
    rcases killedLog_reaps (hremoved.reaped hr) with hr | hmem
    · exact Or.inl ((hsaved hstart).reaped ((hws.reaped child).mp hr))
    · right
      left
      obtain ⟨pr, hpr, rfl⟩ := List.mem_map.mp hmem
      have hpair := List.mem_map_of_mem (f := fun pr : ProcRef => (pr.child, pr.pid)) hpr
      rw [hws.pairs] at hpair
      obtain ⟨l, hl, heq⟩ := List.mem_map.mp hpair
      have hchild : l.child = pr.child := congrArg Prod.fst heq
      have hnewer := hws.newer l hl
      obtain ⟨-, -, -, -, -, -, hlen⟩ := hstart.readings
      exact hchild ▸ hlen.trans hnewer
  | @launch c log log₁ log₂ log' _ call job m procs deadlineId t hjob bytes t' _ _ hstart hfork
      hrun =>
    obtain ⟨ws, hws⟩ := hfork.workers
    exact Or.inl ((hsaved hstart).reaped ((hws.reaped child).mp ((hsaved hrun).reaped hr)))
  | cancelNothing => exact hold ((Adds.refl _).cons trivial)
  | cancelRecord _ _ _ hsave => exact hold ((hsaved hsave).cons trivial)
  | @cancelQueued c log log' _ job t _ _ hsave =>
    have hremoved : Adds Reapless log (.removed id :: log') := (hsaved hsave).cons trivial
    exact hold (hremoved.cons trivial)
  | cancelRunning => exact hold ((Adds.refl _).cons trivial)
  | stop => exact hold (hsignals ((Adds.refl _).cons trivial))
  | stopAgain => exact hold ((Adds.refl _).cons trivial)
  | escalate => exact hold (hsignals (.refl _))
  | shutdown => exact hold (.refl _)
  | @reapUnknown c log l status _ hzombie howner =>
    rcases List.mem_cons.mp hr with heq | hr
    · cases heq
      exact Or.inr (Or.inr ⟨l, status, rfl, hzombie, .unknown howner⟩)
    · exact Or.inl hr
  | @reapSome c log l status _ job hzombie howner hlive =>
    rcases List.mem_cons.mp hr with heq | hr
    · cases heq
      refine Or.inr (Or.inr ⟨l, status, rfl, hzombie, .known howner fun job' hlive' => ?_⟩)
      cases (AList.lookup_insert c.live).symm.trans hlive'
      exact ⟨job, status, hlive, rfl⟩
    · exact Or.inl hr
  | @reapBad c log l status _ now job hzombie howner hlive =>
    have hstop : Adds Reapless (.reap l.child :: log)
        ((signalEffects (reapedJob job l.pid status) sigterm).reverse ++
          .stop id "failed" :: .reap l.child :: log) := hsignals ((Adds.refl _).cons trivial)
    rcases List.mem_cons.mp (hstop.reaped hr) with heq | hr
    · cases heq
      refine Or.inr (Or.inr ⟨l, status, rfl, hzombie, .known howner fun job' hlive' => ?_⟩)
      cases (AList.lookup_insert c.live).symm.trans hlive'
      exact ⟨job, status, hlive, rfl⟩
    · exact Or.inl hr
  | @reapLast c c' log log' l status _ job hzombie howner _ _ _ _ hfinish =>
    rcases List.mem_cons.mp ((hfinished (.refl _) hfinish).reaped hr) with heq | hr
    · cases heq
      refine Or.inr (Or.inr ⟨l, status, rfl, hzombie, .known howner fun job' hlive' => ?_⟩)
      rw [hfinish.ctl] at hlive'
      cases (AList.lookup_erase id c.live).symm.trans hlive'
    · exact Or.inl hr
  | @reapLastBad c c' log log' l status _ now job hzombie howner _ _ _ _ _ hfinish =>
    have hstop : Adds Reapless (.reap l.child :: log) (.stop id "failed" :: .reap l.child :: log) :=
      (Adds.refl _).cons trivial
    rcases List.mem_cons.mp ((hfinished hstop hfinish).reaped hr) with heq | hr
    · cases heq
      refine Or.inr (Or.inr ⟨l, status, rfl, hzombie, .known howner fun job' hlive' => ?_⟩)
      rw [hfinish.ctl] at hlive'
      cases (AList.lookup_erase id c.live).symm.trans hlive'
    · exact Or.inl hr
  | workerExit => exact hold ((Adds.refl _).cons trivial)
  | workerOutput => exact hold ((Adds.refl _).cons trivial)
  | memberSpawned => exact hold ((Adds.refl _).cons trivial)
  | memberGone => exact hold ((Adds.refl _).cons trivial)
  | workerRegion _ _ hf =>
    refine hold ((Adds.refl _).cons ?_)
    rcases hf with ⟨_, -, rfl, -⟩ | ⟨rfl, -⟩ <;> trivial
  | record => exact hold ((Adds.refl _).cons trivial)

/-- **What becomes of the processes of a job**: they are new and not reaped, or were
    there before and stay reaped. -/
theorem Step.procs {id : ℕ} {v v' : View} (hv : Crew v) (h : Step o g id v v') {job' : LiveJob}
    (hlive' : v'.ctl.live.lookup id = some job') {pr' : ProcRef} (hpr' : pr' ∈ job'.procs) :
    ¬ v'.log.Reaped pr'.child ∨ ∃ job, v.ctl.live.lookup id = some job ∧ ∃ pr ∈ job.procs,
      pr.child = pr'.child ∧ (pr.reaped = true → pr'.reaped = true) := by
  have hsame : ∀ {job : LiveJob}, v.ctl.live.lookup id = some job → job'.procs = job.procs →
      ∃ job, v.ctl.live.lookup id = some job ∧ ∃ pr ∈ job.procs,
        pr.child = pr'.child ∧ (pr.reaped = true → pr'.reaped = true) :=
    fun hlive hprocs => ⟨_, hlive, pr', hprocs ▸ hpr', rfl, fun h => h⟩
  have hmarked : ∀ {job : LiveJob} {pid : ℕ} {status : WaitStatus},
      v.ctl.live.lookup id = some job → job'.procs = markReaped pid status job.procs →
      ∃ job, v.ctl.live.lookup id = some job ∧ ∃ pr ∈ job.procs,
        pr.child = pr'.child ∧ (pr.reaped = true → pr'.reaped = true) := by
    intro job pid status hlive hprocs
    rw [hprocs] at hpr'
    obtain ⟨pr, hpr, rfl⟩ := List.mem_map.mp hpr'
    refine ⟨job, hlive, pr, hpr, ?_, fun h => ?_⟩
    · split_ifs <;> rfl
    · split_ifs
      · rfl
      · exact h
  cases h with
  | enter =>
    cases (AList.lookup_insert _).symm.trans hlive'
    cases hpr'
  | launchFail _ _ _ _ hctl =>
    rcases hctl with rfl | rfl <;> cases (AList.lookup_erase id _).symm.trans hlive'
  | launchSpawnFail => cases (AList.lookup_erase id _).symm.trans hlive'
  | @launch c log log₁ log₂ log' _ call job m procs deadlineId t hjob bytes t' _ _ hstart hfork
      hrun =>
    left
    cases (AList.lookup_insert _).symm.trans hlive'
    obtain ⟨ws, hws⟩ := hfork.workers
    have hpair := List.mem_map_of_mem (f := fun pr : ProcRef => (pr.child, pr.pid)) hpr'
    change (pr'.child, pr'.pid) ∈ procs.map _ at hpair
    rw [hws.pairs] at hpair
    obtain ⟨l, hl, heq⟩ := List.mem_map.mp hpair
    have hchild : l.child = pr'.child := congrArg Prod.fst heq
    obtain ⟨-, -, -, -, -, hreaped₁, hlen₁⟩ := hstart.readings
    obtain ⟨-, -, -, -, -, hreaped', -⟩ := hrun.readings
    rw [← hchild, hreaped', hws.reaped, hreaped₁]
    exact (fresh_child hv.children (hlen₁.trans (hws.newer l hl))).2
  | cancelQueued => cases (AList.lookup_erase id _).symm.trans hlive'
  | stop hlive =>
    cases (AList.lookup_insert _).symm.trans hlive'
    exact Or.inr (hsame hlive rfl)
  | escalate hlive =>
    cases (AList.lookup_insert _).symm.trans hlive'
    exact Or.inr (hsame hlive rfl)
  | reapSome _ _ hlive =>
    cases (AList.lookup_insert _).symm.trans hlive'
    exact Or.inr (hmarked hlive rfl)
  | reapBad _ _ hlive =>
    cases (AList.lookup_insert _).symm.trans hlive'
    exact Or.inr (hmarked hlive rfl)
  | reapLast _ _ _ _ _ _ hfinish =>
    rw [hfinish.ctl] at hlive'
    cases (AList.lookup_erase id _).symm.trans hlive'
  | reapLastBad _ _ _ _ _ _ _ hfinish =>
    rw [hfinish.ctl] at hlive'
    cases (AList.lookup_erase id _).symm.trans hlive'
  | @workerRegion c log l =>
    right
    dsimp only at hlive'
    split at hlive'
    · next hnone => cases hnone.symm.trans hlive'
    · next job hlive =>
      split_ifs at hlive'
      · cases (AList.lookup_insert _).symm.trans hlive'
        exact hsame hlive rfl
      · cases hlive.symm.trans hlive'
        exact hsame hlive rfl
  | _ => exact Or.inr (hsame hlive' rfl)

/-! ## Attribution -/

/-- Reaping the last worker of a job frees no pid that another job's worker has. -/
def KeepsOwners (c : Controller) (log : Log) (l : Launch) : Prop :=
  ∀ id job, c.pidOwner l.pid = some id → c.live.lookup id = some job →
    (∀ pr ∈ job.procs, pr.pid ≠ l.pid → pr.reaped = true) →
    ∀ l' ∈ log.forks, ¬ log.Reaped l'.child → l'.id ≠ id → l'.pid ∉ job.procs.map (·.pid)

/-- Whenever a job is finalized, no worker of another job has one of its pids. -/
def Guard.sparing : Guard where
  reap := KeepsOwners

/-- Every child is attributed to the job that forked it. -/
structure Attributed (v : View) : Prop where
  owned : ∀ l ∈ v.log.forks, ¬ v.log.Reaped l.child → v.ctl.pidOwner l.pid = some l.id
  marked : ∀ id job, v.ctl.live.lookup id = some job → ∀ pr ∈ job.procs,
    v.log.Reaped pr.child → pr.reaped = true

namespace Attributed

variable {id : ℕ} {v v' : View}

/-- The pids that are freed when a job is finalized are those of its reaped workers. -/
theorem keeps (hv : Crew v) {l₀ l : Launch} {status : WaitStatus} {job : LiveJob}
    (hzombie : Zombie .sparing v.ctl v.log l₀ status) (howner : v.ctl.pidOwner l₀.pid = some id)
    (hlive : v.ctl.live.lookup id = some job)
    (hall : (reapedJob job l₀.pid status).allReaped = true) (hl : l ∈ v.log.forks)
    (hr : ¬ v.log.Reaped l.child) (hne : l.child ≠ l₀.child) : l.pid ∉ job.procs.map (·.pid) := by
  have hreaped : ∀ pr ∈ job.procs, pr.pid ≠ l₀.pid → pr.reaped = true := by
    intro pr hpr hpid
    have hmark := List.all_eq_true.mp hall _ (List.mem_map_of_mem hpr)
    rw [if_neg hpid] at hmark
    exact hmark
  by_cases hid : l.id = id
  · obtain ⟨call, ws, hst, -⟩ := hv.worker_of_owner hzombie howner hlive
    intro hmem
    obtain ⟨job', hlive', hchild⟩ := hv.home l hl hr
    rw [hid] at hlive'
    cases hlive.symm.trans hlive'
    obtain ⟨pr, hpr, hprChild⟩ := List.mem_map.mp hchild
    obtain ⟨l', hl', hchild', hpid'⟩ := hst.launch_of_proc hpr
    -- the process of `l` has another pid than `l₀`, so it has been reaped
    have hsame : l' = l := launch_unique hv.children (Log.forks_subset hl)
      (Log.forks_subset (hst.belongs l' hl').1) (hchild'.trans hprChild)
    subst hsame
    have hpid : pr.pid ≠ l₀.pid := by
      intro heq
      apply hne
      rw [unreaped_unique hv.children hzombie.forked hl hzombie.unreaped hr (hpid'.trans heq)]
    exact hr (hchild' ▸ (hst.done pr hpr (hreaped pr hpr hpid)).1)
  · exact hzombie.allowed id job howner hlive hreaped l hl hr hid

/-- A child that is left after a step is owned. -/
theorem owned_step (hv : Crew v) (ha : Attributed v) (h : Step o .sparing id v v') {l : Launch}
    (hl : l ∈ v'.log.forks) (hr : ¬ v'.log.Reaped l.child) : v'.ctl.pidOwner l.pid = some l.id := by
  have hcrew' := (hv.step h).owner l hl hr
  have hkept : ∀ {l₀ : Launch}, Log.Reaped v'.log l₀.child → l.child ≠ l₀.child := by
    intro l₀ hr₀ heq
    exact hr (heq ▸ hr₀)
  rcases h.unreaped hl hr with ⟨hlv, hrv⟩ | ⟨rfl, howner, -⟩
  · have hown := ha.owned l hlv hrv
    cases h with
    | @launchFail c c' _ _ _ job _ hjob _ _ _ hctl =>
      rcases hctl with rfl | rfl
      · have hnone : l.pid ∉ job.procs.map (·.pid) := by
          rw [(hv.repr.waiting _ job hjob.live hjob.queued).procs]
          exact List.not_mem_nil
        exact (if_neg hnone).trans hown
      · exact hown
    | launch =>
      dsimp only at hcrew' ⊢
      split_ifs at hcrew' ⊢ with hmem
      · rw [hcrew' _ rfl]
      · exact hown
    | @reapLast c c' log log' l₀ status _ job hzombie howner hlive _ hall _ hfinish =>
      have hreap : Log.Reaped log' l₀.child := by
        have hfin : Adds (fun _ => True) (.reap l₀.child :: log) log' :=
          (Adds.refl _).finished hfinish (fun _ _ => ⟨trivial, trivial⟩) trivial
            (fun _ => trivial) fun _ _ _ _ => trivial
        exact hfin.suffix.subset List.mem_cons_self
      have hfree := keeps hv hzombie howner hlive hall hlv hrv (hkept hreap)
      rw [hfinish.ctl]
      refine (if_neg ?_).trans hown
      rwa [(sibling_reaped job l₀.pid status).pids]
    | @reapLastBad c c' log log' l₀ status _ now job hzombie howner hlive _ hall _ _ hfinish =>
      have hreap : Log.Reaped log' l₀.child := by
        have hfin : Adds (fun _ => True) (.stop id "failed" :: .reap l₀.child :: log) log' :=
          (Adds.refl _).finished hfinish (fun _ _ => ⟨trivial, trivial⟩) trivial
            (fun _ => trivial) fun _ _ _ _ => trivial
        exact hfin.suffix.subset (List.mem_cons_of_mem _ List.mem_cons_self)
      have hfree := keeps hv hzombie howner hlive hall hlv hrv (hkept hreap)
      rw [hfinish.ctl]
      refine (if_neg ?_).trans hown
      rwa [(sibling_reaped_stopped job l₀.pid status "failed" now).pids]
    | workerRegion =>
      dsimp only
      split
      · exact hown
      · split_ifs <;> exact hown
    | _ => exact hown
  · exact howner

/-- A child that `waitid` has returned is marked in its job. -/
theorem marked_step (hv : Crew v) (ha : Attributed v) (h : Step o .sparing id v v') {other : ℕ}
    {job' : LiveJob} (hlive' : v'.ctl.live.lookup other = some job') {pr' : ProcRef}
    (hpr' : pr' ∈ job'.procs) (hr : v'.log.Reaped pr'.child) : pr'.reaped = true := by
  -- the process was there before the step
  obtain ⟨job, hlive, pr, hpr, hchild, hstays⟩ : ∃ job, v.ctl.live.lookup other = some job ∧
      ∃ pr ∈ job.procs, pr.child = pr'.child ∧ (pr.reaped = true → pr'.reaped = true) := by
    by_cases hid : other = id
    · subst hid
      rcases h.procs hv hlive' hpr' with hno | hold
      · exact absurd hr hno
      · exact hold
    · rw [h.concerns.2 other hid] at hlive'
      exact ⟨job', hlive', pr', hpr', rfl, fun h => h⟩
  have hstate : job.jobMeta.state ≠ "queued" := by
    intro hqueued
    rw [(hv.repr.waiting _ job hlive hqueued).procs] at hpr
    cases hpr
  obtain ⟨call, ws, hst⟩ := hv.staffed hlive hstate
  obtain ⟨l, hl, hlChild, hlPid⟩ := hst.launch_of_proc hpr
  obtain ⟨hforked, hlid, -⟩ := hst.belongs l hl
  rcases h.reaps hr with hrv | hnew | ⟨l₀, status, hchild₀, hzombie, hreaped⟩
  · exact hstays (ha.marked other job hlive pr hpr (hchild ▸ hrv))
  · have := (launch_child_lt hv.children (Log.forks_subset hforked)).1
    rw [hlChild, hchild] at this
    omega
  · -- the child that was reaped is the process's, and owned by this job
    have hsame : l₀ = l := launch_unique hv.children (Log.forks_subset hforked)
      (Log.forks_subset hzombie.forked) (by rw [hchild₀, hlChild, hchild])
    subst hsame
    have hown := ha.owned l₀ hzombie.forked hzombie.unreaped
    rw [hlid] at hown
    cases hreaped with
    | unknown howner => cases hlive.symm.trans (howner other hown)
    | known howner hprocs =>
      cases hown.symm.trans howner
      obtain ⟨job₀, status', hlive₀, heq⟩ := hprocs job' hlive'
      cases hlive.symm.trans hlive₀
      rw [heq] at hpr'
      obtain ⟨pr₁, hpr₁, rfl⟩ := List.mem_map.mp hpr'
      have hchild₁ : pr₁.child = pr.child := by
        rw [hchild]
        split_ifs <;> rfl
      obtain ⟨l₁, hl₁, hlChild₁, hlPid₁⟩ := hst.launch_of_proc hpr₁
      have hsame : l₁ = l₀ := launch_unique hv.children (Log.forks_subset hforked)
        (Log.forks_subset (hst.belongs l₁ hl₁).1) (by rw [hlChild₁, hchild₁, hlChild])
      rw [if_pos (hsame ▸ hlPid₁.symm)]

/-- **Every step keeps the children attributed.** -/
theorem step (hv : Crew v) (ha : Attributed v) (h : Step o .sparing id v v') : Attributed v' :=
  ⟨fun _ hl hr => ha.owned_step hv h hl hr, fun _ _ hlive _ hpr hr => ha.marked_step hv h hlive hpr hr⟩

end Attributed

/-! ## Signals -/

/-- A signal goes to a child that has not been reaped. -/
def KillOk : Effect → Log → Prop
  | .kill pid _ _, log => pid ∈ log.unreaped
  | _, _ => True

/-- The same of the signals sent after `base`. -/
def KillOkSince (base : Log) (e : Effect) (log : Log) : Prop := base <:+ log → KillOk e log

theorem killOkSince_nil : History.All (KillOkSince []) log ↔ History.All KillOk log :=
  ⟨fun h => History.all_of fun _ _ hsuf => h.at hsuf (List.nil_suffix),
    fun h => History.all_of fun _ _ hsuf _ => h.at hsuf⟩

variable {base : Log}

def Killless : Effect → Prop
  | .kill _ _ _ => False
  | _ => True

theorem Adds.killOk (h : Adds Killless log log') (hall : History.All (KillOkSince base) log) :
    History.All (KillOkSince base) log' := by
  obtain ⟨new, rfl, hnew⟩ := h
  refine History.all_append (fun e he past _ => ?_) hall
  have := hnew e he
  intro _
  cases e <;> trivial

/-- Signals to the processes that are not marked as reaped. -/
theorem signals_killOk {job : LiveJob} (sig : ℕ)
    (hjob : ∀ pr ∈ job.procs, pr.reaped = false → pr.pid ∈ log.unreaped)
    (hall : History.All (KillOkSince base) log) :
    History.All (KillOkSince base) ((signalEffects job sig).reverse ++ log) := by
  have hsignals : ∀ es : List Effect, (∀ e ∈ es, ∃ pid group, e = .kill pid sig group ∧
      pid ∈ log.unreaped) → History.All (KillOkSince base) (es ++ log) := by
    intro es hes
    induction es with
    | nil => exact hall
    | cons e es ih =>
      obtain ⟨pid, group, rfl, hpid⟩ := hes e List.mem_cons_self
      have hrest := ih fun e' he' => hes e' (List.mem_cons_of_mem _ he')
      refine ⟨fun _ => ?_, hrest⟩
      -- the signals before it have reaped nobody
      have hmem := mem_unreaped.mp hpid
      obtain ⟨l, hl, hr, hlpid⟩ := hmem
      have hforks : Log.forks (es ++ log) = log.forks :=
        Log.signals_append (fun e log he => Log.forks_signal he log) (fun e' he' => by
          obtain ⟨pid', group', rfl, -⟩ := hes e' (List.mem_cons_of_mem _ he')
          trivial) log
      refine mem_unreaped.mpr ⟨l, hforks ▸ hl, fun hreaped => hr ?_, hlpid⟩
      rcases List.mem_append.mp hreaped with hin | hin
      · obtain ⟨pid', group', heq, -⟩ := hes _ (List.mem_cons_of_mem _ hin)
        cases heq
      · exact hin
  refine hsignals _ fun e he => ?_
  obtain ⟨pr, hpr, rfl⟩ := List.mem_map.mp (List.mem_reverse.mp he)
  obtain ⟨hmem, hkeep⟩ := List.mem_filter.mp hpr
  have hreaped : pr.reaped = false := by
    simp only [Bool.and_eq_true, Bool.not_eq_true'] at hkeep
    exact hkeep.1
  exact ⟨pr.pid, pr.grouped, rfl, hjob pr hmem hreaped⟩

/-- Killing and reaping the children of a launch that failed. -/
theorem killedLog_killOk {procs : List ProcRef} (hnodup : (procs.map (·.child)).Nodup)
    (hforked : ∀ pr ∈ procs, ∃ l ∈ log.forks, l.child = pr.child ∧ l.pid = pr.pid ∧
      ¬ log.Reaped l.child) (hall : History.All (KillOkSince base) log) :
    History.All (KillOkSince base) (killedLog procs log) := by
  induction procs generalizing log with
  | nil => exact hall
  | cons pr procs ih =>
    rw [List.map_cons, List.nodup_cons] at hnodup
    obtain ⟨l, hl, hchild, hpid, hr⟩ := hforked pr List.mem_cons_self
    apply ih hnodup.2
    · intro pr' hpr'
      obtain ⟨l', hl', hchild', hpid', hr'⟩ := hforked pr' (List.mem_cons_of_mem pr hpr')
      have hne : l'.child ≠ pr.child := by
        intro heq
        exact hnodup.1 (List.mem_map.mpr ⟨pr', hpr', hchild'.symm.trans heq⟩)
      refine ⟨l', hl', hchild', hpid', ?_⟩
      simpa [Log.Reaped, hne] using hr'
    · exact ⟨fun _ => trivial, fun _ => trivial, fun _ => mem_unreaped.mpr ⟨l, hl, hr, hpid⟩, hall⟩

/-- **The controller signals children that have not been reaped.** -/
theorem Attributed.kills_step {id : ℕ} {v v' : View} (hv : Crew v) (ha : Attributed v)
    (ha' : Attributed v') (h : Step o g id v v') (hall : History.All (KillOkSince base) v.log) :
    History.All (KillOkSince base) v'.log := by
  have hsaved : ∀ {m : Meta} {log log' : Log}, Saved o log id m log' → Adds Killless log log' :=
    fun hsave => Adds.saved (.refl _) trivial trivial hsave
  have hfinished : ∀ {job : LiveJob} {c c' : Controller} {log log₁ log' : Log},
      Adds Killless log log₁ → Finish o id job c log₁ c' log' → Adds Killless log log' :=
    fun hadds hfinish => hadds.finished hfinish (fun _ _ => ⟨trivial, trivial⟩) trivial
      (fun _ => trivial) fun _ _ _ _ => trivial
  -- a process of a live job that is not marked is an unreaped child
  have hproc : ∀ {job : LiveJob}, v.ctl.live.lookup id = some job → ∀ pr ∈ job.procs,
      pr.reaped = false → ∃ l ∈ v.log.forks, l.child = pr.child ∧ l.pid = pr.pid ∧
        ¬ v.log.Reaped l.child := by
    intro job hlive pr hpr hreaped
    have hstate : job.jobMeta.state ≠ "queued" := by
      intro hqueued
      rw [(hv.repr.waiting _ job hlive hqueued).procs] at hpr
      cases hpr
    obtain ⟨call, ws, hst⟩ := hv.staffed hlive hstate
    obtain ⟨l, hl, hchild, hpid⟩ := hst.launch_of_proc hpr
    refine ⟨l, (hst.belongs l hl).1, hchild, hpid, fun hr => ?_⟩
    rw [ha.marked id job hlive pr hpr (hchild ▸ hr)] at hreaped
    cases hreaped
  cases h with
  | started => exact hall
  | recoverFail _ _ _ hkills hsave =>
    refine Adds.killOk (((Adds.refl _).append fun e he => ?_).trans (hsaved hsave)) hall
    obtain ⟨_, _, rfl⟩ := hkills e he
    trivial
  | cancelLate _ _ _ _ hsave => exact (hsaved hsave).killOk hall
  | reject _ _ _ _ _ hsave => exact (hsaved hsave).killOk hall
  | enter _ _ _ _ _ _ hsave => exact ⟨fun _ => trivial, (hsaved hsave).killOk hall⟩
  | launchFail _ _ _ hsave _ => exact ⟨fun _ => trivial, (hsaved hsave).killOk hall⟩
  | @launchSpawnFail c log log₁ log₂ log' _ n job m m' procs hjob _ _ _ _ t hstart hfork hsave =>
    obtain ⟨ws, hws⟩ := hfork.workers
    obtain ⟨-, -, -, -, -, hreaped₁, hlen₁⟩ := hstart.readings
    have hadds : Adds Killless log log₂ :=
      (hsaved hstart).forked (fun _ _ _ => trivial) hfork
    have hnodup : (procs.map (·.child)).Nodup := by
      have hchildren : procs.map (·.child) = ws.map (·.child) := by
        have := congrArg (List.map Prod.fst) hws.pairs
        rw [List.map_map, List.map_map] at this
        exact this
      rw [hchildren]
      exact hws.children
    have hkilled : History.All (KillOkSince base) (killedLog procs log₂) := by
      refine killedLog_killOk hnodup (fun pr hpr => ?_) (hadds.killOk hall)
      have hpair := List.mem_map_of_mem (f := fun pr : ProcRef => (pr.child, pr.pid)) hpr
      rw [hws.pairs] at hpair
      obtain ⟨l, hl, heq⟩ := List.mem_map.mp hpair
      refine ⟨l, ?_, congrArg Prod.fst heq, congrArg Prod.snd heq, ?_⟩
      · rw [hws.forks]
        exact List.mem_append_left _ (List.mem_reverse.mpr hl)
      · rw [hws.reaped, hreaped₁]
        exact (fresh_child hv.children (hlen₁.trans (hws.newer l hl))).2
    exact ⟨fun _ => trivial, (hsaved hsave).killOk hkilled⟩
  | @launch c log log₁ log₂ log' _ call job m procs deadlineId t hjob bytes t' _ _ hstart hfork
      hrun =>
    have hadds : Adds Killless log log₂ :=
      (hsaved hstart).forked (fun _ _ _ => trivial) hfork
    exact (hadds.trans (hsaved hrun)).killOk hall
  | cancelNothing => exact ⟨fun _ => trivial, hall⟩
  | cancelRecord _ _ _ hsave => exact ⟨fun _ => trivial, (hsaved hsave).killOk hall⟩
  | cancelQueued _ _ hsave => exact ⟨fun _ => trivial, fun _ => trivial, (hsaved hsave).killOk hall⟩
  | cancelRunning => exact ⟨fun _ => trivial, hall⟩
  | stop hlive =>
    refine signals_killOk sigterm (fun pr hpr hreaped => ?_) ⟨fun _ => trivial, hall⟩
    obtain ⟨l, hl, -, hpid, hr⟩ := hproc hlive pr hpr hreaped
    exact mem_unreaped.mpr ⟨l, hl, by simpa [Log.Reaped] using hr, hpid⟩
  | stopAgain => exact ⟨fun _ => trivial, hall⟩
  | escalate hlive =>
    refine signals_killOk sigkill (fun pr hpr hreaped => ?_) hall
    obtain ⟨l, hl, -, hpid, hr⟩ := hproc hlive pr hpr hreaped
    exact mem_unreaped.mpr ⟨l, hl, hr, hpid⟩
  | shutdown => exact hall
  | reapUnknown => exact ⟨fun _ => trivial, hall⟩
  | reapSome => exact ⟨fun _ => trivial, hall⟩
  | @reapBad c log l₀ status _ now job hzombie howner hlive =>
    refine signals_killOk sigterm (fun pr' hpr' hreaped' => ?_) ⟨fun _ => trivial, fun _ => trivial, hall⟩
    -- an unmarked process is not the one just reaped
    have hnot : ¬ Log.Reaped (.reap l₀.child :: log) pr'.child := by
      intro hr
      have hlive' : (c.live.insert id (stoppedJob (reapedJob job l₀.pid status) "failed" now)).lookup
          id = some _ := AList.lookup_insert _
      have hmem : Effect.reap pr'.child ∈ (signalEffects (reapedJob job l₀.pid status)
          sigterm).reverse ++ .stop id "failed" :: .reap l₀.child :: log :=
        List.mem_append_right _ (List.mem_cons_of_mem _ hr)
      rw [ha'.marked id _ hlive' pr' hpr' hmem] at hreaped'
      cases hreaped'
    obtain ⟨pr, hpr, rfl⟩ := List.mem_map.mp hpr'
    have hpid : pr.pid ≠ l₀.pid := by
      intro heq
      rw [if_pos heq] at hreaped'
      cases hreaped'
    rw [if_neg hpid] at hreaped' hnot ⊢
    obtain ⟨l, hl, hchild, hlpid, hr⟩ := hproc hlive pr hpr hreaped'
    refine mem_unreaped.mpr ⟨l, hl, ?_, hlpid⟩
    rw [← hchild] at hnot
    simpa [Log.Reaped] using hnot
  | @reapLast c c' log log' l status _ job _ _ _ _ _ _ hfinish =>
    have hreap : Adds Killless log (.reap l.child :: log) := (Adds.refl log).cons trivial
    exact (hfinished hreap hfinish).killOk hall
  | @reapLastBad c c' log log' l status _ now job _ _ _ _ _ _ _ hfinish =>
    have hreap : Adds Killless log (.reap l.child :: log) := (Adds.refl log).cons trivial
    have hstop : Adds Killless log (.stop id "failed" :: .reap l.child :: log) :=
      hreap.cons trivial
    exact (hfinished hstop hfinish).killOk hall
  | workerExit => exact ⟨fun _ => trivial, hall⟩
  | workerOutput => exact ⟨fun _ => trivial, hall⟩
  | memberSpawned => exact ⟨fun _ => trivial, hall⟩
  | memberGone => exact ⟨fun _ => trivial, hall⟩
  | workerRegion _ _ hf =>
    rcases hf with ⟨_, -, rfl, -⟩ | ⟨rfl, -⟩ <;> exact ⟨fun _ => trivial, hall⟩
  | record => exact ⟨fun _ => trivial, hall⟩

/-! ## Finished jobs -/

/-- The job has been finalized with these children. -/
def Log.FinalizedWith (log : Log) (id : ℕ) (children : List ℕ) : Prop :=
  ∃ state job inspect write, Effect.finalized id state job inspect write ∈ log ∧
    job.procs.map (·.child) = children

/-- A job that has been launched stays, with its children, or is finalized. -/
theorem Step.stays_or_finalized {id other : ℕ} {v v' : View} (h : Step o g id v v')
    {job : LiveJob} (hlive : v.ctl.live.lookup other = some job)
    (hstate : job.jobMeta.state ≠ "queued") :
    (∃ job', v'.ctl.live.lookup other = some job' ∧ job'.jobMeta.state ≠ "queued" ∧
      job'.procs.map (·.child) = job.procs.map (·.child)) ∨
      v'.log.FinalizedWith other (job.procs.map (·.child)) := by
  by_cases hid : other = id
  · subst hid
    have hnotWaiting : ∀ {job' : LiveJob}, v.ctl.live.lookup other = some job' →
        job'.jobMeta.state = "queued" → False := by
      intro job' hlive' hqueued
      cases hlive.symm.trans hlive'
      exact hstate hqueued
    cases h with
    | enter _ hnone => cases hnone.symm.trans hlive
    | launchFail hjob => exact (hnotWaiting hjob.live hjob.queued).elim
    | launchSpawnFail hjob => exact (hnotWaiting hjob.live hjob.queued).elim
    | launch hjob => exact (hnotWaiting hjob.live hjob.queued).elim
    | cancelQueued hlive' hqueued => exact (hnotWaiting hlive' hqueued).elim
    | stop hlive' =>
      cases hlive.symm.trans hlive'
      exact Or.inl ⟨_, AList.lookup_insert _, hstate, rfl⟩
    | escalate hlive' =>
      cases hlive.symm.trans hlive'
      exact Or.inl ⟨_, AList.lookup_insert _, hstate, rfl⟩
    | reapSome _ _ hlive' =>
      cases hlive.symm.trans hlive'
      exact Or.inl ⟨_, AList.lookup_insert _, hstate, reapedJob_children _ _ _⟩
    | reapBad _ _ hlive' =>
      cases hlive.symm.trans hlive'
      exact Or.inl ⟨_, AList.lookup_insert _, hstate, reapedJob_children _ _ _⟩
    | reapLast _ _ hlive' _ _ _ hfinish =>
      cases hlive.symm.trans hlive'
      cases hfinish
      exact Or.inr ⟨_, _, _, _, List.mem_cons_of_mem _ List.mem_cons_self,
        reapedJob_children _ _ _⟩
    | reapLastBad _ _ hlive' _ _ _ _ hfinish =>
      cases hlive.symm.trans hlive'
      cases hfinish
      exact Or.inr ⟨_, _, _, _, List.mem_cons_of_mem _ List.mem_cons_self,
        reapedJob_children _ _ _⟩
    | @workerRegion c log l =>
      left
      simp only [hlive]
      split_ifs
      · exact ⟨_, AList.lookup_insert _, hstate, rfl⟩
      · exact ⟨job, hlive, hstate, rfl⟩
    | _ => exact Or.inl ⟨job, hlive, hstate, rfl⟩
  · exact Or.inl ⟨job, (h.concerns.2 other hid).trans hlive, hstate, rfl⟩

theorem Steps.stays_or_finalized {id : ℕ} {v v' : View} (h : Steps o g v v') {job : LiveJob}
    (hlive : v.ctl.live.lookup id = some job) (hstate : job.jobMeta.state ≠ "queued") :
    (∃ job', v'.ctl.live.lookup id = some job' ∧ job'.jobMeta.state ≠ "queued" ∧
      job'.procs.map (·.child) = job.procs.map (·.child)) ∨
      v'.log.FinalizedWith id (job.procs.map (·.child)) := by
  induction h with
  | refl => exact Or.inl ⟨job, hlive, hstate, rfl⟩
  | tail _ h ih =>
    obtain ⟨id', h⟩ := h
    rcases ih with ⟨job₁, hlive₁, hstate₁, hchildren⟩ | ⟨state, job₁, inspect, write, hmem, hc⟩
    · rw [← hchildren]
      exact h.stays_or_finalized hlive₁ hstate₁
    · exact Or.inr ⟨state, job₁, inspect, write, h.grows.suffix.subset hmem, hc⟩

/-- What a controller with attributed children has made of a job whose workers have
    all been reaped. -/
theorem Attributed.finished {v v' : View} (hv' : Crew v') (ha' : Attributed v') (h : Steps o g v v')
    {id : ℕ} {job : LiveJob} (hlive : v.ctl.live.lookup id = some job)
    (hstate : job.jobMeta.state ≠ "queued")
    (hreaped : ∀ pr ∈ job.procs, v'.log.Reaped pr.child) :
    v'.log.FinalizedWith id (job.procs.map (·.child)) := by
  rcases h.stays_or_finalized hlive hstate with ⟨job', hlive', hstate', hchildren⟩ | hfinal
  · -- a live job has a worker that is not marked, and so not reaped
    exfalso
    obtain ⟨hleft, -⟩ := (hv'.jobs id job' hlive').staffed hstate'
    obtain ⟨pr', hpr', hopen⟩ : ∃ pr ∈ job'.procs, pr.reaped = false := by
      simpa [LiveJob.allReaped] using hleft
    have hmem : pr'.child ∈ job.procs.map (·.child) := by
      rw [← hchildren]
      exact List.mem_map_of_mem hpr'
    obtain ⟨pr, hpr, hchild⟩ := List.mem_map.mp hmem
    rw [ha'.marked id job' hlive' pr' hpr' (hchild ▸ hreaped pr hpr)] at hopen
    cases hopen
  · exact hfinal

/-- The children of a finalized job belong to no live job. -/
theorem Crew.not_live_of_finalized {v : View} (hv : Crew v) {id other : ℕ} {children : List ℕ}
    {job : LiveJob} (hfinal : v.log.FinalizedWith id children)
    (hlive : v.ctl.live.lookup other = some job) {child : ℕ} (hchild : child ∈ children) :
    child ∉ job.procs.map (·.child) := by
  intro hmem
  have hstate : job.jobMeta.state ≠ "queued" := by
    intro hqueued
    rw [(hv.repr.waiting _ job hlive hqueued).procs] at hmem
    cases hmem
  obtain ⟨call, ws, hst⟩ := hv.staffed hlive hstate
  rw [hst.children] at hmem
  obtain ⟨l, hl, rfl⟩ := List.mem_map.mp hmem
  obtain ⟨state, job₀, inspect, write, hin, rfl⟩ := hfinal
  exact hst.once l hl ⟨id, state, job₀, inspect, write, hin, hchild⟩

/-! ## Runs -/

/-- Runs of handled inputs are sequences of steps. -/
theorem run_steps {w : World} {es : List Event} (hdown : w.ctl.running = false → w.Down)
    (hes : ∀ e ∈ es, ∃ input, e = .handled input)
    (hallow : Machine.Along (World.step o) (fun w e => g.Allows w e.input) w es) :
    Steps o g w.view (Machine.run (World.step o) w es).view := by
  induction es generalizing w with
  | nil => exact .refl
  | cons e es ih =>
    obtain ⟨input, rfl⟩ := hes e List.mem_cons_self
    have hsteps : Steps o g w.view (handle o w input).view := handle_steps hdown hallow.1
    exact hsteps.trans (ih (handle_down hdown input)
      (fun e' he' => hes e' (List.mem_cons_of_mem _ he')) hallow.2)

/-- The children are attributed throughout a run that spares their pids. -/
theorem run_attributed {slots : ℕ} {es : List Event}
    (hallow : Machine.Along (World.step o) (fun w e => Guard.sparing.Allows w e.input)
      (World.start slots) es) :
    let v := (Machine.run (World.step o) (World.start slots) es).view
    Crew v ∧ Attributed v ∧ History.All KillOk v.log := by
  simp only [← killOkSince_nil]
  refine run_view (P := fun v => Crew v ∧ Attributed v ∧ History.All (KillOkSince []) v.log)
    (fun slots => ⟨@Crew.fresh [] trivial trivial rfl slots, ⟨by simp [Log.forks], by simp⟩, trivial⟩)
    (fun _ _ _ ⟨hv, ha, hall⟩ h => ?_) (fun v log slots ⟨hv, ha, hall⟩ hsuf => ?_) hallow
  · have ha' := ha.step hv h
    exact ⟨hv.step h, ha', ha.kills_step hv ha' h hall⟩
  · exact ⟨hv.crash hsuf slots, ⟨by simp [Log.forks], by simp⟩, fun _ => trivial, hall.suffix hsuf⟩

/-- A job with two workers. -/
def twoMeta : Meta := { id := 1, op := "count", input := "/f", workers := 2 }

/-- If the reap of this input returns the last worker of a job, no worker of another
    job that has not been reaped has one of the job's pids. -/
def World.sparesOwners (w : World) : Input → Bool
  | .reap child => w.log.forks.all fun l =>
      l.child ≠ child ||
        ((w.ctl.pidOwner l.pid).bind fun id => (w.ctl.live.lookup id).map fun job =>
          (job.procs.any fun pr => pr.pid ≠ l.pid && !pr.reaped) ||
            w.log.forks.all fun l' =>
              w.log.Reaped l'.child || l'.id = id || l'.pid ∉ job.procs.map (·.pid)).getD true
  | _ => true

theorem sparing_allows {w : World} {input : Input} (h : w.sparesOwners input = true) :
    Guard.sparing.Allows w input := by
  cases input with
  | reap child =>
    intro l hl hchild id job howner hlive hmarks l' hl' hr hid
    have hspares := List.all_eq_true.mp h l hl
    rw [howner, Option.bind_some, hlive, Option.map_some, Option.getD_some] at hspares
    have hany : (job.procs.any fun pr => pr.pid ≠ l.pid && !pr.reaped) = false := by
      simpa using hmarks
    have hall : (w.log.forks.all fun l' =>
        w.log.Reaped l'.child || l'.id = id || l'.pid ∉ job.procs.map (·.pid)) = true := by
      simpa only [hany, hchild, ne_eq, not_true_eq_false, decide_false, Bool.false_or] using hspares
    have hlast := List.all_eq_true.mp hall l' hl'
    simpa [hr, hid] using hlast
  | line => exact fun _ _ _ _ => trivial
  | _ => trivial

/-- **Worker exits are attributed to the job that forked the worker**, in every run
    in which, whenever a job is finalized, no worker of another job has one of its
    pids: a process is marked exactly if `waitid` has returned it; signals go to
    children that have not been returned; and a job whose workers have all been
    returned has been finalized, with the slot given back. -/
theorem exits_attributed (o : Oracle) (slots : ℕ) (es es' : List Event)
    (hspares : Machine.Along (World.step o) (fun w e => w.sparesOwners e.input = true)
      (World.start slots) (es ++ es')) (hes' : ∀ e ∈ es', ∃ input, e = .handled input) :
    let w := Machine.run (World.step o) (World.start slots) es
    let w' := Machine.run (World.step o) (World.start slots) (es ++ es')
    (∀ id job, w'.ctl.live.lookup id = some job → ∀ pr ∈ job.procs,
      (pr.reaped = true ↔ w'.log.Reaped pr.child)) ∧
    History.All KillOk w'.log ∧
    (w'.ctl.slotsUsed = (w'.ctl.live.countVals LiveJob.isRunning : ℤ) ∧
      ∀ id job, w.ctl.live.lookup id = some job → job.jobMeta.state ≠ "queued" →
        (∀ pr ∈ job.procs, w'.log.Reaped pr.child) →
        w'.log.FinalizedWith id (job.procs.map (·.child)) ∧
        ∀ other job', w'.ctl.live.lookup other = some job' →
          ∀ pr ∈ job.procs, pr.child ∉ job'.procs.map (·.child)) := by
  intro w w'
  have hallow : Machine.Along (World.step o) (fun w e => Guard.sparing.Allows w e.input)
      (World.start slots) (es ++ es') :=
    Machine.along_of (fun _ _ => trivial) hspares fun _ _ (_ : True) h => sparing_allows h
  obtain ⟨hv', ha', hall'⟩ := run_attributed hallow
  obtain ⟨hallow₁, hallow₂⟩ := (Machine.along_append (World.step o) _).mp hallow
  have hsteps : Steps o .sparing w.view w'.view := by
    have := run_steps (run_down o slots es) hes' hallow₂
    rwa [← Machine.run_append] at this
  refine ⟨fun id job hlive pr hpr => ⟨fun hmark => ?_, fun hr => ?_⟩, hall', hv'.repr.used,
    fun id job hlive hstate hreaped => ?_⟩
  · have hstate : job.jobMeta.state ≠ "queued" := by
      intro hqueued
      rw [(hv'.repr.waiting _ job hlive hqueued).procs] at hpr
      cases hpr
    obtain ⟨call, ws, hst⟩ := hv'.staffed hlive hstate
    exact (hst.done pr hpr hmark).1
  · exact ha'.marked id job hlive pr hpr hr
  · have hfinal := ha'.finished hv' hsteps hlive hstate hreaped
    exact ⟨hfinal, fun other job' hlive' pr hpr =>
      hv'.not_live_of_finalized hfinal hlive' (List.mem_map_of_mem hpr)⟩

/-- Job 1 runs two workers, and job 2 one that gets the pid of a worker of job 1
    that has been reaped. It is attributed to job 2, which outlives job 1. -/
theorem exits_attributed_two :
    let w := Machine.run (World.step (.smooth fun _ i => 7 + i)) (World.start 2)
      [.handled .recover, .handled (.record 1 twoMeta), .handled (.line "SUBMIT 1".toList),
       .handled (.exit 4 (.exited 0)), .handled (.reap 4)]
    let w' := Machine.run (World.step (.smooth fun _ i => 7 + i)) (World.start 2)
      [.handled .recover, .handled (.record 1 twoMeta), .handled (.line "SUBMIT 1".toList),
       .handled (.exit 4 (.exited 0)), .handled (.reap 4), .handled (.record 2 (execMeta 2)),
       .handled (.line "SUBMIT 2".toList), .handled (.exit 13 (.exited 0)), .handled (.reap 13),
       .handled (.exit 5 (.exited 0)), .handled (.reap 5)]
    (∀ id job, w'.ctl.live.lookup id = some job → ∀ pr ∈ job.procs,
      (pr.reaped = true ↔ w'.log.Reaped pr.child)) ∧
    History.All KillOk w'.log ∧
    (w'.ctl.slotsUsed = (w'.ctl.live.countVals LiveJob.isRunning : ℤ) ∧
      ∀ id job, w.ctl.live.lookup id = some job → job.jobMeta.state ≠ "queued" →
        (∀ pr ∈ job.procs, w'.log.Reaped pr.child) →
        w'.log.FinalizedWith id (job.procs.map (·.child)) ∧
        ∀ other job', w'.ctl.live.lookup other = some job' →
          ∀ pr ∈ job.procs, pr.child ∉ job'.procs.map (·.child)) :=
  exits_attributed (.smooth fun _ i => 7 + i) 2
    [.handled .recover, .handled (.record 1 twoMeta), .handled (.line "SUBMIT 1".toList),
     .handled (.exit 4 (.exited 0)), .handled (.reap 4)]
    [.handled (.record 2 (execMeta 2)), .handled (.line "SUBMIT 2".toList),
     .handled (.exit 13 (.exited 0)), .handled (.reap 13), .handled (.exit 5 (.exited 0)),
     .handled (.reap 5)] (by decide +kernel) (by simp)

/-- Job 1 has two workers and is finalized while the worker of job 2 has the pid of
    its first one. The worker of job 2 is then reaped as an unknown pid: the job
    never notices, stays live and keeps its slot. -/
theorem exit_unattributed :
    let w := Machine.run (World.step (.smooth fun _ i => 7 + i)) (World.start 2)
      [.handled .recover, .handled (.record 1 twoMeta), .handled (.line "SUBMIT 1".toList),
       .handled (.exit 4 (.exited 0)), .handled (.reap 4), .handled (.record 2 (execMeta 2)),
       .handled (.line "SUBMIT 2".toList), .handled (.exit 5 (.exited 0)), .handled (.reap 5),
       .handled (.exit 13 (.exited 0)), .handled (.reap 13)]
    (w.ctl.live.lookup 2).map (fun job => job.procs.map fun pr => (pr.child, pr.pid, pr.reaped)) =
        some [(13, 7, false)] ∧
      w.log.Reaped 13 ∧ w.log.status 13 = some (.exited 0) ∧ w.ctl.slotsUsed = 1 := by
  decide +kernel

end Forge
