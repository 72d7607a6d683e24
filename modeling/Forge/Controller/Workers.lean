import Forge.Controller.Crew
import Forge.Controller.Runs

/-!
# Every worker has a job

A child of the controller that `waitid` has not returned is a process of a live
job, and only that job can own its pid. With `Crew.subject` this makes `Crew` an
invariant of every run.

* `Step.unreaped`: which children are left after a step.
* `Crew.step`: every step keeps the live jobs and the children together.
* `run_crew`: so does every run, over any number of controller lifetimes.
-/

namespace Forge

variable {o : Oracle} {g : Guard} {log log' : Log}

/-! ## Children left to reap -/

/-- The effect forks nobody, and the controller lives on. -/
def Forkless : Effect → Prop
  | .fork _ => False
  | .died => False
  | _ => True

theorem Adds.unreaped (h : Adds Forkless log log') {l : Launch} (hl : l ∈ log'.forks)
    (hr : ¬ log'.Reaped l.child) : l ∈ log.forks ∧ ¬ log.Reaped l.child := by
  obtain ⟨new, rfl, hnew⟩ := h
  induction new with
  | nil => exact ⟨hl, hr⟩
  | cons e new ih =>
    have he := hnew e List.mem_cons_self
    refine ih (fun e' he' => hnew e' (List.mem_cons_of_mem e he')) ?_ fun h => hr (Log.reaped_cons h)
    cases e with
    | fork l' => exact he.elim
    | died => exact he.elim
    | _ => exact hl

/-- Killing and reaping leaves none of the processes. -/
theorem killedLog_reaped {procs : List ProcRef} {pr : ProcRef} (h : pr ∈ procs) (log : Log) :
    Log.Reaped (killedLog procs log) pr.child := by
  have hkeep : ∀ (procs : List ProcRef) (log : Log) (child : ℕ), log.Reaped child →
      Log.Reaped (killedLog procs log) child := by
    intro procs
    induction procs with
    | nil => exact fun _ _ h => h
    | cons pr procs ih =>
      exact fun log child h => ih _ child (Log.reaped_cons (Log.reaped_cons (Log.reaped_cons h)))
  induction procs generalizing log with
  | nil => cases h
  | cons pr' procs ih =>
    rcases List.mem_cons.mp h with rfl | h
    · exact hkeep procs _ pr.child List.mem_cons_self
    · exact ih h _

/-- The fork loop has run for a job: all of its workers are forked, or those that were
    have been reaped. -/
structure Spawns (id : ℕ) (v v' : View) (job : LiveJob) (m : Meta) (procs : List ProcRef)
    (log₁ log₂ : Log) : Prop where
  ready : Launchable v.ctl id job
  record : ∃ bytes t, m = ((job.jobMeta.setBytes bytes).setState "starting").setStarted t
  before : Adds Forkless v.log log₁
  forked : ∃ n, Forked id v.log.length m 0 ((launchRanges m).take n) log₁ procs log₂
  after : Adds Forkless log₂ v'.log
  outcome : ((∀ pr ∈ procs, v'.log.Reaped pr.child) ∧ v'.ctl.live = v.ctl.live.erase id) ∨
    ∃ deadlineId, v'.ctl.live = v.ctl.live.insert id (launchedJob job m procs deadlineId) ∧
      procs.length = (launchRanges m).length ∧ ∀ pr ∈ procs, v'.ctl.pidOwner pr.pid = some id

/-- **A step forks nobody**, or runs the fork loop once. -/
theorem Step.spawns {id : ℕ} {v v' : View} (h : Step o g id v v') :
    Adds Forkless v.log v'.log ∨ ∃ job m procs log₁ log₂, Spawns id v v' job m procs log₁ log₂ := by
  have hsaved : ∀ {m : Meta} {log log' : Log}, Saved o log id m log' → Adds Forkless log log' :=
    fun hsave => Adds.saved (.refl _) trivial trivial hsave
  have hsignals : ∀ {job : LiveJob} {sig : ℕ} {log log' : Log}, Adds Forkless log log' →
      Adds Forkless log ((signalEffects job sig).reverse ++ log') :=
    fun hadds => hadds.signals (fun _ _ _ => trivial) _ _
  have hfinished : ∀ {job : LiveJob} {c c' : Controller} {log log₁ log' : Log},
      Adds Forkless log log₁ → Finish o id job c log₁ c' log' → Adds Forkless log log' :=
    fun hadds hfinish => hadds.finished hfinish (fun _ _ => ⟨trivial, trivial⟩) trivial
      (fun _ => trivial) fun _ _ _ _ => trivial
  cases h with
  | @launchSpawnFail c log log₁ log₂ log' _ n job m m' procs hjob _ _ _ _ t hstart hfork hsave
      hmeta =>
    have hkilled : Adds Forkless log₂ (killedLog procs log₂) :=
      (Adds.refl log₂).killed (fun _ _ _ => trivial) (fun _ _ => trivial) (fun _ => trivial) procs
    have hfailed : Adds Forkless (killedLog procs log₂) (.removed id :: log') :=
      (hsaved hsave).cons trivial
    exact Or.inr ⟨job, m, procs, log₁, log₂, hjob, hmeta, hsaved hstart, ⟨n, hfork⟩,
      hkilled.trans hfailed,
      Or.inl ⟨fun pr hpr => hfailed.suffix.subset (killedLog_reaped hpr log₂), rfl⟩⟩
  | @launch c log log₁ log₂ log' _ call job m procs deadlineId t hjob bytes t' hmeta _ hstart hfork
      hrun =>
    refine Or.inr ⟨_, _, _, _, _, hjob, ⟨bytes, t', hmeta⟩, hsaved hstart, ?_, hsaved hrun,
      Or.inr ⟨deadlineId, rfl, hfork.length, fun pr hpr => ?_⟩⟩
    · exact ⟨(launchRanges m).length, by rwa [List.take_length]⟩
    · exact if_pos (List.mem_map_of_mem hpr)
  | started => exact Or.inl (.refl _)
  | recoverFail _ _ _ hkills hsave =>
    refine Or.inl (((Adds.refl _).append fun e he => ?_).trans (hsaved hsave))
    obtain ⟨_, _, rfl⟩ := hkills e he
    trivial
  | cancelLate _ _ _ _ hsave => exact Or.inl (hsaved hsave)
  | reject _ _ _ _ _ hsave => exact Or.inl (hsaved hsave)
  | enter _ _ _ _ _ _ hsave => exact Or.inl ((hsaved hsave).cons trivial)
  | launchFail _ _ _ hsave _ => exact Or.inl ((hsaved hsave).cons trivial)
  | cancelNothing => exact Or.inl ((Adds.refl _).cons trivial)
  | cancelRecord _ _ _ hsave => exact Or.inl ((hsaved hsave).cons trivial)
  | @cancelQueued c log log' _ job t _ _ hsave =>
    have hremoved : Adds Forkless log (.removed id :: log') := (hsaved hsave).cons trivial
    exact Or.inl (hremoved.cons trivial)
  | cancelRunning => exact Or.inl ((Adds.refl _).cons trivial)
  | stop => exact Or.inl (hsignals ((Adds.refl _).cons trivial))
  | stopAgain => exact Or.inl ((Adds.refl _).cons trivial)
  | escalate => exact Or.inl (hsignals (.refl _))
  | shutdown => exact Or.inl (.refl _)
  | reapUnknown => exact Or.inl ((Adds.refl _).cons trivial)
  | reapSome => exact Or.inl ((Adds.refl _).cons trivial)
  | @reapBad c log l status =>
    have hreap : Adds Forkless log (.reap l.child :: log) := (Adds.refl log).cons trivial
    exact Or.inl (hsignals (hreap.cons trivial))
  | @reapLast c c' log log' l status _ job _ _ _ _ _ _ hfinish =>
    have hreap : Adds Forkless log (.reap l.child :: log) := (Adds.refl log).cons trivial
    exact Or.inl (hfinished hreap hfinish)
  | @reapLastBad c c' log log' l status _ now job _ _ _ _ _ _ _ hfinish =>
    have hreap : Adds Forkless log (.reap l.child :: log) := (Adds.refl log).cons trivial
    have hstop : Adds Forkless log (.stop id "failed" :: .reap l.child :: log) :=
      hreap.cons trivial
    exact Or.inl (hfinished hstop hfinish)
  | workerExit => exact Or.inl ((Adds.refl _).cons trivial)
  | workerOutput => exact Or.inl ((Adds.refl _).cons trivial)
  | memberSpawned => exact Or.inl ((Adds.refl _).cons trivial)
  | memberGone => exact Or.inl ((Adds.refl _).cons trivial)
  | workerRegion _ _ hf =>
    refine Or.inl ((Adds.refl _).cons ?_)
    rcases hf with ⟨_, -, rfl, -⟩ | ⟨rfl, -⟩ <;> trivial
  | record => exact Or.inl ((Adds.refl _).cons trivial)

/-- A child that the step has forked and not reaped is a worker of the job that
    the step is about. -/
def Hired (v' : View) (id : ℕ) (l : Launch) : Prop :=
  l.id = id ∧ v'.ctl.pidOwner l.pid = some id ∧
    ∃ job, v'.ctl.live.lookup id = some job ∧ l.child ∈ job.procs.map (·.child)

/-- **The children left after a step** were left before, or are workers that the
    step has forked. -/
theorem Step.unreaped {id : ℕ} {v v' : View} (h : Step o g id v v') {l : Launch}
    (hl : l ∈ v'.log.forks) (hr : ¬ v'.log.Reaped l.child) :
    (l ∈ v.log.forks ∧ ¬ v.log.Reaped l.child) ∨ Hired v' id l := by
  rcases h.spawns with hadds | ⟨job, m, procs, log₁, log₂, hspawn⟩
  · exact Or.inl (hadds.unreaped hl hr)
  obtain ⟨n, hfork⟩ := hspawn.forked
  obtain ⟨ws, hws⟩ := hfork.workers
  obtain ⟨hl₂, hr₂⟩ := hspawn.after.unreaped hl hr
  rw [hws.forks] at hl₂
  rcases List.mem_append.mp hl₂ with hmem | hmem
  · have hmem := List.mem_reverse.mp hmem
    have hpair : (l.child, l.pid) ∈ ws.map fun l => (l.child, l.pid) :=
      List.mem_map_of_mem (f := fun l : Launch => (l.child, l.pid)) hmem
    rw [← hws.pairs] at hpair
    obtain ⟨pr, hpr, heq⟩ := List.mem_map.mp hpair
    have hchild : pr.child = l.child := congrArg Prod.fst heq
    have hpid : pr.pid = l.pid := congrArg Prod.snd heq
    rcases hspawn.outcome with ⟨hreaped, -⟩ | ⟨deadlineId, hlive, -, howner⟩
    · exact absurd (hchild ▸ hreaped pr hpr) hr
    · refine Or.inr ⟨(hws.belongs l hmem).1, hpid ▸ howner pr hpr,
        launchedJob job m procs deadlineId, ?_, hchild ▸ List.mem_map_of_mem hpr⟩
      rw [hlive, AList.lookup_insert]
  · exact Or.inl (hspawn.before.unreaped hmem fun h => hr₂ ((hws.reaped _).mpr h))

/-! ## Owners and homes -/

/-- A pid that is owned after a step was owned before, or is that of a worker that
    the step has forked. -/
theorem Step.pidOwner {id : ℕ} {v v' : View} (hall : History.All ChildOk v.log)
    (h : Step o g id v v') {pid owner : ℕ} (howner : v'.ctl.pidOwner pid = some owner) :
    v.ctl.pidOwner pid = some owner ∨
      ∃ l ∈ v'.log.forks, ¬ v'.log.Reaped l.child ∧ l.pid = pid ∧ l.id = owner := by
  have hwithout : ∀ {job : LiveJob} {c : Controller},
      (withoutJob id job c).pidOwner pid = some owner → c.pidOwner pid = some owner := by
    intro job c hsome
    unfold withoutJob releaseRuntime at hsome
    dsimp only at hsome
    split_ifs at hsome
    exact hsome
  cases h with
  | launchFail _ _ _ _ hctl =>
    rcases hctl with rfl | rfl
    · exact Or.inl (hwithout howner)
    · exact Or.inl howner
  | @launch c log log₁ log₂ log' _ call job m procs deadlineId t hjob bytes t' _ _ hstart hfork
      hrun =>
    dsimp only at howner
    split_ifs at howner with hmem
    · right
      cases howner
      obtain ⟨ws, hws⟩ := hfork.workers
      obtain ⟨pr, hpr, hpid⟩ := List.mem_map.mp hmem
      have hpair : (pr.child, pr.pid) ∈ procs.map fun pr => (pr.child, pr.pid) :=
        List.mem_map_of_mem (f := fun pr : ProcRef => (pr.child, pr.pid)) hpr
      rw [hws.pairs] at hpair
      obtain ⟨l, hl, heq⟩ := List.mem_map.mp hpair
      obtain ⟨-, -, -, -, -, hreaped₁, hlen₁⟩ := hstart.readings
      obtain ⟨hforks', -, -, -, -, hreaped', -⟩ := hrun.readings
      refine ⟨l, ?_, ?_, (congrArg Prod.snd heq).trans hpid, (hws.belongs l hl).1⟩
      · rw [hforks', hws.forks]
        exact List.mem_append_left _ (List.mem_reverse.mpr hl)
      · rw [hreaped', hws.reaped, hreaped₁]
        exact (fresh_child hall (hlen₁.trans (hws.newer l hl))).2
    · exact Or.inl howner
  | reapLast _ _ _ _ _ _ hfinish =>
    rw [hfinish.ctl] at howner
    exact Or.inl (hwithout howner)
  | reapLastBad _ _ _ _ _ _ _ hfinish =>
    rw [hfinish.ctl] at howner
    exact Or.inl (hwithout howner)
  | workerRegion =>
    dsimp only at howner
    split at howner
    · exact Or.inl howner
    · split_ifs at howner <;> exact Or.inl howner
  | _ => exact Or.inl howner

/-- A child that the step has not reaped keeps its home. -/
theorem Crew.keepsHome {id : ℕ} {v v' : View} (hv : Crew v) (h : Step o g id v v') {l : Launch}
    {job : LiveJob} (hr : ¬ v'.log.Reaped l.child) (hlive : v.ctl.live.lookup id = some job)
    (hmem : l.child ∈ job.procs.map (·.child)) :
    ∃ job', v'.ctl.live.lookup id = some job' ∧ l.child ∈ job'.procs.map (·.child) := by
  have hsuffix := h.grows.suffix
  have hqueued : job.jobMeta.state ≠ "queued" := by
    intro hqueued
    rw [(hv.repr.waiting id job hlive hqueued).procs] at hmem
    cases hmem
  have hnotWaiting : ∀ {job' : LiveJob}, v.ctl.live.lookup id = some job' →
      job'.jobMeta.state = "queued" → False := by
    intro job' hlive' hstate
    cases hlive.symm.trans hlive'
    exact hqueued hstate
  -- a job whose last process has been reaped has none left
  have hlast : ∀ {l₀ : Launch} {status : WaitStatus} {job' : LiveJob},
      Zombie g v.ctl v.log l₀ status → v.ctl.pidOwner l₀.pid = some id →
      v.ctl.live.lookup id = some job' → (reapedJob job' l₀.pid status).allReaped = true →
      .reap l₀.child ∈ v'.log → False := by
    intro l₀ status job' hzombie howner hlive' hallReaped hreap
    cases hlive.symm.trans hlive'
    obtain ⟨call, ws, hst, hl₀⟩ := hv.worker_of_owner hzombie howner hlive
    have hst' := hst.reap hl₀ hzombie.ended
    rw [← reapedJob_children job l₀.pid status] at hmem
    obtain ⟨pr, hpr, hchild⟩ := List.mem_map.mp hmem
    obtain ⟨hreaped, -⟩ := hst'.done pr hpr (List.all_eq_true.mp hallReaped pr hpr)
    rw [hchild] at hreaped
    rcases List.mem_cons.mp hreaped with heq | hreaped
    · have heq : l.child = l₀.child := by simpa using heq
      exact hr (heq ▸ hreap)
    · exact hr (hsuffix.subset hreaped)
  cases h with
  | enter _ hnone => cases hnone.symm.trans hlive
  | launchFail hjob => exact (hnotWaiting hjob.live hjob.queued).elim
  | launchSpawnFail hjob => exact (hnotWaiting hjob.live hjob.queued).elim
  | launch hjob => exact (hnotWaiting hjob.live hjob.queued).elim
  | cancelQueued hlive' hstate => exact (hnotWaiting hlive' hstate).elim
  | stop hlive' =>
    cases hlive.symm.trans hlive'
    exact ⟨_, AList.lookup_insert _, hmem⟩
  | escalate hlive' =>
    cases hlive.symm.trans hlive'
    exact ⟨_, AList.lookup_insert _, hmem⟩
  | reapSome _ _ hlive' =>
    cases hlive.symm.trans hlive'
    exact ⟨_, AList.lookup_insert _, by rwa [reapedJob_children]⟩
  | @reapBad c log l₀ status _ now job' _ _ hlive' =>
    cases hlive.symm.trans hlive'
    refine ⟨_, AList.lookup_insert _, ?_⟩
    show l.child ∈ (reapedJob job l₀.pid status).procs.map (·.child)
    rwa [reapedJob_children]
  | @reapLast c c' log log' l₀ status _ job' hzombie howner hlive' _ hallReaped _ hfinish =>
    have hfin : Adds (fun _ => True) (.reap l₀.child :: log) log' :=
      (Adds.refl _).finished hfinish (fun _ _ => ⟨trivial, trivial⟩) trivial
        (fun _ => trivial) fun _ _ _ _ => trivial
    exact (hlast hzombie howner hlive' hallReaped (hfin.suffix.subset List.mem_cons_self)).elim
  | @reapLastBad c c' log log' l₀ status _ now job' hzombie howner hlive' _ hallReaped _ _ hfinish =>
    have hfin : Adds (fun _ => True) (.stop id "failed" :: .reap l₀.child :: log) log' :=
      (Adds.refl _).finished hfinish (fun _ _ => ⟨trivial, trivial⟩) trivial
        (fun _ => trivial) fun _ _ _ _ => trivial
    exact (hlast hzombie howner hlive' hallReaped
      (hfin.suffix.subset (List.mem_cons_of_mem _ List.mem_cons_self))).elim
  | @workerRegion c log l₀ =>
    simp only [hlive]
    split_ifs
    · exact ⟨_, AList.lookup_insert _, hmem⟩
    · exact ⟨job, hlive, hmem⟩
  | _ => exact ⟨job, hlive, hmem⟩

/-! ## Runs -/

/-- **Every step keeps the live jobs and the children together.** -/
theorem Crew.step {id : ℕ} {v v' : View} (hv : Crew v) (h : Step o g id v v') : Crew v' := by
  have hall := h.children hv.children
  obtain ⟨hadds, hothers⟩ := h.concerns
  have hsuffix := hadds.suffix
  refine ⟨hv.repr.change h.change, hall, fun other job hlive' => ?_, ?_,
    fun l hl hr other howner => ?_, fun l hl hr => ?_⟩
  · by_cases hid : other = id
    · subst hid
      exact hv.subject h hlive'
    · rw [hothers other hid] at hlive'
      have hold := hv.jobs other job hlive'
      refine ⟨hold.waiting, fun hstate => ?_⟩
      obtain ⟨hleft, call, ws, hst⟩ := hold.staffed hstate
      exact ⟨hleft, call, ws, hv.others h hid hst⟩
  · obtain ⟨new, hlog, hnew⟩ := hadds
    rw [hlog]
    refine History.all_append (fun e he past hpast => ?_) hv.judged
    cases e with
    | finalized id' state job' inspect write =>
      obtain ⟨-, job, hlive, hchildren⟩ := hnew _ he
      intro child hchild
      rw [hchildren] at hchild
      have hstate : job.jobMeta.state ≠ "queued" := by
        intro hqueued
        rw [(hv.repr.waiting id job hlive hqueued).procs] at hchild
        cases hchild
      obtain ⟨call, ws, hst⟩ := hv.staffed hlive hstate
      rw [hst.children] at hchild
      obtain ⟨l, hl, rfl⟩ := List.mem_map.mp hchild
      exact ⟨l, Log.mem_launches_suffix hpast (Log.forks_subset (hst.belongs l hl).1), rfl⟩
    | _ => trivial
  · rcases h.pidOwner hv.children howner with hold | ⟨l', hl', hr', hpid, rfl⟩
    · rcases h.unreaped hl hr with ⟨hl₀, hr₀⟩ | ⟨hid, howner', -⟩
      · exact hv.owner l hl₀ hr₀ other hold
      · cases howner.symm.trans howner'
        exact hid.symm
    · exact congrArg Launch.id (unreaped_unique hall hl hl' hr hr' hpid)
  · rcases h.unreaped hl hr with ⟨hl₀, hr₀⟩ | ⟨hid, -, hhome⟩
    · obtain ⟨job, hlive, hmem⟩ := hv.home l hl₀ hr₀
      by_cases hid : l.id = id
      · rw [hid] at hlive ⊢
        exact hv.keepsHome h hr hlive hmem
      · exact ⟨job, (hothers l.id hid).trans hlive, hmem⟩
    · rw [hid]
      exact hhome

/-- A new controller has no children and no jobs. -/
theorem Crew.fresh (hall : History.All ChildOk log) (hjudged : History.All JudgedOk log)
    (hforks : log.forks = []) (slots : ℕ) : Crew ⟨{ slotsMax := slots }, log⟩ where
  repr := .fresh slots
  children := hall
  jobs := by simp
  judged := hjudged
  owner := by simp [hforks]
  home := by simp [hforks]

/-- After a crash nothing is left of the controller. -/
theorem Crew.crash {v : View} (hv : Crew v) (hsuf : log <:+ v.log) (slots : ℕ) :
    Crew ⟨{ slotsMax := slots }, .died :: log⟩ :=
  @Crew.fresh (.died :: log) ⟨trivial, hv.children.suffix hsuf⟩ ⟨trivial, hv.judged.suffix hsuf⟩ rfl
    slots

/-- **In every reachable state the live jobs and the children belong together.** -/
theorem run_crew {slots : ℕ} {es : List Event}
    (hallow : Machine.Along (World.step o) (fun w e => g.Allows w e.input) (World.start slots) es) :
    Crew (Machine.run (World.step o) (World.start slots) es).view :=
  run_view (fun slots => @Crew.fresh [] trivial trivial rfl slots) (fun _ _ _ hv hstep => hv.step hstep)
    (fun _ _ slots hv hsuf => hv.crash hsuf slots) hallow

end Forge
