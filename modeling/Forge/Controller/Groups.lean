import Forge.Controller.Attribution
import Forge.Controller.Earned

/-!
# The process groups of exec jobs

`request_stop` sends SIGTERM to the group of a worker and `on_tick` SIGKILL, but only
while the worker itself has not been reaped (controller.cpp:176-194, 690-704). The
job is finalized when the worker is reaped, whatever else is left of its group.

* `members_killed`: SIGKILL for the group reaches all of it.
* `Step.signals`: whom a step signals.
* `Hunted.step`: what the groups of the live jobs have been sent.
* `group_outlives`: what is left of the group of a finalized job.
-/

namespace Forge

variable {o : Oracle} {g : Guard} {log log' : Log}

/-! ## SIGKILL for a group -/

/-- The effect is SIGKILL for the group of this pid. -/
def Effect.hits (pid : ℕ) : Effect → Bool
  | .kill p sig group => p = pid && sig = sigkill && group
  | _ => false

theorem groupKilled_cons (since : Effect → Bool) (pid : ℕ) (e : Effect) (log : Log) :
    Log.groupKilled since pid (e :: log) =
      (!since e && (e.hits pid || Log.groupKilled since pid log)) := by
  cases e <;> rfl

theorem groupKilled_append {since : Effect → Bool} {pid : ℕ} {es : List Effect}
    (hes : ∀ e ∈ es, since e = false) (log : Log) :
    Log.groupKilled since pid (es ++ log) =
      (es.any (Effect.hits pid) || Log.groupKilled since pid log) := by
  induction es with
  | nil => rfl
  | cons e es ih =>
    rw [List.cons_append, groupKilled_cons, ih fun e' he' => hes e' (List.mem_cons_of_mem e he'),
      hes e List.mem_cons_self, List.any_cons, Bool.not_false, Bool.true_and, Bool.or_assoc]

/-- No SIGKILL for the group, none since then. -/
theorem groupKilled_missed {since : Effect → Bool} {pid : ℕ} {es : List Effect}
    (hes : ∀ e ∈ es, e.hits pid = false) {log : Log} (hlog : Log.groupKilled since pid log = false) :
    Log.groupKilled since pid (es ++ log) = false := by
  induction es with
  | nil => exact hlog
  | cons e es ih =>
    rw [List.cons_append, groupKilled_cons, hes e List.mem_cons_self,
      ih fun e' he' => hes e' (List.mem_cons_of_mem e he'), Bool.or_false, Bool.and_false]

/-- A launched child is not forked again. -/
theorem fork_once {es : List Effect} (hall : History.All ChildOk (es ++ log)) {l : Launch}
    (hl : l ∈ log.launches) : ∀ e ∈ es, e.isForkOf l.child = false := by
  induction es with
  | nil => simp
  | cons e es ih =>
    intro e' he'
    rcases List.mem_cons.mp he' with rfl | he'
    · cases e' with
      | fork l' =>
        have hnew : l'.child = (es ++ log).length := hall.1.1
        have hold := (launch_child_lt (hall.2.suffix (List.suffix_append es log)) hl).1
        have hne : l'.child ≠ l.child := by
          rw [hnew, List.length_append]
          omega
        simpa [Effect.isForkOf] using hne
      | _ => rfl
    · exact ih hall.2 e' he'

theorem groupKilled_grown {es : List Effect} (hall : History.All ChildOk (es ++ log)) {l : Launch}
    (hl : l ∈ log.launches) (pid : ℕ) :
    Log.groupKilled (·.isForkOf l.child) pid (es ++ log) =
      (es.any (Effect.hits pid) || Log.groupKilled (·.isForkOf l.child) pid log) :=
  groupKilled_append (fork_once hall hl) log

/-! ## Members of a group -/

/-- A process is started once, in the group of a worker, and not after SIGKILL. -/
def MemberOk : Effect → Log → Prop
  | .spawned child d, log => d = log.length ∧ ∃ l ∈ log.launches, l.child = child ∧
    Log.groupKilled (·.isForkOf child) l.pid log = false
  | _, _ => True

theorem member_lt (hall : History.All MemberOk log) {child d : ℕ} (hd : d ∈ log.members child) :
    d < log.length ∧ ∃ l ∈ log.launches, l.child = child := by
  induction log with
  | nil => cases hd
  | cons e log ih =>
    obtain ⟨hok, hall⟩ := hall
    have hrest : d ∈ Log.members log child → d < log.length + 1 ∧
        ∃ l ∈ Log.launches (e :: log), l.child = child := by
      intro hd
      obtain ⟨hlt, l, hl, hchild⟩ := ih hall hd
      exact ⟨Nat.lt_succ_of_lt hlt, l, Log.mem_launches_suffix (List.suffix_cons e log) hl, hchild⟩
    cases e with
    | spawned c d' =>
      rw [Log.members] at hd
      split_ifs at hd with hc
      · rcases List.mem_cons.mp hd with rfl | hd
        · obtain ⟨hnew, l, hl, hchild, -⟩ := hok
          exact ⟨by simp [hnew], l, hl, hchild.trans hc⟩
        · exact hrest hd
      · exact hrest hd
    | gone d' => exact hrest (List.mem_filter.mp hd).1
    | _ => exact hrest hd

/-- **SIGKILL for the group reaches all of it**: what is left of the group has been
    sent it since it was started, exactly if the worker has since it was forked. -/
theorem members_killed (hchildren : History.All ChildOk log) (hall : History.All MemberOk log)
    {l : Launch} (hl : l ∈ log.launches) {d : ℕ} (hd : d ∈ log.members l.child) :
    log.groupKilled (·.isSpawnOf d) l.pid = log.groupKilled (·.isForkOf l.child) l.pid := by
  induction log with
  | nil => cases hd
  | cons e log ih =>
    obtain ⟨hok, hall⟩ := hall
    have hrest : l ∈ Log.launches log → d ∈ Log.members log l.child → e.isSpawnOf d = false →
        Log.groupKilled (·.isSpawnOf d) l.pid (e :: log) =
          Log.groupKilled (·.isForkOf l.child) l.pid (e :: log) := by
      intro hl hd hspawn
      have hadds : History.All ChildOk ([e] ++ log) := hchildren
      have hfork := fork_once hadds hl e List.mem_cons_self
      rw [groupKilled_cons, groupKilled_cons, hspawn, hfork, ih hchildren.2 hall hl hd]
    cases e with
    | spawned c d' =>
      obtain ⟨hnew, l', hl', hchild, hopen⟩ := hok
      rw [Log.members] at hd
      have hlater : d ∈ Log.members log l.child → Effect.isSpawnOf d (.spawned c d') = false := by
        intro hd
        have hlt := (member_lt hall hd).1
        have hne : d' ≠ d := by omega
        simpa [Effect.isSpawnOf] using hne
      split_ifs at hd with hc
      · rcases List.mem_cons.mp hd with rfl | hd
        · -- a new process, in a group that has not been killed
          have hsame : l' = l := launch_unique hchildren.2 hl hl' (hchild.trans hc)
          subst hsame
          rw [groupKilled_cons, groupKilled_cons, ← hchild] at *
          rw [hopen]
          simp [Effect.isSpawnOf, Effect.hits]
        · exact hrest hl hd (hlater hd)
      · exact hrest hl hd (hlater hd)
    | fork l' =>
      rcases List.mem_cons.mp hl with rfl | hl
      · -- a new worker has no group yet
        obtain ⟨-, l₀, hl₀, hchild₀⟩ := member_lt hall hd
        have hlt := (launch_child_lt hchildren.2 hl₀).1
        have hnew : l.child = log.length := hchildren.1.1
        omega
      · exact hrest hl hd rfl
    | gone d' => exact hrest hl (List.mem_filter.mp hd).1 rfl
    | _ => exact hrest hl hd rfl

/-! ## Signals -/

theorem mem_signalEffects {job : LiveJob} {sig : ℕ} {e : Effect} :
    e ∈ signalEffects job sig ↔ ∃ pr ∈ job.procs, (pr.reaped = false ∧ pr.pid ≠ 0) ∧
      e = .kill pr.pid sig pr.grouped := by
  unfold signalEffects
  simp only [List.mem_map, List.mem_filter, Bool.and_eq_true, Bool.not_eq_true', decide_eq_true_eq,
    and_assoc, eq_comm (a := e)]

/-- Nobody has this process of job `id` but the job, and it is not marked as reaped. -/
def Signalled (v : View) (id pid : ℕ) : Prop :=
  pid ∉ v.log.unreaped ∨
    ∃ job, v.ctl.live.lookup id = some job ∧ ∃ pr ∈ job.procs, pr.reaped = false ∧ pr.pid = pid

/-- The effect is a signal for a worker of job `id`, or no signal; and it starts no process
    in a group. -/
def Signals (v : View) (id : ℕ) : Effect → Prop
  | .kill pid _ _ => Signalled v id pid
  | .spawned _ _ => False
  | .died => False
  | _ => True

theorem Forked.pids_free {id call i : ℕ} {m : Meta} {ranges : List ByteRange}
    {procs : List ProcRef} (h : Forked id call m i ranges log procs log') :
    ∀ pr ∈ procs, pr.pid ∉ log.unreaped := by
  induction h with
  | nil => simp
  | @cons i range ranges log log' pid start grouped procs hpid _ _ ih =>
    intro pr hpr hmem
    rcases List.mem_cons.mp hpr with rfl | hpr
    · exact hpid hmem
    · obtain ⟨l, hl, hr, hlpid⟩ := mem_unreaped.mp hmem
      refine ih pr hpr (mem_unreaped.mpr ⟨l, List.mem_cons_of_mem _ hl, ?_, hlpid⟩)
      simpa [Log.Reaped] using hr

theorem Adds.killedOf {P : Effect → Prop} {procs : List ProcRef} {log₁ : Log} (h : Adds P log log₁)
    (hkill : ∀ pr ∈ procs, P (.kill pr.pid sigkill pr.grouped))
    (hexit : ∀ child status, P (.exit child status)) (hreap : ∀ child, P (.reap child)) :
    Adds P log (killedLog procs log₁) := by
  induction procs generalizing log₁ with
  | nil => exact h
  | cons pr procs ih =>
    have hpr := h.cons (hkill pr List.mem_cons_self)
    exact ih ((hpr.cons (hexit _ _)).cons (hreap _))
      fun pr' hpr' => hkill pr' (List.mem_cons_of_mem pr hpr')

/-- **A step signals workers of its own job**, or starts one process in a group. -/
theorem Step.signals {id : ℕ} {v v' : View} (h : Step o g id v v') :
    Adds (Signals v id) v.log v'.log ∨ ∃ l ∈ v.log.launches,
      v.log.groupKilled (·.isForkOf l.child) l.pid = false ∧ v'.ctl = v.ctl ∧
      v'.log = .spawned l.child v.log.length :: v.log := by
  have hsaved : ∀ {m : Meta} {log log' : Log}, Saved o log id m log' →
      Adds (Signals v id) log log' := fun hsave => Adds.saved (.refl _) trivial trivial hsave
  have hsignals : ∀ {job job' : LiveJob} {sig : ℕ} {log log' : Log},
      v.ctl.live.lookup id = some job →
      (∀ pr' ∈ job'.procs, pr'.reaped = false → ∃ pr ∈ job.procs, pr.reaped = false ∧
        pr.pid = pr'.pid) → Adds (Signals v id) log log' →
      Adds (Signals v id) log ((signalEffects job' sig).reverse ++ log') := by
    intro job job' sig log log' hlive hprocs hadds
    refine hadds.append fun e he => ?_
    obtain ⟨pr', hpr', ⟨hopen, -⟩, rfl⟩ := mem_signalEffects.mp (List.mem_reverse.mp he)
    exact Or.inr ⟨job, hlive, hprocs pr' hpr' hopen⟩
  have hfinished : ∀ {job : LiveJob} {c c' : Controller} {log log₁ log' : Log},
      Adds (Signals v id) log log₁ → Finish o id job c log₁ c' log' →
      Adds (Signals v id) log log' :=
    fun hadds hfinish => hadds.finished hfinish (fun _ _ => ⟨trivial, trivial⟩) trivial
      (fun _ => trivial) fun _ _ _ _ => trivial
  cases h with
  | started => exact Or.inl (.refl _)
  | recoverFail _ _ _ hkills hsave =>
    refine Or.inl (((Adds.refl _).append fun e he => ?_).trans (hsaved hsave))
    obtain ⟨_, _, rfl⟩ := hkills e he
    trivial
  | cancelLate _ _ _ _ hsave => exact Or.inl (hsaved hsave)
  | reject _ _ _ _ _ hsave => exact Or.inl (hsaved hsave)
  | enter _ _ _ _ _ _ hsave => exact Or.inl ((hsaved hsave).cons trivial)
  | launchFail _ _ _ hsave _ => exact Or.inl ((hsaved hsave).cons trivial)
  | @launchSpawnFail c log log₁ log₂ log' _ n job m m' procs _ _ _ _ _ t hstart hfork hsave =>
    have hforked : Adds (Signals ⟨c, log⟩ id) log log₂ :=
      (hsaved hstart).forked (fun _ _ _ => trivial) hfork
    have hfree : ∀ pr ∈ procs, pr.pid ∉ log.unreaped := by
      intro pr hpr hmem
      obtain ⟨l, hl, hr, hlpid⟩ := mem_unreaped.mp hmem
      refine hfork.pids_free pr hpr (mem_unreaped.mpr ⟨l, ?_, ?_, hlpid⟩)
      · cases hstart <;> exact hl
      · cases hstart <;> simpa [Log.Reaped] using hr
    have hkilled : Adds (Signals ⟨c, log⟩ id) log (killedLog procs log₂) :=
      hforked.killedOf (fun pr hpr => Or.inl (hfree pr hpr)) (fun _ _ => trivial) fun _ => trivial
    exact Or.inl ((hkilled.trans (hsaved hsave)).cons trivial)
  | launch _ _ _ hstart hfork hrun =>
    exact Or.inl (((hsaved hstart).forked (fun _ _ _ => trivial) hfork).trans (hsaved hrun))
  | cancelNothing => exact Or.inl ((Adds.refl _).cons trivial)
  | cancelRecord _ _ _ hsave => exact Or.inl ((hsaved hsave).cons trivial)
  | @cancelQueued c log log' _ job t _ _ hsave =>
    have hremoved : Adds (Signals ⟨c, log⟩ id) log (.removed id :: log') :=
      (hsaved hsave).cons trivial
    exact Or.inl (hremoved.cons trivial)
  | cancelRunning => exact Or.inl ((Adds.refl _).cons trivial)
  | stop hlive =>
    exact Or.inl (hsignals hlive (fun pr hpr hopen => ⟨pr, hpr, hopen, rfl⟩)
      ((Adds.refl _).cons trivial))
  | stopAgain => exact Or.inl ((Adds.refl _).cons trivial)
  | escalate hlive =>
    exact Or.inl (hsignals hlive (fun pr hpr hopen => ⟨pr, hpr, hopen, rfl⟩) (.refl _))
  | shutdown => exact Or.inl (.refl _)
  | reapUnknown => exact Or.inl ((Adds.refl _).cons trivial)
  | reapSome => exact Or.inl ((Adds.refl _).cons trivial)
  | @reapBad c log l status _ now job _ _ hlive =>
    have hreap : Adds (Signals ⟨c, log⟩ id) log (.reap l.child :: log) :=
      (Adds.refl log).cons trivial
    refine Or.inl (hsignals hlive (fun pr' hpr' hopen => ?_) (hreap.cons trivial))
    obtain ⟨pr, hpr, rfl⟩ := List.mem_map.mp hpr'
    have hpid : pr.pid ≠ l.pid := by
      intro heq
      rw [if_pos heq] at hopen
      cases hopen
    rw [if_neg hpid] at hopen ⊢
    exact ⟨pr, hpr, hopen, rfl⟩
  | @reapLast c c' log log' l status _ job _ _ _ _ _ _ hfinish =>
    have hreap : Adds (Signals ⟨c, log⟩ id) log (.reap l.child :: log) :=
      (Adds.refl log).cons trivial
    exact Or.inl (hfinished hreap hfinish)
  | @reapLastBad c c' log log' l status _ now job _ _ _ _ _ _ _ hfinish =>
    have hreap : Adds (Signals ⟨c, log⟩ id) log (.reap l.child :: log) :=
      (Adds.refl log).cons trivial
    have hstop : Adds (Signals ⟨c, log⟩ id) log (.stop id "failed" :: .reap l.child :: log) :=
      hreap.cons trivial
    exact Or.inl (hfinished hstop hfinish)
  | workerExit => exact Or.inl ((Adds.refl _).cons trivial)
  | workerOutput => exact Or.inl ((Adds.refl _).cons trivial)
  | @memberSpawned c log l _ hlaunch hopen => exact Or.inr ⟨l, hlaunch, hopen, rfl, rfl⟩
  | memberGone => exact Or.inl ((Adds.refl _).cons trivial)
  | workerRegion _ _ hf =>
    refine Or.inl ((Adds.refl _).cons ?_)
    rcases hf with ⟨_, -, rfl, -⟩ | ⟨rfl, -⟩ <;> trivial
  | record => exact Or.inl ((Adds.refl _).cons trivial)

/-! ## What the groups of the live jobs have been sent -/

/-- SIGTERM has been sent to the worker, or its group, since it was forked. -/
def Log.Termed (log : Log) (pr : ProcRef) : Prop :=
  ∃ past, Effect.kill pr.pid sigterm pr.grouped :: past <:+ log ∧
    ∃ l ∈ Log.launches past, l.child = pr.child

/-- What the group of a worker has been sent. -/
structure Hunts (log : Log) (job : LiveJob) (pr : ProcRef) : Prop where
  killed : log.groupKilled (·.isForkOf pr.child) pr.pid = (job.killEscalated && pr.grouped)
  termed : job.stopReason ≠ "" → log.Termed pr

theorem Log.Termed.mono {pr : ProcRef} (h : log.Termed pr) (hsuf : log <:+ log') : log'.Termed pr := by
  obtain ⟨past, hkill, hlaunch⟩ := h
  exact ⟨past, hkill.trans hsuf, hlaunch⟩

/-- Without SIGKILL for its group, nothing changes. -/
theorem Hunts.keep {job job' : LiveJob} {pr : ProcRef} (h : Hunts log job pr) {es : List Effect}
    (hall : History.All ChildOk (es ++ log)) (hl : ∃ l ∈ log.launches, l.child = pr.child)
    (hes : ∀ e ∈ es, e.hits pr.pid = false) (hkill : job'.killEscalated = job.killEscalated)
    (hstop : job'.stopReason = job.stopReason) : Hunts (es ++ log) job' pr where
  killed := by
    obtain ⟨l, hl, hchild⟩ := hl
    have hnone : es.any (Effect.hits pr.pid) = false := by
      rw [List.any_eq_false]
      exact fun e he => by simp [hes e he]
    rw [← hchild, groupKilled_grown hall hl, hnone, Bool.false_or, hchild, h.killed, hkill]
  termed := fun hne => (h.termed (hstop ▸ hne)).mono (List.suffix_append es log)

/-- The worker of a process of a live job. -/
theorem Crew.worker {v : View} (hv : Crew v) {id : ℕ} {job : LiveJob}
    (hlive : v.ctl.live.lookup id = some job) {pr : ProcRef} (hpr : pr ∈ job.procs) :
    ∃ l ∈ v.log.forks, l.child = pr.child ∧ l.pid = pr.pid ∧ l.id = id ∧
      (pr.reaped = true → v.log.Reaped pr.child) ∧
      ∀ pr' ∈ job.procs, pr'.pid = pr.pid → pr' = pr := by
  have hstate : job.jobMeta.state ≠ "queued" := by
    intro hqueued
    rw [(hv.repr.waiting _ job hlive hqueued).procs] at hpr
    cases hpr
  obtain ⟨call, ws, hst⟩ := hv.staffed hlive hstate
  obtain ⟨l, hl, hchild, hpid⟩ := hst.launch_of_proc hpr
  obtain ⟨hfork, hid, -⟩ := hst.belongs l hl
  refine ⟨l, hfork, hchild, hpid, hid, fun hr => (hst.done pr hpr hr).1, fun pr' hpr' heq => ?_⟩
  have hnodup := hst.pids
  rw [← hst.pids_eq] at hnodup
  exact List.inj_on_of_nodup_map hnodup hpr' hpr heq

/-- What has been sent to the groups of the live jobs. -/
structure Hunted (v : View) : Prop where
  escalated : ∀ id job, v.ctl.live.lookup id = some job → job.killEscalated = true →
    job.stopReason ≠ ""
  groups : ∀ id job, v.ctl.live.lookup id = some job → ∀ pr ∈ job.procs,
    ¬ v.log.Reaped pr.child → Hunts v.log job pr
  members : History.All MemberOk v.log

/-- A step about another job leaves the group alone. -/
theorem Hunted.others {id id₀ : ℕ} {v v' : View} (hv : Crew v) (ha : Attributed v) (hh : Hunted v)
    (h : Step o g id₀ v v') (hne : id ≠ id₀) {job : LiveJob}
    (hlive : v.ctl.live.lookup id = some job) {pr : ProcRef} (hpr : pr ∈ job.procs)
    (hr : ¬ v'.log.Reaped pr.child) : Hunts v'.log job pr := by
  have hall := h.children hv.children
  obtain ⟨l, hl, hchild, hpid, hid, -⟩ := hv.worker hlive hpr
  have hrv : ¬ v.log.Reaped pr.child := fun hno => hr (h.grows.suffix.subset hno)
  have hhunts := hh.groups id job hlive pr hpr hrv
  have hlaunch : ∃ l ∈ v.log.launches, l.child = pr.child := ⟨l, Log.forks_subset hl, hchild⟩
  rcases h.signals with ⟨es, hlog, hes⟩ | ⟨l', -, -, -, hlog⟩
  · rw [hlog] at hall ⊢
    refine hhunts.keep hall hlaunch (fun e he => ?_) rfl rfl
    have hsig := hes e he
    cases e with
    | kill p sig group =>
      have hp : p ≠ pr.pid := by
        rintro rfl
        rcases hsig with hfree | ⟨job₀, hlive₀, pr₀, hpr₀, hopen, hpid₀⟩
        · exact hfree (mem_unreaped.mpr ⟨l, hl, hchild ▸ hrv, hpid⟩)
        · obtain ⟨l₀, hl₀, hchild₀, hlpid₀, hid₀, -⟩ := hv.worker hlive₀ hpr₀
          have hr₀ : ¬ v.log.Reaped l₀.child := by
            intro hno
            cases hopen.symm.trans (ha.marked id₀ job₀ hlive₀ pr₀ hpr₀ (hchild₀ ▸ hno))
          have hsame := unreaped_unique hv.children hl hl₀ (hchild ▸ hrv) hr₀
            (hlpid₀.trans (hpid₀.trans hpid.symm))
          exact hne (hid.symm.trans (hsame ▸ hid₀))
      simp [Effect.hits, hp]
    | _ => rfl
  · rw [hlog] at hall ⊢
    have hadds : History.All ChildOk ([.spawned l'.child v.log.length] ++ v.log) := hall
    exact hhunts.keep hadds hlaunch (by simp [Effect.hits]) rfl rfl

/-- The processes of a new launch have been sent nothing. -/
theorem Forked.unkilled {id call i : ℕ} {m : Meta} {ranges : List ByteRange}
    {procs : List ProcRef} (h : Forked id call m i ranges log procs log') :
    ∀ pr ∈ procs, log'.groupKilled (·.isForkOf pr.child) pr.pid = false := by
  induction h with
  | nil => simp
  | @cons i range ranges log log' pid start grouped procs _ _ hrest ih =>
    intro pr hpr
    rcases List.mem_cons.mp hpr with rfl | hpr
    · obtain ⟨es, rfl, hes⟩ := (Adds.refl _).forked (P := fun e => ∃ l, e = .fork l)
        (fun l _ _ => ⟨l, rfl⟩) hrest
      refine groupKilled_missed (fun e he => ?_) ?_
      · obtain ⟨l, rfl⟩ := hes e he
        rfl
      · rw [groupKilled_cons]
        simp [Effect.isForkOf]
    · exact ih pr hpr

/-- A signal for a job reaches the workers that have not been reaped. -/
theorem mem_signals {job : LiveJob} {pr : ProcRef} (hpr : pr ∈ job.procs) (hopen : pr.reaped = false)
    (hpos : 0 < pr.pid) (sig : ℕ) :
    Effect.kill pr.pid sig pr.grouped ∈ (signalEffects job sig).reverse :=
  List.mem_reverse.mpr (mem_signalEffects.mpr ⟨pr, hpr, ⟨hopen, hpos.ne'⟩, rfl⟩)

theorem termed_of_mem {es : List Effect} {pr : ProcRef}
    (hmem : Effect.kill pr.pid sigterm pr.grouped ∈ es)
    (hl : ∃ l ∈ log.launches, l.child = pr.child) : Log.Termed (es ++ log) pr := by
  obtain ⟨newer, older, rfl⟩ := List.append_of_mem hmem
  obtain ⟨l, hl, hchild⟩ := hl
  exact ⟨older ++ log, ⟨newer, by simp⟩, l, Log.mem_launches_suffix (List.suffix_append older log) hl,
    hchild⟩

/-- No group gets SIGKILL. -/
def Unhit (e : Effect) : Prop := ∀ pid, e.hits pid = false

/-- SIGTERM is not SIGKILL. -/
theorem Adds.terminated {log₁ : Log} (h : Adds Unhit log log₁) (job : LiveJob) :
    Adds Unhit log ((signalEffects job sigterm).reverse ++ log₁) := by
  refine h.append fun e he pid => ?_
  obtain ⟨pr, -, -, rfl⟩ := mem_signalEffects.mp (List.mem_reverse.mp he)
  simp [Effect.hits, sigterm, sigkill]

theorem groupKilled_unhit (h : Adds Unhit log log') (hall : History.All ChildOk log') {child : ℕ}
    (hl : ∃ l ∈ log.launches, l.child = child) (pid : ℕ) :
    Log.groupKilled (·.isForkOf child) pid log' = Log.groupKilled (·.isForkOf child) pid log := by
  obtain ⟨es, rfl, hes⟩ := h
  obtain ⟨l, hl, rfl⟩ := hl
  have hnone : es.any (Effect.hits pid) = false := by
    rw [List.any_eq_false]
    exact fun e he => by simp [hes e he pid]
  rw [groupKilled_grown hall hl, hnone, Bool.false_or]

/-- **A step keeps the account of the job that it is about.** -/
theorem Hunted.subject {id : ℕ} {v v' : View} (hv : Crew v) (hh : Hunted v) (h : Step o g id v v')
    {job' : LiveJob} (hlive' : v'.ctl.live.lookup id = some job') :
    (job'.killEscalated = true → job'.stopReason ≠ "") ∧
      ∀ pr ∈ job'.procs, ¬ v'.log.Reaped pr.child → Hunts v'.log job' pr := by
  have hall := h.children hv.children
  have hsuf := h.grows.suffix
  have hworker : ∀ {job : LiveJob}, v.ctl.live.lookup id = some job → ∀ pr ∈ job.procs,
      0 < pr.pid ∧ ∃ l ∈ v.log.launches, l.child = pr.child := by
    intro job hlive pr hpr
    obtain ⟨l, hl, hchild, hpid, -⟩ := hv.worker hlive hpr
    have hlaunch := Log.forks_subset hl
    exact ⟨hpid ▸ launch_pos hv.children hlaunch, l, hlaunch, hchild⟩
  have hunmarked : ∀ {job : LiveJob}, v.ctl.live.lookup id = some job → ∀ pr ∈ job.procs,
      ¬ v'.log.Reaped pr.child → pr.reaped = false ∧ ¬ v.log.Reaped pr.child := by
    intro job hlive pr hpr hr
    have hrv : ¬ v.log.Reaped pr.child := fun hno => hr (hsuf.subset hno)
    obtain ⟨-, -, -, -, -, hmark, -⟩ := hv.worker hlive hpr
    exact ⟨Bool.eq_false_of_not_eq_true fun hno => hrv (hmark hno), hrv⟩
  -- without SIGKILL, for the same processes
  have hsame : ∀ {job : LiveJob}, v.ctl.live.lookup id = some job →
      job'.killEscalated = job.killEscalated → job'.stopReason = job.stopReason →
      (∀ pr' ∈ job'.procs, ∃ pr ∈ job.procs, pr'.child = pr.child ∧ pr'.pid = pr.pid ∧
        pr'.grouped = pr.grouped) →
      Adds Unhit v.log v'.log →
      (job'.killEscalated = true → job'.stopReason ≠ "") ∧
        ∀ pr ∈ job'.procs, ¬ v'.log.Reaped pr.child → Hunts v'.log job' pr := by
    intro job hlive hkill hstop hprocs ⟨es, hlog, hes⟩
    refine ⟨fun hesc => ?_, fun pr' hpr' hr => ?_⟩
    · rw [hstop]
      exact hh.escalated id job hlive (hkill ▸ hesc)
    · obtain ⟨pr, hpr, hchild, hpid, hgrouped⟩ := hprocs pr' hpr'
      have hrv : ¬ v.log.Reaped pr.child := fun hno => hr (hchild ▸ hsuf.subset hno)
      rw [hlog] at hall ⊢
      have hkeep : Hunts (es ++ v.log) job' pr := (hh.groups id job hlive pr hpr hrv).keep hall
        (hworker hlive pr hpr).2 (fun e he => hes e he _) hkill hstop
      refine ⟨?_, fun hne => ?_⟩
      · rw [hchild, hpid, hgrouped]
        exact hkeep.killed
      · have htermed := hkeep.termed hne
        unfold Log.Termed at htermed ⊢
        rwa [hchild, hpid, hgrouped]
  have hrefl : ∀ {job : LiveJob}, ∀ pr' ∈ job.procs, ∃ pr ∈ job.procs, pr'.child = pr.child ∧
      pr'.pid = pr.pid ∧ pr'.grouped = pr.grouped := fun pr' hpr' => ⟨pr', hpr', rfl, rfl, rfl⟩
  have hmarked : ∀ {job : LiveJob} {pid : ℕ} {status : WaitStatus},
      ∀ pr' ∈ (reapedJob job pid status).procs, ∃ pr ∈ job.procs, pr'.child = pr.child ∧
        pr'.pid = pr.pid ∧ pr'.grouped = pr.grouped := by
    intro job pid status pr' hpr'
    obtain ⟨pr, hpr, rfl⟩ := List.mem_map.mp hpr'
    refine ⟨pr, hpr, ?_⟩
    split_ifs <;> exact ⟨rfl, rfl, rfl⟩
  have hsaved : ∀ {m : Meta} {log log' : Log}, Saved o log id m log' → Adds Unhit log log' :=
    fun hsave => Adds.saved (.refl _) (fun _ => rfl) (fun _ => rfl) hsave
  have hone : ∀ {e : Effect}, Unhit e → Adds Unhit v.log (e :: v.log) :=
    fun he => (Adds.refl _).cons he
  cases h with
  | started => exact hsame hlive' rfl rfl hrefl (.refl _)
  | recoverFail hlive => cases hlive.symm.trans hlive'
  | cancelLate _ _ _ _ hsave => exact hsame hlive' rfl rfl hrefl (hsaved hsave)
  | reject _ hlive => cases hlive.symm.trans hlive'
  | enter =>
    cases (AList.lookup_insert _).symm.trans hlive'
    exact ⟨fun hno => (by cases hno), fun pr hpr => (by cases hpr)⟩
  | launchFail _ _ _ _ hctl =>
    rcases hctl with rfl | rfl <;> cases (AList.lookup_erase id _).symm.trans hlive'
  | launchSpawnFail => cases (AList.lookup_erase id _).symm.trans hlive'
  | @launch c log log₁ log₂ log' _ call job m procs deadlineId t hjob bytes t' _ _ hstart hfork
      hrun =>
    cases (AList.lookup_insert _).symm.trans hlive'
    have hidle : job.stopReason = "" := ((hv.jobs id job hjob.live).waiting hjob.queued).1
    have hcalm : job.killEscalated = false := by
      by_contra hesc
      exact hh.escalated id job hjob.live (by simpa using hesc) hidle
    obtain ⟨es, hlog, hes⟩ := hsaved hrun
    refine ⟨fun hesc => absurd hesc ?_, fun pr hpr _ => ⟨?_, fun hno => absurd hidle hno⟩⟩
    · simp [launchedJob, hcalm]
    · dsimp only
      rw [hlog]
      show _ = (job.killEscalated && pr.grouped)
      rw [hcalm, Bool.false_and]
      exact groupKilled_missed (fun e he => hes e he _) (hfork.unkilled pr hpr)
  | cancelNothing hlive => cases hlive.symm.trans hlive'
  | cancelRecord hlive => cases hlive.symm.trans hlive'
  | cancelQueued => cases (AList.lookup_erase id _).symm.trans hlive'
  | cancelRunning => exact hsame hlive' rfl rfl hrefl (hone fun _ => rfl)
  | @stop c log _ now job reason hlive _ hreason _ =>
    cases (AList.lookup_insert _).symm.trans hlive'
    have hstop : Adds Unhit log (.stop id reason :: log) := hone fun _ => rfl
    refine ⟨fun _ => hreason, fun pr hpr hr => ?_⟩
    obtain ⟨hpos, hlaunch⟩ := hworker hlive pr hpr
    obtain ⟨hopen, hrv⟩ := hunmarked hlive pr hpr hr
    refine ⟨?_, fun _ => termed_of_mem (mem_signals hpr hopen hpos sigterm) hlaunch⟩
    exact (groupKilled_unhit (hstop.terminated job) hall hlaunch pr.pid).trans
      (hh.groups id job hlive pr hpr hrv).killed
  | stopAgain => exact hsame hlive' rfl rfl hrefl (hone fun _ => rfl)
  | @escalate c log _ job hlive hstopped =>
    cases (AList.lookup_insert _).symm.trans hlive'
    refine ⟨fun _ => hstopped, fun pr hpr hr => ?_⟩
    obtain ⟨hpos, l, hl, hchild⟩ := hworker hlive pr hpr
    obtain ⟨hopen, hrv⟩ := hunmarked hlive pr hpr hr
    have hhunts := hh.groups id job hlive pr hpr hrv
    refine ⟨?_, fun hne => (hhunts.termed hne).mono (List.suffix_append _ log)⟩
    show _ = (true && pr.grouped)
    rw [← hchild, groupKilled_grown hall hl, hchild, hhunts.killed, Bool.true_and]
    cases hgrouped : pr.grouped with
    | true =>
      have hmem := mem_signals hpr hopen hpos sigkill
      have hany : (signalEffects job sigkill).reverse.any (Effect.hits pr.pid) = true :=
        List.any_eq_true.mpr ⟨_, hmem, by simp [Effect.hits, hgrouped]⟩
      rw [hany, Bool.true_or]
    | false =>
      -- no other worker has the pid
      obtain ⟨-, -, -, -, -, -, hunique⟩ := hv.worker hlive hpr
      have hnone : (signalEffects job sigkill).reverse.any (Effect.hits pr.pid) = false := by
        rw [List.any_eq_false]
        intro e he
        obtain ⟨pr', hpr', -, rfl⟩ := mem_signalEffects.mp (List.mem_reverse.mp he)
        by_cases hpid : pr'.pid = pr.pid
        · rw [hunique pr' hpr' hpid]
          simp [Effect.hits, hgrouped]
        · simp [Effect.hits, hpid]
      rw [hnone, Bool.and_false, Bool.or_false]
  | shutdown => exact hsame hlive' rfl rfl hrefl (.refl _)
  | reapUnknown => exact hsame hlive' rfl rfl hrefl (hone fun _ => rfl)
  | reapSome _ _ hlive =>
    cases (AList.lookup_insert _).symm.trans hlive'
    exact hsame hlive rfl rfl hmarked (hone fun _ => rfl)
  | @reapBad c log l status _ now job hzombie howner hlive =>
    cases (AList.lookup_insert _).symm.trans hlive'
    have hreap : Adds Unhit log (.reap l.child :: log) := hone fun _ => rfl
    have hstop : Adds Unhit log (.stop id "failed" :: .reap l.child :: log) := hreap.cons fun _ => rfl
    refine ⟨fun _ => by simp [stoppedJob], fun pr' hpr' hr => ?_⟩
    obtain ⟨pr, hpr, rfl⟩ := List.mem_map.mp hpr'
    have hpid : pr.pid ≠ l.pid := by
      -- the process with this pid is the one that is reaped
      intro heq
      obtain ⟨call, ws, hst, hmem⟩ := hv.worker_of_owner hzombie howner hlive
      obtain ⟨pr₀, hpr₀, hchild₀, hpid₀⟩ := hst.proc_of_launch hmem
      obtain ⟨-, -, -, -, -, -, hunique⟩ := hv.worker hlive hpr
      cases hunique pr₀ hpr₀ (hpid₀.trans heq.symm)
      rw [if_pos heq] at hr
      exact hr (hchild₀ ▸ List.mem_append_right _ (List.mem_cons_of_mem _ List.mem_cons_self))
    rw [if_neg hpid] at hpr' hr ⊢
    obtain ⟨hpos, hlaunch⟩ := hworker hlive pr hpr
    obtain ⟨hopen, hrv⟩ := hunmarked hlive pr hpr hr
    refine ⟨?_, fun _ => termed_of_mem (mem_signals hpr' hopen hpos sigterm) hlaunch⟩
    exact (groupKilled_unhit (hstop.terminated _) hall hlaunch pr.pid).trans
      (hh.groups id job hlive pr hpr hrv).killed
  | reapLast _ _ _ _ _ _ hfinish =>
    rw [hfinish.ctl] at hlive'
    cases (AList.lookup_erase id _).symm.trans hlive'
  | reapLastBad _ _ _ _ _ _ _ hfinish =>
    rw [hfinish.ctl] at hlive'
    cases (AList.lookup_erase id _).symm.trans hlive'
  | workerExit => exact hsame hlive' rfl rfl hrefl (hone fun _ => rfl)
  | workerOutput => exact hsame hlive' rfl rfl hrefl (hone fun _ => rfl)
  | memberSpawned => exact hsame hlive' rfl rfl hrefl (hone fun _ => rfl)
  | memberGone => exact hsame hlive' rfl rfl hrefl (hone fun _ => rfl)
  | @workerRegion c log l e f _ _ hf =>
    have hunhit : Unhit e := by
      rcases hf with ⟨_, -, rfl, -⟩ | ⟨rfl, -⟩ <;> exact fun _ => rfl
    dsimp only at hlive'
    split at hlive'
    · exact hsame hlive' rfl rfl hrefl (hone hunhit)
    · next job hlive =>
      split_ifs at hlive'
      · cases (AList.lookup_insert _).symm.trans hlive'
        exact hsame hlive rfl rfl hrefl (hone hunhit)
      · exact hsame hlive' rfl rfl hrefl (hone hunhit)
  | record => exact hsame hlive' rfl rfl hrefl (hone fun _ => rfl)

/-- **Every step keeps the account.** -/
theorem Hunted.step {id₀ : ℕ} {v v' : View} (hv : Crew v) (ha : Attributed v) (hh : Hunted v)
    (h : Step o g id₀ v v') : Hunted v' := by
  refine ⟨fun id job hlive => ?_, fun id job hlive pr hpr hr => ?_, ?_⟩
  · by_cases hid : id = id₀
    · subst hid
      exact (hh.subject hv h hlive).1
    · exact hh.escalated id job ((h.concerns.2 id hid).symm.trans hlive)
  · by_cases hid : id = id₀
    · subst hid
      exact (hh.subject hv h hlive).2 pr hpr hr
    · exact hh.others hv ha h hid ((h.concerns.2 id hid).symm.trans hlive) hpr hr
  · rcases h.signals with ⟨es, hlog, hes⟩ | ⟨l, hl, hopen, -, hlog⟩
    · rw [hlog]
      refine History.all_append (fun e he past _ => ?_) hh.members
      have hsig := hes e he
      cases e <;> first | exact hsig.elim | trivial
    · rw [hlog]
      exact ⟨⟨rfl, l, hl, rfl, hopen⟩, hh.members⟩

theorem Hunted.crash {v : View} (hv : Hunted v) (hsuf : log <:+ v.log) (slots : ℕ) :
    Hunted ⟨{ slotsMax := slots }, .died :: log⟩ :=
  ⟨by simp, by simp, trivial, hv.members.suffix hsuf⟩

/-! ## Finalized jobs -/

/-- What is known of the worker of an exec job when the job is finalized. -/
structure Left (log : Log) (state : String) (job : LiveJob) (l : Launch) (pr : ProcRef) : Prop where
  procs : job.procs = [pr]
  child : pr.child = l.child
  pid : pr.pid = l.pid
  reaped : log.Reaped l.child
  killed : log.groupKilled (·.isForkOf l.child) l.pid = (job.killEscalated && pr.grouped)
  escalated : job.killEscalated = true → job.stopReason ≠ ""
  termed : state = "timed_out" ∨ state = "cancelled" → log.Termed pr

/-- The history of the exec jobs that are finalized. -/
def GroupOk : Effect → Log → Prop
  | .finalized _ state job _ _, log => job.jobMeta.op = "exec" →
    ∃ l ∈ log.launches, ∃ pr, Left log state job l pr
  | _, _ => True

/-- A job that ends as timed out or cancelled was stopped, and not for a bad exit. -/
theorem settle_stopped {reason : String} {m : Meta} {result : Except String String}
    (h : (settle reason m result).2 = "timed_out" ∨ (settle reason m result).2 = "cancelled") :
    reason ≠ "" ∧ reason ≠ "failed" := by
  cases result with
  | ok body =>
    have hstate : (settle reason m (.ok body)).2 = "completed" := rfl
    rw [hstate] at h
    exact absurd h (by decide)
  | error why =>
    constructor
    · rintro rfl
      revert h
      simp [settle]
    · rintro rfl
      revert h
      simp [settle]

/-- The worker of an exec job whose exit is about to be returned. -/
theorem Hunted.solo {id : ℕ} {v : View} (hv : Crew v) (hh : Hunted v) {l : Launch}
    {status : WaitStatus} {job : LiveJob} (hzombie : Zombie g v.ctl v.log l status)
    (howner : v.ctl.pidOwner l.pid = some id) (hlive : v.ctl.live.lookup id = some job)
    (hop : job.jobMeta.op = "exec") : ∃ pr, job.procs = [pr] ∧ pr.child = l.child ∧ pr.pid = l.pid ∧
      Hunts v.log job pr := by
  obtain ⟨call, ws, hst, hmem⟩ := hv.worker_of_owner hzombie howner hlive
  obtain ⟨pr, hpr⟩ := hst.solo hop
  obtain ⟨pr', hpr', hchild, hpid⟩ := hst.proc_of_launch hmem
  rw [hpr, List.mem_singleton] at hpr'
  subst hpr'
  refine ⟨pr', hpr, hchild, hpid, hh.groups id job hlive pr' (by rw [hpr]; exact List.mem_cons_self) ?_⟩
  rw [hchild]
  exact hzombie.unreaped

/-- What is left when the worker of an exec job has been reaped. -/
theorem LastReap.left {id : ℕ} {v : View} {job : LiveJob} (hv : Crew v) (hh : Hunted v)
    (h : LastReap g id v job log) (hall : History.All ChildOk log) (hop : job.jobMeta.op = "exec")
    {state : String} (hstate : state = "timed_out" ∨ state = "cancelled" →
      job.stopReason ≠ "" ∧ job.stopReason ≠ "failed") :
    ∃ l ∈ log.launches, ∃ pr, Left log state job l pr := by
  cases h with
  | @reaped l status job hzombie howner hlive =>
    obtain ⟨pr, hprocs, hchild, hpid, hhunts⟩ := hh.solo hv hzombie howner hlive hop
    have hl : ∃ l' ∈ v.log.launches, l'.child = l.child := ⟨l, Log.forks_subset hzombie.forked, rfl⟩
    have hadds : Adds Unhit v.log (.reap l.child :: v.log) := (Adds.refl _).cons fun _ => rfl
    refine ⟨l, Log.forks_subset hzombie.forked,
      { pr with reaped := true, how := describeWait status }, ?_, hchild, hpid, List.mem_cons_self,
      ?_, hh.escalated id job hlive, fun hstopped => ?_⟩
    · show markReaped l.pid status job.procs = _
      rw [hprocs]
      simp [markReaped, hpid]
    · rw [groupKilled_unhit hadds hall hl, ← hchild, ← hpid]
      exact hhunts.killed
    · exact (hhunts.termed (hstate hstopped).1).mono (List.suffix_cons _ _)
  | @stopped l status job now hzombie howner hlive hfirst =>
    obtain ⟨pr, hprocs, hchild, hpid, hhunts⟩ := hh.solo hv hzombie howner hlive hop
    have hl : ∃ l' ∈ v.log.launches, l'.child = l.child := ⟨l, Log.forks_subset hzombie.forked, rfl⟩
    have hreap : Adds Unhit v.log (.reap l.child :: v.log) := (Adds.refl _).cons fun _ => rfl
    have hadds : Adds Unhit v.log (.stop id "failed" :: .reap l.child :: v.log) :=
      hreap.cons fun _ => rfl
    refine ⟨l, Log.forks_subset hzombie.forked,
      { pr with reaped := true, how := describeWait status }, ?_, hchild, hpid,
      List.mem_cons_of_mem _ List.mem_cons_self, ?_, fun _ => by simp [stoppedJob],
      fun hstopped => absurd rfl (hstate hstopped).2⟩
    · show markReaped l.pid status job.procs = _
      rw [hprocs]
      simp [markReaped, hpid]
    · rw [groupKilled_unhit hadds hall hl, ← hchild, ← hpid]
      exact hhunts.killed

/-- What is left stays when the record is written. -/
theorem Left.keep {state : String} {job : LiveJob} {l : Launch} {pr : ProcRef}
    (h : Left log state job l pr) (hl : l ∈ log.launches) (hadds : Adds Unhit log log')
    (hall : History.All ChildOk log') : Left log' state job l pr :=
  ⟨h.procs, h.child, h.pid, hadds.suffix.subset h.reaped,
    (groupKilled_unhit hadds hall ⟨l, hl, rfl⟩ l.pid).trans h.killed, h.escalated,
    fun hstate => (h.termed hstate).mono hadds.suffix⟩

theorem Adds.groups (h : Adds Unjudging log log') (hall : History.All GroupOk log) :
    History.All GroupOk log' := by
  obtain ⟨new, rfl, hnew⟩ := h
  refine History.all_append (fun e he past _ => ?_) hall
  have hok := hnew e he
  cases e <;> first | exact hok.elim | trivial

theorem Unfinished.unjudging {e : Effect} (h : Unfinished e) : Unjudging e := by
  cases e <;> first | exact h.elim | trivial

/-- Finishing a job whose last worker has been reaped. -/
theorem LastReap.groups {id : ℕ} {v v' : View} {job : LiveJob} (hv : Crew v) (hh : Hunted v)
    (h : LastReap g id v job log) (hfinish : Finish o id job v.ctl log v'.ctl v'.log)
    (hall : History.All ChildOk v'.log) (hgroups : History.All GroupOk v.log) :
    History.All GroupOk v'.log := by
  obtain ⟨c, log'⟩ := v'
  obtain @⟨t, m, state, write, log₁, log₂, inspect, hinspect, hpersist, hsave⟩ := hfinish
  have hstopped : state = "timed_out" ∨ state = "cancelled" →
      job.stopReason ≠ "" ∧ job.stopReason ≠ "failed" := by
    have hsettled := @settle_stopped job.stopReason (judgedJob job t).jobMeta
      (resultsOk (judgedJob job t) inspect)
    dsimp only at hpersist
    generalize resultsOk (judgedJob job t)
      inspect = result at hpersist hsettled
    cases hpersist with
    | unwritten =>
      intro hstate
      rcases hstate with hno | hno <;> exact absurd hno (by decide)
    | _ => exact hsettled
  have hpast : History.All GroupOk log₂ := by
    have hjudging := h.adds.imp fun _ => Unfinished.unjudging
    exact ((hjudging.trans hpersist.unjudging).trans
      ((Adds.refl log₁).saved trivial trivial hsave)).groups hgroups
  have hunhit : Adds Unhit log log₂ :=
    ((Adds.refl log).persisted (fun _ _ => ⟨fun _ => rfl, fun _ => rfl⟩) (fun _ _ => rfl)
      hpersist).saved (fun _ => rfl) (fun _ => rfl) hsave
  have hall₂ : History.All ChildOk log₂ := hall.2.2
  refine ⟨trivial, fun hop => ?_, hpast⟩
  obtain ⟨l, hl, pr, hleft⟩ := h.left hv hh (hall₂.suffix hunhit.suffix) hop hstopped
  obtain ⟨hprocs, hchild, hpid, hreaped, hkilled, hescalated, htermed⟩ := hleft.keep hl hunhit hall₂
  exact ⟨l, Log.mem_launches_suffix hunhit.suffix hl, pr, hprocs, hchild, hpid, hreaped, hkilled,
    hescalated, htermed⟩

/-! ## Main results -/

/-- **What is left of the groups**, in every run that spares the pids of its workers. -/
theorem run_groups {slots : ℕ} {es : List Event}
    (hallow : Machine.Along (World.step o) (fun w e => Guard.sparing.Allows w e.input)
      (World.start slots) es) :
    let v := (Machine.run (World.step o) (World.start slots) es).view
    History.All ChildOk v.log ∧ History.All MemberOk v.log ∧ History.All GroupOk v.log := by
  have hrun := run_view (P := fun v => (Crew v ∧ Attributed v) ∧ Hunted v ∧ History.All GroupOk v.log)
    (fun slots => ⟨⟨@Crew.fresh [] trivial trivial rfl slots, ⟨by simp [Log.forks], by simp⟩⟩,
      ⟨by simp, by simp, trivial⟩, trivial⟩)
    (fun _ _ _ ⟨⟨hv, ha⟩, hh, hall⟩ h => ?_) (fun v log slots ⟨⟨hv, ha⟩, hh, hall⟩ hsuf => ?_) hallow
  · exact ⟨hrun.1.1.children, hrun.2.1.members, hrun.2.2⟩
  · refine ⟨⟨hv.step h, ha.step hv h⟩, hh.step hv ha h, ?_⟩
    rcases h.ends with hadds | ⟨job, log₁, hlast, -, hfinish⟩
    · exact (hadds.imp fun _ => Unfinished.unjudging).groups hall
    · exact hlast.groups hv hh hfinish (h.children hv.children) hall
  · exact ⟨⟨hv.crash hsuf slots, ⟨by simp [Log.forks], by simp⟩⟩, hh.crash hsuf slots, trivial,
      hall.suffix hsuf⟩

/-- **A group outlives its job unless the controller had time to escalate.** When an
    exec job is finalized, its worker has been reaped and, if the job is recorded as
    timed out or cancelled, the group had been sent SIGTERM. What is left of the group
    has been sent SIGKILL if and only if nothing is left, or the job is one that is
    signalled by its group and `on_tick` came before the worker was reaped; it does so
    for stopped jobs only. -/
theorem group_outlives (o : Oracle) (slots : ℕ) (es : List Event)
    (hspares : Machine.Along (World.step o) (fun w e => w.sparesOwners e.input = true)
      (World.start slots) es) :
    let log := (Machine.run (World.step o) (World.start slots) es).log
    ∀ id state job inspect write past, Effect.finalized id state job inspect write :: past <:+ log →
      job.jobMeta.op = "exec" →
      ∃ l ∈ Log.launches past, ∃ pr, (job.procs = [pr] ∧ pr.child = l.child ∧ pr.pid = l.pid) ∧
        Log.Reaped past l.child ∧
        (state = "timed_out" ∨ state = "cancelled" → Log.Termed past pr) ∧
        (job.killEscalated = true → job.stopReason ≠ "") ∧
        ((∀ d ∈ Log.members past l.child, Log.groupKilled (·.isSpawnOf d) l.pid past = true) ↔
          Log.members past l.child = [] ∨ (job.killEscalated = true ∧ pr.grouped = true)) := by
  intro log id state job inspect write past hsuf hop
  have hallow : Machine.Along (World.step o) (fun w e => Guard.sparing.Allows w e.input)
      (World.start slots) es :=
    Machine.along_of (fun _ _ => trivial) hspares fun _ _ (_ : True) h => sparing_allows h
  obtain ⟨hchildren, hmembers, hgroups⟩ := run_groups hallow
  have hpast : past <:+ log := (List.suffix_cons _ past).trans hsuf
  obtain ⟨l, hl, pr, hleft⟩ := hgroups.at hsuf hop
  refine ⟨l, hl, pr, ⟨hleft.procs, hleft.child, hleft.pid⟩, hleft.reaped, hleft.termed,
    hleft.escalated, ?_⟩
  have hkilled : ∀ d ∈ Log.members past l.child,
      Log.groupKilled (·.isSpawnOf d) l.pid past = (job.killEscalated && pr.grouped) := fun d hd =>
    (members_killed (hchildren.suffix hpast) (hmembers.suffix hpast) hl hd).trans hleft.killed
  constructor
  · intro hall
    by_cases hnone : Log.members past l.child = []
    · exact Or.inl hnone
    · obtain ⟨d, hd⟩ := List.exists_mem_of_ne_nil _ hnone
      have hboth := (hkilled d hd).symm.trans (hall d hd)
      exact Or.inr (by simpa using hboth)
  · rintro (hnone | ⟨hesc, hgrouped⟩) d hd
    · rw [hnone] at hd
      cases hd
    · rw [hkilled d hd, hesc, hgrouped]
      rfl

/-- Job 1 is cancelled while its program has started another process. -/
theorem group_outlives_cancel :
    let log := (Machine.run (World.step (.smooth fun _ _ => 7)) (World.start 1)
      [.handled (.record 1 (execMeta 1)), .handled .recover, .handled (.spawn 4),
       .handled (.line "CANCEL 1".toList), .handled (.exit 4 (.killed sigterm)),
       .handled (.reap 4)]).log
    ∀ id state job inspect write past, Effect.finalized id state job inspect write :: past <:+ log →
      job.jobMeta.op = "exec" →
      ∃ l ∈ Log.launches past, ∃ pr, (job.procs = [pr] ∧ pr.child = l.child ∧ pr.pid = l.pid) ∧
        Log.Reaped past l.child ∧
        (state = "timed_out" ∨ state = "cancelled" → Log.Termed past pr) ∧
        (job.killEscalated = true → job.stopReason ≠ "") ∧
        ((∀ d ∈ Log.members past l.child, Log.groupKilled (·.isSpawnOf d) l.pid past = true) ↔
          Log.members past l.child = [] ∨ (job.killEscalated = true ∧ pr.grouped = true)) :=
  group_outlives _ 1 _ (by decide +kernel)

/-- The worker ends when it gets SIGTERM, and the other process is left. -/
example :
    let log := (Machine.run (World.step (.smooth fun _ _ => 7)) (World.start 1)
      [.handled (.record 1 (execMeta 1)), .handled .recover, .handled (.spawn 4),
       .handled (.line "CANCEL 1".toList), .handled (.exit 4 (.killed sigterm)),
       .handled (.reap 4)]).log
    (log.disk 1).map (·.state) = some "cancelled" ∧ log.members 4 = [6] ∧
      log.groupKilled (·.isSpawnOf 6) 7 = false := by
  decide +kernel

end Forge
