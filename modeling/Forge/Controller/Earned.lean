import Forge.Controller.Outcome

/-!
# What a completed record stands for

Only `finalize` records a job as completed, and only after it has judged the job
and put the output in place (controller.cpp:376-419). This holds at every save,
so it survives a crash right after it.

* `Step.ends`: a step writes no output and completes no record, or finishes the
  job whose last worker it reaps.
* `run_earned`: every completed record of a run was `Earned`.
-/

namespace Forge

variable {o : Oracle} {g : Guard} {log log' : Log}

/-- The effect neither judges a job, nor writes an output, nor completes a record, and the
    controller lives on. -/
def Unfinished : Effect → Prop
  | .save _ m => m.state ≠ "completed"
  | .output _ _ => False
  | .finalized _ _ _ _ _ => False
  | .died => False
  | _ => True

/-- The last worker of job `id` is reaped. What `finalize` gets to see then. -/
inductive LastReap (g : Guard) (id : ℕ) (v : View) : LiveJob → Log → Prop
  | reaped {l : Launch} {status : WaitStatus} {job : LiveJob} (hzombie : Zombie g v.ctl v.log l status)
      (howner : v.ctl.pidOwner l.pid = some id) (hlive : v.ctl.live.lookup id = some job) :
      LastReap g id v (reapedJob job l.pid status) (.reap l.child :: v.log)
  | stopped {l : Launch} {status : WaitStatus} {job : LiveJob} {now : ℕ}
      (hzombie : Zombie g v.ctl v.log l status) (howner : v.ctl.pidOwner l.pid = some id)
      (hlive : v.ctl.live.lookup id = some job) (hfirst : job.stopReason = "") :
      LastReap g id v (stoppedJob (reapedJob job l.pid status) "failed" now)
        (.stop id "failed" :: .reap l.child :: v.log)

namespace LastReap

variable {id : ℕ} {v : View} {job : LiveJob}

theorem adds (h : LastReap g id v job log) : Adds Unfinished v.log log := by
  cases h with
  | reaped => exact (Adds.refl _).cons trivial
  | @stopped l =>
    have hreap : Adds Unfinished v.log (.reap l.child :: v.log) := (Adds.refl _).cons trivial
    exact hreap.cons trivial

theorem staffed (hv : Crew v) (h : LastReap g id v job log) :
    ∃ call ws, Staffed log id job call ws := by
  cases h with
  | reaped hzombie howner hlive =>
    obtain ⟨call, ws, hst, hmem⟩ := hv.worker_of_owner hzombie howner hlive
    exact ⟨call, ws, hst.reap hmem hzombie.ended⟩
  | @stopped _ _ _ now hzombie howner hlive hfirst =>
    obtain ⟨call, ws, hst, hmem⟩ := hv.worker_of_owner hzombie howner hlive
    exact ⟨call, ws, (hst.reap hmem hzombie.ended).stop hfirst now⟩

theorem id_eq (h : LastReap g id v job log) (hids : v.ctl.LiveIds) : job.jobMeta.id = id := by
  cases h with
  | @reaped _ _ job₀ _ _ hlive => exact hids id job₀ hlive
  | @stopped _ _ job₀ _ _ _ hlive => exact hids id job₀ hlive

end LastReap

/-- **A step finishes no job**, or the one whose last worker it reaps. -/
theorem Step.ends {id : ℕ} {v v' : View} (h : Step o g id v v') :
    Adds Unfinished v.log v'.log ∨ ∃ job log₁, LastReap g id v job log₁ ∧ job.allReaped = true ∧
      Finish o id job v.ctl log₁ v'.ctl v'.log := by
  have hsaved : ∀ {i : ℕ} {m : Meta} {log log' : Log}, m.state ≠ "completed" →
      Saved o log i m log' → Adds Unfinished log log' :=
    fun hstate hsave => Adds.saved (.refl _) hstate trivial hsave
  have hforked : ∀ {call i : ℕ} {m : Meta} {ranges : List ByteRange} {procs : List ProcRef}
      {log log' : Log}, Forked id call m i ranges log procs log' → Adds Unfinished log log' :=
    fun hfork => Adds.forked (.refl _) (fun _ _ _ => trivial) hfork
  have hsignals : ∀ {job : LiveJob} {sig : ℕ} {log log' : Log}, Adds Unfinished log log' →
      Adds Unfinished log ((signalEffects job sig).reverse ++ log') :=
    fun hadds => hadds.signals (fun _ _ _ => trivial) _ _
  cases h with
  | started => exact Or.inl (.refl _)
  | recoverFail _ _ _ hkills hsave =>
    refine Or.inl (((Adds.refl _).append fun e he => ?_).trans (hsaved (by simp) hsave))
    obtain ⟨_, _, rfl⟩ := hkills e he
    trivial
  | cancelLate _ _ _ _ hsave => exact Or.inl (hsaved (by simp) hsave)
  | reject _ _ _ _ _ hsave => exact Or.inl (hsaved (by simp) hsave)
  | enter _ _ _ _ _ _ hsave => exact Or.inl ((hsaved (by simp) hsave).cons trivial)
  | launchFail _ _ hstate hsave _ =>
    exact Or.inl ((hsaved (by rw [hstate]; decide) hsave).cons trivial)
  | @launchSpawnFail c log log₁ log₂ log' _ n job m m' procs _ _ hstarting _ hstate t hstart hfork
      hsave =>
    have hstarted : Adds Unfinished log log₁ := hsaved (by
      rw [Meta.setStarted_state, hstarting]
      decide) hstart
    have hkilled : Adds Unfinished log (killedLog procs log₂) :=
      (hstarted.trans (hforked hfork)).killed (fun _ _ _ => trivial) (fun _ _ => trivial)
        (fun _ => trivial) procs
    exact Or.inl ((hkilled.trans (hsaved (by rw [hstate]; decide) hsave)).cons trivial)
  | @launch c log log₁ log₂ log' _ call job m procs deadlineId t _ bytes t' hmeta _ hstart hfork
      hrun =>
    have hstarted : Adds Unfinished log log₁ := hsaved (by
      rw [hmeta]
      simp) hstart
    exact Or.inl ((hstarted.trans (hforked hfork)).trans (hsaved (by simp) hrun))
  | cancelNothing => exact Or.inl ((Adds.refl _).cons trivial)
  | cancelRecord _ _ _ hsave => exact Or.inl ((hsaved (by simp) hsave).cons trivial)
  | @cancelQueued c log log' _ job t _ _ hsave =>
    have hremoved : Adds Unfinished log (.removed id :: log') := (hsaved (by simp) hsave).cons trivial
    exact Or.inl (hremoved.cons trivial)
  | cancelRunning => exact Or.inl ((Adds.refl _).cons trivial)
  | stop => exact Or.inl (hsignals ((Adds.refl _).cons trivial))
  | stopAgain => exact Or.inl ((Adds.refl _).cons trivial)
  | escalate => exact Or.inl (hsignals (.refl _))
  | shutdown => exact Or.inl (.refl _)
  | reapUnknown => exact Or.inl ((Adds.refl _).cons trivial)
  | reapSome => exact Or.inl ((Adds.refl _).cons trivial)
  | @reapBad c log l status =>
    have hreap : Adds Unfinished log (.reap l.child :: log) := (Adds.refl log).cons trivial
    exact Or.inl (hsignals (hreap.cons trivial))
  | reapLast hzombie howner hlive _ hdone _ hfinish =>
    exact Or.inr ⟨_, _, .reaped hzombie howner hlive, hdone, hfinish⟩
  | reapLastBad hzombie howner hlive _ hdone _ hfirst hfinish =>
    exact Or.inr ⟨_, _, .stopped hzombie howner hlive hfirst, hdone, hfinish⟩
  | workerExit => exact Or.inl ((Adds.refl _).cons trivial)
  | workerOutput => exact Or.inl ((Adds.refl _).cons trivial)
  | memberSpawned => exact Or.inl ((Adds.refl _).cons trivial)
  | memberGone => exact Or.inl ((Adds.refl _).cons trivial)
  | workerRegion _ _ hf =>
    refine Or.inl ((Adds.refl _).cons ?_)
    rcases hf with ⟨_, -, rfl, -⟩ | ⟨rfl, -⟩ <;> trivial
  | record => exact Or.inl ((Adds.refl _).cons trivial)

/-! ## Earned records -/

/-- A completed record of job `id` is earned: the job's workers have been reaped,
    `results_ok` has accepted them, and its text, if there is one, is the output. -/
structure Earned (o : Oracle) (id : ℕ) (m : Meta) (past : Log) : Prop where
  judged : ∃ (log₀ : Log) (job : LiveJob) (call : ℕ) (ws : List Launch) (t : ℤ)
    (inspect : Except String ℕ) (body : String),
    Staffed log₀ id job call ws ∧ job.allReaped = true ∧
    Inspected o job.jobMeta.id log₀ inspect ∧ resultsOk (judgedJob job t) inspect = .ok body ∧
    m.op = job.jobMeta.op ∧ m.bytes = job.jobMeta.bytes ∧ launchRanges m = launchRanges job.jobMeta ∧
    ((body = "" ∧ past = log₀) ∨ (body ≠ "" ∧ ∃ m' log₁, m'.state = "persisting" ∧
      Saved o log₀ id m' log₁ ∧ past = .output id (textBytes body) :: log₁))

variable {ids : Prop}

/-- Completed records are earned, and the controller writes no output of a copy. With
    `ids`, jobs carry their ids. -/
def EndOk (o : Oracle) (ids : Prop) : Effect → Log → Prop
  | .save id m, past => m.state = "completed" → Earned o id m past
  | .output id _, past => ∃ l ∈ past.launches, l.id = id ∧ l.jobMeta.op ≠ "copy"
  | .finalized id _ job _ _, _ => ids → job.jobMeta.id = id
  | _, _ => True

theorem Adds.ends (h : Adds Unfinished log log') (hall : History.All (EndOk o ids) log) :
    History.All (EndOk o ids) log' := by
  obtain ⟨new, rfl, hnew⟩ := h
  refine History.all_append (fun e he past _ => ?_) hall
  have hok := hnew e he
  cases e with
  | save id m => exact fun hstate => absurd hstate hok
  | output => exact hok.elim
  | finalized => exact hok.elim
  | _ => trivial

/-- What the record keeps when `finalize` names the final state. -/
theorem settle_kept (reason : String) (m : Meta) (result : Except String String) :
    (settle reason m result).1.op = m.op ∧ (settle reason m result).1.bytes = m.bytes ∧
      launchRanges (settle reason m result).1 = launchRanges m ∧
      ∀ why, result = .error why → (settle reason m result).2 ≠ "completed" := by
  cases result with
  | error why => exact ⟨rfl, rfl, rfl, fun _ _ => stoppedState_ne reason⟩
  | ok body => exact ⟨rfl, rfl, rfl, fun why h => (by cases h)⟩

/-- A job that is finished gets a record that is earned, if it is completed. -/
theorem Finish.ends {id call : ℕ} {job : LiveJob} {ws : List Launch} {c c' : Controller}
    (h : Finish o id job c log c' log') (hst : Staffed log id job call ws)
    (hreaped : job.allReaped = true) (hjob : ids → job.jobMeta.id = id)
    (hall : History.All (EndOk o ids) log) :
    History.All (EndOk o ids) log' := by
  obtain @⟨t, m, state, write, log₁, log₂, inspect, hinspect, hpersist, hsave⟩ := h
  have hsaved : ∀ {m' : Meta} {log log' : Log}, m'.state ≠ "completed" → Saved o log id m' log' →
      History.All (EndOk o ids) log → History.All (EndOk o ids) log' :=
    fun hstate hsave => Adds.ends ((Adds.refl _).saved hstate trivial hsave)
  have hlast : ∀ {m' : Meta} {log log' : Log}, Earned o id m' log → Saved o log id m' log' →
      History.All (EndOk o ids) log → History.All (EndOk o ids) log' := by
    intro m' log log' hearned hsave hall
    cases hsave with
    | written => exact ⟨fun _ => hearned, hall⟩
    | lost => exact ⟨trivial, hall⟩
  dsimp only at hpersist
  generalize hresult : resultsOk (judgedJob job t) inspect = result at hpersist
  obtain ⟨hop, hbytes, hranges, herror⟩ :=
    settle_kept job.stopReason (judgedJob job t).jobMeta result
  generalize settle job.stopReason (judgedJob job t).jobMeta result = settled at *
  -- only a job that is no copy has a text, and it has a worker
  have hout : ∀ {body : String} {log' : Log}, result = .ok body → body ≠ "" →
      Saved o log id (settled.1.setState "persisting") log' →
      History.All (EndOk o ids) (.output id (textBytes body) :: log') := by
    intro body log' hok hbody hpersisting
    have hpos : 0 < ws.length := by
      rw [hst.length_eq]
      exact List.length_pos_iff.mpr (launchRanges_ne_nil _)
    have hmem := List.getElem_mem hpos
    have hgrown : log <:+ log' :=
      ((Adds.refl log).saved (P := fun _ => True) trivial trivial hpersisting).suffix
    refine ⟨⟨ws[0], Log.mem_launches_suffix hgrown (Log.forks_subset (hst.belongs _ hmem).1),
      (hst.belongs _ hmem).2.1, fun hcopy => ?_⟩, hsaved (by simp) hpersisting hall⟩
    rw [hst.op_eq hmem] at hcopy
    exact hbody ((resultsOk_text (hresult.trans hok)).mpr (Or.inr hcopy))
  refine ⟨trivial, hjob, ?_⟩
  cases hpersist with
  | failed => exact hsaved (herror _ rfl) hsave hall
  | silent =>
    have hearned : Earned o id (settled.1.setState settled.2) log :=
      ⟨log, job, call, ws, t, inspect, "", hst, hreaped, hinspect, hresult, hop, hbytes, hranges,
        Or.inl ⟨rfl, rfl⟩⟩
    exact hlast hearned hsave hall
  | @written body log' hbody hpersisting =>
    have hearned : Earned o id ((settled.1.setState "persisting").setState settled.2)
        (.output id (textBytes body) :: log') :=
      ⟨log, job, call, ws, t, inspect, body, hst, hreaped, hinspect, hresult, hop, hbytes, hranges,
        Or.inr ⟨hbody, _, _, rfl, hpersisting, rfl⟩⟩
    exact hlast hearned hsave (hout rfl hbody hpersisting)
  | @unwritten body err visible log' hbody hpersisting =>
    refine hsaved (by simp) hsave ?_
    split
    · exact hout rfl hbody hpersisting
    · exact hsaved (by simp) hpersisting hall

/-- **Every completed record of a run was earned.** -/
theorem run_earned {slots : ℕ} {es : List Event}
    (hallow : Machine.Along (World.step o) (fun w e => g.Allows w e.input) (World.start slots) es) :
    History.All (EndOk o (∀ id m, g.record id m → m.id = id))
      (Machine.run (World.step o) (World.start slots) es).log := by
  refine (run_view (g := g) (P := fun v => Crew v ∧
    ((∀ id m, g.record id m → m.id = id) → Ordered v) ∧
    History.All (EndOk o (∀ id m, g.record id m → m.id = id)) v.log)
    (fun slots => ⟨@Crew.fresh [] trivial trivial rfl slots, fun _ => ⟨by simp [Log.IdsMatch],
      by simp [Controller.LiveIds]⟩, trivial⟩)
    (fun _ v v' hv h => ?_) (fun _ _ slots hv hsuf => ?_) hallow).2.2
  · refine ⟨hv.1.step h, fun hg => h.ordered hg (hv.2.1 hg), ?_⟩
    rcases h.ends with hadds | ⟨job, log₁, hlast, hreaped, hfinish⟩
    · exact hadds.ends hv.2.2
    · obtain ⟨call, ws, hst⟩ := hlast.staffed hv.1
      exact hfinish.ends hst hreaped (fun hg => hlast.id_eq (hv.2.1 hg).live) (hlast.adds.ends hv.2.2)
  · refine ⟨hv.1.crash hsuf slots, fun hg => ⟨fun id m hmem => ?_, by simp [Controller.LiveIds]⟩,
      trivial, hv.2.2.suffix hsuf⟩
    rcases List.mem_cons.mp hmem with hmem | hmem
    · cases hmem
    · exact (hv.2.1 hg).ids id m (hsuf.subset hmem)

end Forge
