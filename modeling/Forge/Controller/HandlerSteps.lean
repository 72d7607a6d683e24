import Forge.Controller.Steps

/-!
# The handlers are sequences of steps

One lemma for each handler, in the order of controller.cpp.
-/

namespace Forge

open World

variable {o : Oracle} {g : Guard}

/-! ## Launching -/

theorem giveUp_eq (id : ℕ) (m : Meta) (w : World) :
    (giveUp o id m w).ctl = { w.ctl with live := w.ctl.live.erase id } ∧
      ∃ log', (giveUp o id m w).log = .removed id :: log' ∧
        Saved o w.log id (m.setState "failed") log' :=
  ⟨by rw [giveUp, World.eraseJob, saveMeta_ctl], _, rfl, saveMeta_saved id _ w⟩

/-- A launch that has forked nothing gives the job up. -/
theorem giveUp_step {id : ℕ} {job : LiveJob} {m : Meta} {w w' : World}
    (h : Launchable w.ctl id job) (hid : m.id = job.jobMeta.id)
    (hctl : w'.ctl = (w.dequeue id).ctl) (hlog : w'.log = w.log) :
    Step o g id w.view (giveUp o id m w').view := by
  obtain ⟨hgive, log', hremoved, hsave⟩ := giveUp_eq (o := o) id m w'
  rw [hctl] at hgive
  rw [hlog] at hsave
  rw [World.view, World.view, hgive, hremoved]
  exact .launchFail (m := m.setState "failed") h hid rfl hsave (Or.inr rfl)

/-- A launch from the fork loop on either launches the job or gives it up. -/
theorem spawnJob_step {id call bytes : ℕ} {job : LiveJob} {w w' : World}
    (h : Launchable w.ctl id job)
    (hinspect : job.jobMeta.op ≠ "exec" → (o.launch call).inspect = .ok (true, bytes))
    (hctl : w'.ctl = (w.dequeue id).ctl) (hlog : w'.log = w.log) :
    Step o g id w.view
      (spawnJob o id call { job with jobMeta := job.jobMeta.setBytes bytes } w').view := by
  unfold spawnJob setState
  dsimp only
  generalize hm : (job.jobMeta.setBytes bytes).setState "starting" = m
  have hstart := saveMeta_saved (o := o) id m w'
  have hctl₁ := saveMeta_ctl (o := o) id m w'
  generalize (saveMeta o id m w').2 = w₁ at hstart hctl₁ ⊢
  generalize hm₁ : m.setStarted (o.realtimeMs w₁.calls) = m₁
  have hm₀ : m = m₁.setStarted m.startedMs := by rw [← hm₁]; rfl
  rw [hlog, hm₀] at hstart
  rw [hctl] at hctl₁
  rcases hloop : forkLoop id w'.log.length m₁ (o.launch call).fork 0 (launchRanges m₁) w₁.ask
    with ⟨procs, err, w₂⟩
  rw [hlog] at hloop
  obtain ⟨hctl₂, hall, hfail, n, hsome⟩ := forkLoop_forked hloop
  have hctl₂ : w₂.ctl = (w.dequeue id).ctl := hctl₂.trans hctl₁
  cases err with
  | some err =>
    dsimp only
    generalize hm₂ : (m₁.setError err).setFinished (o.realtimeMs w₂.calls) = m₂
    obtain ⟨hgive, log', hremoved, hsave⟩ := giveUp_eq (o := o) id m₂ (killSpawned procs w₂).ask
    have hkilled := killSpawned_view procs w₂
    have hkctl : (killSpawned procs w₂).ask.ctl = (w.dequeue id).ctl :=
      (congrArg View.ctl hkilled).trans hctl₂
    have hklog : (killSpawned procs w₂).ask.log = killedLog procs w₂.log := congrArg View.log hkilled
    rw [hkctl] at hgive
    rw [hklog] at hsave
    rw [World.view, World.view, hgive, hremoved]
    apply Step.launchSpawnFail h _ _ _ _ hstart hsome hsave
    · exact ⟨bytes, _, by rw [← hm₁, ← hm]⟩
    · exact ⟨call, hfail (Option.some_ne_none err)⟩
    · rw [← hm₁, ← hm]; rfl
    · rw [← hm₁, ← hm]; rfl
    · rw [← hm₂, ← hm₁, ← hm]; rfl
    · rfl
  | none =>
    dsimp only
    generalize hdead : (if m₁.deadlineS > 0 then (o.launch call).timer else job.deadlineId) = dead
    have hrun := saveMeta_saved (o := o) id ((m₁.setProcs (formatProcs procs)).setState "running")
      (w₂.setCtl { w₂.ctl with
        pidOwner := fun pid => if pid ∈ procs.map (·.pid) then some id else w₂.ctl.pidOwner pid
        slotsUsed := w₂.ctl.slotsUsed + 1 })
    rw [World.view, World.view, World.putJob, saveMeta_ctl]
    simp only [World.setCtl, hctl₂] at hrun ⊢
    have hmeta : m₁ = ((job.jobMeta.setBytes bytes).setState "starting").setStarted
        (o.realtimeMs w₁.calls) := by rw [← hm₁, ← hm]
    have hinspect₁ : m₁.op ≠ "exec" → (o.launch call).inspect = .ok (true, m₁.bytes) := by
      rw [hmeta]
      exact hinspect
    exact @Step.launch o g w.ctl w.log w₁.log w₂.log _ id call job m₁ procs dead _ h bytes _ hmeta
      hinspect₁ hstart (hall rfl) hrun

theorem prepareJob_step {id call bytes : ℕ} {job : LiveJob} {w w' : World}
    (h : Launchable w.ctl id job)
    (hinspect : job.jobMeta.op ≠ "exec" → (o.launch call).inspect = .ok (true, bytes))
    (hctl : w'.ctl = (w.dequeue id).ctl) (hlog : w'.log = w.log) :
    Step o g id w.view
      (prepareJob o id call { job with jobMeta := job.jobMeta.setBytes bytes } w').view := by
  unfold prepareJob
  dsimp only
  split
  · exact giveUp_step h rfl hctl hlog
  · split_ifs
    · exact spawnJob_step h hinspect hctl hlog
    · split
      · exact giveUp_step h rfl hctl hlog
      · exact giveUp_step h rfl hctl hlog
      · exact spawnJob_step h hinspect hctl hlog

/-- `launch_job` is one step, for a job just taken off the queue. -/
theorem launchJob_step {id : ℕ} {job : LiveJob} {w : World} (h : Launchable w.ctl id job) :
    Step o g id w.view (launchJob o id (w.dequeue id)).view := by
  have hlive : (w.dequeue id).ctl.live.lookup id = some job := h.live
  unfold launchJob
  simp only [hlive]
  split_ifs with hexec
  · exact @prepareJob_step o g id _ job.jobMeta.bytes job w _ h (fun hne => absurd hexec hne) rfl rfl
  · split
    · next size hinspect => exact prepareJob_step h (fun _ => hinspect) rfl rfl
    · next answer _ =>
      generalize hm : (job.jobMeta.setError (inputError _)).setFinished _ = m
      have hsave := saveMeta_saved (o := o) id (m.setState "failed") (w.dequeue id).ask.ask
      rw [World.view, World.view, World.eraseJob, World.setCtl, saveMeta_ctl]
      exact .launchFail (m := m.setState "failed") h (by rw [← hm]; rfl) rfl hsave (Or.inl rfl)

/-! ## Scheduling -/

/-- What a launch of `id` leaves alone. -/
structure KeepsOthers (id : ℕ) (c c' : Controller) : Prop where
  shuttingDown : c'.shuttingDown = c.shuttingDown
  lookup : ∀ other, other ≠ id → c'.live.lookup other = c.live.lookup other

theorem KeepsOthers.of_eq {id : ℕ} {c c₀ c' : Controller} (h : KeepsOthers id c₀ c')
    (hc : c₀ = c) : KeepsOthers id c c' := hc ▸ h

theorem giveUp_keeps (id : ℕ) (m : Meta) (w : World) :
    KeepsOthers id w.ctl (giveUp o id m w).ctl := by
  rw [(giveUp_eq id m w).1]
  exact ⟨rfl, fun _ hne => AList.lookup_erase_ne hne⟩

theorem spawnJob_keeps (id call : ℕ) (job : LiveJob) (w : World) :
    KeepsOthers id w.ctl (spawnJob o id call job w).ctl := by
  unfold spawnJob setState
  dsimp only
  generalize job.jobMeta.setState "starting" = m
  have hctl₁ := saveMeta_ctl (o := o) id m w
  generalize (saveMeta o id m w).2 = w₁ at hctl₁ ⊢
  split
  · next procs err w₂ hloop =>
    have hctl₂ : w₂.ctl = w₁.ctl := (forkLoop_forked hloop).1
    have hkilled := congrArg View.ctl (killSpawned_view procs w₂)
    exact (giveUp_keeps id _ _).of_eq (hkilled.trans (hctl₂.trans hctl₁))
  · next procs w₂ hloop =>
    have hctl₂ : w₂.ctl = w₁.ctl := (forkLoop_forked hloop).1
    rw [World.putJob, saveMeta_ctl, ← hctl₁, ← hctl₂]
    exact ⟨rfl, fun _ hne => AList.lookup_insert_ne hne⟩

theorem prepareJob_keeps (id call : ℕ) (job : LiveJob) (w : World) :
    KeepsOthers id w.ctl (prepareJob o id call job w).ctl := by
  unfold prepareJob
  dsimp only
  repeat' split
  all_goals first
    | exact giveUp_keeps _ _ _
    | exact spawnJob_keeps _ _ _ _

theorem launchJob_keeps (id : ℕ) (w : World) : KeepsOthers id w.ctl (launchJob o id w).ctl := by
  unfold launchJob
  split
  · exact ⟨rfl, fun _ _ => rfl⟩
  · dsimp only
    split_ifs
    · exact prepareJob_keeps _ _ _ w.ask
    · split
      · exact prepareJob_keeps _ _ _ w.ask
      · rw [World.eraseJob, World.setCtl, saveMeta_ctl]
        exact ⟨rfl, fun _ hne => AList.lookup_erase_ne hne⟩

theorem scheduleLoop_steps {n : ℕ} {w : World} (hup : w.ctl.shuttingDown = false) :
    Steps o g w.view (scheduleLoop o n w).view := by
  induction n generalizing w with
  | zero => exact .refl
  | succ n ih =>
    rw [scheduleLoop]
    split_ifs with hroom
    · split
      · exact .refl
      · next id hpick =>
        obtain ⟨hmem, job, hlive, hqueued⟩ := pickNext_mem hpick
        have hstep := launchJob_step (o := o) (g := g) ⟨hup, hroom, hmem, hlive, hqueued⟩
        exact (Steps.one hstep).trans (ih ((launchJob_keeps id (w.dequeue id)).shuttingDown.trans hup))
    · exact .refl

/-- Scheduling makes no job live, and does not shut the controller down. -/
theorem scheduleLoop_keeps {n : ℕ} {w : World} :
    (scheduleLoop o n w).ctl.shuttingDown = w.ctl.shuttingDown ∧
      ∀ other, w.ctl.live.lookup other = none →
        (scheduleLoop o n w).ctl.live.lookup other = none := by
  induction n generalizing w with
  | zero => exact ⟨rfl, fun _ hnone => hnone⟩
  | succ n ih =>
    rw [scheduleLoop]
    split_ifs
    · split
      · exact ⟨rfl, fun _ hnone => hnone⟩
      · next id hpick =>
        obtain ⟨-, job, hlive, -⟩ := pickNext_mem hpick
        have hkeeps := launchJob_keeps (o := o) id (w.dequeue id)
        refine ⟨ih.1.trans hkeeps.shuttingDown, fun other hnone => ih.2 other ?_⟩
        have hne : other ≠ id := by
          rintro rfl
          cases hnone.symm.trans hlive
        exact (hkeeps.lookup other hne).trans hnone
    · exact ⟨rfl, fun _ hnone => hnone⟩

theorem schedule_steps (w : World) : Steps o g w.view (schedule o w).view := by
  unfold schedule
  split_ifs with hdown
  · exact .refl
  · exact scheduleLoop_steps (by simpa using hdown)

/-! ## Control lines -/

theorem enqueue_steps {id : ℕ} {w : World} (hlate : w.ctl.shuttingDown = true → g.late w.ctl id)
    (hphase : w.ctl.running = true ∨ ∀ m, w.log.disk id = some m → ¬ m.InProgress) :
    Steps o g w.view (enqueue o id w).view := by
  unfold enqueue
  dsimp only
  split_ifs with hdown hlive
  · split
    · exact .refl
    · next m hload =>
      have hdisk := disk_of_loadMeta hload
      split_ifs with hterm
      · exact .refl
      · have hsave := saveMeta_saved (o := o) id (((m.setState "cancelled").setError
          "controller is shutting down").setFinished (o.realtimeMs w.ask.calls)) w.ask.ask
        refine @Steps.one o g _ _ id ?_
        rw [World.view, World.view, saveMeta_ctl]
        exact .cancelLate hdown (hlate hdown) hdisk (by simpa using hterm) hsave
  · exact .refl
  · have hup : w.ctl.shuttingDown = false := by simpa using hdown
    have hnone : w.ctl.live.lookup id = none := by simpa using hlive
    split
    · exact .refl
    · next m hload =>
      have hdisk := disk_of_loadMeta hload
      split_ifs with hterm
      · exact .refl
      · have hopen : isTerminalState m.state = false := by simpa using hterm
        split
        · next err hinvalid =>
          have hsave := saveMeta_saved (o := o) id (((m.setState "failed").setError err).setFinished
            (o.realtimeMs w.ask.calls)) w.ask.ask
          refine @Steps.one o g _ _ id ?_
          rw [World.view, World.view, saveMeta_ctl]
          exact .reject hup hnone hdisk hopen hinvalid hsave
        · next hvalid =>
          refine .trans (@Steps.one o g _ _ id ?_) (schedule_steps _)
          have hsave := saveMeta_saved (o := o) id (m.setState "queued") w.ask
          simp only [World.view, World.setCtl, World.push, saveMeta_ctl]
          exact .enter hup hnone hdisk hopen hvalid (hphase.imp_right fun h => h m hdisk) hsave

/-- Enqueueing makes no other job live, and does not shut the controller down. -/
theorem enqueue_keeps (id : ℕ) (w : World) :
    (enqueue o id w).ctl.shuttingDown = w.ctl.shuttingDown ∧
      ∀ other, other ≠ id → w.ctl.live.lookup other = none →
        (enqueue o id w).ctl.live.lookup other = none := by
  have hsame : ∀ w' : World, w'.ctl = w.ctl → w'.ctl.shuttingDown = w.ctl.shuttingDown ∧
      ∀ other, other ≠ id → w.ctl.live.lookup other = none → w'.ctl.live.lookup other = none := by
    intro w' hctl
    rw [hctl]
    exact ⟨rfl, fun _ _ hnone => hnone⟩
  unfold enqueue
  dsimp only
  split_ifs
  · split
    · exact hsame _ rfl
    · split_ifs
      · exact hsame _ rfl
      · exact hsame _ (saveMeta_ctl _ _ _)
  · exact hsame _ rfl
  · split
    · exact hsame _ rfl
    · split_ifs
      · exact hsame _ rfl
      · split
        · exact hsame _ (saveMeta_ctl _ _ _)
        · next m _ _ _ =>
          rw [saveMeta_ctl]
          have hins : ∀ job other, other ≠ id → w.ctl.live.lookup other = none →
              (w.ctl.live.insert id job).lookup other = none :=
            fun _ _ hne hnone => (AList.lookup_insert_ne hne).trans hnone
          unfold schedule
          split_ifs
          · exact ⟨rfl, hins _⟩
          · refine ⟨scheduleLoop_keeps.1, fun other hne hnone => ?_⟩
            exact scheduleLoop_keeps.2 other (hins _ other hne hnone)

theorem requestStop_steps {id : ℕ} {job : LiveJob} {reason : String} {w : World}
    (hlive : w.ctl.live.lookup id = some job) (hrunning : job.PastQueue) (hreason : reason ≠ "") :
    Steps o g w.view (requestStop o id job reason w).view := by
  unfold requestStop
  dsimp only
  split_ifs with hstopped
  · exact .one (.stopAgain hlive hrunning hreason hstopped)
  · exact .one (.stop hlive hrunning hreason (by simpa using hstopped))

theorem onCancel_steps (id : ℕ) (w : World) : Steps o g w.view (onCancel o id w).view := by
  unfold onCancel
  dsimp only
  split
  · next hlive =>
    split
    · next hload =>
      refine .one (.cancelNothing hlive fun hloads m hdisk => ?_)
      by_contra hopen
      have hread := hloads.cancel w.calls m (by simpa using hopen)
      cases hread.symm.trans (loadMeta_eq_none hload hdisk)
    · next m hload =>
      have hdisk := disk_of_loadMeta hload
      split_ifs with hterm
      · exact .one (.cancelNothing hlive fun _ => by simpa [World.ask, hdisk] using hterm)
      · have hsave := saveMeta_saved (o := o) id (((m.setState "cancelled").setError
          "cancelled").setFinished (o.realtimeMs w.ask.calls)) w.ask.ask
        refine @Steps.one o g _ _ id ?_
        simp only [World.view, World.push, saveMeta_ctl]
        exact .cancelRecord hlive hdisk (by simpa using hterm) hsave
  · next job hlive =>
    split_ifs with hqueued
    · have hsave := saveMeta_saved (o := o) id (((job.jobMeta.setState "cancelled").setError
        "cancelled before start").setFinished (o.realtimeMs w.calls)) w.ask
      refine @Steps.one o g _ _ id ?_
      simp only [World.view, World.push, World.eraseJob, World.dequeue, saveMeta_ctl]
      exact .cancelQueued hlive hqueued hsave
    · have hne : "cancelled" ≠ "" := by decide
      refine @Steps.snoc o g _ _ _ id (requestStop_steps hlive (Or.inl hqueued) hne) ?_
      have hstate : (requestStop o id job "cancelled" w).ctl.live.lookup id = some job ∨
          ∃ now, (requestStop o id job "cancelled" w).ctl.live.lookup id =
            some (stoppedJob job "cancelled" now) := by
        unfold requestStop
        dsimp only
        split_ifs
        · exact Or.inl hlive
        · exact Or.inr ⟨_, AList.lookup_insert _⟩
      rcases hstate with hstate | ⟨now, hstate⟩
      · exact .cancelRunning hstate hqueued
      · exact .cancelRunning hstate hqueued

theorem stopRunning_steps (id : ℕ) (w : World) : Steps o g w.view (stopRunning o w id).view := by
  unfold stopRunning
  split
  · exact .refl
  · next job hlive =>
    split_ifs with hstate
    · refine requestStop_steps hlive (Or.inl ?_) (by decide)
      rcases hstate with h | h <;> rw [h] <;> decide
    · exact .refl

/-- A loop over jobs is a sequence of steps if each turn is. -/
theorem foldl_steps {f : World → ℕ → World} (hf : ∀ w id, Steps o g w.view (f w id).view)
    (ids : List ℕ) (w : World) : Steps o g w.view (ids.foldl f w).view := by
  induction ids generalizing w with
  | nil => exact .refl
  | cons id ids ih => exact (hf w id).trans (ih _)

theorem onShutdown_steps (w : World) : Steps o g w.view (onShutdown o w).view := by
  unfold onShutdown
  dsimp only
  generalize hw₁ : w.setCtl { w.ctl with shuttingDown := true } = w₁
  have hshut : Step o g 0 w.view w₁.view := by
    rw [← hw₁]
    exact .shutdown
  have hcancel := foldl_steps (fun w id => onCancel_steps (o := o) (g := g) id w) w₁.ctl.queue w₁
  generalize w₁.ctl.queue.foldl (fun w id => onCancel o id w) w₁ = w₂ at hcancel ⊢
  exact (Steps.one hshut).trans (hcancel.trans (foldl_steps (fun w id => stopRunning_steps id w) _ w₂.ask))

theorem handleLine_steps {line : List Char} {w : World} (hrun : w.ctl.running = true)
    (hlate : w.ctl.shuttingDown = true → ∀ id, "SUBMIT ".toList.isPrefixOf line = true →
      parseU64 (line.drop 7) = some id → g.late w.ctl id) :
    Steps o g w.view (handleLine o line w).view := by
  unfold handleLine
  split_ifs with _ hsubmit
  · exact onShutdown_steps w
  · split
    · exact .refl
    · next id hid => exact enqueue_steps (fun hdown => hlate hdown id hsubmit hid) (Or.inl hrun)
  · split
    · exact .refl
    · exact onCancel_steps _ w
  · exact .refl

/-! ## Timers -/

theorem onDeadline_steps (id : ℕ) (w : World) : Steps o g w.view (onDeadline o id w).view := by
  unfold onDeadline
  split
  · exact .refl
  · next job hlive =>
    split_ifs with hdeadline
    · exact .refl
    · exact requestStop_steps hlive (Or.inr (by omega)) (by decide)

theorem escalate_steps (now id : ℕ) (w : World) : Steps o g w.view (escalate now w id).view := by
  unfold escalate
  split
  · exact .refl
  · next job hlive =>
    split_ifs with hdue
    · exact .one (.escalate hlive hdue.1)
    · exact .refl

theorem onTick_steps (w : World) : Steps o g w.view (onTick o w).view :=
  foldl_steps (fun w id => escalate_steps _ id w) _ w.ask

/-! ## Reaping -/

theorem persist_persisted {id : ℕ} {m m' : Meta} {state state' : String}
    {result : Except String String} {write : Option WriteAnswer} {w w' : World}
    (h : persist o id m state result w = (m', state', write, w')) :
    w'.ctl = w.ctl ∧ Persisted o id m state w.log result m' state' write w'.log := by
  unfold persist at h
  split at h
  · cases h
    exact ⟨rfl, .failed⟩
  · next body =>
    split_ifs at h with hbody
    · cases h
      subst hbody
      exact ⟨rfl, .silent⟩
    · have hsave := saveMeta_saved (o := o) id (m.setState "persisting") w
      have hctl := saveMeta_ctl (o := o) id (m.setState "persisting") w
      dsimp only at h
      generalize (saveMeta o id (m.setState "persisting") w).2 = w₁ at hsave hctl h
      unfold writeOutput at h
      cases hanswer : o.writeOutput w₁.calls with
      | ok =>
        rw [hanswer] at h
        cases h
        exact ⟨hctl, .written hbody hsave⟩
      | failed err visible =>
        rw [hanswer] at h
        cases visible
        · cases h
          exact ⟨hctl, .unwritten hbody hsave⟩
        · cases h
          exact ⟨hctl, .unwritten hbody hsave⟩

theorem inspectOutput_inspected (id : ℕ) (w : World) :
    Inspected o id w.log (inspectOutput o id w) := by
  unfold inspectOutput
  split
  · next err hfailed => exact .failed hfailed
  · exact .size

/-- `finalize` of a live job that is not finished. -/
theorem finalize_finish {id : ℕ} {job : LiveJob} {w : World}
    (hlive : w.ctl.live.lookup id = some job) (hopen : job.finished = false) :
    Finish o id job w.ctl w.log (finalize o id w).ctl (finalize o id w).log := by
  unfold finalize
  simp only [hlive, hopen, Bool.false_eq_true, if_false]
  rcases hp : persist o id _ _ _ w.ask with ⟨m, state, write, w₁⟩
  obtain ⟨hctl, hpersist⟩ := persist_persisted hp
  dsimp only [World.setCtl, World.push]
  rw [saveMeta_ctl, hctl]
  exact .mk (inspectOutput_inspected _ w.ask) hpersist (saveMeta_saved id _ w₁)

/-- A finished job is left as it is. -/
theorem finalize_of_finished {id : ℕ} {job : LiveJob} {w : World}
    (hlive : w.ctl.live.lookup id = some job) (hfin : job.finished = true) :
    finalize o id w = w := by
  unfold finalize
  simp only [hlive, hfin, if_true]

/-- Whether the job in `c.live` is up to date does not matter once it is over. -/
theorem finish_withJob {id : ℕ} {job : LiveJob} {c c' : Controller} {log log' : Log} :
    Finish o id job { c with live := c.live.insert id job } log c' log' ↔
      Finish o id job c log c' log' := by
  have hsame : withoutJob id job { c with live := c.live.insert id job } = withoutJob id job c := by
    unfold withoutJob releaseRuntime
    dsimp only
    rw [AList.erase_insert]
  constructor
  · rintro ⟨hinspect, hpersist, hsave⟩
    rw [hsame]
    exact ⟨hinspect, hpersist, hsave⟩
  · rintro ⟨hinspect, hpersist, hsave⟩
    rw [← hsame]
    exact ⟨hinspect, hpersist, hsave⟩

/-- With every process reaped there is nobody to signal. -/
theorem signalEffects_of_allReaped {job : LiveJob} (h : job.allReaped = true) (sig : ℕ) :
    signalEffects job sig = [] := by
  unfold signalEffects
  rw [List.filter_eq_nil_iff.mpr, List.map_nil]
  intro pr hpr
  have := List.all_eq_true.mp h pr hpr
  simp [this]

/-- A child that failed is reaped, and stops its job. -/
theorem stopLast_steps {l : Launch} {status : WaitStatus} {id : ℕ} {job : LiveJob} {w : World}
    (hzombie : Zombie g w.ctl w.log l status) (howner : w.ctl.pidOwner l.pid = some id)
    (hlive : w.ctl.live.lookup id = some job)
    (hbad : (reapedJob job l.pid status).anyBad = true) (hfirst : job.stopReason = "") :
    Steps o g w.view
      (let w' := requestStop o id (reapedJob job l.pid status) "failed"
        ((w.push (.reap l.child)).putJob id (reapedJob job l.pid status))
      if (reapedJob job l.pid status).allReaped then finalize o id w' else w').view := by
  unfold requestStop
  have hnot : ¬ (reapedJob job l.pid status).stopReason ≠ "" := by
    rw [not_not]
    exact hfirst
  simp only [if_neg hnot]
  generalize hnow : o.monoMs _ = now
  generalize hjob : stoppedJob (reapedJob job l.pid status) "failed" now = job'
  have hfin' : job'.finished = job.finished := by rw [← hjob]; rfl
  split_ifs with hall
  · have hall' : job'.allReaped = true := by rw [← hjob]; exact hall
    rw [signalJob, signalEffects_of_allReaped hall']
    generalize hw : (((((w.push (.reap l.child)).putJob id (reapedJob job l.pid status)).push
      (.stop id "failed")).ask.putJob id job')) = w'
    have hput : w'.ctl.live.lookup id = some job' := by rw [← hw]; exact AList.lookup_insert _
    have hctl : w'.ctl = { w.ctl with live := w.ctl.live.insert id job' } := by
      rw [← hw]
      simp only [World.putJob, World.ask, World.push, AList.insert_insert]
    have hlog : w'.log = .stop id "failed" :: .reap l.child :: w.log := by rw [← hw]; rfl
    show Steps o g w.view (finalize o id ⟨w'.ctl, w'.calls, w'.log⟩).view
    by_cases hfin : job.finished = true
    · rw [finalize_of_finished hput (hfin'.trans hfin), World.view, World.view, hctl, hlog]
      have hstep := @Step.reapBad o g w.ctl w.log l status id now job hzombie howner hlive
        (Or.inr hfin) hbad hfirst
      rw [hjob, signalEffects_of_allReaped hall] at hstep
      exact .one hstep
    · have hopen : job.finished = false := by simpa using hfin
      have hfinish := finalize_finish (o := o) hput (hfin'.trans hopen)
      rw [hctl, hlog, finish_withJob, ← hjob] at hfinish
      exact .one (.reapLastBad hzombie howner hlive hopen hall hbad hfirst hfinish)
  · have hstep := @Step.reapBad o g w.ctl w.log l status id now job hzombie howner hlive
      (Or.inl (by simpa using hall)) hbad hfirst
    have hsig : signalEffects job' sigterm = signalEffects (reapedJob job l.pid status) sigterm := by
      rw [← hjob]
      rfl
    rw [hjob] at hstep
    simp only [World.view, signalJob, hsig, World.putJob, World.ask, World.push, AList.insert_insert]
    exact .one hstep

theorem noteReap_steps {l : Launch} {status : WaitStatus} {w : World}
    (hzombie : Zombie g w.ctl w.log l status) :
    Steps o g w.view (noteReap o l.pid status (w.push (.reap l.child))).view := by
  unfold noteReap
  split
  · next hnone =>
    refine @Steps.one o g _ _ 0 (.reapUnknown hzombie ?_)
    intro id hid
    cases hid.symm.trans hnone
  · next id howner =>
    split
    · next hlive =>
      refine @Steps.one o g _ _ id (.reapUnknown hzombie ?_)
      intro id' hid'
      cases hid'.symm.trans howner
      exact hlive
    · next job hlive =>
      have hreason : (reapedJob job l.pid status).stopReason = job.stopReason := rfl
      have hput : ((w.push (.reap l.child)).putJob id
          (reapedJob job l.pid status)).ctl.live.lookup id = some (reapedJob job l.pid status) :=
        AList.lookup_insert _
      simp only [hreason]
      by_cases hbad : (reapedJob job l.pid status).anyBad = true ∧ job.stopReason = ""
      · simp only [if_pos hbad]
        exact stopLast_steps hzombie howner hlive hbad.1 hbad.2
      · simp only [if_neg hbad]
        have hgood : (reapedJob job l.pid status).anyBad = false ∨ job.stopReason ≠ "" := by
          by_contra hno
          push Not at hno
          exact hbad ⟨by simpa using hno.1, hno.2⟩
        split_ifs with hall
        · by_cases hfin : job.finished = true
          · rw [finalize_of_finished hput hfin]
            exact .one (.reapSome hzombie howner hlive (Or.inr hfin) hgood)
          · have hopen : job.finished = false := by simpa using hfin
            refine .one (.reapLast hzombie howner hlive hopen hall hgood ?_)
            rw [← finish_withJob]
            exact finalize_finish hput hopen
        · exact .one (.reapSome hzombie howner hlive (Or.inl (by simpa using hall)) hgood)

theorem reap_steps {child : ℕ} {w : World}
    (hreap : ∀ l ∈ w.log.forks, l.child = child → g.reap w.ctl w.log l) :
    Steps o g w.view (reap o child w).view := by
  unfold reap
  split
  · next l status hfind hstatus =>
    have hchild : l.child = child := by simpa using List.find?_some hfind
    split_ifs with hreaped
    · exact .refl
    · subst hchild
      have hmem := List.mem_of_find?_eq_some hfind
      exact noteReap_steps ⟨hmem, hstatus, hreaped, hreap l hmem rfl⟩
  · exact .refl

end Forge
