import Forge.Controller.HandlerSteps

/-!
# What the handlers add to the log

The controller writes records and outputs, forks, signals and reaps. It does not
do what only its workers do: store a slot, count itself as published, publish a
copy, end by itself, or start a process.

* `handle_handles`: handling an input that is none of a worker's adds effects of
  the controller only, and stops a job for one of four reasons.
-/

namespace Forge

open World

variable {o : Oracle} {log log' : Log}

/-- The effect is one that a handler may have. A child's end is among them where a
    failed launch kills it. -/
def Effect.ByController : Effect → Prop
  | .record _ _ => False
  | .copied _ _ _ => False
  | .slot _ _ => False
  | .bump _ => False
  | .exit _ status => status = .killed sigkill
  | .spawned _ _ => False
  | .gone _ => False
  | .died => False
  | _ => True

/-- The handler has added effects of the controller only. -/
abbrev Controls (w w' : World) : Prop := Adds Effect.ByController w.log w'.log

/-- The effect is one that a handler may have that calls `request_stop` for the jobs
    and the reasons in `stops` only, and kills leftover processes in `kills` only. -/
def Effect.ByHandler (stops : ℕ → String → Prop) (kills : ℕ → Prop) : Effect → Prop
  | .record _ _ => False
  | .copied _ _ _ => False
  | .slot _ _ => False
  | .bump _ => False
  | .exit _ status => status = .killed sigkill
  | .spawned _ _ => False
  | .gone _ => False
  | .died => False
  | .stop id reason => stops id reason
  | .leftover pid _ => kills pid
  | _ => True

theorem Effect.ByHandler.byController {stops : ℕ → String → Prop} {kills : ℕ → Prop} {e : Effect}
    (h : e.ByHandler stops kills) : e.ByController := by
  cases e <;> first | exact h | trivial

/-- The handler has added effects of a handler that stops these jobs only, and kills these
    leftover processes. -/
abbrev Handles (stops : ℕ → String → Prop) (kills : ℕ → Prop) (w w' : World) : Prop :=
  Adds (Effect.ByHandler stops kills) w.log w'.log

variable {stops : ℕ → String → Prop} {kills : ℕ → Prop}

theorem handles_signals (job : LiveJob) (sig : ℕ) (w : World) :
    Handles stops kills w (signalJob job sig w) := (Adds.refl w.log).signals (fun _ _ _ => trivial) job sig

theorem saveMeta_handles (id : ℕ) (m : Meta) (w : World) : Handles stops kills w (saveMeta o id m w).2 :=
  (Adds.refl w.log).saved trivial trivial (saveMeta_saved id m w)

/-! ## Finishing jobs -/

theorem requestStop_handles {id : ℕ} {reason : String} (h : stops id reason) (job : LiveJob)
    (w : World) : Handles stops kills w (requestStop o id job reason w) := by
  have hstop : Handles stops kills w (w.push (.stop id reason)) := (Adds.refl w.log).cons h
  unfold requestStop
  dsimp only
  split_ifs
  · exact hstop
  · exact hstop.signals (fun _ _ _ => trivial) _ _

theorem writeOutput_handles (id : ℕ) (body : Bytes) (w : World) :
    Handles stops kills w (writeOutput o id body w).2 := by
  unfold writeOutput
  split
  · exact .refl _
  · exact (Adds.refl w.log).cons trivial

theorem persist_handles (id : ℕ) (m : Meta) (state : String) (result : Except String String)
    (w : World) : Handles stops kills w (persist o id m state result w).2.2.2 := by
  unfold persist
  split
  · exact .refl _
  · next body =>
    split_ifs
    · exact .refl _
    · have hsave : Handles stops kills w (saveMeta o id (m.setState "persisting") w).2 :=
        saveMeta_handles id _ w
      have hwrite := @writeOutput_handles o stops kills id (textBytes body)
        (saveMeta o id (m.setState "persisting") w).2
      dsimp only
      split
      · next heq =>
        rw [heq] at hwrite
        exact hsave.trans hwrite
      · next heq =>
        rw [heq] at hwrite
        exact hsave.trans hwrite

theorem finalize_handles (id : ℕ) (w : World) : Handles stops kills w (finalize o id w) := by
  unfold finalize
  split
  · exact .refl _
  · next job _ =>
    split_ifs
    · exact .refl _
    · dsimp only
      generalize hresult : resultsOk (judgedJob job (o.realtimeMs w.calls))
        (inspectOutput o (judgedJob job (o.realtimeMs w.calls)).jobMeta.id w.ask) = result
      rcases hsettle : settle job.stopReason (judgedJob job (o.realtimeMs w.calls)).jobMeta result
        with ⟨m, state⟩
      have hpersist := @persist_handles o stops kills id m state result w.ask
      rcases hp : persist o id m state result w.ask with ⟨m', state', write, w'⟩
      rw [hp] at hpersist
      have hsave := @saveMeta_handles o stops kills id (m'.setState state') w'
      have hadds : Handles stops kills w (saveMeta o id (m'.setState state') w').2 :=
        Adds.trans hpersist hsave
      exact (hadds.cons (e := .finalized _ _ _ _ _) trivial).cons (e := .removed id) trivial

theorem noteReap_handles {pid : ℕ} {status : WaitStatus} {w : World}
    (h : ∀ id job, w.ctl.pidOwner pid = some id → w.ctl.live.lookup id = some job →
      (reapedJob job pid status).anyBad = true → stops id "failed") :
    Handles stops kills w (noteReap o pid status w) := by
  unfold noteReap
  split
  · exact .refl _
  · next id howner =>
    split
    · exact .refl _
    · next job hlive =>
      dsimp only
      generalize hw₁ : (if (reapedJob job pid status).anyBad ∧
          (reapedJob job pid status).stopReason = "" then
        requestStop o id (reapedJob job pid status) "failed" (w.putJob id (reapedJob job pid status))
        else w.putJob id (reapedJob job pid status)) = w₁
      have hstop : Handles stops kills w w₁ := by
        rw [← hw₁]
        split_ifs with hbad
        · exact requestStop_handles (h id job howner hlive hbad.1) _
            (w.putJob id (reapedJob job pid status))
        · exact .refl _
      split_ifs
      · exact hstop.trans (finalize_handles id w₁)
      · exact hstop

theorem reap_handles {child : ℕ} {w : World}
    (h : ∀ l status id job, w.log.forks.find? (·.child = child) = some l →
      w.log.status child = some status → ¬ w.log.Reaped child →
      w.ctl.pidOwner l.pid = some id → w.ctl.live.lookup id = some job →
      (reapedJob job l.pid status).anyBad = true → stops id "failed") :
    Handles stops kills w (reap o child w) := by
  unfold reap
  split
  · next l status hl hstatus =>
    split_ifs with hreaped
    · exact .refl _
    · have hreap : Handles stops kills w (w.push (.reap child)) := (Adds.refl w.log).cons trivial
      refine hreap.trans (noteReap_handles fun id job howner hlive hbad => ?_)
      exact h l status id job hl hstatus hreaped howner hlive hbad
  · exact .refl _

/-! ## Starting jobs -/

theorem giveUp_handles (id : ℕ) (m : Meta) (w : World) : Handles stops kills w (giveUp o id m w) := by
  obtain ⟨-, log', hlog, hsave⟩ := giveUp_eq (o := o) id m w
  have hadds : Adds (Effect.ByHandler stops kills) w.log log' := (Adds.refl w.log).saved trivial trivial hsave
  rw [Handles, hlog]
  exact hadds.cons trivial

theorem killSpawned_handles (procs : List ProcRef) (w : World) :
    Handles stops kills w (killSpawned procs w) := by
  induction procs generalizing w with
  | nil => exact .refl _
  | cons pr procs ih =>
    have hkill : Handles stops kills w (w.push (.kill pr.pid sigkill pr.grouped)) :=
      (Adds.refl w.log).cons trivial
    have hexit : Handles stops kills w ((w.push (.kill pr.pid sigkill pr.grouped)).push
        (.exit pr.child (.killed sigkill))) := hkill.cons rfl
    exact (hexit.cons (e := .reap pr.child) trivial).trans (ih _)

theorem spawnJob_handles (id call : ℕ) (job : LiveJob) (w : World) :
    Handles stops kills w (spawnJob o id call job w) := by
  unfold spawnJob setState
  dsimp only
  generalize hw₁ : saveMeta o id (job.jobMeta.setState "starting") w = saved
  have hsave : Handles stops kills w saved.2 := hw₁ ▸ saveMeta_handles id _ w
  generalize (job.jobMeta.setState "starting").setStarted (o.realtimeMs saved.2.calls) = m
  rcases hloop : forkLoop id w.log.length m (o.launch call).fork 0 (launchRanges m) saved.2.ask
    with ⟨procs, err, w₂⟩
  obtain ⟨-, -, -, n, hfork⟩ := forkLoop_forked hloop
  have hforked : Handles stops kills w w₂ := Adds.forked hsave (fun _ _ _ => trivial) hfork
  cases err with
  | some err =>
    have hkilled : Handles stops kills w₂ (killSpawned procs w₂) := killSpawned_handles procs w₂
    exact (hforked.trans hkilled).trans (giveUp_handles id _ (killSpawned procs w₂).ask)
  | none => exact hforked.trans (saveMeta_handles id _ (w₂.setCtl _))

theorem prepareJob_handles (id call : ℕ) (job : LiveJob) (w : World) :
    Handles stops kills w (prepareJob o id call job w) := by
  unfold prepareJob
  dsimp only
  split
  · exact giveUp_handles _ _ _
  · split_ifs
    · exact spawnJob_handles _ _ _ _
    · split
      · exact giveUp_handles _ _ _
      · exact giveUp_handles _ _ _
      · exact spawnJob_handles _ _ _ _

theorem launchJob_handles (id : ℕ) (w : World) : Handles stops kills w (launchJob o id w) := by
  unfold launchJob
  split
  · exact .refl _
  · next job _ =>
    dsimp only
    split_ifs
    · exact prepareJob_handles id _ _ w.ask
    · split
      · exact prepareJob_handles id _ _ w.ask
      · exact Adds.cons (saveMeta_handles id _ w.ask.ask) trivial

theorem scheduleLoop_handles (n : ℕ) (w : World) : Handles stops kills w (scheduleLoop o n w) := by
  induction n generalizing w with
  | zero => exact .refl _
  | succ n ih =>
    unfold scheduleLoop
    split_ifs
    · split
      · exact .refl _
      · next id _ => exact (launchJob_handles id (w.dequeue id)).trans (ih _)
    · exact .refl _

theorem schedule_handles (w : World) : Handles stops kills w (schedule o w) := by
  unfold schedule
  split_ifs
  · exact .refl _
  · exact scheduleLoop_handles _ w

theorem enqueue_handles (id : ℕ) (w : World) : Handles stops kills w (enqueue o id w) := by
  unfold enqueue
  dsimp only
  split_ifs
  · split
    · exact .refl _
    · split_ifs
      · exact .refl _
      · exact saveMeta_handles id _ w.ask.ask
  · exact .refl _
  · split
    · exact .refl _
    · next m _ =>
      split_ifs
      · exact .refl _
      · split
        · exact saveMeta_handles id _ w.ask.ask
        · have hsave : Handles stops kills w (saveMeta o id (m.setState "queued") w.ask).2 :=
            saveMeta_handles id _ w.ask
          have hadmit : Handles stops kills w
              ((saveMeta o id (m.setState "queued") w.ask).2.push (.admitted id)) :=
            hsave.cons trivial
          exact hadmit.trans (schedule_handles _)

/-! ## Lines, timers and start-up -/

theorem onCancel_handles {id : ℕ} (h : stops id "cancelled") (w : World) :
    Handles stops kills w (onCancel o id w) := by
  unfold onCancel
  dsimp only
  refine Adds.cons (?_ : Adds _ w.log _) trivial
  split
  · split
    · exact .refl _
    · split_ifs
      · exact .refl _
      · exact saveMeta_handles id _ w.ask.ask
  · next job _ =>
    split_ifs
    · exact Adds.cons (saveMeta_handles id _ w.ask) trivial
    · exact requestStop_handles h job w

theorem onDeadline_handles {id : ℕ} (h : stops id "timed_out") (w : World) :
    Handles stops kills w (onDeadline o id w) := by
  unfold onDeadline
  split
  · exact .refl _
  · split_ifs
    · exact .refl _
    · exact requestStop_handles h _ w

theorem escalate_handles (now id : ℕ) (w : World) : Handles stops kills w (escalate now w id) := by
  unfold escalate
  split
  · exact .refl _
  · split_ifs
    · exact handles_signals _ sigkill (w.putJob id _)
    · exact .refl _

theorem stopRunning_handles {id : ℕ} (h : stops id "shutdown") (w : World) :
    Handles stops kills w (stopRunning o w id) := by
  unfold stopRunning
  split
  · exact .refl _
  · split_ifs
    · exact requestStop_handles h _ w
    · exact .refl _

/-- A loop of handlers. -/
theorem handles_foldl {A : Type} {f : World → A → World} (hf : ∀ a w, Handles stops kills w (f w a))
    (as : List A) (w : World) : Handles stops kills w (as.foldl f w) := by
  induction as generalizing w with
  | nil => exact .refl _
  | cons a as ih => exact (hf a w).trans (ih _)

theorem onShutdown_handles (h : ∀ id, stops id "cancelled" ∧ stops id "shutdown") (w : World) :
    Handles stops kills w (onShutdown o w) := by
  unfold onShutdown
  dsimp only
  generalize hw₁ : w.setCtl { w.ctl with shuttingDown := true } = w₁
  have hsame : w₁.log = w.log := by rw [← hw₁]; rfl
  have hcancels : Handles stops kills w₁ (w₁.ctl.queue.foldl (fun w id => onCancel o id w) w₁) :=
    handles_foldl (fun id => onCancel_handles (h id).1) _ _
  rw [Handles, hsame] at hcancels
  exact hcancels.trans (handles_foldl (fun id => stopRunning_handles (h id).2) _
    (w₁.ctl.queue.foldl (fun w id => onCancel o id w) w₁).ask)

theorem handleLine_handles {line : List Char}
    (hshutdown : line = "SHUTDOWN".toList → ∀ id, stops id "cancelled" ∧ stops id "shutdown")
    (hcancel : ∀ id, "CANCEL ".toList.isPrefixOf line = true → parseU64 (line.drop 7) = some id →
      stops id "cancelled") (w : World) : Handles stops kills w (handleLine o line w) := by
  unfold handleLine
  split_ifs with hline _ hprefix
  · exact onShutdown_handles (hshutdown hline) w
  · split
    · exact .refl _
    · exact enqueue_handles _ w
  · split
    · exact .refl _
    · next id hid => exact onCancel_handles (hcancel id hprefix hid) w
  · exact .refl _

theorem killLeftovers_handles {procs : List (ℕ × ℕ)} (h : ∀ pr ∈ procs, pr.2 ≠ 0 →
    (∃ k, o.procStart k pr.1 = some pr.2) → kills pr.1) (w : World) :
    Handles stops kills w (procs.foldl (killLeftover o) w) := by
  induction procs generalizing w with
  | nil => exact .refl _
  | cons pr procs ih =>
    refine Adds.trans ?_ (ih (fun pr' hpr' => h pr' (List.mem_cons_of_mem _ hpr')) _)
    unfold killLeftover
    split_ifs with hkill
    · have hpid := h pr List.mem_cons_self hkill.1 ⟨_, hkill.2⟩
      have hgroup : Handles stops kills w (w.ask.push (.leftover pr.1 true)) :=
        (Adds.refl w.log).cons hpid
      exact hgroup.cons hpid
    · exact .refl _

/-- Recovering a job kills what its record lists, if it was in progress. -/
theorem recoverJob_handles (id : ℕ) (w : World) (h : ∀ m, loadMeta o .recover id w = some m →
      (m.state = "running" ∨ m.state = "starting" ∨ m.state = "persisting") →
      ∀ pr ∈ parseProcs m.procs, pr.2 ≠ 0 → (∃ k, o.procStart k pr.1 = some pr.2) → kills pr.1) :
    Handles stops kills w (recoverJob o w id) := by
  unfold recoverJob
  dsimp only
  split
  · exact .refl _
  · next m hload =>
    split_ifs with hstate
    · exact (killLeftovers_handles (h m hload hstate) w.ask).trans (saveMeta_handles id _ _)
    · exact enqueue_handles id w.ask
    · exact .refl _

/-! ## Inputs -/

/-- The input is something that a worker, its group or the user does. -/
def Input.outside : Input → Bool
  | .exit _ _ => true
  | .slot _ _ => true
  | .bump _ => true
  | .output _ _ => true
  | .spawn _ => true
  | .gone _ => true
  | .record _ _ => true
  | _ => false

/-- Handling the input may stop these jobs, for these reasons, and kill these leftover
    processes. -/
structure Permitted (stops : ℕ → String → Prop) (kills : ℕ → Prop) (w : World) (input : Input) :
    Prop where
  leftover : input = .recover → ∀ pid, kills pid
  deadline : ∀ id, input = .deadline id → stops id "timed_out"
  cancel : ∀ text id, input = .line text → "CANCEL ".toList.isPrefixOf text = true →
    parseU64 (text.drop 7) = some id → stops id "cancelled"
  shutdown : input = .line "SHUTDOWN".toList → ∀ id, stops id "cancelled" ∧ stops id "shutdown"
  badExit : ∀ child l status id job, input = .reap child →
    w.log.forks.find? (·.child = child) = some l → w.log.status child = some status →
    ¬ w.log.Reaped child → w.ctl.pidOwner l.pid = some id → w.ctl.live.lookup id = some job →
    (reapedJob job l.pid status).anyBad = true → stops id "failed"

/-- **The controller acts for itself only**, and stops a job for one of four reasons. -/
theorem handle_handles {input : Input} (h : input.outside = false) {w : World}
    (hstops : Permitted stops kills w input) : Handles stops kills w (handle o w input) := by
  cases input with
  | recover =>
    unfold handle
    split_ifs
    · exact .refl _
    · exact handles_foldl (fun id w => recoverJob_handles id w fun _ _ _ pr _ _ _ =>
        hstops.leftover rfl pr.1) _ w
  | line text =>
    unfold handle
    split_ifs
    · refine handleLine_handles (fun hline => hstops.shutdown (congrArg Input.line hline)) ?_ w
      exact fun id => hstops.cancel text id rfl
    · exact .refl _
  | reap child =>
    unfold handle
    split_ifs
    · exact reap_handles fun l status id job => hstops.badExit child l status id job rfl
    · exact .refl _
  | schedule =>
    unfold handle
    split_ifs
    · exact schedule_handles w
    · exact .refl _
  | deadline id =>
    unfold handle
    split_ifs
    · exact onDeadline_handles (hstops.deadline id rfl) w
    · exact .refl _
  | tick =>
    unfold handle
    split_ifs
    · exact handles_foldl (fun id w => escalate_handles _ id w) _ w.ask
    · exact .refl _
  | _ => cases h

/-- Handling an input adds effects of the controller only. -/
theorem handle_controls {input : Input} (h : input.outside = false) (w : World) :
    Controls w (handle o w input) := by
  have hany : Permitted (fun _ _ => True) (fun _ => True) w input := by
    constructor <;> intros <;> trivial
  exact (handle_handles h hany).imp fun _ he => he.byController

end Forge
