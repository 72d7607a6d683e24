import Forge.Controller.Runs

/-!
# The records of ended jobs

Terminal records are written in about ten places of controller.cpp, each of which
sets the fields by hand. What is asked of all of them: the error is empty exactly
for `completed`, a digest stands in a `completed` record only, and `finished_ms` is
a reading of the clock by the call that writes the record.

* `Closes`: what a handler writes, and that the records it holds have no digest.
* `finalize_closes`, `launchJob_closes`, `enqueue_closes`, …: one lemma a handler.
* `closed_consistent`: the terminal records of a whole run.
* `closed_inconsistent`: the two ways in which they are not consistent.
-/

namespace Forge

open World

variable {o : Oracle}

/-! ## Consistent records -/

/-- A terminal record as it should be; the clock was read between the calls `start`
    and `stop`. -/
structure Meta.Consistent (o : Oracle) (start stop : ℕ) (m : Meta) : Prop where
  error : m.state = "completed" ↔ m.error = ""
  digest : m.digest ≠ "" → m.state = "completed"
  finished : ∃ k, start ≤ k ∧ k < stop ∧ m.finishedMs = o.realtimeMs k
  nonzero : m.finishedMs ≠ 0

/-- A terminal record that the effect writes is consistent. -/
def Effect.Closes (o : Oracle) (start stop : ℕ) : Effect → Prop
  | .save _ m | .lost _ m => isTerminalState m.state = true → m.Consistent o start stop
  | _ => True

/-- Any other record that the effect writes has no digest. -/
def Effect.Opens : Effect → Prop
  | .save _ m | .lost _ m => isTerminalState m.state = false → m.digest = ""
  | .record _ _ => False
  | _ => True

/-- The effect writes no record. -/
def Effect.Unwritten : Effect → Prop
  | .save _ _ | .lost _ _ | .record _ _ => False
  | _ => True

/-- No job's record has a digest. -/
def Controller.Blank (c : Controller) : Prop := c.Holds (·.digest = "")

/-- What is known of the answers: the clock is set, and a failed write says why. -/
structure Oracle.Tells (o : Oracle) : Prop where
  clock : ∀ k, o.realtimeMs k ≠ 0
  error : ∀ k err visible, o.writeOutput k = .failed err visible → err ≠ ""

/-- The launch calls that precede the first fork succeed. -/
def Oracle.Prepares (o : Oracle) : Prop :=
  ∀ call, (o.launch call).openLog = .ok () ∧ (o.launch call).sharedMap = .ok () ∧
    (o.launch call).notify = .ok ()

/-- The result of a job whose record gets it as its digest could not be written. -/
def Effect.resultLost : Effect → Bool
  | .finalized _ _ judged _ (some (.failed _ _)) =>
    judged.jobMeta.op = "sha256" || judged.jobMeta.op = "count"
  | _ => false

def Log.ResultsWritten (log : Log) : Prop := ∀ e ∈ log, e.resultLost = false

instance (log : Log) : Decidable log.ResultsWritten :=
  inferInstanceAs (Decidable (∀ e ∈ log, e.resultLost = false))

theorem Meta.Consistent.mono {start stop start' stop' : ℕ} {m : Meta}
    (h : m.Consistent o start stop) (hstart : start' ≤ start) (hstop : stop ≤ stop') :
    m.Consistent o start' stop' where
  error := h.error
  digest := h.digest
  finished := by
    obtain ⟨k, hk, hk', htime⟩ := h.finished
    exact ⟨k, by omega, by omega, htime⟩
  nonzero := h.nonzero

/-- A record that is closed without success. -/
theorem consistent_closed (ho : o.Tells) {start stop k : ℕ} {m : Meta} {state err : String}
    (hstate : state ≠ "completed") (herr : err ≠ "") (hdigest : m.digest = "")
    (hstart : start ≤ k) (hstop : k < stop) :
    (((m.setState state).setError err).setFinished (o.realtimeMs k)).Consistent o start stop where
  error := iff_of_false hstate herr
  digest := fun h => absurd hdigest h
  finished := ⟨k, hstart, hstop, rfl⟩
  nonzero := ho.clock k

/-! ## What a handler does -/

/-- From `w` to `w'` terminal records were consistent, the others had no digest if
    `strict`, and no job's record has one. -/
structure Closes (o : Oracle) (strict : Prop) (w w' : World) : Prop where
  calls : w.calls ≤ w'.calls
  closed : Adds (Effect.Closes o w.calls w'.calls) w.log w'.log
  opened : strict → Adds Effect.Opens w.log w'.log
  blank : w'.ctl.Blank

namespace Closes

variable {strict : Prop} {w w₁ w₂ : World}

theorem refl (h : w.ctl.Blank) : Closes o strict w w := ⟨le_rfl, .refl _, fun _ => .refl _, h⟩

theorem trans (h : Closes o strict w w₁) (h' : Closes o strict w₁ w₂) : Closes o strict w w₂ where
  calls := h.calls.trans h'.calls
  closed := by
    refine (h.closed.imp fun e he => ?_).trans (h'.closed.imp fun e he => ?_)
    · cases e with
      | save => exact fun hterm => (he hterm).mono le_rfl h'.calls
      | lost => exact fun hterm => (he hterm).mono le_rfl h'.calls
      | _ => trivial
    · cases e with
      | save => exact fun hterm => (he hterm).mono h.calls le_rfl
      | lost => exact fun hterm => (he hterm).mono h.calls le_rfl
      | _ => trivial
  opened := fun hstrict => (h.opened hstrict).trans (h'.opened hstrict)
  blank := h'.blank

/-- Nothing was written. -/
theorem quiet (hcalls : w.calls ≤ w₁.calls) (hlog : Adds Effect.Unwritten w.log w₁.log)
    (hblank : w₁.ctl.Blank) : Closes o strict w w₁ where
  calls := hcalls
  closed := hlog.imp fun e he => by cases e <;> first | exact he.elim | trivial
  opened := fun _ => hlog.imp fun e he => by cases e <;> first | exact he.elim | trivial
  blank := hblank

theorem ask (h : Closes o strict w w₁) : Closes o strict w w₁.ask :=
  h.trans (quiet (Nat.le_succ _) (.refl _) h.blank)

theorem push {e : Effect} (h : Closes o strict w w₁) (he : e.Unwritten) :
    Closes o strict w (w₁.push e) :=
  h.trans (quiet le_rfl ((Adds.refl w₁.log).cons he) h.blank)

theorem setCtl {c : Controller} (h : Closes o strict w w₁) (hblank : c.Blank) :
    Closes o strict w (w₁.setCtl c) :=
  h.trans (quiet le_rfl (.refl _) hblank)

/-- A record is written: one call more. -/
theorem save {id : ℕ} {m : Meta} (h : Closes o strict w w₁)
    (hclosed : isTerminalState m.state = true → m.Consistent o w.calls (w₁.calls + 1))
    (hopened : strict → isTerminalState m.state = false → m.digest = "") :
    Closes o strict w (saveMeta o id m w₁).2 where
  calls := by
    rw [saveMeta_calls]
    exact Nat.le_succ_of_le h.calls
  closed := by
    rw [saveMeta_calls]
    have hwider : Adds (Effect.Closes o w.calls (w₁.calls + 1)) w.log w₁.log := by
      refine h.closed.imp fun e he => ?_
      cases e with
      | save => exact fun hterm => (he hterm).mono le_rfl (Nat.le_succ _)
      | lost => exact fun hterm => (he hterm).mono le_rfl (Nat.le_succ _)
      | _ => trivial
    exact hwider.saved hclosed hclosed (saveMeta_saved id m w₁)
  opened := fun hstrict =>
    (h.opened hstrict).saved (hopened hstrict) (hopened hstrict) (saveMeta_saved id m w₁)
  blank := by
    rw [saveMeta_ctl]
    exact h.blank

/-- A record of a job that has not ended. -/
theorem saveOpen {id : ℕ} {m : Meta} (h : Closes o strict w w₁)
    (hstate : isTerminalState m.state = false) (hdigest : strict → m.digest = "") :
    Closes o strict w (saveMeta o id m w₁).2 :=
  h.save (fun hterm => absurd (hstate.symm.trans hterm) (by decide)) fun hstrict _ => hdigest hstrict

/-- A record of a job that has ended. -/
theorem saveClosed {id : ℕ} {m : Meta} (h : Closes o strict w w₁)
    (hstate : isTerminalState m.state = true) (hm : m.Consistent o w.calls (w₁.calls + 1)) :
    Closes o strict w (saveMeta o id m w₁).2 :=
  h.save (fun _ => hm) fun _ hopen => absurd (hstate.symm.trans hopen) (by decide)

/-- A loop of handlers. -/
theorem foldl {A : Type} {f : World → A → World}
    (hf : ∀ a w, w.ctl.Blank → Closes o strict w (f w a)) (as : List A) (h : w.ctl.Blank) :
    Closes o strict w (as.foldl f w) := by
  induction as generalizing w with
  | nil => exact .refl h
  | cons a as ih =>
    have hstep := hf a w h
    exact hstep.trans (ih hstep.blank)

end Closes

/-! ## Ending a job -/

variable {strict : Prop}

theorem requestStop_closes {id : ℕ} {job : LiveJob} {reason : String} {w : World}
    (h : w.ctl.Blank) (hjob : job.jobMeta.digest = "") :
    Closes o strict w (requestStop o id job reason w) := by
  have hstop : Closes o strict w (w.push (.stop id reason)) := (Closes.refl h).push trivial
  unfold requestStop
  dsimp only
  split_ifs
  · exact hstop
  · refine hstop.trans (.quiet (Nat.le_succ _) ?_ ?_)
    · exact (Adds.refl _).signals (fun _ _ _ => trivial) _ _
    · exact hstop.blank.insert hjob

/-- What `finalize` settles: success, or a reason. -/
theorem settle_cases (stopReason : String) (m : Meta) (result : Except String String) :
    (settle stopReason m result).1.finishedMs = m.finishedMs ∧
      (((settle stopReason m result).2 = "completed" ∧ (settle stopReason m result).1.error = "" ∧
        (m.op ≠ "sha256" ∧ m.op ≠ "count" → (settle stopReason m result).1.digest = m.digest)) ∨
      ((settle stopReason m result).2 ≠ "completed" ∧
        isTerminalState (settle stopReason m result).2 = true ∧
        (settle stopReason m result).1.error ≠ "" ∧
        (settle stopReason m result).1.digest = m.digest)) := by
  cases result with
  | ok body =>
    refine ⟨rfl, .inl ⟨rfl, rfl, fun hop => ?_⟩⟩
    simp [settle, hop, Meta.setDigest, Meta.setError]
  | error why =>
    refine ⟨rfl, .inr ?_⟩
    unfold settle
    dsimp only
    split_ifs with htimed hstop hwhy hwhy hwhy
    all_goals simp_all [Meta.setError, isTerminalState]

/-- What the writing of the output changes: nothing, or the job has failed. -/
theorem persist_closes (ho : o.Tells) {id : ℕ} {m m' : Meta} {state state' : String}
    {result : Except String String} {write : Option WriteAnswer} {w w' : World}
    (hblank : w.ctl.Blank) (h : persist o id m state result w = (m', state', write, w')) :
    Closes o False w w' ∧ m'.digest = m.digest ∧ m'.finishedMs = m.finishedMs ∧
      ((state' = state ∧ m'.error = m.error) ∨
        (state' = "failed" ∧ m'.error ≠ "" ∧ ∃ err visible, write = some (.failed err visible))) := by
  unfold persist at h
  split at h
  · cases h
    exact ⟨.refl hblank, rfl, rfl, .inl ⟨rfl, rfl⟩⟩
  · next body =>
    split_ifs at h with hbody
    · cases h
      exact ⟨.refl hblank, rfl, rfl, .inl ⟨rfl, rfl⟩⟩
    · have hsave : Closes o False w (saveMeta o id (m.setState "persisting") w).2 :=
        (Closes.refl hblank).saveOpen rfl (fun hno => hno.elim)
      dsimp only at h
      generalize (saveMeta o id (m.setState "persisting") w).2 = w₁ at hsave h
      unfold writeOutput at h
      cases hanswer : o.writeOutput w₁.calls with
      | ok =>
        rw [hanswer] at h
        cases h
        exact ⟨hsave.ask.push trivial, rfl, rfl, .inl ⟨rfl, rfl⟩⟩
      | failed err visible =>
        have herr : err ≠ "" := ho.error w₁.calls err visible hanswer
        rw [hanswer] at h
        cases visible
        · cases h
          exact ⟨hsave.ask, rfl, rfl, .inr ⟨rfl, herr, err, false, rfl⟩⟩
        · cases h
          exact ⟨hsave.ask.push trivial, rfl, rfl, .inr ⟨rfl, herr, err, true, rfl⟩⟩

theorem finalize_closes (ho : o.Tells) {id : ℕ} {w : World} (h : w.ctl.Blank)
    (hwritten : (finalize o id w).log.ResultsWritten) :
    Closes o False w (finalize o id w) := by
  unfold finalize at hwritten ⊢
  cases hlive : w.ctl.live.lookup id with
  | none => exact .refl h
  | some job =>
    have hdigest := h id job hlive
    rw [hlive] at hwritten
    dsimp only at hwritten ⊢
    split_ifs at hwritten ⊢ with hfinished
    · exact .refl h
    · have hask : Closes o False w w.ask := (Closes.refl h).ask
      generalize hjudged : judgedJob job (o.realtimeMs w.calls) = judged at hwritten ⊢
      have hnone : judged.jobMeta.digest = "" := hjudged ▸ hdigest
      have htime : judged.jobMeta.finishedMs = o.realtimeMs w.calls := by rw [← hjudged]; rfl
      generalize resultsOk judged (inspectOutput o judged.jobMeta.id w.ask) = result
        at hwritten ⊢
      obtain ⟨hsettled, hcases⟩ := settle_cases job.stopReason judged.jobMeta result
      rcases hsettle : settle job.stopReason judged.jobMeta result with ⟨m, state⟩
      rw [hsettle] at hwritten hsettled hcases
      dsimp only at hwritten hsettled hcases ⊢
      rcases hp : persist o id m state result w.ask with ⟨m', state', write, w₁⟩
      rw [hp] at hwritten
      obtain ⟨hpersist, hdigest', htime', hwrite⟩ := persist_closes ho hask.blank hp
      dsimp only at hwritten ⊢
      have hop : ∀ err visible, write = some (.failed err visible) →
          judged.jobMeta.op ≠ "sha256" ∧ judged.jobMeta.op ≠ "count" := by
        rintro err visible rfl
        have hkept := hwritten _ (List.mem_cons_of_mem _ List.mem_cons_self)
        simpa [Effect.resultLost] using hkept
      have hclose := hask.trans hpersist
      have hcalls : w.calls < w₁.calls + 1 := Nat.lt_succ_of_le hclose.calls
      have hfinished' : m'.finishedMs = o.realtimeMs w.calls := by rw [htime', hsettled, htime]
      have hconsistent : (m'.setState state').Consistent o w.calls (w₁.calls + 1) ∧
          isTerminalState state' = true := by
        refine ⟨⟨?_, ?_, ⟨w.calls, le_rfl, hcalls, hfinished'⟩, ?_⟩, ?_⟩
        · rcases hwrite with ⟨rfl, herr⟩ | ⟨rfl, herr, -⟩
          · show state' = "completed" ↔ m'.error = ""
            rw [herr]
            rcases hcases with ⟨hdone, hclear, -⟩ | ⟨hopen, -, hwhy, -⟩
            · exact iff_of_true hdone hclear
            · exact iff_of_false hopen hwhy
          · exact iff_of_false (show "failed" ≠ "completed" by decide) herr
        · -- a digest was set, so that the job is completed unless its result was not written
          intro hset
          by_contra hfailed
          change state' ≠ "completed" at hfailed
          have hset : m.digest ≠ "" := hdigest' ▸ hset
          apply hset
          rcases hcases with ⟨hdone, -, hkept⟩ | ⟨-, -, -, hkept⟩
          · rcases hwrite with ⟨rfl, -⟩ | ⟨-, -, err, visible, hfail⟩
            · exact absurd hdone hfailed
            · rw [hkept (hop err visible hfail), hnone]
          · rw [hkept, hnone]
        · show m'.finishedMs ≠ 0
          rw [hfinished']
          exact ho.clock _
        · rcases hwrite with ⟨rfl, -⟩ | ⟨rfl, -, -⟩
          · rcases hcases with ⟨hdone, -⟩ | ⟨-, hterm, -⟩
            · rw [hdone]
              rfl
            · exact hterm
          · rfl
      have hsave : Closes o False w (saveMeta o id (m'.setState state') w₁).2 :=
        hclose.saveClosed hconsistent.2 hconsistent.1
      have hpush := hsave.push (e := .finalized id state' judged
        (inspectOutput o judged.jobMeta.id w.ask) write) trivial
      exact (hpush.push (e := .removed id) trivial).setCtl fun other job' hother =>
        hsave.blank.erase id other job' hother

theorem noteReap_closes (ho : o.Tells) {pid : ℕ} {status : WaitStatus} {w : World}
    (h : w.ctl.Blank) (hwritten : (noteReap o pid status w).log.ResultsWritten) :
    Closes o False w (noteReap o pid status w) := by
  unfold noteReap at hwritten ⊢
  split at hwritten
  · exact .refl h
  · next id howner =>
    cases hlive : w.ctl.live.lookup id with
    | none => exact .refl h
    | some job =>
      have hdigest := h id job hlive
      rw [hlive] at hwritten
      dsimp only at hwritten ⊢
      have hput : Closes o False w (w.putJob id (reapedJob job pid status)) :=
        (Closes.refl h).setCtl (h.insert hdigest)
      generalize hw₁ : (if (reapedJob job pid status).anyBad ∧
          (reapedJob job pid status).stopReason = "" then
        requestStop o id (reapedJob job pid status) "failed" (w.putJob id (reapedJob job pid status))
        else w.putJob id (reapedJob job pid status)) = w₁ at hwritten ⊢
      have hstop : Closes o False w w₁ := by
        rw [← hw₁]
        split_ifs
        · exact hput.trans (requestStop_closes hput.blank hdigest)
        · exact hput
      split_ifs at hwritten ⊢
      · exact hstop.trans (finalize_closes ho hstop.blank hwritten)
      · exact hstop

theorem reap_closes (ho : o.Tells) {child : ℕ} {w : World} (h : w.ctl.Blank)
    (hwritten : (reap o child w).log.ResultsWritten) : Closes o False w (reap o child w) := by
  unfold reap at hwritten ⊢
  split at hwritten
  · split_ifs at hwritten ⊢
    · exact .refl h
    · have hreap : Closes o False w (w.push (.reap child)) := (Closes.refl h).push trivial
      exact hreap.trans (noteReap_closes ho hreap.blank hwritten)
  · exact .refl h

/-! ## Starting a job -/

theorem forkLoop_closes {id call : ℕ} {m : Meta} {fork : ℕ → Except String ForkAnswer}
    (ranges : List ByteRange) (i : ℕ) {w : World} (h : w.ctl.Blank) :
    Closes o strict w (forkLoop id call m fork i ranges w).2.2 := by
  induction ranges generalizing i w with
  | nil => exact .refl h
  | cons range ranges ih =>
    rw [forkLoop]
    split
    · exact .refl h
    · next answer _ =>
      have hfork : Closes o strict w (forkWorker id call m i range answer w).2 :=
        (Closes.refl h).push trivial
      exact hfork.trans (ih (i + 1) hfork.blank)

theorem killSpawned_closes (procs : List ProcRef) {w : World} (h : w.ctl.Blank) :
    Closes o strict w (killSpawned procs w) := by
  induction procs generalizing w with
  | nil => exact .refl h
  | cons pr procs ih =>
    have hkill : Closes o strict w (w.push (.kill pr.pid sigkill pr.grouped)) :=
      (Closes.refl h).push trivial
    have hreap := (hkill.push (e := .exit pr.child (.killed sigkill)) trivial).push
      (e := .reap pr.child) trivial
    exact hreap.trans (ih hreap.blank)

theorem forkLoop_error {id call : ℕ} {m : Meta} {fork : ℕ → Except String ForkAnswer}
    {ranges : List ByteRange} {i : ℕ} {w w' : World} {procs : List ProcRef} {err : String}
    (h : forkLoop id call m fork i ranges w = (procs, some err, w')) : err ≠ "" := by
  induction ranges generalizing i w procs with
  | nil => cases h
  | cons range ranges ih =>
    rw [forkLoop] at h
    cases hfork : fork i with
    | error e =>
      rw [hfork] at h
      cases h
      simp
    | ok answer =>
      rw [hfork] at h
      dsimp only at h
      rcases hrest : forkLoop id call m fork (i + 1) ranges
        (forkWorker id call m i range answer w).2 with ⟨procs', err', w₁⟩
      rw [hrest] at h
      cases h
      exact ih hrest

theorem giveUp_closes {id : ℕ} {m : Meta} {w w₁ : World} (h : Closes o strict w w₁)
    (hm : (m.setState "failed").Consistent o w.calls (w₁.calls + 1)) :
    Closes o strict w (giveUp o id m w₁) := by
  have hsave : Closes o strict w (saveMeta o id (m.setState "failed") w₁).2 :=
    h.saveClosed rfl hm
  exact (hsave.push (e := .removed id) trivial).setCtl (hsave.blank.erase id)

theorem spawnJob_closes (ho : o.Tells) {id call : ℕ} {job : LiveJob} {w : World}
    (h : w.ctl.Blank) (hdigest : job.jobMeta.digest = "") :
    Closes o strict w (spawnJob o id call job w) := by
  unfold spawnJob setState
  dsimp only
  have hstart : Closes o strict w (saveMeta o id (job.jobMeta.setState "starting") w).2 :=
    (Closes.refl h).saveOpen rfl fun _ => hdigest
  generalize (saveMeta o id (job.jobMeta.setState "starting") w).2 = w₁ at hstart ⊢
  generalize hm : (job.jobMeta.setState "starting").setStarted (o.realtimeMs w₁.calls) = m
  have hmdigest : m.digest = "" := hm ▸ hdigest
  have hask := hstart.ask
  have hfork := hask.trans (@forkLoop_closes o strict id w.log.length m (o.launch call).fork
    (launchRanges m) 0 _ hask.blank)
  rcases hloop : forkLoop id w.log.length m (o.launch call).fork 0 (launchRanges m) w₁.ask
    with ⟨procs, err, w₂⟩
  rw [hloop] at hfork
  dsimp only at hfork ⊢
  cases err with
  | some err =>
    have hkilled := @killSpawned_closes o strict procs _ hfork.blank
    refine giveUp_closes (hfork.trans hkilled).ask ?_
    exact consistent_closed (m := m) ho (by decide) (forkLoop_error hloop) hmdigest hfork.calls
      (Nat.lt_succ_of_le (Nat.le_succ_of_le hkilled.calls))
  | none =>
    have hctl : Closes o strict w (w₂.setCtl { w₂.ctl with
        pidOwner := fun pid => if pid ∈ procs.map (·.pid) then some id else w₂.ctl.pidOwner pid
        slotsUsed := w₂.ctl.slotsUsed + 1 }) := hfork.setCtl hfork.blank
    have hrun := @Closes.saveOpen o strict _ _ id ((m.setProcs (formatProcs procs)).setState "running")
      hctl rfl fun _ => hmdigest
    exact hrun.setCtl (hrun.blank.insert hmdigest)

theorem prepareJob_closes (ho : o.Tells) (hprep : o.Prepares) {id call : ℕ} {job : LiveJob}
    {w : World} (h : w.ctl.Blank) (hdigest : job.jobMeta.digest = "") :
    Closes o strict w (prepareJob o id call job w) := by
  obtain ⟨hlog, hmap, hnotify⟩ := hprep call
  unfold prepareJob
  dsimp only
  rw [hlog, hmap, hnotify]
  dsimp only
  split_ifs
  · exact spawnJob_closes ho h hdigest
  · exact spawnJob_closes ho h hdigest

theorem inputError_ne (answer : Except String (Bool × ℕ)) : inputError answer ≠ "" := by
  unfold inputError
  split
  · split_ifs with hempty
    · decide
    · exact hempty
  · decide

theorem launchJob_closes (ho : o.Tells) (hprep : o.Prepares) {id : ℕ} {w : World}
    (h : w.ctl.Blank) : Closes o strict w (launchJob o id w) := by
  unfold launchJob
  cases hlive : w.ctl.live.lookup id with
  | none => exact .refl h
  | some job =>
    have hdigest := h id job hlive
    have hask : Closes o strict w w.ask := (Closes.refl h).ask
    dsimp only
    split_ifs
    · exact hask.trans (prepareJob_closes ho hprep hask.blank hdigest)
    · split
      · exact hask.trans (prepareJob_closes ho hprep hask.blank hdigest)
      · next answer _ =>
        have hsave := @Closes.saveClosed o strict _ _ id
          (((job.jobMeta.setError (inputError (o.launch w.calls).inspect)).setFinished
            (o.realtimeMs w.ask.calls)).setState "failed") hask.ask rfl
          (consistent_closed (m := job.jobMeta) ho (by decide) (inputError_ne _) hdigest
            (Nat.le_succ _) (Nat.lt_succ_of_le (Nat.le_succ _)))
        exact (hsave.setCtl (c := releaseRuntime job _) hsave.blank).push
          (e := .removed id) trivial |>.setCtl (hsave.blank.erase id)

theorem scheduleLoop_closes (ho : o.Tells) (hprep : o.Prepares) {n : ℕ} {w : World}
    (h : w.ctl.Blank) : Closes o strict w (scheduleLoop o n w) := by
  induction n generalizing w with
  | zero => exact .refl h
  | succ n ih =>
    rw [scheduleLoop]
    split_ifs
    · split
      · exact .refl h
      · next id _ =>
        have hdequeue : Closes o strict w (w.dequeue id) := (Closes.refl h).setCtl h
        have hlaunch := hdequeue.trans (@launchJob_closes o strict ho hprep id _ hdequeue.blank)
        exact hlaunch.trans (ih hlaunch.blank)
    · exact .refl h

theorem schedule_closes (ho : o.Tells) (hprep : o.Prepares) {w : World} (h : w.ctl.Blank) :
    Closes o strict w (schedule o w) := by
  unfold schedule
  split_ifs
  · exact .refl h
  · exact scheduleLoop_closes ho hprep h

/-! ## Records that are loaded -/

/-- The record of the job, if it is open, has no digest. -/
def Log.Undigested (log : Log) (id : ℕ) : Prop :=
  ∀ m, log.disk id = some m → isTerminalState m.state = false → m.digest = ""

theorem validateMeta_ne {m : Meta} {err : String} (h : validateMeta m = some err) : err ≠ "" := by
  unfold validateMeta at h
  split_ifs at h <;> cases h <;> simp

theorem enqueue_closes (ho : o.Tells) (hprep : o.Prepares) {id : ℕ} {w : World} (h : w.ctl.Blank)
    (hload : w.ctl.shuttingDown = true ∨ w.ctl.live.lookup id = none → w.log.Undigested id) :
    Closes o strict w (enqueue o id w) := by
  have hask : Closes o strict w w.ask := (Closes.refl h).ask
  unfold enqueue
  dsimp only
  split_ifs with hdown hlive
  · cases hread : loadMeta o .submit id w with
    | none => exact hask
    | some m =>
      have hdisk := disk_of_loadMeta hread
      dsimp only
      split_ifs with hterm
      · exact hask
      · have hdigest := hload (.inl hdown) m hdisk (by simpa using hterm)
        exact hask.ask.saveClosed rfl (consistent_closed (m := m) ho (by decide) (by decide) hdigest
          (Nat.le_succ _) (Nat.lt_succ_of_le (Nat.le_succ _)))
  · exact .refl h
  · have hnone : w.ctl.live.lookup id = none := by simpa using hlive
    cases hread : loadMeta o .submit id w with
    | none => exact hask
    | some m =>
      have hdisk := disk_of_loadMeta hread
      dsimp only
      split_ifs with hterm
      · exact hask
      · have hdigest := hload (.inr hnone) m hdisk (by simpa using hterm)
        cases hvalid : validateMeta m with
        | some err =>
          exact hask.ask.saveClosed rfl (consistent_closed (m := m) ho (by decide)
            (validateMeta_ne hvalid) hdigest (Nat.le_succ _) (Nat.lt_succ_of_le (Nat.le_succ _)))
        | none =>
          have hsave : Closes o strict w (saveMeta o id (m.setState "queued") w.ask).2 :=
            hask.saveOpen rfl fun _ => hdigest
          have hadmit := (hsave.push (e := .admitted id) trivial).setCtl
            (@Controller.Holds.insert _ _ hsave.blank id { jobMeta := m.setState "queued" } hdigest)
          have hqueue : Closes o strict w (((saveMeta o id (m.setState "queued") w.ask).2.push
              (.admitted id)).setCtl { (saveMeta o id (m.setState "queued") w.ask).2.ctl with
                queue := (saveMeta o id (m.setState "queued") w.ask).2.ctl.queue ++ [id]
                live := (saveMeta o id (m.setState "queued") w.ask).2.ctl.live.insert id
                  { jobMeta := m.setState "queued" } }) := hadmit.setCtl hadmit.blank
          exact hqueue.trans (schedule_closes ho hprep hqueue.blank)

theorem onCancel_closes (ho : o.Tells) {id : ℕ} {w : World} (h : w.ctl.Blank)
    (hload : w.ctl.live.lookup id = none → w.log.Undigested id) :
    Closes o strict w (onCancel o id w) := by
  have hask : Closes o strict w w.ask := (Closes.refl h).ask
  unfold onCancel
  dsimp only
  refine Closes.push (e := .cancelled id) ?_ trivial
  cases hlive : w.ctl.live.lookup id with
  | none =>
    cases hread : loadMeta o .cancel id w with
    | none => exact hask
    | some m =>
      have hdisk := disk_of_loadMeta hread
      dsimp only
      split_ifs with hterm
      · exact hask
      · have hdigest := hload hlive m hdisk (by simpa using hterm)
        exact hask.ask.saveClosed rfl (consistent_closed (m := m) ho (by decide) (by decide) hdigest
          (Nat.le_succ _) (Nat.lt_succ_of_le (Nat.le_succ _)))
  | some job =>
    have hdigest := h id job hlive
    dsimp only
    split_ifs
    · have hsave := @Closes.saveClosed o strict _ _ id
        (((job.jobMeta.setState "cancelled").setError "cancelled before start").setFinished
          (o.realtimeMs w.calls)) hask rfl
        (consistent_closed (m := job.jobMeta) ho (by decide) (by decide) hdigest le_rfl
          (Nat.lt_succ_of_le (Nat.le_succ _)))
      exact (hsave.push (e := .removed id) trivial).setCtl fun other job' hother =>
        hsave.blank.erase id other job' hother
    · exact requestStop_closes h hdigest

theorem onDeadline_closes {id : ℕ} {w : World} (h : w.ctl.Blank) :
    Closes o strict w (onDeadline o id w) := by
  unfold onDeadline
  cases hlive : w.ctl.live.lookup id with
  | none => exact .refl h
  | some job =>
    dsimp only
    split_ifs
    · exact .refl h
    · exact requestStop_closes h (h id job hlive)

theorem escalate_closes {now id : ℕ} {w : World} (h : w.ctl.Blank) :
    Closes o strict w (escalate now w id) := by
  unfold escalate
  cases hlive : w.ctl.live.lookup id with
  | none => exact .refl h
  | some job =>
    dsimp only
    split_ifs
    · refine .quiet le_rfl ((Adds.refl _).signals (fun _ _ _ => trivial) _ _) ?_
      exact @Controller.Holds.insert _ _ h id (escalatedJob job) (h id job hlive)
    · exact .refl h

theorem stopRunning_closes {id : ℕ} {w : World} (h : w.ctl.Blank) :
    Closes o strict w (stopRunning o w id) := by
  unfold stopRunning
  cases hlive : w.ctl.live.lookup id with
  | none => exact .refl h
  | some job =>
    dsimp only
    split_ifs
    · exact requestStop_closes h (h id job hlive)
    · exact .refl h

theorem onCancel_lookup_ne {id other : ℕ} (hne : other ≠ id) (w : World) :
    (onCancel o id w).ctl.live.lookup other = w.ctl.live.lookup other := by
  unfold onCancel
  dsimp only
  cases hlive : w.ctl.live.lookup id with
  | none =>
    dsimp only
    split
    · rfl
    · split_ifs
      · rfl
      · rw [World.push, saveMeta_ctl]
        rfl
  | some job =>
    dsimp only
    split_ifs
    · rw [World.push, World.eraseJob, World.dequeue, saveMeta_ctl]
      exact AList.lookup_erase_ne hne
    · unfold requestStop
      dsimp only
      split_ifs
      · rfl
      · exact AList.lookup_insert_ne hne

/-- By induction on the jobs that are left, all of which are live. -/
theorem cancelQueue_closes (ho : o.Tells) {ids : List ℕ} (hnodup : ids.Nodup) {w : World}
    (h : w.ctl.Blank) (hlive : ∀ id ∈ ids, w.ctl.live.lookup id ≠ none) :
    Closes o strict w (ids.foldl (fun w id => onCancel o id w) w) := by
  induction ids generalizing w with
  | nil => exact .refl h
  | cons id ids ih =>
    obtain ⟨hnotin, hnodup⟩ := List.nodup_cons.mp hnodup
    have hcancel : Closes o strict w (onCancel o id w) :=
      onCancel_closes ho h fun hnone => absurd hnone (hlive id List.mem_cons_self)
    refine hcancel.trans (ih hnodup hcancel.blank fun other hother => ?_)
    have hne : other ≠ id := by
      rintro rfl
      exact hnotin hother
    rw [onCancel_lookup_ne hne]
    exact hlive other (List.mem_cons_of_mem id hother)

theorem onShutdown_closes (ho : o.Tells) {w : World} (h : w.ctl.Blank) (hrepr : w.ctl.Repr) :
    Closes o strict w (onShutdown o w) := by
  have hshut : Closes o strict w (w.setCtl { w.ctl with shuttingDown := true }) :=
    (Closes.refl h).setCtl h
  have hcancel := hshut.trans (cancelQueue_closes ho hrepr.nodup hshut.blank fun id hid hnone => by
    obtain ⟨job, hlive, -⟩ := (hrepr.queue id).mp hid
    cases hnone.symm.trans hlive)
  unfold onShutdown
  exact hcancel.ask.trans (.foldl (fun _ _ hblank => stopRunning_closes hblank) _ hcancel.ask.blank)

/-- The input makes the controller load the record of the job and change it. -/
def World.Loads (w : World) : Input → ℕ → Prop
  | .recover, _ => w.ctl.running = false
  | .line text, id => w.ctl.running = true ∧ text ≠ "SHUTDOWN".toList ∧
      parseU64 (text.drop 7) = some id ∧
      (("SUBMIT ".toList.isPrefixOf text = true ∧
        (w.ctl.shuttingDown = true ∨ w.ctl.live.lookup id = none)) ∨
      ("CANCEL ".toList.isPrefixOf text = true ∧ w.ctl.live.lookup id = none))
  | _, _ => False

theorem handleLine_closes (ho : o.Tells) (hprep : o.Prepares) {text : List Char} {w : World}
    (h : w.ctl.Blank) (hrepr : w.ctl.Repr) (hrun : w.ctl.running = true)
    (hload : ∀ id, w.Loads (.line text) id → w.log.Undigested id) :
    Closes o strict w (handleLine o text w) := by
  unfold handleLine
  split_ifs with hshut hsubmit hcancel
  · exact onShutdown_closes ho h hrepr
  · split
    · exact .refl h
    · next id hid =>
      exact enqueue_closes ho hprep h fun hactive =>
        hload id ⟨hrun, hshut, hid, .inl ⟨hsubmit, hactive⟩⟩
  · split
    · exact .refl h
    · next id hid =>
      exact onCancel_closes ho h fun hnone => hload id ⟨hrun, hshut, hid, .inr ⟨hcancel, hnone⟩⟩
  · exact .refl h

/-! ## Start-up -/

/-- Records without a digest stay so, if what is added has none. -/
theorem undigested_of_opens {log log' : Log} (h : Adds Effect.Opens log log')
    (hlog : ∀ id, log.Undigested id) (id : ℕ) : log'.Undigested id := by
  obtain ⟨new, rfl, hnew⟩ := h
  induction new with
  | nil => exact hlog id
  | cons e new ih =>
    have hrest := ih fun e' he' => hnew e' (List.mem_cons_of_mem e he')
    have he := hnew e List.mem_cons_self
    cases e with
    | record i m => exact he.elim
    | save i m =>
      intro m' hdisk hopen
      rw [List.cons_append, Log.disk] at hdisk
      split_ifs at hdisk with hid
      · cases hdisk
        exact he hopen
      · exact hrest m' hdisk hopen
    | _ => exact hrest

theorem recoverJob_closes (ho : o.Tells) (hprep : o.Prepares) {id : ℕ} {w : World}
    (h : w.ctl.Blank) (hload : w.log.Undigested id) : Closes o strict w (recoverJob o w id) := by
  have hask : Closes o strict w w.ask := (Closes.refl h).ask
  unfold recoverJob
  dsimp only
  cases hread : loadMeta o .recover id w with
  | none => exact hask
  | some m =>
    have hdisk := disk_of_loadMeta hread
    dsimp only
    split_ifs with hprog hwaiting
    · have hopen : isTerminalState m.state = false := by
        rcases hprog with h | h | h <;> rw [h] <;> decide
      have hkill : Closes o strict w ((parseProcs m.procs).foldl (killLeftover o) w.ask) := by
        refine hask.trans (.foldl (fun pr w hblank => ?_) _ hask.blank)
        unfold killLeftover
        split_ifs
        · exact ((Closes.refl hblank).ask.push (e := .leftover pr.1 true) trivial).push
            (e := .leftover pr.1 false) trivial
        · exact (Closes.refl hblank).ask
      exact hkill.ask.saveClosed rfl (consistent_closed (m := m) ho (by decide) (by decide)
        (hload m hdisk hopen) hkill.calls (Nat.lt_succ_of_le (Nat.le_succ _)))
    · exact hask.trans (enqueue_closes ho hprep hask.blank fun _ => hload)
    · exact hask

theorem recover_closes (ho : o.Tells) (hprep : o.Prepares) {w : World} (h : w.ctl.Blank)
    (hload : ∀ id, w.log.Undigested id) : Closes o True w (recover o w) := by
  unfold recover
  generalize listJobIds w = ids
  induction ids generalizing w with
  | nil => exact .refl h
  | cons id ids ih =>
    have hjob : Closes o True w (recoverJob o w id) := recoverJob_closes ho hprep h (hload id)
    exact hjob.trans (ih hjob.blank (undigested_of_opens (hjob.opened trivial) hload))

/-! ## Whole runs -/

/-- No record with a digest is loaded to be closed, and results that become digests
    are written. -/
structure World.Orderly (o : Oracle) (w : World) (input : Input) : Prop where
  loads : ∀ id, w.Loads input id → w.log.Undigested id
  written : (handle o w input).log.ResultsWritten

theorem Closes.of_strict {w w' : World} (h : Closes o True w w') : Closes o False w w' :=
  ⟨h.calls, h.closed, fun hno => hno.elim, h.blank⟩

/-- What a worker does writes no record. -/
theorem workerStep_closes {child : ℕ} {act : Launch → World → World} {w : World}
    (h : w.ctl.Blank) (hact : ∀ l, Closes o False w (act l w)) :
    Closes o False w (workerStep w child act) := by
  unfold workerStep
  split
  · exact .refl h
  · exact hact _

theorem updateRegion_closes {l : Launch} {f : SharedRegion → SharedRegion} {w : World}
    (h : w.ctl.Blank) : Closes o strict w (updateRegion l f w) := by
  unfold updateRegion
  cases hlive : w.ctl.live.lookup l.id with
  | none => exact .refl h
  | some job =>
    dsimp only
    split_ifs
    · exact (Closes.refl h).setCtl
        (@Controller.Holds.insert _ _ h l.id { job with shm := job.shm.map f } (h _ job hlive))
    · exact .refl h

/-- **Every input closes records consistently.** -/
theorem handle_closes (ho : o.Tells) (hprep : o.Prepares) {w : World} (h : w.ctl.Blank)
    (hrepr : w.ctl.Repr) {input : Input} (horderly : w.Orderly o input) :
    Closes o False w (handle o w input) := by
  obtain ⟨hload, hwritten⟩ := horderly
  cases input with
  | recover =>
    unfold handle
    split_ifs with hrun
    · exact .refl h
    · have hclose := recover_closes ho hprep h fun id => hload id (by simpa [Loads] using hrun)
      exact (hclose.setCtl (c := { (recover o w).ctl with running := true }) hclose.blank).of_strict
  | line text =>
    unfold handle
    split_ifs with hrun
    · exact handleLine_closes ho hprep h hrepr hrun hload
    · exact .refl h
  | reap child =>
    unfold handle at hwritten ⊢
    split_ifs at hwritten ⊢
    · exact reap_closes ho h hwritten
    · exact .refl h
  | schedule =>
    unfold handle
    split_ifs
    · exact schedule_closes ho hprep h
    · exact .refl h
  | deadline id =>
    unfold handle
    split_ifs
    · exact onDeadline_closes h
    · exact .refl h
  | tick =>
    unfold handle
    split_ifs
    · exact (Closes.refl h).ask.trans (.foldl (fun _ _ hblank => escalate_closes hblank) _ h)
    · exact .refl h
  | exit child status =>
    unfold handle
    refine workerStep_closes h fun l => ?_
    exact (Closes.refl h).push (e := .exit child status) trivial
  | slot child chunk =>
    unfold handle
    refine workerStep_closes h fun l => ?_
    split_ifs
    · exact (updateRegion_closes h).push (e := .slot child chunk) trivial
    · exact .refl h
  | bump child =>
    unfold handle
    refine workerStep_closes h fun l => ?_
    exact (updateRegion_closes h).push (e := .bump child) trivial
  | output child body =>
    unfold handle
    refine workerStep_closes h fun l => ?_
    exact (Closes.refl h).push (e := .copied l.child l.id body) trivial
  | spawn child =>
    show Closes o False w (spawnMember child w)
    unfold spawnMember
    split
    · exact .refl h
    · split_ifs
      · exact (Closes.refl h).push (e := .spawned child w.log.length) trivial
      · exact .refl h
  | gone d => exact (Closes.refl h).push (e := .gone d) trivial
  | record id m =>
    simp only [handle]
    split_ifs
    · exact ⟨le_rfl, (Adds.refl _).cons trivial, fun hno => hno.elim, h⟩
    · exact .refl h

/-- **Terminal records are consistent** in every run in which the launch calls before
    the first fork succeed, no record with a digest is loaded to be closed, and the
    results of `sha256` and `count` jobs are written. -/
theorem closed_consistent (o : Oracle) (ho : o.Tells) (hprep : o.Prepares) (slots : ℕ)
    (es : List Event)
    (hrun : Machine.Along (World.step o) (fun w e => w.Orderly o e.input) (World.start slots) es)
    (es₁ es₂ : List Event) (e : Event) (hes : es = es₁ ++ e :: es₂) :
    let w := Machine.run (World.step o) (World.start slots) es₁
    Adds (Effect.Closes o w.calls (handle o w e.input).calls) w.log (handle o w e.input).log := by
  intro w
  rw [hes, Machine.along_append] at hrun
  obtain ⟨hbefore, horderly, -⟩ := hrun
  have hinv : w.ctl.Blank ∧ w.ctl.Repr ∧ (w.ctl.running = false → w.Down) := by
    refine Machine.run_invariant (P := fun w : World => w.ctl.Blank ∧ w.ctl.Repr ∧
      (w.ctl.running = false → w.Down)) (fun w e hw hgood => ?_) hbefore ?_
    · obtain ⟨hblank, hrepr, hdown⟩ := hw
      cases e with
      | handled input =>
        refine ⟨(handle_closes ho hprep hblank hrepr hgood).blank, ?_, handle_down hdown input⟩
        exact (handle_steps (o := o) hdown (Guard.any_allows w input)).keeps
          (P := fun v => v.ctl.Repr) (fun _ _ _ hv hstep => hv.change hstep.change) hrepr
      | crash input kept slots => exact ⟨Controller.Holds.fresh slots, .fresh slots, fun _ => ⟨rfl, rfl⟩⟩
    · exact ⟨Controller.Holds.fresh slots, .fresh slots, fun _ => ⟨rfl, rfl⟩⟩
  exact (handle_closes ho hprep hinv.1 hinv.2.1 horderly).closed

/-- The answers of a system on which every call succeeds; the clock is set. -/
def Oracle.timed : Oracle := { Oracle.smooth fun _ i => 7 + i with realtimeMs := fun k => k + 1 }

theorem timed_tells : Oracle.timed.Tells where
  clock := fun k => by
    show (k : ℤ) + 1 ≠ 0
    omega
  error := fun _ _ _ hfail => by cases hfail

/-- An exec job runs, and is completed when its process has been reaped. -/
theorem closed_consistent_exec :
    let es := [.handled .recover, .handled (.record 1 (execMeta 1)),
      .handled (.line "SUBMIT 1".toList), .handled (.exit 4 (.exited 0))]
    let w := Machine.run (World.step .timed) (World.start 1) es
    Adds (Effect.Closes .timed w.calls (handle .timed w (.reap 4)).calls) w.log
      (handle .timed w (.reap 4)).log := by
  intro es w
  refine closed_consistent .timed timed_tells (fun _ => ⟨rfl, rfl, rfl⟩) 1
    (es ++ [.handled (.reap 4)]) ?_ es [] (.handled (.reap 4)) rfl
  have hempty : ∀ id, (World.start 1).log.Undigested id := by
    intro id m hdisk
    cases hdisk
  have hexec : ∀ id, parseU64 "1".toList = some id →
      Log.Undigested [.record 1 (execMeta 1)] id := by
    intro id hid m hdisk hopen
    have hone : id = 1 := by
      have hparse : parseU64 "1".toList = some 1 := by decide
      rw [hparse] at hid
      exact (Option.some.inj hid).symm
    subst hone
    cases hdisk
    rfl
  have hlog : (Machine.run (World.step .timed) (World.start 1) (es.take 2)).log =
      [.record 1 (execMeta 1)] := by
    simp [es, World.step, handle, recover, listJobIds, World.start, Log.jobIds, World.setCtl,
      Log.disk, World.push]
  refine ⟨⟨fun id _ => hempty id, by decide +kernel⟩, ⟨fun id hno => hno.elim, by decide +kernel⟩,
    ⟨fun id hload => hlog ▸ hexec id hload.2.2.1, by decide +kernel⟩,
    ⟨fun id hno => hno.elim, by decide +kernel⟩, ⟨fun id hno => hno.elim, by decide +kernel⟩, trivial⟩

theorem save_of_any {log : Log} {id : ℕ} {p : Meta → Bool}
    (h : ((log.filterMap Effect.saved?).any fun s => s.1 = id && p s.2) = true) :
    ∃ m, Effect.save id m ∈ log ∧ p m = true := by
  obtain ⟨⟨i, m⟩, hmem, hp⟩ := List.any_eq_true.mp h
  rw [Bool.and_eq_true, decide_eq_true_eq] at hp
  obtain ⟨e, he, hsaved⟩ := List.mem_filterMap.mp hmem
  obtain ⟨rfl, hp⟩ := hp
  cases e with
  | save i' m' =>
    cases hsaved
    exact ⟨m, he, hp⟩
  | _ => cases hsaved

/-- A launch that fails to open the job's log does not set `finished_ms`, and a `count`
    job whose result cannot be written fails with its digest. -/
theorem closed_inconsistent :
    (let o := { Oracle.timed with launch := fun call =>
        { Oracle.timed.launch call with openLog := .error "open job.log: No space left (errno 28)" } }
      let es := [.handled .recover, .handled (.record 1 (execMeta 1)),
        .handled (.line "SUBMIT 1".toList)]
      let w := Machine.run (World.step o) (World.start 1) es
      ∃ m, .save 1 m ∈ w.log ∧ isTerminalState m.state = true ∧ m.finishedMs = 0) ∧
    (let o := { Oracle.timed with writeOutput := fun _ => .failed "write: No space left (errno 28)" false }
      let es := [.handled .recover,
        .handled (.record 1 { id := 1, op := "count", input := "/a" }),
        .handled (.line "SUBMIT 1".toList), .handled (.slot 4 { ok := 1, length := 3, bytes := 3, aux := 1 }),
        .handled (.bump 4), .handled (.exit 4 (.exited 0)), .handled (.reap 4)]
      let w := Machine.run (World.step o) (World.start 1) es
      ∃ m, .save 1 m ∈ w.log ∧ isTerminalState m.state = true ∧
        m.state ≠ "completed" ∧ m.digest ≠ "") := by
  constructor
  · intro o es w
    obtain ⟨m, hmem, hm⟩ := @save_of_any w.log 1
      (fun m => isTerminalState m.state && m.finishedMs = 0) (by decide +kernel)
    rw [Bool.and_eq_true, decide_eq_true_eq] at hm
    exact ⟨m, hmem, hm⟩
  · intro o es w
    obtain ⟨m, hmem, hm⟩ := @save_of_any w.log 1
      (fun m => isTerminalState m.state && (m.state != "completed" && m.digest != ""))
      (by decide +kernel)
    rw [Bool.and_eq_true, Bool.and_eq_true, bne_iff_ne, bne_iff_ne] at hm
    exact ⟨m, hmem, hm⟩

end Forge
