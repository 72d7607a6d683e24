import Forge.Controller.Repr

/-!
# What a step does to the record of one job

While saves succeed and records carry their ids, a step changes the record of at
most one job. `Fate` lists what can become of that job: of its record, of its
place in `c.live` and of its having been launched.

* `Step.fate`: the job that the step is about meets its fate, all others are kept.
-/

namespace Forge

/-- The records of live jobs carry the ids the jobs are listed under. -/
def Controller.LiveIds (c : Controller) : Prop :=
  ∀ id job, c.live.lookup id = some job → job.jobMeta.id = id

/-- A live job's id is that of the job before, or that of its record. -/
theorem Change.derives {c c' : Controller} {log : Log} (hchange : Change c log c') {id : ℕ}
    {job₁ : LiveJob} (hlive₁ : c'.live.lookup id = some job₁) :
    View.Derives ⟨c, log⟩ id job₁.jobMeta := by
  have hkept : ∀ {job}, c.live.lookup id = some job → View.Derives ⟨c, log⟩ id job.jobMeta :=
    fun hlive => Or.inl ⟨_, hlive, rfl⟩
  cases hchange with
  | same hlive => exact hkept (by rwa [hlive] at hlive₁)
  | update hlive hsame =>
    rcases Controller.Repr.lookup_insert_cases hlive₁ with ⟨rfl, rfl⟩ | ⟨-, hother⟩
    · rw [hsame.jobMeta]
      exact hkept hlive
    · exact hkept hother
  | enter _ hdisk _ =>
    rcases Controller.Repr.lookup_insert_cases hlive₁ with ⟨rfl, rfl⟩ | ⟨-, hother⟩
    · exact Or.inr ⟨_, hdisk, Meta.setState_id _ _⟩
    · exact hkept hother
  | drop _ _ hctl =>
    rcases hctl with rfl | rfl
    · exact hkept (Controller.Repr.lookup_erase_cases hlive₁).2
    · exact hkept (Controller.Repr.lookup_erase_cases hlive₁).2
  | launch hjob _ hmeta =>
    rcases Controller.Repr.lookup_insert_cases hlive₁ with ⟨rfl, rfl⟩ | ⟨-, hother⟩
    · have hid : _ = _ := congrArg Meta.id hmeta
      exact Or.inl ⟨_, hjob.live, hid⟩
    · exact hkept hother
  | finish => exact hkept (Controller.Repr.lookup_erase_cases hlive₁).2

theorem Controller.LiveIds.change {c c' : Controller} {log : Log} (h : c.LiveIds)
    (hids : log.IdsMatch) (hchange : Change c log c') : c'.LiveIds := by
  intro other job₁ hother
  rcases hchange.derives hother with ⟨job, hlive, hid⟩ | ⟨m, hdisk, hid⟩
  · exact hid.trans (h other job hlive)
  · exact hid.trans (Log.disk_id hids hdisk)

/-! ## The effects of a launch -/

theorem Forked.disk {id call i : ℕ} {m : Meta} {ranges : List ByteRange} {log log' : Log}
    {procs : List ProcRef} (h : Forked id call m i ranges log procs log') (other : ℕ) :
    log'.disk other = log.disk other := by
  induction h with
  | nil => rfl
  | cons _ _ _ ih => exact ih

theorem Forked.launched {id call i : ℕ} {m : Meta} {ranges : List ByteRange} {log log' : Log}
    {procs : List ProcRef} (h : Forked id call m i ranges log procs log') {other : ℕ}
    (hother : log'.Launched other) : other = id ∨ log.Launched other := by
  induction h with
  | nil => exact Or.inr hother
  | cons _ _ _ ih =>
    rcases ih hother with hid | ⟨l, hl, hid⟩
    · exact Or.inl hid
    · rcases List.mem_cons.mp hl with rfl | hl
      · exact Or.inl hid.symm
      · exact Or.inr ⟨l, hl, hid⟩

theorem Forked.launched_of_ne_nil {id call i : ℕ} {m : Meta} {ranges : List ByteRange}
    {log log' : Log} {procs : List ProcRef} (h : Forked id call m i ranges log procs log')
    (hne : procs ≠ []) : log'.Launched id := by
  have hkeep : ∀ {i ranges log procs log'}, Forked id call m i ranges log procs log' →
      log.Launched id → log'.Launched id := by
    intro i ranges log procs log' h hl
    induction h with
    | nil => exact hl
    | cons _ _ _ ih =>
      obtain ⟨l, hl, hid⟩ := hl
      exact ih ⟨l, List.mem_cons_of_mem _ hl, hid⟩
  cases h with
  | nil => exact absurd rfl hne
  | cons _ _ hrest => exact hkeep hrest ⟨_, List.mem_cons_self, rfl⟩

theorem killedLog_disk (procs : List ProcRef) (log : Log) (id : ℕ) :
    (killedLog procs log).disk id = log.disk id := by
  induction procs generalizing log with
  | nil => rfl
  | cons pr procs ih => exact ih _

theorem killedLog_launches (procs : List ProcRef) (log : Log) :
    (killedLog procs log).launches = log.launches := by
  induction procs generalizing log with
  | nil => rfl
  | cons pr procs ih => exact ih _

theorem signalEffects_quiet (job : LiveJob) (sig : ℕ) :
    ∀ e ∈ (signalEffects job sig).reverse, Log.IsQuiet e := by
  intro e he
  obtain ⟨pr, -, rfl⟩ := List.mem_map.mp (List.mem_reverse.mp he)
  trivial

theorem Persisted.disk {o : Oracle} (ho : o.SavesAlways) {id : ℕ} {m m' : Meta}
    {state state' : String} {log log' : Log} {result : Except String String}
    {write : Option WriteAnswer} (h : Persisted o id m state log result m' state' write log') :
    m'.id = m.id ∧ (∀ other, other ≠ m.id → log'.disk other = log.disk other) ∧
      log'.launches = log.launches := by
  cases h with
  | failed => exact ⟨rfl, fun _ _ => rfl, rfl⟩
  | silent => exact ⟨rfl, fun _ _ => rfl, rfl⟩
  | written _ hsave =>
    rw [hsave.eq ho]
    exact ⟨rfl, fun other hne => if_neg (Ne.symm hne), rfl⟩
  | @unwritten body err visible log₁ _ hsave =>
    rw [hsave.eq ho]
    cases visible
    · exact ⟨rfl, fun other hne => if_neg (Ne.symm hne), rfl⟩
    · exact ⟨rfl, fun other hne => if_neg (Ne.symm hne), rfl⟩

theorem Persisted.terminal {o : Oracle} {id : ℕ} {m m' : Meta} {state state' : String}
    {log log' : Log} {result : Except String String} {write : Option WriteAnswer}
    (h : Persisted o id m state log result m' state' write log')
    (hstate : isTerminalState state = true) : isTerminalState state' = true := by
  cases h with
  | unwritten => rfl
  | _ => exact hstate

/-- Finishing a job writes a terminal state to its record. -/
theorem Finish.disk {o : Oracle} (ho : o.SavesAlways) {id : ℕ} {job : LiveJob}
    {c c' : Controller} {log log' : Log} (h : Finish o id job c log c' log') :
    log'.Terminal job.jobMeta.id ∧
      (∀ other, other ≠ job.jobMeta.id → log'.disk other = log.disk other) ∧
      log'.launches = log.launches := by
  obtain @⟨t, m, state, write, log₁, log₂, inspect, hinspect, hpersist, hsave⟩ := h
  obtain ⟨hid, hothers, hlaunches⟩ := hpersist.disk ho
  have hsettled := settle_state job.stopReason (judgedJob job t).jobMeta
    (resultsOk (judgedJob job t) inspect)
  have hmid : m.id = job.jobMeta.id := hid.trans hsettled.1
  rw [hsave.eq ho]
  refine ⟨⟨m.setState state, ?_, ?_⟩, fun other hne => ?_, hlaunches⟩
  · rw [← hmid]
    exact Log.disk_save id (m.setState state) log₁
  · exact hpersist.terminal hsettled.2
  · refine (@Log.disk_save_ne id (m.setState state) other ?_ log₁).trans (hothers other ?_)
    · rw [Meta.setState_id, hmid]
      exact Ne.symm hne
    · rw [hsettled.1]
      exact hne

/-! ## Fates -/

/-- Nothing happens to the record of the job. -/
structure Kept (v v' : View) (id : ℕ) : Prop where
  disk : v'.log.disk id = v.log.disk id
  live : (v'.ctl.live.lookup id).map (·.jobMeta) = (v.ctl.live.lookup id).map (·.jobMeta)
  launched : v'.log.Launched id → v.log.Launched id

/-- What a step can do to a job. -/
inductive Fate (g : Guard) (v v' : View) (id : ℕ) : Prop
  | kept (h : Kept v v' id)
  /-- The record becomes terminal and the job is not live, or no longer. -/
  | closed (hdisk : v'.log.Terminal id) (hlive : v'.ctl.live.lookup id = none)
  /-- A late SUBMIT line writes a terminal state whether or not the job is live. -/
  | late (hdisk : v'.log.Terminal id) (hshut : v.ctl.shuttingDown = true)
      (hlate : g.late v.ctl id) (hlive : v'.ctl.live = v.ctl.live)
      (hlaunched : v'.log.Launched id → v.log.Launched id)
  | admitted {m : Meta} (hlive : v.ctl.live.lookup id = none) (hdisk : v.log.disk id = some m)
      (hopen : isTerminalState m.state = false) (hphase : v.ctl.running = true ∨ ¬ m.InProgress)
      (hdisk' : v'.log.disk id = some (m.setState "queued"))
      (hlive' : v'.ctl.live.lookup id = some { jobMeta := m.setState "queued" })
      (hlaunched : v'.log.Launched id → v.log.Launched id)
  | launched {job job' : LiveJob} {m' : Meta} (hlive : v.ctl.live.lookup id = some job)
      (hup : v.ctl.shuttingDown = false) (hdisk' : v'.log.disk id = some m')
      (hlive' : v'.ctl.live.lookup id = some job') (hstate : job'.jobMeta.state = "running")
      (hmeta : m'.state = "running") (hforked : v'.log.Launched id)
  | appeared {m : Meta} (hdisk : v.log.disk id = none) (hrecord : g.record id m)
      (hdisk' : v'.log.disk id = some m) (hlive : v'.ctl.live = v.ctl.live)
      (hlaunched : v'.log.Launched id → v.log.Launched id)

variable {o : Oracle} {g : Guard}

/-- A change of a live job that leaves its record alone. -/
theorem kept_of_insert {c : Controller} {log log' : Log} {id other : ℕ} {job job' : LiveJob}
    (hlive : c.live.lookup id = some job) (hmeta : job'.jobMeta = job.jobMeta)
    (hdisk : log'.disk other = log.disk other) (hlaunches : log'.launches = log.launches) :
    Kept ⟨c, log⟩ ⟨{ c with live := c.live.insert id job' }, log'⟩ other where
  disk := hdisk
  live := by
    by_cases hid : other = id
    · subst hid
      show ((c.live.insert other job').lookup other).map _ = (c.live.lookup other).map _
      rw [AList.lookup_insert, hlive, Option.map_some, Option.map_some, hmeta]
    · exact congrArg _ (AList.lookup_insert_ne hid)
  launched := by
    unfold Log.Launched
    rw [hlaunches]
    exact fun h => h

/-- A save of a terminal state. -/
theorem terminal_save {j : ℕ} {m : Meta} {id : ℕ} (log : Log) (hid : m.id = id)
    (hterm : isTerminalState m.state = true) : Log.Terminal (.save j m :: log) id :=
  ⟨m, hid ▸ Log.disk_save j m log, hterm⟩

/-- A save of another job's record. -/
theorem kept_save {c c' : Controller} {log log' : Log} {j : ℕ} {m : Meta} {id other : ℕ} (hid : m.id = id)
    (hne : other ≠ id) (hdisk : log'.disk other = log.disk other)
    (hlive : (c'.live.lookup other).map (·.jobMeta) = (c.live.lookup other).map (·.jobMeta))
    (hlaunched : log'.Launched other → log.Launched other) :
    Kept ⟨c, log⟩ ⟨c', .save j m :: log'⟩ other :=
  ⟨(Log.disk_save_ne (hid ▸ Ne.symm hne) log').trans hdisk, hlive, hlaunched⟩

/-- A step that changes neither the live jobs nor a record. -/
theorem kept_of_live {c c' : Controller} {log log' : Log} (hlive : c'.live = c.live)
    (hdisk : ∀ id, log'.disk id = log.disk id) (hlaunches : log'.launches = log.launches)
    (id : ℕ) : Kept ⟨c, log⟩ ⟨c', log'⟩ id where
  disk := hdisk id
  live := by
    dsimp only
    rw [hlive]
  launched := by
    unfold Log.Launched
    dsimp only
    rw [hlaunches]
    exact fun h => h

theorem Kept.quiet {v : View} {c' : Controller} {log' : Log} {e : Effect} {id : ℕ}
    (h : Kept v ⟨c', log'⟩ id) (he : Log.IsQuiet e) : Kept v ⟨c', e :: log'⟩ id where
  disk := (Log.disk_quiet he log' id).trans h.disk
  live := h.live
  launched := by
    unfold Log.Launched
    dsimp only
    rw [Log.launches_quiet he]
    exact h.launched

/-- When every job is kept, so is the one the step is about. -/
theorem fate_of_kept {id : ℕ} {v v' : View} (h : ∀ other, Kept v v' other) :
    Fate g v v' id ∧ ∀ other, other ≠ id → Kept v v' other :=
  ⟨.kept (h id), fun other _ => h other⟩

/-- Signals, stop marks and reaps. -/
theorem quiet_stop (job : LiveJob) (sig : ℕ) (es : List Effect) (hes : ∀ e ∈ es, Log.IsQuiet e)
    (log : Log) :
    (∀ id, Log.disk ((signalEffects job sig).reverse ++ (es ++ log)) id = log.disk id) ∧
      Log.launches ((signalEffects job sig).reverse ++ (es ++ log)) = log.launches := by
  have hquiet := signalEffects_quiet job sig
  refine ⟨fun id => ?_, ?_⟩
  · rw [Log.disk_quiets hquiet, Log.disk_quiets hes]
  · rw [Log.launches_quiets hquiet, Log.launches_quiets hes]

/-- **The job that a step is about meets its fate, and all others are kept.** -/
theorem Step.fate (ho : o.SavesAlways) {id : ℕ} {v v' : View} (hids : v.log.IdsMatch)
    (hlids : v.ctl.LiveIds) (h : Step o g id v v') :
    Fate g v v' id ∧ ∀ other, other ≠ id → Kept v v' other := by
  cases h with
  | started => exact fate_of_kept (kept_of_live rfl (fun _ => rfl) rfl)
  | @recoverFail c log log' id m t kills hlive hdisk _ hkills hsave =>
    have hid : m.id = id := Log.disk_id hids hdisk
    have hquiet : ∀ e ∈ kills, Log.IsQuiet e := by
      intro e he
      obtain ⟨_, _, rfl⟩ := hkills e he
      trivial
    have hlaunches := Log.launches_quiets hquiet log
    rw [hsave.eq ho]
    refine ⟨.closed (terminal_save _ hid rfl) hlive, fun other hne => ?_⟩
    refine kept_save hid hne (Log.disk_quiets hquiet log other) rfl ?_
    unfold Log.Launched
    rw [hlaunches]
    exact fun h => h
  | @cancelLate c log log' id m t hshut hlate hdisk _ hsave =>
    have hid : m.id = id := Log.disk_id hids hdisk
    rw [hsave.eq ho]
    exact ⟨.late (terminal_save _ hid rfl) hshut hlate rfl fun h => h,
      fun other hne => kept_save hid hne rfl rfl fun h => h⟩
  | @reject c log log' id m err t _ hlive hdisk _ _ hsave =>
    have hid : m.id = id := Log.disk_id hids hdisk
    rw [hsave.eq ho]
    exact ⟨.closed (terminal_save _ hid rfl) hlive,
      fun other hne => kept_save hid hne rfl rfl fun h => h⟩
  | @enter c log log' id m _ hlive hdisk hopen _ hphase hsave =>
    have hid : (m.setState "queued").id = id :=
      (Meta.setState_id m "queued").trans (Log.disk_id hids hdisk)
    rw [hsave.eq ho]
    refine ⟨.admitted hlive hdisk hopen hphase ?_ (AList.lookup_insert _) fun h => h,
      fun other hne => .quiet (e := .admitted id) (kept_save hid hne rfl ?_ fun h => h) trivial⟩
    · rw [← hid]
      exact Log.disk_save id _ _
    · exact congrArg _ (AList.lookup_insert_ne hne)
  | @launchFail c c' log log' id job m hjob hmid hstate hsave hctl =>
    have hid : m.id = id := hmid.trans (hlids id job hjob.live)
    have hlive : c'.live = c.live.erase id := by rcases hctl with rfl | rfl <;> rfl
    have hterm : isTerminalState m.state = true := by
      rw [hstate]
      rfl
    rw [hsave.eq ho]
    refine ⟨.closed (terminal_save (j := id) _ hid hterm) ?_,
      fun other hne => .quiet (e := .removed id) (kept_save hid hne rfl ?_ fun h => h) trivial⟩
    · exact (congrArg _ hlive).trans (AList.lookup_erase _ _)
    · exact congrArg _ ((congrArg _ hlive).trans (AList.lookup_erase_ne hne))
  | @launchSpawnFail c log log₁ log₂ log' id n job m m' procs hjob hmid _ hmid' hstate' t hstart
      hfork hsave =>
    have hid : m'.id = id := hmid'.trans (hlids id job hjob.live)
    have hid₁ : m.id = id := hmid.trans (hlids id job hjob.live)
    have hterm : isTerminalState m'.state = true := by
      rw [hstate']
      rfl
    rw [hstart.eq ho] at hfork
    rw [hsave.eq ho]
    refine ⟨.closed (terminal_save (j := id) _ hid hterm) (AList.lookup_erase _ _),
      fun other hne => .quiet (e := .removed id) (kept_save hid hne ?_ ?_ ?_) trivial⟩
    · rw [killedLog_disk, hfork.disk]
      exact Log.disk_save_ne (m := m.setStarted t) (hid₁ ▸ Ne.symm hne) log
    · exact congrArg _ (AList.lookup_erase_ne hne)
    · intro hlaunched
      unfold Log.Launched at hlaunched
      rw [killedLog_launches] at hlaunched
      exact (hfork.launched hlaunched).resolve_left hne
  | @launch c log log₁ log₂ log' id call job m procs deadlineId t hjob bytes t' hmeta _ hstart hfork
      hrun =>
    have hid : m.id = id := by
      rw [hmeta]
      exact hlids id job hjob.live
    have hid' : ((m.setProcs (formatProcs procs)).setState "running").id = id := hid
    rw [hstart.eq ho] at hfork
    rw [hrun.eq ho]
    refine ⟨.launched hjob.live hjob.up (hid' ▸ Log.disk_save id _ log₂) (AList.lookup_insert _)
      rfl rfl (hfork.launched_of_ne_nil hfork.ne_nil), fun other hne => kept_save hid' hne ?_ ?_ ?_⟩
    · rw [hfork.disk]
      exact Log.disk_save_ne (m := m.setStarted t) (hid ▸ Ne.symm hne) log
    · exact congrArg _ (AList.lookup_insert_ne hne)
    · exact fun hlaunched => (hfork.launched hlaunched).resolve_left hne
  | cancelNothing => exact fate_of_kept (kept_of_live rfl (fun _ => rfl) rfl)
  | @cancelRecord c log log' id m t hlive hdisk _ hsave =>
    have hid : m.id = id := Log.disk_id hids hdisk
    rw [hsave.eq ho]
    exact ⟨.closed (terminal_save (j := id) log hid rfl) hlive,
      fun other hne => .quiet (e := .cancelled id) (kept_save hid hne rfl rfl fun h => h) trivial⟩
  | @cancelQueued c log log' id job t hlive hqueued hsave =>
    have hid : job.jobMeta.id = id := hlids id job hlive
    rw [hsave.eq ho]
    exact ⟨.closed (terminal_save (j := id) log hid rfl) (AList.lookup_erase _ _),
      fun other hne => .quiet (e := .cancelled id) (.quiet (e := .removed id) (kept_save hid hne rfl
        (congrArg _ (AList.lookup_erase_ne hne)) fun h => h) trivial) trivial⟩
  | cancelRunning => exact fate_of_kept (kept_of_live rfl (fun _ => rfl) rfl)
  | @stop c log id now job reason hlive _ _ _ =>
    have hquiet := quiet_stop job sigterm [.stop id reason] (by simp [Log.IsQuiet]) log
    exact fate_of_kept fun other => kept_of_insert hlive rfl (hquiet.1 other) hquiet.2
  | stopAgain => exact fate_of_kept (kept_of_live rfl (fun _ => rfl) rfl)
  | @escalate c log id job hlive _ =>
    have hquiet := quiet_stop job sigkill [] (by simp) log
    exact fate_of_kept fun other => kept_of_insert hlive rfl (hquiet.1 other) hquiet.2
  | shutdown => exact fate_of_kept (kept_of_live rfl (fun _ => rfl) rfl)
  | reapUnknown => exact fate_of_kept (kept_of_live rfl (fun _ => rfl) rfl)
  | reapSome _ _ hlive _ _ => exact fate_of_kept fun _ => kept_of_insert hlive rfl rfl rfl
  | @reapBad c log l status id now job _ _ hlive _ _ _ =>
    have hquiet := quiet_stop (reapedJob job l.pid status) sigterm
      [.stop id "failed", .reap l.child] (by simp [Log.IsQuiet]) log
    exact fate_of_kept fun other => kept_of_insert hlive rfl (hquiet.1 other) hquiet.2
  | @reapLast c c' log log' l status id job _ _ hlive _ _ _ hfinish =>
    obtain ⟨hterm, hothers, hlaunches⟩ := hfinish.disk ho
    have hid : (reapedJob job l.pid status).jobMeta.id = id := hlids id job hlive
    rw [hid] at hterm hothers
    rw [hfinish.ctl]
    refine ⟨.closed hterm (AList.lookup_erase _ _), fun other hne => ⟨hothers other hne, ?_, ?_⟩⟩
    · exact congrArg _ (AList.lookup_erase_ne hne)
    · unfold Log.Launched
      rw [hlaunches]
      exact fun h => h
  | @reapLastBad c c' log log' l status id now job _ _ hlive _ _ _ _ hfinish =>
    obtain ⟨hterm, hothers, hlaunches⟩ := hfinish.disk ho
    have hid : (stoppedJob (reapedJob job l.pid status) "failed" now).jobMeta.id = id :=
      hlids id job hlive
    rw [hid] at hterm hothers
    rw [hfinish.ctl]
    refine ⟨.closed hterm (AList.lookup_erase _ _), fun other hne => ⟨hothers other hne, ?_, ?_⟩⟩
    · exact congrArg _ (AList.lookup_erase_ne hne)
    · unfold Log.Launched
      rw [hlaunches]
      exact fun h => h
  | workerExit => exact fate_of_kept (kept_of_live rfl (fun _ => rfl) rfl)
  | workerOutput => exact fate_of_kept (kept_of_live rfl (fun _ => rfl) rfl)
  | memberSpawned => exact fate_of_kept (kept_of_live rfl (fun _ => rfl) rfl)
  | memberGone => exact fate_of_kept (kept_of_live rfl (fun _ => rfl) rfl)
  | @workerRegion c log l e f _ _ hf =>
    have hquiet : Log.IsQuiet e := by
      rcases hf with ⟨chunk, -, rfl, -⟩ | ⟨rfl, -⟩ <;> trivial
    have hdisk := Log.disk_quiet hquiet log
    have hlaunches := Log.launches_quiet hquiet log
    split
    · exact fate_of_kept (kept_of_live rfl hdisk hlaunches)
    · next job hlive =>
      split_ifs
      · exact fate_of_kept fun other => kept_of_insert hlive rfl (hdisk other) hlaunches
      · exact fate_of_kept (kept_of_live rfl hdisk hlaunches)
  | @record c log id m hnew hrecord =>
    exact ⟨.appeared hnew hrecord (if_pos rfl) rfl fun h => h,
      fun other hne => ⟨if_neg (Ne.symm hne), rfl, fun h => h⟩⟩

end Forge
