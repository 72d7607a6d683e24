import Forge.Controller.Attribution
import Forge.Controller.Backlog
import Forge.Controller.Effects
import Forge.Controller.ProcList
import Forge.Controller.Records

/-!
# The workers that a dead controller has left

The record of a job lists its workers from the moment all are forked
(controller.cpp:614-630), and `recover` kills by that list (controller.cpp:781-808).
While they are being forked it is empty.

* `Rostered.step_lists`: what the list has, at every save.
* `recoverLoop_kills`: whom `recover` kills.
* `recover_signals`: its other signals go to workers of its own.
* `orphans_killed`: the workers of a dead controller.
-/

namespace Forge

open World

variable {o : Oracle} {g : Guard} {log log' : Log}

/-! ## The list -/

/-- The workers of job `id`, in the order of their forks. -/
def Log.workersOf (log : Log) (id : ℕ) : List Launch := (log.launches.filter (·.id = id)).reverse

/-- The process list that names the workers of the job. -/
def Log.listing (log : Log) (id : ℕ) : String :=
  formatProcs ((log.workersOf id).map fun l => { pid := l.pid, start := l.start })

theorem formatProcs_congr {ps ps' : List ProcRef}
    (h : ps.map (fun pr => (pr.pid, pr.start)) = ps'.map fun pr => (pr.pid, pr.start)) :
    formatProcs ps = formatProcs ps' := by
  have htext : ∀ ps : List ProcRef, (ps.map fun pr => toString pr.pid ++ "@" ++ toString pr.start) =
      (ps.map fun pr => (pr.pid, pr.start)).map fun p => toString p.1 ++ "@" ++ toString p.2 := by
    intro ps
    rw [List.map_map]
    rfl
  rw [formatProcs, formatProcs, htext, htext, h]

theorem listing_congr (h : log'.launches = log.launches) (id : ℕ) :
    log'.listing id = log.listing id := by
  rw [Log.listing, Log.listing, Log.workersOf, Log.workersOf, h]

/-- A job that was not launched has no workers. -/
theorem listing_unlaunched {id : ℕ} (h : ¬ log.Launched id) : log.listing id = "" := by
  have hnone : log.launches.filter (·.id = id) = [] := by
    refine List.filter_eq_nil_iff.mpr fun l hl => ?_
    simpa using fun hid => h ⟨l, hl, hid⟩
  rw [Log.listing, Log.workersOf, hnone]
  rfl

theorem listing_fork_ne {l : Launch} {id : ℕ} (h : l.id ≠ id) :
    Log.listing (.fork l :: log) id = log.listing id := by
  rw [Log.listing, Log.listing, Log.workersOf, Log.workersOf, Log.launches,
    List.filter_cons_of_neg (by simpa using h)]

theorem Forked.workersOf {id call i : ℕ} {m : Meta} {ranges : List ByteRange} {procs : List ProcRef}
    (h : Forked id call m i ranges log procs log') :
    (log'.workersOf id).map (fun l => (l.pid, l.start)) =
      (log.workersOf id).map (fun l => (l.pid, l.start)) ++
        procs.map fun pr => (pr.pid, pr.start) := by
  induction h with
  | nil => simp
  | cons _ _ _ ih =>
    rw [ih]
    simp [Log.workersOf, Log.launches]

/-- After the fork loop, the list names the processes it has made. -/
theorem Forked.listing {id call i : ℕ} {m : Meta} {ranges : List ByteRange} {procs : List ProcRef}
    (h : Forked id call m i ranges log procs log') (hnot : ¬ log.Launched id) :
    log'.listing id = formatProcs procs := by
  have hnone : log.workersOf id = [] := by
    refine List.reverse_eq_nil_iff.mpr (List.filter_eq_nil_iff.mpr fun l hl => ?_)
    simpa using fun hid => hnot ⟨l, hl, hid⟩
  refine formatProcs_congr ?_
  have hworkers := h.workersOf
  rw [hnone, List.map_nil, List.nil_append] at hworkers
  rw [List.map_map]
  exact hworkers

theorem Forked.listing_other {id call i : ℕ} {m : Meta} {ranges : List ByteRange}
    {procs : List ProcRef} (h : Forked id call m i ranges log procs log') {other : ℕ}
    (hne : other ≠ id) : log'.listing other = log.listing other := by
  induction h with
  | nil => rfl
  | cons _ _ _ ih => exact ih.trans (listing_fork_ne (Ne.symm hne))

/-- A record that is not terminal lists the job's workers, unless they are being
    forked. -/
def Meta.ListsFor (m : Meta) (text : String) : Prop :=
  isTerminalState m.state = false → m.procs = if m.state = "starting" then "" else text

/-- Effects on the records that keep the lists. -/
def RosterOk : Effect → Log → Prop
  | .save _ m, log => m.ListsFor (log.listing m.id)
  | .record _ m, _ => m.procs = ""
  | .fork l, log => ∃ m, log.disk l.id = some m ∧ m.state = "starting"
  | _, _ => True

/-- What the records say of the workers. -/
theorem disk_lists {strict reads : Prop} (hall : History.All RosterOk log)
    (hrecords : History.All (RecordOk strict reads) log) (hreads : reads) {id : ℕ} {m : Meta}
    (hdisk : log.disk id = some m) : m.ListsFor (log.listing id) := by
  induction log with
  | nil => cases hdisk
  | cons e log ih =>
    obtain ⟨hok, hall⟩ := hall
    obtain ⟨hrecord, hrecords⟩ := hrecords
    cases e with
    | save j m' =>
      show m.ListsFor (Log.listing log id)
      by_cases hid : m'.id = id
      · subst hid
        cases (Log.disk_save j m' log).symm.trans hdisk
        exact hok
      · exact ih hall hrecords ((Log.disk_save_ne hid log).symm.trans hdisk)
    | record i m' =>
      show m.ListsFor (Log.listing log id)
      by_cases hid : i = id
      · subst hid
        cases (show Log.disk (.record i m' :: log) i = some m' from if_pos rfl).symm.trans hdisk
        have hnot : ¬ Log.Launched log i := fun hl => by
          obtain ⟨m', hdisk', -⟩ := launched_past hrecords hreads hl
          cases hrecord.symm.trans hdisk'
        intro _
        rw [listing_unlaunched hnot, ite_self]
        exact hok
      · exact ih hall hrecords ((show Log.disk (.record i m' :: log) id = _ from if_neg hid).symm.trans
          hdisk)
    | fork l =>
      have hlists := ih hall hrecords hdisk
      by_cases hid : l.id = id
      · subst hid
        obtain ⟨m', hdisk', hstarting⟩ := hok
        cases hdisk'.symm.trans hdisk
        intro hopen
        rw [if_pos hstarting]
        exact (hlists hopen).trans (if_pos hstarting)
      · rw [listing_fork_ne hid]
        exact hlists
    | _ => exact ih hall hrecords hdisk

/-! ## Steps -/

theorem roster_quiets {es : List Effect} (hes : ∀ e ∈ es, Log.IsQuiet e)
    (hall : History.All RosterOk log) : History.All RosterOk (es ++ log) := by
  refine History.all_append (fun e he past _ => ?_) hall
  have hquiet := hes e he
  cases e <;> first | exact hquiet.elim | trivial

theorem roster_killed (procs : List ProcRef) (hall : History.All RosterOk log) :
    History.All RosterOk (killedLog procs log) := by
  induction procs generalizing log with
  | nil => exact hall
  | cons pr procs ih => exact ih ⟨trivial, trivial, trivial, hall⟩

/-- A record in a terminal state lists whom it likes. -/
theorem listsFor_terminal {m : Meta} (h : isTerminalState m.state = true) (text : String) :
    m.ListsFor text := fun hopen => by cases h.symm.trans hopen

theorem Forked.roster {id call i : ℕ} {m : Meta} {ranges : List ByteRange} {procs : List ProcRef}
    (h : Forked id call m i ranges log procs log')
    (hdisk : ∃ m, log.disk id = some m ∧ m.state = "starting")
    (hall : History.All RosterOk log) : History.All RosterOk log' := by
  induction h with
  | nil => exact hall
  | cons _ _ _ ih => exact ih hdisk ⟨hdisk, hall⟩

/-- The record of a starting job lists nobody while its workers are forked. -/
theorem Forked.roster_started {id call i : ℕ} {m : Meta} {t : ℤ} {ranges : List ByteRange}
    {procs : List ProcRef}
    (h : Forked id call m i ranges (.save id (m.setStarted t) :: log) procs log')
    (hid : m.id = id) (hprocs : m.procs = "") (hstarting : m.state = "starting")
    (hall : History.All RosterOk log) : History.All RosterOk log' := by
  have hdisk : Log.disk (.save id (m.setStarted t) :: log) id = some (m.setStarted t) := by
    rw [← hid]
    exact Log.disk_save m.id (m.setStarted t) log
  have hstartOk : RosterOk (.save id (m.setStarted t)) log := fun _ =>
    hprocs.trans (if_pos hstarting).symm
  exact h.roster ⟨m.setStarted t, hdisk, hstarting⟩ ⟨hstartOk, hall⟩

/-- Finishing a job writes its list once more, and then a terminal state. -/
theorem Finish.roster (ho : o.SavesAlways) {id : ℕ} {job : LiveJob} {c c' : Controller}
    (h : Finish o id job c log c' log') (hlist : job.jobMeta.procs = log.listing job.jobMeta.id)
    (hall : History.All RosterOk log) : History.All RosterOk log' := by
  obtain @⟨t, m, state, write, log₁, log₂, inspect, hinspect, hpersist, hsave⟩ := h
  have hsettled : ∀ result, (settle job.stopReason (judgedJob job t).jobMeta result).1.procs =
      log.listing (settle job.stopReason (judgedJob job t).jobMeta result).1.id := by
    intro result
    cases result <;> exact hlist
  have hterm := (settle_state job.stopReason (judgedJob job t).jobMeta
    (resultsOk (judgedJob job t) inspect)).2
  dsimp only at hpersist
  generalize resultsOk (judgedJob job t) inspect =
    result at hpersist hterm
  have hprocs := hsettled result
  generalize settle job.stopReason (judgedJob job t).jobMeta result = settled at hpersist hterm hprocs
  have hfinal := hpersist.terminal hterm
  have hpersisting : RosterOk (.save id (settled.1.setState "persisting")) log := fun _ => hprocs
  rw [hsave.eq ho]
  refine ⟨trivial, trivial, listsFor_terminal (m := m.setState state) hfinal _, ?_⟩
  cases hpersist with
  | failed => exact hall
  | silent => exact hall
  | written _ hsaved =>
    rw [hsaved.eq ho]
    exact ⟨trivial, hpersisting, hall⟩
  | @unwritten _ _ visible _ _ hsaved =>
    rw [hsaved.eq ho]
    cases visible
    · exact ⟨hpersisting, hall⟩
    · exact ⟨trivial, hpersisting, hall⟩

/-- The lists of the records and of the live jobs. -/
structure Rostered (o : Oracle) (g : Guard) (v : View) : Prop where
  tracked : Tracked o g v
  history : History.All RosterOk v.log
  live : ∀ id job, v.ctl.live.lookup id = some job → job.jobMeta.procs = v.log.listing id

namespace Rostered

variable {v : View} {id : ℕ}

theorem keep (hv : Rostered o g v) {live : AList fun _ : ℕ => LiveJob}
    (hlive : live.lookup id = v.ctl.live.lookup id) (hlaunches : log'.launches = v.log.launches) :
    ∀ job', live.lookup id = some job' → job'.jobMeta.procs = log'.listing id := by
  intro job' hlive'
  rw [listing_congr hlaunches]
  exact hv.live id job' (hlive.symm.trans hlive')

/-- The list of a live job is in the record of its own id. -/
theorem listed (hv : Rostered o g v) {job : LiveJob} (hlive : v.ctl.live.lookup id = some job) :
    job.jobMeta.procs = v.log.listing job.jobMeta.id := by
  rw [hv.tracked.ordered.live id job hlive]
  exact hv.live id job hlive

theorem insert (hv : Rostered o g v) {job job' : LiveJob} (hlive : v.ctl.live.lookup id = some job)
    (hprocs : job'.jobMeta.procs = job.jobMeta.procs) (hlaunches : log'.launches = v.log.launches) :
    ∀ job'', (v.ctl.live.insert id job').lookup id = some job'' →
      job''.jobMeta.procs = log'.listing id := by
  intro job'' hlive'
  rw [AList.lookup_insert] at hlive'
  cases hlive'
  rw [listing_congr hlaunches, hprocs]
  exact hv.live id job hlive

theorem erased {live : AList fun _ : ℕ => LiveJob} :
    ∀ job', (live.erase id).lookup id = some job' → job'.jobMeta.procs = log'.listing id := by
  intro job' hlive'
  rw [AList.lookup_erase] at hlive'
  cases hlive'

/-- The list of a queued job is empty. -/
theorem queued (hv : Rostered o g v) (hloads : o.Loads) {job : LiveJob}
    (hlive : v.ctl.live.lookup id = some job) (hqueued : job.jobMeta.state = "queued") :
    job.jobMeta.procs = "" := by
  rw [hv.live id job hlive, listing_unlaunched (hv.tracked.waiting hloads id job hlive hqueued)]

end Rostered

/-- **Every step keeps the lists**, and it changes only those of the job it is about. -/
theorem Rostered.step_lists (ho : o.SavesAlways) (hloads : o.Loads)
    (hg : ∀ id m, g.record id m → m.procs = "")
    {id : ℕ} {v v' : View} (hv : Rostered o g v) (h : Step o g id v v') :
    History.All RosterOk v'.log ∧ (∀ other, other ≠ id → v'.log.listing other = v.log.listing other) ∧
      ∀ job', v'.ctl.live.lookup id = some job' → job'.jobMeta.procs = v'.log.listing id := by
  have hall := hv.history
  have hlids := hv.tracked.ordered.live
  cases h with
  | started => exact ⟨hall, fun _ _ => rfl, hv.live id⟩
  | @recoverFail c log log' id m t kills _ _ _ hkills hsave =>
    have hquiet : ∀ e ∈ kills, Log.IsQuiet e := by
      intro e he
      obtain ⟨_, _, rfl⟩ := hkills e he
      trivial
    have hlaunches := Log.launches_quiets hquiet log
    rw [hsave.eq ho]
    exact ⟨⟨listsFor_terminal rfl _, roster_quiets hquiet hall⟩,
      fun other _ => listing_congr hlaunches other, hv.keep rfl hlaunches⟩
  | cancelLate _ _ _ _ hsave =>
    rw [hsave.eq ho]
    exact ⟨⟨listsFor_terminal rfl _, hall⟩, fun _ _ => rfl, hv.keep rfl rfl⟩
  | reject _ _ _ _ _ hsave =>
    rw [hsave.eq ho]
    exact ⟨⟨listsFor_terminal rfl _, hall⟩, fun _ _ => rfl, hv.keep rfl rfl⟩
  | @enter c log log' id m _ hlive hdisk hopen _ hphase hsave =>
    have hid : m.id = id := Log.disk_id hv.tracked.ordered.ids hdisk
    have hlist : log.listing id = "" :=
      listing_unlaunched (hv.tracked.not_launched hloads hlive hdisk hopen hphase)
    have hprocs : m.procs = log.listing id := by
      have := disk_lists hall hv.tracked.history hloads hdisk hopen
      rwa [hlist, ite_self, ← hlist] at this
    rw [hsave.eq ho]
    refine ⟨⟨trivial, fun _ => ?_, hall⟩, fun _ _ => rfl, fun job' hlive' => ?_⟩
    · rw [Meta.setState_id, hid]
      exact hprocs
    · dsimp only at hlive'
      rw [AList.lookup_insert] at hlive'
      cases hlive'
      exact hprocs
  | launchFail hjob _ hstate hsave hctl =>
    rw [hsave.eq ho]
    refine ⟨⟨trivial, listsFor_terminal (by rw [hstate]; rfl) _, hall⟩, fun _ _ => rfl, ?_⟩
    rcases hctl with rfl | rfl
    · exact Rostered.erased
    · exact Rostered.erased
  | @launchSpawnFail c log log₁ log₂ log' id n job m m' procs hjob hmid hstarting _ hstate' t hstart
      hfork hsave hmeta =>
    have hid : m.id = id := hmid.trans (hlids id job hjob.live)
    have hprocs : m.procs = "" := by
      obtain ⟨bytes, t', rfl⟩ := hmeta
      exact hv.queued hloads hjob.live hjob.queued
    rw [hstart.eq ho] at hfork
    have hall₂ := hfork.roster_started hid hprocs hstarting hall
    rw [hsave.eq ho]
    refine ⟨⟨trivial, listsFor_terminal (by rw [hstate']; rfl) _, roster_killed procs hall₂⟩,
      fun other hne => ?_, Rostered.erased⟩
    exact (listing_congr (killedLog_launches procs log₂) other).trans (hfork.listing_other hne)
  | @launch c log log₁ log₂ log' id call job m procs deadlineId t hjob bytes t' hmeta _ hstart hfork
      hrun =>
    have hid : m.id = id := by
      rw [hmeta]
      exact hlids id job hjob.live
    have hstarting : m.state = "starting" := by
      rw [hmeta]
      rfl
    have hprocs : m.procs = "" := by
      rw [hmeta]
      exact hv.queued hloads hjob.live hjob.queued
    rw [hstart.eq ho] at hfork
    have hall₂ := hfork.roster_started hid hprocs hstarting hall
    have hlist : formatProcs procs = log₂.listing id :=
      (hfork.listing (hv.tracked.waiting hloads id job hjob.live hjob.queued)).symm
    rw [hrun.eq ho]
    refine ⟨⟨fun _ => ?_, hall₂⟩, fun other hne => hfork.listing_other hne, fun job' hlive' => ?_⟩
    · show formatProcs procs = log₂.listing m.id
      rw [hid, hlist]
    · dsimp only at hlive'
      rw [AList.lookup_insert] at hlive'
      cases hlive'
      exact hlist
  | cancelNothing => exact ⟨⟨trivial, hall⟩, fun _ _ => rfl, hv.keep rfl rfl⟩
  | cancelRecord _ _ _ hsave =>
    rw [hsave.eq ho]
    exact ⟨⟨trivial, listsFor_terminal rfl _, hall⟩, fun _ _ => rfl, hv.keep rfl rfl⟩
  | cancelQueued _ _ hsave =>
    rw [hsave.eq ho]
    exact ⟨⟨trivial, trivial, listsFor_terminal rfl _, hall⟩, fun _ _ => rfl, Rostered.erased⟩
  | cancelRunning => exact ⟨⟨trivial, hall⟩, fun _ _ => rfl, hv.keep rfl rfl⟩
  | @stop c log id now job reason hlive _ _ _ =>
    have hlaunches := (quiet_stop job sigterm [.stop id reason] (by simp [Log.IsQuiet]) log).2
    exact ⟨roster_quiets (signalEffects_quiet job sigterm) ⟨trivial, hall⟩,
      fun other _ => listing_congr hlaunches other, hv.insert hlive rfl hlaunches⟩
  | stopAgain => exact ⟨⟨trivial, hall⟩, fun _ _ => rfl, hv.keep rfl rfl⟩
  | @escalate c log id job hlive _ =>
    have hlaunches := (quiet_stop job sigkill [] (by simp) log).2
    exact ⟨roster_quiets (signalEffects_quiet job sigkill) hall,
      fun other _ => listing_congr hlaunches other, hv.insert hlive rfl hlaunches⟩
  | shutdown => exact ⟨hall, fun _ _ => rfl, hv.live id⟩
  | reapUnknown => exact ⟨⟨trivial, hall⟩, fun _ _ => rfl, hv.keep rfl rfl⟩
  | reapSome _ _ hlive _ _ =>
    exact ⟨⟨trivial, hall⟩, fun _ _ => rfl, hv.insert hlive rfl rfl⟩
  | @reapBad c log l status id now job _ _ hlive _ _ _ =>
    have hlaunches := (quiet_stop (reapedJob job l.pid status) sigterm
      [.stop id "failed", .reap l.child] (by simp [Log.IsQuiet]) log).2
    exact ⟨roster_quiets (signalEffects_quiet _ sigterm) ⟨trivial, trivial, hall⟩,
      fun other _ => listing_congr hlaunches other, hv.insert hlive rfl hlaunches⟩
  | @reapLast c c' log log' l status id job _ _ hlive _ _ _ hfinish =>
    have hlaunches : log'.launches = log.launches := (hfinish.disk ho).2.2
    have hlist : job.jobMeta.procs = log.listing job.jobMeta.id := hv.listed hlive
    refine ⟨hfinish.roster ho hlist ⟨trivial, hall⟩,
      fun other _ => listing_congr hlaunches other, ?_⟩
    rw [hfinish.ctl]
    exact Rostered.erased
  | @reapLastBad c c' log log' l status id now job _ _ hlive _ _ _ _ hfinish =>
    have hlaunches : log'.launches = log.launches := (hfinish.disk ho).2.2
    have hlist : job.jobMeta.procs = log.listing job.jobMeta.id := hv.listed hlive
    refine ⟨hfinish.roster ho hlist ⟨trivial, trivial, hall⟩,
      fun other _ => listing_congr hlaunches other, ?_⟩
    rw [hfinish.ctl]
    exact Rostered.erased
  | workerExit => exact ⟨⟨trivial, hall⟩, fun _ _ => rfl, hv.keep rfl rfl⟩
  | workerOutput => exact ⟨⟨trivial, hall⟩, fun _ _ => rfl, hv.keep rfl rfl⟩
  | memberSpawned => exact ⟨⟨trivial, hall⟩, fun _ _ => rfl, hv.keep rfl rfl⟩
  | memberGone => exact ⟨⟨trivial, hall⟩, fun _ _ => rfl, hv.keep rfl rfl⟩
  | @workerRegion c log l e f _ _ hf =>
    have hquiet : Log.IsQuiet e := by
      rcases hf with ⟨_, -, rfl, -⟩ | ⟨rfl, -⟩ <;> trivial
    have hlaunches := Log.launches_quiet hquiet log
    have hquiets : ∀ e' ∈ [e], Log.IsQuiet e' := by simpa using hquiet
    refine ⟨roster_quiets hquiets hall,
      fun other _ => listing_congr hlaunches other, ?_⟩
    split
    · exact hv.keep rfl hlaunches
    · next job hlive =>
      split_ifs
      · exact hv.insert hlive rfl hlaunches
      · exact hv.keep rfl hlaunches
  | record _ hrecord => exact ⟨⟨hg _ _ hrecord, hall⟩, fun _ _ => rfl, hv.keep rfl rfl⟩

/-- Outside the controller nobody writes a process list. -/
def Guard.plain : Guard where
  record := fun id m => m.id = id ∧ m.procs = ""

theorem Rostered.step (ho : o.SavesAlways) (hloads : o.Loads) {id₀ : ℕ} {v v' : View}
    (hv : Rostered o .plain v) (h : Step o .plain id₀ v v') : Rostered o .plain v' := by
  have hplain : ∀ id m, Guard.plain.record id m → m.id = id ∧ m.procs = "" := fun _ _ h => h
  obtain ⟨hall, hothers, hown⟩ := hv.step_lists ho hloads (fun id m hrecord => (hplain id m hrecord).2) h
  refine ⟨hv.tracked.step ho (fun id m hrecord => (hplain id m hrecord).1) h, hall,
    fun id job hlive => ?_⟩
  by_cases hid : id = id₀
  · subst hid
    exact hown job hlive
  · rw [hothers id hid]
    exact hv.live id job ((h.concerns.2 id hid).symm.trans hlive)

theorem Rostered.fresh {log : Log} (hids : log.IdsMatch)
    (hrecords : History.All (RecordOk Guard.plain.Strict o.Loads) log)
    (hall : History.All RosterOk log) (slots : ℕ) : Rostered o .plain ⟨{ slotsMax := slots }, log⟩ :=
  ⟨.fresh hids hrecords slots, hall, by simp⟩

/-- SIGKILL has been sent to the process and to its group. -/
def Killed (log log' : Log) (pid : ℕ) : Prop :=
  ∃ new : List Effect, log' = new ++ log ∧ .leftover pid true ∈ new ∧ .leftover pid false ∈ new

theorem Killed.mono {log₀ log₁ : Log} {pid : ℕ} (h : Killed log log' pid) (hpast : log₀ <:+ log)
    (hfuture : log' <:+ log₁) : Killed log₀ log₁ pid := by
  obtain ⟨new, rfl, hgroup, hproc⟩ := h
  obtain ⟨older, rfl⟩ := hpast
  obtain ⟨newer, rfl⟩ := hfuture
  refine ⟨newer ++ (new ++ older), by simp, ?_, ?_⟩
  · exact List.mem_append_right _ (List.mem_append_left _ hgroup)
  · exact List.mem_append_right _ (List.mem_append_left _ hproc)

/-- The process has had this start time between two calls. -/
def Oracle.Alive (o : Oracle) (call call' pid start : ℕ) : Prop :=
  ∀ k, call ≤ k → k < call' → o.procStart k pid = some start

theorem Oracle.Alive.mono {call call' mid mid' pid start : ℕ} (h : o.Alive call call' pid start)
    (hcall : call ≤ mid) (hcall' : mid' ≤ call') : o.Alive mid mid' pid start :=
  fun k hk hk' => h k (hcall.trans hk) (hk'.trans_le hcall')

/-- `recover` has these ids still to walk. -/
structure Recovering (ids : List ℕ) (w : World) : Prop where
  up : w.ctl.shuttingDown = false
  repr : w.ctl.Repr
  ordered : Ordered w.view
  nodup : ids.Nodup
  idle : ∀ id ∈ ids, w.ctl.live.lookup id = none

theorem Recovering.next {id : ℕ} {ids : List ℕ} {w : World} (h : Recovering (id :: ids) w) :
    Recovering ids (recoverJob o w id) ∧
      ∀ other ∈ ids, (recoverJob o w id).log.disk other = w.log.disk other := by
  obtain ⟨hnotin, hnodup⟩ := List.nodup_cons.mp h.nodup
  have hidle := h.idle id List.mem_cons_self
  obtain ⟨hsteps, hup, hothers⟩ := recoverJob_steps (o := o) (g := .quiet) h.up hidle
  have hne : ∀ other ∈ ids, other ≠ id := by
    rintro other hmem rfl
    exact hnotin hmem
  have hkept : ∀ other ∈ ids, w.ctl.live.lookup other = none := fun other hmem =>
    h.idle other (List.mem_cons_of_mem id hmem)
  have hrepr : (recoverJob o w id).view.ctl.Repr :=
    hsteps.keeps (P := fun v => v.ctl.Repr) (fun _ _ _ hv hstep => hv.change hstep.change) h.repr
  refine ⟨⟨hup, hrepr, hsteps.ordered h.ordered, hnodup, fun other hmem => ?_⟩, fun other hmem => ?_⟩
  · exact hothers other (hne other hmem) (hkept other hmem)
  · exact recoverJob_disk h.up h.repr h.ordered hidle (hne other hmem) (hkept other hmem)

/-- A record that appears carries its id, and lists no processes. -/
def Input.plain : Input → Bool
  | .record id m => m.id = id ∧ m.procs = ""
  | _ => true

/-- The worker's pid and start time fit the C++ types. -/
def Launch.Fits (l : Launch) : Prop := l.pid < 2 ^ 31 ∧ l.start < 2 ^ 64

/-- SIGKILL for a leftover process. -/
def Effect.isLeftover : Effect → Bool
  | .leftover _ _ => true
  | _ => false

/-- One that dies between the fork and the second save leaves the worker alone. -/
example :
    let w := Machine.run (World.step (.alone 7 1)) (World.start 1)
      [.handled (.record 1 (execMeta 1)), .crash .recover 4 1]
    let w' := handle (.alone 7 1) w .recover
    w.log.launches.map (fun l => (l.id, l.pid, l.start)) = [(1, 7, 1)] ∧
      (w'.log.disk 1).map (·.state) = some "failed" ∧ w'.log.filter Effect.isLeftover = [] := by
  decide +kernel

end Forge
