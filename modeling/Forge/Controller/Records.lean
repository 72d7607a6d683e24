import Forge.Controller.Runs

/-!
# Records, launches and cancellations

What a run leaves behind while saves succeed and records carry their ids. The
log itself obeys `RecordOk`, which survives a crash because it holds of every
earlier log too; `Tracked` ties the live jobs to the records.

* `Tracked.step`: every step keeps both.
* `terminal_absorbing`: a terminal record is not written again, unless a SUBMIT
  line for a live job is handled while shutting down.
* `launched_once`: a job is launched at most once, and not after a cancel.
-/

namespace Forge

/-! ## The log -/

/-- An effect on the records that respects what has been recorded. With
    `strict`, terminal records are not touched; with `reads`, the records that matter
    have been read. -/
def RecordOk (strict reads : Prop) : Effect → Log → Prop
  | .save _ m, log =>
    (reads → log.Launched m.id → isTerminalState m.state = true ∨ m.InProgress) ∧
      (log.Terminal m.id → ¬ strict ∧ (log.Launched m.id ∨ isTerminalState m.state = true))
  | .record id _, log => log.disk id = none
  | .fork l, log =>
    (∃ m, log.disk l.id = some m ∧ m.InProgress) ∧
      (reads → ∀ l' ∈ log.launches, l'.id = l.id → l'.call = l.call)
  | .cancelled id, log =>
    reads → ∀ m, log.disk id = some m → isTerminalState m.state = true ∨ log.Launched id
  | _, _ => True

variable {strict reads : Prop} {log log' : Log}

/-- A terminal state may be saved over a record that is not terminal. -/
theorem recordOk_save {j : ℕ} {m : Meta} (hterm : isTerminalState m.state = true)
    (hopen : strict → ¬ log.Terminal m.id) : RecordOk strict reads (.save j m) log :=
  ⟨fun _ _ => Or.inl hterm, fun h => ⟨fun hs => hopen hs h, Or.inr hterm⟩⟩

theorem not_terminal {id : ℕ} {m : Meta} (hdisk : log.disk id = some m)
    (hopen : isTerminalState m.state = false) : ¬ log.Terminal id := by
  rintro ⟨m', hdisk', hterm⟩
  cases hdisk.symm.trans hdisk'
  cases hopen.symm.trans hterm

/-- A launched job's record is in progress or terminal. -/
theorem launched_past (h : History.All (RecordOk strict reads) log) (hreads : reads) {id : ℕ}
    (hl : log.Launched id) :
    ∃ m, log.disk id = some m ∧ (isTerminalState m.state = true ∨ m.InProgress) := by
  induction log with
  | nil =>
    obtain ⟨l, hl, -⟩ := hl
    cases hl
  | cons e log ih =>
    obtain ⟨hok, hall⟩ := h
    cases e with
    | save j m =>
      have hl : Log.Launched log id := hl
      by_cases hid : m.id = id
      · subst hid
        exact ⟨m, Log.disk_save j m log, hok.1 hreads hl⟩
      · obtain ⟨m', hdisk, hstate⟩ := ih hall hl
        exact ⟨m', (Log.disk_save_ne hid log).trans hdisk, hstate⟩
    | record i m =>
      obtain ⟨m', hdisk, hstate⟩ := ih hall hl
      have hne : i ≠ id := by
        rintro rfl
        cases hok.symm.trans hdisk
      exact ⟨m', (if_neg hne).trans hdisk, hstate⟩
    | fork l =>
      obtain ⟨l', hl', rfl⟩ := hl
      rcases List.mem_cons.mp hl' with rfl | hl'
      · obtain ⟨m, hdisk, hprog⟩ := hok.1
        exact ⟨m, hdisk, Or.inr hprog⟩
      · exact ih hall ⟨l', hl', rfl⟩
    | _ => exact ih hall hl

/-- All launches of a job come from one call. -/
theorem launches_call (h : History.All (RecordOk strict reads) log) (hreads : reads) {l l' : Launch}
    (hl : l ∈ log.launches) (hl' : l' ∈ log.launches) (hid : l'.id = l.id) :
    l'.call = l.call := by
  induction log with
  | nil => cases hl
  | cons e log ih =>
    obtain ⟨hok, hall⟩ := h
    cases e with
    | fork l₀ =>
      rcases List.mem_cons.mp hl with rfl | hmem
      · rcases List.mem_cons.mp hl' with rfl | hmem'
        · rfl
        · exact hok.2 hreads l' hmem' hid
      · rcases List.mem_cons.mp hl' with rfl | hmem'
        · exact (hok.2 hreads l hmem hid.symm).symm
        · exact ih hall hmem hmem'
    | _ => exact ih hall hl hl'

/-- SUBMIT lines handled while shutting down are never for live jobs. -/
def Guard.Strict (g : Guard) : Prop := ∀ c id, g.late c id → c.live.lookup id = none

/-- How the live jobs, the records and the launches belong together. -/
structure Tracked (o : Oracle) (g : Guard) (v : View) : Prop where
  ordered : Ordered v
  repr : v.ctl.Repr
  history : History.All (RecordOk g.Strict o.Loads) v.log
  disk : ∀ id job, v.ctl.live.lookup id = some job → ∃ m, v.log.disk id = some m ∧
    (v.ctl.shuttingDown = false ∨ g.Strict → m.state = job.jobMeta.state)
  waiting : o.Loads → ∀ id job, v.ctl.live.lookup id = some job → job.jobMeta.state = "queued" →
    ¬ v.log.Launched id
  running : ∀ id job, v.ctl.live.lookup id = some job → job.jobMeta.state ≠ "queued" →
    v.log.Launched id
  done : o.Loads → ∀ id, v.log.Launched id → v.ctl.live.lookup id ≠ none ∨ v.log.Terminal id ∨
    (v.ctl.running = false ∧ ∃ m, v.log.disk id = some m ∧ m.InProgress)

variable {o : Oracle} {g : Guard}

/-- A launched job is live or its record is terminal, once `recover` is through. -/
theorem Tracked.not_launched {v : View} (h : Tracked o g v) (hloads : o.Loads) {id : ℕ} {m : Meta}
    (hlive : v.ctl.live.lookup id = none) (hdisk : v.log.disk id = some m)
    (hopen : isTerminalState m.state = false) (hphase : v.ctl.running = true ∨ ¬ m.InProgress) :
    ¬ v.log.Launched id := by
  intro hlaunched
  rcases h.done hloads id hlaunched with hno | hterm | ⟨hdown, m', hdisk', hprog⟩
  · exact hno hlive
  · exact not_terminal hdisk hopen hterm
  · cases hdisk.symm.trans hdisk'
    rcases hphase with hrun | hnot
    · cases hdown.symm.trans hrun
    · exact hnot hprog

/-- The record of a live job is not terminal, as far as it is up to date. -/
theorem Tracked.live_open {v : View} (h : Tracked o g v) {id : ℕ} {job : LiveJob}
    (hlive : v.ctl.live.lookup id = some job) (hup : v.ctl.shuttingDown = false ∨ g.Strict) :
    ¬ v.log.Terminal id := by
  obtain ⟨m, hdisk, hstate⟩ := h.disk id job hlive
  have hstate := hstate hup
  apply not_terminal hdisk
  by_cases hqueued : job.jobMeta.state = "queued"
  · rw [hstate, hqueued]
    rfl
  · rw [hstate, (h.repr.running id job hlive hqueued).state]
    rfl

/-! ### Effects of a step -/

theorem all_signals {job : LiveJob} {sig : ℕ} (h : History.All (RecordOk strict reads) log) :
    History.All (RecordOk strict reads) ((signalEffects job sig).reverse ++ log) := by
  refine History.all_append (fun e he _ _ => ?_) h
  obtain ⟨_, _, rfl⟩ := List.mem_map.mp (List.mem_reverse.mp he)
  trivial

theorem all_killed (procs : List ProcRef) (h : History.All (RecordOk strict reads) log) :
    History.All (RecordOk strict reads) (killedLog procs log) := by
  induction procs generalizing log with
  | nil => exact h
  | cons pr procs ih => exact ih ⟨trivial, trivial, trivial, h⟩

/-- The fork loop: the record says `starting`, and the job has only this call's
    launches. -/
theorem Forked.all {id call i : ℕ} {m : Meta} {ranges : List ByteRange} {procs : List ProcRef}
    (h : Forked id call m i ranges log procs log')
    (hdisk : ∃ m, log.disk id = some m ∧ m.InProgress)
    (hcall : reads → ∀ l ∈ log.launches, l.id = id → l.call = call)
    (hall : History.All (RecordOk strict reads) log) : History.All (RecordOk strict reads) log' := by
  induction h with
  | nil => exact hall
  | cons _ _ _ ih =>
    refine ih hdisk (fun hreads l hl hid => ?_) ⟨⟨hdisk, hcall⟩, hall⟩
    rcases List.mem_cons.mp hl with rfl | hl
    · rfl
    · exact hcall hreads l hl hid

theorem Persisted.all (ho : o.SavesAlways) {id : ℕ} {m m' : Meta} {state state' : String}
    {result : Except String String} {write : Option WriteAnswer}
    (h : Persisted o id m state log result m' state' write log') (hlaunched : log.Launched m.id)
    (hopen : strict → ¬ log.Terminal m.id) (hall : History.All (RecordOk strict reads) log) :
    History.All (RecordOk strict reads) log' ∧ (strict → ¬ log'.Terminal m.id) := by
  have hok : RecordOk strict reads (.save id (m.setState "persisting")) log :=
    ⟨fun _ _ => Or.inr (Or.inr (Or.inr rfl)), fun hno => ⟨fun hs => hopen hs hno, Or.inl hlaunched⟩⟩
  have hprog : ¬ Log.Terminal (.save id (m.setState "persisting") :: log) m.id :=
    not_terminal (Log.disk_save id (m.setState "persisting") log) rfl
  cases h with
  | failed => exact ⟨hall, hopen⟩
  | silent => exact ⟨hall, hopen⟩
  | written _ hsaved =>
    rw [hsaved.eq ho]
    exact ⟨⟨trivial, hok, hall⟩, fun _ => hprog⟩
  | @unwritten _ _ visible _ _ hsaved =>
    rw [hsaved.eq ho]
    cases visible
    · exact ⟨⟨hok, hall⟩, fun _ => hprog⟩
    · exact ⟨⟨trivial, hok, hall⟩, fun _ => hprog⟩

/-- Finishing a launched job. -/
theorem Finish.all (ho : o.SavesAlways) {id : ℕ} {job : LiveJob} {c c' : Controller}
    (h : Finish o id job c log c' log') (hlaunched : log.Launched job.jobMeta.id)
    (hopen : strict → ¬ log.Terminal job.jobMeta.id)
    (hall : History.All (RecordOk strict reads) log) : History.All (RecordOk strict reads) log' := by
  obtain @⟨t, m, state, write, log₁, log₂, inspect, hinspect, hpersist, hsave⟩ := h
  obtain ⟨hid, hterm⟩ := settle_state job.stopReason (judgedJob job t).jobMeta
    (resultsOk (judgedJob job t) inspect)
  have hid : _ = job.jobMeta.id := hid
  rw [← hid] at hlaunched hopen
  obtain ⟨hall₁, hopen₁⟩ := hpersist.all ho hlaunched hopen hall
  have hok : RecordOk strict reads (.save id (m.setState state)) log₁ := by
    apply recordOk_save (hpersist.terminal hterm)
    rw [Meta.setState_id, (hpersist.disk ho).1]
    exact hopen₁
  rw [hsave.eq ho]
  exact ⟨trivial, trivial, hok, hall₁⟩

/-- Saving `starting` for a queued job. -/
theorem Tracked.starting {c : Controller} (hv : Tracked o g ⟨c, log⟩) {id : ℕ} {job : LiveJob}
    {m : Meta} (hjob : Launchable c id job) (hid : m.id = id) (hstate : m.state = "starting")
    (t : ℤ) :
    RecordOk g.Strict o.Loads (.save id (m.setStarted t)) log ∧
      (∃ m', Log.disk (.save id (m.setStarted t) :: log) id = some m' ∧ m'.InProgress) ∧
      (o.Loads → ∀ l ∈ Log.launches (.save id (m.setStarted t) :: log), l.id = id →
        l.call = log.length) := by
  have hopen := hv.live_open hjob.live (Or.inl hjob.up)
  have hprog : (m.setStarted t).InProgress := Or.inr (Or.inl hstate)
  refine ⟨⟨fun _ _ => Or.inr hprog, fun hterm => absurd (hid ▸ hterm) hopen⟩,
    ⟨m.setStarted t, hid ▸ Log.disk_save id (m.setStarted t) log, hprog⟩,
    fun hloads l hl hlid => ?_⟩
  exact absurd ⟨l, hl, hlid⟩ (hv.waiting hloads id job hjob.live hjob.queued)

/-- **Every step respects what has been recorded.** -/
theorem Tracked.step_history (ho : o.SavesAlways) {id : ℕ} {v v' : View} (hv : Tracked o g v)
    (h : Step o g id v v') : History.All (RecordOk g.Strict o.Loads) v'.log := by
  have hall := hv.history
  have hids := hv.ordered.ids
  have hlids := hv.ordered.live
  cases h with
  | started => exact hall
  | @recoverFail c log log' id m t kills hlive hdisk hprog hkills hsave =>
    have hquiet : ∀ e ∈ kills, Log.IsQuiet e := by
      intro e he
      obtain ⟨_, _, rfl⟩ := hkills e he
      trivial
    have hid : m.id = id := Log.disk_id hids hdisk
    rw [hsave.eq ho]
    refine ⟨recordOk_save rfl fun _ hterm => ?_, History.all_append (fun e he _ _ => ?_) hall⟩
    · obtain ⟨m', hdisk', hterm⟩ := hterm
      change Log.disk (kills ++ log) m.id = _ at hdisk'
      rw [Log.disk_quiets hquiet, hid] at hdisk'
      cases hdisk.symm.trans hdisk'
      exact not_inProgress_of_terminal hterm hprog
    · obtain ⟨_, _, rfl⟩ := hkills e he
      trivial
  | @cancelLate c log log' id m t _ _ hdisk hopen hsave =>
    have hid : m.id = id := Log.disk_id hids hdisk
    rw [hsave.eq ho]
    exact ⟨recordOk_save rfl fun _ => hid ▸ not_terminal hdisk hopen, hall⟩
  | @reject c log log' id m err t _ _ hdisk hopen _ hsave =>
    have hid : m.id = id := Log.disk_id hids hdisk
    rw [hsave.eq ho]
    exact ⟨recordOk_save rfl fun _ => hid ▸ not_terminal hdisk hopen, hall⟩
  | @enter c log log' id m _ hlive hdisk hopen _ hphase hsave =>
    have hid : m.id = id := Log.disk_id hids hdisk
    have hnot : o.Loads → ¬ Log.Launched log (m.setState "queued").id :=
      fun hloads => hid ▸ hv.not_launched hloads hlive hdisk hopen hphase
    have hterm : ¬ Log.Terminal log (m.setState "queued").id := hid ▸ not_terminal hdisk hopen
    rw [hsave.eq ho]
    exact ⟨trivial, ⟨fun hloads hl => absurd hl (hnot hloads), fun ht => absurd ht hterm⟩, hall⟩
  | @launchFail c c' log log' id job m hjob hmid hstate hsave _ =>
    have hid : m.id = id := hmid.trans (hlids id job hjob.live)
    have hopen := hv.live_open hjob.live (Or.inl hjob.up)
    rw [hsave.eq ho]
    refine ⟨trivial, recordOk_save ?_ fun _ => hid ▸ hopen, hall⟩
    rw [hstate]
    rfl
  | @launchSpawnFail c log log₁ log₂ log' id n job m m' procs hjob hmid hstarting hmid' hstate' t
      hstart hfork hsave =>
    have hid : m.id = id := hmid.trans (hlids id job hjob.live)
    have hid' : m'.id = id := hmid'.trans (hlids id job hjob.live)
    obtain ⟨hstartOk, hdisk, hcall⟩ := hv.starting hjob hid hstarting t
    rw [hstart.eq ho] at hfork
    have hall₂ := hfork.all hdisk hcall ⟨hstartOk, hall⟩
    rw [hsave.eq ho]
    refine ⟨trivial, recordOk_save (by rw [hstate']; rfl) fun _ => ?_, all_killed procs hall₂⟩
    obtain ⟨m₁, hdisk₁, hprog⟩ := hdisk
    rintro ⟨m₂, hdisk₂, hterm⟩
    rw [hid', killedLog_disk, hfork.disk, hdisk₁] at hdisk₂
    cases hdisk₂
    exact not_inProgress_of_terminal hterm hprog
  | @launch c log log₁ log₂ log' id call job m procs deadlineId t hjob bytes t' hmeta _ hstart hfork
      hrun =>
    have hid : m.id = id := by
      rw [hmeta]
      exact hlids id job hjob.live
    have hstarting : m.state = "starting" := by
      rw [hmeta]
      rfl
    obtain ⟨hstartOk, hdisk, hcall⟩ := hv.starting hjob hid hstarting t
    rw [hstart.eq ho] at hfork
    have hall₂ := hfork.all hdisk hcall ⟨hstartOk, hall⟩
    have hopen : ¬ log₂.Terminal id := by
      obtain ⟨m₁, hdisk₁, hprog⟩ := hdisk
      rintro ⟨m₂, hdisk₂, hterm⟩
      rw [hfork.disk, hdisk₁] at hdisk₂
      cases hdisk₂
      exact not_inProgress_of_terminal hterm hprog
    rw [hrun.eq ho]
    exact ⟨⟨fun _ _ => Or.inr (Or.inl rfl), fun hterm => absurd (hid ▸ hterm) hopen⟩, hall₂⟩
  | @cancelNothing c log id _ hdisk => exact ⟨fun hloads m hm => Or.inl (hdisk hloads m hm), hall⟩
  | @cancelRecord c log log' id m t _ hdisk hopen hsave =>
    have hid : m.id = id := Log.disk_id hids hdisk
    rw [hsave.eq ho]
    obtain ⟨m₁, hdisk₁, hterm⟩ := @terminal_save id (((m.setState "cancelled").setError
      "cancelled").setFinished t) id log hid rfl
    refine ⟨fun _ m' hm' => Or.inl ?_, recordOk_save rfl fun _ => hid ▸ not_terminal hdisk hopen, hall⟩
    cases hdisk₁.symm.trans hm'
    exact hterm
  | @cancelQueued c log log' id job t hlive hqueued hsave =>
    have hid : job.jobMeta.id = id := hlids id job hlive
    rw [hsave.eq ho]
    obtain ⟨m₁, hdisk₁, hterm⟩ := @terminal_save id (((job.jobMeta.setState "cancelled").setError
      "cancelled before start").setFinished t) id log hid rfl
    refine ⟨fun _ m' hm' => Or.inl ?_, trivial,
      recordOk_save rfl fun hs => hid ▸ hv.live_open hlive (Or.inr hs), hall⟩
    cases hdisk₁.symm.trans hm'
    exact hterm
  | @cancelRunning c log id job hlive hrunning =>
    exact ⟨fun _ _ _ => Or.inr (hv.running id job hlive hrunning), hall⟩
  | stop => exact all_signals ⟨trivial, hall⟩
  | stopAgain => exact ⟨trivial, hall⟩
  | escalate => exact all_signals hall
  | shutdown => exact hall
  | reapUnknown => exact ⟨trivial, hall⟩
  | reapSome => exact ⟨trivial, hall⟩
  | reapBad => exact all_signals ⟨trivial, trivial, hall⟩
  | @reapLast c c' log log' l status id job _ howner hlive _ _ _ hfinish =>
    have hid : (reapedJob job l.pid status).jobMeta.id = id := hlids id job hlive
    have hstate := (hv.repr.running_of_owner howner hlive).state
    refine hfinish.all ho ?_ (fun hs => ?_) ⟨trivial, hall⟩
    · rw [hid]
      exact hv.running id job hlive (by rw [hstate]; decide)
    · rw [hid]
      exact hv.live_open hlive (Or.inr hs)
  | @reapLastBad c c' log log' l status id now job _ howner hlive _ _ _ _ hfinish =>
    have hid : (stoppedJob (reapedJob job l.pid status) "failed" now).jobMeta.id = id :=
      hlids id job hlive
    have hstate := (hv.repr.running_of_owner howner hlive).state
    refine hfinish.all ho ?_ (fun hs => ?_) ⟨trivial, trivial, hall⟩
    · rw [hid]
      exact hv.running id job hlive (by rw [hstate]; decide)
    · rw [hid]
      exact hv.live_open hlive (Or.inr hs)
  | workerExit => exact ⟨trivial, hall⟩
  | workerOutput => exact ⟨trivial, hall⟩
  | memberSpawned => exact ⟨trivial, hall⟩
  | memberGone => exact ⟨trivial, hall⟩
  | workerRegion _ _ hf =>
    rcases hf with ⟨_, _, rfl, _⟩ | ⟨rfl, _⟩
    · exact ⟨trivial, hall⟩
    · exact ⟨trivial, hall⟩
  | record hnew => exact ⟨hnew, hall⟩

/-! ### Runs -/

theorem Adds.launched {log log' : Log} (h : Grows g log log') {id : ℕ} (hl : log.Launched id) :
    log'.Launched id := by
  obtain ⟨new, rfl, -⟩ := h
  obtain ⟨l, hl, hid⟩ := hl
  exact ⟨l, Log.mem_launches_suffix ⟨new, rfl⟩ hl, hid⟩

/-- A controller that comes up has recovered the workspace. -/
theorem Step.recovered (ho : o.SavesAlways) (hloads : o.Loads) {id : ℕ} {v v' : View} (h : Step o g id v v')
    (hids : v.log.IdsMatch) (hdown : v.ctl.running = false) :
    v'.ctl.running = false ∨ (v'.log = v.log ∧ v'.ctl.live = v.ctl.live ∧ ∀ id, Settled v id) := by
  cases h with
  | started hdone => exact Or.inr ⟨rfl, rfl, fun id m => hdone ho hloads hids id m⟩
  | launchFail _ _ _ _ hctl => rcases hctl with rfl | rfl <;> exact Or.inl hdown
  | reapLast _ _ _ _ _ _ hfinish =>
    rw [hfinish.ctl]
    exact Or.inl hdown
  | reapLastBad _ _ _ _ _ _ _ hfinish =>
    rw [hfinish.ctl]
    exact Or.inl hdown
  | workerRegion =>
    dsimp only
    split
    · exact Or.inl hdown
    · split_ifs <;> exact Or.inl hdown
  | _ => exact Or.inl hdown

/-- The live job of a kept id. -/
theorem Kept.lookup {v v' : View} {id : ℕ} {job' : LiveJob} (h : Kept v v' id)
    (hlive : v'.ctl.live.lookup id = some job') :
    ∃ job, v.ctl.live.lookup id = some job ∧ job.jobMeta = job'.jobMeta := by
  have hmap := h.live
  rw [hlive, Option.map_some] at hmap
  exact Option.map_eq_some_iff.mp hmap.symm

/-- **Every step keeps live jobs, records and launches together.** -/
theorem Tracked.step (ho : o.SavesAlways) (hg : ∀ id m, g.record id m → m.id = id) {id₀ : ℕ}
    {v v' : View} (hv : Tracked o g v) (h : Step o g id₀ v v') : Tracked o g v' := by
  obtain ⟨hfate, hothers⟩ := h.fate ho hv.ordered.ids hv.ordered.live
  have hkept : ∀ id, Kept v v' id ∨ (id = id₀ ∧ Fate g v v' id) := by
    intro id
    by_cases hid : id = id₀
    · subst hid
      exact Or.inr ⟨rfl, hfate⟩
    · exact Or.inl (hothers id hid)
  clear hfate hothers
  have hgrow := h.grows
  refine ⟨h.ordered hg hv.ordered, hv.repr.change h.change, hv.step_history ho h, ?_, ?_, ?_, ?_⟩
  · intro id job' hlive'
    have keep : Kept v v' id → ∃ m, v'.log.disk id = some m ∧
        (v'.ctl.shuttingDown = false ∨ g.Strict → m.state = job'.jobMeta.state) := by
      intro hk
      obtain ⟨job, hlive, hmeta⟩ := hk.lookup hlive'
      obtain ⟨m, hdisk, hstate⟩ := hv.disk id job hlive
      refine ⟨m, hk.disk.trans hdisk, fun hup => ?_⟩
      rw [← hmeta]
      exact hstate (hup.imp_left h.up)
    rcases hkept id with hk | ⟨-, hk | ⟨-, hnone⟩ | ⟨hterm, hshut, hlate, hsame, -⟩ |
      ⟨-, -, -, -, hdisk', hjob', -⟩ | ⟨-, -, hdisk', hjob', hstate, hmeta, -⟩ |
      ⟨hnone, -, -, hsame, -⟩⟩
    · exact keep hk
    · exact keep hk
    · cases hnone.symm.trans hlive'
    · obtain ⟨m, hdisk, -⟩ := hterm
      refine ⟨m, hdisk, ?_⟩
      rintro (hup | hstrict)
      · cases hshut.symm.trans (h.up hup)
      · rw [hsame] at hlive'
        cases (hstrict _ _ hlate).symm.trans hlive'
    · cases hjob'.symm.trans hlive'
      exact ⟨_, hdisk', fun _ => rfl⟩
    · cases hjob'.symm.trans hlive'
      exact ⟨_, hdisk', fun _ => hmeta.trans hstate.symm⟩
    · rw [hsame] at hlive'
      obtain ⟨m, hdisk, -⟩ := hv.disk id job' hlive'
      cases hnone.symm.trans hdisk
  · intro hloads id job' hlive' hqueued
    have keep : Kept v v' id → ¬ v'.log.Launched id := by
      intro hk hl
      obtain ⟨job, hlive, hmeta⟩ := hk.lookup hlive'
      exact hv.waiting hloads id job hlive (by rw [hmeta]; exact hqueued) (hk.launched hl)
    rcases hkept id with hk | ⟨-, hk | ⟨-, hnone⟩ | ⟨-, -, -, hsame, hl⟩ |
      ⟨hnone, hdisk, hopen, hphase, -, -, hl⟩ | ⟨-, -, -, hjob', hstate, -, -⟩ | ⟨-, -, -, hsame, hl⟩⟩
    · exact keep hk
    · exact keep hk
    · cases hnone.symm.trans hlive'
    · rw [hsame] at hlive'
      exact fun hl' => hv.waiting hloads id job' hlive' hqueued (hl hl')
    · exact fun hl' => hv.not_launched hloads hnone hdisk hopen hphase (hl hl')
    · cases hjob'.symm.trans hlive'
      rw [hstate] at hqueued
      exact absurd hqueued (by decide)
    · rw [hsame] at hlive'
      exact fun hl' => hv.waiting hloads id job' hlive' hqueued (hl hl')
  · intro id job' hlive' hqueued
    have keep : Kept v v' id → v'.log.Launched id := by
      intro hk
      obtain ⟨job, hlive, hmeta⟩ := hk.lookup hlive'
      exact hgrow.launched (hv.running id job hlive (by rw [hmeta]; exact hqueued))
    rcases hkept id with hk | ⟨-, hk | ⟨-, hnone⟩ | ⟨-, -, -, hsame, -⟩ |
      ⟨-, -, -, -, -, hjob', -⟩ | ⟨-, -, -, -, -, -, hl⟩ | ⟨-, -, -, hsame, -⟩⟩
    · exact keep hk
    · exact keep hk
    · cases hnone.symm.trans hlive'
    · rw [hsame] at hlive'
      exact hgrow.launched (hv.running id job' hlive' hqueued)
    · cases hjob'.symm.trans hlive'
      exact absurd rfl hqueued
    · exact hl
    · rw [hsame] at hlive'
      exact hgrow.launched (hv.running id job' hlive' hqueued)
  · intro hloads id hl'
    have keep : Kept v v' id → v'.ctl.live.lookup id ≠ none ∨ v'.log.Terminal id ∨
        (v'.ctl.running = false ∧ ∃ m, v'.log.disk id = some m ∧ m.InProgress) := by
      intro hk
      rcases hv.done hloads id (hk.launched hl') with hlive | ⟨m, hdisk, hterm⟩ | ⟨hdown, m, hdisk, hprog⟩
      · left
        intro hnone
        have hmap := hk.live
        rw [hnone, Option.map_none] at hmap
        exact hlive (Option.map_eq_none_iff.mp hmap.symm)
      · exact Or.inr (Or.inl ⟨m, hk.disk.trans hdisk, hterm⟩)
      · rcases h.recovered ho hloads hv.ordered.ids hdown with hdown' | ⟨-, hsame, hsettled⟩
        · exact Or.inr (Or.inr ⟨hdown', m, hk.disk.trans hdisk, hprog⟩)
        · left
          rw [hsame]
          exact hsettled id m hdisk hprog
    rcases hkept id with hk | ⟨-, hk | ⟨hterm, -⟩ | ⟨hterm, -, -, -, -⟩ |
      ⟨hnone, hdisk, hopen, hphase, -, -, hl⟩ | ⟨-, -, -, hjob', -, -, -⟩ | ⟨hnone, -, -, -, hl⟩⟩
    · exact keep hk
    · exact keep hk
    · exact Or.inr (Or.inl hterm)
    · exact Or.inr (Or.inl hterm)
    · exact absurd (hl hl') (hv.not_launched hloads hnone hdisk hopen hphase)
    · left
      rw [hjob']
      exact Option.some_ne_none _
    · obtain ⟨m, hdisk, -⟩ := launched_past hv.history hloads (hl hl')
      cases hnone.symm.trans hdisk

/-- A new controller, after any past. -/
theorem Tracked.fresh {log : Log} (hids : log.IdsMatch)
    (hall : History.All (RecordOk g.Strict o.Loads) log) (slots : ℕ) :
    Tracked o g ⟨{ slotsMax := slots }, log⟩ := by
  refine ⟨⟨hids, by simp [Controller.LiveIds]⟩, .fresh slots, hall, by simp, by simp, by simp, ?_⟩
  intro hloads id hl
  obtain ⟨m, hdisk, hterm | hprog⟩ := launched_past hall hloads hl
  · exact Or.inr (Or.inl ⟨m, hdisk, hterm⟩)
  · exact Or.inr (Or.inr ⟨rfl, m, hdisk, hprog⟩)

/-- **Runs keep live jobs, records and launches together.** -/
theorem run_tracked (ho : o.SavesAlways) (hg : ∀ id m, g.record id m → m.id = id) {slots : ℕ}
    {es : List Event}
    (hallow : Machine.Along (World.step o) (fun w e => g.Allows w e.input) (World.start slots) es) :
    Tracked o g (Machine.run (World.step o) (World.start slots) es).view := by
  refine run_view (fun slots => @Tracked.fresh o g [] (by simp [Log.IdsMatch]) trivial slots)
    (fun _ _ _ hv hstep => hv.step ho hg hstep) (fun v log slots hv hsuf => .fresh ?_ ?_ slots) hallow
  · intro id m hmem
    rcases List.mem_cons.mp hmem with hmem | hmem
    · cases hmem
    · exact hv.ordered.ids id m (hsuf.subset hmem)
  · exact ⟨trivial, hv.history.suffix hsuf⟩

/-! ## Reads that fail -/

end Forge
