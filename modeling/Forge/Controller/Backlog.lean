import Forge.Controller.Removal
import Forge.Controller.Scheduling
import Forge.Lib.Selection

/-!
# Priorities across a restart

`recover` (controller.cpp:781-808) enqueues the jobs that an earlier controller has
left waiting in the order of their ids, and `enqueue` schedules at once. Launches
are assumed to succeed here.

* `schedule_first`: `schedule` on a full queue launches the first jobs by `rank`.
* `recover_first`: `recover` launches the first jobs by id.
* `recover_order`: the two agree exactly when no job that comes later by id has a
  higher priority than one that is launched.
-/

namespace Forge

open Selection

variable {o : Oracle} {g : Guard}

/-! ## The backlog -/

/-- A valid record of a job that waits to be run. -/
def Meta.Waiting (m : Meta) : Prop :=
  (m.state = "submitted" ∨ m.state = "queued") ∧ validateMeta m = none

instance (m : Meta) : Decidable m.Waiting :=
  inferInstanceAs (Decidable ((m.state = "submitted" ∨ m.state = "queued") ∧ validateMeta m = none))

/-- Every such record and every input can be read, and every launch gets what it asks
    for. -/
structure Oracle.LaunchesAlways (o : Oracle) : Prop where
  load : ∀ r k m, m.Waiting → o.load r k m = true
  launch : ∀ call, (∃ size, (o.launch call).inspect = .ok (true, size)) ∧
    (o.launch call).openLog = .ok () ∧ (o.launch call).sharedMap = .ok () ∧
    (o.launch call).notify = .ok () ∧ ∀ i, ∃ answer, (o.launch call).fork i = .ok answer

theorem Oracle.LaunchesAlways.loadMeta_waiting (ho : o.LaunchesAlways) (r : Reader) {id : ℕ}
    {m : Meta} {w : World} (hdisk : w.log.disk id = some m) (hm : m.Waiting) :
    loadMeta o r id w = some m := by
  rw [loadMeta, hdisk, Option.filter_some, ho.load r _ m hm]
  rfl

/-- The record of the id is that of a waiting job. -/
def Log.waits (log : Log) (id : ℕ) : Bool :=
  match log.disk id with
  | none => false
  | some m => decide m.Waiting

/-- The waiting jobs in the order of `list_job_ids`. -/
def Log.backlog (log : Log) : List ℕ := log.jobIds.mergeSort.filter log.waits

/-- The priority in the record of the id. -/
def Log.priority (log : Log) (id : ℕ) : ℤ :=
  match log.disk id with
  | none => 0
  | some m => m.priority

/-- The job has been launched. -/
def Controller.Launched (c : Controller) (id : ℕ) : Prop :=
  ∃ job, c.live.lookup id = some job ∧ job.jobMeta.state = "running"

/-! ## A launch that succeeds -/

theorem forkLoop_succeeds {id call : ℕ} {m : Meta} {fork : ℕ → Except String ForkAnswer}
    (hfork : ∀ i, ∃ answer, fork i = .ok answer) (ranges : List ByteRange) (i : ℕ) (w : World) :
    (forkLoop id call m fork i ranges w).2.1 = none := by
  induction ranges generalizing i w with
  | nil => rfl
  | cons range ranges ih =>
    obtain ⟨answer, hanswer⟩ := hfork i
    rw [forkLoop, hanswer]
    exact ih (i + 1) _

/-- The controller with the job running in one more slot. -/
structure Runs (id : ℕ) (c c' : Controller) : Prop where
  live : ∃ job, c'.live = c.live.insert id job ∧ job.jobMeta.state = "running"
  used : c'.slotsUsed = c.slotsUsed + 1
  max : c'.slotsMax = c.slotsMax

theorem spawnJob_runs (ho : o.LaunchesAlways) (id call : ℕ) (job : LiveJob) (w : World) :
    Runs id w.ctl (spawnJob o id call job w).ctl := by
  unfold spawnJob setState
  dsimp only
  generalize job.jobMeta.setState "starting" = m
  have hctl₁ := saveMeta_ctl (o := o) id m w
  generalize (saveMeta o id m w).2 = w₁ at hctl₁ ⊢
  generalize m.setStarted (o.realtimeMs w₁.calls) = m₁
  have hnone := @forkLoop_succeeds id w.log.length m₁ _ (ho.launch call).2.2.2.2 (launchRanges m₁) 0 w₁.ask
  rcases hloop : forkLoop id w.log.length m₁ (o.launch call).fork 0 (launchRanges m₁) w₁.ask
    with ⟨procs, err, w₂⟩
  rw [hloop] at hnone
  dsimp only at hnone
  subst hnone
  have hctl₂ : w₂.ctl = w.ctl := (forkLoop_forked hloop).1.trans hctl₁
  dsimp only
  rw [World.putJob, saveMeta_ctl]
  dsimp only [World.setCtl]
  rw [hctl₂]
  exact ⟨⟨_, rfl, rfl⟩, rfl, rfl⟩

theorem prepareJob_runs (ho : o.LaunchesAlways) (id call : ℕ) (job : LiveJob) (w : World) :
    Runs id w.ctl (prepareJob o id call job w).ctl := by
  obtain ⟨-, hlog, hmap, hnotify, -⟩ := ho.launch call
  unfold prepareJob
  dsimp only
  rw [hlog, hmap, hnotify]
  dsimp only
  split_ifs
  · exact spawnJob_runs ho id call job w
  · exact spawnJob_runs ho id call job w

theorem launchJob_runs (ho : o.LaunchesAlways) {id : ℕ} {job : LiveJob} {w : World}
    (hlive : w.ctl.live.lookup id = some job) : Runs id w.ctl (launchJob o id w).ctl := by
  obtain ⟨size, hinspect⟩ := (ho.launch w.calls).1
  unfold launchJob
  rw [hlive]
  dsimp only
  split_ifs
  · exact prepareJob_runs ho id _ job w.ask
  · rw [hinspect]
    exact prepareJob_runs ho id _ _ w.ask

/-- A launch makes this job run and no other. -/
theorem Runs.launched_iff {id other : ℕ} {c c' : Controller} (h : Runs id c c') :
    c'.Launched other ↔ other = id ∨ c.Launched other := by
  obtain ⟨job, hlive, hstate⟩ := h.live
  unfold Controller.Launched
  rw [hlive]
  by_cases hid : other = id
  · subst hid
    rw [AList.lookup_insert]
    exact iff_of_true ⟨job, rfl, hstate⟩ (.inl rfl)
  · rw [AList.lookup_insert_ne hid]
    simp [hid]

/-! ## `schedule` on a queue -/

/-- What `pick_next` compares. -/
def Controller.key (c : Controller) (id : ℕ) : ℤᵒᵈ ×ₗ ℕ :=
  rank (match c.live.lookup id with
    | none => 0
    | some job => job.jobMeta.priority) id

theorem Controller.key_injective {c : Controller} {id other : ℕ} (h : c.key id = c.key other) :
    id = other := (rank_injective h).2

theorem Controller.Queued.key {c : Controller} {id : ℕ} {p : ℤ} (h : c.Queued id p) :
    c.key id = rank p id := by
  obtain ⟨job, hlive, -, rfl⟩ := h
  unfold Controller.key
  rw [hlive]

/-- A queued job is in the queue, and nothing else is. -/
theorem Controller.Repr.queued_iff {c : Controller} (h : c.Repr) {id : ℕ} :
    id ∈ c.queue ↔ ∃ p, c.Queued id p := by
  rw [h.queue]
  constructor
  · rintro ⟨job, hlive, hstate⟩
    exact ⟨_, job, hlive, hstate, rfl⟩
  · rintro ⟨_, job, hlive, hstate, -⟩
    exact ⟨job, hlive, hstate⟩

/-- By induction on the turns of the loop: it launches the first jobs of the queue,
    as many as there are free slots. -/
theorem scheduleLoop_first (ho : o.LaunchesAlways) {n : ℕ} {w : World}
    (hup : w.ctl.shuttingDown = false) (hrepr : w.ctl.Repr) (hn : w.ctl.queue.length ≤ n)
    {free : ℕ} (hfree : w.ctl.slotsMax = w.ctl.slotsUsed + free) (id : ℕ) :
    (scheduleLoop o n w).ctl.Launched id ↔
      w.ctl.Launched id ∨ Among w.ctl.key free w.ctl.queue id := by
  induction n generalizing w free with
  | zero =>
    have hempty : w.ctl.queue = [] := List.length_eq_zero_iff.mp (by omega)
    rw [hempty]
    simp [scheduleLoop]
  | succ n ih =>
    cases free with
    | zero =>
      have hfull : ¬ w.ctl.slotsUsed < w.ctl.slotsMax := by omega
      rw [scheduleLoop_of_stops (.inl hfull)]
      simp
    | succ free =>
      have hroom : w.ctl.slotsUsed < w.ctl.slotsMax := by omega
      cases hpick : pickNext w.ctl with
      | none =>
        have hempty : w.ctl.queue = [] := by
          rw [List.eq_nil_iff_forall_not_mem]
          intro other hother
          obtain ⟨p, hqueued⟩ := hrepr.queued_iff.mp hother
          exact pickNext_eq_none hpick other hother p hqueued
        rw [scheduleLoop_of_stops (.inr hpick), hempty]
        simp
      | some best =>
        obtain ⟨hup', hrepr', hqueue'⟩ := launchJob_turn (o := o) hup hrepr hroom hpick
        obtain ⟨p, hmem, hqueued, hleast⟩ := pickNext_eq_some hpick
        have hruns : Runs best (w.dequeue best).ctl (launchJob o best (w.dequeue best)).ctl := by
          obtain ⟨job, hlive, -⟩ := hqueued
          exact launchJob_runs ho hlive
        have hlen := List.length_erase_of_mem hmem
        have hbest : ∀ other ∈ w.ctl.queue, other ≠ best → w.ctl.key best < w.ctl.key other := by
          intro other hother hne
          obtain ⟨q, hq⟩ := hrepr.queued_iff.mp hother
          refine lt_of_le_of_ne ?_ fun heq => hne (Controller.key_injective heq).symm
          rw [hqueued.key, hq.key]
          exact hleast other hother q hq
        have hkeys : ∀ other ∈ w.ctl.queue.erase best,
            (launchJob o best (w.dequeue best)).ctl.key other = w.ctl.key other := by
          intro other hother
          have hne : other ≠ best := fun heq => hrepr.nodup.not_mem_erase (heq ▸ hother)
          unfold Controller.key
          rw [(launchJob_keeps (o := o) best (w.dequeue best)).lookup other hne]
          rfl
        rw [scheduleLoop, if_pos hroom, hpick]
        dsimp only
        have hfree' : (launchJob o best (w.dequeue best)).ctl.slotsMax =
            (launchJob o best (w.dequeue best)).ctl.slotsUsed + free := by
          rw [hruns.max, hruns.used]
          show w.ctl.slotsMax = w.ctl.slotsUsed + 1 + free
          omega
        rw [ih hup' hrepr' (by rw [hqueue', hlen]; omega) hfree',
          hruns.launched_iff, hqueue', among_congr hkeys, among_succ hmem hrepr.nodup hbest]
        show (id = best ∨ w.ctl.Launched id) ∨ _ ↔ _
        tauto

/-- **`schedule` launches the first jobs of the queue.** -/
theorem schedule_first (ho : o.LaunchesAlways) {w : World} (hup : w.ctl.shuttingDown = false)
    (hrepr : w.ctl.Repr) {free : ℕ} (hfree : w.ctl.slotsMax = w.ctl.slotsUsed + free) (id : ℕ) :
    (schedule o w).ctl.Launched id ↔
      w.ctl.Launched id ∨ Among w.ctl.key free w.ctl.queue id := by
  unfold schedule
  rw [hup]
  exact scheduleLoop_first ho hup hrepr le_rfl hfree id

/-! ## Records that stay -/

theorem saveMeta_disk {id other : ℕ} {m : Meta} (hid : m.id = id) (hne : other ≠ id) (w : World) :
    (saveMeta o id m w).2.log.disk other = w.log.disk other := by
  have hsave := saveMeta_saved (o := o) id m w
  generalize (saveMeta o id m w).2.log = log at hsave ⊢
  cases hsave with
  | written => exact Log.disk_save_ne (hid ▸ Ne.symm hne) w.log
  | lost => rfl

/-- Scheduling changes no record of a job that is not queued. -/
theorem scheduleLoop_disk {n : ℕ} {w : World} (hup : w.ctl.shuttingDown = false)
    (hrepr : w.ctl.Repr) (hord : Ordered w.view) {other : ℕ} (hother : other ∉ w.ctl.queue) :
    (scheduleLoop o n w).log.disk other = w.log.disk other := by
  induction n generalizing w with
  | zero => rfl
  | succ n ih =>
    rw [scheduleLoop]
    split_ifs with hroom
    · cases hpick : pickNext w.ctl with
      | none => rfl
      | some best =>
        obtain ⟨hup', hrepr', hqueue'⟩ := launchJob_turn (o := o) hup hrepr hroom hpick
        obtain ⟨hmem, job, hlive, hqueued⟩ := pickNext_mem hpick
        have hstep := launchJob_step (o := o) (g := .quiet) ⟨hup, hroom, hmem, hlive, hqueued⟩
        have hne : other ≠ best := by
          rintro rfl
          exact hother hmem
        have hnotin : other ∉ (launchJob o best (w.dequeue best)).ctl.queue := by
          rw [hqueue']
          exact fun hin => hother (List.mem_of_mem_erase hin)
        have hord' := hstep.ordered (fun _ _ (hno : False) => hno.elim) hord
        exact (ih hup' hrepr' hord' hnotin).trans (hstep.disk_other hord hne)
    · rfl

theorem Steps.ordered {v v' : View} (h : Steps o .quiet v v') (hv : Ordered v) : Ordered v' :=
  h.keeps (fun _ _ _ hw hstep => hstep.ordered (fun _ _ (hno : False) => hno.elim) hw) hv

/-! ## `recover` -/

/-- The job that is scheduled is one that waits. -/
theorem recoverSite_enter {id : ℕ} {w site : World} (hup : w.ctl.shuttingDown = false)
    (hnone : w.ctl.live.lookup id = none) (h : recoverSite o id w = some site) :
    ∃ m, w.log.disk id = some m ∧ m.Waiting ∧ Step o .quiet id w.view site.view ∧
      site.ctl = { w.ctl with
        queue := w.ctl.queue ++ [id]
        live := w.ctl.live.insert id { jobMeta := m.setState "queued" } } := by
  unfold recoverSite at h
  split at h
  · cases h
  · next m hload =>
    have hdisk := disk_of_loadMeta hload
    split_ifs at h with hstate
    have hidle : ¬ m.InProgress := by
      unfold Meta.InProgress
      rcases hstate with h | h <;> rw [h] <;> decide
    unfold enqueueSite at h
    dsimp only at h
    split_ifs at h
    split at h
    · cases h
    · next m' hload' =>
      have hdisk' : w.ask.log.disk id = some m' := disk_of_loadMeta hload'
      cases hdisk.symm.trans hdisk'
      split_ifs at h with hbad
      rw [not_or] at hbad
      have hopen : isTerminalState m.state = false := by simpa using hbad.1
      have hvalid : validateMeta m = none := by simpa using hbad.2
      cases h
      refine ⟨m, hdisk, ⟨hstate, hvalid⟩, ?_, by rw [saveMeta_ctl]; rfl⟩
      have hsave := saveMeta_saved (o := o) id (m.setState "queued") w.ask.ask
      simp only [World.view, World.setCtl, World.push, saveMeta_ctl]
      exact .enter hup hnone hdisk hopen hvalid (.inr hidle) hsave

/-- The world in which a waiting job is scheduled. -/
theorem recoverSite_waiting (ho : o.LaunchesAlways) {id : ℕ} {m : Meta} {w : World}
    (hup : w.ctl.shuttingDown = false) (hnone : w.ctl.live.lookup id = none)
    (hdisk : w.log.disk id = some m) (hm : m.Waiting) :
    ∃ site, recoverSite o id w = some site ∧
      site.ctl = { w.ctl with
        queue := w.ctl.queue ++ [id]
        live := w.ctl.live.insert id { jobMeta := m.setState "queued" } } := by
  have hload := ho.loadMeta_waiting .recover hdisk hm
  have hsubmit := ho.loadMeta_waiting .submit (show w.ask.log.disk id = some m from hdisk) hm
  have hopen : isTerminalState m.state = false := by
    rcases hm.1 with h | h <;> rw [h] <;> decide
  have hgo : ¬ (w.ctl.shuttingDown = true ∨ (w.ctl.live.lookup id).isSome = true) := by
    simp [hup, hnone]
  have hfine : ¬ (isTerminalState m.state = true ∨ (validateMeta m).isSome = true) := by
    simp [hopen, hm.2]
  obtain ⟨site, hsite⟩ : ∃ site, recoverSite o id w = some site := by
    unfold recoverSite enqueueSite
    rw [hload]
    dsimp only
    rw [if_pos hm.1, hsubmit, World.ask_ctl, if_neg hgo]
    dsimp only
    rw [if_neg hfine]
    exact ⟨_, rfl⟩
  obtain ⟨m', hdisk', -, -, hctl⟩ := recoverSite_enter hup hnone hsite
  cases hdisk.symm.trans hdisk'
  exact ⟨site, hsite, hctl⟩

/-- A job that does not wait is not scheduled. -/
theorem recoverSite_idle {id : ℕ} {w : World} (hup : w.ctl.shuttingDown = false)
    (hnone : w.ctl.live.lookup id = none) (hidle : w.log.waits id = false) :
    recoverSite o id w = none := by
  cases hsite : recoverSite o id w with
  | none => rfl
  | some site =>
    obtain ⟨m, hdisk, hm, -⟩ := recoverSite_enter hup hnone hsite
    unfold Log.waits at hidle
    rw [hdisk] at hidle
    exact absurd hm (of_decide_eq_false hidle)

/-- The controller and the records of other jobs are left alone. -/
def SparesOthers (id : ℕ) (w w' : World) : Prop :=
  w'.ctl = w.ctl ∧ ∀ other, other ≠ id → w'.log.disk other = w.log.disk other

theorem SparesOthers.save {id : ℕ} {m : Meta} {w w₁ : World} (h : SparesOthers id w w₁) (hid : m.id = id) :
    SparesOthers id w (saveMeta o id m w₁).2 :=
  ⟨(saveMeta_ctl _ _ _).trans h.1, fun other hne => (saveMeta_disk hid hne w₁).trans (h.2 other hne)⟩

/-- SUBMIT of a job that is not queued. -/
theorem enqueue_spares {id : ℕ} {w : World} (hids : w.log.IdsMatch)
    (hsite : enqueueSite o id w = none) : SparesOthers id w (enqueue o id w) := by
  have hsame : SparesOthers id w w := ⟨rfl, fun _ _ => rfl⟩
  unfold enqueueSite at hsite
  unfold enqueue
  dsimp only at hsite ⊢
  by_cases hdown : w.ctl.shuttingDown = true
  · rw [if_pos hdown]
    split
    · exact hsame
    · next m hload =>
      have hid : m.id = id := Log.disk_id hids (disk_of_loadMeta hload)
      split_ifs
      · exact hsame
      · exact SparesOthers.save (show SparesOthers id w w.ask.ask from hsame) hid
  · rw [if_neg hdown]
    split_ifs with hlive
    · exact hsame
    · rw [if_neg (by simp [hdown, hlive])] at hsite
      split
      · exact hsame
      · next m hload =>
        have hid : m.id = id := Log.disk_id hids (disk_of_loadMeta hload)
        rw [hload] at hsite
        dsimp only at hsite
        split_ifs with hterm
        · exact hsame
        · cases hvalid : validateMeta m with
          | some err => exact SparesOthers.save (show SparesOthers id w w.ask.ask from hsame) hid
          | none =>
            rw [if_neg (by simp [hterm, hvalid])] at hsite
            cases hsite

/-- Recovering a job that is not scheduled. -/
theorem recoverJob_spares {id : ℕ} {w : World} (hord : Ordered w.view)
    (hsite : recoverSite o id w = none) : SparesOthers id w (recoverJob o w id) := by
  have hsame : SparesOthers id w w := ⟨rfl, fun _ _ => rfl⟩
  unfold recoverSite at hsite
  unfold recoverJob
  dsimp only
  split
  · exact hsame
  · next m hload =>
    have hid : m.id = id := Log.disk_id hord.ids (disk_of_loadMeta hload)
    rw [hload] at hsite
    dsimp only at hsite
    split_ifs with hprog hstate
    · obtain ⟨hctl, kills, hkills, hlog⟩ := killLeftover_view (o := o) (parseProcs m.procs) w.ask
      generalize (parseProcs m.procs).foldl (killLeftover o) w.ask = w₁ at hctl hlog ⊢
      have hkilled : SparesOthers id w w₁.ask := by
        refine ⟨hctl, fun other _ => ?_⟩
        show w₁.log.disk other = _
        rw [hlog]
        refine Log.disk_quiets (fun e he => ?_) w.log other
        obtain ⟨_, _, rfl⟩ := hkills e he
        trivial
      exact hkilled.save hid
    · rw [if_pos hstate] at hsite
      exact @enqueue_spares o id w.ask hord.ids hsite
    · exact hsame

/-- Recovering a job changes no record of a job that is not live. -/
theorem recoverJob_disk {id other : ℕ} {w : World} (hup : w.ctl.shuttingDown = false)
    (hrepr : w.ctl.Repr) (hord : Ordered w.view) (hnone : w.ctl.live.lookup id = none)
    (hne : other ≠ id) (hother : w.ctl.live.lookup other = none) :
    (recoverJob o w id).log.disk other = w.log.disk other := by
  have hrec := recoverJob_site (o := o) id w
  cases hsite : recoverSite o id w with
  | none => exact (recoverJob_spares hord hsite).2 other hne
  | some site =>
    rw [hsite] at hrec
    dsimp only at hrec
    obtain ⟨m, -, -, hstep, hctl⟩ := recoverSite_enter hup hnone hsite
    have hord' := hstep.ordered (fun _ _ (hno : False) => hno.elim) hord
    have hnotin : other ∉ site.ctl.queue := by
      rw [hctl, List.mem_append, List.mem_singleton, not_or, hrepr.queue, hother]
      refine ⟨?_, hne⟩
      rintro ⟨_, ⟨⟩, -⟩
    rw [hrec, schedule, if_neg (by rw [hctl, hup]; simp)]
    refine Eq.trans (scheduleLoop_disk ?_ ?_ hord' hnotin) (hstep.disk_other hord hne)
    · rw [hctl]
      exact hup
    · exact hrepr.change hstep.change

/-- What `recover` has done once it has walked the ids whose waiting ones are
    `batch`, with `slots` slots. -/
structure Recovered (slots : ℕ) (batch : List ℕ) (w : World) : Prop where
  up : w.ctl.shuttingDown = false
  repr : w.ctl.Repr
  max : w.ctl.slotsMax = slots
  launched : ∀ id, w.ctl.Launched id ↔ id ∈ batch.take slots
  settling : w.ctl.Settling

theorem Recovered.of_ctl {slots : ℕ} {batch : List ℕ} {w w' : World} (h : Recovered slots batch w)
    (hctl : w'.ctl = w.ctl) : Recovered slots batch w' where
  up := hctl ▸ h.up
  repr := hctl ▸ h.repr
  max := hctl ▸ h.max
  launched := hctl ▸ h.launched
  settling := hctl ▸ h.settling

/-- Each of the jobs launched uses a slot. -/
theorem Recovered.used {slots : ℕ} {batch : List ℕ} {w : World} (h : Recovered slots batch w)
    (hnodup : batch.Nodup) : w.ctl.slotsUsed = ((batch.take slots).length : ℤ) := by
  rw [h.repr.used]
  congr 1
  refine AList.countVals_eq_length (hnodup.sublist (List.take_sublist slots batch)) fun id => ?_
  rw [← h.launched id]
  unfold Controller.Launched LiveJob.isRunning
  simp only [decide_eq_true_eq]

/-- A waiting job is launched at once if there is a free slot. -/
theorem Recovered.snoc (ho : o.LaunchesAlways) {slots id : ℕ} {batch : List ℕ} {w : World}
    (h : Recovered slots batch w) (hnodup : batch.Nodup) (hnone : w.ctl.live.lookup id = none)
    {m : Meta} (hdisk : w.log.disk id = some m) (hm : m.Waiting) :
    Recovered slots (batch ++ [id]) (recoverJob o w id) := by
  have hrec := recoverJob_site (o := o) id w
  obtain ⟨site, hsite, hctl⟩ := recoverSite_waiting ho h.up hnone hdisk hm
  rw [hsite] at hrec
  dsimp only at hrec
  have hrepr : site.ctl.Repr := hctl ▸ h.repr.enter m hnone
  have hup : site.ctl.shuttingDown = false := hctl ▸ h.up
  have hused := h.used hnodup
  have hmax : site.ctl.slotsMax = w.ctl.slotsMax := by rw [hctl]
  have hsame : site.ctl.slotsUsed = w.ctl.slotsUsed := by rw [hctl]
  have hlaunched : ∀ other, site.ctl.Launched other ↔ w.ctl.Launched other := by
    intro other
    unfold Controller.Launched
    rw [hctl]
    by_cases hother : other = id
    · subst hother
      rw [AList.lookup_insert, hnone]
      simp [Meta.setState]
    · rw [AList.lookup_insert_ne hother]
  obtain ⟨free, hfree⟩ : ∃ free : ℕ, slots = (batch.take slots).length + free :=
    Nat.exists_eq_add_of_le (List.length_take_le slots batch)
  rw [hrec]
  have hsteps := schedule_steps (o := o) (g := .any) site
  refine ⟨?_, ?_, ?_, fun other => ?_, schedule_settling hrepr⟩
  · unfold schedule
    rw [hup]
    exact scheduleLoop_keeps.1.trans hup
  · exact hsteps.keeps (P := fun v => v.ctl.Repr) (fun _ _ _ hv hstep => hv.change hstep.change) hrepr
  · exact hsteps.keeps (P := fun v => v.ctl.slotsMax = slots)
      (fun _ _ _ hv hstep => hstep.change.slotsMax.trans hv) (hmax.trans h.max)
  · have hroom : site.ctl.slotsMax = site.ctl.slotsUsed + free := by
      rw [hmax, hsame, h.max, hused]
      omega
    rw [schedule_first ho hup hrepr hroom,
      hlaunched, h.launched]
    by_cases hroom : batch.length < slots
    · -- a slot is free, so that no other job waits for it
      have htake : batch.take slots = batch := List.take_of_length_le hroom.le
      rw [htake] at hfree hused ⊢
      have hempty : w.ctl.queue = [] := by
        rcases h.settling with hdown | hfull | ⟨hempty, -⟩
        · cases h.up.symm.trans hdown
        · rw [h.max] at hfull
          omega
        · exact hempty
      have hqueue : site.ctl.queue = [id] := by
        rw [hctl]
        show w.ctl.queue ++ [id] = [id]
        rw [hempty, List.nil_append]
      have hone : Among site.ctl.key free [id] other ↔ other = id := by
        constructor
        · exact fun hamong => List.mem_singleton.mp hamong.1
        · rintro rfl
          exact among_of_length_le (by simp; omega) List.mem_cons_self
      rw [hqueue, hone, List.take_of_length_le (by simp; omega), List.mem_append,
        List.mem_singleton]
    · have hfull : free = 0 := by
        rw [List.length_take, Nat.min_eq_left (by omega)] at hfree
        omega
      rw [hfull, List.take_append_of_le_length (by omega)]
      simp

/-- By induction on the ids that are left: the waiting ones among them join the batch. -/
theorem recoverLoop_recovered (ho : o.LaunchesAlways) {slots : ℕ} (ids : List ℕ)
    {batch : List ℕ} {w : World} (h : Recovered slots batch w) (hord : Ordered w.view)
    (hnodup : (batch ++ ids).Nodup) (hnone : ∀ id ∈ ids, w.ctl.live.lookup id = none) :
    Recovered slots (batch ++ ids.filter w.log.waits) (ids.foldl (recoverJob o) w) := by
  induction ids generalizing batch w with
  | nil => simpa using h
  | cons id ids ih =>
    have hlive := hnone id List.mem_cons_self
    obtain ⟨hsteps, -, hothers⟩ := recoverJob_steps (o := o) (g := .quiet) h.up hlive
    have hord' := hsteps.ordered hord
    have hnotin : id ∉ ids := by
      have hids := (List.nodup_append'.mp hnodup).2.1
      exact (List.nodup_cons.mp hids).1
    have hne : ∀ other ∈ ids, other ≠ id := by
      rintro other hother rfl
      exact hnotin hother
    have hnone' : ∀ other ∈ ids, (recoverJob o w id).ctl.live.lookup other = none :=
      fun other hother =>
        hothers other (hne other hother) (hnone other (List.mem_cons_of_mem id hother))
    have hkeep : ∀ other ∈ ids, (recoverJob o w id).log.waits other = w.log.waits other := by
      intro other hother
      unfold Log.waits
      rw [recoverJob_disk h.up h.repr hord hlive (hne other hother)
        (hnone other (List.mem_cons_of_mem id hother))]
    rw [List.foldl_cons]
    cases hwaits : w.log.waits id with
    | false =>
      rw [List.filter_cons_of_neg (by simp [hwaits]), ← List.filter_congr hkeep]
      have hsite := @recoverSite_idle o id w h.up hlive hwaits
      refine ih (h.of_ctl (recoverJob_spares hord hsite).1) hord' ?_ hnone'
      exact hnodup.sublist ((List.Sublist.refl batch).append (List.sublist_cons_self id ids))
    | true =>
      have hfound : ∃ m, w.log.disk id = some m ∧ m.Waiting := by
        unfold Log.waits at hwaits
        split at hwaits
        · cases hwaits
        · next m hdisk => exact ⟨m, hdisk, of_decide_eq_true hwaits⟩
      obtain ⟨m, hdisk, hm⟩ := hfound
      rw [List.filter_cons_of_pos hwaits, ← List.filter_congr hkeep, List.append_cons]
      refine ih (h.snoc ho ?_ hlive hdisk hm) hord' ?_ hnone'
      · exact (List.nodup_append'.mp hnodup).1
      · rwa [← List.append_cons]

/-- **`recover` launches the first waiting jobs by id.** -/
theorem recover_first (ho : o.LaunchesAlways) {w : World} (hdown : w.Down) (hrepr : w.ctl.Repr)
    (hids : w.log.IdsMatch) (id : ℕ) :
    (recover o w).ctl.Launched id ↔ id ∈ w.log.backlog.take w.ctl.slotsMax.toNat := by
  have hnone : ∀ other, w.ctl.live.lookup other = none := by
    intro other
    rw [hdown.live, AList.lookup_empty]
  have hord : Ordered w.view := by
    refine ⟨hids, fun other job hother => ?_⟩
    cases (hnone other).symm.trans hother
  have hidle : ∀ other p, ¬ w.ctl.Queued other p := by
    rintro other p ⟨job, hother, -, -⟩
    cases (hnone other).symm.trans hother
  have hempty : w.ctl.queue = [] := by
    rw [List.eq_nil_iff_forall_not_mem]
    intro other hother
    obtain ⟨p, hqueued⟩ := hrepr.queued_iff.mp hother
    exact hidle other p hqueued
  have hmax : w.ctl.slotsMax = (w.ctl.slotsMax.toNat : ℤ) := by
    have hused := hrepr.used
    have hbound := hrepr.bound
    omega
  have hfresh : Recovered w.ctl.slotsMax.toNat [] w := by
    refine ⟨hdown.up, hrepr, hmax, fun other => ?_, .inr (.inr ⟨hempty, hidle⟩)⟩
    rw [List.take_nil]
    refine iff_of_false ?_ List.not_mem_nil
    rintro ⟨job, hother, -⟩
    cases (hnone other).symm.trans hother
  have hnodup : w.log.jobIds.mergeSort.Nodup :=
    (List.mergeSort_perm _ _).nodup_iff.mpr (nodup_jobIds w.log)
  exact (recoverLoop_recovered ho _ hfresh hord hnodup fun other _ => hnone other).launched id

/-! ## Two orders of one backlog -/

theorem backlog_sorted (log : Log) : log.backlog.Pairwise (· < ·) := by
  have hle : log.jobIds.mergeSort.Pairwise (· ≤ ·) := List.pairwise_mergeSort' (· ≤ ·) log.jobIds
  have hne : log.jobIds.mergeSort.Nodup :=
    (List.mergeSort_perm _ _).nodup_iff.mpr (nodup_jobIds log)
  exact (hle.and hne).imp (fun h => lt_of_le_of_ne h.1 h.2) |>.filter log.waits

/-- A controller that has queued the whole backlog, and runs nothing. -/
structure Backlogged (log : Log) (c : Controller) : Prop where
  up : c.shuttingDown = false
  repr : c.Repr
  used : c.slotsUsed = 0
  queue : ∀ id, id ∈ c.queue ↔ id ∈ log.backlog
  priority : ∀ id p, c.Queued id p → p = log.priority id

/-- With the whole backlog queued, `schedule` launches the first jobs by `rank`. -/
theorem Backlogged.schedule (ho : o.LaunchesAlways) {log : Log} {w : World}
    (h : Backlogged log w.ctl) {slots : ℕ} (hmax : w.ctl.slotsMax = slots) (id : ℕ) :
    (schedule o w).ctl.Launched id ↔
      Among (fun other => rank (log.priority other) other) slots log.backlog id := by
  have hnone : ¬ w.ctl.Launched id := by
    rintro ⟨job, hlive, hstate⟩
    have hpos := AList.countVals_pos (p := LiveJob.isRunning) hlive (decide_eq_true hstate)
    have hused := h.repr.used
    rw [h.used] at hused
    omega
  have hkeys : ∀ other ∈ w.ctl.queue,
      w.ctl.key other = rank (log.priority other) other := by
    intro other hother
    obtain ⟨p, hqueued⟩ := h.repr.queued_iff.mp hother
    rw [hqueued.key, h.priority other p hqueued]
  have hperm : w.ctl.queue.Perm log.backlog :=
    (List.perm_ext_iff_of_nodup h.repr.nodup ((backlog_sorted log).imp ne_of_lt)).mpr h.queue
  have hfree : w.ctl.slotsMax = w.ctl.slotsUsed + slots := by
    rw [hmax, h.used]
    omega
  rw [schedule_first ho h.up h.repr hfree,
    among_congr hkeys, among_perm hperm]
  simp [hnone]

/-- **Priority across a restart, exactly when it survives**: with the whole backlog
    queued, `schedule` launches the first jobs by priority and id, and `recover`
    launches the same ones if and only if no job after the first `k` by id has a
    higher priority than one of these. -/
theorem recover_order (o : Oracle) (ho : o.LaunchesAlways) (slots : ℕ) (es : List Event)
    (hids : ∀ e ∈ es, e.input.idsMatch = true)
    (hdown : (Machine.run (World.step o) (World.start slots) es).ctl.running = false) :
    let w := Machine.run (World.step o) (World.start slots) es
    let k := w.ctl.slotsMax.toNat
    let first := Among (fun id => rank (w.log.priority id) id) k w.log.backlog
    (∀ w' : World, Backlogged w.log w'.ctl → w'.ctl.slotsMax = k →
      ∀ id, (schedule o w').ctl.Launched id ↔ first id) ∧
    ((∀ id, (handle o w .recover).ctl.Launched id ↔ first id) ↔
      ∀ id ∈ w.log.backlog.take k, ∀ other ∈ w.log.backlog.drop k,
        w.log.priority other ≤ w.log.priority id) := by
  intro w k first
  have hids : w.log.IdsMatch :=
    (run_view (P := fun v => v.log.IdsMatch) (fun _ _ _ hmem => absurd hmem List.not_mem_nil)
      (fun _ _ _ hv hstep => hstep.grows.idsMatch (fun _ _ hid => hid) hv)
      (fun v log slots hv hsuffix id m hmem => by
        rcases List.mem_cons.mp hmem with heq | hmem
        · cases heq
        · exact hv id m (hsuffix.mem hmem))
      (along_orderly o slots hids))
  have hlaunched : ∀ id, (handle o w .recover).ctl.Launched id ↔ id ∈ w.log.backlog.take k := by
    intro id
    rw [← recover_first ho (run_down o slots es hdown) (run_repr o slots es).1 hids id]
    simp only [handle, hdown, w, Bool.false_eq_true, if_false]
    rfl
  have hsorted := backlog_sorted w.log
  refine ⟨fun w' hback hmax id => hback.schedule ho hmax id, ?_⟩
  simp only [hlaunched]
  refine (take_eq_among_iff (hsorted.imp ne_of_lt)
    fun _ _ _ _ heq => (rank_injective heq).2).trans ?_
  refine forall₂_congr fun id hid => forall₂_congr fun other hother => ?_
  have hlt : id < other := by
    rw [← List.take_append_drop k w.log.backlog, List.pairwise_append] at hsorted
    exact hsorted.2.2 id hid other hother
  rw [rank_lt_iff]
  omega

theorem smooth_launches (pid : ℕ → ℕ → ℕ) : (Oracle.smooth pid).LaunchesAlways where
  load := fun _ _ _ _ => rfl
  launch := fun _ => ⟨⟨_, rfl⟩, rfl, rfl, rfl, fun _ => ⟨_, rfl⟩⟩

theorem sort_two : [2, 1].mergeSort = [1, 2] := by
  simp [List.mergeSort, List.MergeSort.Internal.splitInTwo]

/-- A controller with jobs 1 and 2 in its queue. -/
def queuedTwo : Controller where
  slotsMax := 1
  queue := [1, 2]
  live := ((∅ : AList fun _ : ℕ => LiveJob).insert 1
    { jobMeta := Meta.setState { execMeta 1 with priority := 5 } "queued" }).insert 2
    { jobMeta := (execMeta 2).setState "queued" }

theorem queuedTwo_repr : queuedTwo.Repr :=
  ((Controller.Repr.fresh 1).enter { execMeta 1 with priority := 5 } rfl).enter (execMeta 2) rfl

/-- Job 1 has the higher priority and the smaller id: it is launched by `recover`,
    and by `schedule` when both jobs are queued. -/
theorem recover_order_kept :
    let o := Oracle.smooth fun _ i => 7 + i
    let es := [.handled (.record 1 { execMeta 1 with priority := 5 }),
      .handled (.record 2 (execMeta 2))]
    let w := Machine.run (World.step o) (World.start 1) es
    let first := Among (fun id => rank (w.log.priority id) id) w.ctl.slotsMax.toNat w.log.backlog
    (∀ id, (schedule o { w with ctl := queuedTwo }).ctl.Launched id ↔ first id) ∧
      ∀ id, (handle o w .recover).ctl.Launched id ↔ first id := by
  intro o es w first
  have hback : w.log.backlog = [1, 2] := by
    have hids : w.log.jobIds = [2, 1] := rfl
    unfold Log.backlog
    rw [hids, sort_two]
    decide +kernel
  obtain ⟨hschedule, hrecover⟩ := recover_order o (smooth_launches _) 1 es (by decide) rfl
  refine ⟨hschedule { w with ctl := queuedTwo } ⟨rfl, queuedTwo_repr, rfl, ?_, ?_⟩ rfl,
    hrecover.mpr fun id hid other hother => ?_⟩
  · intro id
    rw [hback]
    rfl
  · rintro id p ⟨job, hlive, -, rfl⟩
    rcases Controller.Repr.lookup_insert_cases hlive with ⟨rfl, rfl⟩ | ⟨-, hlive⟩
    · decide +kernel
    · rcases Controller.Repr.lookup_insert_cases hlive with ⟨rfl, rfl⟩ | ⟨-, hlive⟩
      · decide +kernel
      · cases hlive
  · have hone : id = 1 := by
      have hid : id ∈ w.log.backlog.take 1 := hid
      rw [hback] at hid
      exact List.mem_singleton.mp hid
    have htwo : other = 2 := by
      have hother : other ∈ w.log.backlog.drop 1 := hother
      rw [hback] at hother
      exact List.mem_singleton.mp hother
    subst hone htwo
    decide +kernel

/-- Job 2 has the higher priority, and `recover` launches job 1. -/
theorem priority_lost :
    let o := Oracle.smooth fun _ i => 7 + i
    let es := [.handled (.record 1 (execMeta 1)),
      .handled (.record 2 { execMeta 2 with priority := 5 })]
    let w := Machine.run (World.step o) (World.start 1) es
    (o.LaunchesAlways ∧ w.ctl.running = false) ∧
      ¬ ∀ id, (handle o w .recover).ctl.Launched id ↔
        Among (fun id => rank (w.log.priority id) id) w.ctl.slotsMax.toNat w.log.backlog id := by
  intro o es w
  have ho : o.LaunchesAlways := smooth_launches _
  have hdown : w.ctl.running = false := rfl
  have hback : w.log.backlog = [1, 2] := by
    have hids : w.log.jobIds = [2, 1] := rfl
    unfold Log.backlog
    rw [hids, sort_two]
    decide +kernel
  have hmatch : w.log.IdsMatch := by
    have hlog : w.log = [.record 2 { execMeta 2 with priority := 5 }, .record 1 (execMeta 1)] := rfl
    rw [hlog]
    intro id m hmem
    rcases List.mem_pair.mp hmem with h | h <;> cases h <;> rfl
  refine ⟨⟨ho, hdown⟩, fun hclaim => ?_⟩
  have hlaunched : (handle o w .recover).ctl.Launched 1 := by
    have hfirst := (recover_first ho (run_down o 1 es hdown) (run_repr o 1 es).1 hmatch 1).mpr
      (by rw [hback]; exact List.mem_cons_self)
    simp only [handle, hdown, Bool.false_eq_true, if_false]
    exact hfirst
  have hlate : ¬ Among (fun id => rank (w.log.priority id) id) w.ctl.slotsMax.toNat
      w.log.backlog 1 := by
    rw [hback]
    rintro ⟨-, hfew⟩
    revert hfew
    decide +kernel
  exact hlate ((hclaim 1).mp hlaunched)

end Forge
