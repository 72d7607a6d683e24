import Forge.Client.Submit
import Forge.Controller.Backlog

/-!
# Rejected submissions

`cmd_submit` (main.cpp:182-274) writes the record before it tells the controller.
A failure of `send_fifo` comes too late to take the job back: the record stays, and
`recover` (controller.cpp:781-808) takes it for work to do.

* `Dormant.step`: a job without an open record is never admitted.
* `rejected_spared`: a rejected submission is never run exactly when it has left no
  record that can be run.
* `rejected_runs`: without a controller the submission is rejected, and the
  controller that is started next runs it.
-/

namespace Forge

open Selection

/-! ## The end of `cmd_submit` -/

/-- How `send_fifo` goes. -/
inductive FifoAnswer where
  | sent
  /-- `open` fails with `ENXIO`. -/
  | noReader
  | openFailed (errno : String)
  | writeFailed (errno : String)

/-- `send_fifo` (main.cpp:120-138). -/
def sendFifo (root : String) : FifoAnswer → Except String Unit
  | .sent => .ok ()
  | .noReader => .error ("controller is not running for " ++ root ++
      "\nStart it with:\n  forge run --workspace " ++ root)
  | .openFailed errno => .error ("open fifo: " ++ errno)
  | .writeFailed errno => .error ("write fifo: " ++ errno)

/-- How the two steps of `cmd_submit` that others can see go. -/
structure Sending where
  /-- The directory that `resolve_workspace` names. -/
  root : String
  save : WriteAnswer
  fifo : FifoAnswer

/-- The error that `save_meta` and `send_fifo` end with (main.cpp:264-270). -/
def Sending.run (a : Sending) : Except String Unit :=
  match a.save with
  | .failed err _ => .error err
  | .ok => sendFifo a.root a.fifo

/-- `cmd_submit` (main.cpp:182-274) without `--wait`: an error, or the id that it
    prints. -/
def submit (s : System) (a : Sending) (args : List String) : Except String ℕ := do
  let m ← cmdSubmit s args
  a.run
  .ok m.id

/-- `save_meta` has put the record in place. -/
def Sending.visible (a : Sending) : Bool :=
  match a.save with
  | .ok => true
  | .failed _ visible => visible

/-- The record that the submission leaves, as it is read back. -/
def leftRecord (s : System) (a : Sending) (args : List String) : Option (ℕ × Meta) :=
  match cmdSubmit s args with
  | .error _ => none
  | .ok m =>
    if a.visible then
      match textToMeta (metaToText m) with
      | .error _ => none
      | .ok m' => some (m.id, m')
    else none

/-- What the submission does to the workspace. -/
def submitEvents (s : System) (a : Sending) (args : List String) : List Event :=
  match leftRecord s a args with
  | none => []
  | some (id, m) => [.handled (.record id m)]

/-- Nobody else writes the record of this id, or a record that carries it. -/
def Event.Foreign (id : ℕ) (e : Event) : Prop :=
  ∀ i m, e.input = .record i m → i ≠ id ∧ m.id ≠ id

/-- No controller runs the submission, whatever else happens in the workspace
    before and after it. -/
def Spared (s : System) (a : Sending) (args : List String) : Prop :=
  ∀ m, cmdSubmit s args = .ok m → ∀ (o : Oracle) (slots : ℕ) (es es' : List Event),
    (∀ e ∈ es, e.Foreign m.id) → (∀ e ∈ es', e.Foreign m.id) →
    ¬ (Machine.run (World.step o) (World.start slots)
      (es ++ submitEvents s a args ++ es')).log.Launched m.id

/-- The record is one that `enqueue` admits. -/
def Meta.Open (m : Meta) : Prop := isTerminalState m.state = false ∧ validateMeta m = none

/-- The submission has left a record that can be run. -/
def LeavesJob (s : System) (a : Sending) (args : List String) : Prop :=
  ∃ m m', cmdSubmit s args = .ok m ∧ a.visible = true ∧ textToMeta (metaToText m) = .ok m' ∧ m'.Open

/-! ## Jobs without an open record -/

variable {o : Oracle} {g : Guard} {id₀ : ℕ}

/-- The effect does not let job `id₀` run. -/
def Effect.Spares (id₀ : ℕ) : Effect → Prop
  | .save _ m => m.id = id₀ → ¬ m.Open
  | .record i m => (i = id₀ → ¬ m.Open) ∧ (i ≠ id₀ → m.id ≠ id₀)
  | .fork l => l.id ≠ id₀
  | _ => True

theorem disk_spared {log : Log} (h : ∀ e ∈ log, e.Spares id₀) :
    (∀ m, log.disk id₀ = some m → ¬ m.Open) ∧
      ∀ i m, i ≠ id₀ → log.disk i = some m → m.id ≠ id₀ := by
  induction log with
  | nil =>
    have hnone : ∀ {i m}, Log.disk [] i ≠ some m := fun hm => Option.some_ne_none _ hm.symm
    exact ⟨fun _ hm => absurd hm hnone, fun _ _ _ hm => absurd hm hnone⟩
  | cons e log ih =>
    have he := h e List.mem_cons_self
    obtain ⟨hown, hothers⟩ := ih fun e' he' => h e' (List.mem_cons_of_mem e he')
    cases e with
    | save j m' =>
      refine ⟨fun m hm => ?_, fun i m hi hm => ?_⟩
      · rw [Log.disk] at hm
        split_ifs at hm with hid
        · cases hm
          exact he hid
        · exact hown m hm
      · rw [Log.disk] at hm
        split_ifs at hm with hid
        · cases hm
          rwa [hid]
        · exact hothers i m hi hm
    | record j m' =>
      refine ⟨fun m hm => ?_, fun i m hi hm => ?_⟩
      · rw [Log.disk] at hm
        split_ifs at hm with hid
        · cases hm
          exact he.1 hid
        · exact hown m hm
      · rw [Log.disk] at hm
        split_ifs at hm with hid
        · cases hm
          exact he.2 (hid ▸ hi)
        · exact hothers i m hi hm
    | _ => exact ⟨hown, hothers⟩

theorem launches_spared {log : Log} (h : ∀ e ∈ log, e.Spares id₀) : ¬ log.Launched id₀ := by
  rintro ⟨l, hl, hid⟩
  exact h _ (Log.fork_of_mem_launches hl) hid

/-- The job is not live, no live job carries its id, and it has no open record. -/
structure Dormant (id₀ : ℕ) (v : View) : Prop where
  idle : v.ctl.live.lookup id₀ = none
  ids : ∀ id job, v.ctl.live.lookup id = some job → job.jobMeta.id ≠ id₀
  log : ∀ e ∈ v.log, e.Spares id₀

/-- The records that others write do not let the job run. -/
def Guard.barring (id₀ : ℕ) : Guard where
  record := fun i m => (i = id₀ → ¬ m.Open) ∧ (i ≠ id₀ → m.id ≠ id₀)

/-- Closing a record of the job. -/
theorem Saved.spares {log log' : Log} {id : ℕ} {m : Meta} (h : Saved o log id m log')
    (hterm : isTerminalState m.state = true) : Adds (Effect.Spares id₀) log log' :=
  (Adds.refl log).saved (fun _ hopen => absurd (hopen.1.symm.trans hterm) (by decide)) trivial h

/-- A step that is about the job leaves it idle. -/
theorem Dormant.step_own {v v' : View} (hv : Dormant id₀ v) (h : Step o (.barring id₀) id₀ v v') :
    v'.ctl.live.lookup id₀ = none ∧ Adds (Effect.Spares id₀) v.log v'.log := by
  have hlive : ∀ {job}, v.ctl.live.lookup id₀ = some job → False := fun hjob => by
    cases hv.idle.symm.trans hjob
  have hdisk := (disk_spared hv.log).1
  cases h with
  | started => exact ⟨hv.idle, .refl _⟩
  | recoverFail _ _ _ hkills hsave =>
    refine ⟨hv.idle, (Adds.append (.refl _) fun e he => ?_).trans (hsave.spares rfl)⟩
    obtain ⟨_, _, rfl⟩ := hkills e he
    trivial
  | cancelLate _ _ _ _ hsave => exact ⟨hv.idle, hsave.spares rfl⟩
  | reject _ _ _ _ _ hsave => exact ⟨hv.idle, hsave.spares rfl⟩
  | enter _ _ hm hopen hvalid => exact absurd ⟨hopen, hvalid⟩ (hdisk _ hm)
  | launchFail hjob => exact (hlive hjob.live).elim
  | launchSpawnFail hjob => exact (hlive hjob.live).elim
  | launch hjob => exact (hlive hjob.live).elim
  | cancelNothing => exact ⟨hv.idle, (Adds.refl _).cons trivial⟩
  | cancelRecord _ _ _ hsave => exact ⟨hv.idle, (hsave.spares rfl).cons trivial⟩
  | cancelQueued hjob => exact (hlive hjob).elim
  | cancelRunning hjob => exact (hlive hjob).elim
  | stop hjob => exact (hlive hjob).elim
  | stopAgain hjob => exact (hlive hjob).elim
  | escalate hjob => exact (hlive hjob).elim
  | shutdown => exact ⟨hv.idle, .refl _⟩
  | reapUnknown => exact ⟨hv.idle, (Adds.refl _).cons trivial⟩
  | reapSome _ _ hjob => exact (hlive hjob).elim
  | reapBad _ _ hjob => exact (hlive hjob).elim
  | reapLast _ _ hjob => exact (hlive hjob).elim
  | reapLastBad _ _ hjob => exact (hlive hjob).elim
  | workerExit => exact ⟨hv.idle, (Adds.refl _).cons trivial⟩
  | workerOutput => exact ⟨hv.idle, (Adds.refl _).cons trivial⟩
  | memberSpawned => exact ⟨hv.idle, (Adds.refl _).cons trivial⟩
  | memberGone => exact ⟨hv.idle, (Adds.refl _).cons trivial⟩
  | @workerRegion c log l e f hlaunch =>
    exact absurd ⟨l, hlaunch, rfl⟩ (launches_spared hv.log)
  | record _ hrecord => exact ⟨hv.idle, (Adds.refl _).cons hrecord⟩

/-- **Step.** The job stays dormant, whichever job the step is about. -/
theorem Dormant.step {id : ℕ} {v v' : View} (hv : Dormant id₀ v) (h : Step o (.barring id₀) id v v') :
    Dormant id₀ v' := by
  obtain ⟨hown, hothers⟩ := disk_spared hv.log
  have hderives : ∀ {i m}, i ≠ id₀ → v.Derives i m → m.id ≠ id₀ := by
    rintro i m hi (⟨job, hlive, hid⟩ | ⟨m₀, hdisk, hid⟩)
    · rw [hid]
      exact hv.ids i job hlive
    · rw [hid]
      exact hothers i m₀ hi hdisk
  have hstep : v'.ctl.live.lookup id₀ = none ∧ Adds (Effect.Spares id₀) v.log v'.log := by
    by_cases hid : id = id₀
    · subst hid
      exact hv.step_own h
    · obtain ⟨hadds, hkept⟩ := h.concerns
      refine ⟨(hkept id₀ (Ne.symm hid)).trans hv.idle, hadds.imp fun e he => ?_⟩
      cases e with
      | save i m => exact fun hm => absurd hm (hderives hid he.2)
      | record i m => exact he.2
      | fork l =>
        have hl : l.id ≠ id₀ := fun heq => hid (he.1.symm.trans heq)
        exact hl
      | _ => trivial
  refine ⟨hstep.1, fun i job hlive => ?_, fun e he => ?_⟩
  · by_cases hi : i = id₀
    · subst hi
      cases hstep.1.symm.trans hlive
    · exact hderives hi (h.change.derives hlive)
  · obtain ⟨new, hlog, hnew⟩ := hstep.2
    rw [hlog] at he
    rcases List.mem_append.mp he with he | he
    · exact hnew e he
    · exact hv.log e he

/-- **Run.** -/
theorem run_dormant {slots : ℕ} {es : List Event}
    (hes : ∀ e ∈ es, ∀ i m, e.input = .record i m → (Guard.barring id₀).record i m) :
    Dormant id₀ (Machine.run (World.step o) (World.start slots) es).view := by
  have hallow : Machine.Along (World.step o) (fun w e => (Guard.barring id₀).Allows w e.input)
      (World.start slots) es := by
    refine Machine.along_of hes (along_any (World.start slots) es) fun w e he _ => ?_
    cases hinput : e.input with
    | record i m => exact he i m hinput
    | line => exact fun _ _ _ _ => trivial
    | reap => exact fun _ _ _ => trivial
    | _ => trivial
  have hfresh : ∀ (slots : ℕ) (log : Log), (∀ e ∈ log, e.Spares id₀) →
      Dormant id₀ ⟨{ slotsMax := slots }, log⟩ := fun slots log hlog =>
    ⟨AList.lookup_empty _, by simp, hlog⟩
  refine run_view (fun slots => hfresh slots [] (by simp)) (fun _ _ _ hv hstep => hv.step hstep)
    (fun v log slots hv hsuffix => hfresh slots _ fun e he => ?_) hallow
  rcases List.mem_cons.mp he with rfl | he
  · trivial
  · exact hv.log e (hsuffix.mem he)

/-! ## Jobs with an open record -/

/-- A job that is running has been forked. -/
theorem Crew.launched_of_running {v : View} (hv : Crew v) {id : ℕ} (h : v.ctl.Launched id) :
    v.log.Launched id := by
  obtain ⟨job, hlive, hstate⟩ := h
  obtain ⟨call, ws, hstaffed⟩ := hv.staffed hlive (by rw [hstate]; decide)
  have hne : ws ≠ [] := by
    rintro rfl
    exact launchRanges_ne_nil job.jobMeta hstaffed.ranges.symm
  obtain ⟨l, hl⟩ := List.exists_mem_of_ne_nil ws hne
  obtain ⟨hfork, hid, -⟩ := hstaffed.belongs l hl
  exact ⟨l, Log.forks_subset hfork, hid⟩

/-- A line `SUBMIT` for an open record runs the job at once if a slot is free. -/
theorem enqueue_launches (ho : o.LaunchesAlways) {id : ℕ} {m : Meta} {w : World}
    (hup : w.ctl.shuttingDown = false) (hrepr : w.ctl.Repr)
    (hnone : w.ctl.live.lookup id = none) (hqueue : w.ctl.queue = [])
    (hroom : w.ctl.slotsMax = w.ctl.slotsUsed + 1) (hload : loadMeta o .submit id w = some m)
    (hm : m.Open) :
    (enqueue o id w).ctl.Launched id := by
  have hgo : ¬ (w.ctl.shuttingDown = true ∨ (w.ctl.live.lookup id).isSome = true) := by
    simp [hup, hnone]
  have hfine : ¬ (isTerminalState m.state = true ∨ (validateMeta m).isSome = true) := by
    simp [hm.1, hm.2]
  obtain ⟨site, hsite, hctl⟩ : ∃ site, enqueueSite o id w = some site ∧ site.ctl = { w.ctl with
      queue := w.ctl.queue ++ [id]
      live := w.ctl.live.insert id { jobMeta := m.setState "queued" } } := by
    unfold enqueueSite
    rw [if_neg hgo, hload]
    dsimp only
    rw [if_neg hfine, saveMeta_ctl]
    exact ⟨_, rfl, rfl⟩
  have hschedule := enqueue_site (o := o) id w
  rw [hsite] at hschedule
  dsimp only at hschedule
  obtain ⟨hsrepr, hsup⟩ := enqueueSite_repr hrepr hsite
  have hfree : site.ctl.slotsMax = site.ctl.slotsUsed + (1 : ℕ) := by
    rw [hctl]
    exact hroom
  have hqueued : site.ctl.queue = [id] := by
    rw [hctl, hqueue]
    rfl
  rw [hschedule, schedule_first ho hsup hsrepr hfree, hqueued]
  exact Or.inr (among_of_length_le le_rfl (List.mem_singleton_self id))

/-- The line that `cmd_submit` sends. -/
def submitLine (id : ℕ) : List Char := "SUBMIT ".toList ++ Nat.toDigits 10 id

theorem handleLine_submit {id : ℕ} (hid : id < 2 ^ 64) (w : World) :
    handleLine o (submitLine id) w = enqueue o id w := by
  have hline : submitLine id ≠ "SHUTDOWN".toList := by
    intro heq
    have hsecond := congrArg (fun l : List Char => l[1]?) heq
    cases hsecond
  have hprefix : "SUBMIT ".toList.isPrefixOf (submitLine id) = true :=
    List.isPrefixOf_iff_prefix.mpr (List.prefix_append _ _)
  have hnumber : (submitLine id).drop 7 = Nat.toDigits 10 id := rfl
  unfold handleLine
  rw [if_neg hline, if_pos hprefix, hnumber, parseU64_toDigits hid]

theorem cmdSubmit_id {s : System} {args : List String} {m : Meta} (h : cmdSubmit s args = .ok m) :
    m.id < 2 ^ 64 := by
  unfold cmdSubmit at h
  dsimp only at h
  obtain ⟨_, -, h⟩ := Except.bind_ok h
  obtain ⟨_, -, h⟩ := Except.bind_ok h
  obtain ⟨_, -, h⟩ := Except.bind_ok h
  obtain ⟨id, halloc, h⟩ := Except.bind_ok h
  cases h
  exact (allocateJobId_ok halloc).1

theorem leftRecord_eq {s : System} {a : Sending} {args : List String} {m m' : Meta}
    (h : cmdSubmit s args = .ok m) (hvisible : a.visible = true)
    (hread : textToMeta (metaToText m) = .ok m') : leftRecord s a args = some (m.id, m') := by
  unfold leftRecord
  rw [h]
  dsimp only
  rw [if_pos hvisible, hread]

/-- A record that can be run is run. -/
theorem not_spared {s : System} {a : Sending} {args : List String} (h : LeavesJob s a args) :
    ¬ Spared s a args := by
  obtain ⟨m, m', hsubmit, hvisible, hread, hopen⟩ := h
  intro hspared
  have hforeign : ∀ input, (∀ i m', input ≠ .record i m') → ∀ e ∈ [Event.handled input],
      e.Foreign m.id := by
    intro input hinput e he i m' hrecord
    rw [List.mem_singleton] at he
    subst he
    exact absurd hrecord (hinput i m')
  have hnot := hspared m hsubmit (Oracle.smooth fun _ i => 7 + i) 1 [.handled .recover]
    [.handled (.line (submitLine m.id))] (hforeign _ (by simp)) (hforeign _ (by simp))
  apply hnot
  unfold submitEvents
  rw [leftRecord_eq hsubmit hvisible hread]
  dsimp only
  have hcrew : Crew (Machine.run (World.step (Oracle.smooth fun _ i => 7 + i)) (World.start 1)
      ([.handled .recover] ++ [.handled (.record m.id m')] ++
        [.handled (.line (submitLine m.id))])).view := run_crew (along_any _ _)
  apply hcrew.launched_of_running
  -- the controller is up and empty when the line arrives
  rw [Machine.run_append, Machine.run_append]
  have hup : Machine.run (World.step (Oracle.smooth fun _ i => 7 + i)) (World.start 1)
      [.handled .recover] = { ctl := { slotsMax := 1, running := true }, calls := 0, log := [] } := by
    simp [Machine.run, World.step, handle, World.start, recover, listJobIds, Log.jobIds, World.setCtl]
  have hrepr := (run_repr (Oracle.smooth fun _ i => 7 + i) 1 [.handled .recover]).1
  rw [hup] at hrepr ⊢
  show (handleLine _ (submitLine m.id) _).ctl.Launched m.id
  rw [handleLine_submit (cmdSubmit_id hsubmit)]
  refine enqueue_launches (smooth_launches _) rfl hrepr (AList.lookup_empty _) rfl rfl ?_ hopen
  have hdisk : Log.disk [.record m.id m'] m.id = some m' := if_pos rfl
  show (Log.disk [.record m.id m'] m.id).filter (fun _ => true) = some m'
  rw [hdisk]
  rfl

/-- A submission that has left no record that can be run is never run. -/
theorem spared_of_not_leaves {s : System} {a : Sending} {args : List String}
    (h : ¬ LeavesJob s a args) : Spared s a args := by
  intro m hsubmit o slots es es' hes hes'
  apply @launches_spared m.id
  refine (@run_dormant o m.id slots _ fun e he i m' hrecord => ?_).log
  rcases List.mem_append.mp he with he | he
  · rcases List.mem_append.mp he with he | he
    · obtain ⟨hi, hid⟩ := hes e he i m' hrecord
      exact ⟨fun heq => absurd heq hi, fun _ => hid⟩
    · -- its own record is not open
      unfold submitEvents leftRecord at he
      rw [hsubmit] at he
      dsimp only at he
      split_ifs at he with hvisible
      · cases hread : textToMeta (metaToText m) with
        | error e =>
          rw [hread] at he
          cases he
        | ok m'' =>
          rw [hread] at he
          rw [List.mem_singleton.mp he] at hrecord
          cases hrecord
          exact ⟨fun _ hopen => h ⟨m, m', hsubmit, hvisible, hread, hopen⟩, fun hne => absurd rfl hne⟩
      · cases he
  · obtain ⟨hi, hid⟩ := hes' e he i m' hrecord
    exact ⟨fun heq => absurd heq hi, fun _ => hid⟩

/-- **A rejected submission is never run** exactly when it has left no record that can
    be run: a record that is in place is one that the rest of `cmd_submit` accepts. -/
theorem rejected_spared (s : System) (a : Sending) (args : List String) :
    (∀ err, submit s a args = .error err → Spared s a args) ↔
      (LeavesJob s a args → a.run = .ok ()) := by
  constructor
  · intro hclaim hleaves
    obtain ⟨m, m', hsubmit, -⟩ := id hleaves
    cases hrun : a.run with
    | ok _ => rfl
    | error err =>
      have hrejected : submit s a args = .error err := by
        unfold submit
        rw [hsubmit, hrun]
        rfl
      exact absurd (hclaim err hrejected) (not_spared hleaves)
  · intro hlate err hrejected
    apply spared_of_not_leaves
    intro hleaves
    obtain ⟨m, m', hsubmit, -⟩ := id hleaves
    have haccepted : submit s a args = .ok m.id := by
      unfold submit
      rw [hsubmit, hlate hleaves]
      rfl
    cases hrejected.symm.trans haccepted

/-- **A rejected submission is run.** No controller reads the fifo, so `forge submit`
    ends with an error; the controller that is started next runs the job. -/
theorem rejected_runs :
    let s := System.smooth "/w/a"
    let a : Sending := { root := "/w", save := .ok, fifo := .noReader }
    let args := ["--operation", "count", "--input", "a"]
    submit s a args = .error ("controller is not running for /w\nStart it with:\n" ++
        "  forge run --workspace /w") ∧
      submitEvents s a args = [.handled (.record 7 (countMeta "/w/a"))] ∧
      (Machine.run (World.step (Oracle.smooth fun _ i => 7 + i)) (World.start 1)
        (submitEvents s a args ++ [.handled .recover])).log.Launched 7 ∧
      ¬ Spared s a args := by
  intro s a args
  have hsubmit : cmdSubmit s args = .ok (countMeta "/w/a") := by decide +kernel
  have hread : textToMeta (metaToText (countMeta "/w/a")) = .ok (countMeta "/w/a") := by
    decide +kernel
  have hrejected : submit s a args = .error ("controller is not running for /w\nStart it with:\n" ++
      "  forge run --workspace /w") := by
    unfold submit
    rw [hsubmit]
    rfl
  have hleft : leftRecord s a args = some (7, countMeta "/w/a") := leftRecord_eq hsubmit rfl hread
  have hevents : submitEvents s a args = [.handled (.record 7 (countMeta "/w/a"))] := by
    unfold submitEvents
    rw [hleft]
  have hlaunched : (Machine.run (World.step (Oracle.smooth fun _ i => 7 + i)) (World.start 1)
      [.handled (.record 7 (countMeta "/w/a")), .handled .recover]).log.launches.map (·.id) = [7] := by
    decide +kernel
  refine ⟨hrejected, hevents, ?_, fun hspared => ?_⟩
  · rw [hevents]
    have hmem : 7 ∈ (Machine.run (World.step (Oracle.smooth fun _ i => 7 + i)) (World.start 1)
        [.handled (.record 7 (countMeta "/w/a")), .handled .recover]).log.launches.map (·.id) := by
      rw [hlaunched]
      exact List.mem_singleton_self 7
    obtain ⟨l, hl, hid⟩ := List.mem_map.mp hmem
    exact ⟨l, hl, hid⟩
  · have hopen : (countMeta "/w/a").Open := by
      unfold Meta.Open
      decide +kernel
    exact not_spared ⟨_, _, hsubmit, rfl, hread, hopen⟩ hspared

end Forge
