import Forge.Controller.Fate
import Forge.Controller.HandlerSteps
import Forge.Lib.Run

/-!
# Runs of the controller

`recover`, the workers' steps and whole runs, over any number of controller
lifetimes.

* `recover_settled`: after `recover`, no record in progress is left without a
  live job.
* `handle_steps`: an input is handled by steps.
* `run_view`: the invariant rule for runs with crashes.
-/

namespace Forge

open World

variable {o : Oracle} {g : Guard}

/-! ## Start-up -/

theorem killLeftover_view (procs : List (ℕ × ℕ)) (w : World) :
    (procs.foldl (killLeftover o) w).ctl = w.ctl ∧
      ∃ kills : List Effect, (∀ e ∈ kills, ∃ pid group, e = .leftover pid group) ∧
        (procs.foldl (killLeftover o) w).log = kills ++ w.log := by
  induction procs generalizing w with
  | nil => exact ⟨rfl, [], by simp, rfl⟩
  | cons pr procs ih =>
    obtain ⟨hctl, kills, hkills, hlog⟩ := ih (killLeftover o w pr)
    rw [List.foldl_cons, hctl, hlog]
    unfold killLeftover
    split_ifs
    · refine ⟨rfl, kills ++ [.leftover pr.1 false, .leftover pr.1 true], ?_, ?_⟩
      · intro e he
        rcases List.mem_append.mp he with he | he
        · exact hkills e he
        · rcases List.mem_pair.mp he with rfl | rfl
          · exact ⟨_, _, rfl⟩
          · exact ⟨_, _, rfl⟩
      · rw [List.append_assoc]
        rfl
    · exact ⟨rfl, kills, hkills, rfl⟩

/-- Recovering one job that is not live is a sequence of steps, and makes no
    other job live. -/
theorem recoverJob_steps {id : ℕ} {w : World} (hup : w.ctl.shuttingDown = false)
    (hlive : w.ctl.live.lookup id = none) :
    Steps o g w.view (recoverJob o w id).view ∧
      (recoverJob o w id).ctl.shuttingDown = false ∧
      ∀ other, other ≠ id → w.ctl.live.lookup other = none →
        (recoverJob o w id).ctl.live.lookup other = none := by
  unfold recoverJob
  dsimp only
  split
  · exact ⟨.refl, hup, fun _ _ h => h⟩
  · next m hload =>
    have hdisk := disk_of_loadMeta hload
    split_ifs with hstate hwaiting
    · obtain ⟨hctl, kills, hkills, hlog⟩ := killLeftover_view (o := o) (parseProcs m.procs) w.ask
      generalize (parseProcs m.procs).foldl (killLeftover o) w.ask = w₁ at hctl hlog ⊢
      have hsave := saveMeta_saved (o := o) id (((m.setState "failed").setError
        "controller restarted while the job was in progress").setFinished
        (o.realtimeMs w₁.calls)) w₁.ask
      rw [saveMeta_ctl]
      show _ ∧ w₁.ctl.shuttingDown = false ∧ ∀ other, other ≠ id → _ →
        w₁.ctl.live.lookup other = none
      rw [hctl]
      refine ⟨@Steps.one o g _ _ id ?_, hup, fun _ _ h => h⟩
      rw [World.view, World.view, saveMeta_ctl]
      change Saved o w₁.log _ _ _ at hsave
      rw [hlog] at hsave
      show Step o g id _ ⟨w₁.ctl, _⟩
      rw [hctl]
      exact .recoverFail hlive hdisk hstate hkills hsave
    · have hkeeps := enqueue_keeps (o := o) id w.ask
      have hsteps : Steps o g w.ask.view (enqueue o id w.ask).view := by
        refine enqueue_steps ?_ (Or.inr ?_)
        · intro hdown
          cases hup.symm.trans hdown
        · intro m' hdisk'
          cases hdisk.symm.trans hdisk'
          exact hstate
      exact ⟨hsteps, hkeeps.1.trans hup, hkeeps.2⟩
    · exact ⟨.refl, hup, fun _ _ h => h⟩

theorem recoverLoop_steps {ids : List ℕ} {w : World} (hup : w.ctl.shuttingDown = false)
    (hnodup : ids.Nodup) (hlive : ∀ id ∈ ids, w.ctl.live.lookup id = none) :
    Steps o g w.view (ids.foldl (recoverJob o) w).view := by
  induction ids generalizing w with
  | nil => exact .refl
  | cons id ids ih =>
    obtain ⟨hnotin, hnodup⟩ := List.nodup_cons.mp hnodup
    obtain ⟨hsteps, hup, hothers⟩ := recoverJob_steps (o := o) (g := g) hup
      (hlive id List.mem_cons_self)
    refine hsteps.trans (ih hup hnodup fun other hmem => ?_)
    have hne : other ≠ id := by
      rintro rfl
      exact hnotin hmem
    exact hothers other hne (hlive other (List.mem_cons_of_mem id hmem))

theorem nodup_jobIds (log : Log) : log.jobIds.Nodup := by
  induction log with
  | nil => exact List.nodup_nil
  | cons e log ih =>
    cases e with
    | record i m => exact ih.insert
    | save m => exact ih.insert
    | _ => exact ih

theorem mem_jobIds {log : Log} {id : ℕ} {m : Meta} (h : log.disk id = some m) :
    id ∈ log.jobIds := by
  induction log with
  | nil => cases h
  | cons e log ih =>
    cases e with
    | record i m' =>
      rw [Log.disk] at h
      rw [Log.jobIds, List.mem_insert_iff]
      split_ifs at h with hi
      · exact Or.inl hi.symm
      · exact Or.inr (ih h)
    | save m' =>
      rw [Log.disk] at h
      rw [Log.jobIds, List.mem_insert_iff]
      split_ifs at h with hi
      · exact Or.inl hi.symm
      · exact Or.inr (ih h)
    | _ => exact ih h

/-- A controller that is down has no jobs and is not shutting down. -/
structure World.Down (w : World) : Prop where
  live : w.ctl.live = ∅
  up : w.ctl.shuttingDown = false

theorem recover_steps {w : World} (hdown : w.Down) : Steps o g w.view (recover o w).view := by
  refine recoverLoop_steps hdown.up ?_ fun id _ => ?_
  · exact (List.mergeSort_perm _ _).nodup_iff.mpr (nodup_jobIds w.log)
  · rw [hdown.live, AList.lookup_empty]

/-! ## Records in progress -/

/-- If the record of the job is in progress, the job is live. -/
def Settled (v : View) (id : ℕ) : Prop :=
  ∀ m, v.log.disk id = some m → m.InProgress → v.ctl.live.lookup id ≠ none

/-- A terminal record is not in progress. -/
theorem not_inProgress_of_terminal {m : Meta} (h : isTerminalState m.state = true) :
    ¬ m.InProgress := by
  rintro (hstate | hstate | hstate) <;> rw [hstate] at h <;> cases h

theorem settled_of_terminal {v : View} {id : ℕ} (h : v.log.Terminal id) : Settled v id := by
  obtain ⟨m, hdisk, hterm⟩ := h
  intro m' hdisk' hprog
  cases hdisk.symm.trans hdisk'
  exact absurd hprog (not_inProgress_of_terminal hterm)

theorem Kept.settled {v v' : View} {id : ℕ} (h : Kept v v' id) (hset : Settled v id) :
    Settled v' id := by
  intro m hdisk hprog hnone
  rw [h.disk] at hdisk
  have hlive := h.live
  rw [hnone, Option.map_none] at hlive
  exact hset m hdisk hprog (Option.map_eq_none_iff.mp hlive.symm)

theorem Fate.settled {v v' : View} {id : ℕ} (hno : ∀ id m, ¬ g.record id m)
    (h : Fate g v v' id) (hset : Settled v id) : Settled v' id := by
  cases h with
  | kept hkept => exact hkept.settled hset
  | closed hterm => exact settled_of_terminal hterm
  | late hterm => exact settled_of_terminal hterm
  | admitted _ _ _ _ _ hlive' =>
    intro _ _ _ hnone
    cases hlive'.symm.trans hnone
  | launched _ _ _ hlive' =>
    intro _ _ _ hnone
    cases hlive'.symm.trans hnone
  | appeared _ hrecord => exact absurd hrecord (hno _ _)

/-- No record appears. -/
def Guard.quiet : Guard where
  record := fun _ _ => False

/-- What `recover` relies on to find the jobs' records where they belong. -/
structure Ordered (v : View) : Prop where
  ids : v.log.IdsMatch
  live : v.ctl.LiveIds

theorem Step.ordered {id : ℕ} {v v' : View} (hg : ∀ id m, g.record id m → m.id = id) (h : Step o g id v v')
    (hv : Ordered v) : Ordered v' where
  ids := h.grows.idsMatch hg hv.ids
  live := hv.live.change hv.ids h.change

theorem Steps.grows {v v' : View} (h : Steps o g v v') : Grows g v.log v'.log :=
  h.keeps (P := fun w => Grows g v.log w.log) (fun _ _ _ hv hstep => hv.trans hstep.grows) (.refl _)

/-- The job's record stays settled while no record appears. -/
theorem Steps.settled (ho : o.SavesAlways) {v v' : View} (h : Steps o .quiet v v')
    (hv : Ordered v) : Ordered v' ∧ ∀ id, Settled v id → Settled v' id := by
  refine h.keeps (P := fun w => Ordered w ∧ ∀ id, Settled v id → Settled w id)
    (fun id₀ w w' hw hstep => ?_) ⟨hv, fun _ hset => hset⟩
  obtain ⟨hord, hsettled⟩ := hw
  refine ⟨hstep.ordered (fun _ _ (hno : False) => hno.elim) hord, fun id hset => ?_⟩
  obtain ⟨hfate, hkept⟩ := hstep.fate ho hord.ids hord.live
  by_cases hid : id = id₀
  · subst hid
    exact hfate.settled (fun _ _ hno => hno) (hsettled id hset)
  · exact (hkept id hid).settled (hsettled id hset)

/-- Recovering a job settles it. -/
theorem recoverJob_settled (ho : o.SavesAlways) (hloads : o.Loads) {id : ℕ} {w : World}
    (hup : w.ctl.shuttingDown = false) (hlive : w.ctl.live.lookup id = none)
    (hord : Ordered w.view) : Settled (recoverJob o w id).view id := by
  have hsteps := (recoverJob_steps (o := o) (g := .quiet) hup hlive).1
  have hkeep := (Steps.settled ho hsteps hord).2 id
  by_cases hset : Settled w.view id
  · exact hkeep hset
  · unfold Settled at hset
    push Not at hset
    obtain ⟨m, hdisk, hprog, -⟩ := hset
    have hdisk : w.log.disk id = some m := hdisk
    have hload := hloads.loadMeta_recover hdisk hprog
    apply settled_of_terminal
    unfold recoverJob
    rw [hload]
    dsimp only
    unfold Meta.InProgress at hprog
    rw [if_pos hprog]
    generalize (parseProcs m.procs).foldl (killLeftover o) w.ask = w₁
    have hsave := (saveMeta_saved (o := o) id (((m.setState "failed").setError
      "controller restarted while the job was in progress").setFinished
      (o.realtimeMs w₁.calls)) w₁.ask).eq ho
    rw [World.view, hsave]
    have hid : m.id = id := Log.disk_id hord.ids hdisk
    exact terminal_save _ hid rfl

theorem recoverLoop_settled (ho : o.SavesAlways) (hloads : o.Loads) {ids : List ℕ} {w : World}
    (hup : w.ctl.shuttingDown = false) (hnodup : ids.Nodup)
    (hlive : ∀ id ∈ ids, w.ctl.live.lookup id = none) (hord : Ordered w.view)
    (hset : ∀ id, id ∉ ids → Settled w.view id) (id : ℕ) :
    Settled (ids.foldl (recoverJob o) w).view id := by
  induction ids generalizing w with
  | nil => exact hset id List.not_mem_nil
  | cons id₀ ids ih =>
    obtain ⟨hnotin, hnodup⟩ := List.nodup_cons.mp hnodup
    have hlive₀ := hlive id₀ List.mem_cons_self
    obtain ⟨hsteps, hup', hothers⟩ := recoverJob_steps (o := o) (g := .quiet) hup hlive₀
    obtain ⟨hord', hkeep⟩ := Steps.settled ho hsteps hord
    refine ih hup' hnodup (fun other hmem => ?_) hord' fun other hmem => ?_
    · have hne : other ≠ id₀ := by
        rintro rfl
        exact hnotin hmem
      exact hothers other hne (hlive other (List.mem_cons_of_mem id₀ hmem))
    · by_cases hid : other = id₀
      · subst hid
        exact recoverJob_settled ho hloads hup hlive₀ hord
      · apply hkeep
        apply hset
        rw [List.mem_cons, not_or]
        exact ⟨hid, hmem⟩

/-- **`recover` leaves no record in progress without a live job.** -/
theorem recover_settled (ho : o.SavesAlways) (hloads : o.Loads) {w : World} (hdown : w.Down)
    (hids : w.log.IdsMatch) (id : ℕ) : Settled (recover o w).view id := by
  have hord : Ordered w.view := by
    refine ⟨hids, fun other job hother => ?_⟩
    have hnone : w.ctl.live.lookup other = none := by rw [hdown.live, AList.lookup_empty]
    cases hnone.symm.trans hother
  refine recoverLoop_settled ho hloads hdown.up ?_ (fun other _ => ?_) hord (fun other hmem => ?_) id
  · exact (List.mergeSort_perm _ _).nodup_iff.mpr (nodup_jobIds w.log)
  · rw [hdown.live, AList.lookup_empty]
  · intro m hdisk _ _
    apply hmem
    exact (List.mergeSort_perm _ _).mem_iff.mpr (mem_jobIds hdisk)

/-! ## Workers -/

/-- The launch of a worker that is still running. -/
theorem worker_eq_some {w : World} {child : ℕ} {l : Launch} (h : w.worker child = some l) :
    l ∈ w.log.launches ∧ w.log.status l.child = none ∧ l.child = child := by
  unfold World.worker at h
  split_ifs at h with hstatus
  have hchild : l.child = child := by simpa using List.find?_some h
  exact ⟨List.mem_of_find?_eq_some h, by rw [hchild]; simpa using hstatus, hchild⟩

/-- A worker's store to its shared region is one step. -/
theorem updateRegion_step {l : Launch} {e : Effect} {f : SharedRegion → SharedRegion} {w : World}
    (hlaunch : l ∈ w.log.launches) (halive : w.log.status l.child = none)
    (hf : (∃ chunk : ChunkResult, chunk.index = l.chunkIndex ∧ e = .slot l.child chunk ∧
      f = writeSlot chunk) ∨ (e = .bump l.child ∧ f = bumpDone)) :
    Step o g l.id w.view ((updateRegion l f w).push e).view := by
  have hstep := @Step.workerRegion o g w.ctl w.log l e f hlaunch halive hf
  unfold updateRegion
  cases hlive : w.ctl.live.lookup l.id with
  | none =>
    simp only [hlive] at hstep
    exact hstep
  | some job =>
    simp only [hlive] at hstep ⊢
    by_cases hmem : l.child ∈ job.procs.map (·.child)
    · rw [if_pos hmem] at hstep ⊢
      exact hstep
    · rw [if_neg hmem] at hstep ⊢
      exact hstep

/-! ## Runs -/

/-- The guard allows the input. -/
def Guard.Allows (g : Guard) (w : World) : Input → Prop
  | .record id m => g.record id m
  | .line text => w.ctl.shuttingDown = true → ∀ id, "SUBMIT ".toList.isPrefixOf text = true →
      parseU64 (text.drop 7) = some id → g.late w.ctl id
  | .reap child => ∀ l ∈ w.log.forks, l.child = child → g.reap w.ctl w.log l
  | _ => True

def Event.input : Event → Input
  | .handled input => input
  | .crash input _ _ => input

/-- **Every input is handled by steps.** -/
theorem handle_steps {w : World} (hdown : w.ctl.running = false → w.Down) {input : Input}
    (hallow : g.Allows w input) : Steps o g w.view (handle o w input).view := by
  cases input with
  | recover =>
    unfold handle
    by_cases hrun : w.ctl.running = true
    · rw [if_pos hrun]
      exact .refl
    · rw [if_neg hrun]
      have hdown := hdown (by simpa using hrun)
      refine @Steps.snoc o g _ _ _ 0 (recover_steps hdown)
        (.started fun ho hloads hids id m hdisk hprog => ?_)
      have hids₀ : w.log.IdsMatch := by
        obtain ⟨new, hnew, -⟩ := (Steps.grows (recover_steps (o := o) (g := g) hdown))
        intro id m hmem
        apply hids id m
        show _ ∈ (recover o w).view.log
        rw [hnew]
        exact List.mem_append_right new hmem
      exact recover_settled ho hloads hdown hids₀ id m hdisk hprog
  | line text =>
    unfold handle
    split_ifs with hrun
    · exact handleLine_steps hrun hallow
    · exact .refl
  | reap child =>
    unfold handle
    split_ifs
    · exact reap_steps hallow
    · exact .refl
  | schedule =>
    unfold handle
    split_ifs
    · exact schedule_steps w
    · exact .refl
  | deadline id =>
    unfold handle
    split_ifs
    · exact onDeadline_steps id w
    · exact .refl
  | tick =>
    unfold handle
    split_ifs
    · exact onTick_steps w
    · exact .refl
  | exit child status =>
    simp only [handle, workerStep]
    split
    · exact .refl
    · next l hl =>
      obtain ⟨hlaunch, halive, rfl⟩ := worker_eq_some hl
      exact @Steps.one o g _ _ l.id (.workerExit hlaunch halive)
  | slot child chunk =>
    simp only [handle, workerStep]
    split
    · exact .refl
    · next l hl =>
      obtain ⟨hlaunch, halive, rfl⟩ := worker_eq_some hl
      split_ifs with hindex
      · exact .one (updateRegion_step hlaunch halive (Or.inl ⟨chunk, hindex, rfl, rfl⟩))
      · exact .refl
  | bump child =>
    simp only [handle, workerStep]
    split
    · exact .refl
    · next l hl =>
      obtain ⟨hlaunch, halive, rfl⟩ := worker_eq_some hl
      exact .one (updateRegion_step hlaunch halive (Or.inr ⟨rfl, rfl⟩))
  | output child body =>
    simp only [handle, workerStep]
    split
    · exact .refl
    · next l hl =>
      obtain ⟨hlaunch, halive, rfl⟩ := worker_eq_some hl
      exact @Steps.one o g _ _ l.id (.workerOutput hlaunch halive)
  | spawn child =>
    simp only [handle, spawnMember]
    split
    · exact .refl
    · next l hfind =>
      split_ifs with hopen
      · have hchild : l.child = child := by simpa using List.find?_some hfind
        subst hchild
        exact @Steps.one o g _ _ l.id
          (.memberSpawned (List.mem_of_find?_eq_some hfind) hopen.2)
      · exact .refl
  | gone d => exact @Steps.one o g _ _ 0 .memberGone
  | record id m =>
    simp only [handle]
    split_ifs with hnew
    · exact .one (.record hnew hallow)
    · exact .refl

/-! ### Lifetimes -/

/-- The guard that allows everything. -/
def Guard.any : Guard := {}

theorem Guard.any_allows (w : World) (input : Input) : Guard.any.Allows w input := by
  cases input <;> first | exact trivial | exact fun _ _ _ _ => trivial | exact fun _ _ _ => trivial

/-- A controller that is up stays up. -/
theorem Step.running {id : ℕ} {v v' : View} (h : Step o g id v v') (hrun : v.ctl.running = true) :
    v'.ctl.running = true := by
  cases h with
  | started => rfl
  | launchFail _ _ _ _ hctl => rcases hctl with rfl | rfl <;> exact hrun
  | reapLast _ _ _ _ _ _ hfinish =>
    rw [hfinish.ctl]
    exact hrun
  | reapLastBad _ _ _ _ _ _ _ hfinish =>
    rw [hfinish.ctl]
    exact hrun
  | workerRegion =>
    dsimp only
    split
    · exact hrun
    · split_ifs <;> exact hrun
  | _ => exact hrun

/-- A controller that is not shutting down was not before. -/
theorem Step.up {id : ℕ} {v v' : View} (h : Step o g id v v') (hup : v'.ctl.shuttingDown = false) :
    v.ctl.shuttingDown = false := by
  cases h with
  | launchFail _ _ _ _ hctl => rcases hctl with rfl | rfl <;> exact hup
  | shutdown => cases hup
  | reapLast _ _ _ _ _ _ hfinish =>
    rw [hfinish.ctl] at hup
    exact hup
  | reapLastBad _ _ _ _ _ _ _ hfinish =>
    rw [hfinish.ctl] at hup
    exact hup
  | workerRegion =>
    dsimp only at hup
    split at hup
    · exact hup
    · split_ifs at hup <;> exact hup
  | _ => exact hup

theorem Steps.running {v v' : View} (h : Steps o g v v') (hrun : v.ctl.running = true) :
    v'.ctl.running = true :=
  h.keeps (P := fun w => w.ctl.running = true) (fun _ _ _ hv hstep => hstep.running hv) hrun

/-- A worker of a controller that is down changes no controller. -/
theorem updateRegion_down {w : World} (hdown : w.Down) (l : Launch)
    (f : SharedRegion → SharedRegion) : (updateRegion l f w).ctl = w.ctl := by
  unfold updateRegion
  rw [hdown.live, AList.lookup_empty]

/-- Only `recover` starts a controller; until then it has no jobs. -/
theorem handle_down {w : World} (hdown : w.ctl.running = false → w.Down) (input : Input)
    (hrun' : (handle o w input).ctl.running = false) : (handle o w input).Down := by
  cases hrun : w.ctl.running with
  | true =>
    have hsteps := handle_steps (o := o) hdown (Guard.any_allows w input)
    cases hrun'.symm.trans (hsteps.running hrun)
  | false =>
    have hw := hdown hrun
    have hsame : ∀ w' : World, w'.ctl = w.ctl → w'.Down := by
      intro w' hctl
      exact ⟨hctl ▸ hw.live, hctl ▸ hw.up⟩
    cases input with
    | recover =>
      simp only [handle, hrun] at hrun'
      cases hrun'
    | slot child chunk =>
      simp only [handle, workerStep]
      split
      · exact hw
      · split_ifs
        · exact hsame _ (updateRegion_down hw _ _)
        · exact hw
    | bump child =>
      simp only [handle, workerStep]
      split
      · exact hw
      · exact hsame _ (updateRegion_down hw _ _)
    | exit child status =>
      simp only [handle, workerStep]
      split <;> exact hsame _ rfl
    | output child body =>
      simp only [handle, workerStep]
      split <;> exact hsame _ rfl
    | spawn child =>
      simp only [handle, spawnMember]
      split
      · exact hw
      · split_ifs <;> exact hsame _ rfl
    | gone d => exact hsame _ rfl
    | record id m =>
      simp only [handle]
      split_ifs <;> exact hsame _ rfl
    | _ =>
      simp only [handle, hrun, Bool.false_eq_true, if_false]
      exact hw

/-- The controller that comes after a crash has slots that satisfy `S`. -/
def Event.Restarts (S : ℕ → Prop) : Event → Prop
  | .handled _ => True
  | .crash _ _ slots => S slots

/-- **The invariant rule for runs.** A property of a controller and the log that
    holds of a new controller with any past, and that every step keeps, holds
    throughout a run with any number of crashes. Here the controllers have slots
    that satisfy `S`. -/
theorem run_view_of {P : View → Prop} {S : ℕ → Prop} {slots : ℕ} {es : List Event}
    (hstart : P ⟨{ slotsMax := slots }, []⟩) (hstep : ∀ id v v', P v → Step o g id v v' → P v')
    (hcrash : ∀ v (log : Log) (slots : ℕ), S slots → P v → log <:+ v.log →
      P ⟨{ slotsMax := slots }, .died :: log⟩)
    (hes : ∀ e ∈ es, e.Restarts S)
    (hallow : Machine.Along (World.step o) (fun w e => g.Allows w e.input) (World.start slots) es) :
    P (Machine.run (World.step o) (World.start slots) es).view := by
  have hsteps : ∀ {v v'}, P v → Steps o g v v' → P v' := fun hv h => h.keeps hstep hv
  have hgood : Machine.Along (World.step o) (fun w e => e.Restarts S ∧ g.Allows w e.input)
      (World.start slots) es := Machine.along_of hes hallow fun _ _ hslots hallow => ⟨hslots, hallow⟩
  refine (Machine.run_invariant (P := fun w => P w.view ∧ (w.ctl.running = false → w.Down))
    (fun w e hw hgood => ?_) hgood ⟨hstart, fun _ => ⟨rfl, rfl⟩⟩).1
  have hview := hsteps hw.1 (handle_steps hw.2 hgood.2)
  cases e with
  | handled input => exact ⟨hview, handle_down hw.2 input⟩
  | crash input kept slots =>
    exact ⟨hcrash _ _ slots hgood.1 hview (List.drop_suffix _ _), fun _ => ⟨rfl, rfl⟩⟩

/-- The rule for controllers with any slots. -/
theorem run_view {P : View → Prop} {slots : ℕ} {es : List Event}
    (hstart : ∀ slots : ℕ, P ⟨{ slotsMax := slots }, []⟩)
    (hstep : ∀ id v v', P v → Step o g id v v' → P v')
    (hcrash : ∀ v (log : Log) (slots : ℕ), P v → log <:+ v.log →
      P ⟨{ slotsMax := slots }, .died :: log⟩)
    (hallow : Machine.Along (World.step o) (fun w e => g.Allows w e.input) (World.start slots) es) :
    P (Machine.run (World.step o) (World.start slots) es).view :=
  run_view_of (S := fun _ => True) (hstart slots) hstep (fun v log slots _ => hcrash v log slots)
    (fun e _ => by cases e <;> trivial) hallow

/-- A controller that is down has no jobs. -/
theorem run_down (o : Oracle) (slots : ℕ) (es : List Event)
    (hrun : (Machine.run (World.step o) (World.start slots) es).ctl.running = false) :
    (Machine.run (World.step o) (World.start slots) es).Down := by
  refine Machine.run_always (P := fun w : World => w.ctl.running = false → w.Down)
    (fun w e hw => ?_) es (fun _ => ⟨rfl, rfl⟩) hrun
  cases e with
  | handled input => exact handle_down hw input
  | crash input kept slots => exact fun _ => ⟨rfl, rfl⟩

/-- An oracle on which every call succeeds. Its argument says which pid the `i`-th
    fork of a call gets. -/
def Oracle.smooth (pid : ℕ → ℕ → ℕ) : Oracle where
  root := "/w"
  load := fun _ _ _ => true
  save := fun _ => .ok
  writeOutput := fun _ => .ok
  inspectOutput := fun _ => none
  launch := fun call =>
    { inspect := .ok (true, 3)
      openLog := .ok ()
      sharedMap := .ok ()
      notify := .ok ()
      fork := fun i => .ok { pid := pid call i, grouped := true, start := 1 }
      timer := 5 }
  realtimeMs := fun k => k
  monoMs := fun k => k
  procStart := fun _ _ => none
  order := fun _ ids => ids
  order_perm := fun _ ids => List.Perm.refl ids

/-- A job that runs a program. -/
def execMeta (id : ℕ) : Meta := { id := id, op := "exec", execPath := "/bin/true" }

/-- The record that the effect saves, and for which job. -/
def Effect.saved? : Effect → Option (ℕ × Meta)
  | .save id m => some (id, m)
  | _ => none

/-- The save that is `n` effects back in the log. -/
theorem effect_of_drop {log : Log} {n : ℕ} {e : Effect} (h : (log.drop n).head? = some e) :
    e :: log.drop (n + 1) <:+ log := by
  have hdrop : log.drop n = e :: log.drop (n + 1) := by
    rw [← List.tail_drop]
    exact (List.cons_head?_tail h).symm
  rw [← hdrop]
  exact List.drop_suffix n log

theorem save_of_drop {log : Log} {n id : ℕ} {m : Meta}
    (h : (log.drop n).head?.bind Effect.saved? = some (id, m)) :
    Effect.save id m :: log.drop (n + 1) <:+ log := by
  obtain ⟨e, he, hsaved⟩ := Option.bind_eq_some_iff.mp h
  cases e with
  | save id' m' =>
    cases hsaved
    exact effect_of_drop he
  | _ => cases hsaved

/-- Every run is one that the guard of everything allows. -/
theorem along_any (w : World) (es : List Event) :
    Machine.Along (World.step o) (fun w e => Guard.any.Allows w e.input) w es := by
  induction es generalizing w with
  | nil => trivial
  | cons e es ih => exact ⟨Guard.any_allows w e.input, ih _⟩

/-! ### Records that carry their ids -/

/-- A record that appears carries its id. -/
def Input.idsMatch : Input → Bool
  | .record id m => m.id = id
  | _ => true

/-- Records carry their ids, and `late` holds of the ids of late SUBMIT lines. -/
def Guard.orderly (late : Controller → ℕ → Prop) : Guard where
  record := fun id m => m.id = id
  late := late

theorem orderly_allows {late : Controller → ℕ → Prop} {w : World} {input : Input}
    (hids : input.idsMatch = true)
    (hlate : ∀ text id, input = .line text → w.ctl.shuttingDown = true →
      "SUBMIT ".toList.isPrefixOf text = true → parseU64 (text.drop 7) = some id → late w.ctl id) :
    (Guard.orderly late).Allows w input := by
  cases input with
  | record id m =>
    have hid : m.id = id := by simpa [Input.idsMatch] using hids
    exact hid
  | line text => exact fun hshut id hsubmit hid => hlate text id rfl hshut hsubmit hid
  | reap => exact fun _ _ _ => trivial
  | _ => trivial

/-- A run whose records carry their ids. -/
theorem along_orderly (o : Oracle) (slots : ℕ) {es : List Event}
    (hids : ∀ e ∈ es, e.input.idsMatch = true) :
    Machine.Along (World.step o) (fun w e => (Guard.orderly fun _ _ => True).Allows w e.input)
      (World.start slots) es :=
  Machine.along_of hids (along_any _ es) fun _ _ hid _ =>
    orderly_allows hid fun _ _ _ _ _ _ => trivial

/-! ## The representation invariant -/

/-- **Queue, live jobs and slots agree in every reachable state.** -/
theorem run_repr (o : Oracle) (slots : ℕ) (es : List Event) :
    (Machine.run (World.step o) (World.start slots) es).ctl.Repr ∧
      0 ≤ (Machine.run (World.step o) (World.start slots) es).ctl.slotsUsed := by
  have hrepr : (Machine.run (World.step o) (World.start slots) es).view.ctl.Repr :=
    run_view (g := .any) (P := fun v => v.ctl.Repr) Controller.Repr.fresh
      (fun _ _ _ hv hstep => hv.change hstep.change) (fun _ _ slots _ _ => .fresh slots)
      (along_any _ es)
  refine ⟨hrepr, ?_⟩
  have hused := hrepr.used
  change (Machine.run (World.step o) (World.start slots) es).ctl.slotsUsed = _ at hused
  omega

end Forge
