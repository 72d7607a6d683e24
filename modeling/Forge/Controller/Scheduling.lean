import Forge.Controller.Shutdown
import Mathlib.Data.Prod.Lex

/-!
# Scheduling

What `pick_next` and `schedule` (controller.cpp:423-452) choose, and what is left
when a turn of the main loop is over.

* `pickNext_eq_some`: `pick_next` takes the queued job of the least `rank`.
* `scheduleLoop_launches`: the calls of `launch_job` that the loop is made of.
* `scheduleLoop_stops`: the loop ends once the queue is used up.
* `schedule_settling`: afterwards no slot is free or no job is queued.
* `schedule_conserves`: both over whole runs, for every call of `schedule`.
-/

namespace Forge

variable {o : Oracle} {g : Guard}

/-! ## The order of jobs -/

/-- Jobs run in this order: the higher priority first, then the smaller id. -/
def rank (priority : ℤ) (id : ℕ) : ℤᵒᵈ ×ₗ ℕ := toLex (OrderDual.toDual priority, id)

theorem rank_lt_iff {p q : ℤ} {i j : ℕ} : rank p i < rank q j ↔ p > q ∨ (p = q ∧ i < j) := by
  unfold rank
  rw [Prod.Lex.toLex_lt_toLex]
  simp only [OrderDual.toDual_lt_toDual, EmbeddingLike.apply_eq_iff_eq]

theorem rank_injective {p q : ℤ} {i j : ℕ} (h : rank p i = rank q j) : p = q ∧ i = j := by
  unfold rank at h
  rw [EmbeddingLike.apply_eq_iff_eq, Prod.mk.injEq] at h
  exact ⟨OrderDual.toDual.injective h.1, h.2⟩

/-- The job is live and queued, with this priority. -/
def Controller.Queued (c : Controller) (id : ℕ) (priority : ℤ) : Prop :=
  ∃ job, c.live.lookup id = some job ∧ job.jobMeta.state = "queued" ∧
    job.jobMeta.priority = priority

theorem Controller.Queued.unique {c : Controller} {id : ℕ} {p q : ℤ} (hp : c.Queued id p)
    (hq : c.Queued id q) : p = q := by
  obtain ⟨job, hlive, -, rfl⟩ := hp
  obtain ⟨job', hlive', -, rfl⟩ := hq
  cases hlive.symm.trans hlive'
  rfl

/-- The scan of `pick_next` has found the best of the jobs it has seen. -/
def IsBest (c : Controller) (seen : List ℕ) : Option (ℕ × ℤ) → Prop
  | none => ∀ id ∈ seen, ∀ p, ¬ c.Queued id p
  | some (best, pri) => best ∈ seen ∧ c.Queued best pri ∧
      ∀ id ∈ seen, ∀ p, c.Queued id p → rank pri best ≤ rank p id

theorem better_isBest {c : Controller} {seen : List ℕ} {best : Option (ℕ × ℤ)}
    (h : IsBest c seen best) (cand : ℕ) : IsBest c (seen ++ [cand]) (better c.live best cand) := by
  have hskip : (∀ p, ¬ c.Queued cand p) → IsBest c (seen ++ [cand]) best := by
    intro hnone
    have hids : ∀ id ∈ seen ++ [cand], ∀ p, c.Queued id p → id ∈ seen := by
      intro id hid p hqueued
      rw [List.mem_append, List.mem_singleton] at hid
      rcases hid with hid | rfl
      · exact hid
      · exact absurd hqueued (hnone p)
    cases best with
    | none => exact fun id hid p hqueued => h id (hids id hid p hqueued) p hqueued
    | some b =>
      obtain ⟨hmem, hqueued, hleast⟩ := h
      exact ⟨List.mem_append_left _ hmem, hqueued,
        fun id hid p hq => hleast id (hids id hid p hq) p hq⟩
  unfold better
  split
  · next hnone =>
    apply hskip
    rintro p ⟨job, hlive, -, -⟩
    cases hnone.symm.trans hlive
  · next job hlive =>
    split_ifs with hstate
    · apply hskip
      rintro p ⟨job', hlive', hqueued, -⟩
      cases hlive.symm.trans hlive'
      exact hstate hqueued
    · have hcand : c.Queued cand job.jobMeta.priority := ⟨job, hlive, not_not.mp hstate, rfl⟩
      cases best with
      | none =>
        refine ⟨by simp, hcand, fun id hid p hq => ?_⟩
        rw [List.mem_append, List.mem_singleton] at hid
        rcases hid with hid | rfl
        · exact absurd hq (h id hid p)
        · rw [hq.unique hcand]
      | some b =>
        obtain ⟨hmem, hqueued, hleast⟩ := h
        dsimp only
        split_ifs with hbetter
        · have hlt : rank job.jobMeta.priority cand < rank b.2 b.1 := rank_lt_iff.mpr hbetter
          refine ⟨by simp, hcand, fun id hid p hq => ?_⟩
          rw [List.mem_append, List.mem_singleton] at hid
          rcases hid with hid | rfl
          · exact hlt.le.trans (hleast id hid p hq)
          · rw [hq.unique hcand]
        · have hle : rank b.2 b.1 ≤ rank job.jobMeta.priority cand :=
            not_lt.mp fun hlt => hbetter (rank_lt_iff.mp hlt)
          refine ⟨List.mem_append_left _ hmem, hqueued, fun id hid p hq => ?_⟩
          rw [List.mem_append, List.mem_singleton] at hid
          rcases hid with hid | rfl
          · exact hleast id hid p hq
          · rw [hq.unique hcand]
            exact hle

/-- By induction on the queue: the scan is over with the best of all. -/
theorem foldl_better_isBest {c : Controller} (queue : List ℕ) {seen : List ℕ}
    {best : Option (ℕ × ℤ)} (h : IsBest c seen best) :
    IsBest c (seen ++ queue) (queue.foldl (better c.live) best) := by
  induction queue generalizing seen best with
  | nil =>
    rw [List.append_nil]
    exact h
  | cons cand queue ih =>
    have hnext := ih (better_isBest h cand)
    rw [List.append_assoc] at hnext
    exact hnext

/-- **What `pick_next` takes off the queue.** -/
theorem pickNext_eq_some {c : Controller} {id : ℕ} (h : pickNext c = some id) :
    ∃ p, id ∈ c.queue ∧ c.Queued id p ∧
      ∀ other ∈ c.queue, ∀ q, c.Queued other q → rank p id ≤ rank q other := by
  have hbest := @foldl_better_isBest c c.queue [] none (by simp [IsBest])
  unfold pickNext at h
  obtain ⟨⟨best, pri⟩, hfold, rfl⟩ := Option.map_eq_some_iff.mp h
  rw [hfold] at hbest
  exact ⟨pri, hbest⟩

theorem pickNext_eq_none {c : Controller} (h : pickNext c = none) :
    ∀ id ∈ c.queue, ∀ p, ¬ c.Queued id p := by
  have hbest := @foldl_better_isBest c c.queue [] none (by simp [IsBest])
  unfold pickNext at h
  rw [Option.map_eq_none_iff.mp h] at hbest
  exact hbest

/-! ## The calls of `launch_job` -/

/-- The calls of `launch_job` that the loop of `schedule` makes, each with the world
    in which `pick_next` has been called. -/
def scheduleCalls (o : Oracle) : ℕ → World → List (World × ℕ)
  | 0, _ => []
  | n + 1, w =>
    if w.ctl.slotsUsed < w.ctl.slotsMax then
      match pickNext w.ctl with
      | none => []
      | some id => (w, id) :: scheduleCalls o n (launchJob o id (w.dequeue id))
    else []

/-- These calls of `launch_job`, one after the other and nothing else, lead from one
    world to the other; each takes its job off the queue. -/
inductive Launches (o : Oracle) : World → List (World × ℕ) → World → Prop where
  | done (w : World) : Launches o w [] w
  | turn {w w' : World} {id : ℕ} {calls : List (World × ℕ)}
      (rest : Launches o (launchJob o id (w.dequeue id)) calls w') :
      Launches o w ((w, id) :: calls) w'

/-- By induction on the turns: what the loop of `schedule` does is these calls. -/
theorem scheduleLoop_launches (n : ℕ) (w : World) :
    Launches o w (scheduleCalls o n w) (scheduleLoop o n w) := by
  induction n generalizing w with
  | zero => exact .done w
  | succ n ih =>
    unfold scheduleCalls scheduleLoop
    split_ifs
    · cases pickNext w.ctl with
      | none => exact .done w
      | some id => exact .turn (ih _)
    · exact .done w

theorem spawnJob_queue (id call : ℕ) (job : LiveJob) (w : World) :
    (spawnJob o id call job w).ctl.queue = w.ctl.queue := by
  unfold spawnJob setState
  dsimp only
  generalize job.jobMeta.setState "starting" = m
  have hctl₁ := saveMeta_ctl (o := o) id m w
  generalize (saveMeta o id m w).2 = w₁ at hctl₁ ⊢
  split
  · next procs err w₂ hloop =>
    have hctl₂ : w₂.ctl = w₁.ctl := (forkLoop_forked hloop).1
    have hkilled := congrArg View.ctl (killSpawned_view procs w₂)
    have hctl : (killSpawned procs w₂).ctl = w.ctl := hkilled.trans (hctl₂.trans hctl₁)
    rw [(giveUp_eq id _ _).1]
    show (killSpawned procs w₂).ctl.queue = _
    rw [hctl]
  · next procs w₂ hloop =>
    have hctl₂ : w₂.ctl = w₁.ctl := (forkLoop_forked hloop).1
    rw [World.putJob, saveMeta_ctl, ← hctl₁, ← hctl₂]
    rfl

theorem prepareJob_queue (id call : ℕ) (job : LiveJob) (w : World) :
    (prepareJob o id call job w).ctl.queue = w.ctl.queue := by
  have hgive : ∀ m, (giveUp o id m w).ctl.queue = w.ctl.queue := by
    intro m
    rw [(giveUp_eq id m w).1]
  unfold prepareJob
  dsimp only
  repeat' split
  all_goals first
    | exact hgive _
    | exact spawnJob_queue _ _ _ _

/-- A launch leaves the queue as `pick_next` has left it. -/
theorem launchJob_queue (id : ℕ) (w : World) : (launchJob o id w).ctl.queue = w.ctl.queue := by
  unfold launchJob
  split
  · rfl
  · dsimp only
    split_ifs
    · exact prepareJob_queue _ _ _ w.ask
    · split
      · exact prepareJob_queue _ _ _ w.ask
      · rw [World.eraseJob, World.setCtl, saveMeta_ctl]
        rfl

/-- One turn of the loop keeps the invariant and takes one job off the queue. -/
theorem launchJob_turn {w : World} {id : ℕ} (hup : w.ctl.shuttingDown = false)
    (hrepr : w.ctl.Repr) (hroom : w.ctl.slotsUsed < w.ctl.slotsMax)
    (hpick : pickNext w.ctl = some id) :
    (launchJob o id (w.dequeue id)).ctl.shuttingDown = false ∧
      (launchJob o id (w.dequeue id)).ctl.Repr ∧
      (launchJob o id (w.dequeue id)).ctl.queue = w.ctl.queue.erase id := by
  obtain ⟨hmem, job, hlive, hqueued⟩ := pickNext_mem hpick
  have hstep := launchJob_step (o := o) (g := .any) ⟨hup, hroom, hmem, hlive, hqueued⟩
  refine ⟨(launchJob_keeps id _).shuttingDown.trans hup, hrepr.change hstep.change, ?_⟩
  rw [launchJob_queue, hrepr.nodup.erase_eq_filter]
  refine List.filter_congr fun other _ => ?_
  by_cases hother : other = id <;> simp [hother]

/-- The choice of `pick_next` and what becomes of the queue. -/
structure Chosen (o : Oracle) (w : World) (id : ℕ) : Prop where
  best : ∃ p, w.ctl.Queued id p ∧ ∀ other q, other ≠ id → w.ctl.Queued other q →
    q < p ∨ (q = p ∧ id < other)
  once : w.ctl.queue.count id = 1
  taken : (launchJob o id (w.dequeue id)).ctl.queue = w.ctl.queue.erase id

theorem pickNext_chosen {w : World} {id : ℕ} (hup : w.ctl.shuttingDown = false)
    (hrepr : w.ctl.Repr) (hroom : w.ctl.slotsUsed < w.ctl.slotsMax)
    (hpick : pickNext w.ctl = some id) : Chosen o w id := by
  obtain ⟨p, hmem, hqueued, hleast⟩ := pickNext_eq_some hpick
  refine ⟨⟨p, hqueued, fun other q hne hother => ?_⟩, ?_, (launchJob_turn hup hrepr hroom hpick).2.2⟩
  · have hother' := hother
    obtain ⟨job, hlive, hstate, -⟩ := hother'
    have hin : other ∈ w.ctl.queue := (hrepr.queue other).mpr ⟨job, hlive, hstate⟩
    have hle := hleast other hin q hother
    have hlt : rank p id < rank q other :=
      lt_of_le_of_ne hle fun heq => hne (rank_injective heq).2.symm
    rcases rank_lt_iff.mp hlt with hgt | ⟨heq, hid⟩
    · exact .inl hgt
    · exact .inr ⟨heq.symm, hid⟩
  · exact List.count_eq_one_of_mem hrepr.nodup hmem

/-- By induction on the turns: every call is a choice of `pick_next`, and no job is
    launched twice. -/
theorem scheduleCalls_chosen {n : ℕ} {w : World} (hup : w.ctl.shuttingDown = false)
    (hrepr : w.ctl.Repr) :
    (∀ call ∈ scheduleCalls o n w, Chosen o call.1 call.2 ∧ call.2 ∈ w.ctl.queue) ∧
      ((scheduleCalls o n w).map (·.2)).Nodup := by
  induction n generalizing w with
  | zero => simp [scheduleCalls]
  | succ n ih =>
    rw [scheduleCalls]
    split_ifs with hroom
    · split
      · simp
      · next id hpick =>
        obtain ⟨hup', hrepr', hqueue'⟩ := launchJob_turn (o := o) hup hrepr hroom hpick
        obtain ⟨hcalls, hnodup⟩ := ih hup' hrepr'
        have hlater : ∀ call ∈ scheduleCalls o n (launchJob o id (w.dequeue id)),
            call.2 ∈ w.ctl.queue.erase id := fun call hcall => hqueue' ▸ (hcalls call hcall).2
        constructor
        · intro call hcall
          rcases List.mem_cons.mp hcall with rfl | hcall
          · exact ⟨pickNext_chosen hup hrepr hroom hpick, (pickNext_mem hpick).1⟩
          · exact ⟨(hcalls call hcall).1, List.mem_of_mem_erase (hlater call hcall)⟩
        · rw [List.map_cons, List.nodup_cons]
          refine ⟨fun hmem => ?_, hnodup⟩
          obtain ⟨call, hcall, rfl⟩ := List.mem_map.mp hmem
          exact hrepr.nodup.not_mem_erase (hlater call hcall)
    · simp

/-! ## The end of the loop -/

/-- The loop of `schedule` stops here. -/
def Stops (w : World) : Prop := ¬ w.ctl.slotsUsed < w.ctl.slotsMax ∨ pickNext w.ctl = none

theorem scheduleLoop_of_stops {w : World} (h : Stops w) (n : ℕ) : scheduleLoop o n w = w := by
  cases n with
  | zero => rfl
  | succ n =>
    rw [scheduleLoop]
    rcases h with hfull | hnone
    · rw [if_neg hfull]
    · rw [hnone]
      split_ifs <;> rfl

/-- The loop ends by itself after at most as many turns as jobs are queued. -/
theorem scheduleLoop_stops {n : ℕ} {w : World} (hup : w.ctl.shuttingDown = false)
    (hrepr : w.ctl.Repr) (hn : w.ctl.queue.length ≤ n) :
    Stops (scheduleLoop o n w) ∧
      ∀ m, w.ctl.queue.length ≤ m → scheduleLoop o m w = scheduleLoop o n w := by
  have hended : ∀ {n : ℕ} {w : World}, Stops w → Stops (scheduleLoop o n w) ∧
      ∀ m, w.ctl.queue.length ≤ m → scheduleLoop o m w = scheduleLoop o n w := by
    intro n w hstops
    rw [scheduleLoop_of_stops hstops]
    exact ⟨hstops, fun m _ => scheduleLoop_of_stops hstops m⟩
  induction n generalizing w with
  | zero =>
    have hempty : w.ctl.queue = [] := List.length_eq_zero_iff.mp (by omega)
    have hnone : pickNext w.ctl = none := by
      unfold pickNext
      rw [hempty]
      rfl
    exact hended (.inr hnone)
  | succ n ih =>
    by_cases hroom : w.ctl.slotsUsed < w.ctl.slotsMax
    · cases hpick : pickNext w.ctl with
      | none => exact hended (.inr hpick)
      | some id =>
        obtain ⟨hup', hrepr', hqueue'⟩ := launchJob_turn (o := o) hup hrepr hroom hpick
        have hmem := (pickNext_mem hpick).1
        have hlen := List.length_erase_of_mem hmem
        have hpos := List.length_pos_of_mem hmem
        obtain ⟨hstops, hmono⟩ := ih hup' hrepr' (by rw [hqueue', hlen]; omega)
        have hturn : ∀ m, scheduleLoop o (m + 1) w =
            scheduleLoop o m (launchJob o id (w.dequeue id)) := by
          intro m
          rw [scheduleLoop, if_pos hroom, hpick]
        rw [hturn n]
        refine ⟨hstops, fun m hm => ?_⟩
        obtain ⟨m, rfl⟩ : ∃ k, m = k + 1 := ⟨m - 1, by omega⟩
        rw [hturn m]
        exact hmono m (by rw [hqueue', hlen]; omega)
    · exact hended (.inl hroom)

/-- Nothing is left for `schedule` to do. -/
def Controller.Settling (c : Controller) : Prop :=
  c.shuttingDown = true ∨ c.slotsUsed = c.slotsMax ∨ (c.queue = [] ∧ ∀ id p, ¬ c.Queued id p)

theorem Controller.Settling.of_ctl {c c' : Controller} (h : c.Settling) (hctl : c' = c) :
    c'.Settling := hctl ▸ h

theorem schedule_settling {w : World} (hrepr : w.ctl.Repr) : (schedule o w).ctl.Settling := by
  have hrepr' : (schedule o w).ctl.Repr :=
    (schedule_steps (o := o) (g := .any) w).keeps (P := fun v => v.ctl.Repr)
      (fun _ _ _ hv hstep => hv.change hstep.change) hrepr
  unfold schedule at hrepr' ⊢
  split_ifs at hrepr' ⊢ with hdown
  · exact .inl hdown
  · have hup : w.ctl.shuttingDown = false := by simpa using hdown
    rcases (scheduleLoop_stops (o := o) hup hrepr le_rfl).1 with hfull | hnone
    · exact .inr (.inl (le_antisymm hrepr'.bound (not_lt.mp hfull)))
    · refine .inr (.inr ?_)
      have hqueued := pickNext_eq_none hnone
      have hempty : (scheduleLoop o w.ctl.queue.length w).ctl.queue = [] := by
        rw [List.eq_nil_iff_forall_not_mem]
        intro id hid
        obtain ⟨job, hlive, hstate⟩ := (hrepr'.queue id).mp hid
        exact hqueued id hid _ ⟨job, hlive, hstate, rfl⟩
      refine ⟨hempty, fun id p hid => ?_⟩
      obtain ⟨job, hlive, hstate, -⟩ := hid
      have hin := (hrepr'.queue id).mpr ⟨job, hlive, hstate⟩
      rw [hempty] at hin
      cases hin

/-! ## Where `schedule` is called -/

/-- The world in which `enqueue` calls `schedule` (controller.cpp:454-488). -/
def enqueueSite (o : Oracle) (id : ℕ) (w : World) : Option World :=
  if w.ctl.shuttingDown ∨ (w.ctl.live.lookup id).isSome then none
  else
    let loaded := loadMeta o .submit id w
    let w := w.ask
    match loaded with
    | none => none
    | some m =>
      if isTerminalState m.state ∨ (validateMeta m).isSome then none
      else
        let m := m.setState "queued"
        let w := (saveMeta o id m w).2
        let c := { w.ctl with
          queue := w.ctl.queue ++ [id], live := w.ctl.live.insert id { jobMeta := m } }
        some ((w.push (.admitted id)).setCtl c)

/-- The world in which `recover` has a job enqueued and scheduled. -/
def recoverSite (o : Oracle) (id : ℕ) (w : World) : Option World :=
  match loadMeta o .recover id w with
  | none => none
  | some m => if m.state = "submitted" ∨ m.state = "queued" then enqueueSite o id w.ask else none

/-- The worlds in which the loop of `recover` calls `schedule`. -/
def recoverSites (o : Oracle) : List ℕ → World → List World
  | [], _ => []
  | id :: ids, w => (recoverSite o id w).toList ++ recoverSites o ids (recoverJob o w id)

/-- The worlds in which `schedule` is called while an input is handled. -/
def scheduleSites (o : Oracle) (w : World) : Input → List World
  | .recover => if w.ctl.running then [] else recoverSites o (listJobIds w) w
  | .line text =>
    if w.ctl.running ∧ text ≠ "SHUTDOWN".toList ∧ "SUBMIT ".toList.isPrefixOf text then
      match parseU64 (text.drop 7) with
      | none => []
      | some id => (enqueueSite o id w).toList
    else []
  | .schedule => if w.ctl.running then [w] else []
  | _ => []

/-- `enqueue` schedules in its site, or leaves the controller alone. -/
theorem enqueue_site (id : ℕ) (w : World) :
    match enqueueSite o id w with
    | some site => enqueue o id w = schedule o site
    | none => (enqueue o id w).ctl = w.ctl := by
  unfold enqueueSite enqueue
  by_cases hdown : w.ctl.shuttingDown = true
  · simp only [hdown, true_or, if_true]
    split
    · rfl
    · split_ifs
      · rfl
      · rw [saveMeta_ctl]
        rfl
  · by_cases hlive : (w.ctl.live.lookup id).isSome = true
    · simp only [hdown, hlive, or_true, if_true, if_false, Bool.false_eq_true]
    · simp only [hdown, hlive, or_self, if_false, Bool.false_eq_true]
      cases hload : loadMeta o .submit id w with
      | none => rfl
      | some m =>
        by_cases hterm : isTerminalState m.state = true
        · simp only [hterm, true_or, if_true, World.ask_ctl]
        · cases hvalid : validateMeta m with
          | some err =>
            simp only [hterm, hvalid, Option.isSome_some, or_true, if_true, if_false, Bool.false_eq_true]
            rw [saveMeta_ctl]
            rfl
          | none => simp only [hterm, hvalid, Option.isSome_none, or_self, if_false, Bool.false_eq_true]

/-- A site of `enqueue` is the world with the job queued. -/
theorem enqueueSite_repr {id : ℕ} {w site : World} (hrepr : w.ctl.Repr)
    (h : enqueueSite o id w = some site) :
    site.ctl.Repr ∧ site.ctl.shuttingDown = false := by
  unfold enqueueSite at h
  dsimp only at h
  split_ifs at h with hblocked
  rw [not_or] at hblocked
  have hnone : w.ctl.live.lookup id = none := by simpa using hblocked.2
  split at h
  · cases h
  · next m _ =>
    split_ifs at h
    cases h
    dsimp only [World.setCtl, World.push]
    rw [saveMeta_ctl]
    exact ⟨hrepr.enter m hnone, by simpa using hblocked.1⟩

/-- `recover` schedules in its sites, and leaves the controller alone otherwise. -/
theorem recoverJob_site (id : ℕ) (w : World) :
    match recoverSite o id w with
    | some site => recoverJob o w id = schedule o site
    | none => (recoverJob o w id).ctl = w.ctl := by
  unfold recoverSite recoverJob
  dsimp only
  cases loadMeta o .recover id w with
  | none => rfl
  | some m =>
    by_cases hstate : m.state = "running" ∨ m.state = "starting" ∨ m.state = "persisting"
    · have hwaiting : ¬ (m.state = "submitted" ∨ m.state = "queued") := by
        rcases hstate with h | h | h <;> rw [h] <;> decide
      simp only [hstate, hwaiting, if_true, if_false]
      rw [saveMeta_ctl]
      exact (killLeftover_view (o := o) (parseProcs m.procs) w.ask).1
    · by_cases hwaiting : m.state = "submitted" ∨ m.state = "queued"
      · simp only [hstate, hwaiting, if_true, if_false]
        exact enqueue_site id w.ask
      · simp only [hstate, hwaiting, if_false, World.ask_ctl]

/-! ## The invariant of the loop -/

/-- What holds between two inputs. -/
structure World.Sound (w : World) : Prop where
  repr : w.ctl.Repr
  down : w.ctl.running = false → w.Down

theorem run_sound (o : Oracle) (slots : ℕ) (es : List Event) :
    (Machine.run (World.step o) (World.start slots) es).Sound :=
  ⟨(run_repr o slots es).1, run_down o slots es⟩

theorem World.Sound.handle {w : World} (h : w.Sound) (input : Input) :
    (handle o w input).Sound where
  repr := (handle_steps (o := o) h.down (Guard.any_allows w input)).keeps
    (P := fun v => v.ctl.Repr) (fun _ _ _ hv hstep => hv.change hstep.change) h.repr
  down := handle_down h.down input

theorem handle_running {w : World} (h : w.Sound) (hrun : w.ctl.running = true) (input : Input) :
    (handle o w input).ctl.running = true :=
  (handle_steps (o := o) h.down (Guard.any_allows w input)).running hrun

/-- By induction on the jobs that `recover` walks. -/
theorem recoverLoop_sites {ids : List ℕ} {w : World} (hup : w.ctl.shuttingDown = false)
    (hnodup : ids.Nodup) (hlive : ∀ id ∈ ids, w.ctl.live.lookup id = none) (hrepr : w.ctl.Repr)
    (hsettled : w.ctl.Settling) :
    (∀ site ∈ recoverSites o ids w, site.ctl.Repr ∧ site.ctl.shuttingDown = false) ∧
      (ids.foldl (recoverJob o) w).ctl.Settling := by
  induction ids generalizing w with
  | nil => exact ⟨by simp [recoverSites], hsettled⟩
  | cons id ids ih =>
    obtain ⟨hnotin, hnodup⟩ := List.nodup_cons.mp hnodup
    obtain ⟨hsteps, hup', hothers⟩ := recoverJob_steps (o := o) (g := .any) hup
      (hlive id List.mem_cons_self)
    have hrepr' : (recoverJob o w id).ctl.Repr :=
      hsteps.keeps (P := fun v => v.ctl.Repr) (fun _ _ _ hv hstep => hv.change hstep.change) hrepr
    have hlive' : ∀ other ∈ ids, (recoverJob o w id).ctl.live.lookup other = none := by
      intro other hmem
      have hne : other ≠ id := by
        rintro rfl
        exact hnotin hmem
      exact hothers other hne (hlive other (List.mem_cons_of_mem id hmem))
    have hsite := recoverJob_site (o := o) id w
    have hsites : ∀ site ∈ (recoverSite o id w).toList,
        site.ctl.Repr ∧ site.ctl.shuttingDown = false := by
      intro site hmem
      rw [Option.mem_toList] at hmem
      unfold recoverSite at hmem
      split at hmem
      · cases hmem
      · split_ifs at hmem
        · exact @enqueueSite_repr o id w.ask site hrepr hmem
    have hsettled' : (recoverJob o w id).ctl.Settling := by
      cases hfound : recoverSite o id w with
      | none =>
        rw [hfound] at hsite
        exact hsettled.of_ctl hsite
      | some site =>
        rw [hfound] at hsite
        rw [hsite]
        exact schedule_settling (hsites site (by rw [hfound]; simp)).1
    obtain ⟨hrest, hend⟩ := ih hup' hnodup hlive' hrepr' hsettled'
    refine ⟨fun site hmem => ?_, hend⟩
    rw [recoverSites, List.mem_append] at hmem
    rcases hmem with hmem | hmem
    · exact hsites site hmem
    · exact hrest site hmem

theorem recover_sites {w : World} (h : w.Sound) (hrun : w.ctl.running = false) :
    (∀ site ∈ recoverSites o (listJobIds w) w,
        site.ctl.Repr ∧ site.ctl.shuttingDown = false) ∧ (recover o w).ctl.Settling := by
  have hdown := h.down hrun
  have hnone : ∀ id, w.ctl.live.lookup id = none := fun id => by
    rw [hdown.live, AList.lookup_empty]
  have hidle : w.ctl.Settling := by
    refine .inr (.inr ⟨?_, ?_⟩)
    · rw [List.eq_nil_iff_forall_not_mem]
      intro id hid
      obtain ⟨job, hlive, -⟩ := (h.repr.queue id).mp hid
      cases (hnone id).symm.trans hlive
    · rintro id p ⟨job, hlive, -⟩
      cases (hnone id).symm.trans hlive
  exact recoverLoop_sites hdown.up
    ((List.mergeSort_perm _ _).nodup_iff.mpr (nodup_jobIds w.log)) (fun id _ => hnone id) h.repr hidle

/-- The invariant holds wherever `schedule` is called. -/
theorem scheduleSites_repr {w : World} (h : w.Sound) {input : Input} {site : World}
    (hsite : site ∈ scheduleSites o w input) : site.ctl.Repr := by
  unfold scheduleSites at hsite
  split at hsite
  · split_ifs at hsite with hrun
    · cases hsite
    · exact ((recover_sites h (by simpa using hrun)).1 site hsite).1
  · split_ifs at hsite
    · split at hsite
      · cases hsite
      · rw [Option.mem_toList] at hsite
        exact (enqueueSite_repr h.repr hsite).1
    · cases hsite
  · split_ifs at hsite
    · rw [List.mem_singleton.mp hsite]
      exact h.repr
    · cases hsite
  · cases hsite

/-! ## Turns of the main loop -/

/-- By induction on the events of a turn: it ends with a call of `schedule`, or with
    the controller shutting down. -/
theorem runTurn_settling {inputs : List Input} {w w' : World} {code : Option ℕ} (h : w.Sound)
    (hrun : w.ctl.running = true) (hturn : runTurn o inputs w = (code, w')) :
    w'.Sound ∧ w'.ctl.running = true ∧ w'.ctl.Settling := by
  induction inputs generalizing w with
  | nil =>
    simp only [runTurn, Prod.mk.injEq] at hturn
    obtain ⟨-, rfl⟩ := hturn
    refine ⟨h.handle .schedule, handle_running h hrun .schedule, ?_⟩
    simp only [handle, hrun, if_true]
    exact schedule_settling h.repr
  | cons input inputs ih =>
    have hrest := ih (h.handle (o := o) input) (handle_running h hrun input)
    cases input with
    | tick =>
      simp only [runTurn] at hturn
      split_ifs at hturn with hdone
      · simp only [Prod.mk.injEq] at hturn
        obtain ⟨-, rfl⟩ := hturn
        rw [Bool.and_eq_true] at hdone
        exact ⟨h.handle .tick, handle_running h hrun .tick, .inl hdone.1⟩
      · exact hrest hturn
    | _ => exact hrest hturn

theorem loop_settling {turns : List (Option (List Input))} {w w' : World} {code : Option ℕ}
    (h : w.Sound) (hrun : w.ctl.running = true) (hsettled : w.ctl.Settling)
    (hloop : loop o turns w = (code, w')) : w'.ctl.Settling := by
  induction turns generalizing w with
  | nil =>
    simp only [loop, Prod.mk.injEq] at hloop
    obtain ⟨-, rfl⟩ := hloop
    exact hsettled
  | cons turn turns ih =>
    unfold loop at hloop
    split_ifs at hloop
    · simp only [Prod.mk.injEq] at hloop
      obtain ⟨-, rfl⟩ := hloop
      exact hsettled
    · split at hloop
      · simp only [Prod.mk.injEq] at hloop
        obtain ⟨-, rfl⟩ := hloop
        exact hsettled
      · exact ih h hrun hsettled hloop
      · split at hloop
        · next inputs _ _ _ code₁ w₁ hturn =>
          simp only [Prod.mk.injEq] at hloop
          obtain ⟨-, rfl⟩ := hloop
          exact (runTurn_settling h hrun hturn).2.2
        · next inputs _ _ _ w₁ hturn =>
          obtain ⟨h', hrun', hsettled'⟩ := runTurn_settling h hrun hturn
          exact ih h' hrun' hsettled' hloop

/-- **Scheduling order and work conservation.** Wherever `schedule` is called in a
    run, it is a sequence of calls of `launch_job`; every job it launches is the queued
    job of the highest priority and, among those, of the smallest id, leaves the queue
    once, and is launched once; the loop ends by itself. After every turn of the main
    loop, unless the controller is shutting down, all slots are in use or no job is
    queued. -/
theorem schedule_conserves (o : Oracle) (slots : ℕ) (es : List Event) :
    let w := Machine.run (World.step o) (World.start slots) es
    (∀ input, ∀ site ∈ scheduleSites o w input, site.ctl.shuttingDown = false →
      Launches o site (scheduleCalls o site.ctl.queue.length site) (schedule o site) ∧
      (∀ call ∈ scheduleCalls o site.ctl.queue.length site, Chosen o call.1 call.2) ∧
      ((scheduleCalls o site.ctl.queue.length site).map (·.2)).Nodup ∧
      Stops (schedule o site) ∧
      ∀ n, site.ctl.queue.length ≤ n → scheduleLoop o n site = schedule o site) ∧
    (∀ turns, w.ctl.running = false →
      (runController o turns w).2.ctl.shuttingDown = true ∨
      (runController o turns w).2.ctl.slotsUsed = (runController o turns w).2.ctl.slotsMax ∨
      ((runController o turns w).2.ctl.queue = [] ∧
        ∀ id p, ¬ (runController o turns w).2.ctl.Queued id p)) := by
  intro w
  have hsound : w.Sound := run_sound o slots es
  constructor
  · intro input site hsite hup
    have hrepr := scheduleSites_repr hsound hsite
    obtain ⟨hcalls, hnodup⟩ := scheduleCalls_chosen (o := o) (n := site.ctl.queue.length) hup hrepr
    obtain ⟨hstops, hmono⟩ := scheduleLoop_stops (o := o) hup hrepr le_rfl
    have hloop : schedule o site = scheduleLoop o site.ctl.queue.length site := by
      unfold schedule
      rw [hup]
      rfl
    rw [hloop]
    exact ⟨scheduleLoop_launches _ site, fun call hcall => (hcalls call hcall).1, hnodup, hstops,
      hmono⟩
  · intro turns hrun
    have hsettled : (handle o w .recover).ctl.Settling := by
      simp only [handle, hrun, Bool.false_eq_true, if_false]
      exact (recover_sites hsound hrun).2
    have hrun' : (handle o w .recover).ctl.running = true := by
      simp only [handle, hrun, Bool.false_eq_true, if_false]
      rfl
    exact loop_settling (hsound.handle .recover) hrun' hsettled
      (show loop o turns (handle o w .recover) =
        ((runController o turns w).1, (runController o turns w).2) from rfl)

/-- Job 1 runs in the only slot and ends; of the waiting jobs, the one of priority 5
    comes next. -/
theorem schedule_conserves_next :
    let o := Oracle.smooth fun _ i => 7 + i
    let m (id : ℕ) (priority : ℤ) : Meta := { execMeta id with priority := priority }
    let es := [.handled .recover, .handled (.record 1 (m 1 0)), .handled (.line "SUBMIT 1".toList),
      .handled (.record 2 (m 2 (-1))), .handled (.line "SUBMIT 2".toList),
      .handled (.record 3 (m 3 5)), .handled (.line "SUBMIT 3".toList),
      .handled (.exit 4 (.exited 0)), .handled (.reap 4)]
    let w := Machine.run (World.step o) (World.start 1) es
    ((scheduleCalls o w.ctl.queue.length w).map (·.2) = [3] ∧
      Launches o w (scheduleCalls o w.ctl.queue.length w) (schedule o w) ∧
      ∀ call ∈ scheduleCalls o w.ctl.queue.length w, Chosen o call.1 call.2) ∧
    let w' := (runController o [some [.line "SUBMIT 1".toList]] (World.start 1)).2
    (w'.ctl.shuttingDown = true ∨ w'.ctl.slotsUsed = w'.ctl.slotsMax ∨
      (w'.ctl.queue = [] ∧ ∀ id p, ¬ w'.ctl.Queued id p)) := by
  intro o m es w
  have hrun : w.ctl.running = true := by decide +kernel
  have hsite : w ∈ scheduleSites o w .schedule := by
    simp only [scheduleSites, hrun, if_true, List.mem_singleton]
  refine ⟨⟨by decide +kernel, ?_⟩, ?_⟩
  · have hcalls := (schedule_conserves o 1 es).1 .schedule w hsite (by decide +kernel)
    exact ⟨hcalls.1, hcalls.2.1⟩
  · exact (schedule_conserves o 1 []).2 [some [.line "SUBMIT 1".toList]] rfl

end Forge
