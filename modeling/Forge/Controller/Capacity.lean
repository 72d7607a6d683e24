import Forge.Client.Submit
import Forge.Controller.Backlog
import Forge.Controller.Workers
import Forge.Worker.Partition

/-!
# How many processes a controller has

The comment on `kMaxSlots` (forge.hpp:53-56) promises that a controller has no more
worker processes than that. `schedule` counts jobs, and `launch_job` forks a process
for each range of a job.

* `Crew.unreaped_le`: each slot in use stands for at most `kMaxWorkers` children.
* `run_roomy`: so does each slot of the controller, in every run.
* `recover_crowds`: `recover` can have that many children for each of 17 slots.
* `workers_capped`: the promise is kept exactly up to 16 slots.
* `workers_exceed`: 17 slots and jobs of 16 workers.
-/

namespace Forge

open Finset

variable {o : Oracle} {g : Guard} {log log' : Log}

/-! ## Starting a controller -/

/-- `kMaxSlots` (forge.hpp:53-56). -/
def kMaxSlots : ℕ := 256

/-- `cmd_run` (main.cpp:140-159) up to the call of `run_controller`: its slots, on a
    system with `ncpu` processors. -/
def cmdRun (ncpu : ℤ) (args : List String) : Except String ℤ := do
  let (_, args) := flagOr "--workspace" "" args
  let slots : ℤ := if ncpu > 0 then toInt ncpu else 1
  let (slots, args) ←
    match takeFlag "--slots" args with
    | none => .ok (slots, args)
    | some (slotText, args) =>
      match parseU64 slotText.toList with
      | none => .error ("--slots must be 1.." ++ toString kMaxSlots)
      | some n =>
        if n < 1 ∨ n > kMaxSlots then .error ("--slots must be 1.." ++ toString kMaxSlots)
        else .ok (toInt n, args)
  match args with
  | [] => .ok slots
  | arg :: _ => .error ("unknown argument " ++ arg)

/-- A controller with so many slots is what one of the commands starts. A negative
    number is none, for `schedule` launches nothing with either. -/
def Starts (cmds : Set (ℤ × List String)) (slots : ℕ) : Prop :=
  ∃ cmd ∈ cmds, ∃ n, cmdRun cmd.1 cmd.2 = .ok n ∧ n.toNat = slots

/-! ## Children in flight -/

theorem forks_nodup (h : History.All ChildOk log) : log.forks.Nodup := by
  induction log with
  | nil => exact List.nodup_nil
  | cons e log ih =>
    obtain ⟨hok, hall⟩ := h
    cases e with
    | fork l =>
      refine List.nodup_cons.mpr ⟨fun hmem => ?_, ih hall⟩
      have hchild : l.child = log.length := hok.1
      have hlt := (launch_child_lt hall (Log.forks_subset hmem)).1
      omega
    | died => exact List.nodup_nil
    | _ => exact ih hall

/-- No effect but a fork adds to the children, and a fork adds one. -/
theorem length_unreaped_cons (e : Effect) (log : Log) :
    (Log.unreaped (e :: log)).length ≤ log.unreaped.length + 1 ∧
      (Forkless e → (Log.unreaped (e :: log)).length ≤ log.unreaped.length) := by
  have hkeep : ∀ (ls : List Launch), (ls.filter fun l => ¬ Log.Reaped (e :: log) l.child).length ≤
      (ls.filter fun l => ¬ log.Reaped l.child).length := fun ls =>
    (List.monotone_filter_right ls fun l hl => by
      simp only [decide_eq_true_eq] at hl ⊢
      exact fun hreaped => hl (Log.reaped_cons hreaped)).length_le
  unfold Log.unreaped
  simp only [List.length_map]
  cases e with
  | fork l =>
    refine ⟨?_, False.elim⟩
    rw [Log.forks, List.filter_cons]
    split_ifs
    · exact Nat.succ_le_succ (hkeep log.forks)
    · exact (hkeep log.forks).trans (Nat.le_succ _)
  | died => simp [Log.forks]
  | _ => exact ⟨(hkeep log.forks).trans (Nat.le_succ _), fun _ => hkeep log.forks⟩

/-- A child is forked while there are fewer than `cap`. -/
def RoomOk (cap : ℕ) : Effect → Log → Prop
  | .fork _, past => past.unreaped.length < cap
  | _, _ => True

variable {cap : ℕ}

/-- Children that were forked one by one, each with room for it. -/
theorem unreaped_le_of_room (h : History.All (RoomOk cap) log) : log.unreaped.length ≤ cap := by
  induction log with
  | nil => exact Nat.zero_le cap
  | cons e log ih =>
    obtain ⟨hok, hall⟩ := h
    obtain ⟨hone, hnone⟩ := length_unreaped_cons e log
    cases e with
    | fork l => exact hone.trans hok
    | died => exact Nat.zero_le cap
    | _ => exact (hnone trivial).trans (ih hall)

theorem Adds.room (h : Adds Forkless log log') (hall : History.All (RoomOk cap) log) :
    History.All (RoomOk cap) log' := by
  obtain ⟨new, rfl, hnew⟩ := h
  refine History.all_append (fun e he past _ => ?_) hall
  cases e with
  | fork l => exact (hnew _ he).elim
  | _ => trivial

theorem Adds.unreaped_le (h : Adds Forkless log log') : log'.unreaped.length ≤ log.unreaped.length := by
  obtain ⟨new, rfl, hnew⟩ := h
  induction new with
  | nil => exact le_rfl
  | cons e new ih =>
    have he := (length_unreaped_cons e (new ++ log)).2 (hnew e List.mem_cons_self)
    exact he.trans (ih fun e' he' => hnew e' (List.mem_cons_of_mem e he'))

/-- Room for all the processes is room for each. -/
theorem Forked.room {id call i : ℕ} {m : Meta} {ranges : List ByteRange} {procs : List ProcRef}
    (h : Forked id call m i ranges log procs log') (hroom : log.unreaped.length + ranges.length ≤ cap)
    (hall : History.All (RoomOk cap) log) : History.All (RoomOk cap) log' := by
  induction h with
  | nil => exact hall
  | @cons i range ranges log log' pid start grouped procs hpid hpos hrest ih =>
    rw [List.length_cons] at hroom
    have hfork : log.unreaped.length < cap := by omega
    refine ih ?_ ⟨hfork, hall⟩
    have hone := (length_unreaped_cons
      (.fork ⟨log.length, call, id, pid, start, m, i, range.offset, range.length⟩) log).1
    omega

/-! ## Slots and children -/

/-- A job that `validate_meta` admits has at most `kMaxWorkers` ranges. -/
theorem length_launchRanges_le {m : Meta} (h : m.workers ≤ kMaxWorkers) :
    (launchRanges m).length ≤ kMaxWorkers.toNat := by
  have hle : ((launchRanges m).length : ℤ) ≤ max (if m.op = "exec" then 1 else m.workers) 1 :=
    length_splitRanges_le_max _ _ _
  unfold kMaxWorkers at *
  split_ifs at hle <;> omega

/-- **Each slot in use stands for at most `kMaxWorkers` children.** -/
theorem Crew.unreaped_le {v : View} (hv : Crew v) :
    (v.log.unreaped.length : ℤ) ≤ kMaxWorkers * v.ctl.slotsUsed := by
  classical
  let left := (v.log.forks.filter fun l => ¬ v.log.Reaped l.child).toFinset
  let running := v.ctl.live.keys.toFinset.filter fun id =>
    ∃ job, v.ctl.live.lookup id = some job ∧ job.isRunning = true
  have hleft : ∀ l, l ∈ left ↔ l ∈ v.log.forks ∧ ¬ v.log.Reaped l.child := by
    intro l
    simp [left]
  have hrunning : ∀ id, id ∈ running ↔
      ∃ job, v.ctl.live.lookup id = some job ∧ job.isRunning = true := by
    intro id
    rw [mem_filter, List.mem_toFinset, ← AList.mem_keys, ← AList.lookup_isSome]
    refine ⟨And.right, fun hjob => ⟨?_, hjob⟩⟩
    obtain ⟨job, hlive, -⟩ := hjob
    rw [hlive]
    rfl
  have hhome : ∀ l ∈ left, l.id ∈ running := by
    intro l hl
    obtain ⟨hfork, hreaped⟩ := (hleft l).mp hl
    obtain ⟨job, hlive, hmem⟩ := hv.home l hfork hreaped
    have hstate : job.jobMeta.state ≠ "queued" := by
      intro hqueued
      rw [(hv.repr.waiting l.id job hlive hqueued).procs] at hmem
      cases hmem
    exact (hrunning l.id).mpr ⟨job, hlive, decide_eq_true (hv.repr.running _ job hlive hstate).state⟩
  have hfew : ∀ id ∈ running, (left.filter fun l => l.id = id).card ≤ kMaxWorkers.toNat := by
    intro id hid
    obtain ⟨job, hlive, hrun⟩ := (hrunning id).mp hid
    have hstate : job.jobMeta.state = "running" := of_decide_eq_true hrun
    obtain ⟨call, ws, hst⟩ := hv.staffed hlive (by rw [hstate]; decide)
    have hsub : (left.filter fun l => l.id = id) ⊆ ws.toFinset := by
      intro l hl
      obtain ⟨hmem, rfl⟩ := mem_filter.mp hl
      obtain ⟨hfork, hreaped⟩ := (hleft l).mp hmem
      obtain ⟨job', hlive', hmem⟩ := hv.home l hfork hreaped
      cases hlive.symm.trans hlive'
      rw [hst.children] at hmem
      obtain ⟨l', hl', hchild⟩ := List.mem_map.mp hmem
      have hsame := launch_unique hv.children (Log.forks_subset hfork)
        (Log.forks_subset (hst.belongs l' hl').1) hchild
      exact List.mem_toFinset.mpr (hsame ▸ hl')
    have hranges : ws.length = (launchRanges job.jobMeta).length := by
      rw [← hst.ranges, List.length_map]
    calc (left.filter fun l => l.id = id).card
      _ ≤ ws.toFinset.card := card_le_card hsub
      _ ≤ ws.length := List.toFinset_card_le ws
      _ = (launchRanges job.jobMeta).length := hranges
      _ ≤ kMaxWorkers.toNat := length_launchRanges_le hst.admitted.workers_le
  have hcard : left.card ≤ kMaxWorkers.toNat * running.card :=
    card_le_mul_card_image_of_maps_to hhome _ hfew
  have hlen : v.log.unreaped.length = left.card := by
    rw [List.toFinset_card_of_nodup ((forks_nodup hv.children).filter _)]
    exact List.length_map _
  have hused : v.ctl.slotsUsed = (running.card : ℤ) := by
    rw [hv.repr.used, ← length_toList]
    congr 1
    refine AList.countVals_eq_length running.nodup_toList fun id => ?_
    rw [mem_toList, hrunning]
  have hworkers : kMaxWorkers.toNat = 16 := rfl
  rw [hworkers] at hcard
  rw [hlen, hused]
  unfold kMaxWorkers
  omega

/-- **A step forks only while each slot has room.** -/
theorem Step.room {id : ℕ} {v v' : View} (h : Step o g id v v') (hv : Crew v)
    (hcap : kMaxWorkers * v.ctl.slotsMax ≤ cap) (hall : History.All (RoomOk cap) v.log) :
    History.All (RoomOk cap) v'.log := by
  rcases h.spawns with hadds | ⟨job, m, procs, log₁, log₂, hspawn⟩
  · exact hadds.room hall
  obtain ⟨n, hfork⟩ := hspawn.forked
  refine hspawn.after.room (hfork.room ?_ (hspawn.before.room hall))
  have hready := hspawn.ready
  have hworkers : m.workers ≤ kMaxWorkers := by
    obtain ⟨bytes, t, rfl⟩ := hspawn.record
    exact ((hv.jobs id job hready.live).waiting hready.queued).2.workers_le
  have hranges : ((launchRanges m).take n).length ≤ kMaxWorkers.toNat := by
    rw [List.length_take]
    exact (Nat.min_le_right _ _).trans (length_launchRanges_le hworkers)
  have hbefore := hspawn.before.unreaped_le
  have hleft := hv.unreaped_le
  have hroom := hready.room
  have hsixteen : kMaxWorkers.toNat = 16 := rfl
  unfold kMaxWorkers at *
  omega

/-! ## Runs -/

/-- **No run has more children than its slots allow**, at any point of any handler,
    whichever controllers it has. -/
theorem run_roomy (o : Oracle) {S : ℕ → Prop} (hS : ∀ slots, S slots → kMaxWorkers * slots ≤ cap)
    {slots : ℕ} (hslots : S slots) {es : List Event} (hes : ∀ e ∈ es, e.Restarts S) :
    History.All (RoomOk cap) (Machine.run (World.step o) (World.start slots) es).log := by
  refine (run_view_of (g := .any)
    (P := fun v => Crew v ∧ kMaxWorkers * v.ctl.slotsMax ≤ cap ∧ History.All (RoomOk cap) v.log)
    ⟨@Crew.fresh [] trivial trivial rfl slots, hS slots hslots, trivial⟩ ?_ ?_ hes
    (along_any _ es)).2.2
  · intro id v v' ⟨hv, hcap, hall⟩ hstep
    exact ⟨hv.step hstep, by rwa [hstep.change.slotsMax], hstep.room hv hcap hall⟩
  · intro v log slots hslots ⟨hv, _, hall⟩ hsuffix
    exact ⟨hv.crash hsuffix slots, hS slots hslots, trivial, hall.suffix hsuffix⟩

/-! ## A crowd -/

/-- A job of 16 workers for an input of 16 bytes. -/
def wideMeta (id : ℕ) : Meta :=
  { id := id, op := "count", input := "/in", workers := 16, bytes := 16 }

/-- The record of such a job. -/
def Meta.Wide (m : Meta) : Prop := m.op = "count" ∧ m.io = "mmap" ∧ m.workers = 16 ∧ m.bytes = 16

theorem Meta.Wide.ranges {m : Meta} (h : m.Wide) : (launchRanges m).length = 16 := by
  obtain ⟨hop, hio, hworkers, hbytes⟩ := h
  unfold launchRanges
  rw [hop, hio, hworkers, hbytes]
  decide

/-- Nothing is reaped, and the record that the effect writes is wide, unless the job has ended. -/
def Effect.Wide : Effect → Prop
  | .reap _ => False
  | .save _ m | .lost _ m | .record _ m => isTerminalState m.state = false → m.Wide
  | _ => True

theorem disk_wide (h : ∀ e ∈ log, e.Wide) {id : ℕ} {m : Meta} (hdisk : log.disk id = some m)
    (hopen : isTerminalState m.state = false) : m.Wide := by
  induction log with
  | nil => cases hdisk
  | cons e log ih =>
    have he := h e List.mem_cons_self
    have hrest := ih fun e' he' => h e' (List.mem_cons_of_mem e he')
    cases e with
    | record i m' =>
      rw [Log.disk] at hdisk
      split_ifs at hdisk
      · cases hdisk
        exact he hopen
      · exact hrest hdisk
    | save i m' =>
      rw [Log.disk] at hdisk
      split_ifs at hdisk
      · cases hdisk
        exact he hopen
      · exact hrest hdisk
    | _ => exact hrest hdisk

/-- Nothing is reaped, and no record appears. -/
def Guard.still : Guard where
  record := fun _ _ => False
  reap := fun _ _ _ => False

/-- Nothing is reaped, and every record of a job that is open or live is wide. -/
structure Crowding (v : View) : Prop where
  log : ∀ e ∈ v.log, e.Wide
  live : v.ctl.Holds Meta.Wide

theorem Crowding.adds {v : View} (hv : Crowding v) (h : Adds Effect.Wide v.log log') :
    ∀ e ∈ log', e.Wide := by
  obtain ⟨new, rfl, hnew⟩ := h
  intro e he
  rcases List.mem_append.mp he with hmem | hmem
  · exact hnew e hmem
  · exact hv.log e hmem

/-- **Launches that succeed keep the jobs wide.** One case for each branch of a handler
    that reaps nothing. -/
theorem Crowding.step (ho : o.LaunchesAlways) (hsize : ∀ call, (o.launch call).inspect = .ok (true, 16))
    {id : ℕ} {v v' : View} (hv : Crowding v) (h : Step o .still id v v') : Crowding v' := by
  have hsaved : ∀ {id : ℕ} {m : Meta} {log log' : Log}, (isTerminalState m.state = false → m.Wide) →
      Saved o log id m log' → Adds Effect.Wide log log' :=
    fun hm hsave => Adds.saved (.refl _) hm hm hsave
  have hclosed : ∀ {id : ℕ} {m : Meta} {log log' : Log}, isTerminalState m.state = true →
      Saved o log id m log' → Adds Effect.Wide log log' := fun hterm hsave =>
    hsaved (fun hopen => absurd (hterm.symm.trans hopen) (by decide)) hsave
  have hlive := hv.live
  have hone : ∀ {e : Effect} {log : Log}, e.Wide → Adds Effect.Wide log (e :: log) :=
    fun he => (Adds.refl _).cons he
  cases h with
  | started => exact ⟨hv.log, hlive⟩
  | recoverFail _ _ _ hkills hsave =>
    refine ⟨hv.adds (((Adds.refl _).append fun e he => ?_).trans (hclosed rfl hsave)), hlive⟩
    obtain ⟨_, _, rfl⟩ := hkills e he
    trivial
  | cancelLate _ _ _ _ hsave => exact ⟨hv.adds (hclosed rfl hsave), hlive⟩
  | reject _ _ _ _ _ hsave => exact ⟨hv.adds (hclosed rfl hsave), hlive⟩
  | @enter c log log' id m _ _ hdisk hopen _ _ hsave =>
    have hwide : m.Wide := disk_wide hv.log hdisk hopen
    have hm : Meta.Wide (m.setState "queued") := hwide
    exact ⟨hv.adds ((hsaved (fun _ => hm) hsave).cons trivial),
      @Controller.Holds.insert _ _ hlive id { jobMeta := _ } hm⟩
  | @launchFail c c' log log' id job m hjob _ hstate hsave hctl =>
    have hterm : isTerminalState m.state = true := by
      rw [hstate]
      rfl
    refine ⟨hv.adds ((hclosed hterm hsave).cons trivial), ?_⟩
    rcases hctl with rfl | rfl <;> exact hlive.erase id
  | launchSpawnFail _ _ _ _ _ _ _ _ _ hfail =>
    obtain ⟨call, i, err, hfail⟩ := hfail
    obtain ⟨answer, hanswer⟩ := (ho.launch call).2.2.2.2 i
    cases hanswer.symm.trans hfail
  | @launch c log log₁ log₂ log' id call job m procs deadlineId t hjob bytes t' hmeta hinspect
      hstart hfork hrun =>
    have hm : m.Wide := by
      obtain ⟨hop, hio, hworkers, -⟩ := hlive id job hjob.live
      subst hmeta
      refine ⟨hop, hio, hworkers, ?_⟩
      have hbytes := hinspect (by
        show job.jobMeta.op ≠ "exec"
        rw [hop]
        decide)
      rw [hsize call] at hbytes
      simpa using hbytes.symm
    have hrunning : Meta.Wide ((m.setProcs (formatProcs procs)).setState "running") := hm
    have hstarting : Meta.Wide (m.setStarted t) := hm
    have hforked : Adds Effect.Wide log log₂ :=
      (hsaved (fun _ => hstarting) hstart).forked (fun _ _ _ => trivial) hfork
    exact ⟨hv.adds (hforked.trans (hsaved (fun _ => hrunning) hrun)), hlive.insert hrunning⟩
  | cancelNothing => exact ⟨hv.adds (hone trivial), hlive⟩
  | cancelRecord _ _ _ hsave => exact ⟨hv.adds ((hclosed rfl hsave).cons trivial), hlive⟩
  | @cancelQueued c log log' id job t _ _ hsave =>
    have hremoved : Adds Effect.Wide log (.removed id :: log') := (hclosed rfl hsave).cons trivial
    exact ⟨hv.adds (hremoved.cons trivial), hlive.erase id⟩
  | cancelRunning => exact ⟨hv.adds (hone trivial), hlive⟩
  | @stop c log id now job reason hjob =>
    have hstop : Adds Effect.Wide log (.stop id reason :: log) := hone trivial
    exact ⟨hv.adds (hstop.signals (fun _ _ _ => trivial) job sigterm),
      hlive.insert (hlive id job hjob)⟩
  | stopAgain => exact ⟨hv.adds (hone trivial), hlive⟩
  | @escalate c log id job hjob =>
    exact ⟨hv.adds ((Adds.refl _).signals (fun _ _ _ => trivial) _ _),
      @Controller.Holds.insert _ _ hlive id (escalatedJob job) (hlive id job hjob)⟩
  | shutdown => exact ⟨hv.log, hlive⟩
  | reapUnknown hzombie => exact hzombie.allowed.elim
  | reapSome hzombie => exact hzombie.allowed.elim
  | reapBad hzombie => exact hzombie.allowed.elim
  | reapLast hzombie => exact hzombie.allowed.elim
  | reapLastBad hzombie => exact hzombie.allowed.elim
  | workerExit => exact ⟨hv.adds (hone trivial), hlive⟩
  | workerOutput => exact ⟨hv.adds (hone trivial), hlive⟩
  | memberSpawned => exact ⟨hv.adds (hone trivial), hlive⟩
  | memberGone => exact ⟨hv.adds (hone trivial), hlive⟩
  | @workerRegion c log l e f hlaunch _ hf =>
    have he : e.Wide := by
      rcases hf with ⟨_, _, rfl, _⟩ | ⟨rfl, _⟩ <;> trivial
    refine ⟨hv.adds (hone he), ?_⟩
    dsimp only
    split
    · exact hlive
    · next job hjob =>
      split_ifs
      · exact @Controller.Holds.insert _ _ hlive l.id { job with shm := job.shm.map f } (hlive _ job hjob)
      · exact hlive
  | record _ hrecord => exact hrecord.elim

/-- Every call succeeds, and every input has 16 bytes. -/
def Oracle.roomy : Oracle :=
  { Oracle.smooth fun _ i => i with
    launch := fun call =>
      { (Oracle.smooth fun _ i => i).launch call with inspect := .ok (true, 16) } }

theorem roomy_launches : Oracle.roomy.LaunchesAlways where
  load _ _ _ _ := rfl
  launch _ := ⟨⟨_, rfl⟩, rfl, rfl, rfl, fun _ => ⟨_, rfl⟩⟩

/-- The records of `n` wide jobs appear. -/
def wideRecords : ℕ → List Event
  | 0 => []
  | n + 1 => wideRecords n ++ [.handled (.record (n + 1) (wideMeta (n + 1)))]

def wideLog : ℕ → Log
  | 0 => []
  | n + 1 => .record (n + 1) (wideMeta (n + 1)) :: wideLog n

theorem disk_wideLog {n id : ℕ} (h : n < id) : (wideLog n).disk id = none := by
  induction n with
  | zero => rfl
  | succ n ih =>
    rw [wideLog, Log.disk, if_neg (by omega)]
    exact ih (by omega)

theorem wideLog_wide (n : ℕ) : ∀ e ∈ wideLog n, e.Wide := by
  induction n with
  | zero => simp [wideLog]
  | succ n ih =>
    intro e he
    rcases List.mem_cons.mp he with rfl | he
    · exact fun _ => ⟨rfl, rfl, rfl, rfl⟩
    · exact ih e he

theorem wideLog_ids (n : ℕ) : (wideLog n).IdsMatch := by
  induction n with
  | zero => simp [wideLog, Log.IdsMatch]
  | succ n ih =>
    intro id m hm
    rcases List.mem_cons.mp hm with heq | hm
    · cases heq
      rfl
    · exact ih id m hm

theorem run_wideRecords (o : Oracle) (slots n : ℕ) :
    Machine.run (World.step o) (World.start slots) (wideRecords n) =
      { ctl := { slotsMax := slots }, calls := 0, log := wideLog n } := by
  induction n with
  | zero => rfl
  | succ n ih =>
    rw [wideRecords, Machine.run_append, ih]
    show handle o _ (.record (n + 1) (wideMeta (n + 1))) = _
    unfold handle
    dsimp only
    rw [if_pos (disk_wideLog (Nat.lt_succ_self n))]
    rfl

/-- The records appear while the controller is down, and it never dies. -/
theorem wideRecords_restarts {S : ℕ → Prop} (n : ℕ) :
    ∀ e ∈ wideRecords n ++ [.handled .recover], e.Restarts S := by
  have hrecords : ∀ e ∈ wideRecords n, e.Restarts S := by
    induction n with
    | zero => simp [wideRecords]
    | succ n ih =>
      intro e he
      rcases List.mem_append.mp he with he | he
      · exact ih e he
      · rw [List.mem_singleton.mp he]
        trivial
  intro e he
  rcases List.mem_append.mp he with he | he
  · exact hrecords e he
  · rw [List.mem_singleton.mp he]
    trivial

/-- The jobs of `wideLog` all wait. -/
theorem mem_backlog_wideLog {id : ℕ} (h : 1 ≤ id ∧ id ≤ 17) : id ∈ (wideLog 17).backlog := by
  unfold Log.backlog
  rw [List.mem_filter, List.mem_mergeSort]
  obtain ⟨hpos, hle⟩ := h
  interval_cases id <;> decide

theorem length_backlog_wideLog : (wideLog 17).backlog.length ≤ 17 := by
  unfold Log.backlog
  refine (List.length_filter_le _ _).trans ?_
  rw [List.length_mergeSort]
  decide

/-- **A crowd**: with 17 slots or more, `recover` can have more than `kMaxSlots` children. -/
theorem recover_crowds {slots : ℕ} (h : 17 ≤ slots) :
    kMaxSlots < (Machine.run (World.step .roomy) (World.start slots)
      (wideRecords 17 ++ [.handled .recover])).log.unreaped.length := by
  classical
  have hcrew := @run_crew .roomy .any slots _ (along_any _ (wideRecords 17 ++ [.handled .recover]))
  rw [Machine.run_append, run_wideRecords, Machine.run_cons, Machine.run_nil] at hcrew ⊢
  generalize hw : (⟨{ slotsMax := slots }, 0, wideLog 17⟩ : World) = w at hcrew ⊢
  have hdown : w.Down := by
    rw [← hw]
    exact ⟨rfl, rfl⟩
  generalize hw' : World.step .roomy w (.handled .recover) = w' at hcrew ⊢
  have hcrowd : Crowding w'.view := by
    have hsteps : Steps .roomy .still w.view w'.view := by
      rw [← hw']
      exact handle_steps (fun _ => hdown) trivial
    refine hsteps.keeps (fun _ _ _ hv hstep => hv.step roomy_launches (fun _ => rfl) hstep) ?_
    rw [← hw]
    exact ⟨wideLog_wide 17, .fresh slots⟩
  have hlaunched : ∀ id ∈ Icc 1 17, w'.ctl.Launched id := by
    intro id hid
    have hrepr : w.ctl.Repr := by
      rw [← hw]
      exact .fresh slots
    have hids : w.log.IdsMatch := by
      rw [← hw]
      exact wideLog_ids 17
    have hfirst := (recover_first roomy_launches hdown hrepr hids id).mpr (by
      rw [← hw]
      show id ∈ (wideLog 17).backlog.take (slots : ℤ).toNat
      rw [Int.toNat_natCast, List.take_of_length_le (length_backlog_wideLog.trans h)]
      exact mem_backlog_wideLog (mem_Icc.mp hid))
    rw [← hw', ← hw]
    rw [← hw] at hfirst
    exact hfirst
  -- each of them has 16 workers, none of which has been reaped
  have hmany : ∀ id ∈ Icc 1 17,
      16 ≤ (w'.log.forks.toFinset.filter fun l => l.id = id).card := by
    intro id hid
    obtain ⟨job, hlive, hstate⟩ := hlaunched id hid
    obtain ⟨call, ws, hst⟩ := hcrew.staffed hlive (by rw [hstate]; decide)
    have hlen : ws.length = 16 := by
      rw [← (hcrowd.live id job hlive).ranges, ← hst.ranges, List.length_map]
    have hsub : ws.toFinset ⊆ w'.log.forks.toFinset.filter fun l => l.id = id := by
      intro l hl
      obtain ⟨hfork, hbelongs, -⟩ := hst.belongs l (List.mem_toFinset.mp hl)
      exact mem_filter.mpr ⟨List.mem_toFinset.mpr hfork, hbelongs⟩
    rw [← hlen, ← List.toFinset_card_of_nodup hst.pids.of_map]
    exact card_le_card hsub
  have hcard : 16 * (Icc 1 17).card ≤ w'.log.forks.toFinset.card := by
    refine (mul_card_image_le_card_of_maps_to
      (s := w'.log.forks.toFinset.filter fun l => l.id ∈ Icc 1 17) (f := Launch.id)
      (fun l hl => (mem_filter.mp hl).2) 16 fun id hid => ?_).trans
      (card_le_card (filter_subset _ _))
    refine (hmany id hid).trans (card_le_card fun l hl => ?_)
    obtain ⟨hfork, rfl⟩ := mem_filter.mp hl
    exact mem_filter.mpr ⟨mem_filter.mpr ⟨hfork, hid⟩, rfl⟩
  have hunreaped : w'.log.unreaped.length = w'.log.forks.length := by
    unfold Log.unreaped
    rw [List.length_map, List.filter_eq_self.mpr]
    intro l _
    exact decide_eq_true fun hreaped => hcrowd.log _ hreaped
  calc kMaxSlots
    _ < 16 * (Icc 1 17).card := by decide
    _ ≤ w'.log.forks.toFinset.card := hcard
    _ ≤ w'.log.forks.length := List.toFinset_card_le _
    _ = w'.log.unreaped.length := hunreaped.symm

/-! ## The promise of `kMaxSlots` -/

/-- **The cap on processes, exactly when it is kept**: controllers that the commands
    start have at most `kMaxSlots` children that are not reaped, at every point of
    every run, if and only if none of the commands gives more slots than 16. -/
theorem workers_capped (cmds : Set (ℤ × List String)) :
    (∀ (o : Oracle) (slots : ℕ) (es : List Event), Starts cmds slots →
      (∀ e ∈ es, e.Restarts (Starts cmds)) →
      ∀ log : Log, log <:+ (Machine.run (World.step o) (World.start slots) es).log →
        log.unreaped.length ≤ kMaxSlots) ↔
      ∀ cmd ∈ cmds, ∀ slots, cmdRun cmd.1 cmd.2 = .ok slots → kMaxWorkers * slots ≤ kMaxSlots := by
  constructor
  · intro hcapped cmd hcmd slots hslots
    by_contra hmany
    have hmore : 17 ≤ slots.toNat := by
      unfold kMaxWorkers kMaxSlots at hmany
      omega
    have hcrowd := recover_crowds hmore
    have hcap := hcapped .roomy slots.toNat (wideRecords 17 ++ [.handled .recover])
      ⟨cmd, hcmd, slots, hslots, rfl⟩ (wideRecords_restarts 17) _ (List.suffix_refl _)
    omega
  · intro hfew o slots es hslots hes log hsuffix
    refine unreaped_le_of_room ((run_roomy o ?_ hslots hes).suffix hsuffix)
    rintro slots ⟨cmd, hcmd, n, hn, rfl⟩
    have hle := hfew cmd hcmd n hn
    unfold kMaxWorkers kMaxSlots at *
    omega

/-- `--slots 17` is allowed, and 17 jobs of 16 workers each have 272 children. -/
theorem workers_exceed :
    cmdRun 8 ["--slots", "17"] = .ok 17 ∧
    kMaxSlots < (Machine.run (World.step .roomy) (World.start 17)
      (wideRecords 17 ++ [.handled .recover])).log.unreaped.length :=
  ⟨by decide +kernel, recover_crowds le_rfl⟩

end Forge
