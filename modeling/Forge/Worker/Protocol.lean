import Forge.Worker.Entry
import Forge.Worker.Gate
import Forge.Worker.Partition
import Forge.Controller.Steps

/-!
# The shared region before the gate opens

The protocol of forge.hpp:202-217 says that a child writes nothing shared until it
sees `start_gate == 1`. Here the workers of one job (worker.cpp:487-632) run against
the fork loop of the parent (controller.cpp:558-618), one step at a time and in any
order: the parent forks, gives up forking, stores 1 and wakes; a worker sets up its
limits, waits at the gate, acts, or is killed.

* `acts_workerEntry`: whatever the order, a worker does what `worker_entry` does.
* `gated_iff`: the order of the protocol is kept in every run exactly when no set-up
  and no wait at the gate fails.
* `gate_bypassed`: a worker that cannot be pinned publishes its slot before the gate
  opens.
-/

namespace Forge

/-! ## Model -/

/-- The workers of one job with a shared region. -/
structure Team where
  launches : List Launch
  builtin : ∀ l ∈ launches, l.jobMeta.op ≠ "exec"
  index : ∀ (i : ℕ) (h : i < launches.length), launches[i].chunkIndex = i
  length_le : (launches.length : ℤ) ≤ kMaxWorkers

namespace Team

abbrev Worker (t : Team) : Type := Fin t.launches.length

def launch (t : Team) (i : t.Worker) : Launch := t.launches[i]

end Team

/-- What the fork loop of the controller forks, oldest first. -/
theorem Forked.launches {id call i : ℕ} {m : Meta} {ranges : List ByteRange} {log log' : Log}
    {procs : List ProcRef} (h : Forked id call m i ranges log procs log') :
    ∃ ls : List Launch, log' = (ls.map Effect.fork).reverse ++ log ∧ ls.length = ranges.length ∧
      ∀ (j : ℕ) (hj : j < ls.length), ls[j].jobMeta = m ∧ ls[j].chunkIndex = i + j := by
  induction h with
  | nil => exact ⟨[], rfl, rfl, fun j hj => absurd hj (Nat.not_lt_zero j)⟩
  | @cons i range ranges log log' pid start grouped procs _ _ _ ih =>
    obtain ⟨ls, hlog, hlen, hls⟩ := ih
    refine ⟨⟨log.length, call, id, pid, start, m, i, range.offset, range.length⟩ :: ls, ?_,
      by simp [hlen], fun j hj => ?_⟩
    · rw [hlog, List.map_cons, List.reverse_cons, List.append_assoc, List.singleton_append]
    · cases j with
      | zero => exact ⟨rfl, rfl⟩
      | succ j =>
        obtain ⟨hmeta, hindex⟩ := hls j (by simpa using hj)
        exact ⟨hmeta, by rw [List.getElem_cons_succ, hindex]; omega⟩

/-- The workers of every built-in job that is launched are such a team. -/
theorem Forked.team {id call : ℕ} {m : Meta} {log log' : Log} {procs : List ProcRef}
    (h : Forked id call m 0 (launchRanges m) log procs log') (hop : m.op ≠ "exec")
    (hworkers : m.workers ≤ kMaxWorkers) :
    ∃ t : Team, log' = (t.launches.map Effect.fork).reverse ++ log := by
  obtain ⟨ls, hlog, hlen, hls⟩ := h.launches
  refine ⟨⟨ls, fun l hl => ?_, fun j hj => ?_, ?_⟩, hlog⟩
  · obtain ⟨j, hj, rfl⟩ := List.mem_iff_getElem.mp hl
    rw [(hls j hj).1]
    exact hop
  · rw [(hls j hj).2, Nat.zero_add]
  · have hle : ((launchRanges m).length : ℤ) ≤ max (if m.op = "exec" then 1 else m.workers) 1 :=
      length_splitRanges_le_max _ _ _
    rw [hlen]
    unfold kMaxWorkers at *
    rw [if_neg hop] at hle
    omega

/-- How the kernel answers one worker, with the errors of `wait_for_start_gate`. -/
structure WorkerKernel extends WorkerEnv where
  gate_error : ∀ e, gate = .error e → e = gateTimeout ∨ ∃ errno, e = "futex wait: " ++ errno

/-- Where a worker is in `worker_entry`. -/
inductive Phase where
  | unforked
  /-- Before `apply_resource_limits` and `apply_scheduler_hints` have returned. -/
  | setup
  /-- In `wait_for_start_gate`. -/
  | gate
  /-- Past the gate, or failed: what it has done and what it is going to do. -/
  | acting (done rest : List WorkerAct)
  | killed

structure TeamState (t : Team) where
  forked : ℕ
  forkFailed : Bool
  region : GateState t.Worker
  phase : t.Worker → Phase

namespace TeamState

variable {t : Team}

/-- The region is zeroed, and nothing is forked. -/
def start : TeamState t := ⟨0, false, .start, fun _ => .unforked⟩

def setPhase (s : TeamState t) (i : t.Worker) (p : Phase) : TeamState t :=
  { s with phase := Function.update s.phase i p }

end TeamState

inductive TeamAction (t : Team) where
  | fork
  | forkFail
  | setup (i : t.Worker)
  /-- A step at the gate, of a worker or of the parent. -/
  | gate
  /-- The worker has returned from the gate. -/
  | leave (i : t.Worker)
  | act (i : t.Worker) (a : WorkerAct)
  | kill (i : t.Worker)

/-- The text of a failed set-up (worker.cpp:614). -/
def setupError (e : String) : String := if e = "" then "limits/scheduler setup failed" else e

/-- A step of the parent or of a worker. -/
inductive TeamStep (b : Backend) (t : Team) (k : t.Worker → WorkerKernel) :
    TeamState t → TeamAction t → TeamState t → Prop
  | fork {s : TeamState t} (h : s.forked < t.launches.length) (hgoing : s.forkFailed = false) :
      TeamStep b t k s .fork
        { s.setPhase ⟨s.forked, h⟩ .setup with forked := s.forked + 1 }
  | forkFail {s : TeamState t} (h : s.forked < t.launches.length) (hgoing : s.forkFailed = false) :
      TeamStep b t k s .forkFail { s with forkFailed := true }
  | setupOk {s : TeamState t} {i : t.Worker} (h : s.phase i = .setup) (hok : (k i).setup = .ok ()) :
      TeamStep b t k s (.setup i) (s.setPhase i .gate)
  | setupFail {s : TeamState t} {i : t.Worker} {e : String} (h : s.phase i = .setup)
      (hfail : (k i).setup = .error e) :
      TeamStep b t k s (.setup i)
        (s.setPhase i (.acting [] (failChunk (t.launch i) (setupError e))))
  -- only workers that wait at the gate move there; the parent stores 1 behind its fork loop
  | gate {s : TeamState t} {r : GateState t.Worker} (hstep : GateStep b s.region r)
      (hat : ∀ i, s.phase i ≠ .gate → r.waiter i = s.region.waiter i)
      (hfail : ∀ i e, r.waiter i = .failed e →
        s.region.waiter i = .failed e ∨ (k i).gate = .error e)
      (hstore : r.gate = s.region.gate ∨ s.forked = t.launches.length ∨ s.forkFailed = true) :
      TeamStep b t k s .gate { s with region := r }
  | pass {s : TeamState t} {i : t.Worker} (h : s.phase i = .gate)
      (hwaiter : s.region.waiter i = .passed) :
      TeamStep b t k s (.leave i)
        (s.setPhase i (.acting [] (workChunk (k i).toWorkerEnv (t.launch i))))
  | refused {s : TeamState t} {i : t.Worker} {e : String} (h : s.phase i = .gate)
      (hwaiter : s.region.waiter i = .failed e) :
      TeamStep b t k s (.leave i) (s.setPhase i (.acting [] (failChunk (t.launch i) e)))
  | act {s : TeamState t} {i : t.Worker} {a : WorkerAct} {done rest : List WorkerAct}
      (h : s.phase i = .acting done (a :: rest)) :
      TeamStep b t k s (.act i a) (s.setPhase i (.acting (done ++ [a]) rest))
  | kill {s : TeamState t} {i : t.Worker} (h : s.phase i ≠ .unforked) :
      TeamStep b t k s (.kill i)
        { s.setPhase i .killed with region := s.region.move i .killed }

/-- The states that some order of steps leads to. -/
inductive TeamReach (b : Backend) (t : Team) (k : t.Worker → WorkerKernel) : TeamState t → Prop
  | start : TeamReach b t k .start
  | step {s s' : TeamState t} {a : TeamAction t} (h : TeamReach b t k s)
      (hstep : TeamStep b t k s a s') : TeamReach b t k s'

/-- The act writes the shared region. -/
def WorkerAct.Shared : WorkerAct → Prop
  | .slot _ => True
  | .bump => True
  | _ => False

/-- In every run, nothing shared is written while the gate is closed. -/
def Gated (b : Backend) (t : Team) (k : t.Worker → WorkerKernel) : Prop :=
  ∀ s s' i a, TeamReach b t k s → TeamStep b t k s (.act i a) s' → a.Shared → s.region.gate = 1

variable {b : Backend} {t : Team} {k : t.Worker → WorkerKernel}

/-! ## What a worker does -/

/-- The worker is where `worker_entry` can be, for some answer at the gate. -/
def PhaseOk (k : WorkerKernel) (l : Launch) : Phase → Prop
  | .gate => k.setup = .ok ()
  | .acting done rest =>
    ∃ gate, done ++ rest = workerEntry { k.toWorkerEnv with gate := gate } l
  | _ => True

theorem Team.launch_builtin (t : Team) (i : t.Worker) : (t.launch i).jobMeta.op ≠ "exec" :=
  t.builtin _ (List.getElem_mem _)

theorem TeamState.setPhase_phase {s : TeamState t} {i j : t.Worker} {p : Phase} :
    (s.setPhase i p).phase j = if j = i then p else s.phase j := by
  unfold setPhase
  exact Function.update_apply _ _ _ _

theorem TeamStep.phaseOk {s s' : TeamState t} {a : TeamAction t} (h : TeamStep b t k s a s')
    (hs : ∀ i, PhaseOk (k i) (t.launch i) (s.phase i)) (j : t.Worker) :
    PhaseOk (k j) (t.launch j) (s'.phase j) := by
  have hset : ∀ {i : t.Worker} {p : Phase}, PhaseOk (k i) (t.launch i) p →
      PhaseOk (k j) (t.launch j) ((s.setPhase i p).phase j) := by
    intro i p hp
    rw [TeamState.setPhase_phase]
    split_ifs with hj
    · rw [hj]
      exact hp
    · exact hs j
  have hready : ∀ i, s.phase i = .gate → (k i).setup = .ok () := fun i hi => by
    have hok := hs i
    rw [hi] at hok
    exact hok
  cases h with
  | fork => exact hset trivial
  | forkFail => exact hs j
  | setupOk _ hok => exact hset hok
  | @setupFail i e _ hfail =>
    refine hset ⟨.ok (), ?_⟩
    unfold workerEntry
    dsimp only
    rw [hfail]
    dsimp only
    rw [if_neg (t.launch_builtin i)]
    rfl
  | gate => exact hs j
  | @pass i hgate =>
    refine hset ⟨.ok (), ?_⟩
    unfold workerEntry
    dsimp only
    rw [hready i hgate]
    dsimp only
    rw [if_neg (t.launch_builtin i)]
    rfl
  | @refused i e hgate =>
    refine hset ⟨.error e, ?_⟩
    unfold workerEntry
    dsimp only
    rw [hready i hgate]
    dsimp only
    rw [if_neg (t.launch_builtin i)]
    rfl
  | @act i a done rest hacting =>
    have hi := hs i
    rw [hacting] at hi
    obtain ⟨gate, hgate⟩ := hi
    exact hset ⟨gate, by rw [← hgate, List.append_assoc, List.singleton_append]⟩
  | kill => exact hset trivial

/-- **Whatever the order of the steps, a worker does what `worker_entry` does.** -/
theorem acts_workerEntry {s : TeamState t} (h : TeamReach b t k s) (i : t.Worker) :
    PhaseOk (k i) (t.launch i) (s.phase i) := by
  induction h generalizing i with
  | start => trivial
  | step _ hstep ih => exact hstep.phaseOk ih i

/-! ## The gate is respected -/

/-- Whoever has passed has seen the gate open. -/
theorem GateStep.passed {ι : Type*} [DecidableEq ι] {b : Backend} {s s' : GateState ι}
    (h : GateStep b s s') (hs : ∀ i, s.waiter i = .passed → s.gate = 1) (i : ι)
    (hi : s'.waiter i = .passed) : s'.gate = 1 := by
  have hmove : ∀ {j : ι} {w : Waiter}, (w = .passed → s.gate = 1) →
      (s.move j w).waiter i = .passed → s.gate = 1 := by
    intro j w hw hmoved
    unfold GateState.move at hmoved
    dsimp only at hmoved
    rw [Function.update_apply] at hmoved
    split_ifs at hmoved
    · exact hw hmoved
    · exact hs i hmoved
  cases h with
  | pass _ hgate => exact hgate
  | store => rfl
  | wake _ hwake =>
    cases hwake with
    | all =>
      dsimp only at hi
      split_ifs at hi
      exact hs i hi
    | @one j hj =>
      dsimp only at hi
      rw [Function.update_apply] at hi
      split_ifs at hi
      exact hs i hi
    | nobody => exact hs i hi
  | _ => exact hmove (by simp) hi

/-- The gate stays open. -/
theorem GateStep.gate_mono {ι : Type*} [DecidableEq ι] {b : Backend} {s s' : GateState ι}
    (h : GateStep b s s') (hs : s.gate = 1) : s'.gate = 1 := by
  cases h with
  | store => rfl
  | _ => exact hs

/-- Nobody acts, and nobody has passed, before the gate is open. -/
structure Orderly (s : TeamState t) : Prop where
  passed : ∀ i, s.region.waiter i = .passed → s.region.gate = 1
  unfailed : ∀ i e, s.region.waiter i ≠ .failed e
  acting : ∀ i done rest, s.phase i = .acting done rest → s.region.gate = 1

theorem Orderly.setPhase {s : TeamState t} (h : Orderly s) {i : t.Worker} {p : Phase}
    (hp : ∀ done rest, p = .acting done rest → s.region.gate = 1) : Orderly (s.setPhase i p) := by
  refine ⟨h.passed, h.unfailed, fun j done rest hj => ?_⟩
  rw [TeamState.setPhase_phase] at hj
  split_ifs at hj
  · exact hp done rest hj
  · exact h.acting j done rest hj

theorem TeamStep.orderly {s s' : TeamState t} {a : TeamAction t} (h : TeamStep b t k s a s')
    (hk : ∀ i, (k i).setup = .ok () ∧ (k i).gate = .ok ()) (hs : Orderly s) : Orderly s' := by
  cases h with
  | fork =>
    have hset := hs.setPhase (i := ⟨s.forked, ‹_›⟩) (p := .setup) (by simp)
    exact ⟨hset.passed, hset.unfailed, hset.acting⟩
  | forkFail => exact ⟨hs.passed, hs.unfailed, hs.acting⟩
  | setupOk => exact hs.setPhase (by simp)
  | setupFail _ hfail => exact absurd (hfail.symm.trans (hk _).1) (by simp)
  | gate hstep hat hfail =>
    refine ⟨hstep.passed hs.passed, fun i e hi => ?_, fun i done rest hi => ?_⟩
    · rcases hfail i e hi with hold | herror
      · exact hs.unfailed i e hold
      · exact absurd (herror.symm.trans (hk i).2) (by simp)
    · exact hstep.gate_mono (hs.acting i done rest hi)
  | pass _ hwaiter => exact hs.setPhase fun _ _ _ => hs.passed _ hwaiter
  | refused _ hwaiter => exact absurd hwaiter (hs.unfailed _ _)
  | act hacting => exact hs.setPhase fun _ _ _ => hs.acting _ _ _ hacting
  | @kill i =>
    have hset := hs.setPhase (i := i) (p := .killed) (by simp)
    refine ⟨fun j hj => ?_, fun j e hj => ?_, hset.acting⟩
    · exact (GateStep.kill (b := b) (s := s.region) (i := i)).passed hs.passed j hj
    · unfold GateState.move at hj
      dsimp only at hj
      rw [Function.update_apply] at hj
      split_ifs at hj
      exact hs.unfailed j e hj

theorem orderly_of_reach (hk : ∀ i, (k i).setup = .ok () ∧ (k i).gate = .ok ())
    {s : TeamState t} (h : TeamReach b t k s) : Orderly s := by
  induction h with
  | start => exact ⟨by simp [TeamState.start, GateState.start], by simp [TeamState.start, GateState.start],
      by simp [TeamState.start]⟩
  | step _ hstep ih => exact hstep.orderly hk ih

/-! ## The gate is bypassed -/

/-- The parent has forked `m` workers, and none of them has run. -/
def TeamState.forkedOnly (t : Team) (m : ℕ) : TeamState t :=
  ⟨m, false, .start, fun i => if i < m then .setup else .unforked⟩

theorem reach_forkedOnly {m : ℕ} (hm : m ≤ t.launches.length) :
    TeamReach b t k (.forkedOnly t m) := by
  induction m with
  | zero => exact .start
  | succ m ih =>
    have hlt : m < t.launches.length := by omega
    have hnext : TeamState.forkedOnly t (m + 1) =
        { (TeamState.forkedOnly t m).setPhase ⟨m, hlt⟩ .setup with forked := m + 1 } := by
      unfold TeamState.forkedOnly TeamState.setPhase
      congr 1
      funext i
      dsimp only
      rw [Function.update_apply]
      have hi : i = ⟨m, hlt⟩ ↔ (i : ℕ) = m := Fin.ext_iff
      simp only [hi]
      split_ifs <;> first | rfl | omega
    rw [hnext]
    exact (ih (by omega)).step (.fork hlt rfl)

/-- A worker that fails publishes. -/
theorem failChunk_slot (t : Team) (i : t.Worker) (e : String) :
    ∃ chunk rest, failChunk (t.launch i) e = .slot chunk :: rest := by
  have hindex : ((t.launch i).chunkIndex : ℤ) < kMaxWorkers := by
    have hlen := t.length_le
    rw [Team.launch, Fin.getElem_fin, t.index i i.isLt]
    omega
  unfold failChunk
  rw [if_pos hindex]
  exact ⟨_, _, rfl⟩

/-- A worker that fails behind the closed gate writes its slot there. -/
theorem not_gated_of_failing {s : TeamState t} {i : t.Worker} {e : String}
    (hreach : TeamReach b t k s) (hphase : s.phase i = .acting [] (failChunk (t.launch i) e))
    (hclosed : s.region.gate ≠ 1) : ¬Gated b t k := by
  intro hgated
  obtain ⟨chunk, rest, hacts⟩ := failChunk_slot t i e
  rw [hacts] at hphase
  exact hclosed (hgated s _ i (.slot chunk) hreach (.act hphase) trivial)

/-- The steps of one worker at the gate leave the others alone. -/
theorem TeamStep.gate_move {s : TeamState t} {i : t.Worker} {w : Waiter}
    (hstep : GateStep b s.region (s.region.move i w)) (hphase : s.phase i = .gate)
    (hw : ∀ e, w = .failed e → (k i).gate = .error e) :
    TeamStep b t k s .gate { s with region := s.region.move i w } := by
  have hmove : ∀ j, (s.region.move i w).waiter j = if j = i then w else s.region.waiter j :=
    fun j => Function.update_apply _ _ _ _
  refine .gate hstep (fun j hj => ?_) (fun j e hj => ?_) (.inl rfl)
  · have hne : j ≠ i := fun heq => hj (heq ▸ hphase)
    rw [hmove, if_neg hne]
  · rw [hmove] at hj
    split_ifs at hj with heq
    · rw [heq]
      exact .inr (hw e hj)
    · exact .inl hj

/-- The parent has forked all workers, and one of them waits at the closed gate. -/
def TeamState.oneAt (t : Team) (i : t.Worker) (w : Waiter) : TeamState t :=
  { (TeamState.forkedOnly t t.launches.length).setPhase i .gate with
    region := GateState.start.move i w }

theorem TeamState.oneAt_waiter (i : t.Worker) (w : Waiter) :
    (TeamState.oneAt t i w).region.waiter i = w := by
  unfold TeamState.oneAt GateState.move
  exact Function.update_self _ _ _

theorem TeamState.oneAt_phase (i : t.Worker) (w : Waiter) :
    (TeamState.oneAt t i w).phase i = .gate := by
  unfold TeamState.oneAt TeamState.setPhase
  exact Function.update_self _ _ _

theorem TeamState.oneAt_move (i : t.Worker) (w w' : Waiter) :
    { TeamState.oneAt t i w with region := (TeamState.oneAt t i w).region.move i w' } =
      TeamState.oneAt t i w' := by
  unfold TeamState.oneAt GateState.move
  rw [Function.update_idem]

theorem reach_oneAt {i : t.Worker} {w w' : Waiter} (hreach : TeamReach b t k (.oneAt t i w))
    (hstep : GateStep b (TeamState.oneAt t i w).region ((TeamState.oneAt t i w).region.move i w'))
    (hw : ∀ e, w' = .failed e → (k i).gate = .error e) : TeamReach b t k (.oneAt t i w') := by
  rw [← TeamState.oneAt_move i w w']
  exact hreach.step (.gate_move hstep (TeamState.oneAt_phase i w) hw)

theorem not_gated_of_setup {i : t.Worker} {e : String} (hsetup : (k i).setup = .error e) :
    ¬Gated b t k := by
  have hphase : (TeamState.forkedOnly t t.launches.length).phase i = .setup := if_pos i.isLt
  have hreach := (reach_forkedOnly (b := b) (k := k) le_rfl).step (.setupFail hphase hsetup)
  exact not_gated_of_failing hreach (Function.update_self _ _ _) (by
    show (0 : ℕ) ≠ 1
    decide)

theorem not_gated_of_gate {i : t.Worker} {e : String} (hsetup : (k i).setup = .ok ())
    (hgate : (k i).gate = .error e) : ¬Gated b t k := by
  have hphase : (TeamState.forkedOnly t t.launches.length).phase i = .setup := if_pos i.isLt
  have hload : TeamReach b t k (.oneAt t i .load) := by
    have hsame : TeamState.oneAt t i .load =
        (TeamState.forkedOnly t t.launches.length).setPhase i .gate := by
      unfold TeamState.oneAt GateState.move
      have hidle : Function.update (GateState.start (ι := t.Worker)).waiter i .load =
          GateState.start.waiter := Function.update_eq_self i _
      rw [hidle]
      rfl
    rw [hsame]
    exact (reach_forkedOnly le_rfl).step (.setupOk hphase hsetup)
  have hwait : TeamReach b t k (.oneAt t i .wait) :=
    reach_oneAt hload (.closed (TeamState.oneAt_waiter i _) (by
      show (0 : ℕ) ≠ 1
      decide)) (by simp)
  have hfailed : TeamReach b t k (.oneAt t i (.failed e)) := by
    have herror : ∀ e', Waiter.failed e = .failed e' → (k i).gate = .error e' := fun e' heq => by
      cases heq
      exact hgate
    rcases (k i).gate_error e hgate with rfl | ⟨errno, rfl⟩
    · -- the worker falls asleep and is not woken within 30 s
      have hasleep : TeamReach b t k (.oneAt t i .asleep) :=
        reach_oneAt hwait (.sleep (TeamState.oneAt_waiter i _) rfl) (by simp)
      exact reach_oneAt hasleep (.timeout (TeamState.oneAt_waiter i _)) herror
    · exact reach_oneAt hwait (.refuse (.inl (TeamState.oneAt_waiter i _))) herror
  have hreach := hfailed.step
    (.refused (TeamState.oneAt_phase i _) (TeamState.oneAt_waiter i (.failed e)))
  exact not_gated_of_failing hreach (Function.update_self _ _ _) (by
    show (0 : ℕ) ≠ 1
    decide)

/-- **Workers write nothing shared before the gate**, in every run, exactly when no
    worker's set-up and no worker's wait at the gate fails. -/
theorem gated_iff (b : Backend) (t : Team) (k : t.Worker → WorkerKernel) :
    Gated b t k ↔ ∀ i, (k i).setup = .ok () ∧ (k i).gate = .ok () := by
  constructor
  · intro hgated i
    cases hsetup : (k i).setup with
    | error e => exact absurd hgated (not_gated_of_setup hsetup)
    | ok _ =>
      cases hgate : (k i).gate with
      | error e => exact absurd hgated (not_gated_of_gate hsetup hgate)
      | ok _ => exact ⟨rfl, rfl⟩
  · intro hk s s' i a hreach hstep hshared
    cases hstep with
    | act hacting => exact (orderly_of_reach hk hreach).acting i _ _ hacting

/-- A job with one worker. -/
def soloTeam : Team where
  launches := [{ child := 0, call := 0, id := 7, pid := 8, start := 1,
                 jobMeta := { id := 7, op := "count", cpu := 2000 },
                 chunkIndex := 0, offset := 0, length := 16 }]
  builtin := by simp
  index := by
    intro i h
    obtain rfl : i = 0 := by simpa using h
    rfl
  length_le := by decide

def soloWorker : soloTeam.Worker := ⟨0, Nat.zero_lt_one⟩

/-- `pin_cpu` refuses a processor from 1024 on; every other call succeeds. -/
def unpinned : WorkerKernel where
  input := List.replicate 16 0
  setup := .error "cpu index is out of range"
  execve := .ok ()
  gate := .ok ()
  read := { openInput := .ok (), pageSize := 4096, mmap := .ok (), openDirect := .ok (),
            openTail := .ok (), memalign := true, pread := .steady 4096 }
  openDir := .ok ()
  openTemp := .ok ()
  write := fun _ => .ok 4096
  publish := .ok
  gate_error := fun e h => by cases h

/-- **The gate is bypassed.** A worker that cannot be pinned publishes its slot while
    the gate is closed. -/
theorem gate_bypassed :
    ∃ s s' : TeamState soloTeam, ∃ chunk : ChunkResult,
      TeamReach .linux soloTeam (fun _ => unpinned) s ∧
      TeamStep .linux soloTeam (fun _ => unpinned) s (.act soloWorker (.slot chunk)) s' ∧
      s.region.opener = .before ∧ chunk.ok = 0 ∧ chunk.error = "cpu index is out of range" ∧
      ¬Gated .linux soloTeam fun _ => unpinned := by
  have hphase : (TeamState.forkedOnly soloTeam 1).phase soloWorker = .setup := rfl
  have hsetup : unpinned.setup = .error "cpu index is out of range" := rfl
  have hforked : TeamReach .linux soloTeam (fun _ => unpinned) (.forkedOnly soloTeam 1) :=
    reach_forkedOnly le_rfl
  have hacts : failChunk (soloTeam.launch soloWorker) (setupError "cpu index is out of range") =
      [.slot { index := 0, ok := 0, offset := 0, length := 16, error := "cpu index is out of range" },
        .bump, .wake, .exit 1] := by decide +kernel
  have hfailed := hforked.step (.setupFail hphase hsetup)
  rw [hacts] at hfailed
  have hacting := @TeamState.setPhase_phase soloTeam (.forkedOnly soloTeam 1) soloWorker soloWorker
    (.acting [] [.slot { index := 0, ok := 0, offset := 0, length := 16,
                         error := "cpu index is out of range" }, .bump, .wake, .exit 1])
  rw [if_pos rfl] at hacting
  refine ⟨_, _, _, hfailed, .act hacting, rfl, rfl, rfl, fun hgated => ?_⟩
  have hsmooth := ((gated_iff _ _ _).mp hgated soloWorker).1
  cases hsmooth

end Forge
