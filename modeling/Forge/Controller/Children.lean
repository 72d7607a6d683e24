import Forge.Controller.Steps

/-!
# The children of the controllers

Every child has a number of its own, the length of the log when it was forked,
so that children stay apart when the kernel hands a pid out again. `ChildOk` is
what each effect that concerns a child must satisfy.

* `Step.children`: every step satisfies it.
* `launch_unique`: a child has one launch.
* `Forked.workers`: the workers of a launch, in the order of their ranges.
-/

namespace Forge

/-! ## The log -/

/-- The effect concerns a child that was forked, has not ended, or has ended but
    has not been reaped. -/
def ChildOk : Effect → Log → Prop
  | .fork l, log =>
    l.child = log.length ∧ l.call ≤ log.length ∧ 0 < l.pid ∧ l.pid ∉ log.unreaped
  | .exit child _, log => (∃ l ∈ log.launches, l.child = child) ∧ log.status child = none
  | .slot child chunk, log =>
    ∃ l ∈ log.launches, l.child = child ∧ chunk.index = l.chunkIndex ∧ log.status child = none
  | .bump child, log => ∃ l ∈ log.launches, l.child = child ∧ log.status child = none
  | .copied child id _, log =>
    ∃ l ∈ log.launches, l.child = child ∧ l.id = id ∧ log.status child = none
  | .reap child, log => (∃ l ∈ log.forks, l.child = child) ∧ log.status child ≠ none ∧
    ¬ log.Reaped child
  | _, _ => True

variable {log log' : Log}

theorem launch_child_lt (h : History.All ChildOk log) {l : Launch} (hl : l ∈ log.launches) :
    l.child < log.length ∧ l.call < log.length := by
  induction log with
  | nil => cases hl
  | cons e log ih =>
    obtain ⟨hok, hall⟩ := h
    rw [List.length_cons]
    have hrest : l ∈ Log.launches log → l.child < log.length + 1 ∧ l.call < log.length + 1 := by
      intro hl
      have := ih hall hl
      omega
    cases e with
    | fork l' =>
      rcases List.mem_cons.mp hl with rfl | hl
      · obtain ⟨hchild, hcall, -⟩ := hok
        omega
      · exact hrest hl
    | _ => exact hrest hl

theorem launch_pos (h : History.All ChildOk log) {l : Launch} (hl : l ∈ log.launches) : 0 < l.pid := by
  induction log with
  | nil => cases hl
  | cons e log ih =>
    obtain ⟨hok, hall⟩ := h
    cases e with
    | fork l' =>
      rcases List.mem_cons.mp hl with rfl | hl
      · exact hok.2.2.1
      · exact ih hall hl
    | _ => exact ih hall hl

/-- **A child has one launch.** -/
theorem launch_unique (h : History.All ChildOk log) {l l' : Launch} (hl : l ∈ log.launches)
    (hl' : l' ∈ log.launches) (hchild : l'.child = l.child) : l' = l := by
  induction log with
  | nil => cases hl
  | cons e log ih =>
    obtain ⟨hok, hall⟩ := h
    cases e with
    | fork l₀ =>
      rcases List.mem_cons.mp hl with rfl | hmem
      · rcases List.mem_cons.mp hl' with rfl | hmem'
        · rfl
        · have hlt := (launch_child_lt hall hmem').1
          rw [hchild, hok.1] at hlt
          exact absurd hlt (lt_irrefl _)
      · rcases List.mem_cons.mp hl' with rfl | hmem'
        · have hlt := (launch_child_lt hall hmem).1
          rw [← hchild, hok.1] at hlt
          exact absurd hlt (lt_irrefl _)
        · exact ih hall hmem hmem'
    | _ => exact ih hall hl hl'

theorem launch_of_status (h : History.All ChildOk log) {child : ℕ} {status : WaitStatus}
    (hs : log.status child = some status) : ∃ l ∈ log.launches, l.child = child := by
  induction log with
  | nil => cases hs
  | cons e log ih =>
    obtain ⟨hok, hall⟩ := h
    cases e with
    | exit c s =>
      rw [Log.status] at hs
      split_ifs at hs with hc
      · obtain ⟨l, hl, hchild⟩ := hok.1
        exact ⟨l, hl, hchild.trans hc⟩
      · exact ih hall hs
    | fork l =>
      obtain ⟨l', hl', hchild⟩ := ih hall hs
      exact ⟨l', List.mem_cons_of_mem l hl', hchild⟩
    | _ => exact ih hall hs

theorem launch_of_reaped (h : History.All ChildOk log) {child : ℕ} (hr : log.Reaped child) :
    ∃ l ∈ log.launches, l.child = child := by
  obtain ⟨new, past, rfl⟩ := List.append_of_mem hr
  obtain ⟨l, hl, hchild⟩ := (h.at ⟨new, rfl⟩).1
  exact ⟨l, Log.mem_launches_suffix ⟨new ++ [.reap child], by simp⟩ (Log.forks_subset hl), hchild⟩

/-- A child that has not been forked yet has neither ended nor been reaped. -/
theorem fresh_child (h : History.All ChildOk log) {child : ℕ} (hchild : log.length ≤ child) :
    log.status child = none ∧ ¬ log.Reaped child := by
  constructor
  · by_contra hne
    obtain ⟨status, hs⟩ := Option.ne_none_iff_exists'.mp hne
    obtain ⟨l, hl, rfl⟩ := launch_of_status h hs
    have := (launch_child_lt h hl).1
    omega
  · intro hr
    obtain ⟨l, hl, rfl⟩ := launch_of_reaped h hr
    have := (launch_child_lt h hl).1
    omega

/-- A pid is free unless a child that has not been reaped has it. -/
theorem mem_unreaped {pid : ℕ} :
    pid ∈ log.unreaped ↔ ∃ l ∈ log.forks, ¬ log.Reaped l.child ∧ l.pid = pid := by
  unfold Log.unreaped
  simp only [List.mem_map, List.mem_filter, decide_eq_true_eq, and_assoc]

/-- The children that have not been reaped have different pids. -/
theorem unreaped_unique (h : History.All ChildOk log) {l l' : Launch} (hl : l ∈ log.forks)
    (hl' : l' ∈ log.forks) (hr : ¬ log.Reaped l.child) (hr' : ¬ log.Reaped l'.child)
    (hpid : l'.pid = l.pid) : l' = l := by
  induction log with
  | nil => cases hl
  | cons e log ih =>
    obtain ⟨hok, hall⟩ := h
    have hr₀ : ¬ Log.Reaped log l.child := fun h => hr (Log.reaped_cons h)
    have hr₀' : ¬ Log.Reaped log l'.child := fun h => hr' (Log.reaped_cons h)
    cases e with
    | fork l₀ =>
      obtain ⟨-, -, -, hfree⟩ := hok
      rcases List.mem_cons.mp hl with rfl | hmem
      · rcases List.mem_cons.mp hl' with rfl | hmem'
        · rfl
        · exact absurd (mem_unreaped.mpr ⟨l', hmem', hr₀', hpid⟩) hfree
      · rcases List.mem_cons.mp hl' with rfl | hmem'
        · exact absurd (mem_unreaped.mpr ⟨l, hmem, hr₀, hpid.symm⟩) hfree
        · exact ih hall hmem hmem' hr₀ hr₀'
    | died => cases hl
    | _ => exact ih hall hl hl' hr₀ hr₀'

/-! ## The workers of a launch -/

/-- The workers that a fork loop has forked, in order. -/
structure Crewed (id call : ℕ) (m : Meta) (i : ℕ) (ranges : List ByteRange) (log : Log)
    (procs : List ProcRef) (log' : Log) (ws : List Launch) : Prop where
  launches : log'.launches = ws.reverse ++ log.launches
  forks : log'.forks = ws.reverse ++ log.forks
  pairs : procs.map (fun pr => (pr.child, pr.pid)) = ws.map fun l => (l.child, l.pid)
  starts : procs.map (fun pr => (pr.pid, pr.start)) = ws.map fun l => (l.pid, l.start)
  fresh : ∀ pr ∈ procs, pr.reaped = false ∧ pr.how = ""
  belongs : ∀ l ∈ ws, l.id = id ∧ l.call = call ∧ l.jobMeta = m
  index : ws.map (·.chunkIndex) = List.range' i ws.length
  ranges : ws.map (fun l => (⟨l.offset, l.length⟩ : ByteRange)) = ranges
  newer : ∀ l ∈ ws, log.length ≤ l.child
  children : (ws.map (·.child)).Nodup
  status : ∀ child, log'.status child = log.status child
  reaped : ∀ child, log'.Reaped child ↔ log.Reaped child

theorem Forked.workers {id call i : ℕ} {m : Meta} {ranges : List ByteRange}
    {procs : List ProcRef} (h : Forked id call m i ranges log procs log') :
    ∃ ws, Crewed id call m i ranges log procs log' ws := by
  induction h with
  | nil => exact ⟨[], rfl, rfl, rfl, rfl, by simp, by simp, rfl, rfl, by simp, List.nodup_nil,
      fun _ => rfl, fun _ => Iff.rfl⟩
  | @cons i range ranges log log' pid start grouped procs _ _ _ ih =>
    obtain ⟨ws, hws⟩ := ih
    have hnewer : ∀ l ∈ ws, log.length < l.child := by
      intro l hl
      have := hws.newer l hl
      rw [List.length_cons] at this
      omega
    refine ⟨⟨log.length, call, id, pid, start, m, i, range.offset, range.length⟩ :: ws, ?_, ?_, ?_,
      ?_, ?_, ?_, ?_, ?_, ?_, ?_, ?_, ?_⟩
    · rw [hws.launches, List.reverse_cons, List.append_assoc]
      rfl
    · rw [hws.forks, List.reverse_cons, List.append_assoc]
      rfl
    · rw [List.map_cons, List.map_cons, hws.pairs]
    · rw [List.map_cons, List.map_cons, hws.starts]
    · intro pr hpr
      rcases List.mem_cons.mp hpr with rfl | hpr
      · exact ⟨rfl, rfl⟩
      · exact hws.fresh pr hpr
    · intro l hl
      rcases List.mem_cons.mp hl with rfl | hl
      · exact ⟨rfl, rfl, rfl⟩
      · exact hws.belongs l hl
    · rw [List.map_cons, hws.index, List.length_cons, List.range'_succ]
    · rw [List.map_cons, hws.ranges]
    · intro l hl
      rcases List.mem_cons.mp hl with rfl | hl
      · exact le_rfl
      · exact le_of_lt (hnewer l hl)
    · rw [List.map_cons, List.nodup_cons]
      refine ⟨fun hmem => ?_, hws.children⟩
      obtain ⟨l, hl, hchild⟩ := List.mem_map.mp hmem
      have := hnewer l hl
      dsimp only at hchild
      omega
    · exact hws.status
    · intro child
      rw [hws.reaped]
      simp [Log.Reaped]

/-- The fork loop gives the children their numbers. -/
theorem Forked.childOk {id call i : ℕ} {m : Meta} {ranges : List ByteRange}
    {procs : List ProcRef} (h : Forked id call m i ranges log procs log')
    (hcall : call ≤ log.length) (hall : History.All ChildOk log) : History.All ChildOk log' := by
  induction h with
  | nil => exact hall
  | cons hpid hpos _ ih =>
    refine ih ?_ ⟨⟨rfl, hcall, hpos, hpid⟩, hall⟩
    rw [List.length_cons]
    omega

/-- Killing and reaping children that have been forked and have not ended. -/
theorem killedLog_childOk {procs : List ProcRef} (hnodup : (procs.map (·.child)).Nodup)
    (hforked : ∀ pr ∈ procs, ∃ l ∈ log.forks, l.child = pr.child)
    (hstatus : ∀ pr ∈ procs, log.status pr.child = none ∧ ¬ log.Reaped pr.child)
    (hall : History.All ChildOk log) : History.All ChildOk (killedLog procs log) := by
  induction procs generalizing log with
  | nil => exact hall
  | cons pr procs ih =>
    rw [List.map_cons, List.nodup_cons] at hnodup
    obtain ⟨l, hl, hchild⟩ := hforked pr List.mem_cons_self
    obtain ⟨hs, hr⟩ := hstatus pr List.mem_cons_self
    have hne : ∀ pr' ∈ procs, pr.child ≠ pr'.child := by
      intro pr' hpr' heq
      exact hnodup.1 (heq ▸ List.mem_map_of_mem hpr')
    apply ih hnodup.2
    · exact fun pr' hpr' => hforked pr' (List.mem_cons_of_mem pr hpr')
    · intro pr' hpr'
      obtain ⟨hs', hr'⟩ := hstatus pr' (List.mem_cons_of_mem pr hpr')
      refine ⟨(if_neg (hne pr' hpr')).trans hs', ?_⟩
      simpa [Log.Reaped, (hne pr' hpr').symm] using hr'
    · refine ⟨⟨⟨l, hl, hchild⟩, ?_, ?_⟩, ⟨⟨l, Log.forks_subset hl, hchild⟩, hs⟩, trivial, hall⟩
      · rw [Log.status, if_pos rfl]
        exact Option.some_ne_none _
      · simpa [Log.Reaped] using hr

/-! ## Steps -/

variable {o : Oracle} {g : Guard}

theorem childOk_saved {id : ℕ} {m : Meta} (h : Saved o log id m log') (hall : History.All ChildOk log) :
    History.All ChildOk log' := by
  cases h with
  | written => exact ⟨trivial, hall⟩
  | lost => exact ⟨trivial, hall⟩

theorem childOk_signals (job : LiveJob) (sig : ℕ) (hall : History.All ChildOk log) :
    History.All ChildOk ((signalEffects job sig).reverse ++ log) := by
  refine History.all_append (fun e he _ _ => ?_) hall
  obtain ⟨_, _, rfl⟩ := List.mem_map.mp (List.mem_reverse.mp he)
  trivial

theorem Persisted.childOk {id : ℕ} {m m' : Meta} {state state' : String}
    {result : Except String String} {write : Option WriteAnswer}
    (h : Persisted o id m state log result m' state' write log')
    (hall : History.All ChildOk log) : History.All ChildOk log' := by
  cases h with
  | failed => exact hall
  | silent => exact hall
  | written _ hsave => exact ⟨trivial, childOk_saved hsave hall⟩
  | @unwritten _ _ visible _ _ hsave =>
    cases visible
    · exact childOk_saved hsave hall
    · exact ⟨trivial, childOk_saved hsave hall⟩

theorem Finish.childOk {id : ℕ} {job : LiveJob} {c c' : Controller}
    (h : Finish o id job c log c' log') (hall : History.All ChildOk log) :
    History.All ChildOk log' := by
  cases h with
  | mk _ hpersist hsave => exact ⟨trivial, trivial, childOk_saved hsave (hpersist.childOk hall)⟩

theorem Zombie.childOk {c : Controller} {l : Launch} {status : WaitStatus}
    (h : Zombie g c log l status) : ChildOk (.reap l.child) log :=
  ⟨⟨l, h.forked, rfl⟩, by rw [h.ended]; exact Option.some_ne_none _, h.unreaped⟩

/-- **Every step gives each child its own number and its own end.** -/
theorem Step.children {id : ℕ} {v v' : View} (h : Step o g id v v') (hall : History.All ChildOk v.log) :
    History.All ChildOk v'.log := by
  cases h with
  | started => exact hall
  | recoverFail _ _ _ hkills hsave =>
    refine childOk_saved hsave (History.all_append (fun e he _ _ => ?_) hall)
    obtain ⟨_, _, rfl⟩ := hkills e he
    trivial
  | cancelLate _ _ _ _ hsave => exact childOk_saved hsave hall
  | reject _ _ _ _ _ hsave => exact childOk_saved hsave hall
  | enter _ _ _ _ _ _ hsave => exact ⟨trivial, childOk_saved hsave hall⟩
  | launchFail _ _ _ hsave _ => exact ⟨trivial, childOk_saved hsave hall⟩
  | @launchSpawnFail c log log₁ log₂ log' id n job m m' procs _ _ _ _ _ t hstart hfork hsave =>
    obtain ⟨ws, hws⟩ := hfork.workers
    have hlen : log.length ≤ log₁.length := by cases hstart <;> simp
    have hall₁ := childOk_saved hstart hall
    have hall₂ := hfork.childOk hlen hall₁
    have hchildren : procs.map (·.child) = ws.map (·.child) := by
      have := congrArg (List.map Prod.fst) hws.pairs
      simpa [List.map_map, Function.comp_def] using this
    have hmem : ∀ pr ∈ procs, ∃ l ∈ ws, l.child = pr.child := by
      intro pr hpr
      have hin : pr.child ∈ procs.map (·.child) := List.mem_map_of_mem hpr
      rw [hchildren] at hin
      exact List.mem_map.mp hin
    refine ⟨trivial, childOk_saved hsave (killedLog_childOk (hchildren ▸ hws.children) ?_ ?_ hall₂)⟩
    · intro pr hpr
      obtain ⟨l, hl, hchild⟩ := hmem pr hpr
      refine ⟨l, ?_, hchild⟩
      rw [hws.forks]
      exact List.mem_append_left _ (List.mem_reverse.mpr hl)
    · intro pr hpr
      obtain ⟨l, hl, hchild⟩ := hmem pr hpr
      rw [hws.status, hws.reaped, ← hchild]
      exact fresh_child hall₁ (hws.newer l hl)
  | @launch c log log₁ log₂ log' id call job m procs deadlineId t _ bytes t' _ _ hstart hfork hrun =>
    have hlen : log.length ≤ log₁.length := by cases hstart <;> simp
    exact childOk_saved hrun (hfork.childOk hlen (childOk_saved hstart hall))
  | cancelNothing => exact ⟨trivial, hall⟩
  | cancelRecord _ _ _ hsave => exact ⟨trivial, childOk_saved hsave hall⟩
  | cancelQueued _ _ hsave => exact ⟨trivial, trivial, childOk_saved hsave hall⟩
  | cancelRunning => exact ⟨trivial, hall⟩
  | stop => exact childOk_signals _ _ ⟨trivial, hall⟩
  | stopAgain => exact ⟨trivial, hall⟩
  | escalate => exact childOk_signals _ _ hall
  | shutdown => exact hall
  | reapUnknown hzombie => exact ⟨hzombie.childOk, hall⟩
  | reapSome hzombie => exact ⟨hzombie.childOk, hall⟩
  | reapBad hzombie => exact childOk_signals _ _ ⟨trivial, hzombie.childOk, hall⟩
  | reapLast hzombie _ _ _ _ _ hfinish => exact hfinish.childOk ⟨hzombie.childOk, hall⟩
  | reapLastBad hzombie _ _ _ _ _ _ hfinish =>
    exact hfinish.childOk ⟨trivial, hzombie.childOk, hall⟩
  | workerExit hlaunch halive => exact ⟨⟨⟨_, hlaunch, rfl⟩, halive⟩, hall⟩
  | workerOutput hlaunch halive => exact ⟨⟨_, hlaunch, rfl, rfl, halive⟩, hall⟩
  | memberSpawned => exact ⟨trivial, hall⟩
  | memberGone => exact ⟨trivial, hall⟩
  | workerRegion hlaunch halive hf =>
    rcases hf with ⟨chunk, hindex, rfl, -⟩ | ⟨rfl, -⟩
    · exact ⟨⟨_, hlaunch, rfl, hindex, halive⟩, hall⟩
    · exact ⟨⟨_, hlaunch, rfl, halive⟩, hall⟩
  | record => exact ⟨trivial, hall⟩

end Forge
