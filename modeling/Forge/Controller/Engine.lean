import Forge.Controller.Effects
import Forge.Controller.Workers
import Forge.Worker.Entry

/-!
# The controller and its workers together

`Engine` runs the controller of `Forge.Controller.Handlers` with workers that do
what `worker_entry` does, one act at a time and in any order with each other and
with the controller. A worker may be killed between any two of its acts.

* `run_world`: the controller's side of a run is a run of `World.step`.
* `Working.step`: the log has, of each worker, the first acts of its program.
-/

namespace Forge

/-! ## The system -/

/-- The controller with the world outside, and how many acts each child has done. -/
structure Engine where
  world : World
  pc : ℕ → ℕ

/-- What can happen next. -/
inductive EngineEvent where
  /-- Something that is not done by a worker, or a crash of the controller. -/
  | world (e : Event)
  /-- The worker does its next act. -/
  | work (child : ℕ)
  /-- A signal ends the worker. -/
  | killed (child signal : ℕ) (dumped : Bool)
  /-- The program that has replaced the worker's image ends. -/
  | quit (child status : ℕ)

/-- Only a worker can do this. -/
def Input.byWorker : Input → Bool
  | .exit _ _ => true
  | .slot _ _ => true
  | .bump _ => true
  | .output _ _ => true
  | _ => false

/-- The act as an input of the world; the controller only reads its wake fd empty
    (controller.cpp:666-682), and a new image does nothing by itself. -/
def WorkerAct.input (child : ℕ) : WorkerAct → Option Input
  | .slot chunk => some (.slot child chunk)
  | .bump => some (.bump child)
  | .wake => none
  | .output body => some (.output child body)
  | .image => none
  | .exit status => some (.exit child (.exited status))

def signalStatus (signal : ℕ) (dumped : Bool) : WaitStatus :=
  if dumped then .dumped signal else .killed signal

namespace Engine

def start (slots : ℕ) : Engine := ⟨World.start slots, fun _ => 0⟩

variable (o : Oracle) (env : Launch → WorkerEnv)

/-- What the worker's program does in all. -/
def program (l : Launch) : List WorkerAct := workerEntry (env l) l

/-- One act of a worker. -/
def act (s : Engine) (child : ℕ) (act : WorkerAct) : Engine where
  world := match act.input child with
    | none => s.world
    | some input => handle o s.world input
  pc := Function.update s.pc child (s.pc child + 1)

def step (s : Engine) : EngineEvent → Engine
  | .world e => if e.input.byWorker then s else { s with world := s.world.step o e }
  | .work child =>
    match s.world.worker child with
    | none => s
    | some l =>
      match (program env l)[s.pc child]? with
      | none => s
      | some a => s.act o child a
  | .killed child signal dumped =>
    { s with world := handle o s.world (.exit child (signalStatus signal dumped)) }
  | .quit child status =>
    match s.world.worker child with
    | none => s
    | some l =>
      if (program env l).take (s.pc child) = [.image] then
        { s with world := handle o s.world (.exit child (.exited status)) }
      else s

end Engine

variable {o : Oracle} {env : Launch → WorkerEnv} {log log' : Log}

/-- An event of the system is at most one event of the world, the same or a worker's. -/
theorem Engine.step_event (s : Engine) (e : EngineEvent) :
    (s.step o env e).world = s.world ∨
      ∃ e' : Event, (s.step o env e).world = s.world.step o e' ∧
        (e = .world e' ∨ ∃ input : Input, e' = .handled input ∧ input.byWorker = true) := by
  cases e with
  | world e =>
    simp only [Engine.step]
    split_ifs
    · exact Or.inl rfl
    · exact Or.inr ⟨e, rfl, Or.inl rfl⟩
  | work child =>
    simp only [Engine.step]
    split
    · exact Or.inl rfl
    · split
      · exact Or.inl rfl
      · next a _ =>
        simp only [Engine.act]
        split
        · exact Or.inl rfl
        · next input hinput =>
          refine Or.inr ⟨.handled input, rfl, Or.inr ⟨input, rfl, ?_⟩⟩
          cases a <;> cases hinput <;> rfl
  | killed child signal dumped =>
    exact Or.inr ⟨.handled (.exit child (signalStatus signal dumped)), rfl, Or.inr ⟨_, rfl, rfl⟩⟩
  | quit child status =>
    simp only [Engine.step]
    split
    · exact Or.inl rfl
    · split_ifs
      · exact Or.inr ⟨.handled (.exit child (.exited status)), rfl, Or.inr ⟨_, rfl, rfl⟩⟩
      · exact Or.inl rfl

theorem Engine.step_world (s : Engine) (e : EngineEvent) :
    (s.step o env e).world = s.world ∨
      ∃ e' : Event, (s.step o env e).world = s.world.step o e' :=
  (Engine.step_event s e).imp_right fun ⟨e', h, _⟩ => ⟨e', h⟩

/-- **The controller's side of a run is a run of the controller.** -/
theorem Engine.run_world (o : Oracle) (env : Launch → WorkerEnv) (slots : ℕ)
    (es : List EngineEvent) :
    ∃ events, (Machine.run (Engine.step o env) (Engine.start slots) es).world =
      Machine.run (World.step o) (World.start slots) events := by
  refine Machine.run_always (P := fun s : Engine => ∃ events,
    s.world = Machine.run (World.step o) (World.start slots) events) (fun s e hs => ?_) es ⟨[], rfl⟩
  obtain ⟨events, hevents⟩ := hs
  rcases @Engine.step_world o env s e with h | ⟨e', h⟩
  · exact ⟨events, h.trans hevents⟩
  · refine ⟨events ++ [e'], ?_⟩
    rw [h, hevents, Machine.run_append]
    rfl

/-! ## What the log has of a worker -/

/-- Which worker did this, and what. -/
def Effect.deed? : Effect → Option (ℕ × WorkerAct)
  | .slot child chunk => some (child, .slot chunk)
  | .bump child => some (child, .bump)
  | .copied child _ body => some (child, .output body)
  | .exit child (.exited status) => some (child, .exit status)
  | _ => none

/-- The acts of the child, newest first. -/
def Log.deeds (log : Log) (child : ℕ) : List WorkerAct :=
  log.filterMap fun e => (e.deed?.filter (·.1 = child)).map (·.2)

/-- The act is one that the log shows. -/
def WorkerAct.shown : WorkerAct → Bool
  | .wake => false
  | .image => false
  | _ => true

theorem Log.deeds_append (new log : Log) (child : ℕ) :
    Log.deeds (new ++ log) child = Log.deeds new child ++ log.deeds child :=
  List.filterMap_append

theorem Log.deeds_cons_self {e : Effect} {child : ℕ} {a : WorkerAct} (h : e.deed? = some (child, a))
    (log : Log) : Log.deeds (e :: log) child = a :: log.deeds child := by
  simp [Log.deeds, h]

theorem Log.deeds_cons_ne {e : Effect} {child other : ℕ} {a : WorkerAct}
    (h : e.deed? = some (child, a)) (hne : child ≠ other) (log : Log) :
    Log.deeds (e :: log) other = log.deeds other := by
  simp [Log.deeds, h, hne]

theorem Adds.deeds (h : Adds (fun e => e.deed? = none) log log') (child : ℕ) :
    log'.deeds child = log.deeds child := by
  obtain ⟨new, rfl, hnew⟩ := h
  rw [Log.deeds_append]
  have hnil : Log.deeds new child = [] := by
    apply List.filterMap_eq_nil_iff.mpr
    intro e he
    rw [hnew e he]
    rfl
  rw [hnil, List.nil_append]

/-- The controller does no worker's acts. -/
theorem Effect.ByController.deed {e : Effect} (h : e.ByController) : e.deed? = none := by
  cases e with
  | exit child status =>
    have hstatus : status = .killed sigkill := h
    rw [hstatus]
    rfl
  | copied => exact h.elim
  | slot => exact h.elim
  | bump => exact h.elim
  | _ => rfl

/-! ## Who acts -/

theorem worker_some {w : World} {child : ℕ} {l : Launch} (h : w.worker child = some l) :
    w.log.status child = none ∧ l ∈ w.log.launches ∧ l.child = child := by
  unfold World.worker at h
  split_ifs at h with hstatus
  refine ⟨by simpa using hstatus, List.mem_of_find?_eq_some h, ?_⟩
  simpa using List.find?_some h

/-- A child that has ended by itself has done so as its last act. -/
theorem exit_of_status {child status : ℕ} (h : log.status child = some (.exited status)) :
    .exit status ∈ log.deeds child := by
  induction log with
  | nil => cases h
  | cons e log ih =>
    have hrest : Log.status log child = some (.exited status) → .exit status ∈ Log.deeds (e :: log) child := by
      intro h
      rw [← List.singleton_append, Log.deeds_append]
      exact List.mem_append_right _ (ih h)
    cases e with
    | exit c s =>
      by_cases hc : c = child
      · rw [Log.status, if_pos hc] at h
        cases h
        subst hc
        rw [Log.deeds_cons_self (a := .exit status) rfl]
        exact List.mem_cons_self
      · rw [Log.status, if_neg hc] at h
        exact hrest h
    | _ => exact hrest h

/-- A child that has not ended has no exit among its acts. -/
theorem exit_notMem {child : ℕ} (h : log.status child = none) (status : ℕ) :
    .exit status ∉ log.deeds child := by
  induction log with
  | nil => simp [Log.deeds]
  | cons e log ih =>
    cases e with
    | exit c s =>
      by_cases hc : c = child
      · rw [Log.status, if_pos hc] at h
        cases h
      · rw [Log.status, if_neg hc] at h
        cases s with
        | exited n =>
          rw [Log.deeds_cons_ne (a := .exit n) rfl hc]
          exact ih h
        | _ => exact ih h
    | slot c chunk =>
      by_cases hc : c = child
      · subst hc
        rw [Log.deeds_cons_self (a := .slot chunk) rfl]
        simpa using ih h
      · rw [Log.deeds_cons_ne (a := .slot chunk) rfl hc]
        exact ih h
    | bump c =>
      by_cases hc : c = child
      · subst hc
        rw [Log.deeds_cons_self (a := .bump) rfl]
        simpa using ih h
      · rw [Log.deeds_cons_ne (a := .bump) rfl hc]
        exact ih h
    | copied c id body =>
      by_cases hc : c = child
      · subst hc
        rw [Log.deeds_cons_self (a := .output body) rfl]
        simpa using ih h
      · rw [Log.deeds_cons_ne (a := .output body) rfl hc]
        exact ih h
    | _ => exact ih h

/-- Who acts has been forked. -/
theorem launch_of_deed (hall : History.All ChildOk log) {child : ℕ} {a : WorkerAct}
    (h : a ∈ log.deeds child) : ∃ l ∈ log.launches, l.child = child := by
  obtain ⟨e, he, hdeed⟩ := List.mem_filterMap.mp h
  obtain ⟨new, past, rfl⟩ := List.append_of_mem he
  have hok : ChildOk e past := hall.at ⟨new, rfl⟩
  have hmem : (∃ l ∈ Log.launches past, l.child = child) → ∃ l ∈ Log.launches (new ++ e :: past),
      l.child = child := fun ⟨l, hl, hchild⟩ =>
    ⟨l, Log.mem_launches_suffix ⟨new ++ [e], by simp⟩ hl, hchild⟩
  have hchild : ∀ {c : ℕ} {a' : WorkerAct}, e.deed? = some (c, a') → c = child := by
    intro c a' heq
    simp only [heq, Option.filter] at hdeed
    split_ifs at hdeed with hc
    · simpa using hc
    · cases hdeed
  cases e with
  | slot c chunk =>
    cases hchild (c := c) rfl
    obtain ⟨l, hl, heq, -⟩ := hok
    exact hmem ⟨l, hl, heq⟩
  | bump c =>
    cases hchild (c := c) rfl
    obtain ⟨l, hl, heq, -⟩ := hok
    exact hmem ⟨l, hl, heq⟩
  | copied c id body =>
    cases hchild (c := c) rfl
    obtain ⟨l, hl, heq, -⟩ := hok
    exact hmem ⟨l, hl, heq⟩
  | exit c s =>
    cases s with
    | exited n =>
      cases hchild (c := c) rfl
      exact hmem hok.1
    | _ => cases hdeed
  | _ => cases hdeed

/-- A launch that is not in the past is one of a new child. -/
theorem launch_new {new : List Effect} (hall : History.All ChildOk (new ++ log)) {l : Launch}
    (hl : l ∈ Log.launches (new ++ log)) : l ∈ log.launches ∨ log.length ≤ l.child := by
  induction new with
  | nil => exact Or.inl hl
  | cons e new ih =>
    cases e with
    | fork l' =>
      rcases List.mem_cons.mp hl with rfl | hl
      · right
        exact hall.1.1 ▸ (List.suffix_append new log).length_le
      · exact ih hall.2 hl
    | _ => exact ih hall.2 hl

/-! ## The invariant -/

/-- What the log has of each worker is how far it has come in its program. A
    worker that has become another program may have ended as it likes. -/
structure Working (env : Launch → WorkerEnv) (s : Engine) : Prop where
  fresh : ∀ child, s.world.log.length ≤ child → s.pc child = 0
  deeds : ∀ l ∈ s.world.log.launches,
    s.world.log.deeds l.child =
        (((Engine.program env l).take (s.pc l.child)).filter (·.shown)).reverse ∨
      ((Engine.program env l).take (s.pc l.child) = [.image] ∧
        ∃ status, s.world.log.deeds l.child = [.exit status])

/-- Effects that are no worker's leave the workers where they are. -/
theorem Working.adds {s : Engine} {w : World} (hs : Working env s)
    (hall : History.All ChildOk w.log) (h : Adds (fun e => e.deed? = none) s.world.log w.log) :
    Working env { s with world := w } := by
  constructor
  · intro child hle
    exact hs.fresh child (h.suffix.length_le.trans hle)
  · intro l hl
    dsimp only at hl ⊢
    rw [h.deeds]
    obtain ⟨new, hlog, -⟩ := h
    rw [hlog] at hl hall
    rcases launch_new hall hl with hl | hnew
    · exact hs.deeds l hl
    · left
      have hnil : s.world.log.deeds l.child = [] := by
        apply List.eq_nil_iff_forall_not_mem.mpr
        intro a ha
        obtain ⟨l', hl', hchild⟩ := launch_of_deed (hall.suffix (List.suffix_append _ _)) ha
        have := (launch_child_lt (hall.suffix (List.suffix_append _ _)) hl').1
        omega
      rw [hnil, hs.fresh l.child hnew]
      rfl

/-- A crash leaves a part of what handling the input would have added. -/
theorem World.step_adds {P : Effect → Prop} (hdied : P .died) {w : World} {e : Event}
    (h : Adds P w.log (handle o w e.input).log) : Adds P w.log (w.step o e).log := by
  cases e with
  | handled input => exact h
  | crash input kept slots =>
    obtain ⟨new, hlog, hnew⟩ := h
    refine ⟨.died :: new.drop ((new ++ w.log).length - w.log.length - kept), ?_, ?_⟩
    · change (handle o w input).log = new ++ w.log at hlog
      simp only [World.step, hlog]
      rw [List.cons_append, ← List.drop_append_of_le_length]
      rw [List.length_append]
      omega
    · intro e he
      rcases List.mem_cons.mp he with rfl | he
      · exact hdied
      · exact hnew e (List.mem_of_mem_drop he)

/-- What is not done by a worker adds no worker's acts. -/
theorem World.step_deedless (w : World) {e : Event} (h : e.input.byWorker = false) :
    Adds (fun e => e.deed? = none) w.log (w.step o e).log := by
  have hhandle : Adds (fun e => e.deed? = none) w.log (handle o w e.input).log := by
    cases hout : e.input.outside with
    | false => exact (handle_controls hout w).imp fun _ he => he.deed
    | true =>
      generalize hinput : e.input = input at *
      cases input with
      | spawn child =>
        simp only [handle, spawnMember]
        split
        · exact .refl _
        · split_ifs
          · exact (Adds.refl w.log).cons rfl
          · exact .refl _
      | gone d => exact (Adds.refl w.log).cons rfl
      | record id m =>
        simp only [handle]
        split_ifs
        · exact (Adds.refl w.log).cons rfl
        · exact .refl _
      | exit => cases h
      | slot => cases h
      | bump => cases h
      | output => cases h
      | _ => cases hout
  exact World.step_adds (P := fun e => e.deed? = none) rfl hhandle

/-- What the log has after an act of a worker. -/
theorem Engine.act_log {s : Engine} {l : Launch} {a : WorkerAct} (hw : s.world.worker l.child = some l)
    (hown : ∀ chunk, a = .slot chunk → chunk.index = l.chunkIndex) :
    (s.act o l.child a).world.log.launches = s.world.log.launches ∧
      (s.act o l.child a).world.log.length ≥ s.world.log.length ∧
      (s.act o l.child a).world.log.deeds l.child =
        (if a.shown then [a] else []) ++ s.world.log.deeds l.child ∧
      ∀ other, other ≠ l.child →
        (s.act o l.child a).world.log.deeds other = s.world.log.deeds other := by
  cases a with
  | slot chunk =>
    have hlog : (s.act o l.child (.slot chunk)).world.log = .slot l.child chunk :: s.world.log := by
      simp only [Engine.act, WorkerAct.input, handle, workerStep, hw, World.push, updateRegion]
      rw [if_pos (hown chunk rfl)]
      split
      · rfl
      · split_ifs <;> rfl
    rw [hlog]
    exact ⟨rfl, by simp, Log.deeds_cons_self rfl _,
      fun other hne => Log.deeds_cons_ne rfl (Ne.symm hne) _⟩
  | bump =>
    have hlog : (s.act o l.child .bump).world.log = .bump l.child :: s.world.log := by
      simp only [Engine.act, WorkerAct.input, handle, workerStep, hw, World.push, updateRegion]
      split
      · rfl
      · split_ifs <;> rfl
    rw [hlog]
    exact ⟨rfl, by simp, Log.deeds_cons_self rfl _,
      fun other hne => Log.deeds_cons_ne rfl (Ne.symm hne) _⟩
  | output body =>
    have hlog : (s.act o l.child (.output body)).world.log =
        .copied l.child l.id body :: s.world.log := by
      simp only [Engine.act, WorkerAct.input, handle, workerStep, hw, World.push]
    rw [hlog]
    exact ⟨rfl, by simp, Log.deeds_cons_self rfl _,
      fun other hne => Log.deeds_cons_ne rfl (Ne.symm hne) _⟩
  | exit status =>
    have hlog : (s.act o l.child (.exit status)).world.log =
        .exit l.child (.exited status) :: s.world.log := by
      simp only [Engine.act, WorkerAct.input, handle, workerStep, hw, World.push]
    rw [hlog]
    exact ⟨rfl, by simp, Log.deeds_cons_self rfl _,
      fun other hne => Log.deeds_cons_ne rfl (Ne.symm hne) _⟩
  | wake => exact ⟨rfl, le_refl _, rfl, fun _ _ => rfl⟩
  | image => exact ⟨rfl, le_refl _, rfl, fun _ _ => rfl⟩

/-- Every slot in a worker's program is its own. -/
theorem program_slot {l : Launch} {chunk : ChunkResult} (h : .slot chunk ∈ Engine.program env l) :
    OwnSlot l chunk := by
  by_cases hop : l.jobMeta.op = "exec"
  · rcases workerEntry_exec (env l) hop with heq | ⟨status, -, heq⟩
    · rw [Engine.program, heq] at h
      simp at h
    · rw [Engine.program, heq] at h
      simp at h
  · obtain ⟨before, chunk', last, heq, hbefore, hown, hpub⟩ := workerEntry_acts (env l) hop
    rw [Engine.program, heq] at h
    have hlast : .slot chunk ∈ last := by
      rcases hbefore with rfl | ⟨body, rfl⟩ <;> simpa using h
    cases hpub with
    | silent => simp at hlast
    | good =>
      have : chunk = chunk' := by simpa [deliver, publishChunk] using hlast
      exact this ▸ hown
    | bad =>
      have : chunk = chunk' := by simpa [publishChunk] using hlast
      exact this ▸ hown

/-- **Every event keeps the workers to their programs.** -/
theorem Working.step {s : Engine} (hs : Working env s) (hall : History.All ChildOk s.world.log)
    (e : EngineEvent) (hall' : History.All ChildOk (s.step o env e).world.log) :
    Working env (s.step o env e) := by
  cases e with
  | world e =>
    simp only [Engine.step] at hall' ⊢
    split_ifs at hall' ⊢ with hby
    · exact hs
    · exact hs.adds hall' (World.step_deedless _ (by simpa using hby))
  | killed child signal dumped =>
    refine hs.adds hall' ?_
    simp only [handle, workerStep]
    split
    · exact .refl _
    · refine (Adds.refl _).cons ?_
      unfold signalStatus
      split_ifs <;> rfl
  | quit child status =>
    simp only [Engine.step] at hall' ⊢
    split
    · exact hs
    · next l hw =>
      obtain ⟨hstatus, hl, rfl⟩ := worker_some hw
      split_ifs with himage
      · have hlog : (handle o s.world (.exit l.child (.exited status))).log =
            .exit l.child (.exited status) :: s.world.log := by
          simp only [handle, workerStep, hw, World.push]
        constructor
        · intro child hle
          dsimp only at hle
          rw [hlog, List.length_cons] at hle
          exact hs.fresh child (by omega)
        · intro l' hl'
          dsimp only at hl' ⊢
          rw [hlog] at hl' ⊢
          by_cases hchild : l'.child = l.child
          · have heq : l' = l := launch_unique hall hl hl' hchild
            subst heq
            right
            refine ⟨himage, status, ?_⟩
            rw [Log.deeds_cons_self (a := .exit status) rfl]
            rcases hs.deeds l' hl with hdeeds | ⟨-, status', hdeeds⟩
            · rw [hdeeds, himage]
              rfl
            · exact absurd (hdeeds ▸ List.mem_singleton.mpr rfl) (exit_notMem hstatus status')
          · rw [Log.deeds_cons_ne (a := .exit status) rfl (Ne.symm hchild)]
            exact hs.deeds l' hl'
      · exact hs
  | work child =>
    simp only [Engine.step] at hall' ⊢
    split
    · exact hs
    · next l hw =>
      obtain ⟨hstatus, hl, rfl⟩ := worker_some hw
      split
      · exact hs
      · next a ha =>
        have hown : ∀ chunk, a = .slot chunk → chunk.index = l.chunkIndex := by
          rintro chunk rfl
          exact (program_slot (List.mem_of_getElem? ha)).index
        obtain ⟨hlaunches, hlen, hself, hothers⟩ := Engine.act_log (o := o) hw hown
        have hlt : l.child < s.world.log.length := (launch_child_lt hall hl).1
        have hpc : ∀ other, other ≠ l.child → (s.act o l.child a).pc other = s.pc other :=
          fun other hne => Function.update_of_ne hne _ _
        constructor
        · intro child hle
          have hle : s.world.log.length ≤ child := le_trans hlen hle
          rw [hpc child (by omega)]
          exact hs.fresh child hle
        · intro l' hl'
          rw [hlaunches] at hl'
          by_cases hchild : l'.child = l.child
          · have heq : l' = l := launch_unique hall hl hl' hchild
            subst heq
            have hdeeds : s.world.log.deeds l'.child =
                (((Engine.program env l').take (s.pc l'.child)).filter (·.shown)).reverse := by
              rcases hs.deeds l' hl with hdeeds | ⟨-, status, hdeeds⟩
              · exact hdeeds
              · exact absurd (hdeeds ▸ List.mem_singleton.mpr rfl) (exit_notMem hstatus status)
            left
            have hnext : (s.act o l'.child a).pc l'.child = s.pc l'.child + 1 :=
              Function.update_self _ _ _
            have htake : (Engine.program env l').take (s.pc l'.child + 1) =
                (Engine.program env l').take (s.pc l'.child) ++ [a] := by
              rw [List.take_add_one, ha]
              rfl
            rw [hself, hdeeds, hnext, htake, List.filter_append, List.reverse_append]
            congr 1
            cases hshown : a.shown <;> simp [hshown]
          · rw [hpc _ hchild, hothers _ hchild]
            exact hs.deeds l' hl'

/-- In every reachable state the workers keep to their programs. -/
theorem run_working (o : Oracle) (env : Launch → WorkerEnv) (slots : ℕ) (es : List EngineEvent) :
    Working env (Machine.run (Engine.step o env) (Engine.start slots) es) := by
  induction es using List.reverseRecOn with
  | nil => exact ⟨fun _ _ => rfl, by simp [Engine.start, World.start, Log.launches]⟩
  | append_singleton es e ih =>
    have hcrew : ∀ es, History.All ChildOk
        (Machine.run (Engine.step o env) (Engine.start slots) es).world.log := by
      intro es
      obtain ⟨events, hrun⟩ := Engine.run_world o env slots es
      rw [hrun]
      exact (run_crew (along_any _ events)).children
    rw [Machine.run_append]
    refine ih.step (hcrew es) e ?_
    have := hcrew (es ++ [e])
    rwa [Machine.run_append] at this

end Forge
