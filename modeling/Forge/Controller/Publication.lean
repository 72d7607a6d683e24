import Forge.Controller.Engine
import Forge.Controller.Verdict

/-!
# The slots of the shared region

`publish_chunk` (worker.cpp:516-534) stores a slot and then increments
`chunks_done`; the controller trusts the count. `InTurn` lists how far a worker
of a built-in operation can have come, and the region is read off the workers.

* `Working.inTurn`: every such worker is somewhere in its turn.
* `bumps_le`, `card_le_bumps`, `slots_of_stored`: what the region holds.
* `slots_published`: what a count, an exit and a good result stand for.
-/

namespace Forge

variable {o : Oracle} {env : Launch → WorkerEnv} {log log' : Log}

/-! ## One worker -/

/-- The acts of a worker of a built-in operation so far, newest first. -/
inductive InTurn (l : Launch) : List WorkerAct → Prop
  | before {acts : List WorkerAct} (hcopied : Copied acts) : InTurn l acts
  | stored {chunk : ChunkResult} {acts : List WorkerAct} (hown : OwnSlot l chunk)
      (hcopied : Copied acts) : InTurn l (.slot chunk :: acts)
  | counted {chunk : ChunkResult} {acts : List WorkerAct} (hown : OwnSlot l chunk)
      (hcopied : Copied acts) : InTurn l (.bump :: .slot chunk :: acts)
  | succeeded {chunk : ChunkResult} {acts : List WorkerAct} (hown : OwnSlot l chunk)
      (hok : chunk.ok = 1) (hcopied : Copied acts) :
      InTurn l (.exit 0 :: .bump :: .slot chunk :: acts)
  | failed {chunk : ChunkResult} {acts : List WorkerAct} (hown : OwnSlot l chunk)
      (hok : chunk.ok = 0) (hcopied : Copied acts) :
      InTurn l (.exit 1 :: .bump :: .slot chunk :: acts)
  | silent {acts : List WorkerAct} (hcopied : Copied acts) : InTurn l (.exit 1 :: acts)

/-- The slot that the act stores. -/
def WorkerAct.slot? : WorkerAct → Option ChunkResult
  | .slot chunk => some chunk
  | _ => none

theorem Copied.suffix {acts acts' : List WorkerAct} (h : Copied acts) (hsuf : acts' <:+ acts) :
    Copied acts' := by
  rcases h with rfl | ⟨body, rfl⟩
  · exact Or.inl (List.suffix_nil.mp hsuf)
  · rcases List.suffix_cons_iff.mp hsuf with rfl | hsuf
    · exact Or.inr ⟨body, rfl⟩
    · exact Or.inl (List.suffix_nil.mp hsuf)

/-- A worker that has done a part of its acts is in its turn. -/
theorem InTurn.suffix {l : Launch} {acts acts' : List WorkerAct} (h : InTurn l acts)
    (hsuf : acts' <:+ acts) : InTurn l acts' := by
  have hbefore : ∀ {acts : List WorkerAct}, Copied acts → acts' <:+ acts → InTurn l acts' :=
    fun hcopied hsuf => .before (hcopied.suffix hsuf)
  have hstored : ∀ {chunk : ChunkResult} {acts : List WorkerAct}, OwnSlot l chunk → Copied acts →
      acts' <:+ .slot chunk :: acts → InTurn l acts' := by
    intro chunk acts hown hcopied hsuf
    rcases List.suffix_cons_iff.mp hsuf with rfl | hsuf
    · exact .stored hown hcopied
    · exact hbefore hcopied hsuf
  have hcounted : ∀ {chunk : ChunkResult} {acts : List WorkerAct}, OwnSlot l chunk → Copied acts →
      acts' <:+ .bump :: .slot chunk :: acts → InTurn l acts' := by
    intro chunk acts hown hcopied hsuf
    rcases List.suffix_cons_iff.mp hsuf with rfl | hsuf
    · exact .counted hown hcopied
    · exact hstored hown hcopied hsuf
  cases h with
  | before hcopied => exact hbefore hcopied hsuf
  | stored hown hcopied => exact hstored hown hcopied hsuf
  | counted hown hcopied => exact hcounted hown hcopied hsuf
  | succeeded hown hok hcopied =>
    rcases List.suffix_cons_iff.mp hsuf with rfl | hsuf
    · exact .succeeded hown hok hcopied
    · exact hcounted hown hcopied hsuf
  | failed hown hok hcopied =>
    rcases List.suffix_cons_iff.mp hsuf with rfl | hsuf
    · exact .failed hown hok hcopied
    · exact hcounted hown hcopied hsuf
  | silent hcopied =>
    rcases List.suffix_cons_iff.mp hsuf with rfl | hsuf
    · exact .silent hcopied
    · exact hbefore hcopied hsuf

theorem Copied.shown {acts : List WorkerAct} (h : Copied acts) :
    Copied (acts.filter (·.shown)).reverse := by
  rcases h with rfl | ⟨body, rfl⟩
  · exact Or.inl rfl
  · exact Or.inr ⟨body, rfl⟩

/-- A worker that has done all its acts is at the end of its turn. -/
theorem program_inTurn {l : Launch} (hop : l.jobMeta.op ≠ "exec") :
    InTurn l ((Engine.program env l).filter (·.shown)).reverse := by
  obtain ⟨before, chunk, last, heq, hbefore, hown, hpub⟩ := workerEntry_acts (env l) hop
  rw [Engine.program, heq, List.filter_append, List.reverse_append]
  cases hpub with
  | good hok => exact .succeeded hown hok hbefore.shown
  | bad hok => exact .failed hown hok hbefore.shown
  | silent => exact .silent hbefore.shown

/-- **Every worker of a built-in operation is in its turn.** -/
theorem Working.inTurn {s : Engine} (hs : Working env s) {l : Launch}
    (hl : l ∈ s.world.log.launches) (hop : l.jobMeta.op ≠ "exec") :
    InTurn l (s.world.log.deeds l.child) := by
  rcases hs.deeds l hl with hdeeds | ⟨himage, status, hdeeds⟩
  · rw [hdeeds]
    exact (program_inTurn hop).suffix
      (List.reverse_suffix.mpr ((List.take_prefix _ _).filter _))
  · -- a built-in operation never becomes another program
    exfalso
    have hmem : .image ∈ Engine.program env l :=
      List.mem_of_mem_take (himage ▸ List.mem_singleton.mpr rfl)
    obtain ⟨before, chunk, last, heq, hbefore, -, hpub⟩ := workerEntry_acts (env l) hop
    rw [Engine.program, heq] at hmem
    rcases hbefore with rfl | ⟨body, rfl⟩ <;> cases hpub <;> simp [deliver, publishChunk] at hmem

/-- A worker that runs a program stores nothing. -/
theorem Working.exec {s : Engine} (hs : Working env s) {l : Launch}
    (hl : l ∈ s.world.log.launches) (hop : l.jobMeta.op = "exec") :
    s.world.log.deeds l.child = [] ∨ ∃ status, s.world.log.deeds l.child = [.exit status] := by
  rcases hs.deeds l hl with hdeeds | ⟨-, status, hdeeds⟩
  · rw [hdeeds]
    rcases workerEntry_exec (env l) hop with heq | ⟨status, -, heq⟩
    · rw [Engine.program, heq]
      rcases s.pc l.child with _ | n
      · exact Or.inl rfl
      · exact Or.inl (by simp [WorkerAct.shown])
    · rw [Engine.program, heq]
      rcases s.pc l.child with _ | n
      · exact Or.inl rfl
      · exact Or.inr ⟨status, by simp [WorkerAct.shown]⟩
  · exact Or.inr ⟨status, hdeeds⟩

namespace InTurn

variable {l : Launch} {acts : List WorkerAct}

theorem own (h : InTurn l acts) {chunk : ChunkResult} (hmem : .slot chunk ∈ acts) :
    OwnSlot l chunk := by
  rcases h with hc | ⟨hown, hc⟩ | ⟨hown, hc⟩ | ⟨hown, -, hc⟩ | ⟨hown, -, hc⟩ | hc <;>
    rcases hc with rfl | ⟨body, rfl⟩ <;> simp at hmem <;> exact hmem ▸ hown

/-- A worker stores its slot at most once. -/
theorem once (h : InTurn l acts) : (acts.filter (·.slot?.isSome)).length ≤ 1 := by
  rcases h with hc | ⟨-, hc⟩ | ⟨-, hc⟩ | ⟨-, -, hc⟩ | ⟨-, -, hc⟩ | hc <;>
    rcases hc with rfl | ⟨body, rfl⟩ <;> simp [WorkerAct.slot?]

theorem slot_unique (h : InTurn l acts) {chunk chunk' : ChunkResult} (hmem : .slot chunk ∈ acts)
    (hmem' : .slot chunk' ∈ acts) : chunk = chunk' := by
  rcases h with hc | ⟨-, hc⟩ | ⟨-, hc⟩ | ⟨-, -, hc⟩ | ⟨-, -, hc⟩ | hc <;>
    rcases hc with rfl | ⟨body, rfl⟩ <;> simp at hmem hmem' <;> exact hmem.trans hmem'.symm

/-- A worker counts itself at most once. -/
theorem count_bump_le (h : InTurn l acts) : acts.count .bump ≤ 1 := by
  rcases h with hc | ⟨-, hc⟩ | ⟨-, hc⟩ | ⟨-, -, hc⟩ | ⟨-, -, hc⟩ | hc <;>
    rcases hc with rfl | ⟨body, rfl⟩ <;> simp

/-- A worker that has counted itself has stored its slot. -/
theorem slot_of_bump (h : InTurn l acts) (hbump : .bump ∈ acts) : ∃ chunk, .slot chunk ∈ acts := by
  rcases h with hc | ⟨-, hc⟩ | ⟨-, hc⟩ | ⟨-, -, hc⟩ | ⟨-, -, hc⟩ | hc <;>
    rcases hc with rfl | ⟨body, rfl⟩ <;> simp at hbump ⊢

/-- A worker that has exited with status 0 has published a good slot. -/
theorem good (h : InTurn l acts) (hexit : .exit 0 ∈ acts) :
    ∃ chunk rest, acts = .exit 0 :: .bump :: .slot chunk :: rest ∧ chunk.ok = 1 := by
  rcases h with hc | ⟨-, hc⟩ | ⟨-, hc⟩ | ⟨-, hok, hc⟩ | ⟨-, -, hc⟩ | hc
  case succeeded => exact ⟨_, _, rfl, hok⟩
  all_goals rcases hc with rfl | ⟨body, rfl⟩ <;> simp at hexit

end InTurn

/-! ## The region -/

theorem Log.mem_deeds {child : ℕ} {a : WorkerAct} :
    a ∈ log.deeds child ↔ ∃ e ∈ log, e.deed? = some (child, a) := by
  unfold Log.deeds
  rw [List.mem_filterMap]
  refine exists_congr fun e => and_congr_right fun _ => ?_
  cases e.deed? with
  | none => simp
  | some deed =>
    obtain ⟨c, a'⟩ := deed
    by_cases hc : c = child <;> simp [hc]

theorem Log.slot_mem_deeds {child : ℕ} {chunk : ChunkResult} :
    .slot chunk ∈ log.deeds child ↔ Effect.slot child chunk ∈ log := by
  rw [Log.mem_deeds]
  constructor
  · rintro ⟨e, he, hdeed⟩
    cases e with
    | slot c chunk' =>
      cases hdeed
      exact he
    | exit c status => cases status <;> cases hdeed
    | _ => cases hdeed
  · exact fun h => ⟨_, h, rfl⟩

theorem Log.bump_mem_deeds {child : ℕ} : .bump ∈ log.deeds child ↔ Effect.bump child ∈ log := by
  rw [Log.mem_deeds]
  constructor
  · rintro ⟨e, he, hdeed⟩
    cases e with
    | bump c =>
      cases hdeed
      exact he
    | exit c status => cases status <;> cases hdeed
    | _ => cases hdeed
  · exact fun h => ⟨_, h, rfl⟩

/-- The count is at most the number of the workers that have counted themselves, if each
    has done so once. -/
theorem bumps_le {cs : List ℕ} (h : ∀ c ∈ cs, (log.deeds c).count .bump ≤ 1) :
    log.bumps cs ≤ (cs.toFinset.filter fun c => .bump ∈ log.deeds c).card := by
  induction log with
  | nil => exact Nat.zero_le _
  | cons e log ih =>
    have hsuffix : ∀ c, Log.deeds log c <:+ Log.deeds (e :: log) c := fun c =>
      ⟨Log.deeds [e] c, (Log.deeds_append [e] log c).symm⟩
    have hold := ih fun c hc => ((hsuffix c).sublist.count_le _).trans (h c hc)
    have hmono : (cs.toFinset.filter fun c => .bump ∈ Log.deeds log c) ⊆
        cs.toFinset.filter fun c => .bump ∈ Log.deeds (e :: log) c :=
      Finset.monotone_filter_right _ fun c _ hmem => (hsuffix c).subset hmem
    cases e with
    | bump child =>
      rw [Log.bumps]
      split_ifs with hmem
      · -- the worker had not counted itself before
        have hself := @Log.deeds_cons_self (.bump child) child .bump rfl log
        have hnew : .bump ∉ Log.deeds log child := by
          intro hbump
          have hone := h child hmem
          rw [hself, List.count_cons_self] at hone
          have hpos := List.count_pos_iff.mpr hbump
          omega
        refine Nat.succ_le_of_lt (hold.trans_lt (Finset.card_lt_card ⟨hmono, fun hsub => hnew ?_⟩))
        refine (Finset.mem_filter.mp (hsub (Finset.mem_filter.mpr ⟨List.mem_toFinset.mpr hmem, ?_⟩))).2
        rw [hself]
        exact List.mem_cons_self
      · exact hold.trans (Finset.card_le_card hmono)
    | _ => exact hold.trans (Finset.card_le_card hmono)

/-- The count is at least the number of the workers that have counted themselves. -/
theorem card_le_bumps (cs : List ℕ) :
    (cs.toFinset.filter fun c => .bump ∈ log.deeds c).card ≤ log.bumps cs := by
  induction log with
  | nil => simp [Log.deeds]
  | cons e log ih =>
    -- who is counted now is counted by `e` or was before
    have hcases : ∀ c, .bump ∈ Log.deeds (e :: log) c → e = .bump c ∨ .bump ∈ Log.deeds log c := by
      intro c hc
      rcases List.mem_cons.mp (Log.bump_mem_deeds.mp hc) with heq | hbump
      · exact Or.inl heq.symm
      · exact Or.inr (Log.bump_mem_deeds.mpr hbump)
    have hsub : (∀ c ∈ cs, e ≠ .bump c) → (cs.toFinset.filter fun c =>
        .bump ∈ Log.deeds (e :: log) c).card ≤ Log.bumps log cs := by
      intro hnot
      refine (Finset.card_le_card fun c hc => ?_).trans ih
      obtain ⟨hcs, hbump⟩ := Finset.mem_filter.mp hc
      exact Finset.mem_filter.mpr
        ⟨hcs, (hcases c hbump).resolve_left (hnot c (List.mem_toFinset.mp hcs))⟩
    cases e with
    | bump child =>
      rw [Log.bumps]
      split_ifs with hmem
      · refine le_trans (Finset.card_le_card (t := insert child
          (cs.toFinset.filter fun c => .bump ∈ Log.deeds log c)) fun c hc => ?_)
          ((Finset.card_insert_le _ _).trans (Nat.succ_le_succ ih))
        obtain ⟨hcs, hbump⟩ := Finset.mem_filter.mp hc
        rcases hcases c hbump with heq | hbump
        · cases heq
          exact Finset.mem_insert_self _ _
        · exact Finset.mem_insert_of_mem (Finset.mem_filter.mpr ⟨hcs, hbump⟩)
      · refine hsub fun c hc heq => hmem ?_
        cases heq
        exact hc
    | _ => exact hsub fun c _ heq => by cases heq

/-- A slot that has been stored stays, if no other is stored in its place. -/
theorem slots_of_stored {cs : List ℕ} {child : ℕ} {chunk : ChunkResult} (hchild : child ∈ cs)
    (hslot : Effect.slot child chunk ∈ log)
    (honly : ∀ c ∈ cs, ∀ chunk', Effect.slot c chunk' ∈ log → chunk'.index = chunk.index →
      chunk' = chunk) : log.slots cs chunk.index = chunk := by
  induction log with
  | nil => cases hslot
  | cons e log ih =>
    have hold : Effect.slot child chunk ∈ log → Log.slots log cs chunk.index = chunk := fun hmem =>
      ih hmem fun c hc chunk' hslot' => honly c hc chunk' (List.mem_cons_of_mem e hslot')
    cases e with
    | slot c chunk' =>
      rw [Log.slots]
      split_ifs with hc
      · by_cases hindex : chunk'.index = chunk.index
        · rw [hindex, Function.update_self]
          exact honly c hc chunk' List.mem_cons_self hindex
        · rw [Function.update_of_ne (Ne.symm hindex)]
          refine hold ((List.mem_cons.mp hslot).resolve_left fun heq => hindex ?_)
          cases heq
          rfl
      · refine hold ((List.mem_cons.mp hslot).resolve_left fun heq => hc ?_)
        cases heq
        exact hchild
    | _ => exact hold (by simpa using hslot)

/-! ## Exit texts -/

theorem describeWait_inj_zero {status : WaitStatus} (h : describeWait status = "exited:0") :
    status = .exited 0 := by
  have hchars := congrArg String.toList h
  cases status with
  | exited n =>
    have hdigits : Nat.toDigits 10 n = ['0'] := by
      simpa [describeWait, toString, Nat.repr] using hchars
    have hn := Nat.ofDigitChars_ten_toDigits (n := n)
    rw [hdigits] at hn
    exact congrArg WaitStatus.exited hn.symm
  | killed n => simp [describeWait] at hchars
  | dumped n => simp [describeWait] at hchars
  | other code n => simp [describeWait] at hchars

/-! ## The workers of a job -/

/-- What the texts of a reaped job say of how its workers have ended. -/
theorem Staffed.exits_iff {id call : ℕ} {job : LiveJob} {ws : List Launch}
    (h : Staffed log id job call ws) (hreaped : job.allReaped = true) :
    (∀ pr ∈ job.procs, pr.how = "exited:0") ↔
      ∀ l ∈ ws, log.status l.child = some (.exited 0) := by
  have hdone : ∀ pr ∈ job.procs, ∃ status, log.status pr.child = some status ∧
      pr.how = describeWait status := by
    intro pr hpr
    unfold LiveJob.allReaped at hreaped
    exact (h.done pr hpr (List.all_eq_true.mp hreaped pr hpr)).2
  constructor
  · intro hhow l hl
    obtain ⟨pr, hpr, hchild, -⟩ := h.proc_of_launch hl
    obtain ⟨status, hstatus, hhow'⟩ := hdone pr hpr
    rw [hhow pr hpr] at hhow'
    rwa [describeWait_inj_zero hhow'.symm, hchild] at hstatus
  · intro hexits pr hpr
    obtain ⟨l, hl, hchild, -⟩ := h.launch_of_proc hpr
    obtain ⟨status, hstatus, hhow⟩ := hdone pr hpr
    rw [← hchild, hexits l hl] at hstatus
    cases hstatus
    exact hhow

/-- The workers of a job of a built-in operation, each in its turn. -/
structure Publishing (log : Log) (id : ℕ) (job : LiveJob) (call : ℕ) (ws : List Launch) : Prop where
  staffed : Staffed log id job call ws
  builtin : job.jobMeta.op ≠ "exec"
  turn : ∀ l ∈ ws, InTurn l (log.deeds l.child)

namespace Publishing

variable {id call : ℕ} {job : LiveJob} {ws : List Launch}

theorem shm (h : Publishing log id job call ws) :
    job.shm = some (log.region (ws.map (·.child)) ws.length) :=
  h.staffed.shm.trans (if_neg h.builtin)

/-- The workers have different slots. -/
theorem chunkIndex_inj (h : Publishing log id job call ws) {l l' : Launch} (hl : l ∈ ws)
    (hl' : l' ∈ ws) (hindex : l.chunkIndex = l'.chunkIndex) : l = l' := by
  have hnodup : (ws.map (·.chunkIndex)).Nodup := by
    rw [h.staffed.index]
    exact List.nodup_range
  exact List.inj_on_of_nodup_map hnodup hl hl' hindex

theorem chunkIndex_lt (h : Publishing log id job call ws) {l : Launch} (hl : l ∈ ws) :
    l.chunkIndex < ws.length := by
  have hmem : l.chunkIndex ∈ ws.map (·.chunkIndex) := List.mem_map_of_mem hl
  rwa [h.staffed.index, List.mem_range] at hmem

/-- **A stored slot is the worker's own, and nothing replaces it.** -/
theorem chunk_eq (h : Publishing log id job call ws) {l : Launch} (hl : l ∈ ws)
    {chunk : ChunkResult} (hslot : Effect.slot l.child chunk ∈ log) :
    log.slots (ws.map (·.child)) l.chunkIndex = chunk := by
  have hown := (h.turn l hl).own (Log.slot_mem_deeds.mpr hslot)
  rw [← hown.index]
  refine slots_of_stored (List.mem_map_of_mem hl) hslot fun c hc chunk' hslot' hindex => ?_
  obtain ⟨l', hl', rfl⟩ := List.mem_map.mp hc
  have hown' := (h.turn l' hl').own (Log.slot_mem_deeds.mpr hslot')
  have hsame := h.chunkIndex_inj hl' hl (hown'.index.symm.trans (hindex.trans hown.index))
  subst hsame
  exact (h.turn l' hl).slot_unique (Log.slot_mem_deeds.mpr hslot') (Log.slot_mem_deeds.mpr hslot)

/-- The slots of the workers that have counted themselves. -/
theorem counted (h : Publishing log id job call ws) :
    ∃ S : Finset ℕ, log.bumps (ws.map (·.child)) ≤ S.card ∧ ∀ i ∈ S, ∃ l ∈ ws,
      l.chunkIndex = i ∧ Effect.bump l.child ∈ log := by
  classical
  let counted := ws.toFinset.filter fun l => Effect.bump l.child ∈ log
  have hmem : ∀ l, l ∈ counted ↔ l ∈ ws ∧ Effect.bump l.child ∈ log := by
    intro l
    rw [Finset.mem_filter, List.mem_toFinset]
  have hbumps : log.bumps (ws.map (·.child)) ≤ counted.card := by
    refine (bumps_le fun c hc => ?_).trans
      ((Finset.card_le_card fun c hc => ?_).trans (Finset.card_image_le (f := Launch.child)))
    · obtain ⟨l, hl, rfl⟩ := List.mem_map.mp hc
      exact (h.turn l hl).count_bump_le
    · obtain ⟨hc, hbump⟩ := Finset.mem_filter.mp hc
      obtain ⟨l, hl, rfl⟩ := List.mem_map.mp (List.mem_toFinset.mp hc)
      exact Finset.mem_image_of_mem _ ((hmem l).mpr ⟨hl, Log.bump_mem_deeds.mp hbump⟩)
  refine ⟨counted.image Launch.chunkIndex, ?_, fun i hi => ?_⟩
  · rw [Finset.card_image_of_injOn fun l hl l' hl' hindex =>
      h.chunkIndex_inj ((hmem l).mp hl).1 ((hmem l').mp hl').1 hindex]
    exact hbumps
  · obtain ⟨l, hl, rfl⟩ := Finset.mem_image.mp hi
    exact ⟨l, ((hmem l).mp hl).1, rfl, ((hmem l).mp hl).2⟩

/-- A worker that has counted itself has stored its slot. -/
theorem stored (h : Publishing log id job call ws) {l : Launch} (hl : l ∈ ws)
    (hbump : Effect.bump l.child ∈ log) :
    Effect.slot l.child (log.slots (ws.map (·.child)) l.chunkIndex) ∈ log := by
  obtain ⟨chunk, hchunk⟩ := (h.turn l hl).slot_of_bump (Log.bump_mem_deeds.mpr hbump)
  have hslot := Log.slot_mem_deeds.mp hchunk
  rwa [h.chunk_eq hl hslot]

/-- The worker whose slot has the index. -/
theorem worker (h : Publishing log id job call ws) {i : ℕ} (hi : i < ws.length) :
    ∃ l ∈ ws, l.chunkIndex = i ∧ (launchRanges job.jobMeta)[i]? = some ⟨l.offset, l.length⟩ := by
  refine ⟨ws[i], List.getElem_mem hi, ?_, ?_⟩
  · have hindex : (ws.map (·.chunkIndex))[i]? = (List.range ws.length)[i]? := by
      rw [h.staffed.index]
    rw [List.getElem?_map, List.getElem?_eq_getElem hi, List.getElem?_range hi] at hindex
    exact Option.some.inj hindex
  · rw [← h.staffed.ranges, List.getElem?_map, List.getElem?_eq_getElem hi]
    rfl

/-- The slot of a worker that has published it, as the region has it. -/
structure Slot (log : Log) (job : LiveJob) (shm : SharedRegion) (l : Launch) (i : ℕ) : Prop where
  launched : l ∈ log.launches
  works : l.child ∈ job.procs.map (·.child)
  index : l.chunkIndex = i
  range : (launchRanges job.jobMeta)[i]? = some ⟨(shm.chunks i).offset, (shm.chunks i).length⟩
  stored : Effect.slot l.child (shm.chunks i) ∈ log
  counted : Effect.bump l.child ∈ log

theorem slot (h : Publishing log id job call ws) {l : Launch} (hl : l ∈ ws)
    (hbump : Effect.bump l.child ∈ log) :
    Slot log job (log.region (ws.map (·.child)) ws.length) l l.chunkIndex := by
  have hslot := h.stored hl hbump
  have hown := (h.turn l hl).own (Log.slot_mem_deeds.mpr hslot)
  obtain ⟨l', hl', hindex, hrange⟩ := h.worker (h.chunkIndex_lt hl)
  have hsame : l' = l := h.chunkIndex_inj hl' hl hindex
  subst hsame
  refine ⟨Log.forks_subset (h.staffed.belongs l' hl').1, ?_, rfl, ?_, hslot, hbump⟩
  · rw [h.staffed.children]
    exact List.mem_map_of_mem hl'
  · rw [hrange]
    show _ = some (⟨(log.slots _ _).offset, (log.slots _ _).length⟩ : ByteRange)
    rw [hown.offset, hown.length]

/-- **A count of `k` stands for `k` slots.** -/
theorem published (h : Publishing log id job call ws) :
    log.bumps (ws.map (·.child)) ≤ ws.length ∧
      ∃ S : Finset ℕ, log.bumps (ws.map (·.child)) ≤ S.card ∧ ∀ i ∈ S, i < ws.length ∧
        ∃ l ∈ ws, Slot log job (log.region (ws.map (·.child)) ws.length) l i := by
  obtain ⟨S, hcard, hS⟩ := h.counted
  have hlt : ∀ i ∈ S, i < ws.length := by
    intro i hi
    obtain ⟨l, hl, rfl, -⟩ := hS i hi
    exact h.chunkIndex_lt hl
  refine ⟨hcard.trans ?_, S, hcard, fun i hi => ⟨hlt i hi, ?_⟩⟩
  · have hsub : S ⊆ Finset.range ws.length := fun i hi => Finset.mem_range.mpr (hlt i hi)
    exact (Finset.card_le_card hsub).trans_eq (Finset.card_range _)
  · obtain ⟨l, hl, rfl, hbump⟩ := hS i hi
    exact ⟨l, hl, h.slot hl hbump⟩

/-- A worker that has exited with status 0 has published a good slot. -/
theorem delivered (h : Publishing log id job call ws) {l : Launch} (hl : l ∈ ws)
    (hexit : log.status l.child = some (.exited 0)) :
    Slot log job (log.region (ws.map (·.child)) ws.length) l l.chunkIndex ∧
      (log.slots (ws.map (·.child)) l.chunkIndex).ok = 1 := by
  obtain ⟨chunk, rest, hdeeds, hok⟩ := (h.turn l hl).good (exit_of_status hexit)
  have hbump : Effect.bump l.child ∈ log := Log.bump_mem_deeds.mp (by rw [hdeeds]; simp)
  have hslot : Effect.slot l.child chunk ∈ log := Log.slot_mem_deeds.mp (by rw [hdeeds]; simp)
  refine ⟨h.slot hl hbump, ?_⟩
  rw [h.chunk_eq hl hslot, hok]

/-- If all workers have exited with status 0, all slots hold good results. -/
theorem good (h : Publishing log id job call ws)
    (hexits : ∀ l ∈ ws, log.status l.child = some (.exited 0)) {i : ℕ} (hi : i < ws.length) :
    ∃ l ∈ ws, Slot log job (log.region (ws.map (·.child)) ws.length) l i ∧
      (log.slots (ws.map (·.child)) i).ok = 1 := by
  obtain ⟨l, hl, rfl, -⟩ := h.worker hi
  exact ⟨l, hl, h.delivered hl (hexits l hl)⟩

/-- If all workers have exited with status 0, all have been counted. -/
theorem complete (h : Publishing log id job call ws) (hall : History.All ChildOk log)
    (hexits : ∀ l ∈ ws, log.status l.child = some (.exited 0)) :
    ws.length ≤ log.bumps (ws.map (·.child)) := by
  have hnodup : (ws.map (·.child)).Nodup := by
    refine List.Nodup.map_on (fun l hl l' hl' hchild => ?_) (List.Nodup.of_map (·.pid) h.staffed.pids)
    exact launch_unique hall (Log.forks_subset (h.staffed.belongs l' hl').1)
      (Log.forks_subset (h.staffed.belongs l hl).1) hchild
  have hcounted : (ws.map (·.child)).toFinset.filter (fun c => .bump ∈ log.deeds c) =
      (ws.map (·.child)).toFinset := by
    refine Finset.filter_true_of_mem fun c hc => ?_
    obtain ⟨l, hl, rfl⟩ := List.mem_map.mp (List.mem_toFinset.mp hc)
    exact Log.bump_mem_deeds.mpr (h.delivered hl (hexits l hl)).1.counted
  have hcard := @card_le_bumps log (ws.map (·.child))
  rwa [hcounted, List.toFinset_card_of_nodup hnodup, List.length_map] at hcard

end Publishing

/-! ## Runs -/

theorem World.step_suffix {w : World} (hdown : w.ctl.running = false → w.Down) (e : Event) :
    w.log <:+ (w.step o e).log := by
  have hhandle : w.log <:+ (handle o w e.input).log :=
    (handle_steps hdown (Guard.any_allows w e.input)).keeps
      (P := fun v => w.log <:+ v.log) (fun _ _ _ hv h => hv.trans h.grows.suffix)
      (List.suffix_refl _)
  obtain ⟨new, hnew⟩ := hhandle
  exact (World.step_adds (P := fun _ => True) trivial ⟨new, hnew.symm, fun _ _ => trivial⟩).suffix

/-- The log only grows. -/
theorem run_suffix (o : Oracle) (slots : ℕ) (es es' : List Event) :
    (Machine.run (World.step o) (World.start slots) es).log <:+
      (Machine.run (World.step o) (World.start slots) (es ++ es')).log := by
  induction es' using List.reverseRecOn with
  | nil => rw [List.append_nil]
  | append_singleton es' e ih =>
    rw [← List.append_assoc, Machine.run_append]
    exact ih.trans (World.step_suffix (run_down o slots (es ++ es')) e)

/-- The world goes on as the events of a continuation say. -/
theorem Engine.run_world_append (o : Oracle) (env : Launch → WorkerEnv) (slots : ℕ)
    (es es' : List EngineEvent) : ∃ events events',
      (Machine.run (Engine.step o env) (Engine.start slots) es).world =
        Machine.run (World.step o) (World.start slots) events ∧
      (Machine.run (Engine.step o env) (Engine.start slots) (es ++ es')).world =
        Machine.run (World.step o) (World.start slots) (events ++ events') := by
  obtain ⟨events, hevents⟩ := Engine.run_world o env slots es
  refine ⟨events, ?_⟩
  induction es' using List.reverseRecOn with
  | nil => exact ⟨[], hevents, by rw [List.append_nil, List.append_nil, hevents]⟩
  | append_singleton es' e ih =>
    obtain ⟨events', -, hrun⟩ := ih
    rw [← List.append_assoc, Machine.run_append]
    rcases @Engine.step_world o env
      (Machine.run (Engine.step o env) (Engine.start slots) (es ++ es')) e with h | ⟨e', h⟩
    · exact ⟨events', hevents, h.trans hrun⟩
    · refine ⟨events' ++ [e'], hevents, ?_⟩
      rw [← List.append_assoc, Machine.run_append (World.step o), ← hrun]
      exact h

/-- What holds of the world and of the workers in every reachable state. -/
structure Engine.Sound (o : Oracle) (env : Launch → WorkerEnv) (s : Engine) : Prop where
  working : Working env s
  crew : Crew s.world.view
  verdicts : History.All (VerdictOk o) s.world.log

theorem Engine.run_sound (o : Oracle) (env : Launch → WorkerEnv) (slots : ℕ) (es : List EngineEvent) :
    Engine.Sound o env (Machine.run (Engine.step o env) (Engine.start slots) es) := by
  obtain ⟨events, hrun⟩ := Engine.run_world o env slots es
  have hworld := run_verdicts o slots events
  rw [← hrun] at hworld
  exact ⟨run_working o env slots es, hworld.1, hworld.2⟩

theorem run_log_suffix (o : Oracle) (env : Launch → WorkerEnv) (slots : ℕ)
    (es es' : List EngineEvent) :
    (Machine.run (Engine.step o env) (Engine.start slots) es).world.log <:+
      (Machine.run (Engine.step o env) (Engine.start slots) (es ++ es')).world.log := by
  obtain ⟨events, events', hrun, hrun'⟩ := Engine.run_world_append o env slots es es'
  rw [hrun, hrun']
  exact run_suffix o slots events events'

namespace Engine.Sound

variable {s : Engine}

/-- The workers of a job of a built-in operation, at an earlier time. -/
theorem publishing_past (hs : Engine.Sound o env s) (hpast : log <:+ s.world.log) {id call : ℕ}
    {job : LiveJob} {ws : List Launch} (hst : Staffed log id job call ws)
    (hop : job.jobMeta.op ≠ "exec") : Publishing log id job call ws := by
  refine ⟨hst, hop, fun l hl => ?_⟩
  have hlaunch := Log.mem_launches_suffix hpast (Log.forks_subset (hst.belongs l hl).1)
  rw [hst.metas l hl] at hop
  refine (hs.working.inTurn hlaunch hop).suffix ?_
  obtain ⟨older, holder⟩ := hpast
  rw [← holder, Log.deeds_append]
  exact List.suffix_append _ _

/-- The workers of a launched job of a built-in operation. -/
theorem publishing (hs : Engine.Sound o env s) {id : ℕ} {job : LiveJob}
    (hlive : s.world.ctl.live.lookup id = some job) (hprocs : job.procs ≠ [])
    (hop : job.jobMeta.op ≠ "exec") : ∃ call ws, Publishing s.world.log id job call ws := by
  have hstate : job.jobMeta.state ≠ "queued" := fun hqueued =>
    hprocs (hs.crew.repr.waiting id job hlive hqueued).procs
  obtain ⟨call, ws, hst⟩ := hs.crew.staffed hlive hstate
  exact ⟨call, ws, hs.publishing_past (List.suffix_refl _) hst hop⟩

/-- A worker of a built-in operation that has exited with status 0 has published a good
    slot of its own first. -/
theorem exited (hs : Engine.Sound o env s) {l : Launch} (hl : l ∈ s.world.log.launches)
    (hop : l.jobMeta.op ≠ "exec") (hexit : s.world.log.status l.child = some (.exited 0)) :
    ∃ chunk rest, s.world.log.deeds l.child = .exit 0 :: .bump :: .slot chunk :: rest ∧
      OwnSlot l chunk ∧ chunk.ok = 1 := by
  have hturn := hs.working.inTurn hl hop
  obtain ⟨chunk, rest, hdeeds, hok⟩ := hturn.good (exit_of_status hexit)
  refine ⟨chunk, rest, hdeeds, hturn.own ?_, hok⟩
  rw [hdeeds]
  simp

/-- A worker stores its own slot, and once. -/
theorem stores (hs : Engine.Sound o env s) {l : Launch} (hl : l ∈ s.world.log.launches) :
    (∀ chunk, Effect.slot l.child chunk ∈ s.world.log → l.jobMeta.op ≠ "exec" ∧ OwnSlot l chunk) ∧
      ((s.world.log.deeds l.child).filter (·.slot?.isSome)).length ≤ 1 := by
  by_cases hop : l.jobMeta.op = "exec"
  · -- a program does not know the region
    have hdeeds := hs.working.exec hl hop
    constructor
    · intro chunk hslot
      have hmem := Log.slot_mem_deeds.mpr hslot
      rcases hdeeds with hdeeds | ⟨status, hdeeds⟩ <;> rw [hdeeds] at hmem <;> simp at hmem
    · rcases hdeeds with hdeeds | ⟨status, hdeeds⟩ <;> rw [hdeeds] <;> simp [WorkerAct.slot?]
  · have hturn := hs.working.inTurn hl hop
    exact ⟨fun chunk hslot => ⟨hop, hturn.own (Log.slot_mem_deeds.mpr hslot)⟩, hturn.once⟩

/-- The job as it was judged, with the log of then. -/
theorem judged (hs : Engine.Sound o env s) {id : ℕ} {state : String} {job : LiveJob}
    {inspect : Except String ℕ} {write : Option WriteAnswer}
    (hmem : Effect.finalized id state job inspect write ∈ s.world.log)
    (hop : job.jobMeta.op ≠ "exec") :
    ∃ past job₀ call ws t, past <:+ s.world.log ∧ job = judgedJob job₀ t ∧
      job₀.allReaped = true ∧ Publishing past id job₀ call ws := by
  obtain ⟨new, past, hlog⟩ := List.append_of_mem hmem
  have hsuffix : .finalized id state job inspect write :: past <:+ s.world.log := ⟨new, hlog.symm⟩
  have hpast : past <:+ s.world.log := (List.suffix_cons _ _).trans hsuffix
  have hverdict : Verdict o id state job inspect write past := hs.verdicts.at hsuffix
  obtain ⟨job₀, call, ws, t, hjob, hreaped, hst⟩ :=
    hverdict.staffed (hs.crew.children.suffix hpast)
  have hop₀ : job₀.jobMeta.op ≠ "exec" := by
    rw [hjob] at hop
    exact hop
  exact ⟨past, job₀, call, ws, t, hpast, hjob, hreaped, hs.publishing_past hpast hst hop₀⟩

/-- A slot that has been stored is the same in every later state of the job. -/
theorem fixed {s' : Engine} (hs' : Engine.Sound o env s') (hsuf : log <:+ s'.world.log)
    {id call id' : ℕ} {job job' : LiveJob} {ws : List Launch} {chunk : ChunkResult}
    (h : Publishing log id job call ws) {l : Launch} (hl : l ∈ ws)
    (hslot : Effect.slot l.child chunk ∈ log)
    (hlive' : s'.world.ctl.live.lookup id' = some job')
    (hsame : job'.procs.map (·.child) = job.procs.map (·.child)) :
    ∃ shm', job'.shm = some shm' ∧ shm'.chunks l.chunkIndex = chunk := by
  have hmem : l.child ∈ job'.procs.map (·.child) := by
    rw [hsame, h.staffed.children]
    exact List.mem_map_of_mem hl
  have hprocs : job'.procs ≠ [] := by
    intro hnil
    rw [hnil] at hmem
    cases hmem
  have hstate : job'.jobMeta.state ≠ "queued" := fun hqueued =>
    hprocs (hs'.crew.repr.waiting id' job' hlive' hqueued).procs
  obtain ⟨call', ws', hst'⟩ := hs'.crew.staffed hlive' hstate
  rw [hst'.children] at hmem
  obtain ⟨l', hl', hchild⟩ := List.mem_map.mp hmem
  have hsameLaunch : l' = l := launch_unique hs'.crew.children
    (Log.mem_launches_suffix hsuf (Log.forks_subset (h.staffed.belongs l hl).1))
    (Log.forks_subset (hst'.belongs l' hl').1) hchild
  subst hsameLaunch
  have hop' : job'.jobMeta.op ≠ "exec" := by
    have hop := h.builtin
    rw [h.staffed.metas l' hl] at hop
    rw [hst'.metas l' hl']
    exact hop
  obtain ⟨call'', ws'', h'⟩ := hs'.publishing hlive' hprocs hop'
  have hl'' : l' ∈ ws'' := by
    have hchildren : ws'.map (·.child) = ws''.map (·.child) :=
      hst'.children.symm.trans h'.staffed.children
    have hmem : l'.child ∈ ws''.map (·.child) := hchildren ▸ List.mem_map_of_mem hl'
    obtain ⟨l'', hl'', hchild⟩ := List.mem_map.mp hmem
    have hsame : l'' = l' := launch_unique hs'.crew.children
      (Log.forks_subset (hst'.belongs l' hl').1) (Log.forks_subset (h'.staffed.belongs l'' hl'').1)
      hchild
    exact hsame ▸ hl''
  exact ⟨_, h'.shm, h'.chunk_eq hl'' (hsuf.subset hslot)⟩

end Engine.Sound

/-! ## The protocol -/

/-- The slot is the same in every continuation in which the job's workers are those. -/
def Unchanging (o : Oracle) (env : Launch → WorkerEnv) (s : Engine) (job : LiveJob) (i : ℕ)
    (chunk : ChunkResult) : Prop :=
  ∀ (es : List EngineEvent) (id : ℕ) (job' : LiveJob),
    (Machine.run (Engine.step o env) s es).world.ctl.live.lookup id = some job' →
    job'.procs.map (·.child) = job.procs.map (·.child) →
    ∃ shm, job'.shm = some shm ∧ shm.chunks i = chunk

/-- **The publication protocol**, in every reachable state of the controller and its
    workers, whichever of them are killed between which of their acts. -/
theorem slots_published (o : Oracle) (env : Launch → WorkerEnv) (slots : ℕ)
    (es : List EngineEvent) :
    let s := Machine.run (Engine.step o env) (Engine.start slots) es
    -- A worker stores its own slot, and once; if it exits with status 0, a good one.
    (∀ l ∈ s.world.log.launches,
      (∀ chunk, Effect.slot l.child chunk ∈ s.world.log →
        l.jobMeta.op ≠ "exec" ∧ OwnSlot l chunk) ∧
      ((s.world.log.deeds l.child).filter (·.slot?.isSome)).length ≤ 1 ∧
      (l.jobMeta.op ≠ "exec" → s.world.log.status l.child = some (.exited 0) →
        ∃ chunk rest, s.world.log.deeds l.child = .exit 0 :: .bump :: .slot chunk :: rest ∧
          OwnSlot l chunk ∧ chunk.ok = 1)) ∧
    -- The count of a launched job stands for slots that do not change any more.
    (∀ id job, s.world.ctl.live.lookup id = some job → job.procs ≠ [] →
      job.jobMeta.op ≠ "exec" → ∃ shm, job.shm = some shm ∧ shm.chunksDone ≤ shm.nchunks ∧
        ∃ S : Finset ℕ, shm.chunksDone ≤ S.card ∧ ∀ i ∈ S, i < shm.nchunks ∧
          (∃ l, Publishing.Slot s.world.log job shm l i) ∧
          Unchanging o env s job i (shm.chunks i)) ∧
    -- A job that passes has a good slot for each of its ranges.
    (∀ id state job inspect write body,
      Effect.finalized id state job inspect write ∈ s.world.log → job.jobMeta.op ≠ "exec" →
      resultsOk job inspect = .ok body → ∃ shm, job.shm = some shm ∧
        shm.nchunks = (launchRanges job.jobMeta).length ∧ ∀ i < shm.nchunks,
          (∃ l, Publishing.Slot s.world.log job shm l i) ∧ (shm.chunks i).ok = 1) := by
  intro s
  have hs : Engine.Sound o env s := Engine.run_sound o env slots es
  refine ⟨fun l hl => ?_, fun id job hlive hprocs hop => ?_,
    fun id state job inspect write body hmem hop hok => ?_⟩
  · obtain ⟨hown, honce⟩ := hs.stores hl
    exact ⟨hown, honce, hs.exited hl⟩
  · obtain ⟨call, ws, h⟩ := hs.publishing hlive hprocs hop
    obtain ⟨hle, S, hcard, hS⟩ := h.published
    refine ⟨_, h.shm, hle, S, hcard, fun i hi => ?_⟩
    obtain ⟨hlt, l, hl, hslot⟩ := hS i hi
    refine ⟨hlt, ⟨l, hslot⟩, fun es' id' job' hlive' hsame => ?_⟩
    obtain rfl := hslot.index
    have hs' := Engine.run_sound o env slots (es ++ es')
    have hsuffix := run_log_suffix o env slots es es'
    rw [Machine.run_append] at hs' hsuffix
    exact hs'.fixed hsuffix h hl hslot.stored hlive' hsame
  · obtain ⟨past, job₀, call, ws, t, hpast, rfl, hreaped, h⟩ := hs.judged hmem hop
    obtain ⟨shm, hshm, -, hhow, -⟩ := resultsOk_builtin hop hok
    obtain rfl := Option.some.inj (hshm.symm.trans h.shm)
    have hexits := (h.staffed.exits_iff hreaped).mp hhow
    refine ⟨_, hshm, ?_, fun i hi => ?_⟩
    · have hranges := congrArg List.length h.staffed.ranges
      rw [List.length_map] at hranges
      exact hranges
    · obtain ⟨l, hl, hslot, hgood⟩ := h.good hexits hi
      exact ⟨⟨l, Log.mem_launches_suffix hpast hslot.launched, hslot.works, hslot.index, hslot.range,
        hpast.subset hslot.stored, hpast.subset hslot.counted⟩, hgood⟩

end Forge
