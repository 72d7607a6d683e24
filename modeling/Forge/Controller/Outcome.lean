import Forge.Controller.Publication

/-!
# How a job ends

`finalize` (controller.cpp:376-419) judges a job when all its workers have been
reaped. It completes a job that has `Passed`; for any other the first stop cause
names the state, which `request_stop` (controller.cpp:186-194) keeps.

* `Engine.Sound.passes`: `results_ok` accepts exactly the jobs that have passed.
* `Engine.Sound.stops`: what a job can be stopped for.
* `outcome_decided`: the state that is recorded.
-/

namespace Forge

open World

variable {o : Oracle} {env : Launch → WorkerEnv} {log : Log}

/-! ## Passing -/

/-- All workers of the job have exited with status 0; those of a built-in operation have
    published good slots, and the sizes are right. `inspect` is what `inspect_file` said
    of the output. -/
structure Passed (log : Log) (job : LiveJob) (ws : List Launch) (inspect : Except String ℕ) :
    Prop where
  exits : ∀ l ∈ ws, log.status l.child = some (.exited 0)
  slots : job.jobMeta.op ≠ "exec" → ∃ shm, job.shm = some shm ∧
    shm.nchunks = (launchRanges job.jobMeta).length ∧ ∀ i < shm.nchunks,
      (∃ l ∈ ws, Publishing.Slot log job shm l i) ∧ (shm.chunks i).ok = 1
  sizes : job.jobMeta.op = "chunk-sha256" ∨ job.jobMeta.op = "count" →
    ∀ shm, job.shm = some shm → shm.totalBytes = job.jobMeta.bytes
  output : job.jobMeta.op = "copy" → inspect = .ok job.jobMeta.bytes

/-- The part of `results_ok` that depends on the operation. -/
theorem opResult_ok_iff {m : Meta} {shm : SharedRegion} {inspect : Except String ℕ}
    (hop : m.op = "sha256" ∨ m.op = "chunk-sha256" ∨ m.op = "count" ∨ m.op = "copy") :
    (∃ body, opResult m shm inspect = .ok body) ↔
      (m.op = "sha256" → (shm.chunks 0).ok ≠ 0 ∧ (shm.chunks 0).hex ≠ "") ∧
      (m.op = "chunk-sha256" ∨ m.op = "count" → shm.firstBad = none ∧ shm.totalBytes = m.bytes) ∧
      (m.op = "copy" → (shm.chunks 0).ok ≠ 0 ∧ inspect = .ok m.bytes) := by
  unfold opResult
  rcases hop with h | h | h | h
  · rw [h]
    by_cases hgood : (shm.chunks 0).ok = 0 ∨ (shm.chunks 0).hex = ""
    · simp only [if_true, if_pos hgood]
      simp
      tauto
    · simp only [if_true, if_neg hgood]
      simp
      tauto
  · rw [h]
    cases hbad : shm.firstBad with
    | some chunk => simp
    | none => by_cases hsize : shm.totalBytes = m.bytes <;> simp [hsize]
  · rw [h]
    cases hbad : shm.firstBad with
    | some chunk => simp
    | none => by_cases hsize : shm.totalBytes = m.bytes <;> simp [hsize]
  · rw [h]
    by_cases hgood : (shm.chunks 0).ok = 0
    · simp [hgood]
    · cases inspect with
      | error e => simp [hgood]
      | ok size => by_cases hsize : size = m.bytes <;> simp [hgood, hsize]

/-- Only a copy and a program have no text. -/
theorem resultsOk_text {job : LiveJob} {inspect : Except String ℕ} {body : String}
    (h : resultsOk job inspect = .ok body) :
    body = "" ↔ job.jobMeta.op = "exec" ∨ job.jobMeta.op = "copy" := by
  by_cases hop : job.jobMeta.op = "exec"
  · unfold resultsOk at h
    rw [if_pos hop] at h
    split at h
    · cases h
    · split_ifs at h
      cases h
      simp [hop]
  · obtain ⟨shm, -, -, -, hresult⟩ := resultsOk_builtin hop h
    rcases opResult_text hresult with ⟨hcopy, -, rfl⟩ | ⟨hcopy, hbody⟩
    · simp [hcopy]
    · simp [hop, hcopy, hbody]

section

variable {id call : ℕ} {job : LiveJob} {ws : List Launch} {inspect : Except String ℕ}

theorem Staffed.length_eq (h : Staffed log id job call ws) :
    ws.length = (launchRanges job.jobMeta).length := by
  rw [← h.ranges, List.length_map]

theorem Staffed.op_eq (h : Staffed log id job call ws) {l : Launch} (hl : l ∈ ws) :
    l.jobMeta.op = job.jobMeta.op := by
  rw [h.metas l hl]
  rfl

/-- A program has one worker. -/
theorem Staffed.solo (h : Staffed log id job call ws) (hop : job.jobMeta.op = "exec") :
    ∃ pr, job.procs = [pr] := by
  refine List.length_eq_one_iff.mp ?_
  have hlen := congrArg List.length h.children
  rw [List.length_map, List.length_map, h.length_eq, launchRanges, if_pos hop,
    splitRanges_single] at hlen
  exact hlen

/-- A program has passed if its exit status is 0. -/
theorem Staffed.passes (h : Staffed log id job call ws) (hreaped : job.allReaped = true)
    (hop : job.jobMeta.op = "exec") (t : ℤ) :
    (∃ body, resultsOk (judgedJob job t) inspect = .ok body) ↔
      Passed log (judgedJob job t) ws inspect := by
  obtain ⟨pr, hpr⟩ := h.solo hop
  have hresult : (∃ body, resultsOk (judgedJob job t) inspect = .ok body) ↔
      ∀ pr ∈ job.procs, pr.how = "exited:0" := by
    have hprocs : (judgedJob job t).procs = [pr] := hpr
    unfold resultsOk
    rw [if_pos (show (judgedJob job t).jobMeta.op = "exec" from hop), hprocs, hpr]
    by_cases hhow : pr.how = "exited:0" <;> simp [hhow]
  rw [hresult, h.exits_iff hreaped]
  refine ⟨fun hexits => ⟨hexits, fun hno => absurd hop hno, ?_, ?_⟩, fun hpassed => hpassed.exits⟩
  · intro hsize
    rw [show (judgedJob job t).jobMeta.op = "exec" from hop] at hsize
    simp at hsize
  · intro hcopy
    rw [show (judgedJob job t).jobMeta.op = "exec" from hop] at hcopy
    simp at hcopy

/-- If all workers have exited with status 0, all slots are good. -/
theorem Publishing.slots_good (h : Publishing log id job call ws)
    (hexits : ∀ l ∈ ws, log.status l.child = some (.exited 0)) (t : ℤ) {i : ℕ} (hi : i < ws.length) :
    (∃ l ∈ ws, Publishing.Slot log (judgedJob job t) (log.region (ws.map (·.child)) ws.length) l i) ∧
      (log.slots (ws.map (·.child)) i).ok = 1 := by
  obtain ⟨l, hl, hslot, hok⟩ := h.good hexits hi
  exact ⟨⟨l, hl, hslot.launched, hslot.works, hslot.index, hslot.range, hslot.stored,
    hslot.counted⟩, hok⟩

/-- A job has passed if its workers have exited with status 0 and the sizes are right. -/
theorem Publishing.passed (h : Publishing log id job call ws)
    (hexits : ∀ l ∈ ws, log.status l.child = some (.exited 0))
    (hsizes : job.jobMeta.op = "chunk-sha256" ∨ job.jobMeta.op = "count" →
      (log.region (ws.map (·.child)) ws.length).totalBytes = job.jobMeta.bytes)
    (houtput : job.jobMeta.op = "copy" → inspect = .ok job.jobMeta.bytes) (t : ℤ) :
    Passed log (judgedJob job t) ws inspect := by
  refine ⟨hexits, fun _ => ⟨_, h.shm, h.staffed.length_eq, fun i hi => h.slots_good hexits t hi⟩,
    fun hsum shm hshm => ?_, houtput⟩
  obtain rfl := Option.some.inj (hshm.symm.trans h.shm)
  exact hsizes hsum

/-- A job of a built-in operation has passed if its workers have delivered. -/
theorem Publishing.passes (h : Publishing log id job call ws) (hall : History.All ChildOk log)
    (hreaped : job.allReaped = true)
    (hfound : ∀ l ∈ ws, ∀ chunk, Effect.slot l.child chunk ∈ log → chunk.ok = 1 →
      Found (env l) l chunk) (t : ℤ) :
    (∃ body, resultsOk (judgedJob job t) inspect = .ok body) ↔
      Passed log (judgedJob job t) ws inspect := by
  have hop : (judgedJob job t).jobMeta.op ≠ "exec" := h.builtin
  have hadmitted : job.jobMeta.op = "sha256" ∨ job.jobMeta.op = "chunk-sha256" ∨
      job.jobMeta.op = "count" ∨ job.jobMeta.op = "copy" := by
    have := h.staffed.admitted.op
    have := h.builtin
    tauto
  have hshm : (judgedJob job t).shm = some (log.region (ws.map (·.child)) ws.length) := h.shm
  have hpos : 0 < ws.length := by
    rw [h.staffed.length_eq]
    exact List.length_pos_iff.mpr (launchRanges_ne_nil _)
  constructor
  · rintro ⟨body, hok⟩
    obtain ⟨shm, hshm', -, hhow, hresult⟩ := resultsOk_builtin hop hok
    obtain rfl := Option.some.inj (hshm'.symm.trans hshm)
    obtain ⟨-, hsizes, hcopy⟩ := (opResult_ok_iff hadmitted).mp ⟨body, hresult⟩
    exact h.passed ((h.staffed.exits_iff hreaped).mp hhow) (fun hsum => (hsizes hsum).2)
      (fun hcopied => (hcopy hcopied).2) t
  · intro hpassed
    have hcount : ¬ (log.region (ws.map (·.child)) ws.length).chunksDone <
        (log.region (ws.map (·.child)) ws.length).nchunks :=
      not_lt.mpr (h.complete hall hpassed.exits)
    have hhow : (judgedJob job t).procs.find? (·.how ≠ "exited:0") = none := by
      refine List.find?_eq_none.mpr fun pr hpr => ?_
      simpa using (h.staffed.exits_iff hreaped).mpr hpassed.exits pr hpr
    unfold resultsOk
    simp only [if_neg hop, hshm, if_neg hcount, hhow]
    obtain ⟨⟨l, hl, hslot⟩, hok⟩ := h.slots_good hpassed.exits t hpos
    refine (opResult_ok_iff hadmitted).mpr ⟨fun hsha => ⟨?_, ?_⟩, fun hsum => ⟨?_, ?_⟩,
      fun hcopy => ⟨?_, hpassed.output hcopy⟩⟩
    · show (log.slots _ 0).ok ≠ 0
      omega
    · exact (hfound l hl _ hslot.stored hok).hex_ne ((h.staffed.op_eq hl).trans hsha)
    · refine List.find?_eq_none.mpr fun chunk hchunk => ?_
      obtain ⟨i, hi, rfl⟩ := List.mem_map.mp hchunk
      have hgood := (h.slots_good hpassed.exits t (List.mem_range.mp hi)).2
      show ¬ decide ((log.slots _ i).ok = 0) = true
      rw [hgood]
      decide
    · exact hpassed.sizes hsum _ hshm
    · show (log.slots _ 0).ok ≠ 0
      omega

end

/-! ## The verdict -/

/-- The state of a job that has not passed, by its first stop cause
    (controller.cpp:388-391). -/
def stoppedState (cause : String) : String :=
  if cause = "timed_out" then "timed_out"
  else if cause = "cancelled" ∨ cause = "shutdown" then "cancelled"
  else "failed"

theorem stoppedState_ne (cause : String) : stoppedState cause ≠ "completed" := by
  unfold stoppedState
  split_ifs <;> decide

/-- The output could not be written. -/
def Unwritten (write : Option WriteAnswer) : Prop := ∃ err visible, write = some (.failed err visible)

/-- What `results_ok` makes of the published results and the exits of the workers `ws`. -/
def Log.judgement (log : Log) (m : Meta) (ws : List Launch) (inspect : Except String ℕ) :
    Except String String :=
  resultsOk {
    jobMeta := m
    procs := ws.map fun l =>
      { pid := l.pid, start := l.start, how := ((log.status l.child).map describeWait).getD "" }
    shm := if m.op = "exec" then none else some (log.region (ws.map (·.child)) ws.length) } inspect

/-- The error in the record of a finalized job (controller.cpp:384-413). -/
def recordedError (cause : String) (result : Except String String) (write : Option WriteAnswer) :
    String :=
  match result, write with
  | .error why, _ => if why = "" then stoppedState cause else why
  | .ok _, some (.failed err _) => err
  | .ok _, _ => ""

/-- The digest in the record of a finalized job (controller.cpp:393-399). -/
def recordedDigest (m : Meta) (result : Except String String) : String :=
  match result with
  | .error _ => m.digest
  | .ok body =>
    if (m.op = "sha256" ∨ m.op = "count") ∧ body ≠ "" then trimNewlines body else m.digest

/-- A job has ended: `ws` are its workers, `past` is the log when its record had been
    written. -/
structure Outcome (o : Oracle) (past : Log) (id : ℕ) (state : String) (job : LiveJob)
    (inspect : Except String ℕ) (write : Option WriteAnswer) (call : ℕ) (ws : List Launch) :
    Prop where
  children : job.procs.map (·.child) = ws.map (·.child)
  all : ∀ l ∈ past.launches, l.call = call ↔ l ∈ ws
  ranges : ws.map (fun l => (⟨l.offset, l.length⟩ : ByteRange)) = launchRanges job.jobMeta
  reaped : ∀ l ∈ ws, past.Reaped l.child
  once : ∀ l ∈ ws, ¬ past.Judged l.child
  judged : resultsOk job inspect = past.judgement job.jobMeta ws inspect
  accepted : (∃ body, past.judgement job.jobMeta ws inspect = .ok body) ↔ Passed past job ws inspect
  recorded : o.SavesAlways → ∃ m, past.disk job.jobMeta.id = some m ∧ m.state = state ∧
    m.error = recordedError (past.stopCause id) (past.judgement job.jobMeta ws inspect) write ∧
    m.digest = recordedDigest job.jobMeta (past.judgement job.jobMeta ws inspect)
  inspected : job.jobMeta.op = "copy" → Inspected o job.jobMeta.id past inspect
  written : write.isSome ↔
    Passed past job ws inspect ∧ job.jobMeta.op ≠ "exec" ∧ job.jobMeta.op ≠ "copy"
  output : write = some .ok → ∃ body, past.judgement job.jobMeta ws inspect = .ok body ∧
    past.outputs id = some (textBytes body)
  completed : state = "completed" ↔ Passed past job ws inspect ∧ ¬ Unwritten write
  unwritten : Unwritten write → state = "failed"
  stopped : ¬ Passed past job ws inspect → state = stoppedState (past.stopCause id)

/-- `results_ok` looks at the record, the region and how the workers ended. -/
theorem resultsOk_congr {job job' : LiveJob} (hmeta : job'.jobMeta = job.jobMeta)
    (hshm : job'.shm = job.shm) (hhow : job'.procs.map (·.how) = job.procs.map (·.how))
    (inspect : Except String ℕ) : resultsOk job' inspect = resultsOk job inspect := by
  have hbad : (job'.procs.find? (·.how ≠ "exited:0")).map (·.how) =
      (job.procs.find? (·.how ≠ "exited:0")).map (·.how) := by
    have hfind : ∀ procs : List ProcRef, (procs.find? (·.how ≠ "exited:0")).map (·.how) =
        (procs.map (·.how)).find? (· ≠ "exited:0") := fun procs => by
      rw [List.find?_map]
      rfl
    rw [hfind, hfind, hhow]
  unfold resultsOk
  rw [hmeta, hshm]
  generalize job'.procs = procs' at hhow hbad ⊢
  generalize job.procs = procs at hhow hbad ⊢
  split_ifs
  · cases procs with
    | nil =>
      rw [List.map_nil, List.map_eq_nil_iff] at hhow
      rw [hhow]
    | cons pr rest =>
      cases procs' with
      | nil => cases hhow
      | cons pr' rest' =>
        rw [List.map_cons, List.map_cons, List.cons.injEq] at hhow
        have hempty : rest' = [] ↔ rest = [] := by
          rw [← List.map_eq_nil_iff (f := (·.how)), hhow.2, List.map_eq_nil_iff]
        simp only [hhow.1, ne_eq, hempty]
  · generalize procs'.find? (·.how ≠ "exited:0") = bad' at hbad ⊢
    generalize procs.find? (·.how ≠ "exited:0") = bad at hbad ⊢
    cases bad with
    | none => rw [Option.map_none, Option.map_eq_none_iff] at hbad; rw [hbad]
    | some pr =>
      obtain ⟨pr', rfl, hsame⟩ := Option.map_eq_some_iff.mp hbad
      simp only [hsame]

/-- A job whose workers have all been reaped is judged by what the log says of them. -/
theorem Staffed.judgement {id call : ℕ} {job : LiveJob} {ws : List Launch}
    (h : Staffed log id job call ws) (hreaped : job.allReaped = true) (t : ℤ)
    (inspect : Except String ℕ) :
    resultsOk (judgedJob job t) inspect = log.judgement (judgedJob job t).jobMeta ws inspect := by
  have hhow : job.procs.map (·.how) =
      (job.procs.map (·.child)).map fun c => ((log.status c).map describeWait).getD "" := by
    rw [List.map_map]
    refine List.map_congr_left fun pr hpr => ?_
    unfold LiveJob.allReaped at hreaped
    obtain ⟨-, status, hstatus, hend⟩ := h.done pr hpr (List.all_eq_true.mp hreaped pr hpr)
    rw [Function.comp_apply, hstatus, hend]
    rfl
  refine resultsOk_congr ?_ ?_ ?_ inspect
  · rfl
  · exact h.shm
  · show job.procs.map (·.how) = _
    rw [hhow, h.children, List.map_map, List.map_map]
    rfl

theorem Log.outputs_saved {past : Log} {id i : ℕ} {m : Meta} (h : Saved o log id m past) :
    past.outputs i = log.outputs i := by
  cases h <;> rfl

/-- What a worker has stored is in its program. -/
theorem Working.stored_program {s : Engine} (hs : Working env s) {l : Launch}
    (hl : l ∈ s.world.log.launches) {chunk : ChunkResult}
    (hslot : Effect.slot l.child chunk ∈ s.world.log) : .slot chunk ∈ Engine.program env l := by
  have hmem := Log.slot_mem_deeds.mpr hslot
  rcases hs.deeds l hl with hdeeds | ⟨-, status, hdeeds⟩
  · rw [hdeeds, List.mem_reverse] at hmem
    exact List.mem_of_mem_take (List.mem_of_mem_filter hmem)
  · rw [hdeeds] at hmem
    simp at hmem

/-! ## What is recorded -/

namespace Persisted

variable {id : ℕ} {cause state state' : String} {m m' : Meta} {result : Except String String}
  {write : Option WriteAnswer}

theorem recorded
    (h : Persisted o id (settle cause m result).1 (settle cause m result).2 log result m' state
      write log') :
    m'.error = recordedError cause result write ∧ m'.digest = recordedDigest m result := by
  cases h <;> exact ⟨rfl, rfl⟩

theorem write_isSome
    (h : Persisted o id (settle cause m result).1 (settle cause m result).2 log result m' state
      write log') :
    write.isSome = true ↔ ∃ body, result = .ok body ∧ body ≠ "" := by
  cases h with
  | failed =>
    refine ⟨fun h => (by cases h), ?_⟩
    rintro ⟨body, hbody, -⟩
    cases hbody
  | silent =>
    refine ⟨fun h => (by cases h), ?_⟩
    rintro ⟨body, hbody, hne⟩
    exact absurd (Except.ok.inj hbody).symm hne
  | written hbody | unwritten hbody => exact ⟨fun _ => ⟨_, rfl, hbody⟩, fun _ => rfl⟩

/-- A job whose results pass is completed unless its output could not be written. -/
theorem completed_iff
    (h : Persisted o id (settle cause m result).1 (settle cause m result).2 log result m' state
      write log') :
    state = "completed" ↔ (∃ body, result = .ok body) ∧ ¬ Unwritten write := by
  cases h with
  | failed =>
    refine ⟨fun h => absurd h (stoppedState_ne cause), ?_⟩
    rintro ⟨⟨body, hbody⟩, -⟩
    cases hbody
  | silent | written =>
    refine ⟨fun _ => ⟨⟨_, rfl⟩, ?_⟩, fun _ => rfl⟩
    rintro ⟨err, visible, hwrite⟩
    cases hwrite
  | unwritten =>
    refine ⟨fun h => absurd h (by decide), ?_⟩
    rintro ⟨-, hwrite⟩
    exact absurd ⟨_, _, rfl⟩ hwrite

theorem of_unwritten
    (h : Persisted o id (settle cause m result).1 (settle cause m result).2 log result m' state
      write log') (hwrite : Unwritten write) : state = "failed" := by
  obtain ⟨err, visible, rfl⟩ := hwrite
  cases h
  rfl

theorem stopped
    (h : Persisted o id (settle cause m result).1 (settle cause m result).2 log result m' state
      write log') (hno : ¬ ∃ body, result = .ok body) : state = stoppedState cause := by
  cases h with
  | failed => rfl
  | _ => exact absurd ⟨_, rfl⟩ hno

theorem of_none
    (h : Persisted o id m state log result m' state' none log') : log' = log := by
  cases h <;> rfl

theorem of_ok (h : Persisted o id m state log result m' state' (some .ok) log') :
    ∃ body, result = .ok body ∧ log'.outputs id = some (textBytes body) := by
  cases h
  exact ⟨_, rfl, if_pos rfl⟩

end Persisted

namespace Engine.Sound

variable {s : Engine} {id call : ℕ} {job : LiveJob} {ws : List Launch}

/-- A good slot has what the worker's pipeline returned. -/
theorem found (hs : Engine.Sound o env s) {l : Launch} (hl : l ∈ s.world.log.launches)
    {chunk : ChunkResult} (hslot : Effect.slot l.child chunk ∈ s.world.log) (hok : chunk.ok = 1) :
    Found (env l) l chunk := workerEntry_found (hs.working.stored_program hl hslot) hok

/-- **`results_ok` accepts exactly the jobs that have passed.** -/
theorem passes (hs : Engine.Sound o env s) (hpast : log <:+ s.world.log)
    (hst : Staffed log id job call ws) (hreaped : job.allReaped = true) (t : ℤ)
    (inspect : Except String ℕ) :
    (∃ body, resultsOk (judgedJob job t) inspect = .ok body) ↔
      Passed log (judgedJob job t) ws inspect := by
  by_cases hop : job.jobMeta.op = "exec"
  · exact hst.passes hreaped hop t
  · refine @Publishing.passes env _ _ _ _ _ _ (hs.publishing_past hpast hst hop)
      (hs.crew.children.suffix hpast)
      hreaped ?_ t
    intro l hl chunk hslot hok
    exact hs.found (Log.mem_launches_suffix hpast (Log.forks_subset (hst.belongs l hl).1))
      (hpast.subset hslot) hok

/-- **Every verdict is the outcome of its job.** -/
theorem outcome (hs : Engine.Sound o env s) {state : String} {inspect : Except String ℕ}
    {write : Option WriteAnswer} {past : Log}
    (hsuffix : .finalized id state job inspect write :: past <:+ s.world.log) :
    ∃ call ws, (∃ job₀ t, job = judgedJob job₀ t ∧ Staffed past id job₀ call ws) ∧
      Outcome o past id state job inspect write call ws := by
  have hpast : past <:+ s.world.log := (List.suffix_cons _ _).trans hsuffix
  have hall := hs.crew.children.suffix hpast
  obtain ⟨log₀, log₁, job₀, call, ws, t, m, hst₀, hreaped, rfl, hinspect, hpersist, hsave⟩ :=
    Verdict.judged (hs.verdicts.at hsuffix)
  have hadds : Adds Unnoticed log₀ past :=
    Adds.trans hpersist.unnoticed ((Adds.refl log₁).saved trivial trivial hsave)
  have hst : Staffed past id job₀ call ws := hst₀.unnoticed hall hadds
  have hjudged := hst.judgement hreaped t inspect
  have hpasses := hs.passes hpast hst hreaped t inspect
  have hid : m.id = job₀.jobMeta.id :=
    hpersist.id_eq.trans (settle_state job₀.stopReason (judgedJob job₀ t).jobMeta _).1
  have houtputs : ∀ i, past.outputs i = log₁.outputs i := fun _ => Log.outputs_saved hsave
  have hcause : job₀.stopReason = past.stopCause id := hst.cause
  have hreapedAll : ∀ l ∈ ws, past.Reaped l.child := by
    intro l hl
    obtain ⟨pr, hpr, hchild, -⟩ := hst.proc_of_launch hl
    unfold LiveJob.allReaped at hreaped
    rw [← hchild]
    exact (hst.done pr hpr (List.all_eq_true.mp hreaped pr hpr)).1
  have hworkers : ∀ l ∈ past.launches, l.call = call ↔ l ∈ ws := fun l hl =>
    ⟨hst.all l hl, fun hmem => (hst.belongs l hmem).2.2⟩
  refine ⟨call, ws, ⟨job₀, t, rfl, hst⟩, ?_⟩
  dsimp only at hpersist
  rw [show (judgedJob job₀ t).stopReason = past.stopCause id from hcause] at hpersist
  have htext : ∀ {body : String}, resultsOk (judgedJob job₀ t) inspect = .ok body →
      (body ≠ "" ↔ job₀.jobMeta.op ≠ "exec" ∧ job₀.jobMeta.op ≠ "copy") := fun hok =>
    (resultsOk_text hok).not.trans not_or
  have hwritten : write.isSome ↔ Passed past (judgedJob job₀ t) ws inspect ∧
      job₀.jobMeta.op ≠ "exec" ∧ job₀.jobMeta.op ≠ "copy" := by
    rw [hpersist.write_isSome, ← hpasses]
    constructor
    · rintro ⟨body, hbody, hne⟩
      exact ⟨⟨body, hbody⟩, (htext hbody).mp hne⟩
    · rintro ⟨⟨body, hbody⟩, hop⟩
      exact ⟨body, hbody, (htext hbody).mpr hop⟩
  exact {
    children := hst.children
    all := hworkers
    ranges := hst.ranges
    reaped := hreapedAll
    once := hst.once
    judged := hjudged
    accepted := hjudged ▸ hpasses
    recorded := fun ho => by
      have hdisk : past.disk job₀.jobMeta.id = some (m.setState state) := by
        rw [hsave.eq ho, ← hid]
        exact Log.disk_save _ _ _
      rw [← hjudged]
      exact ⟨_, hdisk, rfl, hpersist.recorded⟩
    inspected := fun hcopy => by
      have hnone : write = none := by
        refine Option.not_isSome_iff_eq_none.mp fun hsome => ?_
        exact (hwritten.mp hsome).2.2 hcopy
      rw [hnone] at hpersist
      exact hinspect.of_outputs ((houtputs _).trans (by rw [hpersist.of_none]))
    written := hwritten
    output := fun hok => by
      rw [hok] at hpersist
      obtain ⟨body, hbody, hout⟩ := hpersist.of_ok
      exact ⟨body, hjudged ▸ hbody, (houtputs id).trans hout⟩
    completed := hpersist.completed_iff.trans (and_congr_left' hpasses)
    unwritten := hpersist.of_unwritten
    stopped := fun hno => hpersist.stopped (mt hpasses.mp hno) }

end Engine.Sound

/-! ## Stop causes -/

/-- What job `id` can be stopped for when the input is handled: its deadline, a CANCEL
    line, SHUTDOWN, or the bad exit of a worker that `waitid` returns. -/
inductive Causes (log : Log) : Input → ℕ → String → Prop
  | deadline {id : ℕ} : Causes log (.deadline id) id "timed_out"
  | cancel {text : List Char} {id : ℕ} (hline : "CANCEL ".toList.isPrefixOf text = true)
      (hid : parseU64 (text.drop 7) = some id) : Causes log (.line text) id "cancelled"
  | shutdown {id : ℕ} {reason : String} (h : reason = "cancelled" ∨ reason = "shutdown") :
      Causes log (.line "SHUTDOWN".toList) id reason
  | badExit {child : ℕ} {l : Launch} {status : WaitStatus} (hl : l ∈ log.launches)
      (hreaped : l.child = child ∨ log.Reaped l.child) (hstatus : log.status l.child = some status)
      (hbad : status ≠ .exited 0) : Causes log (.reap child) l.id "failed"

/-- A job that is stopped when a child is reaped has a worker with a bad exit. -/
theorem Crew.badExit {v : View} (hv : Crew v) {l : Launch} {status : WaitStatus} {id child : ℕ}
    {job : LiveJob} (hl : v.log.forks.find? (·.child = child) = some l)
    (hstatus : v.log.status child = some status) (hreaped : ¬ v.log.Reaped child)
    (howner : v.ctl.pidOwner l.pid = some id) (hlive : v.ctl.live.lookup id = some job)
    (hbad : (reapedJob job l.pid status).anyBad = true) :
    Causes v.log (.reap child) id "failed" := by
  have hchild : l.child = child := by simpa using List.find?_some hl
  subst hchild
  have hzombie : Zombie .any v.ctl v.log l status :=
    ⟨List.mem_of_find?_eq_some hl, hstatus, hreaped, trivial⟩
  obtain ⟨call, ws, hst, hmem⟩ := hv.worker_of_owner hzombie howner hlive
  have hst' := hst.reap hmem hstatus
  obtain ⟨pr, hpr, hprBad⟩ := List.any_eq_true.mp hbad
  simp only [Bool.and_eq_true, decide_eq_true_eq] at hprBad
  obtain ⟨hprReaped, status', hstatus', hhow⟩ := hst'.done pr hpr hprBad.1
  obtain ⟨l', hl', hchild', -⟩ := hst'.launch_of_proc hpr
  obtain ⟨hfork, hid, -⟩ := hst.belongs l' hl'
  rw [← hid]
  refine .badExit (Log.forks_subset hfork) ?_ (hchild' ▸ hstatus') ?_
  · rcases List.mem_cons.mp hprReaped with heq | hprReaped
    · left
      simpa [hchild'] using heq
    · exact Or.inr (hchild' ▸ hprReaped)
  · rintro rfl
    exact hprBad.2 hhow

/-- The effect is not a call of `request_stop`. -/
def Effect.Unstopping (e : Effect) : Prop := ∀ id reason, e ≠ .stop id reason

theorem updateRegion_log (l : Launch) (f : SharedRegion → SharedRegion) (w : World) :
    (updateRegion l f w).log = w.log := by
  unfold updateRegion
  split
  · rfl
  · split_ifs <;> rfl

/-- Nobody but the controller stops a job. -/
theorem handle_unstopping {input : Input} (h : input.outside = true) (w : World) :
    Adds Effect.Unstopping w.log (handle o w input).log := by
  have hone : ∀ {e : Effect}, e.Unstopping → Adds Effect.Unstopping w.log (w.push e).log :=
    fun he => (Adds.refl _).cons he
  cases input with
  | spawn child =>
    simp only [handle, spawnMember]
    split
    · exact .refl _
    · split_ifs
      · exact hone fun _ _ h => by cases h
      · exact .refl _
  | gone d => exact hone fun _ _ h => by cases h
  | record id m =>
    simp only [handle]
    split_ifs
    · exact hone fun _ _ h => by cases h
    · exact .refl _
  | exit child status =>
    simp only [handle, workerStep]
    split
    · exact .refl _
    · exact hone fun _ _ h => by cases h
  | output child body =>
    simp only [handle, workerStep]
    split
    · exact .refl _
    · exact hone fun _ _ h => by cases h
  | slot child chunk =>
    simp only [handle, workerStep]
    split
    · exact .refl _
    · next l _ =>
      split_ifs
      · rw [World.push, updateRegion_log]
        exact (Adds.refl _).cons fun _ _ h => by cases h
      · exact .refl _
  | bump child =>
    simp only [handle, workerStep]
    split
    · exact .refl _
    · next l _ =>
      rw [World.push, updateRegion_log]
      exact (Adds.refl _).cons fun _ _ h => by cases h
  | _ => cases h

/-- **A job is stopped for one of four causes.** -/
theorem Crew.stops {w : World} (hv : Crew w.view) (input : Input) :
    Adds (fun e => ∀ id reason, e = .stop id reason → Causes w.log input id reason) w.log
      (handle o w input).log := by
  cases hout : input.outside with
  | true => exact (handle_unstopping hout w).imp fun e he id reason heq => absurd heq (he id reason)
  | false =>
    have hpermitted : Permitted (Causes w.log input) (fun _ => True) w input := by
      refine ⟨fun _ _ => trivial, ?_, ?_, ?_, ?_⟩
      · rintro id rfl
        exact .deadline
      · rintro text id rfl hline hid
        exact .cancel hline hid
      · rintro rfl id
        exact ⟨.shutdown (Or.inl rfl), .shutdown (Or.inr rfl)⟩
      · rintro child l status id job rfl hl hstatus hreaped howner hlive hbad
        exact hv.badExit hl hstatus hreaped howner hlive hbad
    refine (handle_handles hout hpermitted).imp fun e he id reason heq => ?_
    rw [heq] at he
    exact he

/-- A stop is the controller's, and has its cause. -/
theorem Engine.Sound.stops {s : Engine} (hs : Engine.Sound o env s) (e : EngineEvent)
    {new : List Effect} (hnew : (s.step o env e).world.log = new ++ s.world.log) {id : ℕ}
    {reason : String} (hmem : .stop id reason ∈ new) :
    ∃ e', e = .world e' ∧ Causes s.world.log e'.input id reason := by
  have hof : ∀ {P : Effect → Prop}, Adds P s.world.log (s.step o env e).world.log →
      P (.stop id reason) := by
    rintro P ⟨new', hlog, hP⟩
    rw [hnew] at hlog
    exact hP _ (List.append_cancel_right hlog ▸ hmem)
  have hnone : Adds Effect.Unstopping s.world.log (s.step o env e).world.log → False :=
    fun hadds => hof hadds id reason rfl
  have hrefl : (s.step o env e).world.log = s.world.log → False := fun hlog =>
    hnone (hlog ▸ .refl _)
  cases e with
  | world e' =>
    refine ⟨e', rfl, ?_⟩
    by_cases hby : e'.input.byWorker = true
    · refine (hrefl ?_).elim
      simp only [Engine.step, if_pos hby]
    · have hadds := World.step_adds (o := o) (e := e')
        (P := fun e => ∀ id reason, e = .stop id reason → Causes s.world.log e'.input id reason)
        (fun _ _ h => by cases h) (hs.crew.stops e'.input)
      have hworld : (s.step o env (.world e')).world = s.world.step o e' := by
        simp only [Engine.step, if_neg hby]
      rw [← hworld] at hadds
      exact hof hadds id reason rfl
  | work child =>
    refine (hnone ?_).elim
    simp only [Engine.step]
    split
    · exact .refl _
    · split
      · exact .refl _
      · next a _ =>
        cases a with
        | wake => exact .refl _
        | image => exact .refl _
        | _ => exact handle_unstopping rfl _
  | killed child signal dumped => exact (hnone (handle_unstopping rfl _)).elim
  | quit child status =>
    refine (hnone ?_).elim
    simp only [Engine.step]
    split
    · exact .refl _
    · split_ifs
      · exact handle_unstopping rfl _
      · exact .refl _

/-! ## Runs -/

/-- **The recorded outcome is decided by the results and the first stop cause**, in every
    run of the controller and its workers, whatever arrives in which order. -/
theorem outcome_decided (o : Oracle) (env : Launch → WorkerEnv) (slots : ℕ)
    (es : List EngineEvent) :
    let s := Machine.run (Engine.step o env) (Engine.start slots) es
    (∀ id state job inspect write past,
      .finalized id state job inspect write :: past <:+ s.world.log →
      ∃ call ws, Outcome o past id state job inspect write call ws) ∧
    (∀ e new id reason, (s.step o env e).world.log = new ++ s.world.log →
      .stop id reason ∈ new → ∃ e', e = .world e' ∧ Causes s.world.log e'.input id reason) := by
  intro s
  have hs : Engine.Sound o env s := Engine.run_sound o env slots es
  refine ⟨fun _ _ _ _ _ _ hsuffix => ?_, fun e _ _ _ hnew hmem => hs.stops e hnew hmem⟩
  obtain ⟨call, ws, -, houtcome⟩ := hs.outcome hsuffix
  exact ⟨call, ws, houtcome⟩

end Forge
