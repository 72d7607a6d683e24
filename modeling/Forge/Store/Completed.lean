import Forge.Store.Durable
import Forge.Worker.Paths

/-!
# A completed job has its output

`finalize` (controller.cpp:376-419) records a built-in job as completed after its
output has been published, by itself or by the copying worker.

* `completed_output`: in every disk state after a power loss, and in the running
  system, a file that is read as a completed record lies beside the whole output, as
  long as what goes into the records is on one line and the records carry the ids of
  their directories.
* `completed_missing`: a record with the id of another job.
-/

namespace Forge

open CrashFs RelyGuarantee Process Workspace

/-! ## What the program does -/

/-- What `inspect_file` may say of `jobs/<id>/output`: an error, or the size. -/
def SeesOutput (fs : Disk) (id : ℕ) (inspect : Except String ℕ) : Prop :=
  ∀ size, inspect = .ok size → ∃ d i, fs.live jobsDir (.job id) = some d ∧
    fs.live d (.file "output") = some i ∧ (fs.data i).length = size

/-- The states of the records that others than `finalize` save (controller.cpp:459-653,
    798, main.cpp:261). -/
def savedStates : List String := ["submitted", "queued", "starting", "running", "failed", "cancelled"]

/-- When a call is made, and what it is made with. -/
def madeOrderly (w : Workspace) : WriteOp → Prop
  | .save m => m.state ∈ savedStates
  | .copy _ _ l => l.offset < 2 ^ 64
  | .finalize id job inspect => SeesOutput w.disk job.jobMeta.id inspect ∧
    -- the slot of a copy is zero until its worker stores it
    (job.jobMeta.op = "copy" → ∀ shm, job.shm = some shm → (shm.chunks 0).ok ≠ 0 →
      (id, shm.chunks 0) ∈ w.slots)

/-- The calls of the program; the text of an `errno` is on one line. -/
def orderly : Rule := ⟨madeOrderly, IsLine⟩

/-- What goes into the records is on one line, and the records that are finalized
    carry the ids of their directories. -/
structure WellRecorded (root : String) (w : Workspace) : Prop where
  root : IsLine root
  plain : ∀ k op, (k, op) ∈ w.entered → op.Plain
  own : ∀ k id job inspect, (k, .finalize id job inspect) ∈ w.entered → job.jobMeta.id = id

/-- The bytes are a result of the job: the slice that a copying worker was to copy,
    or the text that `results_ok` returned. -/
inductive IsResult (entered : List (ℕ × WriteOp)) (id : ℕ) : Bytes → Prop
  | copied {k : ℕ} {input : Bytes} {read : ReadEnv} {l : Launch}
      (h : (k, WriteOp.copy input read l) ∈ entered) (hid : l.id = id) :
      IsResult entered id (slice input l.offset l.length)
  | written {k : ℕ} {job : LiveJob} {inspect : Except String ℕ} {text : String}
      (h : (k, WriteOp.finalize id job inspect) ∈ entered)
      (hresult : resultsOk job inspect = .ok text) : IsResult entered id (textBytes text)

/-- No file is partly written, and a job whose record says completed has its output. -/
structure Complete (entered : List (ℕ × WriteOp)) (disk : Disk) : Prop where
  whole : ∀ d s i, disk.live d (.file s) = some i → ∃ t op, disk.tag i = some t ∧
    t.payload.name = s ∧ disk.data i = t.payload.bytes ∧ t.payload.Ended ∧
    (t.call, op) ∈ entered ∧ op.Writes t.payload
  output : ∀ id d i m, disk.live jobsDir (.job id) = some d →
    disk.live d (.file "meta") = some i → textToMeta (fileText (disk.data i)) = .ok m →
    m.state = "completed" → m.op ≠ "exec" →
    ∃ j, disk.live d (.file "output") = some j ∧ IsResult entered id (disk.data j)

/-! ## The calls -/

variable {w w' : Workspace} {root : String} {pid : ℕ}

/-- The invariant of an orderly run. -/
abbrev SoundRun (root : String) (w : Workspace) : Prop := w.Inv root orderly Payload.Promises

/-- A built-in job whose results pass without a text is a copy whose worker has
    published its output. -/
theorem hasOutput_of_orderly {id : ℕ} {job : LiveJob} {inspect : Except String ℕ}
    (hinv : SoundRun root w) (hmay : madeOrderly w (.finalize id job inspect))
    (hop : job.jobMeta.op ≠ "exec") (h : resultsOk job inspect = .ok "") :
    HasOutput w.disk id := by
  obtain ⟨shm, hshm, -, -, hresult⟩ := resultsOk_builtin hop h
  rcases opResult_text hresult with ⟨hcopy, hslot, -⟩ | ⟨-, hbody⟩
  · exact hinv.slots id _ (hmay.2 hcopy shm hshm hslot) hslot
  · exact absurd rfl hbody

/-- No other call records a completed job. -/
theorem not_promises_of_saved {m : Meta} (h : m.state ∈ savedStates) :
    ¬ (Payload.record m).Promises := by
  have hstates : ∀ s ∈ savedStates, trimText s ≠ "completed" := by decide
  exact fun hp => hstates _ h hp.1

/-- **A call is made when its obligations are met.** -/
theorem writes_orderly {op : WriteOp} {callNo : ℕ} (hinv : SoundRun root w)
    (hmay : madeOrderly w op)
    (hown : ∀ id job inspect, op = .finalize id job inspect → job.jobMeta.id = id) :
    Writes Payload.Promises pid (op.program root pid callNo)
      (Task.Ends pid ⟨callNo, op, op.program root pid callNo⟩) w.disk := by
  cases op with
  | save m => exact saveMetaFile_writes fun h => absurd h (not_promises_of_saved hmay)
  | copy input read l => exact copyOutput_writes fun h => h
  | finalize id job inspect =>
    have hid := hown id job inspect rfl
    refine finalizeFiles_writes (fun _ h => h) (fun _ _ => hid) fun hresult => ?_
    rw [hresult]
    intro hp
    have hop : job.jobMeta.op ≠ "exec" := fun hexec => hp.2 (by
      show trimText job.jobMeta.op = "exec"
      rw [hexec]
      decide)
    obtain ⟨d, hdir, hcertain⟩ := hasOutput_of_orderly hinv hmay hop hresult
    refine ⟨d, ?_, hcertain⟩
    show w.disk.live jobsDir (.job job.jobMeta.id) = some d
    rw [hid]
    exact hdir

theorem entered_of_step {rule : Rule} (h : Workspace.Step root rule w w') :
    w.entered ⊆ w'.entered := by
  cases h with
  | enter => exact List.subset_cons_self _ _
  | _ => exact List.Subset.refl _

theorem WellRecorded.of_step {rule : Rule} (h : WellRecorded root w')
    (hstep : Workspace.Step root rule w w') : WellRecorded root w where
  root := h.root
  plain := fun k op hk => h.plain k op (entered_of_step hstep hk)
  own := fun k id job inspect hk => h.own k id job inspect (entered_of_step hstep hk)

/-- **Run lemma.** -/
theorem inv_of_orderly {anchored : Bool} (h : Run root orderly (start anchored) w)
    (hwell : WellRecorded root w) : SoundRun root w := by
  induction h with
  | refl => exact inv_start anchored
  | tail _ hstep ih =>
    have hinv := ih (hwell.of_step hstep)
    refine hstep.inv hinv fun op pid hmay heq => ?_
    refine writes_orderly hinv hmay fun id job inspect hop => ?_
    subst heq hop
    exact hwell.own _ id job inspect List.mem_cons_self

/-- The offset of a slice is a 64-bit number. -/
theorem offset_of_orderly {anchored : Bool} (h : Run root orderly (start anchored) w) :
    ∀ k input read l, (k, .copy input read l) ∈ w.entered → l.offset < 2 ^ 64 := by
  induction h with
  | refl => exact fun _ _ _ _ hk => by cases hk
  | tail _ hstep ih =>
    cases hstep with
    | enter hidle hmay =>
      intro k input read l hk
      rcases List.mem_cons.mp hk with heq | hk
      · cases heq
        exact hmay
      · exact ih k input read l hk
    | _ => exact ih

/-! ## The result -/

/-- What an output file holds is a result of its job. -/
theorem isResult_of_inv (hinv : SoundRun root w)
    (hoffset : ∀ k input read l, (k, .copy input read l) ∈ w.entered → l.offset < 2 ^ 64)
    {id d j : ℕ} (hdir : w.disk.live jobsDir (.job id) = some d)
    (hj : w.disk.live d (.file "output") = some j) : IsResult w.entered id (w.disk.data j) := by
  obtain ⟨-, t, ht, hdata, hname, hended, hjob⟩ :=
    hinv.sound.whole d "output" j (mayName_of_live hj)
  obtain ⟨op, hentered, -, hwrites, -⟩ := hinv.origin j t ht
  have hid : t.payload.job = id := hjob id (mayName_of_live hdir)
  rw [hdata]
  cases hpayload : t.payload with
  | record m =>
    rw [hpayload] at hname
    exact absurd hname (by simp [Payload.name])
  | output a body ended =>
    rw [hpayload] at hwrites hid hended
    cases hid
    cases op with
    | save m => cases hwrites
    | copy input read l =>
      cases hwrites
      have hall : (l.handed input read).1.flatten = slice input l.offset l.length :=
        flatten_fedPieces (hoffset _ _ _ _ hentered) (Option.isNone_iff_eq_none.mp hended)
      show IsResult w.entered l.id (l.handed input read).1.flatten
      rw [hall]
      exact .copied hentered rfl
    | finalize c job inspect =>
      obtain ⟨rfl, text, hresult, -, rfl⟩ := hwrites
      exact .written hentered hresult

/-- A file that is read as a completed record was promised to have its output. -/
theorem promises_of_read (hinv : SoundRun root w) (hwell : WellRecorded root w) {d i : ℕ} {m : Meta}
    (hi : w.disk.live d (.file "meta") = some i)
    (hread : textToMeta (fileText (w.disk.data i)) = .ok m) (hstate : m.state = "completed")
    (hop : m.op ≠ "exec") : ∃ t, w.disk.tag i = some t ∧ t.payload.Promises := by
  obtain ⟨-, t, ht, hdata, hname, -⟩ := hinv.sound.whole d "meta" i (mayName_of_live hi)
  obtain ⟨op, hentered, -, -, hplain⟩ := hinv.origin i t ht
  refine ⟨t, ht, ?_⟩
  have hlines := hplain ⟨hwell.root, fun _ h => h⟩ (hwell.plain _ op hentered)
  cases hpayload : t.payload with
  | output a body ended =>
    rw [hpayload] at hname
    exact absurd hname (by simp [Payload.name])
  | record m' =>
    rw [hpayload] at hdata hlines
    have htext : fileText (w.disk.data i) = metaToText m' := by
      rw [hdata]
      exact fileText_metaToText hlines
    rw [htext] at hread
    obtain ⟨hs, ho⟩ := textToMeta_names (Meta.Lines.oneLine hlines) hread
    exact ⟨hs.symm.trans hstate, fun h => hop (ho.trans h)⟩

theorem complete_of_inv (hinv : SoundRun root w) (hwell : WellRecorded root w)
    (hoffset : ∀ k input read l, (k, .copy input read l) ∈ w.entered → l.offset < 2 ^ 64) :
    Complete w.entered w.disk := by
  refine ⟨fun d s i hi => ?_, fun id d i m hdir hi hread hstate hop => ?_⟩
  · obtain ⟨-, t, ht, hdata, hname, hended, -⟩ := hinv.sound.whole d s i (mayName_of_live hi)
    obtain ⟨op, hentered, -, hwrites, -⟩ := hinv.origin i t ht
    exact ⟨t, op, ht, hname, hdata, hended, hentered, hwrites⟩
  · obtain ⟨t, ht, hpromises⟩ := promises_of_read hinv hwell hi hread hstate hop
    have hcertain := hinv.sound.promised d i t (mayName_of_live hi) ht hpromises
    obtain ⟨j, hj⟩ := Option.isSome_iff_exists.mp hcertain.live
    exact ⟨j, hj, isResult_of_inv hinv hoffset hdir hj⟩

/-- **A completed job has its whole output**, whenever the power fails and in the
    running system, in every run in which what goes into the records is on one line
    and the records carry the ids of their directories. -/
theorem completed_output (hreach : Reachable root orderly w) (hwell : WellRecorded root w) :
    Complete w.entered w.disk ∧
      ∀ disk anchored, w.Loss disk anchored → Complete w.entered disk := by
  obtain ⟨anchored₀, hrun⟩ := hreach
  have hinv := inv_of_orderly hrun hwell
  have hoffset := offset_of_orderly hrun
  refine ⟨complete_of_inv hinv hwell hoffset, fun disk anchored hloss => ?_⟩
  exact complete_of_inv (hinv.reboot hloss) ⟨hwell.root, hwell.plain, hwell.own⟩ hoffset

/-! ## The copy of an empty file -/

theorem usual_orderly : orderly.Usual := by
  constructor
  · show IsLine "File exists (errno 17)"
    simp [IsLine]
  · show IsLine "No such file or directory (errno 2)"
    simp [IsLine]

/-- The workspace in which `jobs/1` has been made. -/
def withJob : Workspace :=
  { start true with
    disk := (emptyDisk.push ⟨jobsDir, [(.job 1, some 1)]⟩).alloc
    calls := 1
    entered := [(0, .save countRecord)] }

/-- The process that makes `jobs/1` is killed before it writes the record. -/
theorem run_withJob : Run "w" orderly (start true) withJob := by
  let w₁ := (start true).enter "w" 1 (.save countRecord)
  have henter : Workspace.Step "w" orderly (start true) w₁ := by
    refine .enter rfl ?_
    show "submitted" ∈ savedStates
    decide
  let disk : Disk := (emptyDisk.push ⟨jobsDir, [(.job 1, some 1)]⟩).alloc
  have hmkdir : CrashFs.Step (.mkdir jobsDir (.job 1)) w₁.disk .done disk := ⟨.ok 0, rfl⟩
  have hcall : Workspace.Step "w" orderly w₁
      ((w₁.setTask 1 (some ⟨0, .save countRecord, _⟩)).setDisk disk) := .call rfl hmkdir nofun
  have hkill : ∀ task, ((w₁.setTask 1 task).setDisk disk).setTask 1 none = withJob := by
    intro task
    unfold withJob setTask setDisk
    dsimp only [w₁, enter]
    have hnone : Function.update (start true).tasks 1 none = (start true).tasks :=
      Function.update_eq_self 1 _
    rw [Function.update_idem, Function.update_idem, hnone]
    rfl
  refine ((Relation.ReflTransGen.single henter).tail hcall).tail ?_
  rw [← hkill]
  exact .kill

/-- The worker of job 1, which copies nothing. -/
def emptyLaunch : Launch where
  child := 0
  call := 0
  id := 1
  pid := 2
  start := 0
  jobMeta := { id := 1, op := "copy", input := "/in" }
  chunkIndex := 0
  offset := 0
  length := 0

/-- The finished job. -/
def emptyCopy : LiveJob where
  jobMeta := emptyLaunch.jobMeta
  procs := [{ how := "exited:0" }]
  shm := some { nchunks := 1, chunksDone := 1, chunks := fun _ => goodChunk emptyLaunch }

def copyOp : WriteOp := .copy [] oneByteEnv emptyLaunch

def afterCopy : Workspace := withJob.played "w" 2 copyOp

def finalizeCopy : WriteOp := .finalize 1 emptyCopy (.ok 0)

/-- The record that `finalize` saves. -/
def copyRecord : Meta := (settle "" emptyCopy.jobMeta (.ok "")).1.setState "completed"

def afterFinalize : Workspace := afterCopy.played "w" 1 finalizeCopy

theorem handed_emptyLaunch : emptyLaunch.handed [] oneByteEnv = ([], none) := rfl

theorem copyOp_program : copyOp.program "w" 2 1 = copyOutput 2 1 1 [] none := rfl

/-- The copy is published. -/
theorem play_copyOutput : (play (copyOutput 2 1 1 [] none) withJob.disk).1 = .ok () ∧
    ∃ i, (play (copyOutput 2 1 1 [] none) withJob.disk).2.live jobsDir (.job 1) = some 1 ∧
      (play (copyOutput 2 1 1 [] none) withJob.disk).2.live 1 (.file "output") = some i ∧
      (play (copyOutput 2 1 1 [] none) withJob.disk).2.data i = [] :=
  ⟨rfl, 2, by decide +kernel, by decide +kernel, by decide +kernel⟩

theorem run_afterFinalize : Run "w" orderly (start true) afterFinalize := by
  obtain ⟨hok, i, hdir, houtput, hdata⟩ := play_copyOutput
  rw [← copyOp_program] at hok hdir houtput hdata
  have hcopy : orderly.may withJob copyOp := show 0 < 2 ^ 64 by norm_num
  have hfinalize : orderly.may afterCopy finalizeCopy := by
    refine ⟨fun size hsize => ?_, fun _ shm hshm _ => ?_⟩
    · cases hsize
      exact ⟨1, i, hdir, houtput, congrArg List.length hdata⟩
    · cases hshm
      show (1, goodChunk emptyLaunch) ∈
        copyOp.stores (play (copyOp.program "w" 2 1) withJob.disk).1 ++ []
      rw [hok, copyOp, WriteOp.stores, handed_emptyLaunch]
      exact List.mem_cons_self
  exact (run_withJob.trans (run_played usual_orderly rfl hcopy)).trans
    (run_played usual_orderly rfl hfinalize)

theorem finalizeCopy_program : finalizeCopy.program "w" 1 2 = saveMetaFile "w" 1 2 copyRecord := by
  have hresult : resultsOk emptyCopy (.ok 0) = .ok "" := rfl
  unfold finalizeCopy
  rw [WriteOp.program, hresult]
  rfl

theorem shows_afterFinalize : Shows afterFinalize.disk ⟨1, 2, .record copyRecord⟩ := by
  rw [afterFinalize, played_disk, show afterCopy.calls = 2 from rfl, finalizeCopy_program]
  exact (play_saveMetaFile _ _ _ _).2.1

theorem wellRecorded_afterFinalize : WellRecorded "w" afterFinalize := by
  have hline : IsLine "exited:0" := by simp [IsLine]
  have hentered : ∀ k op, (k, op) ∈ afterFinalize.entered →
      op = finalizeCopy ∨ op = copyOp ∨ op = .save countRecord := by
    intro k op h
    rcases List.mem_cons.mp h with h | h
    · exact Or.inl (Prod.mk.inj h).2
    · rcases List.mem_cons.mp h with h | h
      · exact Or.inr (Or.inl (Prod.mk.inj h).2)
      · exact Or.inr (Or.inr (Prod.mk.inj (List.mem_singleton.mp h)).2)
  constructor
  · simp [IsLine]
  · intro k op h
    rcases hentered k op h with rfl | rfl | rfl
    · refine ⟨⟨?_, ?_, ?_⟩, fun _ h => by cases h⟩
      · simp [Meta.Lines, Meta.texts, emptyCopy, emptyLaunch, IsLine]
      · exact List.forall_mem_singleton.mpr hline
      · intro shm hshm i
        cases hshm
        simp [goodChunk, IsLine]
    · trivial
    · show Meta.Lines countRecord
      simp [Meta.Lines, Meta.texts, countRecord, IsLine]
  · intro k id job inspect h
    rcases hentered k _ h with h | h | h <;> cases h
    rfl

/-- The record of job 1 says completed, and every power loss leaves the output. -/
theorem completed_output_copy :
    Shows afterFinalize.disk ⟨1, 2, .record copyRecord⟩ ∧
      ∀ disk anchored, afterFinalize.Loss disk anchored → Complete afterFinalize.entered disk :=
  ⟨shows_afterFinalize,
    (completed_output ⟨true, run_afterFinalize⟩ wellRecorded_afterFinalize).2⟩

/-! ## The record of another job -/

/-- Job 1 counted an empty file; `jobs/1/meta` says `id=2`. -/
def emptyCount : LiveJob where
  jobMeta := { id := 2, op := "count", input := "/in" }
  procs := [{ how := "exited:0" }]
  shm := some { nchunks := 1, chunksDone := 1, chunks := fun _ => { ok := 1 } }

/-- The results of a count are not inspected. -/
def finalizeCount : WriteOp := .finalize 1 emptyCount (.error enoent)

/-- The records that `finalize` saves before and after the output. -/
def persistingCount : Meta :=
  (settle "" emptyCount.jobMeta (.ok "0\n")).1.setState "persisting"

def completedCount : Meta := persistingCount.setState "completed"

def afterCount : Workspace := withJob.played "w" 1 finalizeCount

theorem run_afterCount : Run "w" orderly (start true) afterCount := by
  have hmay : orderly.may withJob finalizeCount :=
    ⟨nofun, fun hop => absurd hop (by decide)⟩
  exact run_withJob.trans (run_played usual_orderly rfl hmay)

theorem finalizeCount_program : finalizeCount.program "w" 1 1 =
    finalizeFiles "w" 1 1 1 "" emptyCount.jobMeta (.ok "0\n") := by
  have hresult : resultsOk emptyCount (.error enoent) = .ok "0\n" := by decide
  unfold finalizeCount
  rw [WriteOp.program, hresult]
  rfl

/-- The output goes to `jobs/1`, the records to `jobs/2`. -/
theorem shows_afterCount : Shows afterCount.disk ⟨1, 1, .record completedCount⟩ := by
  obtain ⟨-, -, hjobs⟩ := @play_saveMetaFile "w" withJob.disk 1 1 persistingCount
  have hone : withJob.disk.live jobsDir (.job 1) = some 1 := rfl
  have hdir := Option.isSome_iff_exists.mpr ⟨1, hjobs 1 1 hone⟩
  obtain ⟨hok, -, -⟩ := @play_atomicWriteFile "w" _ ⟨1, 1, .output 1 (textBytes "0\n") true⟩ hdir
  rw [afterCount, played_disk, show withJob.calls = 1 from rfl, finalizeCount_program]
  show Shows (play ((saveMetaFile "w" 1 1 persistingCount).bind _) withJob.disk).2 _
  rw [play_bind, play_bind, hok]
  exact (play_saveMetaFile _ _ _ _).2.1

theorem encodable_completedCount : completedCount.Encodable where
  typed := by constructor <;> decide
  id := by decide
  op := by decide
  state := by decide
  workers := by decide
  submittedMs := by decide
  startedMs := by decide
  finishedMs := by decide
  oneLine := by decide
  noCr := by decide

/-- **The record of another job.** Finalizing job 1, whose record says `id=2`, makes
    `jobs/2/meta` say completed, and there is no `jobs/2/output`. -/
theorem completed_missing : ∃ w disk d i m, Reachable "w" orderly w ∧ w.Loss disk true ∧
    disk.live jobsDir (.job 2) = some d ∧ disk.live d (.file "meta") = some i ∧
    textToMeta (fileText (disk.data i)) = .ok m ∧ m.state = "completed" ∧ m.op = "count" ∧
    disk.live d (.file "output") = none := by
  have hrun : Run "w" anyCall (start true) afterCount :=
    run_afterCount.lift id fun _ _ h => h.mono (fun _ _ _ => trivial) fun _ _ => trivial
  have hinv := inv_of_run hrun (inv_start true)
  obtain ⟨d, i, hdir, hmeta, htag⟩ := shows_afterCount
  obtain ⟨-, t, ht, hdata, -, -⟩ := hinv.sound.whole d "meta" i (mayName_of_live hmeta)
  cases htag.symm.trans ht
  have hlines : completedCount.Lines := by
    have htexts : completedCount.texts = ["completed", "count", "/in", "", "mmap", "", "", "0", ""] := by
      decide
    simp [Meta.Lines, htexts, IsLine]
  have hread : textToMeta (fileText (afterCount.disk.data i)) = .ok completedCount := by
    rw [hdata]
    show textToMeta (fileText (textBytes (metaToText completedCount))) = _
    rw [fileText_metaToText hlines]
    exact encodable_completedCount.read
  refine ⟨afterCount, (keepAll afterCount.disk).restart, d, i, completedCount,
    ⟨true, run_afterCount⟩, .kept _, ?_⟩
  rw [live_keepAll, data_keepAll]
  refine ⟨hdir, hmeta, hread, rfl, rfl, ?_⟩
  -- no call writes an output of job 2
  by_contra hsome
  obtain ⟨j, hj⟩ := Option.ne_none_iff_exists'.mp hsome
  obtain ⟨-, t, ht, -, hname, -, hjob⟩ := hinv.sound.whole d "output" j (mayName_of_live hj)
  obtain ⟨op, hentered, -, hwrites, -⟩ := hinv.origin j t ht
  have hjob : t.payload.job = 2 := hjob 2 (mayName_of_live hdir)
  cases hpayload : t.payload with
  | record m =>
    rw [hpayload] at hname
    exact absurd hname (by simp [Payload.name])
  | output a body ended =>
    rw [hpayload] at hwrites hjob
    have ha : a = 2 := hjob
    rw [afterCount, played_entered] at hentered
    rcases List.mem_cons.mp hentered with heq | hentered
    · cases (Prod.mk.inj heq).2
      exact absurd (hwrites.1.symm.trans ha) (by decide)
    · cases (Prod.mk.inj (List.mem_singleton.mp hentered)).2
      cases hwrites

end Forge
