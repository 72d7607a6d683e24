import Forge.Store.Lines
import Forge.Store.Writers
import Forge.Worker.Copying
import Mathlib.Logic.Relation

/-!
# The workspace, its writers and the power

Any number of processes run `save_meta`, the copying branch of `worker_entry` and
the file part of `finalize`, one system call at a time, in any order; calls fail,
processes are killed, and the power may fail at any moment. `ensure_workspace`
(store.cpp:172-190) has made `jobs`, and syncs neither it nor its parent.

* `Workspace.Step.inv`: the disk stays sound, each writer keeps its obligations, and
  every file was written by a call that was made.
-/

namespace Forge

open CrashFs RelyGuarantee Process

/-! ## Model -/

/-- What a process of the program does to the files of a job. -/
inductive WriteOp where
  | save (m : Meta)
  /-- A worker reads `input` under `read`. -/
  | copy (input : Bytes) (read : ReadEnv) (l : Launch)
  /-- `inspect` is what `inspect_file` has said of the output. -/
  | finalize (id : ℕ) (job : LiveJob) (inspect : Except String ℕ)

def WriteOp.program (root : String) (pid callNo : ℕ) : WriteOp → Program (Except String Unit)
  | save m => saveMetaFile root pid callNo m
  | copy input read l => copyWorker input read l pid callNo
  | finalize id job inspect =>
    finalizeFiles root pid callNo id job.stopReason job.jobMeta (resultsOk job inspect)

/-- What the process stores in the shared region of a job when the call returns. -/
def WriteOp.stores : WriteOp → Except String Unit → List (ℕ × ChunkResult)
  | copy input read l, result =>
    (storedSlots (endCopy l ((l.handed input read).1.flatten.length % 2 ^ 64) result)).map (l.id, ·)
  | _, _ => []

/-- The call that a process is in. -/
structure Task where
  call : ℕ
  op : WriteOp
  rest : Program (Except String Unit)

/-- The disk below the directory `jobs`, and the processes. -/
structure Workspace where
  disk : Disk
  /-- The entry of `jobs` and those above it are durable. -/
  anchored : Bool
  /-- Calls are numbered in the order in which they are made. -/
  calls : ℕ
  entered : List (ℕ × WriteOp)
  /-- By pid. -/
  tasks : ℕ → Option Task
  /-- What copying workers have stored since the last boot, by job. -/
  slots : List (ℕ × ChunkResult)

def emptyDisk : Disk where
  next := 1
  data := fun _ => []
  synced := fun _ => false
  tag := fun _ => none
  durable := fun _ _ => none
  pending := []
  renamed := []

namespace Workspace

/-- An empty workspace. -/
def start (anchored : Bool) : Workspace :=
  { disk := emptyDisk, anchored := anchored, calls := 0, entered := [], tasks := fun _ => none
    slots := [] }

def setTask (w : Workspace) (pid : ℕ) (task : Option Task) : Workspace :=
  { w with tasks := Function.update w.tasks pid task }

def setDisk (w : Workspace) (disk : Disk) : Workspace := { w with disk := disk }

/-- A process makes a call. -/
def enter (w : Workspace) (root : String) (pid : ℕ) (op : WriteOp) : Workspace :=
  { w with
    calls := w.calls + 1
    entered := (w.calls, op) :: w.entered
    tasks := Function.update w.tasks pid (some ⟨w.calls, op, op.program root pid w.calls⟩) }

/-- The call returns, and a copying worker publishes its slot. -/
def leave (w : Workspace) (pid : ℕ) (op : WriteOp) (result : Except String Unit) : Workspace :=
  { w with
    tasks := Function.update w.tasks pid none
    slots := op.stores result ++ w.slots }

/-- What the power may leave: the disk after a crash, or nothing when `jobs` is lost. -/
inductive Loss (w : Workspace) : Disk → Bool → Prop
  | kept (c : Crash w.disk) : Loss w c.restart true
  | lost (h : w.anchored = false) : Loss w emptyDisk false

def reboot (w : Workspace) (disk : Disk) (anchored : Bool) : Workspace :=
  { w with disk := disk, anchored := anchored, tasks := fun _ => none, slots := [] }

/-- What can happen: which calls are made, and the `errno` texts of the kernel. -/
structure Rule where
  may : Workspace → WriteOp → Prop
  errno : String → Prop

/-- A step of a process or of the power. -/
inductive Step (root : String) (rule : Rule) : Workspace → Workspace → Prop
  | enter {w : Workspace} {pid : ℕ} {op : WriteOp} (hidle : w.tasks pid = none)
      (hmay : rule.may w op) : Step root rule w (w.enter root pid op)
  | call {w : Workspace} {pid k : ℕ} {op : WriteOp} {c : Call EntryName UInt8 FileTag}
      {next : Reply → Program (Except String Unit)} {r : Reply} {disk : Disk}
      (htask : w.tasks pid = some ⟨k, op, .call c next⟩) (hstep : CrashFs.Step c w.disk r disk)
      (herrno : ∀ e, r = .fail e → rule.errno e) :
      Step root rule w ((w.setTask pid (some ⟨k, op, next r⟩)).setDisk disk)
  | leave {w : Workspace} {pid k : ℕ} {op : WriteOp} {result : Except String Unit}
      (htask : w.tasks pid = some ⟨k, op, .ret result⟩) : Step root rule w (w.leave pid op result)
  | kill {w : Workspace} {pid : ℕ} : Step root rule w (w.setTask pid none)
  | power {w : Workspace} {disk : Disk} {anchored : Bool} (h : w.Loss disk anchored) :
      Step root rule w (w.reboot disk anchored)

/-- What can happen after `w`. -/
abbrev Run (root : String) (rule : Rule) : Workspace → Workspace → Prop :=
  Relation.ReflTransGen (Step root rule)

/-- The workspace is one that a run reaches. -/
def Reachable (root : String) (rule : Rule) (w : Workspace) : Prop :=
  ∃ anchored, Run root rule (start anchored) w

end Workspace

/-! ## Where the files come from -/

/-- What the call is to write. -/
def WriteOp.Writes : WriteOp → Payload → Prop
  | save m, payload => payload = .record m
  | copy input read l, payload =>
    payload = .output l.id (l.handed input read).1.flatten (l.handed input read).2.isNone
  | finalize id job inspect, payload =>
    match payload with
    | .record m => m.id = job.jobMeta.id ∧ m.op = job.jobMeta.op ∧
      (m.state = "completed" → ∃ body, resultsOk job inspect = .ok body)
    | .output a body _ => a = id ∧
      ∃ text, resultsOk job inspect = .ok text ∧ text ≠ "" ∧ body = textBytes text

/-- What goes into the records of the call are lines. -/
def WriteOp.Plain : WriteOp → Prop
  | save m => m.Lines
  | copy _ _ _ => True
  | finalize _ job inspect => job.Plain ∧ ∀ e, inspect = .error e → IsLine e

/-- The texts of a record are lines. -/
def Payload.Plain : Payload → Prop
  | record m => m.Lines
  | output _ _ _ => True

/-- As long as the `errno` texts are in `E`, every file that the process creates has
    a tag in `T`, and its result is in `Q`. -/
def Creates {A : Type} (E : String → Prop) (T : FileTag → Prop) (Q : A → Prop) : Program A → Prop
  | .ret a => Q a
  | .call c next => (∀ d n excl t, c = .create d n excl t → T t) ∧
    ∀ r, (∀ e, r = .fail e → E e) → Creates E T Q (next r)

/-- The errors of the kernel and the path of the workspace are lines. -/
def LineErrors (root : String) (E : String → Prop) : Prop := IsLine root ∧ ∀ e, E e → IsLine e

section Creates

variable {A B : Type} {E : String → Prop} {T : FileTag → Prop} {Q : A → Prop} {root : String}

theorem Creates.bind {Q' : B → Prop} {prog : Program A} {f : A → Program B}
    (h : Creates E T Q prog) (hf : ∀ a, Q a → Creates E T Q' (f a)) :
    Creates E T Q' (prog.bind f) := by
  induction prog with
  | ret a => exact hf a h
  | call c next ih => exact ⟨h.1, fun r hr => ih r (h.2 r hr)⟩

theorem Creates.quiet {c : Call EntryName UInt8 FileTag} {next : Reply → Program A}
    (hc : ∀ d n excl t, c ≠ .create d n excl t)
    (h : ∀ r, (∀ e, r = .fail e → E e) → Creates E T Q (next r)) :
    Creates E T Q (.call c next) := ⟨fun d n excl t heq => absurd heq (hc d n excl t), h⟩

/-- An error text is a line when those of the kernel are. -/
def LineOnError (root : String) (E : String → Prop) (result : Except String Unit) : Prop :=
  LineErrors root E → ∀ e, result = .error e → IsLine e

theorem lineOnError_ok : LineOnError root E (.ok ()) := fun _ _ h => by cases h

theorem lineOnError_error {e : String} (h : LineErrors root E → IsLine e) :
    LineOnError root E (.error e) := fun hlines e' heq => by
  cases heq
  exact h hlines

theorem isLine_errnoString {r : Reply} (hr : ∀ e, r = .fail e → E e) (h : LineErrors root E) :
    IsLine (errnoString r) := by
  cases r with
  | fail e => exact h.2 e (hr e rfl)
  | _ => simp [errnoString, IsLine]

/-- The error of a call: a text of the program and that of the kernel. -/
theorem lineOnError_errno {r : Reply} {text : String} (hr : ∀ e, r = .fail e → E e)
    (htext : LineErrors root E → IsLine text) :
    LineOnError root E (.error (text ++ errnoString r)) :=
  lineOnError_error fun h => isLine_append.mpr ⟨htext h, isLine_errnoString hr h⟩

theorem isLine_jobDirectory (h : IsLine root) (id : ℕ) : IsLine (jobDirectory root id) := by
  unfold jobDirectory
  simp only [isLine_append, isLine_nat, h]
  simp [IsLine]

theorem isLine_name (payload : Payload) : IsLine payload.name := by
  cases payload <;> simp [Payload.name, IsLine]

theorem isLine_tmp (payload : Payload) (pid : ℕ) :
    IsLine (EntryName.tmp payload.name pid).text := by
  unfold EntryName.text
  simp only [isLine_append, isLine_nat, isLine_name]
  simp [IsLine]

theorem Creates.mono {Q' : A → Prop} {prog : Program A} (h : Creates E T Q prog)
    (hQ : ∀ a, Q a → Q' a) : Creates E T Q' prog := by
  induction prog with
  | ret a => exact hQ a h
  | call c next ih => exact ⟨h.1, fun r hr => ih r (h.2 r hr)⟩

theorem creates_abandon {d : ℕ} {n : EntryName} {e : String}
    (he : LineErrors root E → IsLine e) : Creates E T (LineOnError root E) (abandon d n e) :=
  .quiet (by simp) fun _ _ => lineOnError_error he

theorem creates_writeAll (root : String) {fd : ℕ} {data : Bytes} :
    Creates E T (LineOnError root E) (writeAll fd data) := by
  fun_induction writeAll fd data with
  | case1 => exact lineOnError_ok
  | case2 data hdata ih =>
    refine .quiet (by simp) ?_
    rintro (e | _ | j | w) hr
    case wrote =>
      dsimp only
      split_ifs with hw
      · exact lineOnError_error fun _ => by simp [IsLine]
      · exact ih w hw
    all_goals exact lineOnError_error fun h => isLine_errnoString hr h

theorem creates_copyPieces (root : String) {fd : ℕ} {pieces : List Bytes} :
    Creates E T (LineOnError root E) (copyPieces fd pieces) := by
  induction pieces with
  | nil => exact lineOnError_ok
  | cons piece pieces ih =>
    refine .bind (creates_writeAll root) fun r hr => ?_
    cases r with
    | error e =>
      refine lineOnError_error fun h => isLine_append.mpr ⟨?_, hr h e rfl⟩
      simp [IsLine]
    | ok => exact ih

theorem creates_publishFile (root : String) {d fd : ℕ} {t : FileTag} :
    Creates E T (LineOnError root E) (publishFile d fd t) := by
  refine .quiet (by simp) ?_
  rintro (e | _ | j | w) hr
  case done =>
    dsimp only
    refine .quiet (by simp) ?_
    rintro (e | _ | j | w) hr
    case done =>
      dsimp only
      refine .quiet (by simp) ?_
      rintro (e | _ | j | w) hr
      case done => exact lineOnError_ok
      all_goals exact lineOnError_errno hr fun h => by simp [IsLine]
    all_goals
      refine lineOnError_errno hr fun h => ?_
      simp only [isLine_append, isLine_name]
      simp [IsLine]
  all_goals
    refine lineOnError_errno hr fun h => ?_
    simp only [isLine_append, isLine_tmp]
    simp [IsLine]

theorem creates_atomicWriteFile {t : FileTag} (ht : T t) :
    Creates E T (LineOnError root E) (atomicWriteFile root t) := by
  have hdir : ∀ {text : String}, IsLine text →
      LineErrors root E → IsLine (text ++ jobDirectory root t.payload.job ++ ": ") := by
    intro text htext h
    simp only [isLine_append, isLine_jobDirectory h.1, htext]
    simp [IsLine]
  have htmp : ∀ {text : String}, IsLine text →
      LineErrors root E → IsLine (text ++ (EntryName.tmp t.payload.name t.pid).text ++ ": ") := by
    intro text htext _
    simp only [isLine_append, isLine_tmp, htext]
    simp [IsLine]
  have hwrite : IsLine "write " := by simp [IsLine]
  unfold atomicWriteFile
  dsimp only
  refine .quiet (by simp) ?_
  rintro (e | _ | d | w) hr
  case inode =>
    refine ⟨fun _ _ _ _ h => (by cases h; exact ht), ?_⟩
    rintro (e | _ | i | w) hr
    case inode =>
      refine .bind (creates_writeAll root) fun r hr => ?_
      cases r with
      | error e => exact creates_abandon fun h => isLine_append.mpr ⟨htmp hwrite h, hr h e rfl⟩
      | ok =>
        refine .quiet (by simp) ?_
        rintro (e | _ | j | w) hr
        case done =>
          dsimp only
          refine .quiet (by simp) ?_
          rintro (e | _ | j | w) hr
          case done =>
            dsimp only
            refine .quiet (by simp) ?_
            rintro (e | _ | j | w) hr
            case done => exact lineOnError_ok
            all_goals exact lineOnError_errno hr (hdir (by simp [IsLine]))
          all_goals
            refine creates_abandon fun h => isLine_append.mpr ⟨?_, isLine_errnoString hr h⟩
            simp only [isLine_append, isLine_name]
            simp [IsLine]
        all_goals
          exact creates_abandon fun h => isLine_append.mpr ⟨htmp hwrite h, isLine_errnoString hr h⟩
    all_goals exact lineOnError_errno hr (htmp (by simp [IsLine]))
  all_goals exact lineOnError_errno hr (hdir (by simp [IsLine]))

theorem creates_saveMetaFile {pid callNo : ℕ} {m : Meta} (ht : T ⟨pid, callNo, .record m⟩) :
    Creates E T (LineOnError root E) (saveMetaFile root pid callNo m) := by
  refine .quiet (by simp) fun r hr => ?_
  split_ifs
  · exact creates_atomicWriteFile ht
  · refine lineOnError_errno hr fun h => ?_
    simp only [isLine_append, isLine_jobDirectory h.1]
    simp [IsLine]

theorem creates_copyOutput {pid callNo id : ℕ} {pieces : List Bytes} {feedErr : Option String}
    (ht : T ⟨pid, callNo, .output id pieces.flatten feedErr.isNone⟩) :
    Creates E T (fun _ => True) (copyOutput pid callNo id pieces feedErr) := by
  have habandon : ∀ {d : ℕ} {n : EntryName} {e : String},
      Creates E T (fun _ => True) (abandon d n e) := .quiet (by simp) fun _ _ => trivial
  refine .quiet (by simp) ?_
  rintro (e | _ | d | w) _
  case inode =>
    refine ⟨fun _ _ _ _ h => (by cases h; exact ht), ?_⟩
    rintro (e | _ | i | w) _
    case inode =>
      refine .bind (creates_copyPieces "") fun r _ => ?_
      cases r with
      | error e => exact habandon
      | ok =>
        cases feedErr with
        | some e => exact habandon
        | none =>
          refine .bind (creates_publishFile "") fun r _ => ?_
          cases r with
          | error e => exact habandon
          | ok => exact True.intro
    all_goals exact True.intro
  all_goals exact True.intro

/-- The tag of a file that the call creates. -/
def WriteOp.Tags (op : WriteOp) (callNo : ℕ) (root : String) (E : String → Prop) (t : FileTag) :
    Prop :=
  t.call = callNo ∧ op.Writes t.payload ∧ (LineErrors root E → op.Plain → t.payload.Plain)

/-- **A call writes what it is to write, under its own number.** -/
theorem creates_program {pid callNo : ℕ} (op : WriteOp) :
    Creates E (op.Tags callNo root E) (fun _ => True) (op.program root pid callNo) := by
  cases op with
  | save m => exact (creates_saveMetaFile ⟨rfl, rfl, fun _ h => h⟩).mono fun _ _ => trivial
  | copy input read l => exact creates_copyOutput ⟨rfl, rfl, fun _ _ => trivial⟩
  | finalize id job inspect =>
    have hsave : ∀ {m : Meta}, (m.id = job.jobMeta.id ∧ m.op = job.jobMeta.op ∧
        (m.state = "completed" → ∃ body, resultsOk job inspect = .ok body)) →
        (LineErrors root E → (WriteOp.finalize id job inspect).Plain → m.Lines) →
        Creates E ((WriteOp.finalize id job inspect).Tags callNo root E) (fun _ => True)
          (saveMetaFile root pid callNo m) :=
      fun hwrites hplain => (creates_saveMetaFile ⟨rfl, hwrites, hplain⟩).mono fun _ _ => trivial
    have hsettle := fun h : (WriteOp.finalize id job inspect).Plain => settle_lines job.stopReason h.1 h.2
    have hpersisting : IsLine "persisting" := by simp [IsLine]
    have hfailed : IsLine "failed" := by simp [IsLine]
    have hstate := isLine_settle job.stopReason job.jobMeta (resultsOk job inspect)
    dsimp only [WriteOp.program]
    unfold finalizeFiles
    cases hresult : resultsOk job inspect with
    | error why =>
      rw [hresult] at hsettle hstate
      refine hsave ⟨rfl, rfl, fun hcompleted => ?_⟩ fun _ h => (hsettle h).setState hstate
      exact absurd (congrArg trimText hcompleted) (settle_error job.stopReason why job.jobMeta)
    | ok body =>
      rw [hresult] at hsettle hstate
      dsimp only
      split_ifs with hbody
      · exact hsave ⟨rfl, rfl, fun _ => ⟨body, hresult⟩⟩ fun _ h => (hsettle h).setState hstate
      · refine .bind (hsave ⟨rfl, rfl, fun _ => ⟨body, hresult⟩⟩
          fun _ h => (hsettle h).setState hpersisting) fun _ _ => ?_
        have hwrites : (WriteOp.finalize id job inspect).Writes (.output id (textBytes body) true) :=
          ⟨rfl, body, hresult, hbody, rfl⟩
        refine .bind (creates_atomicWriteFile ⟨rfl, hwrites, fun _ _ => trivial⟩) fun r hr => ?_
        cases r with
        | error e =>
          refine hsave ⟨rfl, rfl, fun _ => ⟨body, hresult⟩⟩ fun herrors h => ?_
          exact (((hsettle h).setState hpersisting).setError (hr herrors e rfl)).setState hfailed
        | ok =>
          exact hsave ⟨rfl, rfl, fun _ => ⟨body, hresult⟩⟩ fun _ h =>
            ((hsettle h).setState hpersisting).setState hstate

/-- Only `create` tags an inode. -/
theorem tag_of_step {c : Call EntryName UInt8 FileTag} {fs fs' : Disk} {r : Reply}
    (h : CrashFs.Step c fs r fs') {i : ℕ} {t : FileTag} (ht : fs'.tag i = some t) :
    fs.tag i = some t ∨ ∃ d n excl, c = .create d n excl t := by
  obtain ⟨outcome | count, hexec⟩ := h
  · cases hexec
    exact Or.inl ht
  · unfold exec succeed at hexec
    cases c with
    | create d n excl t' =>
      have hset : ∀ (fs₀ : Disk) {j : ℕ}, fs₀.tag = fs.tag → (fs₀.setTag j t').tag i = some t →
          fs.tag i = some t ∨ t' = t := by
        intro fs₀ j heq hi
        by_cases hij : i = j
        · subst hij
          change Function.update fs₀.tag i (some t') i = some t at hi
          rw [Function.update_self] at hi
          exact Or.inr (Option.some.inj hi)
        · rw [← heq]
          exact Or.inl ((Function.update_of_ne hij _ _).symm.trans hi)
      dsimp only at hexec
      split at hexec
      · split_ifs at hexec <;> cases hexec
        · exact Or.inl ht
        · rcases hset (fs.store _ [] false) rfl ht with h | rfl
          · exact Or.inl h
          · exact Or.inr ⟨d, n, excl, rfl⟩
      · cases hexec
        rcases hset ((fs.push _).store fs.next [] false) rfl ht with h | rfl
        · exact Or.inl h
        · exact Or.inr ⟨d, n, excl, rfl⟩
    | _ =>
      left
      dsimp only at hexec
      first
        | (cases hexec; exact ht)
        | (split at hexec <;> cases hexec <;> exact ht)

end Creates

/-! ## The invariant -/

variable {P : Payload → Prop} {fs fs' : Disk}

/-- What has been achieved when the call returns. -/
def Task.Ends (pid : ℕ) (task : Task) (result : Except String Unit) (fs : Disk) : Prop :=
  match task.op with
  | .save m => result = .ok () → ∃ d i, Published d i ⟨pid, task.call, .record m⟩ fs
  | .copy input read l =>
    result = .ok () → (l.handed input read).2 = none ∧
      ∃ d i, Published d i ⟨pid, task.call, .output l.id (l.handed input read).1.flatten true⟩ fs
  | .finalize _ _ _ => True

/-- The output of job `id` is certain to be there. -/
def HasOutput (fs : Disk) (id : ℕ) : Prop :=
  ∃ d, fs.live jobsDir (.job id) = some d ∧ Certain fs d (.file "output")

/-- The invariant of a workspace where the payloads in `P` promise an output. -/
structure Workspace.Inv (root : String) (rule : Workspace.Rule) (P : Payload → Prop)
    (w : Workspace) : Prop where
  sound : Sound P w.disk
  works : ∀ pid task, w.tasks pid = some task → Writes P pid task.rest (task.Ends pid) w.disk
  creates : ∀ pid task, w.tasks pid = some task → (task.call, task.op) ∈ w.entered ∧
    Creates rule.errno (task.op.Tags task.call root rule.errno) (fun _ => True) task.rest
  origin : ∀ i t, w.disk.tag i = some t → ∃ op, (t.call, op) ∈ w.entered ∧
    op.Tags t.call root rule.errno t
  slots : ∀ id chunk, (id, chunk) ∈ w.slots → chunk.ok ≠ 0 → HasOutput w.disk id

theorem not_mayName_emptyDisk {d i : ℕ} {n : EntryName} : ¬ MayName emptyDisk d n i := by
  rintro (h | ⟨u, hu, -⟩)
  · cases h
  · cases hu

theorem named_emptyDisk : Named emptyDisk := by
  constructor
  case root => exact Nat.zero_lt_one
  case fresh => exact fun d n i h => absurd h not_mayName_emptyDisk
  case stays => exact fun u hu => absurd hu List.not_mem_nil
  case jobs => exact fun a d h => absurd h not_mayName_emptyDisk
  case homes => exact fun a b d h => absurd h not_mayName_emptyDisk
  case single => exact fun d s p i d' s' p' h => absurd h not_mayName_emptyDisk
  case apart => exact fun d s p i h => absurd (mayName_of_live h) not_mayName_emptyDisk
  case split =>
    intro kept hkept d s p i h
    cases List.sublist_nil.mp hkept
    cases h

theorem sound_emptyDisk : Sound P emptyDisk := by
  constructor
  case named => exact named_emptyDisk
  case tagged => exact nofun
  case owned => exact fun d s p i h => absurd h not_mayName_emptyDisk
  case whole => exact fun d s i h => absurd h not_mayName_emptyDisk
  case promised => exact fun d i t h => absurd h not_mayName_emptyDisk

theorem HasOutput.advances {id : ℕ} (h : HasOutput fs id) (hg : Advances fs fs') :
    HasOutput fs' id := by
  obtain ⟨d, hdir, hcertain⟩ := h
  exact ⟨d, hg.jobs _ _ hdir, hg.certain _ _ hcertain⟩

namespace Workspace

variable {w w' : Workspace} {root : String} {rule : Rule}

theorem inv_start (anchored : Bool) : (start anchored).Inv root rule P where
  sound := sound_emptyDisk
  works := fun _ _ h => by cases h
  creates := fun _ _ h => by cases h
  origin := fun _ _ h => by cases h
  slots := fun _ _ h => by cases h

/-- Whose task it is, once process `pid` has another or none. -/
theorem of_update_tasks {tasks : ℕ → Option Task} {pid q : ℕ} {next : Option Task} {task : Task}
    (h : Function.update tasks pid next q = some task) :
    (q = pid ∧ next = some task) ∨ (q ≠ pid ∧ tasks q = some task) := by
  by_cases hq : q = pid
  · subst hq
    exact Or.inl ⟨rfl, (Function.update_self q next tasks).symm.trans h⟩
  · exact Or.inr ⟨hq, (Function.update_of_ne hq next tasks).symm.trans h⟩

theorem of_tasks_none {tasks : ℕ → Option Task} {pid q : ℕ} {task : Task}
    (h : Function.update tasks pid none q = some task) : tasks q = some task := by
  rcases of_update_tasks h with ⟨-, hnone⟩ | ⟨-, hold⟩
  · cases hnone
  · exact hold

theorem Inv.call (h : w.Inv root rule P) {pid k : ℕ} {op : WriteOp} {c : Call EntryName UInt8 FileTag}
    {next : Reply → Program (Except String Unit)} {r : Reply} {disk : Disk}
    (htask : w.tasks pid = some ⟨k, op, .call c next⟩) (hstep : CrashFs.Step c w.disk r disk)
    (herrno : ∀ e, r = .fail e → rule.errno e) :
    ((w.setTask pid (some ⟨k, op, next r⟩)).setDisk disk).Inv root rule P ∧ Advances w.disk disk := by
  obtain ⟨hsound, hallowed, hnext⟩ :=
    (h.works pid _ htask).next (others_interference pid) h.sound hstep
  obtain ⟨hentered, hcreates⟩ := h.creates pid _ htask
  refine ⟨⟨hsound, fun q task hq => ?_, fun q task hq => ?_, fun i t ht => ?_,
    fun id chunk hid hok => ?_⟩, hallowed.1⟩
  · rcases of_update_tasks hq with ⟨rfl, hnew⟩ | ⟨hqp, hold⟩
    · cases hnew
      exact hnext
    · have hworks := h.works q task hold
      exact hworks.stable (others_interference q) ⟨hallowed.1, hallowed.2 q hqp⟩
  · rcases of_update_tasks hq with ⟨rfl, hnew⟩ | ⟨-, hold⟩
    · cases hnew
      exact ⟨hentered, hcreates.2 r herrno⟩
    · exact h.creates q task hold
  · rcases tag_of_step hstep ht with ht | ⟨d, n, excl, hc⟩
    · exact h.origin i t ht
    · obtain ⟨rfl, htags⟩ := hcreates.1 d n excl t hc
      exact ⟨op, hentered, rfl, htags⟩
  · exact (h.slots id chunk hid hok).advances hallowed.1

theorem Inv.leave (h : w.Inv root rule P) {pid k : ℕ} {op : WriteOp} {result : Except String Unit}
    (htask : w.tasks pid = some ⟨k, op, .ret result⟩) : (w.leave pid op result).Inv root rule P := by
  have hends := (h.works pid _ htask).result (others_interference pid) h.sound
  refine ⟨h.sound, fun q task hq => h.works q task (of_tasks_none hq),
    fun q task hq => h.creates q task (of_tasks_none hq), h.origin, fun id chunk hid hok => ?_⟩
  rcases List.mem_append.mp hid with hid | hid
  · cases op with
    | copy input read l =>
      -- a good slot is stored after the output has been published
      obtain ⟨chunk', hchunk, heq⟩ := List.mem_map.mp hid
      cases heq
      obtain ⟨-, d, i, hpublished⟩ := hends (published_of_slot hchunk hok)
      exact ⟨d, hpublished.dir, hpublished.lasting.kept.certain⟩
    | _ => cases hid
  · exact h.slots id chunk hid hok

/-- **The power may fail at any moment.** -/
theorem Inv.reboot (h : w.Inv root rule P) {disk : Disk} {anchored : Bool} (hloss : w.Loss disk anchored) :
    (w.reboot disk anchored).Inv root rule P := by
  have hsound : Sound P disk ∧ (disk.tag = w.disk.tag ∨ disk.tag = fun _ => none) := by
    cases hloss with
    | kept c => exact ⟨h.sound.restart c, Or.inl rfl⟩
    | lost => exact ⟨sound_emptyDisk, Or.inr rfl⟩
  refine ⟨hsound.1, fun _ _ hq => (by cases hq), fun _ _ hq => (by cases hq), fun i t ht => ?_,
    fun _ _ hid => by cases hid⟩
  change disk.tag i = some t at ht
  rcases hsound.2 with htag | htag
  · rw [htag] at ht
    exact h.origin i t ht
  · rw [htag] at ht
    cases ht

/-- **Step lemma.** It is enough that each call is made when its obligations are met. -/
theorem Step.inv (h : Step root rule w w') (hinv : w.Inv root rule P)
    (hmay : ∀ op pid, rule.may w op → w' = w.enter root pid op →
      Writes P pid (op.program root pid w.calls) (Task.Ends pid ⟨w.calls, op, op.program root pid
        w.calls⟩) w.disk) : w'.Inv root rule P := by
  cases h with
  | @enter pid op hidle hop =>
    refine ⟨hinv.sound, fun q task hq => ?_, fun q task hq => ?_, fun i t ht => ?_, hinv.slots⟩
    · rcases of_update_tasks hq with ⟨rfl, hnew⟩ | ⟨-, hold⟩
      · cases hnew
        exact hmay op q hop rfl
      · exact hinv.works q task hold
    · rcases of_update_tasks hq with ⟨rfl, hnew⟩ | ⟨-, hold⟩
      · cases hnew
        exact ⟨List.mem_cons_self, creates_program op⟩
      · obtain ⟨hentered, hcreates⟩ := hinv.creates q task hold
        exact ⟨List.mem_cons_of_mem _ hentered, hcreates⟩
    · obtain ⟨op', hentered, htags⟩ := hinv.origin i t ht
      exact ⟨op', List.mem_cons_of_mem _ hentered, htags⟩
  | call htask hstep herrno => exact (hinv.call htask hstep herrno).1
  | leave htask => exact hinv.leave htask
  | kill =>
    exact ⟨hinv.sound, fun q task hq => hinv.works q task (of_tasks_none hq),
      fun q task hq => hinv.creates q task (of_tasks_none hq), hinv.origin, hinv.slots⟩
  | power hloss => exact hinv.reboot hloss

/-! ## A run without failures -/

/-- How much a call that is not interrupted writes. -/
def wanted : Call EntryName UInt8 FileTag → ℕ
  | .write _ data => data.length
  | _ => 0

/-- The process runs alone and every call goes through. -/
def play {A : Type} : Program A → Disk → A × Disk
  | .ret a, fs => (a, fs)
  | .call c next, fs => play (next (succeed fs (wanted c) c).1) (succeed fs (wanted c) c).2

/-- The rule allows the errors of a kernel that lets every call through: that a name
    is there, or is not. -/
def Rule.Usual (rule : Rule) : Prop := rule.errno eexist ∧ rule.errno enoent

theorem Rule.Usual.errno (h : rule.Usual) {fs : Disk} {count : ℕ}
    {c : Call EntryName UInt8 FileTag} (e : String) (he : (succeed fs count c).1 = .fail e) :
    rule.errno e := by
  rcases succeed_fail he with rfl | rfl
  · exact h.1
  · exact h.2

theorem run_play (husual : rule.Usual) {pid k : ℕ} {op : WriteOp}
    {prog : Program (Except String Unit)} (htask : w.tasks pid = some ⟨k, op, prog⟩) :
    Run root rule w ((w.setTask pid (some ⟨k, op, .ret (play prog w.disk).1⟩)).setDisk
      (play prog w.disk).2) := by
  induction prog generalizing w with
  | ret a =>
    have hsame : (w.setTask pid (some ⟨k, op, .ret a⟩)).setDisk w.disk = w := by
      unfold setTask setDisk
      rw [← htask, Function.update_eq_self]
    rw [play, hsame]
  | call c next ih =>
    have hstep : Step root rule w _ := .call htask ⟨.ok (wanted c), rfl⟩ husual.errno
    refine .head hstep ?_
    have hrun := ih (succeed w.disk (wanted c) c).1 (w := (w.setTask pid (some ⟨k, op,
      next (succeed w.disk (wanted c) c).1⟩)).setDisk (succeed w.disk (wanted c) c).2)
      (Function.update_self _ _ _)
    unfold setTask setDisk at hrun ⊢
    rw [Function.update_idem] at hrun
    exact hrun

theorem play_bind {A B : Type} (prog : Program A) (f : A → Program B) (fs : Disk) :
    play (prog.bind f) fs = play (f (play prog fs).1) (play prog fs).2 := by
  induction prog generalizing fs with
  | ret a => rfl
  | call c next ih => exact ih _ _

/-- One `write` is enough. -/
theorem play_writeAll (fs : Disk) (i : ℕ) (data : Bytes) : (play (writeAll i data) fs).1 = .ok () ∧
    (play (writeAll i data) fs).2.live = fs.live ∧ (play (writeAll i data) fs).2.tag = fs.tag := by
  rw [writeAll]
  split_ifs with hdata
  · exact ⟨rfl, rfl, rfl⟩
  · rw [play]
    dsimp only [wanted, succeed]
    rw [List.take_length, dif_neg (by simpa using hdata), List.drop_length, writeAll,
      dif_pos rfl]
    exact ⟨rfl, rfl, rfl⟩

/-- The running system sees the file `t` under its name. -/
def Shows (fs : Disk) (t : FileTag) : Prop :=
  ∃ d i, fs.live jobsDir (.job t.payload.job) = some d ∧
    fs.live d (.file t.payload.name) = some i ∧ fs.tag i = some t

theorem play_atomicWriteFile {fs : Disk} {t : FileTag}
    (hdir : (fs.live jobsDir (.job t.payload.job)).isSome) :
    (play (atomicWriteFile root t) fs).1 = .ok () ∧
      Shows (play (atomicWriteFile root t) fs).2 t ∧
      ∀ a, (play (atomicWriteFile root t) fs).2.live jobsDir (.job a) = fs.live jobsDir (.job a) := by
  obtain ⟨d, hdir⟩ := Option.isSome_iff_exists.mp hdir
  have hopen : ∀ n, succeed fs n (.openDir jobsDir (.job t.payload.job)) = (.inode d, fs) := by
    intro n
    rw [succeed, hdir]
  obtain ⟨i, fs₁, hcreate, htmp, htag, hjobs⟩ : ∃ i fs₁,
      succeed fs 0 (.create d (.tmp t.payload.name t.pid) false t) = (.inode i, fs₁) ∧
        fs₁.live d (.tmp t.payload.name t.pid) = some i ∧ fs₁.tag i = some t ∧
        ∀ a, fs₁.live jobsDir (.job a) = fs.live jobsDir (.job a) := by
    rw [succeed]
    split
    · next i hi => exact ⟨i, _, rfl, hi, Function.update_self _ _ _, fun _ => rfl⟩
    · refine ⟨_, _, rfl, ?_, Function.update_self _ _ _, fun a => ?_⟩
      · rw [live_alloc, live_setTag, live_store, live_push]
        simp
      · rw [live_alloc, live_setTag, live_store, live_push]
        simp
  obtain ⟨hwrite, hlive, htags⟩ := play_writeAll fs₁ i t.payload.bytes
  unfold atomicWriteFile
  dsimp only
  rw [play, hopen]
  dsimp only
  rw [play]
  dsimp only [wanted]
  rw [hcreate]
  dsimp only
  rw [play_bind, hwrite]
  dsimp only
  rw [play]
  dsimp only [wanted, succeed]
  rw [play]
  dsimp only [wanted, succeed]
  rw [live_store, hlive, htmp]
  have hkept : ∀ a, (Fs.flush (Fs.note (Fs.push (Fs.store (play (writeAll i t.payload.bytes) fs₁).2 i
      ((play (writeAll i t.payload.bytes) fs₁).2.data i) true) ⟨d, [(.file t.payload.name, some i),
      (.tmp t.payload.name t.pid, none)]⟩) d (.file t.payload.name) i) d).live jobsDir (.job a) =
      fs.live jobsDir (.job a) := by
    intro a
    rw [live_flush, live_note, live_push, live_store, hlive, ← hjobs a]
    simp
  refine ⟨rfl, ⟨d, i, (hkept _).trans hdir, ?_, ?_⟩, hkept⟩
  · show ((Fs.flush _ d).live d _) = _
    rw [live_flush, live_note, live_push]
    simp
  · show (play (writeAll i t.payload.bytes) fs₁).2.tag i = some t
    rw [htags]
    exact htag

/-- **A save in which no call fails returns true, and the record is there.** -/
theorem play_saveMetaFile (fs : Disk) (pid callNo : ℕ) (m : Meta) :
    (play (saveMetaFile root pid callNo m) fs).1 = .ok () ∧
      Shows (play (saveMetaFile root pid callNo m) fs).2 ⟨pid, callNo, .record m⟩ ∧
      ∀ a d, fs.live jobsDir (.job a) = some d →
        (play (saveMetaFile root pid callNo m) fs).2.live jobsDir (.job a) = some d := by
  have hmkdir : ∀ n, let made := succeed fs n (.mkdir jobsDir (.job m.id))
      (made.1 = .done ∨ made.1 = .fail eexist) ∧ (made.2.live jobsDir (.job m.id)).isSome ∧
        ∀ a d, fs.live jobsDir (.job a) = some d → made.2.live jobsDir (.job a) = some d := by
    intro n
    rw [succeed]
    split
    · next d hd => exact ⟨Or.inr rfl, by rw [hd]; rfl, fun _ _ h => h⟩
    · next hnone =>
      refine ⟨Or.inl rfl, ?_, fun a d h => ?_⟩
      · rw [live_alloc, live_push]
        simp
      · have hne : a ≠ m.id := by
          rintro rfl
          cases hnone.symm.trans h
        rw [live_alloc, live_push]
        simpa [hne] using h
  unfold saveMetaFile
  rw [play, if_pos (hmkdir _).1]
  obtain ⟨hok, hshows, hjobs⟩ :=
    @play_atomicWriteFile root _ ⟨pid, callNo, .record m⟩ (hmkdir _).2.1
  exact ⟨hok, hshows, fun a d h => (hjobs a).trans ((hmkdir _).2.2 a d h)⟩

/-- Process `pid` runs the call alone, to its end. -/
def played (w : Workspace) (root : String) (pid : ℕ) (op : WriteOp) : Workspace :=
  let ended := play (op.program root pid w.calls) w.disk
  (((w.enter root pid op).setTask pid (some ⟨w.calls, op, .ret ended.1⟩)).setDisk ended.2).leave
    pid op ended.1

theorem played_disk (w : Workspace) (pid : ℕ) (op : WriteOp) :
    (w.played root pid op).disk = (play (op.program root pid w.calls) w.disk).2 := rfl

theorem played_entered (w : Workspace) (pid : ℕ) (op : WriteOp) :
    (w.played root pid op).entered = (w.calls, op) :: w.entered := rfl

theorem run_played (husual : rule.Usual) {pid : ℕ} {op : WriteOp} (hidle : w.tasks pid = none)
    (hmay : rule.may w op) :
    Run root rule w (w.played root pid op) := by
  have henter : Step root rule w (w.enter root pid op) := .enter hidle hmay
  have hplay : Run root rule (w.enter root pid op) _ := run_play husual (Function.update_self pid _ w.tasks)
  refine ((Relation.ReflTransGen.single henter).trans hplay).tail (.leave (k := w.calls) ?_)
  exact Function.update_self _ _ _

/-- A run under a rule is one under a laxer rule. -/
theorem Step.mono {rule' : Rule} (hmay : ∀ w op, rule.may w op → rule'.may w op)
    (herrno : ∀ e, rule.errno e → rule'.errno e) (h : Step root rule w w') :
    Step root rule' w w' := by
  cases h with
  | enter hidle h => exact .enter hidle (hmay _ _ h)
  | call htask hstep h => exact .call htask hstep fun e he => herrno e (h e he)
  | leave htask => exact .leave htask
  | kill => exact .kill
  | power hloss => exact .power hloss

end Workspace

end Forge
