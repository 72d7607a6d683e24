import Forge.Basic

/-!
# The job record

`Meta` and `is_terminal_state` (forge.hpp:82-114), `validate_meta` and
`meta_to_text` (store.cpp:399-473).

* `validateMeta_eq_none`: what an admitted record guarantees.
-/

namespace Forge

def kMaxWorkers : ℤ := 16

def kDirectAlign : ℕ := 4096

/-- `job_directory` (store.cpp:164-166). -/
def jobDirectory (root : String) (id : ℕ) : String := root ++ "/jobs/" ++ toString id

/-- `is_terminal_state` (forge.hpp:82-85). -/
def isTerminalState (state : String) : Bool :=
  state = "completed" || state = "failed" || state = "timed_out" || state = "cancelled"

/-- `struct Meta` (forge.hpp:90-114). -/
structure Meta where
  id : ℕ := 0
  state : String := "submitted"
  op : String := ""
  input : String := ""
  execPath : String := ""
  io : String := "mmap"
  workers : ℤ := 1
  priority : ℤ := 0
  nice : ℤ := 0
  cpu : ℤ := -1
  memMb : ℕ := 0
  cpuSec : ℕ := 0
  maxFds : ℕ := 0
  maxOutMb : ℕ := 0
  deadlineS : ℕ := 0
  procs : String := ""
  exits : String := ""
  bytes : ℕ := 0
  digest : String := ""
  error : String := ""
  submittedMs : ℤ := 0
  startedMs : ℤ := 0
  finishedMs : ℤ := 0
  deriving DecidableEq

/-! ## Assignments to fields -/

namespace Meta

variable (m : Meta)

def setState (state : String) : Meta := { m with state := state }
def setError (error : String) : Meta := { m with error := error }
def setBytes (bytes : ℕ) : Meta := { m with bytes := bytes }
def setProcs (procs : String) : Meta := { m with procs := procs }
def setExits (exits : String) : Meta := { m with exits := exits }
def setDigest (digest : String) : Meta := { m with digest := digest }
def setStarted (ms : ℤ) : Meta := { m with startedMs := ms }
def setFinished (ms : ℤ) : Meta := { m with finishedMs := ms }

@[simp] theorem setState_id (s : String) : (m.setState s).id = m.id := rfl
@[simp] theorem setError_id (s : String) : (m.setError s).id = m.id := rfl
@[simp] theorem setBytes_id (n : ℕ) : (m.setBytes n).id = m.id := rfl
@[simp] theorem setProcs_id (s : String) : (m.setProcs s).id = m.id := rfl
@[simp] theorem setExits_id (s : String) : (m.setExits s).id = m.id := rfl
@[simp] theorem setDigest_id (s : String) : (m.setDigest s).id = m.id := rfl
@[simp] theorem setStarted_id (t : ℤ) : (m.setStarted t).id = m.id := rfl
@[simp] theorem setFinished_id (t : ℤ) : (m.setFinished t).id = m.id := rfl

@[simp] theorem setState_state (s : String) : (m.setState s).state = s := rfl
@[simp] theorem setError_state (s : String) : (m.setError s).state = m.state := rfl
@[simp] theorem setBytes_state (n : ℕ) : (m.setBytes n).state = m.state := rfl
@[simp] theorem setProcs_state (s : String) : (m.setProcs s).state = m.state := rfl
@[simp] theorem setExits_state (s : String) : (m.setExits s).state = m.state := rfl
@[simp] theorem setDigest_state (s : String) : (m.setDigest s).state = m.state := rfl
@[simp] theorem setStarted_state (t : ℤ) : (m.setStarted t).state = m.state := rfl
@[simp] theorem setFinished_state (t : ℤ) : (m.setFinished t).state = m.state := rfl

@[simp] theorem setState_op (s : String) : (m.setState s).op = m.op := rfl
@[simp] theorem setError_op (s : String) : (m.setError s).op = m.op := rfl
@[simp] theorem setBytes_op (n : ℕ) : (m.setBytes n).op = m.op := rfl
@[simp] theorem setProcs_op (s : String) : (m.setProcs s).op = m.op := rfl
@[simp] theorem setExits_op (s : String) : (m.setExits s).op = m.op := rfl
@[simp] theorem setStarted_op (t : ℤ) : (m.setStarted t).op = m.op := rfl
@[simp] theorem setFinished_op (t : ℤ) : (m.setFinished t).op = m.op := rfl

@[simp] theorem setState_bytes (s : String) : (m.setState s).bytes = m.bytes := rfl
@[simp] theorem setBytes_bytes (n : ℕ) : (m.setBytes n).bytes = n := rfl
@[simp] theorem setProcs_bytes (s : String) : (m.setProcs s).bytes = m.bytes := rfl
@[simp] theorem setExits_bytes (s : String) : (m.setExits s).bytes = m.bytes := rfl
@[simp] theorem setStarted_bytes (t : ℤ) : (m.setStarted t).bytes = m.bytes := rfl
@[simp] theorem setFinished_bytes (t : ℤ) : (m.setFinished t).bytes = m.bytes := rfl

end Meta

/-! ## Validation -/

/-- The text holds a line break. -/
def badText (s : String) : Bool := s.toList.any fun c => c = '\n' || c = '\r'

/-- `validate_meta` (store.cpp:399-444): the error text, or `none` when the
    record is admitted. -/
def validateMeta (m : Meta) : Option String :=
  if badText m.input || badText m.execPath || badText m.op then
    some "paths and operation names cannot contain newlines"
  else if m.op ≠ "sha256" ∧ m.op ≠ "chunk-sha256" ∧ m.op ≠ "count" ∧ m.op ≠ "copy" ∧
      m.op ≠ "exec" then
    some ("unknown operation '" ++ m.op ++ "'. Use sha256, chunk-sha256, count, copy, or exec.")
  else if m.io ≠ "mmap" ∧ m.io ≠ "read" ∧ m.io ≠ "direct" then
    some ("unknown --io '" ++ m.io ++ "'. Use mmap, read, or direct.")
  else if m.workers < 1 ∨ m.workers > kMaxWorkers then
    some ("workers must be between 1 and " ++ toString kMaxWorkers)
  else if m.op = "sha256" ∧ m.workers ≠ 1 then
    some ("sha256 is sequential, so it always uses 1 worker. " ++
      "Use chunk-sha256 to hash slices in parallel " ++
      "(that output is not the sha256 of the whole file).")
  else if (m.op = "copy" ∨ m.op = "exec") ∧ m.workers ≠ 1 then
    some (m.op ++ " uses one worker process")
  else if m.op = "exec" ∧ m.execPath = "" then
    some "exec requires --exec /path/to/program"
  else if m.op ≠ "exec" ∧ m.input = "" then
    some "missing --input"
  else if m.nice < -20 ∨ m.nice > 19 then
    some "nice must be between -20 and 19"
  else none

/-- What `validate_meta` promises of a record it admits. -/
structure Meta.Admitted (m : Meta) : Prop where
  op : m.op = "sha256" ∨ m.op = "chunk-sha256" ∨ m.op = "count" ∨ m.op = "copy" ∨ m.op = "exec"
  io : m.io = "mmap" ∨ m.io = "read" ∨ m.io = "direct"
  workers_pos : 1 ≤ m.workers
  workers_le : m.workers ≤ kMaxWorkers
  single : m.op = "sha256" ∨ m.op = "copy" ∨ m.op = "exec" → m.workers = 1

theorem validateMeta_eq_none {m : Meta} (h : validateMeta m = none) : m.Admitted := by
  unfold validateMeta at h
  split_ifs at h with _ hop hio hworkers hsha hone
  constructor
  · by_contra hno
    push Not at hno
    exact hop hno
  · by_contra hno
    push Not at hno
    exact hio hno
  · omega
  · omega
  · rintro (h | h | h)
    · by_contra hne; exact hsha ⟨h, hne⟩
    · by_contra hne; exact hone ⟨Or.inl h, hne⟩
    · by_contra hne; exact hone ⟨Or.inr h, hne⟩

/-! ## The text of a record -/

/-- `meta_to_text` (store.cpp:446-473). -/
def metaToText (m : Meta) : String :=
  "id=" ++ toString m.id ++ "\n" ++
  "state=" ++ m.state ++ "\n" ++
  "op=" ++ m.op ++ "\n" ++
  "input=" ++ m.input ++ "\n" ++
  "exec=" ++ m.execPath ++ "\n" ++
  "io=" ++ m.io ++ "\n" ++
  "workers=" ++ toString m.workers ++ "\n" ++
  "priority=" ++ toString m.priority ++ "\n" ++
  "nice=" ++ toString m.nice ++ "\n" ++
  "cpu=" ++ toString m.cpu ++ "\n" ++
  "mem_mb=" ++ toString m.memMb ++ "\n" ++
  "cpu_sec=" ++ toString m.cpuSec ++ "\n" ++
  "max_fds=" ++ toString m.maxFds ++ "\n" ++
  "max_out_mb=" ++ toString m.maxOutMb ++ "\n" ++
  "deadline_s=" ++ toString m.deadlineS ++ "\n" ++
  "procs=" ++ m.procs ++ "\n" ++
  "exits=" ++ m.exits ++ "\n" ++
  "bytes=" ++ toString m.bytes ++ "\n" ++
  "digest=" ++ m.digest ++ "\n" ++
  "error=" ++ m.error ++ "\n" ++
  "submitted_ms=" ++ toString m.submittedMs ++ "\n" ++
  "started_ms=" ++ toString m.startedMs ++ "\n" ++
  "finished_ms=" ++ toString m.finishedMs ++ "\n"

end Forge
