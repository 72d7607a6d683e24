import Forge.Store.Codec
import Forge.Store.JobId

/-!
# `forge submit`

Model of `cmd_submit` with `take_flag`, `has_flag` and `real_path`
(main.cpp:83-118, 182-274) up to the record it writes; what it prints and the
line it sends to the controller are left out.

* `parseSubmit_parsed`: what an accepted command line guarantees.
* `submit_recorded`: the record is read back as it was built exactly when the
  paths the system returned are plain and the id is not 0.
* `submit_overridden`: a path that holds a line break overrides the state.
-/

namespace Forge

open KeyValue

/-! ## Model -/

/-- `take_flag` (main.cpp:83-92): the value of the first occurrence that has one,
    and the other arguments. -/
def takeFlag (name : String) : List String → Option (String × List String)
  | arg :: value :: args =>
    if arg = name then some (value, args)
    else (takeFlag name (value :: args)).map fun taken => (taken.1, arg :: taken.2)
  | _ => none

/-- `has_flag` (main.cpp:94-102). -/
def hasFlag (name : String) (args : List String) : Bool × List String :=
  (args.contains name, args.erase name)

/-- `flag_or` (main.cpp:104-109). -/
def flagOr (name fallback : String) (args : List String) : String × List String :=
  (takeFlag name args).getD (fallback, args)

/-- The lambda `need_i` (main.cpp:195-208). -/
def needI (name : String) (fallback : ℤ) (args : List String) : Except String (ℤ × List String) :=
  let (text, args) := flagOr name "" args
  if text = "" then .ok (fallback, args)
  else
    match parseI64 text.toList with
    | none => .error ("bad " ++ name)
    | some n => .ok (toInt n, args)

/-- The lambda `need_u` (main.cpp:209-217); every destination is 0 before. -/
def needU (name : String) (args : List String) : Except String (ℕ × List String) :=
  let (text, args) := flagOr name "" args
  if text = "" then .ok (0, args)
  else
    match parseU64 text.toList with
    | none => .error ("bad " ++ name)
    | some n => .ok (n, args)

/-- `cmd_submit` up to the validation (main.cpp:190-233), without `--workspace`. -/
def parseSubmit (args : List String) : Except String Meta := do
  let (op, args) := flagOr "--operation" "" args
  let (input, args) := flagOr "--input" "" args
  let (execPath, args) := flagOr "--exec" "" args
  let (io, args) := flagOr "--io" "mmap" args
  let (_, args) := hasFlag "--wait" args
  let (workers, args) ← needI "--workers" 1 args
  let (priority, args) ← needI "--priority" 0 args
  let (nice, args) ← needI "--nice" 0 args
  let (cpu, args) ← needI "--cpu" (-1) args
  let (memMb, args) ← needU "--mem-mb" args
  let (cpuSec, args) ← needU "--cpu-sec" args
  let (maxFds, args) ← needU "--max-fds" args
  let (maxOutMb, args) ← needU "--max-out-mb" args
  let (deadlineS, args) ← needU "--deadline" args
  let m : Meta :=
    { op, input, execPath, io, workers, priority, nice, cpu, memMb, cpuSec, maxFds, maxOutMb,
      deadlineS }
  match args, validateMeta m with
  | arg :: _, _ => .error ("unknown argument " ++ arg)
  | [], some err => .error err
  | [], none => .ok m

/-- The record with the paths that the system resolved. -/
def Meta.setPaths (m : Meta) (input execPath : String) : Meta :=
  { m with input := input, execPath := execPath }

/-- The record once it has an id (main.cpp:261-262). -/
def Meta.setSubmitted (m : Meta) (id : ℕ) (now : ℤ) : Meta :=
  { m with id := id, state := "submitted", submittedMs := now }

/-- What the system answers to one `cmd_submit`. -/
structure System where
  /-- `ensure_workspace`, for the argument of `--workspace`. -/
  workspace : String → Except String Unit
  realpath : String → Except String String
  getcwd : Option String
  /-- `inspect_file`: whether the file is regular. -/
  inspect : String → Except String Bool
  /-- What `pread` returns of `next_id`; `none` for an error. -/
  counter : Option (List Char)
  /-- The error of another call of `allocate_job_id`. -/
  allocate : Except String Unit
  /-- `realtime_ms()`. -/
  now : ℤ
  now_range : -2 ^ 63 < now ∧ now < 2 ^ 63

/-- `real_path` with the test of its callers (main.cpp:111-118, 236-239). -/
def System.realPath (s : System) (path : String) : Except String String :=
  match s.realpath path with
  | .error errno => .error ("realpath " ++ path ++ ": " ++ errno)
  | .ok "" => .error ""
  | .ok path => .ok path

/-- The path has no leading slash, as far as it has a first character. -/
def isRelative (path : String) : Bool := path ≠ "" && path.toList.head? ≠ some '/'

/-- The paths of the record (main.cpp:234-256). -/
def System.resolve (s : System) (m : Meta) : Except String Meta :=
  if m.op ≠ "exec" then
    match s.realPath m.input with
    | .error err => .error err
    | .ok input =>
      match s.inspect input with
      | .error err => .error ("input is not a regular file (" ++ err ++ ")")
      | .ok false => .error "input is not a regular file"
      | .ok true => .ok (m.setPaths input m.execPath)
  else
    match s.realPath m.execPath with
    | .error err => .error err
    | .ok execPath =>
      let input := match isRelative m.input, s.getcwd with
        | true, some cwd => cwd ++ "/" ++ m.input
        | _, _ => m.input
      .ok (m.setPaths input execPath)

/-- `allocate_job_id` (store.cpp:247-302) as its caller sees it. -/
def System.allocateJobId (s : System) : Except String ℕ :=
  match s.allocate with
  | .error err => .error err
  | .ok () => nextId s.counter

/-- `cmd_submit` (main.cpp:182-274): an error, or the record it writes. -/
def cmdSubmit (s : System) (args : List String) : Except String Meta := do
  let (workspace, args) := flagOr "--workspace" "" args
  s.workspace workspace
  let m ← parseSubmit args
  let m ← s.resolve m
  let id ← s.allocateJobId
  .ok (m.setSubmitted id s.now)

/-! ## The condition -/

/-- One line of the record can hold the path. -/
def plainPath (path : String) : Bool :=
  !path.toList.contains '\n' && path.toList.getLast? != some '\r'

/-- The paths that the system returns for a command line are plain. -/
def System.PlainPaths (s : System) (m : Meta) : Prop :=
  if m.op ≠ "exec" then ∀ path, s.realpath m.input = .ok path → plainPath path
  else
    (∀ path, s.realpath m.execPath = .ok path → plainPath path) ∧
      (isRelative m.input → ∀ cwd, s.getcwd = some cwd → '\n' ∉ cwd.toList)

/-- The counter of ids holds `UINT64_MAX`, so that the next id is 0. -/
def System.CounterFull (s : System) : Prop :=
  ∃ file, s.counter = some file ∧ parseU64 (counterText file) = some uint64Max

/-! ## The command line -/

theorem Except.bind_ok {ε α β : Type} {x : Except ε α} {f : α → Except ε β} {b : β}
    (h : x >>= f = .ok b) : ∃ a, x = .ok a ∧ f a = .ok b := by
  cases x with
  | error e => cases h
  | ok a => exact ⟨a, rfl, h⟩

theorem toInt_range (n : ℤ) : -2 ^ 31 ≤ toInt n ∧ toInt n < 2 ^ 31 := by
  unfold toInt
  have hle := Int.le_bmod (x := n) (m := 2 ^ 32) (by norm_num)
  have hlt := Int.bmod_lt (x := n) (m := 2 ^ 32) (by norm_num)
  omega

theorem needI_range {name : String} {fallback n : ℤ} {args rest : List String}
    (hfallback : -2 ^ 31 ≤ fallback ∧ fallback < 2 ^ 31)
    (h : needI name fallback args = .ok (n, rest)) : -2 ^ 31 ≤ n ∧ n < 2 ^ 31 := by
  unfold needI at h
  dsimp only at h
  split_ifs at h
  · cases h
    exact hfallback
  · split at h
    · cases h
    · cases h
      exact toInt_range _

theorem needU_lt {name : String} {n : ℕ} {args rest : List String}
    (h : needU name args = .ok (n, rest)) : n < 2 ^ 64 := by
  unfold needU at h
  dsimp only at h
  split_ifs at h
  · cases h
    norm_num
  · split at h
    · cases h
    · next hparse =>
      cases h
      exact parseU64_lt hparse

/-- What an accepted command line guarantees of the record. -/
structure Parsed (m : Meta) : Prop where
  valid : validateMeta m = none
  typed : m.Typed
  procs : m.procs = ""
  exits : m.exits = ""
  digest : m.digest = ""
  error : m.error = ""
  started : m.startedMs = 0
  finished : m.finishedMs = 0

theorem parseSubmit_parsed {args : List String} {m : Meta} (h : parseSubmit args = .ok m) :
    Parsed m := by
  unfold parseSubmit at h
  dsimp only at h
  obtain ⟨⟨workers, args₁⟩, hworkers, h⟩ := Except.bind_ok h
  obtain ⟨⟨priority, args₂⟩, hpriority, h⟩ := Except.bind_ok h
  obtain ⟨⟨nice, args₃⟩, hnice, h⟩ := Except.bind_ok h
  obtain ⟨⟨cpu, args₄⟩, hcpu, h⟩ := Except.bind_ok h
  obtain ⟨⟨memMb, args₅⟩, hmem, h⟩ := Except.bind_ok h
  obtain ⟨⟨cpuSec, args₆⟩, hsec, h⟩ := Except.bind_ok h
  obtain ⟨⟨maxFds, args₇⟩, hfds, h⟩ := Except.bind_ok h
  obtain ⟨⟨maxOutMb, args₈⟩, hout, h⟩ := Except.bind_ok h
  obtain ⟨⟨deadlineS, args₉⟩, hdeadline, h⟩ := Except.bind_ok h
  dsimp only at h
  split at h
  · cases h
  · cases h
  · next hvalid =>
    cases h
    refine ⟨hvalid, ?_, rfl, rfl, rfl, rfl, rfl, rfl⟩
    exact
      { id := by norm_num
        workers := needI_range (by norm_num) hworkers
        priority := needI_range (by norm_num) hpriority
        nice := needI_range (by norm_num) hnice
        cpu := needI_range (by norm_num) hcpu
        memMb := needU_lt hmem
        cpuSec := needU_lt hsec
        maxFds := needU_lt hfds
        maxOutMb := needU_lt hout
        deadlineS := needU_lt hdeadline
        bytes := by norm_num
        submittedMs := by norm_num
        startedMs := by norm_num
        finishedMs := by norm_num }

/-! ## The paths -/

theorem plainPath_iff {path : String} :
    plainPath path = true ↔ '\n' ∉ path.toList ∧ path.toList.getLast? ≠ some '\r' := by
  simp [plainPath]

theorem plainPath_of_badText {path : String} (h : badText path = false) :
    plainPath path = true := by
  unfold badText at h
  rw [List.any_eq_false] at h
  rw [plainPath_iff]
  refine ⟨fun hmem => ?_, fun hlast => ?_⟩
  · exact h _ hmem (by simp)
  · exact h _ (List.mem_of_getLast? hlast) (by simp)

theorem validateMeta_texts {m : Meta} (h : validateMeta m = none) :
    badText m.input = false ∧ badText m.execPath = false := by
  unfold validateMeta at h
  split_ifs at h with hbad
  simp only [Bool.or_eq_true, not_or, Bool.not_eq_true] at hbad
  exact hbad.1

theorem realPath_ok {s : System} {path p : String} (h : s.realPath path = .ok p) :
    s.realpath path = .ok p := by
  unfold System.realPath at h
  split at h
  · cases h
  · cases h
  · next p' _ hreal =>
    cases h
    exact hreal

/-- An argument without line breaks behind a directory is plain if the directory
    holds none. -/
theorem plainPath_join {cwd input : String} (hinput : badText input = false)
    (hrelative : isRelative input = true) :
    plainPath (cwd ++ "/" ++ input) = true ↔ '\n' ∉ cwd.toList := by
  have hplain := plainPath_iff.mp (plainPath_of_badText hinput)
  have hne : input.toList ≠ [] := by
    intro hnil
    have : input = "" := String.toList_inj.mp hnil
    simp [isRelative, this] at hrelative
  rw [plainPath_iff]
  have htext : (cwd ++ "/" ++ input).toList = cwd.toList ++ ('/' :: input.toList) := by
    simp [String.toList_append]
  rw [htext, List.getLast?_append_of_ne_nil _ (List.cons_ne_nil _ _),
    List.getLast?_cons_of_ne_nil hne, List.mem_append, List.mem_cons, not_or, not_or]
  constructor
  · exact fun h => h.1.1
  · exact fun h => ⟨⟨h, by decide, hplain.1⟩, hplain.2⟩

/-- The paths of the record are plain exactly when those that the system returned are. -/
theorem resolve_ok {s : System} {m m' : Meta} (h : s.resolve m = .ok m')
    (hvalid : validateMeta m = none) :
    ∃ input execPath, m' = m.setPaths input execPath ∧
      (plainPath input = true ∧ plainPath execPath = true ↔ s.PlainPaths m) := by
  obtain ⟨hinput, hexec⟩ := validateMeta_texts hvalid
  unfold System.resolve at h
  unfold System.PlainPaths
  split_ifs at h ⊢ with hop
  · -- a built-in operation: only the input is resolved
    split at h
    · cases h
    · next input hreal =>
      split at h
      · cases h
      · cases h
      · cases h
        refine ⟨input, m.execPath, rfl, ?_⟩
        have hreal := realPath_ok hreal
        constructor
        · rintro ⟨hplain, -⟩ path hpath
          rw [hreal] at hpath
          cases hpath
          exact hplain
        · exact fun hall => ⟨hall input hreal, plainPath_of_badText hexec⟩
  · -- a program: its path is resolved, and a relative input is joined to the directory
    split at h
    · cases h
    · next execPath hreal =>
      have hreal := realPath_ok hreal
      have hjoin : ∀ input, input = (match isRelative m.input, s.getcwd with
          | true, some cwd => cwd ++ "/" ++ m.input
          | _, _ => m.input) →
          (plainPath input = true ↔
            (isRelative m.input = true → ∀ cwd, s.getcwd = some cwd → '\n' ∉ cwd.toList)) := by
        rintro input rfl
        split
        · next cwd hrelative hcwd =>
          rw [plainPath_join hinput hrelative]
          exact ⟨fun h _ cwd' hcwd' => by
            rw [hcwd] at hcwd'
            cases hcwd'
            exact h, fun h => h hrelative cwd hcwd⟩
        · next hother =>
          refine ⟨fun _ hrelative cwd hcwd => ?_, fun _ => plainPath_of_badText hinput⟩
          exact absurd hcwd (hother cwd hrelative)
      cases h
      refine ⟨_, execPath, rfl, ?_⟩
      rw [hjoin _ rfl]
      constructor
      · rintro ⟨hcwd, hplain⟩
        refine ⟨fun path hpath => ?_, hcwd⟩
        rw [hreal] at hpath
        cases hpath
        exact hplain
      · exact fun hall => ⟨hall.2, hall.1 execPath hreal⟩

theorem nextId_eq_zero_iff {file : Option (List Char)} {n : ℕ} (h : nextId file = .ok n) :
    n = 0 ↔ ∃ text, file = some text ∧ parseU64 (counterText text) = some uint64Max := by
  constructor
  · rintro rfl
    cases file with
    | none => cases h
    | some text =>
      refine ⟨text, rfl, ?_⟩
      by_contra hne
      exact nextId_ne_zero hne h rfl
  · rintro ⟨text, rfl, hparse⟩
    unfold nextId at h
    dsimp only at h
    split_ifs at h with hnil
    · rw [hnil] at hparse
      cases hparse
    · rw [hparse] at h
      cases h
      rfl

theorem allocateJobId_ok {s : System} {id : ℕ} (h : s.allocateJobId = .ok id) :
    id < 2 ^ 64 ∧ (id = 0 ↔ s.CounterFull) := by
  unfold System.allocateJobId at h
  split at h
  · cases h
  · exact ⟨nextId_lt h, nextId_eq_zero_iff h⟩

/-! ## The record -/

theorem Parsed.typed_submitted {m : Meta} (h : Parsed m) (input execPath : String) {id : ℕ}
    (hid : id < 2 ^ 64) {now : ℤ} (hnow : -2 ^ 63 < now ∧ now < 2 ^ 63) :
    ((m.setPaths input execPath).setSubmitted id now).Typed := by
  have htyped := h.typed
  constructor
  case id => exact hid
  case submittedMs => exact ⟨hnow.1.le, hnow.2⟩
  all_goals simp only [Meta.setSubmitted, Meta.setPaths, htyped.workers, htyped.priority, htyped.nice,
    htyped.cpu, htyped.memMb, htyped.cpuSec, htyped.maxFds, htyped.maxOutMb, htyped.deadlineS,
    htyped.bytes, htyped.startedMs, htyped.finishedMs, and_self]

/-- Each text of the record fits on a line if its paths do. -/
theorem Parsed.plain_texts {m : Meta} (h : Parsed m) (input execPath : String) (id : ℕ) (now : ℤ) :
    (∀ text ∈ ((m.setPaths input execPath).setSubmitted id now).texts,
        '\n' ∉ text.toList ∧ text.toList.getLast? ≠ some '\r') ↔
      plainPath input = true ∧ plainPath execPath = true := by
  have hadm := validateMeta_eq_none h.valid
  have hop : plainPath m.op = true := by
    rcases hadm.op with h | h | h | h | h <;> rw [h] <;> decide
  have hio : plainPath m.io = true := by
    rcases hadm.io with h | h | h <;> rw [h] <;> decide
  have hstate : plainPath "submitted" = true := by decide
  have hempty : plainPath "" = true := by decide
  simp only [← plainPath_iff]
  unfold Meta.texts Meta.setSubmitted Meta.setPaths
  simp only [List.forall_mem_cons, h.procs, h.exits, h.digest, h.error, hop, hio, hstate, hempty]
  simp

/-- **A submission is recorded as submitted** exactly when the paths that the
    system returned are plain and the counter of ids is not full. -/
theorem submit_recorded {s : System} {args : List String} {parsed m : Meta}
    (hparse : parseSubmit (flagOr "--workspace" "" args).2 = .ok parsed)
    (h : cmdSubmit s args = .ok m) :
    textToMeta (metaToText m) = .ok m ↔ s.PlainPaths parsed ∧ ¬ s.CounterFull := by
  unfold cmdSubmit at h
  dsimp only at h
  obtain ⟨_, -, h⟩ := Except.bind_ok h
  obtain ⟨parsed', hparsed', h⟩ := Except.bind_ok h
  cases hparse.symm.trans hparsed'
  obtain ⟨resolved, hresolve, h⟩ := Except.bind_ok h
  obtain ⟨id, halloc, h⟩ := Except.bind_ok h
  cases h
  have hpar := parseSubmit_parsed hparse
  have hadm := validateMeta_eq_none hpar.valid
  obtain ⟨input, execPath, rfl, hplain⟩ := resolve_ok hresolve hpar.valid
  obtain ⟨hid, hfull⟩ := allocateJobId_ok halloc
  have hop : parsed.op ≠ "" := by
    rcases hadm.op with h | h | h | h | h <;> rw [h] <;> decide
  have hworkers : 0 ≤ parsed.workers := by
    have := hadm.workers_pos
    omega
  have hread := textToMeta_admitted_iff (hpar.typed_submitted input execPath hid s.now_range) hop
    (by simp [Meta.setSubmitted]) hworkers
  rw [hread, hpar.plain_texts, hplain, ← hfull]
  exact and_comm

/-- A system on which every call succeeds; every path resolves to `path`. -/
def System.smooth (path : String) : System where
  workspace := fun _ => .ok ()
  realpath := fun _ => .ok path
  getcwd := some "/w"
  inspect := fun _ => .ok true
  counter := some ['6', '\n']
  allocate := .ok ()
  now := 5
  now_range := by norm_num

/-- The record of `forge submit --operation count --input a` on such a system. -/
def countMeta (path : String) : Meta :=
  { id := 7, state := "submitted", op := "count", input := path, submittedMs := 5 }

theorem submit_recorded_count :
    textToMeta (metaToText (countMeta "/w/a")) = .ok (countMeta "/w/a") ↔
      (System.smooth "/w/a").PlainPaths { op := "count", input := "a" } ∧
        ¬ (System.smooth "/w/a").CounterFull :=
  @submit_recorded (System.smooth "/w/a") ["--operation", "count", "--input", "a"] _ _
    (by decide +kernel) (by decide +kernel)

/-- A file whose name goes on after a line break: the job reads as completed
    before it has run. -/
theorem submit_overridden :
    let path := "/w/a\nstate=completed"
    cmdSubmit (System.smooth path) ["--operation", "count", "--input", "a"] = .ok (countMeta path) ∧
      textToMeta (metaToText (countMeta path)) =
        .ok { countMeta "/w/a" with state := "completed" } ∧
      textToMeta (metaToText (countMeta path)) ≠ .ok (countMeta path) := by
  decide +kernel

end Forge
