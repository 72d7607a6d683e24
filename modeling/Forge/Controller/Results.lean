import Forge.Controller.State

/-!
# Judging a finished job

`describe_wait`, `join_exits`, `results_ok` and the choice of the final state in
`finalize` (controller.cpp:220-225, 277-403). These read the job and the shared
region only, except that `results_ok` inspects the output of a copy.

* `resultsOk_builtin`: what a built-in job that passes has delivered.
* `resultsOk_bad_exit`: a worker that fails its job.
-/

namespace Forge

/-- `describe_wait` (controller.cpp:220-225). -/
def describeWait : WaitStatus → String
  | .exited n => "exited:" ++ toString n
  | .killed n => "killed:" ++ toString n
  | .dumped n => "dumped:" ++ toString n
  | .other code n => "wait:" ++ toString code ++ ":" ++ toString n

/-- `join_exits` (controller.cpp:277-284). -/
def joinExits (job : LiveJob) : String :=
  ",".intercalate (job.procs.map fun pr => if pr.how = "" then "?" else pr.how)

/-- `ch.error[0] ? ch.error : fallback`. -/
def chunkError (chunk : ChunkResult) (fallback : String) : String :=
  if chunk.error = "" then fallback else chunk.error

/-- The first `nchunks` slots. -/
def SharedRegion.slots (shm : SharedRegion) : List ChunkResult :=
  (List.range shm.nchunks).map shm.chunks

/-- The first slot that is not ok, in the order of the loops of `results_ok`. -/
def SharedRegion.firstBad (shm : SharedRegion) : Option ChunkResult :=
  shm.slots.find? (·.ok = 0)

/-- `bytes += ch.bytes`, modulo the width of `uint64_t`. -/
def SharedRegion.totalBytes (shm : SharedRegion) : ℕ := (shm.slots.map (·.bytes)).sum % 2 ^ 64

/-- The line of slot `i` in the output of `chunk-sha256` (controller.cpp:332). -/
def chunkLine (i : ℕ) (chunk : ChunkResult) : String :=
  toString i ++ " " ++ toString chunk.offset ++ " " ++ toString chunk.length ++ " " ++ chunk.hex ++
    "\n"

/-- The output of `chunk-sha256` (controller.cpp:322-333). -/
def chunkBody (bytes : ℕ) (shm : SharedRegion) : String :=
  "bytes " ++ toString bytes ++ "\nchunks " ++ toString shm.nchunks ++ "\n" ++
    "note each line is the sha256 of that slice, not of the whole file\n" ++
    String.join ((List.range shm.nchunks).map fun i => chunkLine i (shm.chunks i))

/-- The part of `results_ok` that depends on the operation
    (controller.cpp:314-373); `inspect` is what `inspect_file` says of the
    output, its size or an error. -/
def opResult (m : Meta) (shm : SharedRegion) (inspect : Except String ℕ) : Except String String :=
  if m.op = "sha256" then
    let chunk := shm.chunks 0
    if chunk.ok = 0 ∨ chunk.hex = "" then .error (chunkError chunk "empty digest")
    else .ok (chunk.hex ++ "\n")
  else if m.op = "chunk-sha256" then
    match shm.firstBad with
    | some chunk => .error (chunkError chunk "chunk failed")
    | none =>
      if shm.totalBytes ≠ m.bytes then .error "chunk bytes do not add up to the file size"
      else .ok (chunkBody m.bytes shm)
  else if m.op = "count" then
    match shm.firstBad with
    | some chunk => .error (chunkError chunk "chunk failed")
    | none =>
      if shm.totalBytes ≠ m.bytes then
        .error ("count " ++ toString shm.totalBytes ++ " != file size " ++ toString m.bytes)
      else .ok (toString shm.totalBytes ++ "\n")
  else if m.op = "copy" then
    let chunk := shm.chunks 0
    if chunk.ok = 0 then .error (chunkError chunk "copy failed")
    else
      match inspect with
      | .error e => .error ("copy output missing: " ++ e)
      | .ok size =>
        if size ≠ m.bytes then
          .error ("output size " ++ toString size ++ " != input " ++ toString m.bytes)
        else .ok ""
  else .error "unknown operation"

/-- `results_ok` (controller.cpp:289-374): the text of the output, or `why`. -/
def resultsOk (job : LiveJob) (inspect : Except String ℕ) : Except String String :=
  if job.jobMeta.op = "exec" then
    match job.procs with
    | [] => .error "exec produced no child"
    | pr :: rest => if rest ≠ [] ∨ pr.how ≠ "exited:0" then .error pr.how else .ok ""
  else
    match job.shm with
    | none => .error "missing shared region"
    | some shm =>
      if shm.chunksDone < shm.nchunks then
        .error ("published " ++ toString shm.chunksDone ++ " of " ++ toString shm.nchunks ++ " chunks")
      else
        match job.procs.find? (·.how ≠ "exited:0") with
        | some pr => .error ("worker " ++ pr.how)
        | none => opResult job.jobMeta shm inspect

/-- `while (!digest.empty() && digest.back() == '\n') digest.pop_back()`. -/
def trimNewlines (s : String) : String := String.ofList (s.toList.rdropWhile (· = '\n'))

/-- The state `finalize` names, and the record's error and digest, before the
    output is written (controller.cpp:384-403). -/
def settle (stopReason : String) (m : Meta) (result : Except String String) : Meta × String :=
  match result with
  | .error why =>
    let state :=
      if stopReason = "timed_out" then "timed_out"
      else if stopReason = "cancelled" ∨ stopReason = "shutdown" then "cancelled"
      else "failed"
    (m.setError (if why = "" then state else why), state)
  | .ok body =>
    let digest := if (m.op = "sha256" ∨ m.op = "count") ∧ body ≠ "" then trimNewlines body
      else m.digest
    ((m.setDigest digest).setError "", "completed")

/-! ## What passes -/

theorem append_newline_ne (s : String) : s ++ "\n" ≠ "" := by
  intro h
  have := congrArg String.toList h
  simp at this

theorem chunkBody_ne (bytes : ℕ) (shm : SharedRegion) : chunkBody bytes shm ≠ "" := by
  intro h
  have := congrArg String.toList h
  simp [chunkBody] at this

/-- Only a copy passes without a text. -/
theorem opResult_text {m : Meta} {shm : SharedRegion} {inspect : Except String ℕ} {body : String}
    (h : opResult m shm inspect = .ok body) :
    (m.op = "copy" ∧ (shm.chunks 0).ok ≠ 0 ∧ body = "") ∨ (m.op ≠ "copy" ∧ body ≠ "") := by
  unfold opResult at h
  split at h
  case isTrue hsha =>
    dsimp only at h
    split at h
    · cases h
    · cases h
      exact Or.inr ⟨by simp [hsha], append_newline_ne _⟩
  case isFalse =>
    split at h
    case isTrue hchunk =>
      split at h
      · cases h
      · split at h
        · cases h
        · cases h
          exact Or.inr ⟨by simp [hchunk], chunkBody_ne _ _⟩
    case isFalse =>
      split at h
      case isTrue hcount =>
        split at h
        · cases h
        · split at h
          · cases h
          · cases h
            exact Or.inr ⟨by simp [hcount], append_newline_ne _⟩
      case isFalse =>
        split at h
        case isTrue hcopy =>
          dsimp only at h
          split at h
          · cases h
          · split at h
            · cases h
            · split at h
              · cases h
              · cases h
                exact Or.inl ⟨hcopy, ‹_›, rfl⟩
        case isFalse => cases h

/-- **What a built-in job that passes has delivered.** -/
theorem resultsOk_builtin {job : LiveJob} {inspect : Except String ℕ} {body : String}
    (hop : job.jobMeta.op ≠ "exec") (h : resultsOk job inspect = .ok body) :
    ∃ shm, job.shm = some shm ∧ shm.nchunks ≤ shm.chunksDone ∧
      (∀ pr ∈ job.procs, pr.how = "exited:0") ∧ opResult job.jobMeta shm inspect = .ok body := by
  unfold resultsOk at h
  rw [if_neg hop] at h
  split at h
  · cases h
  · next shm hshm =>
    split at h
    · cases h
    · split at h
      · cases h
      · next hfind =>
        refine ⟨shm, hshm, not_lt.mp ‹_›, fun pr hpr => ?_, h⟩
        simpa using List.find?_eq_none.mp hfind pr hpr

/-- **A job one of whose workers has not exited with 0 does not pass.** -/
theorem resultsOk_bad_exit {job : LiveJob} {inspect : Except String ℕ} {pr : ProcRef}
    (hpr : pr ∈ job.procs) (hhow : pr.how ≠ "exited:0") :
    ∃ why, resultsOk job inspect = .error why := by
  cases hresult : resultsOk job inspect with
  | error why => exact ⟨why, rfl⟩
  | ok body =>
    by_cases hop : job.jobMeta.op = "exec"
    · unfold resultsOk at hresult
      rw [if_pos hop] at hresult
      split at hresult
      · cases hresult
      · next first rest hprocs =>
        split_ifs at hresult with hbad
        rw [not_or, not_not, not_not] at hbad
        rw [hprocs, hbad.1] at hpr
        cases List.mem_singleton.mp hpr
        exact absurd hbad.2 hhow
    · exact absurd ((resultsOk_builtin hop hresult).choose_spec.2.2.1 pr hpr) hhow

end Forge
