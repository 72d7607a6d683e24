import Forge.Controller.State
import Forge.Hash.Sha256
import Forge.Worker.Feed

/-!
# `worker_entry`

Model of worker.cpp:378-418, 516-550 and 590-708: what a worker does that
the controller and the other workers can see, one act after the other. Between
any two acts it may be killed, and others may act. `WorkerEnv` says how the
kernel answers it; log lines are left out.

* `workerEntry_acts`: a worker of a built-in operation publishes its slot, then
  exits, with status 0 exactly if it has published a result.
* `workerEntry_found`: a good slot has what the pipeline returned.
-/

namespace Forge

/-- How the kernel answers the calls of one worker. -/
structure WorkerEnv where
  /-- The contents of the input, which do not change while the worker runs. -/
  input : Bytes
  /-- `apply_resource_limits` and `apply_scheduler_hints`, with their `err`. -/
  setup : Except String Unit
  execve : Except String Unit
  /-- `wait_for_start_gate`, with its `err`. -/
  gate : Except String Unit
  read : ReadEnv
  openDir : Except String Unit
  openTemp : Except String Unit
  /-- The `i`-th `write` of the copy: an error, or the most bytes it takes. -/
  write : ℕ → Except String ℕ
  /-- `publish_file`. -/
  publish : WriteAnswer

/-- What a worker does that others can see. -/
inductive WorkerAct where
  /-- `shm->chunks[chunk.index] = chunk`. -/
  | slot (chunk : ChunkResult)
  /-- `chunks_done.fetch_add(1)`. -/
  | bump
  /-- The write to the wake fd. -/
  | wake
  /-- The rename that publishes a copy. -/
  | output (body : Bytes)
  /-- `execve` replaces the process image. -/
  | image
  | exit (status : ℕ)
  deriving DecidableEq

/-! ## Sinks -/

/-- `hash_sink` (worker.cpp:382-385). -/
def hashSink : Sink Sha256 := fun hash data => .ok (hash.update data)

/-- `struct CountCtx` (worker.cpp:387-390). -/
structure CountCtx where
  bytes : ℕ := 0
  sum : ℕ := 0

/-- `count_sink` (worker.cpp:392-403), on `uint64_t`. -/
def countSink : Sink CountCtx := fun ctx data =>
  .ok { bytes := (ctx.bytes + data.length) % 2 ^ 64
        sum := data.foldl (fun sum b => (sum + b.toNat) % 2 ^ 64) ctx.sum }

/-- `struct CopyCtx` (worker.cpp:405-408), with the file behind `fd`; `calls`
    counts the `write` calls. -/
structure CopyCtx where
  bytes : ℕ := 0
  file : Bytes := []
  calls : ℕ := 0

/-- `write_all` (store.cpp:37-56) at the end of a file. -/
def writeFull (write : ℕ → Except String ℕ) (data file : Bytes) (calls : ℕ) :
    Except String (Bytes × ℕ) :=
  if _h : data = [] then .ok (file, calls)
  else
    match write calls with
    | .error e => .error e
    | .ok w =>
      if _hw : w = 0 then .error "Input/output error (errno 5)"
      else writeFull write (data.drop w) (file ++ data.take w) (calls + 1)
termination_by data.length
decreasing_by
  have := List.length_pos_iff.mpr _h
  rw [List.length_drop]
  omega

/-- `copy_sink` (worker.cpp:410-418). -/
def copySink (write : ℕ → Except String ℕ) : Sink CopyCtx := fun ctx data =>
  match writeFull write data ctx.file ctx.calls with
  | .error e => .error ("write output: " ++ e)
  | .ok (file, calls) => .ok ⟨(ctx.bytes + data.length) % 2 ^ 64, file, calls⟩

/-! ## Publishing -/

/-- `publish_chunk` (worker.cpp:516-534). -/
def publishChunk (chunk : ChunkResult) : List WorkerAct := [.slot chunk, .bump, .wake]

/-- What `snprintf(…, sizeof(chunk.error), "%s", …)` leaves of the text. -/
def errorText (err : String) : String := String.ofList (err.toList.take 159)

/-- `fail_chunk` (worker.cpp:536-550). -/
def failChunk (l : Launch) (err : String) : List WorkerAct :=
  (if (l.chunkIndex : ℤ) < kMaxWorkers then
    publishChunk { index := l.chunkIndex, ok := 0, offset := l.offset, length := l.length,
                   error := errorText err }
  else []) ++ [.exit 1]

/-- The slot of a worker that has not failed so far (worker.cpp:639-643). -/
def goodChunk (l : Launch) : ChunkResult :=
  { index := l.chunkIndex, ok := 1, offset := l.offset, length := l.length }

/-- The last lines of `worker_entry` (worker.cpp:703-707). -/
def deliver (chunk : ChunkResult) : List WorkerAct := publishChunk chunk ++ [.exit 0]

/-! ## Operations -/

/-- `kHex[n]`. -/
def hexDigit (n : ℕ) : Char := "0123456789abcdef".toList.getD n '0'

/-- The two digits of each byte (worker.cpp:654-658). -/
def hexText (digest : Bytes) : String :=
  String.ofList (digest.flatMap fun b => [hexDigit (b.toNat / 16), hexDigit (b.toNat % 16)])

/-- `sha256` and `chunk-sha256` (worker.cpp:645-660). -/
def hashChunk (env : WorkerEnv) (l : Launch) : List WorkerAct :=
  match feedRange l.jobMeta.io env.input env.read hashSink .init l.offset l.length with
  | .error (e, _) => failChunk l e
  | .ok hash => deliver { goodChunk l with hex := hexText hash.final, bytes := l.length }

/-- `count` (worker.cpp:661-673). -/
def countChunk (env : WorkerEnv) (l : Launch) : List WorkerAct :=
  match feedRange l.jobMeta.io env.input env.read countSink {} l.offset l.length with
  | .error (e, _) => failChunk l e
  | .ok ctx =>
    if ctx.bytes ≠ l.length then
      failChunk l ("count shortfall: got " ++ toString ctx.bytes ++ " expected " ++ toString l.length)
    else deliver { goodChunk l with bytes := ctx.bytes, aux := ctx.sum }

/-- `copy` (worker.cpp:674-698). -/
def copyChunk (env : WorkerEnv) (l : Launch) : List WorkerAct :=
  match env.openDir with
  | .error e => failChunk l ("open job dir: " ++ e)
  | .ok () =>
    match env.openTemp with
    | .error e => failChunk l ("open output temp: " ++ e)
    | .ok () =>
      match feedRange l.jobMeta.io env.input env.read (copySink env.write) {} l.offset l.length with
      | .error (e, _) => failChunk l e
      | .ok ctx =>
        match env.publish with
        | .failed e visible => (if visible then [.output ctx.file] else []) ++ failChunk l e
        | .ok => .output ctx.file :: deliver { goodChunk l with bytes := ctx.bytes }

/-- The part of `worker_entry` behind the start gate (worker.cpp:634-707). -/
def workChunk (env : WorkerEnv) (l : Launch) : List WorkerAct :=
  if l.jobMeta.op = "sha256" ∨ l.jobMeta.op = "chunk-sha256" then hashChunk env l
  else if l.jobMeta.op = "count" then countChunk env l
  else if l.jobMeta.op = "copy" then copyChunk env l
  else failChunk l ("worker does not implement " ++ l.jobMeta.op)

/-- `worker_entry` (worker.cpp:590-708). The controller gives every worker of a
    built-in operation a shared region with its magic number, and no other. -/
def workerEntry (env : WorkerEnv) (l : Launch) : List WorkerAct :=
  match env.setup with
  | .error e =>
    if l.jobMeta.op = "exec" then [.exit 1]
    else failChunk l (if e = "" then "limits/scheduler setup failed" else e)
  | .ok () =>
    if l.jobMeta.op = "exec" then
      match env.execve with
      | .error _ => [.exit 127]
      | .ok () => [.image]
    else
      match env.gate with
      | .error e => failChunk l e
      | .ok () => workChunk env l

/-! ## The order of the acts -/

/-- The acts end with the publication of the worker's slot and its exit, and the
    exit status tells whether the slot is good. -/
inductive Publishes (l : Launch) (chunk : ChunkResult) : List WorkerAct → Prop
  | good (hok : chunk.ok = 1) : Publishes l chunk (deliver chunk)
  | bad (hok : chunk.ok = 0) : Publishes l chunk (publishChunk chunk ++ [.exit 1])
  | silent : Publishes l chunk [.exit 1]

/-- The slot is the worker's own. -/
structure OwnSlot (l : Launch) (chunk : ChunkResult) : Prop where
  index : chunk.index = l.chunkIndex
  offset : chunk.offset = l.offset
  length : chunk.length = l.length

theorem goodChunk_own (l : Launch) : OwnSlot l (goodChunk l) := ⟨rfl, rfl, rfl⟩

theorem failChunk_publishes (l : Launch) (err : String) :
    ∃ chunk, OwnSlot l chunk ∧ Publishes l chunk (failChunk l err) := by
  unfold failChunk
  split_ifs
  · exact ⟨_, ⟨rfl, rfl, rfl⟩, .bad rfl⟩
  · exact ⟨goodChunk l, goodChunk_own l, .silent⟩

/-- What comes before the publication: at most the copy. -/
def Copied (before : List WorkerAct) : Prop := before = [] ∨ ∃ body, before = [.output body]

/-- The acts of a worker of a built-in operation: maybe a copy, then its slot. -/
def Delivers (l : Launch) (acts : List WorkerAct) : Prop :=
  ∃ before chunk last, acts = before ++ last ∧ Copied before ∧ OwnSlot l chunk ∧
    Publishes l chunk last

theorem delivers_of_publishes {l : Launch} {acts : List WorkerAct}
    (h : ∃ chunk, OwnSlot l chunk ∧ Publishes l chunk acts) : Delivers l acts := by
  obtain ⟨chunk, hown, hpub⟩ := h
  exact ⟨[], chunk, acts, rfl, Or.inl rfl, hown, hpub⟩

theorem failChunk_delivers (l : Launch) (err : String) : Delivers l (failChunk l err) :=
  delivers_of_publishes (failChunk_publishes l err)

theorem hashChunk_delivers (env : WorkerEnv) (l : Launch) : Delivers l (hashChunk env l) := by
  unfold hashChunk
  split
  · exact failChunk_delivers l _
  · exact delivers_of_publishes ⟨_, ⟨rfl, rfl, rfl⟩, .good rfl⟩

theorem countChunk_delivers (env : WorkerEnv) (l : Launch) : Delivers l (countChunk env l) := by
  unfold countChunk
  split
  · exact failChunk_delivers l _
  · split_ifs
    · exact failChunk_delivers l _
    · exact delivers_of_publishes ⟨_, ⟨rfl, rfl, rfl⟩, .good rfl⟩

theorem copyChunk_delivers (env : WorkerEnv) (l : Launch) : Delivers l (copyChunk env l) := by
  unfold copyChunk
  split
  · exact failChunk_delivers l _
  · split
    · exact failChunk_delivers l _
    · split
      · exact failChunk_delivers l _
      · next ctx _ =>
        split
        · next e visible _ =>
          obtain ⟨chunk, hown, hpub⟩ := failChunk_publishes l e
          refine ⟨_, chunk, _, rfl, ?_, hown, hpub⟩
          split_ifs
          · exact Or.inr ⟨ctx.file, rfl⟩
          · exact Or.inl rfl
        · exact ⟨[.output ctx.file], _, _, rfl, Or.inr ⟨ctx.file, rfl⟩, ⟨rfl, rfl, rfl⟩, .good rfl⟩

theorem workChunk_delivers (env : WorkerEnv) (l : Launch) : Delivers l (workChunk env l) := by
  unfold workChunk
  split_ifs
  · exact hashChunk_delivers env l
  · exact countChunk_delivers env l
  · exact copyChunk_delivers env l
  · exact failChunk_delivers l _

/-- **A worker of a built-in operation publishes its slot, then exits.** -/
theorem workerEntry_acts (env : WorkerEnv) {l : Launch} (hop : l.jobMeta.op ≠ "exec") :
    Delivers l (workerEntry env l) := by
  unfold workerEntry
  split
  · rw [if_neg hop]
    exact failChunk_delivers l _
  · rw [if_neg hop]
    split
    · exact failChunk_delivers l _
    · exact workChunk_delivers env l

/-- A worker that runs a program publishes nothing. -/
theorem workerEntry_exec (env : WorkerEnv) {l : Launch} (hop : l.jobMeta.op = "exec") :
    workerEntry env l = [.image] ∨ ∃ status, status ≠ 0 ∧ workerEntry env l = [.exit status] := by
  unfold workerEntry
  split
  · rw [if_pos hop]
    exact Or.inr ⟨1, by decide, rfl⟩
  · rw [if_pos hop]
    split
    · exact Or.inr ⟨127, by decide, rfl⟩
    · exact Or.inl rfl

/-! ## What a good slot has -/

/-- The worker has found this and has published it; before the slot of a copy comes
    the copy. -/
inductive Found (env : WorkerEnv) (l : Launch) : ChunkResult → Prop
  | hashed {hash : Sha256} (hop : l.jobMeta.op = "sha256" ∨ l.jobMeta.op = "chunk-sha256")
      (hfeed : feedRange l.jobMeta.io env.input env.read hashSink .init l.offset l.length =
        .ok hash) :
      Found env l { goodChunk l with hex := hexText hash.final, bytes := l.length }
  | counted {ctx : CountCtx} (hop : l.jobMeta.op = "count")
      (hfeed : feedRange l.jobMeta.io env.input env.read countSink {} l.offset l.length = .ok ctx)
      (hbytes : ctx.bytes = l.length) :
      Found env l { goodChunk l with bytes := ctx.bytes, aux := ctx.sum }
  | copied {ctx : CopyCtx} (hop : l.jobMeta.op = "copy")
      (hfeed : feedRange l.jobMeta.io env.input env.read (copySink env.write) {} l.offset l.length =
        .ok ctx)
      (hacts : workerEntry env l =
        .output ctx.file :: deliver { goodChunk l with bytes := ctx.bytes }) :
      Found env l { goodChunk l with bytes := ctx.bytes }

theorem slot_of_failChunk {l : Launch} {err : String} {chunk : ChunkResult}
    (h : .slot chunk ∈ failChunk l err) : chunk.ok = 0 := by
  unfold failChunk at h
  split_ifs at h
  · simp only [publishChunk, List.mem_append, List.mem_cons, WorkerAct.slot.injEq] at h
    simp at h
    exact h ▸ rfl
  · simp at h

theorem slot_of_deliver {chunk chunk' : ChunkResult} (h : .slot chunk ∈ deliver chunk') :
    chunk = chunk' := by
  simpa [deliver, publishChunk] using h

theorem workChunk_found {env : WorkerEnv} {l : Launch} {chunk : ChunkResult}
    (hentry : workerEntry env l = workChunk env l) (h : .slot chunk ∈ workChunk env l)
    (hok : chunk.ok = 1) : Found env l chunk := by
  have hbad : ∀ {err : String}, .slot chunk ∈ failChunk l err → Found env l chunk := by
    intro err hmem
    have hzero := slot_of_failChunk hmem
    omega
  unfold workChunk at h hentry
  split_ifs at h hentry with hhash hcount hcopy
  · unfold hashChunk at h
    split at h
    · exact hbad h
    · next hash hfeed => exact slot_of_deliver h ▸ .hashed hhash hfeed
  · unfold countChunk at h
    split at h
    · exact hbad h
    · next ctx hfeed =>
      split_ifs at h with hbytes
      · exact hbad h
      · exact slot_of_deliver h ▸ .counted hcount hfeed (not_not.mp hbytes)
  · unfold copyChunk at h hentry
    split at h
    · exact hbad h
    · next hdir =>
      split at h
      · exact hbad h
      · next htemp =>
        split at h
        · exact hbad h
        · next ctx hfeed =>
          split at h
          · next e visible _ =>
            rcases List.mem_append.mp h with h | h
            · split_ifs at h <;> simp at h
            · exact hbad h
          · next hpublish =>
            simp only [hdir, htemp, hfeed, hpublish] at hentry
            exact slot_of_deliver ((List.mem_cons.mp h).resolve_left (by simp)) ▸
              .copied hcopy hfeed hentry
  · exact hbad h

/-- **A good slot has what the pipeline returned.** -/
theorem workerEntry_found {env : WorkerEnv} {l : Launch} {chunk : ChunkResult}
    (h : .slot chunk ∈ workerEntry env l) (hok : chunk.ok = 1) : Found env l chunk := by
  have hbad : ∀ {err : String}, .slot chunk ∈ failChunk l err → Found env l chunk := by
    intro err hmem
    have hzero := slot_of_failChunk hmem
    omega
  by_cases hop : l.jobMeta.op = "exec"
  · -- a program publishes nothing
    rcases workerEntry_exec env hop with heq | ⟨status, -, heq⟩ <;> rw [heq] at h <;> simp at h
  · cases hsetup : env.setup with
    | error e =>
      simp only [workerEntry, hsetup, if_neg hop] at h
      exact hbad h
    | ok u =>
      cases hgate : env.gate with
      | error e =>
        simp only [workerEntry, hsetup, hgate, if_neg hop] at h
        exact hbad h
      | ok u' =>
        have hentry : workerEntry env l = workChunk env l := by
          simp only [workerEntry, hsetup, hgate, if_neg hop]
        exact workChunk_found hentry (hentry ▸ h) hok

/-- A digest has digits. -/
theorem hexText_final_ne (hash : Sha256) : hexText hash.final ≠ "" := by
  intro h
  have hchars := congrArg String.toList h
  simp [hexText, Sha256.final, Sha256.outBytes] at hchars

/-- A worker that hashes stores a digest. -/
theorem Found.hex_ne {env : WorkerEnv} {l : Launch} {chunk : ChunkResult} (h : Found env l chunk)
    (hop : l.jobMeta.op = "sha256") : chunk.hex ≠ "" := by
  cases h with
  | hashed => exact hexText_final_ne _
  | counted hop' => exact absurd (hop.symm.trans hop') (by decide)
  | copied hop' => exact absurd (hop.symm.trans hop') (by decide)

end Forge
