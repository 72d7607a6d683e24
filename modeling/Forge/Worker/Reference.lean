import Forge.Worker.Entry
import Forge.Controller.Handlers

/-!
# The reference results

What the four built-in operations compute, said of the whole input and not of
the pieces in which it is read. A worker that has `Found` a result has found the
part of it that is its slice's.

* `hashSink_fed`, `copySink_fed`: a sink's context depends only on what it was fed.
* `Found.digest`, `Found.bytes_eq`, `Found.copy`: the slots of the workers.
-/

namespace Forge

/-! ## Sinks -/

/-- `hash_sink` accepts everything. -/
theorem hashSink_fed {st st' : Sha256} {pieces : List Bytes} (h : Fed hashSink st pieces st') :
    st' = pieces.foldl Sha256.update st := by
  unfold Fed at h
  induction pieces generalizing st with
  | nil =>
    cases h
    rfl
  | cons piece pieces ih =>
    rw [List.foldlM_cons] at h
    exact ih h

/-- `write_all` writes everything, in however many calls. -/
theorem writeFull_eq {write : ℕ → Except String ℕ} {data file file' : Bytes} {calls calls' : ℕ}
    (h : writeFull write data file calls = .ok (file', calls')) : file' = file ++ data := by
  fun_induction writeFull write data file calls with
  | case1 file calls =>
    cases h
    rw [List.append_nil]
  | case2 => cases h
  | case3 => cases h
  | case4 data file calls hdata w hw hpos ih =>
    rw [ih h, List.append_assoc, List.take_append_drop]

/-- `copy_sink` appends what it is fed. -/
theorem copySink_fed {write : ℕ → Except String ℕ} {ctx ctx' : CopyCtx} {pieces : List Bytes}
    (h : Fed (copySink write) ctx pieces ctx') :
    ctx'.file = ctx.file ++ pieces.flatten ∧
      ctx'.bytes % 2 ^ 64 = (ctx.bytes + pieces.flatten.length) % 2 ^ 64 := by
  unfold Fed at h
  induction pieces generalizing ctx with
  | nil =>
    cases h
    simp
  | cons piece pieces ih =>
    rw [List.foldlM_cons] at h
    cases hwrite : writeFull write piece ctx.file ctx.calls with
    | error e =>
      simp only [copySink, hwrite] at h
      cases h
    | ok written =>
      obtain ⟨file, calls⟩ := written
      simp only [copySink, hwrite] at h
      obtain ⟨hfile, hbytes⟩ := ih h
      rw [hfile, hbytes, writeFull_eq hwrite, List.flatten_cons, List.append_assoc,
        List.length_append]
      refine ⟨rfl, ?_⟩
      dsimp only
      omega

/-! ## Slots -/

namespace Found

variable {env : WorkerEnv} {l : Launch} {chunk : ChunkResult}

/-- The slot is the worker's own. -/
theorem own (h : Found env l chunk) : OwnSlot l chunk := by
  cases h <;> exact ⟨rfl, rfl, rfl⟩

/-- A worker that hashes finds the digest of its slice. -/
theorem digest (h : Found env l chunk) (hop : l.jobMeta.op = "sha256" ∨ l.jobMeta.op = "chunk-sha256")
    (hoff : l.offset < 2 ^ 64) (hlen : l.length < 2 ^ 61) :
    chunk.hex = hexText (Fips180.sha256 (slice env.input l.offset l.length)) := by
  cases h with
  | hashed _ hfeed =>
    obtain ⟨pieces, hfed, hpieces⟩ := feedRange_pieces hoff hfeed
    have hle : pieces.flatten.length ≤ l.length := by
      rw [hpieces, slice, List.length_take]
      exact Nat.min_le_left _ _
    obtain ⟨hst, hbits⟩ := Sha256.fed_updates pieces
    rw [hashSink_fed hfed, ← hpieces]
    exact congrArg hexText (Sha256.final_eq hst (hle.trans_lt hlen) hbits)
  | counted hop' =>
    rcases hop with hop | hop <;> exact absurd (hop.symm.trans hop') (by decide)
  | copied hop' =>
    rcases hop with hop | hop <;> exact absurd (hop.symm.trans hop') (by decide)

/-- Every good slot has the length of its slice in `bytes`. -/
theorem bytes_eq (h : Found env l chunk) (hoff : l.offset < 2 ^ 64) (hlen : l.length < 2 ^ 61)
    (hin : l.offset + l.length ≤ env.input.length) : chunk.bytes % 2 ^ 64 = l.length := by
  cases h with
  | hashed =>
    show l.length % 2 ^ 64 = l.length
    omega
  | counted _ _ hbytes =>
    show CountCtx.bytes _ % 2 ^ 64 = l.length
    rw [hbytes]
    omega
  | copied _ hfeed =>
    obtain ⟨pieces, hfed, hpieces⟩ := feedRange_pieces hoff hfeed
    show CopyCtx.bytes _ % 2 ^ 64 = l.length
    rw [(copySink_fed hfed).2, hpieces, length_slice hin]
    show (0 + l.length) % 2 ^ 64 = l.length
    omega

/-- A worker that copies has published its slice before its slot. -/
theorem copy (h : Found env l chunk) (hop : l.jobMeta.op = "copy") (hoff : l.offset < 2 ^ 64) :
    ∃ chunk', workerEntry env l =
      .output (slice env.input l.offset l.length) :: deliver chunk' := by
  cases h with
  | hashed hop' =>
    rcases hop' with hop' | hop' <;> exact absurd (hop.symm.trans hop') (by decide)
  | counted hop' => exact absurd (hop.symm.trans hop') (by decide)
  | @copied ctx _ hfeed hacts =>
    obtain ⟨pieces, hfed, hpieces⟩ := feedRange_pieces hoff hfeed
    have hfile : ctx.file = slice env.input l.offset l.length := by
      rw [(copySink_fed hfed).1, hpieces]
      rfl
    exact ⟨_, hfile ▸ hacts⟩

end Found

/-! ## Reference results -/

/-- The line of slice `i` in the reference result of `chunk-sha256`. -/
def referenceLine (input : Bytes) (i : ℕ) (r : ByteRange) : String :=
  toString i ++ " " ++ toString r.offset ++ " " ++ toString r.length ++ " " ++
    hexText (Fips180.sha256 (slice input r.offset r.length)) ++ "\n"

/-- What `jobs/<id>/output` of the job has to hold for the input. -/
def reference (m : Meta) (input : Bytes) : Bytes :=
  if m.op = "sha256" then textBytes (hexText (Fips180.sha256 input) ++ "\n")
  else if m.op = "chunk-sha256" then
    textBytes ("bytes " ++ toString input.length ++ "\nchunks " ++
      toString (launchRanges m).length ++ "\n" ++
      "note each line is the sha256 of that slice, not of the whole file\n" ++
      String.join ((launchRanges m).mapIdx (referenceLine input)))
  else if m.op = "count" then textBytes (toString input.length ++ "\n")
  else input

end Forge
