import Forge.Controller.Results
import Forge.Store.Codec

/-!
# The texts of a finished job

What `results_ok` and the choice of the state in `finalize` (controller.cpp:289-403)
put into a record. A line break in one of these texts would cut the record's line.

* `settle_lines`: the record is made of lines if its own texts are, and those of
  the slots, the exits and the inspection.
-/

namespace Forge

/-! ## Assignments -/

variable {m : Meta} {e : String}

theorem Meta.Lines.setState (h : m.Lines) (he : IsLine e) : (m.setState e).Lines := by
  unfold Meta.Lines Meta.texts at *
  simp only [List.forall_mem_cons] at *
  exact ⟨he, h.2⟩

theorem Meta.Lines.setError (h : m.Lines) (he : IsLine e) : (m.setError e).Lines := by
  unfold Meta.Lines Meta.texts at *
  simp only [List.forall_mem_cons] at *
  obtain ⟨hstate, hop, hinput, hexec, hio, hprocs, hexits, hdigest, -, hnil⟩ := h
  exact ⟨hstate, hop, hinput, hexec, hio, hprocs, hexits, hdigest, he, hnil⟩

theorem Meta.Lines.setDigest (h : m.Lines) (he : IsLine e) : (m.setDigest e).Lines := by
  unfold Meta.Lines Meta.texts at *
  simp only [List.forall_mem_cons] at *
  obtain ⟨hstate, hop, hinput, hexec, hio, hprocs, hexits, -, herror⟩ := h
  exact ⟨hstate, hop, hinput, hexec, hio, hprocs, hexits, he, herror⟩

/-! ## The results -/

variable {shm : SharedRegion} {inspect : Except String ℕ}

theorem isLine_chunkError {chunk : ChunkResult} {fallback : String} (h : IsLine chunk.error)
    (hfallback : IsLine fallback) : IsLine (chunkError chunk fallback) := by
  unfold chunkError
  split_ifs
  · exact hfallback
  · exact h

theorem isLine_firstBad {chunk : ChunkResult} (hslots : ∀ i, IsLine (shm.chunks i).error)
    (h : shm.firstBad = some chunk) : IsLine chunk.error := by
  obtain ⟨i, -, rfl⟩ := List.mem_map.mp (List.mem_of_find?_eq_some h)
  exact hslots i

theorem opResult_error (hslots : ∀ i, IsLine (shm.chunks i).error)
    (hinspect : ∀ e, inspect = .error e → IsLine e) (h : opResult m shm inspect = .error e) :
    IsLine e := by
  unfold opResult at h
  split at h
  · dsimp only at h
    split_ifs at h
    cases h
    exact isLine_chunkError (hslots 0) (by simp [IsLine])
  · split at h
    · split at h
      · next hbad =>
        cases h
        exact isLine_chunkError (isLine_firstBad hslots hbad) (by simp [IsLine])
      · split_ifs at h
        cases h
        simp [IsLine]
    · split at h
      · split at h
        · next hbad =>
          cases h
          exact isLine_chunkError (isLine_firstBad hslots hbad) (by simp [IsLine])
        · split_ifs at h
          cases h
          simp only [isLine_append, isLine_nat]
          simp [IsLine]
      · split at h
        · dsimp only at h
          split_ifs at h
          · cases h
            exact isLine_chunkError (hslots 0) (by simp [IsLine])
          · split at h
            · next err =>
              cases h
              exact isLine_append.mpr ⟨by simp [IsLine], hinspect _ rfl⟩
            · split_ifs at h
              cases h
              simp only [isLine_append, isLine_nat]
              simp [IsLine]
        · cases h
          simp [IsLine]

variable {job : LiveJob}

/-- The texts that `results_ok` makes use of. -/
structure LiveJob.Plain (job : LiveJob) : Prop where
  record : job.jobMeta.Lines
  exits : ∀ pr ∈ job.procs, IsLine pr.how
  slots : ∀ shm, job.shm = some shm → ∀ i, IsLine (shm.chunks i).hex ∧ IsLine (shm.chunks i).error

/-- The reason for a failure is a line. -/
theorem resultsOk_error (h : job.Plain) (hinspect : ∀ e, inspect = .error e → IsLine e)
    (hresult : resultsOk job inspect = .error e) : IsLine e := by
  unfold resultsOk at hresult
  split at hresult
  · split at hresult
    · cases hresult
      simp [IsLine]
    · next pr rest hprocs =>
      split_ifs at hresult
      cases hresult
      exact h.exits pr (hprocs ▸ List.mem_cons_self)
  · split at hresult
    · cases hresult
      simp [IsLine]
    · next shm hshm =>
      split_ifs at hresult
      · cases hresult
        simp only [isLine_append, isLine_nat]
        simp [IsLine]
      · split at hresult
        · next pr hpr =>
          cases hresult
          exact isLine_append.mpr ⟨by simp [IsLine], h.exits pr (List.mem_of_find?_eq_some hpr)⟩
        · exact opResult_error (fun i => (h.slots shm hshm i).2) hinspect hresult

theorem isLine_trimNewlines (h : IsLine e) : IsLine (trimNewlines (e ++ "\n")) := by
  intro c hc
  rw [trimNewlines, String.toList_ofList, String.toList_append, show "\n".toList = ['\n'] from rfl,
    List.rdropWhile_concat_pos _ _ _ (by simp)] at hc
  exact h c ((List.rdropWhile_prefix _ _).mem hc)

/-- What becomes the digest is a line. -/
theorem resultsOk_digest {body : String} (h : job.Plain)
    (hop : job.jobMeta.op = "sha256" ∨ job.jobMeta.op = "count")
    (hresult : resultsOk job inspect = .ok body) : IsLine (trimNewlines body) := by
  have hexec : job.jobMeta.op ≠ "exec" := by
    rcases hop with hop | hop <;> simp [hop]
  obtain ⟨shm, hshm, -, -, hresult⟩ := resultsOk_builtin hexec hresult
  rcases hop with hop | hop
  · rw [opResult.eq_def, if_pos hop] at hresult
    dsimp only at hresult
    split_ifs at hresult
    cases hresult
    exact isLine_trimNewlines (h.slots shm hshm 0).1
  · rw [opResult.eq_def, if_neg (by simp [hop]), if_neg (by simp [hop]), if_pos hop] at hresult
    split at hresult
    · cases hresult
    · split_ifs at hresult
      cases hresult
      exact isLine_trimNewlines (isLine_nat _)

/-! ## The record -/

/-- The states that a job can end in are lines. -/
theorem isLine_settle (stopReason : String) (m : Meta) (result : Except String String) :
    IsLine (settle stopReason m result).2 := by
  unfold settle
  cases result with
  | error why =>
    dsimp only
    split_ifs <;> simp [IsLine]
  | ok body => simp [IsLine]

/-- **A finished job's record is made of lines.** -/
theorem settle_lines (stopReason : String) (h : job.Plain)
    (hinspect : ∀ e, inspect = .error e → IsLine e) :
    (settle stopReason job.jobMeta (resultsOk job inspect)).1.Lines := by
  have hstate := isLine_settle stopReason job.jobMeta (resultsOk job inspect)
  cases hresult : resultsOk job inspect with
  | error why =>
    rw [hresult] at hstate
    refine h.record.setError ?_
    by_cases hwhy : why = ""
    · rw [if_pos hwhy]
      exact hstate
    · rw [if_neg hwhy]
      exact resultsOk_error h hinspect hresult
  | ok body =>
    refine (h.record.setDigest ?_).setError (by simp [IsLine])
    split_ifs with hop
    · exact resultsOk_digest h hop.1 hresult
    · exact h.record _ (by simp [Meta.texts])

end Forge
