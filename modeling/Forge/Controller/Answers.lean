import Forge.Controller.Earned
import Forge.Controller.Records
import Forge.Worker.Reference

/-!
# Right answers

What the controller makes of the slots (controller.cpp:314-373), or a worker of
its input (worker.cpp:674-698), is the reference result of the whole input,
whatever the workers, their order and their reads were.

* `Filled.reference`: the text that `results_ok` makes of a region.
* `Engine.Sound.copied`: the output of a copy.
* `answers_right`: the output behind every completed record.
-/

namespace Forge

variable {o : Oracle} {env : Launch → WorkerEnv} {log : Log} {input : Bytes}

/-! ## The region -/

theorem reference_congr {m m' : Meta} (hop : m'.op = m.op) (hranges : launchRanges m' = launchRanges m)
    (input : Bytes) : reference m' input = reference m input := by
  unfold reference
  rw [hop, hranges]

/-- The ranges of a job fill its input. -/
theorem launchRanges_covers (m : Meta) : Covers 0 (launchRanges m) m.bytes :=
  splitRanges_covers _ _ _

theorem launchRanges_single {m : Meta} (hm : m.Admitted)
    (hop : m.op = "sha256" ∨ m.op = "copy" ∨ m.op = "exec") : launchRanges m = [⟨0, m.bytes⟩] := by
  unfold launchRanges
  rw [hm.single hop, ite_self, splitRanges_single]

/-- The slot has what a worker has found in its range of the input. -/
structure Part (env : Launch → WorkerEnv) (m : Meta) (input : Bytes) (i : ℕ) (chunk : ChunkResult)
    (l : Launch) : Prop where
  op : l.jobMeta.op = m.op
  reads : (env l).input = input
  found : Found (env l) l chunk
  range : (launchRanges m)[i]? = some ⟨l.offset, l.length⟩

/-- Every slot of the region has its part of the answer. -/
structure Filled (env : Launch → WorkerEnv) (m : Meta) (input : Bytes) (shm : SharedRegion) :
    Prop where
  admitted : m.Admitted
  bytes : m.bytes = input.length
  small : input.length < 2 ^ 61
  count : shm.nchunks = (launchRanges m).length
  parts : ∀ i < shm.nchunks, ∃ l, Part env m input i (shm.chunks i) l

namespace Filled

variable {m : Meta} {shm : SharedRegion}

theorem range_le (h : Filled env m input shm) {i : ℕ} {r : ByteRange}
    (hr : (launchRanges m)[i]? = some r) : r.offset + r.length ≤ input.length := by
  rw [← h.bytes]
  exact ((launchRanges_covers m).mem (List.mem_of_getElem? hr)).2

/-- What the slot says of its range. -/
theorem range_eq (h : Filled env m input shm) {i : ℕ} (hi : i < shm.nchunks) :
    (launchRanges m)[i]? = some ⟨(shm.chunks i).offset, (shm.chunks i).length⟩ := by
  obtain ⟨l, hpart⟩ := h.parts i hi
  rw [hpart.range, hpart.found.own.offset, hpart.found.own.length]

theorem hex_eq (h : Filled env m input shm) (hop : m.op = "sha256" ∨ m.op = "chunk-sha256") {i : ℕ}
    (hi : i < shm.nchunks) : (shm.chunks i).hex =
      hexText (Fips180.sha256 (slice input (shm.chunks i).offset (shm.chunks i).length)) := by
  obtain ⟨l, hpart⟩ := h.parts i hi
  have hle : l.offset + l.length ≤ input.length := h.range_le hpart.range
  have hsmall := h.small
  rw [hpart.found.digest (hpart.op ▸ hop) (by omega) (by omega), hpart.reads,
    hpart.found.own.offset, hpart.found.own.length]

/-- The slots add up to the size of the input. -/
theorem totalBytes_eq (h : Filled env m input shm) : shm.totalBytes = input.length := by
  have hslots : (shm.slots.map (·.bytes)).map (· % 2 ^ 64) = (launchRanges m).map (·.length) := by
    refine List.ext_getElem? fun i => ?_
    by_cases hi : i < shm.nchunks
    · obtain ⟨l, hpart⟩ := h.parts i hi
      have hle : l.offset + l.length ≤ (env l).input.length := by
        rw [hpart.reads]
        exact h.range_le hpart.range
      have hsmall := h.small
      rw [← hpart.reads] at hsmall
      have hbytes := hpart.found.bytes_eq (by omega) (by omega) hle
      simp only [SharedRegion.slots, List.getElem?_map, List.getElem?_range hi, Option.map_some,
        hpart.range, hbytes]
    · have hcount := h.count
      rw [List.getElem?_eq_none (by simp [SharedRegion.slots]; omega),
        List.getElem?_eq_none (by simp; omega)]
  have hsum := (launchRanges_covers m).sum_length
  have hsmall := h.small
  unfold SharedRegion.totalBytes
  rw [List.sum_nat_mod, hslots]
  rw [h.bytes] at hsum
  omega

/-- **The text of a filled region is the reference result.** -/
theorem reference (h : Filled env m input shm) (hcopy : m.op ≠ "copy") {inspect : Except String ℕ}
    {body : String} (hok : opResult m shm inspect = .ok body) :
    textBytes body = Forge.reference m input := by
  unfold opResult at hok
  unfold Forge.reference
  by_cases hsha : m.op = "sha256"
  · -- one worker has the whole input
    have hsingle := launchRanges_single h.admitted (Or.inl hsha)
    have hpos : 0 < shm.nchunks := by
      rw [h.count, hsingle]
      exact Nat.one_pos
    have hrange := h.range_eq hpos
    rw [hsingle, List.getElem?_cons_zero, Option.some.injEq, ByteRange.mk.injEq] at hrange
    have hhex := h.hex_eq (Or.inl hsha) hpos
    rw [← hrange.1, ← hrange.2, h.bytes, slice, List.drop_zero, List.take_length] at hhex
    rw [if_pos hsha] at hok ⊢
    dsimp only at hok
    split_ifs at hok
    cases hok
    rw [hhex]
  · rw [if_neg hsha] at hok ⊢
    by_cases hchunk : m.op = "chunk-sha256"
    · rw [if_pos hchunk] at hok ⊢
      split at hok
      · cases hok
      · split_ifs at hok
        cases hok
        have hlines : ((List.range shm.nchunks).map fun i => chunkLine i (shm.chunks i)) =
            (launchRanges m).mapIdx (referenceLine input) := by
          refine List.ext_getElem? fun i => ?_
          by_cases hi : i < shm.nchunks
          · rw [List.getElem?_map, List.getElem?_range hi, List.getElem?_mapIdx, h.range_eq hi,
              Option.map_some, Option.map_some, chunkLine, referenceLine, h.hex_eq (Or.inr hchunk) hi]
          · have hcount := h.count
            rw [List.getElem?_eq_none (by simp; omega), List.getElem?_eq_none (by simp; omega)]
        rw [chunkBody, hlines, h.bytes, h.count]
    · rw [if_neg hchunk] at hok ⊢
      by_cases hcount : m.op = "count"
      · rw [if_pos hcount] at hok ⊢
        split at hok
        · cases hok
        · split_ifs at hok
          cases hok
          rw [h.totalBytes_eq]
      · rw [if_neg hcount, if_neg hcopy] at hok
        cases hok

end Filled

/-! ## The workers -/

section

variable {id call : ℕ} {job : LiveJob} {ws : List Launch}

/-- The region of a job whose workers have all exited with status 0 is filled. -/
theorem Publishing.filled (h : Publishing log id job call ws)
    (hexits : ∀ l ∈ ws, log.status l.child = some (.exited 0))
    (hfound : ∀ l ∈ ws, ∀ chunk, Effect.slot l.child chunk ∈ log → chunk.ok = 1 →
      Found (env l) l chunk) (hinput : ∀ l ∈ ws, (env l).input = input)
    (hbytes : job.jobMeta.bytes = input.length) (hsmall : input.length < 2 ^ 61) :
    Filled env job.jobMeta input (log.region (ws.map (·.child)) ws.length) := by
  refine ⟨h.staffed.admitted, hbytes, hsmall, h.staffed.length_eq, fun i hi => ?_⟩
  obtain ⟨l, hl, rfl, hrange⟩ := h.worker hi
  obtain ⟨hslot, hok⟩ := h.delivered hl (hexits l hl)
  exact ⟨l, h.staffed.op_eq hl, hinput l hl, hfound l hl _ hslot.stored hok, hrange⟩

/-- The output of a job is what one worker has copied, if nobody has written another. -/
theorem Log.outputs_copied {body : Bytes} (hcopied : ∃ child, Effect.copied child id body ∈ log)
    (honly : ∀ child body', Effect.copied child id body' ∈ log → body' = body)
    (hnone : ∀ body', Effect.output id body' ∉ log) : log.outputs id = some body := by
  induction log with
  | nil =>
    obtain ⟨child, hmem⟩ := hcopied
    cases hmem
  | cons e log ih =>
    have hold : (∃ child, Effect.copied child id body ∈ log) → Log.outputs log id = some body := fun h =>
      ih h (fun child body' hmem => honly child body' (List.mem_cons_of_mem e hmem))
        fun body' hmem => hnone body' (List.mem_cons_of_mem e hmem)
    obtain ⟨child, hmem⟩ := hcopied
    cases e with
    | output i body' =>
      have hne : i ≠ id := by
        rintro rfl
        exact hnone body' List.mem_cons_self
      rw [Log.outputs, if_neg hne]
      exact hold ⟨child, by simpa using hmem⟩
    | copied c i body' =>
      rw [Log.outputs]
      split_ifs with hi
      · subst hi
        rw [honly c body' List.mem_cons_self]
      · refine hold ⟨child, (List.mem_cons.mp hmem).resolve_left fun heq => hi ?_⟩
        cases heq
        rfl
    | _ => exact hold ⟨child, by simpa using hmem⟩

theorem Log.output_mem_deeds {child : ℕ} {body : Bytes} :
    .output body ∈ log.deeds child ↔ ∃ i, Effect.copied child i body ∈ log := by
  rw [Log.mem_deeds]
  constructor
  · rintro ⟨e, he, hdeed⟩
    cases e with
    | copied c i body' =>
      cases hdeed
      exact ⟨i, he⟩
    | exit c status => cases status <;> cases hdeed
    | _ => cases hdeed
  · rintro ⟨i, he⟩
    exact ⟨_, he, rfl⟩

end

namespace Engine.Sound

variable {s : Engine} {id call : ℕ} {job : LiveJob} {ws : List Launch} {past : Log}

/-- The region of a finished job is filled. -/
theorem filled (hs : Engine.Sound o env s) (hpast : past <:+ s.world.log)
    (hst : Staffed past id job call ws) (hop : job.jobMeta.op ≠ "exec")
    (hexits : ∀ l ∈ ws, past.status l.child = some (.exited 0))
    (hinput : ∀ l ∈ ws, (env l).input = input) (hbytes : job.jobMeta.bytes = input.length)
    (hsmall : input.length < 2 ^ 61) :
    Filled env job.jobMeta input (past.region (ws.map (·.child)) ws.length) := by
  refine (hs.publishing_past hpast hst hop).filled hexits (fun l hl chunk hslot hok => ?_) hinput
    hbytes hsmall
  exact hs.found (Log.mem_launches_suffix hpast (Log.forks_subset (hst.belongs l hl).1))
    (hpast.subset hslot) hok

/-- A worker that has stored the slot of a copy has published its copy, and nothing else. -/
theorem published_copy (hs : Engine.Sound o env s) {l : Launch} {body : Bytes}
    {chunk chunk' : ChunkResult} (hl : l ∈ s.world.log.launches)
    (hacts : Engine.program env l = .output body :: deliver chunk') (hpast : past <:+ s.world.log)
    (hslot : Effect.slot l.child chunk ∈ past) :
    .output body ∈ past.deeds l.child ∧ ∀ body', .output body' ∈ past.deeds l.child → body' = body := by
  have hshown : past.deeds l.child <:+
      [.exit 0, .bump, .slot chunk', .output body] := by
    have hdeeds : s.world.log.deeds l.child <:+ [.exit 0, .bump, .slot chunk', .output body] := by
      rcases hs.working.deeds l hl with hdeeds | ⟨himage, -⟩
      · have hall : ((Engine.program env l).filter (·.shown)).reverse =
            [.exit 0, .bump, .slot chunk', .output body] := by
          rw [hacts]
          rfl
        rw [hdeeds, ← hall]
        exact List.reverse_suffix.mpr ((List.take_prefix _ _).filter _)
      · -- a copy never becomes another program
        have himage' : .image ∈ Engine.program env l :=
          List.mem_of_mem_take (himage ▸ List.mem_singleton.mpr rfl)
        rw [hacts] at himage'
        simp [deliver, publishChunk] at himage'
    obtain ⟨older, holder⟩ := hpast
    rw [← holder, Log.deeds_append] at hdeeds
    exact (List.suffix_append _ _).trans hdeeds
  have hmem := Log.slot_mem_deeds.mpr hslot
  constructor
  · generalize past.deeds l.child = acts at hshown hmem
    simp only [List.suffix_cons_iff, List.suffix_nil] at hshown
    rcases hshown with rfl | rfl | rfl | rfl | rfl
    · simp
    · simp
    · simp
    · simp at hmem
    · simp at hmem
  · intro body' hbody'
    simpa using hshown.subset hbody'

/-- **The output of a copy is the input.** -/
theorem copied (hs : Engine.Sound o env s) {strict reads ids : Prop} (hpast : past <:+ s.world.log)
    (hrecords : History.All (RecordOk strict reads) past) (hreads : reads)
    (hends : History.All (EndOk o ids) past) (hst : Staffed past id job call ws)
    (hop : job.jobMeta.op = "copy")
    (hexits : ∀ l ∈ ws, past.status l.child = some (.exited 0))
    (hinput : ∀ l ∈ ws, (env l).input = input) (hbytes : job.jobMeta.bytes = input.length)
    (hsmall : input.length < 2 ^ 61) : past.outputs id = some input := by
  have hall := hs.crew.children.suffix hpast
  have hexec : job.jobMeta.op ≠ "exec" := by
    rw [hop]
    decide
  have h := hs.publishing_past hpast hst hexec
  have hfilled := hs.filled hpast hst hexec hexits hinput hbytes hsmall
  -- the job has one worker, which has the whole input
  have hsingle := launchRanges_single hst.admitted (Or.inr (Or.inl hop))
  have hlen : ws.length = 1 := by
    rw [hst.length_eq, hsingle]
    rfl
  obtain ⟨l, rfl⟩ := List.length_eq_one_iff.mp hlen
  have hl : l ∈ [l] := List.mem_singleton.mpr rfl
  have hlaunch : l ∈ past.launches := Log.forks_subset (hst.belongs l hl).1
  obtain ⟨hslot, hok⟩ := h.delivered hl (hexits l hl)
  have hrange := hst.ranges
  rw [List.map_singleton, hsingle, List.singleton_inj, ByteRange.mk.injEq] at hrange
  have hfound := hs.found (Log.mem_launches_suffix hpast hlaunch) (hpast.subset hslot.stored) hok
  obtain ⟨chunk, hacts⟩ := hfound.copy ((hst.op_eq hl).trans hop) (by omega)
  rw [hinput l hl, hrange.1, hrange.2, hbytes, slice, List.drop_zero, List.take_length] at hacts
  obtain ⟨hpublished, honly⟩ := hs.published_copy (Log.mem_launches_suffix hpast hlaunch) hacts hpast
    hslot.stored
  -- nobody else works on the job
  have hworker : ∀ l' ∈ past.launches, l'.id = id → l' = l := by
    intro l' hl' hid
    have hcall := launches_call hrecords hreads hlaunch hl' (hid.trans (hst.belongs l hl).2.1.symm)
    exact List.mem_singleton.mp (hst.all l' hl' (hcall.trans (hst.belongs l hl).2.2))
  refine Log.outputs_copied ?_ ?_ ?_
  · obtain ⟨i, hmem⟩ := Log.output_mem_deeds.mp hpublished
    obtain ⟨new, older, hlog⟩ := List.append_of_mem hmem
    have hsuffix : .copied l.child i input :: older <:+ past := ⟨new, hlog.symm⟩
    obtain ⟨l', hl', hchild, rfl, -⟩ := hall.at hsuffix
    have hl'' := Log.mem_launches_suffix ((List.suffix_cons _ _).trans hsuffix) hl'
    rw [launch_unique hall hlaunch hl'' hchild] at hmem
    exact ⟨l.child, (hst.belongs l hl).2.1 ▸ hmem⟩
  · intro child body hmem
    obtain ⟨new, older, hlog⟩ := List.append_of_mem hmem
    have hsuffix : .copied child id body :: older <:+ past := ⟨new, hlog.symm⟩
    obtain ⟨l', hl', rfl, hid, -⟩ := hall.at hsuffix
    have hl'' := Log.mem_launches_suffix ((List.suffix_cons _ _).trans hsuffix) hl'
    rw [hworker l' hl'' hid] at hmem
    exact honly body (Log.output_mem_deeds.mpr ⟨id, hmem⟩)
  · intro body hmem
    obtain ⟨new, older, hlog⟩ := List.append_of_mem hmem
    have hsuffix : .output id body :: older <:+ past := ⟨new, hlog.symm⟩
    obtain ⟨l', hl', hid, hcopy⟩ := hends.at hsuffix
    have hl'' := Log.mem_launches_suffix ((List.suffix_cons _ _).trans hsuffix) hl'
    rw [hworker l' hl'' hid, hst.op_eq hl] at hcopy
    exact hcopy hop

end Engine.Sound

/-! ## Runs -/

/-- The records that appear carry their ids. -/
def EngineEvent.idsMatch : EngineEvent → Bool
  | .world e => e.input.idsMatch
  | _ => true

/-- A run of the system whose records carry their ids is such a run of the controller. -/
theorem Engine.run_world_ids (o : Oracle) (env : Launch → WorkerEnv) (slots : ℕ)
    {es : List EngineEvent} (hids : ∀ e ∈ es, e.idsMatch = true) :
    ∃ events, (∀ e ∈ events, e.input.idsMatch = true) ∧
      (Machine.run (Engine.step o env) (Engine.start slots) es).world =
        Machine.run (World.step o) (World.start slots) events := by
  induction es using List.reverseRecOn with
  | nil => exact ⟨[], by simp, rfl⟩
  | append_singleton es e ih =>
    obtain ⟨events, hevents, hrun⟩ := ih fun e' he' => hids e' (List.mem_append_left _ he')
    rw [Machine.run_append]
    rcases @Engine.step_event o env
      (Machine.run (Engine.step o env) (Engine.start slots) es) e with h | ⟨e', h, he'⟩
    · exact ⟨events, hevents, h.trans hrun⟩
    · refine ⟨events ++ [e'], fun e₁ he₁ => ?_, ?_⟩
      · rcases List.mem_append.mp he₁ with he₁ | he₁
        · exact hevents e₁ he₁
        · rw [List.mem_singleton.mp he₁]
          rcases he' with rfl | ⟨input, rfl, hby⟩
          · exact hids _ (List.mem_append_right _ (List.mem_singleton.mpr rfl))
          · cases input <;> first | rfl | cases hby
      · rw [Machine.run_append, ← hrun]
        exact h

/-- The workers of the job read `input`, which was inspected when the job was launched. -/
def Reads (env : Launch → WorkerEnv) (log : Log) (id : ℕ) (input : Bytes) : Prop :=
  input.length < 2 ^ 61 ∧
    ∀ l ∈ log.launches, l.id = id → (env l).input = input ∧ l.jobMeta.bytes = input.length

/-- The jobs that read `input` read what `Filled` asks for. -/
theorem Staffed.reads {id call : ℕ} {job : LiveJob} {ws : List Launch}
    (h : Staffed log id job call ws) (hreads : Reads env log id input) :
    (∀ l ∈ ws, (env l).input = input) ∧ job.jobMeta.bytes = input.length := by
  have hall : ∀ l ∈ ws, (env l).input = input ∧ l.jobMeta.bytes = input.length := fun l hl =>
    hreads.2 l (Log.forks_subset (h.belongs l hl).1) (h.belongs l hl).2.1
  refine ⟨fun l hl => (hall l hl).1, ?_⟩
  have hpos : 0 < ws.length := by
    rw [h.length_eq]
    exact List.length_pos_iff.mpr (launchRanges_ne_nil _)
  have hmem := List.getElem_mem hpos
  rw [h.metas _ hmem]
  exact (hall _ hmem).2

theorem Reads.suffix {log log' : Log} {id : ℕ} (h : Reads env log' id input) (hsuf : log <:+ log') :
    Reads env log id input :=
  ⟨h.1, fun l hl => h.2 l (Log.mem_launches_suffix hsuf hl)⟩

/-- What a copy relies on, since its worker writes the output itself: records are saved
    and read, and carry their ids. -/
structure Undisturbed (o : Oracle) (es : List EngineEvent) : Prop where
  saves : o.SavesAlways
  loads : o.Loads
  ids : ∀ e ∈ es, e.idsMatch = true

/-- What that makes of the log: the records of a job stay its own. -/
structure OwnRecords (o : Oracle) (log : Log) : Prop where
  records : History.All (RecordOk (Guard.orderly fun _ _ => True).Strict o.Loads) log
  ends : History.All (EndOk o (∀ id m, (Guard.orderly fun _ _ => True).record id m → m.id = id)) log
  loads : o.Loads

theorem Undisturbed.ownRecords {es : List EngineEvent} (h : Undisturbed o es)
    (env : Launch → WorkerEnv) (slots : ℕ) :
    OwnRecords o (Machine.run (Engine.step o env) (Engine.start slots) es).world.log := by
  obtain ⟨events, hevents, hrun⟩ := Engine.run_world_ids o env slots h.ids
  have hallow := along_orderly o slots hevents
  rw [hrun]
  exact ⟨(run_tracked h.saves (fun _ _ hrecord => hrecord) hallow).history, run_earned hallow, h.loads⟩

theorem run_ends (o : Oracle) (env : Launch → WorkerEnv) (slots : ℕ) (es : List EngineEvent) :
    History.All (EndOk o (∀ id m, Guard.any.record id m → m.id = id))
      (Machine.run (Engine.step o env) (Engine.start slots) es).world.log := by
  obtain ⟨events, hrun⟩ := Engine.run_world o env slots es
  rw [hrun]
  exact run_earned (along_any _ events)

namespace Engine.Sound

variable {s : Engine} {id : ℕ} {m : Meta} {past : Log}

/-- Beside a record that says completed lies the reference result. -/
theorem completed_right {ids : Prop} (hs : Engine.Sound o env s)
    (hends : History.All (EndOk o ids) s.world.log) (hsuffix : .save id m :: past <:+ s.world.log)
    (hstate : m.state = "completed") (hop : m.op ≠ "exec") (hreads : Reads env past id input)
    (hcopy : m.op = "copy" → OwnRecords o s.world.log) :
    past.outputs id = some (reference m input) := by
  have hpast := (List.suffix_cons _ _).trans hsuffix
  obtain ⟨log₀, job, call, ws, t, inspect, body, hst, hreaped, -, hok, hmop, -, hranges, hbody⟩ :=
    (hends.at hsuffix hstate).judged
  have hlog₀ : log₀ <:+ past := by
    rcases hbody with ⟨-, rfl⟩ | ⟨-, m', log₁, -, hsave, rfl⟩
    · exact List.suffix_refl _
    · exact ((Adds.refl log₀).saved (P := fun _ => True) trivial trivial hsave).suffix.trans
        (List.suffix_cons _ _)
  have hjop : job.jobMeta.op ≠ "exec" := hmop ▸ hop
  obtain ⟨hinput, hbytes⟩ := hst.reads (hreads.suffix hlog₀)
  obtain ⟨shm, hshm, -, hhow, hresult⟩ := resultsOk_builtin (show (judgedJob job t).jobMeta.op ≠ _
    from hjop) hok
  have hexits := (hst.exits_iff hreaped).mp hhow
  have hfilled := hs.filled (hlog₀.trans hpast) hst hjop hexits hinput hbytes hreads.1
  obtain rfl := Option.some.inj (hshm.symm.trans
    (hs.publishing_past (hlog₀.trans hpast) hst hjop).shm)
  rcases hbody with ⟨hempty, rfl⟩ | ⟨hne, m', log₁, -, -, rfl⟩
  · have hcopied : job.jobMeta.op = "copy" :=
      ((resultsOk_text hok).mp hempty).resolve_left hjop
    have hmcopy : m.op = "copy" := hmop.trans hcopied
    have hown := hcopy hmcopy
    have href : reference m input = input := by
      unfold reference
      rw [hmcopy]
      rfl
    rw [href]
    exact hs.copied hpast (hown.records.suffix hpast) hown.loads (hown.ends.suffix hpast) hst hcopied
      hexits hinput hbytes hreads.1
  · have hno : job.jobMeta.op ≠ "copy" := fun hcopied =>
      hne ((resultsOk_text hok).mpr (Or.inr hcopied))
    rw [reference_congr hmop hranges, ← hfilled.reference hno hresult, Log.outputs, if_pos rfl]

/-- A job is completed when its workers have succeeded and its output is written. -/
theorem completed_iff (hs : Engine.Sound o env s) {state : String} {job : LiveJob}
    {inspect : Except String ℕ} {write : Option WriteAnswer}
    (hsuffix : .finalized id state job inspect write :: past <:+ s.world.log)
    (hop : job.jobMeta.op ≠ "exec") (hreads : Reads env past id input)
    (hcopy : job.jobMeta.op = "copy" → OwnRecords o s.world.log ∧ ∀ k, o.inspectOutput k = none) :
    state = "completed" ↔ (∀ l ∈ past.launches, l.child ∈ job.procs.map (·.child) →
      past.status l.child = some (.exited 0)) ∧ ¬ Unwritten write := by
  have hpast := (List.suffix_cons _ _).trans hsuffix
  obtain ⟨call, ws, ⟨job₀, t, rfl, hst⟩, houtcome⟩ := hs.outcome hsuffix
  have hjop : job₀.jobMeta.op ≠ "exec" := hop
  have hexits : (∀ l ∈ past.launches, l.child ∈ (judgedJob job₀ t).procs.map (·.child) →
      past.status l.child = some (.exited 0)) ↔
      ∀ l ∈ ws, past.status l.child = some (.exited 0) := by
    rw [houtcome.children]
    constructor
    · exact fun h l hl => h l (Log.forks_subset (hst.belongs l hl).1) (List.mem_map_of_mem hl)
    · intro h l _ hchild
      obtain ⟨l', hl', heq⟩ := List.mem_map.mp hchild
      rw [← heq]
      exact h l' hl'
  rw [houtcome.completed, hexits]
  refine and_congr_left fun _ => ⟨fun hpassed => hpassed.exits, fun hall => ?_⟩
  obtain ⟨hinput, hbytes⟩ := hst.reads hreads
  have hfilled := hs.filled hpast hst hjop hall hinput hbytes hreads.1
  refine (hs.publishing_past hpast hst hjop).passed hall
    (fun _ => hfilled.totalBytes_eq.trans hbytes.symm) (fun hcopied => ?_) t
  -- the size that `inspect_file` returns is that of the copy
  obtain ⟨hown, hinspects⟩ := hcopy hcopied
  have hid : (judgedJob job₀ t).jobMeta.id = id := hown.ends.at hsuffix fun _ _ h => h
  have hout : past.outputs id = some input := hs.copied hpast (hown.records.suffix hpast)
    hown.loads (hown.ends.suffix hpast) hst hcopied hall hinput hbytes hreads.1
  have hsize := houtcome.inspected hcopied
  rw [hid] at hsize
  cases hsize with
  | size =>
    rw [outputSize, hout]
    exact congrArg Except.ok hbytes.symm
  | @failed k _ herr => cases (hinspects k).symm.trans herr

end Engine.Sound

/-- **Completed jobs have the right output, and jobs whose workers succeed are completed**,
    in every run of the controller and its workers. Only a copy can be disturbed by a
    record that carries another id, or that could not be saved or read. -/
theorem answers_right (o : Oracle) (env : Launch → WorkerEnv) (slots : ℕ) (es : List EngineEvent) :
    let s := Machine.run (Engine.step o env) (Engine.start slots) es
    (∀ (id : ℕ) (m : Meta) (past : Log) (input : Bytes),
      .save id m :: past <:+ s.world.log → m.state = "completed" → m.op ≠ "exec" → Reads env past id input →
      (m.op = "copy" → Undisturbed o es) → past.outputs id = some (reference m input)) ∧
    (∀ (id : ℕ) (state : String) (job : LiveJob) (inspect : Except String ℕ)
      (write : Option WriteAnswer) (past : Log) (input : Bytes),
      .finalized id state job inspect write :: past <:+ s.world.log → job.jobMeta.op ≠ "exec" →
      Reads env past id input →
      (job.jobMeta.op = "copy" → Undisturbed o es ∧ ∀ k, o.inspectOutput k = none) →
      (state = "completed" ↔ (∀ l ∈ past.launches, l.child ∈ job.procs.map (·.child) →
        past.status l.child = some (.exited 0)) ∧ ¬ Unwritten write)) := by
  intro s
  have hs : Engine.Sound o env s := Engine.run_sound o env slots es
  constructor
  · intro id m past input hsuffix hstate hop hreads hcopy
    exact hs.completed_right (run_ends o env slots es) hsuffix hstate hop hreads fun hmcopy =>
      (hcopy hmcopy).ownRecords env slots
  · intro id state job inspect write past input hsuffix hop hreads hcopy
    exact hs.completed_iff hsuffix hop hreads fun hcopied =>
      ⟨(hcopy hcopied).1.ownRecords env slots, (hcopy hcopied).2⟩

/-- A job of two workers that counts the bytes of its input. -/
def pairMeta (id : ℕ) : Meta :=
  { id := id, op := "count", input := "/input", io := "mmap", workers := 2 }

/-- A worker for which every call succeeds. -/
def threeBytes : WorkerEnv where
  input := [7, 8, 9]
  setup := .ok ()
  execve := .ok ()
  gate := .ok ()
  read := ⟨.ok (), 4096, .ok (), .ok (), .ok (), true, .steady 1⟩
  openDir := .ok ()
  openTemp := .ok ()
  write := fun _ => .ok 1
  publish := .ok

/-- Job 1 counts three bytes with two workers, which take turns and are reaped in the
    other order. -/
theorem answers_right_count :
    let s := Machine.run (Engine.step (.smooth fun _ i => 7 + i) fun _ => threeBytes) (Engine.start 1)
      [.world (.handled (.record 1 (pairMeta 1))), .world (.handled .recover), .work 5, .work 4,
       .work 5, .work 4, .work 5, .work 4, .work 5, .work 4, .world (.handled (.reap 5)),
       .world (.handled (.reap 4))]
    ∃ m past, .save 1 m :: past <:+ s.world.log ∧ m.state = "completed" ∧
      Log.outputs past 1 = some (textBytes "3\n") := by
  intro s
  have hsave : ((s.world.log.drop 2).head?.bind Effect.saved?).map
      (fun p => (p.1, p.2.state, p.2.op)) = some (1, "completed", "count") := by decide +kernel
  obtain ⟨⟨id, m⟩, hsaved, heq⟩ := Option.map_eq_some_iff.mp hsave
  simp only [Prod.mk.injEq] at heq
  obtain ⟨rfl, hstate, hop⟩ := heq
  have hsuffix := save_of_drop hsaved
  have hlaunches : ∀ l ∈ s.world.log.launches, l.jobMeta.bytes = 3 := by decide +kernel
  have hreads : Reads (fun _ => threeBytes) (s.world.log.drop 3) 1 [7, 8, 9] :=
    ⟨by norm_num, fun l hl _ =>
      ⟨rfl, hlaunches l (Log.mem_launches_suffix (List.drop_suffix 3 _) hl)⟩⟩
  have hanswer := (answers_right _ _ _ _).1 1 m _ [7, 8, 9] hsuffix hstate (by rw [hop]; decide)
    hreads (fun hcopy => absurd (hop.symm.trans hcopy) (by decide))
  refine ⟨m, _, hsuffix, hstate, hanswer.trans ?_⟩
  rw [reference, hop]
  rfl

end Forge
