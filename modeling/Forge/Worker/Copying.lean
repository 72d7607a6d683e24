import Forge.Worker.Entry
import Forge.Store.AtomicWrite

/-!
# The copying worker on the disk

The copying branch of `worker_entry` (worker.cpp:674-698) is modelled as what
others see of it (`copyChunk`) and as the calls it makes on the disk (`copyOutput`).
Both follow the same code: under the same answers to the calls they have the same
result.

* `feedRange_handOver`: what `feed_range` passes to a sink does not depend on it.
* `exists_answered`: some kernel answers so.
* `copyChunk_eq`, `storedSlots_workerEntry`: the two models agree.
* `published_of_slot`: a good slot says that the copy is published.
-/

namespace Forge

open CrashFs RelyGuarantee Process

/-! ## What is passed to a sink -/

section HandOver

variable {σ : Type}

/-- The sink is offered the pieces until it refuses one; at the end comes the error
    of the loop that passes them, if there is one. -/
def handOver (sink : Sink σ) : σ → List Bytes → Option String → Except (String × σ) σ
  | ctx, [], none => .ok ctx
  | ctx, [], some e => .error (e, ctx)
  | ctx, piece :: pieces, err =>
    match offer sink ctx piece with
    | .error e => .error e
    | .ok ctx' => handOver sink ctx' pieces err

theorem handOver_append (sink : Sink σ) (ps qs : List Bytes) (err : Option String) (ctx : σ) :
    handOver sink ctx (ps ++ qs) err =
      (handOver sink ctx ps none).bind fun ctx' => handOver sink ctx' qs err := by
  induction ps generalizing ctx with
  | nil => rfl
  | cons piece ps ih =>
    rw [List.cons_append, handOver, handOver]
    cases offer sink ctx piece with
    | error e => rfl
    | ok ctx' => exact ih ctx'

theorem handOver_keepPiece (ps pieces : List Bytes) :
    handOver keepPiece ps pieces none = .ok (ps ++ pieces) ∧
      ∀ e, handOver keepPiece ps pieces (some e) = .error (e, ps ++ pieces) := by
  induction pieces generalizing ps with
  | nil => simp [handOver]
  | cons piece pieces ih =>
    have hnext := ih (ps ++ [piece])
    rw [List.append_assoc, List.singleton_append] at hnext
    exact hnext

theorem handOver_some_ne (sink : Sink σ) (pieces : List Bytes) (e : String) (ctx ctx' : σ) :
    handOver sink ctx pieces (some e) ≠ .ok ctx' := by
  induction pieces generalizing ctx with
  | nil => nofun
  | cons piece pieces ih =>
    rw [handOver]
    cases offer sink ctx piece with
    | error e => nofun
    | ok ctx'' => exact ih ctx''

/-- What the sink is offered does not depend on the sink. -/
def PassesOn (feed : ∀ {σ : Type}, Sink σ → σ → Except (String × σ) σ) : Prop :=
  ∃ pieces err, ∀ {σ : Type} (sink : Sink σ) (ctx : σ), feed sink ctx = handOver sink ctx pieces err

theorem passesOn_error (e : String) : PassesOn fun _ ctx => .error (e, ctx) := ⟨[], some e, fun _ _ => rfl⟩

theorem passesOn_offer (piece : Bytes) : PassesOn fun sink ctx => offer sink ctx piece := by
  refine ⟨[piece], none, fun sink ctx => ?_⟩
  dsimp only
  rw [handOver]
  cases offer sink ctx piece <;> rfl

theorem readLoop_passesOn (f : Bytes) (env : ReadEnv) (left off k : ℕ) :
    PassesOn fun sink ctx => (readLoop f env sink left off k ctx).1 := by
  fun_induction readLoop f env keepPiece left off k [] with
  | case1 off k =>
    refine ⟨[], none, fun sink ctx => ?_⟩
    dsimp only
    rw [readLoop, dif_pos rfl]
    rfl
  | case2 left off k ctx hleft want ha again ih =>
    obtain ⟨pieces, err, h⟩ := ih
    refine ⟨pieces, err, fun sink ctx => ?_⟩
    dsimp only at h ⊢
    rw [← h, readLoop, dif_neg hleft]
    split <;> simp_all
  | case3 left off k ctx hleft want e ha =>
    refine ⟨[], some ("pread: " ++ e), fun sink ctx => ?_⟩
    dsimp only
    rw [readLoop, dif_neg hleft]
    split <;> simp_all [handOver]
  | case4 left off k ctx hleft want r ha got hgot =>
    refine ⟨[], some "unexpected EOF", fun sink ctx => ?_⟩
    dsimp only
    rw [readLoop, dif_neg hleft]
    split
    · simp_all
    · simp_all
    · next r' heq =>
      cases ha.symm.trans heq
      dsimp only
      rw [dif_pos hgot]
      rfl
  | case5 left off k ctx hleft want r ha got hgot e he => cases he
  | case6 left off k ctx hleft want r ha got hgot ctx' hsink rest ih =>
    obtain ⟨pieces, err, h⟩ := ih
    refine ⟨got :: pieces, err, fun sink ctx => ?_⟩
    dsimp only at h ⊢
    rw [readLoop, dif_neg hleft, handOver]
    split
    · simp_all
    · simp_all
    · next r' heq =>
      cases ha.symm.trans heq
      dsimp only
      rw [dif_neg hgot]
      cases offer sink ctx got with
      | error e => rfl
      | ok ctx' => exact h sink ctx'

theorem directLoop_passesOn (f : Bytes) (env : ReadEnv) (left off k : ℕ) :
    ∃ pieces err calls, ∀ {σ : Type} (sink : Sink σ) (ctx : σ),
      (directLoop f env sink left off k ctx).1 = handOver sink ctx pieces err ∧
      ∀ ctx', (directLoop f env sink left off k ctx).1 = .ok ctx' →
        (directLoop f env sink left off k ctx).2 = calls := by
  fun_induction directLoop f env keepPiece left off k [] with
  | case1 off k =>
    refine ⟨[], none, [], fun sink ctx => ?_⟩
    rw [directLoop, dif_pos rfl]
    exact ⟨rfl, fun _ _ => rfl⟩
  | case2 left off k ctx hleft want filled e he =>
    refine ⟨[], some e, [], fun sink ctx => ?_⟩
    have hfail : (directLoop f env sink left off k ctx).1 = .error (e, ctx) := by
      rw [directLoop, dif_neg hleft]
      dsimp only
      rw [show (readFull f env true "pread O_DIRECT: " "unexpected EOF during O_DIRECT read"
        (min (2 ^ 20) left) off k).1 = .error e from he]
    exact ⟨hfail, fun ctx' h => by cases hfail.symm.trans h⟩
  | case3 left off k ctx hleft want filled buf hbuf e he => cases he
  | case4 left off k ctx hleft want filled buf hbuf ctx' hsink rest ih =>
    obtain ⟨pieces, err, calls, h⟩ := ih
    refine ⟨buf :: pieces, err, filled.2 ++ calls, fun sink ctx => ?_⟩
    have hbuf' : (readFull f env true "pread O_DIRECT: " "unexpected EOF during O_DIRECT read"
        (min (2 ^ 20) left) off k).1 = .ok buf := hbuf
    rw [directLoop, dif_neg hleft, handOver]
    dsimp only
    rw [hbuf']
    dsimp only
    cases offer sink ctx buf with
    | error e => exact ⟨rfl, fun _ h => by cases h⟩
    | ok ctx' =>
      refine ⟨(h sink ctx').1, fun ctx'' hok => ?_⟩
      exact congrArg (filled.2 ++ ·) ((h sink ctx').2 ctx'' hok)

theorem readTail_passesOn (f : Bytes) (env : ReadEnv) (want off k : ℕ) :
    PassesOn fun sink ctx => (readTail f env sink want off k ctx).1 := by
  cases hbuf : (readFull f env false "pread tail: " "unexpected EOF in tail" want off k).1 with
  | error e =>
    refine ⟨[], some e, fun sink ctx => ?_⟩
    unfold readTail
    dsimp only
    rw [hbuf]
    rfl
  | ok buf =>
    obtain ⟨pieces, err, h⟩ := passesOn_offer buf
    refine ⟨pieces, err, fun sink ctx => ?_⟩
    rw [← h]
    unfold readTail
    dsimp only
    rw [hbuf]

theorem feedDirect_passesOn (f : Bytes) (env : ReadEnv) (offset length : ℕ) :
    PassesOn fun sink ctx => (feedDirect f env sink ctx offset length).1 := by
  unfold feedDirect
  split_ifs with hoff
  · exact passesOn_error _
  · cases env.openDirect with
    | error e => exact passesOn_error _
    | ok =>
      cases env.openTail with
      | error e => exact passesOn_error _
      | ok =>
        dsimp only
        obtain ⟨ps, err, calls, hloop⟩ :=
          directLoop_passesOn f env (length - length % kDirectAlign) offset 0
        split_ifs with hmem htail
        · exact passesOn_error _
        · obtain ⟨qs, err', htail⟩ := readTail_passesOn f env
            (length - (length - length % kDirectAlign)) (offset + (length - length % kDirectAlign))
            calls.length
          dsimp only at htail
          cases err with
          | some e =>
            -- the tail is not reached
            refine ⟨ps, some e, fun sink ctx => ?_⟩
            obtain ⟨hfed, -⟩ := hloop sink ctx
            dsimp only
            rw [hfed]
            cases hover : handOver sink ctx ps (some e) with
            | error e' => rfl
            | ok ctx' => exact absurd hover (handOver_some_ne sink ps e ctx ctx')
          | none =>
            refine ⟨ps ++ qs, err', fun sink ctx => ?_⟩
            obtain ⟨hfed, hcalls⟩ := hloop sink ctx
            rw [handOver_append]
            dsimp only
            cases hover : handOver sink ctx ps none with
            | error e' =>
              rw [hfed, hover]
              rfl
            | ok ctx' =>
              rw [hcalls ctx' (hfed.trans hover), hfed, hover]
              exact htail sink ctx'
        · refine ⟨ps, err, fun sink ctx => ?_⟩
          obtain ⟨hfed, -⟩ := hloop sink ctx
          dsimp only
          rw [← hfed]
          cases (directLoop f env sink (length - length % kDirectAlign) offset 0 ctx).1 <;> rfl

theorem feedMmap_passesOn (f : Bytes) (env : ReadEnv) (offset length : ℕ) :
    PassesOn fun sink ctx => feedMmap f env sink ctx offset length := by
  unfold feedMmap
  cases env.openInput with
  | error e => exact passesOn_error _
  | ok =>
    cases env.mmap with
    | error e => exact passesOn_error _
    | ok => exact passesOn_offer _

/-- **What `feed_range` passes to a sink does not depend on the sink.** -/
theorem feedRange_passesOn (io : String) (f : Bytes) (env : ReadEnv) (offset length : ℕ) :
    PassesOn fun sink ctx => feedRange io f env sink ctx offset length := by
  unfold feedRange feedRangeCalls
  split_ifs
  · exact ⟨[], none, fun _ _ => rfl⟩
  · exact feedMmap_passesOn f env offset length
  · exact feedDirect_passesOn f env offset length
  · unfold feedRead
    cases env.openInput with
    | error e => exact passesOn_error _
    | ok => exact readLoop_passesOn f env length offset 0

theorem feedRange_handOver (io : String) (f : Bytes) (env : ReadEnv) (sink : Sink σ) (ctx : σ)
    (offset length : ℕ) : feedRange io f env sink ctx offset length =
      handOver sink ctx (fedPieces io f env offset length).1 (fedPieces io f env offset length).2 := by
  obtain ⟨pieces, err, h⟩ := feedRange_passesOn io f env offset length
  dsimp only at h
  have hkeep := handOver_keepPiece [] pieces
  have hfed : fedPieces io f env offset length = (pieces, err) := by
    unfold fedPieces
    rw [h keepPiece []]
    cases err with
    | none => rw [hkeep.1]; rfl
    | some e => rw [hkeep.2]; rfl
  rw [h sink ctx, hfed]

end HandOver

/-! ## The calls on the disk -/

/-- What an `open` reports. -/
def inodeAnswer : Reply → Except String Unit
  | .inode _ => .ok ()
  | r => .error (errnoString r)

/-- What a `write` reports. -/
def writeAnswer : Reply → Except String ℕ
  | .wrote w => .ok w
  | r => .error (errnoString r)

/-- What `publish_file` reports when its calls start with number `k`. -/
def publishAnswer (reply : ℕ → Reply) (t : FileTag) (k : ℕ) : WriteAnswer :=
  match ((publishFile 0 0 t).eval reply k).1 with
  | .ok () => .ok
  | .error e => .failed e (reply k = .done ∧ reply (k + 1) = .done)

/-- What `feed_range` hands to the worker, and its error. -/
def Launch.handed (l : Launch) (input : Bytes) (read : ReadEnv) : List Bytes × Option String :=
  fedPieces l.jobMeta.io input read l.offset l.length

/-- What the copying worker writes. -/
def Launch.copyTag (l : Launch) (input : Bytes) (read : ReadEnv) (pid callNo : ℕ) : FileTag :=
  ⟨pid, callNo, .output l.id (l.handed input read).1.flatten (l.handed input read).2.isNone⟩

/-- The copying branch of `worker_entry` on the disk. -/
def copyWorker (input : Bytes) (read : ReadEnv) (l : Launch) (pid callNo : ℕ) :
    Program (Except String Unit) :=
  copyOutput pid callNo l.id (l.handed input read).1 (l.handed input read).2

/-- What `worker_entry` does after the copying branch (worker.cpp:694-707). -/
def endCopy (l : Launch) (bytes : ℕ) : Except String Unit → List WorkerAct
  | .error e => failChunk l e
  | .ok () => deliver { goodChunk l with bytes := bytes }

/-- The kernel of the worker answers the calls on the disk with `reply`. -/
structure Answered (env : WorkerEnv) (l : Launch) (pid callNo : ℕ) (reply : ℕ → Reply) : Prop where
  openDir : env.openDir = inodeAnswer (reply 0)
  openTemp : env.openTemp = inodeAnswer (reply 1)
  write : ∀ i, env.write i = writeAnswer (reply (2 + i))
  publish : ∀ fd k, (copyPieces fd (l.handed env.input env.read).1).eval reply 2 = (.ok (), k) →
    env.publish = publishAnswer reply (l.copyTag env.input env.read pid callNo) k

variable {reply : ℕ → Reply} {write : ℕ → Except String ℕ} {base : ℕ}

theorem writeAll_eval (hwrite : ∀ i, write i = writeAnswer (reply (base + i))) (fd : ℕ)
    (data file : Bytes) (calls : ℕ) :
    ∃ r calls', (writeAll fd data).eval reply (base + calls) = (r, base + calls') ∧
      writeFull write data file calls = r.map fun _ => (file ++ data, calls') := by
  fun_induction writeAll fd data generalizing file calls with
  | case1 =>
    refine ⟨.ok (), calls, rfl, ?_⟩
    rw [writeFull, dif_pos rfl, List.append_nil]
    rfl
  | case2 data hdata ih =>
    rw [writeFull, dif_neg hdata, hwrite calls, eval]
    cases hreply : reply (base + calls) with
    | wrote w =>
      dsimp only [writeAnswer]
      split_ifs with hw
      · exact ⟨.error _, calls + 1, rfl, rfl⟩
      · obtain ⟨r, calls', heval, hfull⟩ := ih w hw (file ++ data.take w) (calls + 1)
        refine ⟨r, calls', heval, ?_⟩
        rw [hfull, List.append_assoc, List.take_append_drop]
    | _ => exact ⟨.error _, calls + 1, rfl, rfl⟩

/-- The sink writes the pieces, as long as the kernel lets it. -/
theorem copyPieces_eval (hwrite : ∀ i, write i = writeAnswer (reply (base + i))) (fd : ℕ)
    (pieces : List Bytes) (ctx : CopyCtx) (hbytes : ctx.bytes < 2 ^ 64) :
    ∃ r k, (copyPieces fd pieces).eval reply (base + ctx.calls) = (r, base + k) ∧
      (r = .ok () → handOver (copySink write) ctx pieces none =
        .ok ⟨(ctx.bytes + pieces.flatten.length) % 2 ^ 64, ctx.file ++ pieces.flatten, k⟩) ∧
      ∀ e, r = .error e → ∀ err, ∃ ctx', handOver (copySink write) ctx pieces err = .error (e, ctx') := by
  induction pieces generalizing ctx with
  | nil =>
    refine ⟨.ok (), ctx.calls, rfl, fun _ => ?_, nofun⟩
    rw [List.flatten_nil, List.length_nil, Nat.add_zero, Nat.mod_eq_of_lt hbytes, List.append_nil]
    rfl
  | cons piece pieces ih =>
    obtain ⟨r, calls, heval, hfull⟩ := writeAll_eval hwrite fd piece ctx.file ctx.calls
    rw [copyPieces, eval_bind, heval]
    cases r with
    | error e =>
      have hsink : offer (copySink write) ctx piece = .error ("write output: " ++ e, ctx) := by
        rw [offer, copySink, hfull]
        rfl
      refine ⟨.error ("write output: " ++ e), calls, rfl, nofun, fun e' he err => ⟨ctx, ?_⟩⟩
      cases he
      rw [handOver, hsink]
    | ok =>
      let next : CopyCtx := ⟨(ctx.bytes + piece.length) % 2 ^ 64, ctx.file ++ piece, calls⟩
      have hsink : offer (copySink write) ctx piece = .ok next := by
        rw [offer, copySink, hfull]
        rfl
      obtain ⟨r, k, heval, hok, herror⟩ := ih next (Nat.mod_lt _ (by norm_num))
      refine ⟨r, k, heval, fun h => ?_, fun e h err => ?_⟩
      · rw [handOver, hsink]
        dsimp only
        rw [hok h, List.flatten_cons, List.length_append, List.append_assoc, Nat.mod_add_mod,
          Nat.add_assoc]
      · rw [handOver, hsink]
        exact herror e h err

/-- Which directory and which file it is does not matter for the answers. -/
theorem publishFile_eval (d fd : ℕ) (t : FileTag) (k : ℕ) :
    (publishFile d fd t).eval reply k = (publishFile 0 0 t).eval reply k := by
  unfold publishFile
  dsimp only
  rw [eval, eval]
  cases reply k with
  | done =>
    dsimp only
    rw [eval, eval]
    cases reply (k + 1) with
    | done =>
      dsimp only
      rw [eval, eval]
    | _ => rfl
  | _ => rfl

/-- However the calls on the disk are answered, there is a kernel that answers so. -/
theorem exists_answered (env : WorkerEnv) (l : Launch) (pid callNo : ℕ) (reply : ℕ → Reply) :
    ∃ env', Answered env' l pid callNo reply ∧ env'.input = env.input ∧ env'.read = env.read ∧
      env'.setup = env.setup ∧ env'.gate = env.gate := by
  have hwrite : ∀ i, (fun i => writeAnswer (reply (2 + i))) i = writeAnswer (reply (2 + i)) :=
    fun _ => rfl
  obtain ⟨r, k, -, hok, herror⟩ := copyPieces_eval hwrite 0 (l.handed env.input env.read).1 {}
    (by norm_num)
  refine ⟨{ env with
      openDir := inodeAnswer (reply 0)
      openTemp := inodeAnswer (reply 1)
      write := fun i => writeAnswer (reply (2 + i))
      publish := publishAnswer reply (l.copyTag env.input env.read pid callNo) (2 + k) },
    ⟨rfl, rfl, fun _ => rfl, fun fd k' heval => ?_⟩, rfl, rfl, rfl, rfl⟩
  -- the number of writes does not depend on the descriptor
  obtain ⟨r', k'', heval', hok', -⟩ := copyPieces_eval hwrite fd (l.handed env.input env.read).1 {}
    (by norm_num)
  cases heval.symm.trans heval'
  cases r with
  | error e =>
    obtain ⟨ctx, hover⟩ := herror e rfl none
    cases hover.symm.trans (hok' rfl)
  | ok =>
    cases (hok rfl).symm.trans (hok' rfl)
    rfl

/-- **The two models of the copying branch agree.** Whatever the calls on the disk
    answer, the worker that others see ends as the one on the disk does, and it has
    published the copy if that one returns true. -/
theorem copyChunk_eq {env : WorkerEnv} {l : Launch} {pid callNo : ℕ}
    (h : Answered env l pid callNo reply) :
    ∃ before, copyChunk env l = before ++ endCopy l
        ((l.handed env.input env.read).1.flatten.length % 2 ^ 64)
        ((copyWorker env.input env.read l pid callNo).eval reply 0).1 ∧
      (before = [] ∨ before = [.output (l.handed env.input env.read).1.flatten]) ∧
      (((copyWorker env.input env.read l pid callNo).eval reply 0).1 = .ok () →
        before = [.output (l.handed env.input env.read).1.flatten]) := by
  unfold copyChunk copyWorker copyOutput
  dsimp only
  rw [h.openDir, eval]
  cases hdir : reply 0 with
  | inode d =>
    dsimp only [inodeAnswer]
    rw [h.openTemp, eval]
    cases htemp : reply (0 + 1) with
    | inode fd =>
      dsimp only [inodeAnswer]
      rw [feedRange_handOver, eval_bind]
      obtain ⟨r, k, heval, hok, herror⟩ := copyPieces_eval h.write fd
        (l.handed env.input env.read).1 {} (by norm_num)
      dsimp only at heval hok
      rw [Nat.zero_add, List.nil_append] at hok
      rw [show 0 + 1 + 1 = 2 + 0 from rfl, heval]
      cases r with
      | error e =>
        obtain ⟨ctx', hsink⟩ := herror e rfl (l.handed env.input env.read).2
        refine ⟨[], ?_, Or.inl rfl, nofun⟩
        unfold Launch.handed at hsink
        rw [hsink]
        rfl
      | ok =>
        have hpublish := h.publish fd (2 + k) heval
        have hover := handOver_append (copySink env.write) (l.handed env.input env.read).1 []
          (l.handed env.input env.read).2 {}
        rw [List.append_nil, hok rfl] at hover
        change handOver _ _ (fedPieces _ _ _ _ _).1 (fedPieces _ _ _ _ _).2 = _ at hover
        rw [hover]
        cases hfeed : (l.handed env.input env.read).2 with
        | some e => exact ⟨[], rfl, Or.inl rfl, nofun⟩
        | none =>
          dsimp only [Except.bind, handOver]
          rw [eval_bind, publishFile_eval, hpublish]
          unfold publishAnswer Launch.copyTag
          rw [hfeed]
          cases ((publishFile 0 0 ⟨pid, callNo, .output l.id (l.handed env.input env.read).1.flatten
            (Option.isNone none)⟩).eval reply (2 + k)).1 with
          | error e =>
            refine ⟨_, rfl, ?_, nofun⟩
            split_ifs
            · exact Or.inr rfl
            · exact Or.inl rfl
          | ok => exact ⟨_, rfl, Or.inr rfl, fun _ => rfl⟩
    | _ => exact ⟨[], rfl, Or.inl rfl, nofun⟩
  | _ => exact ⟨[], rfl, Or.inl rfl, nofun⟩

/-! ## The slot -/

/-- The slots that are stored. -/
def storedSlots (acts : List WorkerAct) : List ChunkResult :=
  acts.filterMap fun
    | .slot chunk => some chunk
    | _ => none

theorem mem_storedSlots {acts : List WorkerAct} {chunk : ChunkResult} :
    chunk ∈ storedSlots acts ↔ .slot chunk ∈ acts := by
  rw [storedSlots, List.mem_filterMap]
  constructor
  · rintro ⟨act, hact, heq⟩
    cases act <;> cases heq
    exact hact
  · exact fun h => ⟨_, h, rfl⟩

/-- **A good slot is stored only after `publish_file` has returned true.** -/
theorem published_of_slot {l : Launch} {bytes : ℕ} {result : Except String Unit}
    {chunk : ChunkResult} (h : chunk ∈ storedSlots (endCopy l bytes result))
    (hok : chunk.ok ≠ 0) : result = .ok () := by
  cases result with
  | error e => exact absurd (slot_of_failChunk (mem_storedSlots.mp h)) hok
  | ok => rfl

/-- What the copying worker stores is what `worker_entry` stores. -/
theorem storedSlots_workerEntry {env : WorkerEnv} {l : Launch} {pid callNo : ℕ}
    (h : Answered env l pid callNo reply) (hop : l.jobMeta.op = "copy")
    (hsetup : env.setup = .ok ()) (hgate : env.gate = .ok ()) :
    storedSlots (workerEntry env l) = storedSlots (endCopy l
      ((l.handed env.input env.read).1.flatten.length % 2 ^ 64)
      ((copyWorker env.input env.read l pid callNo).eval reply 0).1) := by
  have hentry : workerEntry env l = copyChunk env l := by
    simp [workerEntry, workChunk, hsetup, hgate, hop]
  obtain ⟨before, hacts, hbefore, -⟩ := copyChunk_eq h
  rw [hentry, hacts, storedSlots, List.filterMap_append]
  rcases hbefore with rfl | rfl <;> rfl

end Forge
