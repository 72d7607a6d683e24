import Forge.Worker.Ranges

/-!
# `feed_range`

Model of worker.cpp:206-376: the three ways a slice of the input reaches a sink.
The input is the file `f`, unchanged while the job runs. `ReadEnv` says how the
kernel answers. The loops return the `pread` calls they have made beside their
result.

* `feedRange_pieces`: when `feed_range` returns true, the sink was folded over
  pieces whose concatenation is exactly the slice, whatever the schedule.
* `feedDirect_fed`, `feedMmap_fed`, `feedRead_fed`: the same for each path.
-/

namespace Forge

/-- What the kernel answers a `pread`. -/
inductive PreadAnswer where
  /-- `EINTR`. -/
  | interrupted
  | failed (err : String)
  /-- At most this many bytes, and at least one unless the file ends. -/
  | read (r : ℕ)
  deriving DecidableEq

/-- The answers to the `pread` calls of one worker; the interruptions end. -/
structure Schedule where
  answer : ℕ → PreadAnswer
  ends : ∀ k, ∃ j, k ≤ j ∧ answer j ≠ .interrupted

/-- Every call reads at most `r` bytes. -/
def Schedule.steady (r : ℕ) : Schedule where
  answer := fun _ => .read r
  ends := fun k => ⟨k, le_rfl, by simp⟩

/-- How many calls from the `k`-th on are interrupted. -/
def Schedule.pause (s : Schedule) (k : ℕ) : ℕ := Nat.find (s.ends k) - k

/-- A call that is interrupted is made again. -/
theorem Schedule.pause_lt {s : Schedule} {k : ℕ} (h : s.answer k = .interrupted) :
    s.pause (k + 1) < s.pause k := by
  obtain ⟨hle, hother⟩ := Nat.find_spec (s.ends k)
  have hne : Nat.find (s.ends k) ≠ k := fun heq => hother (heq.symm ▸ h)
  have hnext : Nat.find (s.ends (k + 1)) ≤ Nat.find (s.ends k) :=
    Nat.find_min' _ ⟨by omega, hother⟩
  unfold pause
  omega

/-- How the kernel answers one call of `feed_range`; errors are `errno` texts. -/
structure ReadEnv where
  openInput : Except String Unit
  pageSize : ℤ
  mmap : Except String Unit
  openDirect : Except String Unit
  openTail : Except String Unit
  memalign : Bool
  pread : Schedule

/-- A `pread` of `want` bytes at `off`, on the descriptor opened with `O_DIRECT` or
    on another, that returns `got` bytes. -/
structure PreadCall where
  direct : Bool
  off : ℕ
  want : ℕ
  got : ℕ

/-- `using Sink = bool (*)(void* ctx, …, std::string& err)` (worker.cpp:204). -/
abbrev Sink (σ : Type) := σ → Bytes → Except String σ

/-- The bytes a `pread` of `want` bytes at `off` returns, if the kernel offers
    `r`: at least one unless the file ends at `off`. -/
def preadBytes (f : Bytes) (off want r : ℕ) : Bytes := slice f off (min want (max r 1))

/-! ## The three paths -/

variable {σ : Type}

/-- `if (!sink(ctx, …, err)) return false`: a refusal leaves the context alone. -/
def offer (sink : Sink σ) (ctx : σ) (piece : Bytes) : Except (String × σ) σ :=
  (sink ctx piece).mapError fun e => (e, ctx)

/-- `offset & ~(page_u - 1)` (worker.cpp:245). -/
def mapOffset (page offset : ℕ) : ℕ :=
  (BitVec.ofNat 64 offset &&& ~~~(BitVec.ofNat 64 page - 1)).toNat

/-- The bytes the sink is given of the mapping of `map_len` bytes at `map_off`
    (worker.cpp:245-264). -/
def mappedBytes (f : Bytes) (page offset length : ℕ) : Bytes :=
  let mapOff := mapOffset page offset
  let pre := offset - mapOff
  slice (slice f mapOff (pre + length)) pre length

def feedMmap (f : Bytes) (env : ReadEnv) (sink : Sink σ) (ctx : σ) (offset length : ℕ) :
    Except (String × σ) σ := do
  if let .error e := env.openInput then throw ("open input: " ++ e, ctx)
  let page := if env.pageSize > 0 then env.pageSize.toNat else 4096
  if let .error e := env.mmap then
    throw ("mmap input: " ++ e ++
      ". RLIMIT_AS includes this mapping, so a small --mem-mb on a large file fails here.", ctx)
  offer sink ctx (mappedBytes f page offset length)

/-- The inner `while (got < want)` loops (worker.cpp:297-312, 328-341); `label` and
    `eof` are the two error texts, and the loop starts with the `k`-th call. -/
def readFull (f : Bytes) (env : ReadEnv) (direct : Bool) (label eof : String) (want off k : ℕ) :
    Except String Bytes × List PreadCall :=
  if _h : want = 0 then (.ok [], [])
  else
    match _ha : env.pread.answer k with
    | .interrupted =>
      let again := readFull f env direct label eof want off (k + 1)
      (again.1, ⟨direct, off, want, 0⟩ :: again.2)
    | .failed e => (.error (label ++ e), [⟨direct, off, want, 0⟩])
    | .read r =>
      let got := preadBytes f off want r
      if _hgot : got = [] then (.error eof, [⟨direct, off, want, 0⟩])
      else
        let rest := readFull f env direct label eof (want - got.length) (off + got.length) (k + 1)
        (rest.1.map (got ++ ·), ⟨direct, off, want, got.length⟩ :: rest.2)
termination_by (want, env.pread.pause k)
decreasing_by
  · exact Prod.Lex.right _ (Schedule.pause_lt _ha)
  · have hpos : 0 < (preadBytes f off want r).length := List.length_pos_iff.mpr _hgot
    exact Prod.Lex.left _ _ (by omega)

/-- The `O_DIRECT` loop (worker.cpp:292-319), `left` bytes before its end. -/
def directLoop (f : Bytes) (env : ReadEnv) (sink : Sink σ) (left off k : ℕ) (ctx : σ) :
    Except (String × σ) σ × List PreadCall :=
  if _h : left = 0 then (.ok ctx, [])
  else
    let want := min (2 ^ 20) left
    let filled := readFull f env true "pread O_DIRECT: " "unexpected EOF during O_DIRECT read" want
      off k
    match filled.1 with
    | .error e => (.error (e, ctx), filled.2)
    | .ok buf =>
      match offer sink ctx buf with
      | .error e => (.error e, filled.2)
      | .ok ctx' =>
        let rest := directLoop f env sink (left - want) (off + want) (k + filled.2.length) ctx'
        (rest.1, filled.2 ++ rest.2)
termination_by left
decreasing_by omega

/-- The tail that is read via the page cache (worker.cpp:322-343). -/
def readTail (f : Bytes) (env : ReadEnv) (sink : Sink σ) (want off k : ℕ) (ctx : σ) :
    Except (String × σ) σ × List PreadCall :=
  let filled := readFull f env false "pread tail: " "unexpected EOF in tail" want off k
  match filled.1 with
  | .error e => (.error (e, ctx), filled.2)
  | .ok buf => (offer sink ctx buf, filled.2)

def feedDirect (f : Bytes) (env : ReadEnv) (sink : Sink σ) (ctx : σ) (offset length : ℕ) :
    Except (String × σ) σ × List PreadCall :=
  if offset % kDirectAlign ≠ 0 then
    (.error ("O_DIRECT range is not 4096-aligned (offset " ++ toString offset ++ ")", ctx), [])
  else
    match env.openDirect, env.openTail with
    | .error e, _ =>
      (.error ("open O_DIRECT: " ++ e ++
        ". tmpfs often returns EINVAL. Forge does not fall back.", ctx), [])
    | .ok (), .error e => (.error ("open input tail: " ++ e, ctx), [])
    | .ok (), .ok () =>
      let aligned := length - length % kDirectAlign
      if aligned > 0 ∧ !env.memalign then (.error ("posix_memalign failed", ctx), [])
      else
        let fed := directLoop f env sink aligned offset 0 ctx
        match fed.1 with
        | .error e => (.error e, fed.2)
        | .ok ctx =>
          if aligned < length then
            let tail := readTail f env sink (length - aligned) (offset + aligned) fed.2.length ctx
            (tail.1, fed.2 ++ tail.2)
          else (.ok ctx, fed.2)

/-- The buffered loop (worker.cpp:357-374). -/
def readLoop (f : Bytes) (env : ReadEnv) (sink : Sink σ) (left off k : ℕ) (ctx : σ) :
    Except (String × σ) σ × List PreadCall :=
  if _h : left = 0 then (.ok ctx, [])
  else
    let want := min (2 ^ 20) left
    match _ha : env.pread.answer k with
    | .interrupted =>
      let again := readLoop f env sink left off (k + 1) ctx
      (again.1, ⟨false, off, want, 0⟩ :: again.2)
    | .failed e => (.error ("pread: " ++ e, ctx), [⟨false, off, want, 0⟩])
    | .read r =>
      let got := preadBytes f off want r
      if _hgot : got = [] then (.error ("unexpected EOF", ctx), [⟨false, off, want, 0⟩])
      else
        match offer sink ctx got with
        | .error e => (.error e, [⟨false, off, want, got.length⟩])
        | .ok ctx' =>
          let rest := readLoop f env sink (left - got.length) (off + got.length) (k + 1) ctx'
          (rest.1, ⟨false, off, want, got.length⟩ :: rest.2)
termination_by (left, env.pread.pause k)
decreasing_by
  · exact Prod.Lex.right _ (Schedule.pause_lt _ha)
  · have hpos : 0 < (preadBytes f off (min (2 ^ 20) left) r).length :=
      List.length_pos_iff.mpr _hgot
    exact Prod.Lex.left _ _ (by omega)

def feedRead (f : Bytes) (env : ReadEnv) (sink : Sink σ) (ctx : σ) (offset length : ℕ) :
    Except (String × σ) σ × List PreadCall :=
  match env.openInput with
  | .error e => (.error ("open input: " ++ e, ctx), [])
  | .ok () => readLoop f env sink length offset 0 ctx

/-- `feed_range` (worker.cpp:206-376): the sink's context at the end, with the error
    text when it returns false, and the `pread` calls. -/
def feedRangeCalls (io : String) (f : Bytes) (env : ReadEnv) (sink : Sink σ) (ctx : σ)
    (offset length : ℕ) : Except (String × σ) σ × List PreadCall :=
  if length = 0 then (.ok ctx, [])
  else if io = "mmap" then (feedMmap f env sink ctx offset length, [])
  else if io = "direct" then feedDirect f env sink ctx offset length
  else feedRead f env sink ctx offset length

/-- What `feed_range` returns. -/
def feedRange (io : String) (f : Bytes) (env : ReadEnv) (sink : Sink σ) (ctx : σ)
    (offset length : ℕ) : Except (String × σ) σ :=
  (feedRangeCalls io f env sink ctx offset length).1

/-! ## What the sink has been given -/

/-- The sink accepted these pieces one after the other. -/
def Fed (sink : Sink σ) (ctx : σ) (pieces : List Bytes) (ctx' : σ) : Prop :=
  pieces.foldlM sink ctx = .ok ctx'

theorem Fed.nil (sink : Sink σ) (ctx : σ) : Fed sink ctx [] ctx := rfl

theorem Fed.cons {sink : Sink σ} {ctx ctx' ctx'' : σ} {piece : Bytes} {pieces : List Bytes}
    (h : sink ctx piece = .ok ctx') (hrest : Fed sink ctx' pieces ctx'') :
    Fed sink ctx (piece :: pieces) ctx'' := by
  unfold Fed
  rw [List.foldlM_cons, h]
  exact hrest

theorem offer_eq_ok {sink : Sink σ} {ctx ctx' : σ} {piece : Bytes}
    (h : offer sink ctx piece = .ok ctx') : sink ctx piece = .ok ctx' := by
  unfold offer at h
  cases hs : sink ctx piece with
  | error e => rw [hs] at h; cases h
  | ok c => rw [hs] at h; cases h; rfl

theorem Fed.append {sink : Sink σ} {ctx ctx' ctx'' : σ} {ps qs : List Bytes}
    (hp : Fed sink ctx ps ctx') (hq : Fed sink ctx' qs ctx'') : Fed sink ctx (ps ++ qs) ctx'' := by
  unfold Fed at *
  rw [List.foldlM_append, hp]
  exact hq

theorem length_preadBytes_le (f : Bytes) (off want r : ℕ) :
    (preadBytes f off want r).length ≤ want := by
  simp only [preadBytes, slice, List.length_take]
  omega

/-- A `pread` returns the bytes of the file at its offset. -/
theorem preadBytes_eq (f : Bytes) (off want r : ℕ) :
    preadBytes f off want r = slice f off (preadBytes f off want r).length := by
  simp only [preadBytes, slice, List.length_take, List.take_eq_take_iff]
  omega

theorem slice_zero (f : Bytes) (off : ℕ) : slice f off 0 = [] := List.take_zero

theorem slice_append (f : Bytes) (off m n : ℕ) :
    slice f off m ++ slice f (off + m) n = slice f off (m + n) := by
  rw [slice, slice, slice, ← List.drop_drop, List.take_add]

theorem length_slice {f : Bytes} {off n : ℕ} (h : off + n ≤ f.length) :
    (slice f off n).length = n := by
  rw [slice, List.length_take, List.length_drop]
  omega

/-- What a `pread` returned and the slice after it make up the slice. -/
theorem preadBytes_append (f : Bytes) (off r : ℕ) {want total : ℕ} (h : want ≤ total) :
    preadBytes f off want r ++ slice f (off + (preadBytes f off want r).length)
      (total - (preadBytes f off want r).length) = slice f off total := by
  have hle := length_preadBytes_le f off want r
  generalize hn : (preadBytes f off want r).length = n at *
  rw [preadBytes_eq, hn, slice_append]
  congr 1
  omega

/-- A slice of a slice. -/
theorem slice_slice {f : Bytes} {off pre n : ℕ} :
    slice (slice f off (pre + n)) pre n = slice f (off + pre) n := by
  rw [slice, slice, slice, List.drop_take, List.drop_drop, List.take_take]
  congr 1
  omega

theorem mapOffset_le (page : ℕ) {offset : ℕ} (h : offset < 2 ^ 64) : mapOffset page offset ≤ offset := by
  rw [mapOffset, BitVec.toNat_and, BitVec.toNat_ofNat, Nat.mod_eq_of_lt h]
  exact Nat.and_le_left

/-- The mapping starts early, and the sink skips what comes before the slice. -/
theorem mappedBytes_eq (f : Bytes) (page : ℕ) {offset : ℕ} (length : ℕ) (h : offset < 2 ^ 64) :
    mappedBytes f page offset length = slice f offset length := by
  have hle := mapOffset_le page h
  simp only [mappedBytes, slice_slice]
  congr 1
  omega

theorem readFull_eq {f : Bytes} {env : ReadEnv} {direct : Bool} {label eof : String}
    {want off k : ℕ} {buf : Bytes}
    (h : (readFull f env direct label eof want off k).1 = .ok buf) : buf = slice f off want := by
  fun_induction readFull f env direct label eof want off k generalizing buf with
  | case1 off k =>
    cases h
    rw [slice_zero]
  | case2 want off k hwant ha again =>
    rename_i ih
    exact ih h
  | case3 want off k hwant e ha => cases h
  | case4 want off k hwant r ha got => cases h
  | case5 want off k hwant r ha got hgot rest =>
    rename_i ih
    cases hrest : rest.1 with
    | error e =>
      rw [hrest] at h
      cases h
    | ok buf' =>
      rw [hrest] at h
      cases h
      rw [ih hrest]
      exact preadBytes_append f off r le_rfl

/-- The `O_DIRECT` loop hands over its part of the file in pieces. -/
theorem directLoop_fed {f : Bytes} {env : ReadEnv} {sink : Sink σ} {left off k : ℕ}
    {ctx ctx' : σ} (h : (directLoop f env sink left off k ctx).1 = .ok ctx') :
    ∃ pieces, Fed sink ctx pieces ctx' ∧ pieces.flatten = slice f off left := by
  fun_induction directLoop f env sink left off k ctx with
  | case1 off k ctx =>
    cases h
    exact ⟨[], Fed.nil sink _, (slice_zero f off).symm⟩
  | case2 left off k ctx hleft want filled e he => cases h
  | case3 left off k ctx hleft want filled buf hbuf e he => cases h
  | case4 left off k ctx hleft want filled buf hbuf ctx'' hsink rest ih =>
    obtain ⟨pieces, hfed, hpieces⟩ := ih h
    refine ⟨buf :: pieces, hfed.cons (offer_eq_ok hsink), ?_⟩
    have hle : want ≤ left := Nat.min_le_right _ _
    rw [List.flatten_cons, readFull_eq hbuf, hpieces, slice_append]
    congr 1
    omega

/-- The buffered loop hands over the slice in the pieces `pread` returned. -/
theorem readLoop_fed {f : Bytes} {env : ReadEnv} {sink : Sink σ} {left off k : ℕ} {ctx ctx' : σ}
    (h : (readLoop f env sink left off k ctx).1 = .ok ctx') :
    ∃ pieces, Fed sink ctx pieces ctx' ∧ pieces.flatten = slice f off left := by
  fun_induction readLoop f env sink left off k ctx with
  | case1 off k ctx =>
    cases h
    exact ⟨[], Fed.nil sink _, (slice_zero f off).symm⟩
  | case2 left off k ctx hleft want ha again ih => exact ih h
  | case3 left off k ctx hleft want e ha => cases h
  | case4 left off k ctx hleft want r ha got hgot => cases h
  | case5 left off k ctx hleft want r ha got hgot e he => cases h
  | case6 left off k ctx hleft want r ha got hgot ctx'' hsink rest ih =>
    obtain ⟨pieces, hfed, hpieces⟩ := ih h
    refine ⟨got :: pieces, hfed.cons (offer_eq_ok hsink), ?_⟩
    rw [List.flatten_cons, hpieces]
    exact preadBytes_append f off r (Nat.min_le_right _ _)

theorem readTail_eq_ok {f : Bytes} {env : ReadEnv} {sink : Sink σ} {want off k : ℕ} {ctx ctx' : σ}
    (h : (readTail f env sink want off k ctx).1 = .ok ctx') :
    sink ctx (slice f off want) = .ok ctx' := by
  unfold readTail at h
  dsimp only at h
  split at h
  · cases h
  · next buf hbuf =>
    rw [← readFull_eq hbuf]
    exact offer_eq_ok h

/-- A direct read that succeeds ran its loop, and read the tail if there is one. -/
theorem feedDirect_eq_ok {f : Bytes} {env : ReadEnv} {sink : Sink σ} {ctx ctx' : σ}
    {offset length : ℕ} (h : (feedDirect f env sink ctx offset length).1 = .ok ctx') :
    ∃ mid, (directLoop f env sink (length - length % kDirectAlign) offset 0 ctx).1 = .ok mid ∧
      ((length % kDirectAlign = 0 ∧ mid = ctx') ∨
        ∃ k, (readTail f env sink (length % kDirectAlign)
          (offset + (length - length % kDirectAlign)) k mid).1 = .ok ctx') := by
  have hmod := Nat.mod_le length kDirectAlign
  have htail : length - (length - length % kDirectAlign) = length % kDirectAlign := by omega
  unfold feedDirect at h
  dsimp only at h
  split at h
  · cases h
  · split at h
    · cases h
    · cases h
    · split at h
      · cases h
      · split at h
        · cases h
        · next mid hloop =>
          split at h
          · rw [htail] at h
            exact ⟨mid, hloop, Or.inr ⟨_, h⟩⟩
          · cases h
            exact ⟨_, hloop, Or.inl ⟨by omega, rfl⟩⟩

/-- The direct path hands over the aligned part in pieces, then the tail. -/
theorem feedDirect_fed {f : Bytes} {env : ReadEnv} {sink : Sink σ} {ctx ctx' : σ}
    {offset length : ℕ} (h : (feedDirect f env sink ctx offset length).1 = .ok ctx') :
    ∃ pieces, Fed sink ctx pieces ctx' ∧ pieces.flatten = slice f offset length := by
  have hmod := Nat.mod_le length kDirectAlign
  obtain ⟨mid, hloop, htail⟩ := feedDirect_eq_ok h
  obtain ⟨pieces, hfed, hpieces⟩ := directLoop_fed hloop
  rcases htail with ⟨hzero, rfl⟩ | ⟨k, hread⟩
  · refine ⟨pieces, hfed, ?_⟩
    rw [hpieces, hzero, Nat.sub_zero]
  · refine ⟨pieces ++ [_], hfed.append ((Fed.nil sink _).cons (readTail_eq_ok hread)), ?_⟩
    rw [List.flatten_append, List.flatten_singleton, hpieces, slice_append]
    congr 1
    omega

theorem feedMmap_fed {f : Bytes} {env : ReadEnv} {sink : Sink σ} {ctx ctx' : σ}
    {offset length : ℕ} (hoff : offset < 2 ^ 64)
    (h : feedMmap f env sink ctx offset length = .ok ctx') :
    Fed sink ctx [slice f offset length] ctx' := by
  unfold feedMmap at h
  simp only [bind, Except.bind, throw, throwThe, MonadExceptOf.throw, mappedBytes_eq _ _ _ hoff] at h
  repeat' split at h
  all_goals try cases h
  exact (Fed.nil sink _).cons (offer_eq_ok h)

theorem feedRead_fed {f : Bytes} {env : ReadEnv} {sink : Sink σ} {ctx ctx' : σ}
    {offset length : ℕ} (h : (feedRead f env sink ctx offset length).1 = .ok ctx') :
    ∃ pieces, Fed sink ctx pieces ctx' ∧ pieces.flatten = slice f offset length := by
  unfold feedRead at h
  split at h
  · cases h
  · exact readLoop_fed h

/-- **Feeding.** When `feed_range` returns true, the sink has accepted pieces
    that put together are exactly the slice. -/
theorem feedRange_pieces {io : String} {f : Bytes} {env : ReadEnv} {sink : Sink σ} {ctx ctx' : σ}
    {offset length : ℕ} (hoff : offset < 2 ^ 64)
    (h : feedRange io f env sink ctx offset length = .ok ctx') :
    ∃ pieces, Fed sink ctx pieces ctx' ∧ pieces.flatten = slice f offset length := by
  unfold feedRange feedRangeCalls at h
  split_ifs at h with hlength
  · cases h
    rw [hlength]
    exact ⟨[], Fed.nil sink _, (slice_zero f offset).symm⟩
  · exact ⟨_, feedMmap_fed hoff h, by rw [List.flatten_singleton]⟩
  · exact feedDirect_fed h
  · exact feedRead_fed h

/-! ## The pieces themselves -/

/-- The sink that keeps what it is given. -/
def keepPiece : Sink (List Bytes) := fun pieces piece => .ok (pieces ++ [piece])

theorem keepPiece_fed {ps pieces ps' : List Bytes} (h : Fed keepPiece ps pieces ps') :
    ps' = ps ++ pieces := by
  unfold Fed at h
  induction pieces generalizing ps with
  | nil =>
    cases h
    rw [List.append_nil]
  | cons piece pieces ih =>
    rw [List.foldlM_cons] at h
    rw [ih h, List.append_assoc, List.singleton_append]

/-- The pieces `feed_range` passes to a sink that accepts them, and its error. -/
def fedPieces (io : String) (f : Bytes) (env : ReadEnv) (offset length : ℕ) :
    List Bytes × Option String :=
  match feedRange io f env keepPiece [] offset length with
  | .ok pieces => (pieces, none)
  | .error (e, pieces) => (pieces, some e)

theorem flatten_fedPieces {io : String} {f : Bytes} {env : ReadEnv} {offset length : ℕ}
    (hoff : offset < 2 ^ 64) (h : (fedPieces io f env offset length).2 = none) :
    (fedPieces io f env offset length).1.flatten = slice f offset length := by
  unfold fedPieces at *
  cases hfeed : feedRange io f env keepPiece [] offset length with
  | error e => rw [hfeed] at h; cases h
  | ok ps =>
    obtain ⟨pieces, hfed, hpieces⟩ := feedRange_pieces hoff hfeed
    rw [keepPiece_fed hfed, List.nil_append]
    exact hpieces

end Forge
