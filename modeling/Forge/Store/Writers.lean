import Forge.Store.Disk

/-!
# What a writer that returns has left on the disk

The writers of `Forge.Store.AtomicWrite`, each run by one process among others
that write as well. A file is followed from its creation under a temporary name
(`Writing`), through the sync of its bytes (`Written`) and the rename (`Renamed`),
to the sync of its directory (`Published`).

* `Writing.stable`, `Written.stable`, `Renamed.stable`, `Published.stable`: what
  the other processes do changes none of them.
* `saveMetaFile_writes`, `copyOutput_writes`, `finalizeFiles_writes`: the writers
  keep the disk sound, and when they return true the file is published.
-/

namespace Forge

open CrashFs RelyGuarantee Process

variable {P : Payload → Prop} {p : ℕ} {fs fs' : Disk} {A B : Type}

/-! ## A process among others -/

/-- What the other processes may do to the disk of process `p`. -/
def Others (p : ℕ) (fs fs' : Disk) : Prop := Advances fs fs' ∧ Spares p fs fs'

/-- What process `p` may do to the disk. -/
def Allowed (p : ℕ) (fs fs' : Disk) : Prop := Advances fs fs' ∧ ∀ q, q ≠ p → Spares q fs fs'

/-- The process keeps the disk sound among the others, and `Q` holds when it returns. -/
abbrev Writes (P : Payload → Prop) (p : ℕ) (prog : Program A) (Q : A → Disk → Prop) (fs : Disk) :
    Prop :=
  Wp (Sound P) (Others p) (Allowed p) CrashFs.Step prog Q fs

theorem others_interference (p : ℕ) : Interference (Others p) where
  refl := fun fs => ⟨.refl fs, .refl p fs⟩
  trans := fun h h' => ⟨h.1.trans h'.1, h.2.trans h'.2⟩

theorem Writes.done {a : A} {Q : A → Disk → Prop}
    (h : ∀ fs', Others p fs fs' → Sound P fs' → Q a fs') : Writes P p (ret a) Q fs := h

/-- **One call of a writer.** -/
theorem Writes.step {c : Call EntryName UInt8 FileTag} {next : Reply → Program A}
    {Q : A → Disk → Prop}
    (h : ∀ fs', Others p fs fs' → Sound P fs' → Lawful P p fs' c ∧
      ∀ r fs'', CrashFs.Step c fs' r fs'' → Advances fs' fs'' → Sound P fs'' →
        Writes P p (next r) Q fs'') : Writes P p (.call c next) Q fs := by
  intro fs' hothers hsound r fs'' hstep
  obtain ⟨hlawful, hnext⟩ := h fs' hothers hsound
  have hchange := hlawful.change hstep
  have hsound' := hchange.sound hsound
  have hadvances := hchange.advances hsound
  exact ⟨hsound', ⟨hadvances, fun q hq => hchange.spares hsound hq⟩, hnext r fs'' hstep hadvances hsound'⟩

theorem Writes.bind {prog : Program A} {f : A → Program B} {Q : B → Disk → Prop}
    (h : Writes P p prog (fun a fs' => Writes P p (f a) Q fs') fs) :
    Writes P p (prog.bind f) Q fs := Wp.bind (others_interference p) h

/-! ## What a file has come to -/

/-- Process `p` is writing the file `t` as inode `i`, under its temporary name in
    the directory `d` of its job. -/
structure Writing (P : Payload → Prop) (p d i : ℕ) (t : FileTag) (done : Bytes) (fs : Disk) :
    Prop where
  dir : fs.live jobsDir (.job t.payload.job) = some d
  tmp : fs.live d (.tmp t.payload.name p) = some i
  tag : fs.tag i = some t
  pid : t.pid = p
  data : fs.data i = done
  promise : P t.payload → Certain fs d (.file "output")

/-- The file is written and its bytes are durable. -/
structure Written (P : Payload → Prop) (p d i : ℕ) (t : FileTag) (fs : Disk) : Prop where
  writing : Writing P p d i t t.payload.bytes fs
  synced : fs.synced i = true

/-- The file has its final name, which a crash may still take away. -/
structure Renamed (p d i : ℕ) (t : FileTag) (fs : Disk) : Prop where
  dir : fs.live jobsDir (.job t.payload.job) = some d
  tmp : fs.live d (.tmp t.payload.name p) = none
  tag : fs.tag i = some t
  pid : t.pid = p
  only : ∀ d' s', MayName fs d' (.tmp s' p) i → d' = d ∧ s' = t.payload.name
  since : LiveSince fs d (.file t.payload.name) i

/-- The file has its final name for good. -/
structure Published (d i : ℕ) (t : FileTag) (fs : Disk) : Prop where
  dir : fs.live jobsDir (.job t.payload.job) = some d
  lasting : Lasting fs d t.payload.name i t

variable {d i : ℕ} {t : FileTag} {done : Bytes}

theorem Writing.stable (h : Writing P p d i t done fs) (ho : Others p fs fs') :
    Writing P p d i t done fs' where
  dir := ho.1.jobs _ _ h.dir
  tmp := (ho.2.tmp _ _).trans h.tmp
  tag := (ho.2.owned i t h.tag h.pid).1
  pid := h.pid
  data := (ho.2.owned i t h.tag h.pid).2.1.trans h.data
  promise := fun hp => ho.1.certain _ _ (h.promise hp)

theorem Written.stable (h : Written P p d i t fs) (ho : Others p fs fs') :
    Written P p d i t fs' where
  writing := h.writing.stable ho
  synced := (ho.2.owned i t h.writing.tag h.writing.pid).2.2.trans h.synced

theorem Renamed.stable (h : Renamed p d i t fs) (ho : Others p fs fs') : Renamed p d i t fs' where
  dir := ho.1.jobs _ _ h.dir
  tmp := (ho.2.tmp _ _).trans h.tmp
  tag := (ho.2.owned i t h.tag h.pid).1
  pid := h.pid
  only := fun d' s' hi => h.only d' s' (ho.2.gone d' s' i t h.tag h.pid hi)
  since := ho.1.since _ _ _ h.since

theorem Published.stable (h : Published d i t fs) (hg : Advances fs fs') : Published d i t fs' :=
  ⟨hg.jobs _ _ h.dir, hg.lasting _ _ _ _ h.lasting⟩

/-- The directory `d` of a job is not `jobs`. -/
theorem Sound.dir_ne (hs : Sound P fs) {a d : ℕ} (h : fs.live jobsDir (.job a) = some d) :
    d ≠ jobsDir := (hs.named.jobs a d (mayName_of_live h)).2

/-! ## The calls -/

theorem create_inode {s : String} {excl : Bool}
    (h : CrashFs.Step (.create d (.tmp s p) excl t) fs (.inode i) fs') :
    fs'.live d (.tmp s p) = some i ∧ fs'.tag i = some t ∧ fs'.data i = [] := by
  obtain ⟨outcome | count, hexec⟩ := h
  · cases hexec
  · unfold exec succeed at hexec
    dsimp only at hexec
    split at hexec
    · next j hlive =>
      split_ifs at hexec <;> cases hexec
      exact ⟨hlive, Function.update_self _ _ _, Function.update_self _ _ _⟩
    · cases hexec
      refine ⟨?_, Function.update_self _ _ _, Function.update_self _ _ _⟩
      rw [live_alloc, live_setTag, live_store, live_push]
      simp

theorem openDir_inode {a : ℕ}
    (h : CrashFs.Step (.openDir jobsDir (.job a)) fs (.inode d) fs') :
    fs' = fs ∧ fs.live jobsDir (.job a) = some d := by
  obtain ⟨outcome | count, hexec⟩ := h
  · cases hexec
  · unfold exec succeed at hexec
    dsimp only at hexec
    split at hexec <;> cases hexec
    exact ⟨rfl, ‹_›⟩

theorem write_wrote {data : Bytes} {w : ℕ}
    (h : CrashFs.Step (.write i data) fs (.wrote w) fs') :
    fs' = fs.store i (fs.data i ++ data.take w) false := by
  obtain ⟨outcome | count, hexec⟩ := h
  · cases hexec
  · cases hexec
    rw [List.length_take, ← List.take_eq_take_min]

theorem fsync_done (h : CrashFs.Step (.fsync i) fs .done fs') :
    fs' = fs.store i (fs.data i) true := by
  obtain ⟨outcome | count, hexec⟩ := h <;> cases hexec
  rfl

theorem rename_done {src dst : EntryName} (hlive : fs.live d src = some i)
    (h : CrashFs.Step (.rename d src dst) fs .done fs') :
    fs' = (fs.push ⟨d, [(dst, some i), (src, none)]⟩).note d dst i := by
  obtain ⟨outcome | count, hexec⟩ := h
  · cases hexec
  · unfold exec succeed at hexec
    dsimp only at hexec
    rw [hlive] at hexec
    cases hexec
    rfl

theorem fsyncDir_done (h : CrashFs.Step (.fsyncDir d) fs .done fs') : fs' = fs.flush d := by
  obtain ⟨outcome | count, hexec⟩ := h <;> cases hexec
  rfl

namespace Writing

theorem store (h : Writing P p d i t done fs) (data : Bytes) (synced : Bool) :
    Writing P p d i t data (fs.store i data synced) :=
  ⟨h.dir, h.tmp, h.tag, h.pid, Function.update_self _ _ _, h.promise⟩

end Writing

/-- **The rename of a written file.** -/
theorem Written.rename (h : Written P p d i t fs) (hs : Sound P fs) :
    Renamed p d i t ((fs.push ⟨d, [(.file t.payload.name, some i),
      (.tmp t.payload.name p, none)]⟩).note d (.file t.payload.name) i) := by
  have hw := h.writing
  constructor
  case dir =>
    rw [live_note, live_push]
    simpa using hw.dir
  case tmp =>
    rw [live_note, live_push]
    simp
  case tag => exact hw.tag
  case pid => exact hw.pid
  case only =>
    intro d' s' hi
    rw [mayName_note, mayName_rename] at hi
    have hi : MayName fs d' (.tmp s' p) i := by simpa using hi
    obtain ⟨hd, hs', -⟩ := hs.named.single _ _ _ _ _ _ _ (mayName_of_live hw.tmp) hi
    exact ⟨hd, hs'⟩
  case since =>
    refine ⟨i, ?_, since_self⟩
    rw [live_note, live_push]
    simp

/-- **The sync of the directory of a renamed file.** -/
theorem Renamed.flush (h : Renamed p d i t fs) (hs : Sound P fs) : Published d i t (fs.flush d) := by
  refine ⟨?_, kept_flush h.since, h.tag, fun d' s' q hq => ?_⟩
  · rw [live_flush]
    exact h.dir
  · -- the only temporary name it ever had is gone from the synced directory
    obtain ⟨t', htag, rfl⟩ := hs.owned d' s' q i hq.of_flush
    cases h.tag.symm.trans htag
    have hq' := hq
    rw [h.pid] at hq'
    obtain ⟨rfl, rfl⟩ := h.only d' s' hq'.of_flush
    cases h.tmp.symm.trans (live_of_mayName_flush hq')

/-! ## The writers -/

/-- A post-condition that says nothing of errors. -/
def OnOk (F : Disk → Prop) (r : Except String Unit) (fs : Disk) : Prop := r = .ok () → F fs

theorem writes_error {F : Disk → Prop} {e : String} : Writes P p (ret (.error e)) (OnOk F) fs :=
  .done fun _ _ _ h => by cases h

theorem abandon_writes {F : Disk → Prop} {s e : String} :
    Writes P p (abandon d (.tmp s p) e) (OnOk F) fs :=
  .step fun _ _ _ => ⟨.unlink, fun _ _ _ _ _ => writes_error⟩

theorem writeAll_writes {data : Bytes} (h : Writing P p d i t done fs) :
    Writes P p (writeAll i data) (OnOk (Writing P p d i t (done ++ data))) fs := by
  fun_induction writeAll i data generalizing fs done with
  | case1 =>
    refine .done fun fs' ho _ _ => ?_
    rw [List.append_nil]
    exact h.stable ho
  | case2 data hdata ih =>
    refine .step fun fs' ho hs => ⟨.write (h.stable ho).tmp, fun r fs'' hstep hg hs' => ?_⟩
    cases r with
    | wrote w =>
      dsimp only
      split_ifs with hw
      · exact writes_error
      · have hnext := (h.stable ho).store (done ++ data.take w) false
        have heq := write_wrote hstep
        rw [(h.stable ho).data] at heq
        have hih := ih w hw (heq ▸ hnext)
        rw [List.append_assoc, List.take_append_drop] at hih
        exact hih
    | fail e => exact writes_error
    | done => exact writes_error
    | inode j => exact writes_error

theorem copyPieces_writes {pieces : List Bytes} (h : Writing P p d i t done fs) :
    Writes P p (copyPieces i pieces) (OnOk (Writing P p d i t (done ++ pieces.flatten))) fs := by
  induction pieces generalizing fs done with
  | nil =>
    refine .done fun fs' ho _ _ => ?_
    rw [List.flatten_nil, List.append_nil]
    exact h.stable ho
  | cons piece pieces ih =>
    refine .bind ((writeAll_writes h).mono fun r fs' _ hr => ?_)
    cases r with
    | error e => exact writes_error
    | ok =>
      rw [List.flatten_cons, ← List.append_assoc]
      exact ih (hr rfl)

/-! ## The three calls that publish a file -/

variable {Q : A → Disk → Prop} {next : Reply → Program A}

theorem Writing.fsync_writes (h : Writing P p d i t t.payload.bytes fs)
    (hdone : ∀ fs', Written P p d i t fs' → Writes P p (next .done) Q fs')
    (hfail : ∀ r fs', r ≠ .done → Writes P p (next r) Q fs') :
    Writes P p (.call (.fsync i) next) Q fs := by
  refine .step fun fs₁ ho _ => ⟨.fsync (h.stable ho).tmp, fun r fs₂ hstep _ _ => ?_⟩
  by_cases hr : r = .done
  · subst hr
    have heq := fsync_done hstep
    rw [(h.stable ho).data] at heq
    rw [heq]
    exact hdone _ ⟨(h.stable ho).store _ true, Function.update_self _ _ _⟩
  · exact hfail r fs₂ hr

theorem Written.rename_writes (h : Written P p d i t fs) (hended : t.payload.Ended)
    (hdone : ∀ fs', Renamed p d i t fs' → Writes P p (next .done) Q fs')
    (hfail : ∀ r fs', r ≠ .done → Writes P p (next r) Q fs') :
    Writes P p (.call (.rename d (.tmp t.payload.name p) (.file t.payload.name)) next) Q fs := by
  refine .step fun fs₁ ho hs => ?_
  have hw := (h.stable ho).writing
  refine ⟨.rename hw.dir hw.tmp hw.tag hw.data (h.stable ho).synced hended hw.promise,
    fun r fs₂ hstep _ _ => ?_⟩
  by_cases hr : r = .done
  · subst hr
    rw [rename_done hw.tmp hstep]
    exact hdone _ ((h.stable ho).rename hs)
  · exact hfail r fs₂ hr

theorem Renamed.fsyncDir_writes (h : Renamed p d i t fs)
    (hdone : ∀ fs', Published d i t fs' → Writes P p (next .done) Q fs')
    (hfail : ∀ r fs', r ≠ .done → Writes P p (next r) Q fs') :
    Writes P p (.call (.fsyncDir d) next) Q fs := by
  refine .step fun fs₁ ho hs => ?_
  refine ⟨.fsyncDir (hs.dir_ne (h.stable ho).dir), fun r fs₂ hstep _ _ => ?_⟩
  by_cases hr : r = .done
  · subst hr
    rw [fsyncDir_done hstep]
    exact hdone _ ((h.stable ho).flush hs)
  · exact hfail r fs₂ hr

theorem published_writes (h : Published d i t fs) :
    Writes P p (ret (.ok ())) (OnOk fun fs => ∃ d i, Published d i t fs) fs :=
  .done fun _ ho _ _ => ⟨d, i, h.stable ho.1⟩

/-- **`publish_file` returns true only when the file is published.** -/
theorem publishFile_writes (h : Writing P p d i t t.payload.bytes fs) (hended : t.payload.Ended) :
    Writes P p (publishFile d i t) (OnOk fun fs => ∃ d i, Published d i t fs) fs := by
  unfold publishFile
  rw [h.pid]
  refine h.fsync_writes (fun fs₁ hwritten => ?_) ?_
  · refine hwritten.rename_writes hended (fun fs₂ hrenamed => ?_) ?_
    · refine hrenamed.fsyncDir_writes (fun fs₃ hpublished => published_writes hpublished) ?_
      rintro (e | _ | j | w) fs' hr
      case done => exact absurd rfl hr
      all_goals exact writes_error
    · rintro (e | _ | j | w) fs' hr
      case done => exact absurd rfl hr
      all_goals exact writes_error
  · rintro (e | _ | j | w) fs' hr
    case done => exact absurd rfl hr
    all_goals exact writes_error

/-! ## Opening the temporary file -/

/-- The directory of the job is found, or the call fails. -/
theorem openDir_writes {a : ℕ}
    (hdone : ∀ d fs', fs'.live jobsDir (.job a) = some d → Advances fs fs' →
      Writes P p (next (.inode d)) Q fs')
    (hfail : ∀ r fs', (∀ d, r ≠ .inode d) → Writes P p (next r) Q fs') :
    Writes P p (.call (.openDir jobsDir (.job a)) next) Q fs := by
  refine .step fun fs₁ ho _ => ⟨.openDir, fun r fs₂ hstep _ _ => ?_⟩
  cases r with
  | inode d =>
    obtain ⟨rfl, hdir⟩ := openDir_inode hstep
    exact hdone d fs₂ hdir ho.1
  | fail e => exact hfail _ fs₂ (by simp)
  | done => exact hfail _ fs₂ (by simp)
  | wrote w => exact hfail _ fs₂ (by simp)

theorem create_writes {excl : Bool} (hdir : fs.live jobsDir (.job t.payload.job) = some d)
    (hpid : t.pid = p) (hpromise : P t.payload → Certain fs d (.file "output"))
    (hdone : ∀ i fs', Writing P p d i t [] fs' → Writes P p (next (.inode i)) Q fs')
    (hfail : ∀ r fs', (∀ i, r ≠ .inode i) → Writes P p (next r) Q fs') :
    Writes P p (.call (.create d (.tmp t.payload.name p) excl t) next) Q fs := by
  refine .step fun fs₁ ho _ => ⟨.create (ho.1.jobs _ _ hdir) hpid, fun r fs₂ hstep hg _ => ?_⟩
  cases r with
  | inode i =>
    obtain ⟨htmp, htag, hdata⟩ := create_inode hstep
    exact hdone i fs₂ ⟨hg.jobs _ _ (ho.1.jobs _ _ hdir), htmp, htag, hpid, hdata,
      fun hp => hg.certain _ _ (ho.1.certain _ _ (hpromise hp))⟩
  | fail e => exact hfail _ fs₂ (by simp)
  | done => exact hfail _ fs₂ (by simp)
  | wrote w => exact hfail _ fs₂ (by simp)

/-! ## The writers -/

/-- The output that the payload promises is certain to be there. -/
def PromiseMet (P : Payload → Prop) (payload : Payload) (fs : Disk) : Prop :=
  P payload → ∃ d, fs.live jobsDir (.job payload.job) = some d ∧ Certain fs d (.file "output")

theorem PromiseMet.advances {payload : Payload} (h : PromiseMet P payload fs) (hg : Advances fs fs') :
    PromiseMet P payload fs' := by
  intro hp
  obtain ⟨d, hdir, hcertain⟩ := h hp
  exact ⟨d, hg.jobs _ _ hdir, hg.certain _ _ hcertain⟩

/-- **`atomic_write_file` returns true only when the file is published.** -/
theorem atomicWriteFile_writes {root : String} (hpid : t.pid = p)
    (hended : t.payload.Ended) (hpromise : PromiseMet P t.payload fs) :
    Writes P p (atomicWriteFile root t) (OnOk fun fs => ∃ d i, Published d i t fs) fs := by
  unfold atomicWriteFile
  dsimp only
  rw [hpid]
  refine openDir_writes (fun d fs₁ hdir hg₁ => ?_) ?_
  · refine create_writes hdir hpid (fun hp => ?_) (fun i fs₂ hwriting => ?_) ?_
    · obtain ⟨d', hdir', hcertain⟩ := hpromise.advances hg₁ hp
      cases hdir.symm.trans hdir'
      exact hcertain
    · refine .bind ((writeAll_writes hwriting).mono fun r fs₃ _ hr => ?_)
      cases r with
      | error e => exact abandon_writes
      | ok =>
        refine (hr rfl).fsync_writes (fun fs₄ hwritten => ?_) ?_
        · refine hwritten.rename_writes hended (fun fs₅ hrenamed => ?_) ?_
          · refine hrenamed.fsyncDir_writes (fun fs₆ hpublished => published_writes hpublished) ?_
            rintro (e | _ | j | w) fs' hr
            case done => exact absurd rfl hr
            all_goals exact writes_error
          · rintro (e | _ | j | w) fs' hr
            case done => exact absurd rfl hr
            all_goals exact abandon_writes
        · rintro (e | _ | j | w) fs' hr
          case done => exact absurd rfl hr
          all_goals exact abandon_writes
    · rintro (e | _ | j | w) fs' hr
      case inode => exact absurd rfl (hr j)
      all_goals exact writes_error
  · rintro (e | _ | j | w) fs' hr
    case inode => exact absurd rfl (hr j)
    all_goals exact writes_error

/-- **`save_meta` returns true only when the record is published.** -/
theorem saveMetaFile_writes {root : String} {callNo : ℕ} {m : Meta}
    (hpromise : PromiseMet P (.record m) fs) :
    Writes P p (saveMetaFile root p callNo m)
      (OnOk fun fs => ∃ d i, Published d i ⟨p, callNo, .record m⟩ fs) fs := by
  refine .step fun fs₁ ho _ => ⟨.mkdir, fun r fs₂ _ hg _ => ?_⟩
  split_ifs
  · exact atomicWriteFile_writes rfl trivial ((hpromise.advances ho.1).advances hg)
  · exact writes_error

/-- **The copying worker returns true only when the output is published.** -/
theorem copyOutput_writes {callNo id : ℕ} {pieces : List Bytes} {feedErr : Option String}
    (hpromise : ¬ P (.output id pieces.flatten feedErr.isNone)) :
    Writes P p (copyOutput p callNo id pieces feedErr)
      (OnOk fun fs => feedErr = none ∧
        ∃ d i, Published d i ⟨p, callNo, .output id pieces.flatten true⟩ fs) fs := by
  let t : FileTag := ⟨p, callNo, .output id pieces.flatten feedErr.isNone⟩
  refine openDir_writes (fun d fs₁ hdir _ => ?_) ?_
  · refine create_writes (t := t) hdir rfl (fun hp => absurd hp hpromise)
      (fun i fs₂ hwriting => ?_) ?_
    · refine .bind ((copyPieces_writes hwriting).mono fun r fs₃ _ hr => ?_)
      cases r with
      | error e => exact abandon_writes
      | ok =>
        cases feedErr with
        | some e => exact abandon_writes
        | none =>
          refine .bind ((publishFile_writes (hr rfl) rfl).mono fun r fs₄ _ hr => ?_)
          cases r with
          | error e => exact abandon_writes
          | ok =>
            obtain ⟨d', i', hpublished⟩ := hr rfl
            exact (published_writes hpublished).mono fun _ _ _ h hok => ⟨rfl, h hok⟩
    · rintro (e | _ | j | w) fs' hr
      case inode => exact absurd rfl (hr j)
      all_goals exact writes_error
  · rintro (e | _ | j | w) fs' hr
    case inode => exact absurd rfl (hr j)
    all_goals exact writes_error

/-! ## `finalize` -/

/-- A result that was not ok is not recorded as completed. -/
theorem settle_error (stopReason why : String) (m : Meta) :
    trimText (settle stopReason m (.error why)).2 ≠ "completed" := by
  dsimp only [settle]
  split_ifs <;> decide

/-- **`finalize` promises an output only when it is there.** -/
theorem finalizeFiles_writes {root : String} {callNo id : ℕ} {stopReason : String} {m : Meta}
    {result : Except String String} (hP : ∀ payload, P payload → payload.Promises)
    (hid : ∀ payload, P payload → m.id = id)
    (hcopied : result = .ok "" →
      PromiseMet P (.record ((settle stopReason m result).1.setState "completed")) fs) :
    Writes P p (finalizeFiles root p callNo id stopReason m result) (fun _ _ => True) fs := by
  have hany : ∀ {r : Except String Unit} {F : Disk → Prop} {fs : Disk}, Sound P fs → OnOk F r fs →
      True := fun _ _ => trivial
  have hplain : ∀ {m' : Meta} {state : String} {fs : Disk}, trimText state ≠ "completed" →
      PromiseMet P (.record (m'.setState state)) fs :=
    fun hstate hp => absurd (hP _ hp).1 hstate
  have hpersisting : trimText "persisting" ≠ "completed" := by decide
  have hfailed : trimText "failed" ≠ "completed" := by decide
  unfold finalizeFiles
  cases result with
  | error why =>
    exact (saveMetaFile_writes (hplain (settle_error stopReason why m))).mono fun _ _ => hany
  | ok body =>
    dsimp only
    split_ifs with hbody
    · subst hbody
      exact (saveMetaFile_writes (hcopied rfl)).mono fun _ _ => hany
    · refine .bind ((saveMetaFile_writes (hplain hpersisting)).mono fun _ fs₁ _ _ => ?_)
      have hno : PromiseMet P (.output id (textBytes body) true) fs₁ := fun hp => (hP _ hp).elim
      refine .bind ((atomicWriteFile_writes
        (t := ⟨p, callNo, .output id (textBytes body) true⟩) rfl rfl hno).mono fun r fs₂ _ hr => ?_)
      cases r with
      | error e => exact (saveMetaFile_writes (hplain hfailed)).mono fun _ _ => hany
      | ok =>
        refine (saveMetaFile_writes fun hp => ?_).mono fun _ _ => hany
        obtain ⟨d, i, hpublished⟩ := hr rfl
        refine ⟨d, ?_, hpublished.lasting.kept.certain⟩
        have hdir : fs₂.live jobsDir (.job id) = some d := hpublished.dir
        show fs₂.live jobsDir (.job m.id) = some d
        rw [hid _ hp]
        exact hdir

end Forge
