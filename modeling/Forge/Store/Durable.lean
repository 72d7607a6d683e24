import Forge.Store.Workspace

/-!
# What survives a power loss

`save_meta` (store.cpp:603-610) syncs the file and the directory of the job, and
not the directory in which it may just have made that directory.

* `save_survives`: a save that returned true survives every later power loss
  exactly if the directory of its job was durable when the save began.
* `save_lost`: the first save of a job is lost with its directory.
-/

namespace Forge

open CrashFs RelyGuarantee Process Workspace

/-! ## A record survives -/

/-- `jobs/<id>/meta` is there and holds the contents of the save `t` of `m`, or of
    a later save of the same job. -/
def HoldsSave (disk : Disk) (t : FileTag) (m : Meta) : Prop :=
  ∃ d i j t' m', disk.live jobsDir (.job m.id) = some d ∧
    disk.live d (.file "meta") = some j ∧ disk.tag i = some t ∧
    Since disk d (.file "meta") i j ∧ disk.tag j = some t' ∧ t'.payload = .record m' ∧
    m'.id = m.id ∧ disk.data j = textBytes (metaToText m')

/-- Any call may be made at any time, and may fail with any error. -/
def anyCall : Rule := ⟨fun _ _ => True, fun _ => True⟩

/-- No payload promises anything. -/
def noPromise (_ : Payload) : Prop := False

/-- The file is published in a directory that a power loss cannot take away. -/
structure Secured (w : Workspace) (t : FileTag) : Prop where
  anchored : w.anchored = true
  durable : (w.disk.durable jobsDir (.job t.payload.job)).isSome
  published : ∃ d i, Published d i t w.disk

variable {w w' w₀ w₁ w₂ : Workspace} {root : String} {t : FileTag} {m : Meta} {pid : ℕ}

theorem writes_anyCall (op : WriteOp) (callNo : ℕ) {fs : Disk} :
    Writes noPromise pid (op.program root pid callNo)
      (Task.Ends pid ⟨callNo, op, op.program root pid callNo⟩) fs := by
  cases op with
  | save m => exact saveMetaFile_writes fun h => h.elim
  | copy input read l => exact copyOutput_writes fun h => h
  | finalize id job inspect =>
    exact finalizeFiles_writes (fun _ h => h.elim) (fun _ h => h.elim) fun _ h => h.elim

theorem inv_of_run (h : Run root anyCall w w') (hinv : w.Inv root anyCall noPromise) :
    w'.Inv root anyCall noPromise := by
  induction h with
  | refl => exact hinv
  | tail _ hstep ih => exact hstep.inv ih fun op _ _ _ => writes_anyCall op _

theorem Lasting.restart {fs : Disk} {d i : ℕ} {s : String} (h : Lasting fs d s i t) (c : Crash fs) :
    Lasting c.restart d s i t where
  kept := c.kept_restart h.kept
  tag := h.tag
  dead := fun d' s' p hp => h.dead d' s' p (c.mayName_restart hp)

/-- The directory of a job stays when its entry is durable. -/
theorem Named.restart_dir {fs : Disk} (h : Named fs) (c : Crash fs) {a d : ℕ}
    (hdurable : (fs.durable jobsDir (.job a)).isSome) (hdir : fs.live jobsDir (.job a) = some d) :
    c.restart.live jobsDir (.job a) = some d := by
  have hcertain : Certain fs jobsDir (.job a) := by
    refine ⟨hdurable, fun u hu hat => ?_⟩
    obtain ⟨s, p, heq⟩ := h.stays u hu _ _ hat
    cases heq
  obtain ⟨d', hd'⟩ := Option.isSome_iff_exists.mp (c.certain hcertain)
  cases hdir.symm.trans (h.jobs a d' (c.mayName hd')).1
  exact hd'

/-- **Step lemma.** What is saved stays saved. -/
theorem Secured.step (h : Secured w t) (hinv : w.Inv root anyCall noPromise)
    (hstep : Workspace.Step root anyCall w w') : Secured w' t := by
  obtain ⟨d, i, hpublished⟩ := h.published
  cases hstep with
  | enter => exact ⟨h.anchored, h.durable, d, i, hpublished⟩
  | @call _ _ _ _ _ _ disk htask hcall herrno =>
    have hg := (hinv.call htask hcall herrno).2
    refine ⟨h.anchored, ?_, d, i, hpublished.stable hg⟩
    show (disk.durable jobsDir (.job t.payload.job)).isSome
    rw [hg.durable]
    exact h.durable
  | leave => exact ⟨h.anchored, h.durable, d, i, hpublished⟩
  | kill => exact ⟨h.anchored, h.durable, d, i, hpublished⟩
  | power hloss =>
    cases hloss with
    | kept c =>
      have hdir := hinv.sound.named.restart_dir c h.durable hpublished.dir
      refine ⟨rfl, ?_, d, i, hdir, hpublished.lasting.restart c⟩
      exact Option.isSome_iff_exists.mpr ⟨d, hdir⟩
    | lost hlost => cases h.anchored.symm.trans hlost

theorem Secured.run (h : Secured w t) (hinv : w.Inv root anyCall noPromise) (hrun : Run root anyCall w w') :
    Secured w' t := by
  induction hrun with
  | refl => exact h
  | tail hrun hstep ih => exact ih.step (inv_of_run hrun hinv) hstep

/-- What is saved is on the disk. -/
theorem Secured.holds (h : Secured w t) (hinv : w.Inv root anyCall noPromise) (ht : t.payload = .record m) :
    HoldsSave w.disk t m := by
  obtain ⟨d, i, hdir, hkept, htag, -⟩ := h.published
  rw [ht] at hdir hkept
  obtain ⟨j, hj⟩ := Option.isSome_iff_exists.mp hkept.certain.live
  obtain ⟨-, t', htag', hdata, hname, -, hjob⟩ := hinv.sound.whole d "meta" j (mayName_of_live hj)
  have hjob' : t'.payload.job = m.id := hjob _ (mayName_of_live hdir)
  cases hpayload : t'.payload with
  | record m' =>
    rw [hpayload] at hdata hjob'
    exact ⟨d, i, j, t', m', hdir, hj, htag, hkept.since j (mayName_of_live hj), htag', hpayload,
      hjob', hdata⟩
  | output a body ended =>
    rw [hpayload] at hname
    exact absurd hname (by simp [Payload.name])

/-- While a call is in progress the power has not failed. -/
theorem pending_of_run (hinv : (w₀.enter root pid (.save m)).Inv root anyCall noPromise)
    (hrun : Run root anyCall (w₀.enter root pid (.save m)) w) :
    w₀.calls < w.calls ∧ ((w.disk.durable jobsDir = w₀.disk.durable jobsDir ∧
      w.anchored = w₀.anchored) ∨ ∀ q task, w.tasks q = some task → task.call ≠ w₀.calls) := by
  induction hrun with
  | refl => exact ⟨Nat.lt_succ_self _, Or.inl ⟨rfl, rfl⟩⟩
  | @tail v v' hrun hstep ih =>
    obtain ⟨hcalls, hpending⟩ := ih
    cases hstep with
    | enter hidle hmay =>
      refine ⟨Nat.lt_succ_of_lt hcalls, hpending.imp_right fun hgone q task hq => ?_⟩
      rcases of_update_tasks hq with ⟨-, hnew⟩ | ⟨-, hold⟩
      · cases hnew
        exact hcalls.ne'
      · exact hgone q task hold
    | call htask hcall herrno =>
      refine ⟨hcalls, hpending.imp (fun h => ⟨?_, h.2⟩) fun hgone q task hq => ?_⟩
      · exact ((inv_of_run hrun hinv).call htask hcall herrno).2.durable.trans h.1
      · rcases of_update_tasks hq with ⟨-, hnew⟩ | ⟨-, hold⟩
        · cases hnew
          exact (hgone _ _ htask :)
        · exact hgone q task hold
    | leave | kill =>
      exact ⟨hcalls, hpending.imp_right fun hgone q task hq => hgone q task (of_tasks_none hq)⟩
    | power => exact ⟨hcalls, Or.inr fun _ _ hq => by cases hq⟩

/-- **A save survives exactly if the directory of its job was durable.** -/
theorem save_survives (hreach : Reachable root anyCall w₀) (hidle : w₀.tasks pid = none)
    (hrun : Run root anyCall (w₀.enter root pid (.save m)) w₁)
    (hret : w₁.tasks pid = some ⟨w₀.calls, .save m, .ret (.ok ())⟩) :
    (∀ w₂, Run root anyCall w₁ w₂ → ∀ disk anchored, w₂.Loss disk anchored →
      HoldsSave disk ⟨pid, w₀.calls, .record m⟩ m) ↔
    w₀.anchored = true ∧ (w₀.disk.durable jobsDir (.job m.id)).isSome := by
  obtain ⟨anchored₀, hstart⟩ := hreach
  have hinv₀ := inv_of_run hstart (inv_start anchored₀)
  have henter : Workspace.Step root anyCall w₀ (w₀.enter root pid (.save m)) := .enter hidle trivial
  have hinv : (w₀.enter root pid (.save m)).Inv root anyCall noPromise :=
    henter.inv hinv₀ fun op _ _ _ => writes_anyCall op _
  have hinv₁ := inv_of_run hrun hinv
  -- the power has not failed since the call was made
  obtain ⟨hdurable, hanchored⟩ : w₁.disk.durable jobsDir = w₀.disk.durable jobsDir ∧
      w₁.anchored = w₀.anchored := by
    rcases (pending_of_run hinv hrun).2 with h | hgone
    · exact h
    · exact absurd rfl (hgone pid _ hret)
  constructor
  · intro hall
    have hanch : w₀.anchored = true := by
      by_contra hno
      have hlost : w₁.anchored = false := by simpa [hanchored] using hno
      obtain ⟨d, i, j, t', m', hdir, -⟩ := hall w₁ .refl emptyDisk false (.lost hlost)
      cases hdir
    refine ⟨hanch, ?_⟩
    -- a crash that keeps nothing of what is pending
    let c : Crash w₁.disk := ⟨[], List.nil_sublist _, w₁.disk.data, fun _ _ => rfl⟩
    obtain ⟨d, i, j, t', m', hdir, -⟩ := hall w₁ .refl c.restart true (.kept c)
    have hdir' : w₁.disk.durable jobsDir (.job m.id) = some d := hdir
    rw [← hdurable, hdir']
    rfl
  · rintro ⟨hanch, hsome⟩ w₂ hrun₂ disk anchored hloss
    have hsaved : Secured w₁ ⟨pid, w₀.calls, .record m⟩ := by
      refine ⟨hanchored.trans hanch, ?_, ?_⟩
      · rw [hdurable]
        exact hsome
      · exact (hinv₁.works pid _ hret).result (others_interference pid) hinv₁.sound rfl
    have hinv₂ := inv_of_run hrun₂ hinv₁
    have hpower : Workspace.Step root anyCall w₂ (w₂.reboot disk anchored) := .power hloss
    have hsaved₂ := (hsaved.run hinv₁ hrun₂).step hinv₂ hpower
    exact hsaved₂.holds (hinv₂.reboot hloss) rfl

/-! ## The first save and the next -/

/-- A `count` job. -/
def countRecord : Meta := { id := 1, op := "count", input := "/in" }

/-- The workspace after a first save of the record, in which every call went through. -/
def afterSave (w : Workspace) : Workspace :=
  let prog := saveMetaFile "w" 1 w.calls countRecord
  (((w.enter "w" 1 (.save countRecord)).setTask 1 (some ⟨w.calls, .save countRecord,
    .ret (play prog w.disk).1⟩)).setDisk (play prog w.disk).2)

theorem run_afterSave (w : Workspace) :
    Run "w" anyCall (w.enter "w" 1 (.save countRecord)) (afterSave w) := by
  exact run_play ⟨trivial, trivial⟩ (Function.update_self 1 _ w.tasks)

theorem afterSave_tasks (w : Workspace) : (afterSave w).tasks 1 =
    some ⟨w.calls, .save countRecord, .ret (play (saveMetaFile "w" 1 w.calls countRecord) w.disk).1⟩ := by
  simp [afterSave, setTask, setDisk]

/-- What is left when a power loss takes away nothing. -/
def keepAll (fs : Disk) : Crash fs := ⟨fs.pending, .refl _, fs.data, fun _ _ => rfl⟩

theorem live_keepAll (fs : Disk) : (keepAll fs).restart.live = fs.live := rfl

theorem data_keepAll (fs : Disk) : (keepAll fs).restart.data = fs.data := rfl

/-- A workspace in which the record was saved before the last power loss. -/
def restarted : Workspace :=
  (afterSave (start true)).reboot (keepAll (afterSave (start true)).disk).restart true

theorem reachable_restarted : Reachable "w" anyCall restarted := by
  refine ⟨true, ?_⟩
  have henter : Workspace.Step "w" anyCall (start true)
      ((start true).enter "w" 1 (.save countRecord)) := .enter rfl trivial
  exact ((Relation.ReflTransGen.single henter).trans (run_afterSave _)).tail
    (.power (.kept (keepAll _)))

/-- The first save made the directory. -/
theorem durable_restarted : (restarted.disk.durable jobsDir (.job 1)).isSome := by
  have henter : Workspace.Step "w" anyCall (start true)
      ((start true).enter "w" 1 (.save countRecord)) := .enter rfl trivial
  have hinv := inv_of_run ((Relation.ReflTransGen.single henter).trans (run_afterSave _))
    (inv_start true)
  have hends := (hinv.works 1 _ (afterSave_tasks _)).result (others_interference 1) hinv.sound
  obtain ⟨d, i, hpublished⟩ := hends (play_saveMetaFile _ _ _ _).1
  exact Option.isSome_iff_exists.mpr ⟨d, hpublished.dir⟩

/-- A second save, after a reboot. -/
theorem save_survives_again :
    (restarted.disk.durable jobsDir (.job 1)).isSome ∧
      ∀ w₂, Run "w" anyCall (afterSave restarted) w₂ → ∀ disk anchored, w₂.Loss disk anchored →
        HoldsSave disk ⟨1, 1, .record countRecord⟩ countRecord := by
  have hret : (afterSave restarted).tasks 1 = some ⟨1, .save countRecord, .ret (.ok ())⟩ := by
    rw [← (play_saveMetaFile restarted.disk 1 1 countRecord).1]
    exact afterSave_tasks restarted
  exact ⟨durable_restarted,
    (save_survives reachable_restarted rfl (run_afterSave restarted) hret).mpr ⟨rfl, durable_restarted⟩⟩

/-- **The first save of a job may be lost.** Its directory was made and never synced. -/
theorem save_lost :
    ¬ ∀ (w₀ w₁ w₂ : Workspace) (pid : ℕ) (m : Meta), Reachable "w" anyCall w₀ →
      w₀.tasks pid = none → Run "w" anyCall (w₀.enter "w" pid (.save m)) w₁ →
      w₁.tasks pid = some ⟨w₀.calls, .save m, .ret (.ok ())⟩ → Run "w" anyCall w₁ w₂ →
      ∀ disk anchored, w₂.Loss disk anchored → HoldsSave disk ⟨pid, w₀.calls, .record m⟩ m := by
  intro hclaim
  have hret : (afterSave (start true)).tasks 1 =
      some ⟨0, .save countRecord, .ret (.ok ())⟩ := by
    rw [← (play_saveMetaFile emptyDisk 1 0 countRecord).1]
    exact afterSave_tasks (start true)
  have henter : Workspace.Step "w" anyCall (start true)
      ((start true).enter "w" 1 (.save countRecord)) := .enter rfl trivial
  have hinv := henter.inv (inv_start true) fun op _ _ _ => writes_anyCall op _
  -- nothing has synced the directory `jobs`
  have hnone : (afterSave (start true)).disk.durable jobsDir = fun _ => none := by
    rcases (pending_of_run hinv (run_afterSave (start true))).2 with h | hgone
    · exact h.1
    · exact absurd rfl (hgone 1 _ hret)
  let c : Crash (afterSave (start true)).disk :=
    ⟨[], List.nil_sublist _, (afterSave (start true)).disk.data, fun _ _ => rfl⟩
  obtain ⟨d, i, j, t', m', hdir, -⟩ := hclaim (start true) _ _ 1 countRecord ⟨true, .refl⟩ rfl
    (run_afterSave _) hret .refl c.restart true (.kept c)
  have hdir' : (afterSave (start true)).disk.durable jobsDir (.job 1) = some d := hdir
  rw [hnone] at hdir'
  cases hdir'

end Forge
