import Forge.Controller.Runs

/-!
# Jobs leave `c.live` with a terminal record

A job that `enqueue` has put into `c.live` stays there until its record has been
written with a terminal state, as long as the `save_meta` call with which the
controller takes leave of the job puts the record in place. Other saves may fail.

* `Step.turnover`: how a step can change which jobs are live.
* `Followed.step`: every step keeps each accepted job live or terminal.
* `removed_terminal`: no job is forgotten.
-/

namespace Forge

namespace Log

/-- The jobs that this controller has put into `c.live`. -/
def accepted : Log → List ℕ
  | [] => []
  | .admitted id :: log => id :: accepted log
  | .died :: _ => []
  | _ :: log => accepted log

/-- The latest `save_meta` call for the job has put its record in place. -/
def kept : Log → ℕ → Bool
  | [], _ => true
  | .save i _ :: log, id => i = id || kept log id
  | .lost i _ :: log, id => i ≠ id && kept log id
  | _ :: log, id => kept log id

end Log

variable {o : Oracle} {g : Guard} {log log' : Log}

/-! ## Records of other jobs -/

/-- A step changes no other job's record. -/
theorem Step.disk_other {id other : ℕ} {v v' : View} (h : Step o g id v v') (hv : Ordered v)
    (hne : other ≠ id) : v'.log.disk other = v.log.disk other := by
  obtain ⟨⟨new, hlog, hnew⟩, -⟩ := h.concerns
  rw [hlog]
  clear hlog
  induction new with
  | nil => rfl
  | cons e new ih =>
    have hrest := ih fun e' he' => hnew e' (List.mem_cons_of_mem e he')
    have he := hnew e List.mem_cons_self
    rw [List.cons_append]
    cases e with
    | record i m =>
      obtain ⟨rfl, -⟩ := he
      exact (if_neg (Ne.symm hne)).trans hrest
    | save j m =>
      have hid : m.id = id := by
        rcases he.2 with ⟨job, hlive, hm⟩ | ⟨m₀, hdisk, hm⟩
        · exact hm.trans (hv.live id job hlive)
        · exact hm.trans (Log.disk_id hv.ids hdisk)
      exact (Log.disk_save_ne (hid ▸ Ne.symm hne) _).trans hrest
    | _ => exact hrest

/-! ## Who is live -/

/-- The effect neither admits nor removes a job. -/
def Still : Effect → Prop
  | .admitted _ => False
  | .removed _ => False
  | .died => False
  | _ => True

/-- The effect says that something has been done, and does nothing. -/
def Mute : Effect → Prop
  | .finalized _ _ _ _ _ => True
  | .cancelled _ => True
  | _ => False

/-- What a step does to the set of live jobs. -/
inductive Turnover (o : Oracle) (id : ℕ) (v v' : View) : Prop
  | same (hadds : Adds Still v.log v'.log)
      (hlive : v.ctl.live.lookup id ≠ none → v'.ctl.live.lookup id ≠ none)
      (hdisk : v.ctl.live.lookup id = none → v.log.Terminal id → v'.log.Terminal id)
  | admitted {log₁ : Log} (hadds : Adds Still v.log log₁) (hlog : v'.log = .admitted id :: log₁)
      (hlive : v'.ctl.live.lookup id ≠ none)
  | removed {log₀ log₁ log₂ : Log} {m : Meta} (hadds : Adds Still v.log log₀)
      (hlive : ∃ job, v.ctl.live.lookup id = some job ∧ m.id = job.jobMeta.id)
      (hterm : isTerminalState m.state = true) (hsave : Saved o log₀ id m log₁)
      (hmid : Adds Mute log₁ log₂) (hlog : Adds Mute (.removed id :: log₂) v'.log)

/-- What is added without touching records leaves the terminal ones. -/
theorem Adds.terminal (h : Adds Log.IsQuiet log log') {id : ℕ} (hterm : log.Terminal id) :
    log'.Terminal id := by
  obtain ⟨new, rfl, hnew⟩ := h
  obtain ⟨m, hdisk, hstate⟩ := hterm
  exact ⟨m, (Log.disk_quiets hnew log id).trans hdisk, hstate⟩

/-- Finishing a job removes it. -/
theorem Finish.turnover {id : ℕ} {job job' : LiveJob} {c c' : Controller} {log₀ : Log} {v v' : View}
    (h : Finish o id job' c log₀ c' v'.log) (hadds : Adds Still v.log log₀)
    (hlive : v.ctl.live.lookup id = some job) (hmeta : job'.jobMeta = job.jobMeta) :
    Turnover o id v v' := by
  generalize hlog : v'.log = log' at h
  obtain @⟨t, m, state, write, log₁, log₂, inspect, hinspect, hpersist, hsave⟩ := h
  obtain ⟨hid, hterm⟩ := settle_state job'.stopReason (judgedJob job' t).jobMeta
    (resultsOk (judgedJob job' t) inspect)
  have hadds₁ : Adds Still v.log log₁ :=
    hadds.persisted (fun _ _ => ⟨trivial, trivial⟩) (fun _ => trivial) hpersist
  have hfinal : Adds Mute log₂ (.finalized id state (judgedJob job' t)
      inspect write :: log₂) := (Adds.refl log₂).cons trivial
  refine .removed hadds₁ ⟨job, hlive, ?_⟩ (hpersist.terminal hterm) hsave hfinal
    (by rw [hlog]; exact .refl _)
  rw [Meta.setState_id, hpersist.id_eq, hid, ← hmeta]
  rfl

/-- One effect that touches neither records nor the live jobs. -/
theorem turnover_quiet {id : ℕ} {c : Controller} {e : Effect} (hstill : Still e)
    (hquiet : Log.IsQuiet e) : Turnover o id ⟨c, log⟩ ⟨c, e :: log⟩ :=
  .same ((Adds.refl log).cons hstill) (fun h => h)
    fun _ => Adds.terminal ((Adds.refl log).cons hquiet)

/-- **How a step changes who is live.** -/
theorem Step.turnover {id : ℕ} {v v' : View} (h : Step o g id v v') : Turnover o id v v' := by
  have hsaved : ∀ {m : Meta} {log log' : Log}, Saved o log id m log' → Adds Still log log' :=
    fun hsave => Adds.saved (.refl _) trivial trivial hsave
  have hopen : ∀ {m : Meta}, v.log.disk id = some m → isTerminalState m.state = false →
      ∀ {P : Prop}, v.log.Terminal id → P := fun hdisk hno _ hterm =>
    absurd hterm (by
      rintro ⟨m', hdisk', hterm'⟩
      cases hdisk.symm.trans hdisk'
      cases hno.symm.trans hterm')
  have hlived : ∀ {job : LiveJob} {P : Prop}, v.ctl.live.lookup id = some job →
      v.ctl.live.lookup id = none → P := by
    intro job P hlive hnone
    cases hlive.symm.trans hnone
  cases h with
  | started => exact .same (.refl _) (fun h => h) fun _ h => h
  | @recoverFail c log log' _ m t kills hlive hdisk hprog hkills hsave =>
    have hkilled : Adds Still log (kills ++ log) := (Adds.refl log).append fun e he => by
      obtain ⟨_, _, rfl⟩ := hkills e he
      trivial
    have hno : isTerminalState m.state = false := by
      rcases hprog with hstate | hstate | hstate <;> rw [hstate] <;> rfl
    exact .same (hkilled.trans (hsaved hsave)) (fun h => h) fun _ => hopen hdisk hno
  | cancelLate _ _ hdisk hno hsave =>
    exact .same (hsaved hsave) (fun h => h) fun _ => hopen hdisk hno
  | reject _ _ hdisk hno _ hsave =>
    exact .same (hsaved hsave) (fun h => h) fun _ => hopen hdisk hno
  | enter _ _ _ _ _ _ hsave =>
    refine .admitted (hsaved hsave) rfl ?_
    rw [AList.lookup_insert]
    exact Option.some_ne_none _
  | @launchFail c c' log log' _ job m hjob hid hstate hsave _ =>
    exact .removed (.refl _) ⟨job, hjob.live, hid⟩ (by rw [hstate]; rfl) hsave (.refl _) (.refl _)
  | @launchSpawnFail c log log₁ log₂ log' _ n job m m' procs hjob _ _ hid hstate t hstart hfork
      hsave =>
    have hforked : Adds Still log log₂ := (hsaved hstart).forked (fun _ _ _ => trivial) hfork
    have hkilled := hforked.killed (fun _ _ _ => trivial) (fun _ _ => trivial) (fun _ => trivial) procs
    exact .removed hkilled ⟨job, hjob.live, hid⟩ (by rw [hstate]; rfl) hsave (.refl _) (.refl _)
  | @launch c log log₁ log₂ log' _ call job m procs deadlineId t hjob bytes t' _ _ hstart hfork
      hrun =>
    have hforked : Adds Still log log₂ := (hsaved hstart).forked (fun _ _ _ => trivial) hfork
    refine .same (hforked.trans (hsaved hrun)) (fun _ => ?_) (hlived hjob.live)
    rw [AList.lookup_insert]
    exact Option.some_ne_none _
  | cancelNothing => exact turnover_quiet trivial trivial
  | cancelRecord _ hdisk hno hsave =>
    exact .same ((hsaved hsave).cons trivial) (fun h => h) fun _ => hopen hdisk hno
  | @cancelQueued c log log' _ job t hlive _ hsave =>
    have hlog : Adds Mute (.removed id :: log') (.cancelled id :: .removed id :: log') :=
      (Adds.refl _).cons trivial
    refine .removed (m := ((job.jobMeta.setState "cancelled").setError
      "cancelled before start").setFinished t) (.refl _) ⟨job, hlive, rfl⟩ rfl hsave (.refl _) hlog
  | cancelRunning => exact turnover_quiet trivial trivial
  | @stop c log _ now job reason hlive =>
    have hstop : Adds Still log (.stop id reason :: log) := (Adds.refl log).cons trivial
    refine .same (hstop.signals (fun _ _ _ => trivial) job sigterm) (fun _ => ?_) (hlived hlive)
    rw [AList.lookup_insert]
    exact Option.some_ne_none _
  | stopAgain hlive =>
    exact .same ((Adds.refl _).cons trivial) (fun h => h) (hlived hlive)
  | escalate hlive =>
    refine .same ((Adds.refl _).signals (fun _ _ _ => trivial) _ _) (fun _ => ?_) (hlived hlive)
    rw [AList.lookup_insert]
    exact Option.some_ne_none _
  | shutdown => exact .same (.refl _) (fun h => h) fun _ h => h
  | reapUnknown => exact turnover_quiet trivial trivial
  | reapSome _ _ hlive =>
    refine .same ((Adds.refl _).cons trivial) (fun _ => ?_) (hlived hlive)
    rw [AList.lookup_insert]
    exact Option.some_ne_none _
  | @reapBad c log l status _ now job _ _ hlive =>
    have hreap : Adds Still log (.reap l.child :: log) := (Adds.refl log).cons trivial
    have hstop : Adds Still log (.stop id "failed" :: .reap l.child :: log) := hreap.cons trivial
    refine .same (hstop.signals (fun _ _ _ => trivial) _ _) (fun _ => ?_) (hlived hlive)
    rw [AList.lookup_insert]
    exact Option.some_ne_none _
  | @reapLast c c' log log' l status _ job _ _ hlive _ _ _ hfinish =>
    have hreap : Adds Still log (.reap l.child :: log) := (Adds.refl log).cons trivial
    exact @Finish.turnover o id job _ c c' _ ⟨c, log⟩ ⟨c', log'⟩ hfinish hreap hlive rfl
  | @reapLastBad c c' log log' l status _ now job _ _ hlive _ _ _ _ hfinish =>
    have hreap : Adds Still log (.reap l.child :: log) := (Adds.refl log).cons trivial
    have hstop : Adds Still log (.stop id "failed" :: .reap l.child :: log) := hreap.cons trivial
    exact @Finish.turnover o id job _ c c' _ ⟨c, log⟩ ⟨c', log'⟩ hfinish hstop hlive rfl
  | workerExit => exact turnover_quiet trivial trivial
  | workerOutput => exact turnover_quiet trivial trivial
  | memberSpawned => exact turnover_quiet trivial trivial
  | memberGone => exact turnover_quiet trivial trivial
  | @workerRegion c log l e f _ _ hf =>
    have he : Still e ∧ Log.IsQuiet e := by
      rcases hf with ⟨_, -, rfl, -⟩ | ⟨rfl, -⟩ <;> exact ⟨trivial, trivial⟩
    refine .same ((Adds.refl log).cons he.1) (fun hne => ?_)
      fun _ => Adds.terminal ((Adds.refl log).cons he.2)
    dsimp only
    split
    · exact hne
    · split_ifs
      · rw [AList.lookup_insert]
        exact Option.some_ne_none _
      · exact hne
  | @record c log _ m hnew =>
    refine .same ((Adds.refl _).cons trivial) (fun h => h) fun _ hterm => ?_
    obtain ⟨m', hdisk, -⟩ := hterm
    cases hnew.symm.trans hdisk

/-! ## The log -/

/-- A job leaves with a terminal record, if the record was put in place. -/
def RemovedOk : Effect → Log → Prop
  | .removed id, past => past.kept id = true → past.Terminal id
  | _, _ => True

/-- Every `save_meta` call with which the controller takes leave of a job puts the
    record in place. -/
def KeptOk : Effect → Log → Prop
  | .removed id, past => past.kept id = true
  | _, _ => True

/-- A terminal record that was put in place is there. -/
theorem Saved.terminal {id : ℕ} {m : Meta} (h : Saved o log id m log') (hid : m.id = id)
    (hterm : isTerminalState m.state = true) (hkept : log'.kept id = true) : log'.Terminal id := by
  cases h with
  | written => exact ⟨m, hid ▸ Log.disk_save id m log, hterm⟩
  | lost => simp [Log.kept] at hkept

theorem Adds.mute (h : Adds Mute log log') (id : ℕ) :
    log'.kept id = log.kept id ∧ (log.Terminal id → log'.Terminal id) := by
  obtain ⟨new, rfl, hnew⟩ := h
  induction new with
  | nil => exact ⟨rfl, fun h => h⟩
  | cons e new ih =>
    obtain ⟨hkept, hterm⟩ := ih fun e' he' => hnew e' (List.mem_cons_of_mem e he')
    have he := hnew e List.mem_cons_self
    cases e with
    | finalized _ _ _ _ _ => exact ⟨hkept, hterm⟩
    | cancelled _ => exact ⟨hkept, hterm⟩
    | _ => exact he.elim

theorem Adds.still (h : Adds Still log log') :
    log'.accepted = log.accepted ∧ ∀ {ok : Effect → Log → Prop},
      (∀ e past, Still e → ok e past) → History.All ok log → History.All ok log' := by
  obtain ⟨new, rfl, hnew⟩ := h
  constructor
  · induction new with
    | nil => rfl
    | cons e new ih =>
      have hrest := ih fun e' he' => hnew e' (List.mem_cons_of_mem e he')
      have he := hnew e List.mem_cons_self
      cases e with
      | admitted _ => exact he.elim
      | died => exact he.elim
      | _ => exact hrest
  · exact fun hok => History.all_append fun e he past _ => hok e past (hnew e he)

theorem mute_still {e : Effect} (h : Mute e) : Still e := by
  cases e <;> trivial

theorem removedOk_still (e : Effect) (past : Log) (h : Still e) : RemovedOk e past := by
  cases e <;> trivial

/-! ## Runs -/

/-- No accepted job has been forgotten, as long as saves succeed or at least the
    records of the jobs that have left were put in place. -/
structure Followed (o : Oracle) (v : View) : Prop where
  ordered : Ordered v
  removed : History.All RemovedOk v.log
  accepted : o.SavesAlways ∨ History.All KeptOk v.log → ∀ id ∈ v.log.accepted,
    v.ctl.live.lookup id ≠ none ∨ v.log.Terminal id

/-- **Every step keeps each accepted job live, or its record terminal.** -/
theorem Followed.step (hg : ∀ id m, g.record id m → m.id = id) {id₀ : ℕ} {v v' : View}
    (hv : Followed o v) (h : Step o g id₀ v v') : Followed o v' := by
  have hord := h.ordered hg hv.ordered
  have hothers := h.concerns.2
  -- the jobs that the step is not about
  have hother : ∀ id, id ≠ id₀ → v.ctl.live.lookup id ≠ none ∨ v.log.Terminal id →
      v'.ctl.live.lookup id ≠ none ∨ v'.log.Terminal id := by
    rintro id hne (hlive | ⟨m, hdisk, hterm⟩)
    · left
      rw [hothers id hne]
      exact hlive
    · exact Or.inr ⟨m, (h.disk_other hv.ordered hne).trans hdisk, hterm⟩
  have hkept : o.SavesAlways ∨ History.All KeptOk v'.log →
      o.SavesAlways ∨ History.All KeptOk v.log :=
    Or.imp_right fun hall => hall.suffix h.grows.suffix
  rcases h.turnover with ⟨hadds, hlive, hdisk⟩ | ⟨hadds, hlog, hlive⟩ |
    ⟨hadds, ⟨job, hlive, hid⟩, hterm, hsave, hmid, hlog⟩
  · obtain ⟨haccepted, hall⟩ := hadds.still
    refine ⟨hord, hall removedOk_still hv.removed, fun hok id hmem => ?_⟩
    rw [haccepted] at hmem
    have hold := hv.accepted (hkept hok) id hmem
    by_cases hne : id = id₀
    · subst hne
      by_cases hnone : v.ctl.live.lookup id = none
      · exact Or.inr (hdisk hnone (hold.resolve_left fun hno => hno hnone))
      · exact Or.inl (hlive hnone)
    · exact hother id hne hold
  · obtain ⟨haccepted, hall⟩ := hadds.still
    refine ⟨hord, ?_, fun hok id hmem => ?_⟩
    · rw [hlog]
      exact ⟨trivial, hall removedOk_still hv.removed⟩
    · by_cases hne : id = id₀
      · subst hne
        exact Or.inl hlive
      · rw [hlog] at hmem
        rcases List.mem_cons.mp hmem with hmem | hmem
        · exact absurd hmem hne
        · rw [haccepted] at hmem
          exact hother id hne (hv.accepted (hkept hok) id hmem)
  · rename_i log₀ log₁ log₂ m
    have hidm : m.id = id₀ := hid.trans (hv.ordered.live id₀ job hlive)
    have hstill : Adds Still v.log log₂ :=
      (hadds.saved trivial trivial hsave).trans (hmid.imp fun _ => mute_still)
    obtain ⟨haccepted, hall⟩ := hstill.still
    obtain ⟨haccepted', hall'⟩ := (hlog.imp fun _ => mute_still).still
    have hterminal : log₂.kept id₀ = true → log₂.Terminal id₀ := by
      intro hk
      obtain ⟨hkept₂, hterm₂⟩ := hmid.mute id₀
      rw [hkept₂] at hk
      exact hterm₂ (hsave.terminal hidm hterm hk)
    have hremoved : History.All RemovedOk (.removed id₀ :: log₂) :=
      ⟨hterminal, hall removedOk_still hv.removed⟩
    refine ⟨hord, hall' removedOk_still hremoved, fun hok id hmem => ?_⟩
    by_cases hne : id = id₀
    · subst hne
      have hok₂ : log₂.kept id = true := by
        rcases hok with ho | hok
        · rw [(hmid.mute id).1, hsave.eq ho]
          simp [Log.kept]
        · exact (hok.suffix hlog.suffix).1
      exact Or.inr ((hlog.mute id).2 (hterminal hok₂))
    · rw [haccepted'] at hmem
      have hmem : id ∈ log₂.accepted := hmem
      rw [haccepted] at hmem
      exact hother id hne (hv.accepted (hkept hok) id hmem)

/-- A new controller has accepted no job. -/
theorem Followed.fresh (hids : log.IdsMatch) (hall : History.All RemovedOk log)
    (hnone : log.accepted = []) (slots : ℕ) : Followed o ⟨{ slotsMax := slots }, log⟩ where
  ordered := ⟨hids, by simp [Controller.LiveIds]⟩
  removed := hall
  accepted := by simp [hnone]

/-- An oracle on which the disk is full from the `n`-th call on. -/
def Oracle.full (n : ℕ) : Oracle :=
  { Oracle.smooth (fun _ _ => 7) with
    save := fun k => if k < n then .ok
      else .failed "write: No space left on device (errno 28)" false }

end Forge
