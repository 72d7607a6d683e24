import Forge.Controller.Workers

/-!
# What a job is judged on

`finalize` runs for a live job whose workers `waitid` has all returned. Each
`finalized` effect of the log keeps what `finalize` saw, and `Verdict` says where
it comes from.

* `Step.verdicts`: a job that a step judges gets one verdict.
* `run_verdicts`: every judgement in the log is a `Verdict`.
-/

namespace Forge

variable {o : Oracle} {g : Guard} {log log' : Log}

/-- The effect judges no job, and the controller lives on. -/
def Unjudging : Effect → Prop
  | .finalized _ _ _ _ _ => False
  | .died => False
  | _ => True

/-- The job has been judged on `log₀`, with all its workers reaped. -/
structure Verdict (o : Oracle) (id : ℕ) (state : String) (job : LiveJob)
    (inspect : Except String ℕ) (write : Option WriteAnswer) (past : Log) : Prop where
  judged : ∃ (log₀ log₁ : Log) (job₀ : LiveJob) (call : ℕ) (ws : List Launch) (t : ℤ) (m : Meta),
    Staffed log₀ id job₀ call ws ∧ job₀.allReaped = true ∧ job = judgedJob job₀ t ∧
    Inspected o job₀.jobMeta.id log₀ inspect ∧
    (let settled := settle job.stopReason job.jobMeta (resultsOk job inspect)
     Persisted o id settled.1 settled.2 log₀ (resultsOk job inspect) m state write log₁) ∧
    Saved o log₁ id (m.setState state) past

/-- Every judgement in the log is a verdict. -/
def VerdictOk (o : Oracle) : Effect → Log → Prop
  | .finalized id state job inspect write, past => Verdict o id state job inspect write past
  | _, _ => True

theorem Persisted.unnoticed {id : ℕ} {m m' : Meta} {state state' : String}
    {result : Except String String} {write : Option WriteAnswer}
    (h : Persisted o id m state log result m' state' write log') : Adds Unnoticed log log' :=
  (Adds.refl log).persisted (fun _ _ => ⟨trivial, trivial⟩) (fun _ => trivial) h

/-- What was known of the job when it was judged is still known when its record has
    been written. -/
theorem Verdict.staffed {id : ℕ} {state : String} {job : LiveJob} {inspect : Except String ℕ}
    {write : Option WriteAnswer} (h : Verdict o id state job inspect write log)
    (hall : History.All ChildOk log) :
    ∃ job₀ call ws t, job = judgedJob job₀ t ∧ job₀.allReaped = true ∧
      Staffed log id job₀ call ws := by
  obtain ⟨log₀, log₁, job₀, call, ws, t, m, hst, hreaped, hjob, -, hpersist, hsave⟩ := h.judged
  have hadds : Adds Unnoticed log₀ log :=
    Adds.trans hpersist.unnoticed ((Adds.refl log₁).saved trivial trivial hsave)
  exact ⟨job₀, call, ws, t, hjob, hreaped, hst.unnoticed hall hadds⟩

/-! ## Steps -/

theorem Adds.verdicts (h : Adds Unjudging log log') (hall : History.All (VerdictOk o) log) :
    History.All (VerdictOk o) log' := by
  obtain ⟨new, rfl, hnew⟩ := h
  refine History.all_append (fun e he past _ => ?_) hall
  have := hnew e he
  cases e with
  | finalized => exact this.elim
  | _ => trivial

theorem Persisted.unjudging {id : ℕ} {m m' : Meta} {state state' : String}
    {result : Except String String} {write : Option WriteAnswer}
    (h : Persisted o id m state log result m' state' write log') : Adds Unjudging log log' :=
  (Adds.refl log).persisted (fun _ _ => ⟨trivial, trivial⟩) (fun _ => trivial) h

/-- A job that is judged gets one verdict. -/
theorem Finish.verdicts {id call : ℕ} {job : LiveJob} {ws : List Launch} {c c' : Controller}
    (h : Finish o id job c log c' log') (hst : Staffed log id job call ws)
    (hreaped : job.allReaped = true) (hall : History.All (VerdictOk o) log) :
    History.All (VerdictOk o) log' := by
  obtain @⟨t, m, state, write, log₁, log₂, inspect, hinspect, hpersist, hsave⟩ := h
  have hpast : History.All (VerdictOk o) log₂ :=
    (hpersist.unjudging.trans ((Adds.refl log₁).saved trivial trivial hsave)).verdicts hall
  exact ⟨trivial, ⟨log, log₁, job, call, ws, t, m, hst, hreaped, rfl, hinspect, hpersist, hsave⟩,
    hpast⟩

/-- **Every step that judges a job does it on what the log says.** -/
theorem Step.verdicts {id : ℕ} {v v' : View} (hv : Crew v) (h : Step o g id v v')
    (hall : History.All (VerdictOk o) v.log) : History.All (VerdictOk o) v'.log := by
  have hold : Adds Unjudging v.log v'.log → History.All (VerdictOk o) v'.log :=
    fun hadds => hadds.verdicts hall
  have hsaved : ∀ {m : Meta} {log log' : Log}, Saved o log id m log' → Adds Unjudging log log' :=
    fun hsave => Adds.saved (.refl _) trivial trivial hsave
  have hforked : ∀ {call i : ℕ} {m : Meta} {ranges : List ByteRange} {procs : List ProcRef}
      {log log' : Log}, Forked id call m i ranges log procs log' → Adds Unjudging log log' :=
    fun hfork => Adds.forked (.refl _) (fun _ _ _ => trivial) hfork
  have hsignals : ∀ {job : LiveJob} {sig : ℕ} {log log' : Log}, Adds Unjudging log log' →
      Adds Unjudging log ((signalEffects job sig).reverse ++ log') :=
    fun hadds => hadds.signals (fun _ _ _ => trivial) _ _
  have hworker : ∀ {l : Launch} {status : WaitStatus} {job : LiveJob},
      Zombie g v.ctl v.log l status → v.ctl.pidOwner l.pid = some id →
      v.ctl.live.lookup id = some job →
      ∃ call ws, Staffed (.reap l.child :: v.log) id (reapedJob job l.pid status) call ws := by
    intro l status job hzombie howner hlive
    obtain ⟨call, ws, hst, hmem⟩ := hv.worker_of_owner hzombie howner hlive
    exact ⟨call, ws, hst.reap hmem hzombie.ended⟩
  cases h with
  | started => exact hall
  | recoverFail _ _ _ hkills hsave =>
    refine hold (((Adds.refl _).append fun e he => ?_).trans (hsaved hsave))
    obtain ⟨_, _, rfl⟩ := hkills e he
    trivial
  | cancelLate _ _ _ _ hsave => exact hold (hsaved hsave)
  | reject _ _ _ _ _ hsave => exact hold (hsaved hsave)
  | enter _ _ _ _ _ _ hsave => exact hold ((hsaved hsave).cons trivial)
  | launchFail _ _ _ hsave _ => exact hold ((hsaved hsave).cons trivial)
  | @launchSpawnFail c log log₁ log₂ log' _ n job m m' procs _ _ _ _ _ t hstart hfork hsave =>
    have hkilled : Adds Unjudging log (killedLog procs log₂) :=
      ((hsaved hstart).trans (hforked hfork)).killed (fun _ _ _ => trivial) (fun _ _ => trivial)
        (fun _ => trivial) procs
    exact hold ((hkilled.trans (hsaved hsave)).cons trivial)
  | launch _ _ _ hstart hfork hrun =>
    exact hold (((hsaved hstart).trans (hforked hfork)).trans (hsaved hrun))
  | cancelNothing => exact hold ((Adds.refl _).cons trivial)
  | cancelRecord _ _ _ hsave => exact hold ((hsaved hsave).cons trivial)
  | @cancelQueued c log log' _ job t _ _ hsave =>
    have hremoved : Adds Unjudging log (.removed id :: log') := (hsaved hsave).cons trivial
    exact hold (hremoved.cons trivial)
  | cancelRunning => exact hold ((Adds.refl _).cons trivial)
  | stop => exact hold (hsignals ((Adds.refl _).cons trivial))
  | stopAgain => exact hold ((Adds.refl _).cons trivial)
  | escalate => exact hold (hsignals (.refl _))
  | shutdown => exact hall
  | reapUnknown => exact hold ((Adds.refl _).cons trivial)
  | reapSome => exact hold ((Adds.refl _).cons trivial)
  | @reapBad c log l status =>
    have hreap : Adds Unjudging log (.reap l.child :: log) := (Adds.refl log).cons trivial
    exact hold (hsignals (hreap.cons trivial))
  | @reapLast c c' log log' l status _ job hzombie howner hlive _ hdone _ hfinish =>
    obtain ⟨call, ws, hst⟩ := hworker hzombie howner hlive
    exact hfinish.verdicts hst hdone ⟨trivial, hall⟩
  | @reapLastBad c c' log log' l status _ now job hzombie howner hlive _ hdone _ hfirst hfinish =>
    obtain ⟨call, ws, hst⟩ := hworker hzombie howner hlive
    exact hfinish.verdicts (hst.stop hfirst now) hdone ⟨trivial, trivial, hall⟩
  | workerExit => exact hold ((Adds.refl _).cons trivial)
  | workerOutput => exact hold ((Adds.refl _).cons trivial)
  | memberSpawned => exact hold ((Adds.refl _).cons trivial)
  | memberGone => exact hold ((Adds.refl _).cons trivial)
  | workerRegion _ _ hf =>
    refine hold ((Adds.refl _).cons ?_)
    rcases hf with ⟨_, -, rfl, -⟩ | ⟨rfl, -⟩ <;> trivial
  | record => exact hold ((Adds.refl _).cons trivial)

/-- **Every judgement of a run is a verdict.** -/
theorem run_verdicts (o : Oracle) (slots : ℕ) (es : List Event) :
    let v := (Machine.run (World.step o) (World.start slots) es).view
    Crew v ∧ History.All (VerdictOk o) v.log :=
  run_view (g := .any) (P := fun v => Crew v ∧ History.All (VerdictOk o) v.log)
    (fun slots => ⟨@Crew.fresh [] trivial trivial rfl slots, trivial⟩)
    (fun _ _ _ hv h => ⟨hv.1.step h, h.verdicts hv.1 hv.2⟩)
    (fun _ _ slots hv hsuf => ⟨hv.1.crash hsuf slots, trivial, hv.2.suffix hsuf⟩) (along_any _ es)

end Forge
