import Forge.Client.Numbers
import Forge.Controller.Scheduling

/-!
# Records that are loaded, changed and saved

`enqueue`, `on_cancel` and `recover` (controller.cpp:454-488, 635-664, 781-808)
load a record, change its state, and save it. `text_to_meta` accepts more texts than
`meta_to_text` writes, so that a loaded record may be one that cannot be written.

* `textToMeta_typed`: what is read fits the C++ types.
* `enqueue_change`, `onCancel_change`, `recoverJob_change`: what
  the handlers save is a `RecordChange` of what they loaded.
* `rewrite_readable`: exactly which loaded records survive a change.
-/

namespace Forge

open KeyValue

variable {o : Oracle}

/-! ## The changes -/

/-- What the controller changes in a loaded record before it saves it. -/
inductive RecordChange where
  /-- `enqueue` admits the job. -/
  | queued
  /-- `enqueue` rejects the job, or `recover` finds it in progress. -/
  | failed (error : String) (finishedMs : ℤ)
  /-- `on_cancel`, or `enqueue` while the controller shuts down. -/
  | cancelled (error : String) (finishedMs : ℤ)

namespace RecordChange

def apply (m : Meta) : RecordChange → Meta
  | queued => m.setState "queued"
  | failed error finishedMs => ((m.setState "failed").setError error).setFinished finishedMs
  | cancelled error finishedMs => ((m.setState "cancelled").setError error).setFinished finishedMs

/-- The state that is saved. -/
def state : RecordChange → String
  | queued => "queued"
  | failed _ _ => "failed"
  | cancelled _ _ => "cancelled"

/-- The error text that is saved. -/
def error (m : Meta) : RecordChange → String
  | queued => m.error
  | failed error _ => error
  | cancelled error _ => error

/-- The error text has no line break, and the time is an `int64_t`. -/
def Fits : RecordChange → Prop
  | queued => True
  | failed error finishedMs | cancelled error finishedMs =>
    '\n' ∉ error.toList ∧ -2 ^ 63 ≤ finishedMs ∧ finishedMs < 2 ^ 63

/-- The texts of the new record, apart from its state. -/
def texts (m : Meta) (c : RecordChange) : List String :=
  [m.op, m.input, m.execPath, m.io, m.procs, m.exits, m.digest, c.error m]

theorem apply_texts (m : Meta) (c : RecordChange) : (c.apply m).texts = c.state :: c.texts m := by
  cases c <;> rfl

theorem apply_id (m : Meta) (c : RecordChange) : (c.apply m).id = m.id := by
  cases c <;> rfl

theorem apply_op (m : Meta) (c : RecordChange) : (c.apply m).op = m.op := by
  cases c <;> rfl

theorem apply_workers (m : Meta) (c : RecordChange) : (c.apply m).workers = m.workers := by
  cases c <;> rfl

theorem apply_typed {m : Meta} {c : RecordChange} (hm : m.Typed) (hc : c.Fits) :
    (c.apply m).Typed := by
  cases c with
  | queued => exact { hm with }
  | failed error finishedMs => exact { hm with finishedMs := hc.2 }
  | cancelled error finishedMs => exact { hm with finishedMs := hc.2 }

theorem apply_oneLine {m : Meta} {c : RecordChange} (hm : m.OneLine) (hc : c.Fits) :
    (c.apply m).OneLine := by
  have hstate : '\n' ∉ c.state.toList := by
    cases c <;> simp [state]
  have herror : '\n' ∉ (c.error m).toList := by
    cases c with
    | queued => exact hm m.error (by simp [Meta.texts])
    | failed error finishedMs => exact hc.1
    | cancelled error finishedMs => exact hc.1
  unfold Meta.OneLine Meta.texts at hm
  simp only [List.forall_mem_cons] at hm
  unfold Meta.OneLine
  rw [apply_texts]
  unfold texts
  simp only [List.forall_mem_cons]
  exact ⟨hstate, hm.2.1, hm.2.2.1, hm.2.2.2.1, hm.2.2.2.2.1, hm.2.2.2.2.2.1, hm.2.2.2.2.2.2.1,
    hm.2.2.2.2.2.2.2.1, herror, by simp⟩

end RecordChange

/-! ## What is read fits the C++ types -/

theorem parseI64_range {text : List Char} {n : ℤ} (h : parseI64 text = some n) :
    -2 ^ 63 ≤ n ∧ n < 2 ^ 63 := by
  unfold parseI64 at h
  split at h
  · cases h
  · obtain ⟨mag, -, rfl⟩ := Option.map_eq_some_iff.mp h
    exact toInt64_range _
  · obtain ⟨mag, -, rfl⟩ := Option.map_eq_some_iff.mp h
    exact toInt64_range _

/-- A number is checked by its parser, or narrowed; a text has no bounds. -/
theorem assignMetaField_typed {m : Meta} {key val : String} (hm : m.Typed) :
    Yields Meta.Typed (assignMetaField m key val) := by
  obtain ⟨_, _, _, _, _, _, _, _, _, _, _, _, _, _⟩ := hm
  unfold assignMetaField
  repeat' refine Yields.ite (fun _ => ?_) ?_
  all_goals with_reducible first
    | apply Yields.ok
    | apply Yields.needU64; intro n hn; have hrange := parseU64_lt hn
    | apply Yields.needI64; intro n hn; have hrange := parseI64_range hn
  all_goals constructor
  all_goals with_reducible first | assumption | exact toInt_range _

/-- What is read fits the C++ types. -/
theorem textToMeta_typed {text : String} {m : Meta} (h : textToMeta text = .ok m) : m.Typed := by
  refine Yields.textToMeta (by constructor <;> norm_num) (fun line _ m hm => ?_) m h
  unfold readMetaLine
  refine Yields.ite (fun _ => .ok hm) ?_
  dsimp only
  split
  · exact fun _ heq => nomatch heq
  · exact assignMetaField_typed hm

theorem textToMeta_present {text : String} {m : Meta} (h : textToMeta text = .ok m) :
    m.id ≠ 0 ∧ m.op ≠ "" := by
  unfold textToMeta at h
  split at h
  · cases h
  · split_ifs at h with hmissing
    cases h
    rw [not_or, not_or] at hmissing
    exact ⟨hmissing.1, hmissing.2.1⟩

/-! ## What the handlers save -/

/-- The real-time clock fits an `int64_t`. -/
def Oracle.ClockFits (o : Oracle) : Prop :=
  ∀ k, -2 ^ 63 ≤ o.realtimeMs k ∧ o.realtimeMs k < 2 ^ 63

/-- A change of the record `m` has been saved, and nothing else has been written. -/
def SavesChange (o : Oracle) (id : ℕ) (m : Meta) (w w' : World) : Prop :=
  ∃ (c : RecordChange) (w₁ : World), c.Fits ∧ w₁.ctl = w.ctl ∧
    (∀ other, w₁.log.disk other = w.log.disk other) ∧ w' = (saveMeta o id (c.apply m) w₁).2

/-- The errors of `validate_meta` have no line break. -/
theorem validateMeta_oneLine {m : Meta} {err : String} (hm : m.OneLine)
    (h : validateMeta m = some err) : '\n' ∉ err.toList := by
  have hop : '\n' ∉ m.op.toList := hm m.op (by simp [Meta.texts])
  have hio : '\n' ∉ m.io.toList := hm m.io (by simp [Meta.texts])
  have hmax : '\n' ∉ kMaxWorkers.repr.toList := newline_notMem_int kMaxWorkers
  unfold validateMeta at h
  split_ifs at h <;> cases h
  all_goals simp [hop, hio, hmax]

theorem recoverJob_change (hclock : o.ClockFits) {id : ℕ} {m : Meta} {w : World}
    (hload : loadMeta o .recover id w = some m)
    (hprog : m.state = "running" ∨ m.state = "starting" ∨ m.state = "persisting") :
    SavesChange o id m w (recoverJob o w id) := by
  obtain ⟨hctl, kills, hkills, hlog⟩ := killLeftover_view (o := o) (parseProcs m.procs) w.ask
  unfold recoverJob
  rw [hload]
  dsimp only
  rw [if_pos hprog]
  generalize (parseProcs m.procs).foldl (killLeftover o) w.ask = w₁ at hctl hlog ⊢
  refine ⟨.failed "controller restarted while the job was in progress" (o.realtimeMs w₁.calls),
    w₁.ask, ⟨by decide, hclock _⟩, hctl, fun other => ?_, rfl⟩
  show w₁.log.disk other = _
  rw [hlog]
  refine Log.disk_quiets (fun e he => ?_) w.log other
  obtain ⟨_, _, rfl⟩ := hkills e he
  trivial

/-- What `enqueue` saves before it schedules, and what it saves instead. -/
theorem enqueue_change (hclock : o.ClockFits) {id : ℕ} {m : Meta} {w : World}
    (hload : loadMeta o .submit id w = some m) (hm : m.OneLine) :
    match enqueueSite o id w with
    | some site => ∃ w', SavesChange o id m w w' ∧ site.log = .admitted id :: w'.log
    | none => (enqueue o id w).view = w.view ∨ SavesChange o id m w (enqueue o id w) := by
  have hclosed : ∀ c : RecordChange, c.Fits →
      SavesChange o id m w (saveMeta o id (c.apply m) w.ask.ask).2 :=
    fun c hc => ⟨c, w.ask.ask, hc, rfl, fun _ => rfl, rfl⟩
  unfold enqueueSite enqueue
  rw [hload]
  dsimp only
  by_cases hdown : w.ctl.shuttingDown = true
  · simp only [hdown, true_or, if_true]
    split_ifs
    · exact .inl rfl
    · exact .inr (hclosed (.cancelled _ _) ⟨by decide, hclock _⟩)
  · by_cases hlive : (w.ctl.live.lookup id).isSome = true
    · simp only [hdown, hlive, true_or, or_true, if_true, if_false, Bool.false_eq_true]
    · simp only [hdown, hlive, or_self, if_false, Bool.false_eq_true]
      by_cases hterm : isTerminalState m.state = true
      · simp only [hterm, true_or, if_true]
        exact .inl rfl
      · cases hvalid : validateMeta m with
        | some err =>
          simp only [hterm, Option.isSome_some, or_true, if_true, if_false, Bool.false_eq_true]
          exact .inr (hclosed (.failed _ _) ⟨validateMeta_oneLine hm hvalid, hclock _⟩)
        | none =>
          simp only [hterm, Option.isSome_none, or_self, if_false, Bool.false_eq_true]
          exact ⟨_, ⟨.queued, w.ask, trivial, rfl, fun _ => rfl, rfl⟩, rfl⟩

/-- What `on_cancel` saves for a job that is not live. -/
theorem onCancel_change (hclock : o.ClockFits) {id : ℕ} {m : Meta} {w : World}
    (hload : loadMeta o .cancel id w = some m) (hnone : w.ctl.live.lookup id = none) :
    ∃ w', (w'.view = w.view ∨ SavesChange o id m w w') ∧
      onCancel o id w = w'.push (.cancelled id) := by
  unfold onCancel
  rw [hnone, hload]
  dsimp only
  split_ifs
  · exact ⟨w.ask, .inl rfl, rfl⟩
  · exact ⟨_, .inr ⟨.cancelled "cancelled" (o.realtimeMs w.ask.calls), w.ask.ask,
      ⟨by decide, hclock _⟩, rfl, fun _ => rfl, rfl⟩, rfl⟩

/-! ## The law -/

/-- **Load, change, save, exactly when it is a record again**: the number of workers
    is not negative, and no text that is written ends in a carriage return. -/
theorem rewrite_readable {text : String} {m : Meta} (hread : textToMeta text = .ok m)
    {c : RecordChange} (hc : c.Fits) :
    textToMeta (metaToText (c.apply m)) = .ok (c.apply m) ↔
      0 ≤ m.workers ∧ ∀ s ∈ c.texts m, s.toList.getLast? ≠ some '\r' := by
  obtain ⟨hid, hop⟩ := textToMeta_present hread
  have hstate : (c.apply m).state = c.state := by
    cases c <;> rfl
  have hnonempty : c.state ≠ "" := by
    cases c <;> simp [RecordChange.state]
  have hcr : c.state.toList.getLast? ≠ some '\r' := by
    cases c <;> simp [RecordChange.state]
  rw [textToMeta_eq_self_iff (c.apply_typed (textToMeta_typed hread) hc)
    (c.apply_oneLine (textToMeta_oneLine hread) hc), c.apply_id, c.apply_op, hstate,
    c.apply_workers, c.apply_texts, List.forall_mem_cons]
  constructor
  · rintro ⟨-, hworkers, -, htexts⟩
    exact ⟨hworkers, htexts⟩
  · rintro ⟨hworkers, htexts⟩
    exact ⟨⟨hid, hop, hnonempty⟩, hworkers, hcr, htexts⟩

/-- A record with Windows line ends, a comment and an unknown key. -/
theorem rewrite_readable_crlf :
    let m : Meta := { id := 7, op := "copy", input := "/a" }
    textToMeta "# job\nid=7\r\nop=count\r\nop=copy\r\ninput=/a\r\nhost=x\r\n" = .ok m ∧
      textToMeta (metaToText ((RecordChange.failed "bad" 5).apply m)) =
        .ok ((RecordChange.failed "bad" 5).apply m) := by
  intro m
  have hread : textToMeta "# job\nid=7\r\nop=count\r\nop=copy\r\ninput=/a\r\nhost=x\r\n" = .ok m := by
    decide +kernel
  exact ⟨hread, (rewrite_readable hread (show RecordChange.Fits (.failed "bad" 5) by simp [RecordChange.Fits])).mpr
    ⟨by simp [m], by simp [RecordChange.texts, RecordChange.error, m]⟩⟩

/-- What `enqueue` does to two records it rejects. A second carriage return is read as
    the end of the input's name, and is lost in the new record. A number of workers
    from `2^31` on is written as a negative one, and the new text is rejected. -/
theorem rewrite_loses :
    (∃ m, textToMeta "id=7\nop=copy\ninput=/a\r\r\n" = .ok m ∧ m.input = "/a\r" ∧
      ∃ err, validateMeta m = some err ∧
        textToMeta (metaToText ((RecordChange.failed err 5).apply m)) =
          .ok { (RecordChange.failed err 5).apply m with input := "/a" }) ∧
    ∃ m, textToMeta "id=7\nop=copy\ninput=/a\nworkers=4294967295\n" = .ok m ∧
      ∃ err, validateMeta m = some err ∧
        textToMeta (metaToText ((RecordChange.failed err 5).apply m)) =
          .error "bad number for workers" := by
  refine ⟨⟨{ id := 7, op := "copy", input := "/a\r" }, ?_, rfl,
      "paths and operation names cannot contain newlines", ?_, ?_⟩,
    ⟨{ id := 7, op := "copy", input := "/a", workers := -1 }, ?_,
      "workers must be between 1 and 16", ?_, ?_⟩⟩
  all_goals decide +kernel

end Forge
