import Forge.Store.AtomicWrite
import Forge.Store.Codec

/-!
# What the writers do to the disk

Any number of processes write files at the same time. `Sound` is what holds of
the disk throughout, `DiskChange` lists what a call of a writer may do to it, and
`Advances` and `Spares` say what the other processes may rely on.

* `Lawful.change`: a call that a writer makes is one of the changes.
* `DiskChange.sound`, `DiskChange.advances`, `DiskChange.spares`: what each change keeps.
-/

namespace Forge

open CrashFs

/-! ## The invariant -/

/-- A record that is read as saying that the output is there: a built-in job has
    completed. -/
def Payload.Promises : Payload → Prop
  | .record m => trimText m.state = "completed" ∧ trimText m.op ≠ "exec"
  | .output _ _ _ => False

/-- The inode holds on the disk what its writer meant to write as file `s` of the
    job whose directory is `d`. -/
structure Whole (fs : Disk) (d : ℕ) (s : String) (i : ℕ) : Prop where
  synced : fs.synced i = true
  complete : ∃ t, fs.tag i = some t ∧ fs.data i = t.payload.bytes ∧ t.payload.name = s ∧
    t.payload.Ended ∧ ∀ a, MayName fs jobsDir (.job a) d → t.payload.job = a

/-- What holds of the names throughout. A name that a crash may leave is bound by
    the same rules as one that the running system sees. -/
structure Named (fs : Disk) : Prop where
  root : jobsDir < fs.next
  fresh : ∀ d n i, MayName fs d n i → d < fs.next ∧ i < fs.next
  stays : ∀ u ∈ fs.pending, ∀ d n, u.at d n = some none → ∃ s p, n = .tmp s p
  jobs : ∀ a d, MayName fs jobsDir (.job a) d → fs.live jobsDir (.job a) = some d ∧ d ≠ jobsDir
  homes : ∀ a b d, MayName fs jobsDir (.job a) d → MayName fs jobsDir (.job b) d → a = b
  single : ∀ d s p i d' s' p', MayName fs d (.tmp s p) i → MayName fs d' (.tmp s' p') i →
    d' = d ∧ s' = s ∧ p' = p
  apart : ∀ d s p i, fs.live d (.tmp s p) = some i → ∀ d' s', ¬ MayName fs d' (.file s') i
  split : ∀ kept : List (Update EntryName), kept.Sublist fs.pending → ∀ d s p i,
    kept.foldl Update.apply fs.durable d (.tmp s p) = some i →
    ∀ d' s', kept.foldl Update.apply fs.durable d' (.file s') ≠ some i

/-- What holds of the disk throughout, when the payloads in `P` promise an output. -/
structure Sound (P : Payload → Prop) (fs : Disk) : Prop where
  named : Named fs
  tagged : ∀ i t, fs.tag i = some t → i < fs.next
  owned : ∀ d s p i, MayName fs d (.tmp s p) i → ∃ t, fs.tag i = some t ∧ t.pid = p
  whole : ∀ d s i, MayName fs d (.file s) i → Whole fs d s i
  promised : ∀ d i t, MayName fs d (.file "meta") i → fs.tag i = some t → P t.payload →
    Certain fs d (.file "output")

/-- A file that was renamed to its name and will not be written again. -/
structure Lasting (fs : Disk) (d : ℕ) (s : String) (i : ℕ) (t : FileTag) : Prop where
  kept : CrashFs.Kept fs d (.file s) i
  tag : fs.tag i = some t
  dead : ∀ d' s' p, ¬ MayName fs d' (.tmp s' p) i

/-- What every process leaves to all. -/
structure Advances (fs fs' : Disk) : Prop where
  jobs : ∀ a d, fs.live jobsDir (.job a) = some d → fs'.live jobsDir (.job a) = some d
  durable : fs'.durable jobsDir = fs.durable jobsDir
  certain : ∀ d s, Certain fs d (.file s) → Certain fs' d (.file s)
  since : ∀ d s i, LiveSince fs d (.file s) i → LiveSince fs' d (.file s) i
  lasting : ∀ d s i t, Lasting fs d s i t → Lasting fs' d s i t

/-- What the others leave to process `p`: its temporary files, which get no other
    temporary names. -/
structure Spares (p : ℕ) (fs fs' : Disk) : Prop where
  owned : ∀ i t, fs.tag i = some t → t.pid = p →
    fs'.tag i = some t ∧ fs'.data i = fs.data i ∧ fs'.synced i = fs.synced i
  tmp : ∀ d s, fs'.live d (.tmp s p) = fs.live d (.tmp s p)
  gone : ∀ d s i t, fs.tag i = some t → t.pid = p → MayName fs' d (.tmp s p) i →
    MayName fs d (.tmp s p) i

/-! ## Changes -/

/-- What a call of a writer may do to the disk. -/
inductive DiskChange (P : Payload → Prop) (p : ℕ) (fs : Disk) : Disk → Prop
  | same : DiskChange P p fs fs
  | mkdir {a : ℕ} (h : fs.live jobsDir (.job a) = none) :
      DiskChange P p fs (fs.push ⟨jobsDir, [(.job a, some fs.next)]⟩).alloc
  | create {a d : ℕ} {s : String} {t : FileTag} (hdir : fs.live jobsDir (.job a) = some d)
      (hpid : t.pid = p) :
      DiskChange P p fs (((fs.push ⟨d, [(.tmp s p, some fs.next)]⟩).store fs.next [] false).setTag
        fs.next t).alloc
  | reuse {d i : ℕ} {s : String} {t : FileTag} (h : fs.live d (.tmp s p) = some i)
      (hpid : t.pid = p) : DiskChange P p fs ((fs.store i [] false).setTag i t)
  | store {d i : ℕ} {s : String} {data : Bytes} {synced : Bool}
      (h : fs.live d (.tmp s p) = some i) : DiskChange P p fs (fs.store i data synced)
  | rename {d i : ℕ} {t : FileTag} (hdir : fs.live jobsDir (.job t.payload.job) = some d)
      (h : fs.live d (.tmp t.payload.name p) = some i) (htag : fs.tag i = some t)
      (hdata : fs.data i = t.payload.bytes) (hsynced : fs.synced i = true)
      (hended : t.payload.Ended) (hpromise : P t.payload → Certain fs d (.file "output")) :
      DiskChange P p fs ((fs.push ⟨d, [(.file t.payload.name, some i),
        (.tmp t.payload.name p, none)]⟩).note d (.file t.payload.name) i)
  | unlink {d : ℕ} {s : String} : DiskChange P p fs (fs.push ⟨d, [(.tmp s p, none)]⟩)
  | flush {d : ℕ} (hdir : d ≠ jobsDir) : DiskChange P p fs (fs.flush d)

/-- The calls that a writer makes. -/
inductive Lawful (P : Payload → Prop) (p : ℕ) (fs : Disk) : Call EntryName UInt8 FileTag → Prop
  | mkdir {a : ℕ} : Lawful P p fs (.mkdir jobsDir (.job a))
  | openDir {a : ℕ} : Lawful P p fs (.openDir jobsDir (.job a))
  | create {a d : ℕ} {s : String} {excl : Bool} {t : FileTag}
      (hdir : fs.live jobsDir (.job a) = some d) (hpid : t.pid = p) :
      Lawful P p fs (.create d (.tmp s p) excl t)
  | write {d i : ℕ} {s : String} {data : Bytes} (h : fs.live d (.tmp s p) = some i) :
      Lawful P p fs (.write i data)
  | fsync {d i : ℕ} {s : String} (h : fs.live d (.tmp s p) = some i) : Lawful P p fs (.fsync i)
  | rename {d i : ℕ} {t : FileTag} (hdir : fs.live jobsDir (.job t.payload.job) = some d)
      (h : fs.live d (.tmp t.payload.name p) = some i) (htag : fs.tag i = some t)
      (hdata : fs.data i = t.payload.bytes) (hsynced : fs.synced i = true)
      (hended : t.payload.Ended) (hpromise : P t.payload → Certain fs d (.file "output")) :
      Lawful P p fs (.rename d (.tmp t.payload.name p) (.file t.payload.name))
  | unlink {d : ℕ} {s : String} : Lawful P p fs (.unlink d (.tmp s p))
  | fsyncDir {d : ℕ} (hdir : d ≠ jobsDir) : Lawful P p fs (.fsyncDir d)

variable {P : Payload → Prop} {p : ℕ} {fs fs' : Disk}

/-- **A lawful call is one of the changes.** -/
theorem Lawful.change {c : Call EntryName UInt8 FileTag} {r : Reply} (h : Lawful P p fs c)
    (hstep : CrashFs.Step c fs r fs') : DiskChange P p fs fs' := by
  obtain ⟨outcome, hexec⟩ := hstep
  cases outcome with
  | error errno =>
    cases hexec
    exact .same
  | ok count =>
    unfold exec succeed at hexec
    cases h with
    | mkdir =>
      dsimp only at hexec
      split at hexec
      · cases hexec
        exact .same
      · next hnone =>
        cases hexec
        exact .mkdir hnone
    | openDir =>
      dsimp only at hexec
      split at hexec <;> cases hexec <;> exact .same
    | create hdir hpid =>
      dsimp only at hexec
      split at hexec
      · next i hlive =>
        split_ifs at hexec <;> cases hexec
        · exact .same
        · exact .reuse hlive hpid
      · cases hexec
        exact .create hdir hpid
    | write h =>
      cases hexec
      exact .store h
    | fsync h =>
      cases hexec
      exact .store h
    | rename hdir h htag hdata hsynced hended hpromise =>
      dsimp only at hexec
      rw [h] at hexec
      cases hexec
      exact .rename hdir h htag hdata hsynced hended hpromise
    | unlink =>
      dsimp only at hexec
      split at hexec
      · cases hexec
        exact .unlink
      · cases hexec
        exact .same
    | fsyncDir hdir =>
      cases hexec
      exact .flush hdir

/-! ## Updates of one name -/

@[simp] theorem at_single {d d' : ℕ} {n n' : EntryName} {e : Option ℕ} :
    Update.at ⟨d, [(n, e)]⟩ d' n' = if d' = d ∧ n' = n then some e else none := by
  unfold Update.at
  by_cases hd : d' = d
  · by_cases hn : n' = n
    · simp [hd, hn]
    · simp [hd, hn, List.lookup, beq_eq_false_iff_ne.mpr hn]
  · simp [hd]

@[simp] theorem at_pair {d d' : ℕ} {n₁ n₂ n' : EntryName} {e₁ e₂ : Option ℕ} :
    Update.at ⟨d, [(n₁, e₁), (n₂, e₂)]⟩ d' n' =
      if d' = d then if n' = n₁ then some e₁ else if n' = n₂ then some e₂ else none else none := by
  unfold Update.at
  by_cases hd : d' = d
  · by_cases hn₁ : n' = n₁
    · simp [hd, hn₁]
    · by_cases hn₂ : n' = n₂
      · subst hn₂
        simp [hd, hn₁, List.lookup, beq_eq_false_iff_ne.mpr hn₁]
      · simp [hd, hn₁, hn₂, List.lookup, beq_eq_false_iff_ne.mpr hn₁, beq_eq_false_iff_ne.mpr hn₂]
  · simp [hd]

/-! ## What each change does to the names -/

theorem mayName_single {d d' j : ℕ} {n n' : EntryName} {e : Option ℕ} :
    MayName (fs.push ⟨d, [(n, e)]⟩) d' n' j ↔
      MayName fs d' n' j ∨ (d' = d ∧ n' = n) ∧ e = some j := by
  rw [mayName_push, at_single]
  split_ifs with h
  · simp [h]
  · simp [h]

theorem mayName_rename {d d' i j : ℕ} {s : String} {p : ℕ} {n' : EntryName} :
    MayName (fs.push ⟨d, [(.file s, some i), (.tmp s p, none)]⟩) d' n' j ↔
      MayName fs d' n' j ∨ d' = d ∧ n' = .file s ∧ j = i := by
  rw [mayName_push, at_pair]
  by_cases hd : d' = d
  · by_cases hn : n' = .file s
    · simp [hd, hn, eq_comm]
    · by_cases hn' : n' = .tmp s p <;> simp [hd, hn, hn']
  · simp [hd]

/-- The update of a rename, as far as the files go. -/
theorem renames_pair {d i : ℕ} {s₀ : String} {p : ℕ} (d' : ℕ) (s : String) :
    Renames (⟨d, [(.file s₀, some i), (.tmp s₀ p, none)]⟩ : Update EntryName) d (.file s₀) i d'
      (.file s) := by
  unfold Renames
  rw [at_pair]
  by_cases hd : d' = d
  · by_cases hn : s = s₀
    · subst hd hn
      exact Or.inr ⟨by simp, rfl, rfl⟩
    · exact Or.inl (by simp [hn])
  · exact Or.inl (if_neg hd)

/-- What a crash keeps of one more update. -/
theorem kept_push {kept us : List (Update EntryName)} {u : Update EntryName}
    {names : Names EntryName} (h : kept.Sublist (us ++ [u])) :
    ∃ old : List (Update EntryName), old.Sublist us ∧
      (kept.foldl Update.apply names = old.foldl Update.apply names ∨
        ∀ d n, kept.foldl Update.apply names d n =
          (u.at d n).getD (old.foldl Update.apply names d n)) := by
  obtain ⟨old, last, rfl, hold, hlast⟩ := List.sublist_append_iff.mp h
  refine ⟨old, hold, ?_⟩
  rcases List.sublist_singleton.mp hlast with rfl | rfl
  · exact Or.inl (by rw [List.append_nil])
  · refine Or.inr fun d n => ?_
    rw [List.foldl_append]
    rfl

namespace Named

/-- The names do not depend on the contents. -/
theorem congr (h : Named fs) (hnext : fs'.next = fs.next) (hdurable : fs'.durable = fs.durable)
    (hpending : fs'.pending = fs.pending) : Named fs' := by
  have hlive : fs'.live = fs.live := by rw [Fs.live, Fs.live, hdurable, hpending]
  have hmay : ∀ d n i, MayName fs' d n i ↔ MayName fs d n i := by
    intro d n i
    rw [MayName, MayName, hdurable, hpending]
  constructor
  · rw [hnext]
    exact h.root
  · simpa only [hmay, hnext] using h.fresh
  · rw [hpending]
    exact h.stays
  · simpa only [hmay, hlive] using h.jobs
  · simpa only [hmay] using h.homes
  · simpa only [hmay] using h.single
  · simpa only [hmay, hlive] using h.apart
  · rw [hdurable, hpending]
    exact h.split

/-- What a crash leaves is among the names it may leave. -/
theorem mayName_of_kept {kept : List (Update EntryName)} (hkept : kept.Sublist fs.pending) {d i : ℕ}
    {n : EntryName} (h : kept.foldl Update.apply fs.durable d n = some i) : MayName fs d n i :=
  (foldl_apply_mem h).imp_right fun ⟨u, hu, hat⟩ => ⟨u, hkept.subset hu, hat⟩

theorem mkdir (h : Named fs) {a : ℕ} (hnone : fs.live jobsDir (.job a) = none) :
    Named (fs.push ⟨jobsDir, [(.job a, some fs.next)]⟩).alloc := by
  have hroot := h.root
  have hold : ∀ {d n i}, MayName fs d n i → d < fs.next ∧ i < fs.next := fun hi => h.fresh _ _ _ hi
  constructor
  case root => exact Nat.lt_succ_of_lt hroot
  case fresh =>
    intro d n i hi
    rw [mayName_alloc, mayName_single] at hi
    change d < fs.next + 1 ∧ i < fs.next + 1
    rcases hi with hi | ⟨⟨rfl, -⟩, hi⟩
    · have := hold hi
      omega
    · cases hi
      omega
  case stays =>
    intro u hu d n hat
    rcases List.mem_append.mp hu with hu | hu
    · exact h.stays u hu d n hat
    · cases List.mem_singleton.mp hu
      simp at hat
  case jobs =>
    intro b d hb
    rw [mayName_alloc, mayName_single] at hb
    rw [live_alloc, live_push, at_single]
    rcases hb with hb | ⟨⟨-, hba⟩, hd⟩
    · obtain ⟨hlive, hne⟩ := h.jobs b d hb
      have hba : b ≠ a := by
        rintro rfl
        cases hnone.symm.trans hlive
      simp [hba, hlive, hne]
    · cases hba
      cases hd
      simp [hroot.ne']
  case homes =>
    intro a' b d ha hb
    rw [mayName_alloc, mayName_single] at ha hb
    rcases ha with ha | ⟨⟨-, ha⟩, hd⟩ <;> rcases hb with hb | ⟨⟨-, hb⟩, hd'⟩
    · exact h.homes a' b d ha hb
    · cases hd'
      exact absurd (hold ha).2 (lt_irrefl _)
    · cases hd
      exact absurd (hold hb).2 (lt_irrefl _)
    · cases ha
      cases hb
      rfl
  case single =>
    intro d s p i d' s' p' hi hi'
    rw [mayName_alloc, mayName_single] at hi hi'
    exact h.single d s p i d' s' p' (by simpa using hi) (by simpa using hi')
  case apart =>
    intro d s p i hi d' s' hn
    rw [live_alloc, live_push] at hi
    rw [mayName_alloc, mayName_single] at hn
    exact h.apart d s p i (by simpa using hi) d' s' (by simpa using hn)
  case split =>
    intro kept hkept d s p i hi d' s' hfile
    obtain ⟨old, hold, heq | heq⟩ := kept_push hkept
    · change kept.foldl Update.apply fs.durable = _ at heq
      change kept.foldl Update.apply fs.durable _ _ = _ at hi hfile
      rw [heq] at hi hfile
      exact h.split old hold d s p i hi d' s' hfile
    · change kept.foldl Update.apply fs.durable _ _ = _ at hi hfile
      rw [heq] at hi hfile
      exact h.split old hold d s p i (by simpa using hi) d' s' (by simpa using hfile)

theorem create (h : Named fs) {a d : ℕ} {s : String} {p : ℕ}
    (hdir : fs.live jobsDir (.job a) = some d) :
    Named (fs.push ⟨d, [(.tmp s p, some fs.next)]⟩).alloc := by
  have hold : ∀ {d n i}, MayName fs d n i → d < fs.next ∧ i < fs.next := fun hi => h.fresh _ _ _ hi
  constructor
  case root => exact Nat.lt_succ_of_lt h.root
  case fresh =>
    intro d' n i hi
    rw [mayName_alloc, mayName_single] at hi
    change d' < fs.next + 1 ∧ i < fs.next + 1
    rcases hi with hi | ⟨⟨rfl, -⟩, hi⟩
    · have := hold hi
      omega
    · have := (hold (mayName_of_live hdir)).2
      cases hi
      omega
  case stays =>
    intro u hu d n hat
    rcases List.mem_append.mp hu with hu | hu
    · exact h.stays u hu d n hat
    · cases List.mem_singleton.mp hu
      simp at hat
  case jobs =>
    intro b d' hb
    rw [mayName_alloc, mayName_single] at hb
    rw [live_alloc, live_push]
    simpa using h.jobs b d' (by simpa using hb)
  case homes =>
    intro a' b d' ha hb
    rw [mayName_alloc, mayName_single] at ha hb
    exact h.homes a' b d' (by simpa using ha) (by simpa using hb)
  case single =>
    intro d₁ s₁ p₁ i d₂ s₂ p₂ h₁ h₂
    rw [mayName_alloc, mayName_single] at h₁ h₂
    rcases h₁ with h₁ | ⟨⟨rfl, heq₁⟩, hi₁⟩ <;> rcases h₂ with h₂ | ⟨⟨rfl, heq₂⟩, hi₂⟩
    · exact h.single d₁ s₁ p₁ i d₂ s₂ p₂ h₁ h₂
    · cases hi₂
      exact absurd (hold h₁).2 (lt_irrefl _)
    · cases hi₁
      exact absurd (hold h₂).2 (lt_irrefl _)
    · cases heq₁
      cases heq₂
      exact ⟨rfl, rfl, rfl⟩
  case apart =>
    intro d₁ s₁ p₁ i h₁ d' s' hn
    rw [live_alloc, live_push, at_single] at h₁
    rw [mayName_alloc, mayName_single] at hn
    have hn : MayName fs d' (.file s') i := by simpa using hn
    split_ifs at h₁
    · cases h₁
      exact absurd (hold hn).2 (lt_irrefl _)
    · exact h.apart d₁ s₁ p₁ i h₁ d' s' hn
  case split =>
    intro kept hkept d₁ s₁ p₁ i hi d' s' hfile
    obtain ⟨old, hsub, heq | heq⟩ := kept_push hkept
    · change kept.foldl Update.apply fs.durable = _ at heq
      change kept.foldl Update.apply fs.durable _ _ = _ at hi hfile
      rw [heq] at hi hfile
      exact h.split old hsub d₁ s₁ p₁ i hi d' s' hfile
    · change kept.foldl Update.apply fs.durable _ _ = _ at hi hfile
      rw [heq, at_single] at hi hfile
      have hfile : old.foldl Update.apply fs.durable d' (.file s') = some i := by simpa using hfile
      split_ifs at hi
      · cases hi
        exact absurd (hold (mayName_of_kept hsub hfile)).2 (lt_irrefl _)
      · exact h.split old hsub d₁ s₁ p₁ i hi d' s' hfile

theorem rename (h : Named fs) {a d i : ℕ} {s : String} {p : ℕ}
    (hdir : fs.live jobsDir (.job a) = some d) (hi : fs.live d (.tmp s p) = some i) :
    Named ((fs.push ⟨d, [(.file s, some i), (.tmp s p, none)]⟩).note d (.file s) i) := by
  have hmay := mayName_of_live hi
  have hfresh := h.fresh _ _ _ hmay
  -- what is still under a temporary name is another inode
  have hother : ∀ {names : Names EntryName} {d' : ℕ} {s' : String} {q j : ℕ},
      (∀ {d n k}, names d n = some k → MayName fs d n k) →
      (Update.at (⟨d, [(.file s, some i), (.tmp s p, none)]⟩ : Update EntryName) d'
        (.tmp s' q)).getD
        (names d' (.tmp s' q)) = some j → names d' (.tmp s' q) = some j ∧ j ≠ i := by
    intro names d' s' q j hnames hj
    rw [at_pair] at hj
    by_cases hsame : d' = d ∧ s' = s ∧ q = p
    · obtain ⟨rfl, rfl, rfl⟩ := hsame
      simp at hj
    · have hj' : names d' (.tmp s' q) = some j := by
        split_ifs at hj with hd hfile htmp
        · cases hfile
        · cases htmp
          exact absurd ⟨hd, rfl, rfl⟩ hsame
        · exact hj
        · exact hj
      refine ⟨hj', ?_⟩
      rintro rfl
      exact hsame (h.single d s p j d' s' q hmay (hnames hj'))
  constructor
  case root => exact h.root
  case fresh =>
    intro d' n j hj
    rw [mayName_note, mayName_rename] at hj
    rcases hj with hj | ⟨rfl, rfl, rfl⟩
    · exact h.fresh d' n j hj
    · exact hfresh
  case stays =>
    intro u hu d' n hat
    rcases List.mem_append.mp hu with hu | hu
    · exact h.stays u hu d' n hat
    · cases List.mem_singleton.mp hu
      rw [at_pair] at hat
      split_ifs at hat with _ _ htmp
      · cases hat
      · exact ⟨s, p, htmp⟩
  case jobs =>
    intro b d' hb
    rw [mayName_note, mayName_rename] at hb
    rw [live_note, live_push]
    simpa using h.jobs b d' (by simpa using hb)
  case homes =>
    intro a' b d' ha hb
    rw [mayName_note, mayName_rename] at ha hb
    exact h.homes a' b d' (by simpa using ha) (by simpa using hb)
  case single =>
    intro d₁ s₁ p₁ j d₂ s₂ p₂ h₁ h₂
    rw [mayName_note, mayName_rename] at h₁ h₂
    exact h.single d₁ s₁ p₁ j d₂ s₂ p₂ (by simpa using h₁) (by simpa using h₂)
  case apart =>
    intro d₁ s₁ p₁ j h₁ d' s' hn
    rw [live_note, live_push] at h₁
    obtain ⟨h₁, hne⟩ := hother mayName_of_live h₁
    rw [mayName_note, mayName_rename] at hn
    rcases hn with hn | ⟨-, -, hj⟩
    · exact h.apart d₁ s₁ p₁ j h₁ d' s' hn
    · exact hne hj
  case split =>
    intro kept hkept d₁ s₁ p₁ j hj d' s' hfile
    obtain ⟨old, hsub, heq | heq⟩ := kept_push hkept
    · change kept.foldl Update.apply fs.durable = _ at heq
      change kept.foldl Update.apply fs.durable _ _ = _ at hj hfile
      rw [heq] at hj hfile
      exact h.split old hsub d₁ s₁ p₁ j hj d' s' hfile
    · change kept.foldl Update.apply fs.durable _ _ = _ at hj hfile
      rw [heq] at hj hfile
      obtain ⟨hj, hne⟩ := hother (mayName_of_kept hsub) hj
      rw [at_pair] at hfile
      split_ifs at hfile with _ _ htmp
      · cases hfile
        exact hne rfl
      · cases htmp
      · exact h.split old hsub d₁ s₁ p₁ j hj d' s' hfile
      · exact h.split old hsub d₁ s₁ p₁ j hj d' s' hfile

/-- Names may get lost, but none of the jobs that the running system sees. -/
theorem shrink (h : Named fs) (hnext : fs'.next = fs.next)
    (hstays : ∀ u ∈ fs'.pending, ∀ d n, u.at d n = some none → ∃ s p, n = .tmp s p)
    (hmay : ∀ {d n i}, MayName fs' d n i → MayName fs d n i)
    (hjobs : ∀ {a d}, MayName fs' jobsDir (.job a) d → fs'.live jobsDir (.job a) = some d)
    (hapart : ∀ d s p i, fs'.live d (.tmp s p) = some i → ∀ d' s', ¬ MayName fs' d' (.file s') i)
    (hsplit : ∀ kept : List (Update EntryName), kept.Sublist fs'.pending → ∀ d s p i,
      kept.foldl Update.apply fs'.durable d (.tmp s p) = some i →
      ∀ d' s', kept.foldl Update.apply fs'.durable d' (.file s') ≠ some i) : Named fs' := by
  constructor
  case root =>
    rw [hnext]
    exact h.root
  case fresh =>
    rw [hnext]
    exact fun d n i hi => h.fresh d n i (hmay hi)
  case stays => exact hstays
  case jobs => exact fun a d hd => ⟨hjobs hd, (h.jobs a d (hmay hd)).2⟩
  case homes => exact fun a b d ha hb => h.homes a b d (hmay ha) (hmay hb)
  case single =>
    intro d₁ s₁ p₁ j d₂ s₂ p₂ h₁ h₂
    exact h.single d₁ s₁ p₁ j d₂ s₂ p₂ (hmay h₁) (hmay h₂)
  case apart => exact hapart
  case split => exact hsplit

theorem unlink (h : Named fs) {d : ℕ} {s : String} {p : ℕ} :
    Named (fs.push ⟨d, [(.tmp s p, none)]⟩) := by
  have hmay : ∀ {d' n j}, MayName (fs.push ⟨d, [(.tmp s p, none)]⟩) d' n j → MayName fs d' n j := by
    intro d' n j hj
    rw [mayName_single] at hj
    simpa using hj
  have hremoved : ∀ {names : Names EntryName} {d' : ℕ} {n : EntryName} {j : ℕ},
      (Update.at (⟨d, [(.tmp s p, none)]⟩ : Update EntryName) d' n).getD (names d' n) = some j →
        names d' n = some j := by
    intro names d' n j hj
    rw [at_single] at hj
    split_ifs at hj
    · cases hj
    · exact hj
  refine h.shrink rfl (fun u hu d' n hat => ?_) hmay (fun {a d'} ha => ?_)
    (fun d₁ s₁ p₁ i h₁ d' s' hn => ?_) fun kept hkept d₁ s₁ p₁ i h₁ d' s' hfile => ?_
  · rcases List.mem_append.mp hu with hu | hu
    · exact h.stays u hu d' n hat
    · cases List.mem_singleton.mp hu
      rw [at_single] at hat
      split_ifs at hat with heq
      exact ⟨s, p, heq.2⟩
  · rw [live_push]
    simpa using (h.jobs a d' (hmay ha)).1
  · rw [live_push] at h₁
    exact h.apart d₁ s₁ p₁ i (hremoved h₁) d' s' (hmay hn)
  · obtain ⟨old, hsub, heq | heq⟩ := kept_push hkept
    · change kept.foldl Update.apply fs.durable = _ at heq
      change kept.foldl Update.apply fs.durable _ _ = _ at h₁ hfile
      rw [heq] at h₁ hfile
      exact h.split old hsub d₁ s₁ p₁ i h₁ d' s' hfile
    · change kept.foldl Update.apply fs.durable _ _ = _ at h₁ hfile
      rw [heq] at h₁ hfile
      exact h.split old hsub d₁ s₁ p₁ i (hremoved h₁) d' s' (hremoved hfile)

theorem flush (h : Named fs) (d : ℕ) : Named (fs.flush d) := by
  refine h.shrink rfl (fun u hu => h.stays u (List.mem_filter.mp hu).1) .of_flush
    (fun {a d'} ha => ?_) (fun d₁ s₁ p₁ i h₁ d' s' hn => ?_)
    fun kept hkept d₁ s₁ p₁ i h₁ d' s' hfile => ?_
  · rw [live_flush]
    exact (h.jobs a d' ha.of_flush).1
  · rw [live_flush] at h₁
    exact h.apart d₁ s₁ p₁ i h₁ d' s' hn.of_flush
  · obtain ⟨all, hsub, heq⟩ := exists_names_of_flush hkept
    rw [← heq] at h₁ hfile
    exact h.split all hsub d₁ s₁ p₁ i h₁ d' s' hfile

theorem restart (h : Named fs) (c : Crash fs) : Named c.restart := by
  have hnames : ∀ {d n i}, MayName c.restart d n i → c.names d n = some i := by
    rintro d n i (hi | ⟨u, hu, -⟩)
    · exact hi
    · cases hu
  refine h.shrink rfl (fun u hu => by cases hu) c.mayName_restart (fun ha => hnames ha)
    (fun d s p i hi d' s' hn => ?_) fun kept hkept d s p i hi d' s' hfile => ?_
  · exact h.split c.kept c.kept_sublist d s p i hi d' s' (hnames hn)
  · cases List.sublist_nil.mp hkept
    exact h.split c.kept c.kept_sublist d s p i hi d' s' hfile

end Named

/-! ## The invariant along a change -/

/-- A file keeps its contents as long as its inode is left alone and the
    directory becomes nobody else's. -/
theorem Whole.mono {d i : ℕ} {s : String} (h : Whole fs d s i) (htag : fs'.tag i = fs.tag i)
    (hdata : fs'.data i = fs.data i) (hsynced : fs'.synced i = fs.synced i)
    (hjobs : ∀ a, MayName fs' jobsDir (.job a) d → MayName fs jobsDir (.job a) d) :
    Whole fs' d s i := by
  obtain ⟨t, ht, hbytes, hname, hended, hhome⟩ := h.complete
  exact ⟨hsynced.trans h.synced, t, htag.trans ht, hdata.trans hbytes, hname, hended,
    fun a ha => hhome a (hjobs a ha)⟩

namespace Sound

/-- A change of inode `i` alone, which no crash leaves under a file's name. -/
theorem touch (h : Sound P fs) {i : ℕ} (hi : ∀ d s, ¬ MayName fs d (.file s) i)
    (hnext : fs'.next = fs.next) (hdurable : fs'.durable = fs.durable)
    (hpending : fs'.pending = fs.pending)
    (hsame : ∀ j, j ≠ i → fs'.tag j = fs.tag j ∧ fs'.data j = fs.data j ∧
      fs'.synced j = fs.synced j)
    (htag : ∀ t, fs'.tag i = some t → i < fs.next)
    (howned : ∀ d s p, MayName fs d (.tmp s p) i → ∃ t, fs'.tag i = some t ∧ t.pid = p) :
    Sound P fs' := by
  have hmay : ∀ {d n j}, MayName fs' d n j ↔ MayName fs d n j := by
    intro d n j
    rw [MayName, MayName, hdurable, hpending]
  have hne : ∀ {d s j}, MayName fs d (.file s) j → j ≠ i := by
    rintro d s j hj rfl
    exact hi d s hj
  constructor
  case named => exact h.named.congr hnext hdurable hpending
  case tagged =>
    intro j t hj
    rw [hnext]
    by_cases hji : j = i
    · subst hji
      exact htag t hj
    · exact h.tagged j t ((hsame j hji).1.symm.trans hj)
  case owned =>
    intro d s p j hj
    rw [hmay] at hj
    by_cases hji : j = i
    · subst hji
      exact howned d s p hj
    · rw [(hsame j hji).1]
      exact h.owned d s p j hj
  case whole =>
    intro d s j hj
    rw [hmay] at hj
    obtain ⟨htag', hdata, hsynced⟩ := hsame j (hne hj)
    exact (h.whole d s j hj).mono htag' hdata hsynced fun a ha => hmay.mp ha
  case promised =>
    intro d j t hj ht hp
    rw [hmay] at hj
    rw [(hsame j (hne hj)).1] at ht
    have hcertain := h.promised d j t hj ht hp
    rwa [Certain, hdurable, hpending]

/-- A change of the names alone. -/
theorem shift (h : Sound P fs) (hnamed : Named fs') (hnext : fs.next ≤ fs'.next)
    (htag : fs'.tag = fs.tag) (hdata : fs'.data = fs.data) (hsynced : fs'.synced = fs.synced)
    (htmp : ∀ {d s p i}, MayName fs' d (.tmp s p) i → MayName fs d (.tmp s p) i)
    (hfile : ∀ {d s i}, MayName fs' d (.file s) i → MayName fs d (.file s) i)
    (hjob : ∀ {a d}, d < fs.next → MayName fs' jobsDir (.job a) d → MayName fs jobsDir (.job a) d)
    (hcertain : ∀ {d s}, Certain fs d (.file s) → Certain fs' d (.file s)) : Sound P fs' := by
  constructor
  case named => exact hnamed
  case tagged =>
    rw [htag]
    exact fun i t ht => lt_of_lt_of_le (h.tagged i t ht) hnext
  case owned =>
    rw [htag]
    exact fun d s p i hi => h.owned d s p i (htmp hi)
  case whole =>
    intro d s i hi
    have hd := (h.named.fresh d _ i (hfile hi)).1
    exact (h.whole d s i (hfile hi)).mono (by rw [htag]) (by rw [hdata]) (by rw [hsynced])
      fun a ha => hjob hd ha
  case promised =>
    rw [htag]
    exact fun d i t hi ht hp => hcertain (h.promised d i t (hfile hi) ht hp)

/-- A crash leaves the disk sound. -/
theorem restart (h : Sound P fs) (c : Crash fs) : Sound P c.restart := by
  constructor
  case named => exact h.named.restart c
  case tagged => exact h.tagged
  case owned => exact fun d s p i hi => h.owned d s p i (c.mayName_restart hi)
  case whole =>
    intro d s i hi
    have hwhole := h.whole d s i (c.mayName_restart hi)
    refine hwhole.mono rfl (c.data_synced i hwhole.synced) hwhole.synced.symm ?_
    exact fun a ha => c.mayName_restart ha
  case promised =>
    intro d i t hi ht hp
    exact c.certain_restart (h.promised d i t (c.mayName_restart hi) ht hp)

end Sound

/-- **Every change keeps the disk sound.** -/
theorem DiskChange.sound (h : DiskChange P p fs fs') (hs : Sound P fs) : Sound P fs' := by
  have hnamed := hs.named
  cases h with
  | same => exact hs
  | @mkdir a hnone =>
    refine hs.shift (hnamed.mkdir hnone) (Nat.le_succ _) rfl rfl rfl (fun hi => ?_) (fun hi => ?_)
      (fun hd hi => ?_) fun h => certain_push.mpr ⟨h, by simp⟩
    · rw [mayName_alloc, mayName_single] at hi
      simpa using hi
    · rw [mayName_alloc, mayName_single] at hi
      simpa using hi
    · rw [mayName_alloc, mayName_single] at hi
      rcases hi with hi | ⟨-, hi⟩
      · exact hi
      · cases hi
        exact absurd hd (lt_irrefl _)
  | @create a d s t hdir hpid =>
    -- the names change, and then the new inode, which no file's name refers to
    let named : Disk := (fs.push ⟨d, [(.tmp s p, some fs.next)]⟩).alloc
    have hold : ∀ {d n i}, MayName fs d n i → i ≠ fs.next := fun hi => (hnamed.fresh _ _ _ hi).2.ne
    have hfile : ∀ {d' s' i}, MayName named d' (.file s') i → MayName fs d' (.file s') i := by
      intro d' s' i hi
      rw [mayName_alloc, mayName_single] at hi
      simpa using hi
    have hjob : ∀ {b d'}, MayName named jobsDir (.job b) d' → MayName fs jobsDir (.job b) d' := by
      intro b d' hi
      rw [mayName_alloc, mayName_single] at hi
      simpa using hi
    have hcertain : ∀ {d' s'}, Certain fs d' (.file s') → Certain named d' (.file s') :=
      fun h => certain_push.mpr ⟨h, by simp⟩
    constructor
    case named => exact (hnamed.create hdir).congr rfl rfl rfl
    case tagged =>
      intro i t' ht
      change i < fs.next + 1
      by_cases hi : i = fs.next
      · omega
      · have := hs.tagged i t' ((Function.update_of_ne hi _ _).symm.trans ht)
        omega
    case owned =>
      intro d' s' q i hi
      rw [mayName_alloc, mayName_setTag, mayName_store, mayName_single] at hi
      rcases hi with hi | ⟨⟨-, heq⟩, hi⟩
      · obtain ⟨t', ht, hq⟩ := hs.owned d' s' q i hi
        exact ⟨t', (Function.update_of_ne (hold hi) _ _).trans ht, hq⟩
      · cases heq
        cases hi
        exact ⟨t, Function.update_self _ _ _, hpid⟩
    case whole =>
      intro d' s' i hi
      have hne := hold (hfile hi)
      exact (hs.whole d' s' i (hfile hi)).mono (Function.update_of_ne hne _ _)
        (Function.update_of_ne hne _ _) (Function.update_of_ne hne _ _) fun b hb => hjob hb
    case promised =>
      intro d' i t' hi ht hp
      have hne := hold (hfile hi)
      exact hcertain (hs.promised d' i t' (hfile hi)
        ((Function.update_of_ne hne _ _).symm.trans ht) hp)
  | @reuse d i s t hlive hpid =>
    have hmay := mayName_of_live hlive
    refine hs.touch (hnamed.apart d s p i hlive) rfl rfl rfl (fun j hj => ?_)
      (fun _ _ => (hnamed.fresh _ _ _ hmay).2) fun d' s' q hq => ?_
    · exact ⟨Function.update_of_ne hj _ _, Function.update_of_ne hj _ _,
        Function.update_of_ne hj _ _⟩
    · obtain ⟨-, -, rfl⟩ := hnamed.single _ _ _ _ _ _ _ hmay hq
      exact ⟨t, Function.update_self _ _ _, hpid⟩
  | @store d i s data synced hlive =>
    have hmay := mayName_of_live hlive
    refine hs.touch (hnamed.apart d s p i hlive) rfl rfl rfl (fun j hj => ?_)
      (fun _ _ => (hnamed.fresh _ _ _ hmay).2) fun d' s' q hq => hs.owned d' s' q i hq
    exact ⟨rfl, Function.update_of_ne hj _ _, Function.update_of_ne hj _ _⟩
  | @rename d i t hdir hlive htag hdata hsynced hended hpromise =>
    have hadvances : ∀ {d' s'}, Certain fs d' (.file s') → Certain ((fs.push
        ⟨d, [(.file t.payload.name, some i), (.tmp t.payload.name p, none)]⟩).note d
          (.file t.payload.name) i) d' (.file s') := by
      intro d' s' h
      refine certain_push.mpr ⟨h, ?_⟩
      rcases @renames_pair d i t.payload.name p d' s' with h | ⟨h, -⟩ <;>
        simp [h]
    have hjob : ∀ {b d'}, MayName (fs.push
        ⟨d, [(.file t.payload.name, some i), (.tmp t.payload.name p, none)]⟩) jobsDir (.job b) d' →
          MayName fs jobsDir (.job b) d' := by
      intro b d' hi
      rw [mayName_rename] at hi
      simpa using hi
    constructor
    case named => exact hnamed.rename hdir hlive
    case tagged => exact hs.tagged
    case owned =>
      intro d' s' q j hj
      rw [mayName_note, mayName_rename] at hj
      exact hs.owned d' s' q j (by simpa using hj)
    case whole =>
      intro d' s' j hj
      rw [mayName_note, mayName_rename] at hj
      rcases hj with hj | ⟨rfl, heq, rfl⟩
      · exact (hs.whole d' s' j hj).mono rfl rfl rfl fun b hb => hjob hb
      · cases heq
        refine ⟨hsynced, t, htag, hdata, rfl, hended, fun b hb => ?_⟩
        exact hnamed.homes _ _ _ (mayName_of_live hdir) (hjob hb)
    case promised =>
      intro d' j t' hj ht hp
      rw [mayName_note, mayName_rename] at hj
      rcases hj with hj | ⟨rfl, -, rfl⟩
      · exact hadvances (hs.promised d' j t' hj ht hp)
      · cases htag.symm.trans ht
        exact hadvances (hpromise hp)
  | @unlink d s =>
    have hmay : ∀ {d' n i}, MayName (fs.push ⟨d, [(.tmp s p, none)]⟩) d' n i → MayName fs d' n i := by
      intro d' n i hi
      rw [mayName_single] at hi
      simpa using hi
    exact hs.shift hnamed.unlink le_rfl rfl rfl rfl hmay hmay (fun _ => hmay) fun h =>
      certain_push.mpr ⟨h, by simp⟩
  | @flush d hdir =>
    exact hs.shift (hnamed.flush d) le_rfl rfl rfl rfl .of_flush .of_flush (fun _ => .of_flush)
      .flush

/-! ## What the others may rely on -/

theorem Advances.refl (fs : Disk) : Advances fs fs where
  jobs := fun _ _ h => h
  durable := rfl
  certain := fun _ _ h => h
  since := fun _ _ _ h => h
  lasting := fun _ _ _ _ h => h

theorem Advances.trans {fs'' : Disk} (h : Advances fs fs') (h' : Advances fs' fs'') : Advances fs fs'' where
  jobs := fun a d hd => h'.jobs a d (h.jobs a d hd)
  durable := h'.durable.trans h.durable
  certain := fun d s hs => h'.certain d s (h.certain d s hs)
  since := fun d s i hs => h'.since d s i (h.since d s i hs)
  lasting := fun d s i t hs => h'.lasting d s i t (h.lasting d s i t hs)

theorem Spares.refl (p : ℕ) (fs : Disk) : Spares p fs fs :=
  ⟨fun _ _ h _ => ⟨h, rfl, rfl⟩, fun _ _ => rfl, fun _ _ _ _ _ _ h => h⟩

theorem Spares.trans {fs'' : Disk} (h : Spares p fs fs') (h' : Spares p fs' fs'') :
    Spares p fs fs'' := by
  refine ⟨fun i t htag hpid => ?_, fun d s => (h'.tmp d s).trans (h.tmp d s),
    fun d s i t htag hpid hi => ?_⟩
  · obtain ⟨htag₁, hdata₁, hsync₁⟩ := h.owned i t htag hpid
    obtain ⟨htag₂, hdata₂, hsync₂⟩ := h'.owned i t htag₁ hpid
    exact ⟨htag₂, hdata₂.trans hdata₁, hsync₂.trans hsync₁⟩
  · exact h.gone d s i t htag hpid (h'.gone d s i t (h.owned i t htag hpid).1 hpid hi)

/-- **Every change leaves the others what they rely on.** -/
theorem DiskChange.advances (h : DiskChange P p fs fs') (hs : Sound P fs) : Advances fs fs' := by
  cases h with
  | same => exact .refl fs
  | @mkdir a hnone =>
    refine ⟨fun a' d h => ?_, rfl, fun d s h => certain_push.mpr ⟨h, by simp⟩,
      fun d s i h => h.push (by simp), fun d s i t h => ⟨kept_alloc.mpr (h.kept.push (by simp)),
        h.tag, fun d' s' q hq => ?_⟩⟩
    · have hne : a' ≠ a := by
        rintro rfl
        cases hnone.symm.trans h
      rw [live_alloc, live_push]
      simpa [hne] using h
    · rw [mayName_alloc, mayName_single] at hq
      exact h.dead d' s' q (by simpa using hq)
  | @create a d s t hdir hpid =>
    refine ⟨fun a' d' h => ?_, rfl, fun d' s' h => certain_push.mpr ⟨h, by simp⟩,
      fun d' s' i h => h.push (by simp), fun d' s' i t' h => ?_⟩
    · rw [live_alloc, live_setTag, live_store, live_push]
      simpa using h
    · have hlt : i < fs.next := hs.tagged i t' h.tag
      refine ⟨?_, (Function.update_of_ne hlt.ne _ _).trans h.tag, fun d₁ s₁ q hq => ?_⟩
      · rw [kept_alloc, kept_setTag, kept_store]
        exact h.kept.push (by simp)
      · rw [mayName_alloc, mayName_setTag, mayName_store, mayName_single] at hq
        rcases hq with hq | ⟨-, hi⟩
        · exact h.dead d₁ s₁ q hq
        · cases hi
          exact lt_irrefl _ hlt
  | @reuse d i s t hlive hpid =>
    refine ⟨fun _ _ h => h, rfl, fun _ _ h => h, fun _ _ _ h => h, fun d' s' j t' h => ?_⟩
    have hne : j ≠ i := by
      rintro rfl
      exact h.dead d s p (mayName_of_live hlive)
    refine ⟨?_, (Function.update_of_ne hne _ _).trans h.tag, h.dead⟩
    rw [kept_setTag, kept_store]
    exact h.kept
  | store =>
    exact ⟨fun _ _ h => h, rfl, fun _ _ h => h, fun _ _ _ h => h,
      fun _ _ _ _ h => ⟨kept_store.mpr h.kept, h.tag, h.dead⟩⟩
  | @rename d i t hdir hlive htag hdata hsynced hended hpromise =>
    refine ⟨fun a d' h => ?_, rfl, fun d' s h => ?_, fun d' s j h => h.rename (renames_pair d' s),
      fun d' s j t' h => ⟨h.kept.rename (renames_pair d' s), h.tag, fun d₁ s₁ q hq => ?_⟩⟩
    · rw [live_note, live_push]
      simpa using h
    · refine certain_push.mpr ⟨h, ?_⟩
      rcases @renames_pair d i t.payload.name p d' s with h | ⟨h, -⟩ <;>
        simp [h]
    · rw [mayName_note, mayName_rename] at hq
      exact h.dead d₁ s₁ q (by simpa using hq)
  | unlink =>
    refine ⟨fun a d' h => ?_, rfl, fun d' s' h => certain_push.mpr ⟨h, by simp⟩,
      fun d' s' i h => h.push (by simp), fun d' s' i t h => ⟨h.kept.push (by simp), h.tag,
        fun d₁ s₁ q hq => ?_⟩⟩
    · rw [live_push]
      simpa using h
    · rw [mayName_single] at hq
      exact h.dead d₁ s₁ q (by simpa using hq)
  | @flush d hdir =>
    refine ⟨fun a d h => ?_, ?_, fun _ _ h => h.flush, fun _ _ _ h => h.flush,
      fun _ _ _ _ h => ⟨h.kept.flush, h.tag, fun d₁ s₁ q hq => h.dead d₁ s₁ q hq.of_flush⟩⟩
    · rw [live_flush]
      exact h
    · funext n
      exact flush_durable (Ne.symm hdir)

/-- **A process leaves the temporary files of the others alone.** -/
theorem DiskChange.spares (h : DiskChange P p fs fs') (hs : Sound P fs) {q : ℕ} (hq : q ≠ p) :
    Spares q fs fs' := by
  -- an inode under a temporary name of `p` is not one of `q`
  have hother : ∀ d s i j t, fs.live d (.tmp s p) = some i → fs.tag j = some t → t.pid = q →
      j ≠ i := by
    rintro d s i j t hlive htag hpid rfl
    obtain ⟨t', htag', hpid'⟩ := hs.owned d s p j (mayName_of_live hlive)
    cases htag.symm.trans htag'
    exact hq (hpid.symm.trans hpid')
  cases h with
  | same => exact .refl q fs
  | mkdir =>
    refine ⟨fun _ _ h _ => ⟨h, rfl, rfl⟩, fun d s => ?_, fun d s i t _ _ hi => ?_⟩
    · rw [live_alloc, live_push]
      simp
    · rw [mayName_alloc, mayName_single] at hi
      simpa using hi
  | @create a d s t hdir hpid =>
    refine ⟨fun i t' htag hpid' => ?_, fun d' s' => ?_, fun d' s' i t' _ _ hi => ?_⟩
    · have hne : i ≠ fs.next := (hs.tagged i t' htag).ne
      exact ⟨(Function.update_of_ne hne _ _).trans htag, Function.update_of_ne hne _ _,
        Function.update_of_ne hne _ _⟩
    · rw [live_alloc, live_setTag, live_store, live_push]
      simp [hq]
    · rw [mayName_alloc, mayName_setTag, mayName_store, mayName_single] at hi
      simpa [hq] using hi
  | @reuse d i s t hlive hpid =>
    refine ⟨fun j t' htag hpid' => ?_, fun _ _ => rfl, fun _ _ _ _ _ _ hi => hi⟩
    have hne := hother d s i j t' hlive htag hpid'
    exact ⟨(Function.update_of_ne hne _ _).trans htag, Function.update_of_ne hne _ _,
      Function.update_of_ne hne _ _⟩
  | @store d i s data synced hlive =>
    refine ⟨fun j t' htag hpid' => ?_, fun _ _ => rfl, fun _ _ _ _ _ _ hi => hi⟩
    have hne := hother d s i j t' hlive htag hpid'
    exact ⟨htag, Function.update_of_ne hne _ _, Function.update_of_ne hne _ _⟩
  | rename =>
    refine ⟨fun _ _ h _ => ⟨h, rfl, rfl⟩, fun d s => ?_, fun d s i t _ _ hi => ?_⟩
    · rw [live_note, live_push]
      simp [hq]
    · rw [mayName_note, mayName_rename] at hi
      simpa using hi
  | unlink =>
    refine ⟨fun _ _ h _ => ⟨h, rfl, rfl⟩, fun d s => ?_, fun d s i t _ _ hi => ?_⟩
    · rw [live_push]
      simp [hq]
    · rw [mayName_single] at hi
      simpa using hi
  | flush =>
    exact ⟨fun _ _ h _ => ⟨h, rfl, rfl⟩, fun d s => by rw [live_flush], fun _ _ _ _ _ _ hi =>
      hi.of_flush⟩

end Forge
