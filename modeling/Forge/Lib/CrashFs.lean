import Mathlib.Data.List.Basic
import Mathlib.Logic.Function.Basic

/-!
# A filesystem that may lose what was not synced

Files are numbered inodes. The bytes of an inode are durable once it has been
synced after its last write. Directory entries are updated atomically, one
`Update` a call; an update is certain to survive only after its directory has
been synced. A crash keeps any of the pending updates, in order, and any bytes
in the inodes that were not synced.

* `MayName fs dir name i`: some crash leaves `name` referring to `i`.
* `Certain fs dir name`: every crash leaves `name` in the directory.
* `Crash.mayName`, `Crash.certain`: what the two say about a crash.
* `Kept fs dir name i`: every crash leaves `name` referring to `i` or to an inode
  that was renamed to it after `i`.
* `mayName_*`, `certain_*`, `live_*`: what each primitive does to them.
* `kept_flush`: a rename followed by a sync of the directory is kept.

Every inode carries a tag its creator gave it, and the renames are listed; no
operation reads either.
-/

namespace CrashFs

variable {N β τ : Type} [DecidableEq N]

/-! ## Directory entries -/

/-- The entries of all directories. -/
abbrev Names (N : Type) := ℕ → N → Option ℕ

/-- One atomic change of a directory. -/
structure Update (N : Type) where
  dir : ℕ
  entries : List (N × Option ℕ)

/-- What the update says about a name: nothing, removed, or the new inode. -/
def Update.at (u : Update N) (dir : ℕ) (name : N) : Option (Option ℕ) :=
  if dir = u.dir then u.entries.lookup name else none

def Update.apply (names : Names N) (u : Update N) : Names N :=
  fun dir name => (u.at dir name).getD (names dir name)

theorem foldl_apply_mem {us : List (Update N)} {names : Names N} {dir : ℕ} {name : N} {i : ℕ}
    (h : us.foldl Update.apply names dir name = some i) :
    names dir name = some i ∨ ∃ u ∈ us, u.at dir name = some (some i) := by
  induction us generalizing names with
  | nil => exact Or.inl h
  | cons u us ih =>
    rcases ih h with h | ⟨v, hv, hat⟩
    · cases hu : u.at dir name with
      | none => left; rwa [Update.apply, hu] at h
      | some e =>
        right
        rw [Update.apply, hu, Option.getD_some] at h
        exact ⟨u, List.mem_cons_self, by rw [hu, h]⟩
    · exact Or.inr ⟨v, List.mem_cons_of_mem u hv, hat⟩

theorem foldl_apply_isSome {us : List (Update N)} {names : Names N} {dir : ℕ} {name : N}
    (hn : (names dir name).isSome) (hus : ∀ u ∈ us, u.at dir name ≠ some none) :
    (us.foldl Update.apply names dir name).isSome := by
  induction us generalizing names with
  | nil => exact hn
  | cons u us ih =>
    apply ih _ fun v hv => hus v (List.mem_cons_of_mem u hv)
    have := hus u List.mem_cons_self
    rw [Update.apply]
    rcases hu : u.at dir name with _ | _ | i
    · exact hn
    · exact absurd hu this
    · rfl

/-- An entry depends on what it was before only. -/
theorem foldl_apply_congr (us : List (Update N)) {names names' : Names N} {dir : ℕ} {name : N}
    (h : names dir name = names' dir name) :
    us.foldl Update.apply names dir name = us.foldl Update.apply names' dir name := by
  induction us generalizing names names' with
  | nil => exact h
  | cons u us ih => exact ih (by rw [Update.apply, Update.apply, h])

/-- Updates of other directories do not matter. -/
theorem foldl_apply_filter (us : List (Update N)) (names : Names N) (dir : ℕ) (name : N) :
    us.foldl Update.apply names dir name =
      (us.filter (·.dir = dir)).foldl Update.apply names dir name := by
  induction us generalizing names with
  | nil => rfl
  | cons u us ih =>
    by_cases hu : u.dir = dir
    · rw [List.filter_cons_of_pos (by simpa using hu), List.foldl_cons, List.foldl_cons, ih]
    · rw [List.filter_cons_of_neg (by simpa using hu), List.foldl_cons, ih]
      apply foldl_apply_congr
      rw [Update.apply, Update.at, if_neg (Ne.symm hu), Option.getD_none]

/-! ## The filesystem -/

structure Fs (N β τ : Type) where
  next : ℕ
  data : ℕ → List β
  synced : ℕ → Bool
  tag : ℕ → Option τ
  durable : Names N
  pending : List (Update N)
  /-- The renames so far, newest first: directory, new name, inode. -/
  renamed : List (ℕ × N × ℕ)

namespace Fs

/-- The entries the running system sees. -/
def live (fs : Fs N β τ) : Names N := fs.pending.foldl Update.apply fs.durable

/-- Set the contents of an inode. -/
def store (fs : Fs N β τ) (i : ℕ) (data : List β) (synced : Bool) : Fs N β τ :=
  { fs with
    data := Function.update fs.data i data
    synced := Function.update fs.synced i synced }

def setTag (fs : Fs N β τ) (i : ℕ) (tag : τ) : Fs N β τ :=
  { fs with tag := Function.update fs.tag i (some tag) }

/-- Take a new inode. -/
def alloc (fs : Fs N β τ) : Fs N β τ := { fs with next := fs.next + 1 }

/-- Update a directory; the update is pending until the directory is synced. -/
def push (fs : Fs N β τ) (u : Update N) : Fs N β τ := { fs with pending := fs.pending ++ [u] }

/-- List a rename. -/
def note (fs : Fs N β τ) (dir : ℕ) (name : N) (i : ℕ) : Fs N β τ :=
  { fs with renamed := (dir, name, i) :: fs.renamed }

/-- Make a directory's pending updates durable. -/
def flush (fs : Fs N β τ) (dir : ℕ) : Fs N β τ :=
  { fs with
    durable := (fs.pending.filter (·.dir = dir)).foldl Update.apply fs.durable
    pending := fs.pending.filter (·.dir ≠ dir) }

end Fs

/-! ## System calls -/

inductive Call (N β τ : Type) where
  | mkdir (dir : ℕ) (name : N)
  | openDir (dir : ℕ) (name : N)
  | create (dir : ℕ) (name : N) (excl : Bool) (tag : τ)
  | write (file : ℕ) (data : List β)
  | fsync (file : ℕ)
  | rename (dir : ℕ) (src dst : N)
  | unlink (dir : ℕ) (name : N)
  | fsyncDir (dir : ℕ)

/-- An error carries the text of its `errno`. -/
inductive Reply where
  | fail (errno : String)
  | done
  | inode (i : ℕ)
  | wrote (count : ℕ)
  deriving DecidableEq

def enoent : String := "No such file or directory (errno 2)"

def eexist : String := "File exists (errno 17)"

/-- A call that goes through. A `write` stores the first `count` bytes. -/
def succeed (fs : Fs N β τ) (count : ℕ) : Call N β τ → Reply × Fs N β τ
  | .mkdir dir name =>
    match fs.live dir name with
    | some _ => (.fail eexist, fs)
    | none => (.done, (fs.push ⟨dir, [(name, some fs.next)]⟩).alloc)
  | .openDir dir name =>
    match fs.live dir name with
    | some i => (.inode i, fs)
    | none => (.fail enoent, fs)
  | .create dir name excl tag =>
    match fs.live dir name with
    | some i => if excl then (.fail eexist, fs) else (.inode i, (fs.store i [] false).setTag i tag)
    | none =>
      (.inode fs.next, (((fs.push ⟨dir, [(name, some fs.next)]⟩).store fs.next [] false).setTag
        fs.next tag).alloc)
  | .write file data =>
    let stored := data.take count
    (.wrote stored.length, fs.store file (fs.data file ++ stored) false)
  | .fsync file => (.done, fs.store file (fs.data file) true)
  | .rename dir src dst =>
    match fs.live dir src with
    | some i => (.done, (fs.push ⟨dir, [(dst, some i), (src, none)]⟩).note dir dst i)
    | none => (.fail enoent, fs)
  | .unlink dir name =>
    match fs.live dir name with
    | some _ => (.done, fs.push ⟨dir, [(name, none)]⟩)
    | none => (.fail enoent, fs)
  | .fsyncDir dir => (.done, fs.flush dir)

/-- A call ends as the kernel decides: it fails without effect, or goes through. -/
def exec (fs : Fs N β τ) (c : Call N β τ) : Except String ℕ → Reply × Fs N β τ
  | .error errno => (.fail errno, fs)
  | .ok count => succeed fs count c

def Step (c : Call N β τ) (fs : Fs N β τ) (r : Reply) (fs' : Fs N β τ) : Prop :=
  ∃ outcome, exec fs c outcome = (r, fs')

/-- A call that goes through may find that a name is there, or is not. -/
theorem succeed_fail {fs : Fs N β τ} {count : ℕ} {c : Call N β τ} {e : String}
    (h : (succeed fs count c).1 = .fail e) : e = eexist ∨ e = enoent := by
  cases c with
  | mkdir =>
    rw [succeed] at h
    split at h
    · exact Or.inl (Reply.fail.inj h).symm
    · cases h
  | create =>
    rw [succeed] at h
    split at h
    · split_ifs at h
      exact Or.inl (Reply.fail.inj h).symm
    · cases h
  | openDir | rename | unlink =>
    rw [succeed] at h
    split at h
    · cases h
    · exact Or.inr (Reply.fail.inj h).symm
  | write | fsync | fsyncDir => cases h

/-! ## Crashes -/

/-- What a crash leaves on the disk. -/
structure Crash (fs : Fs N β τ) where
  kept : List (Update N)
  kept_sublist : kept.Sublist fs.pending
  data : ℕ → List β
  data_synced : ∀ i, fs.synced i = true → data i = fs.data i

def Crash.names {fs : Fs N β τ} (c : Crash fs) : Names N := c.kept.foldl Update.apply fs.durable

/-- The filesystem after a reboot. -/
def Crash.restart {fs : Fs N β τ} (c : Crash fs) : Fs N β τ :=
  { fs with data := c.data, synced := fun _ => true, durable := c.names, pending := [] }

/-- Some crash leaves the name referring to `i`. -/
def MayName (fs : Fs N β τ) (dir : ℕ) (name : N) (i : ℕ) : Prop :=
  fs.durable dir name = some i ∨ ∃ u ∈ fs.pending, u.at dir name = some (some i)

/-- Every crash leaves the name in the directory. -/
def Certain (fs : Fs N β τ) (dir : ℕ) (name : N) : Prop :=
  (fs.durable dir name).isSome ∧ ∀ u ∈ fs.pending, u.at dir name ≠ some none

variable {fs : Fs N β τ} {dir : ℕ} {name : N} {i : ℕ}

theorem Crash.mayName (c : Crash fs) (h : c.names dir name = some i) : MayName fs dir name i :=
  (foldl_apply_mem h).imp_right fun ⟨u, hu, hat⟩ => ⟨u, c.kept_sublist.subset hu, hat⟩

theorem Crash.certain (c : Crash fs) (h : Certain fs dir name) : (c.names dir name).isSome :=
  foldl_apply_isSome h.1 fun u hu => h.2 u (c.kept_sublist.subset hu)

theorem mayName_of_live (h : fs.live dir name = some i) : MayName fs dir name i :=
  foldl_apply_mem h

theorem Certain.live (h : Certain fs dir name) : (fs.live dir name).isSome :=
  foldl_apply_isSome h.1 h.2

/-! ## What the primitives do -/

@[simp] theorem live_store {j : ℕ} {data : List β} {synced : Bool} :
    (fs.store j data synced).live = fs.live := rfl

@[simp] theorem live_setTag {j : ℕ} {tag : τ} : (fs.setTag j tag).live = fs.live := rfl

@[simp] theorem live_alloc : fs.alloc.live = fs.live := rfl

@[simp] theorem live_note {d j : ℕ} {n : N} : (fs.note d n j).live = fs.live := rfl

@[simp] theorem mayName_store {j : ℕ} {data : List β} {synced : Bool} :
    MayName (fs.store j data synced) dir name i ↔ MayName fs dir name i := Iff.rfl

@[simp] theorem mayName_setTag {j : ℕ} {tag : τ} :
    MayName (fs.setTag j tag) dir name i ↔ MayName fs dir name i := Iff.rfl

@[simp] theorem mayName_alloc : MayName fs.alloc dir name i ↔ MayName fs dir name i := Iff.rfl

@[simp] theorem mayName_note {d j : ℕ} {n : N} :
    MayName (fs.note d n j) dir name i ↔ MayName fs dir name i := Iff.rfl

@[simp] theorem certain_store {j : ℕ} {data : List β} {synced : Bool} :
    Certain (fs.store j data synced) dir name ↔ Certain fs dir name := Iff.rfl

@[simp] theorem certain_setTag {j : ℕ} {tag : τ} :
    Certain (fs.setTag j tag) dir name ↔ Certain fs dir name := Iff.rfl

@[simp] theorem certain_alloc : Certain fs.alloc dir name ↔ Certain fs dir name := Iff.rfl

@[simp] theorem certain_note {d j : ℕ} {n : N} :
    Certain (fs.note d n j) dir name ↔ Certain fs dir name := Iff.rfl

theorem live_push {u : Update N} :
    (fs.push u).live dir name = (u.at dir name).getD (fs.live dir name) := by
  rw [Fs.live, Fs.push, List.foldl_append]
  rfl

theorem mayName_push {u : Update N} :
    MayName (fs.push u) dir name i ↔ MayName fs dir name i ∨ u.at dir name = some (some i) := by
  simp only [MayName, Fs.push, List.mem_append, List.mem_singleton]
  constructor
  · rintro (h | ⟨v, hv | rfl, hat⟩)
    · exact Or.inl (Or.inl h)
    · exact Or.inl (Or.inr ⟨v, hv, hat⟩)
    · exact Or.inr hat
  · rintro ((h | ⟨v, hv, hat⟩) | hat)
    · exact Or.inl h
    · exact Or.inr ⟨v, Or.inl hv, hat⟩
    · exact Or.inr ⟨u, Or.inr rfl, hat⟩

theorem certain_push {u : Update N} :
    Certain (fs.push u) dir name ↔ Certain fs dir name ∧ u.at dir name ≠ some none := by
  simp only [Certain, Fs.push, List.mem_append, List.mem_singleton]
  constructor
  · rintro ⟨h, hall⟩
    exact ⟨⟨h, fun v hv => hall v (Or.inl hv)⟩, hall u (Or.inr rfl)⟩
  · rintro ⟨⟨h, hall⟩, hu⟩
    refine ⟨h, ?_⟩
    rintro v (hv | rfl)
    · exact hall v hv
    · exact hu

/-- Syncing a directory is nothing to the others. -/
theorem flush_durable {d : ℕ} (h : dir ≠ d) :
    (fs.flush d).durable dir name = fs.durable dir name := by
  show (fs.pending.filter (·.dir = d)).foldl Update.apply fs.durable dir name = _
  rw [foldl_apply_filter, List.filter_filter, List.filter_eq_nil_iff.mpr]
  · rfl
  · intro u _ heq
    simp only [Bool.and_eq_true, decide_eq_true_eq] at heq
    exact h (heq.1.symm.trans heq.2)

/-- Syncing a directory changes nothing the running system sees. -/
@[simp] theorem live_flush {d : ℕ} : (fs.flush d).live = fs.live := by
  funext dir name
  let flushed := (fs.pending.filter (·.dir = d)).foldl Update.apply fs.durable
  have hleft : (fs.flush d).live dir name =
      (fs.pending.filter fun u => decide (u.dir = dir) && decide (u.dir ≠ d)).foldl
        Update.apply flushed dir name := by
    rw [← List.filter_filter]
    exact foldl_apply_filter _ _ dir name
  have hright : fs.live dir name =
      (fs.pending.filter (·.dir = dir)).foldl Update.apply fs.durable dir name :=
    foldl_apply_filter _ _ dir name
  rw [hleft, hright]
  by_cases hd : dir = d
  · -- Nothing of `dir` is left pending, and all of it is durable.
    subst hd
    rw [List.filter_eq_nil_iff.mpr]
    · rfl
    · intro u _ h
      simp only [Bool.and_eq_true, decide_eq_true_eq] at h
      exact h.2 h.1
  · -- What is left pending for `dir` is what was, and nothing of it became durable.
    have hsame : (fs.pending.filter fun u => decide (u.dir = dir) && decide (u.dir ≠ d)) =
        fs.pending.filter (·.dir = dir) := by
      apply List.filter_congr
      intro u _
      by_cases hu : u.dir = dir <;> simp [hu, hd]
    have hbase : flushed dir name = fs.durable dir name := flush_durable hd
    rw [hsame]
    exact foldl_apply_congr _ hbase

theorem MayName.of_flush {d : ℕ} (h : MayName (fs.flush d) dir name i) : MayName fs dir name i := by
  rcases h with h | ⟨u, hu, hat⟩
  · rcases foldl_apply_mem h with h | ⟨u, hu, hat⟩
    · exact Or.inl h
    · exact Or.inr ⟨u, (List.mem_filter.mp hu).1, hat⟩
  · exact Or.inr ⟨u, (List.mem_filter.mp hu).1, hat⟩

theorem Certain.flush {d : ℕ} (h : Certain fs dir name) : Certain (fs.flush d) dir name :=
  ⟨foldl_apply_isSome h.1 fun u hu => h.2 u (List.mem_filter.mp hu).1,
    fun u hu => h.2 u (List.mem_filter.mp hu).1⟩

/-- **A synced directory.** The names in it are certain. -/
theorem certain_flush (h : (fs.live dir name).isSome) : Certain (fs.flush dir) dir name := by
  refine ⟨?_, ?_⟩
  · rw [Fs.live, foldl_apply_filter] at h
    exact h
  · intro u hu hat
    have hdir : u.dir ≠ dir := by simpa using (List.mem_filter.mp hu).2
    rw [Update.at, if_neg (Ne.symm hdir)] at hat
    cases hat

/-- A synced directory may name only what it names. -/
theorem live_of_mayName_flush (h : MayName (fs.flush dir) dir name i) :
    fs.live dir name = some i := by
  rcases h with h | ⟨u, hu, hat⟩
  · rw [Fs.live, foldl_apply_filter]
    exact h
  · have hdir : u.dir ≠ dir := by simpa using (List.mem_filter.mp hu).2
    rw [Update.at, if_neg (Ne.symm hdir)] at hat
    cases hat

omit [DecidableEq N] in
/-- What is kept of the updates of the other directories can be kept along with
    all updates of one directory. -/
theorem exists_kept {us kept : List (Update N)} {d : ℕ}
    (h : kept.Sublist (us.filter (·.dir ≠ d))) :
    ∃ all : List (Update N), all.Sublist us ∧ all.filter (·.dir ≠ d) = kept ∧
      all.filter (·.dir = d) = us.filter (·.dir = d) := by
  induction us generalizing kept with
  | nil =>
    cases h
    exact ⟨[], List.Sublist.slnil, rfl, rfl⟩
  | cons u us ih =>
    by_cases hu : u.dir = d
    · rw [List.filter_cons_of_neg (by simpa using hu)] at h
      obtain ⟨all, hsub, hother, hdir⟩ := ih h
      refine ⟨u :: all, hsub.cons_cons u, ?_, ?_⟩
      · rw [List.filter_cons_of_neg (by simpa using hu), hother]
      · rw [List.filter_cons_of_pos (by simpa using hu), hdir,
          List.filter_cons_of_pos (by simpa using hu)]
    · rw [List.filter_cons_of_pos (by simpa using hu)] at h
      cases h with
      | cons _ h =>
        obtain ⟨all, hsub, hother, hdir⟩ := ih h
        refine ⟨all, hsub.cons u, hother, ?_⟩
        rw [hdir, List.filter_cons_of_neg (by simpa using hu)]
      | cons_cons _ h =>
        obtain ⟨all, hsub, hother, hdir⟩ := ih h
        refine ⟨u :: all, hsub.cons_cons u, ?_, ?_⟩
        · rw [List.filter_cons_of_pos (by simpa using hu), hother]
        · rw [List.filter_cons_of_neg (by simpa using hu), hdir,
            List.filter_cons_of_neg (by simpa using hu)]

/-- **Syncing only excludes crashes.** What a crash leaves after a sync it may
    leave before. -/
theorem exists_names_of_flush {d : ℕ} {kept : List (Update N)}
    (h : kept.Sublist (fs.flush d).pending) :
    ∃ all : List (Update N), all.Sublist fs.pending ∧
      all.foldl Update.apply fs.durable = kept.foldl Update.apply (fs.flush d).durable := by
  obtain ⟨all, hsub, hother, hdir⟩ := exists_kept h
  refine ⟨all, hsub, ?_⟩
  funext dir name
  rw [foldl_apply_filter all, foldl_apply_filter kept]
  by_cases hd : dir = d
  · subst hd
    have hnone : kept.filter (·.dir = dir) = [] := by
      rw [List.filter_eq_nil_iff]
      intro u hu heq
      have hne : u.dir ≠ dir := by simpa using (List.mem_filter.mp (h.subset hu)).2
      exact hne (by simpa using heq)
    rw [hnone, hdir]
    rfl
  · have hsame : all.filter (·.dir = dir) = kept.filter (·.dir = dir) := by
      rw [← hother, List.filter_filter]
      apply List.filter_congr
      intro u _
      by_cases hu : u.dir = dir <;> simp [hu, hd]
    rw [hsame]
    apply foldl_apply_congr
    exact (flush_durable hd).symm

/-! ## Restarts -/

theorem Crash.mayName_restart {c : Crash fs} (h : MayName c.restart dir name i) :
    MayName fs dir name i := by
  rcases h with h | ⟨u, hu, -⟩
  · exact c.mayName h
  · cases hu

theorem Crash.certain_restart {c : Crash fs} (h : Certain fs dir name) :
    Certain c.restart dir name := ⟨c.certain h, fun _ hu => by cases hu⟩

/-! ## The order of the renames -/

/-- `j` is `i`, or was renamed to the name after `i`. -/
def Since (fs : Fs N β τ) (dir : ℕ) (name : N) (i j : ℕ) : Prop :=
  ∃ newer older, fs.renamed = newer ++ (dir, name, i) :: older ∧
    (j = i ∨ (dir, name, j) ∈ newer)

/-- The running system sees `i` under the name, or what was renamed to it later. -/
def LiveSince (fs : Fs N β τ) (dir : ℕ) (name : N) (i : ℕ) : Prop :=
  ∃ j, fs.live dir name = some j ∧ Since fs dir name i j

/-- Every crash leaves the name referring to `i`, or to what was renamed to it later. -/
structure Kept (fs : Fs N β τ) (dir : ℕ) (name : N) (i : ℕ) : Prop where
  certain : Certain fs dir name
  since : ∀ j, MayName fs dir name j → Since fs dir name i j

omit [DecidableEq N] in
theorem Since.mem {j : ℕ} (h : Since fs dir name i j) : (dir, name, j) ∈ fs.renamed := by
  obtain ⟨newer, older, heq, rfl | hmem⟩ := h
  · rw [heq]
    exact List.mem_append_right _ List.mem_cons_self
  · rw [heq]
    exact List.mem_append_left _ hmem

omit [DecidableEq N] in
theorem Since.mono {fs' : Fs N β τ} {new : List (ℕ × N × ℕ)} {j : ℕ} (h : Since fs dir name i j)
    (hnew : fs'.renamed = new ++ fs.renamed) : Since fs' dir name i j := by
  obtain ⟨newer, older, heq, hj⟩ := h
  refine ⟨new ++ newer, older, by rw [hnew, heq, List.append_assoc], ?_⟩
  exact hj.imp_right (List.mem_append_right _)

omit [DecidableEq N] in
/-- Renaming again counts as later. -/
theorem Since.note {j k : ℕ} (h : Since fs dir name i j) :
    Since (fs.note dir name k) dir name i k := by
  obtain ⟨newer, older, heq, -⟩ := h
  exact ⟨(dir, name, k) :: newer, older, by rw [Fs.note, heq]; rfl, Or.inr List.mem_cons_self⟩

omit [DecidableEq N] in
theorem since_self : Since (fs.note dir name i) dir name i i := ⟨[], fs.renamed, rfl, Or.inl rfl⟩

@[simp] theorem kept_store {j : ℕ} {data : List β} {synced : Bool} :
    Kept (fs.store j data synced) dir name i ↔ Kept fs dir name i :=
  ⟨fun h => ⟨h.certain, h.since⟩, fun h => ⟨h.certain, h.since⟩⟩

@[simp] theorem kept_setTag {j : ℕ} {tag : τ} :
    Kept (fs.setTag j tag) dir name i ↔ Kept fs dir name i :=
  ⟨fun h => ⟨h.certain, h.since⟩, fun h => ⟨h.certain, h.since⟩⟩

@[simp] theorem kept_alloc : Kept fs.alloc dir name i ↔ Kept fs dir name i :=
  ⟨fun h => ⟨h.certain, h.since⟩, fun h => ⟨h.certain, h.since⟩⟩

theorem LiveSince.push {u : Update N} (h : LiveSince fs dir name i) (hu : u.at dir name = none) :
    LiveSince (fs.push u) dir name i := by
  obtain ⟨j, hlive, hsince⟩ := h
  refine ⟨j, ?_, hsince⟩
  rw [live_push, hu]
  exact hlive

theorem Kept.push {u : Update N} (h : Kept fs dir name i) (hu : u.at dir name = none) :
    Kept (fs.push u) dir name i := by
  refine ⟨certain_push.mpr ⟨h.certain, by simp [hu]⟩, fun j hj => ?_⟩
  rcases mayName_push.mp hj with hj | hj
  · exact h.since j hj
  · rw [hu] at hj
    cases hj

theorem LiveSince.flush {d : ℕ} (h : LiveSince fs dir name i) :
    LiveSince (fs.flush d) dir name i := by
  obtain ⟨j, hlive, hsince⟩ := h
  exact ⟨j, by rw [live_flush]; exact hlive, hsince⟩

theorem Kept.flush {d : ℕ} (h : Kept fs dir name i) : Kept (fs.flush d) dir name i :=
  ⟨h.certain.flush, fun j hj => h.since j hj.of_flush⟩

/-- An update that renames `j` to the name, or does not touch it. -/
def Renames (u : Update N) (d : ℕ) (n : N) (j dir : ℕ) (name : N) : Prop :=
  u.at dir name = none ∨ u.at dir name = some (some j) ∧ d = dir ∧ n = name

theorem LiveSince.rename {u : Update N} {d j : ℕ} {n : N} (h : LiveSince fs dir name i)
    (hu : Renames u d n j dir name) : LiveSince ((fs.push u).note d n j) dir name i := by
  rcases hu with hu | ⟨hu, rfl, rfl⟩
  · obtain ⟨k, hlive, hsince⟩ := h.push hu
    exact ⟨k, hlive, hsince.mono (List.singleton_append).symm⟩
  · obtain ⟨k, -, hsince⟩ := h
    have hsince' : Since (fs.push u) d n i k := hsince
    refine ⟨j, ?_, hsince'.note⟩
    rw [live_note, live_push, hu]
    rfl

theorem Kept.rename {u : Update N} {d j : ℕ} {n : N} (h : Kept fs dir name i)
    (hu : Renames u d n j dir name) : Kept ((fs.push u).note d n j) dir name i := by
  rcases hu with hu | ⟨hu, rfl, rfl⟩
  · have hpush := h.push hu
    exact ⟨hpush.certain, fun k hk => (hpush.since k hk).mono (List.singleton_append).symm⟩
  · refine ⟨certain_push.mpr ⟨h.certain, by simp [hu]⟩, fun k hk => ?_⟩
    rw [mayName_note, mayName_push] at hk
    rcases hk with hk | hk
    · exact (h.since k hk).mono (List.singleton_append).symm
    · rw [hu] at hk
      cases hk
      obtain ⟨k, hk⟩ := Option.isSome_iff_exists.mp h.certain.live
      have hsince : Since (fs.push u) d n i k := h.since k (mayName_of_live hk)
      exact hsince.note

/-- **A rename that was synced is kept.** -/
theorem kept_flush (h : LiveSince fs dir name i) : Kept (fs.flush dir) dir name i := by
  obtain ⟨j, hlive, hsince⟩ := h
  refine ⟨certain_flush (by rw [hlive]; rfl), fun k hk => ?_⟩
  cases hlive.symm.trans (live_of_mayName_flush hk)
  exact hsince.mono (List.nil_append _).symm

theorem Crash.kept_restart {c : Crash fs} (h : Kept fs dir name i) : Kept c.restart dir name i :=
  ⟨c.certain_restart h.certain, fun j hj =>
    (h.since j (c.mayName_restart hj)).mono (List.nil_append _).symm⟩

end CrashFs
