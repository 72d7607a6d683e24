import Forge.Controller.State
import Forge.Lib.FileLock
import Forge.Lib.Run

/-!
# One controller in a workspace

`run_controller` takes `controller.lock` and writes `controller.pid` before it
runs its loop, and removes the pid file after it (controller.cpp:810-836,
895-912; store.cpp:192-245). Any number of `forge run` processes do this in one
workspace, any of them may be killed at any point, and a worker has the lock's
description open from its fork until it closes it (worker.cpp:596-600).

* `Site.Inv.step`: what every call of every process keeps.
* `one_controller`: at most one process is past the lock, the pid file names the
  one that runs its loop, and the lock is refused exactly while there is one, or
  a worker that has not closed it.
-/

namespace Forge

open FileLock

/-! ## Model -/

/-- Where a process is: in `run_controller`, or in `worker_entry`. -/
inductive SitePhase where
  /-- It has not started, or it has ended. -/
  | gone
  /-- `controller.lock` is open, as description `d`. -/
  | opened (d : ℕ)
  | locked
  /-- The pid file is written. -/
  | named
  | looping
  /-- The loop has returned. -/
  | leaving
  /-- The pid file is removed. -/
  | removed
  /-- A worker that has been forked. -/
  | worker
  /-- A worker that has closed what it inherited. -/
  | apart
  deriving DecidableEq

/-- The process is past the lock. -/
def SitePhase.controls : SitePhase → Bool
  | .locked | .named | .looping | .leaving | .removed => true
  | _ => false

/-- The process has written the pid file and not removed it. -/
def SitePhase.named? : SitePhase → Bool
  | .named | .looping | .leaving => true
  | _ => false

/-- The processes by their pids, the lock, and `controller.pid`. `next` is the next
    description. -/
structure Site where
  phase : ℕ → SitePhase
  lock : Table ℕ ℕ
  next : ℕ
  pidFile : Option (List Char)

/-- What happens next. The arguments say how the call ends. -/
inductive SiteEvent where
  | openLock (p : ℕ) (ok : Bool)
  | flock (p : ℕ) (ok : Bool)
  | writePid (p : ℕ) (answer : WriteAnswer)
  /-- The rest of `setup`. -/
  | setup (p : ℕ) (ok : Bool)
  | leave (p : ℕ)
  | removePid (p : ℕ) (ok : Bool)
  /-- The process ends, by itself or killed. -/
  | ends (p : ℕ)
  | fork (p child : ℕ)
  /-- The worker closes the descriptors that it has inherited. -/
  | closeFds (child : ℕ)

/-- `std::to_string(pid) + "\n"` (store.cpp:222-223). -/
def pidText (pid : ℕ) : List Char := Nat.toDigits 10 pid ++ ['\n']

/-- `read_pid_file` (store.cpp:226-241), from the contents of the file. -/
def readPidFile (file : Option (List Char)) : Option ℕ :=
  file.bind fun text =>
    (parseU64 (text.rdropWhile fun c => c = '\n' ∨ c = '\r')).filter fun value =>
      value ≤ 0x7fffffff

namespace Site

def start (pidFile : Option (List Char)) : Site := ⟨fun _ => .gone, .empty, 0, pidFile⟩

def enter (s : Site) (p : ℕ) (ph : SitePhase) : Site :=
  { s with phase := Function.update s.phase p ph }

/-- The process is gone, and what it had open is closed. -/
def quit (s : Site) (p : ℕ) : Site := { s.enter p .gone with lock := s.lock.closed p }

def setPidFile (s : Site) (file : Option (List Char)) : Site := { s with pidFile := file }

/-- `open(2)`: a new description. -/
def openedLock (s : Site) (p : ℕ) : Site :=
  { s.enter p (.opened s.next) with lock := s.lock.opened p s.next, next := s.next + 1 }

/-- `flock(2)` has given the lock to `d`. -/
def tookLock (s : Site) (p d : ℕ) : Site := { s.enter p .locked with lock := s.lock.flock d }

def forked (s : Site) (p child : ℕ) : Site :=
  { s.enter child .worker with lock := s.lock.forked p child }

def closedFds (s : Site) (child : ℕ) : Site :=
  { s.enter child .apart with lock := s.lock.closed child }

/-- One call. It does nothing if the process is elsewhere. -/
def step (s : Site) : SiteEvent → Site
  | .openLock p ok =>
    if s.phase p = .gone ∧ ok then s.openedLock p else s
  | .flock p ok =>
    match s.phase p with
    | .opened d =>
      if ok ∧ s.lock.owner = none then s.tookLock p d else s.quit p
    | _ => s
  | .writePid p answer =>
    if s.phase p = .locked then
      match answer with
      | .ok => (s.enter p .named).setPidFile (some (pidText p))
      | .failed _ true => (s.quit p).setPidFile (some (pidText p))
      | .failed _ false => s.quit p
    else s
  | .setup p ok =>
    if s.phase p = .named then if ok then s.enter p .looping else s.quit p else s
  | .leave p => if s.phase p = .looping then s.enter p .leaving else s
  | .removePid p ok =>
    if s.phase p = .leaving then
      (s.enter p .removed).setPidFile (if ok then none else s.pidFile)
    else s
  | .ends p => s.quit p
  | .fork p child =>
    if s.phase p = .looping ∧ s.phase child = .gone then s.forked p child else s
  | .closeFds child =>
    if s.phase child = .worker then s.closedFds child else s

end Site

/-- The pid that is written is read back. -/
theorem readPidFile_pidText {pid : ℕ} (h : pid ≤ 0x7fffffff) :
    readPidFile (some (pidText pid)) = some pid := by
  have hdigits : (Nat.toDigits 10 pid).rdropWhile (fun c => c = '\n' ∨ c = '\r') =
      Nat.toDigits 10 pid := by
    rw [List.rdropWhile_eq_self_iff]
    intro hne hlast
    have hdigit := Nat.isDigit_of_mem_toDigits (by norm_num) (by norm_num) (List.getLast_mem hne)
    rcases (by simpa using hlast) with h | h <;> rw [h] at hdigit <;> exact absurd hdigit (by decide)
  unfold readPidFile pidText
  rw [Option.bind_some, List.rdropWhile_concat_pos _ _ _ (by simp), hdigits,
    parseU64_toDigits (by omega)]
  exact Option.filter_some_pos (by simpa using h)

/-! ## The invariant -/

theorem SitePhase.controls_of_named {ph : SitePhase} (h : ph.named?) : ph.controls := by
  cases ph <;> trivial

namespace Site

theorem phase_enter_self {s : Site} {p : ℕ} {ph : SitePhase} : (s.enter p ph).phase p = ph :=
  Function.update_self ..

theorem phase_enter {s : Site} {p q : ℕ} {ph : SitePhase} (h : q ≠ p) :
    (s.enter p ph).phase q = s.phase q :=
  Function.update_of_ne h ..

structure Inv (s : Site) : Prop where
  fresh : ∀ {r}, r ∈ s.lock.refs → r.2 < s.next
  bare : ∀ {p}, s.phase p = .gone ∨ s.phase p = .apart → ∀ d, (p, d) ∉ s.lock.refs
  opened : ∀ {p d}, s.phase p = .opened d → (p, d) ∈ s.lock.refs
  /-- A description that has not been forked. -/
  alone : ∀ {p d}, s.phase p = .opened d → ∀ {q d'}, (q, d') ∈ s.lock.refs → (q = p ↔ d' = d)
  holder : ∀ {p}, s.lock.Holds p ↔ (s.phase p).controls ∨ s.phase p = .worker
  sole : ∀ {p q}, (s.phase p).controls → (s.phase q).controls → p = q
  file : ∀ {p}, (s.phase p).named? → s.pidFile = some (pidText p)

/-- One process moves, and the others have what they had. -/
structure Moves (s s' : Site) (p : ℕ) (ph : SitePhase) : Prop where
  phase : s'.phase = Function.update s.phase p ph
  next : s.next ≤ s'.next
  refs : ∀ {q}, q ≠ p → ∀ d, (q, d) ∈ s'.lock.refs ↔ (q, d) ∈ s.lock.refs
  holds : ∀ {q}, q ≠ p → (s'.lock.Holds q ↔ s.lock.Holds q)

variable {s s' : Site} {p child : ℕ} {ph : SitePhase}

theorem Moves.phase_self (h : Moves s s' p ph) : s'.phase p = ph := by
  rw [h.phase, Function.update_self]

theorem Moves.phase_of_ne (h : Moves s s' p ph) {q : ℕ} (hq : q ≠ p) :
    s'.phase q = s.phase q := by
  rw [h.phase, Function.update_of_ne hq]

theorem start_inv (pidFile : Option (List Char)) : (start pidFile).Inv where
  fresh := by simp [start, Table.empty]
  bare := by simp [start, Table.empty]
  opened := by simp [start]
  alone := by simp [start]
  holder := by simp [start, Table.empty, Table.Holds, SitePhase.controls]
  sole := by simp [start, SitePhase.controls]
  file := by simp [start, SitePhase.named?]

namespace Inv

/-- What has to hold of the process that moves. -/
theorem moves (h : s.Inv) (hm : Moves s s' p ph)
    (hrefs : ∀ d, (p, d) ∈ s'.lock.refs → d < s'.next ∧ ∀ q, q ≠ p → s.phase q ≠ .opened d)
    (hbare : ph = .gone ∨ ph = .apart → ∀ d, (p, d) ∉ s'.lock.refs)
    (hopened : ∀ d, ph = .opened d → (p, d) ∈ s'.lock.refs ∧
      ∀ q d', (q, d') ∈ s'.lock.refs → (q = p ↔ d' = d))
    (hholder : s'.lock.Holds p ↔ ph.controls ∨ ph = .worker)
    (hsole : ph.controls → ∀ q, q ≠ p → ¬ (s.phase q).controls)
    (hfile : ∀ q, (s'.phase q).named? → s'.pidFile = some (pidText q)) : s'.Inv where
  fresh := by
    rintro ⟨q, d⟩ hr
    by_cases hq : q = p
    · exact (hrefs d (hq ▸ hr)).1
    · exact (h.fresh ((hm.refs hq d).mp hr)).trans_le hm.next
  bare := by
    intro q hbare' d hr
    by_cases hq : q = p
    · subst hq
      rw [hm.phase_self] at hbare'
      exact hbare hbare' d hr
    · rw [hm.phase_of_ne hq] at hbare'
      exact h.bare hbare' d ((hm.refs hq d).mp hr)
  opened := by
    intro q d hopen
    by_cases hq : q = p
    · subst hq
      rw [hm.phase_self] at hopen
      exact (hopened d hopen).1
    · rw [hm.phase_of_ne hq] at hopen
      exact (hm.refs hq d).mpr (h.opened hopen)
  alone := by
    intro q d hopen q' d' hr
    by_cases hq : q = p
    · subst hq
      rw [hm.phase_self] at hopen
      exact (hopened d hopen).2 q' d' hr
    · rw [hm.phase_of_ne hq] at hopen
      by_cases hq' : q' = p
      · subst hq'
        refine iff_of_false (Ne.symm hq) ?_
        rintro rfl
        exact (hrefs d' hr).2 q hq hopen
      · exact h.alone hopen ((hm.refs hq' d').mp hr)
  holder := by
    intro q
    by_cases hq : q = p
    · subst hq
      rwa [hm.phase_self]
    · rw [hm.phase_of_ne hq, hm.holds hq]
      exact h.holder
  sole := by
    intro q q' hc hc'
    by_cases hq : q = p <;> by_cases hq' : q' = p
    · rw [hq, hq']
    · rw [hq, hm.phase_self] at hc
      rw [hm.phase_of_ne hq'] at hc'
      exact absurd hc' (hsole hc q' hq')
    · rw [hq', hm.phase_self] at hc'
      rw [hm.phase_of_ne hq] at hc
      exact absurd hc (hsole hc' q hq)
    · rw [hm.phase_of_ne hq] at hc
      rw [hm.phase_of_ne hq'] at hc'
      exact h.sole hc hc'
  file := fun {q} hnamed => hfile q hnamed

/-- The lock is free if and only if nobody is past it, and every worker has closed it. -/
theorem free_iff (h : s.Inv) :
    s.lock.owner = none ↔ ∀ q, ¬ (s.phase q).controls ∧ s.phase q ≠ .worker := by
  simp only [Table.owner_eq_none_iff, h.holder, not_or, ne_eq]

/-- The pid file of those who have not moved. -/
theorem file_of_moves (h : s.Inv) (hm : Moves s s' p ph) (hpid : s'.pidFile = s.pidFile)
    (hunnamed : ¬ ph.named?) (q : ℕ) (hnamed : (s'.phase q).named?) :
    s'.pidFile = some (pidText q) := by
  by_cases hq : q = p
  · rw [hq, hm.phase_self] at hnamed
    exact absurd hnamed hunnamed
  · rw [hm.phase_of_ne hq] at hnamed
    rw [hpid]
    exact h.file hnamed

theorem openLock (h : s.Inv) (hp : s.phase p = .gone) : Inv (s.openedLock p) := by
  have hunowned : s.lock.owner ≠ some s.next := by
    intro howner
    obtain ⟨q, hq⟩ := s.lock.held _ howner
    exact absurd (h.fresh hq) (lt_irrefl _)
  have hm : Moves s (s.openedLock p) p (.opened s.next) := by
    refine ⟨rfl, Nat.le_succ _, ?_, fun _ => Table.holds_opened hunowned⟩
    intro q hq d
    rw [openedLock, Table.mem_opened, or_iff_right]
    exact fun heq => hq (congrArg Prod.fst heq)
  have hmine : ∀ d, (p, d) ∈ (s.openedLock p).lock.refs → d = s.next := by
    intro d hr
    rcases Table.mem_opened.mp hr with heq | hr
    · exact congrArg Prod.snd heq
    · exact absurd hr (h.bare (Or.inl hp) d)
  refine h.moves hm ?_ (by simp) ?_ ?_ (by simp [SitePhase.controls])
    (h.file_of_moves hm rfl (by simp [SitePhase.named?]))
  · intro d hr
    rw [hmine d hr]
    exact ⟨Nat.lt_succ_self _, fun q _ hq => absurd (h.fresh (h.opened hq)) (lt_irrefl _)⟩
  · rintro d ⟨⟩
    refine ⟨Table.mem_opened.mpr (Or.inl rfl), fun q d' hr => ⟨?_, ?_⟩⟩
    · rintro rfl
      exact hmine d' hr
    · rintro rfl
      rcases Table.mem_opened.mp hr with heq | hr
      · exact congrArg Prod.fst heq
      · exact absurd (h.fresh hr) (lt_irrefl _)
  · rw [openedLock, Table.holds_opened hunowned, h.holder, hp]
    simp [SitePhase.controls]

theorem tookLock (h : s.Inv) {d : ℕ} (hp : s.phase p = .opened d) (hfree : s.lock.owner = none) :
    Inv (s.tookLock p d) := by
  have hd := h.opened hp
  have hholds : ∀ q, (s.tookLock p d).lock.Holds q ↔ q = p := by
    intro q
    rw [Site.tookLock, Table.holds_flock hfree hd]
    exact ⟨fun hq => (h.alone hp hq).mpr rfl, fun hq => hq ▸ hd⟩
  have hnone := Table.owner_eq_none_iff.mp hfree
  have hm : Moves s (s.tookLock p d) p .locked := by
    refine ⟨rfl, le_rfl, fun _ d' => by rw [Site.tookLock, Table.flock_refs], fun {q} hq => ?_⟩
    rw [hholds]
    exact iff_of_false hq (hnone q)
  refine h.moves hm ?_ (by simp) (by simp) ?_ ?_
    (h.file_of_moves hm rfl (by simp [SitePhase.named?]))
  · intro d' hr
    rw [Site.tookLock, Table.flock_refs] at hr
    exact ⟨h.fresh hr, fun q hq hopen => hq ((h.alone hopen hr).mpr rfl).symm⟩
  · exact iff_of_true ((hholds p).mpr rfl) (Or.inl rfl)
  · intro _ q _ hc
    exact hnone q (h.holder.mpr (Or.inl hc))

theorem quit (h : s.Inv) : Inv (s.quit p) := by
  have hmine : ∀ d, (p, d) ∉ (s.quit p).lock.refs := fun d hr => (Table.mem_closed.mp hr).2 rfl
  have hm : Moves s (s.quit p) p .gone := by
    refine ⟨rfl, le_rfl, fun hq d => ?_, fun hq => ?_⟩
    · exact Table.mem_closed.trans (and_iff_left hq)
    · exact Table.holds_closed.trans (and_iff_left hq)
  refine h.moves hm (fun d hr => absurd hr (hmine d)) (fun _ => hmine) (by simp) ?_
    (by simp [SitePhase.controls]) (h.file_of_moves hm rfl (by simp [SitePhase.named?]))
  refine iff_of_false ?_ (by simp [SitePhase.controls])
  rintro ⟨d, -, hr⟩
  exact hmine d hr

theorem forked (h : s.Inv) (hp : s.phase p = .looping) (hchild : s.phase child = .gone) :
    Inv (s.forked p child) := by
  have hholds : s.lock.Holds p := h.holder.mpr (Or.inl (by rw [hp]; rfl))
  have hm : Moves s (s.forked p child) child .worker := by
    refine ⟨rfl, le_rfl, fun hq d => ?_, fun hq => ?_⟩
    · exact Table.mem_forked.trans (or_iff_left fun hnew => hq hnew.1)
    · exact Table.holds_forked.trans (or_iff_left fun hnew => hq hnew.1)
  refine h.moves hm ?_ (by simp) (by simp) ?_ (by simp [SitePhase.controls])
    (h.file_of_moves hm rfl (by simp [SitePhase.named?]))
  · intro d hr
    rcases Table.mem_forked.mp hr with hr | ⟨-, hr⟩
    · exact absurd hr (h.bare (Or.inl hchild) d)
    · refine ⟨h.fresh hr, fun q _ hopen => ?_⟩
      have hqp := (h.alone hopen hr).mpr rfl
      rw [← hqp, hp] at hopen
      cases hopen
  · exact iff_of_true (Table.holds_forked.mpr (Or.inr ⟨rfl, hholds⟩)) (Or.inr rfl)

theorem closedFds (h : s.Inv) : Inv (s.closedFds child) := by
  have hmine : ∀ d, (child, d) ∉ (s.closedFds child).lock.refs :=
    fun d hr => (Table.mem_closed.mp hr).2 rfl
  have hm : Moves s (s.closedFds child) child .apart := by
    refine ⟨rfl, le_rfl, fun hq d => ?_, fun hq => ?_⟩
    · exact Table.mem_closed.trans (and_iff_left hq)
    · exact Table.holds_closed.trans (and_iff_left hq)
  refine h.moves hm (fun d hr => absurd hr (hmine d)) (fun _ => hmine) (by simp) ?_
    (by simp [SitePhase.controls]) (h.file_of_moves hm rfl (by simp [SitePhase.named?]))
  refine iff_of_false ?_ (by simp [SitePhase.controls])
  rintro ⟨d, -, hr⟩
  exact hmine d hr

/-- A controller goes on, and it may write or remove the pid file. -/
theorem goesOn (h : s.Inv) (file : Option (List Char)) (hp : (s.phase p).controls)
    (hph : ph.controls) (hfile : ph.named? → file = some (pidText p)) :
    Inv ((s.enter p ph).setPidFile file) := by
  have hm : Moves s ((s.enter p ph).setPidFile file) p ph :=
    ⟨rfl, le_rfl, fun _ _ => Iff.rfl, fun _ => Iff.rfl⟩
  have hsole : ∀ q, q ≠ p → ¬ (s.phase q).controls := fun q hq hc => hq (h.sole hc hp)
  refine h.moves hm ?_ ?_ ?_ ?_ (fun _ => hsole) ?_
  · intro d hr
    exact ⟨h.fresh hr, fun q hq hopen => hq ((h.alone hopen hr).mpr rfl).symm⟩
  · rintro (rfl | rfl) <;> cases hph
  · rintro d rfl
    cases hph
  · exact iff_of_true (h.holder.mpr (Or.inl hp)) (Or.inl hph)
  · intro q hq
    have hqp : q = p := by
      by_contra hne
      rw [hm.phase_of_ne hne] at hq
      exact hsole q hne (SitePhase.controls_of_named hq)
    subst hqp
    rw [hm.phase_self] at hq
    exact hfile hq

/-- Nobody is there whose pid the file has to be. -/
theorem setPidFile (h : s.Inv) (file : Option (List Char))
    (hunnamed : ∀ q, ¬ (s.phase q).named?) : Inv (s.setPidFile file) :=
  { h with file := fun hq => absurd hq (hunnamed _) }

/-- Where `setup` fails after the pid file has been replaced. -/
theorem quit_unnamed (h : s.Inv) (hp : (s.phase p).controls) (q : ℕ) :
    ¬ ((s.quit p).phase q).named? := by
  by_cases hq : q = p
  · subst hq
    simp [Site.quit, phase_enter_self, SitePhase.named?]
  · simp only [Site.quit, phase_enter hq]
    exact fun hnamed => hq (h.sole (SitePhase.controls_of_named hnamed) hp)

/-- **Every call of every process keeps the invariant.** -/
theorem step (h : s.Inv) (e : SiteEvent) : Inv (s.step e) := by
  cases e with
  | openLock p ok =>
    simp only [Site.step]
    split_ifs with hp
    · exact h.openLock hp.1
    · exact h
  | flock p ok =>
    simp only [Site.step]
    split
    next d hp =>
      split_ifs with hfree
      · exact h.tookLock hp hfree.2
      · exact h.quit
    next => exact h
  | writePid p answer =>
    simp only [Site.step]
    split_ifs with hp
    · have hc : (s.phase p).controls := by rw [hp]; rfl
      split
      · exact h.goesOn _ hc rfl fun _ => rfl
      · exact h.quit.setPidFile _ (h.quit_unnamed hc)
      · exact h.quit
    · exact h
  | setup p ok =>
    simp only [Site.step]
    split_ifs with hp hok
    · exact h.goesOn s.pidFile (by rw [hp]; rfl) rfl fun _ => h.file (by rw [hp]; rfl)
    · exact h.quit
    · exact h
  | leave p =>
    simp only [Site.step]
    split_ifs with hp
    · exact h.goesOn s.pidFile (by rw [hp]; rfl) rfl fun _ => h.file (by rw [hp]; rfl)
    · exact h
  | removePid p ok =>
    simp only [Site.step]
    split_ifs with hp
    · exact h.goesOn _ (by rw [hp]; rfl) rfl nofun
    · exact h.goesOn _ (by rw [hp]; rfl) rfl nofun
    · exact h
  | ends p => exact h.quit
  | fork p child =>
    simp only [Site.step]
    split_ifs with hp
    · exact h.forked hp.1 hp.2
    · exact h
  | closeFds child =>
    simp only [Site.step]
    split_ifs with hp
    · exact h.closedFds
    · exact h

end Inv

theorem run_inv (pidFile : Option (List Char)) (es : List SiteEvent) :
    (Machine.run step (start pidFile) es).Inv :=
  Machine.run_always (fun _ e h => h.step e) es (start_inv pidFile)

end Site

/-- **At most one controller is past the lock.** While it runs its loop the pid file has its
    pid, whatever the other processes do, and `forge run` is refused if and only if there is
    one, or a worker that has not closed the lock. -/
theorem one_controller (pidFile : Option (List Char)) (es : List SiteEvent) :
    let s := Machine.run Site.step (Site.start pidFile) es
    (∀ p q, (s.phase p).controls → (s.phase q).controls → p = q) ∧
    (∀ p, (s.phase p).named? → p ≤ 0x7fffffff → readPidFile s.pidFile = some p) ∧
    ∀ p d, s.phase p = .opened d →
      ((s.step (.flock p true)).phase p = .locked ↔
        ∀ q, ¬ (s.phase q).controls ∧ s.phase q ≠ .worker) := by
  intro s
  have hinv : s.Inv := Site.run_inv pidFile es
  refine ⟨fun p q => hinv.sole, fun p hnamed hp => ?_, fun p d hopen => ?_⟩
  · rw [hinv.file hnamed]
    exact readPidFile_pidText hp
  · rw [← hinv.free_iff]
    simp only [Site.step, hopen, true_and]
    split_ifs with hfree
    · exact iff_of_true (by simp [Site.tookLock, Site.phase_enter_self]) hfree
    · exact iff_of_false (by simp [Site.quit, Site.phase_enter_self]) hfree

/-- A controller is killed after a fork. The lock is refused until the worker has closed it, and
    the pid file is stale. -/
example :
    let s := Machine.run Site.step (Site.start none)
      [.openLock 1 true, .flock 1 true, .writePid 1 .ok, .setup 1 true, .fork 1 5, .ends 1,
        .openLock 2 true, .flock 2 true, .closeFds 5, .openLock 3 true, .flock 3 true]
    s.phase 2 = .gone ∧ s.phase 3 = .locked ∧ s.pidFile = some ['1', '\n'] := by
  decide

end Forge
