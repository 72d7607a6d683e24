import Forge.Controller.Repr
import Forge.Store.Codec
import Forge.Worker.Entry
import Forge.Worker.Gate

/-!
# Limits and deadlines

Model of `apply_resource_limits` (worker.cpp:420-458), of the deadline in
`launch_job` (controller.cpp:623-627) and of `Poller::watch_timer` of both
backends (os/linux/platform.cpp:122-147, os/mac/platform.cpp:134-150). All
products are taken on `uint64_t`.

* `applyResourceLimits_requests`: what a worker asks `setrlimit` for.
* `firstNs_watchTimer_iff`: when a timer expires as requested.
* `limits_enforced`: the limits of a record are enforced exactly when no product
  wraps and the timer is armed, or else the job fails.
* `limit_skipped`: a memory limit and a deadline that wrap around to nothing.
-/

namespace Forge

/-- The product of two `uint64_t`. -/
def wrapMul (a b : ℕ) : ℕ := a * b % 2 ^ 64

theorem wrapMul_of_lt {a b : ℕ} (h : a * b < 2 ^ 64) : wrapMul a b = a * b := Nat.mod_eq_of_lt h

/-- `n * 1024ull * 1024ull`. -/
def mib (n : ℕ) : ℕ := wrapMul (wrapMul n 1024) 1024

/-! ## Resource limits -/

/-- The resources that a worker limits. -/
inductive Resource where
  | as
  | cpu
  | nofile
  | fsize
  deriving DecidableEq

/-- How `setrlimit` answers a worker: the limit is set, or an error. -/
abbrev SetRLimit := Resource → ℕ → Except String Unit

/-- The calls of `setrlimit`, with `err` and `ok` of `apply_resource_limits`. -/
structure LimitRun where
  requests : List (Resource × ℕ) := []
  err : String := ""
  ok : Bool := true
  deriving DecidableEq

/-- `apply_one_limit` (worker.cpp:420-436). -/
def applyOneLimit (setrlimit : SetRLimit) (resource : Resource) (value : ℕ) (name : String)
    (r : LimitRun) : LimitRun :=
  if value = 0 then r
  else
    let r := { r with requests := r.requests ++ [(resource, value)] }
    match setrlimit resource value with
    | .error errno => { r with err := "setrlimit " ++ name ++ ": " ++ errno, ok := false }
    | .ok () => r

/-- `apply_resource_limits` (worker.cpp:438-458). -/
def applyResourceLimits (setrlimit : SetRLimit) (m : Meta) : LimitRun :=
  let r : LimitRun := {}
  let r := if m.memMb > 0 then applyOneLimit setrlimit .as (mib m.memMb) "RLIMIT_AS" r else r
  let r := if m.cpuSec > 0 then applyOneLimit setrlimit .cpu m.cpuSec "RLIMIT_CPU" r else r
  let r := if m.maxFds > 0 then applyOneLimit setrlimit .nofile m.maxFds "RLIMIT_NOFILE" r else r
  if m.maxOutMb > 0 then applyOneLimit setrlimit .fsize (mib m.maxOutMb) "RLIMIT_FSIZE" r else r

/-- The answer that `worker_entry` gets (worker.cpp:611-618), when the scheduler
    hints succeed. -/
def limitSetup (setrlimit : SetRLimit) (m : Meta) : Except String Unit :=
  let r := applyResourceLimits setrlimit m
  if r.ok then .ok () else .error r.err

/-! ## Timers -/

/-- `struct itimerspec`. -/
structure ITimerSpec where
  valueSec : ℤ
  valueNsec : ℤ
  intervalSec : ℤ := 0
  intervalNsec : ℤ := 0
  deriving DecidableEq

/-- A `kevent` for `EVFILT_TIMER`; `data` is in microseconds. -/
structure TimerEvent where
  oneshot : Bool
  data : ℤ
  deriving DecidableEq

/-- A timer as it is handed to the kernel. -/
inductive Timer where
  | timerfd (spec : ITimerSpec)
  | kqueue (event : TimerEvent)
  deriving DecidableEq

/-- The nanoseconds until the timer first expires. -/
def Timer.firstNs : Timer → ℤ
  | timerfd spec => spec.valueSec * 1000000000 + spec.valueNsec
  | kqueue event => event.data * 1000

/-- `Poller::watch_timer` (os/linux/platform.cpp:122-147). -/
def watchTimerLinux (firstMs everyMs : ℕ) : Timer :=
  let sec := toInt64 (firstMs / 1000 : ℕ)
  let nsec : ℤ := (firstMs % 1000 * 1000000 : ℕ)
  let nsec := if sec = 0 ∧ nsec = 0 then 1 else nsec
  if everyMs > 0 then
    .timerfd ⟨sec, nsec, toInt64 (everyMs / 1000 : ℕ), (everyMs % 1000 * 1000000 : ℕ)⟩
  else .timerfd { valueSec := sec, valueNsec := nsec }

/-- `Poller::watch_timer` (os/mac/platform.cpp:134-150). -/
def watchTimerMac (firstMs everyMs : ℕ) : Timer :=
  let ms := if firstMs = 0 then 1 else firstMs
  .kqueue ⟨everyMs = 0, toInt64 (wrapMul ms 1000)⟩

/-- The timer that `watch_timer` of the backend asks for. -/
def Backend.watchTimer : Backend → ℕ → ℕ → Timer
  | linux => watchTimerLinux
  | mac => watchTimerMac

/-- The deadline of `launch_job` (controller.cpp:623-627): the new `deadline_id`,
    and the timer if it could be armed. -/
def armDeadline (os : Backend) (arm : Timer → Except String ℤ) (m : Meta) (deadlineId : ℤ) :
    ℤ × Option Timer :=
  if m.deadlineS > 0 then
    let timer := os.watchTimer (wrapMul m.deadlineS 1000) 0
    match arm timer with
    | .error _ => (-1, none)
    | .ok id => (id, some timer)
  else (deadlineId, none)

/-! ## What a worker asks for -/

theorem mib_eq (n : ℕ) : mib n = n * 2 ^ 20 % 2 ^ 64 := by
  unfold mib wrapMul
  have hmib : 1024 * 1024 = 2 ^ 20 := by norm_num
  rw [Nat.mod_mul_mod, Nat.mul_assoc, hmib]

theorem mib_eq_iff (n : ℕ) : mib n = n * 2 ^ 20 ↔ n < 2 ^ 44 := by
  rw [mib_eq, Nat.mod_eq_iff_lt (by norm_num)]
  omega

/-- The non-zero limits of a record, in the order in which they are set. -/
def limitRequests (m : Meta) : List (Resource × ℕ) :=
  [(.as, mib m.memMb), (.cpu, m.cpuSec), (.nofile, m.maxFds), (.fsize, mib m.maxOutMb)].filter
    fun request => request.2 ≠ 0

/-- A run that has asked for exactly these limits. -/
structure LimitRun.Asked (setrlimit : SetRLimit) (asked : List (Resource × ℕ)) (r : LimitRun) :
    Prop where
  requests : r.requests = asked
  ok : r.ok = true ↔ ∀ request : Resource × ℕ, request ∈ asked → setrlimit request.1 request.2 = .ok ()

theorem applyOneLimit_asked {setrlimit : SetRLimit} {requests : List (Resource × ℕ)} {r : LimitRun}
    (h : r.Asked setrlimit requests) (resource : Resource) (value : ℕ) (name : String) :
    (applyOneLimit setrlimit resource value name r).Asked setrlimit
      (requests ++ [(resource, value)].filter fun request => request.2 ≠ 0) := by
  unfold applyOneLimit
  split_ifs with hzero
  · simpa [hzero] using h
  · have hfilter : ([(resource, value)].filter fun request => request.2 ≠ 0) =
        [(resource, value)] := by simp [hzero]
    rw [hfilter]
    dsimp only
    split
    · next errno hanswer =>
      constructor
      · simp [h.requests]
      · simp only [Bool.false_eq_true, false_iff]
        intro hall
        have hrefused := hall (resource, value) (by simp)
        rw [hanswer] at hrefused
        cases hrefused
    · next hanswer =>
      constructor
      · simp [h.requests]
      · simp [h.ok, or_imp, forall_and, hanswer]

/-- A limit of 0 is not asked for, whether the field or the product is 0. -/
theorem applyOneLimit_zero {setrlimit : SetRLimit} {resource : Resource} {name : String}
    {r : LimitRun} : applyOneLimit setrlimit resource 0 name r = r := if_pos rfl

theorem applyResourceLimits_eq (setrlimit : SetRLimit) (m : Meta) :
    applyResourceLimits setrlimit m =
      applyOneLimit setrlimit .fsize (mib m.maxOutMb) "RLIMIT_FSIZE"
        (applyOneLimit setrlimit .nofile m.maxFds "RLIMIT_NOFILE"
          (applyOneLimit setrlimit .cpu m.cpuSec "RLIMIT_CPU"
            (applyOneLimit setrlimit .as (mib m.memMb) "RLIMIT_AS" {}))) := by
  have hguard : ∀ (n value : ℕ) (resource : Resource) (name : String) (r : LimitRun),
      (n = 0 → value = 0) →
      (if n > 0 then applyOneLimit setrlimit resource value name r else r) =
        applyOneLimit setrlimit resource value name r := by
    intro n value resource name r hzero
    split_ifs with hpos
    · rfl
    · rw [hzero (by omega), applyOneLimit_zero]
  have hmib : ∀ n, n = 0 → mib n = 0 := by
    rintro n rfl
    rfl
  unfold applyResourceLimits
  dsimp only
  rw [hguard _ _ _ _ _ (hmib m.memMb), hguard _ _ _ _ _ id, hguard _ _ _ _ _ id,
    hguard _ _ _ _ _ (hmib m.maxOutMb)]

/-- What a worker asks `setrlimit` for, and when it may go on. -/
theorem applyResourceLimits_asked (setrlimit : SetRLimit) (m : Meta) :
    (applyResourceLimits setrlimit m).Asked setrlimit (limitRequests m) := by
  have hstart : LimitRun.Asked setrlimit [] {} := ⟨rfl, by simp⟩
  have hall := applyOneLimit_asked (applyOneLimit_asked (applyOneLimit_asked (applyOneLimit_asked
    hstart .as (mib m.memMb) "RLIMIT_AS") .cpu m.cpuSec "RLIMIT_CPU")
    .nofile m.maxFds "RLIMIT_NOFILE") .fsize (mib m.maxOutMb) "RLIMIT_FSIZE"
  rw [applyResourceLimits_eq]
  have hrequests : limitRequests m =
      [] ++ [(Resource.as, mib m.memMb)].filter (fun request => request.2 ≠ 0) ++
        [(Resource.cpu, m.cpuSec)].filter (fun request => request.2 ≠ 0) ++
        [(Resource.nofile, m.maxFds)].filter (fun request => request.2 ≠ 0) ++
        [(Resource.fsize, mib m.maxOutMb)].filter (fun request => request.2 ≠ 0) := by
    unfold limitRequests
    simp only [← List.filter_append, List.nil_append, List.cons_append]
  rw [hrequests]
  exact hall

theorem applyResourceLimits_requests (setrlimit : SetRLimit) (m : Meta) :
    (applyResourceLimits setrlimit m).requests = limitRequests m :=
  (applyResourceLimits_asked setrlimit m).requests

/-- A limit that `setrlimit` refuses ends the worker with a bad status. -/
theorem limitSetup_refused {env : WorkerEnv} {l : Launch} {setrlimit : SetRLimit}
    (hsetup : env.setup = limitSetup setrlimit l.jobMeta)
    (hrefused : (applyResourceLimits setrlimit l.jobMeta).ok = false) :
    (workerEntry env l).getLast? = some (.exit 1) := by
  unfold limitSetup at hsetup
  dsimp only at hsetup
  rw [hrefused] at hsetup
  unfold workerEntry
  rw [hsetup]
  simp only [Bool.false_eq_true, reduceIte]
  split_ifs
  · rfl
  · unfold failChunk
    rw [List.getLast?_concat]
  · unfold failChunk
    rw [List.getLast?_concat]

theorem lookup_filter_self (resource : Resource) (value : ℕ) {others : List (Resource × ℕ)}
    (hothers : ∀ other ∈ others, other.1 ≠ resource) :
    (((resource, value) :: others).filter fun request => request.2 ≠ 0).lookup resource =
      if value = 0 then none else some value := by
  have hnone : ∀ requests : List (Resource × ℕ), (∀ other ∈ requests, other.1 ≠ resource) →
      requests.lookup resource = none := by
    intro requests hrequests
    rw [List.lookup_eq_none_iff]
    intro other hother
    simpa using (hrequests other hother).symm
  by_cases hzero : value = 0
  · rw [List.filter_cons_of_neg (by simpa using hzero), if_pos hzero]
    exact hnone _ fun other hother => hothers other (List.mem_of_mem_filter hother)
  · rw [List.filter_cons_of_pos (by simpa using hzero), if_neg hzero, List.lookup_cons_self]

theorem lookup_filter_other {resource : Resource} {other : Resource × ℕ}
    (hother : other.1 ≠ resource) (requests : List (Resource × ℕ)) :
    ((other :: requests).filter fun request => request.2 ≠ 0).lookup resource =
      (requests.filter fun request => request.2 ≠ 0).lookup resource := by
  have hne : (resource == other.1) = false := by simpa using hother.symm
  rw [List.filter_cons]
  split_ifs
  · rw [List.lookup_cons, hne]
  · rfl

theorem lookup_as (m : Meta) :
    (limitRequests m).lookup .as = if mib m.memMb = 0 then none else some (mib m.memMb) :=
  lookup_filter_self .as (mib m.memMb) (by simp)

theorem lookup_fsize (m : Meta) :
    (limitRequests m).lookup .fsize = if mib m.maxOutMb = 0 then none else some (mib m.maxOutMb) := by
  unfold limitRequests
  rw [lookup_filter_other (by simp), lookup_filter_other (by simp), lookup_filter_other (by simp)]
  exact lookup_filter_self .fsize (mib m.maxOutMb) (by simp)

/-- A limit is asked for as it was given exactly when its bytes fit in 64 bits. -/
theorem limit_exact_iff {n : ℕ} (hpos : n > 0) :
    (if mib n = 0 then none else some (mib n)) = some (n * 2 ^ 20) ↔ n < 2 ^ 44 := by
  rw [← mib_eq_iff]
  split_ifs with hzero
  · constructor
    · intro h
      cases h
    · intro hexact
      omega
  · rw [Option.some.injEq]

/-! ## When a timer expires -/

/-- The deadline can be handed to the backend as it is. -/
def Backend.Fits : Backend → ℕ → Prop
  | linux, seconds => seconds * 1000 < 2 ^ 64
  | mac, seconds => seconds * 1000000 < 2 ^ 63

theorem firstNs_watchTimerLinux {ms : ℕ} (hms : ms < 2 ^ 64) :
    (watchTimerLinux ms 0).firstNs = if ms = 0 then 1 else (ms : ℤ) * 1000000 := by
  have hsec : toInt64 (ms / 1000 : ℕ) = (ms / 1000 : ℕ) := toInt64_of_range (by omega)
  unfold watchTimerLinux
  dsimp only
  rw [if_neg (by omega), hsec]
  simp only [Timer.firstNs]
  split_ifs <;> omega

theorem firstNs_watchTimerMac (ms : ℕ) :
    (watchTimerMac ms 0).firstNs =
      toInt64 (wrapMul (if ms = 0 then 1 else ms) 1000) * 1000 := by
  simp only [watchTimerMac, Timer.firstNs]

/-- **When the deadline timer expires.** Exactly as requested if and only if the
    products fit. -/
theorem firstNs_watchTimer_iff (os : Backend) {seconds : ℕ} (hpos : seconds > 0) :
    (os.watchTimer (wrapMul seconds 1000) 0).firstNs = (seconds : ℤ) * 1000 * 1000000 ↔
      os.Fits seconds := by
  cases os with
  | linux =>
    have hms : wrapMul seconds 1000 < 2 ^ 64 := Nat.mod_lt _ (by norm_num)
    show (watchTimerLinux (wrapMul seconds 1000) 0).firstNs = _ ↔ seconds * 1000 < 2 ^ 64
    rw [firstNs_watchTimerLinux hms]
    have hwrap : wrapMul seconds 1000 = seconds * 1000 ↔ seconds * 1000 < 2 ^ 64 := by
      unfold wrapMul
      exact Nat.mod_eq_iff_lt (by norm_num)
    rw [← hwrap]
    split_ifs <;> omega
  | mac =>
    show (watchTimerMac (wrapMul seconds 1000) 0).firstNs = _ ↔ seconds * 1000000 < 2 ^ 63
    rw [firstNs_watchTimerMac]
    constructor
    · intro hexact
      have hlt : ∀ n : ℤ, toInt64 n < 2 ^ 63 := fun n => by
        have := Int.bmod_lt (x := n) (m := 2 ^ 64) (by norm_num)
        unfold toInt64
        omega
      have hdata := hlt (wrapMul (if wrapMul seconds 1000 = 0 then 1 else wrapMul seconds 1000) 1000)
      omega
    · intro hfits
      have hmicros : seconds * 1000 * 1000 < 2 ^ 63 := by rwa [Nat.mul_assoc]
      have hmillis : seconds * 1000 < 2 ^ 63 :=
        lt_of_le_of_lt (Nat.le_mul_of_pos_right _ (by norm_num)) hmicros
      have hword : 2 ^ 63 < 2 ^ 64 := by norm_num
      have hrange : -2 ^ 63 ≤ ((seconds * 1000 * 1000 : ℕ) : ℤ) ∧
          ((seconds * 1000 * 1000 : ℕ) : ℤ) < 2 ^ 63 :=
        ⟨by omega, by exact_mod_cast hmicros⟩
      rw [wrapMul_of_lt (hmillis.trans hword), if_neg (by omega),
        wrapMul_of_lt (hmicros.trans hword), toInt64_of_range hrange]
      push_cast
      ring

theorem armDeadline_exact_iff {os : Backend} {arm : Timer → Except String ℤ} {m : Meta}
    (deadlineId : ℤ) (hpos : m.deadlineS > 0) :
    (∃ timer, (armDeadline os arm m deadlineId).2 = some timer ∧
        timer.firstNs = (m.deadlineS : ℤ) * 1000 * 1000000) ↔
      (arm (os.watchTimer (wrapMul m.deadlineS 1000) 0)).isOk ∧ os.Fits m.deadlineS := by
  rw [← firstNs_watchTimer_iff os hpos]
  unfold armDeadline
  rw [if_pos hpos]
  dsimp only
  split
  · next err harm => simp [harm, Except.isOk, Except.toBool]
  · next id harm => simp [harm, Except.isOk, Except.toBool]

/-- The id that `spawnJob` stores. -/
theorem armDeadline_id {os : Backend} {arm : Timer → Except String ℤ} {m : Meta} {timer : ℤ}
    (htimer : arm (os.watchTimer (wrapMul m.deadlineS 1000) 0) = .ok timer) (deadlineId : ℤ) :
    (armDeadline os arm m deadlineId).1 = if m.deadlineS > 0 then timer else deadlineId := by
  unfold armDeadline
  split_ifs
  · simp only [htimer]
  · rfl

/-! ## The theorem -/

/-- How the system answers the workers and the controller of one launch. -/
structure LimitEnv where
  os : Backend
  /-- `setrlimit`, for each worker. -/
  setrlimit : ℕ → SetRLimit
  /-- The calls that `watch_timer` makes for a timer. -/
  arm : Timer → Except String ℤ

/-- Whatever else a worker meets whose limits are answered so, its job fails. -/
def FailsJob (setrlimit : SetRLimit) (m : Meta) : Prop :=
  ∀ (kernel : WorkerEnv) (l : Launch), l.jobMeta = m → kernel.setup = limitSetup setrlimit m →
    ∃ status, (workerEntry kernel l).getLast? = some (.exit status) ∧
      ∀ (job : LiveJob) (inspect : Except String ℕ),
        (∃ pr ∈ job.procs, pr.how = describeWait (.exited status)) →
          ∃ why, resultsOk job inspect = .error why

/-- The limits of the record hold for the job as they were given, or a worker is
    refused one and the job fails. -/
def LimitEnv.Enforced (env : LimitEnv) (m : Meta) (deadlineId : ℤ) : Prop :=
  (∃ i < (launchRanges m).length, (applyResourceLimits (env.setrlimit i) m).ok = false ∧
      FailsJob (env.setrlimit i) m) ∨
    ((∀ i < (launchRanges m).length,
        (m.memMb > 0 → (applyResourceLimits (env.setrlimit i) m).requests.lookup .as =
          some (m.memMb * 2 ^ 20)) ∧
        (m.maxOutMb > 0 → (applyResourceLimits (env.setrlimit i) m).requests.lookup .fsize =
          some (m.maxOutMb * 2 ^ 20))) ∧
      (m.deadlineS > 0 → ∃ timer, (armDeadline env.os env.arm m deadlineId).2 = some timer ∧
        timer.firstNs = (m.deadlineS : ℤ) * 1000 * 1000000))

/-- A worker is refused one of its limits. -/
def LimitEnv.Refuses (env : LimitEnv) (m : Meta) : Prop :=
  ∃ i < (launchRanges m).length, ∃ request ∈ limitRequests m,
    env.setrlimit i request.1 request.2 ≠ .ok ()

/-- A refused limit fails the job. -/
theorem failsJob_of_refused {setrlimit : SetRLimit} {m : Meta}
    (hrefused : (applyResourceLimits setrlimit m).ok = false) : FailsJob setrlimit m := by
  rintro kernel l rfl hsetup
  refine ⟨1, limitSetup_refused hsetup hrefused, fun job inspect ⟨pr, hpr, hhow⟩ => ?_⟩
  refine resultsOk_bad_exit hpr ?_
  rw [hhow]
  decide

theorem LimitEnv.refuses_iff (env : LimitEnv) (m : Meta) :
    (∃ i < (launchRanges m).length, (applyResourceLimits (env.setrlimit i) m).ok = false ∧
      FailsJob (env.setrlimit i) m) ↔ env.Refuses m := by
  unfold Refuses
  constructor
  · rintro ⟨i, hi, hok, -⟩
    have hasked := (applyResourceLimits_asked (env.setrlimit i) m).ok
    rw [hok] at hasked
    simp only [Bool.false_eq_true, false_iff, not_forall] at hasked
    obtain ⟨request, hmem, hrefused⟩ := hasked
    exact ⟨i, hi, request, hmem, hrefused⟩
  · rintro ⟨i, hi, request, hmem, hrefused⟩
    have hok : (applyResourceLimits (env.setrlimit i) m).ok = false := by
      rw [← Bool.not_eq_true, (applyResourceLimits_asked (env.setrlimit i) m).ok]
      exact fun hall => hrefused (hall request hmem)
    exact ⟨i, hi, hok, failsJob_of_refused hok⟩

theorem launchRanges_pos (m : Meta) : 0 < (launchRanges m).length :=
  List.length_pos_iff.mpr (launchRanges_ne_nil m)

/-- **Limits are enforced as requested** exactly when no product exceeds its word
    and the deadline can be armed; otherwise only a refused limit fails the job. -/
theorem limits_enforced (env : LimitEnv) (m : Meta) (deadlineId : ℤ) :
    env.Enforced m deadlineId ↔
      env.Refuses m ∨
        (m.memMb < 2 ^ 44 ∧ m.maxOutMb < 2 ^ 44 ∧
          (m.deadlineS > 0 → (env.arm (env.os.watchTimer (wrapMul m.deadlineS 1000) 0)).isOk ∧
            env.os.Fits m.deadlineS)) := by
  unfold LimitEnv.Enforced
  rw [env.refuses_iff]
  simp only [applyResourceLimits_requests]
  have hworker := launchRanges_pos m
  have hmem : (m.memMb > 0 → (limitRequests m).lookup .as = some (m.memMb * 2 ^ 20)) ↔
      m.memMb < 2 ^ 44 := by
    rw [lookup_as]
    constructor
    · intro hexact
      by_cases hpos : m.memMb > 0
      · exact (limit_exact_iff hpos).mp (hexact hpos)
      · omega
    · exact fun hlt hpos => (limit_exact_iff hpos).mpr hlt
  have hout : (m.maxOutMb > 0 → (limitRequests m).lookup .fsize = some (m.maxOutMb * 2 ^ 20)) ↔
      m.maxOutMb < 2 ^ 44 := by
    rw [lookup_fsize]
    constructor
    · intro hexact
      by_cases hpos : m.maxOutMb > 0
      · exact (limit_exact_iff hpos).mp (hexact hpos)
      · omega
    · exact fun hlt hpos => (limit_exact_iff hpos).mpr hlt
  have hdeadline := fun hpos => @armDeadline_exact_iff env.os env.arm m deadlineId hpos
  rw [hmem, hout]
  constructor
  · rintro (hrefused | ⟨hlimits, htimer⟩)
    · exact .inl hrefused
    · obtain ⟨hmem, hout⟩ := hlimits 0 hworker
      exact .inr ⟨hmem, hout, fun hpos => (hdeadline hpos).mp (htimer hpos)⟩
  · rintro (hrefused | ⟨hmem, hout, htimer⟩)
    · exact .inl hrefused
    · exact .inr ⟨fun _ _ => ⟨hmem, hout⟩, fun hpos => (hdeadline hpos).mpr (htimer hpos)⟩

/-- A kernel that grants every call. -/
def LimitEnv.smooth (os : Backend) : LimitEnv where
  os := os
  setrlimit := fun _ _ _ => .ok ()
  arm := fun _ => .ok 3

/-- `2^44` MiB of memory are no limit at all, and a deadline of `2^61` seconds
    expires after a nanosecond. -/
theorem limit_skipped :
    let m : Meta := { op := "count", input := "/a", memMb := 2 ^ 44, deadlineS := 2 ^ 61 }
    let env := LimitEnv.smooth .linux
    validateMeta m = none ∧
      (∀ i, applyResourceLimits (env.setrlimit i) m = {}) ∧
      (armDeadline .linux env.arm m (-1)).2 = some (.timerfd ⟨0, 1, 0, 0⟩) ∧
      ¬ env.Enforced m (-1) := by
  intro m env
  have hrun : applyResourceLimits (fun _ _ => .ok ()) m = {} := by decide +kernel
  have hnone : ∀ i, applyResourceLimits (env.setrlimit i) m = {} := fun _ => hrun
  refine ⟨by decide +kernel, hnone, by decide +kernel, ?_⟩
  rintro (⟨i, -, hok, -⟩ | ⟨hlimits, -⟩)
  · rw [hnone] at hok
    cases hok
  · have hasked := (hlimits 0 (launchRanges_pos m)).1 (show 2 ^ 44 > 0 by norm_num)
    rw [hnone] at hasked
    cases hasked

end Forge
