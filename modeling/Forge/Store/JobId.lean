import Forge.Lib.Run
import Forge.Store.Parse

/-!
# `allocate_job_id` under failures and kills

Model of store.cpp:247-302. Any number of calls, from any number of processes,
compete for the record lock on `next_id`; the holder reads, truncates, rewrites
and syncs the file in separate system calls, each of which may fail, and may be
killed before any of them. `IdState.issued` lists the ids that calls released
the lock with, in lock order.

* `returnedIds_increasing`: ids are distinct, increasing in lock order and
  non-zero in every run that never loses the counter (`keepsCounter`).
* `returnedIds_not_nodup`: a `pwrite` that fails after the `ftruncate` leaves
  the file empty, and the next call starts again at 1.
-/

namespace Forge

/-! ## Model -/

/-- The digits `pread` found: the first 63 bytes of the file without the
    trailing newlines and NULs (store.cpp:274-281). -/
def counterText (file : List Char) : List Char :=
  (file.take 63).rdropWhile fun c => c = '\n' ∨ c = '\x00'

/-- The id the call will hand out, from what `pread` returned: `none` for an
    error, else the file (store.cpp:275-289). -/
def nextId : Option (List Char) → Except String ℕ
  | none => .ok 1
  | some file =>
    let text := counterText file
    if text = [] then .ok 1
    else
      match parseU64 text with
      | none => .error ("next_id is corrupt: " ++ String.ofList text)
      | some current => .ok ((current + 1) % 2 ^ 64)

/-- `std::to_string(next) + "\n"` (store.cpp:291). -/
def idBody (next : ℕ) : List Char := Nat.toDigits 10 next ++ ['\n']

/-- The next system call of the lock holder; `next` is its local variable. -/
inductive Stage where
  | pread
  | ftruncate (next : ℕ)
  | pwrite (next : ℕ)
  | fsync (next : ℕ)
  | unlock (next : ℕ)
  deriving DecidableEq

/-- An id a call has released the lock with. -/
structure Issue where
  call : ℕ
  id : ℕ
  returned : Bool
  deriving DecidableEq

/-- The file `next_id`, the call holding its lock, and the ids handed out. -/
structure IdState where
  file : List Char
  holder : Option (ℕ × Stage)
  issued : List Issue
  deriving DecidableEq

def IdState.start (file : List Char) : IdState := ⟨file, none, []⟩

/-- What may happen next. The arguments say how the system call ends: `ok` is
    `false` for an error, and `pwrite` writes `some k` bytes or fails. -/
inductive IdEvent where
  | lock (call : ℕ)
  | pread (ok : Bool)
  | ftruncate (ok : Bool)
  | pwrite (written : Option ℕ)
  | fsync (ok : Bool)
  | unlock
  | kill
  | ret (call : ℕ)
  deriving DecidableEq

/-- `allocate_job_id` (store.cpp:247-302), one system call at a time. An error
    return and a kill both close the descriptor, which drops the lock. -/
def IdState.step (s : IdState) (e : IdEvent) : IdState :=
  match s.holder, e with
  | none, .lock call => { s with holder := some (call, .pread) }
  | some (call, .pread), .pread ok =>
    match nextId (if ok then some s.file else none) with
    | .error _ => { s with holder := none }
    | .ok next => { s with holder := some (call, .ftruncate next) }
  | some (call, .ftruncate next), .ftruncate ok =>
    if ok then { s with file := [], holder := some (call, .pwrite next) }
    else { s with holder := none }
  | some (call, .pwrite next), .pwrite (some k) =>
    { s with file := (idBody next).take k, holder := some (call, .fsync next) }
  | some (_, .pwrite _), .pwrite none => { s with holder := none }
  | some (call, .fsync next), .fsync ok =>
    { s with holder := if ok then some (call, .unlock next) else none }
  | some (call, .unlock next), .unlock =>
    { s with holder := none, issued := s.issued ++ [⟨call, next, false⟩] }
  | some _, .kill => { s with holder := none }
  | _, .ret call =>
    { s with issued := s.issued.map fun i => if i.call = call then { i with returned := true } else i }
  | _, _ => s

/-- The ids of the calls that returned `true`, in lock order. -/
def IdState.returnedIds (s : IdState) : List ℕ := (s.issued.filter (·.returned)).map (·.id)

/-! ## The condition -/

/-- The step does not lose the counter: once an id has been handed out, no
    `pread` fails and no call dies or fails between its `ftruncate` and the end
    of its `pwrite`; a `pwrite` stores at least the digits; and a counter of
    `2^64 - 1` is not read. -/
def keepsCounter (s : IdState) (e : IdEvent) : Bool :=
  match s.holder, e with
  | some (_, .pread), .pread true => parseU64 (counterText s.file) ≠ some uint64Max
  | some (_, .pread), .pread false => s.issued = []
  | some (_, .pwrite next), .pwrite (some k) => (Nat.toDigits 10 next).length ≤ k
  | some (_, .pwrite _), .pwrite none => s.issued = []
  | some (_, .pwrite _), .kill => s.issued = []
  | _, _ => true

/-! ## Reading the counter back -/

theorem length_toDigits_le {n : ℕ} (hn : n < 2 ^ 64) : (Nat.toDigits 10 n).length ≤ 20 :=
  (Nat.length_toDigits_le_iff (by norm_num) (by norm_num)).mpr (by omega)

theorem counterText_digits {text : List Char} (hdigits : ∀ c ∈ text, c.isDigit)
    (hlen : text.length < 63) (tail : List Char) (htail : tail = [] ∨ tail = ['\n']) :
    counterText (text ++ tail) = text := by
  have hend : text.rdropWhile (fun c => c = '\n' ∨ c = '\x00') = text := by
    rw [List.rdropWhile_eq_self_iff]
    intro hne hlast
    have hd := hdigits _ (List.getLast_mem hne)
    rcases (by simpa using hlast) with h | h <;> rw [h] at hd <;> exact absurd hd (by decide)
  rcases htail with rfl | rfl
  · rw [counterText, List.append_nil, List.take_of_length_le (by omega), hend]
  · rw [counterText, List.take_of_length_le (by simp; omega),
      List.rdropWhile_concat_pos _ _ _ (by simp), hend]

/-- A body written at least as far as its last digit reads back as its number. -/
theorem nextId_written {next k : ℕ} (hnext : next < 2 ^ 64)
    (hk : (Nat.toDigits 10 next).length ≤ k) :
    nextId (some ((idBody next).take k)) = .ok ((next + 1) % 2 ^ 64) := by
  have hlen := length_toDigits_le hnext
  have htext : counterText ((idBody next).take k) = Nat.toDigits 10 next := by
    rw [idBody, List.take_append, List.take_of_length_le hk]
    apply counterText_digits (fun c hc => Nat.isDigit_of_mem_toDigits (by norm_num) (by norm_num) hc)
      (by omega)
    rcases Nat.eq_or_lt_of_le hk with h | h
    · left; simp [h]
    · right; exact List.take_of_length_le (by simp; omega)
  simp only [nextId, htext, Nat.toDigits_ne_nil, if_false, parseU64_toDigits hnext]

/-! ## The invariant -/

/-- A call that reads `file` gets an id above `l` (or the wrapped value 0). -/
def ReadsAbove (file : List Char) (l : ℕ) : Prop :=
  ∀ n, nextId (some file) = .ok n → n = 0 ∨ l < n

/-- What the holder's stage guarantees about the ids `ids` handed out before. -/
def StageSafe (file : List Char) (ids : List ℕ) : Option (ℕ × Stage) → Prop
  | none => ∀ l ∈ ids, ReadsAbove file l
  | some (_, .pread) => ∀ l ∈ ids, ReadsAbove file l
  | some (_, .ftruncate next) =>
    next ≠ 0 ∧ next < 2 ^ 64 ∧ (∀ l ∈ ids, l < next) ∧ ∀ l ∈ ids, ReadsAbove file l
  | some (_, .pwrite next) => next ≠ 0 ∧ next < 2 ^ 64 ∧ ∀ l ∈ ids, l < next
  | some (_, .fsync next) => next ≠ 0 ∧ (∀ l ∈ ids, l < next) ∧ ReadsAbove file next
  | some (_, .unlock next) => next ≠ 0 ∧ (∀ l ∈ ids, l < next) ∧ ReadsAbove file next

/-- The ids handed out increase, none is 0, and the next one will be larger. -/
structure IdState.Inv (s : IdState) : Prop where
  increasing : (s.issued.map (·.id)).Pairwise (· < ·)
  nonzero : 0 ∉ s.issued.map (·.id)
  stage : StageSafe s.file (s.issued.map (·.id)) s.holder

theorem ReadsAbove.mono {file : List Char} {l m : ℕ} (h : ReadsAbove file m) (hlm : l < m) :
    ReadsAbove file l := fun n hn => (h n hn).imp_right fun hm => hlm.trans hm

theorem nextId_lt {file : Option (List Char)} {n : ℕ} (h : nextId file = .ok n) : n < 2 ^ 64 := by
  unfold nextId at h
  split at h
  · cases h; norm_num
  · dsimp only at h
    split_ifs at h
    · cases h; norm_num
    · split at h
      · cases h
      · cases h; exact Nat.mod_lt _ (by norm_num)

/-- Only a counter of `2^64 - 1` wraps to the id 0. -/
theorem nextId_ne_zero {file : List Char} (h : parseU64 (counterText file) ≠ some uint64Max)
    {n : ℕ} (hn : nextId (some file) = .ok n) : n ≠ 0 := by
  rintro rfl
  simp only [nextId] at hn
  split_ifs at hn with hnil
  · cases hn
  · cases hp : parseU64 (counterText file) with
    | none => rw [hp] at hn; cases hn
    | some v =>
      rw [hp] at hn h
      have hv := parseU64_lt hp
      simp only [Except.ok.injEq] at hn
      apply h
      unfold uint64Max
      congr 1
      omega

/-- Marking a call as returned changes no id. -/
theorem map_id_markReturned (issued : List Issue) (call : ℕ) :
    (issued.map fun i => if i.call = call then { i with returned := true } else i).map (·.id) =
      issued.map (·.id) := by
  rw [List.map_map]
  apply List.map_congr_left
  intro i _
  simp only [Function.comp]
  split_ifs <;> rfl

/-- A file rewritten with `next` reads back above `next`. -/
theorem readsAbove_written {next k : ℕ} (hnext : next < 2 ^ 64)
    (hk : (Nat.toDigits 10 next).length ≤ k) : ReadsAbove ((idBody next).take k) next := by
  intro n hn
  rw [nextId_written hnext hk, Except.ok.injEq] at hn
  omega

/-- While no id has been handed out the file may hold anything. -/
theorem readsAbove_of_no_issue {file : List Char} {issued : List Issue} (h : issued = []) :
    ∀ l ∈ issued.map (·.id), ReadsAbove file l := by
  subst h
  intro l hl
  exact absurd hl List.not_mem_nil

theorem IdState.Inv.markReturned {s : IdState} (hs : s.Inv) (call : ℕ) :
    IdState.Inv { s with
      issued := s.issued.map fun i => if i.call = call then { i with returned := true } else i } where
  increasing := by rw [map_id_markReturned]; exact hs.increasing
  nonzero := by rw [map_id_markReturned]; exact hs.nonzero
  stage := by rw [map_id_markReturned]; exact hs.stage

/-- Dropping the lock before the `ftruncate` or after the `pwrite` leaves a
    file that reads back above every id handed out. -/
theorem IdState.Inv.dropLock {s : IdState} (hs : s.Inv)
    (hkeep : ∀ call next, s.holder = some (call, .pwrite next) → s.issued = []) :
    IdState.Inv { s with holder := none } where
  increasing := hs.increasing
  nonzero := hs.nonzero
  stage := by
    have hstage := hs.stage
    rcases hholder : s.holder with _ | ⟨call, _ | next | next | next | next⟩ <;>
      rw [hholder] at hstage
    · exact hstage
    · exact hstage
    · exact hstage.2.2.2
    · exact readsAbove_of_no_issue (hkeep call next hholder)
    · exact fun l hl => hstage.2.2.mono (hstage.2.1 l hl)
    · exact fun l hl => hstage.2.2.mono (hstage.2.1 l hl)

/-- Releasing the lock hands out `next`, above every earlier id. -/
theorem IdState.Inv.unlock {s : IdState} (hs : s.Inv) {call next : ℕ}
    (hholder : s.holder = some (call, .unlock next)) :
    IdState.Inv { s with holder := none, issued := s.issued ++ [⟨call, next, false⟩] } := by
  have hstage := hs.stage
  rw [hholder] at hstage
  obtain ⟨hne, hlt, hfile⟩ := hstage
  have hids : (s.issued ++ [Issue.mk call next false]).map (·.id) =
      s.issued.map (·.id) ++ [next] := by
    rw [List.map_append, List.map_singleton]
  constructor <;> rw [hids]
  · rw [List.pairwise_append]
    refine ⟨hs.increasing, List.pairwise_singleton _ _, ?_⟩
    intro l hl m hm
    rw [List.mem_singleton.mp hm]
    exact hlt l hl
  · rw [List.mem_append, List.mem_singleton]
    rintro (h | h)
    · exact hs.nonzero h
    · exact hne h.symm
  · intro l hl
    rcases List.mem_append.mp hl with h | h
    · exact hfile.mono (hlt l h)
    · rw [List.mem_singleton.mp h]
      exact hfile

/-- One system call keeps the invariant, unless it loses the counter. -/
theorem IdState.step_inv (s : IdState) (e : IdEvent) (hs : s.Inv) (hgood : keepsCounter s e) :
    (s.step e).Inv := by
  obtain ⟨file, holder, issued⟩ := s
  have hstage := hs.stage
  -- The holder's stage in the order of the source's system calls, and for each
  -- the events that concern it; any other event leaves the state alone.
  rcases holder with _ | ⟨call, _ | next | next | next | next⟩
  case none =>
    cases e with
    | lock c => exact ⟨hs.increasing, hs.nonzero, hstage⟩
    | ret c => exact hs.markReturned c
    | _ => exact hs
  case some.pread =>
    cases e with
    | pread ok =>
      simp only [step]
      split
      next => exact hs.dropLock (by simp)
      next n hn =>
        refine ⟨hs.increasing, hs.nonzero, ?_⟩
        cases ok with
        | true =>
          have hne : n ≠ 0 := nextId_ne_zero (by simpa [keepsCounter] using hgood) hn
          exact ⟨hne, nextId_lt hn, fun l hl => (hstage l hl n hn).resolve_left hne, hstage⟩
        | false =>
          have hnone : issued = [] := by simpa [keepsCounter] using hgood
          subst hnone
          cases hn
          exact ⟨by norm_num, by norm_num, by simp, by simp⟩
    | kill => exact hs.dropLock (by simp)
    | ret c => exact hs.markReturned c
    | _ => exact hs
  case some.ftruncate =>
    cases e with
    | ftruncate ok =>
      cases ok with
      | true => exact ⟨hs.increasing, hs.nonzero, hstage.1, hstage.2.1, hstage.2.2.1⟩
      | false => exact hs.dropLock (by simp)
    | kill => exact hs.dropLock (by simp)
    | ret c => exact hs.markReturned c
    | _ => exact hs
  case some.pwrite =>
    cases e with
    | pwrite written =>
      cases written with
      | some k =>
        have hk : (Nat.toDigits 10 next).length ≤ k := by simpa [keepsCounter] using hgood
        exact ⟨hs.increasing, hs.nonzero, hstage.1, hstage.2.2,
          readsAbove_written hstage.2.1 hk⟩
      | none => exact hs.dropLock fun _ _ _ => by simpa [keepsCounter] using hgood
    | kill => exact hs.dropLock fun _ _ _ => by simpa [keepsCounter] using hgood
    | ret c => exact hs.markReturned c
    | _ => exact hs
  case some.fsync =>
    cases e with
    | fsync ok =>
      cases ok with
      | true => exact ⟨hs.increasing, hs.nonzero, hstage⟩
      | false => exact hs.dropLock (by simp)
    | kill => exact hs.dropLock (by simp)
    | ret c => exact hs.markReturned c
    | _ => exact hs
  case some.unlock =>
    cases e with
    | unlock => exact hs.unlock rfl
    | kill => exact hs.dropLock (by simp)
    | ret c => exact hs.markReturned c
    | _ => exact hs

theorem IdState.start_inv (file : List Char) : (IdState.start file).Inv where
  increasing := List.Pairwise.nil
  nonzero := List.not_mem_nil
  stage := readsAbove_of_no_issue rfl

/-! ## Main results -/

/-- **Ids are never reused while the counter is kept.** In every run of any
    number of calls whose steps all keep the counter, the ids returned are
    strictly increasing in lock order, pairwise distinct, and none is 0. -/
theorem returnedIds_increasing (file : List Char) (es : List IdEvent)
    (hkeeps : Machine.Along IdState.step (fun s e => keepsCounter s e = true)
      (IdState.start file) es) :
    (Machine.run IdState.step (IdState.start file) es).returnedIds.Pairwise (· < ·) ∧
    (Machine.run IdState.step (IdState.start file) es).returnedIds.Nodup ∧
    0 ∉ (Machine.run IdState.step (IdState.start file) es).returnedIds := by
  have hinv := Machine.run_invariant IdState.step_inv hkeeps (IdState.start_inv file)
  have hsub : ∀ s : IdState, s.returnedIds.Sublist (s.issued.map (·.id)) := fun s =>
    (List.filter_sublist).map _
  have hinc := hinv.increasing.sublist (hsub _)
  exact ⟨hinc, hinc.imp Nat.ne_of_lt, fun h => hinv.nonzero ((hsub _).subset h)⟩

/-- Two processes submit: ids 1 and 2. -/
theorem returnedIds_increasing_two :
    (Machine.run IdState.step (IdState.start [])
      [.lock 7, .pread true, .ftruncate true, .pwrite (some 2), .fsync true, .unlock, .lock 8,
       .pread true, .ftruncate true, .pwrite (some 2), .fsync true, .unlock, .ret 8,
       .ret 7]).returnedIds = [1, 2] ∧ [1, 2].Pairwise (· < ·) := by
  have hids : (Machine.run IdState.step (IdState.start [])
      [.lock 7, .pread true, .ftruncate true, .pwrite (some 2), .fsync true, .unlock, .lock 8,
       .pread true, .ftruncate true, .pwrite (some 2), .fsync true, .unlock, .ret 8,
       .ret 7]).returnedIds = [1, 2] := by decide +kernel
  refine ⟨hids, ?_⟩
  rw [← hids]
  exact (returnedIds_increasing [] _ (by decide +kernel)).1

/-- Call 7 returns 1. Call 8 truncates the file and its `pwrite` fails with
    ENOSPC, so it reports an error. Call 9 finds the file empty and returns 1
    again. -/
theorem returnedIds_not_nodup :
    ¬ (Machine.run IdState.step (IdState.start [])
      [.lock 7, .pread true, .ftruncate true, .pwrite (some 2), .fsync true, .unlock, .ret 7,
       .lock 8, .pread true, .ftruncate true, .pwrite none,
       .lock 9, .pread true, .ftruncate true, .pwrite (some 2), .fsync true, .unlock,
       .ret 9]).returnedIds.Nodup := by
  decide +kernel

end Forge
