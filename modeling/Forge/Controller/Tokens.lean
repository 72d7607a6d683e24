import Forge.Controller.Runs

/-!
# Tokens of the poller

`pack_wake`, `wake_kind` and `wake_job` (controller.cpp:31-41) and the tokens that
`setup` (controller.cpp:829-833) and `launch_job` (controller.cpp:619-625) register.
`release_runtime` takes the tokens of a job back when the job leaves `c.live`, so
the registrations can be read off the live jobs.

* `wakeKind_packWake`, `wakeJob_packWake`: what becomes of a packed token.
* `tokens_unambiguous`: the tokens are distinct, and each is delivered as what it
  was registered for, exactly when the ids of the jobs that have one fit in 56 bits.
* `tokens_collide`: two live jobs that share a deadline token.
-/

namespace Forge

/-! ## Packing -/

/-- `enum class Wake` (controller.cpp:31). -/
inductive Wake where
  | signal
  | fifo
  | tick
  | jobEvent
  | jobDeadline
  deriving DecidableEq

def Wake.code : Wake → ℕ
  | signal => 1
  | fifo => 2
  | tick => 3
  | jobEvent => 4
  | jobDeadline => 5

/-- `pack_wake` (controller.cpp:33-35). -/
def packWake (kind : Wake) (job : ℕ) : ℕ := kind.code <<< 56 ||| (job &&& 0x00ffffffffffffff)

/-- `wake_kind` (controller.cpp:37-39); `none` where the switch of the loop has no case. -/
def wakeKind (packed : ℕ) : Option Wake :=
  match packed >>> 56 with
  | 1 => some .signal
  | 2 => some .fifo
  | 3 => some .tick
  | 4 => some .jobEvent
  | 5 => some .jobDeadline
  | _ => none

/-- `wake_job` (controller.cpp:41). -/
def wakeJob (packed : ℕ) : ℕ := packed &&& 0x00ffffffffffffff

theorem and_mask (n : ℕ) : n &&& 0x00ffffffffffffff = n % 2 ^ 56 :=
  Nat.and_two_pow_sub_one_eq_mod n 56

/-- The kind above, the low 56 bits of the id below. -/
theorem packWake_eq (kind : Wake) (job : ℕ) :
    packWake kind job = kind.code * 2 ^ 56 + job % 2 ^ 56 := by
  unfold packWake
  rw [and_mask, ← Nat.shiftLeft_add_eq_or_of_lt (Nat.mod_lt _ (by norm_num)), Nat.shiftLeft_eq]

/-- The kind of a packed token is read back. -/
theorem wakeKind_packWake (kind : Wake) (job : ℕ) : wakeKind (packWake kind job) = some kind := by
  have hkind : packWake kind job >>> 56 = kind.code := by
    rw [packWake_eq, Nat.shiftRight_eq_div_pow, Nat.mul_comm, Nat.mul_add_div (by norm_num),
      Nat.div_eq_of_lt (Nat.mod_lt _ (by norm_num)), Nat.add_zero]
  unfold wakeKind
  rw [hkind]
  cases kind <;> rfl

/-- Of the id, the low 56 bits are read back. -/
theorem wakeJob_packWake (kind : Wake) (job : ℕ) : wakeJob (packWake kind job) = job % 2 ^ 56 := by
  unfold wakeJob
  rw [and_mask, packWake_eq, Nat.mul_add_mod_self_right, Nat.mod_mod]

/-! ## Registrations -/

/-- What the poller watches for a live job. `watched` says whether the `watch_fd`
    call of its launch succeeded. -/
def LiveJob.registrations (watched : Bool) (id : ℕ) (job : LiveJob) : List (Wake × ℕ) :=
  (if job.shm.isSome ∧ watched then [(.jobEvent, id)] else []) ++
    if 0 ≤ job.deadlineId then [(.jobDeadline, id)] else []

/-- What the poller watches for the controller itself and for the live jobs. -/
def Controller.registrations (watched : ℕ → Bool) (c : Controller) : List (Wake × ℕ) :=
  [(.signal, 0), (.fifo, 0), (.tick, 0)] ++
    c.live.entries.flatMap fun entry => entry.2.registrations (watched entry.1) entry.1

/-- The token of a registration. -/
def token (r : Wake × ℕ) : ℕ := packWake r.1 r.2

/-- What the loop does with a token that needs no further data
    (controller.cpp:863-886); `on_event` reads the counter and logs it. -/
def onToken (o : Oracle) (packed : ℕ) (w : World) : World :=
  match wakeKind packed with
  | some .tick => onTick o w
  | some .jobDeadline => onDeadline o (wakeJob packed) w
  | _ => w

/-- The tokens are pairwise distinct, each is decoded to what it was registered
    for, and a deadline acts on its own job. -/
structure Controller.Unambiguous (o : Oracle) (watched : ℕ → Bool) (c : Controller) : Prop where
  distinct : ((c.registrations watched).map token).Nodup
  decoded : ∀ r ∈ c.registrations watched,
    wakeKind (token r) = some r.1 ∧ wakeJob (token r) = r.2
  own : ∀ id, (Wake.jobDeadline, id) ∈ c.registrations watched →
    ∀ w, onToken o (token (.jobDeadline, id)) w = onDeadline o id w

theorem LiveJob.registrations_nodup (watched : Bool) (id : ℕ) (job : LiveJob) :
    (job.registrations watched id).Nodup := by
  unfold LiveJob.registrations
  split_ifs <;> simp

theorem LiveJob.mem_registrations {watched : Bool} {id : ℕ} {job : LiveJob} {r : Wake × ℕ}
    (h : r ∈ job.registrations watched id) : r = (.jobEvent, id) ∨ r = (.jobDeadline, id) := by
  unfold LiveJob.registrations at h
  split_ifs at h <;> simp at h <;> tauto

/-- No registration is made twice: a job has at most one of each kind. -/
theorem registrations_nodup (watched : ℕ → Bool) (c : Controller) :
    (c.registrations watched).Nodup := by
  unfold Controller.registrations
  rw [List.nodup_append']
  refine ⟨by decide, ?_, ?_⟩
  · rw [List.nodup_flatMap]
    refine ⟨fun entry _ => entry.2.registrations_nodup _ _, ?_⟩
    -- the registrations of two jobs differ in the id
    have hkeys := List.nodupKeys_iff_pairwise.mp c.live.nodupKeys
    refine hkeys.imp fun {entry other} hne r hr hr' => hne ?_
    rcases LiveJob.mem_registrations hr with rfl | rfl <;>
      rcases LiveJob.mem_registrations hr' with heq | heq <;> exact (Prod.mk.inj heq).2
  · intro r hown hr
    obtain ⟨entry, -, hr⟩ := List.mem_flatMap.mp hr
    simp only [List.mem_cons, List.not_mem_nil, or_false] at hown
    rcases hown with rfl | rfl | rfl <;> rcases LiveJob.mem_registrations hr with heq | heq <;>
      cases heq

theorem Controller.unambiguous_iff (o : Oracle) (watched : ℕ → Bool) (c : Controller) :
    c.Unambiguous o watched ↔ ∀ r ∈ c.registrations watched, r.2 < 2 ^ 56 := by
  constructor
  · intro h r hr
    have hdecoded := (h.decoded r hr).2
    rw [token, wakeJob_packWake] at hdecoded
    rw [← hdecoded]
    exact Nat.mod_lt _ (by norm_num)
  · intro hsmall
    have hkind : ∀ r : Wake × ℕ, wakeKind (token r) = some r.1 := fun r => wakeKind_packWake r.1 r.2
    have hjob : ∀ r ∈ c.registrations watched, wakeJob (token r) = r.2 := by
      intro r hr
      rw [token, wakeJob_packWake, Nat.mod_eq_of_lt (hsmall r hr)]
    constructor
    · -- a token gives its registration back
      refine (registrations_nodup watched c).map_on fun r hr r' hr' heq => Prod.ext ?_ ?_
      · have hsame : some r.1 = some r'.1 := by rw [← hkind r, heq, hkind r']
        exact Option.some.inj hsame
      · rw [← hjob r hr, heq, hjob r' hr']
    · exact fun r hr => ⟨hkind r, hjob r hr⟩
    · intro id hid w
      unfold onToken
      rw [hkind, hjob _ hid]

/-- In every reachable state, **the tokens are unambiguous** exactly when every id
    they are registered for fits in 56 bits. -/
theorem tokens_unambiguous (o : Oracle) (slots : ℕ) (es : List Event) (watched : ℕ → Bool) :
    (Machine.run (World.step o) (World.start slots) es).ctl.Unambiguous o watched ↔
      ∀ r ∈ (Machine.run (World.step o) (World.start slots) es).ctl.registrations watched,
        r.2 < 2 ^ 56 :=
  Controller.unambiguous_iff o watched _

/-- Jobs 5 and `2^56 + 5` are live and have deadlines. Both have the same token, and
    the deadline of the second stops the first. -/
theorem tokens_collide :
    let o := Oracle.smooth fun _ i => 7 + i
    let m (id : ℕ) : Meta := { execMeta id with deadlineS := 60 }
    let w := Machine.run (World.step o) (World.start 2)
      [.handled .recover, .handled (.record 5 (m 5)), .handled (.line "SUBMIT 5".toList),
       .handled (.record 72057594037927941 (m 72057594037927941)),
       .handled (.line "SUBMIT 72057594037927941".toList)]
    w.ctl.registrations (fun _ => true) =
        [(.signal, 0), (.fifo, 0), (.tick, 0), (.jobDeadline, 72057594037927941),
          (.jobDeadline, 5)] ∧
      token (.jobDeadline, 72057594037927941) = token (.jobDeadline, 5) ∧
      ((onToken o (token (.jobDeadline, 72057594037927941)) w).ctl.live.lookup 5).map
        (·.stopReason) = some "timed_out" := by
  decide +kernel

end Forge
