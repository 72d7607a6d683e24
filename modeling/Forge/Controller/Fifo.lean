import Forge.Basic
import Forge.Lib.Framing
import Forge.Lib.Run

/-!
# Framing of the control fifo

Model of `on_fifo` (controller.cpp:754-779). One call appends the results of its
`read` calls to `fifo_buf`, discards the buffer if it holds more than 65536
bytes, and hands the complete lines in it to `handle_line`. The buffer's bytes
are `Char`s below 256.

* `onFifo_lines`: unless a call overflows, the lines handled are those of the
  stream, however it is cut into reads and calls.
* `onFifo_overflow_drops`: a burst that overflows loses complete lines.
-/

namespace Forge

/-! ## Model -/

/-- `if (!line.empty() && line.back() == '\r') line.pop_back()` (controller.cpp:776). -/
def chompCr (line : List Char) : List Char :=
  if line.getLast? = some '\r' then line.dropLast else line

/-- The second loop of `on_fifo` (controller.cpp:771-778): the strings passed to
    `handle_line`, and what is left in the buffer. -/
def drainLines (buf : List Char) : List (List Char) × List Char :=
  if h : '\n' ∈ buf then
    let nl := buf.idxOf '\n'
    let line := chompCr (buf.take nl)
    let later := drainLines (buf.drop (nl + 1))
    (if line = [] then later.1 else line :: later.1, later.2)
  else ([], buf)
termination_by buf.length
decreasing_by
  have := List.length_pos_of_mem h
  rw [List.length_drop]
  omega

/-- `fifo_buf` and the lines handled so far. -/
structure FifoState where
  buf : List Char
  handled : List (List Char)

def FifoState.start : FifoState := ⟨[], []⟩

/-- The buffer once the first loop has drained the fifo (controller.cpp:756-766);
    `reads` are the results of its `read` calls. -/
def FifoState.filled (s : FifoState) (reads : List (List Char)) : List Char :=
  reads.foldl (· ++ ·) s.buf

/-- `on_fifo` (controller.cpp:754-779). -/
def FifoState.onFifo (s : FifoState) (reads : List (List Char)) : FifoState :=
  let full := s.filled reads
  let kept := if full.length > 65536 then [] else full
  let drained := drainLines kept
  ⟨drained.2, s.handled ++ drained.1⟩

/-! ## What the stream says -/

/-- The lines a stream asks to be handled: its complete lines without their
    carriage returns, except the empty ones. -/
def streamLines (stream : List Char) : List (List Char) :=
  ((Framing.frames '\n' stream).map chompCr).filter (· ≠ [])

/-- The call leaves no more than the guard's bound in the buffer. -/
def FifoState.Fits (s : FifoState) (reads : List (List Char)) : Prop :=
  (s.filled reads).length ≤ 65536

/-! ## The buffer invariant -/

theorem drainLines_eq (buf : List Char) :
    drainLines buf = (streamLines buf, Framing.pending '\n' buf) := by
  induction buf using Framing.frameInduction (d := '\n') with
  | unfinished buf h =>
    rw [drainLines, dif_neg h, streamLines, Framing.frames_of_not_mem h,
      Framing.pending_of_not_mem h]
    rfl
  | frame l buf hl ih =>
    have hnl : (l ++ '\n' :: buf).idxOf '\n' = l.length := by
      rw [List.idxOf_append_of_notMem hl, List.idxOf_cons_self, Nat.add_zero]
    have htake : (l ++ '\n' :: buf).take l.length = l := List.take_left
    have hdrop : (l ++ '\n' :: buf).drop (l.length + 1) = buf := by
      rw [← List.drop_drop, List.drop_left, List.drop_one, List.tail_cons]
    rw [drainLines, dif_pos (by simp)]
    simp only [hnl, htake, hdrop, ih, streamLines, Framing.frames_append_cons hl,
      Framing.pending_append_cons hl, List.map_cons]
    split_ifs with hline
    · rw [List.filter_cons_of_neg (by simpa using hline)]
    · rw [List.filter_cons_of_pos (by simpa using hline)]

theorem FifoState.filled_eq (s : FifoState) (reads : List (List Char)) :
    s.filled reads = s.buf ++ reads.flatten := by
  unfold FifoState.filled
  induction reads generalizing s with
  | nil => simp
  | cons r rs ih =>
    have := ih ⟨s.buf ++ r, s.handled⟩
    simpa [List.append_assoc] using this

theorem streamLines_append (s t : List Char) :
    streamLines (s ++ t) = streamLines s ++ streamLines (Framing.pending '\n' s ++ t) := by
  rw [streamLines, Framing.frames_append, List.map_append, List.filter_append]
  rfl

/-- After the bytes `stream`: the lines handled are the stream's, and the buffer
    is its unfinished line. -/
def FifoState.Reads (s : FifoState) (stream : List Char) : Prop :=
  s.handled = streamLines stream ∧ s.buf = Framing.pending '\n' stream

/-- A call that fits extends the stream by what it read. -/
theorem FifoState.Reads.onFifo {s : FifoState} {stream : List Char} (h : s.Reads stream)
    {reads : List (List Char)} (hfits : s.Fits reads) :
    (s.onFifo reads).Reads (stream ++ reads.flatten) := by
  obtain ⟨hhandled, hbuf⟩ := h
  unfold FifoState.Fits at hfits
  unfold FifoState.Reads FifoState.onFifo
  simp only [if_neg (Nat.not_lt.mpr hfits), drainLines_eq]
  rw [FifoState.filled_eq, hbuf, hhandled, ← streamLines_append, ← Framing.pending_append]
  exact ⟨rfl, rfl⟩

/-- A call that overflows handles nothing and empties the buffer. -/
theorem FifoState.onFifo_overflow {s : FifoState} {reads : List (List Char)}
    (h : ¬ s.Fits reads) : s.onFifo reads = ⟨[], s.handled⟩ := by
  unfold FifoState.Fits at h
  unfold FifoState.onFifo
  simp only [if_pos (Nat.lt_of_not_le h), drainLines_eq, streamLines,
    Framing.frames_of_not_mem List.not_mem_nil, Framing.pending_of_not_mem List.not_mem_nil]
  simp

theorem FifoState.Reads.run {s : FifoState} {stream : List Char} (h : s.Reads stream)
    {calls : List (List (List Char))}
    (hfits : Machine.Along FifoState.onFifo FifoState.Fits s calls) :
    (Machine.run FifoState.onFifo s calls).Reads (stream ++ calls.flatten.flatten) := by
  induction calls generalizing s stream with
  | nil => simpa using h
  | cons reads calls ih =>
    have := ih (h.onFifo hfits.1) hfits.2
    simpa [List.append_assoc] using this

theorem FifoState.start_reads : FifoState.start.Reads [] :=
  ⟨by rw [streamLines, Framing.frames_of_not_mem List.not_mem_nil]; rfl,
    (Framing.pending_of_not_mem List.not_mem_nil).symm⟩

/-- Short lines drained a little at a time never overflow: an unfinished line of
    at most 4096 bytes and a drain of at most 61440 stay under the guard. -/
theorem FifoState.Reads.fits {s : FifoState} {stream : List Char} (h : s.Reads stream)
    {calls : List (List (List Char))}
    (hlines : ∀ l ∈ (stream ++ calls.flatten.flatten).splitOn '\n', l.length ≤ 4096)
    (hdrains : ∀ reads ∈ calls, reads.flatten.length ≤ 61440) :
    Machine.Along FifoState.onFifo FifoState.Fits s calls := by
  induction calls generalizing s stream with
  | nil => trivial
  | cons reads calls ih =>
    have hpending : s.buf.length ≤ 4096 := by
      rw [h.2]
      exact Framing.length_pending_le hlines
    have hdrain := hdrains reads List.mem_cons_self
    have hfits : s.Fits reads := by
      rw [FifoState.Fits, FifoState.filled_eq, List.length_append]
      omega
    refine ⟨hfits, ih (h.onFifo hfits) ?_ fun r hr => hdrains r (List.mem_cons_of_mem _ hr)⟩
    simpa [List.append_assoc] using hlines

/-! ## Main results -/

/-- **Framing.** While no call leaves more than 65536 bytes in the buffer, the
    lines handled are the stream's, whatever the division into reads and calls;
    lines of at most 4096 bytes, drained at most 61440 bytes a call, never
    leave more. A call that does leave more handles no line and discards the
    whole buffer. -/
theorem onFifo_lines :
    (∀ calls, Machine.Along FifoState.onFifo FifoState.Fits .start calls →
      (Machine.run FifoState.onFifo .start calls).handled =
        streamLines calls.flatten.flatten) ∧
    (∀ calls : List (List (List Char)),
      (∀ l ∈ calls.flatten.flatten.splitOn '\n', l.length ≤ 4096) →
      (∀ reads ∈ calls, reads.flatten.length ≤ 61440) →
      Machine.Along FifoState.onFifo FifoState.Fits .start calls) ∧
    (∀ (s : FifoState) (reads : List (List Char)), 65536 < (s.buf ++ reads.flatten).length →
      s.onFifo reads = ⟨[], s.handled⟩) := by
  refine ⟨?_, ?_, ?_⟩
  · intro calls hfits
    have := (FifoState.start_reads.run hfits).1
    rwa [List.nil_append] at this
  · intro calls hlines hdrains
    exact FifoState.start_reads.fits (by rwa [List.nil_append]) hdrains
  · intro s reads hlong
    apply FifoState.onFifo_overflow
    rw [FifoState.Fits, FifoState.filled_eq]
    omega

/-- A line cut by two calls and one ended by a carriage return. -/
theorem onFifo_lines_cut :
    (Machine.run FifoState.onFifo .start
      [["SUBMIT 1\r\nCA".toList], ["NCEL".toList, " 2\n\n".toList]]).handled =
      ["SUBMIT 1".toList, "CANCEL 2".toList] := by
  rw [onFifo_lines.1 _ (onFifo_lines.2.1 _ (by decide +kernel) (by decide +kernel))]
  decide +kernel

/-- 4160 lines of 16 bytes, read 1024 bytes at a time. -/
def burst : List (List Char) :=
  List.replicate 65 (List.replicate 64 ("SUBMIT 12345678".toList ++ ['\n'])).flatten

theorem burst_flatten :
    burst.flatten = ((List.replicate 4160 "SUBMIT 12345678".toList).map (· ++ ['\n'])).flatten := by
  rw [List.map_replicate, burst, ← List.map_replicate, ← List.flatten_flatten,
    List.flatten_replicate_replicate]

/-- Every line of the burst is short and every read is of at most 1024 bytes,
    but one call drains 66560 bytes, and not one of the 4160 lines is handled. -/
theorem onFifo_overflow_drops :
    (∀ r ∈ burst, r.length ≤ 1024) ∧
    (∀ l ∈ burst.flatten.splitOn '\n', l.length ≤ 4096) ∧
    (FifoState.start.onFifo burst).handled = [] ∧
    streamLines burst.flatten = List.replicate 4160 "SUBMIT 12345678".toList := by
  have hnl : ∀ l ∈ List.replicate 4160 "SUBMIT 12345678".toList, '\n' ∉ l := by
    intro l hl
    rw [List.eq_of_mem_replicate hl]
    decide
  have hlen : burst.flatten.length = 66560 := by
    rw [burst_flatten, List.map_replicate, List.length_flatten, List.map_replicate,
      List.sum_replicate]
    rfl
  refine ⟨?_, ?_, ?_, ?_⟩
  · intro r hr
    rw [List.eq_of_mem_replicate hr, List.length_flatten, List.map_replicate, List.sum_replicate]
    decide
  · intro l hl
    rw [burst_flatten, Framing.splitOn_eq, Framing.frames_flatten hnl,
      Framing.pending_flatten hnl] at hl
    rcases List.mem_append.mp hl with h | h
    · rw [List.eq_of_mem_replicate h]
      decide
    · rw [List.mem_singleton.mp h]
      decide
  · rw [FifoState.onFifo_overflow]
    · rfl
    · rw [FifoState.Fits, FifoState.filled_eq, List.length_append, hlen]
      decide
  · rw [burst_flatten, streamLines, Framing.frames_flatten hnl, List.map_replicate,
      List.filter_replicate]
    rfl

end Forge
