import Forge.Controller.Fifo
import Forge.Controller.Rejection

/-!
# The commands of the clients

`cmd_submit` and `cmd_cancel` write a line to the control fifo (main.cpp:120-137,
267, 405), which is not longer than `PIPE_BUF`, so that the kernel takes it whole
or not at all. `on_fifo` reads what is there, up to 1024 bytes at a time, while
clients go on writing. A read may fail in the middle of a line, a call may
overflow the buffer, and the controller may die in between.

* `lineCommand_fragment`: no end of a command's line is another command.
* `commands_delivered`: the controller handles the commands in the order in which
  they were written, none twice and none that was not written; and all of them if
  it does not die and is never more than 2340 behind.
-/

namespace Forge

open Framing

variable {o : Oracle}

/-! ## Commands -/

/-- What a client asks for. -/
inductive Command where
  | submit (id : ℕ)
  | cancel (id : ℕ)
  deriving DecidableEq

namespace Command

def id : Command → ℕ
  | submit id => id
  | cancel id => id

def verb : Command → List Char
  | submit _ => "SUBMIT ".toList
  | cancel _ => "CANCEL ".toList

/-- The line, without its end. -/
def text (c : Command) : List Char := c.verb ++ Nat.toDigits 10 c.id

/-- What `send_fifo` writes (main.cpp:132-133). -/
def message (c : Command) : List Char := c.text ++ ['\n']

end Command

/-- The ids that a client has are `uint64_t`. -/
abbrev ClientCommand : Type := { c : Command // c.id < 2 ^ 64 }

/-- The command that `handle_line` reads in a line (controller.cpp:733-750). -/
def lineCommand (line : List Char) : Option Command :=
  if "SUBMIT ".toList.isPrefixOf line then (parseU64 (line.drop 7)).map .submit
  else if "CANCEL ".toList.isPrefixOf line then (parseU64 (line.drop 7)).map .cancel
  else none

/-- What the controller does for a command. -/
def Command.perform (o : Oracle) (w : World) : Command → World
  | submit id => enqueue o id w
  | cancel id => onCancel o id w

/-- A line does what its command asks for, and nothing if it has none. -/
theorem handleLine_eq {line : List Char} (h : line ≠ "SHUTDOWN".toList) (w : World) :
    handleLine o line w = ((lineCommand line).map (Command.perform o w)).getD w := by
  unfold handleLine lineCommand
  rw [if_neg h]
  split_ifs
  · cases parseU64 (line.drop 7) <;> rfl
  · cases parseU64 (line.drop 7) <;> rfl
  · rfl

/-! ## Lines of the clients -/

theorem Command.not_mem_text {c : Command} {x : Char} (hverb : x ∉ c.verb)
    (hdigit : x.isDigit = false) : x ∉ c.text := by
  rw [text, List.mem_append, not_or]
  refine ⟨hverb, fun hmem => ?_⟩
  have := Nat.isDigit_of_mem_toDigits (by norm_num) (by norm_num) hmem
  cases hdigit.symm.trans this

/-- **What a client has written is read back.** -/
theorem lineCommand_text (c : ClientCommand) : lineCommand c.val.text = some c.val := by
  obtain ⟨c, hid⟩ := c
  cases c with
  | submit id =>
    have hprefix : "SUBMIT ".toList.isPrefixOf (Command.submit id).text = true :=
      List.isPrefixOf_iff_prefix.mpr (List.prefix_append _ _)
    have hnumber : (Command.submit id).text.drop 7 = Nat.toDigits 10 id := rfl
    have hread : parseU64 (Nat.toDigits 10 id) = some id := parseU64_toDigits hid
    rw [lineCommand, if_pos hprefix, hnumber, hread, Option.map_some]
  | cancel id =>
    have hprefix : "CANCEL ".toList.isPrefixOf (Command.cancel id).text = true :=
      List.isPrefixOf_iff_prefix.mpr (List.prefix_append _ _)
    have hother : ¬ "SUBMIT ".toList.isPrefixOf (Command.cancel id).text = true := by
      intro h
      obtain ⟨t, ht⟩ := List.isPrefixOf_iff_prefix.mp h
      cases congrArg (fun l : List Char => l[0]?) ht
    have hnumber : (Command.cancel id).text.drop 7 = Nat.toDigits 10 id := rfl
    have hread : parseU64 (Nat.toDigits 10 id) = some id := parseU64_toDigits hid
    rw [lineCommand, if_neg hother, if_pos hprefix, hnumber, hread, Option.map_some]

theorem filterMap_texts (cs : List ClientCommand) :
    (cs.map (·.val.text)).filterMap lineCommand = cs.map Subtype.val := by
  have hread : lineCommand ∘ (fun c : ClientCommand => c.val.text) = some ∘ Subtype.val :=
    funext lineCommand_text
  rw [List.filterMap_map, hread, List.filterMap_eq_map]

theorem mem_of_lineCommand {f : List Char} (h : lineCommand f ≠ none) :
    ('S' ∈ f) ∨ ∃ t, f = 'C' :: 'A' :: t := by
  unfold lineCommand at h
  split_ifs at h with hsubmit hcancel
  · obtain ⟨t, rfl⟩ := List.isPrefixOf_iff_prefix.mp hsubmit
    exact Or.inl (List.mem_append_left _ (by decide))
  · obtain ⟨t, rfl⟩ := List.isPrefixOf_iff_prefix.mp hcancel
    exact Or.inr ⟨_, rfl⟩
  · exact absurd rfl h

/-- **No end of a command's line is another command.** -/
theorem lineCommand_fragment {c : Command} {f : List Char} (hsuf : f <:+ c.text)
    (hne : f ≠ c.text) : lineCommand f = none := by
  by_contra h
  have hdigits : ∀ x : Char, x.isDigit = false → x ∉ Nat.toDigits 10 c.id := by
    intro x hx hmem
    have := Nat.isDigit_of_mem_toDigits (by norm_num) (by norm_num) hmem
    cases hx.symm.trans this
  have hS := hdigits 'S' rfl
  have hC := hdigits 'C' rfl
  have hA := hdigits 'A' rfl
  cases c with
  | submit id =>
    -- the verb has its S at the front only, and no C
    have htext : (Command.submit id).text = 'S' :: ("UBMIT ".toList ++ Nat.toDigits 10 id) := rfl
    rw [htext] at hsuf hne
    have hrest := (List.suffix_cons_iff.mp hsuf).resolve_left hne
    rcases mem_of_lineCommand h with hmem | ⟨t, rfl⟩
    · rcases List.mem_append.mp (hrest.subset hmem) with hmem | hmem
      · exact absurd hmem (by decide)
      · exact hS hmem
    · rcases List.mem_append.mp (hrest.subset List.mem_cons_self) with hmem | hmem
      · exact absurd hmem (by decide)
      · exact hC hmem
  | cancel id =>
    -- the verb has an A after its first C only
    have htext : (Command.cancel id).text =
        'C' :: 'A' :: ("NCEL ".toList ++ Nat.toDigits 10 id) := rfl
    rw [htext] at hsuf hne
    have hrest := (List.suffix_cons_iff.mp hsuf).resolve_left hne
    rcases mem_of_lineCommand h with hmem | ⟨t, rfl⟩
    · rcases List.mem_cons.mp (hrest.subset hmem) with heq | hmem
      · cases heq
      · rcases List.mem_append.mp hmem with hmem | hmem
        · exact absurd hmem (by decide)
        · exact hS hmem
    · have hlast := (List.suffix_cons_iff.mp hrest).resolve_left (by nofun)
      rcases List.mem_append.mp (hlast.subset (List.mem_cons_of_mem _ List.mem_cons_self))
        with hmem | hmem
      · exact absurd hmem (by decide)
      · exact hA hmem

/-! ## The channel -/

/-- The command that the controller handles, or dies of. -/
def Event.command : Event → Option Command
  | .handled (.line line) => lineCommand line
  | .crash (.line line) _ _ => lineCommand line
  | _ => none

/-- The controller, the fifo, and what has been written and handled so far. -/
structure Channel where
  world : World
  /-- `fifo_buf`, before the call of `on_fifo` that is in progress. -/
  buf : List Char
  /-- What the call has read. -/
  reads : List (List Char)
  pipe : List Char
  sent : List Command
  events : List Event

inductive ChannelEvent where
  /-- A client's `write`; the kernel may refuse it. -/
  | send (c : ClientCommand) (ok : Bool)
  /-- A `read` of `n` bytes. -/
  | read (n : ℕ)
  /-- The last `read` finds nothing, or fails; the lines are handled. -/
  | drain (failed : Bool)
  /-- The controller dies in the line after `done` lines. -/
  | dies (done kept slots : ℕ)
  /-- What the controller and its workers do otherwise. -/
  | other (e : { e : Event // e.command = none })

namespace Channel

def start (slots : ℕ) : Channel := ⟨.start slots, [], [], [], [], []⟩

/-- The bytes that have been written and not handled. -/
def stream (ch : Channel) : List Char := ch.buf ++ ch.reads.flatten ++ ch.pipe

/-- What `on_fifo` makes of what it has read. -/
def drained (ch : Channel) : FifoState := FifoState.onFifo ⟨ch.buf, []⟩ ch.reads

def does (o : Oracle) (ch : Channel) (es : List Event) : Channel :=
  { ch with world := Machine.run (World.step o) ch.world es, events := ch.events ++ es }

/-- If the controller has died, nobody has the fifo open. -/
def settle (ch : Channel) : Channel :=
  if ch.world.ctl.running then ch else { ch with buf := [], reads := [], pipe := [] }

def handleLines (o : Oracle) (ch : Channel) (lines : List (List Char)) : Channel :=
  ch.does o (lines.map fun line => .handled (.line line))

def write (ch : Channel) (c : Command) : Channel :=
  { ch with pipe := ch.pipe ++ c.message, sent := ch.sent ++ [c] }

def take (ch : Channel) (n : ℕ) : Channel :=
  { ch with reads := ch.reads ++ [ch.pipe.take n], pipe := ch.pipe.drop n }

/-- The end of a call. -/
def finish (o : Oracle) (ch : Channel) : Channel :=
  { ch.handleLines o ch.drained.handled with buf := ch.drained.buf, reads := [] }

def step (o : Oracle) (ch : Channel) : ChannelEvent → Channel
  | .send c ok => if ok ∧ ch.world.ctl.running then ch.write c else ch
  | .read n => if 0 < n ∧ n ≤ 1024 ∧ n ≤ ch.pipe.length then ch.take n else ch
  | .drain failed => if ch.pipe = [] ∨ failed then ch.finish o else ch
  | .dies done kept slots =>
    match ch.drained.handled[done]? with
    | none => ch
    | some line =>
      ((ch.handleLines o (ch.drained.handled.take done)).does o [.crash (.line line) kept slots]).settle
  | .other e => (ch.does o [e]).settle

/-- The commands that the controller has handled, or died of. -/
def done (ch : Channel) : List Command := ch.events.filterMap Event.command

end Channel

/-! ## What the stream carries -/

/-- Every line of the stream is the end of a client's line. -/
def Fragments (s : List Char) : Prop := ∀ f ∈ frames '\n' s, ∃ c : ClientCommand, f <:+ c.val.text

/-- The commands in the stream. -/
def commandsOf (s : List Char) : List Command := (frames '\n' s).filterMap lineCommand

theorem commandsOf_append (s t : List Char) :
    commandsOf (s ++ t) = commandsOf s ++ commandsOf (pending '\n' s ++ t) := by
  rw [commandsOf, frames_append, List.filterMap_append]
  rfl

theorem Fragments.append_left {s t : List Char} (h : Fragments (s ++ t)) : Fragments s := by
  intro f hf
  apply h
  rw [frames_append]
  exact List.mem_append_left _ hf

theorem Fragments.pending {s t : List Char} (h : Fragments (s ++ t)) :
    Fragments (pending '\n' s ++ t) := by
  intro f hf
  apply h
  rw [frames_append]
  exact List.mem_append_right _ hf

/-- A stream that has lost its beginning carries no other command. -/
theorem Fragments.suffix {s t : List Char} (h : Fragments s) (hsuf : t <:+ s) :
    Fragments t ∧ (commandsOf t).Sublist (commandsOf s) := by
  obtain ⟨p, rfl⟩ := hsuf
  have hrest := h.pending
  rw [commandsOf_append]
  have hprepend := frames_prepend (not_mem_pending (d := '\n') p) t
  unfold Fragments at hrest
  unfold Fragments commandsOf
  rw [hprepend] at hrest ⊢
  cases hframes : frames '\n' t with
  | nil => exact ⟨by simp, List.nil_sublist _⟩
  | cons l ls =>
    rw [hframes, List.modifyHead_cons] at hrest
    obtain ⟨c, hc⟩ := hrest _ List.mem_cons_self
    have hl : l <:+ c.val.text := (List.suffix_append _ l).trans hc
    refine ⟨fun f hf => ?_, List.Sublist.trans ?_ (List.sublist_append_right _ _)⟩
    · rcases List.mem_cons.mp hf with rfl | hf
      · exact ⟨c, hl⟩
      · exact hrest f (List.mem_cons_of_mem _ hf)
    · rw [List.modifyHead_cons]
      by_cases hp : Framing.pending '\n' p = []
      · rw [hp, List.nil_append]
      · have hne : l ≠ c.val.text := by
          rintro rfl
          have hlength := hc.length_le
          rw [List.length_append] at hlength
          exact hp (List.length_eq_zero_iff.mp (by omega))
        rw [List.filterMap_cons_none (lineCommand_fragment hl hne)]
        rw [List.filterMap_cons]
        split
        · exact List.Sublist.refl _
        · exact List.sublist_cons_self _ _

theorem Command.not_mem_verb {c : Command} {x : Char} (hS : x ∉ "SUBMIT ".toList)
    (hC : x ∉ "CANCEL ".toList) : x ∉ c.verb := by
  cases c with
  | submit => exact hS
  | cancel => exact hC

theorem Command.newline_not_mem (c : Command) : '\n' ∉ c.text :=
  not_mem_text (not_mem_verb (by decide) (by decide)) rfl

theorem Command.return_not_mem (c : Command) : '\r' ∉ c.text :=
  not_mem_text (not_mem_verb (by decide) (by decide)) rfl

theorem length_message_le (c : ClientCommand) : c.val.message.length ≤ 28 := by
  have hverb : c.val.verb.length = 7 := by cases c.val <;> rfl
  have hdigits := length_toDigits_le c.property
  simp only [Command.message, Command.text, List.length_append, List.length_singleton, hverb]
  omega

theorem chompCr_of_not_mem {line : List Char} (h : '\r' ∉ line) : chompCr line = line :=
  if_neg fun hlast => h (List.mem_of_getLast? hlast)

/-- The lines that `on_fifo` hands on are those of the stream. -/
theorem Fragments.streamLines {s : List Char} (h : Fragments s) :
    (streamLines s).filterMap lineCommand = commandsOf s := by
  have hreturn : ∀ f ∈ frames '\n' s, '\r' ∉ f := by
    intro f hf hmem
    obtain ⟨c, hc⟩ := h f hf
    exact c.val.return_not_mem (hc.subset hmem)
  unfold Forge.streamLines commandsOf
  generalize frames '\n' s = ls at hreturn
  induction ls with
  | nil => rfl
  | cons f ls ih =>
    have hrest := ih fun f' hf' => hreturn f' (List.mem_cons_of_mem _ hf')
    rw [List.map_cons, chompCr_of_not_mem (hreturn f List.mem_cons_self)]
    by_cases hf : f = []
    · subst hf
      rw [List.filter_cons_of_neg (by simp), hrest, List.filterMap_cons_none rfl]
    · rw [List.filter_cons_of_pos (by simpa using hf), List.filterMap_cons, List.filterMap_cons,
        hrest]

/-! ## The order of the commands -/

namespace Channel

variable {ch : Channel} {slots : ℕ}

/-- What a run of the channel keeps. -/
structure Delivers (o : Oracle) (slots : ℕ) (ch : Channel) : Prop where
  world : ch.world = Machine.run (World.step o) (World.start slots) ch.events
  buf : '\n' ∉ ch.buf
  whole : pending '\n' ch.stream = []
  fragments : Fragments ch.stream
  order : (ch.done ++ commandsOf ch.stream).Sublist ch.sent

theorem done_does (es : List Event) :
    (ch.does o es).done = ch.done ++ es.filterMap Event.command := List.filterMap_append

theorem done_handleLines (lines : List (List Char)) :
    (ch.handleLines o lines).done = ch.done ++ lines.filterMap lineCommand := by
  rw [handleLines, done_does, List.filterMap_map]
  rfl

theorem done_finish :
    (ch.finish o).done = ch.done ++ ch.drained.handled.filterMap lineCommand :=
  @done_handleLines o ch _

theorem done_other (e : { e : Event // e.command = none }) : (ch.does o [e.val]).done = ch.done := by
  rw [done_does, List.filterMap_cons_none e.property, List.filterMap_nil, List.append_nil]

/-- What is left after the lines have been handled. -/
def rest (ch : Channel) : List Char := ch.drained.buf ++ ch.pipe

theorem stream_write (c : Command) : (ch.write c).stream = ch.stream ++ c.message :=
  (List.append_assoc _ _ _).symm

theorem stream_take (n : ℕ) : (ch.take n).stream = ch.stream := by simp [stream, take]

theorem stream_finish : (ch.finish o).stream = ch.rest := by
  simp [stream, rest, finish, handleLines, does]

/-- A message adds its line. -/
theorem frames_write (hwhole : pending '\n' ch.stream = []) (c : Command) :
    frames '\n' (ch.write c).stream = frames '\n' ch.stream ++ [c.text] := by
  rw [stream_write, frames_append, hwhole, List.nil_append, Command.message,
    frames_append_cons c.newline_not_mem, frames_of_not_mem List.not_mem_nil]

theorem pending_write (hwhole : pending '\n' ch.stream = []) (c : Command) :
    pending '\n' (ch.write c).stream = [] := by
  rw [stream_write, pending_append, hwhole, List.nil_append, Command.message,
    pending_append_cons c.newline_not_mem, pending_of_not_mem List.not_mem_nil]

theorem world_does (h : ch.world = Machine.run (World.step o) (World.start slots) ch.events)
    (es : List Event) : (ch.does o es).world =
      Machine.run (World.step o) (World.start slots) (ch.does o es).events := by
  unfold does
  rw [Machine.run_append, ← h]

theorem drained_fits (hbuf : '\n' ∉ ch.buf) (hfits : FifoState.Fits ⟨ch.buf, []⟩ ch.reads) :
    ch.drained.Reads (ch.buf ++ ch.reads.flatten) := by
  have hreads : FifoState.Reads ⟨ch.buf, []⟩ ch.buf :=
    ⟨by rw [streamLines, frames_of_not_mem hbuf]; rfl, (pending_of_not_mem hbuf).symm⟩
  exact hreads.onFifo hfits

namespace Delivers

/-- A call that does not overflow reads on, and one that does forgets everything. -/
theorem rest (h : Delivers o slots ch) :
    '\n' ∉ ch.drained.buf ∧ pending '\n' ch.rest = [] ∧ Fragments ch.rest ∧
      (ch.drained.handled.filterMap lineCommand ++ commandsOf ch.rest).Sublist
        (commandsOf ch.stream) := by
  have hwhole := h.whole
  have hfragments := h.fragments
  unfold Channel.rest
  unfold stream at hwhole hfragments ⊢
  by_cases hfits : FifoState.Fits ⟨ch.buf, []⟩ ch.reads
  · obtain ⟨hhandled, hleft⟩ := drained_fits h.buf hfits
    rw [pending_append] at hwhole
    rw [hhandled, hleft, hfragments.append_left.streamLines,
      commandsOf_append (ch.buf ++ ch.reads.flatten) ch.pipe]
    exact ⟨not_mem_pending _, hwhole, hfragments.pending, List.Sublist.refl _⟩
  · have hdrained : ch.drained = ⟨[], []⟩ := FifoState.onFifo_overflow hfits
    have hsuf : ch.pipe <:+ ch.buf ++ ch.reads.flatten ++ ch.pipe := List.suffix_append _ _
    obtain ⟨hrest, hcommands⟩ := hfragments.suffix hsuf
    rw [hdrained]
    exact ⟨List.not_mem_nil, pending_of_suffix hsuf hwhole, hrest, hcommands⟩

theorem write (h : Delivers o slots ch) (c : ClientCommand) : Delivers o slots (ch.write c.val) := by
  refine ⟨h.world, h.buf, pending_write h.whole c.val, ?_, ?_⟩
  · unfold Fragments
    rw [frames_write h.whole]
    intro f hf
    rcases List.mem_append.mp hf with hf | hf
    · exact h.fragments f hf
    · exact ⟨c, List.mem_singleton.mp hf ▸ List.suffix_refl _⟩
  · rw [commandsOf, frames_write h.whole, List.filterMap_append,
      List.filterMap_cons_some (lineCommand_text c), ← List.append_assoc]
    exact h.order.append (List.Sublist.refl _)

theorem take (h : Delivers o slots ch) (n : ℕ) : Delivers o slots (ch.take n) := by
  have hstream := @stream_take ch n
  exact ⟨h.world, h.buf, hstream ▸ h.whole, hstream ▸ h.fragments, hstream ▸ h.order⟩

theorem finish (h : Delivers o slots ch) : Delivers o slots (ch.finish o) := by
  obtain ⟨hbuf, hwhole, hfragments, hcommands⟩ := h.rest
  have hstream := @stream_finish o ch
  refine ⟨world_does h.world _, hbuf, hstream ▸ hwhole, hstream ▸ hfragments, ?_⟩
  rw [hstream, done_finish, List.append_assoc]
  exact (hcommands.append_left _).trans h.order

/-- A controller that has died leaves an empty fifo. -/
theorem died (hworld : ch.world = Machine.run (World.step o) (World.start slots) ch.events)
    (hrun : ¬ ch.world.ctl.running = true) (horder : ch.done.Sublist ch.sent) :
    Delivers o slots ch.settle := by
  unfold Channel.settle
  rw [if_neg hrun]
  refine ⟨hworld, List.not_mem_nil, pending_of_not_mem List.not_mem_nil, ?_, ?_⟩
  · intro f hf
    cases hf
  · exact (List.append_nil _).symm ▸ horder

theorem dies (h : Delivers o slots ch) {i : ℕ} {line : List Char}
    (hline : ch.drained.handled[i]? = some line) (kept slots' : ℕ) :
    Delivers o slots ((ch.handleLines o (ch.drained.handled.take i)).does o
      [.crash (.line line) kept slots']).settle := by
  refine died (world_does (world_does h.world _) _) (by simp [does, World.step]) ?_
  have htake : (ch.drained.handled.take i).filterMap lineCommand ++ [line].filterMap lineCommand =
      (ch.drained.handled.take (i + 1)).filterMap lineCommand := by
    rw [List.take_add_one, hline, ← List.filterMap_append]
    rfl
  have hcommands : ((ch.drained.handled.take (i + 1)).filterMap lineCommand).Sublist
      (commandsOf ch.stream) :=
    ((List.take_sublist _ _).filterMap _).trans
      ((List.sublist_append_left _ _).trans h.rest.2.2.2)
  rw [done_does, done_handleLines, List.append_assoc]
  show (ch.done ++ (_ ++ [line].filterMap lineCommand)).Sublist ch.sent
  rw [htake]
  exact (hcommands.append_left _).trans h.order

theorem other (h : Delivers o slots ch) (e : { e : Event // e.command = none }) :
    Delivers o slots (ch.does o [e.val]).settle := by
  have hdone := @done_other o ch e
  by_cases hrun : (ch.does o [e.val]).world.ctl.running = true
  · unfold Channel.settle
    rw [if_pos hrun]
    exact ⟨world_does h.world _, h.buf, h.whole, h.fragments, hdone.symm ▸ h.order⟩
  · refine died (world_does h.world _) hrun ?_
    rw [hdone]
    exact (List.sublist_append_left _ _).trans h.order

/-- **Each event keeps the order.** -/
theorem step (h : Delivers o slots ch) (e : ChannelEvent) : Delivers o slots (ch.step o e) := by
  cases e with
  | send c ok =>
    simp only [Channel.step]
    split_ifs
    · exact h.write c
    · exact h
  | read n =>
    simp only [Channel.step]
    split_ifs
    · exact h.take n
    · exact h
  | drain failed =>
    simp only [Channel.step]
    split_ifs
    · exact h.finish
    · exact h
  | dies i kept slots' =>
    simp only [Channel.step]
    split
    · exact h
    · next line hline => exact h.dies hline kept slots'
  | other e => exact h.other e

theorem start (o : Oracle) (slots : ℕ) : Delivers o slots (start slots) := by
  refine ⟨rfl, List.not_mem_nil, pending_of_not_mem List.not_mem_nil, ?_, List.nil_sublist _⟩
  intro f hf
  cases hf

end Delivers

theorem run_delivers (o : Oracle) (slots : ℕ) (es : List ChannelEvent) :
    Delivers o slots (Machine.run (step o) (start slots) es) :=
  Machine.run_always (fun _ e h => h.step e) es (.start o slots)

/-! ## Nothing is lost -/

/-- The controller lives, and is not too far behind when it reads. -/
def Keeps (ch : Channel) : ChannelEvent → Prop
  | .drain _ => (commandsOf ch.stream).length ≤ 2340
  | .dies _ _ _ => False
  | .other e => ∀ input kept slots, e.val ≠ .crash input kept slots
  | _ => True

/-- What has not been handled is in the stream, line by line. -/
structure Exact (ch : Channel) (inFlight : List ClientCommand) : Prop where
  frames : frames '\n' ch.stream = inFlight.map (·.val.text)
  sent : ch.done ++ inFlight.map Subtype.val = ch.sent
  down : ch.world.ctl.running = false → ch.stream = []

/-- A controller that is not killed goes on. -/
theorem running_run {past es : List Event} (hes : ∀ e ∈ es, ∀ i k s, e ≠ .crash i k s)
    (hrun : (Machine.run (World.step o) (World.start slots) past).ctl.running = true) :
    (Machine.run (World.step o) (World.start slots) (past ++ es)).ctl.running = true := by
  induction es generalizing past with
  | nil => rwa [List.append_nil]
  | cons e es ih =>
    have hstep : (Machine.run (World.step o) (World.start slots) (past ++ [e])).ctl.running =
        true := by
      rw [Machine.run_append]
      cases e with
      | handled input =>
        exact (handle_steps (o := o) (run_down o slots past) (Guard.any_allows _ input)).running hrun
      | crash i k s => exact absurd rfl (hes _ List.mem_cons_self i k s)
    have := ih (fun e' he' => hes e' (List.mem_cons_of_mem e he')) hstep
    rwa [List.append_assoc] at this

theorem Delivers.running_does (h : Delivers o slots ch) {es : List Event}
    (hes : ∀ e ∈ es, ∀ i k s, e ≠ .crash i k s) (hrun : ch.world.ctl.running = true) :
    (ch.does o es).world.ctl.running = true := by
  rw [h.world] at hrun
  rw [world_does h.world]
  exact running_run hes hrun

namespace Exact

variable {inFlight : List ClientCommand}

theorem commands (h : Exact ch inFlight) : commandsOf ch.stream = inFlight.map Subtype.val := by
  rw [commandsOf, h.frames, filterMap_texts]

theorem length_stream (h : Exact ch inFlight) (hwhole : pending '\n' ch.stream = []) :
    ch.stream.length ≤ 28 * inFlight.length := by
  have hstream := eq_of_frames (d := '\n') ch.stream
  rw [hwhole, h.frames, List.append_nil, List.map_map] at hstream
  rw [← hstream]
  clear h hstream hwhole
  induction inFlight with
  | nil => simp
  | cons c cs ih =>
    have hmessage := length_message_le c
    rw [List.map_cons, List.flatten_cons, List.length_append, List.length_cons]
    show c.val.message.length + _ ≤ _
    omega

theorem write (h : Exact ch inFlight) (hwhole : pending '\n' ch.stream = [])
    (hrun : ch.world.ctl.running = true) (c : ClientCommand) :
    Exact (ch.write c.val) (inFlight ++ [c]) where
  frames := by
    rw [frames_write hwhole, h.frames, List.map_append]
    rfl
  sent := by
    rw [List.map_append, ← List.append_assoc]
    exact congrArg (· ++ [c.val]) h.sent
  down := fun hdown => absurd (hrun.symm.trans hdown) (by simp)

theorem take (h : Exact ch inFlight) (n : ℕ) : Exact (ch.take n) inFlight := by
  have hstream := @stream_take ch n
  exact ⟨hstream ▸ h.frames, h.sent, fun hdown => hstream ▸ h.down hdown⟩

/-- A call hands on the first of them. -/
theorem finish (hd : Delivers o slots ch) (h : Exact ch inFlight)
    (hfew : (commandsOf ch.stream).length ≤ 2340) :
    ∃ inFlight', Exact (ch.finish o) inFlight' := by
  have hlength := h.length_stream hd.whole
  rw [h.commands, List.length_map] at hfew
  have hfits : FifoState.Fits ⟨ch.buf, []⟩ ch.reads := by
    rw [FifoState.Fits, FifoState.filled_eq]
    rw [stream, List.length_append] at hlength
    dsimp only
    omega
  obtain ⟨hhandled, hleft⟩ := drained_fits hd.buf hfits
  have hframes := h.frames
  have hfragments := hd.fragments
  rw [stream] at hframes hfragments
  rw [frames_append, ← hleft] at hframes
  obtain ⟨now, later, rfl, hnow, hlater⟩ := List.map_eq_append_iff.mp hframes.symm
  refine ⟨later, ?_, ?_, fun hdown => ?_⟩
  · rw [stream_finish]
    exact hlater.symm
  · have hcommands : ch.drained.handled.filterMap lineCommand = now.map Subtype.val := by
      rw [hhandled, hfragments.append_left.streamLines, commandsOf, ← hnow, filterMap_texts]
    rw [done_finish, hcommands, List.append_assoc, ← List.map_append]
    exact h.sent
  · have hdown' : ch.world.ctl.running = false := by
      by_contra hrun
      have hgoes : (ch.handleLines o ch.drained.handled).world.ctl.running = true :=
        hd.running_does (by simp) (by simpa using hrun)
      cases hgoes.symm.trans hdown
    have hstream := h.down hdown'
    rw [stream, List.append_eq_nil_iff] at hstream
    rw [stream_finish, rest, hleft, hstream.1, hstream.2, pending_of_not_mem List.not_mem_nil]
    rfl

/-- **Nothing is lost in an event that keeps.** -/
theorem step (hd : Delivers o slots ch) (h : Exact ch inFlight) {e : ChannelEvent}
    (hkeeps : ch.Keeps e) : ∃ inFlight', Exact (ch.step o e) inFlight' := by
  cases e with
  | send c ok =>
    simp only [Channel.step]
    split_ifs with hok
    · exact ⟨_, h.write hd.whole hok.2 c⟩
    · exact ⟨_, h⟩
  | read n =>
    simp only [Channel.step]
    split_ifs
    · exact ⟨_, h.take n⟩
    · exact ⟨_, h⟩
  | drain failed =>
    simp only [Channel.step]
    split_ifs
    · exact finish hd h hkeeps
    · exact ⟨_, h⟩
  | dies => exact hkeeps.elim
  | other e =>
    have hdone := @done_other o ch e
    simp only [Channel.step, settle]
    split_ifs with hrun
    · exact ⟨inFlight, h.frames, hdone.symm ▸ h.sent, fun hdown => absurd (hrun.symm.trans hdown) (by simp)⟩
    · have hdown : ch.world.ctl.running = false := by
        by_contra hup
        have hlives : ∀ e' ∈ [e.val], ∀ i k s, e' ≠ .crash i k s := by
          intro e' he'
          rw [List.mem_singleton.mp he']
          exact hkeeps
        exact hrun (hd.running_does hlives (by simpa using hup))
      have hframes := h.frames
      rw [h.down hdown, frames_of_not_mem List.not_mem_nil, eq_comm, List.map_eq_nil_iff] at hframes
      subst hframes
      exact ⟨[], frames_of_not_mem List.not_mem_nil, hdone.symm ▸ h.sent, fun _ => rfl⟩

end Exact

end Channel

/-- **The commands of the clients.** Those that the controller handles are among those that
    have been written, in their order. If it is not killed, and at most 2340 commands wait
    whenever it reads, then it has handled all of them when the fifo is empty. -/
theorem commands_delivered (o : Oracle) (slots : ℕ) (es : List ChannelEvent) :
    let ch := Machine.run (Channel.step o) (Channel.start slots) es
    ch.world = Machine.run (World.step o) (World.start slots) ch.events ∧
      ch.done.Sublist ch.sent ∧
      (Machine.Along (Channel.step o) Channel.Keeps (Channel.start slots) es →
        ch.reads = [] → ch.pipe = [] → ch.done = ch.sent) := by
  intro ch
  have hd : Channel.Delivers o slots ch := Channel.run_delivers o slots es
  refine ⟨hd.world, (List.sublist_append_left _ _).trans hd.order, fun hkeeps hreads hpipe => ?_⟩
  have hexact := (Machine.run_invariant
    (P := fun ch => Channel.Delivers o slots ch ∧ ∃ inFlight, Channel.Exact ch inFlight)
    (fun ch e ⟨hd, _, h⟩ hkeeps => ⟨hd.step e, h.step hd hkeeps⟩) hkeeps
    ⟨.start o slots, [], frames_of_not_mem List.not_mem_nil, rfl, fun _ => rfl⟩).2
  obtain ⟨inFlight, hexact⟩ := hexact
  have hstream : ch.stream = ch.buf := by
    rw [Channel.stream, hreads, hpipe, List.flatten_nil, List.append_nil, List.append_nil]
  have hframes := hexact.frames
  change frames '\n' ch.stream = _ at hframes
  rw [hstream, frames_of_not_mem hd.buf, eq_comm, List.map_eq_nil_iff] at hframes
  have hsent := hexact.sent
  rw [hframes] at hsent
  exact (List.append_nil _).symm.trans hsent

/-- Two clients write, and a third one between the two reads, of which the first stops in a line. -/
theorem commands_delivered_cut :
    (Machine.run (Channel.step (.smooth fun _ _ => 7)) (Channel.start 1)
      [.other ⟨.handled .recover, rfl⟩, .send ⟨.submit 7, by decide⟩ true,
        .send ⟨.cancel 3, by decide⟩ true, .read 11, .send ⟨.submit 8, by decide⟩ true,
        .read 16, .drain false]).done = [.submit 7, .cancel 3, .submit 8] := by
  refine ((commands_delivered _ _ _).2.2 ?_ rfl rfl).trans rfl
  refine ⟨nofun, trivial, trivial, trivial, trivial, trivial, ?_, trivial⟩
  show List.length _ ≤ 2340
  decide +kernel

end Forge
