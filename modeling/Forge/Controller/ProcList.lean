import Forge.Client.Numbers
import Forge.Controller.Runs

/-!
# The process list of a record

`format_procs` (controller.cpp:128-135) writes the pid and the start time of each
worker into the record; `recover` reads them back with `parse_procs`
(controller.cpp:102-126) and kills the ones that still run.

* `parseProcs_formatProcs`: the round trip.
* `procs_faithful`: what is read from an arbitrary text is written there unless a
  pid of more than 32 bits is narrowed.
* `procs_wrap`: a text that makes `recover` kill process 1.
-/

namespace Forge

/-! ## The loop -/

/-- `flush` of `parse_procs` (controller.cpp:105-118): what it appends. -/
def flushProc (cur : List Char) : Option (ℕ × ℕ) :=
  if cur = [] then none
  else
    match cur.idxOf? '@' with
    | none => (intPid ((parseU64 cur).getD 0)).map (·, 0)
    | some at_ =>
      (intPid ((parseU64 (cur.take at_)).getD 0)).map
        (·, (parseU64 (cur.drop (at_ + 1))).getD 0)

/-- The loop of `parse_procs` (controller.cpp:120-124) with what it has put into
    `cur` so far. -/
def scanProcs : List Char → List Char → List (ℕ × ℕ)
  | [], cur => (flushProc cur).toList
  | ch :: text, cur =>
    if ch = ',' then (flushProc cur).toList ++ scanProcs text [] else scanProcs text (cur ++ [ch])

/-- The tokens between the commas. -/
def tokens (text : String) : List (List Char) := text.toList.splitOn ','

theorem scanProcs_eq (text : List Char) :
    ∀ cur, ',' ∉ cur → scanProcs text cur = ((cur ++ text).splitOn ',').filterMap flushProc := by
  induction text with
  | nil =>
    intro cur hcur
    rw [List.append_nil, List.splitOn_eq_singleton hcur]
    unfold scanProcs
    cases h : flushProc cur <;> simp [h]
  | cons ch text ih =>
    intro cur hcur
    unfold scanProcs
    split_ifs with hcomma
    · rw [hcomma, List.splitOn_append_cons_self_of_not_mem hcur, ih [] (by simp)]
      cases h : flushProc cur <;> simp [h]
    · have hnext : ',' ∉ cur ++ [ch] := by
        simp only [List.mem_append, List.mem_singleton, not_or]
        exact ⟨hcur, fun h => hcomma h.symm⟩
      rw [ih _ hnext, List.append_assoc, List.singleton_append]

theorem parseProcs_eq (text : String) : parseProcs text = (tokens text).filterMap flushProc := by
  unfold parseProcs tokens
  rw [List.filterMap_filter]
  congr 1
  funext cur
  unfold flushProc
  by_cases hnil : cur = []
  · simp [hnil]
  · have hkept : decide (cur ≠ []) = true := decide_eq_true hnil
    exact (if_pos hkept).trans (if_neg hnil).symm

/-- The model of the controller reads the list as the loop does. -/
theorem parseProcs_eq_scan (text : String) : parseProcs text = scanProcs text.toList [] := by
  rw [parseProcs_eq, scanProcs_eq _ [] (by simp), List.nil_append, tokens]

/-! ## One token -/

theorem idxOf?_of_notMem {ch : Char} {a : List Char} (h : ch ∉ a) (b : List Char) :
    (a ++ ch :: b).idxOf? ch = some a.length := by
  induction a with
  | nil => simp [List.idxOf?_cons]
  | cons c a ih =>
    rw [List.mem_cons, not_or] at h
    have hc : (c == ch) = false := by simpa using Ne.symm h.1
    rw [List.cons_append, List.idxOf?_cons, hc, ih h.2]
    rfl

theorem drop_after (ch : Char) (a b : List Char) : (a ++ ch :: b).drop (a.length + 1) = b := by
  rw [List.append_cons, List.drop_left' (by simp)]

/-- The token is `<digits>@<digits>` with these two numbers. -/
def NamesProc (token : List Char) (pid start : ℕ) : Prop :=
  ∃ a b, token = a ++ '@' :: b ∧ magnitude a = some pid ∧ magnitude b = some start

theorem parseU64_eq_some {text : List Char} {n : ℕ} :
    parseU64 text = some n ↔ magnitude text = some n ∧ n < 2 ^ 64 := by
  rw [parseU64_eq_filter, Option.filter_eq_some_iff, decide_eq_true_eq]

theorem at_notMem {a : List Char} {n : ℕ} (h : magnitude a = some n) : '@' ∉ a := by
  unfold magnitude at h
  split_ifs at h with hnil hdigits
  rw [List.all_eq_true] at hdigits
  intro hat
  exact absurd (hdigits _ hat) (by decide)

/-- A token names one process. -/
theorem NamesProc.unique {token : List Char} {pid start pid' start' : ℕ} (h : NamesProc token pid start)
    (h' : NamesProc token pid' start') : pid = pid' ∧ start = start' := by
  obtain ⟨a, b, rfl, hpid, hstart⟩ := h
  obtain ⟨a', b', heq, hpid', hstart'⟩ := h'
  have hlen : some a.length = some a'.length := by
    rw [← idxOf?_of_notMem (at_notMem hpid) b, heq, idxOf?_of_notMem (at_notMem hpid') b']
  obtain ⟨rfl, hrest⟩ := List.append_inj heq (Option.some.inj hlen)
  cases hrest
  exact ⟨Option.some.inj (hpid.symm.trans hpid'), Option.some.inj (hstart.symm.trans hstart')⟩

theorem flushProc_at {a b : List Char} (hat : '@' ∉ a) :
    flushProc (a ++ '@' :: b) =
      (intPid ((parseU64 a).getD 0)).map (·, (parseU64 b).getD 0) := by
  have hnil : a ++ '@' :: b ≠ [] := by simp
  unfold flushProc
  rw [if_neg hnil, idxOf?_of_notMem hat]
  dsimp only
  rw [List.take_left, drop_after]

theorem NamesProc.flush {token : List Char} {pid start : ℕ} (h : NamesProc token pid start)
    (hpid : pid < 2 ^ 64) (hstart : start < 2 ^ 64) :
    flushProc token = (intPid pid).map (·, start) := by
  obtain ⟨a, b, rfl, ha, hb⟩ := h
  rw [flushProc_at (at_notMem ha), parseU64_eq_some.mpr ⟨ha, hpid⟩,
    parseU64_eq_some.mpr ⟨hb, hstart⟩, Option.getD_some, Option.getD_some]

/-- A process that is read with its start time: what the token says, up to the
    narrowing of the pid. -/
theorem flushProc_started {token : List Char} {pid start : ℕ}
    (h : flushProc token = some (pid, start)) (hstart : start ≠ 0) :
    ∃ n, NamesProc token n start ∧ n < 2 ^ 64 ∧ start < 2 ^ 64 ∧ intPid n = some pid := by
  unfold flushProc at h
  split_ifs at h
  split at h
  · obtain ⟨p, -, hp⟩ := Option.map_eq_some_iff.mp h
    cases hp
    exact absurd rfl hstart
  · next i hi =>
    obtain ⟨hlt, hat, -⟩ := List.idxOf?_eq_some_iff.mp hi
    have hat : token[i] = '@' := by simpa using hat
    have htoken : token = token.take i ++ '@' :: token.drop (i + 1) := by
      rw [← hat, List.getElem_cons_drop, List.take_append_drop]
    obtain ⟨p, hp, hpair⟩ := Option.map_eq_some_iff.mp h
    cases hpair
    -- a part that is no number leaves zero behind, and zero is not used
    cases hpid : parseU64 (token.take i) with
    | none =>
      rw [hpid] at hp
      cases hp
    | some n =>
      cases hsecond : parseU64 (token.drop (i + 1)) with
      | none =>
        rw [hsecond] at hstart
        exact absurd rfl hstart
      | some s =>
        rw [hpid] at hp
        obtain ⟨hn, hn64⟩ := parseU64_eq_some.mp hpid
        obtain ⟨hs, hs64⟩ := parseU64_eq_some.mp hsecond
        exact ⟨n, ⟨_, _, htoken, hn, hs⟩, hn64, hs64, hp⟩

/-- What is read from the token with a start time is what it names. -/
def Faithful (token : List Char) : Prop :=
  ∀ pid start, flushProc token = some (pid, start) → start ≠ 0 → NamesProc token pid start

/-- The token names a pid of more than 32 bits whose low half is a pid. -/
def Wraps (token : List Char) : Prop :=
  ∃ pid start, NamesProc token pid start ∧ 2 ^ 32 ≤ pid ∧ pid < 2 ^ 64 ∧ 0 < start ∧ start < 2 ^ 64 ∧
    0 < pid % 2 ^ 32 ∧ pid % 2 ^ 32 < 2 ^ 31

theorem intPid_eq_some {n pid : ℕ} :
    intPid n = some pid ↔ pid = n % 2 ^ 32 ∧ 0 < n % 2 ^ 32 ∧ n % 2 ^ 32 < 2 ^ 31 := by
  unfold intPid
  dsimp only
  split_ifs with h
  · rw [Option.some.injEq, eq_comm]
    exact ⟨fun heq => ⟨heq, h⟩, fun heq => heq.1⟩
  · exact iff_of_false (by simp) fun heq => h heq.2

theorem faithful_iff (token : List Char) : Faithful token ↔ ¬Wraps token := by
  constructor
  · rintro hfaithful ⟨pid, start, hnames, hlow, hhigh, hpos, hstart, hrange⟩
    have hread : flushProc token = some (pid % 2 ^ 32, start) := by
      rw [hnames.flush hhigh hstart, intPid_eq_some.mpr ⟨rfl, hrange⟩, Option.map_some]
    have hsame := (hnames.unique (hfaithful _ _ hread (by omega))).1
    omega
  · intro hwraps pid start hread hpos
    obtain ⟨n, hnames, hn, hstart, hpid⟩ := flushProc_started hread hpos
    obtain ⟨rfl, hrange⟩ := intPid_eq_some.mp hpid
    have hlow : n < 2 ^ 32 := by
      by_contra hlow
      exact hwraps ⟨n, start, hnames, by omega, hn, by omega, hstart, hrange⟩
    rw [Nat.mod_eq_of_lt hlow]
    exact hnames

/-! ## The round trip -/

/-- One process as `format_procs` writes it. -/
def procText (pr : ProcRef) : List Char :=
  Nat.toDigits 10 pr.pid ++ '@' :: Nat.toDigits 10 pr.start

theorem formatProcs_toList (ps : List ProcRef) :
    (formatProcs ps).toList = [','].intercalate (ps.map procText) := by
  unfold formatProcs
  rw [String.toList_intercalate, List.map_map]
  congr 1
  apply List.map_congr_left
  intro pr _
  rw [Function.comp_apply, String.toList_append, String.toList_append, toList_toString_nat,
    toList_toString_nat, procText, List.append_assoc]
  rfl

theorem comma_notMem_procText (pr : ProcRef) : ',' ∉ procText pr := by
  have hdigits : ∀ n, ',' ∉ Nat.toDigits 10 n := fun n h => absurd (isDigit_toDigits h) (by decide)
  simp [procText, hdigits]

theorem magnitude_toDigits (n : ℕ) : magnitude (Nat.toDigits 10 n) = some n := by
  unfold magnitude
  rw [if_neg Nat.toDigits_ne_nil, if_pos (List.all_eq_true.mpr fun c hc => isDigit_toDigits hc),
    Nat.ofDigitChars_ten_toDigits]

/-- The process has a pid and a start time that the C++ types hold. -/
def ProcRef.Fits (pr : ProcRef) : Prop := 0 < pr.pid ∧ pr.pid < 2 ^ 31 ∧ pr.start < 2 ^ 64

theorem flushProc_procText {pr : ProcRef} (h : pr.Fits) :
    flushProc (procText pr) = some (pr.pid, pr.start) := by
  obtain ⟨hpos, hpid, hstart⟩ := h
  have hnames : NamesProc (procText pr) pr.pid pr.start :=
    ⟨_, _, rfl, magnitude_toDigits _, magnitude_toDigits _⟩
  have hmod : pr.pid % 2 ^ 32 = pr.pid := Nat.mod_eq_of_lt (by omega)
  have hint : intPid pr.pid = some pr.pid := intPid_eq_some.mpr (by omega)
  rw [hnames.flush (by omega) hstart, hint, Option.map_some]

theorem parseProcs_formatProcs {ps : List ProcRef} (h : ∀ pr ∈ ps, pr.Fits) :
    parseProcs (formatProcs ps) = ps.map fun pr => (pr.pid, pr.start) := by
  rw [parseProcs_eq, tokens, formatProcs_toList]
  by_cases hnil : ps = []
  · subst hnil
    rfl
  · have htokens : ([','].intercalate (ps.map procText)).splitOn ',' = ps.map procText := by
      apply List.splitOn_intercalate
      · intro token htoken
        obtain ⟨pr, -, rfl⟩ := List.mem_map.mp htoken
        exact comma_notMem_procText pr
      · simpa using hnil
    rw [htokens, List.filterMap_map, ← List.filterMap_eq_map]
    apply List.filterMap_congr
    intro pr hpr
    exact flushProc_procText (h pr hpr)

/-! ## What `recover` kills -/

/-- A process that `recover` signals is named by a token of the text. -/
def SignalsNamed (text : String) : Effect → Prop
  | .leftover pid _ => ∃ token ∈ tokens text, ∃ start, NamesProc token pid start
  | _ => True

theorem killLeftover_named {o : Oracle} {text : String} {procs : List (ℕ × ℕ)}
    (h : ∀ pr ∈ procs, pr.2 ≠ 0 → ∃ token ∈ tokens text, NamesProc token pr.1 pr.2) (w : World) :
    Adds (SignalsNamed text) w.log (procs.foldl (killLeftover o) w).log := by
  induction procs generalizing w with
  | nil => exact .refl _
  | cons pr procs ih =>
    rw [List.foldl_cons]
    refine Adds.trans ?_ (ih (fun pr' hpr' => h pr' (List.mem_cons_of_mem _ hpr')) _)
    unfold killLeftover
    split_ifs with hkill
    · obtain ⟨token, htoken, hnames⟩ := h pr List.mem_cons_self hkill.1
      have hgroup : Adds (SignalsNamed text) w.log (w.ask.push (.leftover pr.1 true)).log :=
        (Adds.refl w.log).cons ⟨token, htoken, _, hnames⟩
      exact hgroup.cons ⟨token, htoken, _, hnames⟩
    · exact .refl _

theorem recoverJob_named {o : Oracle} {text : String} (h : ∀ token ∈ tokens text, ¬Wraps token)
    {w : World} {id : ℕ} {m : Meta} (hdisk : w.log.disk id = some m) (htext : m.procs = text)
    (hstate : m.state = "running" ∨ m.state = "starting" ∨ m.state = "persisting") :
    Adds (SignalsNamed text) w.log (recoverJob o w id).log := by
  have hread : ∀ pr ∈ parseProcs m.procs, pr.2 ≠ 0 →
      ∃ token ∈ tokens text, NamesProc token pr.1 pr.2 := by
    intro pr hpr hstart
    rw [htext, parseProcs_eq] at hpr
    obtain ⟨token, htoken, hflush⟩ := List.mem_filterMap.mp hpr
    exact ⟨token, htoken, (faithful_iff token).mpr (h token htoken) _ _ hflush hstart⟩
  have hkills := killLeftover_named (o := o) hread w.ask
  have hsaved : ∀ m' w', Adds (SignalsNamed text) w'.log (saveMeta o id m' w').2.log :=
    fun m' w' => (Adds.refl _).saved trivial trivial (saveMeta_saved id m' w')
  unfold recoverJob
  dsimp only
  split
  · exact .refl _
  · next m' hload =>
    cases hdisk.symm.trans (disk_of_loadMeta hload)
    rw [if_pos hstate]
    exact hkills.trans (hsaved _ _)

/-! ## The theorem -/

/-- **The process list is read back faithfully**: as it was written, and from an
    arbitrary text exactly unless a token names a pid that wraps. -/
theorem procs_faithful (ps : List ProcRef) (text : String) :
    ((∀ pr ∈ ps, pr.Fits) → parseProcs (formatProcs ps) = ps.map fun pr => (pr.pid, pr.start)) ∧
    parseProcs text = (tokens text).filterMap flushProc ∧
    ((∀ token ∈ tokens text, Faithful token) ↔ ∀ token ∈ tokens text, ¬Wraps token) ∧
    ((∀ token ∈ tokens text, ¬Wraps token) → ∀ (o : Oracle) (w : World) (id : ℕ) (m : Meta),
      w.log.disk id = some m → m.procs = text →
      (m.state = "running" ∨ m.state = "starting" ∨ m.state = "persisting") →
      Adds (SignalsNamed text) w.log (recoverJob o w id).log) :=
  ⟨parseProcs_formatProcs, parseProcs_eq text,
    forall₂_congr fun token _ => faithful_iff token,
    fun h _ _ _ _ hdisk htext hstate => recoverJob_named h hdisk htext hstate⟩

/-- Process `pid` runs since `start`, and no other one does. -/
def Oracle.alone (pid start : ℕ) : Oracle :=
  { Oracle.smooth fun _ i => 7 + i with procStart := fun _ p => if p = pid then some start else none }

/-- The world with one record, of job 7 in state `running`, and this process list. -/
def runningWorld (procs : String) : World :=
  (World.start 1).push (.record 7 { execMeta 7 with state := "running", procs := procs })

theorem procs_faithful_two :
    parseProcs "10@3,11@4" = [(10, 3), (11, 4)] ∧
      Adds (SignalsNamed "10@3,11@4") (runningWorld "10@3,11@4").log
        (recoverJob (Oracle.alone 11 4) (runningWorld "10@3,11@4") 7).log := by
  obtain ⟨hround, -, hexact, hrecover⟩ :=
    procs_faithful [{ pid := 10, start := 3 }, { pid := 11, start := 4 }] "10@3,11@4"
  have hfits : ∀ pr ∈ [({ pid := 10, start := 3 } : ProcRef), { pid := 11, start := 4 }], pr.Fits := by
    unfold ProcRef.Fits
    decide
  have htext : formatProcs [{ pid := 10, start := 3 }, { pid := 11, start := 4 }] = "10@3,11@4" := by
    decide +kernel
  have hread := hround hfits
  rw [htext] at hread
  refine ⟨hread, hrecover (hexact.mp ?_) _ _ _ _ rfl rfl (.inl rfl)⟩
  have htokens : tokens "10@3,11@4" = ["10@3".toList, "11@4".toList] := by decide +kernel
  rw [htokens]
  intro token htoken pid start hflush _
  rcases List.mem_pair.mp htoken with rfl | rfl
  · have hpair : flushProc "10@3".toList = some (10, 3) := by decide +kernel
    cases hpair.symm.trans hflush
    exact ⟨"10".toList, "3".toList, by decide +kernel⟩
  · have hpair : flushProc "11@4".toList = some (11, 4) := by decide +kernel
    cases hpair.symm.trans hflush
    exact ⟨"11".toList, "4".toList, by decide +kernel⟩

/-- The pid `2^32 + 1` is read as 1. `recover` kills process 1, which the record does
    not name. -/
theorem procs_wrap :
    parseProcs "4294967297@5" = [(1, 5)] ∧
      ¬(∀ token ∈ tokens "4294967297@5", Faithful token) ∧
      Effect.leftover 1 true ∈
        (recoverJob (Oracle.alone 1 5) (runningWorld "4294967297@5") 7).log ∧
      ¬SignalsNamed "4294967297@5" (.leftover 1 true) := by
  have htokens : tokens "4294967297@5" = ["4294967297@5".toList] := by decide +kernel
  have hnames : NamesProc "4294967297@5".toList 4294967297 5 :=
    ⟨"4294967297".toList, "5".toList, by decide +kernel⟩
  refine ⟨by decide +kernel, fun hfaithful => ?_, ?_, ?_⟩
  · have hread : flushProc "4294967297@5".toList = some (1, 5) := by decide +kernel
    have hone := hfaithful _ (by rw [htokens]; exact List.mem_singleton_self _) 1 5 hread (by decide)
    cases (hnames.unique hone).1
  · -- the record is saved as failed on top of the two signals
    have hread : parseProcs "4294967297@5" = [(1, 5)] := by decide +kernel
    have hlog : (recoverJob (Oracle.alone 1 5) (runningWorld "4294967297@5") 7).log.tail =
        .leftover 1 false :: .leftover 1 true :: (runningWorld "4294967297@5").log := by
      show ((parseProcs "4294967297@5").foldl (killLeftover (Oracle.alone 1 5)) _).log = _
      rw [hread]
      rfl
    apply List.mem_of_mem_tail
    rw [hlog]
    simp
  · rintro ⟨token, htoken, start, hone⟩
    rw [htokens, List.mem_singleton] at htoken
    subst htoken
    cases (hnames.unique hone).1

end Forge
