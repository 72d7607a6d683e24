import Forge.Lib.KeyValue
import Forge.Store.Meta
import Forge.Store.Parse

/-!
# Reading a record back

`text_to_meta` with `assign_meta_field` and `parse_i64` (store.cpp:89-108,
306-395, 475-500) against the writer `meta_to_text`.

* `textToMeta_metaToText`: the round trip.
* `textToMeta_trimmed`: what is read back from any record.
* `textToMeta_oneLine`: what is read holds no line break.
-/

namespace Forge

open KeyValue

/-! ## Model -/

/-- The value of a 64-bit `static_cast<int64_t>`. -/
def toInt64 (n : ℤ) : ℤ := n.bmod (2 ^ 64)

/-- The value of a `static_cast<int>`. -/
def toInt (n : ℤ) : ℤ := n.bmod (2 ^ 32)

/-- `parse_i64` (store.cpp:89-108). The negation of `INT64_MIN`, which the
    language leaves undefined, wraps here. -/
def parseI64 : List Char → Option ℤ
  | [] => none
  | '-' :: text => (parseU64 text).map fun mag : ℕ => toInt64 (-toInt64 mag)
  | text => (parseU64 text).map fun mag : ℕ => toInt64 mag

/-- The lambda `need_u64` (store.cpp:308-314); `dest` assigns to the field. -/
def needU64 (key val : String) (dest : ℕ → Meta) : Except String Meta :=
  match parseU64 val.toList with
  | none => .error ("bad number for " ++ key)
  | some n => .ok (dest n)

/-- The lambda `need_i64` (store.cpp:315-321). -/
def needI64 (key val : String) (dest : ℤ → Meta) : Except String Meta :=
  match parseI64 val.toList with
  | none => .error ("bad number for " ++ key)
  | some n => .ok (dest n)

/-- `assign_meta_field` (store.cpp:306-395). -/
def assignMetaField (m : Meta) (key val : String) : Except String Meta :=
  if key = "id" then needU64 key val fun n => { m with id := n }
  else if key = "state" then .ok { m with state := val }
  else if key = "op" then .ok { m with op := val }
  else if key = "input" then .ok { m with input := val }
  else if key = "exec" then .ok { m with execPath := val }
  else if key = "io" then .ok { m with io := val }
  else if key = "workers" then needU64 key val fun n => { m with workers := toInt n }
  else if key = "priority" then needI64 key val fun n => { m with priority := toInt n }
  else if key = "nice" then needI64 key val fun n => { m with nice := toInt n }
  else if key = "cpu" then needI64 key val fun n => { m with cpu := toInt n }
  else if key = "mem_mb" then needU64 key val fun n => { m with memMb := n }
  else if key = "cpu_sec" then needU64 key val fun n => { m with cpuSec := n }
  else if key = "max_fds" then needU64 key val fun n => { m with maxFds := n }
  else if key = "max_out_mb" then needU64 key val fun n => { m with maxOutMb := n }
  else if key = "deadline_s" then needU64 key val fun n => { m with deadlineS := n }
  else if key = "procs" then .ok { m with procs := val }
  else if key = "exits" then .ok { m with exits := val }
  else if key = "bytes" then needU64 key val fun n => { m with bytes := n }
  else if key = "digest" then .ok { m with digest := val }
  else if key = "error" then .ok { m with error := val }
  else if key = "submitted_ms" then needI64 key val fun n => { m with submittedMs := n }
  else if key = "started_ms" then needI64 key val fun n => { m with startedMs := n }
  else if key = "finished_ms" then needI64 key val fun n => { m with finishedMs := n }
  -- unknown keys are skipped, so old binaries can read new files
  else .ok m

/-- The body of the loop of `text_to_meta` (store.cpp:479-494). -/
def readMetaLine (m : Meta) (line : List Char) : Except String Meta :=
  if line = [] ∨ line.head? = some '#' then .ok m
  else
    let line := dropCr '\r' line
    match splitField '=' line with
    | none => .error ("meta line has no '=': " ++ String.ofList line)
    | some (key, val) => assignMetaField m (String.ofList key) (String.ofList val)

/-- `text_to_meta` (store.cpp:475-500). -/
def textToMeta (text : String) : Except String Meta :=
  match (getlines '\n' text.toList).foldlM readMetaLine {} with
  | .error e => .error e
  | .ok m =>
    if m.id = 0 ∨ m.op = "" ∨ m.state = "" then .error "meta is missing id, op, or state"
    else .ok m

/-- The values of the fields fit the C++ types. -/
structure Meta.Typed (m : Meta) : Prop where
  id : m.id < 2 ^ 64
  workers : -2 ^ 31 ≤ m.workers ∧ m.workers < 2 ^ 31
  priority : -2 ^ 31 ≤ m.priority ∧ m.priority < 2 ^ 31
  nice : -2 ^ 31 ≤ m.nice ∧ m.nice < 2 ^ 31
  cpu : -2 ^ 31 ≤ m.cpu ∧ m.cpu < 2 ^ 31
  memMb : m.memMb < 2 ^ 64
  cpuSec : m.cpuSec < 2 ^ 64
  maxFds : m.maxFds < 2 ^ 64
  maxOutMb : m.maxOutMb < 2 ^ 64
  deadlineS : m.deadlineS < 2 ^ 64
  bytes : m.bytes < 2 ^ 64
  submittedMs : -2 ^ 63 ≤ m.submittedMs ∧ m.submittedMs < 2 ^ 63
  startedMs : -2 ^ 63 ≤ m.startedMs ∧ m.startedMs < 2 ^ 63
  finishedMs : -2 ^ 63 ≤ m.finishedMs ∧ m.finishedMs < 2 ^ 63

/-- The text fields of a record. -/
def Meta.texts (m : Meta) : List String :=
  [m.state, m.op, m.input, m.execPath, m.io, m.procs, m.exits, m.digest, m.error]

/-- A record that the text format can carry: the fields fit their C++ types, the
    reader's own demands are met, and no text looks like more than one line. -/
structure Meta.Encodable (m : Meta) : Prop where
  typed : m.Typed
  id : m.id ≠ 0
  op : m.op ≠ ""
  state : m.state ≠ ""
  workers : 0 ≤ m.workers
  submittedMs : m.submittedMs ≠ -2 ^ 63
  startedMs : m.startedMs ≠ -2 ^ 63
  finishedMs : m.finishedMs ≠ -2 ^ 63
  oneLine : ∀ s ∈ m.texts, '\n' ∉ s.toList
  noCr : ∀ s ∈ m.texts, s.toList.getLast? ≠ some '\r'

/-- The fields as `meta_to_text` writes them, in order. -/
def metaFields (m : Meta) : List (String × String) :=
  [("id", toString m.id), ("state", m.state), ("op", m.op), ("input", m.input),
    ("exec", m.execPath), ("io", m.io), ("workers", toString m.workers),
    ("priority", toString m.priority), ("nice", toString m.nice), ("cpu", toString m.cpu),
    ("mem_mb", toString m.memMb), ("cpu_sec", toString m.cpuSec), ("max_fds", toString m.maxFds),
    ("max_out_mb", toString m.maxOutMb), ("deadline_s", toString m.deadlineS),
    ("procs", m.procs), ("exits", m.exits), ("bytes", toString m.bytes), ("digest", m.digest),
    ("error", m.error), ("submitted_ms", toString m.submittedMs),
    ("started_ms", toString m.startedMs), ("finished_ms", toString m.finishedMs)]

/-- A field as characters. -/
def chars (field : String × String) : List Char × List Char := (field.1.toList, field.2.toList)

theorem metaToText_toList (m : Meta) :
    (metaToText m).toList = encode '=' '\n' ((metaFields m).map chars) := by
  unfold metaToText metaFields
  conv_lhs => simp only [String.toList_append, String.reduceToList, List.append_assoc]
  conv_rhs => simp only [List.map_cons, List.map_nil, encode_cons, chars, String.reduceToList]
  rfl

/-! ## Numbers -/

theorem toList_toString_nat (n : ℕ) : (toString n).toList = Nat.toDigits 10 n := by
  simp [toString, Nat.repr]

theorem toInt_of_range {n : ℤ} (h : -2 ^ 31 ≤ n ∧ n < 2 ^ 31) : toInt n = n := by
  unfold toInt
  exact Int.bmod_eq_of_le (by omega) (by omega)

theorem toInt64_of_range {n : ℤ} (h : -2 ^ 63 ≤ n ∧ n < 2 ^ 63) : toInt64 n = n := by
  unfold toInt64
  exact Int.bmod_eq_of_le (by omega) (by omega)

theorem toInt64_range (n : ℤ) : -2 ^ 63 ≤ toInt64 n ∧ toInt64 n < 2 ^ 63 := by
  unfold toInt64
  constructor
  · have := Int.le_bmod (x := n) (m := 2 ^ 64) (by norm_num)
    omega
  · have := Int.bmod_lt (x := n) (m := 2 ^ 64) (by norm_num)
    omega

theorem toInt64_neg_toInt64 (n : ℤ) : toInt64 (-toInt64 n) = toInt64 (-n) := by
  unfold toInt64
  exact Int.bmod_neg_bmod

theorem isDigit_toDigits {n : ℕ} {c : Char} (hc : c ∈ Nat.toDigits 10 n) : c.isDigit = true :=
  Nat.isDigit_of_mem_toDigits (by norm_num) (by norm_num) hc

theorem parseI64_of_digits {text : List Char} (hnil : text ≠ [])
    (hdigits : ∀ c ∈ text, c.isDigit = true) :
    parseI64 text = (parseU64 text).map fun mag : ℕ => toInt64 mag := by
  unfold parseI64
  split
  · exact absurd rfl hnil
  · exact absurd (hdigits '-' List.mem_cons_self) (by decide)
  · rfl

/-- What the writer prints for an `int64_t` is read back. -/
theorem parseI64_toString {n : ℤ} (h : -2 ^ 63 ≤ n ∧ n < 2 ^ 63) :
    parseI64 (toString n).toList = some n := by
  cases n with
  | ofNat n =>
    have hn : (n : ℤ) < 2 ^ 63 := h.2
    have hlt : n < 2 ^ 64 := by omega
    have htext : (toString (Int.ofNat n)).toList = Nat.toDigits 10 n := toList_toString_nat n
    rw [htext, parseI64_of_digits Nat.toDigits_ne_nil fun c hc => isDigit_toDigits hc,
      parseU64_toDigits hlt, Option.map_some, toInt64_of_range (by omega)]
    rfl
  | negSucc n =>
    have hlt : n + 1 < 2 ^ 64 := by omega
    have htext : (toString (Int.negSucc n)).toList = '-' :: Nat.toDigits 10 (n + 1) := by
      show ("-" ++ toString (n + 1)).toList = _
      rw [String.toList_append, toList_toString_nat]
      rfl
    rw [htext]
    show (parseU64 (Nat.toDigits 10 (n + 1))).map _ = _
    rw [parseU64_toDigits hlt, Option.map_some, toInt64_neg_toInt64, toInt64_of_range (by omega)]
    congr 1

theorem dropCr_digits (n : ℕ) : dropCr '\r' (Nat.toDigits 10 n) = Nat.toDigits 10 n := by
  apply dropCr_of_ne
  intro h
  have hdigit := isDigit_toDigits (List.mem_of_getLast? h)
  exact absurd hdigit (by decide)

/-! ## The round trip -/

/-- A text without the carriage return at its end. -/
def trimText (s : String) : String := String.ofList (dropCr '\r' s.toList)

theorem trimText_eq_self_iff {s : String} : trimText s = s ↔ s.toList.getLast? ≠ some '\r' := by
  rw [← dropCr_eq_self_iff, trimText, ← String.toList_inj, String.toList_ofList]

theorem trimText_nat (n : ℕ) : trimText (toString n) = toString n := by
  rw [trimText, ← String.toList_inj, String.toList_ofList, toList_toString_nat, dropCr_digits]

theorem trimText_int (n : ℤ) : trimText (toString n) = toString n := by
  cases n with
  | ofNat n => exact trimText_nat n
  | negSucc n =>
    rw [trimText_eq_self_iff]
    show ("-" ++ toString (n + 1)).toList.getLast? ≠ some '\r'
    rw [String.toList_append, toList_toString_nat, List.getLast?_append]
    intro h
    have hsome := List.getLast?_isSome.mpr (Nat.toDigits_ne_nil (b := 10) (n := n + 1))
    obtain ⟨c, hc⟩ := Option.isSome_iff_exists.mp hsome
    rw [hc, Option.some_or] at h
    cases h
    have hdigit := isDigit_toDigits (List.mem_of_getLast? hc)
    exact absurd hdigit (by decide)

/-- The record as its text is read: a text field loses the carriage return at its end. -/
def Meta.trimmed (m : Meta) : Meta :=
  { m with
    state := trimText m.state
    op := trimText m.op
    input := trimText m.input
    execPath := trimText m.execPath
    io := trimText m.io
    procs := trimText m.procs
    exits := trimText m.exits
    digest := trimText m.digest
    error := trimText m.error }

/-- A key of a field. -/
structure IsKey (key : List Char) : Prop where
  eq : '=' ∉ key
  newline : '\n' ∉ key
  nonempty : key ≠ []
  comment : key.head? ≠ some '#'

theorem metaFields_keys (m : Meta) : ∀ field ∈ metaFields m, IsKey field.1.toList := by
  unfold metaFields
  simp only [List.forall_mem_cons]
  refine ⟨?_, ?_, ?_, ?_, ?_, ?_, ?_, ?_, ?_, ?_, ?_, ?_, ?_, ?_, ?_, ?_, ?_, ?_, ?_, ?_, ?_, ?_,
    ?_, by simp⟩
  all_goals constructor <;> decide

theorem readMetaLine_field {key : List Char} (hkey : IsKey key) (m : Meta) (val : List Char) :
    readMetaLine m (line '=' (key, val)) =
      assignMetaField m (String.ofList key) (String.ofList (dropCr '\r' val)) := by
  have hline : ¬ (line '=' (key, val) = [] ∨ (line '=' (key, val)).head? = some '#') := by
    unfold line
    rw [List.head?_append_of_ne_nil _ hkey.nonempty]
    rintro (hnil | hcomment)
    · exact hkey.nonempty (List.append_eq_nil_iff.mp hnil).1
    · exact hkey.comment hcomment
  unfold readMetaLine
  rw [if_neg hline]
  dsimp only
  rw [dropCr_encode (by decide), splitField_encode hkey.eq]

theorem newline_notMem_nat (n : ℕ) : '\n' ∉ (toString n).toList := by
  rw [toList_toString_nat]
  intro h
  exact absurd (isDigit_toDigits h) (by decide)

theorem newline_notMem_int (n : ℤ) : '\n' ∉ (toString n).toList := by
  cases n with
  | ofNat n => exact newline_notMem_nat n
  | negSucc n =>
    show '\n' ∉ ("-" ++ toString (n + 1)).toList
    rw [String.toList_append, List.mem_append, not_or]
    exact ⟨by decide, newline_notMem_nat (n + 1)⟩

theorem metaFields_values {m : Meta} (htexts : ∀ s ∈ m.texts, '\n' ∉ s.toList) :
    ∀ field ∈ metaFields m, '\n' ∉ field.2.toList := by
  unfold Meta.texts at htexts
  simp only [List.forall_mem_cons] at htexts
  unfold metaFields
  simp only [List.forall_mem_cons, newline_notMem_nat, newline_notMem_int, htexts]
  simp

/-- The fields are assigned one after another. -/
def assignFields (fields : List (String × String)) (m : Meta) : Except String Meta :=
  fields.foldlM (fun acc field => assignMetaField acc field.1 (trimText field.2)) m

theorem assignFields_cons (field : String × String) (fields : List (String × String)) (m : Meta) :
    assignFields (field :: fields) m =
      (assignMetaField m field.1 (trimText field.2)) >>= assignFields fields :=
  List.foldlM_cons

theorem assignFields_append (before after : List (String × String)) (m : Meta) :
    assignFields (before ++ after) m = assignFields before m >>= assignFields after :=
  List.foldlM_append

theorem readMetaLine_fields {fields : List (String × String)}
    (hkeys : ∀ field ∈ fields, IsKey field.1.toList) (acc : Meta) :
    ((fields.map chars).map (line '=')).foldlM readMetaLine acc = assignFields fields acc := by
  induction fields generalizing acc with
  | nil => rfl
  | cons field fields ih =>
    have hline := readMetaLine_field (hkeys field List.mem_cons_self) acc field.2.toList
    rw [String.ofList_toList] at hline
    have hrest := fun acc => ih (fun f hf => hkeys f (List.mem_cons_of_mem _ hf)) acc
    simp only [List.map_cons, List.foldlM_cons, assignFields_cons, chars, hline, hrest]
    rfl

/-- Reading the lines of a record assigns its fields one after another. -/
theorem readMetaLines_eq {m : Meta} (htexts : ∀ s ∈ m.texts, '\n' ∉ s.toList) (acc : Meta) :
    (getlines '\n' (metaToText m).toList).foldlM readMetaLine acc =
      assignFields (metaFields m) acc := by
  have hfields : ∀ field ∈ (metaFields m).map chars, '\n' ∉ field.1 ∧ '\n' ∉ field.2 := by
    intro field hfield
    obtain ⟨f, hf, rfl⟩ := List.mem_map.mp hfield
    exact ⟨(metaFields_keys m f hf).newline, metaFields_values htexts f hf⟩
  rw [metaToText_toList, getlines_encode (by decide) _ hfields,
    readMetaLine_fields (metaFields_keys m)]

theorem needU64_toString {n : ℕ} (h : n < 2 ^ 64) (key : String) (dest : ℕ → Meta) :
    needU64 key (trimText (toString n)) dest = .ok (dest n) := by
  unfold needU64
  rw [trimText_nat, toList_toString_nat, parseU64_toDigits h]

theorem needI64_toString {n : ℤ} (h : -2 ^ 63 ≤ n ∧ n < 2 ^ 63) (key : String) (dest : ℤ → Meta) :
    needI64 key (trimText (toString n)) dest = .ok (dest n) := by
  unfold needI64
  rw [trimText_int, parseI64_toString h]

theorem assignFields_eq {m : Meta} (h : m.Typed) (hworkers : 0 ≤ m.workers) :
    assignFields (metaFields m) {} = .ok m.trimmed := by
  obtain ⟨workers, hw⟩ := Int.eq_ofNat_of_zero_le hworkers
  have hwork := h.workers
  have hpri := h.priority
  have hnice := h.nice
  have hcpu := h.cpu
  have hworktext : toString m.workers = toString workers := by
    rw [hw]
    rfl
  unfold metaFields assignFields
  rw [hworktext]
  simp only [List.foldlM_cons, List.foldlM_nil, assignMetaField, String.reduceEq, reduceIte,
    needU64_toString h.id, needU64_toString h.memMb, needU64_toString h.cpuSec,
    needU64_toString h.maxFds, needU64_toString h.maxOutMb, needU64_toString h.deadlineS,
    needU64_toString h.bytes, needU64_toString (show workers < 2 ^ 64 by omega),
    needI64_toString (show -2 ^ 63 ≤ m.priority ∧ m.priority < 2 ^ 63 by omega),
    needI64_toString (show -2 ^ 63 ≤ m.nice ∧ m.nice < 2 ^ 63 by omega),
    needI64_toString (show -2 ^ 63 ≤ m.cpu ∧ m.cpu < 2 ^ 63 by omega),
    needI64_toString h.submittedMs, needI64_toString h.startedMs, needI64_toString h.finishedMs]
  rw [← hw, toInt_of_range hwork, toInt_of_range hpri, toInt_of_range hnice, toInt_of_range hcpu]
  rfl

/-- `need_u64` does not read the minus sign that the writer prints. -/
theorem assignFields_negative {m : Meta} (hid : m.id < 2 ^ 64) (hworkers : m.workers < 0) :
    assignFields (metaFields m) {} = .error "bad number for workers" := by
  obtain ⟨n, hn⟩ := Int.eq_negSucc_of_lt_zero hworkers
  have hminus : ∀ dest : ℕ → Meta, needU64 "workers" (trimText (toString m.workers)) dest =
      .error "bad number for workers" := by
    intro dest
    have htext : (toString m.workers).toList = '-' :: Nat.toDigits 10 (n + 1) := by
      rw [hn]
      show ("-" ++ toString (n + 1)).toList = _
      rw [String.toList_append, toList_toString_nat]
      rfl
    unfold needU64
    rw [trimText_int, htext]
    rfl
  unfold metaFields assignFields
  simp only [List.foldlM_cons, assignMetaField, String.reduceEq, reduceIte, needU64_toString hid,
    hminus]
  rfl

/-- A negative number of workers is not read back. -/
theorem textToMeta_negative {m : Meta} (hid : m.id < 2 ^ 64) (hworkers : m.workers < 0)
    (htexts : ∀ s ∈ m.texts, '\n' ∉ s.toList) :
    textToMeta (metaToText m) = .error "bad number for workers" := by
  unfold textToMeta
  rw [readMetaLines_eq htexts, assignFields_negative hid hworkers]

/-- What is read back from a record whose texts hold no line break. -/
theorem textToMeta_trimmed {m : Meta} (h : m.Typed) (hworkers : 0 ≤ m.workers)
    (htexts : ∀ s ∈ m.texts, '\n' ∉ s.toList) :
    textToMeta (metaToText m) =
      if m.id = 0 ∨ trimText m.op = "" ∨ trimText m.state = "" then
        .error "meta is missing id, op, or state"
      else .ok m.trimmed := by
  unfold textToMeta
  rw [readMetaLines_eq htexts, assignFields_eq h hworkers]
  rfl

theorem Meta.trimmed_eq_self {m : Meta} (h : ∀ s ∈ m.texts, s.toList.getLast? ≠ some '\r') :
    m.trimmed = m := by
  simp only [← trimText_eq_self_iff] at h
  unfold Meta.texts at h
  simp only [List.forall_mem_cons] at h
  unfold Meta.trimmed
  simp only [h]

theorem Meta.Encodable.read {m : Meta} (h : m.Encodable) : textToMeta (metaToText m) = .ok m := by
  have hop : trimText m.op = m.op := trimText_eq_self_iff.mpr (h.noCr _ (by simp [Meta.texts]))
  have hstate : trimText m.state = m.state :=
    trimText_eq_self_iff.mpr (h.noCr _ (by simp [Meta.texts]))
  rw [textToMeta_trimmed h.typed h.workers h.oneLine, hop, hstate, Meta.trimmed_eq_self h.noCr]
  exact if_neg (by simp [h.id, h.op, h.state])

/-- **The round trip.** A record is read back as it was written, so its text
    determines it. -/
theorem textToMeta_metaToText {m : Meta} (h : m.Encodable) :
    textToMeta (metaToText m) = .ok m ∧
      ∀ m' : Meta, m'.Encodable → metaToText m' = metaToText m → m' = m := by
  refine ⟨h.read, fun m' h' heq => ?_⟩
  have hread := h'.read
  rw [heq, h.read] at hread
  exact (Except.ok.inj hread).symm

theorem textToMeta_metaToText_copy :
    let m : Meta := { id := 7, op := "copy", input := "/a=b #", error := "#", startedMs := -5 }
    textToMeta (metaToText m) = .ok m ∧
      ∀ m' : Meta, m'.Encodable → metaToText m' = metaToText m → m' = m :=
  textToMeta_metaToText
    { typed := by constructor <;> simp
      id := by simp
      op := by simp
      state := by simp
      workers := by simp
      submittedMs := by simp
      startedMs := by simp
      finishedMs := by simp
      oneLine := by simp [Meta.texts]
      noCr := by simp [Meta.texts] }

/-! ## What a read yields -/

/-- A read that succeeds yields a record with the property. -/
def Yields (P : Meta → Prop) (read : Except String Meta) : Prop := ∀ m, read = .ok m → P m

namespace Yields

variable {P : Meta → Prop}

theorem ok {m : Meta} (h : P m) : Yields P (.ok m) := by
  intro m' heq
  cases heq
  exact h

theorem ite {c : Prop} [Decidable c] {a b : Except String Meta} (ha : c → Yields P a)
    (hb : Yields P b) : Yields P (if c then a else b) := by
  split
  · exact ha ‹c›
  · exact hb

theorem bind {P Q : Meta → Prop} {read : Except String Meta} {next : Meta → Except String Meta}
    (hread : Yields Q read) (hnext : ∀ m, Q m → Yields P (next m)) : Yields P (read >>= next) := by
  cases read with
  | error e => exact fun _ heq => nomatch heq
  | ok m => exact hnext m (hread m rfl)

theorem needU64 {key val : String} {dest : ℕ → Meta}
    (hdest : ∀ n, parseU64 val.toList = some n → P (dest n)) :
    Yields P (Forge.needU64 key val dest) := by
  unfold Forge.needU64
  split
  · exact fun _ heq => nomatch heq
  · next n hparse => exact ok (hdest n hparse)

theorem needI64 {key val : String} {dest : ℤ → Meta}
    (hdest : ∀ n, parseI64 val.toList = some n → P (dest n)) :
    Yields P (Forge.needI64 key val dest) := by
  unfold Forge.needI64
  split
  · exact fun _ heq => nomatch heq
  · next n hparse => exact ok (hdest n hparse)

/-- What each line keeps, all lines keep. -/
theorem readMetaLines {lines : List (List Char)}
    (hline : ∀ line ∈ lines, ∀ m, P m → Yields P (readMetaLine m line)) {m : Meta} (hm : P m) :
    Yields P (lines.foldlM readMetaLine m) := by
  induction lines generalizing m with
  | nil => exact ok hm
  | cons line lines ih =>
    rw [List.foldlM_cons]
    refine bind (hline line List.mem_cons_self m hm) fun m₁ hm₁ => ?_
    exact ih (fun l hl => hline l (List.mem_cons_of_mem _ hl)) hm₁

theorem textToMeta {text : String} (hnew : P {})
    (hline : ∀ line ∈ getlines '\n' text.toList, ∀ m, P m → Yields P (readMetaLine m line)) :
    Yields P (Forge.textToMeta text) := by
  intro m h
  unfold Forge.textToMeta at h
  split at h
  · cases h
  · next m' hread =>
    split_ifs at h
    cases h
    exact readMetaLines hline hnew m hread

end Yields

/-! ## What is read holds no line break -/

/-- No text of the record holds a line break. -/
def Meta.OneLine (m : Meta) : Prop := ∀ s ∈ m.texts, '\n' ∉ s.toList

/-- A read that succeeds yields texts without line breaks. -/
def YieldsOneLine (read : Except String Meta) : Prop := ∀ m, read = .ok m → m.OneLine

theorem assignMetaField_oneLine {m : Meta} {key val : String} (hm : m.OneLine)
    (hval : '\n' ∉ val.toList) : YieldsOneLine (assignMetaField m key val) := by
  have htext : ∀ n : Meta, (∀ s ∈ n.texts, s ∈ m.texts ∨ s = val) → n.OneLine := by
    intro n hn s hs
    rcases hn s hs with hs | rfl
    · exact hm s hs
    · exact hval
  show Yields Meta.OneLine _
  unfold assignMetaField
  repeat' refine Yields.ite (fun _ => ?_) ?_
  all_goals with_reducible first
    | apply Yields.ok
    | apply Yields.needU64; intro _ _
    | apply Yields.needI64; intro _ _
  -- a number leaves the texts alone, a text is the value of the line
  all_goals
    apply htext
    simp [Meta.texts]

theorem readMetaLine_oneLine {m : Meta} {line : List Char} (hm : m.OneLine)
    (hline : '\n' ∉ line) : Yields Meta.OneLine (readMetaLine m line) := by
  unfold readMetaLine
  refine Yields.ite (fun _ => .ok hm) ?_
  dsimp only
  split
  · exact fun _ heq => nomatch heq
  · next key val hsplit =>
    refine assignMetaField_oneLine hm ?_
    rw [String.toList_ofList]
    exact fun hmem => hline (mem_of_mem_dropCr (splitField_mem hsplit hmem))

/-- What is read holds no line break in any text. -/
theorem textToMeta_oneLine {text : String} {m : Meta} (h : textToMeta text = .ok m) :
    m.OneLine :=
  Yields.textToMeta (by simp [Meta.OneLine, Meta.texts])
    (fun _ hl _ hm => readMetaLine_oneLine hm (not_mem_getlines hl)) m h

/-- **What is read back as it was written**, among the records whose texts fit on a line. -/
theorem textToMeta_eq_self_iff {m : Meta} (h : m.Typed) (hline : m.OneLine) :
    textToMeta (metaToText m) = .ok m ↔
      (m.id ≠ 0 ∧ m.op ≠ "" ∧ m.state ≠ "") ∧ 0 ≤ m.workers ∧
        ∀ s ∈ m.texts, s.toList.getLast? ≠ some '\r' := by
  by_cases hworkers : 0 ≤ m.workers
  · rw [textToMeta_trimmed h hworkers hline]
    constructor
    · intro hread
      split_ifs at hread with hmissing
      have htrim : m.trimmed = m := Except.ok.inj hread
      have hop : trimText m.op = m.op := congrArg Meta.op htrim
      have hstate : trimText m.state = m.state := congrArg Meta.state htrim
      have htexts : m.texts.map trimText = m.texts := congrArg Meta.texts htrim
      rw [not_or, not_or, hop, hstate] at hmissing
      refine ⟨hmissing, hworkers, fun s hs => ?_⟩
      rw [← trimText_eq_self_iff]
      exact List.map_eq_map_iff.mp (htexts.trans (List.map_id _).symm) s hs
    · rintro ⟨⟨hid, hop, hstate⟩, -, hcr⟩
      have htrim := Meta.trimmed_eq_self hcr
      have hop' : trimText m.op = m.op := congrArg Meta.op htrim
      have hstate' : trimText m.state = m.state := congrArg Meta.state htrim
      rw [htrim, hop', hstate']
      exact if_neg (by simp [hid, hop, hstate])
  · rw [textToMeta_negative h.id (by omega) hline]
    simp [hworkers]

theorem textToMeta_admitted_iff {m : Meta} (h : m.Typed) (hop : m.op ≠ "") (hstate : m.state ≠ "")
    (hworkers : 0 ≤ m.workers) :
    textToMeta (metaToText m) = .ok m ↔
      m.id ≠ 0 ∧ ∀ s ∈ m.texts, '\n' ∉ s.toList ∧ s.toList.getLast? ≠ some '\r' := by
  constructor
  · intro hread
    have hline : m.OneLine := textToMeta_oneLine hread
    obtain ⟨⟨hid, -⟩, -, hcr⟩ := (textToMeta_eq_self_iff h hline).mp hread
    exact ⟨hid, fun s hs => ⟨hline s hs, hcr s hs⟩⟩
  · rintro ⟨hid, htexts⟩
    exact (textToMeta_eq_self_iff h fun s hs => (htexts s hs).1).mpr
      ⟨⟨hid, hop, hstate⟩, hworkers, fun s hs => (htexts s hs).2⟩

/-! ## The state and the operation that are read -/

/-- A field of a record is assigned under its key only. -/
structure TextField (f : Meta → String) (key : String) : Prop where
  set : ∀ m val, Yields (fun m' => f m' = val) (assignMetaField m key val)
  keep : ∀ m k val, k ≠ key → Yields (fun m' => f m' = f m) (assignMetaField m k val)

theorem assignMetaField_keeps (m : Meta) (key val : String) :
    Yields (fun m' => (key ≠ "state" → m'.state = m.state) ∧ (key ≠ "op" → m'.op = m.op))
      (assignMetaField m key val) := by
  unfold assignMetaField
  repeat' refine Yields.ite (fun _ => ?_) ?_
  all_goals with_reducible first
    | apply Yields.ok
    | apply Yields.needU64; intro _ _
    | apply Yields.needI64; intro _ _
  all_goals exact ⟨fun _ => by first | rfl | contradiction, fun _ => by first | rfl | contradiction⟩

theorem textField_state : TextField Meta.state "state" where
  set := fun m val => by
    simp only [assignMetaField, String.reduceEq, reduceIte]
    exact Yields.ok rfl
  keep := fun m key val hkey m' h => (assignMetaField_keeps m key val m' h).1 hkey

theorem textField_op : TextField Meta.op "op" where
  set := fun m val => by
    simp only [assignMetaField, String.reduceEq, reduceIte]
    exact Yields.ok rfl
  keep := fun m key val hkey m' h => (assignMetaField_keeps m key val m' h).2 hkey

variable {f : Meta → String} {key : String}

theorem TextField.kept (h : TextField f key) {fields : List (String × String)}
    (hfields : ∀ field ∈ fields, field.1 ≠ key) (m : Meta) :
    Yields (fun m' => f m' = f m) (assignFields fields m) := by
  induction fields generalizing m with
  | nil => exact Yields.ok rfl
  | cons field fields ih =>
    rw [assignFields_cons]
    refine (h.keep m field.1 _ (hfields field List.mem_cons_self)).bind fun m₁ hm₁ m' hm' => ?_
    exact (ih (fun f hf => hfields f (List.mem_cons_of_mem _ hf)) m₁ m' hm').trans hm₁

/-- A text field has the value of its last line. -/
theorem TextField.last (h : TextField f key) (before : List (String × String)) (val : String)
    {after : List (String × String)} (hafter : ∀ field ∈ after, field.1 ≠ key) (m : Meta) :
    Yields (fun m' => f m' = trimText val) (assignFields (before ++ (key, val) :: after) m) := by
  rw [assignFields_append]
  refine Yields.bind (Q := fun _ => True) (fun _ _ => trivial) fun m₁ _ => ?_
  rw [assignFields_cons]
  refine (h.set m₁ _).bind fun m₂ hm₂ m' hm' => ?_
  exact (h.kept hafter m₂ m' hm').trans hm₂

/-- The state and the operation that are read from the text of any record, on lines. -/
theorem textToMeta_names {m m' : Meta} (hline : m.OneLine) (h : textToMeta (metaToText m) = .ok m') :
    m'.state = trimText m.state ∧ m'.op = trimText m.op := by
  unfold textToMeta at h
  rw [readMetaLines_eq hline] at h
  split at h
  · cases h
  · next m'' hread =>
    split_ifs at h
    cases h
    have hstate : Yields (fun m' => m'.state = trimText m.state) (assignFields (metaFields m) {}) :=
      textField_state.last [("id", toString m.id)] m.state (by simp) {}
    have hop : Yields (fun m' => m'.op = trimText m.op) (assignFields (metaFields m) {}) :=
      textField_op.last [("id", toString m.id), ("state", m.state)] m.op (by simp) {}
    exact ⟨hstate _ hread, hop _ hread⟩

/-! ## Lines of bytes -/

/-- A line: each character is a byte, and none is a line break. -/
def IsLine (s : String) : Prop := ∀ c ∈ s.toList, c.toNat < 256 ∧ c ≠ '\n'

theorem isLine_append {s t : String} : IsLine (s ++ t) ↔ IsLine s ∧ IsLine t := by
  simp only [IsLine, String.toList_append, List.forall_mem_append]

theorem isLine_of_digits {s : String} (h : ∀ c ∈ s.toList, c.isDigit = true) : IsLine s := by
  intro c hc
  have hdigit := h c hc
  simp only [Char.isDigit, Bool.and_eq_true, decide_eq_true_eq] at hdigit
  refine ⟨lt_of_le_of_lt (show c.toNat ≤ 57 from hdigit.2) (by decide), ?_⟩
  rintro rfl
  exact absurd (h _ hc) (by decide)

theorem isLine_nat (n : ℕ) : IsLine (toString n) :=
  isLine_of_digits fun c hc => isDigit_toDigits (by rwa [toList_toString_nat] at hc)

theorem isLine_int (n : ℤ) : IsLine (toString n) := by
  cases n with
  | ofNat n => exact isLine_nat n
  | negSucc n =>
    show IsLine ("-" ++ toString (n + 1))
    exact isLine_append.mpr ⟨by simp [IsLine], isLine_nat (n + 1)⟩

/-- Every text of the record is a line. -/
def Meta.Lines (m : Meta) : Prop := ∀ s ∈ m.texts, IsLine s

theorem Meta.Lines.oneLine {m : Meta} (h : m.Lines) : m.OneLine :=
  fun s hs hmem => (h s hs _ hmem).2 rfl

/-- **The bytes of a record are its text.** -/
theorem fileText_metaToText {m : Meta} (h : m.Lines) :
    fileText (textBytes (metaToText m)) = metaToText m := by
  have hvalues : ∀ field ∈ metaFields m, IsLine field.1 ∧ IsLine field.2 := by
    unfold Meta.Lines Meta.texts at h
    simp only [List.forall_mem_cons] at h
    unfold metaFields
    simp only [List.forall_mem_cons, isLine_nat, isLine_int, h]
    simp [IsLine]
  refine fileText_textBytes fun c hc => ?_
  rw [metaToText_toList] at hc
  obtain ⟨field, hfield, hc⟩ := mem_encode.mp hc
  obtain ⟨f, hf, rfl⟩ := List.mem_map.mp hfield
  obtain ⟨hkey, hval⟩ := hvalues f hf
  rcases hc with hc | rfl | hc | rfl
  · exact (hkey c hc).1
  · decide
  · exact (hval c hc).1
  · decide

end Forge
