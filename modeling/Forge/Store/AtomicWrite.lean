import Forge.Lib.CrashFs
import Forge.Lib.RelyGuarantee
import Forge.Controller.Results

/-!
# The durable writers, call by call

Models of `write_all`, `atomic_write_file`, `publish_file` and `save_meta`
(store.cpp:37-56, 531-610), of `replace_at` (os/linux/platform.cpp:277-285), of
the copying branch of `worker_entry` (worker.cpp:674-698) and of the files that
`finalize` writes (controller.cpp:384-415), as processes that make one system
call at a time. A call interrupted by a signal is made again, so only its other
answers appear; `replace_at` is one `rename`, since its second attempt is made
only where the first call does not exist.
-/

namespace Forge

open CrashFs RelyGuarantee Process

/-! ## Names and files -/

/-- The names in the workspace: `jobs/<id>`, a file of a job, and the temporary
    name that a process writes the file under. -/
inductive EntryName where
  | job (id : ℕ)
  | file (name : String)
  | tmp (name : String) (pid : ℕ)
  deriving DecidableEq

/-- The name as a text (store.cpp:164, 556, worker.cpp:680). -/
def EntryName.text : EntryName → String
  | job id => toString id
  | file name => name
  | tmp name pid => name ++ ".tmp." ++ toString pid

/-- What a file is to hold. An output that has not `ended` is a copy whose input
    could not be read to its end; it is not published. -/
inductive Payload where
  | record (m : Meta)
  | output (id : ℕ) (body : Bytes) (ended : Bool)

namespace Payload

/-- The job in whose directory the file lies. -/
def job : Payload → ℕ
  | record m => m.id
  | output id _ _ => id

def name : Payload → String
  | record _ => "meta"
  | output _ _ _ => "output"

def bytes : Payload → Bytes
  | record m => textBytes (metaToText m)
  | output _ body _ => body

/-- The payload may be published. -/
def Ended : Payload → Prop
  | record _ => True
  | output _ _ ended => ended = true

end Payload

/-- Who writes a file, in which call, and what it is to hold. -/
structure FileTag where
  pid : ℕ
  call : ℕ
  payload : Payload

abbrev Disk := Fs EntryName UInt8 FileTag

/-- A process of the program. -/
abbrev Program (A : Type) := Process (Call EntryName UInt8 FileTag) Reply A

/-- The inode of the directory `jobs`. -/
def jobsDir : ℕ := 0

/-- `errno_string()` after a call that returned -1. -/
def errnoString : Reply → String
  | .fail errno => errno
  | _ => ""

/-! ## Writing a file -/

/-- `write_all` (store.cpp:37-56). -/
def writeAll (fd : ℕ) (data : Bytes) : Program (Except String Unit) :=
  if _h : data = [] then ret (.ok ())
  else
    call (.write fd data) fun
      | .wrote w =>
        if _hw : w = 0 then ret (.error "Input/output error (errno 5)")
        else writeAll fd (data.drop w)
      | r => ret (.error (errnoString r))
termination_by data.length
decreasing_by
  have := List.length_pos_iff.mpr _h
  rw [List.length_drop]
  omega

/-- Removing a temporary file before returning an error. -/
def abandon (dirfd : ℕ) (tmp : EntryName) (err : String) : Program (Except String Unit) :=
  call (.unlink dirfd tmp) fun _ => ret (.error err)

/-- `atomic_write_file(path, data, err)` (store.cpp:531-584) for the file that
    the tag describes. -/
def atomicWriteFile (root : String) (t : FileTag) : Program (Except String Unit) :=
  let dir := jobDirectory root t.payload.job
  let tmp := EntryName.tmp t.payload.name t.pid
  call (.openDir jobsDir (.job t.payload.job)) fun
  | .inode dirfd =>
    call (.create dirfd tmp false t) fun
    | .inode fd =>
      (writeAll fd t.payload.bytes).bind fun
      | .error e => abandon dirfd tmp ("write " ++ tmp.text ++ ": " ++ e)
      | .ok () =>
        call (.fsync fd) fun
        | .done =>
          call (.rename dirfd tmp (.file t.payload.name)) fun
          | .done =>
            call (.fsyncDir dirfd) fun
            | .done => ret (.ok ())
            | r => ret (.error ("fsync directory " ++ dir ++ ": " ++ errnoString r))
          | r => abandon dirfd tmp ("renameat2 " ++ t.payload.name ++ ": " ++ errnoString r)
        | r => abandon dirfd tmp ("write " ++ tmp.text ++ ": " ++ errnoString r)
    | r => ret (.error ("open " ++ tmp.text ++ ": " ++ errnoString r))
  | r => ret (.error ("open directory " ++ dir ++ ": " ++ errnoString r))

/-- `save_meta` (store.cpp:603-610). -/
def saveMetaFile (root : String) (pid callNo : ℕ) (m : Meta) : Program (Except String Unit) :=
  call (.mkdir jobsDir (.job m.id)) fun r =>
    if r = .done ∨ r = .fail eexist then atomicWriteFile root ⟨pid, callNo, .record m⟩
    else ret (.error ("mkdir " ++ jobDirectory root m.id ++ ": " ++ errnoString r))

/-- `publish_file` (store.cpp:586-601). -/
def publishFile (dirfd fd : ℕ) (t : FileTag) : Program (Except String Unit) :=
  let tmp := EntryName.tmp t.payload.name t.pid
  call (.fsync fd) fun
  | .done =>
    call (.rename dirfd tmp (.file t.payload.name)) fun
    | .done =>
      call (.fsyncDir dirfd) fun
      | .done => ret (.ok ())
      | r => ret (.error ("fsync job directory: " ++ errnoString r))
    | r => ret (.error ("renameat2 " ++ t.payload.name ++ ": " ++ errnoString r))
  | r => ret (.error ("fsync " ++ tmp.text ++ ": " ++ errnoString r))

/-- `copy_sink` on one piece after the other (worker.cpp:410-418). -/
def copyPieces (fd : ℕ) : List Bytes → Program (Except String Unit)
  | [] => ret (.ok ())
  | piece :: pieces =>
    (writeAll fd piece).bind fun
    | .error e => ret (.error ("write output: " ++ e))
    | .ok () => copyPieces fd pieces

/-- The copying branch of `worker_entry` (worker.cpp:674-698), when `feed_range`
    hands out these pieces and then ends, with an error or without. -/
def copyOutput (pid callNo id : ℕ) (pieces : List Bytes) (feedErr : Option String) :
    Program (Except String Unit) :=
  let t : FileTag := ⟨pid, callNo, .output id pieces.flatten feedErr.isNone⟩
  let tmp := EntryName.tmp t.payload.name pid
  call (.openDir jobsDir (.job id)) fun
  | .inode dirfd =>
    call (.create dirfd tmp true t) fun
    | .inode fd =>
      (copyPieces fd pieces).bind fun
      | .error e => abandon dirfd tmp e
      | .ok () =>
        match feedErr with
        | some e => abandon dirfd tmp e
        | none =>
          (publishFile dirfd fd t).bind fun
          | .error e => abandon dirfd tmp e
          | .ok () => ret (.ok ())
    | r => ret (.error ("open output temp: " ++ errnoString r))
  | r => ret (.error ("open job dir: " ++ errnoString r))

/-- What `finalize` writes (controller.cpp:384-415): the result of
    `results_ok`, then the record. The error of the last `save_meta` is dropped. -/
def finalizeFiles (root : String) (pid callNo id : ℕ) (stopReason : String) (m : Meta)
    (result : Except String String) : Program (Except String Unit) :=
  let (m, state) := settle stopReason m result
  match result with
  | .error _ => saveMetaFile root pid callNo (m.setState state)
  | .ok body =>
    if body = "" then saveMetaFile root pid callNo (m.setState state)
    else
      let m := m.setState "persisting"
      (saveMetaFile root pid callNo m).bind fun _ =>
        (atomicWriteFile root ⟨pid, callNo, .output id (textBytes body) true⟩).bind fun
        | .ok () => saveMetaFile root pid callNo (m.setState state)
        | .error err => saveMetaFile root pid callNo ((m.setError err).setState "failed")

end Forge
