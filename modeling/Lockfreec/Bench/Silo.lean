import Lockfreec.Bench.Locking
import Lockfreec.Lib.BubbleSort
import Lockfreec.Lib.Interleaving
import Lockfreec.Lib.VersionGraph
import Mathlib.Algebra.Group.Nat.Defs

/-!
# Silo

The model of `txn_man::validate_silo` and `Row_silo` with `ATOMIC_WORD`, under
`SERIALIZABLE`, for workers that run one transaction after the other.  Every
load, store and compare-and-swap of a `_tid_word` is one step, and so is every
copy of the contents of a row.  A transaction accesses a row at most once.

A row also carries the number of copies that were made into it, its version.
The source has no such number; only the events of the history mention it.
-/

namespace Lockfreec.Bench

open Function Lib.BubbleSort Lib.Interleaving Lib.VersionGraph

section

variable {Row Data : Type}

/-! ## What Silo and TicToc share -/

/-- A row in the access list, with the timestamps that `get_row` has left in
it and with the copy that the transaction works on. -/
structure Copied (Row Stamp Data : Type) where
  row : Row
  type : AccessType
  stamp : Stamp
  version : Nat
  data : Data

/-- `_validation_no_wait` and `_pre_abort`. -/
structure ValidationMode where
  noWait : Bool
  preAbort : Bool

/-- The bubble sort of the validation. -/
def sortByKey {Stamp : Type} (primaryKey : Row → Nat)
    (accesses : List (Copied Row Stamp Data)) :
    List (Copied Row Stamp Data) :=
  bubbleSort
    (fun left right => decide (primaryKey left.row > primaryKey right.row))
    accesses

/-- `write_set`, after the sort. -/
def writeSet {Stamp : Type} (primaryKey : Row → Nat)
    (accesses : List (Copied Row Stamp Data)) :
    List (Copied Row Stamp Data) :=
  sortByKey primaryKey (accesses.filter fun access => access.type = .wr)

/-- `read_set`. -/
def readSet {Stamp : Type} (accesses : List (Copied Row Stamp Data)) :
    List (Copied Row Stamp Data) :=
  accesses.filter fun access => access.type ≠ .wr

/-- A transaction: its worker and its number there. -/
abbrev WorkerTxn (Tid : Type) := Tid × Nat

/-- What a transaction does to the rows. -/
abbrev ValidationEvent (Tid Row : Type) := Event (WorkerTxn Tid) Row

/-- What follows when the locks are released. -/
inductive ValidationExit (Access : Type) where
  /-- Not all locks were free; start over. -/
  | retry
  | abort
  /-- The row is written; these are left to write. -/
  | commit (todo : List Access)

/-- What the program text leaves open. -/
inductive ValidationAction (Row Data : Type) where
  | begin
  | getRow (row : Row) (type : AccessType)
  | modify (rid : Nat) (data : Data)
  /-- `finish(Abort)` -/
  | giveUp
  /-- `finish(RCOK)` -/
  | validate
  | inside

/-! ## Rows -/

/-- `_tid_word`: `LOCK_BIT` and the other bits. -/
structure TidWord where
  locked : Bool
  tid : Nat
deriving DecidableEq

structure RowSilo (Data : Type) where
  tidWord : TidWord
  row : Data
  version : Nat

/-! ## Workers -/

abbrev SiloAccess (Row Data : Type) := Copied Row Nat Data

/-- Where a worker is. -/
inductive SiloPc (Row Data : Type) where
  | idle
  | running
  -- Row_silo::access
  | accessLoad (row : Row) (type : AccessType)
  | accessCopy (row : Row) (type : AccessType) (v : TidWord)
  | accessCheck (row : Row) (type : AccessType) (v : TidWord) (data : Data)
      (version : Nat)
  -- validate_silo
  | preWrite (todo : List (SiloAccess Row Data))
  | preRead (todo : List (SiloAccess Row Data))
  /-- In `lock` or `try_lock`, before the word is loaded. -/
  | lockLoad (held todo : List (SiloAccess Row Data))
  | lockCas (held : List (SiloAccess Row Data))
      (access : SiloAccess Row Data) (todo : List (SiloAccess Row Data))
      (v : TidWord)
  | assertLock (held : List (SiloAccess Row Data))
      (access : SiloAccess Row Data) (todo : List (SiloAccess Row Data))
  /-- Before `get_tid`, with the lock. -/
  | lockTid (held : List (SiloAccess Row Data))
      (access : SiloAccess Row Data) (todo : List (SiloAccess Row Data))
  | validateRead (todo : List (SiloAccess Row Data)) (maxTid : Nat)
  | validateWrite (todo : List (SiloAccess Row Data)) (maxTid : Nat)
  -- Row_silo::write
  | writeCopy (todo : List (SiloAccess Row Data))
  | writeLoad (access : SiloAccess Row Data)
      (todo : List (SiloAccess Row Data))
  | writeStore (access : SiloAccess Row Data)
      (todo : List (SiloAccess Row Data))
  -- Row_silo::release
  | releaseAssert (exit : ValidationExit (SiloAccess Row Data))
      (todo : List (SiloAccess Row Data))
  | releaseLoad (exit : ValidationExit (SiloAccess Row Data))
      (access : SiloAccess Row Data) (todo : List (SiloAccess Row Data))
  | releaseStore (exit : ValidationExit (SiloAccess Row Data))
      (access : SiloAccess Row Data) (todo : List (SiloAccess Row Data)) (v : TidWord)
  /-- An assertion has failed. -/
  | crashed

/-- A worker with its `_cur_tid`; `txnCnt` counts its transactions. -/
structure SiloWorker (Row Data : Type) where
  pc : SiloPc Row Data
  curTid : Nat
  txnCnt : Nat
  accesses : List (SiloAccess Row Data)

variable {Tid : Type}

abbrev SiloOutcome (Tid Row Data : Type) :=
  Outcome (Row → RowSilo Data) (SiloWorker Row Data) (ValidationEvent Tid Row)

/-- `max_tid` with one more `tid`. -/
def raised (maxTid tid : Nat) : Nat :=
  if tid > maxTid then tid else maxTid

/-- The next `_cur_tid`. -/
def nextTid (maxTid curTid : Nat) : Nat :=
  if maxTid > curTid then maxTid + 1 else curTid + 1

/-- The validation before its locks, at first or after a retry. -/
def siloBeforeLocks (mode : ValidationMode) (primaryKey : Row → Nat)
    (accesses : List (SiloAccess Row Data)) : SiloPc Row Data :=
  if mode.preAbort then .preWrite (writeSet primaryKey accesses)
  else .lockLoad [] (writeSet primaryKey accesses)

section

variable [DecidableEq Row]

def setTidWord (db : Row → RowSilo Data) (row : Row) (word : TidWord) :
    Row → RowSilo Data :=
  update db row { db row with tidWord := word }

/-- `_row->copy(data)`. -/
def copyRow (db : Row → RowSilo Data) (row : Row) (data : Data) :
    Row → RowSilo Data :=
  update db row
    { db row with row := data, version := (db row).version + 1 }

/-- The steps of `Row_silo::access`. -/
def siloAccess (id : WorkerTxn Tid) (db : Row → RowSilo Data)
    (worker : SiloWorker Row Data) : Option (SiloOutcome Tid Row Data) :=
  match worker.pc with
  | .accessLoad row type =>
    let v := (db row).tidWord
    some ⟨db, { worker with
      pc := if v.locked then .accessLoad row type
        else .accessCopy row type v }, []⟩
  | .accessCopy row type v =>
    some ⟨db, { worker with
      pc := .accessCheck row type v (db row).row (db row).version }, []⟩
  | .accessCheck row type v data version =>
    if (db row).tidWord = v then
      some ⟨db, { worker with
          pc := .running
          accesses := worker.accesses ++ [⟨row, type, v.tid, version, data⟩] },
        [.read id row version]⟩
    else some ⟨db, { worker with pc := .accessLoad row type }, []⟩
  | _ => none

/-- The steps of `validate_silo` up to the last lock. -/
def siloLock (mode : ValidationMode) (primaryKey : Row → Nat)
    (id : WorkerTxn Tid) (db : Row → RowSilo Data)
    (worker : SiloWorker Row Data) : Option (SiloOutcome Tid Row Data) :=
  match worker.pc with
  | .preWrite [] =>
    some ⟨db, { worker with pc := .preRead (readSet worker.accesses) }, []⟩
  | .preWrite (access :: todo) =>
    some ⟨db, { worker with
      pc := if (db access.row).tidWord.tid ≠ access.stamp then
          .releaseAssert .abort []
        else .preWrite todo }, []⟩
  | .preRead [] =>
    some ⟨db, { worker with
      pc := .lockLoad [] (writeSet primaryKey worker.accesses) }, []⟩
  | .preRead (access :: todo) =>
    some ⟨db, { worker with
      pc := if (db access.row).tidWord.tid ≠ access.stamp then
          .releaseAssert .abort []
        else .preRead todo }, []⟩
  | .lockLoad _ [] =>
    some ⟨db, { worker with
      pc := .validateRead (readSet worker.accesses) 0 }, [.lockedAll id]⟩
  | .lockLoad held (access :: todo) =>
    let v := (db access.row).tidWord
    some ⟨db, { worker with
      pc := if v.locked then
          if mode.noWait then .releaseAssert .retry held
          else .lockLoad held (access :: todo)
        else .lockCas held access todo v }, []⟩
  | .lockCas held access todo v =>
    if (db access.row).tidWord = v then
      some ⟨setTidWord db access.row { v with locked := true },
        { worker with
          pc := if mode.noWait then .assertLock held access todo
            else .lockTid held access todo },
        [.locked id access.row]⟩
    else
      some ⟨db, { worker with
        pc := if mode.noWait then .releaseAssert .retry held
          else .lockLoad held (access :: todo) }, []⟩
  | .assertLock held access todo =>
    some ⟨db, { worker with
      pc := if (db access.row).tidWord.locked then
          .lockTid held access todo
        else .crashed }, []⟩
  | .lockTid held access todo =>
    some ⟨db, { worker with
      pc := if (db access.row).tidWord.tid ≠ access.stamp then
          .releaseAssert .abort (held ++ [access])
        else .lockLoad (held ++ [access]) todo }, []⟩
  | _ => none

/-- The validation of the read set and of the write set. -/
def siloValidate (primaryKey : Row → Nat) (id : WorkerTxn Tid)
    (db : Row → RowSilo Data) (worker : SiloWorker Row Data) :
    Option (SiloOutcome Tid Row Data) :=
  match worker.pc with
  | .validateRead [] maxTid =>
    some ⟨db, { worker with
      pc := .validateWrite (writeSet primaryKey worker.accesses) maxTid },
      []⟩
  | .validateRead (access :: todo) maxTid =>
    if (db access.row).tidWord.locked ∨
        access.stamp ≠ (db access.row).tidWord.tid then
      some ⟨db, { worker with
        pc := .releaseAssert .abort (writeSet primaryKey worker.accesses) },
        []⟩
    else
      some ⟨db, { worker with
          pc := .validateRead todo (raised maxTid access.stamp) },
        [.checked id access.row access.version]⟩
  | .validateWrite [] maxTid =>
    let curTid := nextTid maxTid worker.curTid
    some ⟨db, { worker with
        pc := .writeCopy (writeSet primaryKey worker.accesses)
        curTid := curTid },
      [.stamped id curTid]⟩
  | .validateWrite (access :: todo) maxTid =>
    if access.stamp ≠ (db access.row).tidWord.tid then
      some ⟨db, { worker with
        pc := .releaseAssert .abort (writeSet primaryKey worker.accesses) },
        []⟩
    else
      some ⟨db, { worker with
        pc := .validateWrite todo (raised maxTid access.stamp) }, []⟩
  | _ => none

/-- The steps of `Row_silo::write`, for one row after the other. -/
def siloWrite (id : WorkerTxn Tid) (db : Row → RowSilo Data)
    (worker : SiloWorker Row Data) : Option (SiloOutcome Tid Row Data) :=
  match worker.pc with
  | .writeCopy [] =>
    some ⟨db, { worker with pc := .idle, accesses := [] }, [.committed id]⟩
  | .writeCopy (access :: todo) =>
    some ⟨copyRow db access.row access.data,
      { worker with pc := .writeLoad access todo },
      [.wrote id access.row ((db access.row).version + 1)]⟩
  | .writeLoad access todo =>
    let v := (db access.row).tidWord
    some ⟨db, { worker with
      pc := if worker.curTid > v.tid ∧ v.locked then
          .writeStore access todo
        else .crashed }, []⟩
  | .writeStore access todo =>
    -- `tid | LOCK_BIT`
    some ⟨setTidWord db access.row ⟨true, worker.curTid % 2 ^ 63⟩,
      { worker with pc := .releaseAssert (.commit todo) [access] }, []⟩
  | _ => none

/-- The steps of `Row_silo::release`, for one row after the other. -/
def siloRelease (mode : ValidationMode) (primaryKey : Row → Nat)
    (id : WorkerTxn Tid) (db : Row → RowSilo Data)
    (worker : SiloWorker Row Data) : Option (SiloOutcome Tid Row Data) :=
  match worker.pc with
  | .releaseAssert .retry [] =>
    some ⟨db, { worker with
      pc := siloBeforeLocks mode primaryKey worker.accesses }, []⟩
  | .releaseAssert .abort [] =>
    some ⟨db, { worker with pc := .idle, accesses := [] }, [.aborted id]⟩
  | .releaseAssert (.commit todo) [] =>
    some ⟨db, { worker with pc := .writeCopy todo }, []⟩
  | .releaseAssert exit (access :: todo) =>
    some ⟨db, { worker with
      pc := if (db access.row).tidWord.locked then
          .releaseLoad exit access todo
        else .crashed }, []⟩
  | .releaseLoad exit access todo =>
    some ⟨db, { worker with
      pc := .releaseStore exit access todo (db access.row).tidWord }, []⟩
  | .releaseStore exit access todo v =>
    some ⟨setTidWord db access.row { v with locked := false },
      { worker with pc := .releaseAssert exit todo },
      [.unlocked id access.row]⟩
  | _ => none

/-- The steps that a transaction does not choose. -/
def siloInside (mode : ValidationMode) (primaryKey : Row → Nat)
    (id : WorkerTxn Tid) (db : Row → RowSilo Data)
    (worker : SiloWorker Row Data) : Option (SiloOutcome Tid Row Data) :=
  match worker.pc with
  | .accessLoad .. | .accessCopy .. | .accessCheck .. =>
    siloAccess id db worker
  | .preWrite .. | .preRead .. | .lockLoad .. | .lockCas .. | .assertLock ..
  | .lockTid .. => siloLock mode primaryKey id db worker
  | .validateRead .. | .validateWrite .. =>
    siloValidate primaryKey id db worker
  | .writeCopy .. | .writeLoad .. | .writeStore .. => siloWrite id db worker
  | .releaseAssert .. | .releaseLoad .. | .releaseStore .. =>
    siloRelease mode primaryKey id db worker
  | .idle | .running | .crashed => none

/-- Workers that run one transaction after the other. -/
def siloMachine (mode : ValidationMode) (primaryKey : Row → Nat) :
    Machine Tid (ValidationAction Row Data) (Row → RowSilo Data)
      (SiloWorker Row Data) (ValidationEvent Tid Row) where
  step tid action db worker :=
    let id := (tid, worker.txnCnt)
    match action, worker.pc with
    | .begin, .idle =>
      some ⟨db, { worker with
        pc := .running, txnCnt := worker.txnCnt + 1 }, []⟩
    | .getRow row type, .running =>
      if row ∈ worker.accesses.map Copied.row then none
      else some ⟨db, { worker with pc := .accessLoad row type }, []⟩
    | .modify rid data, .running =>
      some ⟨db, { worker with
        accesses := worker.accesses.modify rid
          fun access => { access with data := data } }, []⟩
    | .giveUp, .running =>
      some ⟨db, { worker with pc := .idle, accesses := [] }, [.aborted id]⟩
    | .validate, .running =>
      some ⟨db, { worker with
        pc := siloBeforeLocks mode primaryKey worker.accesses }, []⟩
    | .inside, _ => siloInside mode primaryKey id db worker
    | _, _ => none

end

/-- Rows that nobody has locked or written. -/
def siloStart (data : Row → Data) :
    Config Tid (Row → RowSilo Data) (SiloWorker Row Data) where
  shared := fun row => ⟨⟨false, 0⟩, data row, 0⟩
  threads := fun _ => ⟨.idle, 0, 0, []⟩

end

end Lockfreec.Bench
