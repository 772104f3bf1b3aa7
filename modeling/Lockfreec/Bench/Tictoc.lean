import Lockfreec.Bench.Silo

/-!
# TicToc

The model of `txn_man::validate_tictoc` and `Row_tictoc` with `ATOMIC_WORD`
and `WR_VALIDATION_SEPARATE`, without `TICTOC_MV` and `WRITE_PERMISSION_LOCK`,
under `SERIALIZABLE`.  Workers run one transaction after the other, and every
load, store and compare-and-swap of a `_ts_word` is one step, as is every copy
of the contents of a row.

The timestamps of the source are below `2 ^ 48`, so that the parts of a
`_ts_word` do not run into each other.
-/

namespace Lockfreec.Bench

open Function Lib.BubbleSort Lib.Interleaving Lib.VersionGraph

section

variable {Tid Row Data : Type}

/-! ## Rows -/

/-- `_ts_word`: `LOCK_BIT`, the distance from `wts` to `rts`, and `wts`. -/
structure TsWord where
  locked : Bool
  rts : Nat
  wts : Nat
deriving DecidableEq

/-- `get_rts`. -/
def TsWord.lease (v : TsWord) : Nat :=
  v.rts + v.wts

/-- `RTS_LEN`. -/
def rtsLen : Nat :=
  15

structure RowTictoc (Data : Type) where
  tsWord : TsWord
  row : Data
  version : Nat

/-- `last_wts` and `last_rts`. -/
structure Lease where
  wts : Nat
  rts : Nat
deriving DecidableEq

abbrev TictocAccess (Row Data : Type) := Copied Row Lease Data

/-- What `try_renew` does when it has loaded the word. -/
inductive Renewal where
  | done (success : Bool)
  /-- Swap the word for `v2`. -/
  | swap (v2 : TsWord) (rebase : Bool)

/-- `try_renew` up to its loop. -/
def startRenew (wts rts : Nat) (v : TsWord) : Renewal :=
  if v.wts = wts ∧ v.rts ≥ rts - wts then .done true
  else if v.locked then .done false
  else if wts ≠ v.wts then .done false
  else
    let deltaRts := rts - wts
    if deltaRts < v.rts then .done true
    else if deltaRts ≥ 2 ^ rtsLen then
      let low := deltaRts % 2 ^ rtsLen
      .swap ⟨false, low, wts + (deltaRts - low)⟩ true
    else .swap ⟨false, deltaRts, wts⟩ false

/-! ## Workers -/

/-- Where a worker is. -/
inductive TictocPc (Row Data : Type) where
  | idle
  | running
  -- Row_tictoc::access
  | accessLoad (row : Row) (type : AccessType)
  | accessCopy (row : Row) (type : AccessType) (v : TsWord)
  | accessCheck (row : Row) (type : AccessType) (v : TsWord) (data : Data)
      (version : Nat)
  -- validate_tictoc
  | preWrite (todo : List (TictocAccess Row Data))
  | preRead (todo : List (TictocAccess Row Data))
  /-- In `lock` or `try_lock`, before the word is loaded. -/
  | lockLoad (held todo : List (TictocAccess Row Data))
  | lockCas (held : List (TictocAccess Row Data))
      (access : TictocAccess Row Data) (todo : List (TictocAccess Row Data))
      (v : TsWord)
  /-- Before `get_wts`, with the lock. -/
  | lockWts (held : List (TictocAccess Row Data))
      (access : TictocAccess Row Data) (todo : List (TictocAccess Row Data))
  /-- Before the first and the second `get_rts` of a row. -/
  | raiseLoad (held todo : List (TictocAccess Row Data))
  | raiseStore (held : List (TictocAccess Row Data))
      (access : TictocAccess Row Data) (todo : List (TictocAccess Row Data))
  -- Row_tictoc::try_renew
  | renewLoad (todo : List (TictocAccess Row Data))
  | renewCas (access : TictocAccess Row Data)
      (todo : List (TictocAccess Row Data)) (v v2 : TsWord) (rebase : Bool)
  -- Row_tictoc::write_data
  | writeLoad (todo : List (TictocAccess Row Data))
  | writeStore (access : TictocAccess Row Data)
      (todo : List (TictocAccess Row Data)) (v : TsWord)
  | writeCopy (access : TictocAccess Row Data)
      (todo : List (TictocAccess Row Data))
  -- Row_tictoc::release
  | releaseLoad (exit : ValidationExit (TictocAccess Row Data))
      (todo : List (TictocAccess Row Data))
  | releaseStore (exit : ValidationExit (TictocAccess Row Data))
      (access : TictocAccess Row Data) (todo : List (TictocAccess Row Data))
      (v : TsWord)
  /-- An assertion has failed. -/
  | crashed

/-- A worker with its `commit_wts`; `txnCnt` counts its transactions. -/
structure TictocWorker (Row Data : Type) where
  pc : TictocPc Row Data
  commitWts : Nat
  txnCnt : Nat
  accesses : List (TictocAccess Row Data)

abbrev TictocOutcome (Tid Row Data : Type) :=
  Outcome (Row → RowTictoc Data) (TictocWorker Row Data)
    (ValidationEvent Tid Row)

/-- The loop that finds `commit_rts` and `commit_wts`. -/
def commitTimes (accesses : List (TictocAccess Row Data)) : Nat × Nat :=
  accesses.foldl (fun times access =>
      if access.type = .rd ∧ access.stamp.wts > times.1 then
        (access.stamp.wts, times.2)
      else if access.type = .wr ∧ access.stamp.rts + 1 > times.2 then
        (times.1, access.stamp.rts + 1)
      else times)
    (0, 0)

/-- `commit_wts`, made equal to `commit_rts`. -/
def firstCommitWts (accesses : List (TictocAccess Row Data)) : Nat :=
  let times := commitTimes accesses
  if times.1 > times.2 then times.1 else times.2

/-- The validation before its locks, at first or after a retry. -/
def tictocBeforeLocks (mode : ValidationMode) (primaryKey : Row → Nat)
    (accesses : List (TictocAccess Row Data)) : TictocPc Row Data :=
  if mode.preAbort then .preWrite (writeSet primaryKey accesses)
  else .lockLoad [] (writeSet primaryKey accesses)

section

variable [DecidableEq Row]

def setTsWord (db : Row → RowTictoc Data) (row : Row) (word : TsWord) :
    Row → RowTictoc Data :=
  update db row { db row with tsWord := word }

/-- `_row->copy(data)`. -/
def copyRowTictoc (db : Row → RowTictoc Data) (row : Row) (data : Data) :
    Row → RowTictoc Data :=
  update db row
    { db row with row := data, version := (db row).version + 1 }

/-- The steps of `Row_tictoc::access`. -/
def tictocAccess (id : WorkerTxn Tid) (db : Row → RowTictoc Data)
    (worker : TictocWorker Row Data) :
    Option (TictocOutcome Tid Row Data) :=
  match worker.pc with
  | .accessLoad row type =>
    let v := (db row).tsWord
    some ⟨db, { worker with
      pc := if v.locked then .accessLoad row type
        else .accessCopy row type v }, []⟩
  | .accessCopy row type v =>
    some ⟨db, { worker with
      pc := .accessCheck row type v (db row).row (db row).version }, []⟩
  | .accessCheck row type v data version =>
    let v2 := (db row).tsWord
    if v2.locked = v.locked ∧ v2.wts = v.wts then
      some ⟨db, { worker with
          pc := .running
          accesses := worker.accesses ++
            [⟨row, type, ⟨v.wts, v.lease⟩, version, data⟩] },
        [.read id row version]⟩
    else some ⟨db, { worker with pc := .accessLoad row type }, []⟩
  | _ => none

/-- The steps of `validate_tictoc` up to the last lock. -/
def tictocLock (mode : ValidationMode) (primaryKey : Row → Nat)
    (id : WorkerTxn Tid) (db : Row → RowTictoc Data)
    (worker : TictocWorker Row Data) :
    Option (TictocOutcome Tid Row Data) :=
  match worker.pc with
  | .preWrite [] =>
    some ⟨db, { worker with pc := .preRead (readSet worker.accesses) }, []⟩
  | .preWrite (access :: todo) =>
    some ⟨db, { worker with
      pc := if (db access.row).tsWord.wts ≠ access.stamp.wts then
          .releaseLoad .abort []
        else .preWrite todo }, []⟩
  | .preRead [] =>
    some ⟨db, { worker with
      pc := .lockLoad [] (writeSet primaryKey worker.accesses) }, []⟩
  | .preRead (access :: todo) =>
    let v := (db access.row).tsWord
    some ⟨db, { worker with
      pc := if worker.commitWts > v.lease ∧
            v.wts ≠ access.stamp.wts then .releaseLoad .abort []
        else .preRead todo }, []⟩
  | .lockLoad held [] =>
    some ⟨db, { worker with
      pc := .raiseLoad held (writeSet primaryKey worker.accesses) },
      [.lockedAll id]⟩
  | .lockLoad held (access :: todo) =>
    let v := (db access.row).tsWord
    some ⟨db, { worker with
      pc := if v.locked then
          if mode.noWait then .releaseLoad .retry held
          else .lockLoad held (access :: todo)
        else .lockCas held access todo v }, []⟩
  | .lockCas held access todo v =>
    if (db access.row).tsWord = v then
      some ⟨setTsWord db access.row { v with locked := true },
        { worker with pc := .lockWts held access todo },
        [.locked id access.row]⟩
    else
      some ⟨db, { worker with
        pc := if mode.noWait then .releaseLoad .retry held
          else .lockLoad held (access :: todo) }, []⟩
  | .lockWts held access todo =>
    some ⟨db, { worker with
      pc := if (db access.row).tsWord.wts ≠ access.stamp.wts then
          .releaseLoad .abort (held ++ [access])
        else .lockLoad (held ++ [access]) todo }, []⟩
  | _ => none

/-- `commit_wts` is raised above the leases of the write set. -/
def tictocRaise (primaryKey : Row → Nat) (id : WorkerTxn Tid)
    (db : Row → RowTictoc Data) (worker : TictocWorker Row Data) :
    Option (TictocOutcome Tid Row Data) :=
  match worker.pc with
  | .raiseLoad held [] =>
    -- assert (num_locks == wr_cnt)
    if held.length = (writeSet primaryKey worker.accesses).length then
      some ⟨db, { worker with pc := .renewLoad (readSet worker.accesses) },
        [.stamped id worker.commitWts]⟩
    else some ⟨db, { worker with pc := .crashed }, []⟩
  | .raiseLoad held (access :: todo) =>
    some ⟨db, { worker with
      pc := if (db access.row).tsWord.lease + 1 > worker.commitWts then
          .raiseStore held access todo
        else .raiseLoad held todo }, []⟩
  | .raiseStore held access todo =>
    some ⟨db, { worker with
      pc := .raiseLoad held todo
      commitWts := (db access.row).tsWord.lease + 1 }, []⟩
  | _ => none

/-- A row of the read set is valid. -/
def renewed (id : WorkerTxn Tid) (db : Row → RowTictoc Data)
    (worker : TictocWorker Row Data) (access : TictocAccess Row Data)
    (todo : List (TictocAccess Row Data)) : TictocOutcome Tid Row Data :=
  ⟨db, { worker with pc := .renewLoad todo }, [.checked id access.row access.version]⟩

/-- A row of the read set is not valid. -/
def notRenewed (primaryKey : Row → Nat) (db : Row → RowTictoc Data)
    (worker : TictocWorker Row Data) : TictocOutcome Tid Row Data :=
  ⟨db, { worker with
    pc := .releaseLoad .abort (writeSet primaryKey worker.accesses) }, []⟩

/-- The validation of the read set. -/
def tictocRenew (primaryKey : Row → Nat) (id : WorkerTxn Tid)
    (db : Row → RowTictoc Data) (worker : TictocWorker Row Data) :
    Option (TictocOutcome Tid Row Data) :=
  match worker.pc with
  | .renewLoad [] =>
    some ⟨db, { worker with
      pc := .writeLoad (writeSet primaryKey worker.accesses) }, []⟩
  | .renewLoad (access :: todo) =>
    if access.stamp.rts < worker.commitWts then
      let v := (db access.row).tsWord
      match startRenew access.stamp.wts worker.commitWts v with
      | .done true => some (renewed id db worker access todo)
      | .done false => some (notRenewed primaryKey db worker)
      | .swap v2 rebase =>
        some ⟨db, { worker with
          pc := .renewCas access todo v v2 rebase }, []⟩
    else some (renewed id db worker access todo)
  | .renewCas access todo v v2 rebase =>
    let preV := (db access.row).tsWord
    if preV = v then
      some (renewed id (setTsWord db access.row v2) worker access todo)
    else if rebase ∨ preV.locked ∨ v2.wts ≠ preV.wts then
      some (notRenewed primaryKey db worker)
    else if worker.commitWts < preV.rts then
      some (renewed id db worker access todo)
    else
      some ⟨db, { worker with
        pc := .renewCas access todo preV v2 rebase }, []⟩
  | _ => none

/-- The steps of `Row_tictoc::write_data`, for one row after the other. -/
def tictocWrite (id : WorkerTxn Tid) (db : Row → RowTictoc Data)
    (worker : TictocWorker Row Data) :
    Option (TictocOutcome Tid Row Data) :=
  match worker.pc with
  | .writeLoad [] =>
    some ⟨db, { worker with pc := .idle, accesses := [] }, [.committed id]⟩
  | .writeLoad (access :: todo) =>
    some ⟨db, { worker with
      pc := .writeStore access todo (db access.row).tsWord }, []⟩
  | .writeStore access todo v =>
    some ⟨setTsWord db access.row ⟨v.locked, 0, worker.commitWts⟩,
      { worker with pc := .writeCopy access todo }, []⟩
  | .writeCopy access todo =>
    some ⟨copyRowTictoc db access.row access.data,
      { worker with pc := .releaseLoad (.commit todo) [access] },
      [.wrote id access.row ((db access.row).version + 1)]⟩
  | _ => none

/-- The steps of `Row_tictoc::release`, for one row after the other. -/
def tictocRelease (mode : ValidationMode) (primaryKey : Row → Nat)
    (id : WorkerTxn Tid) (db : Row → RowTictoc Data)
    (worker : TictocWorker Row Data) :
    Option (TictocOutcome Tid Row Data) :=
  match worker.pc with
  | .releaseLoad .retry [] =>
    some ⟨db, { worker with
      pc := tictocBeforeLocks mode primaryKey worker.accesses }, []⟩
  | .releaseLoad .abort [] =>
    some ⟨db, { worker with pc := .idle, accesses := [] }, [.aborted id]⟩
  | .releaseLoad (.commit todo) [] =>
    some ⟨db, { worker with pc := .writeLoad todo }, []⟩
  | .releaseLoad exit (access :: todo) =>
    some ⟨db, { worker with
      pc := .releaseStore exit access todo (db access.row).tsWord }, []⟩
  | .releaseStore exit access todo v =>
    some ⟨setTsWord db access.row { v with locked := false },
      { worker with pc := .releaseLoad exit todo },
      [.unlocked id access.row]⟩
  | _ => none

/-- The steps that a transaction does not choose. -/
def tictocInside (mode : ValidationMode) (primaryKey : Row → Nat)
    (id : WorkerTxn Tid) (db : Row → RowTictoc Data)
    (worker : TictocWorker Row Data) :
    Option (TictocOutcome Tid Row Data) :=
  match worker.pc with
  | .accessLoad .. | .accessCopy .. | .accessCheck .. =>
    tictocAccess id db worker
  | .preWrite .. | .preRead .. | .lockLoad .. | .lockCas .. | .lockWts .. =>
    tictocLock mode primaryKey id db worker
  | .raiseLoad .. | .raiseStore .. => tictocRaise primaryKey id db worker
  | .renewLoad .. | .renewCas .. => tictocRenew primaryKey id db worker
  | .writeLoad .. | .writeStore .. | .writeCopy .. =>
    tictocWrite id db worker
  | .releaseLoad .. | .releaseStore .. =>
    tictocRelease mode primaryKey id db worker
  | .idle | .running | .crashed => none

/-- Workers that run one transaction after the other. -/
def tictocMachine (mode : ValidationMode) (primaryKey : Row → Nat) :
    Machine Tid (ValidationAction Row Data) (Row → RowTictoc Data)
      (TictocWorker Row Data) (ValidationEvent Tid Row) where
  step tid action db worker :=
    let id := (tid, worker.txnCnt)
    match action, worker.pc with
    | .begin, .idle =>
      some ⟨db, { worker with
        pc := .running, txnCnt := worker.txnCnt + 1 }, []⟩
    | .getRow row type, .running =>
      if row ∈ worker.accesses.map Copied.row then none
      else some ⟨db, { worker with pc := .accessLoad row type }, []⟩
    | .modify rid data, .running =>
      some ⟨db, { worker with
        accesses := worker.accesses.modify rid
          fun access => { access with data := data } }, []⟩
    | .giveUp, .running =>
      some ⟨db, { worker with pc := .idle, accesses := [] }, [.aborted id]⟩
    | .validate, .running =>
      some ⟨db, { worker with
        pc := tictocBeforeLocks mode primaryKey worker.accesses
        commitWts := firstCommitWts worker.accesses }, []⟩
    | .inside, _ => tictocInside mode primaryKey id db worker
    | _, _ => none

end

/-- Rows that nobody has locked or written. -/
def tictocStart (data : Row → Data) :
    Config Tid (Row → RowTictoc Data) (TictocWorker Row Data) where
  shared := fun row => ⟨⟨false, 0, 0⟩, data row, 0⟩
  threads := fun _ => ⟨.idle, 0, 0, []⟩

end

end Lockfreec.Bench
