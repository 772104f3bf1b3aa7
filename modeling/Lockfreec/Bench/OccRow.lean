import Lockfreec.Bench.Locking
import Lockfreec.Lib.BubbleSort
import Lockfreec.Lib.SerialLog

/-!
# Optimistic concurrency control with validation of every row

Every worker draws the `start_ts` of a transaction and works on copies of the
rows.  `OptCC::per_row_validate` sorts the accesses by table name and primary
key, latches and validates their rows in this order, draws `end_ts` from the
same counter, writes the rows back in reverse order and releases the latches.
It stops at the first row that was written since the start.

Taking a latch, validating, writing and releasing a row are one step each, and
so is `Row_occ::access`, which waits for the latch.  A transaction accesses a
row at most once.
-/

namespace Lockfreec.Bench

open Lib.BubbleSort Lib.Interleaving Lib.SerialLog

section

variable {Tid Row Name Data : Type}

/-! ## Rows -/

/-- `Row_occ`, with the owner of the latch. -/
structure RowOcc (Tid Data : Type) where
  latch : Option Tid
  wts : Nat
  row : Data

def RowOcc.validate (ts : Nat) (row : RowOcc Tid Data) : Bool :=
  !decide (ts < row.wts)

/-- Store the new contents; `none` if the assertion fails. -/
def RowOcc.write (data : Data) (ts : Nat) (row : RowOcc Tid Data) :
    Option (RowOcc Tid Data) :=
  if row.wts < ts then some { row with row := data, wts := ts } else none

/-- The rows and the counter of the manager. -/
structure OccRowDb (Tid Row Data : Type) where
  rows : Row → RowOcc Tid Data
  timestamp : Nat

/-- Where a row is stored: `get_table_name` and `get_primary_key`. -/
structure RowNames (Row Name : Type) where
  tableName : Row → Name
  primaryKey : Row → Nat

/-! ## Workers -/

/-- A row in the access list: what was read, and the copy that the
transaction works on. -/
structure OccCopy (Row Data : Type) where
  row : Row
  type : AccessType
  read : Data
  data : Data

/-- Whether the sort swaps two neighbours. -/
def RowNames.swap [LinearOrder Name] (names : RowNames Row Name)
    (left right : OccCopy Row Data) : Bool :=
  decide (names.tableName right.row < names.tableName left.row) ||
    (decide (names.tableName left.row = names.tableName right.row) &&
      decide (names.primaryKey right.row < names.primaryKey left.row))

/-- Where a worker is. -/
inductive OccRowPc (Row Data : Type) where
  | idle
  | running
  /-- Before the next latch is taken. -/
  | latching (held todo : List (OccCopy Row Data))
  /-- The latch is taken, before the row is validated. -/
  | validating (held : List (OccCopy Row Data)) (access : OccCopy Row Data)
      (todo : List (OccCopy Row Data))
  /-- All rows are latched and valid. -/
  | drawing
  /-- In `cleanup(RCOK)`. -/
  | writing (todo : List (OccCopy Row Data))
  | releasing (rc : Rc) (todo : List (OccCopy Row Data))
  | crashed

structure OccRowWorker (Row Data : Type) where
  pc : OccRowPc Row Data
  txnCnt : Nat
  startTs : Nat
  endTs : Nat
  accesses : List (OccCopy Row Data)

/-- What the program text leaves open. -/
inductive OccRowAction (Row Data : Type) where
  | begin
  | getRow (row : Row) (type : AccessType)
  | modify (rid : Nat) (data : Data)
  /-- `finish(Abort)` -/
  | giveUp
  /-- `finish(RCOK)`, with the sort. -/
  | validate
  | inside

/-- A transaction at the time it is given its `end_ts`. -/
def OccRowWorker.logged (tid : Tid) (endTs : Nat)
    (worker : OccRowWorker Row Data) : Logged (Tid × Nat) Row Data where
  id := (tid, worker.txnCnt)
  stamp := endTs
  reads := worker.accesses.map fun access => (access.row, access.read)
  writes := (worker.accesses.filter fun access => access.type = .wr).map
    fun access => (access.row, access.data)

section

variable [DecidableEq Row]

def OccRowDb.setRow (db : OccRowDb Tid Row Data) (row : Row)
    (contents : RowOcc Tid Data) : OccRowDb Tid Row Data :=
  { db with rows := Function.update db.rows row contents }

/-- The steps of `per_row_validate` behind the sort. -/
def occRowInside (tid : Tid) (db : OccRowDb Tid Row Data)
    (worker : OccRowWorker Row Data) :
    Option (Outcome (OccRowDb Tid Row Data) (OccRowWorker Row Data)
      (Logged (Tid × Nat) Row Data)) :=
  match worker.pc with
  | .latching _ [] => some ⟨db, { worker with pc := .drawing }, []⟩
  | .latching held (access :: todo) =>
    match (db.rows access.row).latch with
    | some _ => none
    | none =>
      some ⟨db.setRow access.row
          { db.rows access.row with latch := some tid },
        { worker with pc := .validating held access todo }, []⟩
  | .validating held access todo =>
    if (db.rows access.row).validate worker.startTs then
      some ⟨db, { worker with pc := .latching (held ++ [access]) todo }, []⟩
    else
      some ⟨db,
        { worker with pc := .releasing .abort (held ++ [access]) }, []⟩
  | .drawing =>
    some ⟨{ db with timestamp := db.timestamp + 1 },
      { worker with
        pc := .writing worker.accesses.reverse
        endTs := db.timestamp },
      [worker.logged tid db.timestamp]⟩
  | .writing [] =>
    some ⟨db, { worker with pc := .releasing .rcok worker.accesses }, []⟩
  | .writing (access :: todo) =>
    if access.type = .wr then
      match (db.rows access.row).write access.data worker.endTs with
      | none => some ⟨db, { worker with pc := .crashed }, []⟩
      | some written =>
        some ⟨db.setRow access.row written,
          { worker with pc := .writing todo }, []⟩
    else some ⟨db, { worker with pc := .writing todo }, []⟩
  | .releasing _ [] => some ⟨db, { worker with pc := .idle }, []⟩
  | .releasing rc (access :: todo) =>
    some ⟨db.setRow access.row { db.rows access.row with latch := none },
      { worker with pc := .releasing rc todo }, []⟩
  | _ => none

/-- `Row_occ::access`, once the latch is free. -/
def occRowAccess (db : OccRowDb Tid Row Data) (row : Row) (type : AccessType)
    (worker : OccRowWorker Row Data) : OccRowWorker Row Data :=
  if worker.startTs < (db.rows row).wts then { worker with pc := .idle }
  else
    { worker with
      accesses := worker.accesses ++
        [⟨row, type, (db.rows row).row, (db.rows row).row⟩] }

/-- Workers that run one transaction after the other; the events are the
transactions that are given an `end_ts`. -/
def occRowMachine [LinearOrder Name] (names : RowNames Row Name) :
    Machine Tid (OccRowAction Row Data) (OccRowDb Tid Row Data)
      (OccRowWorker Row Data) (Logged (Tid × Nat) Row Data) where
  step tid action db worker :=
    match action, worker.pc with
    | .begin, .idle =>
      some ⟨{ db with timestamp := db.timestamp + 1 },
        ⟨.running, worker.txnCnt + 1, db.timestamp, 0, []⟩, []⟩
    | .getRow row type, .running =>
      if (db.rows row).latch.isNone ∧ row ∉ worker.accesses.map OccCopy.row then
        some ⟨db, occRowAccess db row type worker, []⟩
      else none
    | .modify rid data, .running =>
      some ⟨db, { worker with
        accesses := worker.accesses.modify rid
          fun access => { access with data := data } }, []⟩
    | .giveUp, .running => some ⟨db, { worker with pc := .idle }, []⟩
    | .validate, .running =>
      let sorted := bubbleSort names.swap worker.accesses
      some ⟨db, { worker with
        pc := .latching [] sorted, accesses := sorted }, []⟩
    | .inside, _ => occRowInside tid db worker
    | _, _ => none

end

/-- Rows that nobody has latched or written, and the counter after `init`. -/
def occRowStart (data : Row → Data) :
    Config Tid (OccRowDb Tid Row Data) (OccRowWorker Row Data) where
  shared := ⟨fun row => ⟨none, 0, data row⟩, 1⟩
  threads := fun _ => ⟨.idle, 0, 0, 0, []⟩

end

end Lockfreec.Bench
