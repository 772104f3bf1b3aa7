import Lockfreec.Bench.RowLock
import Lockfreec.Lib.Interleaving

/-!
# Worker threads under a locking algorithm

Each worker thread runs one transaction after the other.  `thread_t::run`
gives the transaction its id, and a timestamp under some algorithms.  A
transaction gets rows with `txn_man::get_row`, reads and writes them in place
and calls `txn_man::finish`, which goes through its accesses in reverse order,
copies the before-image back when it aborts and releases the row.

`row_t::get_row` waits while neither `lock_ready` nor `lock_abort` is set.
The two flags are loaded one after the other.  The deadlock detector and the
other transactions appear only through the one thing they do to a waiting
transaction: they set its `lock_abort` at any time.  Under `DL_DETECT` a
transaction also sets its own one when it has waited too long.

Calls of `lock_get` and `lock_release` and every other access to the shared
memory are atomic steps.
-/

namespace Lockfreec.Bench

open Function Lib.DoublyLinked Lib.Interleaving

/-- The kinds of access to a row. -/
inductive AccessType where
  | rd
  | wr
  | xp
  | scan
deriving DecidableEq, Repr

/-- The lock that `row_t::get_row` asks for. -/
def AccessType.lock (type : AccessType) : LockType :=
  if type = .rd ∨ type = .scan then .sh else .ex

/-- Whether `thread_t::run` sets the timestamp of a transaction; `HSTORE`
does so since `HSTORE_LOCAL_TS` is false. -/
def CcAlg.setsTs (alg : CcAlg) : Bool :=
  alg = .hstore || alg = .mvcc || alg = .hekaton || alg = .timestamp

/-- The rows with their locks, the transaction of every worker thread, and the
counter of the timestamps. -/
structure Db (threadCnt : Nat) (Row Addr Data : Type) where
  locks : Row → RowLock Addr (Fin threadCnt)
  data : Row → Data
  lockReady : Fin threadCnt → Bool
  lockAbort : Fin threadCnt → Bool
  txnId : Fin threadCnt → Nat
  ts : Fin threadCnt → Nat
  nextTs : Nat

/-- A row in the access list; the before-image is copied for writes only. -/
structure Access (Row Data : Type) where
  row : Row
  type : AccessType
  origData : Option Data

/-- Where a worker thread is. -/
inductive WorkerPc (Row : Type) where
  | idle
  /-- In the transaction, or in `get_row` before `lock_get`. -/
  | running
  /-- `lock_get` answered `WAIT`. -/
  | clearAbort (row : Row) (type : AccessType)
  | loopReady (row : Row) (type : AccessType)
  | loopAbort (row : Row) (type : AccessType)
  | loopBody (row : Row) (type : AccessType)
  | afterReady (row : Row) (type : AccessType)
  | afterAbort (row : Row) (type : AccessType)
  /-- Before `return_row` with no row. -/
  | giveUp (row : Row) (type : AccessType)
  /-- `row_t::get_row` has returned the row. -/
  | record (row : Row) (type : AccessType)
  /-- In `cleanup`, before the before-image is copied back. -/
  | restore (rc : Rc)
  /-- In `cleanup`, before `lock_release`. -/
  | release (rc : Rc)
deriving DecidableEq, Repr

/-- A worker thread: `thd_txn_id` counts the transactions it has begun. -/
structure Worker (Row Data : Type) where
  pc : WorkerPc Row
  thdTxnId : Nat
  accesses : List (Access Row Data)

/-- The choices of a transaction and of its environment. -/
inductive WorkerAction (threadCnt : Nat) (Row Addr Write : Type) where
  | begin
  | getRow (row : Row) (type : AccessType) (entry : Addr)
  | read (row : Row)
  | write (row : Row) (write : Write)
  | finish (rc : Rc)
  | inside
  /-- The loop finds that the transaction has waited too long. -/
  | timeout
  /-- Set `lock_abort` of a transaction. -/
  | forceAbort (victim : Fin threadCnt)

/-- A transaction: its thread and its number there. -/
abbrev TxnId (threadCnt : Nat) := Fin threadCnt × Nat

/-- What a transaction does. -/
inductive WorkerEvent (threadCnt : Nat) (Row Write : Type) where
  | read (id : TxnId threadCnt) (row : Row)
  | write (id : TxnId threadCnt) (row : Row) (write : Write)
  /-- The call of `finish`. -/
  | finish (id : TxnId threadCnt) (rc : Rc)
deriving DecidableEq

section Model

variable {threadCnt : Nat} {Row Addr Data Write : Type} [DecidableEq Row]
  [DecidableEq Addr]

/-- The rows of the access list. -/
def Worker.rows (worker : Worker Row Data) : List Row :=
  worker.accesses.map Access.row

/-- The worker loop up to `run_txn`. -/
def beginTxn (alg : CcAlg) (tid : Fin threadCnt)
    (db : Db threadCnt Row Addr Data) (worker : Worker Row Data) :
    Db threadCnt Row Addr Data :=
  { db with
    txnId := update db.txnId tid (tid + worker.thdTxnId * threadCnt)
    ts := if alg.setsTs then update db.ts tid db.nextTs else db.ts
    nextTs := if alg.setsTs then db.nextTs + 1 else db.nextTs }

/-- Call `lock_get` for a row. -/
def Db.lockGet (alg : CcAlg) (fuel : Nat) (db : Db threadCnt Row Addr Data)
    (tid : Fin threadCnt) (row : Row) (type : AccessType) (entry : Addr) :
    Option (Rc × Db threadCnt Row Addr Data) :=
  (Bench.lockGet alg threadCnt fuel db.ts db.txnId type.lock tid entry
    (db.locks row) db.lockReady).map fun result =>
      (result.rc,
        { db with
          locks := update db.locks row result.lock
          lockReady := result.ready })

/-- Call `lock_release` for a row. -/
def Db.lockRelease (fuel : Nat) (db : Db threadCnt Row Addr Data)
    (tid : Fin threadCnt) (row : Row) :
    Option (Db threadCnt Row Addr Data) :=
  (Bench.lockRelease fuel tid (db.locks row) db.lockReady).map fun result =>
    { db with
      locks := update db.locks row result.1
      lockReady := result.2 }

/-- Where `get_row` goes with the answer of `lock_get`. -/
def afterGet (row : Row) (type : AccessType) : Rc → WorkerPc Row
  | .rcok => .record row type
  | .wait => .clearAbort row type
  | _ => .running

/-- Copy the before-image back if the transaction aborts. -/
def Db.restore (db : Db threadCnt Row Addr Data) (rc : Rc)
    (access : Access Row Data) : Db threadCnt Row Addr Data :=
  match access.origData with
  | some origData =>
    if access.type = .wr ∧ rc = .abort then
      { db with data := update db.data access.row origData }
    else db
  | none => db

/-- The steps of a thread that its transaction does not choose. -/
def workerStep (fuel : Nat) (tid : Fin threadCnt)
    (db : Db threadCnt Row Addr Data) (worker : Worker Row Data) :
    Option (Db threadCnt Row Addr Data × Worker Row Data) :=
  match worker.pc with
  | .clearAbort row type =>
    some ({ db with lockAbort := update db.lockAbort tid false },
      { worker with pc := .loopReady row type })
  | .loopReady row type =>
    some (db, { worker with
      pc := if db.lockReady tid then .afterReady row type
        else .loopAbort row type })
  | .loopAbort row type =>
    some (db, { worker with
      pc := if db.lockAbort tid then .afterReady row type
        else .loopBody row type })
  | .loopBody row type => some (db, { worker with pc := .loopReady row type })
  | .afterReady row type =>
    some (db, { worker with
      pc := if db.lockReady tid then .record row type
        else .afterAbort row type })
  | .afterAbort row type =>
    -- with neither flag set the answer stays `WAIT`, which is no abort
    some (db, { worker with
      pc := if db.lockAbort tid then .giveUp row type
        else .record row type })
  | .giveUp row _ =>
    (db.lockRelease fuel tid row).map fun db =>
      (db, { worker with pc := .running })
  | .record row type =>
    some (db, { worker with
      pc := .running
      accesses :=
        ⟨row, type, if type = .wr then some (db.data row) else none⟩ ::
          worker.accesses })
  | .restore rc =>
    match worker.accesses with
    | [] => some (db, { worker with pc := .idle })
    | access :: _ =>
      some (db.restore rc access, { worker with pc := .release rc })
  | .release rc =>
    match worker.accesses with
    | [] => none
    | access :: rest =>
      (db.lockRelease fuel tid access.row).map fun db =>
        (db, { worker with pc := .restore rc, accesses := rest })
  | _ => none

/-- Worker threads with one transaction each at a time. -/
def lockingMachine (alg : CcAlg) (fuel : Nat) (apply : Write → Data → Data) :
    Machine (Fin threadCnt) (WorkerAction threadCnt Row Addr Write)
      (Db threadCnt Row Addr Data) (Worker Row Data)
      (WorkerEvent threadCnt Row Write) where
  step tid action db worker :=
    let id := (tid, worker.thdTxnId)
    match action with
    | .forceAbort victim =>
      some ⟨{ db with
        lockAbort := update db.lockAbort victim true }, worker, []⟩
    | .begin =>
      if worker.pc = .idle then
        some ⟨beginTxn alg tid db worker,
          { worker with
            pc := .running
            thdTxnId := worker.thdTxnId + 1 }, []⟩
      else none
    | .getRow row type entry =>
      if worker.pc = .running ∧ row ∉ worker.rows ∧ type ≠ .xp ∧
          (db.locks row).allocated entry = false then
        (db.lockGet alg fuel tid row type entry).map fun result =>
          ⟨result.2, { worker with pc := afterGet row type result.1 }, []⟩
      else none
    | .read row =>
      if worker.pc = .running ∧ row ∈ worker.rows then
        some ⟨db, worker, [.read id row]⟩
      else none
    | .write row write =>
      if worker.pc = .running ∧ ∃ access ∈ worker.accesses, access.row = row ∧
            access.type = .wr then
        some ⟨{ db with
            data := update db.data row (apply write (db.data row)) },
          worker, [.write id row write]⟩
      else none
    | .finish rc =>
      if worker.pc = .running ∧ (rc = .rcok ∨ rc = .abort) then
        some ⟨db, { worker with pc := .restore rc }, [.finish id rc]⟩
      else none
    | .inside =>
      (workerStep fuel tid db worker).map fun result =>
        ⟨result.1, result.2, []⟩
    | .timeout =>
      match worker.pc with
      | .loopBody row type =>
        if alg = .dlDetect then
          some ⟨{ db with
              lockAbort := update db.lockAbort tid true },
            { worker with pc := .afterReady row type }, []⟩
        else none
      | _ => none

/-- New rows with the given content, and no transaction begun. -/
def lockingStart (links : Row → DList Addr) (type : Addr → LockType)
    (txn : Addr → Fin threadCnt) (data : Row → Data)
    (flags : Fin threadCnt → Bool) (ts : Fin threadCnt → Nat) :
    Config (Fin threadCnt) (Db threadCnt Row Addr Data) (Worker Row Data) where
  shared :=
    { locks := fun row => RowLock.init (links row) type txn
      data := data
      lockReady := fun _ => false
      lockAbort := flags
      txnId := fun _ => 0
      ts := ts
      nextTs := 1 }
  threads := fun _ => ⟨.idle, 0, []⟩

end Model

end Lockfreec.Bench
