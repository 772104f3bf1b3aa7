import Lockfreec.Bench.Locking

/-!
# Very lightweight locking

`VLLMan::vllMainLoop` collects the accesses of a transaction and then goes
through its loop.  One section under `_mutex` either takes the transaction of
the front entry or calls `beginTxn`, which counts the accesses at their rows
and appends an entry to the queue.  A transaction that met no conflicting
count is executed at once, and `finishTxn` takes its counts and its entry out
again, in another section under the mutex.

A section under the mutex is one step.  `execute` takes one step for every
field of every row.  An entry comes from the allocator, which hands out any
cell that is not in use; entries are never given back.  The queue limit in
`beginTxn` is left out: the answer it sets is overwritten before the return.
-/

namespace Lockfreec.Bench

open Function Lib.DoublyLinked Lib.Interleaving

/-! ## The counters of a row -/

/-- `Row_vll`. -/
structure RowVll where
  cs : Nat
  cx : Nat
deriving DecidableEq, Repr

def RowVll.init : RowVll :=
  ⟨0, 0⟩

/-- Count an access; the answer is whether the access is blocked. -/
def RowVll.insertAccess (type : AccessType) (row : RowVll) : RowVll × Bool :=
  if type = .rd then ({ row with cs := row.cs + 1 }, decide (0 < row.cx))
  else
    ({ row with cx := row.cx + 1 },
      decide (1 < row.cx + 1) || decide (0 < row.cs))

/-- Take an access out again; `none` if the assertion fails. -/
def RowVll.removeAccess (type : AccessType) (row : RowVll) : Option RowVll :=
  if type = .rd then
    if 0 < row.cs then some { row with cs := row.cs - 1 } else none
  else if 0 < row.cx then some { row with cx := row.cx - 1 } else none

/-! ## The manager -/

section

variable {Tid Row Entry : Type}

/-- `vll_txn_type`. -/
inductive VllTxnType where
  | blocked
  | free
deriving DecidableEq, Repr

/-- A row in the access list of a transaction. -/
structure VllAccess (Row : Type) where
  row : Row
  type : AccessType
deriving DecidableEq, Repr

/--
The entries of the queue with their links, the counters and the fields of the
rows, and every transaction, named by its worker and its number there.
-/
structure VllDb (Tid Row Entry : Type) where
  queue : DList Entry
  entryTxn : Entry → Option (Tid × Nat)
  allocated : Entry → Bool
  rows : Row → RowVll
  data : Row → Nat → Nat
  txnType : Tid × Nat → VllTxnType
  accesses : Tid × Nat → List (VllAccess Row)

/-- The transaction of the front entry, if some worker has to execute it. -/
def VllDb.frontTxn (db : VllDb Tid Row Entry) :
    Option (Entry × (Tid × Nat)) :=
  match db.queue.head with
  | none => none
  | some front =>
    match db.entryTxn front with
    | none => none
    | some txn =>
      if db.txnType txn = .blocked then some (front, txn) else none

/-- `insert_access` for every access in turn. -/
def insertAccesses [DecidableEq Row] (rows : Row → RowVll) :
    List (VllAccess Row) → (Row → RowVll) × Bool
  | [] => (rows, false)
  | access :: rest =>
    let inserted := (rows access.row).insertAccess access.type
    let result := insertAccesses (update rows access.row inserted.1) rest
    (result.1, inserted.2 || result.2)

/-- `remove_access` for every access in turn. -/
def removeAccesses [DecidableEq Row] (rows : Row → RowVll) :
    List (VllAccess Row) → Option (Row → RowVll)
  | [] => some rows
  | access :: rest =>
    ((rows access.row).removeAccess access.type).bind fun removed =>
      removeAccesses (update rows access.row removed) rest

section

variable [DecidableEq Tid] [DecidableEq Row] [DecidableEq Entry]

/-- `getQEntry` and `LIST_PUT_TAIL`. -/
def VllDb.putEntry (db : VllDb Tid Row Entry) (entry : Entry) :
    VllDb Tid Row Entry :=
  { db with
    queue := db.queue.putTail entry
    entryTxn := update db.entryTxn entry none
    allocated := update db.allocated entry true }

/-- `beginTxn`; the answer 1 means blocked and 2 means that the transaction
can run. -/
def VllDb.beginTxn (db : VllDb Tid Row Entry) (txn : Tid × Nat)
    (entry : Entry) : VllDb Tid Row Entry × Nat :=
  let inserted := insertAccesses db.rows (db.accesses txn)
  let type := if inserted.2 then VllTxnType.blocked else .free
  ({ db with
      rows := inserted.1
      txnType := update db.txnType txn type }.putEntry entry,
    if type = .blocked then 1 else 2)

/-- The section of `finishTxn` under the mutex; `none` if an assertion
fails. -/
def VllDb.finishTxn (db : VllDb Tid Row Entry) (txn : Tid × Nat)
    (entry : Entry) : Option (VllDb Tid Row Entry) :=
  (removeAccesses db.rows (db.accesses txn)).bind fun rows =>
    (db.queue.removeHt entry).map fun queue =>
      { db with rows := rows, queue := queue }

/-! ## The workers -/

/-- Where a worker is. -/
inductive VllPc (Tid Row Entry : Type) where
  | idle
  /-- Before the loop, in the accesses of the indexes. -/
  | indexing
  /-- Before the mutex is taken. -/
  | looping
  /-- In `execute`, with the accesses to come and the next field. -/
  | execute (txn : Tid × Nat) (entry : Entry) (todo : List (VllAccess Row))
      (fid : Nat) (done : Bool)
  /-- The assertion in `execute` has failed. -/
  | badAccess (txn : Tid × Nat) (entry : Entry)
  /-- Before the mutex is taken in `finishTxn`. -/
  | finish (txn : Tid × Nat) (entry : Entry) (done : Bool)
  /-- Another assertion has failed. -/
  | crashed
deriving DecidableEq

/-- A worker and the number of transactions it has begun; the last of them is
its own one. -/
structure VllWorker (Tid Row Entry : Type) where
  pc : VllPc Tid Row Entry
  txnCnt : Nat

/-- What the program text leaves open. -/
inductive VllAction (Row Entry : Type) where
  | begin
  | getRow (row : Row) (type : AccessType)
  | enter
  /-- One section of the loop; the allocator hands out the given entry. -/
  | iterate (entry : Entry)
  | inside

/-- What a run makes known. -/
inductive VllEvent (Tid Entry : Type) where
  | admitted (txn : Tid × Nat) (entry : Entry) (type : VllTxnType)
  | executed (txn : Tid × Nat)
  | finished (txn : Tid × Nat)
deriving DecidableEq

/-- One field of one row in `execute`. -/
def VllDb.executeField (db : VllDb Tid Row Entry) (access : VllAccess Row)
    (fid : Nat) : VllDb Tid Row Entry :=
  if access.type = .rd then db
  else
    { db with
      data := update db.data access.row (update (db.data access.row) fid 0) }

/-- The section of the loop under the mutex. -/
def vllIterate (txn : Tid × Nat) (entry : Entry) (db : VllDb Tid Row Entry) :
    VllDb Tid Row Entry × VllPc Tid Row Entry × List (VllEvent Tid Entry) :=
  match db.frontTxn with
  | some (front, frontTxn) =>
    ({ db with txnType := update db.txnType frontTxn .free },
      .execute frontTxn front (db.accesses frontTxn) 0 false,
      [.executed frontTxn])
  | none =>
    let begun := db.beginTxn txn entry
    if begun.2 = 2 then
      (begun.1, .execute txn entry (db.accesses txn) 0 true,
        [.admitted txn entry .free, .executed txn])
    else if begun.2 = 1 then
      (begun.1, .idle, [.admitted txn entry .blocked])
    else (begun.1, .crashed, [])

/-- The steps of `execute` and `finishTxn`. -/
def vllInside (fieldCnt : Nat) (db : VllDb Tid Row Entry) :
    VllPc Tid Row Entry → Option (VllDb Tid Row Entry × VllPc Tid Row Entry ×
        List (VllEvent Tid Entry))
  | .execute txn entry [] _ done => some (db, .finish txn entry done, [])
  | .execute txn entry (access :: todo) fid done =>
    if access.type = .rd ∨ access.type = .wr then
      if fid < fieldCnt then
        some (db.executeField access fid,
          .execute txn entry (access :: todo) (fid + 1) done, [])
      else some (db, .execute txn entry todo 0 done, [])
    else some (db, .badAccess txn entry, [])
  | .finish txn entry done =>
    match db.finishTxn txn entry with
    | none => some (db, .crashed, [])
    | some after =>
      some (after, if done then .idle else .looping, [.finished txn])
  | _ => none

/-- Workers that call `vllMainLoop` for one transaction after the other. -/
def vllMachine (fieldCnt : Nat) :
    Machine Tid (VllAction Row Entry) (VllDb Tid Row Entry)
      (VllWorker Tid Row Entry) (VllEvent Tid Entry) where
  step tid action db worker :=
    let txn := (tid, worker.txnCnt)
    match action, worker.pc with
    | .begin, .idle =>
      some ⟨db, ⟨.indexing, worker.txnCnt + 1⟩, []⟩
    | .getRow row type, .indexing =>
      some ⟨{ db with
          accesses := update db.accesses txn
            (db.accesses txn ++ [⟨row, type⟩]) }, worker, []⟩
    | .enter, .indexing => some ⟨db, { worker with pc := .looping }, []⟩
    | .iterate entry, .looping =>
      if db.allocated entry then none
      else
        let result := vllIterate txn entry db
        some ⟨result.1, { worker with pc := result.2.1 }, result.2.2⟩
    | .inside, pc =>
      (vllInside fieldCnt db pc).map fun result =>
        ⟨result.1, { worker with pc := result.2.1 }, result.2.2⟩
    | _, _ => none

end

/-- An empty queue, no counted access, and any rows. -/
def vllStart (links : DList Entry) (entryTxn : Entry → Option (Tid × Nat))
    (data : Row → Nat → Nat) :
    Config Tid (VllDb Tid Row Entry) (VllWorker Tid Row Entry) where
  shared :=
    { queue := { links with head := none, tail := none }
      entryTxn := entryTxn
      allocated := fun _ => false
      rows := fun _ => .init
      data := data
      txnType := fun _ => .free
      accesses := fun _ => [] }
  threads := fun _ => ⟨.idle, 0⟩

end

end Lockfreec.Bench
