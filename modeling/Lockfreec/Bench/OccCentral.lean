import Lockfreec.Bench.Locking
import Lockfreec.Lib.History

/-!
# Optimistic concurrency control with central validation

Every worker draws the `start_ts` of a transaction from the counter of the
manager and works on copies of the rows.  `OptCC::central_validate` takes a
snapshot of `tnc`, the history and the active list under the latch, enrols the
write set, compares its read set with the history and both sets with the
active list, writes the rows back if it is valid, and leaves the active list
under the latch again; only then does a valid write set enter the history.

The two sections under the latch are one step each.  What is compared in
between is a snapshot of lists whose write sets never change, so the
comparison is one step too.  With `PER_ROW_VALID` off nobody sets the `wts` of
a row, and `Row_occ::access` always copies the row.
-/

namespace Lockfreec.Bench

open Lib.History Lib.Interleaving

section

variable {Tid Row Data : Type}

/-- A read set or a write set; `tn` is set when it enters the history. -/
structure SetEnt (Tid Row : Type) where
  tn : Nat
  txn : Tid
  rows : List Row
deriving DecidableEq, Repr

/-- The fields of `OptCC`, the counter of the manager and the rows. -/
structure OccDb (Tid Row Data : Type) where
  tnc : Nat
  hisLen : Nat
  activeLen : Nat
  active : List (SetEnt Tid Row)
  history : List (SetEnt Tid Row)
  timestamp : Nat
  data : Row → Data

/-- A row in the access list, with the copy that the transaction works on. -/
structure OccAccess (Row Data : Type) where
  row : Row
  type : AccessType
  data : Data

/-! ## Validation -/

/-- The rows of the read set in `get_rw_set`. -/
def readRows (accesses : List (OccAccess Row Data)) : List Row :=
  (accesses.filter fun access => access.type ≠ .wr).map OccAccess.row

/-- The rows of the write set in `get_rw_set`. -/
def writeRows (accesses : List (OccAccess Row Data)) : List Row :=
  (accesses.filter fun access => access.type = .wr).map OccAccess.row

/-- `test_valid`: the sets have no row in common. -/
def testValid [DecidableEq Row] (left right : List Row) : Bool :=
  left.all fun row => right.all fun other => decide (row ≠ other)

/-- What `central_validate` has copied under the latch. -/
structure Snapshot (Tid Row : Type) where
  finishTn : Nat
  finishActive : List (SetEnt Tid Row)
  his : List (SetEnt Tid Row)

/-- The comparison with the history. -/
def Snapshot.historyValid [DecidableEq Row] (snapshot : Snapshot Tid Row)
    (startTn : Nat) (reads : List Row) : Bool :=
  if startTn < snapshot.finishTn then
    ((snapshot.his.dropWhile fun ent =>
      decide (snapshot.finishTn < ent.tn)).takeWhile fun ent =>
        decide (startTn < ent.tn)).all fun ent => testValid ent.rows reads
  else true

/-- The comparison with the active list. -/
def Snapshot.activeValid [DecidableEq Row] (snapshot : Snapshot Tid Row)
    (reads writes : List Row) : Bool :=
  snapshot.finishActive.all fun ent =>
    testValid ent.rows reads && testValid ent.rows writes

/-- Take the first entry of a transaction out of the active list. -/
def removeActive [DecidableEq Tid] (txn : Tid) :
    List (SetEnt Tid Row) → Option (List (SetEnt Tid Row))
  | [] => none
  | ent :: rest =>
    if ent.txn = txn then some rest
    else (removeActive txn rest).map (ent :: ·)

/-- The first section under the latch. -/
def OccDb.enrol (db : OccDb Tid Row Data) (txn : Tid) (writes : List Row) :
    OccDb Tid Row Data :=
  if writes.isEmpty then db
  else
    { db with
      activeLen := db.activeLen + 1
      active := ⟨0, txn, writes⟩ :: db.active }

def OccDb.snapshot (db : OccDb Tid Row Data) : Snapshot Tid Row :=
  ⟨db.tnc, db.active, db.history⟩

/-- A valid write set enters the history; `none` if the assertion fails. -/
def OccDb.enter (db : OccDb Tid Row Data) (txn : Tid) (writes : List Row) :
    Option (OccDb Tid Row Data) :=
  if ∀ last ∈ db.history.head?, last.tn = db.tnc then
    some { db with
      tnc := db.tnc + 1
      history := ⟨db.tnc + 1, txn, writes⟩ :: db.history
      hisLen := db.hisLen + 1 }
  else none

/-- The second section under the latch. -/
def OccDb.leave [DecidableEq Tid] (db : OccDb Tid Row Data) (txn : Tid)
    (writes : List Row) (valid : Bool) : Option (OccDb Tid Row Data) :=
  (removeActive txn db.active).bind fun rest =>
    let left := { db with active := rest, activeLen := db.activeLen - 1 }
    if valid then left.enter txn writes else some left

/-! ## Workers -/

/-- Where a worker is. -/
inductive OccPc (Tid Row Data : Type) where
  | idle
  | running
  /-- Behind the first section under the latch. -/
  | checking (snapshot : Snapshot Tid Row)
  /-- In `cleanup(RCOK)`, with the accesses to come. -/
  | writing (todo : List (OccAccess Row Data))
  /-- Before the second section under the latch. -/
  | leaving (valid : Bool)
  /-- Before `central_validate` returns. -/
  | returning (valid : Bool)
  | crashed

structure OccWorker (Tid Row Data : Type) where
  pc : OccPc Tid Row Data
  txnCnt : Nat
  startTs : Nat
  accesses : List (OccAccess Row Data)

/-- What the program text leaves open. -/
inductive OccAction (Row Data : Type) where
  | begin
  | getRow (row : Row) (type : AccessType)
  | modify (rid : Nat) (data : Data)
  /-- `finish(Abort)` -/
  | giveUp
  /-- `finish(RCOK)`, with the first section under the latch. -/
  | validate
  | inside

/-- What a run makes known; a transaction is named by its worker and its
number there. -/
inductive OccEvent (Tid Row : Type) where
  | started (id : Tid × Nat) (startTs : Nat)
  | snapshot (id : Tid × Nat) (reads : List Row)
  | entered (id : Tid × Nat) (ent : SetEnt Tid Row)
  | committed (id : Tid × Nat)
deriving DecidableEq

section

variable [DecidableEq Tid] [DecidableEq Row]

/-- The steps of `central_validate` behind its first section. -/
def occInside (txn : Tid) (db : OccDb Tid Row Data)
    (worker : OccWorker Tid Row Data) :
    Option (OccDb Tid Row Data × OccPc Tid Row Data ×
      List (OccEvent Tid Row)) :=
  let reads := readRows worker.accesses
  let writes := writeRows worker.accesses
  match worker.pc with
  | .checking snapshot =>
    if snapshot.historyValid worker.startTs reads ∧
        snapshot.activeValid reads writes then
      some (db, .writing worker.accesses.reverse, [])
    else if writes.isEmpty then some (db, .returning false, [])
    else some (db, .leaving false, [])
  | .writing [] =>
    if writes.isEmpty then some (db, .returning true, [])
    else some (db, .leaving true, [])
  | .writing (access :: todo) =>
    if access.type = .wr then
      some ({ db with
        data := Function.update db.data access.row access.data },
        .writing todo, [])
    else some (db, .writing todo, [])
  | .leaving valid =>
    match db.leave txn writes valid with
    | none => some (db, .crashed, [])
    | some after =>
      some (after, .returning valid,
        if valid then
          [.entered (txn, worker.txnCnt) ⟨after.tnc, txn, writes⟩]
        else [])
  | .returning valid =>
    some (db, .idle,
      if valid then [.committed (txn, worker.txnCnt)] else [])
  | _ => none

/-- Workers that run one transaction after the other. -/
def occMachine : Machine Tid (OccAction Row Data) (OccDb Tid Row Data)
    (OccWorker Tid Row Data) (OccEvent Tid Row) where
  step txn action db worker :=
    match action, worker.pc with
    | .begin, .idle =>
      some ⟨{ db with timestamp := db.timestamp + 1 },
        ⟨.running, worker.txnCnt + 1, db.timestamp, []⟩,
        [.started (txn, worker.txnCnt + 1) db.timestamp]⟩
    | .getRow row type, .running =>
      some ⟨db, { worker with
        accesses := worker.accesses ++ [⟨row, type, db.data row⟩] }, []⟩
    | .modify rid data, .running =>
      some ⟨db, { worker with
        accesses := worker.accesses.modify rid
          fun access => { access with data := data } }, []⟩
    | .giveUp, .running => some ⟨db, { worker with pc := .idle }, []⟩
    | .validate, .running =>
      some ⟨db.enrol txn (writeRows worker.accesses),
        { worker with pc := .checking db.snapshot },
        [.snapshot (txn, worker.txnCnt) (readRows worker.accesses)]⟩
    | .inside, _ =>
      (occInside txn db worker).map fun result =>
        ⟨result.1, { worker with pc := result.2.1 }, result.2.2⟩
    | _, _ => none

end

/-- An empty history, and the counter of the manager after `init`. -/
def occStart (data : Row → Data) :
    Config Tid (OccDb Tid Row Data) (OccWorker Tid Row Data) where
  shared := ⟨0, 0, 0, [], [], 1, data⟩
  threads := fun _ => ⟨.idle, 0, 0, []⟩

end

end Lockfreec.Bench
