import Lockfreec.Bench.RowLock
import Lockfreec.Lib.Interleaving

/-!
# Partition locks

`PartMan` is the lock of one partition: an owner, and an array of waiters in
the order of their timestamps.  `Plock::lock` requests a list of partitions
one after the other, keeps requesting while it waits in earlier ones, and then
waits until `ready_part` is zero.  The counter is raised by the transaction
itself and lowered by whoever grants it a partition.  If a request is refused
it gives back what it has got and leaves the queues it waits in.

Every worker thread has one `txn_man` and runs one transaction after the
other, each with a new timestamp.  Calls of `PartMan::lock` and
`PartMan::unlock` are atomic steps.
-/

namespace Lockfreec.Bench

open Function Lib.Interleaving

variable {threadCnt : Nat} {Part : Type}

/-- The lock of a partition; `waiter_cnt` is the length of the list. -/
structure PartMan (threadCnt : Nat) where
  owner : Option (Fin threadCnt)
  waiters : List (Fin threadCnt)
deriving DecidableEq, Repr

def PartMan.init : PartMan threadCnt :=
  ⟨none, []⟩

/-! ## One partition -/

/-- The insertion loop of `PartMan::lock`, over the waiters from the last. -/
def shiftInsert (ts : Fin threadCnt → Nat) (txn : Fin threadCnt) :
    List (Fin threadCnt) → List (Fin threadCnt)
  | [] => [txn]
  | waiter :: rest =>
    if ts waiter < ts txn then txn :: waiter :: rest
    else waiter :: shiftInsert ts txn rest

/-- The assertion in the loop that moves the waiters up. -/
def ascending (ts : Fin threadCnt → Nat) : List (Fin threadCnt) → Bool
  | first :: second :: rest =>
    decide (ts first < ts second) && ascending ts (second :: rest)
  | _ => true

/-- What a call of `PartMan::lock` answers and leaves behind. -/
structure PartLocked (threadCnt : Nat) where
  rc : Rc
  man : PartMan threadCnt
  readyPart : Fin threadCnt → Int

/-- `PartMan::lock`; a failed assertion is `none`. -/
def PartMan.lock (ts : Fin threadCnt → Nat) (txn : Fin threadCnt)
    (readyPart : Fin threadCnt → Int) (man : PartMan threadCnt) :
    Option (PartLocked threadCnt) :=
  match man.owner with
  | none => some ⟨.rcok, { man with owner := some txn }, readyPart⟩
  | some owner =>
    if ts owner < ts txn then
      if man.waiters.length < threadCnt then
        some ⟨.wait,
          { man with
            waiters := (shiftInsert ts txn man.waiters.reverse).reverse },
          update readyPart txn (readyPart txn + 1)⟩
      else none
    else some ⟨.abort, man, readyPart⟩

/-- `PartMan::unlock`; a failed assertion is `none`. -/
def PartMan.unlock (ts : Fin threadCnt → Nat) (txn : Fin threadCnt)
    (readyPart : Fin threadCnt → Int) (man : PartMan threadCnt) :
    Option (PartMan threadCnt × (Fin threadCnt → Int)) :=
  if man.owner = some txn then
    match man.waiters with
    | [] => some (⟨none, []⟩, readyPart)
    | next :: rest =>
      if ascending ts (next :: rest) then
        some (⟨some next, rest⟩, update readyPart next (readyPart next - 1))
      else none
  else if txn ∈ man.waiters then
    some ({ man with waiters := man.waiters.erase txn },
      update readyPart txn (readyPart txn - 1))
  else none

/-! ## Transactions -/

/-- The partitions, and the fields of every thread's `txn_man`. -/
structure PlockDb (threadCnt : Nat) (Part : Type) where
  parts : Part → PartMan threadCnt
  readyPart : Fin threadCnt → Int
  ts : Fin threadCnt → Nat

/-- Where a thread is in its use of the partitions. -/
inductive PlockPc (Part : Type) where
  | idle
  /-- In the loop of `Plock::lock`: requested partitions and the others. -/
  | locking (requested todo : List Part)
  /-- A request was refused: the partitions still to be given back. -/
  | aborting (todo parts : List Part)
  /-- Waiting until `ready_part` is zero. -/
  | waiting (parts : List Part)
  /-- Before the last assertion of `Plock::lock`. -/
  | checking (parts : List Part)
  | returned (rc : Rc) (parts : List Part)
  /-- In the loop of `Plock::unlock`. -/
  | unlocking (todo : List Part)
  /-- An assertion failed. -/
  | crashed
deriving DecidableEq, Repr

/-- The thread is between two transactions. -/
def PlockPc.between : PlockPc Part → Bool
  | .idle => true
  | .returned .abort _ => true
  | _ => false

/-- A thread; `thd_txn_id` counts the transactions it has begun. -/
structure PlockWorker (Part : Type) where
  pc : PlockPc Part
  thdTxnId : Nat

inductive PlockAction (Part : Type) where
  /-- Begin a transaction and call `Plock::lock` for a list of partitions. -/
  | lock (parts : List Part)
  /-- Call `Plock::unlock` for the same list. -/
  | unlock
  | inside

section

variable [DecidableEq Part]

/-- Call `PartMan::lock` for the next partition. -/
def PlockDb.lockPart (db : PlockDb threadCnt Part) (txn : Fin threadCnt)
    (part : Part) : Option (Rc × PlockDb threadCnt Part) :=
  ((db.parts part).lock db.ts txn db.readyPart).map fun result =>
    (result.rc,
      { db with
        parts := update db.parts part result.man
        readyPart := result.readyPart })

/-- Call `PartMan::unlock` for the next partition. -/
def PlockDb.unlockPart (db : PlockDb threadCnt Part) (txn : Fin threadCnt)
    (part : Part) : Option (PlockDb threadCnt Part) :=
  ((db.parts part).unlock db.ts txn db.readyPart).map fun result =>
    { db with
      parts := update db.parts part result.1
      readyPart := result.2 }

/-- The steps inside `Plock::lock` and `Plock::unlock`. -/
def plockStep (txn : Fin threadCnt) (db : PlockDb threadCnt Part) :
    PlockPc Part → Option (PlockDb threadCnt Part × PlockPc Part)
  | .locking requested [] => some (db, .waiting requested)
  | .locking requested (part :: todo) =>
    match db.lockPart txn part with
    | none => some (db, .crashed)
    | some (rc, after) =>
      if rc = .abort then
        some (after, .aborting requested (requested ++ part :: todo))
      else some (after, .locking (requested ++ [part]) todo)
  | .aborting [] parts =>
    if db.readyPart txn = 0 then some (db, .returned .abort parts)
    else some (db, .crashed)
  | .aborting (part :: todo) parts =>
    match db.unlockPart txn part with
    | none => some (db, .crashed)
    | some after => some (after, .aborting todo parts)
  | .waiting parts =>
    if 0 < db.readyPart txn then some (db, .waiting parts)
    else some (db, .checking parts)
  | .checking parts =>
    if db.readyPart txn = 0 then some (db, .returned .rcok parts)
    else some (db, .crashed)
  | .unlocking [] => some (db, .idle)
  | .unlocking (part :: todo) =>
    match db.unlockPart txn part with
    | none => some (db, .crashed)
    | some after => some (after, .unlocking todo)
  | _ => none

/--
Threads that lock and unlock partitions.  The timestamp of the `n`-th
transaction of a thread is given by `stamp`.
-/
def plockMachine (stamp : Fin threadCnt × Nat → Nat) :
    Machine (Fin threadCnt) (PlockAction Part) (PlockDb threadCnt Part)
      (PlockWorker Part) Empty where
  step txn action db worker :=
    match action with
    | .lock parts =>
      if worker.pc.between ∧ parts.Nodup then
        some ⟨{ db with
            ts := update db.ts txn (stamp (txn, worker.thdTxnId)) },
          ⟨.locking [] parts, worker.thdTxnId + 1⟩, []⟩
      else none
    | .unlock =>
      match worker.pc with
      | .returned .rcok parts =>
        some ⟨db, { worker with pc := .unlocking parts }, []⟩
      | _ => none
    | .inside =>
      (plockStep txn db worker.pc).map fun result =>
        ⟨result.1, { worker with pc := result.2 }, []⟩

/-- Free partitions, and no transaction begun. -/
def plockStart (ts : Fin threadCnt → Nat) :
    Config (Fin threadCnt) (PlockDb threadCnt Part) (PlockWorker Part) where
  shared := ⟨fun _ => .init, fun _ => 0, ts⟩
  threads := fun _ => ⟨.idle, 0⟩

end

end Lockfreec.Bench
