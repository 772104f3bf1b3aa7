import Lockfreec.Lib.DoublyLinked
import Mathlib.Data.Option.Basic

/-!
# The lock manager of a row

`Row_lock` keeps the owners of a row in a singly linked stack and its waiters
in a doubly linked list.  Both are threaded through the same entries, whose
`next` and `prev` links are written by the list macros of `helper.h`.  One
routine, `lock_get`, serves the three locking policies.

`lockGet` and `lockRelease` are the bodies of the two functions between the
latch and the unlatch.  An assertion that fails gives `none`, and so does a
loop along the links that takes more steps than `fuel` allows.  The sections
under `DEBUG_ASSERT` are not compiled.
-/

namespace Lockfreec.Bench

open Function Lib.Chain Lib.DoublyLinked

/-- The concurrency control algorithms that `CC_ALG` chooses from. -/
inductive CcAlg where
  | noWait
  | waitDie
  | dlDetect
  | timestamp
  | mvcc
  | hstore
  | occ
  | tictoc
  | silo
  | vll
  | hekaton
deriving DecidableEq, Repr

/-- The return codes of the benchmark. -/
inductive Rc where
  | rcok
  | commit
  | abort
  | wait
  | error
  | finish
deriving DecidableEq, Repr

/-- The modes of a row lock. -/
inductive LockType where
  | ex
  | sh
  | none
deriving DecidableEq, Repr

/-- Whether the algorithm locks rows. -/
def CcAlg.locks (alg : CcAlg) : Prop :=
  alg = .dlDetect ∨ alg = .noWait ∨ alg = .waitDie

instance (alg : CcAlg) : Decidable alg.locks :=
  inferInstanceAs (Decidable (_ ∨ _))

/-- A row's lock with the lock entries in memory. -/
structure RowLock (Addr Txn : Type) where
  lockType : LockType
  ownerCnt : Nat
  waiterCnt : Nat
  owners : Option Addr
  /-- The links of all entries, and `waiters_head` and `waiters_tail`. -/
  waiters : DList Addr
  type : Addr → LockType
  txn : Addr → Txn
  /-- The entries that the allocator has given out. -/
  allocated : Addr → Bool

variable {Addr Txn : Type} [DecidableEq Addr] [DecidableEq Txn]

/-- The lock of a new row. -/
def RowLock.init (links : DList Addr) (type : Addr → LockType)
    (txn : Addr → Txn) : RowLock Addr Txn where
  lockType := .none
  ownerCnt := 0
  waiterCnt := 0
  owners := none
  waiters := { links with head := none, tail := none }
  type := type
  txn := txn
  allocated := fun _ => false

def conflictLock (l1 l2 : LockType) : Bool :=
  if l1 = .none ∨ l2 = .none then false
  else if l1 = .ex ∨ l2 = .ex then true
  else false

namespace RowLock

/-! ## The effects of the two functions on the lists -/

/-- A new entry with its transaction and mode. -/
def getEntry (lock : RowLock Addr Txn) (entry : Addr) (type : LockType)
    (txn : Txn) : RowLock Addr Txn :=
  { lock with
    type := update lock.type entry type
    txn := update lock.txn entry txn
    allocated := update lock.allocated entry true }

def returnEntry (lock : RowLock Addr Txn) (entry : Addr) :
    RowLock Addr Txn :=
  { lock with allocated := update lock.allocated entry false }

/-- `STACK_PUSH` on the owners with the updates that follow it. -/
def pushOwner (lock : RowLock Addr Txn) (entry : Addr) : RowLock Addr Txn :=
  { lock with
    lockType := lock.type entry
    ownerCnt := lock.ownerCnt + 1
    owners := some entry
    waiters :=
      { lock.waiters with
        next := update lock.waiters.next entry lock.owners } }

/-- `LIST_PUT_TAIL` on the waiters. -/
def putTail (lock : RowLock Addr Txn) (entry : Addr) : RowLock Addr Txn :=
  { lock with
    waiterCnt := lock.waiterCnt + 1
    waiters := lock.waiters.putTail entry }

/-- `LIST_INSERT_BEFORE` on the waiters. -/
def insertBefore (lock : RowLock Addr Txn) (en entry : Addr) :
    RowLock Addr Txn :=
  { lock with
    waiterCnt := lock.waiterCnt + 1
    waiters :=
      { lock.waiters.insertBefore en entry with
        head := if lock.waiters.head = some en then some entry
          else lock.waiters.head } }

/-- Unlink an owner that follows the given entry of the stack. -/
def removeOwner (lock : RowLock Addr Txn) (prev : Option Addr) (en : Addr) :
    RowLock Addr Txn :=
  let next := lock.waiters.next
  { lock.returnEntry en with
    owners :=
      match prev with
      | some _ => lock.owners
      | none => next en
    waiters :=
      { lock.waiters with
        next :=
          match prev with
          | some before => update next before (next en)
          | none => next }
    ownerCnt := lock.ownerCnt - 1
    lockType := if lock.ownerCnt - 1 = 0 then .none else lock.lockType }

/-- `LIST_REMOVE` on the waiters. -/
def removeWaiter (lock : RowLock Addr Txn) (en : Addr) : RowLock Addr Txn :=
  let waiters := lock.waiters.remove en
  { lock.returnEntry en with
    waiters :=
      { waiters with
        head := if lock.waiters.head = some en then waiters.next en
          else lock.waiters.head
        tail := if lock.waiters.tail = some en then waiters.prev en
          else lock.waiters.tail }
    waiterCnt := lock.waiterCnt - 1 }

/-- `LIST_GET_HEAD` on the waiters and `STACK_PUSH` on the owners. -/
def promoteHead (lock : RowLock Addr Txn) (entry : Addr) :
    RowLock Addr Txn :=
  let lock := { lock with waiters := lock.waiters.getHead entry }
  { lock.pushOwner entry with waiterCnt := lock.waiterCnt - 1 }

end RowLock

/-! ## Requesting a row -/

/-- What a call leaves: its answer, the row's lock, `lock_ready` of every
transaction, and the transactions that the caller waits for. -/
structure GetResult (Addr Txn : Type) where
  rc : Rc
  lock : RowLock Addr Txn
  ready : Txn → Bool
  txnids : List Nat

/-- Whether the request has to wait or to abort. -/
def RowLock.conflict (alg : CcAlg) (ts : Txn → Nat)
    (lock : RowLock Addr Txn) (type : LockType) (txn : Txn) : Bool :=
  conflictLock lock.lockType type || (decide (alg = .waitDie) &&
      (match lock.waiters.head with
        | some head => decide (ts txn < ts (lock.txn head))
        | none => false)) ||
    (decide (alg = .dlDetect) && lock.waiters.head.isSome)

/-- The owners in the waits-for list. -/
def RowLock.conflictingOwners (fuel : Nat) (lock : RowLock Addr Txn)
    (type : LockType) : Option (List Addr) :=
  if conflictLock type lock.lockType then
    collect lock.waiters.next (fun _ => true) fuel lock.owners
  else some []

/-- The waits-for list that `DL_DETECT` builds behind `final`. -/
def RowLock.waitsFor (fuel : Nat) (txnId : Txn → Nat)
    (lock : RowLock Addr Txn) (type : LockType) (txn : Txn) :
    Option (List Nat) := do
  let tail ← lock.waiters.tail
  guard (lock.txn tail = txn)
  let ahead ← collect lock.waiters.prev
    (fun en => conflictLock type (lock.type en)) fuel
    (lock.waiters.prev tail)
  let owners ← lock.conflictingOwners fuel type
  let txnids := (ahead ++ owners).map fun en => txnId (lock.txn en)
  guard (0 < txnids.length)
  return txnids

/-- The waiter's place in the list that `WAIT_DIE` keeps in timestamp order. -/
def RowLock.insertWaiter (fuel : Nat) (ts : Txn → Nat)
    (lock : RowLock Addr Txn) (txn : Txn) (entry : Addr) :
    Option (RowLock Addr Txn) :=
  (walk lock.waiters.next (fun en => decide ¬ ts txn < ts (lock.txn en))
    fuel lock.waiters.head).map fun en =>
      match en with
      | some en => lock.insertBefore en entry
      | none => lock.putTail entry

/-- The branch of `lock_get` that cannot add the request to the owners. -/
def RowLock.getConflict (alg : CcAlg) (fuel : Nat) (ts txnId : Txn → Nat)
    (type : LockType) (txn : Txn) (entry : Addr)
    (lock : RowLock Addr Txn) (ready : Txn → Bool) :
    Option (GetResult Addr Txn) :=
  match alg with
  | .dlDetect =>
    let lock := (lock.getEntry entry type txn).putTail entry
    (lock.waitsFor fuel txnId type txn).map fun txnids =>
      ⟨.wait, lock, update ready txn false, txnids⟩
  | .waitDie =>
    match walk lock.waiters.next
        (fun en => decide (ts (lock.txn en) < ts txn)) fuel
        lock.owners with
    | none => none
    | some (some _) => some ⟨.abort, lock, ready, []⟩
    | some none =>
      ((lock.getEntry entry type txn).insertWaiter fuel ts txn entry).map
        fun lock => ⟨.wait, lock, update ready txn false, []⟩
  | _ => some ⟨.abort, lock, ready, []⟩

/-- The branch of `lock_get` that adds the request to the owners. -/
def RowLock.getOwner (alg : CcAlg) (type : LockType) (txn : Txn)
    (entry : Addr) (lock : RowLock Addr Txn) (ready : Txn → Bool) :
    Option (GetResult Addr Txn) := do
  let lock := (lock.getEntry entry type txn).pushOwner entry
  guard (alg = .dlDetect → lock.waiters.head = none)
  return ⟨.rcok, lock, ready, []⟩

/-- `lock_get` between the latch and the unlatch. -/
def lockGet (alg : CcAlg) (threadCnt fuel : Nat) (ts txnId : Txn → Nat)
    (type : LockType) (txn : Txn) (entry : Addr)
    (lock : RowLock Addr Txn) (ready : Txn → Bool) :
    Option (GetResult Addr Txn) := do
  guard alg.locks
  guard (lock.ownerCnt ≤ threadCnt)
  guard (lock.waiterCnt < threadCnt)
  if lock.conflict alg ts type txn then
    lock.getConflict alg fuel ts txnId type txn entry ready
  else lock.getOwner alg type txn entry ready

/-! ## Releasing a row -/

/-- Promote the waiters at the head that do not conflict. -/
def grantWaiters : Nat → RowLock Addr Txn → (Txn → Bool) →
    Option (RowLock Addr Txn × (Txn → Bool))
  | fuel, lock, ready =>
    match lock.waiters.head with
    | none => some (lock, ready)
    | some entry =>
      if conflictLock lock.lockType (lock.type entry) then
        some (lock, ready)
      else
        match fuel with
        | 0 => none
        | fuel + 1 => do
            guard (ready (lock.txn entry) = false)
            grantWaiters fuel (lock.promoteHead entry)
              (update ready (lock.txn entry) true)

/-- Take the transaction's entry out of the list that holds it. -/
def removeEntry (fuel : Nat) (txn : Txn) (lock : RowLock Addr Txn) :
    Option (RowLock Addr Txn) :=
  match walkPrev lock.waiters.next (fun en => decide (lock.txn en = txn))
      fuel none lock.owners with
  | none => none
  | some (prev, some en) => some (lock.removeOwner prev en)
  | some (_, none) =>
    match walk lock.waiters.next (fun en => decide (lock.txn en = txn))
        fuel lock.waiters.head with
    | some (some en) => some (lock.removeWaiter en)
    | _ => none

/-- `lock_release` between the latch and the unlatch. -/
def lockRelease (fuel : Nat) (txn : Txn) (lock : RowLock Addr Txn)
    (ready : Txn → Bool) : Option (RowLock Addr Txn × (Txn → Bool)) := do
  let lock ← removeEntry fuel txn lock
  guard (lock.ownerCnt = 0 → lock.lockType = .none)
  let result ← grantWaiters fuel lock ready
  guard (result.1.owners = none ↔ result.1.ownerCnt = 0)
  return result

end Lockfreec.Bench
