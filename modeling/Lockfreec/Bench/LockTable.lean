import Lockfreec.Bench.RowLock
import Mathlib.Data.List.Pairwise

/-!
# The requests of a row

The abstract state of a row's lock is its mode with the requests that own the
row and those that wait for it.  `LockTable.get` and `LockTable.release` say
which request is granted, refused or queued, without any links.  The
invariants of the lock manager are stated and proved here.

Mutual exclusion and the absence of stranded waiters need no assumption on
timestamps.  The order that `WAIT_DIE` keeps needs a requester whose timestamp
differs from those it is compared with.
-/

namespace Lockfreec.Bench

variable {Txn : Type}

/-- A transaction with the mode in which it owns or awaits the row. -/
structure Request (Txn : Type) where
  txn : Txn
  type : LockType
deriving DecidableEq, Repr

/-- The owners of a row, latest first, and its waiters, head first. -/
structure LockTable (Txn : Type) where
  lockType : LockType
  owners : List (Request Txn)
  waiters : List (Request Txn)

@[simp]
theorem conflictLock_none (type : LockType) :
    conflictLock .none type = false := by
  simp [conflictLock]

theorem conflictLock_comm (left right : LockType) :
    conflictLock left right = conflictLock right left := by
  cases left <;> cases right <;> rfl

theorem not_conflictLock {left right : LockType}
    (isMode : right ≠ .none) (conflict : conflictLock left right = false) :
    left = .none ∨ left = .sh ∧ right = .sh := by
  cases left <;> cases right <;> simp_all [conflictLock]

namespace LockTable

/-! ## The operations -/

/-- Whether a request has to wait or to abort. -/
def conflict (alg : CcAlg) (ts : Txn → Nat) (table : LockTable Txn)
    (request : Request Txn) : Bool :=
  conflictLock table.lockType request.type || (decide (alg = .waitDie) &&
      (match table.waiters.head? with
        | some head => decide (ts request.txn < ts head.txn)
        | none => false)) ||
    (decide (alg = .dlDetect) && table.waiters.head?.isSome)

def grant (table : LockTable Txn) (request : Request Txn) :
    LockTable Txn :=
  { table with
    lockType := request.type
    owners := request :: table.owners }

/-- Insert a waiter before the first one that is not younger. -/
def insert (ts : Txn → Nat) (request : Request Txn)
    (waiters : List (Request Txn)) : List (Request Txn) :=
  waiters.takeWhile (fun other => decide (ts request.txn < ts other.txn)) ++
    request ::
      waiters.dropWhile (fun other => decide (ts request.txn < ts other.txn))

/-- Grant, refuse or queue a request. -/
def get (alg : CcAlg) (ts : Txn → Nat) (table : LockTable Txn)
    (request : Request Txn) : Rc × LockTable Txn :=
  if table.conflict alg ts request then
    match alg with
    | .dlDetect =>
      (.wait, { table with waiters := table.waiters ++ [request] })
    | .waitDie =>
      if table.owners.any fun owner => ts owner.txn < ts request.txn then
        (.abort, table)
      else
        (.wait, { table with waiters := insert ts request table.waiters })
    | _ => (.abort, table)
  else (.rcok, table.grant request)

/-- Take the head waiters that do not conflict into the owners. -/
def promote (lockType : LockType) (owners : List (Request Txn)) :
    List (Request Txn) → LockTable Txn
  | [] => ⟨lockType, owners, []⟩
  | request :: waiters =>
    if conflictLock lockType request.type then
      ⟨lockType, owners, request :: waiters⟩
    else promote request.type (request :: owners) waiters

/-- The waiters that are taken into the owners. -/
def grantable (lockType : LockType) :
    List (Request Txn) → List (Request Txn)
  | [] => []
  | request :: waiters =>
    if conflictLock lockType request.type then []
    else request :: grantable request.type waiters

/-- Remove the request of a transaction, as an owner if it is one. -/
def remove [DecidableEq Txn] (table : LockTable Txn) (txn : Txn) :
    LockTable Txn :=
  if table.owners.any fun owner => owner.txn = txn then
    let owners := table.owners.eraseP fun owner => owner.txn = txn
    { table with
      owners := owners
      lockType := if owners = [] then .none else table.lockType }
  else
    { table with
      waiters := table.waiters.eraseP fun waiter => waiter.txn = txn }

def release [DecidableEq Txn] (table : LockTable Txn) (txn : Txn) :
    LockTable Txn :=
  let removed := table.remove txn
  promote removed.lockType removed.owners removed.waiters

/-- The waiters that a release takes into the owners. -/
def granted [DecidableEq Txn] (table : LockTable Txn) (txn : Txn) :
    List (Request Txn) :=
  grantable (table.remove txn).lockType (table.remove txn).waiters

/-! ## Mutual exclusion -/

/--
The mode describes the owners: none of them, one in exclusive mode, or any
number in shared mode; and no request is in no mode.
-/
structure Exclusive (table : LockTable Txn) : Prop where
  modes : ∀ request ∈ table.owners ++ table.waiters, request.type ≠ .none
  same : ∀ owner ∈ table.owners, owner.type = table.lockType
  free : table.owners = [] ↔ table.lockType = .none
  alone : table.lockType = .ex → table.owners.length ≤ 1

/-- The head waiter conflicts with the mode of the row. -/
def Blocked (table : LockTable Txn) : Prop :=
  ∀ head ∈ table.waiters.head?, conflictLock table.lockType head.type

/-- Every waiter is older than the owners and than the waiters before it. -/
structure Ordered (ts : Txn → Nat) (table : LockTable Txn) : Prop where
  waiters : table.waiters.Pairwise fun before after =>
    ts after.txn < ts before.txn
  owners : ∀ waiter ∈ table.waiters, ∀ owner ∈ table.owners,
    ts waiter.txn < ts owner.txn

/-- The transactions that own or await the row. -/
def txns (table : LockTable Txn) : List Txn :=
  (table.owners ++ table.waiters).map Request.txn

variable {alg : CcAlg} {ts : Txn → Nat} {table : LockTable Txn}
  {request : Request Txn} {lockType : LockType}
  {owners waiters : List (Request Txn)}

theorem get_refused {owner : Request Txn}
    (busy : table.conflict .waitDie ts request = true)
    (isOwner : owner ∈ table.owners) (older : ts owner.txn < ts request.txn) :
    table.get .waitDie ts request = (.abort, table) := by
  have found : (table.owners.any fun owner =>
      ts owner.txn < ts request.txn) = true :=
    List.any_eq_true.2 ⟨owner, isOwner, decide_eq_true older⟩
  simp only [get, busy, found, if_true]

theorem get_inserted (busy : table.conflict .waitDie ts request = true)
    (canwait : ∀ owner ∈ table.owners, ts request.txn ≤ ts owner.txn) :
    table.get .waitDie ts request = (.wait, { table with
        waiters := insert ts request table.waiters }) := by
  have absent : (table.owners.any fun owner =>
      ts owner.txn < ts request.txn) = false := by
    simpa using canwait
  simp only [get, busy, absent, if_true]
  rfl

/-- What `get` can do. -/
inductive GetMove (alg : CcAlg) (ts : Txn → Nat) (table : LockTable Txn)
    (request : Request Txn) : Rc × LockTable Txn → Prop where
  | granted (free : table.conflict alg ts request = false) :
      GetMove alg ts table request (.rcok, table.grant request)
  | refused (busy : table.conflict alg ts request = true) :
      GetMove alg ts table request (.abort, table)
  | queued (isDlDetect : alg = .dlDetect)
      (busy : table.conflict alg ts request = true) :
      GetMove alg ts table request
        (.wait, { table with waiters := table.waiters ++ [request] })
  | inserted (isWaitDie : alg = .waitDie)
      (busy : table.conflict alg ts request = true)
      (canwait : ∀ owner ∈ table.owners, ts request.txn ≤ ts owner.txn) :
      GetMove alg ts table request
        (.wait, { table with waiters := insert ts request table.waiters })

theorem get_move : GetMove alg ts table request (table.get alg ts request) := by
  cases busy : table.conflict alg ts request with
  | false =>
    have answer : table.get alg ts request = (.rcok, table.grant request) := by
      simp [get, busy]
    rw [answer]
    exact .granted busy
  | true =>
    cases alg with
    | dlDetect =>
      simp only [get, busy]
      exact .queued rfl busy
    | waitDie =>
      by_cases older : ∃ owner ∈ table.owners, ts owner.txn < ts request.txn
      · rcases older with ⟨owner, isOwner, older⟩
        rw [get_refused busy isOwner older]
        exact .refused busy
      · have canwait : ∀ owner ∈ table.owners,
            ts request.txn ≤ ts owner.txn := by
          simpa using older
        rw [get_inserted busy canwait]
        exact .inserted rfl busy canwait
    | _ =>
      simp only [get, busy]
      exact .refused busy

theorem conflict_false (free : table.conflict alg ts request = false) :
    conflictLock table.lockType request.type = false := by
  simp only [conflict, Bool.or_eq_false_iff] at free
  exact free.1.1

theorem insert_perm : (insert ts request waiters).Perm (request :: waiters) := by
  rw [insert]
  apply List.perm_middle.trans
  rw [List.takeWhile_append_dropWhile]

theorem insert_split {front back : List (Request Txn)}
    (younger : ∀ other ∈ front, ts request.txn < ts other.txn)
    (stops : ∀ other ∈ back.head?, ¬ ts request.txn < ts other.txn) :
    insert ts request (front ++ back) = front ++ request :: back := by
  induction front with
  | nil =>
    cases back with
    | nil => rfl
    | cons other rest =>
      have stop := stops other rfl
      simp [insert, stop]
  | cons first front ih =>
    have isYounger := younger first (.head _)
    have rest := ih fun other mem => younger other (by simp [mem])
    simp only [insert] at rest
    simp [insert, isYounger, rest]

theorem mem_insert {other : Request Txn} :
    other ∈ insert ts request waiters ↔ other = request ∨ other ∈ waiters := by
  rw [insert_perm.mem_iff, List.mem_cons]

theorem promote_owners : (promote lockType owners waiters).owners =
      (grantable lockType waiters).reverse ++ owners := by
  induction waiters generalizing lockType owners with
  | nil => rfl
  | cons request waiters ih =>
    rw [promote, grantable]
    split
    · rfl
    · rw [ih, List.reverse_cons, List.append_assoc]
      rfl

theorem promote_waiters :
    grantable lockType waiters ++ (promote lockType owners waiters).waiters =
      waiters := by
  induction waiters generalizing lockType owners with
  | nil => rfl
  | cons request waiters ih =>
    rw [promote, grantable]
    split
    · rfl
    · rw [List.cons_append, ih]

theorem promote_perm : ((promote lockType owners waiters).owners ++
      (promote lockType owners waiters).waiters).Perm (owners ++ waiters) := by
  have split : grantable lockType waiters ++
      (promote lockType owners waiters).waiters = waiters :=
    promote_waiters
  rw [promote_owners, List.append_assoc]
  have moved := List.perm_append_comm_assoc (grantable lockType waiters)
    owners (promote lockType owners waiters).waiters
  rw [split] at moved
  exact ((List.reverse_perm _).append_right _).trans moved

/-! ### The operations keep mutual exclusion -/

theorem Exclusive.grant (inv : table.Exclusive) (isMode : request.type ≠ .none)
    (free : conflictLock table.lockType request.type = false) :
    (table.grant request).Exclusive := by
  rcases not_conflictLock isMode free with isNone | ⟨isSh, requestSh⟩
  · have empty := inv.free.2 isNone
    constructor
    · exact List.forall_mem_cons.2 ⟨isMode, inv.modes⟩
    · intro owner mem
      rw [LockTable.grant, empty] at mem
      rw [List.mem_singleton.1 mem]
      rfl
    · simp [LockTable.grant, isMode]
    · intro isEx
      simp [LockTable.grant, empty]
  · constructor
    · exact List.forall_mem_cons.2 ⟨isMode, inv.modes⟩
    · intro owner mem
      rcases List.mem_cons.1 mem with rfl | mem
      · rfl
      · rw [inv.same owner mem, isSh]
        exact requestSh.symm
    · simp [LockTable.grant, isMode]
    · intro isEx
      rw [LockTable.grant, requestSh] at isEx
      cases isEx

/-- Only the set of waiters matters to mutual exclusion. -/
theorem Exclusive.waiters_congr (inv : table.Exclusive)
    (modes : ∀ waiter ∈ waiters, waiter.type ≠ .none) :
    ({ table with waiters := waiters } : LockTable Txn).Exclusive where
  modes := by
    intro other mem
    rcases List.mem_append.1 mem with mem | mem
    · exact inv.modes other (List.mem_append_left _ mem)
    · exact modes other mem
  same := inv.same
  free := inv.free
  alone := inv.alone

theorem Exclusive.waiting (inv : table.Exclusive) :
    ∀ waiter ∈ table.waiters, waiter.type ≠ .none :=
  fun waiter mem => inv.modes waiter (List.mem_append_right _ mem)

variable {answer : Rc × LockTable Txn}

theorem Exclusive.get (inv : table.Exclusive) (isMode : request.type ≠ .none)
    (move : GetMove alg ts table request answer) : answer.2.Exclusive := by
  cases move with
  | granted free => exact inv.grant isMode (conflict_false free)
  | refused busy => exact inv
  | queued isDlDetect busy =>
    apply inv.waiters_congr
    intro waiter mem
    rcases List.mem_append.1 mem with mem | mem
    · exact inv.waiting waiter mem
    · rwa [List.mem_singleton.1 mem]
  | inserted isWaitDie busy canwait =>
    apply inv.waiters_congr
    intro waiter mem
    rcases mem_insert.1 mem with rfl | mem
    · exact isMode
    · exact inv.waiting waiter mem

theorem Exclusive.promote
    (inv : (⟨lockType, owners, waiters⟩ : LockTable Txn).Exclusive) :
    (promote lockType owners waiters).Exclusive := by
  induction waiters generalizing lockType owners with
  | nil => exact inv
  | cons request waiters ih =>
    rw [LockTable.promote]
    split
    · exact inv
    · next free =>
        have isMode := inv.waiting request (.head _)
        have rest := inv.waiters_congr fun waiter mem =>
          inv.waiting waiter (List.mem_cons_of_mem request mem)
        exact ih (rest.grant isMode (Bool.not_eq_true _ ▸ free))

/-! ### No waiter is stranded -/

/-- A request behind no waiter conflicts with the mode of the row. -/
theorem conflict_alone (empty : table.waiters = [])
    (busy : table.conflict alg ts request = true) :
    conflictLock table.lockType request.type := by
  simpa [conflict, empty] using busy

theorem insert_head (busy : table.conflict .waitDie ts request = true) :
    ∀ head ∈ (insert ts request table.waiters).head?,
      head ∈ table.waiters.head? ∨
        head = request ∧ conflictLock table.lockType request.type := by
  intro head isHead
  cases waiting : table.waiters with
  | nil =>
    rw [waiting] at isHead
    cases isHead
    exact .inr ⟨rfl, conflict_alone waiting busy⟩
  | cons first rest =>
    rw [waiting, insert, List.takeWhile_cons, List.dropWhile_cons] at isHead
    by_cases younger : ts request.txn < ts first.txn
    · rw [if_pos (decide_eq_true younger)] at isHead
      exact .inl isHead
    · rw [if_neg (by simpa using younger)] at isHead
      cases isHead
      refine .inr ⟨rfl, ?_⟩
      simpa [conflict, waiting, younger] using busy

theorem Blocked.get (inv : table.Blocked) (isMode : request.type ≠ .none)
    (move : GetMove alg ts table request answer) : answer.2.Blocked := by
  cases move with
  | granted free =>
    intro head isHead
    have conflicts := inv head isHead
    rcases not_conflictLock isMode (conflict_false free) with
      isNone | ⟨isSh, requestSh⟩
    · simp [isNone] at conflicts
    · change conflictLock request.type head.type = true
      rwa [requestSh, ← isSh]
  | refused busy => exact inv
  | queued isDlDetect busy =>
    intro head isHead
    cases waiting : table.waiters with
    | nil =>
      simp only [waiting, List.nil_append, List.head?_cons] at isHead
      cases isHead
      have conflicts := conflict_alone waiting busy
      exact conflicts
    | cons first rest =>
      apply inv head
      simpa [waiting] using isHead
  | inserted isWaitDie busy canwait =>
    subst isWaitDie
    intro head isHead
    rcases insert_head busy head isHead with already | ⟨rfl, conflicts⟩
    · exact inv head already
    · exact conflicts

theorem promote_blocked : (promote lockType owners waiters).Blocked := by
  induction waiters generalizing lockType owners with
  | nil =>
    rintro head ⟨⟩
  | cons request waiters ih =>
    rw [promote]
    split
    · next conflicts =>
        intro head isHead
        cases isHead
        exact conflicts
    · exact ih

/-- The pairs of a queue that has grown at its end. -/
theorem ahead_concat {first second last : Request Txn}
    (ahead : [first, second].Sublist (waiters ++ [last])) :
    [first, second].Sublist waiters ∨ first ∈ waiters ∧ second = last := by
  have turned : [second, first].Sublist (last :: waiters.reverse) := by
    simpa using List.reverse_sublist.2 ahead
  cases turned with
  | cons _ rest =>
    left
    simpa using List.reverse_sublist.2 rest
  | cons_cons _ rest =>
    right
    simpa using rest

/-- A waiter is behind an owner or a waiter that conflicts with it. -/
theorem exists_blocker (exclusive : table.Exclusive) (blocked : table.Blocked)
    (waits : request ∈ table.waiters) :
    ∃ blocker, (blocker ∈ table.owners ∨
        [blocker, request].Sublist table.waiters) ∧
      conflictLock blocker.type request.type = true := by
  cases conflicts : conflictLock table.lockType request.type with
  | true =>
    have busy : table.owners ≠ [] := by
      rw [ne_eq, exclusive.free]
      intro isNone
      rw [isNone, conflictLock_none] at conflicts
      cases conflicts
    rcases List.exists_mem_of_ne_nil _ busy with ⟨owner, isOwner⟩
    refine ⟨owner, .inl isOwner, ?_⟩
    rwa [exclusive.same owner isOwner]
  | false =>
    rcases List.exists_cons_of_ne_nil (List.ne_nil_of_mem waits) with
      ⟨head, rest, isWaiters⟩
    have stopped := blocked head (by simp [isWaiters])
    rw [isWaiters] at waits ⊢
    refine ⟨head, .inr ?_, ?_⟩
    · rcases List.mem_cons.1 waits with rfl | later
      · rw [conflicts] at stopped
        cases stopped
      · exact .cons_cons _ (List.singleton_sublist.2 later)
    · have isMode := exclusive.waiting request (isWaiters ▸ waits)
      rcases not_conflictLock isMode conflicts with isNone | ⟨isSh, requestSh⟩
      · simp [isNone] at stopped
      · rwa [requestSh, conflictLock_comm, ← isSh]

/-- The request that a row blocks finds somebody to wait for. -/
theorem blocking {type : LockType} {txn : Txn} (exclusive : table.Exclusive)
    (blocked : table.Blocked) (isMode : type ≠ .none)
    (busy : table.conflict .dlDetect ts ⟨txn, type⟩ = true) :
    ∃ other ∈ table.owners ++ table.waiters,
      conflictLock other.type type = true := by
  have queued := GetMove.queued rfl busy
  rcases exists_blocker (exclusive.get isMode queued)
    (blocked.get isMode queued) (List.mem_append_right _ (.head _)) with
    ⟨blocker, isOwner | ahead, conflicts⟩
  · exact ⟨blocker, List.mem_append_left _ isOwner, conflicts⟩
  · rcases ahead_concat ahead with ahead | ⟨isWaiter, -⟩
    · exact ⟨blocker, List.mem_append_right _ (ahead.subset (.head _)),
        conflicts⟩
    · exact ⟨blocker, List.mem_append_right _ isWaiter, conflicts⟩

/-! ### The order of `WAIT_DIE` -/

/-- The requester's timestamp differs from those that it is compared with. -/
structure Apart (ts : Txn → Nat) (table : LockTable Txn)
    (request : Request Txn) : Prop where
  waiters : ∀ waiter ∈ table.waiters, ts request.txn ≠ ts waiter.txn
  owners : conflictLock table.lockType request.type →
    ∀ owner ∈ table.owners, ts request.txn ≠ ts owner.txn

theorem insert_ordered (inv : waiters.Pairwise fun before after =>
      ts after.txn < ts before.txn)
    (apart : ∀ waiter ∈ waiters, ts request.txn ≠ ts waiter.txn) :
    (insert ts request waiters).Pairwise fun before after =>
      ts after.txn < ts before.txn := by
  induction waiters with
  | nil => exact List.pairwise_singleton _ _
  | cons first rest ih =>
    have tail := List.pairwise_cons.1 inv
    by_cases younger : ts request.txn < ts first.txn
    · have step : insert ts request (first :: rest) =
          first :: insert ts request rest := by
        simp [insert, younger]
      rw [step]
      apply List.pairwise_cons.2
      constructor
      · intro other mem
        rcases mem_insert.1 mem with rfl | mem
        · exact younger
        · exact tail.1 other mem
      · apply ih tail.2
        exact fun waiter mem => apart waiter (by simp [mem])
    · have step : insert ts request (first :: rest) =
          request :: first :: rest := by
        simp [insert, younger]
      rw [step]
      apply List.pairwise_cons.2
      constructor
      · have older : ts first.txn < ts request.txn := by
          have different := apart first (.head _)
          omega
        intro other mem
        rcases List.mem_cons.1 mem with rfl | mem
        · exact older
        · exact Nat.lt_trans (tail.1 other mem) older
      · exact inv

theorem Ordered.get (inv : table.Ordered ts) (apart : table.Apart ts request)
    (move : GetMove .waitDie ts table request answer) :
    answer.2.Ordered ts := by
  cases move with
  | granted free =>
    constructor
    · exact inv.waiters
    · intro waiter mem owner isOwner
      rcases List.mem_cons.1 isOwner with rfl | isOwner
      · have different := apart.waiters
        have sorted := inv.waiters
        simp only [conflict, Bool.or_eq_false_iff] at free
        cases waiting : table.waiters with
        | nil =>
          change waiter ∈ table.waiters at mem
          simp [waiting] at mem
        | cons first rest =>
          have notYounger : ¬ ts owner.txn < ts first.txn := by
            simpa [waiting] using free.1.2
          have differs := different first (by simp [waiting])
          change waiter ∈ table.waiters at mem
          rw [waiting] at mem sorted
          rcases List.mem_cons.1 mem with rfl | mem
          · omega
          · have earlier := (List.pairwise_cons.1 sorted).1 waiter mem
            omega
      · exact inv.owners waiter mem owner isOwner
  | refused busy => exact inv
  | queued isDlDetect busy => cases isDlDetect
  | inserted isWaitDie busy canwait =>
    constructor
    · exact insert_ordered inv.waiters apart.waiters
    · intro waiter mem owner isOwner
      rcases mem_insert.1 mem with rfl | mem
      · by_cases conflicts : conflictLock table.lockType waiter.type = true
        · have older := canwait owner isOwner
          have different := apart.owners conflicts owner isOwner
          omega
        · cases waiting : table.waiters with
          | nil => exact absurd (conflict_alone waiting busy) conflicts
          | cons first rest =>
            have younger : ts waiter.txn < ts first.txn := by
              simpa [conflict, waiting, conflicts] using busy
            have isWaiter : first ∈ table.waiters := by simp [waiting]
            exact Nat.lt_trans younger (inv.owners first isWaiter owner isOwner)
      · exact inv.owners waiter mem owner isOwner

theorem Ordered.promote
    (inv : (⟨lockType, owners, waiters⟩ : LockTable Txn).Ordered ts) :
    (promote lockType owners waiters).Ordered ts := by
  induction waiters generalizing lockType owners with
  | nil => exact inv
  | cons request waiters ih =>
    rw [LockTable.promote]
    split
    · exact inv
    · apply ih
      have sorted := List.pairwise_cons.1 inv.waiters
      constructor
      · exact sorted.2
      · intro waiter mem owner isOwner
        rcases List.mem_cons.1 isOwner with rfl | isOwner
        · exact sorted.1 waiter mem
        · exact inv.owners waiter (List.mem_cons_of_mem request mem)
            owner isOwner

/-! ### Removing a request -/

section Remove

variable [DecidableEq Txn] {txn : Txn}

theorem eraseP_split {requests : List (Request Txn)} {request : Request Txn}
    (mem : request ∈ requests) (mine : request.txn = txn) :
    ∃ front back found, requests = front ++ found :: back ∧
      found.txn = txn ∧ (∀ other ∈ front, other.txn ≠ txn) ∧
      requests.eraseP (fun other => decide (other.txn = txn)) =
        front ++ back := by
  rcases List.exists_of_eraseP (p := fun other => decide (other.txn = txn)) mem
      (decide_eq_true mine) with
    ⟨found, front, back, others, isFound, split, erased⟩
  exact ⟨front, back, found, split, by simpa using isFound,
    by simpa using others, erased⟩

/-- What `remove` can do. -/
inductive RemoveMove (table : LockTable Txn) (txn : Txn) :
    LockTable Txn → Prop where
  | owner {front back : List (Request Txn)} {request : Request Txn}
      (split : table.owners = front ++ request :: back)
      (mine : request.txn = txn)
      (others : ∀ other ∈ front, other.txn ≠ txn) :
      RemoveMove table txn
        { table with
          owners := front ++ back
          lockType := if front ++ back = [] then .none else table.lockType }
  | waiter {front back : List (Request Txn)} {request : Request Txn}
      (owners : ∀ owner ∈ table.owners, owner.txn ≠ txn)
      (split : table.waiters = front ++ request :: back)
      (mine : request.txn = txn)
      (others : ∀ other ∈ front, other.txn ≠ txn) :
      RemoveMove table txn { table with waiters := front ++ back }

variable {removed : LockTable Txn}

section

variable (move : RemoveMove table txn removed)

include move

omit [DecidableEq Txn]

theorem Exclusive.remove (inv : table.Exclusive) : removed.Exclusive := by
  cases move with
  | @owner front back request split mine others =>
    have sub : front ++ back ⊆ table.owners := by
      intro other mem
      rw [split]
      simp only [List.mem_append, List.mem_cons] at mem ⊢
      tauto
    constructor
    · intro other mem
      apply inv.modes other
      rcases List.mem_append.1 mem with mem | mem
      · exact List.mem_append_left _ (sub mem)
      · exact List.mem_append_right _ mem
    · intro owner mem
      rw [if_neg (List.ne_nil_of_mem mem)]
      exact inv.same owner (sub mem)
    · change front ++ back = [] ↔ _
      split
      · next empty => simp only [empty]
      · next rest =>
          have busy : table.owners ≠ [] := by simp [split]
          exact iff_of_false rest fun isNone => busy (inv.free.2 isNone)
    · intro isEx
      change (front ++ back).length ≤ 1
      change (if front ++ back = [] then _ else _) = _ at isEx
      split at isEx
      · cases isEx
      · have few := inv.alone isEx
        rw [split] at few
        simp only [List.length_append, List.length_cons] at few ⊢
        omega
  | waiter owners split mine others =>
    apply inv.waiters_congr
    intro waiter mem
    apply inv.waiting waiter
    rw [split]
    simp only [List.mem_append, List.mem_cons] at mem ⊢
    tauto

theorem Ordered.remove (inv : table.Ordered ts) : removed.Ordered ts := by
  cases move with
  | @owner front back request split mine others =>
    constructor
    · exact inv.waiters
    · intro waiter mem owner isOwner
      apply inv.owners waiter mem
      rw [split]
      exact ((List.sublist_cons_self request back).append_left front).subset
        isOwner
  | @waiter front back request owners split mine others =>
    have sub : (front ++ back).Sublist table.waiters := by
      rw [split]
      exact (List.sublist_cons_self request back).append_left front
    constructor
    · exact inv.waiters.sublist sub
    · intro waiter mem
      exact inv.owners waiter (sub.subset mem)

theorem RemoveMove.perm : table.txns.Perm (txn :: removed.txns) := by
  cases move with
  | owner split mine others =>
    rw [txns, txns, split, List.append_assoc, List.append_assoc,
      List.cons_append, ← mine, ← List.map_cons]
    exact List.perm_middle.map _
  | @waiter front back request owners split mine others =>
    rw [txns, txns, split, ← mine, ← List.map_cons,
      ← List.append_assoc, ← List.append_assoc]
    exact List.perm_middle.map _

theorem RemoveMove.waiters_sublist : removed.waiters.Sublist table.waiters := by
  cases move with
  | owner split mine others => exact List.Sublist.refl _
  | @waiter front back request owners split mine others =>
    rw [split]
    exact (List.sublist_cons_self request back).append_left front

end

theorem remove_move (mem : txn ∈ table.txns) :
    RemoveMove table txn (table.remove txn) := by
  rw [remove]
  split
  · next isOwner =>
      rcases List.any_eq_true.1 isOwner with ⟨owner, inOwners, mine⟩
      rcases eraseP_split inOwners (of_decide_eq_true mine) with
        ⟨front, back, found, split, isMine, others, erased⟩
      rw [erased]
      exact .owner split isMine others
  · next notOwner =>
      have owners : ∀ owner ∈ table.owners, owner.txn ≠ txn := by
        simpa using notOwner
      rw [txns, List.map_append, List.mem_append] at mem
      rcases mem with isOwner | isWaiter
      · rcases List.mem_map.1 isOwner with ⟨owner, inOwners, mine⟩
        exact absurd mine (owners owner inOwners)
      · rcases List.mem_map.1 isWaiter with ⟨waiter, inWaiters, mine⟩
        rcases eraseP_split inWaiters mine with
          ⟨front, back, found, split, isMine, others, erased⟩
        rw [erased]
        exact .waiter owners split isMine others

end Remove

/-! ### The transactions of the row -/

theorem GetMove.perm {answer : Rc × LockTable Txn}
    (move : GetMove alg ts table request answer) :
    answer.1 = .abort ∧ answer.2.txns = table.txns ∨ answer.1 ≠ .abort ∧
        answer.2.txns.Perm (request.txn :: table.txns) := by
  cases move with
  | granted free => exact .inr ⟨by simp, List.Perm.refl _⟩
  | refused busy => exact .inl ⟨rfl, rfl⟩
  | queued isDlDetect busy =>
    refine .inr ⟨by simp, ?_⟩
    rw [txns, txns, ← List.map_cons, ← List.append_assoc]
    exact (List.perm_append_singleton ..).map _
  | inserted isWaitDie busy canwait =>
    refine .inr ⟨by simp, ?_⟩
    rw [txns, txns, ← List.map_cons]
    apply List.Perm.map
    exact (insert_perm.append_left table.owners).trans List.perm_middle

end LockTable

end Lockfreec.Bench
