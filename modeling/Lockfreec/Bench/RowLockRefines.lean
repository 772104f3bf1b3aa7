import Lockfreec.Bench.LockTable

/-!
# The linked lists implement the requests

A lock in memory represents a table of requests: the owners' stack and the
waiters' list visit the entries of the requests, the two do not share an
entry, and the counters are the lengths.  Each effect of the two functions on
the lists has one lemma, and from them `lockGet` and `lockRelease` are shown
to return, with every assertion satisfied, what the table says.
-/

namespace Lockfreec.Bench

open Function Lib.Chain Lib.DoublyLinked

variable {Addr Txn : Type} [DecidableEq Addr]

theorem guard_bind {Result : Type} {condition : Prop} [Decidable condition]
    (holds : condition) (rest : Unit → Option Result) :
    (guard condition >>= rest) = rest () := by
  rw [guard, if_pos holds]
  rfl

/-- The request that an entry stands for. -/
def RowLock.request (lock : RowLock Addr Txn) (entry : Addr) :
    Request Txn :=
  ⟨lock.txn entry, lock.type entry⟩

/-- The entries of the owners and of the waiters. -/
structure Shape (lock : RowLock Addr Txn) (owners waiters : List Addr) :
    Prop where
  stack : Linked lock.waiters.next lock.owners owners
  list : IsList lock.waiters waiters
  apart : ∀ cell ∈ owners, cell ∉ waiters
  live : ∀ cell ∈ owners ++ waiters, lock.allocated cell = true
  ownerCnt : lock.ownerCnt = owners.length
  waiterCnt : lock.waiterCnt = waiters.length

/-! ## The effects on the lists -/

namespace Shape

variable {lock : RowLock Addr Txn} {owners waiters front back : List Addr}
  {entry en : Addr} {type : LockType} {txn : Txn}

section

variable (shape : Shape lock owners waiters)

include shape

omit [DecidableEq Addr] in
theorem fresh (free : lock.allocated entry = false) :
    entry ∉ owners ∧ entry ∉ waiters := by
  rw [← not_or, ← List.mem_append]
  intro mem
  rw [shape.live entry mem] at free
  cases free

theorem getEntry : Shape (lock.getEntry entry type txn) owners waiters where
  stack := shape.stack
  list := shape.list
  apart := shape.apart
  live := by
    intro cell mem
    change update lock.allocated entry true cell = true
    by_cases same : cell = entry
    · rw [same, update_self]
    · rw [update_of_ne same]
      exact shape.live cell mem
  ownerCnt := shape.ownerCnt
  waiterCnt := shape.waiterCnt

theorem pushOwner (outside : entry ∉ owners ∧ entry ∉ waiters)
    (allocated : lock.allocated entry = true) :
    Shape (lock.pushOwner entry) (entry :: owners) waiters where
  stack := by
    refine ⟨rfl, ?_⟩
    have link : update lock.waiters.next entry lock.owners entry =
        lock.owners :=
      update_self ..
    change Linked _ (update lock.waiters.next entry lock.owners entry) owners
    rw [link]
    exact shape.stack.update outside.1
  list := shape.list.update_next outside.2 _
  apart := List.forall_mem_cons.2 ⟨outside.2, shape.apart⟩
  live := List.forall_mem_cons.2 ⟨allocated, shape.live⟩
  ownerCnt := congrArg (· + 1) shape.ownerCnt
  waiterCnt := shape.waiterCnt

theorem putTail (outside : entry ∉ owners ∧ entry ∉ waiters)
    (allocated : lock.allocated entry = true) :
    Shape (lock.putTail entry) owners (waiters ++ [entry]) where
  stack := by
    apply shape.stack.congr
    intro cell mem
    exact shape.list.putTail_next (ne_of_mem_of_not_mem mem outside.1)
      (shape.apart cell mem)
  list := shape.list.putTail outside.2
  apart := by
    intro cell mem
    apply List.not_mem_append (shape.apart cell mem)
    rw [List.mem_singleton]
    exact ne_of_mem_of_not_mem mem outside.1
  live := by
    rw [← List.append_assoc]
    exact List.forall_mem_append.2
      ⟨shape.live, List.forall_mem_singleton.2 allocated⟩
  ownerCnt := shape.ownerCnt
  waiterCnt := by
    rw [List.length_append]
    exact congrArg (· + 1) shape.waiterCnt

end

theorem insertBefore (shape : Shape lock owners (front ++ en :: back))
    (outside : entry ∉ owners ∧ entry ∉ front ++ en :: back)
    (allocated : lock.allocated entry = true) :
    Shape (lock.insertBefore en entry) owners
      (front ++ entry :: en :: back) where
  stack := by
    apply shape.stack.congr
    intro cell mem
    exact shape.list.insertBefore_next (ne_of_mem_of_not_mem mem outside.1)
      (shape.apart cell mem)
  list := shape.list.insertBefore outside.2
  apart := by
    intro cell mem waits
    rcases List.mem_cons.1 (List.perm_middle.mem_iff.1 waits) with
      rfl | waits
    · exact outside.1 mem
    · exact shape.apart cell mem waits
  live := by
    intro cell mem
    rcases List.mem_append.1 mem with mem | waits
    · exact shape.live cell (List.mem_append_left _ mem)
    · rcases List.mem_cons.1 (List.perm_middle.mem_iff.1 waits) with
        rfl | waits
      · exact allocated
      · exact shape.live cell (List.mem_append_right _ waits)
  ownerCnt := shape.ownerCnt
  waiterCnt := by
    have count := shape.waiterCnt
    change lock.waiterCnt + 1 = _
    simp only [List.length_append, List.length_cons] at count ⊢
    omega

/-- Entries that stay allocated when one is returned. -/
theorem live_returnEntry {cells : List Addr}
    (live : ∀ cell ∈ cells, lock.allocated cell = true) (outside : en ∉ cells) :
    ∀ cell ∈ cells, update lock.allocated en false cell = true := by
  intro cell mem
  rw [update_of_ne (ne_of_mem_of_not_mem mem outside)]
  exact live cell mem

theorem removeOwner (shape : Shape lock (front ++ en :: back) waiters) :
    Shape (lock.removeOwner front.getLast? en) (front ++ back) waiters := by
  have sub := (List.sublist_cons_self en back).append_left front
  have gone : en ∉ front ++ back :=
    (List.nodup_cons.1 (List.perm_middle.nodup_iff.1 shape.stack.nodup)).1
  have start : (lock.removeOwner front.getLast? en).owners =
      if front = [] then lock.waiters.next en else lock.owners := by
    rcases List.eq_nil_or_concat front with rfl | ⟨rest, before, rfl⟩
    · rfl
    · simp [RowLock.removeOwner]
  constructor
  · rw [start]
    exact linked_unlink shape.stack
  · change IsList { lock.waiters with next := _ } waiters
    cases last : front.getLast? with
    | none => exact shape.list
    | some before =>
      apply shape.list.update_next
      apply shape.apart
      exact List.mem_append_left _ (List.mem_of_getLast? last)
  · exact fun cell mem => shape.apart cell (sub.subset mem)
  · apply live_returnEntry
    · intro cell mem
      exact shape.live cell ((sub.append_right waiters).subset mem)
    · exact List.not_mem_append gone (shape.apart en (by simp))
  · have count := shape.ownerCnt
    change lock.ownerCnt - 1 = _
    simp only [List.length_append, List.length_cons] at count ⊢
    omega
  · exact shape.waiterCnt

theorem removeWaiter (shape : Shape lock owners (front ++ en :: back)) :
    Shape (lock.removeWaiter en) owners (front ++ back) := by
  have sub := (List.sublist_cons_self en back).append_left front
  have gone : en ∉ front ++ back :=
    (List.nodup_cons.1 (List.perm_middle.nodup_iff.1 shape.list.nodup)).1
  constructor
  · apply shape.stack.congr
    intro cell mem
    exact shape.list.remove_next (shape.apart cell mem)
  · exact shape.list.remove
  · exact fun cell mem waits => shape.apart cell mem (sub.subset waits)
  · apply live_returnEntry
    · intro cell mem
      exact shape.live cell ((sub.append_left owners).subset mem)
    · exact List.not_mem_append (fun mem => shape.apart en mem (by simp)) gone
  · exact shape.ownerCnt
  · have count := shape.waiterCnt
    change lock.waiterCnt - 1 = _
    simp only [List.length_append, List.length_cons] at count ⊢
    omega

theorem promoteHead (shape : Shape lock owners (entry :: waiters)) :
    Shape (lock.promoteHead entry) (entry :: owners) waiters := by
  have distinct := List.nodup_cons.1 shape.list.nodup
  have notOwner : entry ∉ owners := fun mem =>
    shape.apart entry mem (.head _)
  have taken : Shape
      { lock with
        waiters := lock.waiters.getHead entry
        waiterCnt := lock.waiterCnt - 1 } owners waiters := by
    constructor
    · apply shape.stack.congr
      intro cell mem
      exact IsList.getHead_next (ne_of_mem_of_not_mem mem notOwner)
    · exact shape.list.getHead
    · intro cell mem waits
      exact shape.apart cell mem (List.mem_cons_of_mem entry waits)
    · intro cell mem
      exact shape.live cell
        (((List.sublist_cons_self entry waiters).append_left owners).subset mem)
    · exact shape.ownerCnt
    · have count := shape.waiterCnt
      rw [List.length_cons] at count
      change lock.waiterCnt - 1 = _
      omega
  exact taken.pushOwner ⟨notOwner, distinct.1⟩ (shape.live entry (by simp))

end Shape

/-! ## The tables that locks represent -/

/-- The lock holds the requests of the table at the given entries. -/
structure Represents (lock : RowLock Addr Txn) (table : LockTable Txn)
    (owners waiters : List Addr) : Prop where
  shape : Shape lock owners waiters
  mode : lock.lockType = table.lockType
  owning : owners.map lock.request = table.owners
  waiting : waiters.map lock.request = table.waiters

/-- The lock in memory refines the table. -/
def Refines (lock : RowLock Addr Txn) (table : LockTable Txn) : Prop :=
  ∃ owners waiters, Represents lock table owners waiters

/-- The waits-for list has every request that conflicts with the mode. -/
def Names (txnId : Txn → Nat) (table : LockTable Txn) (type : LockType)
    (txnids : List Nat) : Prop :=
  ∀ other ∈ table.owners ++ table.waiters,
    conflictLock other.type type = true → txnId other.txn ∈ txnids

namespace Represents

variable {lock : RowLock Addr Txn} {table : LockTable Txn}
  {owners waiters : List Addr} {entry : Addr} {txn : Txn} {type : LockType}
  {alg : CcAlg} {ts txnId : Txn → Nat}

variable (rep : Represents lock table owners waiters)

include rep

omit [DecidableEq Addr] in
theorem head_eq : lock.waiters.head.map lock.request = table.waiters.head? := by
  rw [rep.shape.list.head_eq, ← rep.waiting, List.head?_map]

omit [DecidableEq Addr] in
theorem conflict_eq :
    lock.conflict alg ts type txn = table.conflict alg ts ⟨txn, type⟩ := by
  have head := rep.head_eq
  rw [RowLock.conflict, LockTable.conflict, rep.mode, ← head]
  cases lock.waiters.head <;> rfl

theorem getEntry (free : lock.allocated entry = false) :
    Represents (lock.getEntry entry type txn) table owners waiters := by
  have fresh := rep.shape.fresh free
  have same : ∀ {cells : List Addr}, entry ∉ cells → ∀ cell ∈ cells,
      (lock.getEntry entry type txn).request cell = lock.request cell := by
    intro cells outside cell mem
    have ne := ne_of_mem_of_not_mem mem outside
    simp [RowLock.request, RowLock.getEntry, ne]
  constructor
  · exact rep.shape.getEntry
  · exact rep.mode
  · rw [← rep.owning]
    exact List.map_congr_left (same fresh.1)
  · rw [← rep.waiting]
    exact List.map_congr_left (same fresh.2)

omit rep in
theorem request_getEntry :
    (lock.getEntry entry type txn).request entry = ⟨txn, type⟩ := by
  simp [RowLock.request, RowLock.getEntry]

theorem pushOwner (outside : entry ∉ owners ∧ entry ∉ waiters)
    (allocated : lock.allocated entry = true) :
    Represents (lock.pushOwner entry) (table.grant (lock.request entry))
      (entry :: owners) waiters where
  shape := rep.shape.pushOwner outside allocated
  mode := rfl
  owning := congrArg (lock.request entry :: ·) rep.owning
  waiting := rep.waiting

theorem putTail (outside : entry ∉ owners ∧ entry ∉ waiters)
    (allocated : lock.allocated entry = true) :
    Represents (lock.putTail entry)
      { table with waiters := table.waiters ++ [lock.request entry] }
      owners (waiters ++ [entry]) where
  shape := rep.shape.putTail outside allocated
  mode := rep.mode
  owning := rep.owning
  waiting := by
    rw [List.map_append]
    exact congrArg (· ++ [lock.request entry]) rep.waiting

omit rep in
theorem insertBefore {front back : List Addr} {en : Addr}
    (rep : Represents lock table owners (front ++ en :: back))
    (outside : entry ∉ owners ∧ entry ∉ front ++ en :: back)
    (allocated : lock.allocated entry = true) :
    Represents (lock.insertBefore en entry)
      { table with
        waiters := front.map lock.request ++ lock.request entry ::
          (en :: back).map lock.request }
      owners (front ++ entry :: en :: back) where
  shape := rep.shape.insertBefore outside allocated
  mode := rep.mode
  owning := rep.owning
  waiting := List.map_append

theorem insertWaiter {fuel : Nat} (outside : entry ∉ owners ∧ entry ∉ waiters)
    (allocated : lock.allocated entry = true) (mine : lock.txn entry = txn)
    (enough : waiters.length ≤ fuel) :
    ∃ changed, lock.insertWaiter fuel ts txn entry = some changed ∧
      Refines changed
        { table with
          waiters := LockTable.insert ts (lock.request entry)
            table.waiters } := by
  have walked := walk_linked (fun en => decide ¬ ts txn < ts (lock.txn en))
    rep.shape.list.forward enough
  cases found : waiters.find? fun en => decide ¬ ts txn < ts (lock.txn en)
    with
  | none =>
    refine ⟨lock.putTail entry, ?_, owners, waiters ++ [entry], ?_⟩
    · rw [RowLock.insertWaiter, walked, found]
      rfl
    · have inserted : LockTable.insert ts (lock.request entry)
          (table.waiters ++ []) = table.waiters ++ [lock.request entry] := by
        apply LockTable.insert_split
        · rw [← rep.waiting]
          simpa [RowLock.request, mine] using found
        · simp
      rw [List.append_nil] at inserted
      rw [inserted]
      exact rep.putTail outside allocated
  | some en =>
    rcases List.find?_eq_some_iff_append.1 found with
      ⟨stops, front, back, rfl, younger⟩
    refine ⟨lock.insertBefore en entry, ?_, owners,
      front ++ entry :: en :: back, ?_⟩
    · rw [RowLock.insertWaiter, walked, found]
      rfl
    · have inserted : LockTable.insert ts (lock.request entry)
          (front.map lock.request ++ (en :: back).map lock.request) =
          front.map lock.request ++ lock.request entry ::
            (en :: back).map lock.request := by
        apply LockTable.insert_split
        · simpa [RowLock.request, mine] using younger
        · simpa [RowLock.request, mine] using stops
      rw [← rep.waiting, List.map_append, inserted]
      exact rep.insertBefore outside allocated

end Represents

/-! ## Requesting a row -/

variable [DecidableEq Txn]

section Get

variable {lock : RowLock Addr Txn} {table : LockTable Txn}
  {owners waiters : List Addr} {entry : Addr} {txn : Txn} {type : LockType}
  {alg : CcAlg} {ts txnId : Txn → Nat} {ready : Txn → Bool}
  {threadCnt fuel : Nat}

omit [DecidableEq Addr] in
/-- A waiter that was put last finds the transactions it waits for. -/
theorem Represents.waitsFor (rep : Represents lock
      { table with waiters := table.waiters ++ [⟨txn, type⟩] } owners
      (waiters ++ [entry]))
    (waiting : waiters.map lock.request = table.waiters)
    (mine : lock.txn entry = txn) (ownersFit : owners.length ≤ fuel)
    (waitersFit : waiters.length ≤ fuel) (exclusive : table.Exclusive)
    (blocking : ∃ other ∈ table.owners ++ table.waiters,
      conflictLock other.type type = true) :
    ∃ txnids, lock.waitsFor fuel txnId type txn = some txnids ∧
      Names txnId table type txnids := by
  have isTail : lock.waiters.tail = some entry := by
    rw [rep.shape.list.tail_eq, List.getLast?_concat]
  have backward : Linked lock.waiters.prev lock.waiters.tail
      (entry :: waiters.reverse) := by
    simpa using rep.shape.list.backward
  have fits : waiters.reverse.length ≤ fuel := by simpa using waitersFit
  have ahead := collect_linked
    (fun en => conflictLock type (lock.type en)) backward.2 fits
  have behind : lock.conflictingOwners fuel type =
      some (if conflictLock type lock.lockType then owners else []) := by
    rw [RowLock.conflictingOwners]
    split
    · rw [collect_linked _ rep.shape.stack ownersFit, List.filter_true]
    · rfl
  have named : Names txnId table type
      ((waiters.reverse.filter (fun en => conflictLock type (lock.type en)) ++
        if conflictLock type lock.lockType then owners else []).map
          fun en => txnId (lock.txn en)) := by
    intro other mem conflicts
    rw [conflictLock_comm] at conflicts
    apply List.mem_map.2
    rcases List.mem_append.1 mem with isOwner | isWaiter
    · rw [exclusive.same other isOwner, ← show lock.lockType = _ from rep.mode]
        at conflicts
      rw [if_pos conflicts]
      rw [← show _ = table.owners from rep.owning] at isOwner
      rcases List.mem_map.1 isOwner with ⟨en, among, rfl⟩
      exact ⟨en, List.mem_append_right _ among, rfl⟩
    · rw [← waiting] at isWaiter
      rcases List.mem_map.1 isWaiter with ⟨en, among, rfl⟩
      exact ⟨en, List.mem_append_left _ (List.mem_filter.2
        ⟨List.mem_reverse.2 among, conflicts⟩), rfl⟩
  rw [RowLock.waitsFor, isTail]
  change ∃ txnids, (guard _ >>= _) = some txnids ∧ _
  rw [guard_bind mine, ahead, behind]
  change ∃ txnids, (guard _ >>= _) = some txnids ∧ _
  rw [guard_bind]
  · exact ⟨_, rfl, named⟩
  · rcases blocking with ⟨other, mem, conflicts⟩
    exact List.length_pos_of_mem (named other mem conflicts)

/-- The result of a call carries an answer of the table. -/
structure Answers (answer : Rc × LockTable Txn) (ready : Txn → Bool)
    (txn : Txn) (result : GetResult Addr Txn) : Prop where
  rc : result.rc = answer.1
  lock : Refines result.lock answer.2
  ready : result.ready = if answer.1 = .wait
    then update ready txn false else ready

theorem getOwner_refines (rep : Represents lock table owners waiters)
    (free : lock.allocated entry = false)
    (granted : table.conflict alg ts ⟨txn, type⟩ = false) :
    ∃ result, lock.getOwner alg type txn entry ready = some result ∧
      Answers (table.get alg ts ⟨txn, type⟩) ready txn result ∧
      (alg = .dlDetect → result.rc = .wait →
        Names txnId table type result.txnids) := by
  have written : Represents (lock.getEntry entry type txn) table owners
      waiters := rep.getEntry free
  have pushed := written.pushOwner (rep.shape.fresh free) (update_self ..)
  rw [Represents.request_getEntry] at pushed
  have noWaiter : alg = .dlDetect →
      ((lock.getEntry entry type txn).pushOwner entry).waiters.head =
        none := by
    rintro rfl
    have head := rep.head_eq
    have isNone : table.waiters.head? = none := by
      simpa [LockTable.conflict] using (Bool.or_eq_false_iff.1 granted).2
    rw [isNone, Option.map_eq_none_iff] at head
    exact head
  have answer : table.get alg ts ⟨txn, type⟩ =
      (.rcok, table.grant ⟨txn, type⟩) := by
    simp [LockTable.get, granted]
  rw [RowLock.getOwner, guard_bind noWaiter, answer]
  exact ⟨_, rfl, ⟨rfl, ⟨_, _, pushed⟩, rfl⟩, by simp⟩

theorem getConflict_refines (rep : Represents lock table owners waiters) (exclusive : table.Exclusive)
    (blocked : table.Blocked) (isMode : type ≠ .none)
    (free : lock.allocated entry = false) (ownersFit : owners.length ≤ fuel)
    (waitersFit : waiters.length ≤ fuel)
    (busy : table.conflict alg ts ⟨txn, type⟩ = true) :
    ∃ result, lock.getConflict alg fuel ts txnId type txn entry ready =
        some result ∧
      Answers (table.get alg ts ⟨txn, type⟩) ready txn result ∧
      (alg = .dlDetect → result.rc = .wait →
        Names txnId table type result.txnids) := by
  have written : Represents (lock.getEntry entry type txn) table owners
      waiters := rep.getEntry free
  have outside := rep.shape.fresh free
  have allocated : (lock.getEntry entry type txn).allocated entry = true :=
    update_self ..
  have mine : (lock.getEntry entry type txn).txn entry = txn :=
    update_self ..
  cases alg with
  | dlDetect =>
    have put := written.putTail outside allocated
    rw [Represents.request_getEntry] at put
    have found := LockTable.blocking exclusive blocked isMode busy
    rcases put.waitsFor written.waiting mine ownersFit waitersFit exclusive
      found with ⟨txnids, isTxnids, named⟩
    have answer : table.get .dlDetect ts ⟨txn, type⟩ = (.wait, { table with
          waiters := table.waiters ++ [⟨txn, type⟩] }) := by
      simp [LockTable.get, busy]
    rw [RowLock.getConflict, isTxnids, answer]
    exact ⟨_, rfl, ⟨rfl, ⟨_, _, put⟩, rfl⟩, fun _ _ => named⟩
  | waitDie =>
    have walked := walk_linked
      (fun en => decide (ts (lock.txn en) < ts txn)) rep.shape.stack
      ownersFit
    rw [RowLock.getConflict, walked]
    cases found : owners.find? fun en => decide (ts (lock.txn en) < ts txn)
      with
    | some en =>
      have older : ts (lock.txn en) < ts txn := by
        simpa using List.find?_some found
      have isOwner : lock.request en ∈ table.owners := by
        rw [← rep.owning]
        exact List.mem_map_of_mem (List.mem_of_find?_eq_some found)
      rw [LockTable.get_refused busy isOwner older]
      exact ⟨_, rfl, ⟨rfl, ⟨_, _, rep⟩, rfl⟩, by simp⟩
    | none =>
      have canwait : ∀ owner ∈ table.owners, ts txn ≤ ts owner.txn := by
        rw [← rep.owning]
        simpa [RowLock.request] using found
      rw [LockTable.get_inserted busy canwait]
      rcases written.insertWaiter outside allocated mine waitersFit with
        ⟨changed, inserted, refines⟩
      rw [Represents.request_getEntry] at refines
      rw [inserted]
      exact ⟨_, rfl, ⟨rfl, refines, rfl⟩, by simp⟩
  | _ =>
    simp only [LockTable.get, busy, if_true]
    exact ⟨_, rfl, ⟨rfl, ⟨_, _, rep⟩, rfl⟩, by simp⟩

/-- `lock_get` returns what the table says, and no assertion fails. -/
theorem lockGet_refines (refines : Refines lock table)
    (exclusive : table.Exclusive) (blocked : table.Blocked) (locks : alg.locks)
    (isMode : type ≠ .none) (free : lock.allocated entry = false)
    (ownersFit : table.owners.length ≤ threadCnt)
    (waitersFit : table.waiters.length < threadCnt)
    (enough : threadCnt ≤ fuel) :
    ∃ result, lockGet alg threadCnt fuel ts txnId type txn entry lock ready =
        some result ∧
      Answers (table.get alg ts ⟨txn, type⟩) ready txn result ∧
      (alg = .dlDetect → result.rc = .wait →
        Names txnId table type result.txnids) := by
  rcases refines with ⟨owners, waiters, rep⟩
  have ownerCnt := rep.shape.ownerCnt
  have waiterCnt := rep.shape.waiterCnt
  rw [← rep.owning, List.length_map] at ownersFit
  rw [← rep.waiting, List.length_map] at waitersFit
  rw [lockGet, guard_bind locks, guard_bind (by omega),
    guard_bind (by omega), rep.conflict_eq]
  split
  · next busy =>
      exact getConflict_refines rep exclusive blocked isMode free (by omega)
        (by omega) busy
  · next granted =>
      exact getOwner_refines rep free (Bool.not_eq_true _ ▸ granted)

end Get

/-! ## Releasing a row -/

section Release

variable {lock : RowLock Addr Txn} {table removed : LockTable Txn} {txn : Txn}
  {ready : Txn → Bool} {fuel : Nat}

omit [DecidableEq Addr] [DecidableEq Txn] in
/-- A list of requests splits where its entries do. -/
theorem map_split {cells : List Addr} {front back : List (Request Txn)}
    {request : Request Txn}
    (isMap : cells.map lock.request = front ++ request :: back) :
    ∃ before en after, cells = before ++ en :: after ∧
      before.map lock.request = front ∧ lock.request en = request ∧
      after.map lock.request = back := by
  rcases List.map_eq_append_iff.1 isMap with ⟨before, rest, rfl, rfl, tail⟩
  rcases List.map_eq_cons_iff.1 tail with ⟨en, after, rfl, rfl, rfl⟩
  exact ⟨before, en, after, rfl, rfl, rfl, rfl⟩

theorem removeEntry_refines {owners waiters : List Addr}
    (rep : Represents lock table owners waiters)
    (ownersFit : owners.length ≤ fuel) (waitersFit : waiters.length ≤ fuel)
    (move : LockTable.RemoveMove table txn removed) :
    ∃ changed, removeEntry fuel txn lock = some changed ∧
      Refines changed removed := by
  cases move with
  | owner split mine others =>
    rcases map_split (rep.owning.trans split) with
      ⟨before, en, after, rfl, rfl, rfl, rfl⟩
    have walked := walkPrev_found
      (fun en => decide (lock.txn en = txn)) rep.shape.stack ownersFit
      (by simpa [RowLock.request] using others) (decide_eq_true mine) none
    rw [Option.or_none] at walked
    refine ⟨lock.removeOwner before.getLast? en, ?_, before ++ after,
      waiters, rep.shape.removeOwner, ?_, List.map_append, rep.waiting⟩
    · rw [removeEntry, walked]
    · have count := rep.shape.ownerCnt
      rw [List.length_append, List.length_cons] at count
      apply if_congr _ rfl rep.mode
      rw [← List.map_append, List.map_eq_nil_iff, ← List.length_eq_zero_iff,
        List.length_append]
      omega
  | waiter notOwner split mine others =>
    rcases map_split (rep.waiting.trans split) with
      ⟨before, en, after, rfl, rfl, rfl, rfl⟩
    have absent : ∀ cell ∈ owners, decide (lock.txn cell = txn) = false := by
      rw [← rep.owning] at notOwner
      simpa [RowLock.request] using notOwner
    rcases walkPrev_absent (fun en => decide (lock.txn en = txn))
      rep.shape.stack ownersFit absent none with ⟨last, walked⟩
    have found : (before ++ en :: after).find?
        (fun en => decide (lock.txn en = txn)) = some en := by
      apply List.find?_eq_some_iff_append.2
      refine ⟨decide_eq_true mine, before, after, rfl, ?_⟩
      simpa [RowLock.request] using others
    have searched := walk_linked (fun en => decide (lock.txn en = txn))
      rep.shape.list.forward waitersFit
    refine ⟨lock.removeWaiter en, ?_, owners, before ++ after,
      rep.shape.removeWaiter, rep.mode, rep.owning, List.map_append⟩
    rw [removeEntry, walked]
    simp only [searched, found]

omit [DecidableEq Txn] in
theorem promoteHead_refines {owners waiters : List Addr} {entry : Addr}
    (rep : Represents lock table owners (entry :: waiters)) :
    Represents (lock.promoteHead entry)
      ⟨lock.type entry, lock.request entry :: table.owners,
        waiters.map lock.request⟩
      (entry :: owners) waiters where
  shape := rep.shape.promoteHead
  mode := rfl
  owning := congrArg (lock.request entry :: ·) rep.owning
  waiting := rfl

theorem grantWaiters_refines {owners waiters : List Addr}
    (rep : Represents lock table owners waiters)
    (waitersFit : waiters.length ≤ fuel)
    (notReady : ∀ waiter ∈ table.waiters, ready waiter.txn = false)
    (distinct : (table.waiters.map Request.txn).Nodup) :
    ∃ changed, grantWaiters fuel lock ready = some (changed, fun txn =>
        decide (txn ∈ (LockTable.grantable table.lockType
          table.waiters).map Request.txn) || ready txn) ∧
      Refines changed (LockTable.promote table.lockType table.owners
        table.waiters) := by
  induction waiters generalizing lock table owners fuel ready with
  | nil =>
    have head : lock.waiters.head = none := rep.shape.list.head_eq
    have empty : table.waiters = [] := rep.waiting.symm
    refine ⟨lock, ?_, owners, [], ?_⟩
    · rw [grantWaiters, head, empty]
      rfl
    · rw [empty]
      exact ⟨rep.shape, rep.mode, rep.owning, rfl⟩
  | cons entry waiters ih =>
    have head : lock.waiters.head = some entry := rep.shape.list.head_eq
    have isWaiting : table.waiters =
        lock.request entry :: waiters.map lock.request :=
      rep.waiting.symm
    rw [isWaiting] at notReady distinct ⊢
    rw [LockTable.promote, LockTable.grantable]
    change ∃ changed, _ = some (changed, fun txn => decide (txn ∈ List.map _
      (if conflictLock _ (lock.type entry) = true then _ else _)) || _) ∧
      Refines changed (if conflictLock _ (lock.type entry) = true then _
        else _)
    cases conflicts : conflictLock table.lockType (lock.type entry) with
    | true =>
      refine ⟨lock, ?_, owners, entry :: waiters, ?_⟩
      · simp [grantWaiters, head, rep.mode, conflicts]
      · exact ⟨rep.shape, rep.mode, rep.owning, rfl⟩
    | false =>
      have isFalse := notReady (lock.request entry) (.head _)
      have apart := List.nodup_cons.1 distinct
      cases fuel with
      | zero => simp at waitersFit
      | succ fuel =>
        have stillFalse : ∀ waiter ∈ waiters.map lock.request,
            update ready (lock.txn entry) true waiter.txn =
              false := by
          intro waiter mem
          rw [update_of_ne]
          · exact notReady waiter (.tail _ mem)
          · intro same
            apply apart.1
            have isTxn : (lock.request entry).txn = waiter.txn :=
              same.symm
            rw [isTxn]
            exact List.mem_map_of_mem mem
        rcases ih (promoteHead_refines rep) (by simpa using waitersFit)
          stillFalse apart.2 with ⟨changed, granted, refines⟩
        refine ⟨changed, ?_, refines⟩
        rw [grantWaiters, head]
        simp only [rep.mode, conflicts, Bool.false_eq_true, if_false]
        have asserted : ready (lock.txn entry) = false := isFalse
        rw [guard_bind asserted, granted]
        congr 2
        funext other
        by_cases isEntry : other = lock.txn entry
        · subst isEntry
          simp [RowLock.request]
        · rw [update_of_ne isEntry]
          simp [RowLock.request, isEntry]

/-- `lock_release` leaves what the table says, and no assertion fails. -/
theorem lockRelease_refines (refines : Refines lock table)
    (exclusive : table.Exclusive) (mem : txn ∈ table.txns)
    (distinct : table.txns.Nodup)
    (notReady : ∀ waiter ∈ table.waiters, ready waiter.txn = false)
    (enough : table.txns.length ≤ fuel) :
    ∃ changed, lockRelease fuel txn lock ready = some (changed, fun other =>
        decide (other ∈ (table.granted txn).map Request.txn) || ready other) ∧
      Refines changed (table.release txn) := by
  rcases refines with ⟨owners, waiters, rep⟩
  have move := LockTable.remove_move mem
  have sublist := move.waiters_sublist
  have ownersLength : owners.length = table.owners.length := by
    rw [← rep.owning, List.length_map]
  have waitersLength : waiters.length = table.waiters.length := by
    rw [← rep.waiting, List.length_map]
  rw [LockTable.txns, List.length_map, List.length_append] at enough
  have ownersFit : owners.length ≤ fuel := by omega
  have waitersFit : waiters.length ≤ fuel := by omega
  rcases removeEntry_refines rep ownersFit waitersFit move with
    ⟨without, removed, remaining, queue, repRemoved⟩
  have queueFits : queue.length ≤ fuel := by
    have fewer := sublist.length_le
    rw [← repRemoved.waiting, List.length_map] at fewer
    omega
  have queueDistinct : ((table.remove txn).waiters.map Request.txn).Nodup := by
    rw [LockTable.txns, List.map_append] at distinct
    exact (List.nodup_append.1 distinct).2.1.sublist (sublist.map _)
  rcases grantWaiters_refines repRemoved queueFits
      (fun waiter isWaiter => notReady waiter (sublist.subset isWaiter))
      queueDistinct with
    ⟨changed, granted, finalOwners, finalWaiters, repGranted⟩
  refine ⟨changed, ?_, finalOwners, finalWaiters, repGranted⟩
  have freeMode : without.ownerCnt = 0 → without.lockType = .none := by
    intro isZero
    rw [repRemoved.shape.ownerCnt, List.length_eq_zero_iff] at isZero
    rw [repRemoved.mode]
    apply (exclusive.remove move).free.1
    rw [← repRemoved.owning, isZero, List.map_nil]
  have counted : changed.owners = none ↔ changed.ownerCnt = 0 := by
    rw [linked_start repGranted.shape.stack, repGranted.shape.ownerCnt,
      List.head?_eq_none_iff, List.length_eq_zero_iff]
  rw [lockRelease, removed, Option.bind_eq_bind, Option.bind_some,
    guard_bind freeMode, granted, Option.bind_eq_bind, Option.bind_some,
    guard_bind counted]
  rfl

end Release

end Lockfreec.Bench
