import Lockfreec.Bench.RowLockRefines
import Lockfreec.Lib.Interleaving
import Mathlib.Data.Finset.Card
import Mathlib.Data.Fintype.Powerset

/-!
# The lock manager of a row keeps its invariant

`RowInv` collects what holds of a row's lock between two latched calls: the
lists hold a table of requests whose owners are compatible, whose head waiter
is blocked, and whose waiters are not ready.  `lock_get` and `lock_release`
keep it and return with every assertion satisfied.  The machine at the end of
the module lets transactions call the two functions in any order.
-/

namespace Lockfreec.Bench

open Function Lib.Chain Lib.DoublyLinked Lib.Interleaving

variable {Addr Txn : Type} [DecidableEq Addr] [DecidableEq Txn]

/-! ## One call -/

/-- The lock between two calls; `inside` are the transactions that own or
await the row. -/
structure RowInv (lock : RowLock Addr Txn) (ready : Txn → Bool)
    (inside : Txn → Prop) (table : LockTable Txn) : Prop where
  refines : Refines lock table
  exclusive : table.Exclusive
  blocked : table.Blocked
  distinct : table.txns.Nodup
  members : ∀ txn, txn ∈ table.txns ↔ inside txn
  notReady : ∀ waiter ∈ table.waiters, ready waiter.txn = false

namespace LockTable

variable {alg : CcAlg} {ts : Txn → Nat} {table : LockTable Txn}
  {request : Request Txn} {answer : Rc × LockTable Txn} {txn : Txn}

section

variable (move : GetMove alg ts table request answer)

include move

omit [DecidableEq Txn]

theorem GetMove.waiters : ∀ waiter ∈ answer.2.waiters, waiter ∈ table.waiters ∨
      waiter = request ∧ answer.1 = .wait := by
  intro waiter mem
  cases move with
  | granted | refused => exact .inl mem
  | queued isDlDetect busy =>
    rcases List.mem_append.1 mem with mem | mem
    · exact .inl mem
    · exact .inr ⟨List.mem_singleton.1 mem, rfl⟩
  | inserted isWaitDie busy canwait =>
    rcases mem_insert.1 mem with rfl | mem
    · exact .inr ⟨rfl, rfl⟩
    · exact .inl mem

theorem GetMove.owners :
    ∀ owner ∈ answer.2.owners, owner ∈ table.owners ∨ owner = request := by
  intro owner mem
  cases move with
  | granted free => exact (List.mem_cons.1 mem).symm
  | refused | queued | inserted => exact .inl mem

theorem GetMove.keeps :
    table.owners ⊆ answer.2.owners ∧ table.waiters ⊆ answer.2.waiters := by
  cases move with
  | granted free => exact ⟨List.subset_cons_self .., List.Subset.refl _⟩
  | refused busy => exact ⟨List.Subset.refl _, List.Subset.refl _⟩
  | queued isDlDetect busy =>
    exact ⟨List.Subset.refl _, List.subset_append_left ..⟩
  | inserted isWaitDie busy canwait =>
    exact ⟨List.Subset.refl _, fun other mem =>
      mem_insert.2 (.inr mem)⟩

theorem GetMove.answers : answer.1 = .rcok ∧ request ∈ answer.2.owners ∨
      answer.1 = .wait ∧ request ∈ answer.2.waiters ∨
      answer.1 = .abort := by
  cases move with
  | granted free => exact .inl ⟨rfl, (.head _)⟩
  | refused busy => exact .inr (.inr rfl)
  | queued isDlDetect busy => exact .inr (.inl ⟨rfl, by simp⟩)
  | inserted isWaitDie busy canwait =>
    exact .inr (.inl ⟨rfl, mem_insert.2 (.inl rfl)⟩)

end

section

omit [DecidableEq Txn]

theorem RemoveMove.keeps {removed : LockTable Txn}
    (move : RemoveMove table txn removed) {other : Request Txn}
    (ne : other.txn ≠ txn) :
    (other ∈ table.owners → other ∈ removed.owners) ∧
      (other ∈ table.waiters → other ∈ removed.waiters) := by
  have kept : ∀ {front back : List (Request Txn)} {mine : Request Txn},
      mine.txn = txn → other ∈ front ++ mine :: back →
        other ∈ front ++ back := by
    intro front back mine isTxn mem
    rcases List.mem_cons.1 (List.perm_middle.mem_iff.1 mem) with
      rfl | mem
    · exact absurd isTxn ne
    · exact mem
  cases move with
  | owner split mine others =>
    refine ⟨fun mem => ?_, id⟩
    rw [split] at mem
    exact kept mine mem
  | waiter owners split mine others =>
    refine ⟨id, fun mem => ?_⟩
    rw [split] at mem
    exact kept mine mem

theorem RemoveMove.owners_sublist {removed : LockTable Txn}
    (move : RemoveMove table txn removed) :
    removed.owners.Sublist table.owners := by
  cases move with
  | @owner front back request split mine others =>
    rw [split]
    exact (List.sublist_cons_self request back).append_left front
  | waiter owners split mine others => exact List.Sublist.refl _

theorem owner_not_waiter (distinct : table.txns.Nodup)
    (isOwner : txn ∈ table.owners.map Request.txn)
    (isWaiter : txn ∈ table.waiters.map Request.txn) : False := by
  rw [txns, List.map_append] at distinct
  exact (List.nodup_append.1 distinct).2.2 txn isOwner txn isWaiter rfl

end

theorem release_owners : (table.release txn).owners =
    (table.granted txn).reverse ++ (table.remove txn).owners :=
  promote_owners

theorem release_waiters : table.granted txn ++ (table.release txn).waiters =
      (table.remove txn).waiters :=
  promote_waiters

/-- What a release does to the requests of other transactions. -/
theorem release_keeps (mem : txn ∈ table.txns) {other : Request Txn}
    (ne : other.txn ≠ txn) :
    (other ∈ table.owners → other ∈ (table.release txn).owners) ∧
      (other ∈ table.waiters → other ∈ (table.release txn).waiters ∨
          other ∈ (table.release txn).owners ∧ other ∈ table.granted txn) := by
  have kept := (remove_move mem).keeps ne
  rw [release_owners]
  constructor
  · exact fun isOwner => List.mem_append_right _ (kept.1 isOwner)
  · intro isWaiter
    have stays := kept.2 isWaiter
    rw [← release_waiters] at stays
    rcases List.mem_append.1 stays with isGranted | stays
    · exact .inr ⟨List.mem_append_left _ (List.mem_reverse.2 isGranted),
        isGranted⟩
    · exact .inl stays

theorem release_perm : (table.release txn).txns.Perm (table.remove txn).txns :=
  promote_perm.map _

omit [DecidableEq Txn] in
theorem mem_txns {request : Request Txn} :
    (request ∈ table.owners ∨ request ∈ table.waiters) →
      request.txn ∈ table.txns :=
  fun mem => List.mem_map_of_mem (List.mem_append.2 mem)

/-- A row's transactions are no more than those that are active. -/
theorem txns_length_le {active : Finset Txn} (distinct : table.txns.Nodup)
    (within : ∀ txn ∈ table.txns, txn ∈ active) :
    table.owners.length + table.waiters.length ≤ active.card := by
  have count : table.owners.length + table.waiters.length =
      table.txns.toFinset.card := by
    rw [List.toFinset_card_of_nodup distinct, txns, List.length_map,
      List.length_append]
  rw [count]
  apply Finset.card_le_card
  intro txn mem
  exact within txn (List.mem_toFinset.1 mem)

end LockTable

namespace RowInv

omit [DecidableEq Addr] [DecidableEq Txn] in
theorem congr {lock : RowLock Addr Txn} {ready : Txn → Bool}
    {inside changed : Txn → Prop} {table : LockTable Txn}
    (inv : RowInv lock ready inside table)
    (same : ∀ txn, inside txn ↔ changed txn) :
    RowInv lock ready changed table :=
  { inv with members := fun txn => (inv.members txn).trans (same txn) }

variable {lock : RowLock Addr Txn} {ready : Txn → Bool} {inside : Txn → Prop}
  {table : LockTable Txn} {alg : CcAlg} {threadCnt fuel : Nat} {type : LockType}
  {txn : Txn} {entry : Addr} {active : Finset Txn}

theorem get (ts txnId : Txn → Nat) (inv : RowInv lock ready inside table)
    (locks : alg.locks) (isMode : type ≠ .none)
    (free : lock.allocated entry = false) (outside : ¬ inside txn)
    (few : active.card ≤ threadCnt) (isActive : txn ∈ active)
    (within : ∀ other, inside other → other ∈ active)
    (enough : threadCnt ≤ fuel) :
    ∃ result, lockGet alg threadCnt fuel ts txnId type txn entry lock ready =
        some result ∧
      result.rc = (table.get alg ts ⟨txn, type⟩).1 ∧
      (alg = .dlDetect → result.rc = .wait →
        Names txnId table type result.txnids) ∧
      result.ready = (if result.rc = .wait
        then update ready txn false else ready) ∧
      RowInv result.lock result.ready
        (fun other => inside other ∨ other = txn ∧ result.rc ≠ .abort)
        (table.get alg ts ⟨txn, type⟩).2 := by
  have move : LockTable.GetMove alg ts table ⟨txn, type⟩
      (table.get alg ts ⟨txn, type⟩) :=
    LockTable.get_move
  have absent : txn ∉ table.txns := fun mem =>
    outside ((inv.members txn).1 mem)
  have fits : table.owners.length + table.waiters.length <
      active.card := by
    have count : table.owners.length + table.waiters.length ≤
        (active.erase txn).card := by
      apply LockTable.txns_length_le inv.distinct
      intro other mem
      apply Finset.mem_erase.2
      exact ⟨ne_of_mem_of_not_mem mem absent,
        within other ((inv.members other).1 mem)⟩
    exact count.trans_lt (Finset.card_erase_lt_of_mem isActive)
  rcases lockGet_refines inv.refines inv.exclusive inv.blocked locks isMode
      free (by omega) (by omega) enough with
    ⟨result, answered, answers, named⟩
  refine ⟨result, answered, answers.rc, named, ?_, ?_⟩
  · rw [answers.ready, answers.rc]
  constructor
  · exact answers.lock
  · exact inv.exclusive.get isMode move
  · exact inv.blocked.get isMode move
  · rcases move.perm with ⟨-, same⟩ | ⟨-, added⟩
    · rw [same]
      exact inv.distinct
    · exact added.nodup_iff.2 (List.nodup_cons.2 ⟨absent, inv.distinct⟩)
  · intro other
    rw [answers.rc]
    rcases move.perm with ⟨isAbort, same⟩ | ⟨notAbort, added⟩
    · rw [same, inv.members]
      simp [isAbort]
    · rw [added.mem_iff, List.mem_cons, inv.members]
      simp only [ne_eq, notAbort, not_false_eq_true, and_true]
      exact or_comm
  · intro waiter mem
    rw [answers.ready]
    rcases move.waiters waiter mem with mem | ⟨rfl, isWait⟩
    · have ne : waiter.txn ≠ txn :=
        ne_of_mem_of_not_mem (LockTable.mem_txns (.inr mem)) absent
      split
      · rw [update_of_ne ne]
        exact inv.notReady waiter mem
      · exact inv.notReady waiter mem
    · rw [if_pos isWait, update_self]

theorem release (inv : RowInv lock ready inside table) (isInside : inside txn)
    (few : active.card ≤ fuel)
    (within : ∀ other, inside other → other ∈ active) :
    ∃ changed, lockRelease fuel txn lock ready = some (changed, fun other =>
        decide (other ∈ (table.granted txn).map Request.txn) || ready other) ∧
      RowInv changed (fun other =>
        decide (other ∈ (table.granted txn).map Request.txn) || ready other)
        (fun other => inside other ∧ other ≠ txn) (table.release txn) := by
  have mem : txn ∈ table.txns := (inv.members txn).2 isInside
  have move := LockTable.remove_move mem
  have fits : table.txns.length ≤ fuel := by
    have count := LockTable.txns_length_le inv.distinct fun other isMember =>
      within other ((inv.members other).1 isMember)
    rw [LockTable.txns, List.length_map, List.length_append]
    omega
  have removed : (txn :: (table.remove txn).txns).Nodup :=
    move.perm.nodup_iff.1 inv.distinct
  have distinct : (table.release txn).txns.Nodup :=
    LockTable.release_perm.nodup_iff.2 (List.nodup_cons.1 removed).2
  rcases lockRelease_refines inv.refines inv.exclusive mem inv.distinct
      inv.notReady fits with ⟨changed, released, refines⟩
  refine ⟨changed, released, ?_⟩
  constructor
  · exact refines
  · exact (inv.exclusive.remove move).promote
  · exact LockTable.promote_blocked
  · exact distinct
  · intro other
    rw [LockTable.release_perm.mem_iff, ← inv.members, move.perm.mem_iff,
      List.mem_cons]
    constructor
    · intro isMember
      exact ⟨.inr isMember,
        ne_of_mem_of_not_mem isMember (List.nodup_cons.1 removed).1⟩
    · rintro ⟨isTxn | isMember, ne⟩
      · exact absurd isTxn ne
      · exact isMember
  · intro waiter isWaiter
    have split : table.granted txn ++ (table.release txn).waiters =
        (table.remove txn).waiters :=
      LockTable.release_waiters
    have was : waiter ∈ (table.remove txn).waiters := by
      rw [← split]
      exact List.mem_append_right _ isWaiter
    have notGranted : waiter.txn ∉ (table.granted txn).map Request.txn := by
      have queue := (List.nodup_cons.1 removed).2
      rw [LockTable.txns, List.map_append, ← split, List.map_append] at queue
      have apart := (List.nodup_append.1 queue).2.1
      intro isGranted
      exact (List.nodup_append.1 apart).2.2 waiter.txn isGranted waiter.txn
        (List.mem_map_of_mem isWaiter) rfl
    rw [decide_eq_false notGranted, Bool.false_or]
    exact inv.notReady waiter (move.waiters_sublist.subset was)

end RowInv

/-! ## The transactions in the lists in memory -/

/-- The transaction has an entry in the owners' stack. -/
def Owns (lock : RowLock Addr Txn) (txn : Txn) : Prop :=
  ∃ cells, Linked lock.waiters.next lock.owners cells ∧
    ∃ cell ∈ cells, lock.txn cell = txn

/-- The transaction has an entry in the waiters' list. -/
def Waits (lock : RowLock Addr Txn) (txn : Txn) : Prop :=
  ∃ cells, Linked lock.waiters.next lock.waiters.head cells ∧
    ∃ cell ∈ cells, lock.txn cell = txn

section Lists

variable {lock : RowLock Addr Txn} {table : LockTable Txn} {txn : Txn}

omit [DecidableEq Addr] [DecidableEq Txn]

theorem listed_iff {start : Option Addr} {cells : List Addr}
    (linked : Linked lock.waiters.next start cells) :
    (∃ cells, Linked lock.waiters.next start cells ∧
        ∃ cell ∈ cells, lock.txn cell = txn) ↔
      txn ∈ (cells.map lock.request).map Request.txn := by
  rw [List.map_map, List.mem_map]
  constructor
  · rintro ⟨others, isLinked, mem⟩
    rwa [isLinked.unique linked] at mem
  · exact fun mem => ⟨cells, linked, mem⟩

theorem Refines.owns_iff (refines : Refines lock table) :
    Owns lock txn ↔ txn ∈ table.owners.map Request.txn := by
  rcases refines with ⟨owners, waiters, rep⟩
  rw [← rep.owning]
  exact listed_iff rep.shape.stack

theorem Refines.waits_iff (refines : Refines lock table) :
    Waits lock txn ↔ txn ∈ table.waiters.map Request.txn := by
  rcases refines with ⟨owners, waiters, rep⟩
  rw [← rep.waiting]
  exact listed_iff rep.shape.list.forward

end Lists

/-! ## Sequences of calls -/

/-- A row's lock and `lock_ready` of every transaction. -/
structure RowState (Addr Txn : Type) where
  lock : RowLock Addr Txn
  ready : Txn → Bool

/-- The calls of a transaction, with the entry that the allocator gives. -/
inductive RowAction (Addr : Type) where
  | get (type : LockType) (entry : Addr)
  | release
deriving DecidableEq, Repr

/-- Latched calls.  The local state of a transaction says whether it owns or
awaits the row, and the events are the answers. -/
def rowMachine (alg : CcAlg) (threadCnt fuel : Nat) (ts txnId : Txn → Nat) :
    Machine Txn (RowAction Addr) (RowState Addr Txn) Bool (Txn × Rc) where
  step
    | txn, .get type entry, state, _ =>
      (lockGet alg threadCnt fuel ts txnId type txn entry state.lock
        state.ready).map fun result =>
          ⟨⟨result.lock, result.ready⟩, decide (result.rc ≠ .abort),
            [(txn, result.rc)]⟩
    | txn, .release, state, _ =>
      (lockRelease fuel txn state.lock state.ready).map fun result =>
        ⟨⟨result.1, result.2⟩, false, [(txn, .rcok)]⟩

/--
The calls that are admitted: at most `threadCnt` transactions are active, the
caller and those that own or await the row among them; a transaction requests
the row only when it neither owns nor awaits it, and releases it only when it
does.
-/
def admitted (threadCnt : Nat) :
    Guard Txn (RowAction Addr) (RowState Addr Txn) Bool :=
  fun config txn action =>
    (∃ active : Finset Txn, active.card ≤ threadCnt ∧ txn ∈ active ∧
      ∀ other, config.threads other = true → other ∈ active) ∧
    match action with
    | .get type entry => config.threads txn = false ∧ type ≠ .none ∧
        config.shared.lock.allocated entry = false
    | .release => config.threads txn = true

instance [Fintype Txn] (threadCnt : Nat)
    (config : Config Txn (RowState Addr Txn) Bool) (txn : Txn)
    (action : RowAction Addr) :
    Decidable (admitted threadCnt config txn action) :=
  match action with
  | .get _ _ => inferInstanceAs (Decidable (_ ∧ _ ∧ _ ∧ _))
  | .release => inferInstanceAs (Decidable (_ ∧ _))

/-- A new row, with the links and entries that the memory happens to hold. -/
def rowStart (links : DList Addr) (type : Addr → LockType) (txn : Addr → Txn)
    (ready : Txn → Bool) :
    Config Txn (RowState Addr Txn) Bool where
  shared := ⟨RowLock.init links type txn, ready⟩
  threads := fun _ => false

/-- What the lock manager promises about the lists in memory. -/
structure RowOk (alg : CcAlg) (ts : Txn → Nat) (state : RowState Addr Txn)
    (owners waiters : List Addr) : Prop where
  stack : Linked state.lock.waiters.next state.lock.owners owners
  list : IsList state.lock.waiters waiters
  ownerCnt : state.lock.ownerCnt = owners.length
  waiterCnt : state.lock.waiterCnt = waiters.length
  distinct : ((owners ++ waiters).map state.lock.txn).Nodup
  compatible : (∃ owner, owners = [owner] ∧ state.lock.type owner = .ex) ∨
    ∀ owner ∈ owners, state.lock.type owner = .sh
  lockType : state.lock.lockType =
    ((owners.head?.map state.lock.type).getD .none)
  blocked : ∀ head ∈ waiters.head?,
    conflictLock state.lock.lockType (state.lock.type head)
  notReady : ∀ waiter ∈ waiters, state.ready (state.lock.txn waiter) = false
  ordered : alg = .waitDie → waiters.Pairwise fun before after =>
    ts (state.lock.txn after) < ts (state.lock.txn before)
  older : alg = .waitDie → ∀ waiter ∈ waiters, ∀ owner ∈ owners,
    ts (state.lock.txn waiter) < ts (state.lock.txn owner)

/-- The lock holds the requests of the table, which are those of the
transactions that own or await the row. -/
def RowTable (config : Config Txn (RowState Addr Txn) Bool)
    (table : LockTable Txn) : Prop :=
  RowInv config.shared.lock config.shared.ready
    (fun txn => config.threads txn = true) table

section Machine

variable {alg : CcAlg} {threadCnt fuel : Nat} {ts txnId : Txn → Nat}
  {config : Config Txn (RowState Addr Txn) Bool} {table : LockTable Txn}

omit [DecidableEq Addr] [DecidableEq Txn] in
/-- The lists of a table that refines the lock are as promised. -/
theorem RowTable.ok (inv : RowTable config table)
    (ordered : alg = .waitDie → table.Ordered ts) :
    ∃ owners waiters, RowOk alg ts config.shared owners waiters := by
  rcases inv.refines with ⟨owners, waiters, rep⟩
  have types : ∀ owner ∈ owners,
      config.shared.lock.type owner = config.shared.lock.lockType := by
    intro owner mem
    rw [rep.mode]
    apply inv.exclusive.same (config.shared.lock.request owner)
    rw [← rep.owning]
    exact List.mem_map_of_mem mem
  have free : owners = [] ↔ config.shared.lock.lockType = .none := by
    rw [rep.mode, ← inv.exclusive.free, ← rep.owning, List.map_eq_nil_iff]
  refine ⟨owners, waiters, rep.shape.stack, rep.shape.list,
    rep.shape.ownerCnt, rep.shape.waiterCnt, ?_, ?_, ?_, ?_, ?_, ?_, ?_⟩
  · have distinct := inv.distinct
    rw [LockTable.txns, ← rep.owning, ← rep.waiting, ← List.map_append,
      List.map_map] at distinct
    exact distinct
  · cases mode : config.shared.lock.lockType with
    | ex =>
      left
      have few := inv.exclusive.alone (rep.mode.symm.trans mode)
      rw [← rep.owning, List.length_map] at few
      have busy : owners ≠ [] := by
        rw [ne_eq, free, mode]
        simp
      rcases List.exists_cons_of_ne_nil busy with ⟨owner, rest, rfl⟩
      have alone : rest = [] := by simpa using few
      subst alone
      exact ⟨owner, rfl, (types owner (.head _)).trans mode⟩
    | sh =>
      right
      exact fun owner mem => (types owner mem).trans mode
    | none =>
      right
      rw [free.2 mode]
      simp
  · cases owners with
    | nil => exact free.1 rfl
    | cons owner rest => exact (types owner (.head _)).symm
  · intro head isHead
    have conflicts := inv.blocked (config.shared.lock.request head)
    rw [← rep.waiting, List.head?_map, Option.mem_def.1 isHead] at conflicts
    rw [rep.mode]
    exact conflicts rfl
  · intro waiter mem
    apply inv.notReady (config.shared.lock.request waiter)
    rw [← rep.waiting]
    exact List.mem_map_of_mem mem
  · intro isWaitDie
    have sorted := (ordered isWaitDie).waiters
    rwa [← rep.waiting, List.pairwise_map] at sorted
  · intro isWaitDie waiter isWaiter owner isOwner
    have older := (ordered isWaitDie).owners
    rw [← rep.waiting, ← rep.owning] at older
    exact older _ (List.mem_map_of_mem isWaiter) _ (List.mem_map_of_mem isOwner)

/-- The transactions whose `lock_ready` turns true are those that turn from
waiters to owners. -/
def ReadyExactly (before after : RowState Addr Txn) : Prop :=
  ∀ txn, before.ready txn = false ∧ after.ready txn = true ↔
    Waits before.lock txn ∧ Owns after.lock txn

omit [DecidableEq Addr] in
theorem readyExactly_get {request : Request Txn}
    {before after : RowState Addr Txn} {answer : Rc × LockTable Txn}
    (distinct : table.txns.Nodup) (absent : request.txn ∉ table.txns)
    (refinesBefore : Refines before.lock table)
    (refinesAfter : Refines after.lock answer.2)
    (move : LockTable.GetMove alg ts table request answer)
    (ready : after.ready = if answer.1 = .wait
      then update before.ready request.txn false
      else before.ready) : ReadyExactly before after := by
  intro txn
  rw [refinesBefore.waits_iff, refinesAfter.owns_iff]
  constructor
  · rintro ⟨isFalse, isTrue⟩
    rw [ready] at isTrue
    split at isTrue
    · by_cases isRequest : txn = request.txn
      · subst isRequest
        simp at isTrue
      · rw [update_of_ne isRequest, isFalse] at isTrue
        cases isTrue
    · rw [isFalse] at isTrue
      cases isTrue
  · rintro ⟨waits, owns⟩
    exfalso
    rcases List.mem_map.1 owns with ⟨owner, isOwner, rfl⟩
    rcases move.owners owner isOwner with isOwner | rfl
    · exact LockTable.owner_not_waiter distinct
        (List.mem_map_of_mem isOwner) waits
    · rcases List.mem_map.1 waits with ⟨waiter, isWaiter, same⟩
      rw [← same] at absent
      exact absent (LockTable.mem_txns (.inr isWaiter))

omit [DecidableEq Addr] in
theorem readyExactly_release {txn : Txn}
    {before after : RowState Addr Txn} (distinct : table.txns.Nodup)
    (notReady : ∀ waiter ∈ table.waiters, before.ready waiter.txn = false)
    (mem : txn ∈ table.txns) (refinesBefore : Refines before.lock table)
    (refinesAfter : Refines after.lock (table.release txn))
    (ready : after.ready = fun other =>
      decide (other ∈ (table.granted txn).map Request.txn) ||
        before.ready other) : ReadyExactly before after := by
  have move := LockTable.remove_move mem
  intro other
  rw [refinesBefore.waits_iff, refinesAfter.owns_iff, ready,
    LockTable.release_owners, List.map_append, List.mem_append,
    List.map_reverse, List.mem_reverse]
  constructor
  · rintro ⟨isFalse, isTrue⟩
    have isGranted : other ∈ (table.granted txn).map Request.txn := by
      simpa [isFalse] using isTrue
    refine ⟨?_, .inl isGranted⟩
    rcases List.mem_map.1 isGranted with ⟨waiter, inGranted, rfl⟩
    apply List.mem_map_of_mem
    apply move.waiters_sublist.subset
    rw [← LockTable.release_waiters]
    exact List.mem_append_left _ inGranted
  · rintro ⟨waits, isGranted | owns⟩
    · rcases List.mem_map.1 waits with ⟨waiter, isWaiter, rfl⟩
      exact ⟨notReady waiter isWaiter, by simp [isGranted]⟩
    · exfalso
      exact LockTable.owner_not_waiter distinct
        ((move.owners_sublist.map Request.txn).subset owns) waits

/-- An admitted request returns, and it keeps the invariant. -/
theorem RowTable.get {txn : Txn} {type : LockType} {entry : Addr}
    (inv : RowTable config table) (locks : alg.locks)
    (enough : threadCnt ≤ fuel)
    (admits : admitted threadCnt config txn (.get type entry)) :
    ∃ result, lockGet alg threadCnt fuel ts txnId type txn entry
        config.shared.lock config.shared.ready = some result ∧
      result.rc = (table.get alg ts ⟨txn, type⟩).1 ∧
      (alg = .dlDetect → result.rc = .wait →
        Names txnId table type result.txnids) ∧
      RowTable (config.advance txn ⟨⟨result.lock, result.ready⟩,
        decide (result.rc ≠ .abort), [(txn, result.rc)]⟩)
        (table.get alg ts ⟨txn, type⟩).2 ∧
      ReadyExactly config.shared ⟨result.lock, result.ready⟩ := by
  rcases admits with ⟨⟨active, few, isActive, within⟩, outside, isMode, free⟩
  have isOutside : ¬ config.threads txn = true := by simp [outside]
  rcases RowInv.get ts txnId inv locks isMode free isOutside few isActive within
    enough with
    ⟨result, answered, rc, named, ready, kept⟩
  refine ⟨result, answered, rc, named, kept.congr ?_, ?_⟩
  · intro other
    by_cases isTxn : other = txn
    · subst isTxn
      simp [Config.advance, isOutside]
    · simp [Config.advance, isTxn]
  · apply readyExactly_get inv.distinct
      (fun mem => isOutside ((inv.members txn).1 mem)) inv.refines kept.refines
      LockTable.get_move
    rw [← rc]
    exact ready

/-- An admitted release returns, and it keeps the invariant. -/
theorem RowTable.release {txn : Txn} (inv : RowTable config table)
    (enough : threadCnt ≤ fuel)
    (admits : admitted threadCnt config txn .release) :
    ∃ outcome, (rowMachine alg threadCnt fuel ts txnId).step txn .release
        config.shared (config.threads txn) = some outcome ∧
      RowTable (config.advance txn outcome) (table.release txn) ∧
      ReadyExactly config.shared outcome.shared := by
  rcases admits with ⟨⟨active, few, isActive, within⟩, isInside⟩
  rcases RowInv.release inv isInside (few.trans enough) within with
    ⟨changed, released, kept⟩
  refine ⟨_, congrArg (Option.map _) released, kept.congr ?_, ?_⟩
  · intro other
    by_cases isTxn : other = txn
    · subst isTxn
      simp [Config.advance]
    · simp [Config.advance, isTxn]
  · exact readyExactly_release inv.distinct inv.notReady
      ((inv.members txn).2 isInside) inv.refines kept.refines rfl

omit [DecidableEq Addr] [DecidableEq Txn] in
theorem RowTable.start (links : DList Addr) (type : Addr → LockType)
    (txn : Addr → Txn) (ready : Txn → Bool) :
    RowTable (rowStart links type txn ready) ⟨.none, [], []⟩ := by
  refine ⟨⟨[], [], ?_⟩, ?_, ?_, ?_, ?_, ?_⟩
  · exact ⟨⟨rfl, ⟨rfl, rfl⟩, by simp, by simp, rfl, rfl⟩, rfl, rfl, rfl⟩
  · exact ⟨by simp, by simp, by simp, by simp⟩
  · rintro head ⟨⟩
  · exact List.nodup_nil
  · intro txn
    simp [LockTable.txns, rowStart]
  · simp

/-- What every call keeps of the table holds after every run of calls. -/
theorem RowTable.run {may : Txn → Prop} {holds : LockTable Txn → Prop}
    {history : List (Txn × Rc)} {start : Config Txn (RowState Addr Txn) Bool}
    {first : LockTable Txn}
    (run : (rowMachine alg threadCnt fuel ts txnId).RunWhere
      (fun config txn action => admitted threadCnt config txn action ∧ may txn)
      start history config) (locks : alg.locks) (enough : threadCnt ≤ fuel)
    (get : ∀ table txn type, may txn → txn ∉ table.txns → holds table →
      holds (table.get alg ts ⟨txn, type⟩).2)
    (release : ∀ table txn, may txn → txn ∈ table.txns → holds table →
      holds (table.release txn))
    (inv : RowTable start first) (initial : holds first) :
    ∃ table, RowTable config table ∧ holds table := by
  apply run.invariant fun _ config =>
    ∃ table, RowTable config table ∧ holds table
  · exact ⟨first, inv, initial⟩
  · rintro history config txn action outcome ⟨table, inv, kept⟩
      ⟨admits, isMay⟩ stepped
    cases action with
    | get type entry =>
      rcases inv.get locks enough admits with ⟨result, returned, -, -, after, -⟩
      have same := (congrArg (Option.map _) returned).symm.trans stepped
      cases same
      refine ⟨_, after, get table txn type isMay ?_ kept⟩
      rw [inv.members, admits.2.1]
      exact Bool.false_ne_true
    | release =>
      rcases inv.release enough admits with ⟨_, same, after, -⟩
      rw [stepped] at same
      cases same
      exact ⟨_, after, release table txn isMay
        ((inv.members txn).2 admits.2) kept⟩

end Machine

/--
In every sequence of admitted calls on a row, under each of the three locking
policies, the lists stay as promised, and every admitted call returns with
`lock_ready` turning true exactly for the waiters that it turns into owners.
-/
theorem row_lock_invariant {alg : CcAlg} {threadCnt fuel : Nat}
    {ts txnId : Txn → Nat} (locks : alg.locks) (enough : threadCnt ≤ fuel)
    (distinct : alg = .waitDie → Injective ts) {links : DList Addr}
    {type : Addr → LockType} {txn : Addr → Txn} {ready : Txn → Bool}
    {history : List (Txn × Rc)} {config : Config Txn (RowState Addr Txn) Bool}
    (run : (rowMachine alg threadCnt fuel ts txnId).RunWhere
      (admitted threadCnt) (rowStart links type txn ready) history config) :
    (∃ owners waiters, RowOk alg ts config.shared owners waiters) ∧
      ∀ caller action, admitted threadCnt config caller action →
        ∃ outcome, (rowMachine alg threadCnt fuel ts txnId).step caller
            action config.shared (config.threads caller) = some outcome ∧
          ReadyExactly config.shared outcome.shared := by
  have ordered : ∃ table, RowTable config table ∧
      (alg = .waitDie → table.Ordered ts) := by
    apply RowTable.run (run.mono fun _ _ _ admits => ⟨admits, trivial⟩)
      locks enough
    · rintro table txn type - absent ordered rfl
      have differs : ∀ other, (other ∈ table.owners ∨ other ∈ table.waiters) →
          ts txn ≠ ts other.txn := by
        intro other mem same
        rw [distinct rfl same] at absent
        exact absent (LockTable.mem_txns mem)
      apply (ordered rfl).get ⟨?_, ?_⟩ LockTable.get_move
      · exact fun waiter mem => differs waiter (.inr mem)
      · exact fun _ owner mem => differs owner (.inl mem)
    · intro table txn _ member ordered isWaitDie
      exact ((ordered isWaitDie).remove (LockTable.remove_move member)).promote
    · exact RowTable.start links type txn ready
    · exact fun _ => ⟨List.Pairwise.nil, by simp⟩
  rcases ordered with ⟨table, inv, ordered⟩
  refine ⟨inv.ok ordered, ?_⟩
  intro caller action admits
  cases action with
  | get type entry =>
    rcases inv.get locks enough admits with ⟨result, returned, -, -, -, exactly⟩
    exact ⟨_, congrArg (Option.map _) returned, exactly⟩
  | release =>
    rcases inv.release enough admits with ⟨outcome, stepped, -, exactly⟩
    exact ⟨outcome, stepped, exactly⟩

/-- A new row for two transactions. -/
def twoTxnRow : Config (Fin 2) (RowState Nat (Fin 2)) Bool :=
  rowStart ⟨fun _ => none, fun _ => none, none, none⟩ (fun _ => .none)
    (fun _ => 0) (fun _ => true)

/-- Under `WAIT_DIE` an older transaction waits for a younger owner and is
promoted by its release. -/
theorem row_lock_invariant_promotes :
    ∃ config, (rowMachine .waitDie 2 2 Fin.val Fin.val).RunWhere (admitted 2)
        twoTxnRow [(1, .rcok), (0, .wait), (1, .rcok)] config ∧
      config.shared.ready 0 = true ∧
      ∃ owners waiters,
        RowOk .waitDie Fin.val config.shared owners waiters := by
  have executed : ((rowMachine .waitDie 2 2 Fin.val Fin.val).executeWhere
      (admitted 2) twoTxnRow
      [(1, .get .ex 10), (0, .get .sh 20), (1, .release)]).map
        (fun result => (result.2, result.1.shared.ready 0)) =
      some ([(1, .rcok), (0, .wait), (1, .rcok)], true) := by
    decide +kernel
  rcases Option.map_eq_some_iff.1 executed with
    ⟨⟨config, history⟩, ran, same⟩
  simp only [Prod.mk.injEq] at same
  rcases same with ⟨rfl, isReady⟩
  have run := Machine.runWhere_of_execute ran
  exact ⟨config, run, isReady, (row_lock_invariant (by decide) le_rfl
    (fun _ => Fin.val_injective) run).1⟩

end Lockfreec.Bench
