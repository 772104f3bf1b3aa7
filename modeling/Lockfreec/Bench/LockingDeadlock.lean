import Lockfreec.Bench.LockingInvariant
import Lockfreec.Lib.Serializability

/-!
# Deadlocks under `WAIT_DIE`

A transaction waits for another one if it is in a row's waiter list and the
other one owns the row or is ahead of it in that list.  `WAIT_DIE` excludes a
cycle by timestamps: who waits is older than whom it waits for.  That order
is strict only if a request is never compared with an equal timestamp.

`thread_t::run` does not set timestamps under `WAIT_DIE`, so all transactions
keep the timestamp 0 with which `txn_man` is created.  Two transactions that
request two rows in opposite order then wait for each other forever.
-/

namespace Lockfreec.Bench

open Function Lib.Chain Lib.DoublyLinked Lib.Interleaving Lib.Serializability

variable {threadCnt : Nat} {Row Addr Data Write : Type}

/-- A transaction is ahead of another one in the waiter list. -/
def Ahead {Txn : Type} (lock : RowLock Addr Txn) (first second : Txn) :
    Prop :=
  ∃ front waiter back, Linked lock.waiters.next lock.waiters.head
      (front ++ waiter :: back) ∧
    lock.txn waiter = second ∧ ∃ en ∈ front, lock.txn en = first

/-- The first transaction waits for a row that the second one owns, or for
which the second one waits ahead of it. -/
def WaitsFor (db : Db threadCnt Row Addr Data)
    (first second : Fin threadCnt) : Prop :=
  ∃ row, Waits (db.locks row) first ∧ Owns (db.locks row) second ∨
    Ahead (db.locks row) second first

/-- A request is not compared with an equal timestamp: the requester's differs
from the timestamps of the row's waiters and, if the request conflicts with
the row's mode, from those of its owners. -/
def apartRequests : Guard (Fin threadCnt)
    (WorkerAction threadCnt Row Addr Write) (Db threadCnt Row Addr Data)
    (Worker Row Data) :=
  fun config tid action =>
    ∀ row type entry, action = .getRow row type entry →
      (∀ other, Waits (config.shared.locks row) other →
        config.shared.ts tid ≠ config.shared.ts other) ∧
      (conflictLock (config.shared.locks row).lockType type.lock →
        ∀ other, Owns (config.shared.locks row) other →
          config.shared.ts tid ≠ config.shared.ts other)

section Order

variable [DecidableEq Row] [DecidableEq Addr] {fuel : Nat}
  {apply : Write → Data → Data} {tid : Fin threadCnt}
  {db : Db threadCnt Row Addr Data} {worker : Worker Row Data}
  {tables : Tables threadCnt Row}

omit [DecidableEq Row] [DecidableEq Addr] in
/-- An ordered waiter list is ordered between any two of its waiters. -/
theorem ahead_older {Txn : Type} {lock : RowLock Addr Txn}
    {table : LockTable Txn} {ts : Txn → Nat} {first second : Txn}
    (refines : Refines lock table) (ordered : table.Ordered ts)
    (ahead : Ahead lock first second) : ts second < ts first := by
  rcases refines with ⟨owners, waiters, rep⟩
  rcases ahead with ⟨front, waiter, back, linked, rfl, en, mem, rfl⟩
  have same := linked.unique rep.shape.list.forward
  have sorted := ordered.waiters
  rw [← rep.waiting, ← same, List.map_append, List.pairwise_append] at sorted
  exact sorted.2.2 _ (List.mem_map_of_mem mem) _ (List.mem_map_of_mem (.head _))

omit [DecidableEq Row] [DecidableEq Addr] in
theorem WaitsFor.older {first second : Fin threadCnt}
    (refines : ∀ row, Refines (db.locks row) (tables row))
    (ordered : ∀ row, (tables row).Ordered db.ts)
    (waits : WaitsFor db first second) : db.ts first < db.ts second := by
  rcases waits with ⟨row, ⟨isWaiter, isOwner⟩ | ahead⟩
  · rw [(refines row).waits_iff] at isWaiter
    rw [(refines row).owns_iff] at isOwner
    rcases List.mem_map.1 isWaiter with ⟨waiter, inWaiters, rfl⟩
    rcases List.mem_map.1 isOwner with ⟨owner, inOwners, rfl⟩
    exact (ordered row).owners waiter inWaiters owner inOwners
  · exact ahead_older (refines row) (ordered row) ahead

/-- Under `WAIT_DIE` no timestamp is ever set. -/
theorem ts_unchanged {action : WorkerAction threadCnt Row Addr Write}
    {outcome : Outcome (Db threadCnt Row Addr Data) (Worker Row Data)
      (WorkerEvent threadCnt Row Write)}
    (move : WorkerMove .waitDie fuel apply tid db worker action outcome) :
    outcome.shared.ts = db.ts := by
  have released : ∀ {row : Row} {after : Db threadCnt Row Addr Data},
      db.lockRelease fuel tid row = some after → after.ts = db.ts := by
    intro row after released
    rcases Option.map_eq_some_iff.1 released with ⟨_, -, rfl⟩
    rfl
  cases move with
  | getRow here absent free got =>
    rcases Option.map_eq_some_iff.1 got with ⟨_, -, same⟩
    cases same
    rfl
  | giveUp here isReleased | release here first isReleased =>
    exact released isReleased
  | @restore rc access rest here first =>
    simp only [Db.restore]
    split
    · split <;> rfl
    · rfl
  | _ => rfl

/-- The invariant: every row's table is in the order of the timestamps. -/
def OrderHolds
    (config : Config (Fin threadCnt) (Db threadCnt Row Addr Data)
      (Worker Row Data)) : Prop :=
  ∃ tables : Tables threadCnt Row,
    LockingInv config.shared config.threads tables ∧
      ∀ row, (tables row).Ordered config.shared.ts

theorem OrderHolds.step
    {config : Config (Fin threadCnt) (Db threadCnt Row Addr Data)
      (Worker Row Data)}
    {action : WorkerAction threadCnt Row Addr Write}
    {outcome : Outcome (Db threadCnt Row Addr Data) (Worker Row Data)
      (WorkerEvent threadCnt Row Write)}
    (holds : OrderHolds config) (enough : threadCnt ≤ fuel)
    (apart : apartRequests config tid action)
    (move : WorkerMove .waitDie fuel apply tid config.shared
      (config.threads tid) action outcome) :
    OrderHolds (config.advance tid outcome) := by
  rcases holds with ⟨tables, inv, ordered⟩
  rcases inv.step (.inr (.inr rfl)) enough move with
    ⟨changed, tableStep, kept⟩
  refine ⟨changed, kept, ?_⟩
  intro which
  rw [Config.advance_shared, ts_unchanged move]
  cases tableStep with
  | same => exact ordered which
  | @get row type entry isGet =>
    by_cases isRow : which = row
    · subst isRow
      rw [update_self]
      apply (ordered which).get ?_ LockTable.get_move
      have refines := (inv.rows which).refines
      rcases apart which type entry isGet with ⟨waiters, owners⟩
      constructor
      · intro waiter mem
        apply waiters
        rw [refines.waits_iff]
        exact List.mem_map_of_mem mem
      · intro conflicts owner mem
        apply owners
        · rcases refines with ⟨_, _, rep⟩
          rw [rep.mode]
          exact conflicts
        · rw [refines.owns_iff]
          exact List.mem_map_of_mem mem
    · rw [update_of_ne isRow]
      exact ordered which
  | @release row mem =>
    by_cases isRow : which = row
    · subst isRow
      rw [update_self]
      exact ((ordered which).remove (LockTable.remove_move mem)).promote
    · rw [update_of_ne isRow]
      exact ordered which

/--
In every run of worker threads under `WAIT_DIE` in which no request is
compared with an equal timestamp, no transactions wait for each other in a
cycle.
-/
theorem wait_die_no_deadlock (enough : threadCnt ≤ fuel)
    {links : Row → DList Addr} {type : Addr → LockType}
    {txn : Addr → Fin threadCnt} {data : Row → Data}
    {flags : Fin threadCnt → Bool} {ts : Fin threadCnt → Nat}
    {history : List (WorkerEvent threadCnt Row Write)}
    {config : Config (Fin threadCnt) (Db threadCnt Row Addr Data)
      (Worker Row Data)}
    (run : (lockingMachine .waitDie fuel apply).RunWhere apartRequests
      (lockingStart links type txn data flags ts) history config)
    (tid : Fin threadCnt) :
    ¬ Relation.TransGen (WaitsFor config.shared) tid tid := by
  have holds : OrderHolds config := by
    apply run.invariant fun _ config => OrderHolds config
    · refine ⟨_, LockingInv.start links type txn data flags ts, ?_⟩
      intro row
      exact ⟨List.Pairwise.nil, by simp⟩
    · intro history config tid action outcome holds apart stepped
      exact holds.step enough apart (lockingMachine_move stepped)
  rcases holds with ⟨tables, inv, ordered⟩
  apply acyclic_of_rank config.shared.ts
  intro first second waits
  exact waits.older (fun row => (inv.rows row).refines) ordered

end Order

/-! ## Two rows in opposite order -/

section

theorem twoRows_threads : @NeZero Nat Zero.ofOfNat0 2 := ⟨by decide⟩

local instance twoRowsThreads : @NeZero Nat Zero.ofOfNat0 2 := twoRows_threads

/-- Two worker threads and two rows without content; the timestamps are those
of new transactions. -/
def twoRows (ts : Fin 2 → Nat) :
    Config (Fin 2) (Db 2 Bool Nat Unit) (Worker Bool Unit) :=
  lockingStart (fun _ => ⟨fun _ => none, fun _ => none, none, none⟩)
    (fun _ => .none) (fun _ => 0) (fun _ => ()) (fun _ => false) ts

end

/-- A row with one owner and one waiter. -/
def holdsAndWaits (lock : RowLock Nat (Fin 2)) (owner waiter : Fin 2) :
    Bool :=
  match lock.owners, lock.waiters.head with
  | some en, some head =>
    lock.txn en = owner && lock.txn head = waiter &&
      (lock.waiters.next en).isNone && (lock.waiters.next head).isNone
  | _, _ => false

theorem waitsFor_of_holdsAndWaits {db : Db 2 Bool Nat Unit} {row : Bool}
    {owner waiter : Fin 2}
    (holds : holdsAndWaits (db.locks row) owner waiter = true) :
    WaitsFor db waiter owner := by
  simp only [holdsAndWaits] at holds
  split at holds
  · next en head isOwner isHead =>
      simp only [Bool.and_eq_true, decide_eq_true_eq,
        Option.isNone_iff_eq_none] at holds
      rcases holds with ⟨⟨⟨ownerTxn, headTxn⟩, ownerNext⟩, headNext⟩
      refine ⟨row, .inl ⟨⟨[head], ⟨isHead, headNext⟩, head, ?_⟩,
        ⟨[en], ⟨isOwner, ownerNext⟩, en, ?_⟩⟩⟩
      · simp [headTxn]
      · simp [ownerTxn]
  · cases holds

/-- The requests are for rows with at most one owner, of another timestamp,
and no waiter. -/
def loneRequests : Guard (Fin 2) (WorkerAction 2 Bool Nat Unit)
    (Db 2 Bool Nat Unit) (Worker Bool Unit) :=
  fun config tid action =>
    match action with
    | .getRow row _ _ =>
      (config.shared.locks row).waiters.head = none ∧
        ∀ en ∈ (config.shared.locks row).owners,
          (config.shared.locks row).waiters.next en = none ∧
            config.shared.ts tid ≠
              config.shared.ts ((config.shared.locks row).txn en)
    | _ => True

instance (config : Config (Fin 2) (Db 2 Bool Nat Unit) (Worker Bool Unit))
    (tid : Fin 2) (action : WorkerAction 2 Bool Nat Unit) :
    Decidable (loneRequests config tid action) :=
  match action with
  | .getRow _ _ _ => inferInstanceAs (Decidable (_ ∧ _))
  | .begin | .read _ | .write _ _ | .finish _ | .inside | .timeout
  | .forceAbort _ => inferInstanceAs (Decidable True)

theorem apartRequests_of_lone
    {config : Config (Fin 2) (Db 2 Bool Nat Unit) (Worker Bool Unit)}
    {tid : Fin 2} {action : WorkerAction 2 Bool Nat Unit}
    (lone : loneRequests config tid action) :
    apartRequests config tid action := by
  rintro row type entry rfl
  rcases lone with ⟨noWaiter, owner⟩
  constructor
  · rintro other ⟨cells, linked, cell, mem, -⟩
    rw [noWaiter, linked_none] at linked
    rw [linked] at mem
    cases mem
  · rintro - other ⟨cells, linked, cell, mem, rfl⟩
    cases isOwner : (config.shared.locks row).owners with
    | none =>
      rw [isOwner, linked_none] at linked
      rw [linked] at mem
      cases mem
    | some en =>
      rcases owner en isOwner with ⟨last, ne⟩
      rw [isOwner] at linked
      rcases linked.exists_cons with ⟨rest, rfl, tail⟩
      rw [last, linked_none] at tail
      rw [tail, List.mem_singleton] at mem
      rw [mem]
      exact ne

/-- An older transaction waits for a younger one. -/
theorem wait_die_no_deadlock_older : ∃ history config,
      (lockingMachine .waitDie 2 fun (_ : Unit) data => data).RunWhere
        apartRequests (twoRows Fin.val) history config ∧
      WaitsFor config.shared 0 1 ∧
      ¬ Relation.TransGen (WaitsFor config.shared) 0 0 := by
  have executed : ((lockingMachine .waitDie 2 fun (_ : Unit) data =>
      data).executeWhere loneRequests (twoRows Fin.val)
      [(0, .begin), (1, .begin), (1, .getRow false .wr 0), (1, .inside),
        (0, .getRow false .wr 1)]).map
        (fun result => holdsAndWaits (result.1.shared.locks false) 1 0) =
      some true := by
    decide +kernel
  rcases Option.map_eq_some_iff.1 executed with
    ⟨⟨config, history⟩, ran, waits⟩
  have run := (Machine.runWhere_of_execute ran).mono
    fun _ _ _ => apartRequests_of_lone
  exact ⟨history, config, run, waitsFor_of_holdsAndWaits waits,
    wait_die_no_deadlock le_rfl run 0⟩

/-- Two transactions with the timestamps that `thread_t::run` leaves wait for
each other. -/
theorem wait_die_deadlock : ∃ history config,
      (lockingMachine .waitDie 2 fun (_ : Unit) data => data).Run
        (twoRows fun _ => 0) history config ∧
      Relation.TransGen (WaitsFor config.shared) 0 0 := by
  have executed : ((lockingMachine .waitDie 2 fun (_ : Unit) data =>
      data).execute (twoRows fun _ => 0)
      [(0, .begin), (1, .begin), (0, .getRow false .wr 0), (0, .inside),
        (1, .getRow true .wr 1), (1, .inside),
        (0, .getRow true .wr 2), (1, .getRow false .wr 3)]).map
        (fun result => (holdsAndWaits (result.1.shared.locks true) 1 0,
          holdsAndWaits (result.1.shared.locks false) 0 1)) =
      some (true, true) := by
    decide +kernel
  rcases Option.map_eq_some_iff.1 executed with
    ⟨⟨config, history⟩, ran, same⟩
  rcases Prod.mk.inj same with ⟨first, second⟩
  refine ⟨history, config, Machine.run_of_execute ran, ?_⟩
  exact (Relation.TransGen.single (waitsFor_of_holdsAndWaits first)).tail
    (waitsFor_of_holdsAndWaits second)

end Lockfreec.Bench
