import Lockfreec.Bench.LockingInvariant
import Lockfreec.Lib.History
import Lockfreec.Lib.Serializability

/-!
# The operations of transactions under locking

A transaction that has not called `finish` still owns the rows of all its
operations.  A conflicting operation of another transaction therefore comes
only behind the call of `finish`: the order of these calls is the order in
which the transactions conflict.
-/

namespace Lockfreec.Bench

open Function Lib.History Lib.Interleaving Lib.Serializability

variable {threadCnt : Nat} {Row Data Write : Type}

/-- The operation of an event. -/
def workerOp : WorkerEvent threadCnt Row Write →
    Option (Op (TxnId threadCnt) Row)
  | .read id row => some ⟨id, row, false⟩
  | .write id row _ => some ⟨id, row, true⟩
  | .finish _ _ => none

/-- The transaction has called `finish`. -/
def Finished (history : List (WorkerEvent threadCnt Row Write))
    (id : TxnId threadCnt) : Prop :=
  ∃ rc, .finish id rc ∈ history

/-- The thread is in a transaction that has not called `finish`. -/
def WorkerPc.Growing : WorkerPc Row → Prop
  | .idle | .restore _ | .release _ => False
  | _ => True

/-- What holds when an operation is emitted. -/
def OpAllowed (before : List (WorkerEvent threadCnt Row Write))
    (event : WorkerEvent threadCnt Row Write) : Prop :=
  ∀ op, workerOp event = some op → ¬ Finished before op.id ∧
    ∀ earlier ∈ before, ∀ first, workerOp earlier = some first →
      Conflicts first op → Finished before first.id

/-- The transaction runs, with an access for the operation. -/
structure Held (threads : Fin threadCnt → Worker Row Data)
    (op : Op (TxnId threadCnt) Row) : Prop where
  growing : (threads op.id.1).pc.Growing
  number : (threads op.id.1).thdTxnId = op.id.2
  access : ∃ access ∈ (threads op.id.1).accesses,
    access.row = op.row ∧ (op.write = true → access.type = .wr)

structure HistoryInv (threads : Fin threadCnt → Worker Row Data)
    (history : List (WorkerEvent threadCnt Row Write)) : Prop where
  emitted : Emitted OpAllowed history
  held : ∀ event ∈ history, ∀ op, workerOp event = some op →
    Finished history op.id ∨ Held threads op
  bound : ∀ id rc, .finish id rc ∈ history → id.2 ≤ (threads id.1).thdTxnId ∧
      ((threads id.1).pc.Growing → id.2 < (threads id.1).thdTxnId)
  once : ∀ id rc other, .finish id rc ∈ history →
    .finish id other ∈ history → rc = other

/-- A thread that does not begin or end a transaction, or that is between two
of them. -/
def Quiet (worker next : Worker Row Data) : Prop :=
  worker.pc.Growing ∧ next.pc.Growing ∧ next.thdTxnId = worker.thdTxnId ∧
      worker.accesses ⊆ next.accesses ∨
    ¬ worker.pc.Growing ∧ ¬ next.pc.Growing ∧ next.thdTxnId = worker.thdTxnId ∨
    ¬ worker.pc.Growing ∧ next.thdTxnId = worker.thdTxnId + 1

section Steps

variable {tid : Fin threadCnt} {worker : Worker Row Data}
  {threads : Fin threadCnt → Worker Row Data}
  {history : List (WorkerEvent threadCnt Row Write)}

theorem Quiet.refl (worker : Worker Row Data) : Quiet worker worker := by
  by_cases growing : worker.pc.Growing
  · exact .inl ⟨growing, growing, rfl, List.Subset.refl _⟩
  · exact .inr (.inl ⟨growing, growing, rfl⟩)

theorem Held.elsewhere {op : Op (TxnId threadCnt) Row}
    (held : Held threads op) (ne : op.id.1 ≠ tid) :
    Held (update threads tid worker) op := by
  rcases held with ⟨growing, number, access⟩
  rw [← update_of_ne ne worker threads] at growing number access
  exact ⟨growing, number, access⟩

variable (inv : HistoryInv threads history)

include inv

/-- The running transaction has not called `finish`. -/
theorem HistoryInv.unfinished (growing : (threads tid).pc.Growing) :
    ¬ Finished history (tid, (threads tid).thdTxnId) := by
  rintro ⟨rc, mem⟩
  exact Nat.lt_irrefl _ ((inv.bound _ rc mem).2 growing)

theorem HistoryInv.quiet (quiet : Quiet (threads tid) worker) :
    HistoryInv (update threads tid worker) history where
  emitted := inv.emitted
  held := by
    intro event mem op isOp
    rcases inv.held event mem op isOp with finished | held
    · exact .inl finished
    · by_cases isTid : op.id.1 = tid
      · right
        have growing := held.growing
        have number := held.number
        rcases held.access with ⟨access, inAccesses, isAccess⟩
        rw [isTid] at growing number inAccesses
        rcases quiet with ⟨-, still, same, sub⟩ | ⟨idle, -⟩ | ⟨idle, -⟩
        · have own : update threads tid worker op.id.1 = worker := by
            rw [isTid, update_self]
          refine ⟨?_, ?_, access, ?_, isAccess⟩
          all_goals rw [own]
          exacts [still, same.trans number, sub inAccesses]
        · exact absurd growing idle
        · exact absurd growing idle
      · exact .inr (held.elsewhere isTid)
  bound := by
    intro id rc mem
    have bound := inv.bound id rc mem
    by_cases isTid : id.1 = tid
    · rw [isTid, update_self]
      rw [isTid] at bound
      rcases quiet with ⟨growing, -, same, -⟩ | ⟨-, idle, same⟩ | ⟨-, next⟩
      · have below := bound.2 growing
        exact ⟨by omega, fun _ => by omega⟩
      · exact ⟨by omega, fun growing => absurd growing idle⟩
      · exact ⟨by omega, fun _ => by omega⟩
    · rw [update_of_ne isTid]
      exact bound
  once := inv.once

omit inv in
theorem finished_snoc {event : WorkerEvent threadCnt Row Write}
    {id : TxnId threadCnt} (finished : Finished history id) :
    Finished (history ++ [event]) id := by
  rcases finished with ⟨rc, mem⟩
  exact ⟨rc, List.mem_append_left _ mem⟩

theorem HistoryInv.operate {event : WorkerEvent threadCnt Row Write}
    {op : Op (TxnId threadCnt) Row}
    (isOp : workerOp event = some op) (held : Held threads op)
    (exclusive : ∀ other, Held threads other → Conflicts other op →
      other.id.1 = op.id.1) :
    HistoryInv threads (history ++ [event]) := by
  have noFinish : ∀ id rc, event ≠ .finish id rc := by
    rintro id rc rfl
    cases isOp
  have member_iff : ∀ id rc, .finish id rc ∈ history ++ [event] →
      .finish id rc ∈ history := by
    intro id rc mem
    rcases List.mem_append.1 mem with mem | mem
    · exact mem
    · exact absurd (List.mem_singleton.1 mem).symm (noFinish id rc)
  constructor
  · apply inv.emitted.snoc
    intro same isSame
    rw [isOp] at isSame
    cases isSame
    constructor
    · have running := inv.unfinished held.growing
      rwa [held.number] at running
    · intro earlier mem first isFirst conflicts
      rcases inv.held earlier mem first isFirst with finished | other
      · exact finished
      · exfalso
        apply conflicts.id
        have same := exclusive first other conflicts
        have number := other.number
        rw [same, held.number] at number
        exact Prod.ext same number.symm
  · intro other mem found isFound
    rcases List.mem_append.1 mem with mem | mem
    · rcases inv.held other mem found isFound with finished | isHeld
      · exact .inl (finished_snoc finished)
      · exact .inr isHeld
    · rw [List.mem_singleton.1 mem, isOp] at isFound
      cases isFound
      exact .inr held
  · exact fun id rc mem => inv.bound id rc (member_iff id rc mem)
  · exact fun id rc other first second =>
      inv.once id rc other (member_iff id rc first) (member_iff id other second)

/-- The call of `finish`. -/
theorem HistoryInv.finish {rc : Rc}
    (growing : (threads tid).pc.Growing) (idle : ¬ worker.pc.Growing)
    (same : worker.thdTxnId = (threads tid).thdTxnId) :
    HistoryInv (update threads tid worker)
      (history ++ [.finish (tid, (threads tid).thdTxnId) rc]) := by
  have unfinished := inv.unfinished growing
  constructor
  · apply inv.emitted.snoc
    intro op isOp
    cases isOp
  · intro event mem op isOp
    rcases List.mem_append.1 mem with mem | mem
    · rcases inv.held event mem op isOp with finished | held
      · exact .inl (finished_snoc finished)
      · by_cases isTid : op.id.1 = tid
        · left
          have number := held.number
          rw [isTid] at number
          have isId : op.id = (tid, (threads tid).thdTxnId) :=
            Prod.ext isTid number.symm
          rw [isId]
          exact ⟨rc, by simp⟩
        · exact .inr (held.elsewhere isTid)
    · rw [List.mem_singleton.1 mem] at isOp
      cases isOp
  · intro id other mem
    rcases List.mem_append.1 mem with mem | mem
    · have bound := inv.bound id other mem
      by_cases isTid : id.1 = tid
      · rw [isTid, update_self, same]
        rw [isTid] at bound
        exact ⟨bound.1, fun isGrowing => absurd isGrowing idle⟩
      · rw [update_of_ne isTid]
        exact bound
    · cases List.mem_singleton.1 mem
      rw [update_self, same]
      exact ⟨le_rfl, fun isGrowing => absurd isGrowing idle⟩
  · intro id first second inFirst inSecond
    rcases List.mem_append.1 inFirst with inFirst | inFirst
    · rcases List.mem_append.1 inSecond with inSecond | inSecond
      · exact inv.once id first second inFirst inSecond
      · cases List.mem_singleton.1 inSecond
        exact absurd ⟨first, inFirst⟩ unfinished
    · cases List.mem_singleton.1 inFirst
      rcases List.mem_append.1 inSecond with inSecond | inSecond
      · exact absurd ⟨second, inSecond⟩ unfinished
      · cases List.mem_singleton.1 inSecond
        rfl

end Steps

end Lockfreec.Bench
