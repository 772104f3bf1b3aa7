import Lockfreec.Bench.Vll
import Mathlib.Algebra.BigOperators.Group.List.Basic
import Mathlib.Algebra.GroupWithZero.Nat

/-!
# The queue of very lightweight locking

The counters of a row count the accesses of the transactions whose entry is
in the queue.  A transaction that `beginTxn` lets run has met no conflicting
count, so it conflicts with nobody before it in the queue, and it keeps its
entry until `finishTxn`.  Nobody writes the `txn` field of an entry after
`getQEntry` has cleared it, so the branch of the loop that takes the front
transaction is never entered.
-/

namespace Lockfreec.Bench

open Function Lib.DoublyLinked Lib.Interleaving

section

variable {Tid Row Entry : Type}

/-! ## Counting accesses -/

section

variable [DecidableEq Row]

/-- The number of read accesses to a row. -/
def readCnt (row : Row) (accesses : List (VllAccess Row)) : Nat :=
  accesses.countP fun access => access.row = row ∧ access.type = .rd

/-- The number of other accesses to a row. -/
def writeCnt (row : Row) (accesses : List (VllAccess Row)) : Nat :=
  accesses.countP fun access => access.row = row ∧ access.type ≠ .rd

/-- The counters after some more accesses. -/
def RowVll.add (row : RowVll) (reads writes : Nat) : RowVll :=
  ⟨row.cs + reads, row.cx + writes⟩

omit [DecidableEq Row] in
theorem RowVll.add_add (row : RowVll) (reads writes more others : Nat) :
    (row.add reads writes).add more others =
      row.add (reads + more) (writes + others) := by
  simp only [RowVll.add, Nat.add_assoc]

theorem update_insertAccess (rows : Row → RowVll) (access : VllAccess Row)
    (row : Row) :
    update rows access.row ((rows access.row).insertAccess access.type).1 row =
      (rows row).add (readCnt row [access]) (writeCnt row [access]) := by
  by_cases same : access.row = row
  · subst same
    rw [update_self]
    by_cases isRead : access.type = .rd
    · simp [RowVll.insertAccess, RowVll.add, readCnt, writeCnt, isRead]
    · simp [RowVll.insertAccess, RowVll.add, readCnt, writeCnt, isRead]
  · rw [update_of_ne (Ne.symm same)]
    simp [RowVll.add, readCnt, writeCnt, same]

theorem readCnt_cons (row : Row) (access : VllAccess Row)
    (rest : List (VllAccess Row)) :
    readCnt row (access :: rest) = readCnt row [access] + readCnt row rest := by
  rw [readCnt, ← List.singleton_append, List.countP_append]
  rfl

theorem writeCnt_cons (row : Row) (access : VllAccess Row)
    (rest : List (VllAccess Row)) :
    writeCnt row (access :: rest) =
      writeCnt row [access] + writeCnt row rest := by
  rw [writeCnt, ← List.singleton_append, List.countP_append]
  rfl

theorem insertAccesses_rows (rows : Row → RowVll)
    (accesses : List (VllAccess Row)) (row : Row) :
    (insertAccesses rows accesses).1 row =
      (rows row).add (readCnt row accesses) (writeCnt row accesses) := by
  induction accesses generalizing rows with
  | nil => rfl
  | cons access rest ih =>
    rw [insertAccesses, ih, update_insertAccess, RowVll.add_add,
      ← readCnt_cons, ← writeCnt_cons]

variable {accesses : List (VllAccess Row)}

/-- What a transaction that is not blocked has met. -/
theorem insertAccesses_free {rows : Row → RowVll}
    (free : (insertAccesses rows accesses).2 = false) :
    ∀ access ∈ accesses, (rows access.row).cx = 0 ∧
      (access.type ≠ .rd → (rows access.row).cs = 0) := by
  induction accesses generalizing rows with
  | nil => exact nofun
  | cons first rest ih =>
    rw [insertAccesses, Bool.or_eq_false_iff] at free
    have later := ih free.2
    intro access mem
    rcases List.mem_cons.1 mem with rfl | mem
    · have passed := free.1
      by_cases isRead : access.type = .rd
      · simp [RowVll.insertAccess, isRead] at passed
        exact ⟨passed, fun isWrite => absurd isRead isWrite⟩
      · simp [RowVll.insertAccess, isRead] at passed
        exact ⟨passed.1, fun _ => passed.2⟩
    · have passed := later access mem
      simp only [update_insertAccess, RowVll.add, Nat.add_eq_zero_iff] at passed
      exact ⟨passed.1.1, fun isWrite => (passed.2 isWrite).1⟩

theorem removeAccess_add (row : RowVll) (access : VllAccess Row) :
    RowVll.removeAccess access.type (row.add (readCnt access.row [access])
          (writeCnt access.row [access])) =
      some row := by
  by_cases isRead : access.type = .rd
  · simp [RowVll.removeAccess, RowVll.add, readCnt, writeCnt, isRead]
  · simp [RowVll.removeAccess, RowVll.add, readCnt, writeCnt, isRead]

theorem removeAccesses_rows {rows rest : Row → RowVll}
    (counted : ∀ row, rows row =
      (rest row).add (readCnt row accesses) (writeCnt row accesses)) :
    removeAccesses rows accesses = some rest := by
  induction accesses generalizing rows with
  | nil =>
    rw [removeAccesses]
    congr 1
    ext1 row
    exact counted row
  | cons access todo ih =>
    have split : ∀ row, rows row =
        ((rest row).add (readCnt row todo) (writeCnt row todo)).add
          (readCnt row [access]) (writeCnt row [access]) := by
      intro row
      rw [counted row, readCnt_cons, writeCnt_cons, RowVll.add_add,
        Nat.add_comm (readCnt row [access]),
        Nat.add_comm (writeCnt row [access])]
    rw [removeAccesses, split access.row, removeAccess_add, Option.bind_some]
    apply ih
    intro row
    by_cases same : row = access.row
    · subst same
      rw [update_self]
    · rw [update_of_ne same, split row]
      simp [RowVll.add, readCnt, writeCnt, Ne.symm same]

theorem readCnt_pos {row : Row} {access : VllAccess Row}
    (mem : access ∈ accesses) (same : access.row = row)
    (isRead : access.type = .rd) :
    0 < readCnt row accesses :=
  List.countP_pos_iff.2 ⟨access, mem, by simp [same, isRead]⟩

theorem writeCnt_pos {row : Row} {access : VllAccess Row}
    (mem : access ∈ accesses) (same : access.row = row)
    (isWrite : access.type ≠ .rd) :
    0 < writeCnt row accesses :=
  List.countP_pos_iff.2 ⟨access, mem, by simp [same, isWrite]⟩

end

/-- Some row is accessed by both, and written by at least one of them. -/
def AccessConflict (left right : List (VllAccess Row)) : Prop :=
  ∃ first ∈ left, ∃ second ∈ right, first.row = second.row ∧
    (first.type ≠ .rd ∨ second.type ≠ .rd)

theorem AccessConflict.symm {left right : List (VllAccess Row)}
    (conflict : AccessConflict left right) : AccessConflict right left := by
  obtain ⟨first, inLeft, second, inRight, same, writes⟩ := conflict
  exact ⟨second, inRight, first, inLeft, same.symm, writes.symm⟩

/-! ## The queue -/

section

variable [DecidableEq Row]

/-- The counts of all the transactions of a queue at a row. -/
def queueCnt (accesses : Tid × Nat → List (VllAccess Row))
    (queue : List (Entry × (Tid × Nat))) (row : Row) : RowVll :=
  ⟨(queue.map fun item => readCnt row (accesses item.2)).sum,
    (queue.map fun item => writeCnt row (accesses item.2)).sum⟩

theorem queueCnt_middle (accesses : Tid × Nat → List (VllAccess Row))
    (front back : List (Entry × (Tid × Nat)))
    (item : Entry × (Tid × Nat)) (row : Row) :
    queueCnt accesses (front ++ item :: back) row =
      (queueCnt accesses (front ++ back) row).add
        (readCnt row (accesses item.2)) (writeCnt row (accesses item.2)) := by
  simp only [queueCnt, RowVll.add, List.map_append, List.map_cons,
    List.sum_append, List.sum_cons]
  congr 1 <;> omega

/-- The entries of the queue from front to tail, with their transactions. -/
structure VllQueueInv (db : VllDb Tid Row Entry)
    (queue : List (Entry × (Tid × Nat))) : Prop where
  isList : IsList db.queue (queue.map Prod.fst)
  null : ∀ item ∈ queue, db.entryTxn item.1 = none
  allocated : ∀ item ∈ queue, db.allocated item.1 = true
  counted : ∀ row, db.rows row = queueCnt db.accesses queue row
  ordered : queue.Pairwise fun early late => early.2 ≠ late.2 ∧
    (db.txnType late.2 = .free →
      ¬ AccessConflict (db.accesses early.2) (db.accesses late.2))

variable {db : VllDb Tid Row Entry} {queue : List (Entry × (Tid × Nat))}
  {txn : Tid × Nat} {entry : Entry}

/-- Nobody ever executes the transaction of the front entry. -/
theorem VllQueueInv.frontTxn (inv : VllQueueInv db queue) :
    db.frontTxn = none := by
  have head := inv.isList.head_eq
  cases queue with
  | nil =>
    rw [VllDb.frontTxn, head]
    rfl
  | cons item rest =>
    have null := inv.null item (.head _)
    simp [VllDb.frontTxn, head, null]

theorem VllQueueInv.congr (inv : VllQueueInv db queue)
    {accesses : Tid × Nat → List (VllAccess Row)}
    {txnType : Tid × Nat → VllTxnType} {data : Row → Nat → Nat}
    (sameAccesses : ∀ item ∈ queue, accesses item.2 = db.accesses item.2)
    (sameType : ∀ item ∈ queue, txnType item.2 = db.txnType item.2) :
    VllQueueInv { db with
      accesses := accesses, txnType := txnType, data := data } queue where
  isList := inv.isList
  null := inv.null
  allocated := inv.allocated
  counted := by
    intro row
    rw [inv.counted row]
    simp only [queueCnt]
    congr 2
    · exact List.map_congr_left fun item mem => by
        rw [sameAccesses item mem]
    · exact List.map_congr_left fun item mem => by
        rw [sameAccesses item mem]
  ordered := by
    refine inv.ordered.imp_of_mem fun {early late} inEarly inLate ok => ?_
    show early.2 ≠ late.2 ∧ (txnType late.2 = .free →
      ¬ AccessConflict (accesses early.2) (accesses late.2))
    rw [sameAccesses early inEarly, sameAccesses late inLate,
      sameType late inLate]
    exact ok

/-- A transaction that meets no conflicting count conflicts with nobody. -/
theorem VllQueueInv.no_conflict (inv : VllQueueInv db queue)
    {accesses : List (VllAccess Row)}
    (free : (insertAccesses db.rows accesses).2 = false) :
    ∀ item ∈ queue, ¬ AccessConflict (db.accesses item.2) accesses := by
  rintro item mem ⟨first, inItem, second, inNew, same, writes⟩
  have passed := insertAccesses_free free second inNew
  obtain ⟨front, back, rfl⟩ := List.append_of_mem mem
  rw [inv.counted, queueCnt_middle] at passed
  simp only [RowVll.add, Nat.add_eq_zero_iff] at passed
  by_cases isRead : first.type = .rd
  · have isWrite := writes.resolve_left (not_not.2 isRead)
    have := readCnt_pos inItem same isRead
    exact absurd (passed.2 isWrite).2 (by omega)
  · have := writeCnt_pos inItem same isRead
    exact absurd passed.1.2 (by omega)

variable [DecidableEq Tid] [DecidableEq Entry]

theorem VllQueueInv.beginTxn (inv : VllQueueInv db queue)
    (newTxn : ∀ item ∈ queue, item.2 ≠ txn)
    (newEntry : db.allocated entry = false) :
    VllQueueInv (db.beginTxn txn entry).1 (queue ++ [(entry, txn)]) := by
  have apart : ∀ item ∈ queue, item.1 ≠ entry := by
    rintro item mem rfl
    rw [inv.allocated item mem] at newEntry
    cases newEntry
  have sameType : ∀ item ∈ queue, ∀ type,
      update db.txnType txn type item.2 = db.txnType item.2 :=
    fun item mem type => update_of_ne (newTxn item mem) _ _
  constructor
  · show IsList (db.queue.putTail entry) _
    rw [List.map_append]
    apply inv.isList.putTail
    intro mem
    obtain ⟨item, mem, same⟩ := List.mem_map.1 mem
    exact apart item mem same
  · show ∀ item ∈ queue ++ [(entry, txn)],
      update db.entryTxn entry none item.1 = none
    rintro item mem
    rcases List.mem_append.1 mem with mem | mem
    · rw [update_of_ne (apart item mem)]
      exact inv.null item mem
    · rw [List.mem_singleton.1 mem, update_self]
  · show ∀ item ∈ queue ++ [(entry, txn)],
      update db.allocated entry true item.1 = true
    rintro item mem
    rcases List.mem_append.1 mem with mem | mem
    · rw [update_of_ne (apart item mem)]
      exact inv.allocated item mem
    · rw [List.mem_singleton.1 mem, update_self]
  · intro row
    show (insertAccesses db.rows (db.accesses txn)).1 row =
      queueCnt db.accesses (queue ++ [(entry, txn)]) row
    rw [insertAccesses_rows, inv.counted, queueCnt_middle, List.append_nil]
  · show (queue ++ [(entry, txn)]).Pairwise fun early late =>
      early.2 ≠ late.2 ∧ (update db.txnType txn _ late.2 = .free →
          ¬ AccessConflict (db.accesses early.2) (db.accesses late.2))
    refine List.pairwise_append.2 ⟨?_, List.pairwise_singleton _ _, ?_⟩
    · refine inv.ordered.imp_of_mem fun {early late} _ inLate ok => ?_
      rw [sameType late inLate]
      exact ok
    · intro item mem last isLast
      rw [List.mem_singleton.1 isLast]
      refine ⟨newTxn item mem, fun free => ?_⟩
      rw [update_self] at free
      refine inv.no_conflict ?_ item mem
      cases blocked : (insertAccesses db.rows (db.accesses txn)).2 with
      | false => rfl
      | true =>
        rw [blocked] at free
        cases free

omit [DecidableEq Tid] in
theorem VllQueueInv.finishTxn {front back : List (Entry × (Tid × Nat))}
    (inv : VllQueueInv db (front ++ (entry, txn) :: back)) :
    ∃ rows links, db.finishTxn txn entry =
        some { db with rows := rows, queue := links } ∧
      VllQueueInv { db with rows := rows, queue := links } (front ++ back) := by
  have isList := inv.isList
  rw [List.map_append, List.map_cons] at isList
  obtain ⟨links, removed, isList⟩ := isList.removeHt
  have counted : ∀ row, db.rows row =
      (queueCnt db.accesses (front ++ back) row).add
        (readCnt row (db.accesses txn)) (writeCnt row (db.accesses txn)) := by
    intro row
    rw [inv.counted row, queueCnt_middle]
  have sub : (front ++ back).Sublist (front ++ (entry, txn) :: back) :=
    (List.sublist_cons_self _ _).append_left front
  refine ⟨queueCnt db.accesses (front ++ back), links, ?_, ?_, ?_, ?_,
    fun _ => rfl, ?_⟩
  · rw [VllDb.finishTxn, removeAccesses_rows counted, Option.bind_some, removed]
    rfl
  · rw [List.map_append]
    exact isList
  · exact fun item mem => inv.null item (sub.subset mem)
  · exact fun item mem => inv.allocated item (sub.subset mem)
  · exact inv.ordered.sublist sub

end

end

end Lockfreec.Bench
