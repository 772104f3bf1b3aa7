import Lockfreec.Bench.LockingHistory

/-!
# Two-phase locking with rollback

The content of a row is described by the writes of the committed
transactions.  A transaction that has written a row keeps the before-image,
which is that content, and its own writes are applied to it.  Committing adds
its writes behind all committed ones, and aborting copies the before-image
back before the row is released.
-/

namespace Lockfreec.Bench

open Function Lib.DoublyLinked Lib.History Lib.Interleaving Lib.Serializability

variable {threadCnt : Nat} {Row Addr Data Write : Type} [DecidableEq Row]

/-! ## The committed content -/

/-- The writes to a row. -/
def rowWrites (row : Row) (history : List (WorkerEvent threadCnt Row Write)) :
    List (TxnId threadCnt × Write) :=
  history.filterMap fun event =>
    match event with
    | .write id which write => if which = row then some (id, write) else none
    | _ => none

/-- The transactions that have committed. -/
def committedIds (history : List (WorkerEvent threadCnt Row Write)) :
    List (TxnId threadCnt) :=
  history.filterMap fun event =>
    match event with
    | .finish id .rcok => some id
    | _ => none

/-- Apply writes one after the other. -/
def applyAll (apply : Write → Data → Data)
    (writes : List (TxnId threadCnt × Write)) (data : Data) : Data :=
  writes.foldl (fun data write => apply write.2 data) data

/-- The result of the committed writes only. -/
def committedData (apply : Write → Data → Data) (init : Row → Data)
    (history : List (WorkerEvent threadCnt Row Write)) (row : Row) : Data :=
  applyAll apply ((rowWrites row history).filter fun write =>
      write.1 ∈ committedIds history) (init row)

/-- The writes of one transaction to a row. -/
def ownWrites (history : List (WorkerEvent threadCnt Row Write))
    (id : TxnId threadCnt) (row : Row) : List (TxnId threadCnt × Write) :=
  (rowWrites row history).filter fun write => write.1 = id

section Lists

variable {apply : Write → Data → Data}
  {history : List (WorkerEvent threadCnt Row Write)} {id : TxnId threadCnt}
  {row : Row} {write : Write}

omit [DecidableEq Row] in
theorem mem_committedIds :
    id ∈ committedIds history ↔ .finish id .rcok ∈ history := by
  rw [committedIds, List.mem_filterMap]
  constructor
  · rintro ⟨event, mem, isId⟩
    split at isId
    · cases isId
      exact mem
    · cases isId
  · exact fun mem => ⟨_, mem, rfl⟩

theorem mem_rowWrites : (id, write) ∈ rowWrites row history ↔
      .write id row write ∈ history := by
  rw [rowWrites, List.mem_filterMap]
  constructor
  · rintro ⟨event, mem, isWrite⟩
    split at isWrite
    · split at isWrite
      · next isRow =>
          cases isWrite
          rwa [← isRow]
      · cases isWrite
    · cases isWrite
  · intro mem
    exact ⟨_, mem, if_pos rfl⟩

omit [DecidableEq Row] in
theorem applyAll_append (first second : List (TxnId threadCnt × Write))
    (data : Data) :
    applyAll apply (first ++ second) data =
      applyAll apply second (applyAll apply first data) :=
  List.foldl_append

/-- Elements of two kinds, those of the second kind behind the others. -/
theorem filter_or_append {α : Type} {first second : α → Bool} {list : List α}
    (behind : list.Pairwise fun a b => second a → ¬ first b)
    (disjoint : ∀ a ∈ list, second a → ¬ first a) :
    list.filter (fun a => first a || second a) =
      list.filter first ++ list.filter second := by
  induction list with
  | nil => rfl
  | cons head rest ih =>
    have later := List.pairwise_cons.1 behind
    have shorter := ih later.2 fun a mem =>
      disjoint a (List.mem_cons_of_mem head mem)
    cases isSecond : second head with
    | false =>
      cases isFirst : first head with
      | false | true => simp [isFirst, isSecond, shorter]
    | true =>
      have isFirst : first head = false := by
        simpa using disjoint head (.head _) isSecond
      have none : rest.filter first = [] := by
        rw [List.filter_eq_nil_iff]
        exact fun a mem => later.1 a mem isSecond
      simp [isFirst, isSecond, shorter, none]

omit [DecidableEq Row] in
theorem committedIds_snoc {event : WorkerEvent threadCnt Row Write}
    (other : ∀ id, event ≠ .finish id .rcok) :
    committedIds (history ++ [event]) = committedIds history := by
  rw [committedIds, List.filterMap_append]
  cases event with
  | finish id rc =>
    cases rc with
    | rcok => exact absurd rfl (other id)
    | _ => exact List.append_nil _
  | _ => exact List.append_nil _

theorem rowWrites_snoc {event : WorkerEvent threadCnt Row Write}
    (other : ∀ id write, event ≠ .write id row write) :
    rowWrites row (history ++ [event]) = rowWrites row history := by
  rw [rowWrites, List.filterMap_append]
  cases event with
  | write id which write =>
    have ne : which ≠ row := by
      rintro rfl
      exact other id write rfl
    simp [ne, rowWrites]
  | _ => exact List.append_nil _

theorem rowWrites_write : rowWrites row (history ++ [.write id row write]) =
      rowWrites row history ++ [(id, write)] := by
  rw [rowWrites, List.filterMap_append]
  simp [rowWrites]

end Lists

section Commit

variable {apply : Write → Data → Data} {init : Row → Data} {tid : Fin threadCnt}
  {row : Row} {threads : Fin threadCnt → Worker Row Data}
  {history : List (WorkerEvent threadCnt Row Write)}

/-- The writes of the running transaction are behind all committed ones. -/
theorem HistoryInv.behind (inv : HistoryInv threads history)
    (growing : (threads tid).pc.Growing) :
    (rowWrites row history).Pairwise fun first second =>
      decide (first.1 = (tid, (threads tid).thdTxnId)) = true →
        ¬ decide (second.1 ∈ committedIds history) = true := by
  have unfinished := inv.unfinished growing
  have ordered : history.Pairwise fun first second =>
      ∀ write id other, first = .write (tid, (threads tid).thdTxnId) row write →
        second = .write id row other →
        .finish id .rcok ∉ history := by
    apply Emitted.pairwise
    rintro before event after split earlier mem write id other rfl rfl
      isCommitted
    have allowed := inv.emitted before _ after split ⟨id, row, true⟩ rfl
    apply unfinished
    by_cases same : id = (tid, (threads tid).thdTxnId)
    · rw [← same]
      exact ⟨.rcok, isCommitted⟩
    · rcases allowed.2 _ mem ⟨_, row, true⟩ rfl
        ⟨Ne.symm same, rfl, .inl rfl⟩ with ⟨rc, inBefore⟩
      exact ⟨rc, by simp [split, inBefore]⟩
  rw [rowWrites, List.pairwise_filterMap]
  refine ordered.imp ?_
  intro first second related isFirst firstWrite isSecond secondWrite isOwn
  rw [decide_eq_true_eq] at isOwn ⊢
  rw [mem_committedIds]
  split at firstWrite
  · split at firstWrite
    · next isRow =>
        cases firstWrite
        split at secondWrite
        · split at secondWrite
          · next isRow' =>
              cases secondWrite
              subst isRow
              subst isRow'
              dsimp only at isOwn
              subst isOwn
              exact related _ _ _ rfl rfl
          · cases secondWrite
        · cases secondWrite
    · cases firstWrite
  · cases firstWrite

theorem HistoryInv.commit (inv : HistoryInv threads history)
    (growing : (threads tid).pc.Growing) :
    committedData apply init
        (history ++ [.finish (tid, (threads tid).thdTxnId) .rcok]) row =
      applyAll apply (ownWrites history (tid, (threads tid).thdTxnId) row)
        (committedData apply init history row) := by
  have ids : committedIds
      (history ++ [.finish (tid, (threads tid).thdTxnId) .rcok]) =
      committedIds history ++ [(tid, (threads tid).thdTxnId)] := by
    rw [committedIds, List.filterMap_append]
    rfl
  have absent : (tid, (threads tid).thdTxnId) ∉ committedIds history := by
    rw [mem_committedIds]
    exact fun mem => inv.unfinished growing ⟨.rcok, mem⟩
  rw [committedData, rowWrites_snoc (by simp), ids, committedData, ownWrites,
    ← applyAll_append, ← filter_or_append (inv.behind growing)]
  · congr 2
    funext write
    simp [Bool.decide_or]
  · intro write _ isOwn
    rw [decide_eq_true_eq] at isOwn ⊢
    rw [isOwn]
    exact absent

end Commit

/-! ## The content of the rows -/

/-- The transaction of the thread has committed. -/
def WorkerPc.Committed : WorkerPc Row → Prop
  | .restore rc | .release rc => rc ≠ .abort
  | _ => False

/-- The thread may have written the row without committing. -/
def Dirty (worker : Worker Row Data) (row : Row) : Prop :=
  ¬ worker.pc.Committed ∧
    ∃ access ∈ worker.accesses, access.row = row ∧ access.type = .wr

/-- What a thread has recorded of the rows that it accesses for writing. -/
structure Recorded (apply : Write → Data → Data) (init : Row → Data)
    (history : List (WorkerEvent threadCnt Row Write)) (data : Row → Data)
    (tid : Fin threadCnt) (worker : Worker Row Data) : Prop where
  image : ¬ worker.pc.Committed →
    ∀ access ∈ worker.accesses, access.type = .wr →
      access.origData = some (committedData apply init history access.row)
  running : worker.pc.Growing →
    ∀ access ∈ worker.accesses, access.type = .wr → data access.row =
        applyAll apply (ownWrites history (tid, worker.thdTxnId) access.row)
          (committedData apply init history access.row)
  restored : worker.pc = .release .abort → ∀ access rest,
    worker.accesses = access :: rest → access.type = .wr →
    data access.row = committedData apply init history access.row

/-- The content of the rows and of the before-images. -/
structure DataInv (apply : Write → Data → Data) (init : Row → Data)
    (history : List (WorkerEvent threadCnt Row Write)) (data : Row → Data)
    (threads : Fin threadCnt → Worker Row Data) :
    Prop where
  clean : ∀ row, (∀ tid, ¬ Dirty (threads tid) row) →
    data row = committedData apply init history row
  recorded : ∀ tid, Recorded apply init history data tid (threads tid)

omit [DecidableEq Row] in
theorem LockTable.Exclusive.alone_eq {Txn : Type} {table : LockTable Txn}
    {owner other : Request Txn} (inv : table.Exclusive)
    (isOwner : owner ∈ table.owners) (isEx : owner.type = .ex)
    (isOther : other ∈ table.owners) : other = owner := by
  have mode := inv.same owner isOwner
  have few := inv.alone (mode.symm.trans isEx)
  cases owners : table.owners with
  | nil =>
    rw [owners] at isOwner
    cases isOwner
  | cons first rest =>
    rw [owners] at few isOwner isOther
    have alone : rest = [] := by simpa using few
    subst alone
    rw [List.mem_singleton.1 isOwner, List.mem_singleton.1 isOther]

section Steps

variable {apply : Write → Data → Data} {init : Row → Data}
  {tid other : Fin threadCnt} {row : Row} {db : Db threadCnt Row Addr Data}
  {worker : Worker Row Data} {threads : Fin threadCnt → Worker Row Data}
  {history longer : List (WorkerEvent threadCnt Row Write)}
  {tables : Tables threadCnt Row} {data : Row → Data}

variable {access : Access Row Data}

omit [DecidableEq Row] in
theorem LockingInv.writer_alone {type : LockType}
    (inv : LockingInv db threads tables) (mem : access ∈ (threads tid).accesses)
    (isWrite : access.type = .wr)
    (isOwner : ⟨other, type⟩ ∈ (tables access.row).owners) : other = tid := by
  have owned := (inv.workers tid).owned access mem
  rw [isWrite] at owned
  have same := (inv.rows access.row).exclusive.alone_eq owned rfl isOwner
  exact congrArg Request.txn same

/-- The rows that other threads access for writing are left alone. -/
theorem DataInv.change {written : Row → Data}
    (inv : DataInv apply init history data threads)
    (clean : ∀ row, ¬ Dirty worker row → (¬ Dirty (threads tid) row →
        data row = committedData apply init history row) →
      written row = committedData apply init longer row)
    (own : Recorded apply init longer written tid worker)
    (others : ∀ other, other ≠ tid → ∀ access ∈ (threads other).accesses,
      access.type = .wr → written access.row = data access.row ∧
        committedData apply init longer access.row =
          committedData apply init history access.row ∧
        ownWrites longer (other, (threads other).thdTxnId) access.row =
          ownWrites history (other, (threads other).thdTxnId) access.row) :
    DataInv apply init longer written (update threads tid worker) := by
  constructor
  · intro row untouched
    have unwritten := untouched tid
    rw [update_self] at unwritten
    apply clean row unwritten
    intro wasClean
    apply inv.clean row
    intro other
    by_cases isTid : other = tid
    · rwa [isTid]
    · have still := untouched other
      rwa [update_of_ne isTid] at still
  · intro other
    by_cases isTid : other = tid
    · subst isTid
      rwa [update_self]
    · rw [update_of_ne isTid]
      have before := inv.recorded other
      constructor
      · intro isOpen access mem isWrite
        rw [(others other isTid access mem isWrite).2.1]
        exact before.image isOpen access mem isWrite
      · intro growing access mem isWrite
        rcases others other isTid access mem isWrite with ⟨same, rest⟩
        rw [same, rest.1, rest.2]
        exact before.running growing access mem isWrite
      · intro isRelease access rest first isWrite
        have same := others other isTid access (by simp [first]) isWrite
        rw [same.1, same.2.1]
        exact before.restored isRelease access rest first isWrite

theorem DataInv.quiet (inv : DataInv apply init history data threads)
    (committed : ∀ row, committedData apply init longer row =
      committedData apply init history row)
    (own : ∀ id row, ownWrites longer id row = ownWrites history id row)
    (writers : ∀ access, access.type = .wr →
      (access ∈ worker.accesses ↔ access ∈ (threads tid).accesses))
    (commits : ∀ access ∈ worker.accesses, access.type = .wr →
      (worker.pc.Committed ↔ (threads tid).pc.Committed))
    (running : ∀ access ∈ worker.accesses, access.type = .wr →
      worker.pc.Growing → (threads tid).pc.Growing ∧
        worker.thdTxnId = (threads tid).thdTxnId)
    (restored : worker.pc = .release .abort → ∀ access rest,
      worker.accesses = access :: rest → access.type = .wr →
        data access.row = committedData apply init history access.row) :
    DataInv apply init longer data (update threads tid worker) := by
  have before := inv.recorded tid
  refine inv.change ?_ ⟨?_, ?_, ?_⟩ fun _ _ _ _ _ => ⟨rfl, committed _, own _ _⟩
  · intro row untouched wasClean
    rw [committed]
    apply wasClean
    rintro ⟨uncommitted, access, mem, isRow, isWrite⟩
    have stays := (writers access isWrite).2 mem
    exact untouched ⟨fun isCommitted => uncommitted
      ((commits access stays isWrite).1 isCommitted),
      access, stays, isRow, isWrite⟩
  · intro uncommitted access mem isWrite
    rw [committed]
    apply before.image _ access ((writers access isWrite).1 mem) isWrite
    exact fun isCommitted => uncommitted
      ((commits access mem isWrite).2 isCommitted)
  · intro growing access mem isWrite
    rcases running access mem isWrite growing with ⟨was, same⟩
    rw [committed, own, same]
    exact before.running was access ((writers access isWrite).1 mem) isWrite
  · intro isRelease access rest first isWrite
    rw [committed]
    exact restored isRelease access rest first isWrite

/-- A transaction has written only rows that it has accessed for that. -/
theorem HistoryInv.ownWrites_nil (inv : HistoryInv threads history)
    (growing : (threads tid).pc.Growing)
    (absent : ∀ access ∈ (threads tid).accesses, access.row = row →
      access.type ≠ .wr) :
    ownWrites history (tid, (threads tid).thdTxnId) row = [] := by
  rw [ownWrites, List.filter_eq_nil_iff]
  rintro ⟨id, write⟩ mem isOwn
  rw [decide_eq_true_eq] at isOwn
  dsimp only at isOwn
  subst isOwn
  rcases inv.held _ (mem_rowWrites.1 mem) ⟨_, row, true⟩ rfl with
    finished | held
  · exact inv.unfinished growing finished
  · rcases held.access with ⟨access, inAccesses, isRow, isWrite⟩
    exact absent access inAccesses isRow (isWrite rfl)

section

variable (inv : DataInv apply init history db.data threads)

include inv

variable (locking : LockingInv db threads tables)

include locking

/-- A row is accessed for writing: its content is the before-image. -/
theorem DataInv.record (histories : HistoryInv threads history)
    (here : (threads tid).pc = .record row .wr) :
    DataInv apply init history db.data (update threads tid
        { threads tid with
          pc := .running
          accesses :=
            ⟨row, .wr, some (db.data row)⟩ :: (threads tid).accesses }) := by
  have own := locking.workers tid
  have isOwner := own.pc
  rw [here] at isOwner
  have fresh : row ∉ (threads tid).rows :=
    own.fresh row (by simp [here, WorkerPc.row])
  have growing : (threads tid).pc.Growing := by
    rw [here]
    trivial
  have uncommitted : ¬ (threads tid).pc.Committed := by
    rw [here]
    exact id
  have content : db.data row = committedData apply init history row := by
    apply inv.clean row
    rintro other ⟨-, access, mem, rfl, isWrite⟩
    have same := locking.writer_alone mem isWrite isOwner
    subst same
    exact fresh (List.mem_map_of_mem mem)
  have noWrites : ownWrites history (tid, (threads tid).thdTxnId) row = [] := by
    apply histories.ownWrites_nil growing
    rintro access mem rfl
    exact absurd (List.mem_map_of_mem mem) fresh
  have before := inv.recorded tid
  refine inv.change ?_ ⟨?_, ?_, ?_⟩ fun _ _ _ _ _ => ⟨rfl, rfl, rfl⟩
  · intro which untouched wasClean
    apply wasClean
    rintro ⟨-, access, mem, isAccess⟩
    exact untouched ⟨id, access, .tail _ mem, isAccess⟩
  · intro _ access mem isWrite
    rcases List.mem_cons.1 mem with rfl | mem
    · rw [content]
    · exact before.image uncommitted access mem isWrite
  · intro _ access mem isWrite
    rcases List.mem_cons.1 mem with rfl | mem
    · rw [noWrites]
      exact content
    · exact before.running growing access mem isWrite
  · intro isRelease
    cases isRelease

theorem DataInv.write {write : Write} (histories : HistoryInv threads history)
    (growing : (threads tid).pc.Growing)
    (uncommitted : ¬ (threads tid).pc.Committed)
    (mem : access ∈ (threads tid).accesses) (isWrite : access.type = .wr) :
    DataInv apply init
      (history ++ [.write (tid, (threads tid).thdTxnId) access.row write])
      (update db.data access.row (apply write (db.data access.row)))
      (update threads tid (threads tid)) := by
  have alone : ∀ {other found}, found ∈ (threads other).accesses →
      found.type = .wr → found.row = access.row → other = tid := by
    intro other found inOther foundWrite same
    apply locking.writer_alone mem isWrite
    rw [← same]
    exact (locking.workers other).owned found inOther
  have ids : committedIds (history ++
      [.write (tid, (threads tid).thdTxnId) access.row write]) =
      committedIds history :=
    committedIds_snoc (by simp)
  have absent : (tid, (threads tid).thdTxnId) ∉ committedIds history := by
    rw [mem_committedIds]
    exact fun isCommitted => histories.unfinished growing ⟨.rcok, isCommitted⟩
  have committed : ∀ which, committedData apply init (history ++
      [.write (tid, (threads tid).thdTxnId) access.row write]) which =
      committedData apply init history which := by
    intro which
    rw [committedData, ids, committedData]
    by_cases isRow : which = access.row
    · rw [isRow, rowWrites_write, List.filter_append]
      simp [absent]
    · rw [rowWrites_snoc]
      intro id other same
      cases same
      exact isRow rfl
  have ownLater : ∀ {id which}, which ≠ access.row → ownWrites (history ++
      [.write (tid, (threads tid).thdTxnId) access.row write]) id which =
      ownWrites history id which := by
    intro id which notRow
    rw [ownWrites, rowWrites_snoc, ownWrites]
    intro _ late same
    exact notRow (WorkerEvent.write.inj same).2.1.symm
  have before := inv.recorded tid
  refine inv.change ?_ ⟨?_, ?_, ?_⟩ ?_
  · intro which untouched wasClean
    have notRow : which ≠ access.row := by
      rintro rfl
      exact untouched ⟨uncommitted, access, mem, rfl, isWrite⟩
    rw [committed, update_of_ne notRow]
    exact wasClean untouched
  · intro isOpen found inAccesses foundWrite
    rw [committed]
    exact before.image isOpen found inAccesses foundWrite
  · intro isGrowing found inAccesses foundWrite
    have content := before.running isGrowing found inAccesses foundWrite
    rw [committed]
    by_cases isRow : found.row = access.row
    · rw [isRow] at content ⊢
      rw [update_self, ownWrites, rowWrites_write,
        List.filter_append, applyAll_append, ← ownWrites, content]
      simp [applyAll]
    · rw [update_of_ne isRow, ownLater isRow]
      exact content
  · intro isRelease
    rw [isRelease] at growing
    exact growing.elim
  · intro other isTid found inOther foundWrite
    have notRow : found.row ≠ access.row :=
      fun isRow => isTid (alone inOther foundWrite isRow)
    exact ⟨update_of_ne notRow _ _, committed _, ownLater notRow⟩

/-- The transaction commits: its writes become committed ones. -/
theorem DataInv.commit (histories : HistoryInv threads history)
    (here : (threads tid).pc = .running) :
    DataInv apply init
      (history ++ [.finish (tid, (threads tid).thdTxnId) .rcok]) db.data
      (update threads tid
        { threads tid with pc := .restore .rcok }) := by
  have growing : (threads tid).pc.Growing := by
    rw [here]
    trivial
  refine inv.change ?_ ⟨fun isOpen => ?_, nofun, nofun⟩ ?_
  · intro row _ wasClean
    rw [histories.commit growing]
    by_cases written : ∃ access ∈ (threads tid).accesses,
        access.row = row ∧ access.type = .wr
    · rcases written with ⟨access, mem, rfl, isWrite⟩
      exact (inv.recorded tid).running growing access mem isWrite
    · rw [histories.ownWrites_nil growing]
      · exact wasClean fun dirty => written dirty.2
      · intro access mem isRow isWrite
        exact written ⟨access, mem, isRow, isWrite⟩
  · exact absurd (by simp [WorkerPc.Committed]) isOpen
  · intro other isTid found inOther foundWrite
    refine ⟨rfl, ?_, by rw [ownWrites, rowWrites_snoc (by simp), ownWrites]⟩
    rw [histories.commit growing, histories.ownWrites_nil growing]
    · rfl
    · intro access mem same isWrite
      apply isTid
      apply locking.writer_alone mem isWrite
      rw [same]
      exact (locking.workers other).owned found inOther

theorem DataInv.copyBack {rest : List (Access Row Data)}
    (here : (threads tid).pc = .restore .abort)
    (first : (threads tid).accesses = access :: rest)
    (isWrite : access.type = .wr) :
    DataInv apply init history (update db.data access.row
        (committedData apply init history access.row))
      (update threads tid
        { threads tid with pc := .release .abort }) := by
  have uncommitted : ¬ (threads tid).pc.Committed := by
    rw [here]
    exact fun notAbort => notAbort rfl
  have mem : access ∈ (threads tid).accesses := by simp [first]
  have alone : ∀ {other found}, found ∈ (threads other).accesses →
      found.type = .wr → found.row = access.row → other = tid := by
    intro other found inOther foundWrite same
    apply locking.writer_alone mem isWrite
    rw [← same]
    exact (locking.workers other).owned found inOther
  refine inv.change ?_ ⟨fun _ => ?_, nofun, fun _ => ?_⟩ ?_
  · intro row untouched wasClean
    by_cases isRow : row = access.row
    · rw [isRow, update_self]
    · rw [update_of_ne isRow]
      apply wasClean
      exact fun dirty => untouched ⟨fun notAbort => notAbort rfl, dirty.2⟩
  · exact (inv.recorded tid).image uncommitted
  · intro found later isFirst _
    rw [first] at isFirst
    cases isFirst
    exact update_self ..
  · intro other isTid found inOther foundWrite
    refine ⟨update_of_ne (fun same => isTid ?_) _ _, rfl, rfl⟩
    exact alone inOther foundWrite same

end

theorem DataInv.release {rc : Rc} {rest : List (Access Row Data)}
    (inv : DataInv apply init history data threads)
    (here : (threads tid).pc = .release rc)
    (first : (threads tid).accesses = access :: rest) :
    DataInv apply init history data (update threads tid
        { threads tid with pc := .restore rc, accesses := rest }) := by
  have committed : (WorkerPc.restore rc : WorkerPc Row).Committed ↔
      (threads tid).pc.Committed := by
    rw [here]
    rfl
  refine inv.change ?_ ⟨?_, nofun, nofun⟩ fun _ _ _ _ _ => ⟨rfl, rfl, rfl⟩
  · intro row untouched wasClean
    by_cases dirty : Dirty (threads tid) row
    · rcases dirty with ⟨uncommitted, found, inAccesses, isRow, isWrite⟩
      rw [first] at inAccesses
      rcases List.mem_cons.1 inAccesses with rfl | inRest
      · rw [here] at uncommitted
        have isAbort : rc = .abort := by
          by_contra notAbort
          exact uncommitted notAbort
        rw [← isRow]
        rw [isAbort] at here
        exact (inv.recorded tid).restored here found rest first isWrite
      · exfalso
        exact untouched ⟨fun isCommitted => uncommitted
          (committed.1 isCommitted), found, inRest, isRow, isWrite⟩
    · exact wasClean dirty
  · intro isOpen found inRest foundWrite
    apply (inv.recorded tid).image _ found _ foundWrite
    · exact fun isCommitted => isOpen (committed.2 isCommitted)
    · rw [first]
      exact List.mem_cons_of_mem access inRest

end Steps

/-! ## Runs -/

section Runs

variable [DecidableEq Addr] {alg : CcAlg} {fuel : Nat}
  {apply : Write → Data → Data} {init : Row → Data} {tid : Fin threadCnt}
  {row : Row} {db : Db threadCnt Row Addr Data}
  {threads : Fin threadCnt → Worker Row Data}
  {history : List (WorkerEvent threadCnt Row Write)}
  {tables : Tables threadCnt Row}
  {action : WorkerAction threadCnt Row Addr Write}
  {outcome : Outcome (Db threadCnt Row Addr Data) (Worker Row Data)
  (WorkerEvent threadCnt Row Write)}

omit [DecidableEq Row] in
theorem afterGet_growing (row : Row) (type : AccessType) (rc : Rc) :
    (afterGet row type rc).Growing ∧ ¬ (afterGet row type rc).Committed := by
  cases rc <;> exact ⟨trivial, id⟩

omit [DecidableEq Row] [DecidableEq Addr] in
theorem FlagMove.growing {type : AccessType} {pc next : WorkerPc Row}
    {lockAbort : Fin threadCnt → Bool}
    (move : FlagMove alg tid db row type pc next lockAbort) :
    (pc.Growing ∧ ¬ pc.Committed) ∧ next.Growing ∧ ¬ next.Committed := by
  cases move <;> exact ⟨⟨trivial, id⟩, trivial, id⟩

omit [DecidableEq Row] [DecidableEq Addr] in
/-- An operation is emitted by a thread that alone owns the row in a
conflicting mode. -/
theorem HistoryInv.access {op : Op (TxnId threadCnt) Row}
    {event : WorkerEvent threadCnt Row Write} {access : Access Row Data}
    (inv : HistoryInv threads history) (locking : LockingInv db threads tables)
    (here : (threads tid).pc = .running) (mem : access ∈ (threads tid).accesses)
    (isOp : workerOp event = some op)
    (isId : op.id = (tid, (threads tid).thdTxnId)) (isRow : access.row = op.row)
    (isWrite : op.write = true → access.type = .wr) :
    HistoryInv threads (history ++ [event]) := by
  have isTid : op.id.1 = tid := by rw [isId]
  apply inv.operate isOp
  · constructor
    · rw [isTid, here]
      trivial
    · rw [isId]
    · rw [isTid]
      exact ⟨access, mem, isRow, isWrite⟩
  · intro other held conflicts
    rcases held.access with ⟨found, inOther, foundRow, foundWrite⟩
    have same : found.row = access.row := by
      rw [foundRow, isRow, conflicts.row]
    rw [isTid]
    rcases conflicts.write with writes | writes
    · apply Eq.symm
      apply locking.writer_alone inOther (foundWrite writes)
      rw [same]
      exact (locking.workers tid).owned access mem
    · apply locking.writer_alone mem (isWrite writes)
      rw [← same]
      exact (locking.workers other.id.1).owned found inOther

theorem HistoryInv.step (inv : HistoryInv threads history)
    (locking : LockingInv db threads tables)
    (move : WorkerMove alg fuel apply tid db (threads tid) action outcome) :
    HistoryInv (update threads tid outcome.thread)
      (history ++ outcome.events) := by
  have quiet : ∀ {worker : Worker Row Data}, Quiet (threads tid) worker →
      HistoryInv (update threads tid worker) (history ++ []) := by
    intro worker isQuiet
    rw [List.append_nil]
    exact inv.quiet isQuiet
  cases move with
  | forceAbort victim => exact quiet (Quiet.refl _)
  | begin here =>
    apply quiet
    refine .inr (.inr ⟨?_, rfl⟩)
    rw [here]
    exact id
  | @getRow row type entry rc after here absent free got =>
    apply quiet
    refine .inl ⟨?_, (afterGet_growing row type rc).1, rfl, List.Subset.refl _⟩
    rw [here]
    trivial
  | @read row here mem =>
    rcases List.mem_map.1 mem with ⟨access, inAccesses, isRow⟩
    rw [update_eq_self]
    exact inv.access locking here inAccesses rfl rfl isRow (by simp)
  | write here mem isRow isWrite =>
    rw [update_eq_self]
    exact inv.access locking here mem rfl rfl isRow fun _ => isWrite
  | finish here isRc =>
    apply inv.finish
    · rw [here]
      trivial
    · exact id
    · rfl
  | flags moved =>
    apply quiet
    exact .inl ⟨moved.growing.1.1, moved.growing.2.1, rfl, List.Subset.refl _⟩
  | giveUp here released =>
    apply quiet
    refine .inl ⟨?_, trivial, rfl, List.Subset.refl _⟩
    rw [here]
    trivial
  | record here =>
    apply quiet
    refine .inl ⟨?_, trivial, rfl, List.subset_cons_self _ _⟩
    rw [here]
    trivial
  | restore here first | returned here empty | release here first released =>
    apply quiet
    refine .inr (.inl ⟨?_, id, rfl⟩)
    rw [here]
    exact id

theorem DataInv.step (inv : DataInv apply init history db.data threads)
    (locking : LockingInv db threads tables)
    (histories : HistoryInv threads history)
    (move : WorkerMove alg fuel apply tid db (threads tid) action outcome) :
    DataInv apply init (history ++ outcome.events) outcome.shared.data
      (update threads tid outcome.thread) := by
  have own := locking.workers tid
  -- the steps inside a transaction that neither write nor access a row for it
  have inside : ∀ {pc : WorkerPc Row} {number : Nat},
      (threads tid).pc.Growing → ¬ (threads tid).pc.Committed →
      pc.Growing → ¬ pc.Committed → number = (threads tid).thdTxnId →
      DataInv apply init (history ++ []) db.data (update threads tid
          ⟨pc, number, (threads tid).accesses⟩) := by
    rintro pc number growing isOpen stillGrowing stillOpen rfl
    rw [List.append_nil]
    refine inv.quiet (fun _ => rfl) (fun _ _ => rfl) (fun _ _ => Iff.rfl)
      ?_ ?_ ?_
    · exact fun _ _ _ => iff_of_false stillOpen isOpen
    · exact fun _ _ _ _ => ⟨growing, rfl⟩
    · intro isRelease
      dsimp only at isRelease
      rw [isRelease] at stillGrowing
      exact stillGrowing.elim
  have released : ∀ {row : Row} {after : Db threadCnt Row Addr Data},
      db.lockRelease fuel tid row = some after → after.data = db.data := by
    intro row after released
    rcases Option.map_eq_some_iff.1 released with ⟨_, -, rfl⟩
    rfl
  cases move with
  | forceAbort victim =>
    dsimp only
    rw [List.append_nil, update_eq_self]
    exact inv
  | begin here =>
    have empty := own.idle here
    dsimp only [beginTxn]
    rw [List.append_nil]
    refine inv.quiet (fun _ => rfl) (fun _ _ => rfl) (fun _ _ => Iff.rfl)
      ?_ ?_ ?_
    · simp [empty]
    · simp [empty]
    · simp
  | @getRow row type entry rc after here absent free got =>
    rcases Option.map_eq_some_iff.1 got with ⟨result, -, same⟩
    cases same
    have next := afterGet_growing row type result.rc
    apply inside _ _ next.1 next.2 rfl
    · rw [here]
      trivial
    · rw [here]
      exact id
  | @read row here mem =>
    refine inv.quiet ?_ ?_ (fun _ _ => Iff.rfl) (fun _ _ _ => Iff.rfl)
      (fun _ _ _ growing => ⟨growing, rfl⟩) ?_
    · intro which
      rw [committedData, committedData, rowWrites_snoc (by simp),
        committedIds_snoc (by simp)]
    · intro id which
      rw [ownWrites, ownWrites, rowWrites_snoc (by simp)]
    · intro isRelease
      rw [here] at isRelease
      cases isRelease
  | @write row write access here mem isRow isWrite =>
    dsimp only
    rw [← isRow]
    apply inv.write locking histories _ _ mem isWrite
    · rw [here]
      trivial
    · rw [here]
      exact id
  | @finish rc here isRc =>
    rcases isRc with rfl | rfl
    · exact inv.commit locking histories here
    · dsimp only
      apply inv.quiet
      · intro which
        rw [committedData, committedData, rowWrites_snoc (by simp),
          committedIds_snoc (by simp)]
      · intro id which
        rw [ownWrites, ownWrites, rowWrites_snoc (by simp)]
      · exact fun _ _ => Iff.rfl
      · intro _ _ _
        rw [here]
        simp [WorkerPc.Committed]
      · exact fun _ _ _ growing => growing.elim
      · simp
  | flags moved =>
    exact inside moved.growing.1.1 moved.growing.1.2 moved.growing.2.1
      moved.growing.2.2 rfl
  | giveUp here isReleased =>
    dsimp only
    rw [released isReleased]
    refine inside ?_ ?_ trivial id rfl
    · rw [here]
      trivial
    · rw [here]
      exact id
  | @record row type here =>
    dsimp only
    rw [List.append_nil]
    by_cases isWrite : type = .wr
    · subst isWrite
      rw [if_pos rfl]
      exact inv.record locking histories here
    · apply inv.quiet (fun _ => rfl) (fun _ _ => rfl)
      · intro access accessWrite
        rw [List.mem_cons]
        constructor
        · rintro (rfl | mem)
          · exact absurd accessWrite isWrite
          · exact mem
        · exact .inr
      · intro _ _ _
        rw [here]
        exact Iff.rfl
      · intro _ _ _ _
        rw [here]
        exact ⟨trivial, rfl⟩
      · simp
  | @restore rc access rest here first =>
    dsimp only
    rw [List.append_nil]
    by_cases isBack : access.type = .wr ∧ rc = .abort
    · rcases isBack with ⟨isWrite, rfl⟩
      have mem : access ∈ (threads tid).accesses := by simp [first]
      have isOpen : ¬ (threads tid).pc.Committed := by
        rw [here]
        exact fun notAbort => notAbort rfl
      have image := (inv.recorded tid).image isOpen access mem isWrite
      have content : (db.restore .abort access).data = update db.data access.row
            (committedData apply init history access.row) := by
        simp [Db.restore, image, isWrite]
      rw [content]
      exact inv.copyBack locking here first isWrite
    · have content : (db.restore rc access).data = db.data := by
        simp only [Db.restore, if_neg isBack]
        split <;> rfl
      rw [content]
      refine inv.quiet (fun _ => rfl) (fun _ _ => rfl) (fun _ _ => Iff.rfl)
        ?_ ?_ ?_
      · intro _ _ _
        rw [here]
        exact Iff.rfl
      · exact fun _ _ _ growing => growing.elim
      · intro isRelease found later isFirst isWrite
        cases isRelease
        dsimp only at isFirst
        rw [first] at isFirst
        cases isFirst
        exact absurd ⟨isWrite, rfl⟩ isBack
  | returned here empty =>
    dsimp only
    rw [List.append_nil]
    refine inv.quiet (fun _ => rfl) (fun _ _ => rfl) (fun _ _ => Iff.rfl)
      ?_ ?_ ?_
    · simp [empty]
    · simp [empty]
    · simp
  | release here first isReleased =>
    dsimp only
    rw [List.append_nil, released isReleased]
    exact inv.release here first

/-- The invariant of the machine. -/
def LockingHolds (apply : Write → Data → Data) (init : Row → Data)
    (history : List (WorkerEvent threadCnt Row Write))
    (config : Config (Fin threadCnt) (Db threadCnt Row Addr Data)
      (Worker Row Data)) : Prop :=
  (∃ tables : Tables threadCnt Row,
      LockingInv config.shared config.threads tables) ∧
    HistoryInv config.threads history ∧
    DataInv apply init history config.shared.data config.threads

theorem locking_holds (locks : alg.locks) (enough : threadCnt ≤ fuel)
    {links : Row → DList Addr} {type : Addr → LockType}
    {txn : Addr → Fin threadCnt} {flags : Fin threadCnt → Bool}
    {ts : Fin threadCnt → Nat}
    {config : Config (Fin threadCnt) (Db threadCnt Row Addr Data)
      (Worker Row Data)}
    (run : (lockingMachine alg fuel apply).Run
      (lockingStart links type txn init flags ts) history config) :
    LockingHolds apply init history config := by
  apply run.invariant (LockingHolds apply init)
  · refine ⟨⟨_, LockingInv.start links type txn init flags ts⟩, ?_, ?_⟩
    · exact ⟨Emitted.nil, by simp, by simp, by simp⟩
    · refine ⟨fun _ _ => rfl, fun _ => ⟨?_, ?_, ?_⟩⟩
      all_goals simp [lockingStart]
  · rintro history config tid action outcome
      ⟨⟨tables, locking⟩, histories, content⟩ - step
    have move := lockingMachine_move step
    rcases locking.step locks enough move with ⟨changed, -, kept⟩
    exact ⟨⟨changed, kept⟩, histories.step locking move,
      content.step locking histories move⟩

omit [DecidableEq Row] in
/-- The calls of `finish` cut every conflict. -/
theorem HistoryInv.serializable (inv : HistoryInv threads history) :
    Serializable workerOp (fun id => .finish id .rcok ∈ history) history := by
  apply serializable_of_cut fun id => .finish id .rcok
  rintro left right isLeft isRight
    ⟨before, event, after, first, second, split, isSecond,
      ⟨earlier, mem, isFirst⟩, rfl, rfl, conflicts⟩
  have allowed := inv.emitted before event after split second isSecond
  refine ⟨before, event :: after, split, ?_, ?_⟩
  · rcases allowed.2 earlier mem first isFirst conflicts with
      ⟨rc, finished⟩
    have inHistory : .finish first.id rc ∈ history := by
      rw [split]
      exact List.mem_append_left _ finished
    rwa [inv.once first.id .rcok rc isLeft inHistory]
  · exact fun finished => allowed.1 ⟨.rcok, finished⟩

/--
Under each of the three locking algorithms the committed transactions are
conflict-serializable, a row that no transaction owns holds the result of the
committed writes only, and a transaction whose `finish` has returned is in no
list of any row.
-/
theorem two_phase_locking_serializable (locks : alg.locks)
    (enough : threadCnt ≤ fuel) {links : Row → DList Addr}
    {type : Addr → LockType} {txn : Addr → Fin threadCnt}
    {flags : Fin threadCnt → Bool} {ts : Fin threadCnt → Nat}
    {config : Config (Fin threadCnt) (Db threadCnt Row Addr Data)
      (Worker Row Data)}
    (run : (lockingMachine alg fuel apply).Run
      (lockingStart links type txn init flags ts) history config) :
    Serializable workerOp (fun id => .finish id .rcok ∈ history) history ∧
    (∀ row, (∀ tid, ¬ Owns (config.shared.locks row) tid) →
      config.shared.data row = committedData apply init history row) ∧
    ∀ tid, (config.threads tid).pc = .idle → ∀ row,
      ¬ Owns (config.shared.locks row) tid ∧
        ¬ Waits (config.shared.locks row) tid := by
  rcases locking_holds locks enough run with
    ⟨⟨tables, locking⟩, histories, content⟩
  refine ⟨histories.serializable, ?_, ?_⟩
  · intro row free
    apply content.clean row
    rintro tid ⟨-, access, member, rfl, -⟩
    apply free tid
    rw [(locking.rows access.row).refines.owns_iff]
    exact List.mem_map_of_mem ((locking.workers tid).owned access member)
  · intro tid here row
    have outside : tid ∉ (tables row).txns := by
      rw [(locking.rows row).members]
      have empty := (locking.workers tid).idle here
      simp [Inside, Worker.rows, empty, here, WorkerPc.row]
    rw [LockTable.txns, List.map_append, List.mem_append, not_or] at outside
    rw [(locking.rows row).refines.owns_iff,
      (locking.rows row).refines.waits_iff]
    exact outside

/--
Transactions are isolated.  An operation that conflicts with an earlier one of
another transaction comes after the `finish` of that transaction, a row that a
transaction reads holds the result of the committed writes, and a row that a
running transaction writes holds the result of its own writes after those.
-/
theorem two_phase_locking_isolated (locks : alg.locks)
    (enough : threadCnt ≤ fuel) {links : Row → DList Addr}
    {type : Addr → LockType} {txn : Addr → Fin threadCnt}
    {flags : Fin threadCnt → Bool} {ts : Fin threadCnt → Nat}
    {config : Config (Fin threadCnt) (Db threadCnt Row Addr Data)
      (Worker Row Data)}
    (run : (lockingMachine alg fuel apply).Run
      (lockingStart links type txn init flags ts) history config) :
    (∀ before event after, history = before ++ event :: after →
      ∀ op, workerOp event = some op → ∀ earlier ∈ before, ∀ first,
        workerOp earlier = some first → Conflicts first op →
        Finished before first.id) ∧
    ∀ tid, ∀ access ∈ (config.threads tid).accesses,
      (access.type.lock = .sh → config.shared.data access.row =
        committedData apply init history access.row) ∧
      (access.type = .wr → (config.threads tid).pc.Growing →
        config.shared.data access.row = applyAll apply
          (ownWrites history (tid, (config.threads tid).thdTxnId) access.row)
          (committedData apply init history access.row)) := by
  rcases locking_holds locks enough run with
    ⟨⟨tables, locking⟩, histories, content⟩
  refine ⟨fun before event after split op isOp =>
    (histories.emitted before event after split op isOp).2,
    fun tid access mem => ⟨fun isRead => ?_, fun isWrite growing =>
      (content.recorded tid).running growing access mem isWrite⟩⟩
  apply content.clean access.row
  rintro other ⟨-, written, isWritten, same, isWrite⟩
  have reads := (locking.workers tid).owned access mem
  have writes := (locking.workers other).owned written isWritten
  rw [isRead] at reads
  rw [same, isWrite] at writes
  cases (locking.rows access.row).exclusive.alone_eq writes rfl reads

end Runs

section

theorem zeroRow_threads : @NeZero Nat Zero.ofOfNat0 2 := ⟨by decide⟩

local instance zeroRowThreads : @NeZero Nat Zero.ofOfNat0 2 := zeroRow_threads

/-- A row with content 0 for two worker threads under `DL_DETECT`. -/
def zeroRow : Config (Fin 2) (Db 2 Unit Nat Nat) (Worker Unit Nat) :=
  lockingStart (fun _ => ⟨fun _ => none, fun _ => none, none, none⟩)
    (fun _ => .none) (fun _ => 0) (fun _ => 0) (fun _ => false) (fun _ => 0)

end

/-- A reader that waited for a writer finds the row as it was before the
writer, which aborts. -/
theorem two_phase_locking_serializable_rollback :
    ∃ config, (lockingMachine .dlDetect 2
          fun (value : Nat) (_ : Nat) => value).Run zeroRow
        [.write (0, 1) () 5, .finish (0, 1) .abort, .read (1, 1) (),
          .finish (1, 1) .rcok] config ∧
      config.shared.data () = 0 ∧ (config.threads 1).pc = .idle ∧
      ∀ row, ¬ Owns (config.shared.locks row) 1 ∧
        ¬ Waits (config.shared.locks row) 1 := by
  have executed : ((lockingMachine .dlDetect 2
      fun (value : Nat) (_ : Nat) => value).execute zeroRow
      [(0, .begin), (0, .getRow () .wr 0), (0, .inside), (0, .write () 5),
        (1, .begin), (1, .getRow () .rd 1), (0, .finish .abort),
        (1, .inside), (1, .inside), (0, .inside), (0, .inside),
        (0, .inside), (1, .inside), (1, .inside), (1, .inside),
        (1, .inside), (1, .inside), (1, .read ()), (1, .finish .rcok),
        (1, .inside), (1, .inside), (1, .inside)]).map
        (fun result => (result.2, result.1.shared.data (),
          (result.1.threads 1).pc)) =
      some ([.write (0, 1) () 5, .finish (0, 1) .abort, .read (1, 1) (),
        .finish (1, 1) .rcok], 0, .idle) := by
    decide +kernel
  rcases Option.map_eq_some_iff.1 executed with
    ⟨⟨config, history⟩, ran, same⟩
  simp only [Prod.mk.injEq] at same
  rcases same with ⟨rfl, isZero, isIdle⟩
  have run := Machine.run_of_execute ran
  exact ⟨config, run, isZero, isIdle,
    (two_phase_locking_serializable (by decide) le_rfl run).2.2 1 isIdle⟩

/-- A row with a reader. -/
theorem two_phase_locking_isolated_reader : ∃ history config,
    (lockingMachine .dlDetect 2 fun (value _ : Nat) => value).Run zeroRow
      history config ∧
    ∃ access ∈ (config.threads 1).accesses, access.type.lock = .sh ∧
      config.shared.data access.row = committedData (fun value _ => value)
        (fun _ => 0) history access.row := by
  have run := Machine.run_of_execute (show (lockingMachine .dlDetect 2
    fun (value _ : Nat) => value).execute zeroRow [(1, .begin),
      (1, .getRow () .rd 1), (1, .inside)] = some (_, _) from rfl)
  exact ⟨_, _, run, _, .head _, rfl, ((two_phase_locking_isolated (by decide)
    le_rfl run).2 1 _ (.head _)).1 rfl⟩

end Lockfreec.Bench
