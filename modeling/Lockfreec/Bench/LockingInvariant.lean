import Lockfreec.Bench.Locking
import Lockfreec.Bench.RowLockInvariant

/-!
# Worker threads and the tables of the rows

Between two steps every row's lock holds a table of requests, and the requests
of a thread are what its place in the program says: it owns the rows of its
access list, and a row that it is getting has its request, as an owner with
`lock_ready` set or as a waiter.
-/

namespace Lockfreec.Bench

open Function Lib.DoublyLinked Lib.Interleaving

variable {threadCnt : Nat} {Row Addr Data Write : Type} [DecidableEq Row]
  [DecidableEq Addr]

/-! ## The steps -/

section Moves

variable {alg : CcAlg} {fuel : Nat} {apply : Write → Data → Data}
  {tid : Fin threadCnt} {db : Db threadCnt Row Addr Data}
  {worker : Worker Row Data}

/-- The moves of a waiting thread that only look at the flags. -/
inductive FlagMove (alg : CcAlg) (tid : Fin threadCnt)
    (db : Db threadCnt Row Addr Data) (row : Row) (type : AccessType) :
    WorkerPc Row → WorkerPc Row → (Fin threadCnt → Bool) → Prop where
  | clearAbort : FlagMove alg tid db row type (.clearAbort row type)
      (.loopReady row type) (update db.lockAbort tid false)
  | ready (isReady : db.lockReady tid = true) : FlagMove alg tid db row type
      (.loopReady row type) (.afterReady row type) db.lockAbort
  | notReady : FlagMove alg tid db row type (.loopReady row type)
      (.loopAbort row type) db.lockAbort
  | abort (isAbort : db.lockAbort tid = true) : FlagMove alg tid db row type
      (.loopAbort row type) (.afterReady row type) db.lockAbort
  | notAbort : FlagMove alg tid db row type (.loopAbort row type)
      (.loopBody row type) db.lockAbort
  | again : FlagMove alg tid db row type (.loopBody row type)
      (.loopReady row type) db.lockAbort
  | timeout (isDlDetect : alg = .dlDetect) : FlagMove alg tid db row type
      (.loopBody row type) (.afterReady row type)
      (update db.lockAbort tid true)
  | granted (isReady : db.lockReady tid = true) : FlagMove alg tid db row type
      (.afterReady row type) (.record row type) db.lockAbort
  | notGranted (notReady : db.lockReady tid = false) :
      FlagMove alg tid db row type (.afterReady row type)
        (.afterAbort row type) db.lockAbort
  | aborted : FlagMove alg tid db row type (.afterAbort row type)
      (.giveUp row type) db.lockAbort
  | neither (notAbort : db.lockAbort tid = false) :
      FlagMove alg tid db row type (.afterAbort row type)
        (.record row type) db.lockAbort

/-- What a step of a worker thread can be. -/
inductive WorkerMove (alg : CcAlg) (fuel : Nat)
    (apply : Write → Data → Data) (tid : Fin threadCnt)
    (db : Db threadCnt Row Addr Data) (worker : Worker Row Data) :
    WorkerAction threadCnt Row Addr Write →
    Outcome (Db threadCnt Row Addr Data) (Worker Row Data)
      (WorkerEvent threadCnt Row Write) → Prop where
  | forceAbort (victim : Fin threadCnt) :
      WorkerMove alg fuel apply tid db worker (.forceAbort victim)
        ⟨{ db with lockAbort := update db.lockAbort victim true }, worker, []⟩
  | begin (here : worker.pc = .idle) :
      WorkerMove alg fuel apply tid db worker .begin
        ⟨beginTxn alg tid db worker,
          { worker with
            pc := .running
            thdTxnId := worker.thdTxnId + 1 }, []⟩
  | getRow {row : Row} {type : AccessType} {entry : Addr} {rc : Rc}
      {after : Db threadCnt Row Addr Data}
      (here : worker.pc = .running) (absent : row ∉ worker.rows)
      (free : (db.locks row).allocated entry = false)
      (got : db.lockGet alg fuel tid row type entry = some (rc, after)) :
      WorkerMove alg fuel apply tid db worker (.getRow row type entry)
        ⟨after, { worker with pc := afterGet row type rc }, []⟩
  | read {row : Row} (here : worker.pc = .running)
      (member : row ∈ worker.rows) :
      WorkerMove alg fuel apply tid db worker (.read row)
        ⟨db, worker, [.read (tid, worker.thdTxnId) row]⟩
  | write {row : Row} {write : Write} {access : Access Row Data}
      (here : worker.pc = .running) (member : access ∈ worker.accesses)
      (isRow : access.row = row) (isWrite : access.type = .wr) :
      WorkerMove alg fuel apply tid db worker (.write row write) ⟨{ db with
            data := update db.data row (apply write (db.data row)) },
          worker, [.write (tid, worker.thdTxnId) row write]⟩
  | finish {rc : Rc} (here : worker.pc = .running)
      (isRc : rc = .rcok ∨ rc = .abort) :
      WorkerMove alg fuel apply tid db worker (.finish rc)
        ⟨db, { worker with pc := .restore rc },
          [.finish (tid, worker.thdTxnId) rc]⟩
  | flags {action : WorkerAction threadCnt Row Addr Write}
      {row : Row} {type : AccessType} {pc : WorkerPc Row}
      {lockAbort : Fin threadCnt → Bool}
      (moved : FlagMove alg tid db row type worker.pc pc lockAbort) :
      WorkerMove alg fuel apply tid db worker action
        ⟨{ db with lockAbort := lockAbort }, { worker with pc := pc }, []⟩
  | giveUp {row : Row} {type : AccessType}
      {after : Db threadCnt Row Addr Data}
      (here : worker.pc = .giveUp row type)
      (released : db.lockRelease fuel tid row = some after) :
      WorkerMove alg fuel apply tid db worker .inside
        ⟨after, { worker with pc := .running }, []⟩
  | record {row : Row} {type : AccessType}
      (here : worker.pc = .record row type) :
      WorkerMove alg fuel apply tid db worker .inside ⟨db, { worker with
          pc := .running
          accesses :=
            ⟨row, type, if type = .wr then some (db.data row) else none⟩ ::
              worker.accesses }, []⟩
  | restore {rc : Rc} {access : Access Row Data}
      {rest : List (Access Row Data)} (here : worker.pc = .restore rc)
      (first : worker.accesses = access :: rest) :
      WorkerMove alg fuel apply tid db worker .inside
        ⟨db.restore rc access, { worker with pc := .release rc }, []⟩
  | returned {rc : Rc} (here : worker.pc = .restore rc)
      (empty : worker.accesses = []) :
      WorkerMove alg fuel apply tid db worker .inside
        ⟨db, { worker with pc := .idle }, []⟩
  | release {rc : Rc} {access : Access Row Data}
      {rest : List (Access Row Data)} {after : Db threadCnt Row Addr Data}
      (here : worker.pc = .release rc)
      (first : worker.accesses = access :: rest)
      (released : db.lockRelease fuel tid access.row = some after) :
      WorkerMove alg fuel apply tid db worker .inside
        ⟨after, { worker with pc := .restore rc, accesses := rest }, []⟩

theorem workerStep_move {after : Db threadCnt Row Addr Data}
    {next : Worker Row Data}
    (step : workerStep fuel tid db worker = some (after, next)) :
    WorkerMove alg fuel apply tid db worker .inside ⟨after, next, []⟩ := by
  obtain ⟨pc, thdTxnId, accesses⟩ := worker
  cases pc with
  | clearAbort row type =>
    cases step
    exact .flags .clearAbort
  | loopReady row type =>
    cases isReady : db.lockReady tid <;>
      simp only [workerStep, isReady] at step <;> cases step
    · exact .flags .notReady
    · exact .flags (.ready isReady)
  | loopAbort row type =>
    cases isAbort : db.lockAbort tid <;>
      simp only [workerStep, isAbort] at step <;> cases step
    · exact .flags .notAbort
    · exact .flags (.abort isAbort)
  | loopBody row type =>
    cases step
    exact .flags .again
  | afterReady row type =>
    cases isReady : db.lockReady tid <;>
      simp only [workerStep, isReady] at step <;> cases step
    · exact .flags (.notGranted isReady)
    · exact .flags (.granted isReady)
  | afterAbort row type =>
    cases isAbort : db.lockAbort tid <;>
      simp only [workerStep, isAbort] at step <;> cases step
    · exact .flags (.neither isAbort)
    · exact .flags .aborted
  | giveUp row type =>
    obtain ⟨_, released, same⟩ := Option.map_eq_some_iff.1 step
    cases same
    exact .giveUp rfl released
  | record row type =>
    cases step
    exact .record rfl
  | restore rc =>
    cases accesses with
    | nil =>
      cases step
      exact .returned rfl rfl
    | cons access rest =>
      cases step
      exact .restore rfl rfl
  | release rc =>
    cases accesses with
    | nil => cases step
    | cons access rest =>
      obtain ⟨_, released, same⟩ := Option.map_eq_some_iff.1 step
      cases same
      exact .release rfl rfl released
  | idle | running => cases step

theorem lockingMachine_move {action : WorkerAction threadCnt Row Addr Write}
    {outcome : Outcome (Db threadCnt Row Addr Data) (Worker Row Data)
      (WorkerEvent threadCnt Row Write)}
    (step : (lockingMachine alg fuel apply).step tid action db worker =
      some outcome) :
    WorkerMove alg fuel apply tid db worker action outcome := by
  cases action with
  | forceAbort victim =>
    cases step
    exact .forceAbort victim
  | begin =>
    obtain ⟨here, same⟩ := Option.ite_none_right_eq_some.1 step
    cases same
    exact .begin here
  | getRow row type entry =>
    obtain ⟨⟨here, absent, -, free⟩, gets⟩ :=
      Option.ite_none_right_eq_some.1 step
    obtain ⟨⟨rc, after⟩, got, rfl⟩ := Option.map_eq_some_iff.1 gets
    exact .getRow here absent free got
  | read row =>
    obtain ⟨⟨here, mem⟩, same⟩ := Option.ite_none_right_eq_some.1 step
    cases same
    exact .read here mem
  | write row write =>
    obtain ⟨⟨here, access, mem, isRow, isWrite⟩, same⟩ :=
      Option.ite_none_right_eq_some.1 step
    cases same
    exact .write here mem isRow isWrite
  | finish rc =>
    obtain ⟨⟨here, isRc⟩, same⟩ := Option.ite_none_right_eq_some.1 step
    cases same
    exact .finish here isRc
  | inside =>
    rcases Option.map_eq_some_iff.1 step with ⟨⟨after, next⟩, inner, rfl⟩
    exact workerStep_move inner
  | timeout =>
    simp only [lockingMachine] at step
    split at step
    · next row type here =>
        obtain ⟨isDlDetect, same⟩ := Option.ite_none_right_eq_some.1 step
        cases same
        exact .flags (here ▸ FlagMove.timeout isDlDetect)
    · cases step

end Moves

/-! ## The invariant -/

/-- The row that a thread is getting. -/
def WorkerPc.row : WorkerPc Row → Option Row
  | .clearAbort row _ | .loopReady row _ | .loopAbort row _ | .loopBody row _
  | .afterReady row _ | .afterAbort row _ | .giveUp row _ | .record row _ =>
    some row
  | _ => none

/-- The thread owns or awaits the row. -/
def Inside (worker : Worker Row Data) (row : Row) : Prop :=
  row ∈ worker.rows ∨ worker.pc.row = some row

/-- The tables of all rows. -/
abbrev Tables (threadCnt : Nat) (Row : Type) :=
  Row → LockTable (Fin threadCnt)

/-- The thread waits for a row, or has been given it. -/
def Pending (tables : Tables threadCnt Row) (db : Db threadCnt Row Addr Data)
    (tid : Fin threadCnt) (row : Row)
    (type : AccessType) : Prop :=
  ⟨tid, type.lock⟩ ∈ (tables row).owners ∧ db.lockReady tid = true ∨
    ⟨tid, type.lock⟩ ∈ (tables row).waiters

/-- The request of a thread that is getting a row. -/
def PcOk (tables : Tables threadCnt Row) (db : Db threadCnt Row Addr Data)
    (tid : Fin threadCnt) : WorkerPc Row → Prop
  | .clearAbort row type | .loopReady row type | .loopAbort row type
  | .loopBody row type => Pending tables db tid row type
  | .afterReady row type => Pending tables db tid row type ∧
      (db.lockReady tid = true ∨ db.lockAbort tid = true)
  | .afterAbort row type => Pending tables db tid row type ∧
      db.lockAbort tid = true
  | .giveUp row type => Pending tables db tid row type
  | .record row type => ⟨tid, type.lock⟩ ∈ (tables row).owners
  | _ => True

/-- The requests of a thread. -/
structure WorkerOk (tables : Tables threadCnt Row)
    (db : Db threadCnt Row Addr Data) (tid : Fin threadCnt)
    (worker : Worker Row Data) : Prop where
  owned : ∀ access ∈ worker.accesses,
    ⟨tid, access.type.lock⟩ ∈ (tables access.row).owners
  distinct : worker.rows.Nodup
  fresh : ∀ row ∈ worker.pc.row, row ∉ worker.rows
  pc : PcOk tables db tid worker.pc
  idle : worker.pc = .idle → worker.accesses = []

structure LockingInv (db : Db threadCnt Row Addr Data)
    (threads : Fin threadCnt → Worker Row Data)
    (tables : Tables threadCnt Row) : Prop where
  rows : ∀ row, RowInv (db.locks row) db.lockReady
    (fun tid => Inside (threads tid) row) (tables row)
  workers : ∀ tid, WorkerOk tables db tid (threads tid)

/-- What a step does to the tables. -/
inductive TableStep (alg : CcAlg) (ts : Fin threadCnt → Nat)
    (tid : Fin threadCnt) (action : WorkerAction threadCnt Row Addr Write)
    (tables : Tables threadCnt Row) : Tables threadCnt Row → Prop where
  | same : TableStep alg ts tid action tables tables
  | get {row : Row} {type : AccessType} {entry : Addr}
      (isGet : action = .getRow row type entry) :
      TableStep alg ts tid action tables (update tables row
        ((tables row).get alg ts ⟨tid, type.lock⟩).2)
  | release {row : Row} (member : tid ∈ (tables row).txns) :
      TableStep alg ts tid action tables (update tables row
        ((tables row).release tid))

theorem lock_ne_none (type : AccessType) : type.lock ≠ .none := by
  cases type <;> decide

section Steps

variable {alg : CcAlg} {fuel : Nat} {apply : Write → Data → Data}
  {tid other : Fin threadCnt} {db after : Db threadCnt Row Addr Data}
  {worker : Worker Row Data} {row : Row} {type : AccessType}
  {threads : Fin threadCnt → Worker Row Data}
  {tables changed : Tables threadCnt Row}

omit [DecidableEq Row] [DecidableEq Addr] in
theorem Pending.mono (pending : Pending tables db tid row type)
    (owners : ⟨tid, type.lock⟩ ∈ (tables row).owners →
      ⟨tid, type.lock⟩ ∈ (changed row).owners)
    (waiters : ⟨tid, type.lock⟩ ∈ (tables row).waiters →
      ⟨tid, type.lock⟩ ∈ (changed row).waiters ∨
        ⟨tid, type.lock⟩ ∈ (changed row).owners ∧ after.lockReady tid = true)
    (ready : db.lockReady tid = true → after.lockReady tid = true) :
    Pending changed after tid row type := by
  rcases pending with ⟨isOwner, isReady⟩ | isWaiter
  · exact .inl ⟨owners isOwner, ready isReady⟩
  · exact (waiters isWaiter).symm

omit [DecidableEq Row] [DecidableEq Addr] in
theorem WorkerOk.mono (ok : WorkerOk tables db tid worker)
    (owners : ∀ row type, ⟨tid, type⟩ ∈ (tables row).owners →
      ⟨tid, type⟩ ∈ (changed row).owners)
    (waiters : ∀ row type, ⟨tid, type⟩ ∈ (tables row).waiters →
      ⟨tid, type⟩ ∈ (changed row).waiters ∨
        ⟨tid, type⟩ ∈ (changed row).owners ∧ after.lockReady tid = true)
    (ready : db.lockReady tid = true → after.lockReady tid = true)
    (abort : db.lockAbort tid = true → after.lockAbort tid = true) :
    WorkerOk changed after tid worker where
  owned := fun access mem => owners _ _ (ok.owned access mem)
  distinct := ok.distinct
  fresh := ok.fresh
  pc := by
    have pending : ∀ row type, Pending tables db tid row type →
        Pending changed after tid row type := fun row type pending =>
      pending.mono (owners row _) (waiters row _) ready
    have isOk := ok.pc
    cases here : worker.pc with
    | afterReady row type =>
      rw [here] at isOk
      exact ⟨pending row type isOk.1, isOk.2.imp ready abort⟩
    | afterAbort row type =>
      rw [here] at isOk
      exact ⟨pending row type isOk.1, abort isOk.2⟩
    | record row type =>
      rw [here] at isOk
      exact owners row _ isOk
    | idle | running | restore | release => trivial
    | _ row type =>
      rw [here] at isOk
      exact pending row type isOk
  idle := ok.idle

omit [DecidableEq Addr] in
theorem WorkerOk.elsewhere {table : LockTable (Fin threadCnt)}
    {pc : WorkerPc Row} {accesses : List (Access Row Data)}
    (own : WorkerOk tables db tid worker)
    (fewer : ∀ access ∈ accesses, access ∈ worker.accesses)
    (distinct : (accesses.map Access.row).Nodup)
    (absent : row ∉ accesses.map Access.row)
    (fresh : ∀ row ∈ pc.row, row ∉ accesses.map Access.row)
    (isOk : PcOk (update tables row table) after tid pc) (busy : pc ≠ .idle) :
    WorkerOk (update tables row table) after tid
      ⟨pc, worker.thdTxnId, accesses⟩ where
  owned := by
    intro access mem
    have notRow : access.row ≠ row := by
      rintro rfl
      exact absent (List.mem_map_of_mem mem)
    rw [update_of_ne notRow]
    exact own.owned access (fewer access mem)
  distinct := distinct
  fresh := fresh
  pc := isOk
  idle := fun isIdle => absurd isIdle busy

omit [DecidableEq Row] [DecidableEq Addr] in
theorem inside_update (same : Inside worker row ↔ Inside (threads tid) row) :
    ∀ other, Inside (threads other) row ↔
      Inside (update threads tid worker other) row :=
  (forall_update_iff threads fun other worker =>
    (Inside (threads other) row ↔ Inside worker row)).2
      ⟨same.symm, fun _ _ => Iff.rfl⟩

section

variable (inv : LockingInv db threads tables)

include inv

omit [DecidableEq Row] [DecidableEq Addr] in
theorem LockingInv.waiter_row
    (isWaiter : other ∈ (tables row).waiters.map Request.txn) :
    (threads other).pc.row = some row := by
  rcases List.mem_map.1 isWaiter with ⟨waiter, mem, rfl⟩
  have isInside := ((inv.rows row).members waiter.txn).1
    (LockTable.mem_txns (.inr mem))
  rcases isInside with isAccess | isPc
  · exfalso
    rcases List.mem_map.1 isAccess with ⟨access, inAccesses, rfl⟩
    have isOwner := (inv.workers waiter.txn).owned access inAccesses
    exact LockTable.owner_not_waiter (inv.rows access.row).distinct
      (List.mem_map_of_mem isOwner) isWaiter
  · exact isPc

omit [DecidableEq Row] [DecidableEq Addr] in
theorem LockingInv.private (locks : after.locks = db.locks)
    (ready : after.lockReady = db.lockReady)
    (abort : ∀ other, other ≠ tid → db.lockAbort other = true →
      after.lockAbort other = true)
    (own : WorkerOk tables after tid worker)
    (inside : ∀ row, Inside worker row ↔ Inside (threads tid) row) :
    LockingInv after (update threads tid worker) tables where
  rows := by
    intro row
    rw [locks, ready]
    exact (inv.rows row).congr (inside_update (inside row))
  workers := by
    refine (forall_update_iff threads (WorkerOk tables after)).2
      ⟨own, fun other isTid => ?_⟩
    apply (inv.workers other).mono
    · exact fun _ _ mem => mem
    · exact fun _ _ mem => .inl mem
    · rw [ready]
      exact id
    · exact abort other isTid

omit [DecidableEq Addr] in
theorem LockingInv.locked {lock : RowLock Addr (Fin threadCnt)}
    {table : LockTable (Fin threadCnt)}
    (locks : after.locks = update db.locks row lock)
    (abort : after.lockAbort = db.lockAbort)
    (kept : RowInv lock after.lockReady
      (fun other => Inside (update threads tid worker other) row)
      table)
    (inside : ∀ which, which ≠ row →
      (Inside worker which ↔ Inside (threads tid) which))
    (waiting : ∀ which, which ≠ row → ∀ waiter ∈ (tables which).waiters,
      after.lockReady waiter.txn = false)
    (ready : ∀ other, other ≠ tid → db.lockReady other = true →
      after.lockReady other = true)
    (owners : ∀ request ∈ (tables row).owners, request.txn ≠ tid →
      request ∈ table.owners)
    (waiters : ∀ request ∈ (tables row).waiters, request.txn ≠ tid →
      request ∈ table.waiters ∨
        request ∈ table.owners ∧ after.lockReady request.txn = true)
    (own : WorkerOk (update tables row table) after tid worker) :
    LockingInv after (update threads tid worker) (update tables row table) where
  rows := by
    intro which
    rw [locks]
    by_cases isRow : which = row
    · subst isRow
      rw [update_self, update_self]
      exact kept
    · rw [update_of_ne isRow, update_of_ne isRow]
      have before := inv.rows which
      refine { before with members := ?_, notReady := waiting which isRow }
      intro other
      rw [before.members]
      exact inside_update (inside which isRow) other
  workers := by
    refine (forall_update_iff threads (WorkerOk _ after)).2
      ⟨own, fun other isTid => ?_⟩
    apply (inv.workers other).mono
    · refine (forall_update_iff tables fun which table => ∀ type,
        ⟨other, type⟩ ∈ (tables which).owners → ⟨other, type⟩ ∈ table.owners).2
          ⟨fun type mem => owners _ mem isTid, fun _ _ _ => id⟩
    · refine (forall_update_iff tables fun which table => ∀ type,
        ⟨other, type⟩ ∈ (tables which).waiters → ⟨other, type⟩ ∈ table.waiters ∨
          ⟨other, type⟩ ∈ table.owners ∧ after.lockReady other = true).2
          ⟨fun type mem => waiters _ mem isTid, fun _ _ _ => .inl⟩
    · exact ready other isTid
    · rw [abort]
      exact id

/-- A call of `lock_get`. -/
theorem LockingInv.lockGet {entry : Addr} {rc : Rc} (locks : alg.locks)
    (enough : threadCnt ≤ fuel) (here : (threads tid).pc = .running)
    (absent : row ∉ (threads tid).rows)
    (free : (db.locks row).allocated entry = false)
    (got : db.lockGet alg fuel tid row type entry = some (rc, after)) :
    LockingInv after (update threads tid
        { threads tid with pc := afterGet row type rc })
      (update tables row ((tables row).get alg db.ts ⟨tid, type.lock⟩).2) := by
  have outside : ¬ Inside (threads tid) row := by
    simp [Inside, here, absent, WorkerPc.row]
  have move : LockTable.GetMove alg db.ts (tables row) ⟨tid, type.lock⟩
      ((tables row).get alg db.ts ⟨tid, type.lock⟩) :=
    LockTable.get_move
  have few : (Finset.univ : Finset (Fin threadCnt)).card ≤ threadCnt := by
    simp
  rcases (inv.rows row).get db.ts db.txnId locks (lock_ne_none type) free
      outside few (Finset.mem_univ tid) (fun other _ => Finset.mem_univ other)
      enough with
    ⟨result, answered, isRc, -, ready, kept⟩
  rw [Db.lockGet, answered, Option.map_some] at got
  cases got
  have answers := move.answers
  rw [← isRc] at answers
  have getting : (afterGet row type result.rc).row =
      if result.rc = .abort then none else some row := by
    rcases answers with ⟨isRcok, -⟩ | ⟨isWait, -⟩ | isAbort
    · rw [isRcok]
      rfl
    · rw [isWait]
      rfl
    · rw [isAbort]
      rfl
  have same : ∀ other, other ≠ tid →
      result.ready other = db.lockReady other := by
    intro other isTid
    rw [ready]
    split
    · exact update_of_ne isTid _ _
    · rfl
  have own := inv.workers tid
  refine inv.locked rfl rfl ?_ ?_ ?_ ?_ ?_ ?_ ?_
  · apply kept.congr
    intro other
    by_cases isTid : other = tid
    · subst isTid
      rw [update_self, or_iff_right outside]
      change _ ↔ row ∈ (threads other).rows ∨
        (afterGet row type result.rc).row = some row
      rw [or_iff_right absent, getting]
      by_cases isAbort : result.rc = .abort
      · simp [isAbort]
      · simp [isAbort]
    · rw [update_of_ne isTid]
      simp [isTid]
  · intro which isRow
    simp only [Inside, getting, here]
    split
    · simp [WorkerPc.row, Worker.rows]
    · simp [WorkerPc.row, Worker.rows, Ne.symm isRow]
  · intro which isRow waiter isWaiter
    have isFalse := (inv.rows which).notReady waiter isWaiter
    change result.ready waiter.txn = false
    rw [ready]
    split
    · by_cases isTid : waiter.txn = tid
      · rw [isTid, update_self]
      · rw [update_of_ne isTid]
        exact isFalse
    · exact isFalse
  · intro other isTid isReady
    exact (same other isTid).trans isReady
  · exact fun request mem _ => move.keeps.1 mem
  · exact fun request mem _ => .inl (move.keeps.2 mem)
  · refine own.elsewhere (fun _ => id) own.distinct absent ?_ ?_ ?_
    · intro which isWhich
      rw [getting] at isWhich
      split at isWhich
      · cases isWhich
      · cases isWhich
        exact absent
    · rcases answers with ⟨isRcok, isOwner⟩ | ⟨isWait, isWaiter⟩ | isAbort
      · rw [isRcok]
        change _ ∈ (update tables row _ row).owners
        rw [update_self]
        exact isOwner
      · rw [isWait]
        change _ ∨ _ ∈ (update tables row _ row).waiters
        rw [update_self]
        exact .inr isWaiter
      · rw [isAbort]
        trivial
    · cases result.rc <;> nofun

/-- A call of `lock_release`. -/
theorem LockingInv.lockRelease (enough : threadCnt ≤ fuel)
    (isInside : Inside (threads tid) row)
    (released : db.lockRelease fuel tid row = some after)
    (gone : ¬ Inside worker row)
    (inside : ∀ which, which ≠ row →
      (Inside worker which ↔ Inside (threads tid) which))
    (own : WorkerOk (update tables row ((tables row).release tid))
      after tid worker) :
    LockingInv after (update threads tid worker)
      (update tables row ((tables row).release tid)) := by
  have few : (Finset.univ : Finset (Fin threadCnt)).card ≤ fuel := by
    simpa using enough
  have member := ((inv.rows row).members tid).2 isInside
  rcases (inv.rows row).release isInside few
      (fun other _ => Finset.mem_univ other) with
    ⟨lock, isReleased, kept⟩
  rw [Db.lockRelease, isReleased, Option.map_some] at released
  cases released
  refine inv.locked rfl rfl ?_ inside ?_ ?_ ?_ ?_ own
  · apply kept.congr
    intro other
    by_cases isTid : other = tid
    · subst isTid
      rw [update_self]
      simp [gone]
    · rw [update_of_ne isTid]
      simp [isTid]
  · intro which isRow waiter isWaiter
    have here := inv.waiter_row (List.mem_map_of_mem isWaiter)
    have notGranted : waiter.txn ∉
        ((tables row).granted tid).map Request.txn := by
      intro isGranted
      apply isRow
      have waits : waiter.txn ∈ (tables row).waiters.map Request.txn := by
        rcases List.mem_map.1 isGranted with ⟨granted, inGranted, same⟩
        rw [← same]
        apply List.mem_map_of_mem
        apply (LockTable.remove_move member).waiters_sublist.subset
        rw [← LockTable.release_waiters]
        exact List.mem_append_left _ inGranted
      rw [inv.waiter_row waits] at here
      exact (Option.some.inj here).symm
    change (decide _ || db.lockReady waiter.txn) = false
    rw [decide_eq_false notGranted, Bool.false_or]
    exact (inv.rows which).notReady waiter isWaiter
  · intro other isTid isReady
    change (_ || db.lockReady other) = true
    rw [isReady, Bool.or_true]
  · exact fun request isOwner ne =>
      (LockTable.release_keeps member ne).1 isOwner
  · intro request isWaiter ne
    rcases (LockTable.release_keeps member ne).2 isWaiter with
      stays | ⟨isOwner, isGranted⟩
    · exact .inl stays
    · refine .inr ⟨isOwner, ?_⟩
      change (decide _ || _) = true
      rw [decide_eq_true (List.mem_map_of_mem isGranted), Bool.true_or]

variable {pc next : WorkerPc Row} {lockAbort : Fin threadCnt → Bool}

section

variable (move : FlagMove alg tid db row type pc next lockAbort)

include move

section

omit inv

omit [DecidableEq Row] [DecidableEq Addr] in
theorem FlagMove.row_eq : next.row = pc.row := by
  cases move <;> rfl

omit [DecidableEq Row] [DecidableEq Addr] in
theorem FlagMove.busy : next ≠ .idle := by
  cases move <;> simp

omit [DecidableEq Row] [DecidableEq Addr] in
/-- Only the thread itself clears its `lock_abort`. -/
theorem FlagMove.others (ne : other ≠ tid) :
    lockAbort other = db.lockAbort other := by
  cases move with
  | clearAbort | timeout => exact update_of_ne ne _ _
  | _ => rfl

end

omit [DecidableEq Row] [DecidableEq Addr] in
/-- A thread that finds its flags leaves the loop with the row, or with
`lock_abort` set. -/
theorem FlagMove.ok (isOk : PcOk tables db tid pc) :
    PcOk tables { db with lockAbort := lockAbort } tid next := by
  cases move with
  | clearAbort | notReady | notAbort | again => exact isOk
  | ready isReady => exact ⟨isOk, .inl isReady⟩
  | abort isAbort => exact ⟨isOk, .inr isAbort⟩
  | timeout isDlDetect =>
    exact ⟨isOk, .inr (update_self ..)⟩
  | granted isReady =>
    rcases isOk.1 with ⟨isOwner, -⟩ | isWaiter
    · exact isOwner
    · have notReady := (inv.rows row).notReady _ isWaiter
      rw [isReady] at notReady
      cases notReady
  | notGranted notReady =>
    rcases isOk.2 with isReady | isAbort
    · rw [notReady] at isReady
      cases isReady
    · exact ⟨isOk.1, isAbort⟩
  | aborted => exact isOk.1
  | neither notAbort =>
    rw [isOk.2] at notAbort
    cases notAbort

end

theorem LockingInv.step {action : WorkerAction threadCnt Row Addr Write}
    {outcome : Outcome (Db threadCnt Row Addr Data) (Worker Row Data)
      (WorkerEvent threadCnt Row Write)} (locks : alg.locks)
    (enough : threadCnt ≤ fuel)
    (move : WorkerMove alg fuel apply tid db (threads tid) action outcome) :
    ∃ changed, TableStep alg db.ts tid action tables changed ∧
      LockingInv outcome.shared
        (update threads tid outcome.thread) changed := by
  have own := inv.workers tid
  cases move with
  | forceAbort victim =>
    refine ⟨tables, .same, inv.private rfl rfl ?_ ?_ fun _ => Iff.rfl⟩
    · intro other _ isAbort
      by_cases isVictim : other = victim
      · rw [isVictim]
        exact update_self ..
      · exact (update_of_ne isVictim _ _).trans isAbort
    · refine own.mono (fun _ _ mem => mem)
        (fun _ _ mem => .inl mem) id fun isAbort => ?_
      by_cases isVictim : tid = victim
      · rw [isVictim]
        exact update_self ..
      · exact (update_of_ne isVictim _ _).trans isAbort
  | begin here | finish here isRc =>
    refine ⟨tables, .same, inv.private rfl rfl (fun _ _ => id) ?_ ?_⟩
    · exact ⟨own.owned, own.distinct, by simp [WorkerPc.row], trivial, by simp⟩
    · intro row
      simp [Inside, here, WorkerPc.row, Worker.rows]
  | getRow here absent free got =>
    exact ⟨_, .get rfl, inv.lockGet locks enough here absent free got⟩
  | read here mem =>
    exact ⟨tables, .same,
      inv.private rfl rfl (fun _ _ => id) own fun _ => Iff.rfl⟩
  | write here mem isRow isWrite =>
    refine ⟨tables, .same, inv.private rfl rfl (fun _ _ => id) ?_
      fun _ => Iff.rfl⟩
    exact own.mono (fun _ _ mem => mem) (fun _ _ mem => .inl mem) id id
  | flags moved =>
    refine ⟨tables, .same, inv.private rfl rfl ?_ ?_ ?_⟩
    · intro other ne isAbort
      exact (moved.others ne).trans isAbort
    · refine ⟨own.owned, own.distinct, ?_, moved.ok inv own.pc,
        fun isIdle => absurd isIdle moved.busy⟩
      intro row isRow
      apply own.fresh row
      rwa [← moved.row_eq]
    · intro row
      simp [Inside, moved.row_eq, Worker.rows]
  | @giveUp row type after here released =>
    have isInside : Inside (threads tid) row := by
      simp [Inside, here, WorkerPc.row]
    have fresh : row ∉ (threads tid).rows :=
      own.fresh row (by simp [here, WorkerPc.row])
    refine ⟨_, .release (((inv.rows row).members tid).2 isInside),
      inv.lockRelease enough isInside released ?_ ?_ ?_⟩
    · rintro (isAccess | isPc)
      · exact fresh isAccess
      · cases isPc
    · intro which isRow
      simp [Inside, here, WorkerPc.row, Worker.rows, Ne.symm isRow]
    · exact own.elsewhere (fun _ => id) own.distinct fresh nofun trivial nofun
  | @record row type here =>
    have isOwner := own.pc
    have fresh : row ∉ (threads tid).rows :=
      own.fresh row (by simp [here, WorkerPc.row])
    rw [here] at isOwner
    refine ⟨tables, .same, inv.private rfl rfl (fun _ _ => id) ?_ ?_⟩
    · refine ⟨?_, List.nodup_cons.2 ⟨fresh, own.distinct⟩,
        by simp [WorkerPc.row], trivial, by simp⟩
      exact List.forall_mem_cons.2 ⟨isOwner, own.owned⟩
    · intro which
      simp [Inside, here, WorkerPc.row, Worker.rows, eq_comm, or_comm]
  | @restore rc access rest here first =>
    have same : (db.restore rc access).locks = db.locks ∧
        (db.restore rc access).lockReady = db.lockReady ∧
        (db.restore rc access).lockAbort = db.lockAbort := by
      simp only [Db.restore]
      split
      · split <;> simp
      · simp
    refine ⟨tables, .same, inv.private same.1 same.2.1 ?_ ?_ ?_⟩
    · intro other _ isAbort
      rw [same.2.2]
      exact isAbort
    · exact ⟨own.owned, own.distinct, by simp [WorkerPc.row], trivial, by simp⟩
    · intro row
      simp [Inside, here, WorkerPc.row, Worker.rows]
  | returned here empty =>
    refine ⟨tables, .same, inv.private rfl rfl (fun _ _ => id) ?_ ?_⟩
    · exact ⟨own.owned, own.distinct, by simp [WorkerPc.row], trivial,
        fun _ => empty⟩
    · intro row
      simp [Inside, here, WorkerPc.row, Worker.rows]
  | @release rc access rest after here first released =>
    have distinct := own.distinct
    rw [Worker.rows, first, List.map_cons, List.nodup_cons] at distinct
    have isInside : Inside (threads tid) access.row :=
      .inl (by simp [Worker.rows, first])
    refine ⟨_, .release (((inv.rows access.row).members tid).2 isInside),
      inv.lockRelease enough isInside released ?_ ?_ ?_⟩
    · rintro (isAccess | isPc)
      · exact distinct.1 isAccess
      · cases isPc
    · intro which isRow
      simp [Inside, here, WorkerPc.row, Worker.rows, first, isRow]
    · refine own.elsewhere ?_ distinct.2 distinct.1 nofun trivial nofun
      rw [first]
      exact fun _ => List.mem_cons_of_mem access

end

omit [DecidableEq Row] [DecidableEq Addr] in
theorem LockingInv.start (links : Row → DList Addr)
    (entryType : Addr → LockType) (txn : Addr → Fin threadCnt)
    (data : Row → Data) (flags : Fin threadCnt → Bool)
    (ts : Fin threadCnt → Nat) :
    LockingInv (lockingStart links entryType txn data flags ts).shared
      (lockingStart links entryType txn data flags ts).threads
      (fun _ => ⟨.none, [], []⟩) where
  rows := by
    intro row
    refine ⟨⟨[], [], ?_⟩, ?_, ?_, ?_, ?_, ?_⟩
    · exact ⟨⟨rfl, ⟨rfl, rfl⟩, by simp, by simp, rfl, rfl⟩, rfl, rfl, rfl⟩
    · exact ⟨by simp, by simp, by simp, by simp⟩
    · rintro head ⟨⟩
    · exact List.nodup_nil
    · intro tid
      simp [LockTable.txns, lockingStart, Inside, Worker.rows, WorkerPc.row]
    · simp
  workers := by
    intro tid
    exact ⟨by simp [lockingStart], List.nodup_nil,
      by simp [lockingStart, WorkerPc.row], trivial, fun _ => rfl⟩

end Steps

end Lockfreec.Bench
