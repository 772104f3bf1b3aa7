import Lockfreec.Bench.OccRow
import Lockfreec.Lib.Serializability
import Mathlib.Data.Prod.Lex
import Mathlib.Order.WithBot

/-!
# Serial order of row validation

A transaction holds the latches of all its rows when it draws its `end_ts`,
and a writer keeps them until it has written.  A row that was valid then still
has the contents that the transaction has read, and nobody with an earlier
`end_ts` has yet to write it.  The transactions are therefore serial in the
order of their `end_ts`.

The latches are taken in the order of table names and primary keys, so nobody
waits for a latch in a circle.
-/

namespace Lockfreec.Bench

open Function Lib.BubbleSort Lib.Interleaving Lib.SerialLog Lib.Serializability

section

variable {Tid Row Name Data : Type}

/-! ## What a worker holds -/

/-- The accesses whose latches a worker holds. -/
def OccRowWorker.held (worker : OccRowWorker Row Data) :
    List (OccCopy Row Data) :=
  match worker.pc with
  | .latching held _ => held
  | .validating held access _ => held ++ [access]
  | .drawing | .writing _ => worker.accesses
  | .releasing _ todo => todo
  | _ => []

/-- The accesses that a worker has found valid. -/
def OccRowWorker.valid (worker : OccRowWorker Row Data) :
    List (OccCopy Row Data) :=
  match worker.pc with
  | .latching held _ | .validating held _ _ => held
  | .drawing => worker.accesses
  | _ => []

/-- The writes of a worker that has its `end_ts` and has not done them. -/
def OccRowWorker.pending (worker : OccRowWorker Row Data) :
    List (OccCopy Row Data) :=
  match worker.pc with
  | .writing todo => todo.filter fun access => access.type = .wr
  | _ => []

/-- The transaction has no `end_ts` yet. -/
def OccRowPc.reading : OccRowPc Row Data → Bool
  | .running | .latching _ _ | .validating _ _ _ | .drawing => true
  | _ => false

/-- The transaction has its `end_ts` and all its latches. -/
def OccRowPc.drawn : OccRowPc Row Data → Bool
  | .writing _ => true
  | _ => false

/-- The lists of a worker are parts of its accesses. -/
def OccRowWorker.Shape (worker : OccRowWorker Row Data) : Prop :=
  match worker.pc with
  | .latching held todo => worker.accesses = held ++ todo
  | .validating held access todo => worker.accesses = held ++ access :: todo
  | .writing todo => todo.Sublist worker.accesses.reverse
  | .releasing _ todo => todo.Sublist worker.accesses
  | .crashed => False
  | _ => True

theorem OccRowWorker.valid_subset {worker : OccRowWorker Row Data} :
    ∀ access ∈ worker.valid, access ∈ worker.held := by
  intro access mem
  unfold OccRowWorker.valid at mem
  unfold OccRowWorker.held
  split at mem
  · next here =>
      simp only [here]
      exact mem
  · next here =>
      simp only [here]
      exact List.mem_append_left _ mem
  · next here =>
      simp only [here]
      exact mem
  · cases mem

theorem OccRowWorker.pending_drawn {worker : OccRowWorker Row Data}
    (shape : worker.Shape) : ∀ access ∈ worker.pending,
      worker.pc.drawn = true ∧ access ∈ worker.accesses ∧
        access ∈ worker.held ∧ access.type = .wr := by
  intro access member
  unfold OccRowWorker.Shape at shape
  unfold OccRowWorker.pending at member
  unfold OccRowWorker.held
  split at member
  · next here =>
      simp only [here] at shape ⊢
      obtain ⟨member, isWrite⟩ := List.mem_filter.1 member
      have member := List.mem_reverse.1 (shape.subset member)
      exact ⟨rfl, member, member, of_decide_eq_true isWrite⟩
  · cases member

theorem OccRowWorker.drawn_held {worker : OccRowWorker Row Data}
    (drawn : worker.pc.drawn = true) : worker.held = worker.accesses := by
  unfold OccRowWorker.held
  cases here : worker.pc with
  | writing todo => rfl
  | _ => simp [here, OccRowPc.drawn] at drawn

/-! ## The invariant -/

section

variable [DecidableEq Row]

/-- What a worker can rely on. -/
structure OccRowWorker.Ok (init : Row → Data) (db : OccRowDb Tid Row Data)
    (log : List (Logged (Tid × Nat) Row Data))
    (worker : OccRowWorker Row Data) : Prop where
  once : (worker.accesses.map OccCopy.row).Nodup
  shape : worker.Shape
  startTs : worker.startTs < db.timestamp
  endTs : worker.endTs < db.timestamp
  fresh : worker.pc.reading = true → ∀ access ∈ worker.accesses,
    (db.rows access.row).wts ≤ worker.startTs →
      (db.rows access.row).row = access.read
  valid : ∀ access ∈ worker.valid, (db.rows access.row).wts ≤ worker.startTs
  pending : ∀ access ∈ worker.pending,
    replay init log access.row = access.data ∧
      (db.rows access.row).wts < worker.endTs

/-- A reader of a row that somebody is about to write started before. -/
def StartedBefore (reader writer : OccRowWorker Row Data) : Prop :=
  reader.pc.reading = true → writer.pc.drawn = true →
    ∀ mine ∈ reader.accesses, ∀ theirs ∈ writer.accesses,
      mine.row = theirs.row → reader.startTs < writer.endTs

structure OccRowInv (init : Row → Data) (db : OccRowDb Tid Row Data)
    (threads : Tid → OccRowWorker Row Data)
    (log : List (Logged (Tid × Nat) Row Data)) : Prop where
  latched : ∀ row tid, (db.rows row).latch = some tid ↔
    row ∈ (threads tid).held.map OccCopy.row
  workers : ∀ tid, (threads tid).Ok init db log
  late : ∀ tid other, tid ≠ other → StartedBefore (threads tid) (threads other)
  clock : ∀ row, (db.rows row).wts < db.timestamp
  settled : ∀ row, (∀ tid, ∀ access ∈ (threads tid).pending, access.row ≠ row) →
      (db.rows row).row = replay init log row
  serial : Serial init log
  increasing : log.Pairwise fun first second => first.stamp < second.stamp
  logged : ∀ txn ∈ log, txn.stamp < db.timestamp ∧
    (txn.writes.map Prod.fst).Nodup

variable {init : Row → Data} {db after : OccRowDb Tid Row Data}
  {threads : Tid → OccRowWorker Row Data}
  {log : List (Logged (Tid × Nat) Row Data)} {tid : Tid}
  {worker : OccRowWorker Row Data}

theorem OccRowDb.setRow_self {row : Row} {contents : RowOcc Tid Data} :
    (db.setRow row contents).rows row = contents :=
  update_self ..

theorem OccRowDb.setRow_of_ne {row each : Row} {contents : RowOcc Tid Data}
    (ne : each ≠ row) :
    (db.setRow row contents).rows each = db.rows each :=
  update_of_ne ne _ _

theorem OccRowInv.holder_unique (inv : OccRowInv init db threads log)
    {other : Tid} {row : Row} (mine : row ∈ (threads tid).held.map OccCopy.row)
    (theirs : row ∈ (threads other).held.map OccCopy.row) : tid = other := by
  have first := (inv.latched row tid).2 mine
  rw [(inv.latched row other).2 theirs] at first
  exact (Option.some.inj first).symm

theorem OccRowWorker.Ok.congr (ok : worker.Ok init db log)
    {log' : List (Logged (Tid × Nat) Row Data)}
    (grows : db.timestamp ≤ after.timestamp)
    (fresh : worker.pc.reading = true → ∀ access ∈ worker.accesses,
      (after.rows access.row).wts ≤ worker.startTs →
        (db.rows access.row).wts ≤ worker.startTs ∧
          (after.rows access.row).row = (db.rows access.row).row)
    (held : ∀ access ∈ worker.held,
      (after.rows access.row).wts = (db.rows access.row).wts)
    (kept : ∀ access ∈ worker.pending,
      replay init log' access.row = replay init log access.row) :
    worker.Ok init after log' where
  once := ok.once
  shape := ok.shape
  startTs := Nat.lt_of_lt_of_le ok.startTs grows
  endTs := Nat.lt_of_lt_of_le ok.endTs grows
  fresh := by
    intro reads access mem old
    obtain ⟨wasOld, same⟩ := fresh reads access mem old
    rw [same]
    exact ok.fresh reads access mem wasOld
  valid := by
    intro access mem
    rw [held access (worker.valid_subset access mem)]
    exact ok.valid access mem
  pending := by
    intro access mem
    rw [kept access mem,
      held access (worker.pending_drawn ok.shape access mem).2.2.1]
    exact ok.pending access mem

theorem OccRowWorker.Ok.frame (ok : worker.Ok init db log)
    (grows : db.timestamp ≤ after.timestamp)
    (same : ∀ row, (after.rows row).wts = (db.rows row).wts ∧
      (after.rows row).row = (db.rows row).row) :
    worker.Ok init after log := by
  refine ok.congr grows (fun _ access _ early => ?_)
    (fun access _ => (same access.row).1) fun _ _ => rfl
  rw [(same access.row).1] at early
  exact ⟨early, (same access.row).2⟩

variable [DecidableEq Tid] {old : OccRowWorker Row Data} {row : Row}
  {access : OccCopy Row Data} {txnCnt startTs endTs : Nat}
  {accesses todo held : List (OccCopy Row Data)}

section

variable (inv : OccRowInv init db threads log)

include inv

section

variable (here : threads tid = old)

include here

theorem OccRowInv.change (grows : db.timestamp ≤ after.timestamp)
    (same : ∀ row, (after.rows row).wts = (db.rows row).wts ∧
      (after.rows row).row = (db.rows row).row)
    (latched : ∀ row other, (after.rows row).latch = some other ↔
      row ∈ (update threads tid worker other).held.map OccCopy.row)
    (ok : worker.Ok init after log)
    (late : ∀ other ≠ tid, StartedBefore worker (threads other))
    (drawn : worker.pc.drawn = true → old.pc.drawn = true ∧
      worker.accesses = old.accesses ∧ worker.endTs = old.endTs)
    (pending : worker.pending = old.pending) :
    OccRowInv init after (update threads tid worker) log := by
  subst here
  refine ⟨latched, ?_, ?_, ?_, ?_, inv.serial, inv.increasing, ?_⟩
  · exact forall_update (OccRowWorker.Ok init _ log) ok fun other _ =>
      (inv.workers other).frame grows same
  · refine pairwise_update StartedBefore inv.late fun other ne =>
      ⟨late other ne, fun reads draws => ?_⟩
    obtain ⟨wasDrawn, sameAccesses, sameEnd⟩ := drawn draws
    rw [sameAccesses, sameEnd]
    exact inv.late other tid ne reads wasDrawn
  · intro row
    rw [(same row).1]
    exact Nat.lt_of_lt_of_le (inv.clock row) grows
  · intro row none
    rw [(same row).2]
    refine inv.settled row fun other => ?_
    have samePending := project_update OccRowWorker.pending pending other
    rw [← samePending]
    exact none other
  · intro txn mem
    exact (inv.logged txn mem).imp_left fun early =>
      Nat.lt_of_lt_of_le early grows

theorem OccRowInv.private {timestamp : Nat} (grows : db.timestamp ≤ timestamp)
    (held : worker.held = old.held)
    (ok : worker.Ok init { db with timestamp := timestamp } log)
    (late : ∀ other ≠ tid, StartedBefore worker (threads other))
    (drawn : worker.pc.drawn = true → old.pc.drawn = true ∧
      worker.accesses = old.accesses ∧ worker.endTs = old.endTs)
    (pending : worker.pending = old.pending) :
    OccRowInv init { db with timestamp := timestamp }
      (update threads tid worker) log := by
  refine inv.change here grows (fun _ => ⟨rfl, rfl⟩) (fun row other => ?_) ok
    late drawn pending
  subst here
  have sameHeld := project_update OccRowWorker.held held other
  rw [sameHeld]
  exact inv.latched row other

theorem OccRowInv.relatch {latch : Option Tid}
    (latched : ∀ other, latch = some other ↔
      row ∈ (update threads tid worker other).held.map OccCopy.row)
    (others : ∀ each ≠ row, each ∈ worker.held.map OccCopy.row ↔
      each ∈ old.held.map OccCopy.row) (ok : worker.Ok init db log)
    (late : ∀ other ≠ tid, StartedBefore worker (threads other))
    (drawn : worker.pc.drawn = true → old.pc.drawn = true ∧
      worker.accesses = old.accesses ∧ worker.endTs = old.endTs)
    (pending : worker.pending = old.pending) :
    OccRowInv init (db.setRow row { db.rows row with latch := latch })
      (update threads tid worker) log := by
  have same : ∀ each, ((db.setRow row
        { db.rows row with latch := latch }).rows each).wts =
        (db.rows each).wts ∧
      ((db.setRow row { db.rows row with latch := latch }).rows each).row =
        (db.rows each).row := by
    intro each
    by_cases isRow : each = row
    · rw [isRow, OccRowDb.setRow_self]
      exact ⟨rfl, rfl⟩
    · rw [OccRowDb.setRow_of_ne isRow]
      exact ⟨rfl, rfl⟩
  refine inv.change here (Nat.le_refl _) same (fun each other => ?_)
    (ok.frame (Nat.le_refl _) same) late drawn pending
  subst here
  by_cases isRow : each = row
  · subst isRow
    rw [OccRowDb.setRow_self]
    exact latched other
  · rw [OccRowDb.setRow_of_ne isRow, inv.latched each other]
    by_cases isTid : other = tid
    · subst isTid
      rw [update_self, others each isRow]
    · rw [update_of_ne isTid]

end

/-! ## Drawing the `end_ts` -/

omit inv in
omit [DecidableEq Row] [DecidableEq Tid] in
theorem logged_writes_once (tid : Tid)
    (once : (worker.accesses.map OccCopy.row).Nodup) (endTs : Nat) :
    ((worker.logged tid endTs).writes.map Prod.fst).Nodup := by
  rw [OccRowWorker.logged, List.map_map]
  exact once.sublist (List.filter_sublist.map OccCopy.row)

omit inv in
omit [DecidableEq Row] [DecidableEq Tid] in
theorem logged_writes_row {endTs : Nat}
    (mem : row ∈ (worker.logged tid endTs).writes.map Prod.fst) :
    ∃ access ∈ worker.accesses, access.type = .wr ∧ access.row = row := by
  rw [OccRowWorker.logged, List.map_map] at mem
  obtain ⟨access, mem, isRow⟩ := List.mem_map.1 mem
  obtain ⟨mem, isWrite⟩ := List.mem_filter.1 mem
  exact ⟨access, mem, of_decide_eq_true isWrite, isRow⟩

theorem OccRowInv.draw (here : threads tid =
      ⟨.drawing, txnCnt, startTs, endTs, accesses⟩) :
    OccRowInv init { db with timestamp := db.timestamp + 1 } (update threads tid
        ⟨.writing accesses.reverse, txnCnt, startTs, db.timestamp, accesses⟩)
      (log ++ [OccRowWorker.logged tid db.timestamp
        ⟨.drawing, txnCnt, startTs, endTs, accesses⟩]) := by
  have ok := here ▸ inv.workers tid
  have alone : ∀ access ∈ accesses, ∀ other,
      ∀ write ∈ (threads other).pending, write.row ≠ access.row := by
    intro access mem other write isPending same
    have theirs : write.row ∈ (threads other).held.map OccCopy.row :=
      List.mem_map_of_mem ((threads other).pending_drawn
        (inv.workers other).shape write isPending).2.2.1
    have mine : write.row ∈ (threads tid).held.map OccCopy.row := by
      rw [same, here]
      exact List.mem_map_of_mem mem
    have isTid := inv.holder_unique mine theirs
    subst isTid
    rw [here] at isPending
    cases isPending
  have apart : ∀ other, ∀ write ∈ (threads other).pending,
      write.row ∉ (OccRowWorker.logged tid db.timestamp
        ⟨.drawing, txnCnt, startTs, endTs, accesses⟩).writes.map Prod.fst := by
    intro other write isPending mem
    obtain ⟨access, mem, -, same⟩ := logged_writes_row mem
    exact alone access mem other write isPending same.symm
  have once := logged_writes_once tid ok.once db.timestamp
  refine ⟨?_, ?_, ?_, ?_, ?_, ?_, ?_, ?_⟩
  · intro row other
    refine (inv.latched row other).trans ?_
    rw [project_update OccRowWorker.held]
    rw [here]
    rfl
  · refine forall_update (OccRowWorker.Ok init _ _) ?_ fun other _ => ?_
    · refine ⟨ok.once, List.Sublist.refl _, Nat.lt_succ_of_lt ok.startTs,
        Nat.lt_succ_self _, nofun, nofun, ?_⟩
      intro access mem
      obtain ⟨mem, isWrite⟩ := List.mem_filter.1 mem
      refine ⟨?_, inv.clock access.row⟩
      rw [replay_snoc]
      exact store_of_mem once (List.mem_map_of_mem (List.mem_filter.2
        ⟨List.mem_reverse.1 mem, isWrite⟩))
    · refine (inv.workers other).congr (Nat.le_succ _)
        (fun _ _ _ old => ⟨old, rfl⟩) (fun _ _ => rfl) fun write mem => ?_
      rw [replay_snoc, store_of_not_mem (apart other write mem)]
  · refine pairwise_update StartedBefore inv.late fun other _ =>
      ⟨nofun, fun _ _ _ _ _ _ _ => (inv.workers other).startTs⟩
  · exact fun row => Nat.lt_succ_of_lt (inv.clock row)
  · intro row none
    rw [replay_snoc, store_of_not_mem]
    · refine inv.settled row fun other write mem => none other write ?_
      by_cases isTid : other = tid
      · rw [isTid, here] at mem
        cases mem
      · rwa [update_of_ne isTid]
    · intro mem
      obtain ⟨access, mem, isWrite, isRow⟩ := logged_writes_row mem
      refine none tid access ?_ isRow
      rw [update_self]
      exact List.mem_filter.2 ⟨List.mem_reverse.2 mem, decide_eq_true isWrite⟩
  · refine inv.serial.snoc ?_
    intro read isRead
    obtain ⟨access, mem, rfl⟩ := List.mem_map.1 isRead
    show replay init log access.row = access.read
    rw [← inv.settled access.row (alone access mem)]
    exact ok.fresh rfl access mem (ok.valid access mem)
  · refine List.pairwise_append.2
      ⟨inv.increasing, List.pairwise_singleton _ _, ?_⟩
    intro txn mem last isLast
    rw [List.mem_singleton.1 isLast]
    exact (inv.logged txn mem).1
  · intro txn mem
    rcases List.mem_append.1 mem with mem | mem
    · exact (inv.logged txn mem).imp_left Nat.lt_succ_of_lt
    · rw [List.mem_singleton.1 mem]
      exact ⟨Nat.lt_succ_self _, once⟩

/-! ## Writing a row back -/

theorem OccRowInv.write (here : threads tid =
      ⟨.writing (access :: todo), txnCnt, startTs, endTs, accesses⟩)
    (isWrite : access.type = .wr) :
    ∃ written, (db.rows access.row).write access.data endTs = some written ∧
      OccRowInv init (db.setRow access.row written) (update threads tid
          ⟨.writing todo, txnCnt, startTs, endTs, accesses⟩) log := by
  have ok := here ▸ inv.workers tid
  have isPending : (threads tid).pending =
      access :: todo.filter fun access => access.type = .wr := by
    simp [OccRowWorker.pending, here, isWrite]
  obtain ⟨value, early⟩ := ok.pending access
    (by rw [← here, isPending]; exact .head _)
  have shape : (access :: todo).Sublist accesses.reverse := ok.shape
  have mem : access ∈ accesses :=
    List.mem_reverse.1 (shape.subset (.head _))
  have distinct : ∀ other ∈ todo, other.row ≠ access.row := by
    have once : ((access :: todo).map OccCopy.row).Nodup := by
      refine List.Nodup.sublist (shape.map _) ?_
      rw [List.map_reverse]
      exact List.nodup_reverse.2 ok.once
    rw [List.map_cons, List.nodup_cons] at once
    intro other mem same
    exact once.1 (List.mem_map.2 ⟨other, mem, same⟩)
  have elsewhere : ∀ other ≠ tid, ∀ held ∈ (threads other).held,
      held.row ≠ access.row := by
    intro other ne held isTheirs same
    have mine : held.row ∈ (threads tid).held.map OccCopy.row := by
      rw [here, same]
      exact List.mem_map_of_mem mem
    exact ne (inv.holder_unique (List.mem_map_of_mem isTheirs) mine)
  refine ⟨_, by rw [RowOcc.write, if_pos early], ?_⟩
  refine ⟨?_, ?_, ?_, ?_, ?_, inv.serial, inv.increasing, inv.logged⟩
  · intro row other
    rw [project_update OccRowWorker.held, ← inv.latched row other]
    · by_cases isRow : row = access.row
      · rw [isRow, OccRowDb.setRow_self]
      · rw [OccRowDb.setRow_of_ne isRow]
    · rw [here]
      rfl
  · refine forall_update (OccRowWorker.Ok init _ log) ?_ fun other ne => ?_
    · refine ⟨ok.once, (List.sublist_cons_self _ _).trans shape, ok.startTs,
        ok.endTs, nofun, nofun, ?_⟩
      intro later mem
      obtain ⟨inTodo, -⟩ := List.mem_filter.1 mem
      rw [OccRowDb.setRow_of_ne (distinct later inTodo)]
      refine ok.pending later ?_
      rw [← here, isPending]
      exact .tail _ mem
    · refine (inv.workers other).congr (Nat.le_refl _) ?_ ?_ (fun _ _ => rfl)
      · intro reads mine inAccesses old
        by_cases isRow : mine.row = access.row
        · have before := inv.late other tid ne reads
          rw [here] at before
          rw [isRow, OccRowDb.setRow_self] at old
          exact absurd old (Nat.not_le.2
            (before rfl mine inAccesses access mem isRow))
        · rw [OccRowDb.setRow_of_ne isRow] at old ⊢
          exact ⟨old, rfl⟩
      · intro held inHeld
        rw [OccRowDb.setRow_of_ne (elsewhere other ne held inHeld)]
  · refine pairwise_update StartedBefore inv.late fun other ne =>
      ⟨nofun, fun reads _ => ?_⟩
    have before := inv.late other tid ne reads
    rw [here] at before
    exact before rfl
  · intro row
    by_cases isRow : row = access.row
    · rw [isRow, OccRowDb.setRow_self]
      exact ok.endTs
    · rw [OccRowDb.setRow_of_ne isRow]
      exact inv.clock row
  · intro row none
    by_cases isRow : row = access.row
    · rw [isRow, OccRowDb.setRow_self, value]
    · rw [OccRowDb.setRow_of_ne isRow]
      refine inv.settled row fun other write waits => ?_
      have settled := none other write
      by_cases isTid : other = tid
      · subst isTid
        rw [isPending] at waits
        rw [update_self] at settled
        rcases List.mem_cons.1 waits with rfl | waits
        · exact Ne.symm isRow
        · exact settled waits
      · rw [update_of_ne isTid] at settled
        exact settled waits

/-! ## Every step -/

omit inv in
omit [DecidableEq Row] [DecidableEq Tid] in
/-- The copies may change, but not what was read. -/
theorem modify_reads (accesses : List (OccCopy Row Data)) (rid : Nat)
    (data : Data) :
    (accesses.modify rid fun access => { access with data := data }).map
        (fun access => (access.row, access.read)) =
      accesses.map fun access => (access.row, access.read) := by
  induction accesses generalizing rid with
  | nil => cases rid <;> rfl
  | cons first rest ih =>
    cases rid with
    | zero => rfl
    | succ rid =>
      rw [List.modify_succ_cons, List.map_cons, List.map_cons, ih]

section

variable (here : threads tid = old)

include here

section

variable (worker : OccRowWorker Row Data) (wasReading : old.pc.reading = true)
  (same : ∀ access ∈ worker.accesses, ∃ before ∈ old.accesses,
    access.row = before.row ∧ access.read = before.read)
  (once : (worker.accesses.map OccCopy.row).Nodup)
  (shape : worker.Shape) (sameStart : worker.startTs = old.startTs)
  (sameEnd : worker.endTs = old.endTs)
  (valid : ∀ access ∈ worker.valid, (db.rows access.row).wts ≤ worker.startTs)
  (pending : worker.pending = [])

include wasReading same once shape sameStart sameEnd valid pending

omit [DecidableEq Tid] in
theorem OccRowInv.keepReading : worker.Ok init db log ∧
      ∀ other ≠ tid, StartedBefore worker (threads other) := by
  subst here
  have ok := inv.workers tid
  refine ⟨⟨once, shape, ?_, ?_, ?_, valid, ?_⟩, ?_⟩
  · rw [sameStart]
    exact ok.startTs
  · rw [sameEnd]
    exact ok.endTs
  · intro _ access mem old
    obtain ⟨before, isOld, sameRow, sameRead⟩ := same access mem
    rw [sameRow, sameStart] at old
    rw [sameRow, sameRead]
    exact ok.fresh wasReading before isOld old
  · rw [pending]
    exact nofun
  · intro other ne _ draws mine mem theirs isTheirs sameRow
    obtain ⟨before, isOld, isRow, -⟩ := same mine mem
    rw [sameStart]
    exact inv.late tid other ne.symm wasReading draws before isOld
      theirs isTheirs (isRow.symm.trans sameRow)

theorem OccRowInv.goOn (held : worker.held = old.held)
    (drawn : worker.pc.drawn = false) (none : old.pending = []) :
    OccRowInv init db (update threads tid worker) log := by
  obtain ⟨kept, late⟩ := inv.keepReading here worker wasReading same once
    shape sameStart sameEnd valid pending
  exact inv.private here (Nat.le_refl _) held kept late (by simp [drawn])
    (pending.trans none.symm)

end

omit inv here in
omit [DecidableEq Tid] in
theorem OccRowWorker.Ok.done (ok : worker.Ok init db log)
    {pc : OccRowPc Row Data} (shape : { worker with pc := pc }.Shape)
    (reading : pc.reading = false) (valid : { worker with pc := pc }.valid = [])
    (pending : { worker with pc := pc }.pending = []) :
    { worker with pc := pc }.Ok init db log := by
  refine ⟨ok.once, shape, ok.startTs, ok.endTs, ?_, ?_, ?_⟩
  · simp [reading]
  · simp [valid]
  · simp [pending]

/-- A step behind the last read and write that keeps the latches. -/
theorem OccRowInv.wind {pc : OccRowPc Row Data}
    (held : { old with pc := pc }.held = old.held)
    (shape : { old with pc := pc }.Shape) (reading : pc.reading = false)
    (drawn : pc.drawn = false) (valid : { old with pc := pc }.valid = [])
    (pending : { old with pc := pc }.pending = []) (none : old.pending = []) :
    OccRowInv init db (update threads tid { old with pc := pc }) log := by
  refine inv.private here (Nat.le_refl _) held
    ((here ▸ inv.workers tid).done shape reading valid pending) ?_
    (by simp [drawn]) (pending.trans none.symm)
  intro other _ isReading
  rw [reading] at isReading
  cases isReading

end

theorem OccRowInv.latch (here : threads tid =
      ⟨.latching held (access :: todo), txnCnt, startTs, endTs, accesses⟩)
    (free : (db.rows access.row).latch = none) :
    OccRowInv init
      (db.setRow access.row { db.rows access.row with latch := some tid })
      (update threads tid
        ⟨.validating held access todo, txnCnt, startTs, endTs, accesses⟩)
      log := by
  have ok := here ▸ inv.workers tid
  obtain ⟨kept, late⟩ := inv.keepReading here
    ⟨.validating held access todo, txnCnt, startTs, endTs, accesses⟩ rfl
    (fun access mem => ⟨access, mem, rfl, rfl⟩) ok.once ok.shape rfl rfl
    ok.valid rfl
  refine inv.relatch here (fun other => ?_) (fun each ne => ?_) kept
    late nofun rfl
  · by_cases isTid : other = tid
    · subst isTid
      rw [update_self]
      refine iff_of_true rfl (List.mem_map_of_mem ?_)
      exact List.mem_append_right held (.head _)
    · rw [update_of_ne isTid, ← inv.latched, free]
      exact iff_of_false (fun same => isTid (Option.some.inj same).symm) nofun
  · show each ∈ (held ++ [access]).map _ ↔ each ∈ held.map _
    rw [List.map_append, List.mem_append]
    refine or_iff_left fun isLast => ne ?_
    exact List.mem_singleton.1 isLast

theorem OccRowInv.release {rc : Rc} (here : threads tid =
      ⟨.releasing rc (access :: todo), txnCnt, startTs, endTs, accesses⟩) :
    OccRowInv init
      (db.setRow access.row { db.rows access.row with latch := none })
      (update threads tid
        ⟨.releasing rc todo, txnCnt, startTs, endTs, accesses⟩) log := by
  have ok := here ▸ inv.workers tid
  have shape : (access :: todo).Sublist accesses := ok.shape
  have once := ok.once.sublist (shape.map _)
  rw [List.map_cons, List.nodup_cons] at once
  refine inv.relatch here (fun other => iff_of_false nofun ?_)
    (fun each ne => ?_)
    (ok.done ((List.sublist_cons_self _ _).trans shape) rfl rfl rfl) nofun
    nofun rfl
  · by_cases isTid : other = tid
    · subst isTid
      rw [update_self]
      exact once.1
    · rw [update_of_ne isTid]
      intro mem
      refine isTid (inv.holder_unique mem ?_)
      rw [here]
      exact .head _
  · exact (or_iff_right ne).symm.trans List.mem_cons.symm

theorem OccRowInv.inside
    {outcome : Outcome (OccRowDb Tid Row Data) (OccRowWorker Row Data)
      (Logged (Tid × Nat) Row Data)}
    (step : occRowInside tid db (threads tid) = some outcome) :
    OccRowInv init outcome.shared (update threads tid outcome.thread)
      (log ++ outcome.events) := by
  have logged : OccRowInv init outcome.shared
      (update threads tid outcome.thread) log → outcome.events = [] →
      OccRowInv init outcome.shared (update threads tid outcome.thread)
        (log ++ outcome.events) := by
    intro kept none
    rwa [none, List.append_nil]
  generalize here : threads tid = old at step
  rcases old with ⟨pc, txnCnt, startTs, endTs, accesses⟩
  have ok := here ▸ inv.workers tid
  cases pc with
  | latching held todo =>
    cases todo with
    | nil =>
      cases step
      have shape : accesses = held ++ [] := ok.shape
      rw [List.append_nil] at shape
      subst shape
      exact logged (inv.goOn here _ rfl
        (fun access mem => ⟨access, mem, rfl, rfl⟩) ok.once trivial rfl
        rfl ok.valid rfl rfl rfl rfl) rfl
    | cons access todo =>
      simp only [occRowInside] at step
      split at step
      · cases step
      · next free =>
          cases step
          exact logged (inv.latch here free) rfl
  | validating held access todo =>
    have shape : accesses = held ++ access :: todo := ok.shape
    simp only [occRowInside] at step
    split at step
    · next isValid =>
        cases step
        refine logged (inv.goOn here _ rfl
          (fun access mem => ⟨access, mem, rfl, rfl⟩) ok.once ?_ rfl rfl
          ?_ rfl rfl rfl rfl) rfl
        · exact shape.trans (List.append_cons ..)
        · intro each mem
          rcases List.mem_append.1 mem with mem | mem
          · exact ok.valid each mem
          · rw [List.mem_singleton.1 mem]
            simpa [RowOcc.validate] using isValid
    · cases step
      refine logged (inv.wind here rfl ?_ rfl rfl rfl rfl rfl) rfl
      show (held ++ [access]).Sublist accesses
      rw [shape]
      exact (List.singleton_sublist.2 (.head _)).append_left held
  | drawing =>
    cases step
    exact inv.draw here
  | writing todo =>
    cases todo with
    | nil =>
      cases step
      exact logged (inv.wind here rfl (List.Sublist.refl _) rfl rfl rfl rfl
        rfl) rfl
    | cons access todo =>
      simp only [occRowInside] at step
      split at step
      · next isWrite =>
          obtain ⟨written, wrote, kept⟩ := inv.write here isWrite
          rw [wrote] at step
          cases step
          exact logged kept rfl
      · next isRead =>
          cases step
          have same : OccRowWorker.pending
              ⟨.writing todo, txnCnt, startTs, endTs, accesses⟩ =
              OccRowWorker.pending
                ⟨.writing (access :: todo), txnCnt, startTs, endTs, accesses⟩ := by
            simp [OccRowWorker.pending, isRead]
          refine logged (inv.private here (Nat.le_refl _) rfl
            ⟨ok.once, (List.sublist_cons_self _ _).trans ok.shape, ok.startTs,
              ok.endTs, nofun, nofun, same ▸ ok.pending⟩ nofun
            (fun _ => ⟨rfl, rfl, rfl⟩) same) rfl
  | releasing rc todo =>
    cases todo with
    | nil =>
      cases step
      exact logged (inv.wind here rfl trivial rfl rfl rfl rfl rfl) rfl
    | cons access todo =>
      cases step
      exact logged (inv.release here) rfl
  | _ => cases step

theorem OccRowInv.accessed {type : AccessType}
    (here : threads tid = ⟨.running, txnCnt, startTs, endTs, accesses⟩)
    (free : (db.rows row).latch = none)
    (newRow : row ∉ accesses.map OccCopy.row) :
    OccRowInv init db (update threads tid (occRowAccess db row type
      ⟨.running, txnCnt, startTs, endTs, accesses⟩)) log := by
  have ok := here ▸ inv.workers tid
  have before := inv.late tid
  rw [here] at before
  rw [occRowAccess]
  split
  · exact inv.wind here rfl trivial rfl rfl rfl rfl rfl
  · refine inv.private here (Nat.le_refl _) rfl
      ⟨?_, trivial, ok.startTs, ok.endTs, ?_, nofun, nofun⟩ ?_ nofun rfl
    · show ((accesses ++ [_]).map OccCopy.row).Nodup
      rw [List.map_append]
      refine List.nodup_append.2 ⟨ok.once, List.nodup_singleton _, ?_⟩
      rintro old isOld new isNew rfl
      rw [List.mem_singleton.1 isNew] at isOld
      exact newRow isOld
    · intro _ access mem old
      rcases List.mem_append.1 mem with mem | mem
      · exact ok.fresh rfl access mem old
      · rw [List.mem_singleton.1 mem]
    · intro other ne _ draws mine mem theirs isTheirs sameRow
      rcases List.mem_append.1 mem with mem | mem
      · exact before other ne.symm rfl draws mine mem theirs isTheirs sameRow
      · have latched : row ∈ (threads other).held.map OccCopy.row := by
          rw [OccRowWorker.drawn_held draws, List.mem_map]
          refine ⟨theirs, isTheirs, ?_⟩
          rw [← sameRow, List.mem_singleton.1 mem]
        rw [← inv.latched, free] at latched
        cases latched

theorem OccRowInv.step [LinearOrder Name] {names : RowNames Row Name}
    {action : OccRowAction Row Data}
    {outcome : Outcome (OccRowDb Tid Row Data) (OccRowWorker Row Data)
      (Logged (Tid × Nat) Row Data)}
    (step : (occRowMachine names).step tid action db (threads tid) =
      some outcome) :
    OccRowInv init outcome.shared (update threads tid outcome.thread)
      (log ++ outcome.events) := by
  generalize here : threads tid = old at step
  rcases old with ⟨pc, txnCnt, startTs, endTs, accesses⟩
  have ok := here ▸ inv.workers tid
  cases action with
  | inside => exact inv.inside (here ▸ step)
  | begin =>
    cases pc with
    | idle =>
      cases step
      rw [List.append_nil]
      exact inv.private here (Nat.le_succ _) rfl ⟨.nil, trivial,
        Nat.lt_succ_self _, Nat.succ_pos _, nofun, nofun, nofun⟩
        (fun _ _ _ _ _ => nofun) nofun rfl
    | _ => cases step
  | getRow row type =>
    cases pc with
    | running =>
      simp only [occRowMachine] at step
      split at step
      · next allowed =>
          cases step
          rw [List.append_nil]
          exact inv.accessed here (Option.isNone_iff_eq_none.1 allowed.1)
            allowed.2
      · cases step
    | _ => cases step
  | modify rid data =>
    cases pc with
    | running =>
      cases step
      rw [List.append_nil]
      have reads := modify_reads accesses rid data
      have rows := congrArg (List.map Prod.fst) reads
      rw [List.map_map, List.map_map] at rows
      refine inv.goOn here _ rfl (fun access mem => ?_) (rows ▸ ok.once)
        trivial rfl rfl nofun rfl rfl rfl rfl
      have image : (access.row, access.read) ∈ accesses.map
          fun access => (access.row, access.read) := by
        rw [← reads]
        exact List.mem_map_of_mem mem
      obtain ⟨old, isOld, same⟩ := List.mem_map.1 image
      exact ⟨old, isOld, (Prod.mk.inj same).1.symm, (Prod.mk.inj same).2.symm⟩
    | _ => cases step
  | giveUp =>
    cases pc with
    | running =>
      cases step
      rw [List.append_nil]
      exact inv.wind here rfl trivial rfl rfl rfl rfl rfl
    | _ => cases step
  | validate =>
    cases pc with
    | running =>
      cases step
      rw [List.append_nil]
      have perm := bubbleSort_perm names.swap accesses
      exact inv.goOn here _ rfl
        (fun access mem => ⟨access, perm.mem_iff.1 mem, rfl, rfl⟩)
        ((perm.map _).nodup_iff.2 ok.once) rfl rfl rfl nofun rfl rfl rfl rfl
    | _ => cases step

end

omit [DecidableEq Tid] in
theorem OccRowInv.start (init : Row → Data) :
    OccRowInv init (occRowStart init : Config Tid _ _).shared
      (fun _ => ⟨.idle, 0, 0, 0, []⟩) [] where
  latched := fun _ _ => iff_of_false nofun List.not_mem_nil
  workers := fun _ => ⟨.nil, trivial, Nat.one_pos, Nat.one_pos, nofun, nofun,
    nofun⟩
  late := nofun
  clock := fun _ => Nat.one_pos
  settled := fun _ _ => rfl
  serial := .nil
  increasing := .nil
  logged := nofun

/-! ## The order of the latches -/

section

variable [LinearOrder Name] (names : RowNames Row Name)

/-- The key by which the accesses are sorted. -/
def RowNames.key (row : Row) : Name ×ₗ Nat :=
  toLex (names.tableName row, names.primaryKey row)

omit [DecidableEq Row] in
theorem RowNames.swap_iff (left right : OccCopy Row Data) :
    names.swap left right = true ↔
      names.key right.row < names.key left.row := by
  simp only [RowNames.swap, RowNames.key, Prod.Lex.toLex_lt_toLex,
    Bool.or_eq_true, Bool.and_eq_true, decide_eq_true_eq]
  exact or_congr_right (and_congr_left' eq_comm)

/-- The accesses are sorted once validation has begun. -/
def OccRowWorker.Sorted (worker : OccRowWorker Row Data) : Prop :=
  worker.pc = .idle ∨ worker.pc = .running ∨
    worker.accesses.Pairwise fun left right =>
      names.key left.row ≤ names.key right.row

omit [DecidableEq Tid] in
theorem OccRowWorker.Sorted.inside
    {outcome : Outcome (OccRowDb Tid Row Data) (OccRowWorker Row Data)
      (Logged (Tid × Nat) Row Data)}
    (sorted : worker.Sorted names)
    (step : occRowInside tid db worker = some outcome) :
    outcome.thread.Sorted names := by
  have kept : outcome.thread.accesses = worker.accesses := by
    simp only [occRowInside] at step
    split at step
    all_goals (try split at step)
    all_goals (try split at step)
    all_goals first | (cases step; rfl) | cases step
  rcases sorted with here | here | sorted
  · simp only [occRowInside, here] at step
    cases step
  · simp only [occRowInside, here] at step
    cases step
  · refine .inr (.inr ?_)
    rw [kept]
    exact sorted

omit [DecidableEq Tid] in
theorem OccRowWorker.Sorted.step {action : OccRowAction Row Data}
    {outcome : Outcome (OccRowDb Tid Row Data) (OccRowWorker Row Data)
      (Logged (Tid × Nat) Row Data)}
    (sorted : worker.Sorted names)
    (step : (occRowMachine names).step tid action db worker = some outcome) :
    outcome.thread.Sorted names := by
  simp only [occRowMachine] at step
  split at step
  · cases step
    exact .inr (.inl rfl)
  · next here =>
      split at step
      · cases step
        show (occRowAccess db _ _ worker).Sorted names
        rw [occRowAccess]
        split
        · exact .inl rfl
        · exact .inr (.inl here)
      · cases step
  · next here =>
      cases step
      exact .inr (.inl here)
  · cases step
    exact .inl rfl
  · cases step
    exact .inr (.inr (bubbleSort_sorted names.swap_iff worker.accesses))
  · exact sorted.inside names step
  · cases step

/-- The first worker waits for a latch that the second one holds. -/
def LatchWaits (db : OccRowDb Tid Row Data)
    (threads : Tid → OccRowWorker Row Data) (first second : Tid) : Prop :=
  ∃ held access todo, (threads first).pc = .latching held (access :: todo) ∧
    (db.rows access.row).latch = some second

/-- The key of the row that a worker wants to latch. -/
def OccRowWorker.wanted (worker : OccRowWorker Row Data) :
    WithTop (Name ×ₗ Nat) :=
  match worker.pc with
  | .latching _ (access :: _) => names.key access.row
  | _ => ⊤

omit [DecidableEq Tid] in
/-- A worker holds only rows below the one it wants. -/
theorem OccRowWorker.held_lt_wanted (distinct : ∀ left right : Row,
      names.tableName left = names.tableName right →
      names.primaryKey left = names.primaryKey right → left = right)
    (ok : worker.Ok init db log) (sorted : worker.Sorted names)
    {row : Row} (holds : row ∈ worker.held.map OccCopy.row) :
    (names.key row : WithTop (Name ×ₗ Nat)) < worker.wanted names := by
  unfold OccRowWorker.wanted
  split
  · next held access todo here =>
      have shape := ok.shape
      simp only [OccRowWorker.Shape, here] at shape
      simp only [OccRowWorker.held, here] at holds
      obtain ⟨mine, isHeld, rfl⟩ := List.mem_map.1 holds
      have sorted : worker.accesses.Pairwise fun left right =>
          names.key left.row ≤ names.key right.row := by
        rcases sorted with isIdle | isRunning | sorted
        · rw [here] at isIdle
          cases isIdle
        · rw [here] at isRunning
          cases isRunning
        · exact sorted
      have once := ok.once
      rw [shape, List.map_append, List.map_cons] at once
      rw [shape, List.pairwise_append] at sorted
      have below := sorted.2.2 mine isHeld access (.head _)
      refine WithTop.coe_lt_coe.2 (lt_of_le_of_ne below fun same => ?_)
      have pair := toLex_inj.1 same
      obtain ⟨sameTable, sameKey⟩ := Prod.mk.inj pair
      have sameRow := distinct _ _ sameTable sameKey
      exact (List.nodup_append.1 once).2.2 mine.row
        (List.mem_map_of_mem isHeld) access.row (.head _) sameRow
  · exact WithTop.coe_lt_top _

end

/-! ## The results -/

/-- What holds of the log and the rows in every state. -/
structure OccRowOk (init : Row → Data) (db : OccRowDb Tid Row Data)
    (threads : Tid → OccRowWorker Row Data)
    (log : List (Logged (Tid × Nat) Row Data)) : Prop where
  /-- The transactions are serial in the order of their `end_ts`. -/
  serial : Serial init log
  increasing : log.Pairwise fun first second => first.stamp < second.stamp
  reads : ∀ txn ∈ log, ∀ read ∈ txn.reads,
    LargestBelow init log txn.stamp read.1 read.2
  /-- Behind the last write the rows hold what the serial order leaves. -/
  contents : (∀ tid, (threads tid).pc.drawn = false) →
    ∀ row, (db.rows row).row = replay init log row
  alive : ∀ tid, (threads tid).pc ≠ .crashed

omit [DecidableEq Tid] in
theorem OccRowInv.ok (inv : OccRowInv init db threads log) :
    OccRowOk init db threads log where
  serial := inv.serial
  increasing := inv.increasing
  reads := fun _ mem _ isRead => inv.serial.largestBelow
    (fun each isEach => (inv.logged each isEach).2) inv.increasing mem
    isRead
  contents := by
    intro quiet row
    refine inv.settled row fun tid access mem => ?_
    have drawn := ((threads tid).pending_drawn (inv.workers tid).shape access
      mem).1
    rw [quiet tid] at drawn
    cases drawn
  alive := by
    intro tid here
    have shape := (inv.workers tid).shape
    simp only [OccRowWorker.Shape, here] at shape

/--
With validation of every row the committed transactions are serial in the
order of their `end_ts`, no assertion fails, and if a table name and a primary
key determine a row, nobody waits for a latch in a circle.
-/
theorem occ_row_validation_serial [LinearOrder Name] (names : RowNames Row Name)
    {config : Config Tid (OccRowDb Tid Row Data) (OccRowWorker Row Data)}
    (run : (occRowMachine names).Run (occRowStart init) log config) :
    OccRowOk init config.shared config.threads log ∧ ((∀ left right : Row,
        names.tableName left = names.tableName right →
        names.primaryKey left = names.primaryKey right → left = right) →
        ∀ tid, ¬ Relation.TransGen
          (LatchWaits config.shared config.threads) tid tid) := by
  have inv : OccRowInv init config.shared config.threads log ∧
      ∀ tid, (config.threads tid).Sorted names := by
    refine run.invariant
      (fun log config => OccRowInv init config.shared config.threads log ∧
        ∀ tid, (config.threads tid).Sorted names)
      ⟨OccRowInv.start init, fun _ => .inl rfl⟩ ?_
    rintro log config tid action outcome ⟨inv, sorted⟩ _ stepped
    exact ⟨inv.step stepped, forall_update (OccRowWorker.Sorted names)
      ((sorted tid).step names stepped) fun other _ => sorted other⟩
  refine ⟨inv.1.ok, fun distinct tid => ?_⟩
  refine acyclic_of_rank (fun tid => (config.threads tid).wanted names) ?_ tid
  rintro first second ⟨held, access, todo, here, isLatched⟩
  have holds := (inv.1.latched access.row second).1 isLatched
  have above := OccRowWorker.held_lt_wanted names distinct
    (inv.1.workers second) (inv.2 second) holds
  have isWanted : (config.threads first).wanted names =
      names.key access.row := by
    rw [OccRowWorker.wanted, here]
  show (config.threads first).wanted names <
    (config.threads second).wanted names
  rw [isWanted]
  exact above

end

end

/-- Rows of one table, numbered by their keys. -/
def oneTable : RowNames (Fin 2) Nat :=
  ⟨fun _ => 0, fun row => row⟩

/-- A transaction reads what an earlier one has written. -/
theorem occ_row_validation_serial_read :
    ∃ (config : Config (Fin 2) (OccRowDb (Fin 2) (Fin 2) Nat)
        (OccRowWorker (Fin 2) Nat))
      (log : List (Logged (Fin 2 × Nat) (Fin 2) Nat)),
      log = [⟨(0, 1), 2, [(0, 7), (1, 7)], [(1, 8)]⟩,
        ⟨(1, 1), 4, [(1, 8)], []⟩] ∧
      OccRowOk (fun _ => 7) config.shared config.threads log ∧
      ∀ tid, ¬ Relation.TransGen
        (LatchWaits config.shared config.threads) tid tid := by
  have executed : ((occRowMachine oneTable).execute (occRowStart fun _ => 7)
        [((0 : Fin 2), .begin), (0, .getRow 1 .wr), (0, .getRow 0 .rd),
          (0, .modify 0 8), (0, .validate), (0, .inside), (0, .inside),
          (0, .inside), (0, .inside), (0, .inside), (0, .inside),
          (0, .inside), (0, .inside), (0, .inside), (0, .inside),
          (0, .inside), (1, .begin), (1, .getRow 1 .rd), (1, .validate),
          (1, .inside), (1, .inside), (1, .inside), (1, .inside)]).map
        Prod.snd =
      some [⟨(0, 1), 2, [(0, 7), (1, 7)], [(1, 8)]⟩,
        ⟨(1, 1), 4, [(1, 8)], []⟩] := by decide +kernel
  obtain ⟨⟨config, log⟩, ran, same⟩ := Option.map_eq_some_iff.1 executed
  have result := occ_row_validation_serial oneTable (Machine.run_of_execute ran)
  refine ⟨config, log, same, result.1, result.2 fun left right _ sameKey => ?_⟩
  exact Fin.ext sameKey

end Lockfreec.Bench
