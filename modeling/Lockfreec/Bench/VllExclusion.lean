import Lockfreec.Bench.VllInvariant

/-!
# Exclusion under very lightweight locking

A worker executes only its own transaction, between the section that appended
the entry and the one that takes it out.  Two transactions that run at once
are both in the queue, and the later one was let run, so they do not conflict.
A transaction that `beginTxn` blocks stays in the queue for ever: the workers
serve the front of the queue exactly as long as nobody was blocked.
-/

namespace Lockfreec.Bench

open Function Lib.DoublyLinked Lib.Interleaving

section

variable {Tid Row Entry : Type}

/-- The entry and the transaction that a worker executes or finishes. -/
def VllPc.held : VllPc Tid Row Entry → Option (Entry × (Tid × Nat))
  | .execute txn entry _ _ _ | .badAccess txn entry | .finish txn entry _ =>
    some (entry, txn)
  | _ => none

/-- The own transaction of the worker has no entry yet. -/
def VllPc.starting : VllPc Tid Row Entry → Bool
  | .indexing | .looping => true
  | _ => false

/-- The worker serves the front of the queue. -/
def VllPc.detour : VllPc Tid Row Entry → Bool
  | .execute _ _ _ _ done | .finish _ _ done => !done
  | _ => false

def VllEvent.txn : VllEvent Tid Entry → Tid × Nat
  | .admitted txn _ _ | .executed txn | .finished txn => txn

/-- The events of a transaction that `beginTxn` lets run or blocks. -/
def admitEvents (txn : Tid × Nat) (entry : Entry) :
    VllTxnType → List (VllEvent Tid Entry)
  | .free => [.admitted txn entry .free, .executed txn]
  | .blocked => [.admitted txn entry .blocked]

theorem admitEvents_txn {txn : Tid × Nat} {entry : Entry} {type : VllTxnType}
    {event : VllEvent Tid Entry} (mem : event ∈ admitEvents txn entry type) :
    event.txn = txn := by
  cases type with
  | free =>
    rcases List.mem_pair.1 mem with rfl | rfl
    · rfl
    · rfl
  | blocked =>
    rw [List.mem_singleton.1 mem]
    rfl

theorem mem_admitEvents {txn other : Tid × Nat} {entry cell : Entry}
    {type kind : VllTxnType} :
    .admitted other cell kind ∈ admitEvents txn entry type ↔
      other = txn ∧ cell = entry ∧ kind = type := by
  cases type <;> simp [admitEvents]

section

variable [DecidableEq Tid] [DecidableEq Row] [DecidableEq Entry]

/-- The type that `beginTxn` gives a transaction. -/
def VllDb.beginType (db : VllDb Tid Row Entry) (txn : Tid × Nat) :
    VllTxnType :=
  if (insertAccesses db.rows (db.accesses txn)).2 then .blocked else .free

/-- What a section of the loop does while the front is never served. -/
theorem vllIterate_of_none {db : VllDb Tid Row Entry}
    (none : db.frontTxn = none) (txn : Tid × Nat) (entry : Entry) :
    vllIterate txn entry db = ((db.beginTxn txn entry).1,
        if db.beginType txn = .free then
          .execute txn entry (db.accesses txn) 0 true
        else .idle,
        admitEvents txn entry (db.beginType txn)) := by
  rw [vllIterate, none]
  cases blocked : (insertAccesses db.rows (db.accesses txn)).2 with
  | true | false => simp [VllDb.beginTxn, VllDb.beginType, blocked, admitEvents]

/--
A worker and the transactions of the queue and of the history that are its
own.
-/
structure VllWorker.Ok (txnType : Tid × Nat → VllTxnType)
    (history : List (VllEvent Tid Entry)) (queue : List (Entry × (Tid × Nat)))
    (tid : Tid) (worker : VllWorker Tid Row Entry) : Prop where
  held : ∀ item, worker.pc.held = some item →
    item ∈ queue ∧ item.2.1 = tid ∧ txnType item.2 = .free
  free : ∀ item ∈ queue, item.2.1 = tid → txnType item.2 = .free →
    worker.pc.held = some item
  fresh : ∀ event ∈ history, event.txn.1 = tid → event.txn.2 ≤ worker.txnCnt ∧
      (worker.pc.starting = true → event.txn.2 ≠ worker.txnCnt)
  own : worker.pc.detour = false
  alive : worker.pc ≠ .crashed

/--
The queue with its transactions, as the history of the run names them.
-/
structure VllInv (db : VllDb Tid Row Entry)
    (threads : Tid → VllWorker Tid Row Entry)
    (history : List (VllEvent Tid Entry))
    (queue : List (Entry × (Tid × Nat))) : Prop where
  queued : VllQueueInv db queue
  admitted : ∀ item ∈ queue,
    .admitted item.2 item.1 (db.txnType item.2) ∈ history
  blocked : ∀ txn entry, .admitted txn entry .blocked ∈ history →
    (entry, txn) ∈ queue ∧ db.txnType txn = .blocked
  marked : ∀ txn entry type, .admitted txn entry type ∈ history →
    db.allocated entry = true
  named : ∀ entry first second firstType secondType,
    .admitted first entry firstType ∈ history →
    .admitted second entry secondType ∈ history → first = second
  once : ∀ txn, history.count (.executed txn) ≤ 1
  workers : ∀ tid, (threads tid).Ok db.txnType history queue tid

variable {db : VllDb Tid Row Entry} {threads : Tid → VllWorker Tid Row Entry}
  {history : List (VllEvent Tid Entry)} {queue : List (Entry × (Tid × Nat))}
  {tid : Tid}

section

variable (inv : VllInv db threads history queue)

include inv

theorem VllInv.absent (starting : (threads tid).pc.starting = true) :
    ∀ event ∈ history, event.txn ≠ (tid, (threads tid).txnCnt) := by
  intro event mem same
  have fresh := ((inv.workers tid).fresh event mem (by rw [same])).2
  rw [same] at fresh
  exact fresh starting rfl

theorem VllInv.quiet {accesses : Tid × Nat → List (VllAccess Row)}
    {data : Row → Nat → Nat} {worker : VllWorker Tid Row Entry}
    (same : ∀ item ∈ queue, accesses item.2 = db.accesses item.2)
    (held : worker.pc.held = (threads tid).pc.held)
    (later : (threads tid).txnCnt < worker.txnCnt ∨
      (threads tid).txnCnt = worker.txnCnt ∧
        (worker.pc.starting = true → (threads tid).pc.starting = true))
    (own : worker.pc.detour = false) (alive : worker.pc ≠ .crashed) :
    VllInv { db with accesses := accesses, data := data }
      (update threads tid worker) (history ++ []) queue := by
  rw [List.append_nil]
  refine ⟨inv.queued.congr same fun _ _ => rfl, inv.admitted, inv.blocked,
    inv.marked, inv.named, inv.once, ?_⟩
  have old := inv.workers tid
  refine (forall_update_iff threads fun tid worker =>
    worker.Ok db.txnType history queue tid).2
      ⟨⟨?_, ?_, ?_, own, alive⟩, fun other _ => inv.workers other⟩
  · exact fun item holds => old.held item (held.symm.trans holds)
  · exact fun item mem isTid free =>
      held.trans (old.free item mem isTid free)
  · intro event mem isTid
    have fresh := old.fresh event mem isTid
    rcases later with more | ⟨equal, starting⟩
    · exact ⟨by omega, fun _ => by omega⟩
    · rw [← equal]
      exact ⟨fresh.1, fun isStarting => fresh.2 (starting isStarting)⟩

theorem VllInv.admit {entry : Entry} {txn : Tid × Nat}
    {pc : VllPc Tid Row Entry} (here : threads txn.1 = ⟨.looping, txn.2⟩)
    (newEntry : db.allocated entry = false)
    (held : pc.held =
      if db.beginType txn = .free then some (entry, txn) else none)
    (settled : pc.starting = false)
    (own : pc.detour = false) (alive : pc ≠ .crashed) :
    VllInv (db.beginTxn txn entry).1 (update threads txn.1 ⟨pc, txn.2⟩)
      (history ++ admitEvents txn entry (db.beginType txn))
      (queue ++ [(entry, txn)]) := by
  have absent : ∀ event ∈ history, event.txn ≠ txn := by
    have starting : (threads txn.1).pc.starting = true := by
      rw [here]
      rfl
    have absent := inv.absent starting
    rwa [here] at absent
  have newTxn : ∀ item ∈ queue, item.2 ≠ txn :=
    fun item mem => absent _ (inv.admitted item mem)
  have oldType : ∀ other ≠ txn,
      (db.beginTxn txn entry).1.txnType other = db.txnType other :=
    fun other ne => update_of_ne ne _ _
  have newType : (db.beginTxn txn entry).1.txnType txn = db.beginType txn :=
    update_self ..
  have notMarked : ∀ other type, .admitted other entry type ∉ history := by
    intro other type mem
    rw [inv.marked other entry type mem] at newEntry
    cases newEntry
  refine ⟨inv.queued.beginTxn newTxn newEntry, ?_, ?_, ?_, ?_, ?_, ?_⟩
  · refine List.forall_mem_append.2 ⟨fun item mem => ?_,
      List.forall_mem_singleton.2 ?_⟩
    · rw [oldType _ (newTxn item mem)]
      exact List.mem_append_left _ (inv.admitted item mem)
    · rw [newType]
      exact List.mem_append_right _ (mem_admitEvents.2 ⟨rfl, rfl, rfl⟩)
  · intro other cell mem
    rcases List.mem_append.1 mem with mem | mem
    · have old := inv.blocked other cell mem
      rw [oldType other (absent _ mem)]
      exact ⟨List.mem_append_left _ old.1, old.2⟩
    · obtain ⟨rfl, rfl, isBlocked⟩ := mem_admitEvents.1 mem
      rw [newType]
      exact ⟨List.mem_append_right _ (.head _), isBlocked.symm⟩
  · intro other cell type mem
    show update db.allocated entry true cell = true
    rcases List.mem_append.1 mem with mem | mem
    · by_cases same : cell = entry
      · rw [same, update_self]
      · rw [update_of_ne same]
        exact inv.marked other cell type mem
    · rw [(mem_admitEvents.1 mem).2.1, update_self]
  · intro cell first second firstType secondType inFirst inSecond
    rcases List.mem_append.1 inFirst with old | new
    · rcases List.mem_append.1 inSecond with older | newer
      · exact inv.named cell first second _ _ old older
      · rw [(mem_admitEvents.1 newer).2.1] at old
        exact absurd old (notMarked _ _)
    · rcases List.mem_append.1 inSecond with older | newer
      · rw [(mem_admitEvents.1 new).2.1] at older
        exact absurd older (notMarked _ _)
      · rw [(mem_admitEvents.1 new).1, (mem_admitEvents.1 newer).1]
  · intro other
    rw [List.count_append]
    by_cases same : other = txn
    · subst same
      have none : history.count (.executed other) = 0 := by
        rw [List.count_eq_zero]
        exact fun mem => absent _ mem rfl
      rw [none]
      cases db.beginType other <;> simp [admitEvents]
    · have none : (admitEvents txn entry (db.beginType txn)).count
          (.executed other) = 0 := by
        rw [List.count_eq_zero]
        exact fun mem => same (admitEvents_txn mem)
      rw [none]
      exact inv.once other
  · refine (forall_update_iff threads fun tid worker => worker.Ok _ _ _ tid).2
      ⟨⟨?_, ?_, ?_, own, alive⟩, fun other ne => ?_⟩
    · intro item holds
      rw [held] at holds
      split at holds
      · next free =>
          cases holds
          rw [newType]
          exact ⟨List.mem_append_right _ (.head _), rfl, free⟩
      · cases holds
    · refine List.forall_mem_append.2 ⟨fun item mem isTid free => ?_,
        List.forall_mem_singleton.2 fun _ free => ?_⟩
      · rw [oldType _ (newTxn item mem)] at free
        have holds := (inv.workers _).free item mem isTid free
        rw [here] at holds
        cases holds
      · rw [newType] at free
        rw [held, if_pos free]
    · refine List.forall_mem_append.2 ⟨fun event mem isTid => ⟨?_, ?_⟩,
        fun event mem _ => ⟨?_, ?_⟩⟩
      · have fresh := ((inv.workers _).fresh event mem isTid).1
        rwa [here] at fresh
      · simp [settled]
      · exact Nat.le_of_eq (by rw [admitEvents_txn mem])
      · simp [settled]
    · have old := inv.workers other
      refine ⟨fun item holds => ?_, ?_, ?_, old.own, old.alive⟩
      · obtain ⟨mem, known⟩ := old.held item holds
        rw [oldType _ (newTxn item mem)]
        exact ⟨List.mem_append_left _ mem, known⟩
      · refine List.forall_mem_append.2 ⟨fun item mem isTid free => ?_,
          List.forall_mem_singleton.2 fun isTid => absurd isTid.symm ne⟩
        rw [oldType _ (newTxn item mem)] at free
        exact old.free item mem isTid free
      · refine List.forall_mem_append.2 ⟨old.fresh, fun event mem isTid => ?_⟩
        rw [admitEvents_txn mem] at isTid
        exact absurd isTid.symm ne

theorem VllInv.finish {entry : Entry} {txn : Tid × Nat} {done : Bool}
    {txnCnt : Nat} (here : threads tid = ⟨.finish txn entry done, txnCnt⟩) :
    ∃ after rest, db.finishTxn txn entry = some after ∧ VllInv after
        (update threads tid ⟨.idle, txnCnt⟩) (history ++ [.finished txn])
        rest := by
  have mine := inv.workers tid
  rw [here] at mine
  obtain ⟨mem, isTid, isFree⟩ := mine.held _ rfl
  have issued := mine.fresh _ (inv.admitted _ mem) isTid
  obtain ⟨front, back, rfl⟩ := List.append_of_mem mem
  obtain ⟨rows, links, finished, queued⟩ := inv.queued.finishTxn
  have sub : (front ++ back).Sublist (front ++ (entry, txn) :: back) :=
    (List.sublist_cons_self _ _).append_left front
  have distinct : ∀ item ∈ front ++ back, item.2 ≠ txn := by
    have ordered := inv.queued.ordered
    rw [List.pairwise_append, List.pairwise_cons] at ordered
    exact List.forall_mem_append.2
      ⟨fun item mem => (ordered.2.2 item mem _ (.head _)).1,
        fun item mem => (ordered.2.1.1 item mem).1.symm⟩
  have stays : ∀ item ∈ front ++ (entry, txn) :: back, item.2 ≠ txn →
      item ∈ front ++ back := by
    refine List.forall_mem_append.2 ⟨?_, List.forall_mem_cons.2 ⟨?_, ?_⟩⟩
    · exact fun _ mem _ => List.mem_append_left _ mem
    · exact fun ne => absurd rfl ne
    · exact fun _ mem _ => List.mem_append_right _ mem
  have inHistory : ∀ {other : Tid × Nat} {cell : Entry} {type : VllTxnType},
      .admitted other cell type ∈ history ++ [.finished txn] →
        .admitted other cell type ∈ history := by
    intro other cell type mem
    simpa using mem
  refine ⟨_, front ++ back, finished, queued, ?_, ?_, ?_, ?_, ?_, ?_⟩
  · intro item mem
    exact List.mem_append_left _ (inv.admitted item (sub.subset mem))
  · intro other cell mem
    obtain ⟨inQueue, isBlocked⟩ := inv.blocked other cell (inHistory mem)
    refine ⟨stays _ inQueue ?_, isBlocked⟩
    rintro rfl
    rw [isFree] at isBlocked
    cases isBlocked
  · exact fun other cell type mem =>
      inv.marked other cell type (inHistory mem)
  · exact fun cell first second _ _ inFirst inSecond =>
      inv.named cell first second _ _ (inHistory inFirst) (inHistory inSecond)
  · intro other
    rw [List.count_append]
    exact inv.once other
  · refine (forall_update_iff threads fun tid worker => worker.Ok _ _ _ tid).2
      ⟨⟨nofun, ?_, ?_, rfl, nofun⟩, fun other ne => ?_⟩
    · intro item mem isTid free
      cases mine.free item (sub.subset mem) isTid free
      exact absurd rfl (distinct _ mem)
    · exact List.forall_mem_append.2
        ⟨fun event mem isTid => ⟨(mine.fresh event mem isTid).1, nofun⟩,
          List.forall_mem_singleton.2 fun _ => ⟨issued.1, nofun⟩⟩
    · have old := inv.workers other
      refine ⟨fun item holds => ?_, ?_, ?_, old.own, old.alive⟩
      · obtain ⟨mem, isOther, free⟩ := old.held item holds
        refine ⟨stays item mem fun same => ne ?_, isOther, free⟩
        rw [← isOther, same]
        exact isTid
      · exact fun item mem => old.free item (sub.subset mem)
      · exact List.forall_mem_append.2 ⟨old.fresh, List.forall_mem_singleton.2
          fun isOther => absurd (isOther.symm.trans isTid) ne⟩

/-- The steps inside `execute` and `finishTxn`. -/
theorem VllInv.inside {fieldCnt txnCnt : Nat} {after : VllDb Tid Row Entry}
    {pc next : VllPc Tid Row Entry} {events : List (VllEvent Tid Entry)}
    (here : threads tid = ⟨pc, txnCnt⟩)
    (step : vllInside fieldCnt db pc = some (after, next, events)) :
    ∃ queue', VllInv after (update threads tid ⟨next, txnCnt⟩)
      (history ++ events) queue' := by
  have own := (inv.workers tid).own
  have sameCnt : (threads tid).txnCnt = txnCnt := by rw [here]
  have held : pc.held = (threads tid).pc.held := by rw [here]
  rw [here] at own
  cases pc with
  | execute txn entry todo fid done =>
    cases todo with
    | nil =>
      cases step
      exact ⟨queue, inv.quiet (fun _ _ => rfl) held (.inr ⟨sameCnt, nofun⟩)
        own nofun⟩
    | cons access todo =>
      simp only [vllInside, VllDb.executeField] at step
      split at step
      · split at step
        · split at step
          all_goals
            cases step
            exact ⟨queue, inv.quiet (fun _ _ => rfl) held
              (.inr ⟨sameCnt, nofun⟩) own nofun⟩
        · cases step
          exact ⟨queue, inv.quiet (fun _ _ => rfl) held
            (.inr ⟨sameCnt, nofun⟩) own nofun⟩
      · cases step
        exact ⟨queue, inv.quiet (fun _ _ => rfl) held
          (.inr ⟨sameCnt, nofun⟩) rfl nofun⟩
  | finish txn entry done =>
    obtain ⟨db', rest, finished, kept⟩ := inv.finish here
    have isDone : done = true := by simpa [VllPc.detour] using own
    simp only [vllInside, finished, isDone, if_true] at step
    cases step
    exact ⟨rest, kept⟩
  | _ => cases step

theorem VllInv.step {fieldCnt : Nat} {action : VllAction Row Entry}
    {outcome : Outcome (VllDb Tid Row Entry) (VllWorker Tid Row Entry)
      (VllEvent Tid Entry)}
    (step : (vllMachine fieldCnt).step tid action db (threads tid) =
      some outcome) :
    ∃ queue', VllInv outcome.shared (update threads tid outcome.thread)
      (history ++ outcome.events) queue' := by
  rcases here : threads tid with ⟨pc, txnCnt⟩
  have sameCnt : (threads tid).txnCnt = txnCnt := by rw [here]
  have held : pc.held = (threads tid).pc.held := by rw [here]
  have starting : pc.starting = true → (threads tid).pc.starting = true := by
    rw [here]
    exact id
  rw [here] at step
  simp only [vllMachine] at step
  split at step
  · cases step
    exact ⟨queue, inv.quiet (fun _ _ => rfl) held
      (.inl (by rw [sameCnt]; exact Nat.lt_succ_self _)) rfl nofun⟩
  · cases step
    refine ⟨queue, inv.quiet (fun item mem => update_of_ne ?_ _ _) held
      (.inr ⟨sameCnt, starting⟩) rfl nofun⟩
    have absent := inv.absent (starting rfl) _ (inv.admitted item mem)
    rwa [sameCnt] at absent
  · cases step
    exact ⟨queue, inv.quiet (fun _ _ => rfl) held
      (.inr ⟨sameCnt, fun _ => starting rfl⟩) rfl nofun⟩
  · split at step
    · cases step
    · next newEntry =>
        rw [vllIterate_of_none inv.queued.frontTxn] at step
        cases step
        refine ⟨_, inv.admit here (Bool.eq_false_iff.2 newEntry) ?_ ?_ ?_ ?_⟩
        all_goals
          dsimp only
          split
        all_goals first | rfl | nofun
  · obtain ⟨⟨after, pc, events⟩, inner, rfl⟩ :=
      Option.map_eq_some_iff.1 step
    exact inv.inside here inner
  · cases step

omit inv in
theorem VllInv.start (links : DList Entry)
    (entryTxn : Entry → Option (Tid × Nat)) (data : Row → Nat → Nat) :
    VllInv (vllStart links entryTxn data).shared (fun _ => ⟨.idle, 0⟩)
      [] [] where
  queued := ⟨⟨rfl, rfl⟩, nofun, nofun, fun _ => rfl, .nil⟩
  admitted := nofun
  blocked := nofun
  marked := nofun
  named := nofun
  once := fun _ => Nat.zero_le _
  workers := fun _ => ⟨nofun, nofun, nofun, rfl, nofun⟩

omit inv in
theorem VllInv.run {fieldCnt : Nat} {links : DList Entry}
    {entryTxn : Entry → Option (Tid × Nat)} {data : Row → Nat → Nat}
    {config : Config Tid (VllDb Tid Row Entry) (VllWorker Tid Row Entry)}
    (run : (vllMachine fieldCnt).Run (vllStart links entryTxn data) history
      config) :
    ∃ queue, VllInv config.shared config.threads history queue := by
  refine run.invariant (fun history config =>
      ∃ queue, VllInv config.shared config.threads history queue)
    ⟨[], VllInv.start links entryTxn data⟩ ?_
  rintro history config tid action outcome ⟨queue, inv⟩ _ step
  exact inv.step step

/-! ## Exclusion -/

theorem VllInv.exclusive {other : Tid} {first second : Entry × (Tid × Nat)}
    (ne : tid ≠ other) (mine : (threads tid).pc.held = some first)
    (theirs : (threads other).pc.held = some second) :
    first.2 ≠ second.2 ∧
      ¬ AccessConflict (db.accesses first.2) (db.accesses second.2) := by
  obtain ⟨inFirst, isTid, freeFirst⟩ := (inv.workers tid).held first mine
  obtain ⟨inSecond, isOther, freeSecond⟩ := (inv.workers other).held second theirs
  have apart : first ≠ second := by
    rintro rfl
    exact ne (isTid.symm.trans isOther)
  have ordered := inv.queued.ordered
  obtain ⟨front, back, rfl⟩ := List.append_of_mem inFirst
  rw [List.pairwise_append, List.pairwise_cons] at ordered
  rcases List.mem_append.1 inSecond with earlier | later
  · obtain ⟨distinct, ok⟩ := ordered.2.2 second earlier first (.head _)
    exact ⟨distinct.symm, fun conflict => ok freeFirst conflict.symm⟩
  · obtain ⟨distinct, ok⟩ := ordered.2.1.1 second
      ((List.mem_cons.1 later).resolve_left apart.symm)
    exact ⟨distinct, ok freeSecond⟩

end

/-- What holds of the rows, the queue and the workers in every state. -/
structure VllOk (db : VllDb Tid Row Entry)
    (threads : Tid → VllWorker Tid Row Entry)
    (history : List (VllEvent Tid Entry)) : Prop where
  /-- No two workers run transactions that conflict. -/
  exclusive : ∀ tid other, tid ≠ other → ∀ first second,
    (threads tid).pc.held = some first →
    (threads other).pc.held = some second → first.2 ≠ second.2 ∧
      ¬ AccessConflict (db.accesses first.2) (db.accesses second.2)
  /-- The queue holds entries that `beginTxn` has appended, each for one
  transaction, and the rows count the accesses of these. -/
  counted : ∃ queue : List (Entry × (Tid × Nat)),
    IsList db.queue (queue.map Prod.fst) ∧
    (∀ item ∈ queue, ∀ txn,
      (∃ type, .admitted txn item.1 type ∈ history) ↔ txn = item.2) ∧
    ∀ row, (db.rows row).cs =
          (queue.map fun item => readCnt row (db.accesses item.2)).sum ∧
        (db.rows row).cx =
          (queue.map fun item => writeCnt row (db.accesses item.2)).sum
  /-- No assertion outside of `execute` fails. -/
  alive : ∀ tid, (threads tid).pc ≠ .crashed

theorem VllInv.ok (inv : VllInv db threads history queue) :
    VllOk db threads history where
  exclusive := fun _ _ ne _ _ mine theirs =>
    inv.exclusive ne mine theirs
  counted := by
    refine ⟨queue, inv.queued.isList, fun item mem txn => ?_, fun row => ?_⟩
    · have issued := inv.admitted item mem
      constructor
      · rintro ⟨type, isAdmitted⟩
        exact inv.named _ _ _ _ _ isAdmitted issued
      · rintro rfl
        exact ⟨_, issued⟩
    · rw [inv.queued.counted row]
      exact ⟨rfl, rfl⟩
  alive := fun tid => (inv.workers tid).alive

/--
Very lightweight locking never runs conflicting transactions together, and
its counters and its queue agree.
-/
theorem vll_never_runs_conflicts {fieldCnt : Nat} {links : DList Entry}
    {entryTxn : Entry → Option (Tid × Nat)} {data : Row → Nat → Nat}
    {config : Config Tid (VllDb Tid Row Entry) (VllWorker Tid Row Entry)}
    (run : (vllMachine fieldCnt).Run (vllStart links entryTxn data) history
      config) :
    VllOk config.shared config.threads history := by
  obtain ⟨queue, inv⟩ := VllInv.run run
  exact inv.ok

/-! ## Service of the front entry -/

/--
Any worker that goes through the loop next executes the transaction of the
front entry.
-/
def FrontServed (db : VllDb Tid Row Entry)
    (history : List (VllEvent Tid Entry)) : Prop :=
  ∃ front txn type, db.queue.head = some front ∧
    .admitted txn front type ∈ history ∧
    ∀ own entry, (vllIterate own entry db).2.1 =
      .execute txn front (db.accesses txn) 0 false

theorem VllInv.not_frontServed
    (inv : VllInv db threads history queue) : ¬ FrontServed db history := by
  rintro ⟨front, txn, type, -, -, served⟩
  have served := served txn front
  rw [vllIterate_of_none inv.queued.frontTxn] at served
  dsimp only at served
  split at served
  · cases served
  · cases served

/-- While nobody executes, the queue holds the blocked transactions. -/
theorem VllInv.queue_eq_nil_iff (inv : VllInv db threads history queue)
    (quiescent : ∀ tid, (threads tid).pc.held = none) :
    queue = [] ↔ ∀ txn entry, .admitted txn entry .blocked ∉ history := by
  constructor
  · rintro rfl txn entry mem
    exact List.not_mem_nil (inv.blocked txn entry mem).1
  · intro none
    rw [List.eq_nil_iff_forall_not_mem]
    intro item mem
    cases isType : db.txnType item.2 with
    | free =>
      have holds := (inv.workers _).free item mem rfl isType
      rw [quiescent] at holds
      cases holds
    | blocked =>
      have issued := inv.admitted item mem
      rw [isType] at issued
      exact none _ _ issued

/--
Every transaction is executed at most once.  In a state in which nobody
executes or finishes a transaction, the front of the queue is served exactly
if `beginTxn` has blocked nobody so far.
-/
theorem vll_serves_front_iff {fieldCnt : Nat} {links : DList Entry}
    {entryTxn : Entry → Option (Tid × Nat)} {data : Row → Nat → Nat}
    {config : Config Tid (VllDb Tid Row Entry) (VllWorker Tid Row Entry)}
    (run : (vllMachine fieldCnt).Run (vllStart links entryTxn data) history
      config) :
    (∀ txn, history.count (.executed txn) ≤ 1) ∧
      ((∀ tid, (config.threads tid).pc.held = none) →
        ((config.shared.queue.head ≠ none → FrontServed config.shared history) ↔
          ∀ txn entry, .admitted txn entry .blocked ∉ history)) := by
  obtain ⟨queue, inv⟩ := VllInv.run run
  refine ⟨inv.once, fun quiescent => ?_⟩
  rw [← inv.queue_eq_nil_iff quiescent, inv.queued.isList.head_eq,
    ne_eq, List.head?_eq_none_iff, List.map_eq_nil_iff]
  constructor
  · intro served
    by_contra nonempty
    exact inv.not_frontServed (served nonempty)
  · intro empty nonempty
    exact absurd empty nonempty

end

end

/-- Two rows, two workers, and entries that are numbers. -/
def vllBoot : Config (Fin 2) (VllDb (Fin 2) (Fin 2) Nat)
    (VllWorker (Fin 2) (Fin 2) Nat) :=
  vllStart ⟨fun _ => none, fun _ => none, none, none⟩ (fun _ => none)
    fun _ _ => 7

/-- Two workers that execute transactions on different rows. -/
theorem vll_never_runs_conflicts_two :
    ∃ (config : Config (Fin 2) (VllDb (Fin 2) (Fin 2) Nat)
        (VllWorker (Fin 2) (Fin 2) Nat)) (history : _),
      VllOk config.shared config.threads history ∧
      (config.threads 0).pc.held = some (0, (0, 1)) ∧
      (config.threads 1).pc.held = some (1, (1, 1)) := by
  have executed : ((vllMachine 1).execute vllBoot
        [(0, .begin), (0, .getRow 0 .wr), (1, .begin), (0, .enter),
          (1, .getRow 1 .rd), (1, .enter), (0, .iterate 0), (1, .iterate 1),
          (0, .inside), (1, .inside)]).map
        (fun result => ((result.1.threads 0).pc.held,
          (result.1.threads 1).pc.held)) =
      some (some (0, (0, 1)), some (1, (1, 1))) := by decide +kernel
  obtain ⟨⟨config, history⟩, ran, same⟩ := Option.map_eq_some_iff.1 executed
  obtain ⟨first, second⟩ := Prod.mk.inj same
  exact ⟨config, history,
    vll_never_runs_conflicts (Machine.run_of_execute ran), first, second⟩

/-- The only transaction of a run has been executed and is finished. -/
theorem vll_serves_front_iff_done :
    ∃ (config : Config (Fin 2) (VllDb (Fin 2) (Fin 2) Nat)
        (VllWorker (Fin 2) (Fin 2) Nat)) (history : _),
      history = [.admitted (0, 1) 0 .free, .executed (0, 1), .finished (0, 1)] ∧
      ((config.shared.queue.head ≠ none → FrontServed config.shared history) ↔
        ∀ txn entry, .admitted txn entry .blocked ∉ history) := by
  have executed : ((vllMachine 1).execute vllBoot
        [(0, .begin), (0, .getRow 0 .wr), (0, .enter), (0, .iterate 0),
          (0, .inside), (0, .inside), (0, .inside), (0, .inside)]).map
        (fun result =>
          (decide (∀ tid, (result.1.threads tid).pc.held = none), result.2)) =
      some (true, [.admitted (0, 1) 0 .free, .executed (0, 1),
        .finished (0, 1)]) := by decide +kernel
  obtain ⟨⟨config, history⟩, ran, same⟩ := Option.map_eq_some_iff.1 executed
  obtain ⟨quiescent, isHistory⟩ := Prod.mk.inj same
  exact ⟨config, history, isHistory,
    (vll_serves_front_iff (Machine.run_of_execute ran)).2
      (of_decide_eq_true quiescent)⟩

/--
A transaction that was blocked is at the front and nobody executes or
finishes a transaction, but the next worker only begins its own transaction.
-/
theorem vll_blocked_front_not_served :
    ∃ (config : Config (Fin 2) (VllDb (Fin 2) (Fin 2) Nat)
        (VllWorker (Fin 2) (Fin 2) Nat)) (history : _),
      (vllMachine 1).Run vllBoot history config ∧
      (∀ tid, (config.threads tid).pc.held = none) ∧
      config.shared.queue.head = some 1 ∧
      .admitted (1, 1) 1 .blocked ∈ history ∧
      .executed (1, 1) ∉ history ∧
      (config.shared.rows 0).cx = 1 ∧
      ¬ FrontServed config.shared history := by
  have executed : ((vllMachine 1).execute vllBoot
        [(0, .begin), (0, .getRow 0 .wr), (0, .enter), (1, .begin),
          (1, .getRow 0 .wr), (1, .enter), (0, .iterate 0), (1, .iterate 1),
          (0, .inside), (0, .inside), (0, .inside), (0, .inside)]).map
        (fun result =>
          (decide (∀ tid, (result.1.threads tid).pc.held = none),
            result.1.shared.queue.head, result.2,
            (result.1.shared.rows 0).cx,
            (vllIterate (0, 2) 2 result.1.shared).2.1.detour)) =
      some (true, some 1, [.admitted (0, 1) 0 .free, .executed (0, 1),
        .admitted (1, 1) 1 .blocked, .finished (0, 1)], 1,
        false) := by decide +kernel
  obtain ⟨⟨config, history⟩, ran, same⟩ := Option.map_eq_some_iff.1 executed
  simp only [Prod.mk.injEq] at same
  obtain ⟨quiescent, head, rfl, counted, next⟩ := same
  refine ⟨config, _, Machine.run_of_execute ran,
    of_decide_eq_true quiescent, head, by simp, by simp, counted, ?_⟩
  rintro ⟨front, txn, type, -, -, served⟩
  rw [served (0, 2) 2] at next
  cases next

end Lockfreec.Bench
