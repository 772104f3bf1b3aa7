import Lockfreec.Bench.OccCentral
import Mathlib.Data.List.Basic

/-!
# What central validation compares

The history is sorted by `tn`, so the loop of `central_validate` meets every
write set of its snapshot with a number above the `start_ts` of the
transaction.  That number comes from another counter: it counts the
transactions that were started, while `tn` counts those that entered the
history.  A write set that entered after the start with a number up to the
`start_ts` is never compared.
-/

namespace Lockfreec.Bench

open Function Lib.History Lib.Interleaving

section

variable {Tid Row Data : Type}

/-! ## The history of write sets -/

/-- The numbers of the history, the latest one first. -/
structure Numbered (history : List (SetEnt Tid Row)) (tnc : Nat) : Prop where
  sorted : history.Pairwise fun later earlier => earlier.tn < later.tn
  bounded : ∀ ent ∈ history, ent.tn ≤ tnc
  last : ∀ ent ∈ history.head?, ent.tn = tnc

theorem Numbered.enter {history : List (SetEnt Tid Row)} {tnc : Nat}
    (numbered : Numbered history tnc) (txn : Tid) (rows : List Row) :
    Numbered (⟨tnc + 1, txn, rows⟩ :: history) (tnc + 1) where
  sorted := by
    refine List.pairwise_cons.2 ⟨fun ent mem => ?_, numbered.sorted⟩
    exact Nat.lt_succ_of_le (numbered.bounded ent mem)
  bounded := by
    intro ent mem
    rcases List.mem_cons.1 mem with rfl | mem
    · exact Nat.le_refl _
    · exact Nat.le_succ_of_le (numbered.bounded ent mem)
  last := by
    intro ent isHead
    cases isHead
    rfl

theorem mem_takeWhile_of_sorted {history : List (SetEnt Tid Row)}
    (sorted : history.Pairwise fun later earlier => earlier.tn < later.tn)
    {ent : SetEnt Tid Row} (mem : ent ∈ history) {startTn : Nat}
    (late : startTn < ent.tn) :
    ent ∈ history.takeWhile fun each => decide (startTn < each.tn) := by
  induction history with
  | nil => cases mem
  | cons first rest ih =>
    rw [List.pairwise_cons] at sorted
    rcases List.mem_cons.1 mem with rfl | mem
    · rw [List.takeWhile_cons, if_pos (decide_eq_true late)]
      exact .head _
    · have later : startTn < first.tn :=
        Nat.lt_trans late (sorted.1 ent mem)
      rw [List.takeWhile_cons, if_pos (decide_eq_true later)]
      exact .tail _ (ih sorted.2 mem)

section

variable [DecidableEq Row]

theorem testValid_iff {left right : List Row} :
    testValid left right = true ↔ ∀ row ∈ left, row ∉ right := by
  simp only [testValid, List.all_eq_true, decide_eq_true_eq]
  constructor
  · rintro apart row inLeft inRight
    exact apart row inLeft row inRight rfl
  · rintro apart row inLeft other inRight rfl
    exact apart row inLeft inRight

/-- A snapshot that is found valid was compared down to the start. -/
theorem Snapshot.compared {snapshot : Snapshot Tid Row} {startTn : Nat}
    {reads : List Row} (numbered : Numbered snapshot.his snapshot.finishTn)
    (valid : snapshot.historyValid startTn reads = true) {ent : SetEnt Tid Row}
    (mem : ent ∈ snapshot.his)
    (late : startTn < ent.tn) : testValid ent.rows reads = true := by
  have bound := numbered.bounded ent mem
  have whole : snapshot.his.dropWhile
      (fun each => decide (snapshot.finishTn < each.tn)) = snapshot.his := by
    refine List.dropWhile_eq_self_iff.2 fun nonempty => ?_
    have := numbered.bounded _ (List.getElem_mem nonempty)
    simpa using this
  rw [Snapshot.historyValid, if_pos (by omega), whole,
    List.all_eq_true] at valid
  exact valid ent (mem_takeWhile_of_sorted numbered.sorted mem late)

end

/-! ## Events -/

def OccEvent.id : OccEvent Tid Row → Tid × Nat
  | .started id _ | .snapshot id _ | .entered id _ | .committed id => id

/-- The write sets that entered the history, in their order. -/
def entries (events : List (OccEvent Tid Row)) : List (SetEnt Tid Row) :=
  events.filterMap fun event =>
    match event with
    | .entered _ ent => some ent
    | _ => none

theorem mem_entries {events : List (OccEvent Tid Row)} {ent : SetEnt Tid Row} :
    ent ∈ entries events ↔ ∃ id, .entered id ent ∈ events := by
  constructor
  · intro mem
    obtain ⟨event, mem, isEnt⟩ := List.mem_filterMap.1 mem
    cases event with
    | entered id other =>
      cases isEnt
      exact ⟨id, mem⟩
    | _ => cases isEnt
  · rintro ⟨id, mem⟩
    exact List.mem_filterMap.2 ⟨_, mem, rfl⟩

/-- No event of a transaction. -/
def Absent (id : Tid × Nat) (events : List (OccEvent Tid Row)) : Prop :=
  ∀ event ∈ events, event.id ≠ id

theorem Absent.append {id : Tid × Nat} {first second : List (OccEvent Tid Row)}
    (absent : Absent id first)
    (later : Absent id second) : Absent id (first ++ second) :=
  List.forall_mem_append.2 ⟨absent, later⟩

/-- A transaction has only started. -/
def Begun (history : List (OccEvent Tid Row)) (id : Tid × Nat)
    (startTs : Nat) : Prop :=
  ∃ before after, history = before ++ .started id startTs :: after ∧
    Absent id before ∧ Absent id after

/-- A transaction has taken its snapshot. -/
def Snapped (history : List (OccEvent Tid Row)) (id : Tid × Nat) (startTs : Nat)
    (reads : List Row) (snapshot : Snapshot Tid Row) :
    Prop :=
  Numbered snapshot.his snapshot.finishTn ∧
  ∃ before between after, history = before ++ .started id startTs ::
      (between ++ .snapshot id reads :: after) ∧
    Absent id before ∧ Absent id between ∧ Absent id after ∧
    ∀ ent ∈ entries between, ent ∈ snapshot.his

section

variable [DecidableEq Row]

/-- The write sets that entered between the start and the snapshot of a
transaction, with a number above its `start_ts`, do not touch its read set. -/
def Checked (history : List (OccEvent Tid Row)) (id : Tid × Nat) : Prop :=
  ∀ before startTs between reads after,
    history = before ++ .started id startTs ::
      (between ++ .snapshot id reads :: after) →
    ∀ ent ∈ entries between, startTs < ent.tn → testValid ent.rows reads = true

variable {history events : List (OccEvent Tid Row)} {id : Tid × Nat}
  {startTs : Nat} {reads : List Row} {snapshot : Snapshot Tid Row}

omit [DecidableEq Row] in
theorem Begun.append (begun : Begun history id startTs)
    (absent : Absent id events) : Begun (history ++ events) id startTs := by
  obtain ⟨before, after, rfl, clear, clearAfter⟩ := begun
  refine ⟨before, after ++ events, ?_, clear, clearAfter.append absent⟩
  rw [List.append_assoc, List.cons_append]

omit [DecidableEq Row] in
theorem Snapped.append (snapped : Snapped history id startTs reads snapshot)
    (absent : Absent id events) :
    Snapped (history ++ events) id startTs reads snapshot := by
  obtain ⟨numbered, before, between, after, rfl, clear, clearBetween,
    clearAfter, seen⟩ := snapped
  refine ⟨numbered, before, between, after ++ events, ?_, clear,
    clearBetween, clearAfter.append absent, seen⟩
  simp only [List.append_assoc, List.cons_append]

theorem Checked.append (checked : Checked history id)
    (absent : ∀ reads, .snapshot id reads ∉ events) :
    Checked (history ++ events) id := by
  intro before startTs between reads after split
  rw [← List.cons_append, ← List.append_assoc] at split
  obtain ⟨front, split⟩ := append_split split (absent reads)
  rw [List.append_assoc, List.cons_append] at split
  exact checked before startTs between reads front split

theorem Snapped.checked (snapped : Snapped history id startTs reads snapshot)
    (valid : snapshot.historyValid startTs reads = true) :
    Checked history id := by
  obtain ⟨numbered, first, middle, last, rfl, clear, clearMiddle, clearLast,
    seen⟩ := snapped
  intro before otherTs between otherReads after split
  -- The two events occur once, so this is the same split.
  obtain ⟨-, isStart, rest⟩ := (List.append_cons_inj_of_notMem
    (fun mem => clear _ mem rfl)
    (fun mem => by
      rcases List.mem_append.1 mem with mem | mem
      · exact clearMiddle _ mem rfl
      · rcases List.mem_cons.1 mem with same | mem
        · cases same
        · exact clearLast _ mem rfl)).1 split
  obtain ⟨rfl, isSnapshot, -⟩ := (List.append_cons_inj_of_notMem
    (fun mem => clearMiddle _ mem rfl)
    (fun mem => clearLast _ mem rfl)).1 rest
  cases isStart
  cases isSnapshot
  intro ent mem late
  exact Snapshot.compared numbered valid (seen ent mem) late

/-! ## Runs -/

/-- What a worker knows about its own transaction. -/
def OccWorkerOk (history : List (OccEvent Tid Row)) (id : Tid × Nat)
    (worker : OccWorker Tid Row Data) : Prop :=
  match worker.pc with
  | .running => Begun history id worker.startTs
  | .checking snapshot =>
    Snapped history id worker.startTs (readRows worker.accesses) snapshot
  | .writing _ => Checked history id
  | .leaving valid | .returning valid => valid = true → Checked history id
  | .idle => True
  | .crashed => False

/-- The write set of the worker is in the active list. -/
def OccWorker.enrolled (worker : OccWorker Tid Row Data) : Bool :=
  match worker.pc with
  | .checking _ | .writing _ => !(writeRows worker.accesses).isEmpty
  | .leaving _ => true
  | _ => false

structure OccInv (db : OccDb Tid Row Data)
    (threads : Tid → OccWorker Tid Row Data)
    (history : List (OccEvent Tid Row)) : Prop where
  log : db.history = (entries history).reverse
  numbered : Numbered db.history db.tnc
  fresh : ∀ event ∈ history, event.id.2 ≤ (threads event.id.1).txnCnt
  workers : ∀ tid, OccWorkerOk history (tid, (threads tid).txnCnt) (threads tid)
  committed : ∀ id, .committed id ∈ history → Checked history id
  active : ∀ tid, (threads tid).enrolled = true →
    ∃ ent ∈ db.active, ent.txn = tid

theorem OccWorkerOk.append {worker : OccWorker Tid Row Data}
    (ok : OccWorkerOk history id worker) (absent : Absent id events) :
    OccWorkerOk (history ++ events) id worker := by
  have unseen : ∀ reads, .snapshot id reads ∉ events :=
    fun reads mem => absent _ mem rfl
  obtain ⟨pc, txnCnt, startTs, accesses⟩ := worker
  cases pc with
  | running => exact Begun.append ok absent
  | checking snapshot => exact Snapped.append ok absent
  | writing todo => exact Checked.append ok unseen
  | leaving valid | returning valid =>
    exact fun isValid => Checked.append (ok isValid) unseen
  | idle => trivial
  | crashed => exact ok

variable [DecidableEq Tid] {db after : OccDb Tid Row Data}
  {threads : Tid → OccWorker Tid Row Data} {tid : Tid}
  {worker : OccWorker Tid Row Data}

section

variable (inv : OccInv db threads history)

include inv

/-- A step of a worker that emits events of its own transaction. -/
theorem OccInv.advance
    (log : after.history = (entries (history ++ events)).reverse)
    (numbered : Numbered after.history after.tnc)
    (grows : (threads tid).txnCnt ≤ worker.txnCnt)
    (own : ∀ event ∈ events, event.id = (tid, worker.txnCnt))
    (unseen : ∀ reads, .snapshot (tid, worker.txnCnt) reads ∈ events →
      .committed (tid, worker.txnCnt) ∉ history)
    (commits : .committed (tid, worker.txnCnt) ∈ events →
      Checked (history ++ events) (tid, worker.txnCnt))
    (ok : OccWorkerOk (history ++ events) (tid, worker.txnCnt) worker)
    (active : ∀ other ≠ tid, (∃ ent ∈ db.active, ent.txn = other) →
      ∃ ent ∈ after.active, ent.txn = other)
    (enrolled : worker.enrolled = true → ∃ ent ∈ after.active, ent.txn = tid) :
    OccInv after (update threads tid worker) (history ++ events) where
  log := log
  numbered := numbered
  fresh := by
    intro event mem
    rcases List.mem_append.1 mem with mem | mem
    · have bound := inv.fresh event mem
      by_cases isTid : event.id.1 = tid
      · rw [isTid] at bound ⊢
        rw [update_self]
        exact Nat.le_trans bound grows
      · rw [update_of_ne isTid]
        exact bound
    · rw [own event mem, update_self]
  workers := by
    intro other
    by_cases isTid : other = tid
    · subst isTid
      rw [update_self]
      exact ok
    · rw [update_of_ne isTid]
      refine (inv.workers other).append fun event mem same => ?_
      rw [own event mem] at same
      exact isTid (congrArg Prod.fst same).symm
  committed := by
    intro id mem
    rcases List.mem_append.1 mem with mem | mem
    · refine (inv.committed id mem).append fun reads isSnapshot => ?_
      have isOwn : id = _ := own _ isSnapshot
      subst isOwn
      exact unseen reads isSnapshot mem
    · have isOwn : id = _ := own _ mem
      subst isOwn
      exact commits mem
  active := by
    intro other isEnrolled
    rcases update_cases (fun worker : OccWorker Tid Row Data =>
      worker.enrolled = true) isEnrolled with
      ⟨rfl, now⟩ | ⟨ne, before⟩
    · exact enrolled now
    · exact active other ne (inv.active other before)

theorem OccInv.emit {event : OccEvent Tid Row}
    (log : after.history = (entries (history ++ [event])).reverse)
    (numbered : Numbered after.history after.tnc)
    (grows : (threads tid).txnCnt ≤ worker.txnCnt)
    (own : event.id = (tid, worker.txnCnt))
    (unseen : ∀ reads, .snapshot (tid, worker.txnCnt) reads = event →
      .committed (tid, worker.txnCnt) ∉ history)
    (commits : .committed (tid, worker.txnCnt) = event →
      Checked (history ++ [event]) (tid, worker.txnCnt))
    (ok : OccWorkerOk (history ++ [event]) (tid, worker.txnCnt) worker)
    (active : ∀ other ≠ tid, (∃ ent ∈ db.active, ent.txn = other) →
      ∃ ent ∈ after.active, ent.txn = other)
    (enrolled : worker.enrolled = true → ∃ ent ∈ after.active, ent.txn = tid) :
    OccInv after (update threads tid worker) (history ++ [event]) := by
  refine inv.advance log numbered grows ?_ ?_ ?_ ok active enrolled
  · exact List.forall_mem_singleton.2 own
  · exact fun reads mem => unseen reads (List.mem_singleton.1 mem)
  · exact fun mem => commits (List.mem_singleton.1 mem)

/-- A step of a worker that emits nothing and leaves the lists alone. -/
theorem OccInv.quiet (sameHistory : after.history = db.history)
    (sameTnc : after.tnc = db.tnc) (sameActive : after.active = db.active)
    (sameCnt : (threads tid).txnCnt = worker.txnCnt)
    (ok : OccWorkerOk history (tid, worker.txnCnt) worker)
    (enrolled : worker.enrolled = true → ∃ ent ∈ db.active, ent.txn = tid) :
    OccInv after (update threads tid worker) (history ++ []) := by
  refine inv.advance ?_ ?_ (Nat.le_of_eq sameCnt) nofun nofun nofun ?_ ?_ ?_
  · rw [List.append_nil, sameHistory]
    exact inv.log
  · rw [sameHistory, sameTnc]
    exact inv.numbered
  · rwa [List.append_nil]
  · rw [sameActive]
    exact fun _ _ isActive => isActive
  · rwa [sameActive]

omit inv in
omit [DecidableEq Row] in
theorem removeActive_of_mem {txn : Tid} {active : List (SetEnt Tid Row)}
    (mem : ∃ ent ∈ active, ent.txn = txn) :
    ∃ rest, removeActive txn active = some rest ∧
      ∀ other ≠ txn, (∃ ent ∈ active, ent.txn = other) →
        ∃ ent ∈ rest, ent.txn = other := by
  induction active with
  | nil =>
    obtain ⟨ent, mem, -⟩ := mem
    cases mem
  | cons first rest ih =>
    by_cases isTxn : first.txn = txn
    · refine ⟨rest, by rw [removeActive, if_pos isTxn], ?_⟩
      rintro other ne ⟨ent, mem, same⟩
      rcases List.mem_cons.1 mem with rfl | mem
      · exact absurd (same.symm.trans isTxn) ne
      · exact ⟨ent, mem, same⟩
    · obtain ⟨ent, mem, same⟩ := mem
      rcases List.mem_cons.1 mem with rfl | mem
      · exact absurd same isTxn
      · obtain ⟨kept, removed, others⟩ := ih ⟨ent, mem, same⟩
        refine ⟨first :: kept, ?_, ?_⟩
        · rw [removeActive, if_neg isTxn, removed]
          rfl
        · rintro other ne ⟨ent, mem, same⟩
          rcases List.mem_cons.1 mem with rfl | mem
          · exact ⟨ent, .head _, same⟩
          · obtain ⟨ent, mem, same⟩ :=
              others other ne ⟨ent, mem, same⟩
            exact ⟨ent, .tail _ mem, same⟩

theorem OccInv.begin : OccInv { db with timestamp := db.timestamp + 1 }
      (update threads tid
        ⟨.running, (threads tid).txnCnt + 1, db.timestamp, []⟩)
      (history ++ [.started (tid, (threads tid).txnCnt + 1) db.timestamp]) := by
  have absent : Absent (tid, (threads tid).txnCnt + 1) history := by
    intro event mem same
    have bound := inv.fresh event mem
    rw [same] at bound
    exact absurd bound (Nat.not_succ_le_self _)
  refine inv.emit ?_ inv.numbered (Nat.le_succ _) rfl nofun nofun
    ⟨history, [], rfl, absent, nofun⟩ (fun _ _ isActive => isActive) nofun
  simpa [entries] using inv.log

variable {txnCnt : Nat} {accesses : List (OccAccess Row Data)}

theorem OccInv.validate
    (here : threads tid = ⟨.running, txnCnt, startTs, accesses⟩) :
    OccInv (db.enrol tid (writeRows accesses)) (update threads tid
        ⟨.checking db.snapshot, txnCnt, startTs, accesses⟩)
      (history ++ [.snapshot (tid, txnCnt) (readRows accesses)]) := by
  have begun := inv.workers tid
  rw [here] at begun
  obtain ⟨before, after, split, clear, clearAfter⟩ := begun
  obtain ⟨isHistory, isTnc, stays⟩ :
      (db.enrol tid (writeRows accesses)).history = db.history ∧
      (db.enrol tid (writeRows accesses)).tnc = db.tnc ∧
      ∀ ent ∈ db.active, ent ∈ (db.enrol tid (writeRows accesses)).active := by
    rw [OccDb.enrol]
    split
    · exact ⟨rfl, rfl, fun _ mem => mem⟩
    · exact ⟨rfl, rfl, fun _ mem => .tail _ mem⟩
  refine inv.emit ?_ ?_ (by rw [here]) rfl ?_ nofun ?_ ?_ ?_
  · rw [isHistory]
    simpa [entries] using inv.log
  · rw [isHistory, isTnc]
    exact inv.numbered
  · intro _ _ mem
    rw [split] at mem
    rcases List.mem_append.1 mem with mem | mem
    · exact clear _ mem rfl
    · rcases List.mem_cons.1 mem with same | mem
      · cases same
      · exact clearAfter _ mem rfl
  · refine ⟨inv.numbered, before, after, [], ?_, clear, clearAfter, nofun, ?_⟩
    · rw [split, List.append_assoc]
      rfl
    · intro ent mem
      show ent ∈ db.history
      rw [inv.log, List.mem_reverse, mem_entries]
      obtain ⟨id, mem⟩ := mem_entries.1 mem
      refine ⟨id, ?_⟩
      rw [split]
      exact List.mem_append_right _ (.tail _ mem)
  · rintro other _ ⟨ent, mem, same⟩
    exact ⟨ent, stays ent mem, same⟩
  · intro isEnrolled
    have nonempty : (writeRows accesses).isEmpty = false := by
      simpa [OccWorker.enrolled] using isEnrolled
    rw [OccDb.enrol, nonempty]
    exact ⟨_, .head _, rfl⟩

theorem OccInv.leave {valid : Bool}
    (here : threads tid = ⟨.leaving valid, txnCnt, startTs, accesses⟩) :
    ∃ after, db.leave tid (writeRows accesses) valid = some after ∧
      OccInv after (update threads tid
          ⟨.returning valid, txnCnt, startTs, accesses⟩)
        (history ++ if valid then
          [.entered (tid, txnCnt) ⟨after.tnc, tid, writeRows accesses⟩]
          else []) := by
  have checked := inv.workers tid
  have grows : (threads tid).txnCnt ≤ txnCnt := by rw [here]
  obtain ⟨rest, removed, others⟩ := removeActive_of_mem
    (inv.active tid (by rw [here]; rfl))
  rw [here] at checked
  cases valid with
  | false =>
    refine ⟨{ db with active := rest, activeLen := db.activeLen - 1 }, ?_, ?_⟩
    · rw [OccDb.leave, removed]
      rfl
    · refine inv.advance ?_ inv.numbered grows nofun nofun nofun nofun others
        nofun
      simpa [entries] using inv.log
  | true =>
    refine ⟨{ db with
      active := rest
      activeLen := db.activeLen - 1
      tnc := db.tnc + 1
      history := ⟨db.tnc + 1, tid, writeRows accesses⟩ :: db.history
      hisLen := db.hisLen + 1 }, ?_, ?_⟩
    · rw [OccDb.leave, removed, Option.bind_some]
      dsimp only
      rw [if_pos rfl, OccDb.enter, if_pos inv.numbered.last]
    · refine inv.emit ?_ (inv.numbered.enter _ _) grows rfl nofun nofun
        (fun _ => ?_) others nofun
      · show _ :: db.history = (entries (history ++ [_])).reverse
        rw [entries, List.filterMap_append, List.reverse_append, inv.log]
        rfl
      · refine Checked.append (checked rfl) fun reads mem => ?_
        cases List.mem_singleton.1 mem

/-- The steps of `central_validate` behind its first section. -/
theorem OccInv.inside {pc next : OccPc Tid Row Data}
    (here : threads tid = ⟨pc, txnCnt, startTs, accesses⟩)
    (step : occInside tid db ⟨pc, txnCnt, startTs, accesses⟩ =
      some (after, next, events)) :
    OccInv after (update threads tid ⟨next, txnCnt, startTs, accesses⟩)
      (history ++ events) := by
  have ok := inv.workers tid
  have active := inv.active tid
  have sameCnt : (threads tid).txnCnt = txnCnt := by rw [here]
  rw [here] at ok active
  cases pc with
  | checking snapshot =>
    simp only [occInside] at step
    split at step
    · next valid =>
        cases step
        exact inv.quiet rfl rfl rfl sameCnt (Snapped.checked ok valid.1) active
    · split at step
      · cases step
        exact inv.quiet rfl rfl rfl sameCnt nofun nofun
      · next nonempty =>
          cases step
          refine inv.quiet rfl rfl rfl sameCnt nofun fun _ => active ?_
          simpa [OccWorker.enrolled] using nonempty
  | writing todo =>
    cases todo with
    | nil =>
      simp only [occInside] at step
      split at step
      · cases step
        exact inv.quiet rfl rfl rfl sameCnt (fun _ => ok) nofun
      · next nonempty =>
          cases step
          refine inv.quiet rfl rfl rfl sameCnt (fun _ => ok) fun _ => active ?_
          simpa [OccWorker.enrolled] using nonempty
    | cons access todo =>
      simp only [occInside] at step
      split at step <;> cases step <;>
        exact inv.quiet rfl rfl rfl sameCnt ok active
  | leaving valid =>
    obtain ⟨db', left, kept⟩ := inv.leave here
    simp only [occInside, left] at step
    cases step
    exact kept
  | returning valid =>
    cases step
    cases valid with
    | false => exact inv.quiet rfl rfl rfl sameCnt trivial nofun
    | true =>
      refine inv.emit ?_ inv.numbered (Nat.le_of_eq sameCnt) rfl nofun
        (fun _ => ?_) trivial (fun _ _ isActive => isActive) nofun
      · simpa [entries] using inv.log
      · refine Checked.append (ok rfl) fun reads mem => ?_
        cases List.mem_singleton.1 mem
  | _ => cases step

theorem OccInv.step {action : OccAction Row Data}
    {outcome : Outcome (OccDb Tid Row Data) (OccWorker Tid Row Data)
      (OccEvent Tid Row)}
    (step : occMachine.step tid action db (threads tid) = some outcome) :
    OccInv outcome.shared (update threads tid outcome.thread)
      (history ++ outcome.events) := by
  have ok := inv.workers tid
  rcases own : threads tid with ⟨pc, txnCnt, startTs, accesses⟩
  rw [own] at step ok
  have sameCnt : (threads tid).txnCnt = txnCnt := by rw [own]
  simp only [occMachine] at step
  split at step
  · cases step
    subst sameCnt
    exact inv.begin
  · cases step
    exact inv.quiet rfl rfl rfl sameCnt ok nofun
  · cases step
    exact inv.quiet rfl rfl rfl sameCnt ok nofun
  · cases step
    exact inv.quiet rfl rfl rfl sameCnt trivial nofun
  · cases step
    exact inv.validate own
  · obtain ⟨⟨after, pc, events⟩, inner, rfl⟩ :=
      Option.map_eq_some_iff.1 step
    exact inv.inside own inner
  · cases step

end

omit [DecidableEq Tid] in
theorem OccInv.start (data : Row → Data) :
    OccInv (occStart data : Config Tid (OccDb Tid Row Data) _).shared
      (fun _ => ⟨.idle, 0, 0, []⟩) [] where
  log := rfl
  numbered := ⟨.nil, nofun, nofun⟩
  fresh := nofun
  workers := fun _ => trivial
  committed := nofun
  active := nofun

/--
A transaction that commits has no stale read exactly if no write set that it
could not see, with a number up to its `start_ts`, touches its read set.
-/
theorem central_validation_fresh_iff {data : Row → Data}
    {config : Config Tid (OccDb Tid Row Data) (OccWorker Tid Row Data)}
    (run : occMachine.Run (occStart data) history config)
    {before between later : List (OccEvent Tid Row)}
    (split : history = before ++ .started id startTs ::
      (between ++ .snapshot id reads :: later))
    (commits : .committed id ∈ later) :
    (∀ other ent, .entered other ent ∈ between →
        ∀ row ∈ ent.rows, row ∉ reads) ↔
      ∀ other ent, .entered other ent ∈ between → ent.tn ≤ startTs →
        ∀ row ∈ ent.rows, row ∉ reads := by
  have inv : OccInv config.shared config.threads history := by
    refine run.invariant
      (fun history config => OccInv config.shared config.threads history)
      (OccInv.start data) ?_
    intro history config tid action outcome inv _ stepped
    exact inv.step stepped
  have checked : Checked history id := by
    refine inv.committed id ?_
    rw [split]
    exact List.mem_append_right _ (.tail _ (List.mem_append_right _
      (.tail _ commits)))
  constructor
  · exact fun fresh other ent member _ => fresh other ent member
  · intro unseen other ent member
    by_cases late : startTs < ent.tn
    · exact testValid_iff.1 (checked before startTs between reads later split
        ent (mem_entries.2 ⟨other, member⟩) late)
    · exact unseen other ent member (Nat.not_lt.1 late)

end

end

/-- A write set that touches another row enters before the snapshot. -/
theorem central_validation_fresh_iff_apart :
    ∃ (history : List (OccEvent (Fin 2) (Fin 2)))
      (config : Config (Fin 2) (OccDb (Fin 2) (Fin 2) Nat)
        (OccWorker (Fin 2) (Fin 2) Nat)),
      occMachine.Run (occStart fun _ => 7) history config ∧
      history = [.started (0, 1) 1] ++ .started (1, 1) 2 ::
        ([.snapshot (0, 1) [], .entered (0, 1) ⟨1, 0, [1]⟩,
          .committed (0, 1)] ++ .snapshot (1, 1) [0] ::
          [.committed (1, 1)]) ∧
      ((∀ other ent, OccEvent.entered other ent ∈
          [.snapshot (0, 1) [], .entered (0, 1) ⟨1, 0, [1]⟩,
            .committed ((0 : Fin 2), 1)] →
          ∀ row ∈ ent.rows, row ∉ [(0 : Fin 2)]) ↔
        ∀ other ent, OccEvent.entered other ent ∈
          [.snapshot (0, 1) [], .entered (0, 1) ⟨1, 0, [1]⟩,
            .committed ((0 : Fin 2), 1)] → ent.tn ≤ 2 →
          ∀ row ∈ ent.rows, row ∉ [(0 : Fin 2)]) := by
  have executed : (occMachine.execute (occStart fun _ => 7)
        [(0, .begin), (1, .begin), (1, .getRow 0 .rd), (0, .getRow 1 .wr),
          (0, .modify 0 8), (0, .validate), (0, .inside), (0, .inside),
          (0, .inside), (0, .inside), (0, .inside), (1, .validate),
          (1, .inside), (1, .inside), (1, .inside), (1, .inside)]).map
        Prod.snd =
      some ([.started ((0 : Fin 2), 1) 1] ++ .started (1, 1) 2 ::
        ([.snapshot (0, 1) [], .entered (0, 1) ⟨1, 0, [(1 : Fin 2)]⟩,
          .committed (0, 1)] ++ .snapshot (1, 1) [0] ::
          [.committed (1, 1)])) := by decide +kernel
  obtain ⟨⟨config, history⟩, ran, same⟩ := Option.map_eq_some_iff.1 executed
  exact ⟨history, config, Machine.run_of_execute ran, same,
    central_validation_fresh_iff (Machine.run_of_execute ran) same (.head _)⟩

/--
The first transaction writes the row that the second one has read and enters
the history with number one; the second one has `start_ts` two and commits.
-/
theorem central_validation_stale_read :
    ∃ (history : List (OccEvent (Fin 2) (Fin 2)))
      (config : Config (Fin 2) (OccDb (Fin 2) (Fin 2) Nat)
        (OccWorker (Fin 2) (Fin 2) Nat)),
      occMachine.Run (occStart fun _ => 7) history config ∧
      history = [.started (0, 1) 1] ++ .started (1, 1) 2 ::
        ([.snapshot (0, 1) [], .entered (0, 1) ⟨1, 0, [0]⟩,
          .committed (0, 1)] ++ .snapshot (1, 1) [0] ::
          [.committed (1, 1)]) := by
  have executed : (occMachine.execute (occStart fun _ => 7)
        [(0, .begin), (1, .begin), (1, .getRow 0 .rd), (0, .getRow 0 .wr),
          (0, .modify 0 8), (0, .validate), (0, .inside), (0, .inside),
          (0, .inside), (0, .inside), (0, .inside), (1, .validate),
          (1, .inside), (1, .inside), (1, .inside), (1, .inside)]).map
        Prod.snd =
      some ([.started ((0 : Fin 2), 1) 1] ++ .started (1, 1) 2 ::
        ([.snapshot (0, 1) [], .entered (0, 1) ⟨1, 0, [(0 : Fin 2)]⟩,
          .committed (0, 1)] ++ .snapshot (1, 1) [0] ::
          [.committed (1, 1)])) := by decide +kernel
  obtain ⟨⟨config, history⟩, ran, same⟩ := Option.map_eq_some_iff.1 executed
  exact ⟨history, config, Machine.run_of_execute ran, same⟩

end Lockfreec.Bench
