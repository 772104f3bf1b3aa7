import Lockfreec.Bench.Plock
import Lockfreec.Lib.Serializability
import Mathlib.Algebra.BigOperators.Ring.Finset
import Mathlib.Data.Fintype.Card
import Mathlib.Data.List.Pairwise

/-!
# Partition locking is consistent and deadlock-free

A partition is in order when its owner is older than all waiters and the
waiters are sorted by age.  `PartStep` is what one call of `PartMan::lock` or
`PartMan::unlock` does to the other transactions: they stay where they are,
except that a waiter may become the owner, and `ready_part` follows their
places in the waiter lists.

Whoever waits is younger than whom it waits for, so there is no cycle.
-/

namespace Lockfreec.Bench

open Function Lib.Interleaving Lib.Serializability

variable {threadCnt : Nat} {Part : Type}

/-! ## One partition -/

structure PartOk (ts : Fin threadCnt → Nat) (man : PartMan threadCnt) :
    Prop where
  older : ∀ owner, man.owner = some owner →
    ∀ waiter ∈ man.waiters, ts owner < ts waiter
  sorted : man.waiters.Pairwise fun left right => ts left < ts right
  orphan : man.owner = none → man.waiters = []

/-- The transaction owns the partition or waits for it. -/
def Queued (man : PartMan threadCnt) (txn : Fin threadCnt) : Prop :=
  man.owner = some txn ∨ txn ∈ man.waiters

local instance threadLawful : LawfulBEq (Fin threadCnt) := inferInstance

/-- One for a waiter, zero for anyone else. -/
def waitCount (man : PartMan threadCnt) (txn : Fin threadCnt) : Int :=
  if txn ∈ man.waiters then 1 else 0

/-- What a call for one transaction does to the partition and the others. -/
structure PartStep (ts : Fin threadCnt → Nat) (txn : Fin threadCnt)
    (man after : PartMan threadCnt)
    (readyPart readyAfter : Fin threadCnt → Int) : Prop where
  ok : PartOk ts after
  queued : ∀ other, other ≠ txn → (Queued after other ↔ Queued man other)
  waiters : ∀ other, other ≠ txn → other ∈ after.waiters → other ∈ man.waiters
  ready : ∀ other, readyAfter other =
    readyPart other + waitCount after other - waitCount man other

section

variable {ts : Fin threadCnt → Nat} {txn : Fin threadCnt}
  {man : PartMan threadCnt} {readyPart : Fin threadCnt → Int}

theorem shiftInsert_perm (waiters : List (Fin threadCnt)) :
    (shiftInsert ts txn waiters).Perm (txn :: waiters) := by
  induction waiters with
  | nil => exact .refl _
  | cons waiter rest ih =>
    rw [shiftInsert]
    split
    · exact .refl _
    · exact (ih.cons waiter).trans (.swap txn waiter rest)

theorem shiftInsert_sorted {waiters : List (Fin threadCnt)}
    (sorted : waiters.Pairwise fun left right => ts right < ts left)
    (apart : ∀ waiter ∈ waiters, ts waiter ≠ ts txn) :
    (shiftInsert ts txn waiters).Pairwise
      fun left right => ts right < ts left := by
  induction waiters with
  | nil => exact List.pairwise_singleton _ _
  | cons waiter rest ih =>
    have below := List.pairwise_cons.1 sorted
    rw [shiftInsert]
    split
    · next less =>
        refine List.pairwise_cons.2 ⟨?_, sorted⟩
        intro other mem
        cases mem with
        | head => exact less
        | tail _ mem => exact Nat.lt_trans (below.1 other mem) less
    · next notLess =>
        have more : ts txn < ts waiter := by
          have := apart waiter (.head _)
          omega
        refine List.pairwise_cons.2 ⟨?_, ?_⟩
        · intro other mem
          rcases List.mem_cons.1 ((shiftInsert_perm rest).mem_iff.1 mem)
            with rfl | mem
          · exact more
          · exact below.1 other mem
        · exact ih below.2 fun other mem => apart other (.tail _ mem)

theorem ascending_of_sorted {waiters : List (Fin threadCnt)}
    (sorted : waiters.Pairwise fun left right => ts left < ts right) :
    ascending ts waiters = true := by
  induction waiters with
  | nil => rfl
  | cons first rest ih =>
    have later := List.pairwise_cons.1 sorted
    cases rest with
    | nil => rfl
    | cons second rest =>
      rw [ascending, ih later.2, decide_eq_true (later.1 second (.head _))]
      rfl

/-- There is a free slot for a transaction that is not queued yet. -/
theorem waiters_length_lt (ok : PartOk ts man)
    (fresh : ¬ Queued man txn) : man.waiters.length < threadCnt := by
  have distinct : (txn :: man.waiters).Nodup := by
    refine List.nodup_cons.2 ⟨fun mem => fresh (.inr mem), ?_⟩
    refine ok.sorted.imp ?_
    rintro left right less rfl
    exact Nat.lt_irrefl _ less
  have bound := distinct.length_le_card
  rw [Fintype.card_fin, List.length_cons] at bound
  exact bound

/-- `PartMan::lock` for a transaction that is not queued yet. -/
theorem PartMan.lock_spec (ok : PartOk ts man) (fresh : ¬ Queued man txn)
    (apart : ∀ other, Queued man other → ts other ≠ ts txn)
    (readyPart : Fin threadCnt → Int) :
    ∃ result, man.lock ts txn readyPart = some result ∧
      PartStep ts txn man result.man readyPart result.readyPart ∧
        (result.rc = .abort ∧ ¬ Queued result.man txn ∨
          result.rc ≠ .abort ∧ Queued result.man txn) := by
  rw [PartMan.lock]
  cases owned : man.owner with
  | none =>
    have empty := ok.orphan owned
    refine ⟨_, rfl, ⟨⟨?_, ?_, nofun⟩, ?_, ?_, ?_⟩, .inr ⟨nofun, .inl rfl⟩⟩
    · intro owner _ waiter mem
      rw [empty] at mem
      cases mem
    · exact ok.sorted
    · intro other ne
      simp [Queued, owned, Ne.symm ne]
    · exact fun other _ mem => mem
    · intro other
      simp [waitCount]
  | some owner =>
    show ∃ result, (if ts owner < ts txn then _ else _) = some result ∧ _
    split
    · next older =>
        rw [if_pos (waiters_length_lt ok fresh)]
        have same : ((shiftInsert ts txn man.waiters.reverse).reverse).Perm
            (txn :: man.waiters) :=
          (List.reverse_perm _).trans ((shiftInsert_perm _).trans
            ((List.reverse_perm _).cons txn))
        have mem : ∀ other,
            other ∈ (shiftInsert ts txn man.waiters.reverse).reverse ↔
              other = txn ∨ other ∈ man.waiters :=
          fun other => same.mem_iff.trans List.mem_cons
        refine ⟨_, rfl, ⟨⟨?_, ?_, ?_⟩, ?_, ?_, ?_⟩,
          .inr ⟨nofun, .inr ((mem txn).2 (.inl rfl))⟩⟩
        · intro which isOwner waiter inside
          cases isOwner
          rcases (mem waiter).1 inside with rfl | before
          · exact older
          · exact ok.older owner owned waiter before
        · refine List.pairwise_reverse.2 (shiftInsert_sorted ?_ ?_)
          · exact List.pairwise_reverse.2 ok.sorted
          · intro waiter inside
            exact apart waiter (.inr (List.mem_reverse.1 inside))
        · exact nofun
        · intro other ne
          simp only [Queued, owned, mem, ne, false_or]
        · intro other ne inside
          exact ((mem other).1 inside).resolve_left ne
        · intro other
          by_cases isTxn : other = txn
          · subst isTxn
            have out : other ∉ man.waiters :=
              fun inside => fresh (.inr inside)
            have inside := (mem other).2 (.inl rfl)
            simp [waitCount, out, inside]
          · simp only [waitCount, mem, isTxn, false_or, update_of_ne isTxn]
            omega
    · exact ⟨_, rfl, ⟨ok, fun _ _ => Iff.rfl, fun _ _ => id, by simp⟩,
        .inl ⟨rfl, fresh⟩⟩

/-- `PartMan::unlock` for an owner or a waiter. -/
theorem PartMan.unlock_spec (ok : PartOk ts man) (queued : Queued man txn)
    (readyPart : Fin threadCnt → Int) :
    ∃ result, man.unlock ts txn readyPart = some result ∧
      PartStep ts txn man result.1 readyPart result.2 ∧
        ¬ Queued result.1 txn := by
  have distinct : man.waiters.Nodup := by
    refine ok.sorted.imp ?_
    rintro left right less rfl
    exact Nat.lt_irrefl _ less
  rw [PartMan.unlock]
  split
  · next owned =>
      have notWaiter : txn ∉ man.waiters :=
        fun mem => Nat.lt_irrefl _ (ok.older txn owned txn mem)
      cases isList : man.waiters with
      | nil =>
        refine ⟨_, rfl, ⟨⟨nofun, .nil, fun _ => rfl⟩, ?_, nofun, ?_⟩, ?_⟩
        · intro other ne
          simp [Queued, owned, isList, Ne.symm ne]
        · intro other
          simp [waitCount, isList]
        · simp [Queued]
      | cons next rest =>
        have sorted := ok.sorted
        rw [isList] at sorted distinct notWaiter
        have later := List.pairwise_cons.1 sorted
        have outside := (List.nodup_cons.1 distinct).1
        simp only [ascending_of_sorted sorted, if_true]
        refine ⟨_, rfl, ⟨⟨?_, later.2, nofun⟩, ?_, ?_, ?_⟩, ?_⟩
        · intro owner isOwner waiter mem
          cases isOwner
          exact later.1 waiter mem
        · intro other ne
          simp only [Queued, owned, isList, List.mem_cons,
            Option.some.injEq, Ne.symm ne, false_or,
            eq_comm (a := next)]
        · intro other _ mem
          rw [isList]
          exact .tail _ mem
        · intro other
          by_cases isNext : other = next
          · subst isNext
            simp [waitCount, isList, outside]
          · simp [waitCount, isList, isNext]
        · rintro (isOwner | mem)
          · cases isOwner
            exact notWaiter (.head _)
          · exact notWaiter (.tail _ mem)
  · next notOwner =>
      have waits : txn ∈ man.waiters := queued.resolve_left notOwner
      have mem : ∀ other, other ∈ man.waiters.erase txn ↔
          other ≠ txn ∧ other ∈ man.waiters :=
        fun other => distinct.mem_erase_iff
      rw [if_pos waits]
      refine ⟨_, rfl, ⟨⟨?_, ?_, ?_⟩, ?_, ?_, ?_⟩, ?_⟩
      · intro owner isOwner waiter inside
        exact ok.older owner isOwner waiter ((mem waiter).1 inside).2
      · exact ok.sorted.sublist List.erase_sublist
      · intro isFree
        rw [ok.orphan isFree] at waits
        cases waits
      · intro other ne
        simp [Queued, mem, ne]
      · exact fun other _ inside => ((mem other).1 inside).2
      · intro other
        by_cases isTxn : other = txn
        · subst isTxn
          simp [waitCount, mem, waits]
        · simp [waitCount, mem, isTxn]
      · rintro (isOwner | inside)
        · exact notOwner isOwner
        · exact ((mem txn).1 inside).1 rfl

end

/-! ## All partitions -/

/-- The partitions that the thread has requested and not given back. -/
def PlockPc.requested : PlockPc Part → List Part
  | .locking requested _ => requested
  | .aborting todo _ => todo
  | .waiting parts | .checking parts | .returned .rcok parts => parts
  | .unlocking todo => todo
  | _ => []

/-- The partitions that the thread still has to request. -/
def PlockPc.todo : PlockPc Part → List Part
  | .locking _ todo => todo
  | _ => []

/-- The thread has seen that it waits for no partition. -/
def PlockPc.granted : PlockPc Part → Bool
  | .checking _ | .returned .rcok _ | .unlocking _ => true
  | _ => false

/-- The number of partitions in whose waiter list a transaction is. -/
def waitedParts [Fintype Part] (db : PlockDb threadCnt Part)
    (txn : Fin threadCnt) : Nat :=
  (Finset.univ.filter fun part => txn ∈ (db.parts part).waiters).card

/-- What holds of one thread. -/
structure PlockWorker.Ok (stamp : Fin threadCnt × Nat → Nat)
    (db : PlockDb threadCnt Part) (txn : Fin threadCnt)
    (worker : PlockWorker Part) : Prop where
  queued : ∀ part, Queued (db.parts part) txn ↔ part ∈ worker.pc.requested
  stamped : worker.pc.between = false →
    ∃ number, db.ts txn = stamp (txn, number)
  distinct : (worker.pc.requested ++ worker.pc.todo).Nodup
  granted : worker.pc.granted = true → ∀ part, txn ∉ (db.parts part).waiters
  alive : worker.pc ≠ .crashed

structure PlockInv [Fintype Part] (stamp : Fin threadCnt × Nat → Nat)
    (db : PlockDb threadCnt Part)
    (threads : Fin threadCnt → PlockWorker Part) : Prop where
  parts : ∀ part, PartOk db.ts (db.parts part)
  ready : ∀ txn, db.readyPart txn = waitedParts db txn
  workers : ∀ txn, (threads txn).Ok stamp db txn

section

variable [DecidableEq Part] [Fintype Part] {stamp : Fin threadCnt × Nat → Nat}
  {db : PlockDb threadCnt Part} {txn : Fin threadCnt}
  {threads : Fin threadCnt → PlockWorker Part}

/-- How the number of waiter lists changes with one partition. -/
theorem waitedParts_update (part : Part) (after : PartMan threadCnt)
    (readyAfter : Fin threadCnt → Int) (other : Fin threadCnt) :
    (waitedParts { db with
        parts := update db.parts part after
        readyPart := readyAfter } other : Int) =
      waitedParts db other + waitCount after other -
        waitCount (db.parts part) other := by
  have split : ∀ parts : Part → PartMan threadCnt,
      (((Finset.univ.filter fun each => other ∈ (parts each).waiters).card :
        Nat) : Int) = waitCount (parts part) other +
          ∑ each ∈ Finset.univ.erase part, waitCount (parts each) other := by
    intro parts
    rw [Finset.card_filter, Nat.cast_sum,
      ← Finset.add_sum_erase _ _ (Finset.mem_univ part)]
    simp only [waitCount, Nat.cast_ite, Nat.cast_one, Nat.cast_zero]
  have rest : ∑ each ∈ Finset.univ.erase part,
        waitCount (update db.parts part after each) other =
      ∑ each ∈ Finset.univ.erase part, waitCount (db.parts each) other := by
    refine Finset.sum_congr rfl fun each mem => ?_
    rw [update_of_ne (Finset.ne_of_mem_erase mem)]
  simp only [waitedParts]
  rw [split, split, rest, update_self]
  omega

omit [DecidableEq Part] [Fintype Part] in
/-- A thread that is between transactions is in no queue. -/
theorem requested_of_between {pc : PlockPc Part} (between : pc.between = true) :
    pc.requested = [] := by
  cases pc with
  | returned rc parts => cases rc <;> first | rfl | cases between
  | idle => rfl
  | _ => cases between

variable {part : Part}

section

variable (inv : PlockInv stamp db threads)

include inv

section

omit [DecidableEq Part]

theorem PlockInv.not_between (queued : Queued (db.parts part) txn) :
    (threads txn).pc.between = false := by
  rw [Bool.eq_false_iff]
  intro between
  have member := ((inv.workers txn).queued part).1 queued
  rw [requested_of_between between] at member
  cases member

/-- Timestamps of transactions that are under way differ. -/
theorem PlockInv.ts_ne (injective : Injective stamp) {other : Fin threadCnt}
    (running : (threads txn).pc.between = false)
    (otherRunning : (threads other).pc.between = false)
    (ne : other ≠ txn) : db.ts other ≠ db.ts txn := by
  obtain ⟨number, stamped⟩ := (inv.workers txn).stamped running
  obtain ⟨otherNumber, otherStamped⟩ := (inv.workers other).stamped otherRunning
  rw [stamped, otherStamped]
  intro same
  exact ne (Prod.mk.inj (injective same)).1

theorem PlockInv.private {worker : PlockWorker Part}
    (own : worker.Ok stamp db txn) :
    PlockInv stamp db (update threads txn worker) where
  parts := inv.parts
  ready := inv.ready
  workers := (forall_update_iff threads fun txn worker => worker.Ok stamp db txn).2
    ⟨own, fun other _ => inv.workers other⟩

end

/-- A call for one partition, with the thread where it goes next. -/
theorem PlockInv.call
    {after : PartMan threadCnt} {readyAfter : Fin threadCnt → Int}
    (step : PartStep db.ts txn (db.parts part) after db.readyPart readyAfter)
    {worker : PlockWorker Part} (own : worker.Ok stamp
      { db with
        parts := update db.parts part after
        readyPart := readyAfter } txn) :
    PlockInv stamp { db with
        parts := update db.parts part after
        readyPart := readyAfter }
      (update threads txn worker) where
  parts := (forall_update_iff db.parts fun _ man => PartOk db.ts man).2
    ⟨step.ok, fun which _ => inv.parts which⟩
  ready := by
    intro other
    rw [waitedParts_update part after readyAfter other, ← inv.ready other]
    exact step.ready other
  workers := by
    refine (forall_update_iff threads fun txn worker => worker.Ok stamp _ txn).2
      ⟨own, fun other ne => ?_⟩
    have before := inv.workers other
    refine ⟨?_, before.stamped, before.distinct, fun isGranted => ?_,
      before.alive⟩
    · refine (forall_update_iff db.parts fun which man =>
        Queued man other ↔ which ∈ _).2 ⟨?_, fun which _ => before.queued which⟩
      exact (step.queued other ne).trans (before.queued part)
    · refine (forall_update_iff db.parts fun _ man => other ∉ man.waiters).2
        ⟨fun mem => ?_, fun which _ => before.granted isGranted which⟩
      exact before.granted isGranted part (step.waiters other ne mem)

omit [DecidableEq Part] in
theorem PlockInv.begin {parts : List Part}
    (between : (threads txn).pc.between = true) (distinct : parts.Nodup) :
    PlockInv stamp
      { db with
        ts := update db.ts txn (stamp (txn, (threads txn).thdTxnId)) }
      (update threads txn ⟨.locking [] parts, (threads txn).thdTxnId + 1⟩) := by
  have absent : ∀ part, ¬ Queued (db.parts part) txn := by
    intro part queued
    rw [inv.not_between queued] at between
    cases between
  have same : ∀ part other, Queued (db.parts part) other →
      update db.ts txn (stamp (txn, (threads txn).thdTxnId)) other =
        db.ts other := by
    intro part other queued
    rw [update_of_ne]
    rintro rfl
    exact absent part queued
  refine ⟨?_, inv.ready, (forall_update_iff threads fun txn worker =>
    worker.Ok stamp _ txn).2 ⟨?_, ?_⟩⟩
  · intro part
    have ok := inv.parts part
    constructor
    · intro owner owned waiter mem
      show update db.ts txn _ owner < update db.ts txn _ waiter
      rw [same part owner (.inl owned), same part waiter (.inr mem)]
      exact ok.older owner owned waiter mem
    · refine ok.sorted.imp_of_mem ?_
      intro left right inLeft inRight less
      show update db.ts txn _ left < update db.ts txn _ right
      rw [same part left (.inr inLeft), same part right (.inr inRight)]
      exact less
    · exact ok.orphan
  · exact ⟨fun part => iff_of_false (absent part) List.not_mem_nil,
      fun _ => ⟨_, update_self ..⟩, distinct, nofun, nofun⟩
  · intro other ne
    have before := inv.workers other
    refine ⟨before.queued, fun running => ?_, before.distinct, before.granted,
      before.alive⟩
    show ∃ number, update db.ts txn _ other = _
    rw [update_of_ne ne]
    exact before.stamped running

omit inv in
omit [DecidableEq Part] in
theorem waitedParts_eq_zero :
    waitedParts db txn = 0 ↔ ∀ part, txn ∉ (db.parts part).waiters := by
  rw [waitedParts, Finset.card_eq_zero, Finset.filter_eq_empty_iff]
  exact ⟨fun none part => none (Finset.mem_univ part),
    fun none part _ => none part⟩

omit [DecidableEq Part] in
theorem PlockInv.ready_eq_zero (none : ∀ part, txn ∉ (db.parts part).waiters) :
    db.readyPart txn = 0 := by
  rw [inv.ready, waitedParts_eq_zero.2 none]
  rfl

variable {number : Nat}

theorem PlockInv.request
    (injective : Injective stamp) {requested todo : List Part}
    (here : threads txn = ⟨.locking requested (part :: todo), number⟩) :
    ∃ rc after, db.lockPart txn part = some (rc, after) ∧
      (rc = .abort → PlockInv stamp after (update threads txn
        ⟨.aborting requested (requested ++ part :: todo), number⟩)) ∧
      (rc ≠ .abort → PlockInv stamp after (update threads txn
        ⟨.locking (requested ++ [part]) todo, number⟩)) := by
  have own := inv.workers txn
  have running : (threads txn).pc.between = false := by rw [here]; rfl
  rw [here] at own
  have absent : part ∉ requested := fun mem =>
    (List.nodup_append.1 own.distinct).2.2 part mem part (.head _) rfl
  have fresh : ¬ Queued (db.parts part) txn :=
    fun queued => absent ((own.queued part).1 queued)
  have apart : ∀ other, Queued (db.parts part) other →
      db.ts other ≠ db.ts txn := by
    intro other queued
    refine inv.ts_ne injective running (inv.not_between queued) ?_
    rintro rfl
    exact fresh queued
  obtain ⟨result, locks, step, answer⟩ :=
    PartMan.lock_spec (inv.parts part) fresh apart db.readyPart
  refine ⟨result.rc, _, by rw [PlockDb.lockPart, locks]; rfl, ?_, ?_⟩
  · intro aborts
    have out : ¬ Queued result.man txn := by
      rcases answer with ⟨-, out⟩ | ⟨stays, -⟩
      · exact out
      · exact absurd aborts stays
    refine inv.call step ⟨(forall_update_iff db.parts fun each man =>
      Queued man txn ↔ each ∈ requested).2 ⟨iff_of_false out absent,
        fun each _ => own.queued each⟩, fun _ => own.stamped rfl, ?_, nofun,
      nofun⟩
    show (requested ++ []).Nodup
    rw [List.append_nil]
    exact (List.nodup_append.1 own.distinct).1
  · intro stays
    have inside : Queued result.man txn := by
      rcases answer with ⟨aborts, -⟩ | ⟨-, inside⟩
      · exact absurd aborts stays
      · exact inside
    refine inv.call step ⟨(forall_update_iff db.parts fun each man =>
      Queued man txn ↔ each ∈ requested ++ [part]).2 ⟨?_, ?_⟩,
      fun _ => own.stamped rfl, ?_, nofun, nofun⟩
    · exact iff_of_true inside (List.mem_append_right _ (.head _))
    · intro other ne
      rw [List.mem_append, List.mem_singleton, or_iff_left ne]
      exact own.queued other
    · show ((requested ++ [part]) ++ todo).Nodup
      rw [List.append_assoc]
      exact own.distinct

/-- Giving the next partition back, in either of the two loops. -/
theorem PlockInv.giveBack {todo : List Part} {pc : PlockPc Part}
    (next : PlockPc Part) (here : threads txn = ⟨pc, number⟩)
    (queue : pc.requested = part :: todo) (running : pc.between = false)
    (requested : next.requested = todo) (last : next.todo = [])
    (granted : next.granted = true → pc.granted = true)
    (alive : next ≠ .crashed) :
    ∃ after, db.unlockPart txn part = some after ∧
      PlockInv stamp after (update threads txn ⟨next, number⟩) := by
  have own := inv.workers txn
  rw [here] at own
  obtain ⟨queued, stamped, distinct, isGranted, -⟩ := own
  dsimp only at queued stamped distinct isGranted
  rw [queue] at queued distinct
  have once := List.nodup_cons.1 (List.nodup_append.1 distinct).1
  obtain ⟨result, unlocks, step, out⟩ :=
    PartMan.unlock_spec (inv.parts part) ((queued part).2 (.head _))
      db.readyPart
  refine ⟨_, by rw [PlockDb.unlockPart, unlocks]; rfl, ?_⟩
  refine inv.call step ⟨?_, fun _ => stamped running, ?_, fun now => ?_, alive⟩
  · show ∀ each, _ ↔ each ∈ next.requested
    rw [requested]
    refine (forall_update_iff db.parts fun each man =>
      Queued man txn ↔ each ∈ todo).2 ⟨iff_of_false out once.1, ?_⟩
    intro other ne
    rw [queued other, List.mem_cons, or_iff_right ne]
  · show (next.requested ++ next.todo).Nodup
    rw [requested, last, List.append_nil]
    exact once.2
  · exact (forall_update_iff db.parts fun _ man => txn ∉ man.waiters).2
      ⟨fun mem => out (.inr mem), fun which _ => isGranted (granted now) which⟩

/-- The steps inside `Plock::lock` and `Plock::unlock`. -/
theorem PlockInv.inside (injective : Injective stamp) {pc next : PlockPc Part}
    {after : PlockDb threadCnt Part} (here : threads txn = ⟨pc, number⟩)
    (step : plockStep txn db pc = some (after, next)) :
    PlockInv stamp after (update threads txn ⟨next, number⟩) := by
  have own := inv.workers txn
  rw [here] at own
  cases pc with
  | locking requested todo =>
    cases todo with
    | nil =>
      cases step
      exact inv.private ⟨own.queued, fun _ => own.stamped rfl, own.distinct,
        nofun, nofun⟩
    | cons part todo =>
      obtain ⟨rc, db', locks, aborts, stays⟩ :=
        inv.request injective here
      simp only [plockStep, locks] at step
      split at step
      · next isAbort =>
          cases step
          exact aborts isAbort
      · next notAbort =>
          cases step
          exact stays notAbort
  | aborting todo parts =>
    cases todo with
    | nil =>
      have none : ∀ part, txn ∉ (db.parts part).waiters := by
        intro part mem
        cases (own.queued part).1 (.inr mem)
      simp only [plockStep, inv.ready_eq_zero none, if_true] at step
      cases step
      exact inv.private ⟨own.queued, nofun, .nil, nofun, nofun⟩
    | cons part todo =>
      obtain ⟨db', unlocks, kept⟩ := inv.giveBack (.aborting todo parts) here
        rfl rfl rfl rfl nofun nofun
      simp only [plockStep, unlocks] at step
      cases step
      exact kept
  | waiting parts =>
    simp only [plockStep] at step
    split at step
    · cases step
      exact inv.private own
    · next none =>
        cases step
        rw [inv.ready] at none
        exact inv.private ⟨own.queued, fun _ => own.stamped rfl, own.distinct,
          fun _ => waitedParts_eq_zero.1 (by omega), nofun⟩
  | checking parts =>
    have none := own.granted rfl
    simp only [plockStep, inv.ready_eq_zero none, if_true] at step
    cases step
    exact inv.private ⟨own.queued, fun _ => own.stamped rfl, own.distinct,
      fun _ => none, nofun⟩
  | unlocking todo =>
    cases todo with
    | nil =>
      cases step
      exact inv.private ⟨own.queued, nofun, .nil, nofun, nofun⟩
    | cons part todo =>
      obtain ⟨db', unlocks, kept⟩ := inv.giveBack (.unlocking todo) here rfl
        rfl rfl rfl (fun _ => rfl) nofun
      simp only [plockStep, unlocks] at step
      cases step
      exact kept
  | _ => cases step

theorem PlockInv.step (injective : Injective stamp) {action : PlockAction Part}
    {outcome : Outcome (PlockDb threadCnt Part) (PlockWorker Part) Empty}
    (step : (plockMachine stamp).step txn action db (threads txn) =
      some outcome) :
    PlockInv stamp outcome.shared (update threads txn outcome.thread) := by
  cases action with
  | lock parts =>
    simp only [plockMachine] at step
    split at step
    · next allowed =>
        cases step
        exact inv.begin allowed.1 allowed.2
    · cases step
  | unlock =>
    have own := inv.workers txn
    simp only [plockMachine] at step
    split at step
    · next parts here =>
        cases step
        obtain ⟨queued, stamped, distinct, granted, -⟩ := own
        rw [here] at queued stamped distinct granted
        exact inv.private ⟨queued, fun _ => stamped rfl, distinct,
          fun _ => granted rfl, nofun⟩
    · cases step
  | inside =>
    obtain ⟨⟨after, next⟩, inner, rfl⟩ := Option.map_eq_some_iff.1 step
    exact inv.inside injective rfl inner

end

omit [DecidableEq Part] in
theorem PlockInv.start (ts : Fin threadCnt → Nat) :
    PlockInv stamp (plockStart ts : Config _ (PlockDb threadCnt Part) _).shared
      (fun _ => ⟨.idle, 0⟩) where
  parts := fun _ => ⟨nofun, .nil, fun _ => rfl⟩
  ready := fun txn => by
    have none : waitedParts (plockStart ts :
        Config _ (PlockDb threadCnt Part) _).shared txn = 0 :=
      waitedParts_eq_zero.2 fun _ => List.not_mem_nil
    rw [none]
    rfl
  workers := fun txn => by
    refine ⟨fun part => iff_of_false ?_ List.not_mem_nil, nofun, .nil, nofun,
      nofun⟩
    rintro (owned | mem)
    · cases owned
    · cases mem

/-! ## Consistency and freedom from deadlock -/

/--
The first transaction waits for a partition that the second one owns, or for
which the second one is queued before it.
-/
def PartWaitsFor (db : PlockDb threadCnt Part)
    (first second : Fin threadCnt) : Prop :=
  ∃ part, first ∈ (db.parts part).waiters ∧
      (db.parts part).owner = some second ∨
    ∃ front middle back,
      (db.parts part).waiters = front ++ second :: middle ++ first :: back

omit [DecidableEq Part] [Fintype Part] in
theorem PartWaitsFor.younger {first second : Fin threadCnt}
    (ok : ∀ part, PartOk db.ts (db.parts part))
    (waits : PartWaitsFor db first second) : db.ts second < db.ts first := by
  obtain ⟨part, ⟨mem, owned⟩ | ⟨front, middle, back, split⟩⟩ := waits
  · exact (ok part).older second owned first mem
  · have sorted := (ok part).sorted
    rw [split] at sorted
    exact (List.pairwise_append.1 sorted).2.2 second (by simp) first (.head _)

/-- What holds of the partitions and transactions in every state. -/
structure PlockOk (db : PlockDb threadCnt Part)
    (threads : Fin threadCnt → PlockWorker Part) : Prop where
  parts : ∀ part, PartOk db.ts (db.parts part)
  readyPart : ∀ txn, db.readyPart txn = waitedParts db txn
  rcok : ∀ txn parts, (threads txn).pc = .returned .rcok parts →
    ∀ part ∈ parts, (db.parts part).owner = some txn
  abort : ∀ txn parts, (threads txn).pc = .returned .abort parts →
    db.readyPart txn = 0 ∧ ∀ part, (db.parts part).owner ≠ some txn ∧
      txn ∉ (db.parts part).waiters
  alive : ∀ txn, (threads txn).pc ≠ .crashed
  noCycle : ∀ txn, ¬ Relation.TransGen (PartWaitsFor db) txn txn

omit [DecidableEq Part] in
theorem PlockInv.ok (inv : PlockInv stamp db threads) : PlockOk db threads where
  parts := inv.parts
  readyPart := inv.ready
  rcok := by
    intro txn parts here part mem
    have own := inv.workers txn
    have queued : Queued (db.parts part) txn := by
      rw [own.queued part, here]
      exact mem
    exact queued.resolve_right (own.granted (by rw [here]; rfl) part)
  abort := by
    intro txn parts here
    have absent : ∀ part, ¬ Queued (db.parts part) txn := by
      intro part
      rw [(inv.workers txn).queued part, here]
      exact List.not_mem_nil
    refine ⟨inv.ready_eq_zero fun part mem => absent part (.inr mem),
      fun part => ⟨fun owned => absent part (.inl owned),
        fun mem => absent part (.inr mem)⟩⟩
  alive := fun txn => (inv.workers txn).alive
  noCycle := by
    intro txn cycle
    have swapped := Relation.transGen_swap.2 cycle
    refine acyclic_of_rank db.ts ?_ txn swapped
    exact fun _ _ waits => waits.younger inv.parts

/--
Partition locking is consistent and free of deadlocks, for transactions with
distinct timestamps.
-/
theorem partition_locking_consistent (injective : Injective stamp)
    {ts : Fin threadCnt → Nat} {history : List Empty}
    {config : Config (Fin threadCnt) (PlockDb threadCnt Part)
      (PlockWorker Part)}
    (run : (plockMachine stamp).Run (plockStart ts) history config) :
    PlockOk config.shared config.threads := by
  have inv : PlockInv stamp config.shared config.threads := by
    refine run.invariant
      (fun _ config => PlockInv stamp config.shared config.threads)
      (PlockInv.start ts) ?_
    intro history config txn action outcome inv _ stepped
    exact inv.step injective stepped
  exact inv.ok

end

/-- Two threads, and their transactions numbered in turn. -/
def alternating (txn : Fin 2 × Nat) : Nat :=
  txn.1 + 2 * txn.2

theorem alternating_injective : Injective alternating := by
  rintro ⟨left, leftId⟩ ⟨right, rightId⟩ same
  simp only [alternating] at same
  ext
  · show left.val = right.val
    omega
  · show leftId = rightId
    omega

/--
The first thread owns both partitions, and the second one waits for one of
them.
-/
theorem partition_locking_consistent_waiting :
    ∃ config : Config (Fin 2) (PlockDb 2 (Fin 2)) (PlockWorker (Fin 2)),
      PlockOk config.shared config.threads ∧
      (config.threads 0).pc = .returned .rcok [0, 1] ∧
      (config.shared.parts 1).waiters = [1] := by
  have executed : ((plockMachine alternating).execute (plockStart fun _ => 0)
        [(0, .lock [(0 : Fin 2), 1]), (0, .inside), (0, .inside), (1, .lock [1]),
          (0, .inside), (1, .inside), (0, .inside), (1, .inside),
          (0, .inside), (1, .inside)]).map
        (fun result => ((result.1.threads 0).pc,
          (result.1.shared.parts 1).waiters)) =
      some (.returned .rcok [0, 1], [1]) := by decide +kernel
  obtain ⟨⟨config, history⟩, ran, same⟩ := Option.map_eq_some_iff.1 executed
  obtain ⟨done, waits⟩ := Prod.mk.inj same
  exact ⟨config, partition_locking_consistent alternating_injective
    (Machine.run_of_execute ran), done, waits⟩

end Lockfreec.Bench
