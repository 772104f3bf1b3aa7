import Lockfreec.Bench.Tictoc
import Lockfreec.Lib.LockOrder

/-!
# Waiting for the locks of a write set

Without `_validation_no_wait` the validations of Silo and TicToc lock their
write sets row by row and spin in `lock` until a row is free.  They sort the
write set by primary keys only, and the sort keeps the order of accesses with
equal keys.  Rows of different tables may have equal keys, and two
transactions that access such rows in different orders can wait for each
other forever.  If no write set contains two rows with one key, the keys of
the rows that are waited for grow along every chain of waiting transactions.
-/

namespace Lockfreec.Bench

open Lib.BubbleSort Lib.Interleaving Lib.LockOrder Lib.VersionGraph

section

variable {Tid Row Data Stamp : Type}

theorem writeSet_perm (primaryKey : Row → Nat)
    (accesses : List (Copied Row Stamp Data)) :
    (writeSet primaryKey accesses).Perm
      (accesses.filter fun access => access.type = .wr) :=
  bubbleSort_perm _ _

theorem writeSet_sorted (primaryKey : Row → Nat)
    (accesses : List (Copied Row Stamp Data)) :
    (writeSet primaryKey accesses).Pairwise fun left right =>
      primaryKey left.row ≤ primaryKey right.row :=
  bubbleSort_sorted (fun _ _ : Copied Row Stamp Data => decide_eq_true_iff) _

/-- The rows of the write set have different primary keys. -/
def KeysApart (primaryKey : Row → Nat)
    (accesses : List (Copied Row Stamp Data)) : Prop :=
  ((accesses.filter fun access => access.type = .wr).map
    fun access => primaryKey access.row).Nodup

instance (primaryKey : Row → Nat) (accesses : List (Copied Row Stamp Data)) :
    Decidable (KeysApart primaryKey accesses) :=
  inferInstanceAs (Decidable (List.Nodup _))

/-- What is locked comes before what is left to lock. -/
theorem KeysApart.below {primaryKey : Row → Nat}
    {accesses held todo : List (Copied Row Stamp Data)}
    {access lock : Copied Row Stamp Data}
    (apart : KeysApart primaryKey accesses)
    (order : held ++ access :: todo = writeSet primaryKey accesses)
    (isHeld : lock ∈ held) :
    primaryKey lock.row < primaryKey access.row := by
  have sorted := writeSet_sorted primaryKey accesses
  have perm := (writeSet_perm primaryKey accesses).map
    fun access => primaryKey access.row
  have different := perm.nodup_iff.2 apart
  rw [← order] at sorted different
  rw [List.map_append, List.map_cons] at different
  have notAbove := (List.pairwise_append.1 sorted).2.2 lock isHeld access
    (.head _)
  refine lt_of_le_of_ne notAbove ?_
  exact (List.nodup_append.1 different).2.2 _ (List.mem_map_of_mem isHeld) _
    (.head _)

/-- The rows that are left to write behind the release. -/
def ValidationExit.rest {Access : Type} : ValidationExit Access → List Access
  | .commit todo => todo
  | _ => []

/-! ## Silo -/

/-- The accesses whose rows a worker has locked. -/
def SiloWorker.held (primaryKey : Row → Nat)
    (worker : SiloWorker Row Data) : List (SiloAccess Row Data) :=
  match worker.pc with
  | .lockLoad held _ | .lockCas held _ _ _ => held
  | .assertLock held access _ | .lockTid held access _ => held ++ [access]
  | .validateRead .. | .validateWrite .. =>
    writeSet primaryKey worker.accesses
  | .writeCopy todo => todo
  | .writeLoad access todo | .writeStore access todo => access :: todo
  | .releaseAssert exit todo => todo ++ exit.rest
  | .releaseLoad exit access todo | .releaseStore exit access todo _ =>
    access :: todo ++ exit.rest
  | _ => []

/-- The row that a worker locks next. -/
def SiloWorker.wanted (worker : SiloWorker Row Data) : Option Row :=
  match worker.pc with
  | .lockLoad _ (access :: _) | .lockCas _ access _ _ => some access.row
  | _ => none

/-- A transaction waits for a row that another one has locked. -/
def SiloWaits (primaryKey : Row → Nat)
    (threads : Tid → SiloWorker Row Data) : Tid → Tid → Prop :=
  Lib.LockOrder.WaitsFor (fun tid => (threads tid).wanted)
    (fun tid => ((threads tid).held primaryKey).map Copied.row)

/-- No transaction validates a write set that contains one key twice. -/
def siloKeysApart (primaryKey : Row → Nat) :
    Guard Tid (ValidationAction Row Data) (Row → RowSilo Data)
      (SiloWorker Row Data) :=
  fun config tid action =>
    match action with
    | .validate => KeysApart primaryKey (config.threads tid).accesses
    | _ => True

instance (primaryKey : Row → Nat)
    (config : Config Tid (Row → RowSilo Data) (SiloWorker Row Data)) (tid : Tid)
    (action : ValidationAction Row Data) :
    Decidable (siloKeysApart primaryKey config tid action) :=
  match action with
  | .validate => inferInstanceAs (Decidable (KeysApart _ _))
  | .begin | .getRow .. | .modify .. | .giveUp | .inside =>
    inferInstanceAs (Decidable True)

/-- The worker is in `validate_silo`. -/
def SiloPc.validating : SiloPc Row Data → Bool
  | .idle | .running | .accessLoad .. | .accessCopy .. | .accessCheck .. =>
    false
  | _ => true

/-- What is locked and what is left to lock make up the write set. -/
def SiloPc.Locking (writes : List (SiloAccess Row Data)) :
    SiloPc Row Data → Prop
  | .lockLoad held todo => held ++ todo = writes
  | .lockCas held access todo _ | .assertLock held access todo
  | .lockTid held access todo => held ++ access :: todo = writes
  | _ => True

/-- A worker that takes the locks of its write set in order. -/
structure SiloWorker.Ordered (primaryKey : Row → Nat)
    (worker : SiloWorker Row Data) : Prop where
  place : worker.pc.Locking (writeSet primaryKey worker.accesses)
  apart : worker.pc.validating = true → KeysApart primaryKey worker.accesses

theorem SiloWorker.Ordered.below {primaryKey : Row → Nat}
    {worker : SiloWorker Row Data} (ordered : worker.Ordered primaryKey)
    {lock next : Row} (mem : lock ∈ (worker.held primaryKey).map Copied.row)
    (isWanted : worker.wanted = some next) :
    primaryKey lock < primaryKey next := by
  obtain ⟨access, isHeld, rfl⟩ := List.mem_map.1 mem
  have place := ordered.place
  have apart := ordered.apart
  unfold SiloWorker.wanted at isWanted
  split at isWanted
  case h_3 => cases isWanted
  all_goals
    rename_i here
    cases isWanted
    simp only [SiloWorker.held, here] at isHeld
    rw [here] at place apart
    exact (apart rfl).below place isHeld

section

variable [DecidableEq Row] {mode : ValidationMode} {primaryKey : Row → Nat}
  {id : WorkerTxn Tid} {db : Row → RowSilo Data} {worker : SiloWorker Row Data}
  {outcome : SiloOutcome Tid Row Data}

theorem siloInside_validating
    (step : siloInside mode primaryKey id db worker = some outcome)
    (after : outcome.thread.pc.validating = true) :
    worker.pc.validating = true ∧
      outcome.thread.accesses = worker.accesses := by
  unfold siloInside at step
  split at step
  all_goals grind [siloAccess, siloLock, siloValidate, siloWrite, siloRelease,
    SiloPc.validating]

omit [DecidableEq Row] in
theorem siloBeforeLocks_locking (mode : ValidationMode) (primaryKey : Row → Nat)
    (accesses : List (SiloAccess Row Data)) :
    (siloBeforeLocks mode primaryKey accesses).Locking
      (writeSet primaryKey accesses) := by
  unfold siloBeforeLocks
  split
  · trivial
  · rfl

theorem siloInside_locking
    (step : siloInside mode primaryKey id db worker = some outcome)
    (place : worker.pc.Locking (writeSet primaryKey worker.accesses)) :
    outcome.thread.pc.Locking
      (writeSet primaryKey outcome.thread.accesses) := by
  unfold siloInside at step
  split at step
  all_goals grind [siloAccess, siloLock, siloValidate, siloWrite, siloRelease,
    siloBeforeLocks, SiloPc.Locking]

theorem SiloWorker.Ordered.step {tid : Tid} {action : ValidationAction Row Data}
    (before : worker.Ordered primaryKey)
    (admitted : action = .validate → KeysApart primaryKey worker.accesses)
    (step : (siloMachine mode primaryKey).step tid action db worker =
      some outcome) : outcome.thread.Ordered primaryKey := by
  simp only [siloMachine] at step
  split at step
  · cases step
    exact ⟨trivial, nofun⟩
  · split at step
    · cases step
    · cases step
      exact ⟨trivial, nofun⟩
  · next here =>
    cases step
    rw [here]
    exact ⟨trivial, nofun⟩
  · cases step
    exact ⟨trivial, nofun⟩
  · cases step
    exact ⟨siloBeforeLocks_locking .., fun _ => admitted rfl⟩
  · refine ⟨siloInside_locking step before.place, fun after => ?_⟩
    have kept := siloInside_validating step after
    rw [kept.2]
    exact before.apart kept.1
  · cases step

end

/-- The locks of a write set are taken in the order of the keys. -/
theorem silo_inOrder [DecidableEq Tid] [DecidableEq Row] {mode : ValidationMode}
    {primaryKey : Row → Nat} {data : Row → Data}
    {history : List (ValidationEvent Tid Row)}
    {config : Config Tid (Row → RowSilo Data) (SiloWorker Row Data)}
    (run : (siloMachine mode primaryKey).RunWhere (siloKeysApart primaryKey)
      (siloStart data) history config) :
    InOrder primaryKey (fun tid => (config.threads tid).wanted)
      (fun tid => ((config.threads tid).held primaryKey).map Copied.row) := by
  have inv : ∀ tid, (config.threads tid).Ordered primaryKey := by
    refine run.invariant
      (fun _ config => ∀ tid, (config.threads tid).Ordered primaryKey)
      (fun _ => ⟨trivial, nofun⟩) ?_
    intro history config tid action outcome before admitted step
    refine forall_update (SiloWorker.Ordered primaryKey) ?_
      fun other _ => before other
    refine (before tid).step ?_ step
    rintro rfl
    exact admitted
  intro tid lock next isHeld isWanted
  exact (inv tid).below isHeld isWanted

/-! ## TicToc -/

/-- The accesses whose rows a worker has locked. -/
def TictocWorker.held (primaryKey : Row → Nat)
    (worker : TictocWorker Row Data) : List (TictocAccess Row Data) :=
  match worker.pc with
  | .lockLoad held _ | .lockCas held _ _ _ => held
  | .lockWts held access _ => held ++ [access]
  | .raiseLoad .. | .raiseStore .. | .renewLoad .. | .renewCas .. =>
    writeSet primaryKey worker.accesses
  | .writeLoad todo => todo
  | .writeStore access todo _ | .writeCopy access todo => access :: todo
  | .releaseLoad exit todo => todo ++ exit.rest
  | .releaseStore exit access todo _ => access :: todo ++ exit.rest
  | _ => []

/-- The row that a worker locks next. -/
def TictocWorker.wanted (worker : TictocWorker Row Data) : Option Row :=
  match worker.pc with
  | .lockLoad _ (access :: _) | .lockCas _ access _ _ => some access.row
  | _ => none

/-- A transaction waits for a row that another one has locked. -/
def TictocWaits (primaryKey : Row → Nat)
    (threads : Tid → TictocWorker Row Data) : Tid → Tid → Prop :=
  Lib.LockOrder.WaitsFor (fun tid => (threads tid).wanted)
    (fun tid => ((threads tid).held primaryKey).map Copied.row)

/-- No transaction validates a write set that contains one key twice. -/
def tictocKeysApart (primaryKey : Row → Nat) :
    Guard Tid (ValidationAction Row Data) (Row → RowTictoc Data)
      (TictocWorker Row Data) :=
  fun config tid action =>
    match action with
    | .validate => KeysApart primaryKey (config.threads tid).accesses
    | _ => True

instance (primaryKey : Row → Nat)
    (config : Config Tid (Row → RowTictoc Data) (TictocWorker Row Data))
    (tid : Tid) (action : ValidationAction Row Data) :
    Decidable (tictocKeysApart primaryKey config tid action) :=
  match action with
  | .validate => inferInstanceAs (Decidable (KeysApart _ _))
  | .begin | .getRow .. | .modify .. | .giveUp | .inside =>
    inferInstanceAs (Decidable True)

/-- The worker is in `validate_tictoc`. -/
def TictocPc.validating : TictocPc Row Data → Bool
  | .idle | .running | .accessLoad .. | .accessCopy .. | .accessCheck .. =>
    false
  | _ => true

/-- What is locked and what is left to lock make up the write set. -/
def TictocPc.Locking (writes : List (TictocAccess Row Data)) :
    TictocPc Row Data → Prop
  | .lockLoad held todo => held ++ todo = writes
  | .lockCas held access todo _ | .lockWts held access todo =>
    held ++ access :: todo = writes
  | _ => True

/-- A worker that takes the locks of its write set in order. -/
structure TictocWorker.Ordered (primaryKey : Row → Nat)
    (worker : TictocWorker Row Data) : Prop where
  place : worker.pc.Locking (writeSet primaryKey worker.accesses)
  apart : worker.pc.validating = true → KeysApart primaryKey worker.accesses

theorem TictocWorker.Ordered.below {primaryKey : Row → Nat}
    {worker : TictocWorker Row Data} (ordered : worker.Ordered primaryKey)
    {lock next : Row} (mem : lock ∈ (worker.held primaryKey).map Copied.row)
    (isWanted : worker.wanted = some next) :
    primaryKey lock < primaryKey next := by
  obtain ⟨access, isHeld, rfl⟩ := List.mem_map.1 mem
  have place := ordered.place
  have apart := ordered.apart
  unfold TictocWorker.wanted at isWanted
  split at isWanted
  case h_3 => cases isWanted
  all_goals
    rename_i here
    cases isWanted
    simp only [TictocWorker.held, here] at isHeld
    rw [here] at place apart
    exact (apart rfl).below place isHeld

section

variable [DecidableEq Row] {mode : ValidationMode} {primaryKey : Row → Nat}
  {id : WorkerTxn Tid} {db : Row → RowTictoc Data}
  {worker : TictocWorker Row Data} {outcome : TictocOutcome Tid Row Data}

theorem tictocInside_validating
    (step : tictocInside mode primaryKey id db worker = some outcome)
    (after : outcome.thread.pc.validating = true) :
    worker.pc.validating = true ∧
      outcome.thread.accesses = worker.accesses := by
  unfold tictocInside at step
  split at step
  all_goals grind [tictocAccess, tictocLock, tictocRaise, tictocRenew,
    renewed, notRenewed, tictocWrite, tictocRelease, TictocPc.validating]

omit [DecidableEq Row] in
theorem tictocBeforeLocks_locking (mode : ValidationMode)
    (primaryKey : Row → Nat) (accesses : List (TictocAccess Row Data)) :
    (tictocBeforeLocks mode primaryKey accesses).Locking
      (writeSet primaryKey accesses) := by
  unfold tictocBeforeLocks
  split
  · trivial
  · rfl

theorem tictocInside_locking
    (step : tictocInside mode primaryKey id db worker = some outcome)
    (place : worker.pc.Locking (writeSet primaryKey worker.accesses)) :
    outcome.thread.pc.Locking
      (writeSet primaryKey outcome.thread.accesses) := by
  unfold tictocInside at step
  split at step
  all_goals grind [tictocAccess, tictocLock, tictocRaise, tictocRenew,
    renewed, notRenewed, tictocWrite, tictocRelease, tictocBeforeLocks,
    TictocPc.Locking]

theorem TictocWorker.Ordered.step {tid : Tid}
    {action : ValidationAction Row Data} (before : worker.Ordered primaryKey)
    (admitted : action = .validate → KeysApart primaryKey worker.accesses)
    (step : (tictocMachine mode primaryKey).step tid action db worker =
      some outcome) : outcome.thread.Ordered primaryKey := by
  simp only [tictocMachine] at step
  split at step
  · cases step
    exact ⟨trivial, nofun⟩
  · split at step
    · cases step
    · cases step
      exact ⟨trivial, nofun⟩
  · next here =>
    cases step
    rw [here]
    exact ⟨trivial, nofun⟩
  · cases step
    exact ⟨trivial, nofun⟩
  · cases step
    exact ⟨tictocBeforeLocks_locking .., fun _ => admitted rfl⟩
  · refine ⟨tictocInside_locking step before.place, fun after => ?_⟩
    have kept := tictocInside_validating step after
    rw [kept.2]
    exact before.apart kept.1
  · cases step

end

/-- The locks of a write set are taken in the order of the keys. -/
theorem tictoc_inOrder [DecidableEq Tid] [DecidableEq Row]
    {mode : ValidationMode} {primaryKey : Row → Nat} {data : Row → Data}
    {history : List (ValidationEvent Tid Row)}
    {config : Config Tid (Row → RowTictoc Data) (TictocWorker Row Data)}
    (run : (tictocMachine mode primaryKey).RunWhere
      (tictocKeysApart primaryKey) (tictocStart data) history config) :
    InOrder primaryKey (fun tid => (config.threads tid).wanted)
      (fun tid => ((config.threads tid).held primaryKey).map Copied.row) := by
  have inv : ∀ tid, (config.threads tid).Ordered primaryKey := by
    refine run.invariant
      (fun _ config => ∀ tid, (config.threads tid).Ordered primaryKey)
      (fun _ => ⟨trivial, nofun⟩) ?_
    intro history config tid action outcome before admitted step
    refine forall_update (TictocWorker.Ordered primaryKey) ?_
      fun other _ => before other
    refine (before tid).step ?_ step
    rintro rfl
    exact admitted
  intro tid lock next isHeld isWanted
  exact (inv tid).below isHeld isWanted

/--
If no write set contains two rows with one primary key, transactions that wait
for locks do not wait for each other in a circle.
-/
theorem waiting_locks_no_circle [DecidableEq Tid] [DecidableEq Row]
    (preAbort : Bool) (primaryKey : Row → Nat) (data : Row → Data) :
    (∀ (history : List (ValidationEvent Tid Row))
      (config : Config Tid (Row → RowSilo Data) (SiloWorker Row Data)),
      (siloMachine ⟨false, preAbort⟩ primaryKey).RunWhere
        (siloKeysApart primaryKey) (siloStart data) history config →
      ∀ tid, ¬ Relation.TransGen (SiloWaits primaryKey config.threads)
        tid tid) ∧
    (∀ (history : List (ValidationEvent Tid Row))
      (config : Config Tid (Row → RowTictoc Data) (TictocWorker Row Data)),
      (tictocMachine ⟨false, preAbort⟩ primaryKey).RunWhere
        (tictocKeysApart primaryKey) (tictocStart data) history config →
      ∀ tid, ¬ Relation.TransGen (TictocWaits primaryKey config.threads)
        tid tid) := by
  constructor
  · intro history config run tid
    exact (silo_inOrder run).acyclic tid
  · intro history config run tid
    exact (tictoc_inOrder run).acyclic tid

end

/-- The primary key of a row that is given by its table and its key. -/
def keyOf (row : Fin 2 × Nat) : Nat :=
  row.2

section

theorem crossing_threads : @NeZero Nat Zero.ofOfNat0 2 := ⟨by decide⟩

local instance crossingThreads : @NeZero Nat Zero.ofOfNat0 2 := crossing_threads

/-- Two transactions write two rows in different orders, and each of them
takes its first lock. -/
def crossing (left right : Fin 2 × Nat) :
    List (Fin 2 × ValidationAction (Fin 2 × Nat) Nat) :=
  [(0, .begin), (0, .getRow left .wr), (0, .inside), (0, .inside),
    (0, .inside), (0, .getRow right .wr), (0, .inside), (0, .inside),
    (0, .inside), (1, .begin), (1, .getRow right .wr), (1, .inside),
    (1, .inside), (1, .inside), (1, .getRow left .wr), (1, .inside),
    (1, .inside), (1, .inside), (0, .validate), (1, .validate),
    (0, .inside), (0, .inside), (0, .inside), (1, .inside), (1, .inside),
    (1, .inside)]

end

/-- With keys `5` and `6` the second transaction waits for the first one. -/
theorem waiting_locks_no_circle_apart : (∃ history config,
      (siloMachine ⟨false, true⟩ keyOf).RunWhere (siloKeysApart keyOf)
        (siloStart fun _ => 0) history config ∧
      SiloWaits keyOf config.threads (1 : Fin 2) 0 ∧
      ∀ tid, ¬ Relation.TransGen (SiloWaits keyOf config.threads) tid tid) ∧
    (∃ history config,
      (tictocMachine ⟨false, true⟩ keyOf).RunWhere (tictocKeysApart keyOf)
        (tictocStart fun _ => 0) history config ∧
      TictocWaits keyOf config.threads (1 : Fin 2) 0 ∧
      ∀ tid, ¬ Relation.TransGen (TictocWaits keyOf config.threads)
        tid tid) := by
  constructor
  · have executed : ∃ history config,
        (siloMachine ⟨false, true⟩ keyOf).executeWhere (siloKeysApart keyOf)
          (siloStart fun _ => 0) (crossing (0, 5) (1, 6) ++ [
            (0, .inside), (0, .inside), (0, .inside), (1, .inside)]) =
          some (config, history) ∧
        SiloWaits keyOf config.threads 1 0 :=
      ⟨_, _, rfl, ⟨(0, 5), rfl, .head _⟩⟩
    obtain ⟨history, config, executed, waits⟩ := executed
    have run := Machine.runWhere_of_execute executed
    exact ⟨history, config, run, waits,
      (waiting_locks_no_circle true keyOf _).1 history config run⟩
  · have executed : ∃ history config,
        (tictocMachine ⟨false, true⟩ keyOf).executeWhere (tictocKeysApart keyOf)
          (tictocStart fun _ => 0) (crossing (0, 5) (1, 6) ++ [
            (0, .inside), (0, .inside), (0, .inside), (1, .inside)]) =
          some (config, history) ∧
        TictocWaits keyOf config.threads 1 0 :=
      ⟨_, _, rfl, ⟨(0, 5), rfl, .head _⟩⟩
    obtain ⟨history, config, executed, waits⟩ := executed
    have run := Machine.runWhere_of_execute executed
    exact ⟨history, config, run, waits,
      (waiting_locks_no_circle true keyOf _).2 history config run⟩

/-- With key `5` in both tables each transaction holds the lock that the other
one spins for. -/
theorem waiting_locks_circle : (∃ history config,
      (siloMachine ⟨false, false⟩ keyOf).Run (siloStart fun _ => 0)
        history config ∧
      Relation.TransGen (SiloWaits keyOf config.threads) (0 : Fin 2) 0) ∧
    (∃ history config,
      (tictocMachine ⟨false, false⟩ keyOf).Run (tictocStart fun _ => 0)
        history config ∧
      Relation.TransGen (TictocWaits keyOf config.threads) (0 : Fin 2) 0) := by
  constructor
  · have executed : ∃ history config, (siloMachine ⟨false, false⟩ keyOf).execute
          (siloStart fun _ => 0) (crossing (0, 5) (1, 5)) =
          some (config, history) ∧
        SiloWaits keyOf config.threads 0 1 ∧
        SiloWaits keyOf config.threads 1 0 :=
      ⟨_, _, rfl, ⟨(1, 5), rfl, .head _⟩, ⟨(0, 5), rfl, .head _⟩⟩
    obtain ⟨history, config, executed, forth, back⟩ := executed
    exact ⟨history, config, Machine.run_of_execute executed,
      .tail (.single forth) back⟩
  · have executed : ∃ history config,
        (tictocMachine ⟨false, false⟩ keyOf).execute
          (tictocStart fun _ => 0) (crossing (0, 5) (1, 5)) =
          some (config, history) ∧
        TictocWaits keyOf config.threads 0 1 ∧
        TictocWaits keyOf config.threads 1 0 :=
      ⟨_, _, rfl, ⟨(1, 5), rfl, .head _⟩, ⟨(0, 5), rfl, .head _⟩⟩
    obtain ⟨history, config, executed, forth, back⟩ := executed
    exact ⟨history, config, Machine.run_of_execute executed,
      .tail (.single forth) back⟩

end Lockfreec.Bench
