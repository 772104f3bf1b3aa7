import Lockfreec.Bench.ValidationLocks

/-!
# The locks of Silo and TicToc

The lock bit of a row is set exactly while one worker has the row locked.  In
Silo only that worker changes the tid of the row, so the tid that it writes is
larger, as `Row_silo::write` asserts.  In TicToc others may extend the lease of
a row, but not while the row is locked.
-/

namespace Lockfreec.Bench

open Function Lib.Interleaving Lib.LockOrder

variable {Tid Row Data : Type} [DecidableEq Row] {primaryKey : Row → Nat}
  {mode : ValidationMode} {tid : Tid} {action : ValidationAction Row Data}
  {events : List (ValidationEvent Tid Row)}

theorem update_eq_ite {Content : Type} (db : Row → Content) (row : Row)
    (content : Content) : update db row content = fun other =>
      if other = row then content else db other :=
  funext fun _ => update_apply ..

/-! ## Silo -/

/-- The rows that a worker has locked. -/
def SiloWorker.rows (primaryKey : Row → Nat) (worker : SiloWorker Row Data) :
    List Row :=
  (worker.held primaryKey).map Copied.row

/-- What the locks and the assertions of a worker rely on. -/
def SiloWorker.Sound (primaryKey : Row → Nat) (db : Row → RowSilo Data)
    (worker : SiloWorker Row Data) : Prop :=
  worker.pc.Locking (writeSet primaryKey worker.accesses) ∧
  match worker.pc with
  | .lockCas _ _ _ v => v.locked = false
  | .validateWrite todo maxTid =>
    ∀ access ∈ writeSet primaryKey worker.accesses,
      access ∈ todo ∨ (db access.row).tidWord.tid ≤ maxTid
  | .writeCopy todo | .writeStore _ todo | .releaseAssert (.commit todo) _
  | .releaseLoad (.commit todo) _ _ | .releaseStore (.commit todo) _ _ _ =>
    ∀ access ∈ todo, (db access.row).tidWord.tid < worker.curTid
  | .writeLoad access todo =>
    ∀ each ∈ access :: todo, (db each.row).tidWord.tid < worker.curTid
  | .crashed => False
  | _ => True

section

attribute [local grind] SiloWorker.rows SiloWorker.held SiloWorker.Sound
  SiloPc.Locking ValidationExit.rest setTidWord siloBeforeLocks

variable {db after : Row → RowSilo Data} {worker thread : SiloWorker Row Data}

omit [DecidableEq Row] in
/-- The steps of others keep the tids of the rows that a worker has locked. -/
theorem SiloWorker.Sound.frame (sound : worker.Sound primaryKey db)
    (same : ∀ row ∈ worker.rows primaryKey,
      (after row).tidWord.tid = (db row).tidWord.tid) :
    worker.Sound primaryKey after := by
  refine ⟨sound.1, ?_⟩
  have facts := sound.2
  split <;> grind

/-- What a step of Silo keeps. -/
abbrev SiloStep (primaryKey : Row → Nat) :=
  LockStep (fun (db : Row → RowSilo Data) row => (db row).tidWord.locked)
    (SiloWorker.rows primaryKey) (SiloWorker.Sound primaryKey)
    fun db after row => (after row).tidWord.tid = (db row).tidWord.tid

variable {id : WorkerTxn Tid} (once : (worker.rows primaryKey).Nodup)
  (locked : ∀ row ∈ worker.rows primaryKey, (db row).tidWord.locked = true)
  (sound : worker.Sound primaryKey db)

include once locked sound

theorem siloWrite_step
    (step : siloWrite id db worker = some ⟨after, thread, events⟩) :
    SiloStep primaryKey db after worker thread := by
  unfold siloWrite at step
  split at step <;> rename_i here
  all_goals
    simp only [SiloWorker.rows, SiloWorker.held, SiloWorker.Sound,
      SiloPc.Locking, here] at once locked sound
    constructor <;> grind [copyRow, update_eq_ite]

theorem siloRelease_step (step : siloRelease mode primaryKey id db worker =
      some ⟨after, thread, events⟩) :
    SiloStep primaryKey db after worker thread := by
  unfold siloRelease at step
  split at step <;> rename_i here
  all_goals
    simp only [SiloWorker.rows, SiloWorker.held, SiloWorker.Sound,
      SiloPc.Locking, here] at once locked sound
    constructor <;> grind [update_eq_ite]

theorem siloMachine_step
    (step : (siloMachine mode primaryKey).step tid action db worker =
      some ⟨after, thread, events⟩) :
    SiloStep primaryKey db after worker thread := by
  simp only [siloMachine] at step
  split at step
  case h_6 =>
    unfold siloInside at step
    split at step
    case h_12 | h_13 | h_14 => exact siloWrite_step once locked sound step
    case h_15 | h_16 | h_17 => exact siloRelease_step once locked sound step
    case h_18 | h_19 | h_20 => cases step
    all_goals
      rename_i here
      clear once
      simp only [siloAccess, siloLock, siloValidate, here] at step
      simp only [SiloWorker.rows, SiloWorker.held, SiloWorker.Sound,
        SiloPc.Locking, here] at locked sound
      constructor <;> grind [update_eq_ite, raised, nextTid]
  all_goals
    constructor <;> grind

end

/--
In every run of Silo a row is locked exactly if one worker holds its lock, no
worker holds a lock twice, and no assertion fails.
-/
theorem silo_locks_exclusive [DecidableEq Tid] (mode : ValidationMode)
    (primaryKey : Row → Nat) (data : Row → Data)
    (history : List (ValidationEvent Tid Row))
    (config : Config Tid (Row → RowSilo Data) (SiloWorker Row Data))
    (run : (siloMachine mode primaryKey).Run (siloStart data) history config) :
    Exclusive (fun row => (config.shared row).tidWord.locked)
        (fun tid => (config.threads tid).rows primaryKey) ∧
      ∀ tid, (config.threads tid).pc ≠ .crashed := by
  have inv := Exclusive.run (fun db row => (db row).tidWord.locked)
    (SiloWorker.rows primaryKey) (SiloWorker.Sound primaryKey) _ run
    (fun _ => rfl) (fun _ => rfl) (fun _ => ⟨trivial, trivial⟩)
    SiloWorker.Sound.frame siloMachine_step
  refine ⟨inv.1, fun tid here => ?_⟩
  have sound := (inv.2 tid).2
  rw [here] at sound
  exact sound

/-- Two workers that hold one lock each. -/
theorem silo_locks_exclusive_two : ∃ history config,
    (siloMachine ⟨false, false⟩ keyOf).Run (siloStart fun _ => 0) history
      config ∧ (config.threads (0 : Fin 2)).rows keyOf = [(0, 5)] ∧
    Exclusive (fun row => (config.shared row).tidWord.locked)
      (fun tid => (config.threads tid).rows keyOf) := by
  have run := Machine.run_of_execute (show
    (siloMachine ⟨false, false⟩ keyOf).execute (siloStart fun _ => 0)
      (crossing (0, 5) (1, 5)) = some (_, _) from rfl)
  exact ⟨_, _, run, rfl, (silo_locks_exclusive _ _ _ _ _ run).1⟩

/-! ## TicToc -/

/-- The rows that a worker has locked. -/
def TictocWorker.rows (primaryKey : Row → Nat)
    (worker : TictocWorker Row Data) : List Row :=
  (worker.held primaryKey).map Copied.row

/-- What the locks and the assertion of a worker rely on. -/
def TictocWorker.Sound (primaryKey : Row → Nat)
    (worker : TictocWorker Row Data) : Prop :=
  worker.pc.Locking (writeSet primaryKey worker.accesses) ∧
  match worker.pc with
  | .lockCas _ _ _ v => v.locked = false
  | .raiseLoad held _ | .raiseStore held _ _ =>
    held = writeSet primaryKey worker.accesses
  | .renewCas _ _ v v2 _ => v.locked = false ∧ v2.locked = false
  | .writeStore _ _ v => v.locked = true
  | .crashed => False
  | _ => True

theorem tictocMachine_step {db after : Row → RowTictoc Data}
    {worker thread : TictocWorker Row Data}
    (locked : ∀ row ∈ worker.rows primaryKey, (db row).tsWord.locked = true)
    (sound : worker.Sound primaryKey)
    (step : (tictocMachine mode primaryKey).step tid action db worker =
      some ⟨after, thread, events⟩) :
    LockStep (fun db row => (db row).tsWord.locked)
      (TictocWorker.rows primaryKey)
      (fun _ => TictocWorker.Sound primaryKey) (fun _ _ _ => True) db after
      worker thread := by
  simp only [tictocMachine] at step
  split at step
  case h_6 =>
    unfold tictocInside at step
    split at step
    case h_18 | h_19 | h_20 => cases step
    all_goals
      rename_i here
      simp only [tictocAccess, tictocLock, tictocRaise, tictocRenew,
        tictocWrite, tictocRelease, here] at step
      simp only [TictocWorker.rows, TictocWorker.held, TictocWorker.Sound,
        TictocPc.Locking, here] at locked sound
      constructor <;> grind [tictocBeforeLocks, TictocWorker.rows,
        TictocWorker.held, TictocWorker.Sound, TictocPc.Locking,
        ValidationExit.rest, setTsWord, copyRowTictoc, update_eq_ite, renewed,
        notRenewed, startRenew]
  all_goals
    constructor <;> grind [tictocBeforeLocks, TictocWorker.rows,
      TictocWorker.held, TictocWorker.Sound, TictocPc.Locking]

/--
In every run of TicToc a row is locked exactly if one worker holds its lock,
no worker holds a lock twice, and no assertion fails.
-/
theorem tictoc_locks_exclusive [DecidableEq Tid] (mode : ValidationMode)
    (primaryKey : Row → Nat) (data : Row → Data)
    (history : List (ValidationEvent Tid Row))
    (config : Config Tid (Row → RowTictoc Data) (TictocWorker Row Data))
    (run : (tictocMachine mode primaryKey).Run (tictocStart data) history
      config) :
    Exclusive (fun row => (config.shared row).tsWord.locked)
        (fun tid => (config.threads tid).rows primaryKey) ∧
      ∀ tid, (config.threads tid).pc ≠ .crashed := by
  have inv := Exclusive.run (fun db row => (db row).tsWord.locked)
    (TictocWorker.rows primaryKey) (fun _ => TictocWorker.Sound primaryKey) _
    run (fun _ => rfl) (fun _ => rfl) (fun _ => ⟨trivial, trivial⟩)
    (fun sound _ => sound) fun _ => tictocMachine_step
  refine ⟨inv.1, fun tid here => ?_⟩
  have sound := (inv.2 tid).2
  rw [here] at sound
  exact sound

/-- Two workers that hold one lock each. -/
theorem tictoc_locks_exclusive_two : ∃ history config,
    (tictocMachine ⟨false, false⟩ keyOf).Run (tictocStart fun _ => 0) history
      config ∧ (config.threads (0 : Fin 2)).rows keyOf = [(0, 5)] ∧
    Exclusive (fun row => (config.shared row).tsWord.locked)
      (fun tid => (config.threads tid).rows keyOf) := by
  have run := Machine.run_of_execute (show
    (tictocMachine ⟨false, false⟩ keyOf).execute (tictocStart fun _ => 0)
      (crossing (0, 5) (1, 5)) = some (_, _) from rfl)
  exact ⟨_, _, run, rfl, (tictoc_locks_exclusive _ _ _ _ _ run).1⟩

end Lockfreec.Bench
