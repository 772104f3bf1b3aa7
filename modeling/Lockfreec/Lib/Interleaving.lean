import Mathlib.Data.List.Basic
import Mathlib.Logic.Function.Basic

/-!
# Interleaved executions of shared-memory threads

A `Machine` gives the atomic steps of one thread: every step reads and writes
the shared memory at most once, moves the thread's own program counter and
locals, and may emit events into the history of the run.  A `Config` is a
shared memory with the local state of every thread, and a run lets the
threads take their steps in any order.  The type of thread identifiers is
arbitrary, so nothing bounds the number of threads.

Runs are generated at their end.  An invariant of a machine is therefore
proved by one rule, `RunWhere.invariant`, from the initial configuration and
the single step.  A guard restricts the steps of a run by a condition on the
configuration that each of them starts from.
-/

namespace Lockfreec.Lib.Interleaving

open Function

/-- What one atomic step leaves behind. -/
structure Outcome (Shared Local Event : Type) where
  shared : Shared
  thread : Local
  events : List Event

/--
The atomic steps of a thread.

The action resolves what the program text leaves open: which call an idle
thread makes, and which value the environment hands back.  A step that is not
possible in the given state is `none`.
-/
structure Machine (Tid Action Shared Local Event : Type) where
  step : Tid → Action → Shared → Local → Option (Outcome Shared Local Event)

/-- A shared memory together with the local state of every thread. -/
structure Config (Tid Shared Local : Type) where
  shared : Shared
  threads : Tid → Local

variable {Tid Action Shared Local Event : Type} [DecidableEq Tid]

/-- Install the outcome of a step of one thread. -/
def Config.advance (config : Config Tid Shared Local) (thread : Tid)
    (outcome : Outcome Shared Local Event) : Config Tid Shared Local where
  shared := outcome.shared
  threads := update config.threads thread outcome.thread

@[simp]
theorem Config.advance_shared (config : Config Tid Shared Local) (thread : Tid)
    (outcome : Outcome Shared Local Event) :
    (config.advance thread outcome).shared = outcome.shared :=
  rfl

@[simp]
theorem Config.advance_threads (config : Config Tid Shared Local) (thread : Tid)
    (outcome : Outcome Shared Local Event) :
    (config.advance thread outcome).threads =
      update config.threads thread outcome.thread :=
  rfl

theorem Config.advance_own (config : Config Tid Shared Local) (thread : Tid)
    (outcome : Outcome Shared Local Event) :
    (config.advance thread outcome).threads thread = outcome.thread := by
  simp

variable {thread : Tid} {threads : Tid → Local} {state : Local}

theorem Config.advance_other (config : Config Tid Shared Local) {other : Tid}
    (outcome : Outcome Shared Local Event) (ne : other ≠ thread) :
    (config.advance thread outcome).threads other = config.threads other := by
  simp [ne]

/-! ## Properties of every thread after a step of one thread -/

theorem forall_update (holds : Local → Prop) (own : holds state)
    (others : ∀ other, other ≠ thread → holds (threads other)) :
    ∀ other, holds (update threads thread state other) :=
  (forall_update_iff threads fun _ => holds).2 ⟨own, others⟩

/-- What held of every thread before a step of one thread. -/
theorem forall_of_update (holds : Local → Prop) (own : holds (threads thread))
    (after : ∀ other, holds (update threads thread state other)) :
    ∀ other, holds (threads other) := by
  have others := ((forall_update_iff threads fun _ => holds).1 after).2
  intro other
  by_cases same : other = thread
  · rwa [same]
  · exact others other same

/-- What holds of a thread after a step of one thread. -/
theorem update_cases (holds : Local → Prop) {other : Tid}
    (after : holds (update threads thread state other)) :
    (other = thread ∧ holds state) ∨
      other ≠ thread ∧ holds (threads other) := by
  by_cases same : other = thread
  · subst same
    rw [update_self] at after
    exact .inl ⟨rfl, after⟩
  · rw [update_of_ne same] at after
    exact .inr ⟨same, after⟩

section Hands

variable {Thing : Type} (hand : Local → Option Thing) {other : Tid}
  {thing : Thing}

/-- A thread with nothing in its hands has taken nothing from another one. -/
theorem held_of_empty (empty : hand state = none)
    (held : hand (update threads thread state other) = some thing) :
    other ≠ thread ∧ hand (threads other) = some thing := by
  rcases update_cases (fun each => hand each = some thing) held with
    ⟨-, isHand⟩ | before
  · rw [empty] at isHand
    cases isHand
  · exact before

theorem held_of_kept
    (kept : hand state = none ∨ hand state = hand (threads thread))
    (held : hand (update threads thread state other) = some thing) :
    hand (threads other) = some thing := by
  rcases update_cases (fun each => hand each = some thing) held with
    ⟨rfl, isHand⟩ | ⟨-, isHeld⟩
  · rcases kept with empty | same
    · rw [empty] at isHand
      cases isHand
    · rwa [← same]
  · exact isHeld

/-- Nothing comes into the hands of two threads. -/
theorem once_update
    (once : ∀ {left right thing}, hand (threads left) = some thing →
      hand (threads right) = some thing → left = right)
    (fresh : ∀ {other thing}, other ≠ thread →
      hand (threads other) = some thing → hand state ≠ some thing)
    {left right : Tid}
    (isLeft : hand (update threads thread state left) = some thing)
    (isRight : hand (update threads thread state right) = some thing) :
    left = right := by
  rcases update_cases (fun each => hand each = some thing) isLeft with
    ⟨rfl, own⟩ | ⟨notLeft, inLeft⟩
  · rcases update_cases (fun each => hand each = some thing) isRight with
      ⟨rfl, -⟩ | ⟨notRight, inRight⟩
    · rfl
    · exact absurd own (fresh notRight inRight)
  · rcases update_cases (fun each => hand each = some thing) isRight with
      ⟨rfl, own⟩ | ⟨-, inRight⟩
    · exact absurd own (fresh notLeft inLeft)
    · exact once inLeft inRight

end Hands

theorem pairwise_update (related : Local → Local → Prop)
    (before : ∀ left right, left ≠ right →
      related (threads left) (threads right)) (own : ∀ other, other ≠ thread →
      related state (threads other) ∧ related (threads other) state) :
    ∀ left right, left ≠ right → related (update threads thread state left)
        (update threads thread state right) := by
  intro left right ne
  by_cases isLeft : left = thread
  · subst isLeft
    rw [update_self, update_of_ne ne.symm]
    exact (own right ne.symm).1
  · rw [update_of_ne isLeft]
    by_cases isRight : right = thread
    · subst isRight
      rw [update_self]
      exact (own left isLeft).2
    · rw [update_of_ne isRight]
      exact before left right ne

theorem field_update {Field : Type} (field : Local → Field)
    (threads : Tid → Local) (thread : Tid) (state : Local) :
    (fun other => field (update threads thread state other)) =
      update (fun other => field (threads other)) thread (field state) :=
  Function.comp_update field threads thread state

/-- A step that keeps a projection of the local state keeps it everywhere. -/
theorem project_update {Field : Type} (field : Local → Field)
    (same : field state = field (threads thread)) (other : Tid) :
    field (update threads thread state other) = field (threads other) := by
  by_cases isThread : other = thread
  · subst isThread
    rw [update_self, same]
  · rw [update_of_ne isThread]

omit [DecidableEq Tid] in
/-- Single out one thread among those with a property. -/
theorem exists_thread (holds : Local → Prop) (thread : Tid) :
    (∃ other, holds (threads other)) ↔ holds (threads thread) ∨
        ∃ other, other ≠ thread ∧ holds (threads other) := by
  constructor
  · rintro ⟨other, mem⟩
    by_cases same : other = thread
    · subst same
      exact .inl mem
    · exact .inr ⟨other, same, mem⟩
  · rintro (mem | ⟨other, -, mem⟩)
    · exact ⟨thread, mem⟩
    · exact ⟨other, mem⟩

theorem exists_update (holds : Local → Prop) :
    (∃ other, holds (update threads thread state other)) ↔
      holds state ∨ ∃ other, other ≠ thread ∧ holds (threads other) := by
  rw [exists_thread holds thread, update_self]
  refine or_congr_right (exists_congr fun other => ?_)
  refine and_congr_right fun ne => ?_
  rw [update_of_ne ne]

/-! ## Runs -/

/-- A condition on the configuration from which a step is taken. -/
abbrev Guard (Tid Action Shared Local : Type) :=
  Config Tid Shared Local → Tid → Action → Prop

namespace Machine

/--
The runs from a fixed configuration all of whose steps meet the guard, with
the history of events they emit.
-/
inductive RunWhere
    (machine : Machine Tid Action Shared Local Event)
    (guard : Guard Tid Action Shared Local)
    (start : Config Tid Shared Local) :
    List Event → Config Tid Shared Local → Prop where
  | nil : RunWhere machine guard start [] start
  | snoc {history : List Event} {config : Config Tid Shared Local}
      {thread : Tid} {action : Action}
      {outcome : Outcome Shared Local Event}
      (run : RunWhere machine guard start history config)
      (admitted : guard config thread action)
      (step : machine.step thread action config.shared
        (config.threads thread) = some outcome) :
      RunWhere machine guard start (history ++ outcome.events)
        (config.advance thread outcome)

/-- The guard that admits every step. -/
def anyStep : Guard Tid Action Shared Local :=
  fun _ _ _ => True

/-- The runs from a fixed configuration, without any restriction. -/
abbrev Run (machine : Machine Tid Action Shared Local Event)
    (start : Config Tid Shared Local) :
    List Event → Config Tid Shared Local → Prop :=
  machine.RunWhere anyStep start

variable {machine : Machine Tid Action Shared Local Event}
  {guard : Guard Tid Action Shared Local}
  {start middle final : Config Tid Shared Local}

variable {history : List Event}

/-- The invariant rule: establish it at the start, keep it in one step. -/
theorem RunWhere.invariant {config : Config Tid Shared Local}
    (run : machine.RunWhere guard start history config)
    (holds : List Event → Config Tid Shared Local → Prop)
    (initial : holds [] start)
    (preserved : ∀ history config thread action outcome, holds history config →
      guard config thread action →
      machine.step thread action config.shared
        (config.threads thread) = some outcome →
      holds (history ++ outcome.events) (config.advance thread outcome)) :
    holds history config := by
  induction run with
  | nil => exact initial
  | snoc run admitted step ih =>
    exact preserved _ _ _ _ _ ih admitted step

theorem RunWhere.trans {first second : List Event}
    (before : machine.RunWhere guard start first middle)
    (after : machine.RunWhere guard middle second final) :
    machine.RunWhere guard start (first ++ second) final := by
  induction after with
  | nil => simpa using before
  | snoc run admitted step ih =>
    rw [← List.append_assoc]
    exact ih.snoc admitted step

/-- Weakening the guard of a run. -/
theorem RunWhere.mono {weaker : Guard Tid Action Shared Local}
    (run : machine.RunWhere guard start history final)
    (implies : ∀ config thread action, guard config thread action →
      weaker config thread action) :
    machine.RunWhere weaker start history final := by
  induction run with
  | nil => exact .nil
  | snoc run admitted step ih => exact ih.snoc (implies _ _ _ admitted) step

/-- Dropping the guard of a run. -/
theorem RunWhere.toRun (run : machine.RunWhere guard start history final) :
    machine.Run start history final :=
  run.mono fun _ _ _ _ => trivial

section

variable [∀ config thread action, Decidable (guard config thread action)]

/-- Execute a schedule whose steps meet the guard, collecting the events. -/
def executeWhere (machine : Machine Tid Action Shared Local Event)
    (guard : Guard Tid Action Shared Local)
    [∀ config thread action, Decidable (guard config thread action)] :
    Config Tid Shared Local → List (Tid × Action) →
      Option (Config Tid Shared Local × List Event)
  | config, [] => some (config, [])
  | config, (thread, action) :: rest =>
    if guard config thread action then
      match machine.step thread action config.shared
          (config.threads thread) with
      | none => none
      | some outcome =>
        (machine.executeWhere guard (config.advance thread outcome) rest).map
          fun result => (result.1, outcome.events ++ result.2)
    else none

/-- A schedule that executes is a run. -/
theorem runWhere_of_execute {schedule : List (Tid × Action)}
    {history : List Event}
    (executed : machine.executeWhere guard start schedule =
      some (final, history)) :
    machine.RunWhere guard start history final := by
  induction schedule generalizing start history with
  | nil =>
    cases executed
    exact .nil
  | cons event rest ih =>
    rcases event with ⟨thread, action⟩
    simp only [executeWhere] at executed
    split at executed
    · next admitted =>
        split at executed
        · simp at executed
        · next outcome step =>
            simp only [Option.map_eq_some_iff, Prod.mk.injEq] at executed
            rcases executed with ⟨result, remaining, rfl, rfl⟩
            have head : machine.RunWhere guard start ([] ++ outcome.events)
                (start.advance thread outcome) :=
              RunWhere.snoc .nil admitted step
            exact RunWhere.trans head (ih remaining)
    · simp at executed

end

instance (config : Config Tid Shared Local) (thread : Tid)
    (action : Action) : Decidable (anyStep config thread action) :=
  inferInstanceAs (Decidable True)

/-- Execute a schedule, collecting the events. -/
abbrev execute (machine : Machine Tid Action Shared Local Event) :
    Config Tid Shared Local → List (Tid × Action) →
      Option (Config Tid Shared Local × List Event) :=
  machine.executeWhere anyStep

theorem execute_cons {thread : Tid} {action : Action}
    {outcome : Outcome Shared Local Event}
    (step : machine.step thread action start.shared
      (start.threads thread) = some outcome)
    (rest : List (Tid × Action)) :
    machine.execute start ((thread, action) :: rest) =
      (machine.execute (start.advance thread outcome) rest).map
        fun result => (result.1, outcome.events ++ result.2) := by
  have admitted : anyStep start thread action := trivial
  rw [execute, executeWhere, if_pos admitted, step]

theorem run_of_execute {schedule : List (Tid × Action)} {history : List Event}
    (executed : machine.execute start schedule = some (final, history)) :
    machine.Run start history final :=
  runWhere_of_execute executed

end Machine

end Lockfreec.Lib.Interleaving
