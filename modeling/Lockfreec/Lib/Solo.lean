import Lockfreec.Lib.Interleaving

/-!
# A thread that runs alone

`Leads` is total correctness for one thread that nobody disturbs: it is never
stuck, and after finitely many steps it is at its goal, whatever its actions
choose on the way.  A call is followed by composing the steps of its text
backwards from the goal.  `Reaches` is the same for goals that speak of the
events on the way, and for choices that the thread has to make.

A function without any choice is followed by `iterate`, which executes a
number of its steps; a function that calls it takes these steps as its own.
-/

namespace Lockfreec.Lib.Solo

variable {State Pc Outer Place : Type} {step : State → Pc → Option (State × Pc)}
  {outer : Outer → Place → Option (Outer × Place)}

/-- The state and the place after some steps of a function. -/
def iterate (step : State → Pc → Option (State × Pc)) :
    Nat → State → Pc → Option (State × Pc)
  | 0, state, pc => some (state, pc)
  | count + 1, state, pc =>
    (step state pc).bind fun result => iterate step count result.1 result.2

theorem iterate_trans {first second : Nat} {state middle : State}
    {pc place : Pc} {final : State × Pc}
    (before : iterate step first state pc = some (middle, place))
    (after : iterate step second middle place = some final) :
    iterate step (first + second) state pc = some final := by
  induction first generalizing state pc with
  | zero =>
    cases before
    rwa [Nat.zero_add]
  | succ first ih =>
    obtain ⟨result, stepped, rest⟩ := Option.bind_eq_some_iff.1 before
    rw [Nat.succ_add, iterate, stepped]
    exact ih rest

/-- A function inside another one. -/
theorem iterate_lift (embed : State → Outer) (wrap : Pc → Place)
    (lifts : ∀ state pc result, step state pc = some result →
      outer (embed state) (wrap pc) = some (embed result.1, wrap result.2))
    {count : Nat} {state final : State} {pc last : Pc}
    (ran : iterate step count state pc = some (final, last)) :
    iterate outer count (embed state) (wrap pc) =
      some (embed final, wrap last) := by
  induction count generalizing state pc with
  | zero =>
    cases ran
    rfl
  | succ count ih =>
    obtain ⟨result, stepped, rest⟩ := Option.bind_eq_some_iff.1 ran
    rw [iterate, lifts state pc result stepped]
    exact ih rest

end Lockfreec.Lib.Solo

namespace Lockfreec.Lib.Interleaving.Machine

variable {Tid Action Shared Local Event : Type}

/-- Left alone, the thread reaches the goal.  The action `move` never blocks
it, and no other action leads astray. -/
inductive Leads (machine : Machine Tid Action Shared Local Event)
    (thread : Tid) (move : Action) (goal : Shared → Local → Prop) :
    Shared → Local → Prop where
  | here {shared : Shared} {state : Local} (reached : goal shared state) :
      Leads machine thread move goal shared state
  | step {shared : Shared} {state : Local}
      (enabled : ∃ outcome,
        machine.step thread move shared state = some outcome)
      (next : ∀ action outcome,
        machine.step thread action shared state = some outcome →
          Leads machine thread move goal outcome.shared outcome.thread) :
      Leads machine thread move goal shared state

variable {machine : Machine Tid Action Shared Local Event} {tid : Tid}
  {move : Action} {goal : Shared → Local → Prop}

variable {shared : Shared} {state : Local}

section

variable (leads : machine.Leads tid move goal shared state)

include leads

/-- A thread on its way is at the goal or stays on its way. -/
theorem Leads.advance {action : Action} {outcome : Outcome Shared Local Event}
    (stepped : machine.step tid action shared state = some outcome) :
    goal shared state ∨
      machine.Leads tid move goal outcome.shared outcome.thread := by
  cases leads with
  | here reached => exact .inl reached
  | step enabled next => exact .inr (next action outcome stepped)

/-- One goal after the other. -/
theorem Leads.trans {further : Shared → Local → Prop}
    (onward : ∀ shared state, goal shared state →
      machine.Leads tid move further shared state) :
    machine.Leads tid move further shared state := by
  induction leads with
  | here reached => exact onward _ _ reached
  | step enabled next induction =>
    exact .step enabled fun action outcome stepped =>
      induction action outcome stepped

/-- The steps that take the thread to its goal. -/
theorem Leads.execute [DecidableEq Tid] (config : Config Tid Shared Local)
    (memory : config.shared = shared) (standing : config.threads tid = state) :
    ∃ steps final events,
      machine.execute config (List.replicate steps (tid, move)) =
          some (final, events) ∧
        goal final.shared (final.threads tid) := by
  induction leads generalizing config with
  | here reached =>
    subst memory
    subst standing
    exact ⟨0, config, [], rfl, reached⟩
  | step enabled next induction =>
    subst memory
    subst standing
    rcases enabled with ⟨outcome, stepped⟩
    rcases induction move outcome stepped (config.advance tid outcome)
        rfl (Function.update_self ..) with
      ⟨steps, final, events, executed, reached⟩
    refine ⟨steps + 1, final, outcome.events ++ events, ?_, reached⟩
    rw [List.replicate_succ, execute_cons stepped, executed]
    rfl

/-- The run that takes the thread to its goal. -/
theorem Leads.runWhere [DecidableEq Tid] {guard : Guard Tid Action Shared Local}
    (admitted : ∀ config, guard config tid move)
    (config : Config Tid Shared Local) (memory : config.shared = shared)
    (standing : config.threads tid = state) :
    ∃ events final, machine.RunWhere guard config events final ∧
      goal final.shared (final.threads tid) := by
  induction leads generalizing config with
  | here reached =>
    subst memory
    subst standing
    exact ⟨[], config, .nil, reached⟩
  | step enabled next induction =>
    subst memory
    subst standing
    rcases enabled with ⟨outcome, stepped⟩
    rcases induction move outcome stepped (config.advance tid outcome)
        rfl (Function.update_self ..) with ⟨events, final, run, reached⟩
    exact ⟨_, final, (RunWhere.nil.snoc (admitted config) stepped).trans run,
      reached⟩

end

/-- Left alone, the thread reaches the goal, with these events so far. -/
inductive Reaches (machine : Machine Tid Action Shared Local Event)
    (thread : Tid) (goal : List Event → Shared → Local → Prop) :
    List Event → Shared → Local → Prop where
  | here {past : List Event} {shared : Shared} {state : Local}
      (reached : goal past shared state) :
      Reaches machine thread goal past shared state
  | step {past : List Event} {shared : Shared} {state : Local}
      (enabled : ∃ action outcome,
        machine.step thread action shared state = some outcome)
      (next : ∀ action outcome,
        machine.step thread action shared state = some outcome →
          Reaches machine thread goal (past ++ outcome.events) outcome.shared
            outcome.thread) :
      Reaches machine thread goal past shared state

/-- The only thread is always on its way to the next goal. -/
theorem Reaches.run {machine : Machine Unit Action Shared Local Event}
    {goal : List Event → Shared → Local → Prop}
    {start config : Config Unit Shared Local} {history : List Event}
    (run : machine.Run start history config)
    (initial : machine.Reaches () goal [] start.shared (start.threads ()))
    (again : ∀ past shared state action outcome, goal past shared state →
      machine.step () action shared state = some outcome →
      machine.Reaches () goal (past ++ outcome.events) outcome.shared
        outcome.thread) :
    machine.Reaches () goal history config.shared (config.threads ()) := by
  apply run.invariant fun history config =>
    machine.Reaches () goal history config.shared (config.threads ())
  · exact initial
  · rintro history config ⟨⟩ action outcome reaches - stepped
    rw [Config.advance_own]
    cases reaches with
    | here reached => exact again _ _ _ _ _ reached stepped
    | step enabled next => exact next action outcome stepped

end Lockfreec.Lib.Interleaving.Machine
