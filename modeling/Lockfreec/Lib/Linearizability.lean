import Lockfreec.Lib.Interleaving

/-!
# Linearizability

A sequential object is a transition relation between its states, labelled
with an operation and its result.  The atomic object built from it lets any
number of threads call operations; each call takes effect in one step of its
own, at some instant between its call and its return, and returns the result
of that step.  A history of calls and returns is linearizable when the atomic
object can produce it.
-/

namespace Lockfreec.Lib.Linearizability

open Function Lib.Interleaving

/-- The observable events of a concurrent object. -/
inductive CallEvent (Tid Op Ret : Type) where
  | call (thread : Tid) (op : Op)
  | ret (thread : Tid) (result : Ret)
deriving DecidableEq

/-- The effect of an operation with a given result on a sequential object. -/
abbrev SequentialObject (State Op Ret : Type) :=
  State → Op → Ret → State → Prop

/-- How far the current call of a thread has come. -/
inductive Phase (Op Ret : Type) where
  | idle
  | called (op : Op)
  | done (result : Ret)

variable {Tid State Op Ret : Type} [DecidableEq Tid]

/--
The histories of the atomic object, with the state and the phases they lead
to.
-/
inductive AtomicRun (object : SequentialObject State Op Ret)
    (start : State) :
    List (CallEvent Tid Op Ret) → State → (Tid → Phase Op Ret) → Prop where
  | nil : AtomicRun object start [] start fun _ => .idle
  | call {history : List (CallEvent Tid Op Ret)} {state : State}
      {phases : Tid → Phase Op Ret} {thread : Tid}
      (run : AtomicRun object start history state phases)
      (idle : phases thread = .idle) (op : Op) :
      AtomicRun object start (history ++ [.call thread op]) state
        (update phases thread (.called op))
  | take {history : List (CallEvent Tid Op Ret)} {state after : State}
      {phases : Tid → Phase Op Ret} {thread : Tid} {op : Op} {result : Ret}
      (run : AtomicRun object start history state phases)
      (called : phases thread = .called op)
      (effect : object state op result after) :
      AtomicRun object start history after (update phases thread (.done result))
  | ret {history : List (CallEvent Tid Op Ret)} {state : State}
      {phases : Tid → Phase Op Ret} {thread : Tid} {result : Ret}
      (run : AtomicRun object start history state phases)
      (done : phases thread = .done result) :
      AtomicRun object start (history ++ [.ret thread result]) state
        (update phases thread .idle)

/-- The atomic object can produce this history of calls and returns. -/
def Linearizable (object : SequentialObject State Op Ret) (start : State)
    (history : List (CallEvent Tid Op Ret)) : Prop :=
  ∃ state phases, AtomicRun object start history state phases

end Lockfreec.Lib.Linearizability
