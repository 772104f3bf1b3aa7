import Lockfreec.Basic.ElementPool
import Lockfreec.Lib.Linearizability

/-!
# The lock-free stack

The model of `lf_stack.c`.  A stack keeps its elements in a freelist and links
those in use into a chain of its own, with its own counter.  The steps inside
the freelist functions are those of the freelist model; every other step makes
at most one access to the stack's memory.

A pop reads the pointer of `top` before the counter, in the order opposite to
`freelist_pop`, and it reads the data of its element only after the
compare-and-swap has succeeded.
-/

namespace Lockfreec.Basic.Stack

open Function Basic.ElementPool Basic.Freelist Lib.Chain Lib.Interleaving
  Lib.Linearizability

/-- A `struct stack_state` with the heap cells of its elements. -/
structure StackState (Value : Type) where
  top : Word
  abaCounter : Nat
  /-- The freelist `fs` and the stack elements it has allocated. -/
  pool : PoolState
  next : Addr → Word
  fe : Addr → Addr
  data : Addr → Value

/-- The calls of a user. -/
inductive StackOp (Value : Type) where
  | push (data : Value)
  | guaranteedPush (data : Value)
  | pop
deriving DecidableEq

/-- The results of a call. -/
inductive StackRet (Value : Type) where
  | pushed (rv : Bool)
  | popped (data : Option Value)
deriving DecidableEq

/--
The program points between two steps.  The flag of a push tells
`stack_guaranteed_push` from `stack_push`.
-/
inductive StackPc (Value : Type) where
  | idle
  /-- Inside `freelist_pop` or `freelist_guaranteed_pop`. -/
  | newElement (guaranteed : Bool) (data : Value) (pc : FreelistPc)
  | initIncrement (guaranteed : Bool) (fe se : Addr) (data : Value)
  | initNextPointer (guaranteed : Bool) (fe : Addr) (se : Addr)
      (counter : Nat) (data : Value)
  | initNextCounter (guaranteed : Bool) (fe : Addr) (se : Addr)
      (counter : Nat) (data : Value)
  | initFe (guaranteed : Bool) (fe : Addr) (se : Addr) (counter : Nat)
      (data : Value)
  | initData (guaranteed : Bool) (se : Addr) (counter : Nat) (data : Value)
  | pushReadPointer (guaranteed : Bool) (se : Addr) (counter : Nat)
  | pushReadCounter (guaranteed : Bool) (se : Addr) (counter : Nat)
      (pointer : Ptr)
  | pushStorePointer (guaranteed : Bool) (se : Addr) (counter : Nat)
      (orgTop : Word)
  | pushStoreCounter (guaranteed : Bool) (se : Addr) (counter : Nat)
      (orgTop : Word)
  | pushDcas (guaranteed : Bool) (se : Addr) (counter : Nat) (orgTop : Word)
  | pushReturn (guaranteed rv : Bool)
  | popReadPointer
  | popReadCounter (pointer : Ptr)
  | popLoop (seLocal : Word)
  | popReadNextCounter (seLocal : Word) (se : Addr) (nextPointer : Ptr)
  | popDcas (seLocal : Word) (se : Addr) (exchange : Word)
  | popReadData (se : Addr)
  | popReadFe (se : Addr) (data : Value)
  /-- Inside `freelist_push`. -/
  | popFreelistPush (data : Value) (pc : FreelistPc)
  | popReturn (data : Option Value)

variable {Value : Type}

/-- Store into the pointer word of an element's `next`. -/
def StackState.storeNextPointer (ss : StackState Value) (se : Addr)
    (pointer : Ptr) : StackState Value :=
  { ss with
    next := update ss.next se
      { ss.next se with pointer := pointer } }

/-- Store into the counter word of an element's `next`. -/
def StackState.storeNextCounter (ss : StackState Value) (se : Addr)
    (counter : Nat) : StackState Value :=
  { ss with
    next := update ss.next se
      { ss.next se with counter := counter } }

/-- The atomic steps inside the stack functions. -/
def stackStep (action : FreelistAction) (ss : StackState Value) :
    StackPc Value → Option (StackState Value × StackPc Value)
  -- stack_internal_new_element and stack_internal_new_element_from_freelist
  | .newElement guaranteed _ (.popReturn none) =>
    some (ss, .pushReturn guaranteed false)
  | .newElement guaranteed data (.popReturn (some fe)) =>
    -- freelist_get_data
    match ss.pool.fs.data fe with
    | none => none
    | some se => some (ss, .initIncrement guaranteed fe se data)
  | .newElement guaranteed data pc =>
    (poolStep action ss.pool pc).map fun result =>
      ({ ss with pool := result.1 }, .newElement guaranteed data result.2)
  -- stack_internal_init_element
  | .initIncrement guaranteed fe se data =>
    some ({ ss with abaCounter := ss.abaCounter + 1 },
      .initNextPointer guaranteed fe se (ss.abaCounter + 1) data)
  | .initNextPointer guaranteed fe se counter data =>
    some (ss.storeNextPointer se none,
      .initNextCounter guaranteed fe se counter data)
  | .initNextCounter guaranteed fe se counter data =>
    some (ss.storeNextCounter se 0, .initFe guaranteed fe se counter data)
  | .initFe guaranteed fe se counter data =>
    some ({ ss with fe := update ss.fe se fe },
      .initData guaranteed se counter data)
  | .initData guaranteed se counter data =>
    some ({ ss with data := update ss.data se data },
      .pushReadPointer guaranteed se counter)
  -- stack_internal_push
  | .pushReadPointer guaranteed se counter =>
    some (ss, .pushReadCounter guaranteed se counter ss.top.pointer)
  | .pushReadCounter guaranteed se counter pointer =>
    some (ss, .pushStorePointer guaranteed se counter ⟨pointer, ss.top.counter⟩)
  | .pushStorePointer guaranteed se counter orgTop =>
    some (ss.storeNextPointer se orgTop.pointer,
      .pushStoreCounter guaranteed se counter orgTop)
  | .pushStoreCounter guaranteed se counter orgTop =>
    some (ss.storeNextCounter se orgTop.counter,
      .pushDcas guaranteed se counter orgTop)
  | .pushDcas guaranteed se counter orgTop =>
    let result := abstractionDcas ss.top ⟨some se, counter⟩ orgTop
    some ({ ss with top := result.destination },
      if result.success then .pushReturn guaranteed true
      else .pushStorePointer guaranteed se counter result.compare)
  -- stack_pop
  | .popReadPointer => some (ss, .popReadCounter ss.top.pointer)
  | .popReadCounter pointer =>
    some (ss, .popLoop ⟨pointer, ss.top.counter⟩)
  | .popLoop seLocal =>
    match seLocal.pointer with
    | none => some (ss, .popReturn none)
    | some se =>
      some (ss, .popReadNextCounter seLocal se (ss.next se).pointer)
  | .popReadNextCounter seLocal se nextPointer =>
    some (ss, .popDcas seLocal se ⟨nextPointer, (ss.next se).counter⟩)
  | .popDcas seLocal se exchange =>
    let result := abstractionDcas ss.top exchange seLocal
    some ({ ss with top := result.destination },
      if result.success then .popReadData se
      else .popLoop result.compare)
  | .popReadData se => some (ss, .popReadFe se (ss.data se))
  | .popReadFe se data =>
    some (ss, .popFreelistPush data (.pushIncrement none (ss.fe se)))
  | .popFreelistPush data .pushReturn => some (ss, .popReturn (some data))
  | .popFreelistPush data pc =>
    (poolStep action ss.pool pc).map fun result =>
      ({ ss with pool := result.1 }, .popFreelistPush data result.2)
  | _ => none

section

variable {action : FreelistAction} {ss after : StackState Value}
  {guaranteed : Bool} {data : Value} {freelistPc : FreelistPc}
  {pc : StackPc Value}

/-- A step of `stack_internal_new_element` is one of the freelist, or its
return. -/
theorem stackStep_newElement
    (step : stackStep action ss (.newElement guaranteed data freelistPc) =
      some (after, pc)) :
    (∃ pool next, poolStep action ss.pool freelistPc = some (pool, next) ∧
      after = { ss with pool := pool } ∧
        pc = .newElement guaranteed data next) ∨
    (freelistPc = .popReturn none ∧ after = ss ∧
      pc = .pushReturn guaranteed false) ∨
    ∃ fe se, freelistPc = .popReturn (some fe) ∧
      ss.pool.fs.data fe = some se ∧ after = ss ∧
        pc = .initIncrement guaranteed fe se data := by
  cases freelistPc with
  | popReturn fe =>
    cases fe with
    | none =>
      cases step
      exact .inr (.inl ⟨rfl, rfl, rfl⟩)
    | some fe =>
      simp only [stackStep] at step
      split at step <;> cases step
      next se block =>
        exact .inr (.inr ⟨fe, se, rfl, block, rfl, rfl⟩)
  | _ =>
    simp only [stackStep, Option.map_eq_some_iff, Prod.mk.injEq] at step
    rcases step with ⟨result, moved, rfl, rfl⟩
    exact .inl ⟨_, _, moved, rfl, rfl⟩

/-- A step of `freelist_push` in `stack_pop` is one of the freelist, or its
return. -/
theorem stackStep_popFreelistPush
    (step : stackStep action ss (.popFreelistPush data freelistPc) =
      some (after, pc)) :
    (∃ pool next, poolStep action ss.pool freelistPc = some (pool, next) ∧
      after = { ss with pool := pool } ∧ pc = .popFreelistPush data next) ∨
    (freelistPc = .pushReturn ∧ after = ss ∧ pc = .popReturn (some data)) := by
  cases freelistPc with
  | pushReturn =>
    cases step
    exact .inr ⟨rfl, rfl, rfl⟩
  | _ =>
    simp only [stackStep, Option.map_eq_some_iff, Prod.mk.injEq] at step
    rcases step with ⟨result, moved, rfl, rfl⟩
    exact .inl ⟨_, _, moved, rfl, rfl⟩

end

/-- A call of a user, or a step inside a call. -/
inductive StackAction (Value : Type) where
  | call (op : StackOp Value)
  | inside (action : FreelistAction)

/-- The first program point of a call. -/
def stackCall : StackOp Value → StackPc Value
  | .push data => .newElement false data .popReadCounter
  | .guaranteedPush data => .newElement true data (.newMalloc none)
  | .pop => .popReadPointer

/-- The result of a call that has come to its end. -/
def stackReturn : StackPc Value → Option (StackRet Value)
  | .pushReturn _ rv => some (.pushed rv)
  | .popReturn data => some (.popped data)
  | _ => none

/-- Any number of threads that call the stack functions. -/
def stackMachine (Tid Value : Type) :
    Machine Tid (StackAction Value) (StackState Value) (StackPc Value)
      (CallEvent Tid (StackOp Value) (StackRet Value)) where
  step thread action ss pc :=
    match pc, action with
    | .idle, .call op => some ⟨ss, stackCall op, [.call thread op]⟩
    | pc, .inside action =>
      match stackReturn pc with
      | some result => some ⟨ss, .idle, [.ret thread result]⟩
      | none =>
        (stackStep action ss pc).map fun result =>
          ⟨result.1, result.2, []⟩
    | _, _ => none

/--
The stack that `stack_new` creates over a freelist with these elements.  The
cells of the elements hold whatever the memory held.
-/
def stackNew (pool : PoolState) (next : Addr → Word) (fe : Addr → Addr)
    (data : Addr → Value) : StackState Value where
  top := ⟨none, 0⟩
  abaCounter := 0
  pool := pool
  next := next
  fe := fe
  data := data

/-- The sequential stack that the lock-free one is to be. -/
def stackObject :
    SequentialObject (List Value) (StackOp Value) (StackRet Value)
  | before, .push data, .pushed true, after => after = data :: before
  | before, .push _, .pushed false, after => after = before
  | before, .guaranteedPush data, .pushed true, after =>
    after = data :: before
  | before, .guaranteedPush _, .pushed false, after => after = before
  | before, .pop, .popped none, after => before = [] ∧ after = []
  | before, .pop, .popped (some data), after => before = data :: after
  | _, _, _, _ => False

end Lockfreec.Basic.Stack
