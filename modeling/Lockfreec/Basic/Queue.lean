import Lockfreec.Basic.ElementPool

/-!
# The lock-free queue

The model of `lf_queue.c`.  A queue keeps its elements in a freelist and links
those in use behind a first one whose data has been handed out.  The steps
inside the freelist functions are those of the freelist model; every other
step makes at most one access to the queue's memory.

The counters are kept in words of the type of a pointer to an element, so
adding one to them adds the size of an element.  Only `aba_count` is an
integer, which is where the counter of a new element comes from.  The first
number that `queue_internal_init_element` draws is overwritten before it is
read.
-/

namespace Lockfreec.Basic.Queue

open Function Basic.ElementPool Basic.Freelist Lib.Chain

/-- `sizeof (struct queue_element)`, what adding one to a counter adds. -/
def elementSize : Nat := 32

/-- A `struct queue_state` with the heap cells of its elements. -/
structure QueueState (Value : Type) where
  enqueue : Word
  dequeue : Word
  abaCount : Nat
  /-- The freelist `fs` and the queue elements it has allocated. -/
  pool : PoolState
  next : Addr → Word
  fe : Addr → Addr
  data : Addr → Value

/-- The program points between two steps. -/
inductive QueuePc (Value : Type) where
  | idle
  /-- Inside `freelist_pop` or `freelist_guaranteed_pop`. -/
  | newElement (data : Value) (pc : FreelistPc)
  | initIncrement (fe qe : Addr) (data : Value)
  | initNextPointer (fe qe : Addr) (data : Value)
  | initCounter (fe qe : Addr) (data : Value)
  | initNextCounter (fe qe : Addr) (counter : Nat) (data : Value)
  | initFe (fe qe : Addr) (data : Value)
  | initData (qe : Addr) (data : Value)
  | enqReadPointer (qe : Addr)
  | enqReadCounter (qe : Addr) (pointer : Ptr)
  | enqReadNextPointer (qe : Addr) (enqueue : Word)
  | enqReadNextCounter (qe : Addr) (enqueue : Word) (nextPointer : Ptr)
  | enqTestPointer (qe : Addr) (enqueue next : Word)
  | enqTestCounter (qe : Addr) (enqueue next : Word)
  | enqLink (qe : Addr) (enqueue next : Word)
  | enqHelp (qe : Addr) (enqueue next : Word)
  | enqSwing (qe : Addr) (enqueue : Word)
  | enqReturn (rv : Bool)
  | deqReadPointer
  | deqReadCounter (pointer : Ptr)
  | deqReadEnqPointer (dequeue : Word)
  | deqReadEnqCounter (dequeue : Word) (pointer : Ptr)
  | deqReadNextPointer (dequeue enqueue : Word)
  | deqReadNextCounter (dequeue enqueue : Word) (nextPointer : Ptr)
  | deqTestPointer (dequeue enqueue next : Word)
  | deqTestCounter (dequeue enqueue next : Word)
  | deqHelp (enqueue next : Word)
  | deqReadData (dequeue next : Word)
  | deqDcas (dequeue next : Word) (data : Value)
  | deqReadFe (qe : Addr) (data : Value)
  /-- Inside `freelist_push`. -/
  | deqFreelistPush (data : Value) (pc : FreelistPc)
  | deqReturn (data : Option Value)

variable {Value : Type}

/-- Store into the pointer word of an element's `next`. -/
def QueueState.storeNextPointer (qs : QueueState Value) (qe : Addr)
    (pointer : Ptr) : QueueState Value :=
  { qs with
    next := update qs.next qe
      { qs.next qe with pointer := pointer } }

/-- Store into the counter word of an element's `next`. -/
def QueueState.storeNextCounter (qs : QueueState Value) (qe : Addr)
    (counter : Nat) : QueueState Value :=
  { qs with
    next := update qs.next qe
      { qs.next qe with counter := counter } }

/-- `abstraction_dcas` on `qs->enqueue`, whose result is not used. -/
def QueueState.swingEnqueue (qs : QueueState Value) (pointer : Ptr)
    (enqueue : Word) : QueueState Value :=
  { qs with
    enqueue := (abstractionDcas qs.enqueue
      ⟨pointer, enqueue.counter + elementSize⟩ enqueue).destination }

/-- Where `queue_internal_queue` goes once its snapshot has been confirmed. -/
def enqDecide (qe : Addr) (enqueue next : Word) : QueuePc Value :=
  match next.pointer with
  | none => .enqLink qe enqueue next
  | some _ => .enqHelp qe enqueue next

/-- The `state` of `queue_dequeue` once its snapshot has been confirmed. -/
def deqDecide (dequeue enqueue next : Word) : QueuePc Value :=
  if enqueue.pointer = dequeue.pointer then
    match next.pointer with
    | none => .deqReturn none
    | some _ => .deqHelp enqueue next
  else .deqReadData dequeue next

/-- The steps of `queue_enqueue` and `queue_guaranteed_enqueue` up to the
initialisation of an element. -/
def newStep (action : FreelistAction) (qs : QueueState Value) :
    QueuePc Value → Option (QueueState Value × QueuePc Value)
  | .newElement _ (.popReturn none) => some (qs, .enqReturn false)
  | .newElement data (.popReturn (some fe)) =>
    -- freelist_get_data
    match qs.pool.fs.data fe with
    | none => none
    | some qe => some (qs, .initIncrement fe qe data)
  | .newElement data pc =>
    (poolStep action qs.pool pc).map fun result =>
      ({ qs with pool := result.1 }, .newElement data result.2)
  -- queue_internal_init_element
  | .initIncrement fe qe data =>
    some ({ qs with abaCount := qs.abaCount + 1 }, .initNextPointer fe qe data)
  | .initNextPointer fe qe data =>
    some (qs.storeNextPointer qe none, .initCounter fe qe data)
  | .initCounter fe qe data =>
    some ({ qs with abaCount := qs.abaCount + 1 },
      .initNextCounter fe qe (qs.abaCount + 1) data)
  | .initNextCounter fe qe counter data =>
    some (qs.storeNextCounter qe counter, .initFe fe qe data)
  | .initFe fe qe data =>
    some ({ qs with fe := update qs.fe qe fe }, .initData qe data)
  | .initData qe data =>
    some ({ qs with data := update qs.data qe data }, .enqReadPointer qe)
  | _ => none

/-- The steps of `queue_internal_queue`. -/
def enqStep (qs : QueueState Value) :
    QueuePc Value → Option (QueueState Value × QueuePc Value)
  | .enqReadPointer qe => some (qs, .enqReadCounter qe qs.enqueue.pointer)
  | .enqReadCounter qe pointer =>
    some (qs, .enqReadNextPointer qe ⟨pointer, qs.enqueue.counter⟩)
  | .enqReadNextPointer qe enqueue =>
    enqueue.pointer.map fun last =>
      (qs, .enqReadNextCounter qe enqueue (qs.next last).pointer)
  | .enqReadNextCounter qe enqueue nextPointer =>
    enqueue.pointer.map fun last =>
      (qs, .enqTestPointer qe enqueue ⟨nextPointer, (qs.next last).counter⟩)
  | .enqTestPointer qe enqueue next =>
    some (qs,
      if qs.enqueue.pointer = enqueue.pointer then
        .enqTestCounter qe enqueue next
      else .enqReadPointer qe)
  | .enqTestCounter qe enqueue next =>
    some (qs,
      if qs.enqueue.counter = enqueue.counter then
        enqDecide qe enqueue next
      else .enqReadPointer qe)
  | .enqLink qe enqueue next =>
    enqueue.pointer.map fun last =>
      let result := abstractionDcas (qs.next last)
        ⟨some qe, next.counter + elementSize⟩ next
      ({ qs with
          next := update qs.next last result.destination },
        if result.success then .enqSwing qe enqueue
        else .enqReadPointer qe)
  | .enqHelp qe enqueue next =>
    some (qs.swingEnqueue next.pointer enqueue, .enqReadPointer qe)
  | .enqSwing qe enqueue =>
    some (qs.swingEnqueue (some qe) enqueue, .enqReturn true)
  | _ => none

/-- The steps of `queue_dequeue`. -/
def deqStep (action : FreelistAction) (qs : QueueState Value) :
    QueuePc Value → Option (QueueState Value × QueuePc Value)
  | .deqReadPointer => some (qs, .deqReadCounter qs.dequeue.pointer)
  | .deqReadCounter pointer =>
    some (qs, .deqReadEnqPointer ⟨pointer, qs.dequeue.counter⟩)
  | .deqReadEnqPointer dequeue =>
    some (qs, .deqReadEnqCounter dequeue qs.enqueue.pointer)
  | .deqReadEnqCounter dequeue pointer =>
    some (qs, .deqReadNextPointer dequeue ⟨pointer, qs.enqueue.counter⟩)
  | .deqReadNextPointer dequeue enqueue =>
    dequeue.pointer.map fun first =>
      (qs, .deqReadNextCounter dequeue enqueue (qs.next first).pointer)
  | .deqReadNextCounter dequeue enqueue nextPointer =>
    dequeue.pointer.map fun first =>
      (qs, .deqTestPointer dequeue enqueue
        ⟨nextPointer, (qs.next first).counter⟩)
  | .deqTestPointer dequeue enqueue next =>
    some (qs,
      if dequeue.pointer = qs.dequeue.pointer then
        .deqTestCounter dequeue enqueue next
      else .deqReadPointer)
  | .deqTestCounter dequeue enqueue next =>
    some (qs,
      if dequeue.counter = qs.dequeue.counter then
        deqDecide dequeue enqueue next
      else .deqReadPointer)
  | .deqHelp enqueue next =>
    some (qs.swingEnqueue next.pointer enqueue, .deqReadPointer)
  | .deqReadData dequeue next =>
    next.pointer.map fun qe => (qs, .deqDcas dequeue next (qs.data qe))
  | .deqDcas dequeue next data =>
    dequeue.pointer.map fun first =>
      let result := abstractionDcas qs.dequeue
        ⟨next.pointer, dequeue.counter + elementSize⟩ dequeue
      ({ qs with dequeue := result.destination },
        if result.success then .deqReadFe first data
        else .deqReadPointer)
  | .deqReadFe qe data =>
    some (qs, .deqFreelistPush data (.pushIncrement none (qs.fe qe)))
  | .deqFreelistPush data .pushReturn => some (qs, .deqReturn (some data))
  | .deqFreelistPush data pc =>
    (poolStep action qs.pool pc).map fun result =>
      ({ qs with pool := result.1 }, .deqFreelistPush data result.2)
  | _ => none

/-- The atomic steps inside the queue functions. -/
def queueStep (action : FreelistAction) (qs : QueueState Value)
    (pc : QueuePc Value) : Option (QueueState Value × QueuePc Value) :=
  (newStep action qs pc).orElse fun _ =>
    (enqStep qs pc).orElse fun _ => deqStep action qs pc

theorem newStep_newElement {action : FreelistAction} {qs : QueueState Value}
    {data : Value} {pc : FreelistPc} (inside : ∀ fe, pc ≠ .popReturn fe) :
    newStep action qs (.newElement data pc) =
      (poolStep action qs.pool pc).map fun result =>
        ({ qs with pool := result.1 }, .newElement data result.2) := by
  cases pc with
  | popReturn fe => exact absurd rfl (inside fe)
  | _ => rfl

theorem deqStep_freelistPush {action : FreelistAction} {qs : QueueState Value}
    {data : Value} {pc : FreelistPc} (inside : pc ≠ .pushReturn) :
    deqStep action qs (.deqFreelistPush data pc) =
      (poolStep action qs.pool pc).map fun result =>
        ({ qs with pool := result.1 }, .deqFreelistPush data result.2) := by
  cases pc with
  | pushReturn => exact absurd rfl inside
  | _ => rfl

section

variable {action : FreelistAction} {qs after : QueueState Value} {data : Value}
  {freelistPc : FreelistPc} {pc : QueuePc Value}

/-- A step of `queue_internal_new_element` is one of the freelist, or its
return. -/
theorem newStep_cases (step : newStep action qs (.newElement data freelistPc) =
      some (after, pc)) :
    (∃ pool next, poolStep action qs.pool freelistPc = some (pool, next) ∧
      after = { qs with pool := pool } ∧ pc = .newElement data next) ∨
    (freelistPc = .popReturn none ∧ after = qs ∧ pc = .enqReturn false) ∨
    ∃ fe qe, freelistPc = .popReturn (some fe) ∧
      qs.pool.fs.data fe = some qe ∧ after = qs ∧
        pc = .initIncrement fe qe data := by
  cases freelistPc with
  | popReturn fe =>
    cases fe with
    | none =>
      cases step
      exact .inr (.inl ⟨rfl, rfl, rfl⟩)
    | some fe =>
      simp only [newStep] at step
      split at step <;> cases step
      next qe block =>
        exact .inr (.inr ⟨fe, qe, rfl, block, rfl, rfl⟩)
  | _ =>
    simp only [newStep, Option.map_eq_some_iff, Prod.mk.injEq] at step
    rcases step with ⟨result, moved, rfl, rfl⟩
    exact .inl ⟨_, _, moved, rfl, rfl⟩

/-- A step of `freelist_push` in `queue_dequeue` is one of the freelist, or
its return. -/
theorem deqStep_cases
    (step : deqStep action qs (.deqFreelistPush data freelistPc) =
      some (after, pc)) :
    (∃ pool next, poolStep action qs.pool freelistPc = some (pool, next) ∧
      after = { qs with pool := pool } ∧ pc = .deqFreelistPush data next) ∨
    (freelistPc = .pushReturn ∧ after = qs ∧ pc = .deqReturn (some data)) := by
  cases freelistPc with
  | pushReturn =>
    cases step
    exact .inr ⟨rfl, rfl, rfl⟩
  | _ =>
    simp only [deqStep, Option.map_eq_some_iff, Prod.mk.injEq] at step
    rcases step with ⟨result, moved, rfl, rfl⟩
    exact .inl ⟨_, _, moved, rfl, rfl⟩

theorem queueStep_newElement :
    queueStep action qs (.newElement data freelistPc) =
      newStep action qs (.newElement data freelistPc) := by
  rw [queueStep]
  cases newStep action qs (.newElement data freelistPc) <;> rfl

end

/--
The queue that `queue_new` creates over a freelist with these elements, of
which the first one becomes the first element of the queue.  The cells of the
elements hold whatever the memory held, and so does `aba_count` when the
first element draws its counter from it.
-/
def queueNew (poolNext : Addr → Word) (poolData : Addr → Ptr) (fe qe : Addr)
    (elements : List (Addr × Addr)) (next : Addr → Word) (fes : Addr → Addr)
    (data : Addr → Value) (abaCount : Nat)
    (null : Value) : QueueState Value where
  enqueue := ⟨some qe, 0⟩
  dequeue := ⟨some qe, 0⟩
  abaCount := 0
  pool :=
    let pool := poolNew poolNext poolData ((fe, qe) :: elements)
    -- freelist_pop
    { pool with fs := { pool.fs with top := pool.fs.next fe } }
  next := update next qe ⟨none, abaCount + 2⟩
  fe := update fes qe fe
  data := update data qe null

end Lockfreec.Basic.Queue
