import Lockfreec.Lib.Chain
import Lockfreec.Lib.Interleaving

/-!
# The lock-free freelist

The model of `lf_freelist.c` and of the primitives of `lf_basic.c` it uses.
Memory is sequentially consistent and every atomic step makes at most one
access to it: one single-word load or store, one `abstraction_increment` or
one `abstraction_dcas`.  The arguments of a double-word compare-and-swap that
live in shared memory are loaded word by word before it.

Counters are natural numbers, that is, no 64-bit counter wraps around.
Addresses are natural numbers as well and a pointer is `none` when it is
`NULL`.  A call of `aligned_malloc` that returns `NULL` is dereferenced by
`freelist_internal_new_element` at once, because the test there is made on the
out parameter and not on the block, so only successful allocations have a
step.
-/

namespace Lockfreec.Basic.Freelist

open Function Lib.Chain Lib.Interleaving

/-! ## Words and primitives -/

/-- The address of a heap block. -/
abbrev Addr := Nat

/-- A pointer; `none` is `NULL`. -/
abbrev Ptr := Option Addr

/-- A pointer-and-counter pair as kept in `top` and in every `next`. -/
abbrev Word := Pac Addr

/-- The result of `abstraction_dcas`. -/
structure DcasResult where
  destination : Word
  compare : Word
  success : Bool

/--
The double-word compare-and-swap.  A failed one writes the observed pair back
into the compare argument.
-/
def abstractionDcas (destination exchange compare : Word) : DcasResult :=
  if destination = compare then ⟨exchange, compare, true⟩
  else ⟨destination, destination, false⟩

/-- A `struct freelist_state` with the heap cells of its elements. -/
structure FreelistState where
  /-- The words `top[LF_FREELIST_POINTER]` and `top[LF_FREELIST_COUNTER]`. -/
  top : Word
  /-- Whether `init_func` is non-null. -/
  initFunc : Bool
  abaCounter : Nat
  elementCount : Nat
  /-- The `next` words of the element at an address. -/
  next : Addr → Word
  /-- The `data` field of the element at an address. -/
  data : Addr → Ptr
  /-- The element blocks that `aligned_malloc` has handed out. -/
  allocated : Addr → Bool
  /-- History of the elements that `elementCount` counts; no step reads it. -/
  counted : List Addr

/-! ## Program counters -/

/-- The loop variables of `freelist_new_elements`. -/
structure NewElements where
  numberElements : Nat
  loop : Nat
  count : Nat
deriving DecidableEq

/--
Where `freelist_internal_new_element` and `freelist_push` return to: their
caller (`none`) or the loop of `freelist_new_elements`.
-/
abbrev Caller := Option NewElements

/-- The program points of the freelist functions between two steps. -/
inductive FreelistPc where
  | idle
  | popReadCounter
  | popReadPointer (counter : Nat)
  | popLoop (feLocal : Word)
  | popReadNextCounter (feLocal : Word) (fe : Addr) (nextPointer : Ptr)
  | popDcas (feLocal : Word) (fe : Addr) (exchange : Word)
  | popReturn (fe : Ptr)
  | newElementsLoop (loop : NewElements)
  | newElementsReturn (count : Nat)
  | newMalloc (caller : Caller)
  | newInit (caller : Caller) (fe : Addr)
  | newCount (caller : Caller) (fe : Addr)
  | pushIncrement (caller : Caller) (fe : Addr)
  | pushReadPointer (caller : Caller) (fe : Addr) (counter : Nat)
  | pushReadCounter (caller : Caller) (fe : Addr) (counter : Nat)
      (pointer : Ptr)
  | pushStorePointer (caller : Caller) (fe : Addr) (counter : Nat)
      (originalFeNext : Word)
  | pushStoreCounter (caller : Caller) (fe : Addr) (counter : Nat)
      (originalFeNext : Word)
  | pushDcas (caller : Caller) (fe : Addr) (counter : Nat)
      (originalFeNext : Word)
  | pushReturn
deriving DecidableEq

/-- What the environment decides in a step. -/
inductive FreelistAction where
  /-- Nothing: the step is determined by the program. -/
  | run
  /-- The block that `aligned_malloc` returns. -/
  | malloc (fe : Addr)
  /-- The result of `init_func` and the data pointer it stores. -/
  | init (rv : Nat) (data : Ptr)
deriving DecidableEq

/-- Where `freelist_push` goes after its `abstraction_dcas` succeeded. -/
def afterPush : Caller → FreelistPc
  | none => .pushReturn
  | some loop =>
    .newElementsLoop
      { loop with loop := loop.loop + 1, count := loop.count + 1 }

/--
Where `freelist_internal_new_element` goes.  `freelist_guaranteed_pop` hands
the element out, the loop of `freelist_new_elements` pushes it when the result
is not zero.
-/
def afterNew (fe : Addr) (rv : Nat) : Caller → FreelistPc
  | none => .popReturn (if rv = 0 then none else some fe)
  | some loop =>
    if rv = 0 then .newElementsLoop { loop with loop := loop.loop + 1 }
    else .pushIncrement (some loop) fe

/-! ## Atomic steps -/

/-- Store into the pointer word of an element's `next`. -/
def FreelistState.storeNextPointer (fs : FreelistState) (fe : Addr)
    (pointer : Ptr) : FreelistState :=
  { fs with
    next := update fs.next fe
      { fs.next fe with pointer := pointer } }

/-- Store into the counter word of an element's `next`. -/
def FreelistState.storeNextCounter (fs : FreelistState) (fe : Addr)
    (counter : Nat) : FreelistState :=
  { fs with
    next := update fs.next fe
      { fs.next fe with counter := counter } }

/-- `init_func` on a new element; a result of zero frees it again. -/
def FreelistState.initElement (fs : FreelistState) (fe : Addr) (rv : Nat)
    (data : Ptr) : FreelistState :=
  { fs with
    data := update fs.data fe data
    allocated := update fs.allocated fe (decide (rv ≠ 0)) }

/-- The atomic steps inside the freelist functions. -/
def freelistStep (action : FreelistAction) (fs : FreelistState) :
    FreelistPc → Option (FreelistState × FreelistPc)
  -- freelist_pop
  | .popReadCounter => some (fs, .popReadPointer fs.top.counter)
  | .popReadPointer counter =>
    some (fs, .popLoop ⟨fs.top.pointer, counter⟩)
  | .popLoop feLocal =>
    match feLocal.pointer with
    | none => some (fs, .popReturn none)
    | some fe =>
      some (fs, .popReadNextCounter feLocal fe (fs.next fe).pointer)
  | .popReadNextCounter feLocal fe nextPointer =>
    some (fs, .popDcas feLocal fe ⟨nextPointer, (fs.next fe).counter⟩)
  | .popDcas feLocal fe exchange =>
    let result := abstractionDcas fs.top exchange feLocal
    some ({ fs with top := result.destination },
      if result.success then .popReturn (some fe)
      else .popLoop result.compare)
  -- freelist_new_elements
  | .newElementsLoop loop =>
    if loop.loop < loop.numberElements then
      some (fs, .newMalloc (some loop))
    else some (fs, .newElementsReturn loop.count)
  -- freelist_internal_new_element
  | .newMalloc caller =>
    match action with
    | .malloc fe =>
      if fs.allocated fe then none
      else some ({ fs with allocated := update fs.allocated fe true },
          .newInit caller fe)
    | _ => none
  | .newInit caller fe =>
    match action with
    | .init rv data =>
      -- without an init_func the data is NULL and the result is one
      if fs.initFunc = false ∧ (rv ≠ 1 ∨ data ≠ none) then none
      else some (fs.initElement fe rv data,
        if rv = 1 then .newCount caller fe
        else afterNew fe rv caller)
    | _ => none
  | .newCount caller fe =>
    some ({ fs with
          elementCount := fs.elementCount + 1
          counted := fs.counted ++ [fe] },
        afterNew fe 1 caller)
  -- freelist_push
  | .pushIncrement caller fe =>
    some ({ fs with abaCounter := fs.abaCounter + 1 },
      .pushReadPointer caller fe (fs.abaCounter + 1))
  | .pushReadPointer caller fe counter =>
    some (fs, .pushReadCounter caller fe counter fs.top.pointer)
  | .pushReadCounter caller fe counter pointer =>
    some (fs, .pushStorePointer caller fe counter ⟨pointer, fs.top.counter⟩)
  | .pushStorePointer caller fe counter original =>
    some (fs.storeNextPointer fe original.pointer,
      .pushStoreCounter caller fe counter original)
  | .pushStoreCounter caller fe counter original =>
    some (fs.storeNextCounter fe original.counter,
      .pushDcas caller fe counter original)
  | .pushDcas caller fe counter original =>
    let result := abstractionDcas fs.top ⟨some fe, counter⟩ original
    some ({ fs with top := result.destination },
      if result.success then afterPush caller
      else .pushStorePointer caller fe counter result.compare)
  | _ => none

/-- The effects of a step on `top` that a history records. -/
inductive FreelistEvent where
  /-- A pop takes its snapshot of the counter of `top`. -/
  | readTop
  /-- The compare-and-swap of a pop has taken an element out. -/
  | popped (fe : Addr)
  /-- The compare-and-swap of a push has put an element in. -/
  | pushed (fe : Addr)
deriving DecidableEq

/-- The event of a step between two program points. -/
def freelistEvent : FreelistPc → FreelistPc → Option FreelistEvent
  | .popReadCounter, _ => some .readTop
  | .popDcas _ _ _, .popLoop _ => some .readTop
  | .popDcas _ fe _, _ => some (.popped fe)
  | .pushDcas _ _ _ _, .pushStorePointer _ _ _ _ => none
  | .pushDcas _ fe _ _, _ => some (.pushed fe)
  | _, _ => none

end Lockfreec.Basic.Freelist
