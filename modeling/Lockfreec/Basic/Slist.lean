import Lockfreec.Basic.Freelist
import Mathlib.Data.Nat.Bitwise

/-!
# The singly linked list

The model of `lf_slist.c`.  An element has a `next` pointer and the two words
of `data_flag`, which change together by a double-word compare-and-swap.  The
functions on one element are steps on its two words; the list embeds them.

Two loop conditions have operands whose order of evaluation is left to the
compiler.  Both orders are modelled, for each of the two conditions.
-/

namespace Lockfreec.Basic.Slist

open Function Basic.Freelist Lib.Interleaving

/-! ## The two words of an element -/

/-- The words `data_flag[SLIST_DATA]` and `data_flag[SLIST_FLAG]`. -/
structure DataFlag (Value : Type) where
  data : Value
  flag : Nat
deriving DecidableEq

/-- `SLIST_NO_FLAGS`. -/
def noFlags : Nat := 0

/-- `SLIST_FLAG_DELETED`. -/
def flagDeleted : Nat := 1

variable {Value : Type}

/-- The test `data_flag[SLIST_FLAG] & SLIST_FLAG_DELETED`. -/
def DataFlag.deleted (held : DataFlag Value) : Bool :=
  held.flag &&& flagDeleted != 0

/-- The pair with the flag set. -/
def DataFlag.delete (held : DataFlag Value) : DataFlag Value :=
  ⟨held.data, held.flag ||| flagDeleted⟩

@[simp]
theorem DataFlag.delete_deleted (held : DataFlag Value) :
    held.delete.deleted = true := by
  simp [DataFlag.delete, DataFlag.deleted, flagDeleted, Nat.and_one_is_mod,
    Nat.or_mod_two_eq_one]

/-- The program points of the functions on one element. -/
inductive DataPc (Value : Type) where
  | idle
  | setReadData (data : Value)
  | setReadFlag (data current : Value)
  | setDcas (data : Value) (dataFlag : DataFlag Value)
  | setReturn (data : Value) (rv : Bool)
  | getReadData
  | getReadFlag (data : Value)
  | getReturn (data : Value) (rv : Bool)
  | deleteReadData
  | deleteReadFlag (current : Value)
  | deleteDcas (dataFlag : DataFlag Value)
  /-- The call of `delete_func`. -/
  | deleteFunc (data : Value)
  | deleteReturn (casRv : Bool)

/-- The loop condition of `slist_set_data` up to its compare-and-swap. -/
def setDecide (data : Value) (dataFlag : DataFlag Value) : DataPc Value :=
  if dataFlag.deleted then .setReturn data false else .setDcas data dataFlag

/-- The loop condition of `slist_logically_delete_element` up to its
compare-and-swap. -/
def deleteDecide (dataFlag : DataFlag Value) : DataPc Value :=
  if dataFlag.deleted then .deleteReturn false else .deleteDcas dataFlag

section Steps

variable [DecidableEq Value]

/-- A step of a function on an element that holds this pair.  A failed
`abstraction_dcas` writes the pair that it found into its compare argument. -/
def dataStep (hasDeleteFunc : Bool) (held : DataFlag Value) :
    DataPc Value → Option (DataFlag Value × DataPc Value)
  -- slist_set_data
  | .setReadData data => some (held, .setReadFlag data held.data)
  | .setReadFlag data current =>
    some (held, setDecide data ⟨current, held.flag⟩)
  | .setDcas data dataFlag =>
    if held = dataFlag then
      some (⟨data, dataFlag.flag⟩, .setReturn data true)
    else some (held, setDecide data held)
  -- slist_get_data
  | .getReadData => some (held, .getReadFlag held.data)
  | .getReadFlag data => some (held, .getReturn data (!held.deleted))
  -- slist_logically_delete_element
  | .deleteReadData => some (held, .deleteReadFlag held.data)
  | .deleteReadFlag current => some (held, deleteDecide ⟨current, held.flag⟩)
  | .deleteDcas dataFlag =>
    if held = dataFlag then
      some (dataFlag.delete,
        if hasDeleteFunc then .deleteFunc dataFlag.data
        else .deleteReturn true)
    else some (held, deleteDecide held)
  | .deleteFunc _ => some (held, .deleteReturn true)
  | _ => none

end Steps

/-- What a call on an element returns. -/
inductive DataReturn (Value : Type) where
  | didSet (data : Value) (rv : Bool)
  | got (data : Value) (rv : Bool)
  | didDelete (casRv : Bool)
deriving DecidableEq

/-- What a call that has come to its end returns. -/
def dataReturn : DataPc Value → Option (DataReturn Value)
  | .setReturn data rv => some (.didSet data rv)
  | .getReturn data rv => some (.got data rv)
  | .deleteReturn casRv => some (.didDelete casRv)
  | _ => none

/-- The calls on an element. -/
inductive DataCall (Value : Type) where
  | setData (data : Value)
  | getData
  | logicallyDeleteElement
deriving DecidableEq

/-- Where a call starts. -/
def DataCall.start : DataCall Value → DataPc Value
  | .setData data => .setReadData data
  | .getData => .getReadData
  | .logicallyDeleteElement => .deleteReadData

/-! ## The list -/

/-- The order in which a compiler evaluates the operands of a comparison. -/
inductive EvalOrder where
  | leftFirst
  | rightFirst
deriving DecidableEq

/-- The left operand when it is a variable that the right one assigns. -/
def EvalOrder.left (before after : Ptr) : EvalOrder → Ptr
  | .leftFirst => before
  | .rightFirst => after

/-- What a compiler makes of the loop conditions of `slist_internal_link_head`
and of `slist_internal_link_after`. -/
structure Compiler where
  head : EvalOrder
  after : EvalOrder

/-- A `struct slist_state` with the heap cells of its elements. -/
structure SlistState (Value : Type) where
  head : Ptr
  /-- Whether `delete_func` is non-null. -/
  hasDeleteFunc : Bool
  next : Addr → Ptr
  dataFlag : Addr → DataFlag Value
  /-- The addresses of all elements so far; `aligned_malloc` returns others. -/
  allocated : Addr → Bool

/-- Where a new element goes. -/
inductive Place where
  | head
  | after (ase : Addr)

/-- The program points between two steps. -/
inductive SlistPc (Value : Type) where
  | idle
  /-- After `slist_delete`. -/
  | gone
  | newMalloc (place : Place) (data : Value)
  | newData (place : Place) (se : Addr) (data : Value)
  | newFlag (place : Place) (se : Addr)
  | headRead (se : Addr)
  | headStore (se : Addr) (seNext : Ptr)
  /-- Load the left operand before the compare-and-swap. -/
  | headLeft (se : Addr)
  | headCompare (se : Addr) (left : Option Ptr)
  | headCas (se : Addr) (left : Option Ptr) (compare : Ptr)
  /-- Load the left operand after the compare-and-swap. -/
  | headRight (se : Addr) (compare seNext : Ptr)
  | afterRead (se ase : Addr)
  | afterStore (se ase : Addr) (seNext : Ptr)
  | afterCompare (se ase : Addr) (seNext : Ptr)
  | afterCas (se ase : Addr) (seNext compare : Ptr)
  | newReturn (se : Ptr)
  /-- Inside a function on one element. -/
  | data (se : Addr) (pc : DataPc Value)
  | freeRead (last : Bool)
  | freeTest (last : Bool) (se : Ptr)
  | freeNext (last : Bool) (se : Addr)

/-- What a thread does next. -/
inductive SlistAction (Value : Type) where
  | newHead (data : Value)
  /-- Insert behind the element at this position of the list. -/
  | newNext (position : Nat) (data : Value)
  /-- Call a function on the element at this position of the list. -/
  | call (position : Nat) (call : DataCall Value)
  | physicallyDeleteAllElements
  | delete
  /-- Let `aligned_malloc` return this address. -/
  | malloc (se : Ptr)
  | inside

/-- What happened in a step. -/
inductive SlistEvent (Value : Type) where
  | called
  /-- `slist_new_head` or `slist_new_next` returned. -/
  | created (se : Ptr)
  /-- `delete_func` was called with the data of this element. -/
  | destroyed (se : Addr) (data : Value)
  /-- A function on this element returned. -/
  | returned (se : Addr) (result : DataReturn Value)
  /-- The deletion of all elements returned. -/
  | deletedAll
deriving DecidableEq

/-- The element at a position of a list. -/
def elementAt (next : Addr → Ptr) : Nat → Ptr → Ptr
  | _, none => none
  | 0, some se => some se
  | position + 1, some se => elementAt next position (next se)

/-- Where `slist_new_head` and `slist_new_next` go with a new element. -/
def Place.link (se : Addr) : Place → SlistPc Value
  | .head => .headRead se
  | .after ase => .afterRead se ase

/-- The steps of `slist_new_head` and `slist_new_next`. -/
def newStep (compiler : Compiler) (ss : SlistState Value) :
    SlistPc Value → Option (SlistState Value × SlistPc Value)
  | .newData place se data =>
    some ({ ss with
        dataFlag := update ss.dataFlag se
          { ss.dataFlag se with data := data } },
      .newFlag place se)
  | .newFlag place se =>
    some ({ ss with
        dataFlag := update ss.dataFlag se
          { ss.dataFlag se with flag := noFlags } },
      place.link se)
  -- slist_internal_link_head
  | .headRead se => some (ss, .headStore se ss.head)
  | .headStore se seNext =>
    some ({ ss with next := update ss.next se seNext },
      match compiler.head with
      | .leftFirst => .headLeft se
      | .rightFirst => .headCompare se none)
  | .headLeft se => some (ss, .headCompare se (some (ss.next se)))
  | .headCompare se left => some (ss, .headCas se left (ss.next se))
  | .headCas se left compare =>
    some ({ ss with head := if ss.head = compare then some se else ss.head },
      match left with
      | some left =>
        if left = ss.head then .newReturn (some se)
        else .headStore se ss.head
      | none => .headRight se compare ss.head)
  | .headRight se _ seNext =>
    some (ss,
      if ss.next se = seNext then .newReturn (some se)
      else .headStore se seNext)
  -- slist_internal_link_after
  | .afterRead se ase => some (ss, .afterStore se ase (ss.next ase))
  | .afterStore se ase seNext =>
    some ({ ss with next := update ss.next se seNext },
      .afterCompare se ase seNext)
  | .afterCompare se ase seNext =>
    some (ss, .afterCas se ase seNext (ss.next se))
  | .afterCas se ase seNext compare =>
    some ({ ss with
        next :=
          if ss.next ase = compare then
            update ss.next ase (some se)
          else ss.next },
      if compiler.after.left seNext (ss.next ase) = ss.next ase then
        .newReturn (some se)
      else .afterStore se ase (ss.next ase))
  | _ => none

/-- The steps of `slist_single_threaded_physically_delete_all_elements`; the
memory of an element that has been freed is not used again. -/
def freeStep (ss : SlistState Value) :
    SlistPc Value → Option (SlistState Value × SlistPc Value)
  | .freeRead last => some (ss, .freeTest last ss.head)
  | .freeTest last none =>
    -- slist_internal_init_slist
    some ({ ss with head := none }, if last then .gone else .idle)
  | .freeTest last (some se) => some (ss, .freeNext last se)
  | .freeNext last se => some (ss, .freeTest last (ss.next se))
  | _ => none

/-- The call of `delete_func` or the return that a step makes. -/
def slistEvents (ss : SlistState Value) :
    SlistPc Value → List (SlistEvent Value)
  | .data se (.deleteFunc data) => [.destroyed se data]
  | .freeTest _ none => [.deletedAll]
  | .freeTest _ (some se) =>
    if ss.hasDeleteFunc then [.destroyed se (ss.dataFlag se).data] else []
  | _ => []

section Machine

variable [DecidableEq Value]

/-- A step inside a call. -/
def slistStep (compiler : Compiler) (ss : SlistState Value)
    (pc : SlistPc Value) : Option (SlistState Value × SlistPc Value) :=
  match pc with
  | .data se dataPc =>
    (dataStep ss.hasDeleteFunc (ss.dataFlag se) dataPc).map fun result =>
      ({ ss with dataFlag := update ss.dataFlag se result.1 },
        .data se result.2)
  | pc => (newStep compiler ss pc).orElse fun _ => freeStep ss pc

/-- What a call that has come to its end returns. -/
def slistReturn : SlistPc Value → Option (SlistEvent Value)
  | .newReturn se => some (.created se)
  | .data se pc => (dataReturn pc).map (.returned se)
  | _ => none

/-- Start a call. -/
def slistCall (ss : SlistState Value) :
    SlistAction Value → Option (SlistPc Value)
  | .newHead data => some (.newMalloc .head data)
  | .newNext position data =>
    (elementAt ss.next position ss.head).map fun ase =>
      .newMalloc (.after ase) data
  | .call position call =>
    (elementAt ss.next position ss.head).map fun se => .data se call.start
  | .physicallyDeleteAllElements => some (.freeRead false)
  | .delete => some (.freeRead true)
  | _ => none

/-- Let `aligned_malloc` return. -/
def slistMalloc (ss : SlistState Value) (place : Place) (data : Value) :
    Ptr → Option (SlistState Value × SlistPc Value)
  | none => some (ss, .newReturn none)
  | some se =>
    if ss.allocated se then none
    else
      some ({ ss with allocated := update ss.allocated se true },
        .newData place se data)

/-- Any number of threads on one list. -/
def slistMachine (compiler : Compiler) (Tid : Type) :
    Machine Tid (SlistAction Value) (SlistState Value) (SlistPc Value)
      (Tid × SlistEvent Value) where
  step tid action ss pc :=
    match action, pc with
    | .inside, pc =>
      match slistReturn pc with
      | some event => some ⟨ss, .idle, [(tid, event)]⟩
      | none =>
        (slistStep compiler ss pc).map fun result =>
          ⟨result.1, result.2, (slistEvents ss pc).map (tid, ·)⟩
    | .malloc address, .newMalloc place data =>
      (slistMalloc ss place data address).map fun result =>
        ⟨result.1, result.2, []⟩
    | action, .idle =>
      (slistCall ss action).map fun called =>
        ⟨ss, called, [(tid, .called)]⟩
    | _, _ => none

/-- What a step of the machine can be. -/
inductive SlistMove (compiler : Compiler) {Tid : Type} (tid : Tid)
    (ss : SlistState Value) (pc : SlistPc Value) :
    SlistAction Value →
      Outcome (SlistState Value) (SlistPc Value) (Tid × SlistEvent Value) →
      Prop where
  | returned {event : SlistEvent Value}
      (returned : slistReturn pc = some event) :
      SlistMove compiler tid ss pc .inside ⟨ss, .idle, [(tid, event)]⟩
  | inside {after : SlistState Value} {next : SlistPc Value}
      (pending : slistReturn pc = none)
      (stepped : slistStep compiler ss pc = some (after, next)) :
      SlistMove compiler tid ss pc .inside
        ⟨after, next, (slistEvents ss pc).map (tid, ·)⟩
  | malloc {place : Place} {data : Value} {address : Ptr}
      {after : SlistState Value} {next : SlistPc Value}
      (here : pc = .newMalloc place data)
      (stepped : slistMalloc ss place data address = some (after, next)) :
      SlistMove compiler tid ss pc (.malloc address) ⟨after, next, []⟩
  | call {action : SlistAction Value} {called : SlistPc Value}
      (here : pc = .idle) (call : slistCall ss action = some called) :
      SlistMove compiler tid ss pc action ⟨ss, called, [(tid, .called)]⟩

theorem slistMachine_move {compiler : Compiler} {Tid : Type} {tid : Tid}
    {ss : SlistState Value} {pc : SlistPc Value} {action : SlistAction Value}
    {outcome : Outcome (SlistState Value) (SlistPc Value)
      (Tid × SlistEvent Value)}
    (step : (slistMachine compiler Tid).step tid action ss pc = some outcome) :
    SlistMove compiler tid ss pc action outcome := by
  have isCall : ∀ {action : SlistAction Value},
      (slistCall ss action).map (fun called =>
        (⟨ss, called, [(tid, .called)]⟩ : Outcome (SlistState Value)
          (SlistPc Value) (Tid × SlistEvent Value))) = some outcome →
      pc = .idle → SlistMove compiler tid ss pc action outcome := by
    intro action step here
    rcases Option.map_eq_some_iff.1 step with ⟨called, call, rfl⟩
    exact .call here call
  cases action with
  | inside =>
    simp only [slistMachine] at step
    split at step
    · next event returned =>
        cases step
        exact .returned returned
    · next pending =>
        rcases Option.map_eq_some_iff.1 step with ⟨result, inner, rfl⟩
        exact .inside pending inner
  | malloc address =>
    cases pc with
    | newMalloc place data =>
      rcases Option.map_eq_some_iff.1 step with ⟨result, inner, rfl⟩
      exact .malloc rfl inner
    | idle => cases step
    | _ => cases step
  | _ =>
    cases pc with
    | idle => exact isCall step rfl
    | _ => cases step

end Machine

/-- The list that `slist_new` creates, in a memory with this content. -/
def slistNew (hasDeleteFunc : Bool) (next : Addr → Ptr)
    (dataFlag : Addr → DataFlag Value) : SlistState Value where
  head := none
  hasDeleteFunc := hasDeleteFunc
  next := next
  dataFlag := dataFlag
  allocated := fun _ => false

/-- All threads before their first call. -/
def slistStart (Tid : Type) (ss : SlistState Value) :
    Config Tid (SlistState Value) (SlistPc Value) where
  shared := ss
  threads := fun _ => .idle

end Lockfreec.Basic.Slist
