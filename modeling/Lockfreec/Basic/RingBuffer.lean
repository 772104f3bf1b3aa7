import Lockfreec.Basic.Queue

/-!
# The ring buffer

The model of `lf_ringbuffer.c`.  A ring buffer has a freelist of its elements
and a queue of those that have been written and not been read.  The steps
inside the freelist and queue functions are those of their models; the ring
buffer functions only call them one after the other.

A user has a list of the elements that the `get` functions have handed out
and calls the `put` functions with elements of this list.
-/

namespace Lockfreec.Basic.RingBuffer

open Basic.ElementPool Basic.Freelist Basic.Queue Lib.Interleaving

/-- A `struct ringbuffer_state`. -/
structure RingState where
  qs : QueueState Addr
  fs : FreelistState

/-- The program points between two steps. -/
inductive RingPc where
  | idle
  /-- Inside the `queue_dequeue` of `ringbuffer_get_read`. -/
  | getRead (pc : QueuePc Addr)
  /-- Inside the `freelist_pop` of `ringbuffer_get_write`. -/
  | writePop (pc : FreelistPc)
  /-- Inside the `ringbuffer_get_read` of `ringbuffer_get_write`. -/
  | writeRead (pc : QueuePc Addr)
  /-- Inside the `freelist_push` of `ringbuffer_put_read`. -/
  | putRead (pc : FreelistPc)
  /-- Inside the `queue_enqueue` of `ringbuffer_put_write`. -/
  | putWrite (pc : QueuePc Addr)

/-- What a call returns. -/
inductive RingReturn where
  | gotRead (fe : Ptr)
  /-- The element and the value of `*overwrite_flag`. -/
  | gotWrite (fe : Addr) (overwrite : Bool)
  | didPutRead (fe : Addr)
  /-- The element and the result of `queue_enqueue`, which is ignored. -/
  | didPutWrite (fe : Addr) (rv : Bool)
deriving DecidableEq

/-- What happened in a step. -/
inductive RingEvent where
  | called
  | returned (result : RingReturn)
deriving DecidableEq

/-- A step inside a call; none of the calls allocates. -/
def ringStep (rs : RingState) : RingPc → Option (RingState × RingPc)
  -- ringbuffer_get_read
  | .getRead pc =>
    (queueStep .run rs.qs pc).map fun result =>
      ({ rs with qs := result.1 }, .getRead result.2)
  -- ringbuffer_get_write
  | .writePop (.popReturn none) => some (rs, .writeRead .deqReadPointer)
  | .writePop pc =>
    (freelistStep .run rs.fs pc).map fun result =>
      ({ rs with fs := result.1 }, .writePop result.2)
  | .writeRead (.deqReturn none) => some (rs, .writePop .popReadCounter)
  | .writeRead pc =>
    (queueStep .run rs.qs pc).map fun result =>
      ({ rs with qs := result.1 }, .writeRead result.2)
  -- ringbuffer_put_read
  | .putRead pc =>
    (freelistStep .run rs.fs pc).map fun result =>
      ({ rs with fs := result.1 }, .putRead result.2)
  -- ringbuffer_put_write
  | .putWrite pc =>
    (queueStep .run rs.qs pc).map fun result =>
      ({ rs with qs := result.1 }, .putWrite result.2)
  | .idle => none

/-- A user with the elements that it holds and the argument of its call. -/
structure RingThread where
  held : List Addr
  pc : RingPc
  argument : Addr

/-- What a call that has come to its end returns. -/
def ringReturn (argument : Addr) : RingPc → Option RingReturn
  | .getRead (.deqReturn fe) => some (.gotRead fe)
  | .writePop (.popReturn (some fe)) => some (.gotWrite fe false)
  | .writeRead (.deqReturn (some fe)) => some (.gotWrite fe true)
  | .putRead .pushReturn => some (.didPutRead argument)
  | .putWrite (.enqReturn rv) => some (.didPutWrite argument rv)
  | _ => none

/-- The element that a call hands out. -/
def RingReturn.element : RingReturn → List Addr
  | .gotRead fe => fe.toList
  | .gotWrite fe _ => [fe]
  | .didPutRead _ => []
  | .didPutWrite _ _ => []

/-- What a user does next. -/
inductive RingAction where
  | getRead
  | getWrite
  | putRead (fe : Addr)
  | putWrite (fe : Addr)
  | inside
deriving DecidableEq

/-- Start a call; an element that is put back has to be held. -/
def ringCall (thread : RingThread) : RingAction → Option RingThread
  | .getRead => some { thread with pc := .getRead .deqReadPointer }
  | .getWrite => some { thread with pc := .writePop .popReadCounter }
  | .putRead fe =>
    if fe ∈ thread.held then
      some ⟨thread.held.erase fe, .putRead (.pushIncrement none fe), fe⟩
    else none
  | .putWrite fe =>
    if fe ∈ thread.held then
      some ⟨thread.held.erase fe, .putWrite (.newElement fe .popReadCounter),
        fe⟩
    else none
  | .inside => none

/-- Any number of users of one ring buffer. -/
def ringMachine (Tid : Type) :
    Machine Tid RingAction RingState RingThread (Tid × RingEvent) where
  step tid action rs thread :=
    match action, thread.pc with
    | .inside, pc =>
      match ringReturn thread.argument pc with
      | some result =>
        some ⟨rs,
          { thread with held := result.element ++ thread.held, pc := .idle },
          [(tid, .returned result)]⟩
      | none =>
        (ringStep rs pc).map fun result =>
          ⟨result.1, { thread with pc := result.2 }, []⟩
    | action, .idle =>
      (ringCall thread action).map fun called =>
        ⟨rs, called, [(tid, .called)]⟩
    | _, _ => none

/--
The ring buffer that `ringbuffer_new` creates over these freelist elements,
with a queue of one element more.  The cells hold whatever the memory and the
user's `init_func` put there.
-/
def ringNew (initFunc : Bool) (next : Addr → Word) (data : Addr → Ptr)
    (elements : List Addr) (qs : QueueState Addr) : RingState where
  qs := qs
  fs :=
    { (poolNew next data (elements.map fun fe => (fe, fe))).fs with
      initFunc := initFunc
      data := data }

/-- All users before their first call. -/
def ringStart (Tid : Type) (rs : RingState) :
    Config Tid RingState RingThread where
  shared := rs
  threads := fun _ => ⟨[], .idle, 0⟩

end Lockfreec.Basic.RingBuffer
