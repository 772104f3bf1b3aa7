import Lockfreec.Lib.Chain
import Lockfreec.Lib.Interleaving

/-!
# Epoch-based reclamation

The model of `ebr.h` and `gc.h`.  Threads register, enter and leave critical
sections and put objects into limbo; one thread, the collector, also runs
`gc_cycle`.  Memory is sequentially consistent and every step makes at most
one access to it.

The block that `ebr_register` allocates for a thread is named by the thread
itself, and an object stands for its intrusive `gc_entry`.  No object is put
into limbo twice, and `gc->reclaim` leaves the entries of the list it gets as
they are.  The missing return at the end of `ebr_sync` is read as `true`, and
assertions have no steps.
-/

namespace Lockfreec.Mwcas.Gc

open Function Lib.Interleaving

/-- `EBR_EPOCHS`. -/
def ebrEpochs : Nat := 3

/-- `ACTIVE_FLAG`. -/
def activeFlag : Nat := 0x80000000

/-- What the macro `EXCHANGE` expands to on a platform. -/
inductive Exchange where
  /-- `__sync_fetch_and_add`. -/
  | fetchAndAdd
  /-- `InterlockedExchange`. -/
  | interlocked
deriving DecidableEq

/--
What `EXCHANGE(&gc->limbo, NULL)` leaves in `gc->limbo`: adding a null pointer
changes nothing.
-/
def Exchange.leaves {Obj : Type} : Exchange → Option Obj → Option Obj
  | .fetchAndAdd, limbo => limbo
  | .interlocked, _ => none

/-- The shared memory of one `gc` instance. -/
structure GcState (Tid Obj : Type) where
  globalEpoch : Nat
  /-- `ebr->list`. -/
  list : Option Tid
  localEpoch : Tid → Nat
  tlsNext : Tid → Option Tid
  limbo : Option Obj
  epochList : Nat → Option Obj
  entNext : Obj → Option Obj
  /-- The objects that have been passed to `gc_limbo`. -/
  retired : List Obj

/-- The program points between two steps. -/
inductive GcPc (Tid Obj : Type) where
  | idle
  | registerInit
  | registerRead
  | registerStore (head : Option Tid)
  | registerCas (head : Option Tid)
  | enterRead
  | enterStore (epoch : Nat)
  | exitStore
  | limboRead (obj : Obj)
  | limboStore (obj : Obj) (head : Option Obj)
  | limboCas (obj : Obj) (head : Option Obj)
  | syncReadEpoch (count : Nat)
  | syncReadList (count epoch : Nat)
  | syncScan (count epoch : Nat) (t : Option Tid)
  | syncNext (count epoch : Nat) (t : Tid)
  | syncFail
  | syncGcEpoch (count : Nat)
  | cycleStaging (count gcEpoch : Nat)
  | cycleExchange (count gcEpoch stagingEpoch : Nat)
  | cycleStoreList (count gcEpoch stagingEpoch : Nat) (taken : Option Obj)
  | cycleLoadList (count gcEpoch : Nat)
  | cycleReclaim (gcEpoch : Nat) (gcList : Option Obj)
  | cycleClear (gcEpoch : Nat)

/-- A thread with what its calls so far allow it to call next. -/
structure GcThread (Tid Obj : Type) where
  pc : GcPc Tid Obj
  registered : Bool
  /-- Whether it is between the end of an enter and the end of an exit. -/
  critical : Bool

/-- The calls of a thread, and the steps inside a call. -/
inductive GcAction (Obj : Type) where
  | register
  | enter
  | exit
  | limbo (obj : Obj)
  | cycle
  | run

/-- What a history records. -/
inductive GcEvent (Tid Obj : Type) where
  /-- A thread has entered a critical section. -/
  | enter (thread : Tid)
  /-- A thread has left its critical section. -/
  | exit (thread : Tid)
  /-- `gc_limbo` is called on an object. -/
  | limbo (obj : Obj)
  /-- `gc->reclaim` is called on this list. -/
  | reclaim (objs : List Obj)
deriving DecidableEq

variable {Tid Obj : Type} [DecidableEq Tid] [DecidableEq Obj]

/-- The objects that `gc_default_reclaim` visits from an entry on. -/
def gcDefaultReclaim (next : Obj → Option Obj) :
    Nat → Option Obj → List Obj
  | _, none => []
  | 0, some _ => []
  | fuel + 1, some entry =>
    entry :: gcDefaultReclaim next fuel (next entry)

/-- A call made by an idle thread. -/
def gcCall (collector thread : Tid) (gc : GcState Tid Obj)
    (user : GcThread Tid Obj) :
    GcAction Obj → Option (Outcome (GcState Tid Obj) (GcThread Tid Obj)
        (GcEvent Tid Obj))
  | .register =>
    if user.registered then none
    else some ⟨gc, { user with pc := .registerInit }, []⟩
  | .enter =>
    if user.registered ∧ user.critical = false then
      some ⟨gc, { user with pc := .enterRead }, []⟩
    else none
  | .exit =>
    if user.critical then some ⟨gc, { user with pc := .exitStore }, []⟩
    else none
  | .limbo obj =>
    if obj ∈ gc.retired then none
    else some ⟨{ gc with retired := obj :: gc.retired },
      { user with pc := .limboRead obj }, [.limbo obj]⟩
  | .cycle =>
    if thread = collector then
      some ⟨gc, { user with pc := .syncReadEpoch ebrEpochs }, []⟩
    else none
  | .run => none

/-- The atomic steps inside the functions. -/
def gcStep (exchange : Exchange) (thread : Tid) (gc : GcState Tid Obj)
    (user : GcThread Tid Obj) :
    Option (Outcome (GcState Tid Obj) (GcThread Tid Obj) (GcEvent Tid Obj)) :=
  match user.pc with
  | .idle => none
  -- ebr_register
  | .registerInit =>
    some ⟨{ gc with
        localEpoch := update gc.localEpoch thread 0
        tlsNext := update gc.tlsNext thread none },
      { user with pc := .registerRead }, []⟩
  | .registerRead =>
    some ⟨gc, { user with pc := .registerStore gc.list }, []⟩
  | .registerStore head =>
    some ⟨{ gc with tlsNext := update gc.tlsNext thread head },
      { user with pc := .registerCas head }, []⟩
  | .registerCas head =>
    if gc.list = head then
      some ⟨{ gc with list := some thread },
        { user with pc := .idle, registered := true }, []⟩
    else some ⟨gc, { user with pc := .registerRead }, []⟩
  -- ebr_enter and ebr_exit
  | .enterRead =>
    some ⟨gc, { user with pc := .enterStore gc.globalEpoch }, []⟩
  | .enterStore epoch =>
    some ⟨{ gc with
        localEpoch :=
          update gc.localEpoch thread (epoch ||| activeFlag) },
      { user with pc := .idle, critical := true }, [.enter thread]⟩
  | .exitStore =>
    some ⟨{ gc with
        localEpoch := update gc.localEpoch thread 0 },
      { user with pc := .idle, critical := false }, [.exit thread]⟩
  -- gc_limbo
  | .limboRead obj =>
    some ⟨gc, { user with pc := .limboStore obj gc.limbo }, []⟩
  | .limboStore obj head =>
    some ⟨{ gc with entNext := update gc.entNext obj head },
      { user with pc := .limboCas obj head }, []⟩
  | .limboCas obj head =>
    if gc.limbo = head then
      some ⟨{ gc with limbo := some obj }, { user with pc := .idle }, []⟩
    else some ⟨gc, { user with pc := .limboRead obj }, []⟩
  -- ebr_sync
  | .syncReadEpoch count =>
    some ⟨gc, { user with pc := .syncReadList count gc.globalEpoch }, []⟩
  | .syncReadList count epoch =>
    some ⟨gc, { user with pc := .syncScan count epoch gc.list }, []⟩
  | .syncScan count epoch none =>
    some ⟨{ gc with globalEpoch := (epoch + 1) % ebrEpochs },
      { user with pc := .syncGcEpoch count }, []⟩
  | .syncScan count epoch (some t) =>
    if gc.localEpoch t &&& activeFlag ≠ 0 ∧
        gc.localEpoch t ≠ epoch ||| activeFlag then
      some ⟨gc, { user with pc := .syncFail }, []⟩
    else some ⟨gc, { user with pc := .syncNext count epoch t }, []⟩
  | .syncNext count epoch t =>
    some ⟨gc, { user with pc := .syncScan count epoch (gc.tlsNext t) }, []⟩
  | .syncFail => some ⟨gc, { user with pc := .idle }, []⟩
  | .syncGcEpoch count =>
    some ⟨gc, { user with
      pc := .cycleStaging count ((gc.globalEpoch + 1) % ebrEpochs) }, []⟩
  -- gc_cycle
  | .cycleStaging count gcEpoch =>
    some ⟨gc, { user with
      pc := .cycleExchange count gcEpoch gc.globalEpoch }, []⟩
  | .cycleExchange count gcEpoch stagingEpoch =>
    some ⟨{ gc with limbo := exchange.leaves gc.limbo },
      { user with
        pc := .cycleStoreList count gcEpoch stagingEpoch gc.limbo }, []⟩
  | .cycleStoreList count gcEpoch stagingEpoch taken =>
    some ⟨{ gc with
        epochList := update gc.epochList stagingEpoch taken },
      { user with pc := .cycleLoadList count gcEpoch }, []⟩
  | .cycleLoadList count gcEpoch =>
    if gc.epochList gcEpoch = none ∧ count ≠ 0 then
      some ⟨gc, { user with pc := .syncReadEpoch (count - 1) }, []⟩
    else
      some ⟨gc, { user with
        pc := .cycleReclaim gcEpoch (gc.epochList gcEpoch) }, []⟩
  | .cycleReclaim gcEpoch gcList =>
    some ⟨gc, { user with pc := .cycleClear gcEpoch }, [.reclaim
        (gcDefaultReclaim gc.entNext gc.retired.length gcList)]⟩
  | .cycleClear gcEpoch =>
    some ⟨{ gc with
        epochList := update gc.epochList gcEpoch none },
      { user with pc := .idle }, []⟩

/-- Any number of threads, one of which is the collector. -/
def gcMachine (exchange : Exchange) (collector : Tid) :
    Machine Tid (GcAction Obj) (GcState Tid Obj) (GcThread Tid Obj)
      (GcEvent Tid Obj) where
  step thread action gc user :=
    match user.pc, action with
    | .idle, action => gcCall collector thread gc user action
    | _, .run => gcStep exchange thread gc user
    | _, _ => none

/--
The instance that `gc_create` has just created.  The memory of the threads'
blocks and of the objects holds whatever it held.
-/
def gcStart (localEpoch : Tid → Nat) (tlsNext : Tid → Option Tid)
    (entNext : Obj → Option Obj) :
    Config Tid (GcState Tid Obj) (GcThread Tid Obj) where
  shared :=
    { globalEpoch := 0
      list := none
      localEpoch := localEpoch
      tlsNext := tlsNext
      limbo := none
      epochList := fun _ => none
      entNext := entNext
      retired := [] }
  threads := fun _ => ⟨.idle, false, false⟩

end Lockfreec.Mwcas.Gc
