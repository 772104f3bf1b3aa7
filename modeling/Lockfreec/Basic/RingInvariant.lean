import Lockfreec.Basic.QueueSteps
import Lockfreec.Basic.RingBuffer
import Mathlib.Combinatorics.Enumerative.DoubleCounting

/-!
# The ring buffer invariant

Every ring buffer element is in one place: in the freelist, in an element of
the queue, or with a thread.  Every queue element that has left the freelist
of the queue serves a ring buffer element of its own, only the first one of
the queue serves none.  A thread that looks for a queue element has a ring
buffer element that no queue element serves yet.  So with one queue element
more than ring buffer elements its search cannot fail.
-/

namespace Lockfreec.Basic.RingBuffer

open Basic.ElementPool Basic.Freelist Basic.Queue Lib.Chain Lib.Interleaving
  Lib.LinkedQueue

/-! ## What a program point holds -/

/-- Where a thread is inside the queue. -/
def RingPc.queuePc : RingPc → QueuePc Addr
  | .getRead pc | .writeRead pc | .putWrite pc => pc
  | _ => .idle

/-- Where a thread is inside the freelist. -/
def RingPc.freelistPc : RingPc → FreelistPc
  | .writePop pc | .putRead pc => pc
  | _ => .idle

/-- The ring buffer element that a call inside the queue works with. -/
def inFlight (qs : QueueState Addr) : QueuePc Addr → Option Addr
  | .newElement data _ | .initIncrement _ _ data | .initNextPointer _ _ data
  | .initCounter _ _ data | .initNextCounter _ _ _ data | .initFe _ _ data
  | .initData _ data => some data
  | .enqReadPointer qe | .enqReadCounter qe _ | .enqReadNextPointer qe _
  | .enqReadNextCounter qe _ _ | .enqTestPointer qe _ _ | .enqTestCounter qe _ _
  | .enqLink qe _ _ | .enqHelp qe _ _ => some (qs.data qe)
  | .deqReadFe _ data | .deqFreelistPush data _ => some data
  | .deqReturn data => data
  | _ => none

/-- The element of the queue's freelist that a thread has. -/
def served (feOf : Addr → Addr) (pc : QueuePc Addr) : Option Addr :=
  match pc.role.held, pc.role.own with
  | some qe, _ | none, some qe => some (feOf qe)
  | none, none => pc.freelistPc.inHand

theorem inFlight_of_served {feOf : Addr → Addr} {qs : QueueState Addr}
    {pc : QueuePc Addr} {fe : Addr} (serves : served feOf pc = some fe) :
    ∃ data, inFlight qs pc = some data := by
  cases pc <;>
    simp_all [served, inFlight, QueuePc.role, Role.held, Role.own,
      QueuePc.freelistPc, FreelistPc.inHand]

theorem served_of_held {feOf : Addr → Addr} {pc : QueuePc Addr} {qe : Addr}
    (held : pc.role.held = some qe) : served feOf pc = some (feOf qe) := by
  simp only [served, held]

theorem served_of_own {feOf : Addr → Addr} {pc : QueuePc Addr} {qe : Addr}
    (own : pc.role.own = some qe) : served feOf pc = some (feOf qe) := by
  have held : pc.role.held = none := by
    cases role : pc.role <;> simp_all [Role.own, Role.held]
  simp only [served, held, own]

theorem served_of_inHand {feOf : Addr → Addr} {pc : QueuePc Addr} {fe : Addr}
    (inHand : pc.freelistPc.inHand = some fe) : served feOf pc = some fe := by
  cases pc <;>
    simp_all [served, QueuePc.role, Role.held, Role.own,
      QueuePc.freelistPc, FreelistPc.inHand]

/-! ## The program points of the calls -/

/-- Inside a `freelist_pop`. -/
def PopPc : FreelistPc → Prop
  | .popReadCounter | .popReadPointer _ | .popLoop _ | .popReadNextCounter _ _ _
  | .popDcas _ _ _ | .popReturn _ => True
  | _ => False

/-- Inside a `freelist_pop` that has not found the freelist empty. -/
def FoundPc : FreelistPc → Prop
  | .popReadCounter | .popReadPointer _ => True
  | .popLoop feLocal => feLocal.pointer ≠ none
  | .popReadNextCounter _ _ _ | .popDcas _ _ _ => True
  | .popReturn fe => fe ≠ none
  | _ => False

/-- Inside a `freelist_push`. -/
def PushPc : FreelistPc → Prop
  | .pushIncrement none _ | .pushReadPointer none _ _
  | .pushReadCounter none _ _ _ | .pushStorePointer none _ _ _
  | .pushStoreCounter none _ _ _ | .pushDcas none _ _ _ | .pushReturn => True
  | _ => False

/-- Inside a `queue_enqueue` that gets an element. -/
def EnqueuePc : QueuePc Addr → Prop
  | .newElement _ pc => FoundPc pc
  | .initIncrement _ _ _ | .initNextPointer _ _ _ | .initCounter _ _ _
  | .initNextCounter _ _ _ _ | .initFe _ _ _ | .initData _ _ | .enqReadPointer _
  | .enqReadCounter _ _ | .enqReadNextPointer _ _ | .enqReadNextCounter _ _ _
  | .enqTestPointer _ _ _ | .enqTestCounter _ _ _ | .enqLink _ _ _
  | .enqHelp _ _ _ | .enqSwing _ _ => True
  | .enqReturn rv => rv = true
  | _ => False

/-- Inside a `queue_dequeue`. -/
def DequeuePc : QueuePc Addr → Prop
  | .deqReadPointer | .deqReadCounter _ | .deqReadEnqPointer _
  | .deqReadEnqCounter _ _ | .deqReadNextPointer _ _ | .deqReadNextCounter _ _ _
  | .deqTestPointer _ _ _ | .deqTestCounter _ _ _ | .deqHelp _ _
  | .deqReadData _ _ | .deqDcas _ _ _ | .deqReadFe _ _ => True
  | .deqFreelistPush _ pc => PushPc pc
  | .deqReturn _ => True
  | _ => False

/-- The program points that the ring buffer functions reach. -/
def CallOk : RingPc → Prop
  | .idle => True
  | .getRead pc => DequeuePc pc
  | .writePop pc => PopPc pc
  | .writeRead pc => DequeuePc pc
  | .putRead pc => PushPc pc
  | .putWrite pc => EnqueuePc pc

theorem FoundPc.popPc {pc : FreelistPc} (found : FoundPc pc) : PopPc pc := by
  cases pc <;> simp_all [FoundPc, PopPc]

theorem PopPc.step {fs after : FreelistState} {old pc : FreelistPc}
    (popPc : PopPc old) (step : freelistStep .run fs old = some (after, pc)) :
    PopPc pc ∧ after.allocated = fs.allocated := by
  cases old with
  | popReadCounter | popReadPointer => cases step; exact ⟨trivial, rfl⟩
  | popLoop feLocal =>
    simp only [freelistStep] at step
    split at step <;> cases step <;> exact ⟨trivial, rfl⟩
  | popReadNextCounter feLocal fe next =>
    cases step
    exact ⟨trivial, rfl⟩
  | popDcas feLocal fe exchange =>
    cases step
    split <;> exact ⟨trivial, rfl⟩
  | popReturn fe => cases step
  | _ => cases popPc

/-- A pop does not find the freelist empty while there is an element. -/
theorem FoundPc.step {fs after : FreelistState} {old pc : FreelistPc}
    (found : FoundPc old) (nonempty : old.inHand = none → fs.top.pointer ≠ none)
    (step : freelistStep .run fs old = some (after, pc)) :
    FoundPc pc := by
  cases old with
  | popReadCounter | popReadNextCounter => cases step; exact trivial
  | popReadPointer counter => cases step; exact nonempty rfl
  | popLoop feLocal =>
    simp only [freelistStep] at step
    split at step
    · next isNone => exact absurd isNone found
    · cases step; exact trivial
  | popDcas feLocal fe exchange =>
    cases step
    by_cases equal : fs.top = feLocal
    · simp [abstractionDcas, equal, FoundPc]
    · simp only [abstractionDcas, if_neg equal]
      exact nonempty rfl
  | popReturn fe => cases step
  | _ => cases found

theorem PushPc.step {fs after : FreelistState} {old pc : FreelistPc}
    (pushPc : PushPc old) (step : freelistStep .run fs old = some (after, pc)) :
    PushPc pc ∧ after.allocated = fs.allocated := by
  cases old with
  | pushIncrement caller fe | pushReadPointer caller fe counter
  | pushReadCounter caller fe counter pointer
  | pushStorePointer caller fe counter original
  | pushStoreCounter caller fe counter original =>
    cases caller with
    | none => cases step; exact ⟨trivial, rfl⟩
    | some loop => cases pushPc
  | pushDcas caller fe counter original =>
    cases caller with
    | none =>
      simp only [freelistStep, Option.some.injEq, Prod.mk.injEq] at step
      rcases step with ⟨rfl, rfl⟩
      split <;> exact ⟨trivial, rfl⟩
    | some loop => cases pushPc
  | pushReturn => cases step
  | _ => cases pushPc

/-- Inside `queue_enqueue`, while the freelist of the queue has elements. -/
theorem EnqueuePc.step {qs after : QueueState Addr} {old pc : QueuePc Addr}
    (enqueuePc : EnqueuePc old)
    (nonempty : ∀ data freelistPc, old = .newElement data freelistPc →
      freelistPc.inHand = none → qs.pool.fs.top.pointer ≠ none)
    (step : queueStep .run qs old = some (after, pc)) :
    EnqueuePc pc ∧ after.pool.fs.allocated = qs.pool.fs.allocated ∧
      ((∀ qe enqueue, pc ≠ .enqSwing qe enqueue) →
        inFlight after pc = inFlight qs old) := by
  cases old with
  | newElement data freelistPc =>
    rw [queueStep_newElement] at step
    rcases newStep_cases step with ⟨pool, next, moved, rfl, rfl⟩ |
      ⟨rfl, -, -⟩ | ⟨fe, qe, -, -, rfl, rfl⟩
    · have foundPc : FoundPc freelistPc := enqueuePc
      have moved := poolStep_freelist moved
      exact ⟨foundPc.step (nonempty data freelistPc rfl) moved,
        (foundPc.popPc.step moved).2, fun _ => rfl⟩
    · exact absurd rfl enqueuePc
    · exact ⟨trivial, rfl, fun _ => rfl⟩
  | enqReadNextPointer qe enqueue
  | enqReadNextCounter qe enqueue nextPointer =>
    rcases enqueue with ⟨_ | last, counter⟩ <;> cases step
    exact ⟨trivial, rfl, fun _ => rfl⟩
  | enqTestPointer qe enqueue next =>
    cases step
    split <;> exact ⟨trivial, rfl, fun _ => rfl⟩
  | enqTestCounter qe enqueue next =>
    cases step
    split
    · rcases next with ⟨_ | following, counter⟩ <;>
        exact ⟨trivial, rfl, fun _ => rfl⟩
    · exact ⟨trivial, rfl, fun _ => rfl⟩
  | enqLink qe enqueue next =>
    rcases enqueue with ⟨_ | last, counter⟩
    · cases step
    · cases step
      split
      · exact ⟨trivial, rfl, fun notLinked => absurd rfl (notLinked _ _)⟩
      · exact ⟨trivial, rfl, fun _ => rfl⟩
  | initIncrement | initNextPointer | initCounter | initNextCounter | initFe
  | enqReadPointer | enqReadCounter | enqHelp =>
    cases step
    exact ⟨trivial, rfl, fun _ => rfl⟩
  | initData qe data =>
    cases step
    exact ⟨trivial, rfl, fun _ => by simp [inFlight]⟩
  | enqSwing qe enqueue => cases step; exact ⟨rfl, rfl, fun _ => rfl⟩
  | enqReturn rv => cases step
  | _ => cases enqueuePc

/-- Inside `queue_dequeue`. -/
theorem DequeuePc.step {qs after : QueueState Addr} {old pc : QueuePc Addr}
    (dequeuePc : DequeuePc old)
    (step : queueStep .run qs old = some (after, pc)) :
    DequeuePc pc ∧ after.pool.fs.allocated = qs.pool.fs.allocated ∧
      ((∀ qe data, pc ≠ .deqReadFe qe data) →
        inFlight after pc = inFlight qs old) := by
  cases old with
  | deqReadPointer | deqReadCounter | deqReadEnqPointer | deqReadEnqCounter
  | deqHelp | deqReadFe =>
    cases step
    exact ⟨trivial, rfl, fun _ => rfl⟩
  | deqReadNextPointer dequeue enqueue
  | deqReadNextCounter dequeue enqueue nextPointer =>
    rcases dequeue with ⟨_ | first, counter⟩ <;> cases step
    exact ⟨trivial, rfl, fun _ => rfl⟩
  | deqTestPointer dequeue enqueue next =>
    cases step
    split <;> exact ⟨trivial, rfl, fun _ => rfl⟩
  | deqTestCounter dequeue enqueue next =>
    cases step
    split
    · rw [deqDecide]
      split
      · rcases next with ⟨_ | following, counter⟩ <;>
          exact ⟨trivial, rfl, fun _ => rfl⟩
      · exact ⟨trivial, rfl, fun _ => rfl⟩
    · exact ⟨trivial, rfl, fun _ => rfl⟩
  | deqReadData dequeue next =>
    rcases next with ⟨_ | following, counter⟩ <;> cases step
    exact ⟨trivial, rfl, fun _ => rfl⟩
  | deqDcas dequeue next data =>
    rcases dequeue with ⟨_ | first, counter⟩
    · cases step
    · cases step
      split
      · exact ⟨trivial, rfl, fun notTaken => absurd rfl (notTaken _ _)⟩
      · exact ⟨trivial, rfl, fun _ => rfl⟩
  | deqFreelistPush data freelistPc =>
    rcases deqStep_cases step with
      ⟨pool, next, moved, rfl, rfl⟩ | ⟨-, rfl, rfl⟩
    · have pushed := PushPc.step dequeuePc (poolStep_freelist moved)
      exact ⟨pushed.1, pushed.2, fun _ => rfl⟩
    · exact ⟨trivial, rfl, fun _ => rfl⟩
  | deqReturn data => cases step
  | _ => cases dequeuePc

/-! ## Where the elements are -/

/-- Where a ring buffer element is. -/
inductive Place (Tid : Type) where
  /-- In the freelist or inside one of its functions. -/
  | free
  /-- In an element of the queue. -/
  | node (qe : Addr)
  /-- With a thread, outside of the freelist. -/
  | thread (tid : Tid)

/-- The elements that a thread has outside of the freelist. -/
def carried (qs : QueueState Addr) (thread : RingThread) : List Addr :=
  (inFlight qs thread.pc.queuePc).toList ++ thread.held

variable {Tid : Type}

/-- The invariant of a ring buffer with these elements, over a queue with
these freelist elements. -/
structure RingInv (elements queueElements : List Addr) (rs : RingState)
    (threads : Tid → RingThread) (ghost : Ghost Tid Addr) (feOf : Addr → Addr)
    (free cells : List (Addr × Nat))
    (place : Addr → Place Tid) : Prop where
  queue : QueueInv rs.qs (fun tid => (threads tid).pc.queuePc) ghost feOf free
  freelist : FreelistInv rs.fs (fun tid => (threads tid).pc.freelistPc)
    { fe | place fe ≠ .free } cells
  nodes : ∀ fe qe, place fe = .node qe ↔ Stored ghost qe ∧ rs.qs.data qe = fe
  hands : ∀ fe tid, place fe = .thread tid ↔ fe ∈ carried rs.qs (threads tid)
  once : ∀ tid, (carried rs.qs (threads tid)).Nodup
  calls : ∀ tid, CallOk (threads tid).pc
  allocated : ∀ fe, rs.fs.allocated fe = true ↔ fe ∈ elements
  queueAllocated : ∀ fe, rs.qs.pool.fs.allocated fe = true ↔ fe ∈ queueElements

namespace RingInv

variable {elements queueElements : List Addr} {rs : RingState}
  {threads : Tid → RingThread} {ghost : Ghost Tid Addr} {feOf : Addr → Addr}
  {free cells : List (Addr × Nat)} {place : Addr → Place Tid} {tid : Tid}

variable {fe data : Addr}

/-- An element that is not in the freelist is one of the ring buffer. -/
theorem element_of_place
    (inv : RingInv elements queueElements rs threads ghost feOf free cells
      place) (outside : place fe ≠ .free) : fe ∈ elements :=
  (inv.allocated fe).1 ((inv.freelist.allocated fe).2 (.inr (.inl outside)))

theorem place_of_inFlight
    (inv : RingInv elements queueElements rs threads ghost feOf free cells
      place) (isInFlight : inFlight rs.qs (threads tid).pc.queuePc = some data)
    :
    place data = .thread tid := by
  rw [inv.hands data tid, carried, isInFlight]
  simp

/-- A queue element serves the ring buffer element that it stores, or the one
of the thread that has it. -/
def Serves (rs : RingState) (threads : Tid → RingThread)
    (ghost : Ghost Tid Addr) (feOf : Addr → Addr) (fe data : Addr) : Prop :=
  (∃ qe, Stored ghost qe ∧ feOf qe = fe ∧ rs.qs.data qe = data) ∨
    ∃ tid, served feOf (threads tid).pc.queuePc = some fe ∧
      inFlight rs.qs (threads tid).pc.queuePc = some data

variable (inv : RingInv elements queueElements rs threads ghost feOf free cells
  place)

include inv

theorem serves_unique {left right : Addr}
    (isLeft : Serves rs threads ghost feOf left data)
    (isRight : Serves rs threads ghost feOf right data) : left = right := by
  rcases isLeft with ⟨qe, stored, rfl, isData⟩ | ⟨tid, serves, isData⟩
  · have here := (inv.nodes data qe).2 ⟨stored, isData⟩
    rcases isRight with ⟨other, otherStored, rfl, otherData⟩ |
      ⟨other, -, otherData⟩
    · have there := (inv.nodes data other).2 ⟨otherStored, otherData⟩
      rw [here] at there
      cases there
      rfl
    · have there := inv.place_of_inFlight otherData
      rw [here] at there
      cases there
  · have here := inv.place_of_inFlight isData
    rcases isRight with ⟨other, otherStored, rfl, otherData⟩ |
      ⟨other, otherServes, otherData⟩
    · have there := (inv.nodes data other).2 ⟨otherStored, otherData⟩
      rw [here] at there
      cases there
    · have there := inv.place_of_inFlight otherData
      rw [here] at there
      cases there
      rw [serves] at otherServes
      exact Option.some.inj otherServes

omit inv in
/-- A thread with a queue element serves its own ring buffer element. -/
theorem serves_of_thread {feOf : Addr → Addr} {other : Tid}
    (serves : served feOf (threads other).pc.queuePc = some fe) :
    ∃ data, Serves rs threads ghost feOf fe data ∧
      inFlight rs.qs (threads other).pc.queuePc = some data := by
  have flight : ∃ data, inFlight rs.qs (threads other).pc.queuePc = some data :=
    inFlight_of_served serves
  rcases flight with ⟨data, isInFlight⟩
  exact ⟨data, .inr ⟨other, serves, isInFlight⟩, isInFlight⟩

/-- Every queue element outside of its freelist serves an element, only the
first one of the queue does not. -/
theorem exists_serves {first : Addr} {rest : List Addr}
    (queue : ghost.chains none = first :: rest) (notFirst : fe ≠ feOf first)
    (notFree : fe ∉ free.map Prod.fst) (mem : fe ∈ queueElements) :
    (∃ qe, Stored ghost qe ∧ feOf qe = fe) ∨
      ∃ tid, served feOf (threads tid).pc.queuePc = some fe := by
  rcases (inv.queue.pool.freelist.allocated fe).1
    ((inv.queueAllocated fe).2 mem) with inFree | inUse | ⟨tid, inHand⟩
  · exact absurd inFree notFree
  · rcases inUse with ⟨qe, ⟨owner, inChain⟩ | ⟨tid, held⟩, rfl⟩
    · cases chain : ghost.chains owner with
      | nil =>
        rw [chain] at inChain
        cases inChain
      | cons head tail =>
        rw [chain, List.mem_cons] at inChain
        rcases inChain with rfl | inTail
        · cases owner with
          | none =>
            rw [queue] at chain
            cases chain
            exact absurd rfl notFirst
          | some tid =>
            have starts := inv.queue.shape.chain (some tid)
            rw [chain] at starts
            exact .inr ⟨tid, served_of_own starts.1⟩
        · exact .inl ⟨qe, ⟨owner, by simp [chain, inTail]⟩, rfl⟩
    · exact .inr ⟨tid, served_of_held held⟩
  · exact .inr ⟨tid, served_of_inHand inHand⟩

/-- While a thread looks for a queue element, the freelist of the queue is not
empty. -/
theorem queue_not_exhausted (distinct : elements.Nodup) (queueDistinct : queueElements.Nodup)
    (more : queueElements.length = elements.length + 1)
    (carries : inFlight rs.qs (threads tid).pc.queuePc = some data)
    (searching : served feOf (threads tid).pc.queuePc = none) :
    rs.qs.pool.fs.top.pointer ≠ none := by
  intro empty
  have noFree : free = [] :=
    inv.queue.pool.freelist.tagged.chain.eq_nil empty
  rcases inv.queue.shape.head with ⟨first, rest, queue, -, -⟩
  have placeData : place data = .thread tid := inv.place_of_inFlight carries
  have isElement : data ∈ elements :=
    inv.element_of_place (by rw [placeData]; simp)
  have firstMember : feOf first ∈ queueElements := by
    refine (inv.queueAllocated _).1 ((inv.queue.pool.freelist.allocated _).2
      (.inr (.inl ⟨first, .inl ⟨none, ?_⟩, rfl⟩)))
    simp [queue]
  have counted : (queueElements.toFinset.erase (feOf first)).card ≤
      (elements.toFinset.erase data).card := by
    apply Finset.card_le_card_of_forall_subsingleton
      (Serves rs threads ghost feOf)
    · intro fe mem
      rw [Finset.mem_erase, List.mem_toFinset] at mem
      rcases inv.exists_serves queue mem.1 (by simp [noFree]) mem.2 with
        ⟨qe, stored, isFe⟩ | ⟨other, serves⟩
      · have here := (inv.nodes _ qe).2 ⟨stored, rfl⟩
        refine ⟨rs.qs.data qe, ?_, .inl ⟨qe, stored, isFe, rfl⟩⟩
        rw [Finset.mem_erase, List.mem_toFinset]
        refine ⟨?_, inv.element_of_place (by rw [here]; simp)⟩
        rintro same
        rw [same, placeData] at here
        cases here
      · rcases serves_of_thread serves with ⟨own, isServed, isInFlight⟩
        have here := inv.place_of_inFlight isInFlight
        refine ⟨own, ?_, isServed⟩
        rw [Finset.mem_erase, List.mem_toFinset]
        refine ⟨?_, inv.element_of_place (by rw [here]; simp)⟩
        rintro rfl
        rw [placeData] at here
        cases here
        rw [searching] at serves
        cases serves
    · intro own _ left isLeft right isRight
      exact inv.serves_unique isLeft.2 isRight.2
  rw [Finset.card_erase_of_mem (by simpa using firstMember),
    Finset.card_erase_of_mem (by simpa using isElement),
    List.toFinset_card_of_nodup queueDistinct,
    List.toFinset_card_of_nodup distinct, more] at counted
  have positive := List.length_pos_of_mem isElement
  omega

end RingInv

end Lockfreec.Basic.RingBuffer
