import Lockfreec.Basic.Queue
import Lockfreec.Lib.LinkedQueue

/-!
# The queue invariant

The elements in use form a queue of linked cells, with the chains that hang on
elements which are not linked yet.  Every element in use belongs to one
freelist element, and these are exactly the ones outside of the freelist.

The invariant holds in every run.  A thread may load the pointer of an
element's `next` before another thread links behind the element and the
counter after it.  Such a pair occurs again in the `next` of the element when
the element is initialised anew, so the compare-and-swap may succeed on an
element that has left the queue.
-/

namespace Lockfreec.Basic.Queue

open Function
open Basic.ElementPool Basic.Freelist Lib.Chain Lib.Interleaving Lib.LinkedQueue

variable {Value : Type}

/-! ## What a program point holds -/

/-- The links and the ends of the queue. -/
def QueueState.memory (qs : QueueState Value) : Memory Addr where
  next := fun qe => (qs.next qe).pointer
  enqueue := qs.enqueue
  dequeue := qs.dequeue

/-- Where a thread is inside the freelist. -/
def QueuePc.freelistPc : QueuePc Value → FreelistPc
  | .newElement _ pc | .deqFreelistPush _ pc => pc
  | _ => .idle

/-- The elements that a thread works with at a program point. -/
def QueuePc.role : QueuePc Value → Role Addr
  | .initIncrement _ qe _ | .initNextPointer _ qe _ => .holding qe
  | .initCounter _ qe _ | .initNextCounter _ qe _ _ | .initFe _ qe _
  | .initData qe _ | .enqReadPointer qe | .enqReadCounter qe _
  | .enqReadNextPointer qe _ | .enqReadNextCounter qe _ _
  | .enqTestPointer qe _ _ | .enqTestCounter qe _ _ => .ready qe
  | .enqLink qe enqueue _ =>
    match enqueue.pointer with
    | none => .ready qe
    | some last => .linking qe last
  | .enqHelp qe _ _ => .ready qe
  | .deqReadFe qe _ => .holding qe
  | _ => .away

/-- The freelist element of an element whose `fe` has not been stored. -/
def QueuePc.fresh : QueuePc Value → Option (Addr × Addr)
  | .initIncrement fe qe _ | .initNextPointer fe qe _ | .initCounter fe qe _
  | .initNextCounter fe qe _ _ | .initFe fe qe _ => some (fe, qe)
  | _ => none

/-- What a step keeps that takes and gives no element. -/
def QueuePc.stance (pc : QueuePc Value) :=
  (pc.role.own, pc.role.held, pc.freelistPc, pc.fresh)

/-- Behind the step that links or takes an element. -/
def QueuePc.commits : QueuePc Value → Bool
  | .enqSwing _ _ | .deqReadFe _ _ => true
  | _ => false

theorem role_of_fresh {pc : QueuePc Value} {fe qe : Addr}
    (isFresh : pc.fresh = some (fe, qe)) :
    pc.role.held = some qe ∨ pc.role.own = some qe := by
  cases pc <;>
    simp_all [QueuePc.fresh, QueuePc.role, Role.held, Role.own]

/-- What a dequeue that saw the enqueue end elsewhere knows. -/
structure DeleteSeen (mem : Memory Addr) (dequeue : Word)
    (nextPointer : Ptr) : Prop where
  bound : dequeue.counter ≤ mem.dequeue.counter
  behind : ∃ tail, tail ≠ dequeue.pointer ∧ BehindSeen mem dequeue tail ∧
    SecondSeen mem dequeue tail nextPointer

/-- What a dequeue knows of the words that it has loaded. -/
structure DequeueSeen (mem : Memory Addr) (dequeue enqueue : Word)
    (nextPointer : Ptr) : Prop where
  dequeueBound : dequeue.counter ≤ mem.dequeue.counter
  enqueueBound : enqueue.counter ≤ mem.enqueue.counter
  behind : BehindSeen mem dequeue enqueue.pointer
  second : SecondSeen mem dequeue enqueue.pointer nextPointer
  help : enqueue.pointer = dequeue.pointer → NextSeen mem enqueue nextPointer

/-- What a thread knows at a program point. -/
def Seen (qs : QueueState Value) : QueuePc Value → Prop
  | .enqReadNextPointer _ enqueue =>
    enqueue.counter ≤ qs.enqueue.counter
  | .enqReadNextCounter _ enqueue nextPointer =>
    enqueue.counter ≤ qs.enqueue.counter ∧
      NextSeen qs.memory enqueue nextPointer
  | .enqTestPointer _ enqueue next =>
    enqueue.counter ≤ qs.enqueue.counter ∧
      NextSeen qs.memory enqueue next.pointer
  | .enqTestCounter _ enqueue next =>
    enqueue.counter ≤ qs.enqueue.counter ∧
      NextSeen qs.memory enqueue next.pointer ∧
      TailPinned qs.memory enqueue
  | .enqLink _ enqueue next =>
    enqueue.counter ≤ qs.enqueue.counter ∧ next.pointer = none
  | .enqHelp _ enqueue next =>
    enqueue.counter ≤ qs.enqueue.counter ∧
      NextSeen qs.memory enqueue next.pointer ∧ next.pointer ≠ none
  | .enqSwing qe enqueue =>
    enqueue.counter ≤ qs.enqueue.counter ∧ NextSeen qs.memory enqueue (some qe)
  | .deqReadEnqPointer dequeue => dequeue.counter ≤ qs.dequeue.counter
  | .deqReadEnqCounter dequeue pointer =>
    dequeue.counter ≤ qs.dequeue.counter ∧ BehindSeen qs.memory dequeue pointer
  | .deqReadNextPointer dequeue enqueue =>
    dequeue.counter ≤ qs.dequeue.counter ∧
      enqueue.counter ≤ qs.enqueue.counter ∧
      BehindSeen qs.memory dequeue enqueue.pointer
  | .deqReadNextCounter dequeue enqueue nextPointer =>
    DequeueSeen qs.memory dequeue enqueue nextPointer
  | .deqTestPointer dequeue enqueue next =>
    DequeueSeen qs.memory dequeue enqueue next.pointer
  | .deqTestCounter dequeue enqueue next =>
    DequeueSeen qs.memory dequeue enqueue next.pointer ∧
      HeadPinned qs.memory dequeue
  | .deqHelp enqueue next =>
    enqueue.counter ≤ qs.enqueue.counter ∧
      NextSeen qs.memory enqueue next.pointer ∧ next.pointer ≠ none
  | .deqReadData dequeue next =>
    DeleteSeen qs.memory dequeue next.pointer
  | .deqDcas dequeue next data =>
    DeleteSeen qs.memory dequeue next.pointer ∧
      ∀ qe, qs.dequeue = dequeue → next.pointer = some qe → data = qs.data qe
  | _ => True

/-! ## What the other threads leave alone -/

section Later

variable {Tid : Type} {mem after : Memory Addr} {roles others : Tid → Role Addr}
  {ghost changed : Ghost Tid Addr}

theorem DeleteSeen.later {dequeue : Word} {nextPointer : Ptr}
    (shape : Shape mem roles ghost) (kept : Shape after others changed)
    (later : Later mem after (ghost.chains none) (changed.chains none))
    (seen : DeleteSeen mem dequeue nextPointer) :
    DeleteSeen after dequeue nextPointer := by
  rcases seen.behind with ⟨tail, ne, behind, second⟩
  exact ⟨Nat.le_trans seen.bound later.dequeue, tail, ne,
    behind.later later seen.bound,
    second.later shape kept later seen.bound⟩

theorem DequeueSeen.later {dequeue enqueue : Word} {nextPointer : Ptr}
    (shape : Shape mem roles ghost) (kept : Shape after others changed)
    (later : Later mem after (ghost.chains none) (changed.chains none))
    (seen : DequeueSeen mem dequeue enqueue nextPointer) :
    DequeueSeen after dequeue enqueue nextPointer where
  dequeueBound := Nat.le_trans seen.dequeueBound later.dequeue
  enqueueBound := Nat.le_trans seen.enqueueBound later.enqueue
  behind := seen.behind.later later seen.dequeueBound
  second := seen.second.later shape kept later seen.dequeueBound
  help := fun same =>
    (seen.help same).later shape kept later seen.enqueueBound

theorem Seen.later {qs after : QueueState Value} {pc : QueuePc Value}
    (shape : Shape qs.memory roles ghost)
    (kept : Shape after.memory others changed)
    (later : Later qs.memory after.memory (ghost.chains none)
      (changed.chains none))
    (sameData : ∀ qe ∈ (ghost.chains none).tail, after.data qe = qs.data qe)
    (seen : Seen qs pc) : Seen after pc := by
  cases pc with
  | enqReadNextPointer qe enqueue => exact Nat.le_trans seen later.enqueue
  | enqReadNextCounter qe enqueue nextPointer
  | enqTestPointer qe enqueue next | enqSwing qe enqueue =>
    exact ⟨Nat.le_trans seen.1 later.enqueue,
      seen.2.later shape kept later seen.1⟩
  | enqTestCounter qe enqueue next =>
    exact ⟨Nat.le_trans seen.1 later.enqueue,
      seen.2.1.later shape kept later seen.1,
      seen.2.2.later later seen.1⟩
  | enqLink qe enqueue next =>
    exact ⟨Nat.le_trans seen.1 later.enqueue, seen.2⟩
  | enqHelp qe enqueue next | deqHelp enqueue next =>
    exact ⟨Nat.le_trans seen.1 later.enqueue,
      seen.2.1.later shape kept later seen.1, seen.2.2⟩
  | deqReadEnqPointer dequeue => exact Nat.le_trans seen later.dequeue
  | deqReadEnqCounter dequeue pointer =>
    exact ⟨Nat.le_trans seen.1 later.dequeue, seen.2.later later seen.1⟩
  | deqReadNextPointer dequeue enqueue =>
    exact ⟨Nat.le_trans seen.1 later.dequeue,
      Nat.le_trans seen.2.1 later.enqueue,
      seen.2.2.later later seen.1⟩
  | deqReadNextCounter | deqTestPointer =>
    exact DequeueSeen.later shape kept later seen
  | deqTestCounter dequeue enqueue next =>
    exact ⟨seen.1.later shape kept later,
      seen.2.later later seen.1.dequeueBound⟩
  | deqReadData dequeue next => exact DeleteSeen.later shape kept later seen
  | deqDcas dequeue next data =>
    rcases seen with ⟨seen, loaded⟩
    refine ⟨seen.later shape kept later, ?_⟩
    intro qe same isNext
    have unchanged : after.dequeue = qs.dequeue :=
      later.dequeue_eq seen.bound (by
        change after.dequeue.counter = _
        rw [same])
    have before : qs.dequeue = dequeue := unchanged.symm.trans same
    rcases seen.behind with ⟨tail, ne, -, second⟩
    rcases second before ne with
      ⟨first, following, pointer, isFollowing, link⟩
    rw [isNext] at isFollowing
    cases isFollowing
    have isFirst : qs.memory.dequeue.pointer = some first := by
      rw [← pointer, ← before]
      rfl
    rcases shape.second isFirst link with ⟨rest, queue⟩
    rw [sameData qe (by simp [queue])]
    exact loaded qe before isNext
  | _ => trivial

end Later

/-! ## The invariant -/

variable {Tid : Type}

/-- The roles of all threads. -/
def roles (pcs : Tid → QueuePc Value) : Tid → Role Addr :=
  fun thread => (pcs thread).role

/-- The freelist elements of the elements in use. -/
def elements (feOf : Addr → Addr) (pcs : Tid → QueuePc Value)
    (ghost : Ghost Tid Addr) : Set Addr :=
  { fe | ∃ qe, Used (roles pcs) ghost qe ∧ feOf qe = fe }

/-- The invariant of a queue with these chains, with the freelist elements of
its elements and with this freelist chain. -/
structure QueueInv (qs : QueueState Value) (pcs : Tid → QueuePc Value)
    (ghost : Ghost Tid Addr) (feOf : Addr → Addr)
    (free : List (Addr × Nat)) : Prop where
  shape : Shape qs.memory (roles pcs) ghost
  pool : PoolInv qs.pool (fun thread => (pcs thread).freelistPc)
    (elements feOf pcs ghost) free
  block : ∀ qe, Used (roles pcs) ghost qe → qs.pool.fs.data (feOf qe) = some qe
  stored : ∀ qe, Used (roles pcs) ghost qe →
    (∀ thread fe, (pcs thread).fresh ≠ some (fe, qe)) → qs.fe qe = feOf qe
  fresh : ∀ thread fe qe, (pcs thread).fresh = some (fe, qe) → feOf qe = fe
  seen : ∀ thread, Seen qs (pcs thread)

namespace QueueInv

variable {qs after : QueueState Value} {pcs : Tid → QueuePc Value}
  {ghost changed : Ghost Tid Addr} {feOf : Addr → Addr}
  {free : List (Addr × Nat)} {tid : Tid} {old pc : QueuePc Value}

/-- Different elements in use have different freelist elements. -/
theorem feOf_injective (inv : QueueInv qs pcs ghost feOf free)
    {left right : Addr} (isLeft : Used (roles pcs) ghost left)
    (isRight : Used (roles pcs) ghost right)
    (same : feOf left = feOf right) : left = right := by
  have leftBlock := inv.block left isLeft
  rw [same, inv.block right isRight] at leftBlock
  exact (Option.some.inj leftBlock).symm

variable {qe : Addr}

/-- An element whose `fe` has not been stored is in the hands of its
thread. -/
theorem fresh_used (inv : QueueInv qs pcs ghost feOf free) {fe : Addr}
    (isFresh : (pcs tid).fresh = some (fe, qe)) :
    Used (roles pcs) ghost qe := by
  rcases role_of_fresh isFresh with held | own
  · exact .inr ⟨tid, held⟩
  · exact inv.shape.own_used own

variable [DecidableEq Tid]

theorem roles_update : roles (update pcs tid pc) =
      update (roles pcs) tid pc.role :=
  field_update QueuePc.role pcs tid pc

section

variable (inv : QueueInv qs pcs ghost feOf free)

include inv

/-- A step that changes neither the freelist nor the elements in use. -/
theorem keep (here : pcs tid = old) (shape : Shape after.memory
      (update (roles pcs) tid pc.role) changed)
    (later : Later qs.memory after.memory (ghost.chains none)
      (changed.chains none))
    (used : ∀ qe, Used (update (roles pcs) tid pc.role) changed
      qe ↔ Used (roles pcs) ghost qe)
    (pool : after.pool = qs.pool) (fe : after.fe = qs.fe)
    (samePc : pc.freelistPc = old.freelistPc)
    (sameFresh : pc.fresh = old.fresh)
    (sameData : ∀ qe ∈ (ghost.chains none).tail, after.data qe = qs.data qe)
    (seen : Seen after pc) :
    QueueInv after (update pcs tid pc) changed feOf free := by
  subst here
  have freshSame := project_update QueuePc.fresh sameFresh
  have sameElements : elements feOf (update pcs tid pc) changed =
      elements feOf pcs ghost := by
    simp only [elements, roles_update, used]
  constructor
  case shape =>
    rw [roles_update]
    exact shape
  case pool =>
    rw [sameElements, pool]
    simpa only [project_update QueuePc.freelistPc samePc] using inv.pool
  case block =>
    intro qe
    rw [roles_update, used, pool]
    exact inv.block qe
  case stored =>
    intro qe
    rw [roles_update, used, fe]
    simp only [freshSame]
    exact inv.stored qe
  case fresh =>
    intro other feOther qe
    rw [freshSame]
    exact inv.fresh other feOther qe
  case seen =>
    apply forall_update _ seen
    intro other _
    exact (inv.seen other).later inv.shape shape later sameData

section

variable (pc : QueuePc Value) (here : pcs tid = old)
  (same : pc.stance = old.stance)

include here same

/-- A step that stores no link and moves no end of the queue. -/
theorem move (after : QueueState Value) (memory : after.memory = qs.memory)
    (target : ∀ qe, pc.role.target = some qe → qe ∈ ghost.chains none)
    (pool : after.pool = qs.pool) (fe : after.fe = qs.fe)
    (sameData : ∀ qe ∈ (ghost.chains none).tail, after.data qe = qs.data qe)
    (seen : Seen after pc) :
    QueueInv after (update pcs tid pc) ghost feOf free := by
  subst here
  simp only [QueuePc.stance, Prod.mk.injEq] at same
  rcases same with ⟨own, held, samePc, sameFresh⟩
  apply inv.keep rfl _ _ _ pool fe samePc sameFresh sameData seen
  · rw [memory]
    exact inv.shape.move own (.inr held)
      fun qe isTarget => .inl (target qe isTarget)
  · rw [memory]
    exact Later.refl _ _
  · exact fun qe => Shape.used_move held

variable (target : pc.role.target = none)

include target

theorem load (seen : Seen qs pc) :
    QueueInv qs (update pcs tid pc) ghost feOf free := by
  apply inv.move pc here same qs rfl _ rfl rfl
    (fun _ _ => rfl) seen
  intro qe isTarget
  rw [target] at isTarget
  cases isTarget

theorem swing {enqueue : Word} (next : NextSeen qs.memory enqueue (some qe))
    (seen : ∀ after : QueueState Value, Seen after pc) :
    QueueInv (qs.swingEnqueue (some qe) enqueue)
      (update pcs tid pc) ghost feOf free := by
  by_cases equal : qs.enqueue = enqueue
  · subst here
    simp only [QueuePc.stance, Prod.mk.injEq] at same
    rcases same with ⟨own, held, samePc, sameFresh⟩
    rcases inv.shape.tail with ⟨last, mem, isLast⟩
    have pointer : enqueue.pointer = some last := by
      rw [← equal]
      exact isLast
    have link := next last qe equal pointer rfl
    have memory : (qs.swingEnqueue (some qe) enqueue).memory =
        { qs.memory with
          enqueue := ⟨some qe, enqueue.counter + elementSize⟩ } := by
      simp only [QueueState.memory, QueueState.swingEnqueue,
        abstractionDcas, if_pos equal]
    refine inv.keep rfl ?_ ?_ ?_ rfl rfl samePc sameFresh
      (fun _ _ => rfl) (seen _)
    · rw [memory]
      apply (inv.shape.swing isLast link).move own (.inr held)
      intro cell isTarget
      rw [target] at isTarget
      cases isTarget
    · rw [memory]
      apply inv.shape.later_swing isLast link
      change qs.enqueue.counter < _
      rw [equal]
      exact Nat.lt_add_of_pos_right (by decide)
    · exact fun each => Shape.used_move held
  · have kept : qs.swingEnqueue (some qe) enqueue = qs := by
      simp only [QueueState.swingEnqueue, abstractionDcas, if_neg equal]
    rw [kept]
    exact inv.load pc here same target (seen qs)

end

/-! ## Steps inside the freelist -/

section

variable (pc : QueuePc Value) (here : pcs tid = old)
  (wasAway : old.role = .away) (away : pc.role = .away)
  (noFresh : old.fresh = none) (sameFresh : pc.fresh = none) (seen : Seen qs pc)

include here wasAway away noFresh sameFresh seen

theorem poolKeep {pool : PoolState} {freeAfter : List (Addr × Nat)}
    (kept : PoolInv pool (update (fun other => (pcs other).freelistPc) tid
        pc.freelistPc) (elements feOf pcs ghost) freeAfter)
    (data : ∀ fe ∈ elements feOf pcs ghost,
      pool.fs.data fe = qs.pool.fs.data fe) :
    QueueInv { qs with pool := pool } (update pcs tid pc) ghost
      feOf freeAfter := by
  subst here
  have rolesSame : roles (update pcs tid pc) = roles pcs := by
    rw [roles_update, away, ← wasAway]
    exact update_eq_self tid (roles pcs)
  have freshSame := project_update QueuePc.fresh (sameFresh.trans noFresh.symm)
  constructor
  case shape =>
    rw [rolesSame]
    exact inv.shape
  case pool =>
    rw [field_update QueuePc.freelistPc, elements, rolesSame]
    exact kept
  case block =>
    intro qe
    rw [rolesSame]
    intro used
    exact (data _ ⟨qe, used, rfl⟩).trans (inv.block qe used)
  case stored =>
    intro qe
    rw [rolesSame]
    simp only [freshSame]
    exact inv.stored qe
  case fresh =>
    intro other fe qe
    rw [freshSame]
    exact inv.fresh other fe qe
  case seen =>
    apply forall_update _ seen
    intro other _
    exact inv.seen other

theorem poolMove {pool : PoolState} {action : FreelistAction}
    (step : poolStep action qs.pool old.freelistPc =
      some (pool, pc.freelistPc)) :
    ∃ freeAfter, QueueInv { qs with pool := pool }
      (update pcs tid pc) ghost feOf freeAfter := by
  subst here
  rcases inv.pool.step step with ⟨freeAfter, kept⟩
  refine ⟨freeAfter,
    inv.poolKeep pc rfl wasAway away noFresh sameFresh seen kept ?_⟩
  intro fe mem
  apply poolStep_data step
  exact inv.pool.freelist.outsideNotHeld fe mem tid

/-- A call of a freelist function, or its return without an element. -/
theorem poolOuter (poolHere : old.freelistPc.access = .away)
    (poolAway : pc.freelistPc.access = .away)
    (localOk : LocalOk qs.pool.fs pc.freelistPc) :
    QueueInv qs (update pcs tid pc) ghost feOf free := by
  subst here
  exact inv.poolKeep pc rfl wasAway away noFresh sameFresh seen
    (inv.pool.move poolHere poolAway localOk) fun _ _ => rfl

end

/-- A new element comes out of the freelist and its block is looked up. -/
theorem acquire {data : Value} {fe : Addr}
    (here : pcs tid = .newElement data (.popReturn (some fe)))
    (block : qs.pool.fs.data fe = some qe) :
    QueueInv qs (update pcs tid (.initIncrement fe qe data))
      ghost (update feOf qe fe) free := by
  have freelistPc : (pcs tid).freelistPc = .popReturn (some fe) :=
    congrArg QueuePc.freelistPc here
  have away : roles pcs tid = .away := congrArg QueuePc.role here
  have held : (pcs tid).freelistPc.inHand = some fe := by
    rw [freelistPc]
    rfl
  have unused : ¬ Used (roles pcs) ghost qe := by
    intro used
    have outside : feOf qe ∈ elements feOf pcs ghost := ⟨qe, used, rfl⟩
    have same := inv.pool.injective (feOf qe) fe qe
      (inv.pool.ready_of_outside outside)
      (inv.pool.ready_of_popReturn freelistPc) (inv.block qe used) block
    rw [same] at outside
    exact inv.pool.freelist.inHand_not_outside held outside
  have used : ∀ each, Used (roles (update pcs tid
      (.initIncrement fe qe data))) ghost each ↔
      Used (roles pcs) ghost each ∨ each = qe := by
    intro each
    rw [roles_update]
    exact Shape.used_hold (by rw [away]; rfl)
  have ne : ∀ {each}, Used (roles pcs) ghost each → each ≠ qe := by
    rintro each isUsed rfl
    exact unused isUsed
  constructor
  case shape =>
    rw [roles_update]
    exact inv.shape.hold (by rw [away]; rfl) unused
  case pool =>
    have grown : elements (update feOf qe fe)
        (update pcs tid (.initIncrement fe qe data)) ghost =
        insert fe (elements feOf pcs ghost) := by
      ext each
      simp only [elements, used, Set.mem_ofPred_eq, Set.mem_insert_iff]
      constructor
      · rintro ⟨cell, isUsed | rfl, same⟩
        · rw [update_of_ne (ne isUsed)] at same
          exact .inr ⟨cell, isUsed, same⟩
        · rw [update_self] at same
          exact .inl same.symm
      · rintro (rfl | ⟨cell, isUsed, same⟩)
        · exact ⟨qe, .inr rfl, update_self _ _ _⟩
        · refine ⟨cell, .inl isUsed, ?_⟩
          rw [update_of_ne (ne isUsed)]
          exact same
    rw [grown, field_update QueuePc.freelistPc]
    exact inv.pool.give freelistPc
  case block =>
    intro each isUsed
    rcases (used each).1 isUsed with before | rfl
    · rw [update_of_ne (ne before)]
      exact inv.block each before
    · rw [update_self]
      exact block
  case stored =>
    intro each isUsed notFresh
    have notOwn : each ≠ qe := by
      rintro rfl
      exact notFresh tid fe (by rw [update_self]; rfl)
    rw [update_of_ne notOwn]
    apply inv.stored each (((used each).1 isUsed).resolve_right notOwn)
    intro other feOther isFresh
    apply notFresh other feOther
    rw [update_of_ne]
    · exact isFresh
    · rintro rfl
      rw [here] at isFresh
      cases isFresh
  case fresh =>
    intro other feOther each isFresh
    rcases update_cases
      (fun state : QueuePc Value => state.fresh = some (feOther, each))
      isFresh with ⟨-, own⟩ | ⟨-, before⟩
    · cases own
      exact update_self _ _ _
    · rw [update_of_ne (ne (inv.fresh_used before))]
      exact inv.fresh other feOther each before
  case seen =>
    exact forall_update _ trivial fun other _ => inv.seen other

theorem release {data : Value} (here : pcs tid = .deqReadFe qe data) :
    QueueInv qs (update pcs tid
        (.deqFreelistPush data (.pushIncrement none (qs.fe qe))))
      ghost feOf free := by
  have isHeld : (roles pcs tid).held = some qe := by rw [roles, here]; rfl
  have isUsed : Used (roles pcs) ghost qe := .inr ⟨tid, isHeld⟩
  have notFresh : ∀ other fe, (pcs other).fresh ≠ some (fe, qe) := by
    intro other fe isFresh
    rcases role_of_fresh isFresh with otherHeld | own
    · have same := inv.shape.heldOnce otherHeld isHeld
      subst same
      rw [here] at isFresh
      cases isFresh
    · rcases inv.shape.own_chain own with ⟨rest, chain⟩
      exact inv.shape.held isHeld (some other) (by simp [chain])
  have feEq : qs.fe qe = feOf qe := inv.stored qe isUsed notFresh
  have used : ∀ each, Used (roles (update pcs tid
      (.deqFreelistPush data (.pushIncrement none (qs.fe qe))))) ghost each ↔
      Used (roles pcs) ghost each ∧ each ≠ qe := by
    intro each
    rw [roles_update]
    exact inv.shape.used_release isHeld rfl
  have freshSame : ∀ other, (update pcs tid
      (.deqFreelistPush data (.pushIncrement none (qs.fe qe)))
        other).fresh = (pcs other).fresh := by
    exact project_update _ (congrArg QueuePc.fresh here).symm
  constructor
  case shape =>
    rw [roles_update]
    apply inv.shape.move _ (.inl rfl)
    · simp [QueuePc.role, Role.target]
    · rw [roles, here]
      rfl
  case pool =>
    have shrunk : elements feOf (update pcs tid
        (.deqFreelistPush data (.pushIncrement none (qs.fe qe)))) ghost =
        elements feOf pcs ghost \ {qs.fe qe} := by
      ext each
      simp only [elements, used, Set.mem_ofPred_eq, Set.mem_sdiff,
        Set.mem_singleton_iff]
      constructor
      · rintro ⟨cell, ⟨cellUsed, notCell⟩, rfl⟩
        refine ⟨⟨cell, cellUsed, rfl⟩, ?_⟩
        rw [feEq]
        exact fun same => notCell (inv.feOf_injective cellUsed isUsed same)
      · rintro ⟨⟨cell, cellUsed, rfl⟩, notFe⟩
        refine ⟨cell, ⟨cellUsed, ?_⟩, rfl⟩
        rintro rfl
        exact notFe feEq.symm
    rw [shrunk, field_update QueuePc.freelistPc]
    exact inv.pool.take ⟨qe, isUsed, feEq.symm⟩
      (congrArg QueuePc.freelistPc here)
  case block =>
    intro each isUsedAfter
    exact inv.block each ((used each).1 isUsedAfter).1
  case stored =>
    intro each isUsedAfter
    simp only [freshSame]
    exact inv.stored each ((used each).1 isUsedAfter).1
  case fresh =>
    intro other fe each
    rw [freshSame]
    exact inv.fresh other fe each
  case seen =>
    exact forall_update _ trivial fun other _ => inv.seen other

end

/-! ## Steps that store a link or move an end of the queue -/

theorem memory_storeNextPointer (qs : QueueState Value) (qe : Addr)
    (pointer : Ptr) :
    (qs.storeNextPointer qe pointer).memory =
      { qs.memory with
        next := update qs.memory.next qe pointer } := by
  simp only [QueueState.memory, QueueState.storeNextPointer]
  rw [field_update Pac.pointer]

theorem memory_storeNextCounter (qs : QueueState Value) (qe : Addr)
    (counter : Nat) :
    (qs.storeNextCounter qe counter).memory = qs.memory := by
  simp only [QueueState.memory, QueueState.storeNextCounter]
  rw [field_update Pac.pointer, update_eq_self]

/-- The chains after an element has been made to end at null. -/
def readyGhost (ghost : Ghost Tid Addr) (thread : Tid) (qe : Addr) :
    Ghost Tid Addr where
  chains := update ghost.chains (some thread) [qe]
  born := update ghost.born thread (ghost.now + 1)
  now := ghost.now + 1

variable (inv : QueueInv qs pcs ghost feOf free)

include inv

theorem ready {fe : Addr} {data : Value}
    (here : pcs tid = .initNextPointer fe qe data) :
    QueueInv (qs.storeNextPointer qe none)
      (update pcs tid (.initCounter fe qe data))
      (readyGhost ghost tid qe) feOf free := by
  have holding : roles pcs tid = .holding qe := congrArg QueuePc.role here
  have queue : (readyGhost ghost tid qe).chains none = ghost.chains none := by
    simp [readyGhost]
  refine inv.keep here ?_ ?_ ?_ rfl rfl rfl rfl (fun _ _ => rfl) trivial
  · rw [memory_storeNextPointer]
    exact inv.shape.ready holding
  · rw [memory_storeNextPointer, queue]
    exact inv.shape.later_ready holding
  · exact fun each => inv.shape.used_ready holding

/-- The store of the `fe` field of the element in hand. -/
theorem storeFe {fe : Addr} {data : Value}
    (here : pcs tid = .initFe fe qe data) :
    QueueInv { qs with fe := update qs.fe qe fe }
      (update pcs tid (.initData qe data)) ghost feOf free := by
  have isFresh : (pcs tid).fresh = some (fe, qe) :=
    congrArg QueuePc.fresh here
  have rolesSame : roles (update pcs tid (.initData qe data)) = roles pcs := by
    have same : roles pcs tid = .ready qe := congrArg QueuePc.role here
    rw [roles_update, QueuePc.role, ← same, update_eq_self]
  have others : ∀ {other feOther each},
      (update pcs tid (.initData qe data) other).fresh = some (feOther, each) →
        other ≠ tid ∧ (pcs other).fresh = some (feOther, each) := by
    intro other feOther each fresh
    rcases update_cases
      (fun state : QueuePc Value => state.fresh = some (feOther, each))
      fresh with ⟨-, own⟩ | before
    · cases own
    · exact before
  constructor
  case shape =>
    rw [rolesSame]
    exact inv.shape
  case pool =>
    have samePc := project_update QueuePc.freelistPc
      (show (QueuePc.initData qe data).freelistPc = _ from
        (congrArg QueuePc.freelistPc here).symm)
    rw [elements, rolesSame]
    change PoolInv qs.pool _ (elements feOf pcs ghost) free
    simpa only [samePc] using inv.pool
  case block =>
    rw [rolesSame]
    exact inv.block
  case stored =>
    intro each
    rw [rolesSame]
    intro used notFresh
    by_cases same : each = qe
    · subst same
      change update qs.fe each fe each = feOf each
      rw [update_self]
      exact (inv.fresh tid fe each isFresh).symm
    · change update qs.fe qe fe each = feOf each
      rw [update_of_ne same]
      apply inv.stored each used
      intro other feOther before
      apply notFresh other feOther
      rw [update_of_ne]
      · exact before
      · rintro rfl
        rw [isFresh] at before
        cases before
        exact same rfl
  case fresh =>
    intro other feOther each fresh
    exact inv.fresh other feOther each (others fresh).2
  case seen =>
    exact forall_update _ trivial fun other _ => inv.seen other

theorem link {last : Addr} {enqueue next : Word}
    (here : pcs tid = .enqLink qe enqueue next)
    (pointer : enqueue.pointer = some last) (success : qs.next last = next) :
    ∃ owner, owner ≠ some tid ∧ last ∈ ghost.chains owner ∧ QueueInv
        { qs with
          next := update qs.next last ⟨some qe, next.counter + elementSize⟩ }
        (update pcs tid (.enqSwing qe enqueue))
        (ghost.append owner tid) feOf free := by
  have seen := inv.seen tid
  rw [here] at seen
  have linking : roles pcs tid = .linking qe last := by
    simp only [roles, here, QueuePc.role, pointer]
  have ends : qs.memory.next last = none := by
    change (qs.next last).pointer = none
    rw [success]
    exact seen.2
  have memory : QueueState.memory
      { qs with
        next := update qs.next last ⟨some qe, next.counter + elementSize⟩ } =
      { qs.memory with
        next := update qs.memory.next last (some qe) } := by
    simp only [QueueState.memory]
    rw [field_update Pac.pointer]
  rcases inv.shape.link linking ends with
    ⟨owner, ne, mem, shape⟩
  refine ⟨owner, ne, mem, ?_⟩
  refine inv.keep here ?_ ?_ ?_ rfl rfl rfl rfl (fun _ _ => rfl) ?_
  · rw [memory]
    exact shape
  · rw [memory]
    exact Shape.later_link ends
  · intro each
    exact Shape.used_link ne (by rw [linking]; rfl)
  · refine ⟨seen.1, ?_⟩
    intro cell following _ isCell isNext
    rw [pointer] at isCell
    cases isCell
    cases isNext
    rw [memory]
    simp

/-- The compare-and-swap that takes the first element out of the queue. -/
theorem take {dequeue next : Word} {data : Value} {first : Addr}
    (here : pcs tid = .deqDcas dequeue next data)
    (pointer : dequeue.pointer = some first) (success : qs.dequeue = dequeue) :
    ∃ qe rest, next.pointer = some qe ∧
      ghost.chains none = first :: qe :: rest ∧ data = qs.data qe ∧
      QueueInv
        { qs with
          dequeue := ⟨next.pointer, dequeue.counter + elementSize⟩ }
        (update pcs tid (.deqReadFe first data)) ghost.drop
        feOf free := by
  have seen := inv.seen tid
  rw [here] at seen
  rcases seen with ⟨seen, loaded⟩
  rcases seen.behind with ⟨tail, ne, behind, second⟩
  rcases second success ne with
    ⟨head, qe, isHead, isNext, link⟩
  rw [pointer] at isHead
  cases isHead
  have isFirst : qs.memory.dequeue.pointer = some first := by
    change qs.dequeue.pointer = some first
    rw [success, pointer]
  have away : roles pcs tid = .away := congrArg QueuePc.role here
  rcases inv.shape.second isFirst link with ⟨rest, queue⟩
  refine ⟨qe, rest, isNext, queue, loaded qe success isNext, ?_⟩
  rw [isNext]
  refine inv.keep here ?_ ?_ ?_ rfl rfl rfl rfl (fun _ _ => rfl) trivial
  · exact inv.shape.advance away isFirst link (behind success ne)
  · apply Shape.later_advance
    change qs.dequeue.counter < _
    rw [success]
    exact Nat.lt_add_of_pos_right (by decide)
  · intro each
    exact inv.shape.used_advance isFirst (by rw [away]; rfl)

end QueueInv

end Lockfreec.Basic.Queue
