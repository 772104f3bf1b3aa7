import Lockfreec.Basic.QueueInvariant

/-!
# The steps of the queue

Every step inside a queue function keeps the queue invariant.  Two kinds of
steps change what the chains store: the compare-and-swap that links an
element, and the one that takes the first element out of the queue.
-/

namespace Lockfreec.Basic.Queue

open Function
open Basic.ElementPool Basic.Freelist Lib.Chain Lib.Interleaving Lib.LinkedQueue

variable {Value Tid : Type} [DecidableEq Tid]

/-- What a step between two program points does to the chains. -/
inductive QueueEffect (qs after : QueueState Value) (thread : Tid)
    (ghost changed : Ghost Tid Addr) :
    QueuePc Value → QueuePc Value → Prop where
  | keep {old pc : QueuePc Value}
      (tails : ∀ owner, (changed.chains owner).tail = (ghost.chains owner).tail)
      (data : ∀ qe, old.role.own ≠ some qe → after.data qe = qs.data qe)
      (notLinked : ∀ qe enqueue, pc ≠ .enqSwing qe enqueue)
      (notTaken : ∀ qe data, pc ≠ .deqReadFe qe data) :
      QueueEffect qs after thread ghost changed old pc
  | link {qe last : Addr} {enqueue next : Word} {owner : Option Tid}
      (pointer : enqueue.pointer = some last)
      (success : qs.next last = next)
      (different : owner ≠ some thread)
      (member : last ∈ ghost.chains owner)
      (appended : changed = ghost.append owner thread)
      (data : after.data = qs.data) :
      QueueEffect qs after thread ghost changed
        (.enqLink qe enqueue next) (.enqSwing qe enqueue)
  | take {first qe : Addr} {rest : List Addr} {dequeue next : Word}
      (queue : ghost.chains none = first :: qe :: rest)
      (dropped : changed = ghost.drop)
      (data : after.data = qs.data) :
      QueueEffect qs after thread ghost changed
        (.deqDcas dequeue next (qs.data qe))
        (.deqReadFe first (qs.data qe))

namespace QueueInv

variable {qs after : QueueState Value} {pcs : Tid → QueuePc Value}
  {ghost : Ghost Tid Addr} {feOf : Addr → Addr} {free : List (Addr × Nat)}
  {tid : Tid} {old pc : QueuePc Value} {action : FreelistAction}

/-- A step after which the invariant holds, with its effect. -/
def Steps (qs after : QueueState Value) (pcs : Tid → QueuePc Value)
    (ghost : Ghost Tid Addr) (thread : Tid) (pc : QueuePc Value) : Prop :=
  ∃ changed feOf free,
    QueueEffect qs after thread ghost changed (pcs thread) pc ∧
      QueueInv after (update pcs thread pc) changed feOf free

theorem steps_keep (kept : QueueInv after (update pcs tid pc) ghost feOf free)
    (data : ∀ qe, (pcs tid).role.own ≠ some qe → after.data qe = qs.data qe)
    (quiet : pc.commits = false) : Steps qs after pcs ghost tid pc := by
  refine ⟨ghost, feOf, free, .keep (fun _ => rfl) data ?_ ?_, kept⟩
  all_goals
    rintro _ _ rfl
    cases quiet

variable (inv : QueueInv qs pcs ghost feOf free)

include inv

/-- A step that only loads, and neither links nor takes an element. -/
theorem loads (here : pcs tid = old) (seen : Seen qs pc)
    (same : pc.stance = old.stance)
    (quiet : (pc.role.target, pc.commits) = (none, false)) :
    Steps qs qs pcs ghost tid pc := by
  rw [Prod.mk.injEq] at quiet
  exact steps_keep (inv.load pc here same quiet.1 seen) (fun _ _ => rfl) quiet.2

theorem newStep_steps (step : newStep action qs (pcs tid) = some (after, pc)) :
    Steps qs after pcs ghost tid pc := by
  generalize here : pcs tid = old at step
  cases old with
  | newElement data freelistPc =>
    rcases newStep_cases step with ⟨pool, next, moved, rfl, rfl⟩ |
      ⟨rfl, rfl, rfl⟩ | ⟨fe, qe, rfl, block, rfl, rfl⟩
    · rcases inv.poolMove (.newElement data next) here rfl rfl rfl rfl trivial
        moved with ⟨freeAfter, kept⟩
      exact steps_keep kept (fun _ _ => rfl) rfl
    · have kept := inv.poolOuter (.enqReturn false) here rfl rfl rfl rfl
        trivial rfl rfl trivial
      exact steps_keep kept (fun _ _ => rfl) rfl
    · exact steps_keep (inv.acquire here block) (fun _ _ => rfl) rfl
  | initIncrement fe qe data =>
    cases step
    have kept := inv.move (.initNextPointer fe qe data) here rfl
      { qs with abaCount := qs.abaCount + 1 } rfl (by rintro _ ⟨⟩) rfl rfl
      (fun _ _ => rfl) trivial
    exact steps_keep kept (fun _ _ => rfl) rfl
  | initNextPointer fe qe data =>
    cases step
    have noTail : (ghost.chains (some tid)).tail = [] := by
      rw [inv.shape.no_chain (by rw [roles, here]; rfl)]
      rfl
    refine ⟨readyGhost ghost tid qe, feOf, free, ?_, inv.ready here⟩
    refine .keep ?_ (fun _ _ => rfl) (by simp) (by simp)
    intro owner
    by_cases isThread : owner = some tid
    · subst isThread
      simp [readyGhost, noTail]
    · simp [readyGhost, isThread]
  | initCounter fe qe data =>
    cases step
    have kept := inv.move (.initNextCounter fe qe (qs.abaCount + 1) data) here
      rfl { qs with abaCount := qs.abaCount + 1 } rfl (by rintro _ ⟨⟩) rfl rfl
      (fun _ _ => rfl) trivial
    exact steps_keep kept (fun _ _ => rfl) rfl
  | initNextCounter fe qe counter data =>
    cases step
    have kept := inv.move (.initFe fe qe data) here rfl _
      (memory_storeNextCounter qs qe counter) (by rintro _ ⟨⟩) rfl rfl
      (fun _ _ => rfl) trivial
    exact steps_keep kept (fun _ _ => rfl) rfl
  | initFe fe qe data =>
    cases step
    exact steps_keep (inv.storeFe here) (fun _ _ => rfl) rfl
  | initData qe data =>
    cases step
    have notOwn : ∀ {each}, each ≠ qe →
        update qs.data qe data each = qs.data each :=
      fun ne => update_of_ne ne _ _
    have own : (roles pcs tid).own = some qe := by rw [roles, here]; rfl
    have kept := inv.move (.enqReadPointer qe) here rfl
      { qs with data := update qs.data qe data } rfl (by rintro _ ⟨⟩) rfl rfl (by
        intro each inQueue
        apply notOwn
        rintro rfl
        exact inv.shape.stored_not_start ⟨none, inQueue⟩ (some tid) own) trivial
    refine steps_keep kept ?_ rfl
    intro each ne
    apply notOwn
    rintro rfl
    exact ne own
  | _ => cases step

/-- Confirming the enqueue end leads to a link behind a queue element. -/
theorem enqDecide_steps {qe : Addr} {enqueue next : Word}
    (here : pcs tid = .enqTestCounter qe enqueue next)
    (counter : qs.enqueue.counter = enqueue.counter) :
    Steps qs qs pcs ghost tid (enqDecide qe enqueue next) := by
  have seen := inv.seen tid
  rw [here] at seen
  rcases seen with ⟨bound, loaded, pinned⟩
  have pointer : qs.enqueue.pointer = enqueue.pointer := pinned counter
  cases isNext : next.pointer with
  | none =>
    have decided : (enqDecide qe enqueue next : QueuePc Value) =
        .enqLink qe enqueue next := by
      simp only [enqDecide, isNext]
    rw [decided]
    rcases inv.shape.tail with ⟨last, inQueue, isLast⟩
    change qs.enqueue.pointer = some last at isLast
    have role : (QueuePc.enqLink qe enqueue next : QueuePc Value).role =
        .linking qe last := by
      simp only [QueuePc.role, ← pointer, isLast]
    have kept := inv.move (.enqLink qe enqueue next) here
      (by simp only [QueuePc.stance, role]; rfl) qs rfl
      (by
        intro each isTarget
        rw [role] at isTarget
        cases isTarget
        exact inQueue)
      rfl rfl (fun _ _ => rfl) ⟨bound, isNext⟩
    exact steps_keep kept (fun _ _ => rfl) rfl
  | some following =>
    have decided : (enqDecide qe enqueue next : QueuePc Value) =
        .enqHelp qe enqueue next := by
      simp only [enqDecide, isNext]
    rw [decided]
    exact inv.loads here ⟨bound, loaded, by rw [isNext]; simp⟩ rfl rfl

theorem enqStep_steps (step : enqStep qs (pcs tid) = some (after, pc)) :
    Steps qs after pcs ghost tid pc := by
  generalize here : pcs tid = old at step
  have seen := inv.seen tid
  rw [here] at seen
  cases old with
  | enqReadPointer qe =>
    cases step
    exact inv.loads here trivial rfl rfl
  | enqReadCounter qe pointer =>
    cases step
    exact inv.loads here (Nat.le_refl _) rfl rfl
  | enqReadNextPointer qe enqueue =>
    simp only [enqStep, Option.map_eq_some_iff] at step
    rcases step with ⟨last, pointer, same⟩
    cases same
    exact inv.loads here (by
        refine ⟨seen, ?_⟩
        intro cell following _ isCell isNext
        rw [pointer] at isCell
        cases isCell
        exact isNext) rfl rfl
  | enqReadNextCounter qe enqueue nextPointer =>
    simp only [enqStep, Option.map_eq_some_iff] at step
    rcases step with ⟨last, pointer, same⟩
    cases same
    exact inv.loads here seen rfl rfl
  | enqTestPointer qe enqueue next =>
    cases step
    split
    · next pointer =>
        exact inv.loads here ⟨seen.1, seen.2, fun _ => pointer⟩ rfl rfl
    · exact inv.loads here trivial rfl rfl
  | enqTestCounter qe enqueue next =>
    cases step
    split
    · next counter => exact inv.enqDecide_steps here counter
    · exact inv.loads here trivial rfl rfl
  | enqLink qe enqueue next =>
    simp only [enqStep, Option.map_eq_some_iff, Prod.mk.injEq] at step
    rcases step with ⟨last, pointer, rfl, rfl⟩
    by_cases success : qs.next last = next
    · rcases inv.link here pointer success with
        ⟨owner, ne, mem, kept⟩
      simp only [abstractionDcas, if_pos success]
      refine ⟨_, feOf, free, ?_, kept⟩
      rw [here]
      exact .link pointer success ne mem rfl rfl
    · simp only [abstractionDcas, if_neg success, update_eq_self]
      have role : (QueuePc.enqLink qe enqueue next : QueuePc Value).role =
          .linking qe last := by
        simp only [QueuePc.role, pointer]
      exact inv.loads here trivial (by simp only [QueuePc.stance, role]; rfl)
        rfl
  | enqHelp qe enqueue next =>
    cases step
    rcases seen with ⟨-, loaded, notNull⟩
    rcases Option.ne_none_iff_exists'.1 notNull with ⟨following, isNext⟩
    rw [isNext] at loaded ⊢
    have kept := inv.swing (.enqReadPointer qe) here rfl rfl loaded
      fun _ => trivial
    exact steps_keep kept (fun _ _ => rfl) rfl
  | enqSwing qe enqueue =>
    cases step
    have kept := inv.swing (.enqReturn true) here rfl rfl seen.2
      fun _ => trivial
    exact steps_keep kept (fun _ _ => rfl) rfl
  | _ => cases step

theorem deqDecide_steps {dequeue enqueue next : Word}
    (here : pcs tid = .deqTestCounter dequeue enqueue next) :
    Steps qs qs pcs ghost tid (deqDecide dequeue enqueue next) := by
  have seen := inv.seen tid
  rw [here] at seen
  rcases seen with ⟨seen, -⟩
  by_cases same : enqueue.pointer = dequeue.pointer
  · cases isNext : next.pointer with
    | none =>
      have decided : (deqDecide dequeue enqueue next : QueuePc Value) =
          .deqReturn none := by
        simp only [deqDecide, if_pos same, isNext]
      rw [decided]
      exact inv.loads here trivial rfl rfl
    | some following =>
      have decided : (deqDecide dequeue enqueue next : QueuePc Value) =
          .deqHelp enqueue next := by
        simp only [deqDecide, if_pos same, isNext]
      rw [decided]
      exact inv.loads here ⟨seen.enqueueBound, seen.help same, by simp [isNext]⟩
        rfl rfl
  · have decided : (deqDecide dequeue enqueue next : QueuePc Value) =
        .deqReadData dequeue next := by
      simp only [deqDecide, if_neg same]
    rw [decided]
    exact inv.loads here
      ⟨seen.dequeueBound, enqueue.pointer, same, seen.behind, seen.second⟩ rfl
      rfl

omit [DecidableEq Tid] in
/-- What a dequeue knows once it has loaded the link of the first element. -/
theorem dequeueSeen_load {dequeue enqueue : Word} {first : Addr}
    (pointer : dequeue.pointer = some first)
    (dequeueBound : dequeue.counter ≤ qs.dequeue.counter)
    (enqueueBound : enqueue.counter ≤ qs.enqueue.counter)
    (behind : BehindSeen qs.memory dequeue enqueue.pointer) :
    DequeueSeen qs.memory dequeue enqueue (qs.next first).pointer := by
  refine ⟨dequeueBound, enqueueBound, behind, ?_, ?_⟩
  · intro same ne
    have isFirst : qs.memory.dequeue.pointer = some first := by
      rw [same]
      exact pointer
    rcases inv.shape.exists_second isFirst (behind same ne) with
      ⟨following, link⟩
    exact ⟨first, following, pointer, link, link⟩
  · intro same cell following _ isCell isNext
    rw [same, pointer] at isCell
    cases isCell
    exact isNext

theorem deqStep_steps (step : deqStep action qs (pcs tid) = some (after, pc)) :
    Steps qs after pcs ghost tid pc := by
  generalize here : pcs tid = old at step
  have seen := inv.seen tid
  rw [here] at seen
  cases old with
  | deqReadPointer =>
    cases step
    exact inv.loads here trivial rfl rfl
  | deqReadCounter pointer =>
    cases step
    exact inv.loads here (Nat.le_refl _) rfl rfl
  | deqReadEnqPointer dequeue =>
    cases step
    have behind : BehindSeen qs.memory dequeue qs.enqueue.pointer := by
      intro same ne
      rw [same]
      exact ne
    exact inv.loads here ⟨seen, behind⟩ rfl rfl
  | deqReadEnqCounter dequeue pointer =>
    cases step
    exact inv.loads here ⟨seen.1, Nat.le_refl _, seen.2⟩ rfl rfl
  | deqReadNextPointer dequeue enqueue =>
    simp only [deqStep, Option.map_eq_some_iff] at step
    rcases step with ⟨first, pointer, same⟩
    cases same
    exact inv.loads here (inv.dequeueSeen_load pointer seen.1 seen.2.1 seen.2.2)
      rfl rfl
  | deqReadNextCounter dequeue enqueue nextPointer =>
    simp only [deqStep, Option.map_eq_some_iff] at step
    rcases step with ⟨first, pointer, same⟩
    cases same
    exact inv.loads here seen rfl rfl
  | deqTestPointer dequeue enqueue next =>
    cases step
    split
    · next pointer =>
        exact inv.loads here ⟨seen, fun _ => pointer.symm⟩ rfl rfl
    · exact inv.loads here trivial rfl rfl
  | deqTestCounter dequeue enqueue next =>
    cases step
    split
    · exact inv.deqDecide_steps here
    · exact inv.loads here trivial rfl rfl
  | deqHelp enqueue next =>
    cases step
    rcases seen with ⟨-, loaded, notNull⟩
    rcases Option.ne_none_iff_exists'.1 notNull with ⟨following, isNext⟩
    rw [isNext] at loaded ⊢
    have kept := inv.swing (.deqReadPointer) here rfl rfl loaded
      fun _ => trivial
    exact steps_keep kept (fun _ _ => rfl) rfl
  | deqReadData dequeue next =>
    simp only [deqStep, Option.map_eq_some_iff] at step
    rcases step with ⟨qe, pointer, same⟩
    cases same
    exact inv.loads here (by
        refine ⟨seen, ?_⟩
        intro each _ isNext
        rw [pointer] at isNext
        cases isNext
        rfl) rfl rfl
  | deqDcas dequeue next data =>
    simp only [deqStep, Option.map_eq_some_iff, Prod.mk.injEq] at step
    rcases step with ⟨first, pointer, rfl, rfl⟩
    by_cases success : qs.dequeue = dequeue
    · rcases inv.take here pointer success with
        ⟨qe, rest, -, queue, rfl, kept⟩
      simp only [abstractionDcas, if_pos success]
      refine ⟨_, feOf, free, ?_, kept⟩
      rw [here]
      exact .take queue rfl rfl
    · simp only [abstractionDcas, if_neg success]
      exact inv.loads here trivial rfl rfl
  | deqReadFe qe data =>
    cases step
    exact steps_keep (inv.release here) (fun _ _ => rfl) rfl
  | deqFreelistPush data freelistPc =>
    rcases deqStep_cases step with
      ⟨pool, next, moved, rfl, rfl⟩ | ⟨rfl, rfl, rfl⟩
    · rcases inv.poolMove (.deqFreelistPush data next) here rfl rfl rfl rfl
        trivial moved with ⟨freeAfter, kept⟩
      exact steps_keep kept (fun _ _ => rfl) rfl
    · have kept := inv.poolOuter (.deqReturn (some data)) here rfl rfl rfl rfl
        trivial rfl rfl trivial
      exact steps_keep kept (fun _ _ => rfl) rfl
  | _ => cases step

theorem step (stepped : queueStep action qs (pcs tid) = some (after, pc)) :
    Steps qs after pcs ghost tid pc := by
  cases new : newStep action qs (pcs tid) with
  | some result =>
    rw [queueStep, new] at stepped
    cases stepped
    exact inv.newStep_steps new
  | none =>
    cases enq : enqStep qs (pcs tid) with
    | some result =>
      rw [queueStep, new, enq] at stepped
      cases stepped
      exact inv.enqStep_steps enq
    | none =>
      rw [queueStep, new, enq] at stepped
      exact inv.deqStep_steps stepped

theorem outer (pc : QueuePc Value) (wasAway : (pcs tid).role = .away)
    (away : pc.role = .away) (noFresh : (pcs tid).fresh = none)
    (sameFresh : pc.fresh = none) (poolHere : (pcs tid).freelistPc = .idle)
    (poolAway : pc.freelistPc = .idle ∨ pc.freelistPc = .popReadCounter ∨
      pc.freelistPc = .newMalloc none)
    (seen : Seen qs pc) :
    QueueInv qs (update pcs tid pc) ghost feOf free := by
  apply inv.poolOuter pc rfl wasAway away noFresh sameFresh seen
    (by rw [poolHere]; rfl)
  · rcases poolAway with same | same | same <;> rw [same] <;> rfl
  · rcases poolAway with same | same | same <;> rw [same] <;> trivial

end QueueInv

/-! ## The new queue -/

/-- The chains of a queue with one element. -/
def newGhost (Tid : Type) (qe : Addr) : Ghost Tid Addr where
  chains := fun owner => if owner.isNone then [qe] else []
  born := fun _ => 0
  now := 0

section

omit [DecidableEq Tid]

theorem mem_newGhost {qe cell : Addr} {owner : Option Tid} :
    cell ∈ (newGhost Tid qe).chains owner ↔ owner = none ∧ cell = qe := by
  cases owner <;> simp [newGhost]

theorem used_new {qe cell : Addr} :
    Used (roles fun _ : Tid => (.idle : QueuePc Value)) (newGhost Tid qe)
      cell ↔ cell = qe := by
  constructor
  · rintro (⟨owner, mem⟩ | ⟨tid, isHeld⟩)
    · exact (mem_newGhost.1 mem).2
    · cases isHeld
  · rintro rfl
    exact .inl ⟨none, mem_newGhost.2 ⟨rfl, rfl⟩⟩

theorem shape_new {mem : Memory Addr} {qe : Addr}
    (enqueue : mem.enqueue.pointer = some qe)
    (dequeue : mem.dequeue.pointer = some qe) (next : mem.next qe = none) :
    Shape mem (roles fun _ : Tid => (.idle : QueuePc Value))
      (newGhost Tid qe) := by
  constructor
  case chain =>
    intro owner
    cases owner with
    | none => exact ⟨dequeue, next⟩
    | some tid => rfl
  case apart =>
    intro left right cell isLeft isRight
    rw [(mem_newGhost.1 isLeft).1, (mem_newGhost.1 isRight).1]
  case tail => exact ⟨qe, mem_newGhost.2 ⟨rfl, rfl⟩, enqueue⟩
  case held =>
    intro tid cell isHeld
    cases isHeld
  case heldOnce =>
    intro left right cell isHeld
    cases isHeld
  case older =>
    intro tid other cell isTarget
    cases isTarget
  case ended =>
    intro tid cell isTarget
    cases isTarget
  case past => exact fun _ => Nat.le_refl _

theorem QueueInv.new {poolNext : Addr → Word} {poolData : Addr → Ptr}
    {fe qe : Addr} {elements : List (Addr × Addr)} {next : Addr → Word}
    {fes : Addr → Addr} {data : Addr → Value} {abaCount : Nat} {null : Value}
    (distinct : (((fe, qe) :: elements).map Prod.fst).Nodup)
    (blocks : (((fe, qe) :: elements).map Prod.snd).Nodup) :
    ∃ free, QueueInv
      (queueNew poolNext poolData fe qe elements next fes data abaCount null)
      (fun _ : Tid => .idle) (newGhost Tid qe) (fun _ => fe) free := by
  have fresh : ∃ cells, cells.map Prod.fst = _ ∧
      PoolInv (poolNew poolNext poolData ((fe, qe) :: elements))
        (fun _ : Tid => .idle) ∅ cells := PoolInv.new Tid distinct blocks
  rcases fresh with ⟨cells, same, inv⟩
  cases cells with
  | nil => cases same
  | cons head free =>
    rcases head with ⟨first, tag⟩
    rw [List.map_cons, List.map_cons, List.cons.injEq] at same
    rcases same with ⟨rfl, -⟩
    refine ⟨free, ?_⟩
    constructor
    case shape =>
      apply shape_new rfl rfl
      simp [QueueState.memory, queueNew]
    case pool =>
      have outside : Queue.elements (fun _ => first)
          (fun _ : Tid => (.idle : QueuePc Value)) (newGhost Tid qe) =
          {first} := by
        ext each
        simp [Queue.elements, used_new, eq_comm]
      rw [outside]
      exact inv.popFirst
    case block =>
      intro each isUsed
      rw [used_new] at isUsed
      subst isUsed
      exact poolNew_data distinct (by simp)
    case stored =>
      intro each isUsed _
      rw [used_new] at isUsed
      subst isUsed
      simp [queueNew]
    case fresh =>
      intro tid feOther each isFresh
      cases isFresh
    case seen => exact fun _ => trivial

end

end Lockfreec.Basic.Queue
