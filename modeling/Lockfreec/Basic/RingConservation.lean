import Lockfreec.Basic.RingInvariant

/-!
# The ring buffer loses no element

Every step of a ring buffer function keeps the ring buffer invariant.  So the
result of `queue_enqueue` that `ringbuffer_put_write` ignores is always one,
and between calls every element is in the freelist, in the queue or with one
thread.
-/

namespace Lockfreec.Basic.RingBuffer

open Function
open Basic.ElementPool Basic.Freelist Basic.Queue Lib.Chain Lib.Interleaving
  Lib.LinkedQueue

/-! ## The element in flight -/

/-- The element in flight depends on the own queue element only. -/
theorem inFlight_congr {qs after : QueueState Addr} {pc : QueuePc Addr}
    (same : ∀ qe, pc.role.own = some qe → after.data qe = qs.data qe) :
    inFlight after pc = inFlight qs pc := by
  cases pc with
  | enqLink qe enqueue next =>
    simp only [inFlight]
    rw [same qe]
    rcases enqueue with ⟨_ | last, counter⟩ <;> rfl
  | _ => simp_all [inFlight, QueuePc.role, Role.own]

/-! ## Steps inside the queue -/

variable {Tid : Type} [DecidableEq Tid]

namespace RingInv

/-- The invariant after a step of one thread, for some chains and places. -/
def Steps (elements queueElements : List Addr) (after : RingState)
    (threads : Tid → RingThread) (tid : Tid) (state : RingThread) : Prop :=
  ∃ changed feAfter freeAfter cellsAfter moved,
    RingInv elements queueElements after (update threads tid state)
      changed feAfter freeAfter cellsAfter moved

variable {elements queueElements : List Addr} {rs after : RingState}
  {threads : Tid → RingThread} {ghost changed : Ghost Tid Addr}
  {feOf feAfter : Addr → Addr}
  {free freeAfter cells cellsAfter : List (Addr × Nat)}
  {place moved : Addr → Place Tid} {tid : Tid} {old state : RingThread}
  {held : List Addr} {argument : Addr}

variable (inv : RingInv elements queueElements rs threads ghost feOf free cells
  place)

include inv

theorem change (queue : QueueInv after.qs
      (update (fun other => (threads other).pc.queuePc) tid
        state.pc.queuePc) changed feAfter freeAfter)
    (freelist : FreelistInv after.fs
      (update (fun other => (threads other).pc.freelistPc) tid
        state.pc.freelistPc) { fe | moved fe ≠ .free } cellsAfter)
    (nodes : ∀ fe qe, moved fe = .node qe ↔
      Stored changed qe ∧ after.qs.data qe = fe)
    (own : ∀ fe, moved fe = .thread tid ↔ fe ∈ carried after.qs state)
    (others : ∀ fe other, other ≠ tid →
      (moved fe = .thread other ↔ place fe = .thread other))
    (sameInFlight : ∀ other, other ≠ tid →
      inFlight after.qs (threads other).pc.queuePc =
        inFlight rs.qs (threads other).pc.queuePc)
    (once : (carried after.qs state).Nodup) (callOk : CallOk state.pc)
    (allocated : after.fs.allocated = rs.fs.allocated)
    (queueAllocated : after.qs.pool.fs.allocated = rs.qs.pool.fs.allocated) :
    RingInv elements queueElements after (update threads tid state) changed
      feAfter freeAfter cellsAfter moved := by
  have sameCarried : ∀ other, other ≠ tid →
      carried after.qs (threads other) = carried rs.qs (threads other) := by
    intro other ne
    rw [carried, carried, sameInFlight other ne]
  constructor
  case queue =>
    rw [field_update fun thread : RingThread => thread.pc.queuePc]
    exact queue
  case freelist =>
    rw [field_update fun thread : RingThread => thread.pc.freelistPc]
    exact freelist
  case nodes => exact nodes
  case hands =>
    intro fe other
    by_cases same : other = tid
    · subst same
      rw [update_self]
      exact own fe
    · rw [update_of_ne same, others fe other same,
        inv.hands fe other, sameCarried other same]
  case once =>
    apply forall_update (fun thread => (carried after.qs thread).Nodup) once
    intro other ne
    rw [sameCarried other ne]
    exact inv.once other
  case calls =>
    exact forall_update (fun thread : RingThread => CallOk thread.pc) callOk
      fun other _ => inv.calls other
  case allocated =>
    intro fe
    rw [allocated]
    exact inv.allocated fe
  case queueAllocated =>
    intro fe
    rw [queueAllocated]
    exact inv.queueAllocated fe

section

variable (here : threads tid = old)

include here

theorem queueStill (queuePc : state.pc.queuePc = old.pc.queuePc) :
    QueueInv rs.qs (update (fun other => (threads other).pc.queuePc) tid
      state.pc.queuePc) ghost feOf free := by
  rw [queuePc, ← here, update_eq_self]
  exact inv.queue

/-- The invariant after a step with which one element changes its place. -/
theorem move {fe : Addr} {target : Place Tid} (queue : QueueInv after.qs
      (update (fun other => (threads other).pc.queuePc) tid
        state.pc.queuePc) changed feAfter freeAfter)
    (freelist : FreelistInv after.fs
      (update (fun other => (threads other).pc.freelistPc) tid
        state.pc.freelistPc) { each | update place fe target each ≠ .free }
      cellsAfter) (data : after.qs.data = rs.qs.data)
    (node : ∀ qe, target = .node qe ↔ Stored changed qe ∧ rs.qs.data qe = fe)
    (nodes : ∀ qe, rs.qs.data qe ≠ fe → (Stored changed qe ↔ Stored ghost qe))
    (own : target = .thread tid ↔ fe ∈ carried after.qs state)
    (carries : ∀ each, each ≠ fe →
      (each ∈ carried after.qs state ↔ each ∈ carried rs.qs old))
    (apart : ∀ other, other ≠ tid →
      (target = .thread other ↔ place fe = .thread other))
    (once : (carried after.qs state).Nodup) (callOk : CallOk state.pc)
    (allocated : after.fs.allocated = rs.fs.allocated)
    (queueAllocated : after.qs.pool.fs.allocated = rs.qs.pool.fs.allocated) :
    RingInv elements queueElements after (update threads tid state) changed
      feAfter freeAfter cellsAfter (update place fe target) := by
  refine inv.change queue freelist ?_ ?_ ?_ ?_ once callOk allocated
    queueAllocated
  · intro each qe
    rw [data]
    by_cases same : each = fe
    · rw [same, update_self]
      exact node qe
    · rw [update_of_ne same, inv.nodes each qe]
      refine and_congr_left fun isData => (nodes qe ?_).symm
      rw [isData]
      exact same
  · intro each
    by_cases same : each = fe
    · rw [same, update_self]
      exact own
    · rw [update_of_ne same, inv.hands each tid, here]
      exact (carries each same).symm
  · intro each other ne
    by_cases same : each = fe
    · rw [same, update_self]
      exact apart other ne
    · rw [update_of_ne same]
  · intro other _
    apply inFlight_congr
    intro qe _
    exact congrFun data qe

omit here [DecidableEq Tid] in
theorem own_apart {other : Tid} {qe : Addr} (ne : other ≠ tid)
    (isOwn : (threads other).pc.queuePc.role.own = some qe) :
    (threads tid).pc.queuePc.role.own ≠ some qe := by
  intro same
  have otherOwn : (roles (fun each => (threads each).pc.queuePc) other).own =
      some qe := isOwn
  have threadOwn : (roles (fun each => (threads each).pc.queuePc) tid).own =
      some qe := same
  rcases inv.queue.shape.own_chain otherOwn with ⟨_, left⟩
  rcases inv.queue.shape.own_chain threadOwn with ⟨_, right⟩
  have inLeft : qe ∈ ghost.chains (some other) := by simp [left]
  have inRight : qe ∈ ghost.chains (some tid) := by simp [right]
  exact ne (Option.some.inj (inv.queue.shape.apart inLeft inRight))

omit here [DecidableEq Tid] in
/-- The own queue element of a thread stores no ring buffer element yet. -/
theorem own_not_stored {qe : Addr} (stored : Stored ghost qe) :
    (threads tid).pc.queuePc.role.own ≠ some qe :=
  inv.queue.shape.stored_not_start stored (some tid)

section

variable {qs : QueueState Addr}
  (allocated : qs.pool.fs.allocated = rs.qs.pool.fs.allocated)
  (freelistPc : state.pc.freelistPc = old.pc.freelistPc)
  (sameHeld : state.held = old.held) (callOk : CallOk state.pc)

include allocated freelistPc sameHeld callOk

theorem queueKeep (queue : QueueInv qs
      (update (fun other => (threads other).pc.queuePc) tid state.pc.queuePc)
      changed feAfter freeAfter) (tails : ∀ owner,
      (changed.chains owner).tail = (ghost.chains owner).tail)
    (data : ∀ qe, old.pc.queuePc.role.own ≠ some qe →
      qs.data qe = rs.qs.data qe)
    (flight : inFlight qs state.pc.queuePc = inFlight rs.qs old.pc.queuePc) :
    RingInv elements queueElements { rs with qs := qs }
      (update threads tid state) changed feAfter freeAfter cells place := by
  subst here
  have sameCarried : carried qs state = carried rs.qs (threads tid) := by
    rw [carried, carried, flight, sameHeld]
  refine inv.change queue ?_ ?_ ?_ (fun _ _ _ => Iff.rfl) ?_ ?_ callOk rfl
    allocated
  · rw [freelistPc, update_eq_self]
    exact inv.freelist
  · intro fe qe
    have storedSame : Stored changed qe ↔ Stored ghost qe := by
      simp only [Stored, tails]
    rw [storedSame, inv.nodes fe qe]
    refine and_congr_right fun stored => ?_
    rw [data qe (inv.own_not_stored stored)]
  · intro fe
    rw [inv.hands fe tid, sameCarried]
  · intro other ne
    apply inFlight_congr
    intro qe isOwn
    exact data qe (inv.own_apart ne isOwn)
  · rw [sameCarried]
    exact inv.once tid

omit allocated sameHeld callOk in
/-- The freelist does not see an element move between the others. -/
theorem freelistKeep {fe : Addr} {target : Place Tid}
    (before : place fe ≠ .free) (later : target ≠ .free) :
    FreelistInv rs.fs (update (fun other => (threads other).pc.freelistPc) tid
        state.pc.freelistPc) { each | update place fe target each ≠ .free }
      cells := by
  have sameOutside : { each | update place fe target each ≠ .free } =
      { each | place each ≠ .free } := by
    ext each
    by_cases same : each = fe
    · subst same
      simp [before, later]
    · simp [same]
  rw [freelistPc, ← here, update_eq_self, sameOutside]
  exact inv.freelist

theorem queueLink {qe last : Addr} {owner : Option Tid} (queue : QueueInv qs
      (update (fun other => (threads other).pc.queuePc) tid state.pc.queuePc)
      (ghost.append owner tid) feAfter freeAfter)
    (isOwn : old.pc.queuePc.role.own = some qe)
    (ne : owner ≠ some tid) (mem : last ∈ ghost.chains owner)
    (data : qs.data = rs.qs.data)
    (before : inFlight rs.qs old.pc.queuePc = some (rs.qs.data qe))
    (flight : inFlight qs state.pc.queuePc = none) :
    RingInv elements queueElements { rs with qs := qs }
      (update threads tid state) (ghost.append owner tid) feAfter freeAfter
      cells (update place (rs.qs.data qe) (.node qe)) := by
  have placed : place (rs.qs.data qe) = .thread tid :=
    inv.place_of_inFlight (here ▸ before)
  have carriedBefore : carried rs.qs old = rs.qs.data qe :: old.held := by
    rw [carried, before]
    rfl
  have carriedAfter : carried qs state = old.held := by
    rw [carried, flight, sameHeld]
    rfl
  have once := inv.once tid
  rw [here, carriedBefore, List.nodup_cons] at once
  have storedAfter : ∀ each, Stored (ghost.append owner tid) each ↔
      Stored ghost each ∨ each = qe := by
    intro each
    rw [← here] at isOwn
    exact inv.queue.shape.stored_link isOwn ne mem
  refine inv.move here queue (inv.freelistKeep here freelistPc
    (by simp [placed]) (by simp)) data ?_ ?_ ?_ ?_ ?_ ?_ callOk rfl allocated
  · intro each
    rw [storedAfter each, Place.node.injEq]
    constructor
    · rintro rfl
      exact ⟨.inr rfl, rfl⟩
    · rintro ⟨stored | isQe, sameData⟩
      · have there := (inv.nodes _ each).2 ⟨stored, sameData⟩
        rw [placed] at there
        cases there
      · exact isQe.symm
  · intro each otherData
    rw [storedAfter each]
    refine or_iff_left ?_
    rintro rfl
    exact otherData rfl
  · simp [carriedAfter, once.1]
  · intro each same
    simp [carriedAfter, carriedBefore, same]
  · intro other notTid
    simp [placed, notTid.symm]
  · rw [carriedAfter]
    exact once.2

/-- The compare-and-swap that takes the first element out of the queue. -/
theorem queueTake {first qe : Addr} {rest : List Addr} (queue : QueueInv qs
      (update (fun other => (threads other).pc.queuePc) tid state.pc.queuePc)
      ghost.drop feAfter freeAfter)
    (chain : ghost.chains none = first :: qe :: rest)
    (data : qs.data = rs.qs.data)
    (before : inFlight rs.qs old.pc.queuePc = none)
    (flight : inFlight qs state.pc.queuePc = some (rs.qs.data qe)) :
    RingInv elements queueElements { rs with qs := qs }
      (update threads tid state) ghost.drop feAfter freeAfter cells
      (update place (rs.qs.data qe) (.thread tid)) := by
  have stored : Stored ghost qe := ⟨none, by simp [chain]⟩
  have placed : place (rs.qs.data qe) = .node qe :=
    (inv.nodes _ qe).2 ⟨stored, rfl⟩
  have carriedBefore : carried rs.qs old = old.held := by
    rw [carried, before]
    rfl
  have carriedAfter : carried qs state = rs.qs.data qe :: old.held := by
    rw [carried, flight, sameHeld]
    rfl
  have once := inv.once tid
  have hands := inv.hands (rs.qs.data qe) tid
  rw [here, carriedBefore] at once hands
  have links := inv.queue.shape.chain none
  rw [chain] at links
  have storedAfter : ∀ each, Stored ghost.drop each ↔
      Stored ghost each ∧ each ≠ qe := by
    intro each
    exact inv.queue.shape.stored_advance links.1 links.2.1
  refine inv.move here queue (inv.freelistKeep here freelistPc
    (by simp [placed]) (by simp)) data ?_ ?_ ?_ ?_ ?_ ?_ callOk rfl allocated
  · intro each
    rw [storedAfter each]
    constructor
    · intro impossible
      cases impossible
    · rintro ⟨⟨isStored, notQe⟩, sameData⟩
      have there := (inv.nodes _ each).2 ⟨isStored, sameData⟩
      rw [placed] at there
      cases there
      exact absurd rfl notQe
  · intro each otherData
    rw [storedAfter each]
    refine and_iff_left ?_
    rintro rfl
    exact otherData rfl
  · simp [carriedAfter]
  · intro each same
    simp [carriedAfter, carriedBefore, same]
  · intro other notTid
    simp [placed, notTid.symm]
  · rw [carriedAfter, List.nodup_cons]
    refine ⟨?_, once⟩
    rw [← hands, placed]
    simp

theorem steps_queue (step : queueStep .run rs.qs old.pc.queuePc =
      some (qs, state.pc.queuePc))
    (flight : (∀ qe enqueue, state.pc.queuePc ≠ .enqSwing qe enqueue) →
      (∀ qe data, state.pc.queuePc ≠ .deqReadFe qe data) →
      inFlight qs state.pc.queuePc = inFlight rs.qs old.pc.queuePc) :
    Steps elements queueElements { rs with qs := qs } threads tid state := by
  have steps := inv.queue.step (here ▸ step)
  rcases steps with ⟨changed, feAfter, freeAfter, effect, queue⟩
  simp only [here] at effect
  generalize before : old.pc.queuePc = first at effect
  generalize there : state.pc.queuePc = new at effect
  cases effect with
  | keep tails data notLinked notTaken =>
    subst before there
    exact ⟨_, _, _, _, _, inv.queueKeep here allocated freelistPc sameHeld callOk
      queue tails data (flight notLinked notTaken)⟩
  | @link qe last enqueue next owner pointer success ne mem
      appended data =>
    subst appended
    have isOwn : old.pc.queuePc.role.own = some qe := by
      rw [before]
      simp only [QueuePc.role, pointer, Role.own]
    exact ⟨_, _, _, _, _, inv.queueLink here allocated freelistPc sameHeld callOk
      queue isOwn ne mem data (by rw [before]; rfl)
      (by rw [there]; rfl)⟩
  | take chain dropped data =>
    subst dropped
    exact ⟨_, _, _, _, _, inv.queueTake here allocated freelistPc sameHeld callOk
      queue chain data (by rw [before]; rfl) (by rw [there]; rfl)⟩

end

/-! ## Steps inside the freelist, calls and returns -/

theorem steps_freelist {fs : FreelistState}
    (step : freelistStep .run rs.fs old.pc.freelistPc =
      some (fs, state.pc.freelistPc))
    (allocated : fs.allocated = rs.fs.allocated)
    (queuePc : state.pc.queuePc = old.pc.queuePc)
    (sameHeld : state.held = old.held) (callOk : CallOk state.pc) :
    Steps elements queueElements { rs with fs := fs } threads tid state := by
  have queue := inv.queueStill here queuePc
  subst here
  rcases inv.freelist.step step with ⟨cellsAfter, -, freelist⟩
  have sameCarried : carried rs.qs state = carried rs.qs (threads tid) := by
    rw [carried, carried, queuePc, sameHeld]
  refine ⟨ghost, feOf, free, cellsAfter, place,
    inv.change queue freelist inv.nodes ?_ (fun _ _ _ => Iff.rfl)
      (fun _ _ => rfl) ?_ callOk allocated rfl⟩
  · rw [sameCarried]
    exact fun fe => inv.hands fe tid
  · rw [sameCarried]
    exact inv.once tid

theorem steps_outer (wasAway : old.pc.queuePc.role = .away)
    (noFresh : old.pc.queuePc.fresh = none)
    (wasIdle : old.pc.queuePc.freelistPc = .idle)
    (access : old.pc.freelistPc.access = .away)
    (away : state.pc.queuePc.role = .away)
    (fresh : state.pc.queuePc.fresh = none)
    (idle : state.pc.queuePc.freelistPc = .idle ∨
      state.pc.queuePc.freelistPc = .popReadCounter ∨
      state.pc.queuePc.freelistPc = .newMalloc none)
    (seen : Seen rs.qs state.pc.queuePc)
    (accessAfter : state.pc.freelistPc.access = .away)
    (localOk : LocalOk rs.fs state.pc.freelistPc) (callOk : CallOk state.pc)
    (sameCarried : (carried rs.qs state).Perm (carried rs.qs old)) :
    Steps elements queueElements rs threads tid state := by
  subst here
  have queue : QueueInv rs.qs
      (update (fun other => (threads other).pc.queuePc) tid
        state.pc.queuePc) ghost feOf free :=
    inv.queue.outer _ wasAway away noFresh fresh wasIdle idle seen
  have freelist : FreelistInv rs.fs
      (update (fun other => (threads other).pc.freelistPc) tid
        state.pc.freelistPc) { fe | place fe ≠ .free } cells :=
    inv.freelist.outer access accessAfter localOk
  refine ⟨ghost, feOf, free, cells, place, inv.change queue freelist inv.nodes
    ?_ (fun _ _ _ => Iff.rfl) (fun _ _ => rfl) ?_ callOk rfl rfl⟩
  · intro fe
    rw [sameCarried.mem_iff]
    exact inv.hands fe tid
  · rw [sameCarried.nodup_iff]
    exact inv.once tid

end

section

variable {fe : Addr}

omit [DecidableEq Tid] in
theorem not_stored (noNode : ∀ qe, place fe ≠ .node qe) {target : Place Tid}
    (noTarget : ∀ qe, target ≠ .node qe) (qe : Addr) :
    target = .node qe ↔ Stored ghost qe ∧ rs.qs.data qe = fe := by
  rw [← inv.nodes fe qe]
  exact iff_of_false (noTarget qe) (noNode qe)

theorem give
    (here : threads tid = ⟨held, .writePop (.popReturn (some fe)), argument⟩) :
    RingInv elements queueElements rs
      (update threads tid ⟨fe :: held, .idle, argument⟩)
      ghost feOf free cells (update place fe (.thread tid)) := by
  have inHand : (threads tid).pc.freelistPc.inHand = some fe := by
    rw [here]
    rfl
  have wasFree : place fe = .free := by
    by_contra outside
    exact inv.freelist.outsideNotHeld fe outside tid inHand
  have notHeld := inv.hands fe tid
  have once := inv.once tid
  rw [here] at notHeld once
  refine inv.move here (inv.queueStill here rfl) ?_ rfl
    (inv.not_stored (by simp [wasFree]) (by simp)) (fun _ _ => Iff.rfl)
    (iff_of_true rfl (.head _)) ?_ ?_ ?_ trivial rfl rfl
  · have insideOut : { other | update place fe (.thread tid) other ≠
        .free } = insert fe { other | place other ≠ .free } := by
      ext other
      by_cases same : other = fe
      · subst same
        simp
      · simp [same]
    rw [insideOut]
    exact inv.freelist.give inHand rfl trivial
  · intro other same
    exact List.mem_cons.trans (or_iff_right same)
  · intro other notTid
    simp [wasFree, notTid.symm]
  · refine List.nodup_cons.2 ⟨fun isHeld => ?_, once⟩
    rw [notHeld.2 isHeld] at wasFree
    cases wasFree

theorem take (here : threads tid = ⟨held, .idle, argument⟩)
    (isHeld : fe ∈ held) :
    RingInv elements queueElements rs (update threads tid
        ⟨held.erase fe, .putRead (.pushIncrement none fe), fe⟩)
      ghost feOf free cells (update place fe .free) := by
  have wasHeld := inv.hands fe tid
  have once := inv.once tid
  rw [here] at wasHeld once
  have wasHeld := wasHeld.2 isHeld
  have once : held.Nodup := once
  refine inv.move here (inv.queueStill here rfl) ?_ rfl
    (inv.not_stored (by simp [wasHeld]) (by simp)) (fun _ _ => Iff.rfl)
    (iff_of_false nofun once.not_mem_erase) ?_ ?_ (once.erase fe) trivial rfl
    rfl
  · have outsideIn : { other | update place fe .free other ≠
        .free } = { other | place other ≠ .free } \ {fe} := by
      ext other
      by_cases same : other = fe
      · subst same
        simp
      · simp [same]
    rw [outsideIn]
    refine inv.freelist.take ?_ ?_ rfl trivial
    · change place fe ≠ .free
      rw [wasHeld]
      simp
    · rw [here]
      rfl
  · intro other same
    exact List.mem_erase_of_ne same
  · intro other notTid
    simp [wasHeld, notTid.symm]

end

/-! ## Every step of the machine -/

section

variable {qs : QueueState Addr} {first next : QueuePc Addr}

/-- A step of `queue_dequeue` inside a ring buffer function. -/
theorem dequeueMove {call : QueuePc Addr → RingPc}
    (isCall : call = .getRead ∨ call = .writeRead)
    (here : threads tid = ⟨held, call first, argument⟩)
    (dequeuePc : DequeuePc first)
    (step : queueStep .run rs.qs first = some (qs, next)) :
    Steps elements queueElements { rs with qs := qs } threads tid
      ⟨held, call next, argument⟩ := by
  rcases dequeuePc.step step with ⟨dequeueAfter, allocated, flight⟩
  rcases isCall with rfl | rfl
  all_goals
    exact inv.steps_queue here allocated rfl rfl dequeueAfter step
      fun _ => flight

/-- A step of `queue_enqueue` inside `ringbuffer_put_write`. -/
theorem enqueueMove (distinct : elements.Nodup)
    (queueDistinct : queueElements.Nodup)
    (more : queueElements.length = elements.length + 1)
    (here : threads tid = ⟨held, .putWrite first, argument⟩)
    (enqueuePc : EnqueuePc first)
    (step : queueStep .run rs.qs first = some (qs, next)) :
    Steps elements queueElements { rs with qs := qs } threads tid
      ⟨held, .putWrite next, argument⟩ := by
  have nonempty : ∀ data freelistPc, first = .newElement data freelistPc →
      freelistPc.inHand = none → rs.qs.pool.fs.top.pointer ≠ none := by
    rintro data freelistPc rfl empty
    have carries : inFlight rs.qs (threads tid).pc.queuePc = some data := by
      rw [here]
      rfl
    have searching : served feOf (threads tid).pc.queuePc = none := by
      rw [here]
      exact empty
    exact inv.queue_not_exhausted distinct queueDistinct more carries searching
  rcases enqueuePc.step nonempty step with
    ⟨enqueueAfter, allocated, flight⟩
  exact inv.steps_queue here allocated rfl rfl enqueueAfter step
    fun notLinked _ => flight notLinked

end

omit inv in
theorem ringStep_writePop {rs : RingState} {pc : FreelistPc}
    (inside : pc ≠ .popReturn none) :
    ringStep rs (.writePop pc) = (freelistStep .run rs.fs pc).map fun result =>
        ({ rs with fs := result.1 }, .writePop result.2) := by
  rw [ringStep]
  exact inside

omit inv in
theorem ringStep_writeRead {rs : RingState} {pc : QueuePc Addr}
    (inside : pc ≠ .deqReturn none) :
    ringStep rs (.writeRead pc) = (queueStep .run rs.qs pc).map fun result =>
        ({ rs with qs := result.1 }, .writeRead result.2) := by
  rw [ringStep]
  exact inside

theorem ringStep_steps (distinct : elements.Nodup)
    (queueDistinct : queueElements.Nodup)
    (more : queueElements.length = elements.length + 1) {first next : RingPc}
    (here : threads tid = ⟨held, first, argument⟩)
    (step : ringStep rs first = some (after, next)) :
    Steps elements queueElements after threads tid ⟨held, next, argument⟩ := by
  have callOk := inv.calls tid
  rw [here] at callOk
  cases first with
  | idle => cases step
  | getRead first =>
    rcases Option.map_eq_some_iff.1 step with ⟨⟨qs, next⟩, moved, same⟩
    cases same
    exact inv.dequeueMove (.inl rfl) here callOk moved
  | writePop first =>
    by_cases inside : first = .popReturn none
    · subst inside
      cases step
      exact inv.steps_outer here rfl rfl rfl rfl rfl rfl (.inl rfl) trivial
        rfl trivial trivial (List.Perm.refl _)
    · rw [ringStep_writePop inside] at step
      rcases Option.map_eq_some_iff.1 step with ⟨⟨fs, next⟩, moved, same⟩
      cases same
      rcases PopPc.step callOk moved with ⟨popAfter, allocated⟩
      exact inv.steps_freelist here moved allocated rfl rfl popAfter
  | writeRead first =>
    by_cases inside : first = .deqReturn none
    · subst inside
      cases step
      exact inv.steps_outer here rfl rfl rfl rfl rfl rfl (.inl rfl) trivial
        rfl trivial trivial (List.Perm.refl _)
    · rw [ringStep_writeRead inside] at step
      rcases Option.map_eq_some_iff.1 step with ⟨⟨qs, next⟩, moved, same⟩
      cases same
      exact inv.dequeueMove (.inr rfl) here callOk moved
  | putRead first =>
    rcases Option.map_eq_some_iff.1 step with ⟨⟨fs, next⟩, moved, same⟩
    cases same
    rcases PushPc.step callOk moved with ⟨pushAfter, allocated⟩
    exact inv.steps_freelist here moved allocated rfl rfl pushAfter
  | putWrite first =>
    rcases Option.map_eq_some_iff.1 step with ⟨⟨qs, next⟩, moved, same⟩
    cases same
    exact inv.enqueueMove distinct queueDistinct more here callOk moved

theorem ringCall_steps {action : RingAction} {called : RingThread}
    (here : threads tid = ⟨held, .idle, argument⟩)
    (call : ringCall ⟨held, .idle, argument⟩ action = some called) :
    Steps elements queueElements rs threads tid called := by
  cases action with
  | getRead | getWrite =>
    cases call
    exact inv.steps_outer here rfl rfl rfl rfl rfl rfl (.inl rfl) trivial
      rfl trivial trivial (List.Perm.refl _)
  | putRead fe =>
    rcases Option.ite_none_right_eq_some.1 call with ⟨isHeld, same⟩
    cases same
    exact ⟨_, _, _, _, _, inv.take here isHeld⟩
  | putWrite fe =>
    rcases Option.ite_none_right_eq_some.1 call with ⟨isHeld, same⟩
    cases same
    exact inv.steps_outer here rfl rfl rfl rfl rfl rfl (.inr (.inl rfl))
      trivial rfl trivial trivial (List.perm_cons_erase isHeld).symm
  | inside => cases call

theorem ringReturn_steps {pc : RingPc} {result : RingReturn}
    (here : threads tid = ⟨held, pc, argument⟩)
    (returns : ringReturn argument pc = some result) :
    Steps elements queueElements rs threads tid
      ⟨result.element ++ held, .idle, argument⟩ := by
  unfold ringReturn at returns
  split at returns
  all_goals cases returns
  case h_2.refl => exact ⟨_, _, _, _, _, inv.give here⟩
  all_goals
    exact inv.steps_outer here rfl rfl rfl rfl rfl rfl (.inl rfl) trivial
      rfl trivial trivial (List.Perm.refl _)

theorem step (distinct : elements.Nodup) (queueDistinct : queueElements.Nodup)
    (more : queueElements.length = elements.length + 1) {action : RingAction}
    {outcome : Outcome RingState RingThread (Tid × RingEvent)}
    (stepped : (ringMachine Tid).step tid action rs (threads tid) =
      some outcome) :
    Steps elements queueElements outcome.shared threads tid
      outcome.thread := by
  rcases here : threads tid with ⟨held, pc, argument⟩
  rw [here] at stepped
  simp only [ringMachine] at stepped
  split at stepped
  · split at stepped
    · next returns =>
        cases stepped
        exact inv.ringReturn_steps here returns
    · rcases Option.map_eq_some_iff.1 stepped with ⟨⟨after, next⟩, moved, rfl⟩
      exact inv.ringStep_steps distinct queueDistinct more here moved
  · rcases Option.map_eq_some_iff.1 stepped with ⟨called, call, rfl⟩
    exact inv.ringCall_steps here call
  · cases stepped

end RingInv

/-! ## Whole runs -/

section Start

variable {elements : List Addr} {poolElements : List (Addr × Addr)}
  {fe qe : Addr}

omit [DecidableEq Tid] in
theorem RingInv.new (Tid : Type) {initFunc : Bool} {next : Addr → Word}
    {data : Addr → Ptr} {poolNext : Addr → Word} {poolData : Addr → Ptr}
    {queueNext : Addr → Word} {fes queueData : Addr → Addr} {abaCount : Nat}
    {null : Addr} (distinct : elements.Nodup)
    (queueDistinct : (((fe, qe) :: poolElements).map Prod.fst).Nodup)
    (blocks : (((fe, qe) :: poolElements).map Prod.snd).Nodup) :
    ∃ free cells, RingInv elements (((fe, qe) :: poolElements).map Prod.fst)
      (ringNew initFunc next data elements
        (queueNew poolNext poolData fe qe poolElements queueNext fes
          queueData abaCount null))
      (ringStart Tid (ringNew initFunc next data elements
        (queueNew poolNext poolData fe qe poolElements queueNext fes
          queueData abaCount null))).threads
      (newGhost Tid qe) (fun _ => fe) free cells (fun _ => .free) := by
  have queue : ∃ free, QueueInv
      (queueNew poolNext poolData fe qe poolElements queueNext fes queueData
        abaCount null)
      (fun _ : Tid => .idle) (newGhost Tid qe) (fun _ => fe) free :=
    QueueInv.new queueDistinct blocks
  rcases queue with ⟨free, queue⟩
  have same : (elements.map fun each => (each, each)).map Prod.fst =
      elements := by
    rw [List.map_map]
    exact List.map_id _
  have blocksSame : (elements.map fun each => (each, each)).map Prod.snd =
      elements := by
    rw [List.map_map]
    exact List.map_id _
  rcases PoolInv.new Tid (by rwa [same]) (by rwa [blocksSame]) with
    ⟨cells, -, pool⟩
  refine ⟨free, cells, ?_⟩
  constructor
  case queue => exact queue
  case freelist =>
    have outside : { each | (Place.free : Place Tid) ≠ .free } =
        (∅ : Set Addr) := by
      ext each
      simp
    rw [outside]
    exact ⟨pool.freelist.tagged, pool.freelist.localOk,
      pool.freelist.outsideNotCell, pool.freelist.outsideNotHeld,
      pool.freelist.allocated, pool.freelist.countedAllocated,
      pool.freelist.countedNodup, pool.freelist.countedLength⟩
  case nodes =>
    intro each node
    constructor
    · intro impossible
      cases impossible
    · rintro ⟨⟨owner, mem⟩, -⟩
      cases owner <;> simp [newGhost] at mem
  case hands =>
    intro each tid
    simp [ringStart, carried, inFlight, RingPc.queuePc]
  case once => exact fun _ => List.nodup_nil
  case calls => exact fun _ => trivial
  case allocated =>
    intro each
    change (poolNew next data (elements.map fun each => (each, each))
      ).fs.allocated each = true ↔ _
    rw [poolNew_allocated, same]
  case queueAllocated =>
    intro each
    change (poolNew poolNext poolData ((fe, qe) :: poolElements)
      ).fs.allocated each = true ↔ _
    exact poolNew_allocated

end Start

/-- The elements in the hands of a thread, those of its call included. -/
def RingThread.hand (rs : RingState) (thread : RingThread) : List Addr :=
  thread.pc.freelistPc.inHand.toList ++ carried rs.qs thread

/-- Once in the freelist, once in the queue, or once in the hands of exactly
one thread. -/
def InOnePlace (cells queue : List Addr) (threads : Tid → RingThread)
    (fe : Addr) : Prop :=
  (cells.count fe = 1 ∧ fe ∉ queue ∧ ∀ tid, fe ∉ (threads tid).held) ∨
    (fe ∉ cells ∧ queue.count fe = 1 ∧ ∀ tid, fe ∉ (threads tid).held) ∨
    fe ∉ cells ∧ fe ∉ queue ∧ ∃ tid, (threads tid).held.count fe = 1 ∧
        ∀ other, other ≠ tid → fe ∉ (threads other).held

namespace RingInv

variable {elements queueElements : List Addr} {rs : RingState}
  {threads : Tid → RingThread} {ghost : Ghost Tid Addr} {feOf : Addr → Addr}
  {free cells : List (Addr × Nat)} {place : Addr → Place Tid} {tid : Tid}

omit [DecidableEq Tid]

variable (inv : RingInv elements queueElements rs threads ghost feOf free cells
  place)

include inv

theorem hand_apart {left right : Tid} (ne : left ≠ right) {fe : Addr}
    (inLeft : fe ∈ (threads left).hand rs) :
    fe ∉ (threads right).hand rs := by
  intro inRight
  simp only [RingThread.hand, List.mem_append, Option.mem_toList]
    at inLeft inRight
  have notBoth : ∀ {holder user : Tid},
      (threads holder).pc.freelistPc.inHand = some fe →
      fe ∉ carried rs.qs (threads user) := by
    intro holder user inHand isCarried
    rw [← inv.hands fe user] at isCarried
    apply inv.freelist.outsideNotHeld fe _ holder inHand
    change place fe ≠ .free
    rw [isCarried]
    simp
  rcases inLeft with leftHand | leftCarried
  · rcases inRight with rightHand | rightCarried
    · exact inv.freelist.inHand_apart leftHand ne rightHand
    · exact notBoth leftHand rightCarried
  · rcases inRight with rightHand | rightCarried
    · exact notBoth rightHand leftCarried
    · rw [← inv.hands fe left] at leftCarried
      rw [← inv.hands fe right, leftCarried] at rightCarried
      cases rightCarried
      exact ne rfl

/-- What the queue elements behind the first one store, when no thread is
inside a call. -/
theorem idle_stored (idle : ∀ tid, (threads tid).pc = .idle) {qe : Addr} :
    Stored ghost qe ↔ qe ∈ (ghost.chains none).tail := by
  constructor
  · rintro ⟨owner, mem⟩
    cases owner with
    | none => exact mem
    | some tid =>
      have away : (roles (fun each => (threads each).pc.queuePc) tid).own =
          none := by
        rw [roles, idle tid]
        rfl
      rw [inv.queue.shape.no_chain away] at mem
      cases mem
  · exact fun mem => ⟨none, mem⟩

theorem inOnePlace (idle : ∀ tid, (threads tid).pc = .idle) {fe : Addr}
    (mem : fe ∈ elements) :
    InOnePlace (cells.map Prod.fst)
      ((ghost.chains none).tail.map rs.qs.data) threads fe := by
  have carriedHere : ∀ tid, carried rs.qs (threads tid) =
      (threads tid).held := by
    intro tid
    rw [carried, idle tid]
    rfl
  have inQueue : fe ∈ (ghost.chains none).tail.map rs.qs.data ↔
      ∃ qe, place fe = .node qe := by
    simp only [List.mem_map, inv.nodes, inv.idle_stored idle]
  have inHands : ∀ tid, fe ∈ (threads tid).held ↔ place fe = .thread tid := by
    intro tid
    rw [inv.hands fe tid, carriedHere tid]
  have inCells : place fe ≠ .free → fe ∉ cells.map Prod.fst :=
    inv.freelist.outsideNotCell fe
  cases here : place fe with
  | free =>
    have inFreelist : fe ∈ cells.map Prod.fst := by
      rcases (inv.freelist.allocated fe).1 ((inv.allocated fe).2 mem)
        with inChain | outside | ⟨tid, inHand⟩
      · exact inChain
      · exact absurd here outside
      · rw [idle tid] at inHand
        cases inHand
    refine .inl ⟨List.count_eq_one_of_mem inv.freelist.tagged.nodup
      inFreelist, ?_, ?_⟩
    · rw [inQueue, here]
      simp
    · simp [inHands, here]
  | node qe =>
    have once : ((ghost.chains none).tail.map rs.qs.data).Nodup := by
      apply List.Nodup.map_on
      · intro left isLeft right isRight same
        rw [← inv.idle_stored idle] at isLeft isRight
        have leftPlace := (inv.nodes _ left).2 ⟨isLeft, rfl⟩
        have rightPlace := (inv.nodes _ right).2 ⟨isRight, rfl⟩
        rw [same, rightPlace] at leftPlace
        cases leftPlace
        rfl
      · exact (inv.queue.shape.chain none).nodup.tail
    refine .inr (.inl ⟨inCells (by simp [here]),
      List.count_eq_one_of_mem once (inQueue.2 ⟨qe, here⟩), ?_⟩)
    simp [inHands, here]
  | thread tid =>
    have once := inv.once tid
    rw [carriedHere tid] at once
    refine .inr (.inr ⟨inCells (by simp [here]), ?_, tid,
      List.count_eq_one_of_mem once ((inHands tid).2 here), ?_⟩)
    · rw [inQueue, here]
      simp
    · intro other ne
      simp [inHands, here, ne.symm]

end RingInv

theorem ringReturn_putWrite {argument fe : Addr} {pc : RingPc} {rv : Bool}
    (returns : ringReturn argument pc = some (.didPutWrite fe rv)) :
    pc = .putWrite (.enqReturn rv) := by
  unfold ringReturn at returns
  split at returns <;> simp_all

omit [DecidableEq Tid] in
/-- A `ringbuffer_put_write` whose `queue_enqueue` found an element reports
it. -/
theorem didPutWrite_step {rs : RingState} {thread : RingThread}
    {tid other : Tid} {action : RingAction} {fe : Addr} {rv : Bool}
    {outcome : Outcome RingState RingThread (Tid × RingEvent)}
    (callOk : CallOk thread.pc)
    (step : (ringMachine Tid).step tid action rs thread = some outcome)
    (mem : (other, .returned (.didPutWrite fe rv)) ∈ outcome.events) :
    rv = true := by
  cases action with
  | inside =>
    simp only [ringMachine] at step
    split at step
    · next result returns =>
        cases step
        simp only [List.mem_singleton, Prod.mk.injEq,
          RingEvent.returned.injEq] at mem
        rcases mem with ⟨-, rfl⟩
        rw [ringReturn_putWrite returns] at callOk
        exact callOk
    · simp only [Option.map_eq_some_iff] at step
      rcases step with ⟨result, -, rfl⟩
      cases mem
  | _ =>
    simp only [ringMachine] at step
    split at step
    · simp_all
    · simp only [Option.map_eq_some_iff] at step
      rcases step with ⟨called, -, rfl⟩
      simp at mem
    · cases step

/--
However the calls of any number of threads interleave, the `queue_enqueue` of
`ringbuffer_put_write` finds an element and returns one, no element is in the
hands of two threads, and whenever no call is in progress every element is in
exactly one of the freelist, the queue and the hands of one thread.
-/
theorem ringbuffer_drops_no_element {elements : List Addr}
    {poolElements : List (Addr × Addr)} {fe qe : Addr} {initFunc : Bool}
    {next : Addr → Word} {data : Addr → Ptr} {poolNext : Addr → Word}
    {poolData : Addr → Ptr} {queueNext : Addr → Word}
    {fes queueData : Addr → Addr} {abaCount : Nat} {null : Addr}
    (distinct : elements.Nodup)
    (queueDistinct : (((fe, qe) :: poolElements).map Prod.fst).Nodup)
    (blocks : (((fe, qe) :: poolElements).map Prod.snd).Nodup)
    (sameSize : poolElements.length = elements.length)
    {history : List (Tid × RingEvent)}
    {config : Config Tid RingState RingThread}
    (run : (ringMachine Tid).Run
      (ringStart Tid (ringNew initFunc next data elements
        (queueNew poolNext poolData fe qe poolElements queueNext fes
          queueData abaCount null))) history config) :
    (∀ tid each rv, (tid, .returned (.didPutWrite each rv)) ∈ history →
      rv = true) ∧
    (∀ tid, (config.threads tid).pc ≠ .putWrite (.enqReturn false)) ∧
    (∀ left right, left ≠ right →
      ∀ each ∈ (config.threads left).hand config.shared,
        each ∉ (config.threads right).hand config.shared) ∧
    ((∀ tid, (config.threads tid).pc = .idle) → ∃ cells nodes,
        Linked (fun each => (config.shared.fs.next each).pointer)
          config.shared.fs.top.pointer cells ∧
        Linked (fun each => (config.shared.qs.next each).pointer)
          config.shared.qs.dequeue.pointer nodes ∧
        ∀ each ∈ elements,
          InOnePlace cells (nodes.tail.map config.shared.qs.data)
            config.threads each) := by
  have inv : (∀ tid each rv, (tid, .returned (.didPutWrite each rv)) ∈ history →
      rv = true) ∧
      ∃ ghost feOf free cells place, RingInv elements
        (((fe, qe) :: poolElements).map Prod.fst) config.shared
        config.threads ghost feOf free cells place := by
    apply run.invariant fun history config =>
      (∀ tid each rv, (tid, .returned (.didPutWrite each rv)) ∈ history →
      rv = true) ∧ ∃ ghost feOf free cells place, RingInv elements
          (((fe, qe) :: poolElements).map Prod.fst) config.shared
          config.threads ghost feOf free cells place
    · rcases RingInv.new Tid distinct queueDistinct blocks with
        ⟨free, cells, inv⟩
      exact ⟨by simp, _, _, free, cells, _, inv⟩
    · rintro history config tid action outcome
        ⟨results, ghost, feOf, free, cells, place, inv⟩ - stepped
      constructor
      · intro other each rv member
        rcases List.mem_append.1 member with before | now
        · exact results other each rv before
        · exact didPutWrite_step (inv.calls tid) stepped now
      · exact inv.step distinct queueDistinct (by simp [sameSize]) stepped
  rcases inv with ⟨results, ghost, feOf, free, cells, place, inv⟩
  refine ⟨results, ?_, fun left right different each inLeft =>
    inv.hand_apart different inLeft, ?_⟩
  · intro tid here
    have callOk := inv.calls tid
    rw [here] at callOk
    cases callOk
  · intro idle
    exact ⟨cells.map Prod.fst, ghost.chains none,
      inv.freelist.tagged.chain.linked, inv.queue.shape.chain none,
      fun each member => inv.inOnePlace idle member⟩

/-- One thread of a ring buffer for one element gets the element and puts it
back for reading. -/
theorem ringbuffer_drops_no_element_write :
    ∃ config : Config Bool RingState RingThread, (ringMachine Bool).Run
        (ringStart Bool (ringNew false (fun _ => ⟨none, 0⟩) (fun _ => none)
          [1] (queueNew (fun _ => ⟨none, 0⟩) (fun _ => none) 10 20 [(11, 21)]
            (fun _ => ⟨none, 0⟩) (fun _ => 0) (fun _ => 0) 0 0)))
        [(false, .called), (false, .returned (.gotWrite 1 false)),
          (false, .called), (false, .returned (.didPutWrite 1 true))]
        config ∧
      ∃ nodes : List Addr, nodes.tail.map config.shared.qs.data = [1] ∧
        InOnePlace [] (nodes.tail.map config.shared.qs.data) config.threads
          1 := by
  have executed : (ringMachine Bool).execute
      (ringStart Bool (ringNew false (fun _ => ⟨none, 0⟩) (fun _ => none)
        [1] (queueNew (fun _ => ⟨none, 0⟩) (fun _ => none) 10 20 [(11, 21)]
          (fun _ => ⟨none, 0⟩) (fun _ => 0) (fun _ => 0) 0 0)))
      ((false, .getWrite) :: List.replicate 6 (false, .inside) ++
        (false, .putWrite 1) :: List.replicate 21 (false, .inside)) =
      some (_, [(false, .called), (false, .returned (.gotWrite 1 false)),
        (false, .called), (false, .returned (.didPutWrite 1 true))]) :=
    rfl
  have run := Machine.run_of_execute executed
  obtain ⟨-, -, -, places⟩ := ringbuffer_drops_no_element (by decide)
    (by decide) (by decide) rfl run
  rcases places (by intro tid; cases tid <;> rfl) with
    ⟨cells, nodes, chain, queue, place⟩
  have empty : cells = [] := linked_none.1 chain
  have isNodes : nodes = [20, 21] := queue.unique ⟨rfl, rfl, rfl⟩
  subst empty
  subst isNodes
  exact ⟨_, run, _, rfl, place 1 (by decide)⟩

end Lockfreec.Basic.RingBuffer
