import Lockfreec.Basic.RingBuffer
import Lockfreec.Lib.Solo

/-!
# The ring buffer with one user

With one user, the calls of the ring buffer refine an abstract one: a list of
free elements and a list of unread ones.  Nobody disturbs a call, so each
function of the freelist and the queue is followed from its first step to its
return, and the calls of the ring buffer are composed of them.
-/

namespace Lockfreec.Basic.RingBuffer

open Function
open Basic.ElementPool Basic.Freelist Basic.Queue Lib.Chain Lib.Interleaving
  Lib.Solo

/-! ## The abstract ring buffer -/

/-- The free elements and the unread ones, the oldest one first. -/
structure Ring where
  free : List Addr
  unread : List Addr
deriving DecidableEq

/-- What a call does, given what it returns; other results are impossible. -/
def Ring.after (ring : Ring) : RingReturn → Option Ring
  | .gotRead none => if ring.unread = [] then some ring else none
  | .gotRead (some fe) =>
    if ring.unread.head? = some fe then
      some { ring with unread := ring.unread.tail }
    else none
  | .gotWrite fe false =>
    if ring.free.head? = some fe then
      some { ring with free := ring.free.tail }
    else none
  | .gotWrite fe true =>
    if ring.free = [] ∧ ring.unread.head? = some fe then
      some { ring with unread := ring.unread.tail }
    else none
  | .didPutRead fe => some { ring with free := fe :: ring.free }
  | .didPutWrite fe rv =>
    if rv then some { ring with unread := ring.unread ++ [fe] } else none

/-- The ring buffer after a sequence of calls with these results. -/
def Ring.run (ring : Ring) : List RingReturn → Option Ring
  | [] => some ring
  | result :: rest => (ring.after result).bind fun next => next.run rest

theorem Ring.run_append (ring : Ring) (first second : List RingReturn) :
    ring.run (first ++ second) =
      (ring.run first).bind fun next => next.run second := by
  induction first generalizing ring with
  | nil => rfl
  | cons result rest ih =>
    simp only [List.cons_append, Ring.run, Option.bind_assoc]
    congr 1
    funext next
    exact ih next

/-- The results of the calls of a history. -/
def results {Tid : Type} (history : List (Tid × RingEvent)) :
    List RingReturn :=
  history.filterMap fun event =>
    match event.2 with
    | .returned result => some result
    | .called => none

theorem results_append {Tid : Type} (first second : List (Tid × RingEvent)) :
    results (first ++ second) = results first ++ results second :=
  List.filterMap_append

/-! ## The freelist -/

/-- The elements of a freelist. -/
def FreeChain (fs : FreelistState) (cells : List Addr) : Prop :=
  Linked (fun fe => (fs.next fe).pointer) fs.top.pointer cells

variable {fs : FreelistState} {fe : Addr}

theorem pop_none (chain : FreeChain fs []) :
    iterate (freelistStep .run) 3 fs .popReadCounter =
      some (fs, .popReturn none) := by
  have empty : fs.top.pointer = none := chain
  simp [iterate, freelistStep, empty]

theorem pop_some {rest : List Addr} (chain : FreeChain fs (fe :: rest)) :
    iterate (freelistStep .run) 5 fs .popReadCounter =
        some ({ fs with top := fs.next fe }, .popReturn (some fe)) ∧
      FreeChain { fs with top := fs.next fe } rest := by
  have isTop : fs.top.pointer = some fe := chain.1
  have same : fs.top = ⟨some fe, fs.top.counter⟩ := by
    rw [← isTop]
  refine ⟨?_, chain.2⟩
  simp [iterate, freelistStep, abstractionDcas, isTop, ← same]

theorem push {cells : List Addr} (chain : FreeChain fs cells)
    (fresh : fe ∉ cells) :
    ∃ after, iterate (freelistStep .run) 6 fs (.pushIncrement none fe) =
        some (after, .pushReturn) ∧
      FreeChain after (fe :: cells) ∧ after.data = fs.data := by
  refine ⟨{ fs with
    abaCounter := fs.abaCounter + 1
    next := update fs.next fe fs.top
    top := ⟨some fe, fs.abaCounter + 1⟩ }, ?_, ⟨rfl, ?_⟩, rfl⟩
  · simp [iterate, freelistStep, abstractionDcas, afterPush,
      FreelistState.storeNextPointer, FreelistState.storeNextCounter]
  · show Linked (fun other => (update fs.next fe fs.top other).pointer)
      (update fs.next fe fs.top fe).pointer cells
    rw [update_self, field_update Pac.pointer]
    exact Linked.update chain fresh

/-! ## The queue -/

/-- The elements of a queue, from the first one on, and its spare ones. -/
structure Holds (qs : QueueState Addr) (first : Addr)
    (qes spare : List Addr) : Prop where
  chain : Linked (fun qe => (qs.next qe).pointer) qs.dequeue.pointer
    (first :: qes)
  tail : ∃ front last, first :: qes = front ++ [last] ∧
    qs.enqueue.pointer = some last
  unused : FreeChain qs.pool.fs spare
  distinct : (spare ++ (first :: qes).map qs.fe).Nodup
  blocks : ∀ qe ∈ first :: qes, qs.pool.fs.data (qs.fe qe) = some qe
  payload : ∀ fe ∈ spare, ∃ qe, qs.pool.fs.data fe = some qe
  injective : ∀ left ∈ spare ++ (first :: qes).map qs.fe,
    ∀ right ∈ spare ++ (first :: qes).map qs.fe,
      qs.pool.fs.data left = qs.pool.fs.data right → left = right

theorem poolStep_run {pool : PoolState} {pc : FreelistPc}
    {result : FreelistState × FreelistPc}
    (step : freelistStep .run pool.fs pc = some result) :
    poolStep .run pool pc = some ({ pool with fs := result.1 }, result.2) := by
  cases pc with
  | newInit caller fe => cases step
  | _ => simp only [poolStep, step, Option.map_some]

/-- The queue with another state of its freelist. -/
def withFreelist (qs : QueueState Addr) (fs : FreelistState) :
    QueueState Addr :=
  { qs with pool := { qs.pool with fs := fs } }

theorem newElement_lifts (qs : QueueState Addr) (data : Addr) :
    ∀ fs pc result, freelistStep .run fs pc = some result →
      queueStep .run (withFreelist qs fs) (.newElement data pc) =
        some (withFreelist qs result.1, .newElement data result.2) := by
  intro fs pc result step
  have inside : ∀ fe, pc ≠ .popReturn fe := by
    rintro fe rfl
    cases step
  rw [queueStep, newStep_newElement inside, poolStep_run step]
  rfl

theorem deqFreelistPush_lifts (qs : QueueState Addr) (data : Addr) :
    ∀ fs pc result, freelistStep .run fs pc = some result →
      queueStep .run (withFreelist qs fs) (.deqFreelistPush data pc) =
        some (withFreelist qs result.1, .deqFreelistPush data result.2) := by
  intro fs pc result step
  have inside : pc ≠ .pushReturn := by
    rintro rfl
    cases step
  simp only [queueStep, newStep, enqStep, Option.orElse,
    deqStep_freelistPush inside]
  rw [poolStep_run step]
  rfl

variable {qs : QueueState Addr} {first : Addr} {qes spare : List Addr}

/-- The initialisation of an element that an enqueue got. -/
theorem init_steps (qs : QueueState Addr) (data : Addr) {qe : Addr}
    (block : qs.pool.fs.data fe = some qe) :
    iterate (queueStep .run) 7 qs (.newElement data (.popReturn (some fe))) =
      some ({ qs with
        abaCount := qs.abaCount + 1 + 1
        next := update qs.next qe ⟨none, qs.abaCount + 1 + 1⟩
        fe := update qs.fe qe fe
        data := update qs.data qe data }, .enqReadPointer qe) := by
  simp [iterate, queueStep, newStep, QueueState.storeNextPointer,
    QueueState.storeNextCounter, block]

theorem link_steps (qs : QueueState Addr) (qe : Addr) {last : Addr}
    {enqueueCounter nextCounter : Nat}
    (tail : qs.enqueue = ⟨some last, enqueueCounter⟩)
    (ends : qs.next last = ⟨none, nextCounter⟩) :
    iterate (queueStep .run) 8 qs (.enqReadPointer qe) = some ({ qs with
        enqueue := ⟨some qe, enqueueCounter + elementSize⟩
        next := update qs.next last
          ⟨some qe, nextCounter + elementSize⟩ }, .enqReturn true) := by
  simp [iterate, queueStep, newStep, enqStep, enqDecide, abstractionDcas,
    QueueState.swingEnqueue, tail, ends]

theorem Holds.enqueue (holds : Holds qs first qes (fe :: spare)) (data : Addr) :
    ∃ count after qe, iterate (queueStep .run) count qs
        (.newElement data .popReadCounter) = some (after, .enqReturn true) ∧
      Holds after first (qes ++ [qe]) spare ∧
      (qes ++ [qe]).map after.data = qes.map qs.data ++ [data] := by
  obtain ⟨popped, unused⟩ := pop_some holds.unused
  obtain ⟨qe, block⟩ := holds.payload fe (.head _)
  have fresh : qe ∉ first :: qes := by
    intro mem
    have isUsed : qs.fe qe ∈ (first :: qes).map qs.fe :=
      List.mem_map_of_mem mem
    have same := holds.injective fe (.head _) (qs.fe qe)
      (List.mem_append_right _ isUsed)
      (block.trans (holds.blocks qe mem).symm)
    exact (List.nodup_append.1 holds.distinct).2.2 fe (.head _) _ isUsed same
  obtain ⟨front, last, split, isLast⟩ := holds.tail
  have chain := holds.chain
  have ends : (qs.next last).pointer = none := by
    rw [split] at chain
    exact chain.drop
  have ne : last ≠ qe := by
    rintro rfl
    exact fresh (by simp [split])
  have tailWord : qs.enqueue = ⟨some last, qs.enqueue.counter⟩ := by
    rw [← isLast]
  have endWord : qs.next last = ⟨none, (qs.next last).counter⟩ := by
    rw [← ends]
  have unusedFe : ∀ other ∈ first :: qes,
      update qs.fe qe fe other = qs.fe other := fun other mem =>
    update_of_ne (ne_of_mem_of_not_mem mem fresh) _ _
  have taken := iterate_lift (withFreelist qs) (QueuePc.newElement data)
    (newElement_lifts qs data) popped
  have ready := init_steps (withFreelist qs
    { qs.pool.fs with top := qs.pool.fs.next fe }) data block
  have linked := iterate_trans ready (link_steps _ qe tailWord
    ((update_of_ne ne _ _).trans endWord))
  refine ⟨_, _, qe, iterate_trans taken linked, ?_, ?_⟩
  · have used : spare ++ (first :: (qes ++ [qe])).map (update qs.fe qe fe) =
        spare ++ ((first :: qes).map qs.fe ++ [fe]) := by
      rw [← List.cons_append, List.map_append, List.map_congr_left unusedFe]
      simp
    have perm : (spare ++ ((first :: qes).map qs.fe ++ [fe])).Perm
        (fe :: spare ++ (first :: qes).map qs.fe) := by
      rw [← List.append_assoc]
      exact List.perm_append_singleton ..
    constructor
    · show Linked (fun other => (update (update qs.next qe
        ⟨none, _⟩) last ⟨some qe, _⟩ other).pointer) qs.dequeue.pointer _
      rw [field_update Pac.pointer, field_update Pac.pointer]
      have kept : Linked (update (fun other =>
          (qs.next other).pointer) qe none) qs.dequeue.pointer
          (front ++ [last]) := by
        rw [← split]
        exact chain.update fresh
      rw [← List.cons_append, split]
      refine kept.append ?_ (by simpa using ne)
      exact ⟨rfl, by simp⟩
    · exact ⟨first :: qes, qe, rfl, rfl⟩
    · exact unused
    · show (spare ++ (first :: (qes ++ [qe])).map (update qs.fe qe fe)).Nodup
      rw [used]
      exact perm.nodup_iff.2 holds.distinct
    · intro other mem
      rw [← List.cons_append, List.mem_append, List.mem_singleton] at mem
      rcases mem with mem | rfl
      · show qs.pool.fs.data (update qs.fe qe fe other) = _
        rw [unusedFe other mem]
        exact holds.blocks other mem
      · show qs.pool.fs.data (update qs.fe other fe other) = _
        rw [update_self]
        exact block
    · intro other mem
      exact holds.payload other (.tail _ mem)
    · show ∀ left ∈ spare ++ (first :: (qes ++ [qe])).map (update qs.fe qe fe),
        ∀ right ∈ spare ++ (first :: (qes ++ [qe])).map (update qs.fe qe fe), _
      rw [used]
      intro left isLeft right isRight
      exact holds.injective left (perm.mem_iff.1 isLeft) right
        (perm.mem_iff.1 isRight)
  · have kept : ∀ other ∈ qes, update qs.data qe data other = qs.data other :=
      fun other mem => update_of_ne
        (ne_of_mem_of_not_mem (List.mem_cons_of_mem _ mem) fresh) _ _
    show (qes ++ [qe]).map (update qs.data qe data) = _
    rw [List.map_append, List.map_congr_left kept]
    simp

theorem Holds.dequeue_none (holds : Holds qs first [] spare) :
    iterate (queueStep .run) 8 qs .deqReadPointer =
      some (qs, .deqReturn none) := by
  obtain ⟨front, last, split, isLast⟩ := holds.tail
  have isFirst : qs.dequeue.pointer = some first := holds.chain.1
  have ends : (qs.next first).pointer = none := holds.chain.2
  have same : last = first := by
    cases front with
    | nil => simpa using split.symm
    | cons other front => simp at split
  subst same
  simp [iterate, queueStep, newStep, enqStep, deqStep, deqDecide, isLast,
    isFirst, ends]

/-- What a dequeue does up to the release of the first element. -/
theorem dequeue_steps (qs : QueueState Addr) {second last : Addr}
    {dequeueCounter : Nat} (head : qs.dequeue = ⟨some first, dequeueCounter⟩)
    (isSecond : (qs.next first).pointer = some second)
    (isLast : qs.enqueue.pointer = some last) (ne : last ≠ first) :
    iterate (queueStep .run) 11 qs .deqReadPointer = some ({ qs with dequeue :=
          ⟨some second, dequeueCounter + elementSize⟩ },
        .deqFreelistPush (qs.data second)
          (.pushIncrement none (qs.fe first))) := by
  simp [iterate, queueStep, newStep, enqStep, deqStep, deqDecide,
    abstractionDcas, head, isSecond, isLast, ne]

theorem push_returns (qs : QueueState Addr) (data : Addr) :
    iterate (queueStep .run) 1 qs (.deqFreelistPush data .pushReturn) =
      some (qs, .deqReturn (some data)) :=
  rfl

theorem Holds.dequeue_some {second : Addr}
    (holds : Holds qs first (second :: qes) spare) :
    ∃ count after, iterate (queueStep .run) count qs .deqReadPointer =
        some (after, .deqReturn (some (qs.data second))) ∧
      Holds after second qes (qs.fe first :: spare) ∧
      after.data = qs.data := by
  obtain ⟨front, last, split, isLast⟩ := holds.tail
  obtain ⟨isFirst, isSecond, rest⟩ := holds.chain
  have shorter : ∃ front, second :: qes = front ++ [last] := by
    cases front with
    | nil => simp at split
    | cons other front => exact ⟨front, (List.cons.inj split).2⟩
  obtain ⟨front, split⟩ := shorter
  have ne : last ≠ first := by
    have distinct := List.nodup_cons.1 holds.chain.nodup
    intro same
    rw [split, same] at distinct
    exact distinct.1 (by simp)
  have head : qs.dequeue = ⟨some first, qs.dequeue.counter⟩ := by
    rw [← isFirst]
  have absent : qs.fe first ∉ spare := by
    intro mem
    exact (List.nodup_append.1 holds.distinct).2.2 _ mem _ (.head _) rfl
  have perm : (qs.fe first :: spare ++ (second :: qes).map qs.fe).Perm
      (spare ++ (first :: second :: qes).map qs.fe) :=
    List.perm_middle.symm
  have taken := dequeue_steps qs head isSecond isLast ne
  obtain ⟨fs, pushed, unused, data⟩ := push holds.unused absent
  have released := iterate_lift (withFreelist { qs with dequeue :=
      ⟨some second, qs.dequeue.counter + elementSize⟩ })
    (QueuePc.deqFreelistPush (qs.data second))
    (deqFreelistPush_lifts _ (qs.data second)) pushed
  refine ⟨_, _, iterate_trans (iterate_trans taken released)
    (push_returns _ _), ?_, rfl⟩
  constructor
  · exact ⟨rfl, rest⟩
  · exact ⟨front, last, split, isLast⟩
  · exact unused
  · exact perm.nodup_iff.2 holds.distinct
  · intro qe mem
    show fs.data (qs.fe qe) = some qe
    rw [data]
    exact holds.blocks qe (.tail _ mem)
  · intro fe mem
    show ∃ qe, fs.data fe = some qe
    rw [data]
    rcases List.mem_cons.1 mem with rfl | mem
    · exact ⟨first, holds.blocks first (.head _)⟩
    · exact holds.payload fe mem
  · intro left isLeft right isRight same
    have same : fs.data left = fs.data right := same
    rw [data] at same
    exact holds.injective left (perm.mem_iff.1 isLeft) right
      (perm.mem_iff.1 isRight) same

/-- The call that a result answers. -/
def RingReturn.call : RingReturn → RingAction
  | .gotRead _ => .getRead
  | .gotWrite _ _ => .getWrite
  | .didPutRead fe => .putRead fe
  | .didPutWrite fe _ => .putWrite fe

/-! ## The calls -/

/-- Between two calls of the only user, who holds these elements. -/
structure Between (elements : List Addr) (ring : Ring) (held : List Addr)
    (rs : RingState) : Prop where
  free : FreeChain rs.fs ring.free
  owned : (ring.free ++ (ring.unread ++ held)).Perm elements
  queue : ∃ first qes spare, Holds rs.qs first qes spare ∧
    qes.map rs.qs.data = ring.unread ∧
    spare.length + qes.length = elements.length

/-- The call that a thread is in returns what the abstract ring buffer
allows. -/
def Answers (elements : List Addr) (ring : Ring) (action : RingAction)
    (rs : RingState) (thread : RingThread) : Prop :=
  ∃ count after pc result next,
    iterate ringStep count rs thread.pc = some (after, pc) ∧
    ringReturn thread.argument pc = some result ∧ result.call = action ∧
    ring.after result = some next ∧
    Between elements next (result.element ++ thread.held) after

variable {elements : List Addr} {ring : Ring} {held : List Addr}
  {rs : RingState} {argument : Addr}

section

variable (between : Between elements ring held rs)

include between

theorem Between.dequeue {fe : Addr} {rest : List Addr}
    (oldest : ring.unread = fe :: rest) :
    ∃ count after, iterate (queueStep .run) count rs.qs .deqReadPointer =
        some (after, .deqReturn (some fe)) ∧
      Between elements { ring with unread := rest } (fe :: held)
        { rs with qs := after } := by
  obtain ⟨first, qes, spare, holds, data, size⟩ := between.queue
  rw [oldest] at data
  obtain ⟨second, qes, rfl, rfl, rfl⟩ := List.map_eq_cons_iff.1 data
  obtain ⟨count, after, ran, shorter, kept⟩ := holds.dequeue_some
  refine ⟨count, after, ran, between.free, ?_, second, qes, _, shorter, ?_, ?_⟩
  · refine .trans (List.Perm.append_left _ List.perm_middle) ?_
    have owned := between.owned
    rw [oldest] at owned
    exact owned
  · show qes.map after.data = _
    rw [kept]
  · simpa [Nat.add_right_comm, Nat.add_assoc] using size

theorem Between.getRead : Answers elements ring .getRead rs
      ⟨held, .getRead .deqReadPointer, argument⟩ := by
  have lifts : ∀ qs pc result, queueStep .run qs pc = some result →
      ringStep { rs with qs := qs } (.getRead pc) =
        some ({ rs with qs := result.1 }, .getRead result.2) := by
    intro qs pc result step
    simp only [ringStep, step, Option.map_some]
  cases unread : ring.unread with
  | nil =>
    obtain ⟨first, qes, spare, holds, data, size⟩ := between.queue
    rw [unread, List.map_eq_nil_iff] at data
    subst data
    exact ⟨_, _, _, .gotRead none, ring,
      iterate_lift _ _ lifts holds.dequeue_none, rfl, rfl,
      by simp [Ring.after, unread], between⟩
  | cons fe rest =>
    obtain ⟨count, after, ran, next⟩ := between.dequeue unread
    exact ⟨_, _, _, .gotRead (some fe), _, iterate_lift _ _ lifts ran, rfl,
      rfl, by simp [Ring.after, unread], next⟩

theorem Between.getWrite (room : held.length < elements.length) :
    Answers elements ring .getWrite rs
      ⟨held, .writePop .popReadCounter, argument⟩ := by
  have popLifts : ∀ fs pc result, freelistStep .run fs pc = some result →
      ringStep { rs with fs := fs } (.writePop pc) =
        some ({ rs with fs := result.1 }, .writePop result.2) := by
    intro fs pc result step
    cases pc with
    | popReturn fe => cases step
    | _ => simp only [ringStep, step, Option.map_some]
  have readLifts : ∀ qs pc result, queueStep .run qs pc = some result →
      ringStep { rs with qs := qs } (.writeRead pc) =
        some ({ rs with qs := result.1 }, .writeRead result.2) := by
    intro qs pc result step
    cases pc with
    | deqReturn fe => cases step
    | _ => simp only [ringStep, step, Option.map_some]
  have chain := between.free
  have owned := between.owned
  cases isFree : ring.free with
  | cons fe rest =>
    rw [isFree] at chain owned
    obtain ⟨popped, shorter⟩ := pop_some chain
    refine ⟨_, _, _, .gotWrite fe false, { ring with free := rest },
      iterate_lift _ _ popLifts popped, rfl, rfl,
      by simp [Ring.after, isFree], shorter, .trans ?_ owned, between.queue⟩
    show (rest ++ (ring.unread ++ fe :: held)).Perm
      (fe :: (rest ++ (ring.unread ++ held)))
    rw [← List.append_assoc, ← List.append_assoc]
    exact List.perm_middle
  | nil =>
    rw [isFree] at chain owned
    cases unread : ring.unread with
    | nil =>
      rw [unread] at owned
      exact absurd owned.length_eq (Nat.ne_of_lt room)
    | cons fe rest =>
      obtain ⟨count, after, ran, next⟩ := between.dequeue unread
      have popped := iterate_lift _ _ popLifts (pop_none chain)
      have turned : iterate ringStep 1 rs (.writePop (.popReturn none)) =
          some (rs, .writeRead .deqReadPointer) := rfl
      exact ⟨_, _, _, .gotWrite fe true, _,
        iterate_trans (iterate_trans popped turned)
          (iterate_lift _ _ readLifts ran), rfl, rfl,
        by simp [Ring.after, isFree, unread], next⟩

theorem Between.putRead (distinct : elements.Nodup) {fe : Addr}
    (mem : fe ∈ held) :
    Answers elements ring (.putRead fe) rs
      ⟨held.erase fe, .putRead (.pushIncrement none fe), fe⟩ := by
  have owned : (fe :: (ring.free ++ (ring.unread ++ held.erase fe))).Perm
      elements := by
    refine .trans ?_ between.owned
    rw [← List.append_assoc, ← List.append_assoc]
    refine .trans List.perm_middle.symm ?_
    exact List.Perm.append_left _ (List.perm_cons_erase mem).symm
  have fresh : fe ∉ ring.free := fun isFree =>
    (List.nodup_cons.1 (owned.nodup_iff.2 distinct)).1
      (List.mem_append_left _ isFree)
  obtain ⟨after, pushed, chain, -⟩ := push between.free fresh
  have lifts : ∀ fs pc result, freelistStep .run fs pc = some result →
      ringStep { rs with fs := fs } (.putRead pc) =
        some ({ rs with fs := result.1 }, .putRead result.2) := by
    intro fs pc result step
    simp only [ringStep, step, Option.map_some]
  exact ⟨_, _, _, .didPutRead fe, _, iterate_lift _ _ lifts pushed, rfl, rfl,
    rfl, chain, owned, between.queue⟩

theorem Between.putWrite {fe : Addr} (mem : fe ∈ held) :
    Answers elements ring (.putWrite fe) rs
      ⟨held.erase fe, .putWrite (.newElement fe .popReadCounter), fe⟩ := by
  obtain ⟨first, qes, spare, holds, data, size⟩ := between.queue
  have owned : (ring.free ++ (ring.unread ++ [fe] ++ held.erase fe)).Perm
      elements := by
    refine .trans (List.Perm.append_left _ ?_) between.owned
    rw [List.append_assoc]
    exact List.Perm.append_left _ (List.perm_cons_erase mem).symm
  cases spare with
  | nil =>
    have total := owned.length_eq
    have unread := congrArg List.length data
    simp only [List.length_append, List.length_map, List.length_nil,
      List.length_singleton] at total unread size
    omega
  | cons own spare =>
    obtain ⟨count, after, qe, ran, longer, stored⟩ := holds.enqueue fe
    have lifts : ∀ qs pc result, queueStep .run qs pc = some result →
        ringStep { rs with qs := qs } (.putWrite pc) =
          some ({ rs with qs := result.1 }, .putWrite result.2) := by
      intro qs pc result step
      simp only [ringStep, step, Option.map_some]
    refine ⟨_, _, _, .didPutWrite fe true, _, iterate_lift _ _ lifts ran,
      rfl, rfl, rfl, between.free, owned, first, _, spare, longer, ?_, ?_⟩
    · show (qes ++ [qe]).map after.data = ring.unread ++ [fe]
      rw [stored, data]
    · simpa [Nat.add_right_comm, Nat.add_assoc] using size

end

variable {thread : RingThread} {action : RingAction}

theorem Between.call (distinct : elements.Nodup) {called : RingThread}
    (between : Between elements ring thread.held rs)
    (room : action = .getWrite → thread.held.length < elements.length)
    (call : ringCall thread action = some called) :
    Answers elements ring action rs called := by
  cases action with
  | getRead =>
    cases call
    exact between.getRead
  | getWrite =>
    cases call
    exact between.getWrite (room rfl)
  | putRead fe =>
    rw [ringCall] at call
    split at call
    · next mem =>
        cases call
        exact between.putRead distinct mem
    · cases call
  | putWrite fe =>
    rw [ringCall] at call
    split at call
    · next mem =>
        cases call
        exact between.putWrite mem
    · cases call
  | inside => cases call

/-! ## Runs -/

theorem inside_return {result : RingReturn}
    (returns : ringReturn thread.argument thread.pc = some result) :
    (ringMachine Unit).step () .inside rs thread =
      some ⟨rs, { thread with held := result.element ++ thread.held
                              pc := .idle }, [((), .returned result)]⟩ := by
  simp only [ringMachine, returns]

theorem inside_step {moved : RingState × RingPc}
    (step : ringStep rs thread.pc = some moved) :
    (ringMachine Unit).step () .inside rs thread =
      some ⟨moved.1, { thread with pc := moved.2 }, []⟩ := by
  have onward : ringReturn thread.argument thread.pc = none := by
    generalize thread.pc = pc at step
    unfold ringReturn
    split <;> first | rfl | cases step
  simp only [ringMachine, onward, step, Option.map_some]

theorem Answers.not_idle (answers : Answers elements ring action rs thread) :
    thread.pc ≠ .idle := by
  obtain ⟨count, after, pc, result, next, ran, returns, -⟩ := answers
  intro idle
  rw [idle] at ran
  cases count with
  | zero =>
    cases ran
    cases returns
  | succ count => cases ran

theorem Answers.execute {config : Config Unit RingState RingThread}
    (answers : Answers elements ring action config.shared (config.threads ())) :
    ∃ count final result after, (ringMachine Unit).execute config
          (List.replicate count ((), .inside)) =
        some (final, [((), .returned result)]) ∧
      (final.threads ()).pc = .idle ∧ result.call = action ∧
      ring.after result = some after := by
  obtain ⟨count, after, pc, result, next, ran, returns, call, now, -⟩ := answers
  induction count generalizing config with
  | zero =>
    cases ran
    refine ⟨1, _, result, next,
      (Machine.execute_cons (inside_return returns) []).trans rfl, ?_, call,
      now⟩
    rw [Config.advance_own]
  | succ count ih =>
    obtain ⟨moved, stepped, ran⟩ := Option.bind_eq_some_iff.1 ran
    have step := inside_step stepped
    obtain ⟨steps, final, answer, later, executed, rest⟩ :=
      @ih (config.advance () (⟨moved.1, { config.threads () with
          pc := moved.2 }, []⟩ : Outcome _ _ (Unit × RingEvent)))
        (by rw [Config.advance_own]; exact ran)
        (by rw [Config.advance_own]; exact returns)
    refine ⟨steps + 1, final, answer, later, ?_, rest⟩
    rw [List.replicate_succ, Machine.execute_cons step]
    exact (congrArg _ executed).trans rfl

/-- The only user is between two calls or in one. -/
def Represents (elements : List Addr) (ring : Ring) (rs : RingState)
    (thread : RingThread) : Prop :=
  (thread.pc = .idle ∧ Between elements ring thread.held rs) ∨
    ∃ action, Answers elements ring action rs thread

theorem Represents.step (distinct : elements.Nodup)
    {outcome : Outcome RingState RingThread (Unit × RingEvent)}
    (represents : Represents elements ring rs thread)
    (room : action = .getWrite → thread.held.length < elements.length)
    (step : (ringMachine Unit).step () action rs thread = some outcome) :
    ∃ after, ring.run (results outcome.events) = some after ∧
      Represents elements after outcome.shared outcome.thread := by
  rcases represents with ⟨idle, between⟩ | ⟨current, answers⟩
  · cases action with
    | inside =>
      simp only [ringMachine, idle, ringReturn, ringStep,
        Option.map_none] at step
      cases step
    | _ =>
      simp only [ringMachine, idle] at step
      obtain ⟨called, call, rfl⟩ := Option.map_eq_some_iff.1 step
      exact ⟨ring, rfl, .inr ⟨_, between.call distinct room call⟩⟩
  · cases action with
    | inside =>
      obtain ⟨count, after, pc, result, next, ran, returns, call, now,
        between⟩ := answers
      cases count with
      | zero =>
        cases ran
        rw [inside_return returns] at step
        cases step
        exact ⟨next, by simp [results, Ring.run, now], .inl ⟨rfl, between⟩⟩
      | succ count =>
        obtain ⟨moved, advanced, ran⟩ := Option.bind_eq_some_iff.1 ran
        rw [inside_step advanced] at step
        cases step
        exact ⟨ring, rfl, .inr ⟨current, count, after, pc, result, next,
          ran, returns, call, now, between⟩⟩
    | _ =>
      have busy := answers.not_idle
      cases at_ : thread.pc with
      | idle => exact absurd at_ busy
      | _ => simp only [ringMachine, at_, reduceCtorEq] at step

theorem Holds.new {poolElements : List (Addr × Addr)} {fe qe : Addr}
    {poolNext : Addr → Word} {poolData : Addr → Ptr} {queueNext : Addr → Word}
    {fes queueData : Addr → Addr} {abaCount : Nat} {null : Addr}
    (distinct : (((fe, qe) :: poolElements).map Prod.fst).Nodup)
    (blocks : (((fe, qe) :: poolElements).map Prod.snd).Nodup) :
    Holds (queueNew poolNext poolData fe qe poolElements queueNext fes
      queueData abaCount null) qe [] (poolElements.map Prod.fst) := by
  have data : ∀ pair ∈ (fe, qe) :: poolElements,
      (poolNew poolNext poolData ((fe, qe) :: poolElements)).fs.data pair.1 =
        some pair.2 :=
    fun pair mem => poolNew_data distinct mem
  have own : update fes qe fe qe = fe := update_self ..
  have all : ∀ other ∈ poolElements.map Prod.fst ++ [fe],
      ∃ pair ∈ (fe, qe) :: poolElements, pair.1 = other := by
    intro other mem
    rcases List.mem_append.1 mem with mem | mem
    · obtain ⟨pair, mem, same⟩ := List.mem_map.1 mem
      exact ⟨pair, .tail _ mem, same⟩
    · exact ⟨(fe, qe), .head _, (List.mem_singleton.1 mem).symm⟩
  constructor
  · exact ⟨rfl, by simp [queueNew]⟩
  · exact ⟨[], qe, rfl, rfl⟩
  · obtain ⟨cells, same, -, chain⟩ :
      ∃ cells, cells.map Prod.fst = ((fe, qe) :: poolElements).map Prod.fst ∧
        _ ∧ TagLinked (poolNew poolNext poolData
          ((fe, qe) :: poolElements)).fs.next _ cells :=
      poolNew_chain distinct
    have linked := chain.linked
    rw [same] at linked
    exact linked.2
  · show (poolElements.map Prod.fst ++ [update fes qe fe qe]).Nodup
    rw [own]
    exact (List.perm_append_singleton ..).nodup_iff.2 distinct
  · intro other mem
    obtain rfl := List.mem_singleton.1 mem
    show (poolNew poolNext poolData ((fe, other) :: poolElements)).fs.data
      (update fes other fe other) = _
    rw [own]
    exact data (fe, other) (.head _)
  · intro other mem
    obtain ⟨pair, inPool, rfl⟩ := List.mem_map.1 mem
    exact ⟨pair.2, data pair (.tail _ inPool)⟩
  · show ∀ left ∈ poolElements.map Prod.fst ++ [update fes qe fe qe],
      ∀ right ∈ poolElements.map Prod.fst ++ [update fes qe fe qe],
        (poolNew poolNext poolData ((fe, qe) :: poolElements)).fs.data left =
          (poolNew poolNext poolData ((fe, qe) :: poolElements)).fs.data right →
        left = right
    rw [own]
    intro left isLeft right isRight same
    obtain ⟨first, firstMember, rfl⟩ := all left isLeft
    obtain ⟨second, secondMember, rfl⟩ := all right isRight
    rw [data first firstMember, data second secondMember] at same
    rw [List.inj_on_of_nodup_map blocks firstMember secondMember
      (Option.some.inj same)]

theorem Represents.new {qs : QueueState Addr} {qe : Addr} {spare : List Addr}
    {initFunc : Bool} {next : Addr → Word} {data : Addr → Ptr}
    (distinct : elements.Nodup) (holds : Holds qs qe [] spare)
    (sameSize : spare.length = elements.length) :
    Represents elements ⟨elements, []⟩ (ringNew initFunc next data elements qs)
      ⟨[], .idle, 0⟩ := by
  have pairs : (elements.map fun each => (each, each)).map Prod.fst =
      elements := by
    rw [List.map_map]
    exact List.map_id _
  obtain ⟨cells, same, -, chain⟩ : ∃ cells, cells.map Prod.fst =
      (elements.map fun each => (each, each)).map Prod.fst ∧ _ ∧
      TagLinked (poolNew next data _).fs.next _ cells :=
    poolNew_chain (pairs.symm ▸ distinct)
  have linked := chain.linked
  rw [same, pairs] at linked
  exact .inl ⟨rfl, linked, by simp, qe, [], spare, holds, rfl, sameSize⟩

/--
With one caller that asks for an element to write only while it does not hold
all of them, the results of the calls are those of the abstract ring buffer:
unread elements are read in the order in which they were written, a write
takes the oldest unread element exactly when none is free, and a read fails
exactly when nothing is unread.  Every call that the caller may make returns.
-/
theorem ringbuffer_overwrites_oldest {elements : List Addr}
    {poolElements : List (Addr × Addr)} {fe qe : Addr} {initFunc : Bool}
    {next : Addr → Word} {data : Addr → Ptr} {poolNext : Addr → Word}
    {poolData : Addr → Ptr} {queueNext : Addr → Word}
    {fes queueData : Addr → Addr} {abaCount : Nat} {null : Addr}
    (distinct : elements.Nodup)
    (queueDistinct : (((fe, qe) :: poolElements).map Prod.fst).Nodup)
    (blocks : (((fe, qe) :: poolElements).map Prod.snd).Nodup)
    (sameSize : poolElements.length = elements.length)
    {history : List (Unit × RingEvent)}
    {config : Config Unit RingState RingThread}
    (run : (ringMachine Unit).RunWhere
      (fun config _ action => action = .getWrite →
        (config.threads ()).held.length < elements.length)
      (ringStart Unit (ringNew initFunc next data elements
        (queueNew poolNext poolData fe qe poolElements queueNext fes
          queueData abaCount null))) history config) :
    ∃ ring, Ring.run ⟨elements, []⟩ (results history) = some ring ∧
      ((config.threads ()).pc = .idle →
        ∀ action called, ringCall (config.threads ()) action = some called →
          (action = .getWrite →
            (config.threads ()).held.length < elements.length) →
          ∃ count final result after, (ringMachine Unit).execute config
                (((), action) :: List.replicate count ((), .inside)) =
              some (final, [((), .called), ((), .returned result)]) ∧
            (final.threads ()).pc = .idle ∧ result.call = action ∧
            ring.after result = some after) := by
  have inv : ∃ ring, Ring.run ⟨elements, []⟩ (results history) = some ring ∧
      Represents elements ring config.shared (config.threads ()) := by
    apply run.invariant fun history config =>
      ∃ ring, Ring.run ⟨elements, []⟩ (results history) = some ring ∧
        Represents elements ring config.shared (config.threads ())
    · exact ⟨⟨elements, []⟩, rfl, .new distinct
        (.new queueDistinct blocks) (by simpa using sameSize)⟩
    · rintro history config ⟨⟩ action outcome ⟨ring, past, kept⟩ room stepped
      obtain ⟨after, now, keptAfter⟩ := kept.step distinct room stepped
      refine ⟨after, ?_, by rwa [Config.advance_own]⟩
      rw [results_append, Ring.run_append, past]
      exact now
  obtain ⟨ring, past, kept⟩ := inv
  refine ⟨ring, past, ?_⟩
  intro idle action called call room
  have stepped : (ringMachine Unit).step () action config.shared
      (config.threads ()) =
      some ⟨config.shared, called, [((), .called)]⟩ := by
    cases action with
    | inside => cases call
    | _ => simp only [ringMachine, idle, call, Option.map_some]
  rcases kept with ⟨-, between⟩ | ⟨current, answers⟩
  · have answers := between.call distinct room call
    obtain ⟨count, final, result, after, executed, rest⟩ :=
      @Answers.execute _ _ _ (config.advance ()
          (⟨config.shared, called, [((), RingEvent.called)]⟩ : Outcome _ _ _))
        (by rw [Config.advance_own]; exact answers)
    refine ⟨count, final, result, after, ?_, rest⟩
    rw [Machine.execute_cons stepped]
    exact (congrArg _ executed).trans rfl
  · exact absurd idle answers.not_idle

/-- A ring buffer for one element: it is written, overwritten while it is
unread, written again and read. -/
theorem ringbuffer_overwrites_oldest_once : ∃ ring, Ring.run ⟨[1], []⟩
      [.gotWrite 1 false, .didPutWrite 1 true, .gotWrite 1 true,
        .didPutWrite 1 true, .gotRead (some 1), .didPutRead 1,
        .gotRead none] = some ring := by
  have executed : ((ringMachine Unit).executeWhere
      (fun config _ action => action = .getWrite →
        (config.threads ()).held.length < [1].length)
      (ringStart Unit (ringNew false (fun _ => ⟨none, 0⟩) (fun _ => none)
        [1] (queueNew (fun _ => ⟨none, 0⟩) (fun _ => none) 10 20 [(11, 21)]
          (fun _ => ⟨none, 0⟩) (fun _ => 0) (fun _ => 0) 0 0)))
      (((), .getWrite) :: List.replicate 6 ((), .inside) ++
        ((), .putWrite 1) :: List.replicate 21 ((), .inside) ++
        ((), .getWrite) :: List.replicate 23 ((), .inside) ++
        ((), .putWrite 1) :: List.replicate 21 ((), .inside) ++
        ((), .getRead) :: List.replicate 19 ((), .inside) ++
        ((), .putRead 1) :: List.replicate 7 ((), .inside) ++
        ((), .getRead) :: List.replicate 9 ((), .inside))).map Prod.snd =
      some [((), .called), ((), .returned (.gotWrite 1 false)),
        ((), .called), ((), .returned (.didPutWrite 1 true)),
        ((), .called), ((), .returned (.gotWrite 1 true)),
        ((), .called), ((), .returned (.didPutWrite 1 true)),
        ((), .called), ((), .returned (.gotRead (some 1))),
        ((), .called), ((), .returned (.didPutRead 1)),
        ((), .called), ((), .returned (.gotRead none))] := by
    decide +kernel
  rcases Option.map_eq_some_iff.1 executed with ⟨⟨config, history⟩, executed,
    rfl⟩
  rcases ringbuffer_overwrites_oldest (by decide) (by decide) (by decide) rfl
    (Machine.runWhere_of_execute executed) with ⟨ring, past, -⟩
  exact ⟨ring, past⟩

end Lockfreec.Basic.RingBuffer
