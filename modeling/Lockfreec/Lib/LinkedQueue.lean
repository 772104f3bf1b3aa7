import Lockfreec.Lib.Chain
import Lockfreec.Lib.Interleaving

/-!
# Queues of linked cells

A queue of linked cells has a word for its first cell and a word for a cell
near its last one, both with a counter that every change increases.  A thread
prepares a cell of its own, makes it end at null, and links it behind a cell
that it has once seen at the end of the queue.

The cell that the thread has seen may have left the queue in the meantime and
may be the own cell of another thread.  Linking behind it then does not
reach the queue: it makes a chain that hangs on the own cell of that thread
and that enters the queue together with it.  No thread links behind its own
chain, because the cell that it has seen became the own cell of another thread
only after its own cell was made: threads that became ready earlier hang on
threads that became ready later.

The invariant `Shape` therefore has one chain for the queue and one for every
thread, and the lemmas say how each kind of step changes them.
-/

namespace Lockfreec.Lib.LinkedQueue

open Function Lib.Chain Lib.Interleaving

variable {α Tid : Type}

/-! ## Memory, threads and chains -/

/-- The links of the cells and the two ends of the queue. -/
structure Memory (α : Type) where
  next : α → Option α
  enqueue : Pac α
  dequeue : Pac α

/-- The cells that a thread works with. -/
inductive Role (α : Type) where
  | away
  /-- The thread has a cell that is in no chain. -/
  | holding (cell : α)
  /-- The thread has a cell with a chain that ends at null. -/
  | ready (cell : α)
  /-- The thread is about to link its cell behind another one. -/
  | linking (cell target : α)

namespace Role

def held : Role α → Option α
  | .holding cell => some cell
  | _ => none

def own : Role α → Option α
  | .ready cell | .linking cell _ => some cell
  | _ => none

def target : Role α → Option α
  | .linking _ target => some target
  | _ => none

end Role

/-- The chain of the queue, the chain of every thread, and the order in which
the threads became ready. -/
structure Ghost (Tid α : Type) where
  chains : Option Tid → List α
  born : Tid → Nat
  now : Nat

/-- The chain of a thread behind a cell of the queue or of another thread. -/
def Ghost.append [DecidableEq Tid] (ghost : Ghost Tid α) (owner : Option Tid)
    (thread : Tid) : Ghost Tid α :=
  { ghost with
    chains := update (update ghost.chains owner
        (ghost.chains owner ++ ghost.chains (some thread)))
      (some thread) [] }

section

variable [DecidableEq Tid] {ghost : Ghost Tid α} {owner place : Option Tid}
  {tid : Tid} {each : α}

theorem Ghost.mem_append (ne : owner ≠ some tid) :
    each ∈ (ghost.append owner tid).chains place ↔ place ≠ some tid ∧
        (each ∈ ghost.chains place ∨
          place = owner ∧ each ∈ ghost.chains (some tid)) := by
  by_cases isThread : place = some tid
  · subst isThread
    simp [Ghost.append]
  · by_cases isOwner : place = owner
    · subst isOwner
      simp [Ghost.append, isThread]
    · simp [Ghost.append, isThread, isOwner]

theorem Ghost.mem_append_tail (ne : owner ≠ some tid)
    (inhabited : ghost.chains owner ≠ []) :
    each ∈ ((ghost.append owner tid).chains place).tail ↔ place ≠ some tid ∧
        (each ∈ (ghost.chains place).tail ∨
          place = owner ∧ each ∈ ghost.chains (some tid)) := by
  by_cases isThread : place = some tid
  · subst isThread
    simp [Ghost.append]
  · by_cases isOwner : place = owner
    · subst isOwner
      simp [Ghost.append, isThread, List.tail_append_of_ne_nil inhabited]
    · simp [Ghost.append, isThread, isOwner]

end

/-- The queue without its first cell. -/
def Ghost.drop [DecidableEq Tid] (ghost : Ghost Tid α) : Ghost Tid α :=
  { ghost with
    chains := update ghost.chains none (ghost.chains none).tail }

theorem Ghost.mem_drop [DecidableEq Tid] {ghost : Ghost Tid α}
    {place : Option Tid} {each : α} (mem : each ∈ ghost.drop.chains place) :
    each ∈ ghost.chains place := by
  cases place with
  | none => exact List.mem_of_mem_tail (by simpa [Ghost.drop] using mem)
  | some tid => simpa [Ghost.drop] using mem

/-- Where a chain starts. -/
def start (mem : Memory α) (roles : Tid → Role α) : Option Tid → Option α
  | none => mem.dequeue.pointer
  | some thread => (roles thread).own

/-- The cells that a chain or a thread has. -/
def Used (roles : Tid → Role α) (ghost : Ghost Tid α) (cell : α) : Prop :=
  (∃ owner, cell ∈ ghost.chains owner) ∨
    ∃ thread, (roles thread).held = some cell

/-- The cells behind the first one of a chain. -/
def Stored (ghost : Ghost Tid α) (cell : α) : Prop :=
  ∃ owner, cell ∈ (ghost.chains owner).tail

structure Shape (mem : Memory α) (roles : Tid → Role α)
    (ghost : Ghost Tid α) : Prop where
  chain : ∀ owner, Linked mem.next (start mem roles owner) (ghost.chains owner)
  apart : ∀ {left right cell}, cell ∈ ghost.chains left →
    cell ∈ ghost.chains right → left = right
  tail : ∃ cell ∈ ghost.chains none, mem.enqueue.pointer = some cell
  held : ∀ {thread cell}, (roles thread).held = some cell →
    ∀ owner, cell ∉ ghost.chains owner
  heldOnce : ∀ {left right cell}, (roles left).held = some cell →
    (roles right).held = some cell → left = right
  older : ∀ {thread other cell}, (roles thread).target = some cell →
    cell ∈ ghost.chains (some other) → ghost.born thread < ghost.born other
  ended : ∀ {thread cell}, (roles thread).target = some cell →
    mem.next cell = none → ∃ owner, cell ∈ ghost.chains owner
  past : ∀ thread, ghost.born thread ≤ ghost.now

/-! ## How the ends of the queue move -/

/-- The counters grow with every change, the links inside the queue stay, and
the enqueue end does not fall back to the dequeue end. -/
structure Later (mem after : Memory α) (queue changed : List α) : Prop where
  enqueue : mem.enqueue.counter ≤ after.enqueue.counter
  sameEnqueue : after.enqueue.counter = mem.enqueue.counter →
    after.enqueue = mem.enqueue
  dequeue : mem.dequeue.counter ≤ after.dequeue.counter
  sameDequeue : after.dequeue.counter = mem.dequeue.counter →
    after.dequeue = mem.dequeue
  links : ∀ {cell next}, cell ∈ queue → cell ∈ changed →
    mem.next cell = some next → after.next cell = some next
  behind : after.dequeue = mem.dequeue →
    mem.enqueue.pointer ≠ mem.dequeue.pointer →
    after.enqueue.pointer ≠ after.dequeue.pointer

theorem Later.refl (mem : Memory α) (queue : List α) :
    Later mem mem queue queue :=
  ⟨Nat.le_refl _, fun _ => rfl, Nat.le_refl _, fun _ => rfl,
    fun _ _ link => link, fun _ apart => apart⟩

namespace Shape

variable {mem : Memory α} {roles : Tid → Role α} {ghost : Ghost Tid α}
  {tid : Tid} {role : Role α} {cell target : α}

/-! ## Reading the shape -/

section

variable (shape : Shape mem roles ghost)

include shape

theorem head : ∃ first rest, ghost.chains none = first :: rest ∧
      mem.dequeue.pointer = some first ∧
      Linked mem.next (mem.next first) rest := by
  rcases shape.tail with ⟨last, member, -⟩
  have chain := shape.chain none
  cases queue : ghost.chains none with
  | nil =>
    rw [queue] at member
    cases member
  | cons first rest =>
    rw [queue] at chain
    exact ⟨first, rest, rfl, chain⟩

theorem own_chain (own : (roles tid).own = some cell) :
    ∃ rest, ghost.chains (some tid) = cell :: rest := by
  have chain := shape.chain (some tid)
  rw [start, own] at chain
  rcases chain.exists_cons with ⟨rest, same, -⟩
  exact ⟨rest, same⟩

theorem no_chain
    (own : (roles tid).own = none) : ghost.chains (some tid) = [] := by
  have chain := shape.chain (some tid)
  rw [start, own] at chain
  exact linked_none.1 chain

theorem own_used (own : (roles tid).own = some cell) : Used roles ghost cell := by
  rcases shape.own_chain own with ⟨rest, same⟩
  exact .inl ⟨some tid, by simp [same]⟩

/-- A cell behind the first one of a chain is the own cell of no thread and
not the first one of the queue. -/
theorem stored_not_start (stored : Stored ghost cell) (owner : Option Tid) :
    start mem roles owner ≠ some cell := by
  rcases stored with ⟨place, member⟩
  intro isStart
  have chain := shape.chain owner
  rw [isStart] at chain
  rcases chain.exists_cons with ⟨rest, same, -⟩
  have here : cell ∈ ghost.chains owner := by simp [same]
  have owners := shape.apart (List.mem_of_mem_tail member) here
  subst owners
  have distinct := (shape.chain place).nodup
  rw [same, List.nodup_cons] at distinct
  rw [same, List.tail_cons] at member
  exact distinct.1 member

/-- The cell behind the first one of the queue. -/
theorem second {first next : α} (isFirst : mem.dequeue.pointer = some first)
    (link : mem.next first = some next) :
    ∃ rest, ghost.chains none = first :: next :: rest := by
  rcases shape.head with ⟨head, tail, queue, isHead, linked⟩
  rw [isFirst] at isHead
  cases isHead
  rw [link] at linked
  rcases linked.exists_cons with ⟨rest, rfl, -⟩
  exact ⟨rest, queue⟩

/-- If the enqueue end is not at the first cell, there is a second one. -/
theorem exists_second {first : α} (isFirst : mem.dequeue.pointer = some first)
    (behind : mem.enqueue.pointer ≠ mem.dequeue.pointer) :
    ∃ next, mem.next first = some next := by
  rcases shape.head with ⟨head, tail, queue, isHead, linked⟩
  rw [isFirst] at isHead
  cases isHead
  rcases shape.tail with ⟨last, member, isLast⟩
  cases tail with
  | nil =>
    rw [queue, List.mem_singleton] at member
    subst member
    exact absurd (isLast.trans isFirst.symm) behind
  | cons next rest => exact ⟨next, linked.1⟩

/-- What the enqueue end links to is behind the first cell. -/
theorem behind_last {last next : α} (isLast : mem.enqueue.pointer = some last)
    (link : mem.next last = some next) : next ∈ (ghost.chains none).tail := by
  rcases shape.tail with ⟨cell, member, isCell⟩
  rw [isLast] at isCell
  cases isCell
  rcases List.append_of_mem member with ⟨front, rest, split⟩
  have chain := shape.chain none
  rw [split] at chain
  have drop := chain.drop
  rw [link] at drop
  rcases drop.exists_cons with ⟨others, rfl, -⟩
  rw [split]
  cases front <;> simp

end

variable [DecidableEq Tid]

theorem start_update (mem : Memory α) (roles : Tid → Role α) (tid : Tid)
    (role : Role α) :
    start mem (update roles tid role) =
      update (start mem roles) (some tid) role.own := by
  funext owner
  cases owner with
  | none => rfl
  | some other =>
    by_cases same : other = tid
    · subst same
      simp [start]
    · simp [start, same]

theorem start_kept (own : role.own = (roles tid).own) :
    start mem (update roles tid role) = start mem roles := by
  rw [start_update, own]
  exact update_eq_self (some tid) (start mem roles)

/-! ## Steps that store no link -/

/-- A thread lets go of what it has, or looks at a cell of the queue. -/
theorem move (shape : Shape mem roles ghost) (own : role.own = (roles tid).own)
    (held : role.held = none ∨ role.held = (roles tid).held)
    (seen : ∀ cell, role.target = some cell →
      cell ∈ ghost.chains none ∨ (roles tid).target = some cell) :
    Shape mem (update roles tid role) ghost := by
  have stillHeld : ∀ {other cell},
      (update roles tid role other).held = some cell →
        (roles other).held = some cell :=
    held_of_kept Role.held held
  have stillSeen : ∀ {other cell},
      (update roles tid role other).target = some cell →
        cell ∈ ghost.chains none ∨ (roles other).target = some cell := by
    intro other cell isTarget
    rcases update_cases (Role.target · = some cell) isTarget with
      ⟨rfl, ownTarget⟩ | ⟨-, otherTarget⟩
    · exact seen cell ownTarget
    · exact .inr otherTarget
  refine { shape with
    chain := ?chain, held := ?held, heldOnce := ?heldOnce
    older := ?older, ended := ?ended }
  case chain =>
    rw [start_kept own]
    exact shape.chain
  case held => exact fun isHeld => shape.held (stillHeld isHeld)
  case heldOnce =>
    exact fun left right => shape.heldOnce (stillHeld left) (stillHeld right)
  case older =>
    intro other another cell isTarget member
    rcases stillSeen isTarget with inQueue | before
    · cases shape.apart inQueue member
    · exact shape.older before member
  case ended =>
    intro other cell isTarget link
    rcases stillSeen isTarget with inQueue | before
    · exact ⟨none, inQueue⟩
    · exact shape.ended before link

/-- A thread gets a cell that nothing else has. -/
theorem hold (shape : Shape mem roles ghost) (own : (roles tid).own = none)
    (fresh : ¬ Used roles ghost cell) :
    Shape mem (update roles tid (.holding cell)) ghost := by
  have stillSeen : ∀ {other kept},
      (update roles tid (.holding cell) other).target = some kept →
        (roles other).target = some kept :=
    held_of_kept Role.target (.inl rfl)
  refine { shape with
    chain := ?chain, held := ?held, heldOnce := ?heldOnce
    older := ?older, ended := ?ended }
  case chain =>
    rw [start_kept (show (Role.holding cell).own = _ from own.symm)]
    exact shape.chain
  case held =>
    intro other kept isHeld owner member
    rcases update_cases (Role.held · = some kept) isHeld with
      ⟨-, ⟨⟩⟩ | ⟨-, isHeld⟩
    · exact fresh (.inl ⟨owner, member⟩)
    · exact shape.held isHeld owner member
  case heldOnce =>
    refine once_update Role.held shape.heldOnce ?_
    rintro other _ - isHeld ⟨⟩
    exact fresh (.inr ⟨other, isHeld⟩)
  case older => exact fun isTarget => shape.older (stillSeen isTarget)
  case ended => exact fun isTarget => shape.ended (stillSeen isTarget)

/-! ## Steps that store a link -/

section Links

variable [DecidableEq α]

/-- A cell is made to end at null and becomes the chain of its thread. -/
theorem ready (shape : Shape mem roles ghost)
    (here : roles tid = .holding cell) :
    Shape { mem with next := update mem.next cell none }
      (update roles tid (.ready cell))
      { chains := update ghost.chains (some tid) [cell]
        born := update ghost.born tid (ghost.now + 1)
        now := ghost.now + 1 } := by
  have isHeld : (roles tid).held = some cell := congrArg Role.held here
  have fresh : ∀ owner, cell ∉ ghost.chains owner := shape.held isHeld
  have members : ∀ {owner each},
      each ∈ update ghost.chains (some tid) [cell] owner →
        (owner = some tid ∧ each = cell) ∨
          owner ≠ some tid ∧ each ∈ ghost.chains owner := by
    intro owner each member
    rcases update_cases (fun list => each ∈ list) member with
      ⟨isThread, isCell⟩ | isOther
    · exact .inl ⟨isThread, List.mem_singleton.1 isCell⟩
    · exact .inr isOther
  have stillHeld : ∀ {other each},
      (update roles tid (.ready cell) other).held = some each →
        other ≠ tid ∧ (roles other).held = some each :=
    held_of_empty Role.held rfl
  have stillSeen : ∀ {other each},
      (update roles tid (.ready cell) other).target = some each →
        other ≠ tid ∧ (roles other).target = some each :=
    held_of_empty Role.target rfl
  constructor
  case chain =>
    intro owner
    change Linked _ (start mem (update roles tid (.ready cell)) owner) _
    rw [start_update]
    by_cases same : owner = some tid
    · subst same
      simp [Role.own]
    · change Linked _ _ (update ghost.chains (some tid) [cell] owner)
      rw [update_of_ne same, update_of_ne same]
      exact (shape.chain owner).update (fresh owner)
  case apart =>
    intro left right each inLeft inRight
    rcases members inLeft with ⟨rfl, rfl⟩ | ⟨-, oldLeft⟩
    · rcases members inRight with ⟨rfl, -⟩ | ⟨-, oldRight⟩
      · rfl
      · exact absurd oldRight (fresh right)
    · rcases members inRight with ⟨rfl, rfl⟩ | ⟨-, oldRight⟩
      · exact absurd oldLeft (fresh left)
      · exact shape.apart oldLeft oldRight
  case tail => exact shape.tail
  case held =>
    intro other each held owner member
    rcases stillHeld held with ⟨ne, otherHeld⟩
    rcases members member with ⟨-, rfl⟩ | ⟨-, old⟩
    · exact ne (shape.heldOnce otherHeld isHeld)
    · exact shape.held otherHeld owner old
  case heldOnce =>
    exact fun left right =>
      shape.heldOnce (stillHeld left).2 (stillHeld right).2
  case older =>
    intro other another each isTarget member
    rcases stillSeen isTarget with ⟨ne, otherTarget⟩
    change update ghost.born tid (ghost.now + 1) other <
      update ghost.born tid (ghost.now + 1) another
    rw [update_of_ne ne]
    rcases members member with ⟨isThread, -⟩ | ⟨notThread, old⟩
    · cases isThread
      rw [update_self]
      exact Nat.lt_succ_of_le (shape.past other)
    · rw [update_of_ne fun same => notThread (congrArg some same)]
      exact shape.older otherTarget old
  case ended =>
    intro other each isTarget link
    by_cases same : each = cell
    · subst same
      exact ⟨some tid, by simp⟩
    · change update mem.next cell none each = none at link
      rw [update_of_ne same] at link
      rcases shape.ended (stillSeen isTarget).2 link with ⟨owner, member⟩
      refine ⟨owner, ?_⟩
      change each ∈ update ghost.chains (some tid) [cell] owner
      rw [update_of_ne]
      · exact member
      · rintro rfl
        rw [shape.no_chain (by rw [here]; rfl)] at member
        cases member
  case past =>
    intro other
    change update ghost.born tid (ghost.now + 1) other ≤ _
    by_cases same : other = tid
    · subst same
      simp
    · rw [update_of_ne same]
      exact Nat.le_succ_of_le (shape.past other)

/-- A successful link: the thread's chain goes behind the chain that ends with
the cell it has seen. -/
theorem link (shape : Shape mem roles ghost)
    (here : roles tid = .linking cell target) (ends : mem.next target = none) :
    ∃ owner, owner ≠ some tid ∧ target ∈ ghost.chains owner ∧
      Shape { mem with next := update mem.next target (some cell) }
        (update roles tid .away) (ghost.append owner tid) := by
  have isTarget : (roles tid).target = some target :=
    congrArg Role.target here
  have own : start mem roles (some tid) = some cell := congrArg Role.own here
  rcases shape.ended isTarget ends with ⟨owner, member⟩
  have ne : owner ≠ some tid := by
    rintro rfl
    exact Nat.lt_irrefl _ (shape.older isTarget member)
  have notOwn : target ∉ ghost.chains (some tid) :=
    fun again => ne (shape.apart member again)
  have stillHeld : ∀ {other each},
      (update roles tid .away other).held = some each →
        (roles other).held = some each :=
    held_of_kept Role.held (.inl rfl)
  have stillSeen : ∀ {other each},
      (update roles tid .away other).target = some each →
        (roles other).target = some each :=
    held_of_kept Role.target (.inl rfl)
  refine ⟨owner, ne, member, ?_⟩
  constructor
  case chain =>
    intro place
    change Linked _ (start mem (update roles tid .away) place) _
    rw [start_update]
    by_cases isThread : place = some tid
    · subst isThread
      simp [Ghost.append, Role.own]
    · rw [update_of_ne isThread]
      simp only [Ghost.append, update_of_ne isThread]
      by_cases isOwner : place = owner
      · subst isOwner
        rw [update_self]
        rcases (shape.chain place).eq_append_last member ends with
          ⟨front, split⟩
        have front := shape.chain place
        rw [split] at front
        have behind := shape.chain (some tid)
        rw [own] at behind
        rw [split]
        exact front.append behind notOwn
      · rw [update_of_ne isOwner]
        apply (shape.chain place).update
        exact fun again => isOwner (shape.apart again member)
  case apart =>
    intro left right each inLeft inRight
    rcases (Ghost.mem_append ne).1 inLeft with ⟨leftOther, leftCase⟩
    rcases (Ghost.mem_append ne).1 inRight with ⟨rightOther, rightCase⟩
    rcases leftCase with oldLeft | ⟨rfl, ownLeft⟩
    · rcases rightCase with oldRight | ⟨rfl, ownRight⟩
      · exact shape.apart oldLeft oldRight
      · exact absurd (shape.apart oldLeft ownRight) leftOther
    · rcases rightCase with oldRight | ⟨rfl, -⟩
      · exact absurd (shape.apart oldRight ownLeft) rightOther
      · rfl
  case tail =>
    rcases shape.tail with ⟨last, inQueue, isLast⟩
    refine ⟨last, ?_, isLast⟩
    exact (Ghost.mem_append ne).2 ⟨by simp, .inl inQueue⟩
  case held =>
    intro other each held place inPlace
    rcases (Ghost.mem_append ne).1 inPlace with ⟨-, old | ⟨-, own⟩⟩
    · exact shape.held (stillHeld held) place old
    · exact shape.held (stillHeld held) (some tid) own
  case heldOnce =>
    exact fun left right =>
      shape.heldOnce (stillHeld left) (stillHeld right)
  case older =>
    intro other another each otherTarget inChain
    have seen := stillSeen otherTarget
    rcases (Ghost.mem_append ne).1 inChain with ⟨-, old | ⟨isOwner, own⟩⟩
    · exact shape.older seen old
    · subst isOwner
      exact Nat.lt_trans (shape.older seen own) (shape.older isTarget member)
  case ended =>
    intro other each otherTarget link
    have apart : each ≠ target := by
      rintro rfl
      simp at link
    change update mem.next target (some cell) each = none at link
    rw [update_of_ne apart] at link
    rcases shape.ended (stillSeen otherTarget) link with ⟨place, inPlace⟩
    by_cases isThread : place = some tid
    · subst isThread
      exact ⟨owner, (Ghost.mem_append ne).2 ⟨ne, .inr ⟨rfl, inPlace⟩⟩⟩
    · exact ⟨place, (Ghost.mem_append ne).2 ⟨isThread, .inl inPlace⟩⟩
  case past => exact shape.past

end Links

/-! ## Steps that move an end of the queue -/

omit [DecidableEq Tid] in
/-- The enqueue end moves to the next cell. -/
theorem swing (shape : Shape mem roles ghost) {last next : α} {counter : Nat}
    (isLast : mem.enqueue.pointer = some last)
    (link : mem.next last = some next) :
    Shape { mem with enqueue := ⟨some next, counter⟩ } roles ghost :=
  { shape with
    tail := ⟨next, List.mem_of_mem_tail (shape.behind_last isLast link), rfl⟩ }

/-- The dequeue end moves to the next cell, and the thread gets the first
one. -/
theorem advance (shape : Shape mem roles ghost) {first next : α} {counter : Nat}
    (here : roles tid = .away) (isFirst : mem.dequeue.pointer = some first)
    (link : mem.next first = some next)
    (behind : mem.enqueue.pointer ≠ mem.dequeue.pointer) :
    Shape { mem with dequeue := ⟨some next, counter⟩ }
      (update roles tid (.holding first)) ghost.drop := by
  rcases shape.second isFirst link with ⟨rest, queue⟩
  have inQueue : first ∈ ghost.chains none := by simp [queue]
  have distinct := (shape.chain none).nodup
  rw [queue, List.nodup_cons] at distinct
  have tail : ghost.drop.chains none = next :: rest := by
    simp [Ghost.drop, queue]
  have left : ∀ owner, first ∉ ghost.drop.chains owner := by
    intro owner member
    have place := shape.apart (Ghost.mem_drop member) inQueue
    subst place
    rw [tail] at member
    exact distinct.1 member
  have stillSeen : ∀ {other each},
      (update roles tid (.holding first) other).target = some each →
        (roles other).target = some each :=
    held_of_kept Role.target (.inl rfl)
  constructor
  case chain =>
    intro owner
    cases owner with
    | none =>
      have chain := shape.chain none
      rw [queue] at chain
      rw [tail]
      exact ⟨rfl, chain.2.2⟩
    | some other =>
      change Linked mem.next (start mem (update roles tid (.holding first))
          (some other)) (ghost.drop.chains (some other))
      rw [start_kept (show (Role.holding first).own = _ from
        (congrArg Role.own here).symm)]
      simpa [Ghost.drop] using shape.chain (some other)
  case apart =>
    exact fun inLeft inRight =>
      shape.apart (Ghost.mem_drop inLeft) (Ghost.mem_drop inRight)
  case tail =>
    rcases shape.tail with ⟨last, member, isLast⟩
    refine ⟨last, ?_, isLast⟩
    rw [tail]
    rw [queue] at member
    apply (List.mem_cons.1 member).resolve_left
    rintro rfl
    exact behind (isLast.trans isFirst.symm)
  case held =>
    intro other each held owner member
    rcases update_cases (Role.held · = some each) held with
      ⟨-, ⟨⟩⟩ | ⟨-, otherHeld⟩
    · exact left owner member
    · exact shape.held otherHeld owner (Ghost.mem_drop member)
  case heldOnce =>
    refine once_update Role.held shape.heldOnce ?_
    rintro other _ - held ⟨⟩
    exact shape.held held none inQueue
  case older =>
    exact fun isTarget member =>
      shape.older (stillSeen isTarget) (Ghost.mem_drop member)
  case ended =>
    intro other each isTarget ends
    rcases shape.ended (stillSeen isTarget) ends with ⟨owner, member⟩
    refine ⟨owner, ?_⟩
    cases owner with
    | none =>
      rw [tail]
      rw [queue] at member
      apply (List.mem_cons.1 member).resolve_left
      rintro rfl
      change mem.next each = none at ends
      rw [link] at ends
      cases ends
    | some other => simpa [Ghost.drop] using member
  case past => exact shape.past

/-! ## The cells in use -/

section Used

variable {each : α}

theorem used_update : Used (update roles tid role) ghost each ↔
      (∃ owner, each ∈ ghost.chains owner) ∨ role.held = some each ∨
        ∃ other, other ≠ tid ∧ (roles other).held = some each := by
  rw [Used, exists_update fun state : Role α => state.held = some each]

omit [DecidableEq Tid] in
theorem used_thread (tid : Tid) : Used roles ghost each ↔
      (∃ owner, each ∈ ghost.chains owner) ∨ (roles tid).held = some each ∨
        ∃ other, other ≠ tid ∧ (roles other).held = some each := by
  rw [Used, exists_thread (fun state : Role α => state.held = some each) tid]

theorem used_move (same : role.held = (roles tid).held) :
    Used (update roles tid role) ghost each ↔ Used roles ghost each := by
  rw [used_update, used_thread tid, same]

theorem used_hold (empty : (roles tid).held = none) :
    Used (update roles tid (.holding cell)) ghost each ↔
      Used roles ghost each ∨ each = cell := by
  rw [used_update, used_thread tid, empty]
  simp only [Role.held, Option.some.injEq, reduceCtorEq, false_or]
  rw [or_assoc, eq_comm]
  exact or_congr_right or_comm

theorem used_release (shape : Shape mem roles ghost)
    (isHeld : (roles tid).held = some cell) (empty : role.held = none) :
    Used (update roles tid role) ghost each ↔
      Used roles ghost each ∧ each ≠ cell := by
  rw [used_update, used_thread tid, empty, isHeld]
  constructor
  · rintro (⟨owner, member⟩ | none | ⟨other, ne, otherHeld⟩)
    · refine ⟨.inl ⟨owner, member⟩, ?_⟩
      rintro rfl
      exact shape.held isHeld owner member
    · cases none
    · refine ⟨.inr (.inr ⟨other, ne, otherHeld⟩), ?_⟩
      rintro rfl
      exact ne (shape.heldOnce otherHeld isHeld)
  · rintro ⟨inChain | same | elsewhere, notCell⟩
    · exact .inl inChain
    · exact absurd (Option.some.inj same).symm notCell
    · exact .inr (.inr elsewhere)

theorem used_ready (shape : Shape mem roles ghost)
    (here : roles tid = .holding cell) {born : Tid → Nat} {now : Nat} :
    Used (update roles tid (.ready cell))
        ⟨update ghost.chains (some tid) [cell], born, now⟩
        each ↔
      Used roles ghost each := by
  have noChain := shape.no_chain (by rw [here]; rfl)
  have chains : (∃ owner, each ∈ update ghost.chains (some tid) [cell] owner) ↔
      each = cell ∨ ∃ owner, each ∈ ghost.chains owner := by
    rw [exists_update fun list : List α => each ∈ list,
      exists_thread (fun list : List α => each ∈ list) (some tid),
      noChain]
    simp
  rw [used_update, used_thread tid, here]
  simp only [chains, Role.held, Option.some.injEq, reduceCtorEq, false_or,
    eq_comm (a := cell)]
  tauto

theorem used_link {owner : Option Tid} (ne : owner ≠ some tid)
    (empty : (roles tid).held = none) :
    Used (update roles tid .away) (ghost.append owner tid) each ↔
      Used roles ghost each := by
  have chains : (∃ place, each ∈ (ghost.append owner tid).chains place) ↔
      ∃ place, each ∈ ghost.chains place := by
    constructor
    · rintro ⟨place, mem⟩
      rcases (Ghost.mem_append ne).1 mem with
        ⟨-, old | ⟨-, own⟩⟩
      · exact ⟨place, old⟩
      · exact ⟨some tid, own⟩
    · rintro ⟨place, mem⟩
      by_cases isThread : place = some tid
      · subst isThread
        exact ⟨owner, (Ghost.mem_append ne).2 ⟨ne, .inr ⟨rfl, mem⟩⟩⟩
      · exact ⟨place, (Ghost.mem_append ne).2 ⟨isThread, .inl mem⟩⟩
  rw [used_update, used_thread tid, empty, chains]
  rfl

theorem used_advance (shape : Shape mem roles ghost) {first : α}
    (isFirst : mem.dequeue.pointer = some first)
    (empty : (roles tid).held = none) :
    Used (update roles tid (.holding first)) ghost.drop each ↔
      Used roles ghost each := by
  rcases shape.head with ⟨head, rest, queue, isHead, -⟩
  rw [isFirst] at isHead
  cases isHead
  have chains : (∃ place, each ∈ ghost.chains place) ↔
      (∃ place, each ∈ ghost.drop.chains place) ∨ each = first := by
    simp only [Ghost.drop, exists_update fun list : List α => each ∈ list]
    rw [exists_thread (fun list : List α => each ∈ list) none, queue,
      List.mem_cons, List.tail_cons, or_assoc, or_comm]
  rw [used_hold empty, used_thread tid, used_thread tid, chains]
  exact or_right_comm

end Used

/-! ## The cells behind the first one -/

section Stored

variable {each : α}

/-- Linking stores the own cell of the thread. -/
theorem stored_link (shape : Shape mem roles ghost) {owner : Option Tid}
    (own : (roles tid).own = some cell) (ne : owner ≠ some tid)
    (member : target ∈ ghost.chains owner) :
    Stored (ghost.append owner tid) each ↔ Stored ghost each ∨ each = cell := by
  rcases shape.own_chain own with ⟨rest, chain⟩
  simp only [Stored, Ghost.mem_append_tail ne (List.ne_nil_of_mem member)]
  constructor
  · rintro ⟨place, -, old | ⟨-, hanging⟩⟩
    · exact .inl ⟨place, old⟩
    · rw [chain] at hanging
      rcases List.mem_cons.1 hanging with rfl | inRest
      · exact .inr rfl
      · exact .inl ⟨some tid, by rwa [chain]⟩
  · rintro (⟨place, inTail⟩ | rfl)
    · by_cases isThread : place = some tid
      · subst isThread
        exact ⟨owner, ne, .inr ⟨rfl, List.mem_of_mem_tail inTail⟩⟩
      · exact ⟨place, isThread, .inl inTail⟩
    · exact ⟨owner, ne, .inr ⟨rfl, by simp [chain]⟩⟩

/-- The cell behind the first one becomes the first one. -/
theorem stored_advance (shape : Shape mem roles ghost) {first next : α}
    (isFirst : mem.dequeue.pointer = some first)
    (link : mem.next first = some next) :
    Stored ghost.drop each ↔ Stored ghost each ∧ each ≠ next := by
  rcases shape.second isFirst link with ⟨rest, queue⟩
  have distinct := (shape.chain none).nodup
  rw [queue, List.nodup_cons, List.nodup_cons] at distinct
  have inQueue : next ∈ ghost.chains none := by simp [queue]
  constructor
  · rintro ⟨place, inTail⟩
    cases place with
    | none =>
      simp only [Ghost.drop, update_self, queue, List.tail_cons] at inTail
      refine ⟨⟨none, by simp [queue, inTail]⟩, ?_⟩
      rintro rfl
      exact distinct.2.1 inTail
    | some other =>
      simp only [Ghost.drop, ne_eq, reduceCtorEq, not_false_eq_true,
        update_of_ne] at inTail
      refine ⟨⟨some other, inTail⟩, ?_⟩
      rintro rfl
      cases shape.apart (List.mem_of_mem_tail inTail) inQueue
  · rintro ⟨⟨place, inTail⟩, notNext⟩
    refine ⟨place, ?_⟩
    cases place with
    | none =>
      rw [queue, List.tail_cons] at inTail
      simp only [Ghost.drop, update_self, queue, List.tail_cons]
      exact (List.mem_cons.1 inTail).resolve_left notNext
    | some other => simpa [Ghost.drop] using inTail

end Stored

/-! ## The ends of the queue after a step -/

section Later

omit [DecidableEq Tid]

theorem later_store [DecidableEq α] {queue changed : List α}
    {value : Option α} (outside : ∀ next, target ∈ queue →
      mem.next target ≠ some next) :
    Later mem { mem with next := update mem.next target value } queue
      changed := by
  refine ⟨Nat.le_refl _, fun _ => rfl, Nat.le_refl _, fun _ => rfl, ?_,
    fun _ apart => apart⟩
  intro each next inQueue _ link
  change update mem.next target value each = some next
  rw [update_of_ne]
  · exact link
  · rintro rfl
    exact outside next inQueue link

theorem later_ready [DecidableEq α] (shape : Shape mem roles ghost)
    (here : roles tid = .holding cell) :
    Later mem { mem with next := update mem.next cell none }
      (ghost.chains none) (ghost.chains none) :=
  later_store fun _ inQueue _ =>
    shape.held (congrArg Role.held here) none inQueue

theorem later_link [DecidableEq α] {queue changed : List α}
    (ends : mem.next target = none) :
    Later mem { mem with next := update mem.next target cell }
      queue changed := by
  refine later_store fun _ _ link => ?_
  rw [ends] at link
  cases link

theorem later_swing (shape : Shape mem roles ghost) {last next : α}
    {counter : Nat} (isLast : mem.enqueue.pointer = some last)
    (link : mem.next last = some next) (grows : mem.enqueue.counter < counter) :
    Later mem { mem with enqueue := ⟨some next, counter⟩ }
      (ghost.chains none) (ghost.chains none) := by
  refine ⟨Nat.le_of_lt grows, fun same => absurd same (by simp; omega),
    Nat.le_refl _, fun _ => rfl, fun _ _ link => link, ?_⟩
  intro _ _ same
  change some next = mem.dequeue.pointer at same
  exact shape.stored_not_start ⟨none, shape.behind_last isLast link⟩ none
    same.symm

theorem later_advance {queue changed : List α} {next : α} {counter : Nat}
    (grows : mem.dequeue.counter < counter) :
    Later mem { mem with dequeue := ⟨some next, counter⟩ } queue changed := by
  refine ⟨Nat.le_refl _, fun _ => rfl, Nat.le_of_lt grows,
    fun same => absurd same (by simp; omega), fun _ _ link => link, ?_⟩
  intro same
  rw [← same] at grows
  simp at grows

end Later

end Shape

/-! ## What a thread has seen of the ends -/

section Seen

variable {mem after : Memory α} {roles others : Tid → Role α}
  {ghost changed : Ghost Tid α} {seen : Pac α}

/-- A link that was loaded while the enqueue end was as it was seen. -/
def NextSeen (mem : Memory α) (seen : Pac α) (next : Option α) : Prop :=
  ∀ cell following, mem.enqueue = seen → seen.pointer = some cell →
    next = some following → mem.next cell = some following

/-- The pointer of the enqueue end belongs to the counter. -/
def TailPinned (mem : Memory α) (seen : Pac α) : Prop :=
  mem.enqueue.counter = seen.counter → mem.enqueue.pointer = seen.pointer

/-- The pointer of the dequeue end belongs to the counter. -/
def HeadPinned (mem : Memory α) (seen : Pac α) : Prop :=
  mem.dequeue.counter = seen.counter → mem.dequeue.pointer = seen.pointer

/-- An enqueue end that was seen apart from the dequeue end. -/
def BehindSeen (mem : Memory α) (seen : Pac α) (tail : Option α) : Prop :=
  mem.dequeue = seen → tail ≠ seen.pointer →
    mem.enqueue.pointer ≠ mem.dequeue.pointer

/-- The cell behind the first one, loaded while the enqueue end was seen
behind it. -/
def SecondSeen (mem : Memory α) (seen : Pac α) (tail next : Option α) :
    Prop :=
  mem.dequeue = seen → tail ≠ seen.pointer →
    ∃ first following, seen.pointer = some first ∧
      next = some following ∧ mem.next first = some following

variable {queue grown : List α}

theorem Later.enqueue_eq (later : Later mem after queue grown)
    (bound : seen.counter ≤ mem.enqueue.counter)
    (same : after.enqueue.counter = seen.counter) :
    after.enqueue = mem.enqueue := by
  apply later.sameEnqueue
  have grows := later.enqueue
  omega

theorem Later.dequeue_eq (later : Later mem after queue grown)
    (bound : seen.counter ≤ mem.dequeue.counter)
    (same : after.dequeue.counter = seen.counter) :
    after.dequeue = mem.dequeue := by
  apply later.sameDequeue
  have grows := later.dequeue
  omega

theorem NextSeen.later {next : Option α} (shape : Shape mem roles ghost)
    (kept : Shape after others changed)
    (later : Later mem after (ghost.chains none) (changed.chains none))
    (bound : seen.counter ≤ mem.enqueue.counter)
    (loaded : NextSeen mem seen next) : NextSeen after seen next := by
  intro cell following same pointer isNext
  have unchanged := later.enqueue_eq bound (by rw [same])
  rcases shape.tail with ⟨last, inQueue, isLast⟩
  rcases kept.tail with ⟨lastAfter, inChanged, isLastAfter⟩
  rw [same, pointer] at isLastAfter
  cases isLastAfter
  rw [← unchanged, same, pointer] at isLast
  cases isLast
  exact later.links inQueue inChanged
    (loaded cell following (unchanged.symm.trans same) pointer isNext)

theorem TailPinned.later (later : Later mem after queue grown)
    (bound : seen.counter ≤ mem.enqueue.counter)
    (pinned : TailPinned mem seen) :
    TailPinned after seen := by
  intro same
  have unchanged := later.enqueue_eq bound same
  rw [unchanged] at same ⊢
  exact pinned same

theorem HeadPinned.later (later : Later mem after queue grown)
    (bound : seen.counter ≤ mem.dequeue.counter)
    (pinned : HeadPinned mem seen) :
    HeadPinned after seen := by
  intro same
  have unchanged := later.dequeue_eq bound same
  rw [unchanged] at same ⊢
  exact pinned same

theorem BehindSeen.later {tail : Option α} (later : Later mem after queue grown)
    (bound : seen.counter ≤ mem.dequeue.counter)
    (behind : BehindSeen mem seen tail) : BehindSeen after seen tail := by
  intro same ne
  have unchanged := later.dequeue_eq bound (by rw [same])
  exact later.behind unchanged (behind (unchanged.symm.trans same) ne)

theorem SecondSeen.later {tail next : Option α} (shape : Shape mem roles ghost)
    (kept : Shape after others changed)
    (later : Later mem after (ghost.chains none) (changed.chains none))
    (bound : seen.counter ≤ mem.dequeue.counter)
    (loaded : SecondSeen mem seen tail next) :
    SecondSeen after seen tail next := by
  intro same ne
  have unchanged := later.dequeue_eq bound (by rw [same])
  rcases loaded (unchanged.symm.trans same) ne with
    ⟨first, following, pointer, isNext, link⟩
  refine ⟨first, following, pointer, isNext, ?_⟩
  rcases shape.head with ⟨head, rest, queue, isHead, -⟩
  rcases kept.head with ⟨headAfter, restAfter, queueAfter, isHeadAfter, -⟩
  rw [same, pointer] at isHeadAfter
  cases isHeadAfter
  rw [← unchanged, same, pointer] at isHead
  cases isHead
  exact later.links (by simp [queue]) (by simp [queueAfter]) link

end Seen

end Lockfreec.Lib.LinkedQueue
