import Lockfreec.Lib.Chain
import Lockfreec.Lib.Interleaving

/-!
# Stacks with tagged links

A linked stack whose top and links are pointer-and-counter pairs.  A push
draws a counter that was never used before, prepares the link of a cell that
only it holds and publishes the pair of cell and counter; a pop reads the
counter of the top, loads the link of the top cell word by word and replaces
the pair it has read by that link.

`Access` is what one thread is doing to the stack.  A pair that a pop has read
is in the chain now only if its cell has stayed there since, because the
counter belongs to one push, and then the link that the pop has loaded is the
current one.  That argument is independent of who owns the cells that are not
in the chain; a user of the stack says so with `acquire` and `release`.
-/

namespace Lockfreec.Lib.TaggedStack

open Function Lib.Chain Lib.Interleaving

variable {α : Type}

/-! ## What one thread is doing -/

/-- The stages of a pop and of a push, with what the thread has loaded. -/
inductive Access (α : Type) where
  | away
  | holding (cell : α)
  /-- A pop has read the counter of the top. -/
  | reading (tag : Nat)
  /-- A pop has loaded the pointer of its cell's link. -/
  | loadedPointer (cell : α) (tag : Nat) (pointer : Option α)
  /-- A pop has loaded both words of its cell's link. -/
  | loaded (cell : α) (tag : Nat) (exchange : Pac α)
  /-- A push has drawn its counter. -/
  | drawn (cell : α) (tag : Nat)
  /-- A push has stored the pointer of its cell's link. -/
  | storedPointer (cell : α) (tag : Nat) (pointer : Option α)
  /-- A push has stored both words of its cell's link. -/
  | stored (cell : α) (tag : Nat) (original : Pac α)

namespace Access

/-- The cell that the thread has for itself. -/
def hand : Access α → Option α
  | away => none
  | holding cell => some cell
  | reading _ | loadedPointer _ _ _ | loaded _ _ _ => none
  | drawn cell _ | storedPointer cell _ _ | stored cell _ _ => some cell

/-- The counter that a pop has read. -/
def readTag : Access α → Option Nat
  | reading tag | loadedPointer _ tag _ | loaded _ tag _ => some tag
  | _ => none

/-- The counter that a push has drawn and not yet published. -/
def drawnTag : Access α → Option Nat
  | drawn _ tag | storedPointer _ tag _ | stored _ tag _ => some tag
  | _ => none

/-- What the thread knows about the memory from its loads and stores. -/
def Knows (next : α → Pac α) (cells : List (α × Nat)) : Access α → Prop
  | loadedPointer cell tag pointer =>
    (cell, tag) ∈ cells → pointer = (next cell).pointer
  | loaded cell tag exchange => (cell, tag) ∈ cells → exchange = next cell
  | storedPointer cell _ pointer => (next cell).pointer = pointer
  | stored cell _ original => next cell = original
  | _ => True

variable {next : α → Pac α} {cells : List (α × Nat)} {access : Access α}

variable (before : access.Knows next cells)

include before

/-- Cells leaving the chain take nothing away from what is known. -/
theorem Knows.mono {rest : List (α × Nat)}
    (subset : ∀ {entry}, entry ∈ rest → entry ∈ cells) :
    access.Knows next rest := by
  cases access with
  | loadedPointer | loaded =>
    intro mem
    exact before (subset mem)
  | _ => exact before

/-- A cell enters the chain under a counter that the thread has not read. -/
theorem Knows.push {cell : α} {tag : Nat} (unread : access.readTag ≠ some tag) :
    access.Knows next ((cell, tag) :: cells) := by
  have old : ∀ {other read}, access.readTag = some read →
      (other, read) ∈ (cell, tag) :: cells → (other, read) ∈ cells := by
    intro other read known mem
    rcases List.mem_cons.mp mem with same | mem
    · simp only [Prod.mk.injEq] at same
      exact absurd (same.2 ▸ known) unread
    · exact mem
  cases access with
  | loadedPointer | loaded =>
    intro mem
    exact before (old rfl mem)
  | _ => exact before

/-- A store to a cell that the thread neither sees linked nor holds. -/
theorem Knows.store [DecidableEq α] {cell : α} {link : Pac α}
    (absent : cell ∉ cells.map Prod.fst) (notHeld : access.hand ≠ some cell) :
    access.Knows (update next cell link) cells := by
  have linked : ∀ {other tag}, (other, tag) ∈ cells → other ≠ cell := by
    rintro other tag mem rfl
    exact absent (List.mem_map.mpr ⟨_, mem, rfl⟩)
  have held : ∀ {other}, access.hand = some other → other ≠ cell := by
    rintro other own rfl
    exact notHeld own
  cases access with
  | loadedPointer | loaded =>
    intro mem
    rw [update_of_ne (linked mem)]
    exact before mem
  | storedPointer | stored =>
    simpa only [Knows, update_of_ne (held rfl)] using before
  | _ => exact before

end Access

/-! ## The invariant -/

/-- The part of the invariant about one thread. -/
structure AccessOk (next : α → Pac α) (bound : Nat) (cells : List (α × Nat))
    (access : Access α) : Prop where
  knows : access.Knows next cells
  hand : ∀ cell, access.hand = some cell → cell ∉ cells.map Prod.fst
  drawn : ∀ tag, access.drawnTag = some tag →
    0 < tag ∧ tag ≤ bound ∧ tag ∉ cells.map Prod.snd
  read : ∀ tag, access.readTag = some tag → tag ≤ bound

/-- The part of the invariant about two different threads. -/
structure Compatible (left right : Access α) : Prop where
  hand : ∀ cell, left.hand = some cell → right.hand ≠ some cell
  drawn : ∀ tag, left.drawnTag = some tag → right.drawnTag ≠ some tag
  read : ∀ tag, left.drawnTag = some tag → right.readTag ≠ some tag

variable {Tid : Type}

/-- The invariant of a tagged stack whose counters go up to `bound`. -/
structure TaggedInv (next : α → Pac α) (top : Pac α) (bound : Nat)
    (accesses : Tid → Access α) (cells : List (α × Nat)) : Prop where
  chain : TagLinked next top cells
  tagBound : ∀ tag ∈ cells.map Prod.snd, tag ≤ bound
  accessOk : ∀ thread, AccessOk next bound cells (accesses thread)
  compatible : ∀ left right, left ≠ right →
    Compatible (accesses left) (accesses right)

theorem AccessOk.away {next : α → Pac α} {bound : Nat}
    {cells : List (α × Nat)} : AccessOk next bound cells .away :=
  ⟨trivial, by simp [Access.hand], by simp [Access.drawnTag],
    by simp [Access.readTag]⟩

theorem Compatible.away_left {access : Access α} : Compatible .away access :=
  ⟨by simp [Access.hand], by simp [Access.drawnTag], by simp [Access.drawnTag]⟩

theorem Compatible.away_right {access : Access α} : Compatible access .away :=
  ⟨by simp [Access.hand], by simp [Access.drawnTag], by simp [Access.readTag]⟩

/-- A stack that nobody is working on. -/
theorem TaggedInv.of_chain {next : α → Pac α} {top : Pac α} {bound : Nat}
    {cells : List (α × Nat)} (chain : TagLinked next top cells)
    (tagBound : ∀ tag ∈ cells.map Prod.snd, tag ≤ bound) :
    TaggedInv next top bound (fun _ : Tid => .away) cells :=
  ⟨chain, tagBound, fun _ => .away, fun _ _ _ => .away_left⟩

namespace TaggedInv

variable {next : α → Pac α} {top : Pac α} {bound : Nat}
  {accesses : Tid → Access α} {cells : List (α × Nat)} {tid : Tid}
  {old access : Access α}

variable (inv : TaggedInv next top bound accesses cells)

include inv

/-- The counter a pop reads from the top belongs to no unpublished push. -/
theorem top_counter : top.counter ≤ bound ∧
      ∀ other, (accesses other).drawnTag ≠ some top.counter := by
  rcases inv.chain.counter_mem with mem | zero
  · constructor
    · exact inv.tagBound _ mem
    · intro other drawn
      exact ((inv.accessOk other).drawn _ drawn).2.2 mem
  · constructor
    · omega
    · intro other drawn
      have positive := ((inv.accessOk other).drawn _ drawn).1
      omega

theorem nodup : (cells.map Prod.fst).Nodup :=
  inv.chain.linked.nodup

variable [DecidableEq Tid]

/--
The compatibility of all threads after one of them has kept its cell and its
drawn counter.
-/
theorem compatible_update (sameHand : access.hand = (accesses tid).hand)
    (sameDrawn : access.drawnTag = (accesses tid).drawnTag)
    (readFrom : ∀ tag, access.readTag = some tag →
      (accesses tid).readTag = some tag ∨ tag = top.counter) :
    ∀ left right, left ≠ right → Compatible (update accesses tid access left)
        (update accesses tid access right) := by
  apply pairwise_update _ inv.compatible
  intro other ne
  have left := inv.compatible tid other ne.symm
  have right := inv.compatible other tid ne
  refine ⟨⟨?_, ?_, ?_⟩, ⟨?_, ?_, ?_⟩⟩
  · rw [sameHand]
    exact left.hand
  · rw [sameDrawn]
    exact left.drawn
  · rw [sameDrawn]
    exact left.read
  · rw [sameHand]
    exact right.hand
  · rw [sameDrawn]
    exact right.drawn
  · intro tag drawn read
    rcases readFrom tag read with before | equal
    · exact right.read tag drawn before
    · exact inv.top_counter.2 other (equal ▸ drawn)

/--
A step that leaves the memory alone and keeps the thread's cell and drawn
counter.  It may read the counter of the top.
-/
theorem move (here : accesses tid = old) (sameHand : access.hand = old.hand)
    (sameDrawn : access.drawnTag = old.drawnTag)
    (readFrom : ∀ tag, access.readTag = some tag →
      old.readTag = some tag ∨ tag = top.counter)
    (knows : access.Knows next cells) :
    TaggedInv next top bound (update accesses tid access)
      cells := by
  subst here
  have own := inv.accessOk tid
  refine ⟨inv.chain, inv.tagBound, ?_,
    inv.compatible_update sameHand sameDrawn readFrom⟩
  apply forall_update _ _ fun other _ => inv.accessOk other
  refine ⟨knows, ?_, ?_, ?_⟩
  · rw [sameHand]
    exact own.hand
  · rw [sameDrawn]
    exact own.drawn
  · intro tag read
    rcases readFrom tag read with before | equal
    · exact own.read tag before
    · rw [equal]
      exact inv.top_counter.1

variable {cell : α}

/-- A private store: the thread has the cell written to for itself. -/
theorem store [DecidableEq α] {link : Pac α} (here : accesses tid = old)
    (held : old.hand = some cell) (sameHand : access.hand = old.hand)
    (sameDrawn : access.drawnTag = old.drawnTag)
    (noRead : access.readTag = none)
    (knows : access.Knows (update next cell link) cells) :
    TaggedInv (update next cell link) top bound
      (update accesses tid access) cells := by
  subst here
  have own := inv.accessOk tid
  have absent := own.hand cell held
  refine ⟨inv.chain.update absent, inv.tagBound, ?_,
    inv.compatible_update sameHand sameDrawn (by simp [noRead])⟩
  apply forall_update
  · refine ⟨knows, ?_, ?_, by simp [noRead]⟩
    · rw [sameHand]
      exact own.hand
    · rw [sameDrawn]
      exact own.drawn
  · intro other ne
    have before := inv.accessOk other
    have notHeld :=
      (inv.compatible tid other ne.symm).hand cell held
    exact { before with knows := before.knows.store absent notHeld }

/-- A push draws the next counter, which nobody has seen yet. -/
theorem draw (here : accesses tid = old) (sameHand : access.hand = old.hand)
    (drawn : access.drawnTag = some (bound + 1))
    (noRead : access.readTag = none) (knows : access.Knows next cells) :
    TaggedInv next top (bound + 1) (update accesses tid access)
      cells := by
  subst here
  have own := inv.accessOk tid
  refine ⟨inv.chain,
    fun tag mem => Nat.le_succ_of_le (inv.tagBound tag mem), ?_, ?_⟩
  · apply forall_update
    · refine ⟨knows, ?_, ?_, by simp [noRead]⟩
      · rw [sameHand]
        exact own.hand
      · intro tag equal
        rw [drawn, Option.some.injEq] at equal
        subst equal
        refine ⟨by omega, Nat.le_refl _, fun mem => ?_⟩
        exact absurd (inv.tagBound _ mem) (by omega)
    · intro other _
      have before := inv.accessOk other
      refine ⟨before.knows, before.hand, ?_, ?_⟩
      · intro tag equal
        have bounds := before.drawn tag equal
        exact ⟨bounds.1, Nat.le_succ_of_le bounds.2.1, bounds.2.2⟩
      · intro tag equal
        exact Nat.le_succ_of_le (before.read tag equal)
  · apply pairwise_update _ inv.compatible
    intro other ne
    have before := inv.accessOk other
    refine ⟨⟨?_, ?_, ?_⟩, ⟨?_, ?_, by simp [noRead]⟩⟩
    · rw [sameHand]
      exact (inv.compatible tid other ne.symm).hand
    · intro tag equal taken
      rw [drawn, Option.some.injEq] at equal
      have bounds := (before.drawn tag taken).2.1
      omega
    · intro tag equal taken
      rw [drawn, Option.some.injEq] at equal
      have bounds := before.read tag taken
      omega
    · rw [sameHand]
      exact (inv.compatible other tid ne).hand
    · intro tag taken equal
      rw [drawn, Option.some.injEq] at equal
      have bounds := (before.drawn tag taken).2.1
      omega

/-- The compare-and-swap of a pop that succeeds. -/
theorem unlink {tag : Nat} {exchange : Pac α}
    (here : accesses tid = .loaded cell tag exchange)
    (equal : top = ⟨some cell, tag⟩) :
    ∃ rest, cells = (cell, tag) :: rest ∧ TaggedInv next exchange bound
        (update accesses tid (.holding cell)) rest := by
  have own := inv.accessOk tid
  rw [here] at own
  have knows : (cell, tag) ∈ cells → exchange = next cell := own.knows
  have chain := inv.chain
  rw [equal] at chain
  rcases chain.exists_cons rfl with ⟨rest, rfl, tail⟩
  have current : exchange = next cell := knows (by simp)
  have distinct := inv.nodup
  rw [List.map_cons, List.nodup_cons] at distinct
  have notHeld : ∀ other, (accesses other).hand ≠ some cell := by
    intro other held
    exact (inv.accessOk other).hand cell held (by simp)
  refine ⟨rest, rfl, current ▸ tail, ?_, ?_, ?_⟩
  · intro other mem
    exact inv.tagBound other (by simp [mem])
  · apply forall_update
    · refine ⟨trivial, ?_, by simp [Access.drawnTag], by simp [Access.readTag]⟩
      intro other held
      rw [Access.hand, Option.some.injEq] at held
      subst held
      exact distinct.1
    · intro other _
      have before := inv.accessOk other
      refine ⟨before.knows.mono (fun mem => by simp [mem]), ?_, ?_, before.read⟩
      · intro another held mem
        exact before.hand another held (by simp [mem])
      · intro another drawn
        have bounds := before.drawn another drawn
        exact ⟨bounds.1, bounds.2.1, fun mem => bounds.2.2 (by simp [mem])⟩
  · apply pairwise_update _ inv.compatible
    intro other ne
    refine ⟨⟨?_, by simp [Access.drawnTag], by simp [Access.drawnTag]⟩,
      ⟨?_, by simp [Access.drawnTag], by simp [Access.readTag]⟩⟩
    · intro another held
      rw [Access.hand, Option.some.injEq] at held
      subst held
      exact notHeld other
    · intro another held equal
      rw [Access.hand, Option.some.injEq] at equal
      subst equal
      exact notHeld other held

/-- The compare-and-swap of a push that succeeds. -/
theorem link {tag : Nat} {original : Pac α}
    (here : accesses tid = .stored cell tag original) (equal : top = original) :
    TaggedInv next ⟨some cell, tag⟩ bound
      (update accesses tid .away) ((cell, tag) :: cells) := by
  have own := inv.accessOk tid
  rw [here] at own
  have stored : next cell = original := own.knows
  have held : (accesses tid).hand = some cell := by rw [here]; rfl
  have drawn : (accesses tid).drawnTag = some tag := by rw [here]; rfl
  have bounds := own.drawn tag rfl
  refine ⟨⟨rfl, by rw [stored, ← equal]; exact inv.chain⟩, ?_, ?_, ?_⟩
  · intro other mem
    rcases List.mem_cons.mp mem with rfl | mem
    · exact bounds.2.1
    · exact inv.tagBound other mem
  · apply forall_update
    · exact .away
    · intro other ne
      have before := inv.accessOk other
      have apart := inv.compatible tid other ne.symm
      refine ⟨before.knows.push (apart.read tag drawn), ?_, ?_, before.read⟩
      · intro another own mem
        rcases List.mem_cons.mp mem with same | mem
        · exact apart.hand cell held (own.trans (congrArg some same))
        · exact before.hand another own mem
      · intro another own
        have limits := before.drawn another own
        refine ⟨limits.1, limits.2.1, fun mem => ?_⟩
        rcases List.mem_cons.mp mem with same | mem
        · exact apart.drawn tag drawn (own.trans (congrArg some same))
        · exact limits.2.2 mem
  · apply pairwise_update _ inv.compatible
    intro other _
    exact ⟨.away_left, .away_right⟩

/-! ## Cells passing in and out -/

/-- A thread gets a cell that is neither linked nor in any hand. -/
theorem acquire (absent : cell ∉ cells.map Prod.fst)
    (notHeld : ∀ other, (accesses other).hand ≠ some cell) :
    TaggedInv next top bound (update accesses tid (.holding cell)) cells := by
  refine ⟨inv.chain, inv.tagBound, ?_, ?_⟩
  · apply forall_update _ _ fun other _ => inv.accessOk other
    refine ⟨trivial, ?_, by simp [Access.drawnTag], by simp [Access.readTag]⟩
    intro other held
    rw [Access.hand, Option.some.injEq] at held
    exact held ▸ absent
  · apply pairwise_update _ inv.compatible
    intro other _
    refine ⟨⟨?_, by simp [Access.drawnTag], by simp [Access.drawnTag]⟩,
      ⟨?_, by simp [Access.drawnTag], by simp [Access.readTag]⟩⟩
    · intro another held
      rw [Access.hand, Option.some.injEq] at held
      exact held ▸ notHeld other
    · intro another held equal
      rw [Access.hand, Option.some.injEq] at equal
      exact notHeld other (equal ▸ held)

/-- A thread lets go of whatever it has. -/
theorem release : TaggedInv next top bound (update accesses tid .away)
      cells := by
  refine ⟨inv.chain, inv.tagBound, ?_, ?_⟩
  · exact forall_update _ .away fun other _ => inv.accessOk other
  · apply pairwise_update _ inv.compatible
    intro other _
    exact ⟨.away_left, .away_right⟩

end TaggedInv

end Lockfreec.Lib.TaggedStack
