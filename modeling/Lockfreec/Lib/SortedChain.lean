import Lockfreec.Lib.Chain
import Mathlib.Order.Lattice
import Mathlib.Data.List.Pairwise

/-!
# Chains with increasing keys

A sorted chain is a chain whose keys increase strictly, so a key occurs in it
at most once.  The lemmas are the steps of a walk along such a chain and the
two ways in which a cell is linked into it: in front, or behind a cell of it.
-/

namespace Lockfreec.Lib.SortedChain

open Function Lib.Chain

variable {α κ : Type} [LinearOrder κ]

/-- The chain from `start` visits `cells`, with strictly increasing keys. -/
structure SortedLinked (next : α → Option α) (key : α → κ)
    (start : Option α) (cells : List α) : Prop where
  linked : Linked next start cells
  sorted : cells.Pairwise fun left right => key left < key right

namespace SortedLinked

variable {next changed : α → Option α} {key labels : α → κ} {start : Option α}
  {cells : List α} {cell other : α}

variable (chain : SortedLinked next key start cells)

include chain

theorem congr (sameNext : ∀ cell ∈ cells, changed cell = next cell)
    (sameKey : ∀ cell ∈ cells, labels cell = key cell) :
    SortedLinked changed labels start cells where
  linked := chain.linked.congr sameNext
  sorted := by
    apply List.Pairwise.imp_of_mem _ chain.sorted
    intro left right isLeft isRight less
    rwa [sameKey left isLeft, sameKey right isRight]

/-! ## Walking -/

/-- A cell of the chain and the part of the chain behind it. -/
theorem split (mem : cell ∈ cells) :
    ∃ front back, cells = front ++ cell :: back ∧
      SortedLinked next key (next cell) back ∧
      (∀ before ∈ front, key before < key cell) ∧
      ∀ behind ∈ back, key cell < key behind := by
  rcases List.append_of_mem mem with ⟨front, back, rfl⟩
  have sorted := List.pairwise_append.1 chain.sorted
  have tail := List.pairwise_cons.1 sorted.2.1
  exact ⟨front, back, rfl, ⟨chain.linked.drop, tail.2⟩,
    fun before inFront => sorted.2.2 before inFront cell (by simp), tail.1⟩

theorem eq_of_key (mem : cell ∈ cells) (otherMember : other ∈ cells)
    (same : key cell = key other) : cell = other := by
  rcases chain.split mem with ⟨front, back, rfl, -, before, behind⟩
  rcases List.mem_append.1 otherMember with inFront | inBack
  · exact absurd same.symm (before other inFront).ne
  · rcases List.mem_cons.1 inBack with rfl | inRest
    · rfl
    · exact absurd same (behind other inRest).ne

theorem start_mem (first : start = some cell) : cell ∈ cells := by
  subst first
  rcases chain.linked.exists_cons with ⟨rest, rfl, -⟩
  exact .head _

/-- The first cell has the least key. -/
theorem start_le (first : start = some cell) (mem : other ∈ cells) :
    key cell ≤ key other := by
  subst first
  rcases chain.linked.exists_cons with ⟨rest, rfl, -⟩
  rcases List.mem_cons.1 mem with rfl | behind
  · exact le_refl _
  · exact ((List.pairwise_cons.1 chain.sorted).1 other behind).le

theorem exists_start (mem : cell ∈ cells) :
    ∃ first, start = some first ∧ first ∈ cells ∧ key first ≤ key cell := by
  cases start with
  | none =>
    rw [linked_none.1 chain.linked] at mem
    simp at mem
  | some first =>
    exact ⟨first, rfl, chain.start_mem rfl, chain.start_le rfl mem⟩

theorem next_mem (mem : cell ∈ cells) (link : next cell = some other) :
    other ∈ cells ∧ key cell < key other := by
  rcases chain.split mem with ⟨front, back, rfl, tail, -, behind⟩
  have inBack := tail.start_mem link
  exact ⟨by simp [inBack], behind other inBack⟩

/-- The walk from a cell towards a larger key does not pass that key. -/
theorem exists_next (mem : cell ∈ cells) (otherMember : other ∈ cells)
    (less : key cell < key other) :
    ∃ following, next cell = some following ∧ following ∈ cells ∧
      key cell < key following ∧ key following ≤ key other := by
  rcases chain.split mem with ⟨front, back, rfl, tail, before, behind⟩
  have inBack : other ∈ back := by
    rcases List.mem_append.1 otherMember with inFront | inRest
    · exact absurd (before other inFront) less.asymm
    · rcases List.mem_cons.1 inRest with rfl | inBack
      · exact absurd less (lt_irrefl _)
      · exact inBack
  rcases tail.exists_start inBack with ⟨following, link, inTail, least⟩
  exact ⟨following, link, by simp [inTail], behind following inTail, least⟩

/-- No cell has a key that lies before the first cell. -/
theorem not_mem_front
    {label : κ} (gap : ∀ first, start = some first → label < key first)
    (mem : cell ∈ cells) : key cell ≠ label := by
  rcases chain.exists_start mem with ⟨first, isFirst, -, least⟩
  exact (lt_of_lt_of_le (gap first isFirst) least).ne'

/-- No cell has a key that lies between two neighbours. -/
theorem not_mem_between
    {label : κ} (otherMember : other ∈ cells) (less : key other < label)
    (gap : ∀ following, next other = some following → label < key following)
    (mem : cell ∈ cells) : key cell ≠ label := by
  intro same
  rcases chain.exists_next otherMember mem (same ▸ less) with
    ⟨following, link, -, -, notPast⟩
  exact absurd (gap following link) (not_lt.2 (same ▸ notPast))

/-! ## Inserting -/

theorem insert_front (link : next cell = start)
    (gap : ∀ first, start = some first → key cell < key first) :
    SortedLinked next key (some cell) (cell :: cells) where
  linked := ⟨rfl, link ▸ chain.linked⟩
  sorted := by
    apply List.pairwise_cons.2
    refine ⟨?_, chain.sorted⟩
    intro other mem
    rcases chain.exists_start mem with ⟨first, isFirst, -, least⟩
    exact lt_of_lt_of_le (gap first isFirst) least

/-- Linking a cell behind a cell of the chain. -/
theorem insert_behind [DecidableEq α]
    (mem : other ∈ cells) (fresh : cell ∉ cells)
    (link : next cell = next other) (less : key other < key cell)
    (gap : ∀ following, next other = some following →
      key cell < key following) :
    ∃ grown, SortedLinked (update next other (some cell)) key start grown ∧
        ∀ each, each ∈ grown ↔ each = cell ∨ each ∈ cells := by
  rcases chain.split mem with ⟨front, back, rfl, tail, before, behind⟩
  have notBack : other ∉ back := by
    intro again
    exact lt_irrefl _ (behind other again)
  have notSelf : cell ≠ other := by
    rintro rfl
    exact fresh mem
  refine ⟨front ++ other :: cell :: back, ⟨?_, ?_⟩, ?_⟩
  · apply chain.linked.relink
    refine ⟨rfl, ?_⟩
    rw [update_of_ne notSelf, link]
    exact tail.linked.update notBack
  · have grownTail := (tail.insert_front link gap).sorted
    have sorted := List.pairwise_append.1 chain.sorted
    apply List.pairwise_append.2
    refine ⟨sorted.1, List.pairwise_cons.2 ⟨?_, grownTail⟩, ?_⟩
    · intro each inTail
      rcases List.mem_cons.1 inTail with rfl | inBack
      · exact less
      · exact behind each inBack
    · intro left inFront right inTail
      rcases List.mem_cons.1 inTail with rfl | inRest
      · exact before left inFront
      · rcases List.mem_cons.1 inRest with rfl | inBack
        · exact (before left inFront).trans less
        · exact (before left inFront).trans (behind right inBack)
  · intro each
    simp only [List.mem_append, List.mem_cons]
    tauto

end SortedLinked

end Lockfreec.Lib.SortedChain
