import Mathlib.Data.List.Nodup
import Mathlib.Logic.Function.Basic

/-!
# Chains of linked cells

`Linked next start cells` says that following `next` from `start` visits
exactly `cells`, in this order, and then reaches null.  A finite chain visits
no cell twice, so its existence already excludes cycles.  The frame lemma
`Linked.congr` reduces every store to a cell outside the chain to a
disjointness fact, and `Linked.append` describes the one store that extends a
chain at its last cell.

`TagLinked` is the same notion for cells whose links are pointer-and-counter
pairs.  It remembers the counter with which each cell was linked, since the
counter is what a double-word compare-and-swap compares besides the pointer.
-/

namespace Lockfreec.Lib.Chain

open Function

variable {α : Type}

/-! ## Plain chains -/

/-- Following `next` from `start` visits `cells` and ends at null. -/
def Linked (next : α → Option α) : Option α → List α → Prop
  | start, [] => start = none
  | start, cell :: rest => start = some cell ∧ Linked next (next cell) rest

@[simp]
theorem linked_nil {next : α → Option α} {start : Option α} :
    Linked next start [] ↔ start = none :=
  Iff.rfl

variable {cell : α} {front : List α}

@[simp]
theorem linked_cons {next : α → Option α} {start : Option α} {rest : List α} :
    Linked next start (cell :: rest) ↔
      start = some cell ∧ Linked next (next cell) rest :=
  Iff.rfl

theorem linked_none {next : α → Option α} {cells : List α} :
    Linked next none cells ↔ cells = [] := by
  cases cells <;> simp

theorem Linked.exists_cons {next : α → Option α} {cells : List α}
    (linked : Linked next (some cell) cells) :
    ∃ rest, cells = cell :: rest ∧ Linked next (next cell) rest := by
  cases cells with
  | nil => simp at linked
  | cons head rest =>
    rcases linked with ⟨same, tail⟩
    cases same
    exact ⟨rest, rfl, tail⟩

theorem Linked.unique {next : α → Option α} {start : Option α}
    {left right : List α}
    (first : Linked next start left) (second : Linked next start right) :
    left = right := by
  induction left generalizing start right with
  | nil =>
    rw [linked_nil] at first
    subst first
    exact (linked_none.mp second).symm
  | cons cell rest ih =>
    rcases first with ⟨rfl, tail⟩
    rcases second.exists_cons with ⟨other, rfl, otherTail⟩
    rw [ih tail otherTail]

/-- The part of a chain behind one of its cells is again a chain. -/
theorem Linked.drop {next : α → Option α} {start : Option α} {rest : List α}
    (linked : Linked next start (front ++ cell :: rest)) :
    Linked next (next cell) rest := by
  induction front generalizing start with
  | nil => exact linked.2
  | cons head front ih => exact ih linked.2

/-- A chain that ends at null is acyclic. -/
theorem Linked.nodup {next : α → Option α} {start : Option α}
    {cells : List α} (linked : Linked next start cells) : cells.Nodup := by
  induction cells generalizing start with
  | nil => exact List.nodup_nil
  | cons cell rest ih =>
    refine List.nodup_cons.mpr ⟨?_, ih linked.2⟩
    intro mem
    rcases List.append_of_mem mem with ⟨front, back, split⟩
    have tail : Linked next (next cell) (front ++ cell :: back) :=
      split ▸ linked.2
    have same := tail.drop.unique linked.2
    have lengths := congrArg List.length (same.trans split)
    simp at lengths
    omega

/-- A store to a cell outside the chain does not touch the chain. -/
theorem Linked.congr {next changed : α → Option α} {start : Option α}
    {cells : List α} (linked : Linked next start cells)
    (same : ∀ cell ∈ cells, changed cell = next cell) :
    Linked changed start cells := by
  induction cells generalizing start with
  | nil => exact linked
  | cons cell rest ih =>
    refine ⟨linked.1, ?_⟩
    rw [same cell (by simp)]
    exact ih linked.2 fun other mem => same other (by simp [mem])

theorem Linked.update [DecidableEq α] {next : α → Option α}
    {start link : Option α} {cells : List α} (linked : Linked next start cells)
    (outside : cell ∉ cells) :
    Linked (Function.update next cell link) start cells := by
  refine linked.congr fun other mem => ?_
  exact update_of_ne (ne_of_mem_of_not_mem mem outside) _ _

/-- The cell of a chain whose link is null is its last cell. -/
theorem Linked.eq_append_last {next : α → Option α} {start : Option α}
    {cells : List α} (linked : Linked next start cells) (mem : cell ∈ cells)
    (last : next cell = none) :
    ∃ front, cells = front ++ [cell] := by
  rcases List.append_of_mem mem with ⟨front, back, rfl⟩
  have tail := linked.drop
  rw [last, linked_none] at tail
  exact ⟨front, by rw [tail]⟩

/-- Replacing what follows a cell of a chain. -/
theorem Linked.relink [DecidableEq α] {next : α → Option α}
    {start link : Option α} {back tail : List α}
    (linked : Linked next start (front ++ cell :: back))
    (added : Linked (Function.update next cell link) link tail) :
    Linked (Function.update next cell link) start (front ++ cell :: tail) := by
  have fresh : cell ∉ front := by
    have distinct := linked.nodup
    rw [List.nodup_append] at distinct
    intro mem
    exact distinct.2.2 cell mem cell (by simp) rfl
  induction front generalizing start with
  | nil =>
    refine ⟨linked.1, ?_⟩
    rwa [update_self]
  | cons head front ih =>
    refine ⟨linked.1, ?_⟩
    rw [update_of_ne (by
      rintro rfl
      exact fresh (by simp))]
    exact ih linked.2 fun mem => fresh (by simp [mem])

/-- Linking a second chain behind the last cell of the first one. -/
theorem Linked.append [DecidableEq α] {next : α → Option α}
    {start link : Option α} {tail : List α}
    (linked : Linked next start (front ++ [cell]))
    (added : Linked next link tail) (disjoint : cell ∉ tail) :
    Linked (Function.update next cell link) start
      (front ++ [cell] ++ tail) := by
  rw [List.append_assoc]
  exact linked.relink (added.update disjoint)

/-! ## Pointer-and-counter cells -/

/-- Two adjacent words: a pointer and the counter stored beside it. -/
structure Pac (α : Type) where
  pointer : Option α
  counter : Nat
deriving DecidableEq

/--
The chain of a pointer-and-counter cell, with the counter under which each
cell of it was linked.  The chain ends in the pair it was created with.
-/
def TagLinked (next : α → Pac α) : Pac α → List (α × Nat) → Prop
  | start, [] => start = ⟨none, 0⟩
  | start, (cell, tag) :: rest =>
    start = ⟨some cell, tag⟩ ∧ TagLinked next (next cell) rest

@[simp]
theorem tagLinked_nil {next : α → Pac α} {start : Pac α} :
    TagLinked next start [] ↔ start = ⟨none, 0⟩ :=
  Iff.rfl

@[simp]
theorem tagLinked_cons {next : α → Pac α} {start : Pac α} {tag : Nat}
    {rest : List (α × Nat)} :
    TagLinked next start ((cell, tag) :: rest) ↔
      start = ⟨some cell, tag⟩ ∧ TagLinked next (next cell) rest :=
  Iff.rfl

theorem TagLinked.exists_cons {next : α → Pac α} {start : Pac α}
    {cells : List (α × Nat)} (linked : TagLinked next start cells)
    (pointer : start.pointer = some cell) :
    ∃ rest, cells = (cell, start.counter) :: rest ∧
      TagLinked next (next cell) rest := by
  cases cells with
  | nil =>
    rw [tagLinked_nil] at linked
    simp [linked] at pointer
  | cons head rest =>
    rcases head with ⟨other, tag⟩
    rcases linked with ⟨rfl, tail⟩
    cases pointer
    exact ⟨rest, rfl, tail⟩

theorem TagLinked.eq_nil {next : α → Pac α} {start : Pac α}
    {cells : List (α × Nat)} (linked : TagLinked next start cells)
    (pointer : start.pointer = none) : cells = [] := by
  cases cells with
  | nil => rfl
  | cons head rest =>
    rcases head with ⟨other, tag⟩
    rw [linked.1] at pointer
    simp at pointer

/-- The counter of a chain's first word is a tag of the chain or zero. -/
theorem TagLinked.counter_mem {next : α → Pac α} {start : Pac α}
    {cells : List (α × Nat)} (linked : TagLinked next start cells) :
    start.counter ∈ cells.map Prod.snd ∨ start.counter = 0 := by
  cases cells with
  | nil =>
    rw [tagLinked_nil] at linked
    exact .inr (by rw [linked])
  | cons head rest =>
    rcases head with ⟨other, tag⟩
    rw [linked.1]
    exact .inl (by simp)

/-- Forgetting the counters leaves a plain chain. -/
theorem TagLinked.linked {next : α → Pac α} {start : Pac α}
    {cells : List (α × Nat)} (linked : TagLinked next start cells) :
    Linked (fun cell => (next cell).pointer) start.pointer
      (cells.map Prod.fst) := by
  induction cells generalizing start with
  | nil =>
    rw [tagLinked_nil] at linked
    simp [linked]
  | cons head rest ih =>
    rcases head with ⟨cell, tag⟩
    rcases linked with ⟨rfl, tail⟩
    exact ⟨rfl, ih tail⟩

theorem TagLinked.congr {next changed : α → Pac α} {start : Pac α}
    {cells : List (α × Nat)} (linked : TagLinked next start cells)
    (same : ∀ cell ∈ cells.map Prod.fst, changed cell = next cell) :
    TagLinked changed start cells := by
  induction cells generalizing start with
  | nil => exact linked
  | cons head rest ih =>
    rcases head with ⟨cell, tag⟩
    refine ⟨linked.1, ?_⟩
    rw [same cell (by simp)]
    refine ih linked.2 fun other mem => same other ?_
    rw [List.map_cons]
    exact .tail _ mem

theorem TagLinked.update [DecidableEq α] {next : α → Pac α} {start link : Pac α}
    {cells : List (α × Nat)} (linked : TagLinked next start cells)
    (outside : cell ∉ cells.map Prod.fst) :
    TagLinked (Function.update next cell link) start cells := by
  refine linked.congr fun other mem => ?_
  exact update_of_ne (ne_of_mem_of_not_mem mem outside) _ _

end Lockfreec.Lib.Chain
