import Lockfreec.Lib.Chain
import Mathlib.Data.List.Basic

/-!
# Doubly linked lists

A doubly linked list in memory is a chain of `next` links from its head whose
reverse is the chain of `prev` links from its tail.  The operations write the
links one after the other; each of them has one lemma that says which list it
leaves.  A walk along the links finds what a search through the list finds.
-/

namespace Lockfreec.Lib.DoublyLinked

open Function Lib.Chain

variable {α : Type}

/-- The links of all cells and the ends of a list. -/
structure DList (α : Type) where
  next : α → Option α
  prev : α → Option α
  head : Option α
  tail : Option α

/-- The cells of a list from head to tail. -/
structure IsList (list : DList α) (cells : List α) : Prop where
  forward : Linked list.next list.head cells
  backward : Linked list.prev list.tail cells.reverse

/-! ## Walking along the links -/

/-- Follow the links up to a cell with a property; `none` if this takes more
than the given number of steps. -/
def walk (next : α → Option α) (stop : α → Bool) :
    Nat → Option α → Option (Option α)
  | _, none => some none
  | 0, some _ => none
  | fuel + 1, some cell =>
    if stop cell then some (some cell) else walk next stop fuel (next cell)

variable {next : α → Option α} {start : Option α} {fuel : Nat}

theorem walk_linked (stop : α → Bool) {cells : List α}
    (linked : Linked next start cells) (enough : cells.length ≤ fuel) :
    walk next stop fuel start = some (cells.find? stop) := by
  induction cells generalizing start fuel with
  | nil =>
    rw [linked_nil] at linked
    subst linked
    cases fuel <;> rfl
  | cons cell rest ih =>
    rcases linked with ⟨rfl, tail⟩
    cases fuel with
    | zero => simp at enough
    | succ fuel =>
      rw [walk, List.find?_cons]
      cases stop cell with
      | true => rfl
      | false => exact ih tail (by simpa using enough)

/-- Follow the links up to a cell with a property, and remember the cell
before it. -/
def walkPrev (next : α → Option α) (stop : α → Bool) :
    Nat → Option α → Option α → Option (Option α × Option α)
  | _, prev, none => some (prev, none)
  | 0, _, some _ => none
  | fuel + 1, prev, some cell =>
    if stop cell then some (prev, some cell)
    else walkPrev next stop fuel (some cell) (next cell)

theorem walkPrev_absent (stop : α → Bool) {cells : List α}
    (linked : Linked next start cells) (enough : cells.length ≤ fuel)
    (absent : ∀ cell ∈ cells, stop cell = false) (prev : Option α) :
    ∃ last, walkPrev next stop fuel prev start = some (last, none) := by
  induction cells generalizing start fuel prev with
  | nil =>
    rw [linked_nil] at linked
    subst linked
    exact ⟨prev, by cases fuel <;> rfl⟩
  | cons cell rest ih =>
    rcases linked with ⟨rfl, tail⟩
    cases fuel with
    | zero => simp at enough
    | succ fuel =>
      rw [walkPrev, absent cell (.head _)]
      apply ih tail (by simpa using enough)
      exact fun other mem => absent other (by simp [mem])

theorem walkPrev_found (stop : α → Bool) {front back : List α} {cell : α}
    (linked : Linked next start (front ++ cell :: back))
    (enough : (front ++ cell :: back).length ≤ fuel)
    (before : ∀ other ∈ front, stop other = false) (found : stop cell = true)
    (prev : Option α) :
    walkPrev next stop fuel prev start =
      some (front.getLast?.or prev, some cell) := by
  induction front generalizing start fuel prev with
  | nil =>
    rcases linked with ⟨rfl, tail⟩
    cases fuel with
    | zero => simp at enough
    | succ fuel =>
      rw [walkPrev, found]
      rfl
  | cons head rest ih =>
    rcases linked with ⟨rfl, tail⟩
    cases fuel with
    | zero => simp at enough
    | succ fuel =>
      rw [walkPrev, before head (.head _)]
      have rest := ih tail (by simpa using enough)
        (fun other mem => before other (by simp [mem]))
        (some head)
      rw [List.getLast?_cons]
      simpa using rest

/-- Follow the links to the end and collect the cells with a property. -/
def collect (next : α → Option α) (keep : α → Bool) :
    Nat → Option α → Option (List α)
  | _, none => some []
  | 0, some _ => none
  | fuel + 1, some cell =>
    (collect next keep fuel (next cell)).map fun rest =>
      if keep cell then cell :: rest else rest

theorem collect_linked (keep : α → Bool) {cells : List α}
    (linked : Linked next start cells) (enough : cells.length ≤ fuel) :
    collect next keep fuel start = some (cells.filter keep) := by
  induction cells generalizing start fuel with
  | nil =>
    rw [linked_nil] at linked
    subst linked
    cases fuel <;> rfl
  | cons cell rest ih =>
    rcases linked with ⟨rfl, tail⟩
    cases fuel with
    | zero => simp at enough
    | succ fuel =>
      rw [collect, ih tail (by simpa using enough), List.filter_cons]
      rfl

theorem linked_start {cells : List α} (linked : Linked next start cells) :
    start = cells.head? := by
  cases cells with
  | nil => exact linked
  | cons cell rest => exact linked.1

theorem linked_next {front back : List α} {cell : α}
    (linked : Linked next start (front ++ cell :: back)) :
    next cell = back.head? :=
  linked_start linked.drop

section Operations

variable [DecidableEq α]

/-- Unlink a cell from the cell before it, or from the start. -/
theorem linked_unlink {next : α → Option α} {start : Option α}
    {front back : List α} {cell : α}
    (linked : Linked next start (front ++ cell :: back)) :
    Linked (match front.getLast? with
        | some before => update next before (next cell)
        | none => next)
      (if front = [] then next cell else start) (front ++ back) := by
  rcases List.eq_nil_or_concat front with rfl | ⟨rest, before, rfl⟩
  · exact linked.2
  · rw [List.concat_eq_append] at linked ⊢
    rw [List.getLast?_concat, if_neg (by simp)]
    rw [List.append_assoc] at linked ⊢
    have apart := (List.nodup_append.1 linked.nodup).2.1
    apply linked.relink
    apply linked.drop.2.update
    intro mem
    exact (List.nodup_cons.1 apart).1 (List.mem_cons_of_mem cell mem)

/-! ## The operations -/

/-- Append a cell. -/
def DList.putTail (list : DList α) (cell : α) : DList α :=
  let next := update list.next cell none
  let prev := update list.prev cell none
  match list.tail with
  | some last =>
    ⟨update next last (some cell),
      update prev cell (some last), list.head, some cell⟩
  | none => ⟨next, prev, some cell, some cell⟩

/-- Take the first cell. -/
def DList.getHead (list : DList α) (cell : α) : DList α :=
  match list.next cell with
  | some second =>
    ⟨update list.next cell none,
      update list.prev second none, some second, list.tail⟩
  | none => ⟨update list.next cell none, list.prev, none, none⟩

/-- Link a new cell before a cell; the head is left alone. -/
def DList.insertBefore (list : DList α) (cell new : α) : DList α :=
  let next := update list.next new (some cell)
  let prev := update list.prev new (list.prev cell)
  { list with
    next :=
      match list.prev cell with
      | some before => update next before (some new)
      | none => next
    prev := update prev cell (some new) }

/-- Unlink a cell; the ends are left alone. -/
def DList.remove (list : DList α) (cell : α) : DList α :=
  { list with
    prev :=
      match list.next cell with
      | some after => update list.prev after (list.prev cell)
      | none => list.prev
    next :=
      match list.prev cell with
      | some before => update list.next before (list.next cell)
      | none => list.next }

/-- Unlink a cell and move the ends; `none` if a cell without a neighbour is
not at that end. -/
def DList.removeHt (list : DList α) (cell : α) : Option (DList α) :=
  let unlinked :=
    match list.next cell with
    | some after =>
      some { list with
        prev := update list.prev after (list.prev cell) }
    | none =>
      if list.tail = some cell then
        some { list with tail := list.prev cell }
      else none
  unlinked.bind fun list =>
    match list.prev cell with
    | some before =>
      some { list with
        next := update list.next before (list.next cell) }
    | none =>
      if list.head = some cell then
        some { list with head := list.next cell }
      else none

namespace IsList

variable {list : DList α} {cells front back : List α} {cell new : α}

omit [DecidableEq α]

theorem next_eq (isList : IsList list (front ++ cell :: back)) :
    list.next cell = back.head? :=
  linked_next isList.forward

theorem prev_eq (isList : IsList list (front ++ cell :: back)) :
    list.prev cell = front.getLast? := by
  have backward := isList.backward
  rw [List.reverse_append, List.reverse_cons, List.append_assoc,
    List.singleton_append] at backward
  rw [linked_next backward, List.head?_reverse]

theorem nodup (isList : IsList list cells) : cells.Nodup :=
  isList.forward.nodup

theorem head_eq (isList : IsList list cells) : list.head = cells.head? :=
  linked_start isList.forward

theorem tail_eq (isList : IsList list cells) : list.tail = cells.getLast? := by
  rw [linked_start isList.backward, List.head?_reverse]

variable [DecidableEq α]

theorem putTail (isList : IsList list cells) (fresh : cell ∉ cells) :
    IsList (list.putTail cell) (cells ++ [cell]) := by
  have tail := isList.tail_eq
  have freshBack : cell ∉ cells.reverse := by simpa using fresh
  rcases List.eq_nil_or_concat cells with rfl | ⟨front, last, rfl⟩
  · have isNil : list.tail = none := by simpa using tail
    constructor
    · rw [DList.putTail, isNil]
      exact ⟨rfl, update_self ..⟩
    · rw [DList.putTail, isNil]
      exact ⟨rfl, update_self ..⟩
  · rw [List.concat_eq_append] at isList fresh freshBack tail ⊢
    have isLast : list.tail = some last := by simpa using tail
    have ne : last ≠ cell := by
      rintro rfl
      simp at fresh
    constructor
    · rw [DList.putTail, isLast]
      apply Linked.append (isList.forward.update fresh)
      · exact ⟨rfl, update_self ..⟩
      · simpa using ne
    · rw [DList.putTail, isLast, List.reverse_append]
      refine ⟨rfl, ?_⟩
      have link : update (update list.prev cell none) cell
          (some last) cell = list.tail := by
        rw [update_self, isLast]
      change Linked (update (update list.prev cell none)
        cell (some last)) (update (update list.prev cell
        none) cell (some last) cell) (front ++ [last]).reverse
      rw [link, update_idem]
      exact isList.backward.update freshBack

theorem getHead (isList : IsList list (cell :: cells)) :
    IsList (list.getHead cell) cells := by
  have fresh : cell ∉ cells := (List.nodup_cons.1 isList.nodup).1
  have forward := isList.forward.2
  have backward := isList.backward
  have next := linked_start forward
  cases cells with
  | nil =>
    rw [DList.getHead, next]
    exact ⟨rfl, rfl⟩
  | cons second rest =>
    rw [DList.getHead, next]
    constructor
    · rw [next] at forward
      exact forward.update fresh
    · rw [List.reverse_cons, List.reverse_cons, List.append_assoc] at backward
      rw [List.reverse_cons]
      exact backward.relink rfl

section

variable (isList : IsList list (front ++ cell :: back))

include isList

omit [DecidableEq α] in
/-- Only the first cell is the head. -/
theorem head_iff : list.head = some cell ↔ front = [] := by
  rw [isList.head_eq]
  cases front with
  | nil => simp
  | cons first rest =>
    have once := isList.nodup
    have ne : first ≠ cell := by
      rintro rfl
      simp at once
    simp [ne]

omit [DecidableEq α] in
/-- Only the last cell is the tail. -/
theorem tail_iff : list.tail = some cell ↔ back = [] := by
  rw [isList.tail_eq]
  rcases List.eq_nil_or_concat back with rfl | ⟨rest, last, rfl⟩
  · simp
  · have once := (List.nodup_append.1 isList.nodup).2.1
    have ne : last ≠ cell := by
      rintro rfl
      exact (List.nodup_cons.1 once).1 (by simp)
    rw [List.concat_eq_append, ← List.cons_append, ← List.append_assoc,
      List.getLast?_concat]
    simp [ne]

theorem insertBefore (fresh : new ∉ front ++ cell :: back) : IsList
      { list.insertBefore cell new with
        head := if list.head = some cell then some new else list.head }
      (front ++ new :: cell :: back) := by
  have prev := isList.prev_eq
  have forward := isList.forward
  have backward := isList.backward
  have notCell : cell ≠ new := by
    rintro rfl
    simp at fresh
  have freshFront : new ∉ front.reverse := by
    intro mem
    simp [List.mem_reverse.1 mem] at fresh
  have once := isList.nodup
  have cellFront : cell ∉ front.reverse := by
    intro mem
    exact (List.nodup_append.1 once).2.2 cell (List.mem_reverse.1 mem)
      cell (.head _) rfl
  constructor
  · rcases List.eq_nil_or_concat front with rfl | ⟨rest, before, rfl⟩
    · rw [if_pos (isList.head_iff.2 rfl)]
      have isNone : list.prev cell = none := prev
      simp only [DList.insertBefore, isNone]
      refine ⟨rfl, update_self .., ?_⟩
      rw [update_of_ne notCell]
      apply forward.2.update
      exact fun mem => fresh (List.mem_cons_of_mem cell mem)
    · have isBefore : list.prev cell = some before := by simpa using prev
      rw [if_neg (fun isHead => by simpa using isList.head_iff.1 isHead)]
      simp only [DList.insertBefore, isBefore]
      rw [List.concat_eq_append, List.append_assoc, List.singleton_append]
        at forward fresh ⊢
      apply (forward.update fresh).relink
      have notBefore : before ≠ new := by
        rintro rfl
        simp at fresh
      have apart : before ∉ cell :: back := by
        have distinct := (List.nodup_append.1 forward.nodup).2.1
        exact (List.nodup_cons.1 distinct).1
      refine ⟨rfl, ?_, ?_⟩
      · rw [update_of_ne notBefore.symm, update_self]
      · have tail := forward.drop.2
        rw [update_of_ne (ne_of_mem_of_not_mem List.mem_cons_self
          apart), update_of_ne notCell]
        apply Linked.update
        · apply tail.update
          intro mem
          simp [mem] at fresh
        · exact fun mem => apart (List.mem_cons_of_mem cell mem)
  · rw [List.reverse_append, List.reverse_cons, List.append_assoc,
      List.singleton_append] at backward
    rw [List.reverse_append, List.reverse_cons, List.reverse_cons,
      List.append_assoc, List.append_assoc]
    have freshBack : new ∉ back.reverse ++ cell :: front.reverse := by
      intro mem
      apply fresh
      simp only [List.mem_append, List.mem_reverse, List.mem_cons] at mem ⊢
      tauto
    apply (backward.update freshBack).relink
    refine ⟨rfl, ?_⟩
    rw [update_of_ne notCell.symm, update_self]
    apply Linked.update
    · exact backward.drop.update freshFront
    · exact cellFront

theorem remove : IsList
      { list.remove cell with
        head := if list.head = some cell then (list.remove cell).next cell
          else list.head
        tail := if list.tail = some cell then (list.remove cell).prev cell
          else list.tail }
      (front ++ back) := by
  have prev := isList.prev_eq
  have next := isList.next_eq
  have forward := linked_unlink isList.forward
  have backward := isList.backward
  rw [List.reverse_append, List.reverse_cons, List.append_assoc,
    List.singleton_append] at backward
  have backward := linked_unlink backward
  rw [← List.reverse_append, List.getLast?_reverse] at backward
  constructor
  · convert forward using 2
    · rw [DList.remove, prev]
    · exact isList.head_iff
    · next empty =>
        rw [DList.remove, prev, empty]
        rfl
  · convert backward using 2
    · rw [DList.remove, next]
    · rw [isList.tail_iff, List.reverse_eq_nil_iff]
    · next empty =>
        rw [List.reverse_eq_nil_iff] at empty
        rw [DList.remove, next, empty]
        rfl

theorem removeHt : ∃ after, list.removeHt cell = some after ∧
      IsList after (front ++ back) := by
  refine ⟨_, ?_, isList.remove⟩
  have next := isList.next_eq
  have prev := isList.prev_eq
  have head := isList.head_iff
  have tail := isList.tail_iff
  have once := isList.nodup
  cases back with
  | nil =>
    have isTail := tail.2 rfl
    simp only [DList.removeHt, DList.remove, next, prev, List.head?_nil,
      if_pos isTail, Option.bind_some]
    cases last : front.getLast? with
    | none =>
      have isHead := head.2 (List.getLast?_eq_none_iff.1 last)
      simp only [if_pos isHead, next, List.head?_nil]
    | some before =>
      have notHead : list.head ≠ some cell := by
        rw [ne_eq, head, ← List.getLast?_eq_none_iff, last]
        nofun
      simp only [if_neg notHead]
  | cons after rest =>
    have notTail : list.tail ≠ some cell := by
      rw [ne_eq, tail]
      nofun
    have ne : cell ≠ after := by
      rintro rfl
      exact (List.nodup_cons.1 (List.nodup_append.1 once).2.1).1 (.head _)
    simp only [DList.removeHt, DList.remove, next, prev, List.head?_cons,
      if_neg notTail, Option.bind_some,
      update_of_ne ne]
    cases last : front.getLast? with
    | none =>
      have isHead := head.2 (List.getLast?_eq_none_iff.1 last)
      simp only [if_pos isHead, next, List.head?_cons]
    | some before =>
      have notHead : list.head ≠ some cell := by
        rw [ne_eq, head, ← List.getLast?_eq_none_iff, last]
        nofun
      simp only [if_neg notHead]

/-! ### What the operations leave alone

The links of a cell outside of the list are not written, so other chains can
run through the same memory. -/

variable {other : α}

omit isList in
theorem putTail_next (isList : IsList list cells) (ne : other ≠ cell)
    (outside : other ∉ cells) :
    (list.putTail cell).next other = list.next other := by
  have tail := isList.tail_eq
  rw [DList.putTail]
  cases last : list.tail with
  | none => exact update_of_ne ne _ _
  | some before =>
    rw [last] at tail
    have member := List.mem_of_getLast? tail.symm
    exact (update_of_ne (by
      rintro rfl
      exact outside member) _ _).trans (update_of_ne ne _ _)

theorem insertBefore_next
    (ne : other ≠ new) (outside : other ∉ front ++ cell :: back) :
    (list.insertBefore cell new).next other = list.next other := by
  have prev := isList.prev_eq
  simp only [DList.insertBefore]
  cases last : list.prev cell with
  | none => exact update_of_ne ne _ _
  | some before =>
    rw [last] at prev
    have member := List.mem_of_getLast? prev.symm
    exact (update_of_ne (by
      rintro rfl
      exact outside (List.mem_append_left _ member)) _ _).trans
      (update_of_ne ne _ _)

theorem remove_next (outside : other ∉ front ++ cell :: back) :
    (list.remove cell).next other = list.next other := by
  have prev := isList.prev_eq
  simp only [DList.remove]
  cases last : list.prev cell with
  | none => rfl
  | some before =>
    rw [last] at prev
    have member := List.mem_of_getLast? prev.symm
    exact update_of_ne (by
      rintro rfl
      exact outside (List.mem_append_left _ member)) _ _

end

theorem getHead_next (ne : other ≠ cell) :
    (list.getHead cell).next other = list.next other := by
  rw [DList.getHead]
  cases list.next cell <;> exact update_of_ne ne _ _

/-- A store to the link of another cell does not touch the list. -/
theorem update_next (isList : IsList list cells) (outside : other ∉ cells)
    (link : Option α) :
    IsList { list with next := update list.next other link } cells where
  forward := isList.forward.update outside
  backward := isList.backward

end IsList

end Operations

end Lockfreec.Lib.DoublyLinked
