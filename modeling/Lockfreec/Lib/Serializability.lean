import Mathlib.Logic.Relation
import Mathlib.Data.List.Basic
import Mathlib.Order.Nat

/-!
# Conflict serializability

A history contains the operations of transactions on rows.  One transaction
precedes another if an operation of the first one comes before a conflicting
operation of the second one.  The committed transactions are serializable if
this relation has no cycle among them.

The rule `serializable_of_cut` asks for one event of each transaction, its
serialization point.  If every edge can be cut, by a prefix of the history
that contains the point of the first transaction and not that of the second
one, then the order of the points is a serial order.
-/

namespace Lockfreec.Lib.Serializability

variable {Id Row Event : Type}

/-- An operation of a transaction on a row. -/
structure Op (Id Row : Type) where
  id : Id
  row : Row
  write : Bool
deriving DecidableEq, Repr

/-- Two operations of different transactions on a row, one of which writes. -/
structure Conflicts (first second : Op Id Row) : Prop where
  id : first.id ≠ second.id
  row : first.row = second.row
  write : first.write = true ∨ second.write = true

/-- An operation of one transaction comes before a conflicting operation of
another one. -/
def Precedes (op : Event → Option (Op Id Row)) (history : List Event)
    (left right : Id) : Prop :=
  ∃ before event after first second,
    history = before ++ event :: after ∧ op event = some second ∧
    (∃ earlier ∈ before, op earlier = some first) ∧
    first.id = left ∧ second.id = right ∧ Conflicts first second

/-- The committed transactions precede each other without a cycle. -/
def Serializable (op : Event → Option (Op Id Row)) (committed : Id → Prop)
    (history : List Event) : Prop :=
  ∀ id, ¬ Relation.TransGen (fun left right => committed left ∧
    committed right ∧ Precedes op history left right) id id

/-- A relation along which a rank grows has no cycle. -/
theorem acyclic_of_rank {Rank : Type} [Preorder Rank]
    {edge : Id → Id → Prop} (rank : Id → Rank)
    (grows : ∀ left right, edge left right → rank left < rank right)
    (id : Id) : ¬ Relation.TransGen edge id id := by
  intro cycle
  have lifted : ∀ {left right}, Relation.TransGen edge left right →
      rank left < rank right := by
    intro left right path
    induction path with
    | single step => exact grows _ _ step
    | tail path step ih => exact lt_trans ih (grows _ _ step)
  exact lt_irrefl _ (lifted cycle)

theorem serializable_of_cut {op : Event → Option (Op Id Row)} {committed : Id → Prop}
    {history : List Event} (point : Id → Event)
    (cut : ∀ left right, committed left → committed right →
      Precedes op history left right →
      ∃ before after, history = before ++ after ∧
        point left ∈ before ∧ point right ∉ before) :
    Serializable op committed history := by
  classical
  apply acyclic_of_rank fun id => history.idxOf (point id)
  rintro left right ⟨isLeft, isRight, precedes⟩
  rcases cut left right isLeft isRight precedes with
    ⟨before, after, rfl, inside, outside⟩
  rw [List.idxOf_append_of_mem inside, List.idxOf_append_of_notMem outside]
  exact Nat.lt_of_lt_of_le (List.idxOf_lt_length_of_mem inside)
    (Nat.le_add_right ..)

end Lockfreec.Lib.Serializability
