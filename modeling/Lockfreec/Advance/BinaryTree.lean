import Mathlib.Data.List.Basic

/-!
# Searching a binary tree

The model of `lf_binarytree_search` with `lf_binarytree_int_comparator`
installed as `cmp_func`.  An `int` has 32 bits, and its subtraction wraps
around.  A node is compared by its address.

The comparator returns a difference, of which `binarytree_search_subnode` only
knows the values `-1`, `0` and `1`, and the loop never moves its cursor.  So a
search only finds the key of the root, and it does not return if the key is
next to that of the root on a side where the root has a child.
-/

namespace Lockfreec.Advance.BinaryTree

/-- `struct binary_node`. -/
structure BinaryNode (Node : Type) where
  left : Option Node
  right : Option Node
  data : BitVec 32

/-- `BINARY_SEARCH_SUCCESS` and `BINARY_SEARCH_ERROR`. -/
inductive SearchRet where
  | success
  | error
deriving DecidableEq

/-- `BINARY_HIT_LEFT`. -/
def binaryHitLeft : BitVec 32 := -1

/-- `BINARY_HIT_EQUAL`. -/
def binaryHitEqual : BitVec 32 := 0

/-- `BINARY_HIT_RIGHT`. -/
def binaryHitRight : BitVec 32 := 1

def lfBinarytreeIntComparator (d1 d2 : BitVec 32) : BitVec 32 :=
  d2 - d1

variable {Node : Type}

def binarytreeSearchSubnode (nodes : Node → BinaryNode Node) (parent : Node)
    (data : BitVec 32) : Option Node :=
  let hit := lfBinarytreeIntComparator (nodes parent).data data
  if hit = binaryHitLeft then (nodes parent).left
  else if hit = binaryHitEqual then some parent
  else if hit = binaryHitRight then (nodes parent).right
  else none

/-- The loop of `lf_binarytree_search`, for a number of rounds. -/
def lfBinarytreeSearch [DecidableEq Node] (nodes : Node → BinaryNode Node)
    (data : BitVec 32) (current : Node) : Nat → Option SearchRet
  | 0 => none
  | rounds + 1 =>
    match binarytreeSearchSubnode nodes current data with
    | none => some .error
    | some node =>
      if node = current then some .success
      else lfBinarytreeSearch nodes data current rounds

/-- A finite tree with these nodes, ordered by the sign of the comparator. -/
inductive SearchTree (nodes : Node → BinaryNode Node) :
    Option Node → List Node → Prop where
  | empty : SearchTree nodes none []
  | node {root : Node} {below above : List Node}
      (left : SearchTree nodes (nodes root).left below)
      (right : SearchTree nodes (nodes root).right above)
      (less : ∀ node ∈ below, (lfBinarytreeIntComparator (nodes root).data
        (nodes node).data).slt 0)
      (greater : ∀ node ∈ above, (0#32).slt
        (lfBinarytreeIntComparator (nodes root).data (nodes node).data)) :
      SearchTree nodes (some root) (below ++ root :: above)

variable {nodes : Node → BinaryNode Node} {root child : Node} {list : List Node}
  {key : BitVec 32}

theorem SearchTree.root_mem (tree : SearchTree nodes (some root) list) :
    root ∈ list := by
  cases tree
  simp

theorem SearchTree.child_ne (tree : SearchTree nodes (some root) list)
    (isChild : (nodes root).left = some child ∨
      (nodes root).right = some child) : child ≠ root := by
  rintro rfl
  cases tree with
  | node left right less greater =>
    rcases isChild with isLeft | isRight
    · rw [isLeft] at left
      have negative := less child left.root_mem
      simp [lfBinarytreeIntComparator] at negative
    · rw [isRight] at right
      have positive := greater child right.root_mem
      simp [lfBinarytreeIntComparator] at positive

variable [DecidableEq Node]

/-- The search returns after finitely many rounds and has found the key if
some node holds it. -/
def SearchesRight (nodes : Node → BinaryNode Node) (root : Node)
    (list : List Node) (key : BitVec 32) : Prop :=
  ∃ rounds, lfBinarytreeSearch nodes key root rounds =
    some (if ∃ node ∈ list, (nodes node).data = key then .success else .error)

theorem search_success
    (subnode : binarytreeSearchSubnode nodes root key = some root) :
    lfBinarytreeSearch nodes key root 1 = some .success := by
  simp [lfBinarytreeSearch, subnode]

theorem search_error (subnode : binarytreeSearchSubnode nodes root key = none)
    (rounds : Nat) :
    lfBinarytreeSearch nodes key root (rounds + 1) = some .error := by
  rw [lfBinarytreeSearch, subnode]

theorem search_stuck
    (subnode : binarytreeSearchSubnode nodes root key = some child)
    (moved : child ≠ root) (rounds : Nat) :
    lfBinarytreeSearch nodes key root rounds = none := by
  induction rounds with
  | zero => rfl
  | succ rounds ih =>
    rw [lfBinarytreeSearch, subnode]
    show (if child = root then _ else _) = none
    rw [if_neg moved]
    exact ih

/-- Where the search looks is missing: it finds nothing. -/
theorem searchesRight_of_none
    (subnode : binarytreeSearchSubnode nodes root key = none) :
    SearchesRight nodes root list key ↔
      ∀ node ∈ list, (nodes node).data ≠ key := by
  constructor
  · rintro ⟨rounds, returned⟩ node mem holds
    cases rounds with
    | zero => cases returned
    | succ rounds =>
      rw [search_error subnode, if_pos ⟨node, mem, holds⟩] at returned
      cases returned
  · intro absent
    refine ⟨1, ?_⟩
    rw [search_error subnode, if_neg]
    rintro ⟨node, mem, holds⟩
    exact absent node mem holds

theorem not_searchesRight
    (subnode : binarytreeSearchSubnode nodes root key = some child)
    (moved : child ≠ root) : ¬ SearchesRight nodes root list key := by
  rintro ⟨rounds, returned⟩
  rw [search_stuck subnode moved] at returned
  cases returned

/--
A search of a search tree is right if and only if the root holds the key, or
no node holds it and the root has no child on the side of a key next to its
own.
-/
theorem searchesRight_iff (tree : SearchTree nodes (some root) list)
    (key : BitVec 32) :
    SearchesRight nodes root list key ↔ (nodes root).data = key ∨
        (∀ node ∈ list, (nodes node).data ≠ key) ∧
          (key = (nodes root).data - 1 → (nodes root).left = none) ∧
          (key = (nodes root).data + 1 → (nodes root).right = none) := by
  have subnode : binarytreeSearchSubnode nodes root key =
      if key = (nodes root).data - 1 then (nodes root).left
      else if key = (nodes root).data then some root
      else if key = (nodes root).data + 1 then (nodes root).right
      else none := by
    simp only [binarytreeSearchSubnode, lfBinarytreeIntComparator,
      binaryHitLeft, binaryHitEqual, binaryHitRight]
    congr 1
    · rw [eq_iff_iff]
      constructor <;> intro same <;> bv_omega
    · congr 1
      · rw [eq_iff_iff]
        constructor <;> intro same <;> bv_omega
      · congr 1
        rw [eq_iff_iff]
        constructor <;> intro same <;> bv_omega
  by_cases low : key = (nodes root).data - 1
  · have apart : (nodes root).data ≠ key ∧ key ≠ (nodes root).data + 1 := by
      constructor <;> bv_omega
    rw [if_pos low] at subnode
    cases child : (nodes root).left with
    | none =>
      rw [searchesRight_of_none (subnode.trans child)]
      tauto
    | some node =>
      apply iff_of_false
      · exact not_searchesRight (subnode.trans child)
          (tree.child_ne (.inl child))
      · rintro (same | ⟨-, noChild, -⟩)
        · exact apart.1 same
        · cases noChild low
  rw [if_neg low] at subnode
  by_cases equal : key = (nodes root).data
  · rw [if_pos equal] at subnode
    refine iff_of_true ⟨1, ?_⟩ (.inl equal.symm)
    rw [search_success subnode, if_pos ⟨root, tree.root_mem, equal.symm⟩]
  rw [if_neg equal] at subnode
  by_cases high : key = (nodes root).data + 1
  · rw [if_pos high] at subnode
    cases child : (nodes root).right with
    | none =>
      rw [searchesRight_of_none (subnode.trans child)]
      tauto
    | some node =>
      apply iff_of_false
      · exact not_searchesRight (subnode.trans child)
          (tree.child_ne (.inr child))
      · rintro (same | ⟨-, -, noChild⟩)
        · exact equal same.symm
        · cases noChild high
  · rw [if_neg high] at subnode
    rw [searchesRight_of_none subnode]
    tauto

/-- The root holds `5` and its left child holds `3`. -/
def twoNodes : Bool → BinaryNode Bool
  | true => ⟨some false, none, 5⟩
  | false => ⟨none, none, 3⟩

theorem twoNodes_tree : SearchTree twoNodes (some true) [false, true] := by
  have leaf : SearchTree twoNodes (some false) [false] :=
    @SearchTree.node _ twoNodes false [] [] .empty .empty (by simp) (by simp)
  exact @SearchTree.node _ twoNodes true [false] [] leaf .empty (by decide)
    (by simp)

/-- The key of the child is not found. -/
theorem search_misses_child : SearchTree twoNodes (some true) [false, true] ∧
      (twoNodes false).data = 3 ∧
      lfBinarytreeSearch twoNodes 3 true 1 = some .error :=
  ⟨twoNodes_tree, rfl, rfl⟩

/-- The key of the root is found. -/
theorem searchesRight_iff_root : SearchTree twoNodes (some true) [false, true] ∧
      SearchesRight twoNodes true [false, true] 5 :=
  ⟨twoNodes_tree, (searchesRight_iff twoNodes_tree 5).2 (.inl rfl)⟩

end Lockfreec.Advance.BinaryTree
