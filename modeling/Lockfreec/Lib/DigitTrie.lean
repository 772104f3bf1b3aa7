import Mathlib.Logic.Function.Basic

/-!
# Tries indexed by the digits of a hash

A trie node is empty, holds one entry, or is an array with one slot for each
digit.  The array met after `level` steps is indexed by digit `level` of the
hash.  `Placed` says that every entry lies on the path its own digits spell
and that no array lies below the last digit.
-/

namespace Lockfreec.Lib.DigitTrie

open Function

inductive Trie (Index Entry : Type) where
  | null
  | data (entry : Entry)
  | array (slots : Index → Trie Index Entry)

/-- The address of a slot: the digits that lead to it from an array. -/
inductive Address (Index : Type) where
  | here (index : Index)
  | inside (index : Index) (address : Address Index)
deriving DecidableEq, Repr

section

variable {Index Entry : Type}

def Address.read :
    Address Index → (Index → Trie Index Entry) → Trie Index Entry
  | .here index, slots => slots index
  | .inside index address, slots =>
    match slots index with
    | .array inner => address.read inner
    | _ => .null

def Address.write [DecidableEq Index] (node : Trie Index Entry) :
    Address Index → (Index → Trie Index Entry) → Index → Trie Index Entry
  | .here index, slots => Function.update slots index node
  | .inside index address, slots =>
    match slots index with
    | .array inner =>
      Function.update slots index (.array (address.write node inner))
    | _ => slots

end

section

variable {Index Entry Hash : Type} (hash : Entry → Hash)
  (digit : Hash → Nat → Index)

/-- The entry with hash `target` below a node that `level` digits lead to. -/
def lookup [DecidableEq Hash] (target : Hash) :
    Nat → Trie Index Entry → Option Entry
  | _, .null => none
  | _, .data entry => if hash entry = target then some entry else none
  | level, .array slots =>
    lookup target (level + 1) (slots (digit target level))

/-- `hash` has the first `level` digits of `path`. -/
def OnPath (path : Nat → Index) (level : Nat) (target : Hash) : Prop :=
  ∀ position < level, digit target position = path position

/-- Every entry is on its own path and arrays use digits below `depth`. -/
def Placed [DecidableEq Index] (depth : Nat) :
    Nat → (Nat → Index) → Trie Index Entry → Prop
  | _, _, .null => True
  | level, path, .data entry => OnPath digit path level (hash entry)
  | level, path, .array slots =>
    level < depth ∧ ∀ index,
        Placed depth (level + 1) (Function.update path level index)
          (slots index)

end

section

variable {Index Hash : Type} {digit : Hash → Nat → Index} {depth level : Nat}
  {path : Nat → Index} {target : Hash}

theorem OnPath.descend {index : Index} (onPath : OnPath digit path level target)
    (here : digit target level = index) :
    OnPath digit (Function.update path level index) (level + 1) target := by
  intro position within
  rcases Nat.lt_succ_iff_lt_or_eq.1 within with earlier | last
  · rw [update_of_ne (Nat.ne_of_lt earlier)]
    exact onPath position earlier
  · subst last
    simpa using here

/-- Two hashes with all `depth` digits on one path are the same. -/
theorem OnPath.unique {other : Hash} (separates : ∀ first second : Hash,
        (∀ position < depth, digit first position = digit second position) →
        first = second)
    (onPath : OnPath digit path depth target)
    (otherOnPath : OnPath digit path depth other) :
    target = other := by
  apply separates
  intro position within
  rw [onPath position within, otherOnPath position within]

end

section

variable {Index Entry Hash : Type} [DecidableEq Index] {hash : Entry → Hash}
  {digit : Hash → Nat → Index} {depth level : Nat} {path : Nat → Index}
  {slots : Index → Trie Index Entry}

theorem placed_data {entry : Entry} :
    Placed hash digit depth level path (.data entry) ↔
      OnPath digit path level (hash entry) := by
  simp [Placed]

theorem Placed.slot (placed : Placed hash digit depth level path (.array slots))
    (index : Index) :
    Placed hash digit depth (level + 1) (Function.update path level index)
      (slots index) :=
  placed.2 index

theorem Placed.update {index : Index} {node : Trie Index Entry}
    (placed : Placed hash digit depth level path (.array slots))
    (nodePlaced : Placed hash digit depth (level + 1)
        (Function.update path level index) node) :
    Placed hash digit depth level path
      (.array (Function.update slots index node)) := by
  constructor
  · exact placed.1
  · intro other
    by_cases same : other = index
    · subst same
      simpa using nodePlaced
    · rw [update_of_ne same]
      exact placed.2 other

theorem Placed.empty (within : level < depth) :
    Placed hash digit depth level path (.array fun _ => .null) := by
  simp [Placed, within]

/-- Writing over an entry keeps the placement when the new node may stand
wherever that entry may. -/
theorem Placed.write {entry : Entry} {node : Trie Index Entry} (fits :
      ∀ {level path}, Placed hash digit depth level path (.data entry) →
        Placed hash digit depth level path node)
    {address : Address Index} :
    ∀ {level : Nat} {path : Nat → Index} {slots : Index → Trie Index Entry},
      address.read slots = .data entry →
        Placed hash digit depth level path (.array slots) →
          Placed hash digit depth level path
            (.array (address.write node slots)) := by
  induction address with
  | here index =>
    intro level path slots found placed
    simp only [Address.read] at found
    apply placed.update
    apply fits
    rw [← found]
    exact placed.slot index
  | inside index address induction =>
    intro level path slots found placed
    simp only [Address.read] at found
    have slotPlaced := placed.slot index
    cases stored : slots index with
    | null | data =>
      simp [stored] at found
    | array inner =>
      rw [stored] at found slotPlaced
      simp only [Address.write, stored]
      exact placed.update (induction found slotPlaced)

end

section

variable {Index Entry Hash : Type} [DecidableEq Hash] {hash : Entry → Hash}
  {digit : Hash → Nat → Index} {level : Nat} {slots : Index → Trie Index Entry}
  {target : Hash}

@[simp]
theorem lookup_null : lookup hash digit target level .null = none := by
  simp [lookup]

@[simp]
theorem lookup_data (entry : Entry) :
    lookup hash digit target level (.data entry) =
      if hash entry = target then some entry else none := by
  simp [lookup]

theorem lookup_array : lookup hash digit target level (.array slots) =
      lookup hash digit target (level + 1) (slots (digit target level)) := by
  simp [lookup]

theorem lookup_update [DecidableEq Index] (index : Index) (node : Trie Index Entry) :
    lookup hash digit target level (.array (Function.update slots index node)) =
      if digit target level = index then
        lookup hash digit target (level + 1) node
      else
        lookup hash digit target level (.array slots) := by
  by_cases here : digit target level = index
  · simp [lookup_array, here]
  · simp [lookup_array, here]

/-- A slot address that follows the digits of `target`. -/
def Address.Follows (digit : Hash → Nat → Index) (target : Hash) :
    Nat → Address Index → Prop
  | level, .here index => index = digit target level
  | level, .inside index address =>
    index = digit target level ∧ address.Follows digit target (level + 1)

variable (hash) in
/-- Overwriting the entry of `target` with a node that answers only for
`target` changes the answer for `target` alone. -/
theorem lookup_write [DecidableEq Index] {entry : Entry} {node : Trie Index Entry}
    {answer : Option Entry} (owner : hash entry = target)
    (answers : ∀ level other, lookup hash digit other level node =
          if other = target then answer else none)
    (other : Hash) {address : Address Index} :
    ∀ {level : Nat} {slots : Index → Trie Index Entry},
      address.Follows digit target level → address.read slots = .data entry →
          lookup hash digit other level (.array (address.write node slots)) =
            if other = target then answer
            else lookup hash digit other level (.array slots) := by
  induction address with
  | here index =>
    intro level slots follows found
    simp only [Address.Follows] at follows
    simp only [Address.read] at found
    subst follows
    simp only [Address.write, lookup_update]
    by_cases same : other = target
    · subst same
      simp [answers]
    · by_cases here : digit other level = digit target level
      · simp [same, answers, lookup_array, here, found, owner, Ne.symm same]
      · simp [same, here]
  | inside index address induction =>
    intro level slots follows found
    simp only [Address.Follows] at follows
    simp only [Address.read] at found
    rcases follows with ⟨rfl, follows⟩
    cases stored : slots (digit target level) with
    | null | data =>
      simp [stored] at found
    | array inner =>
      rw [stored] at found
      simp only [Address.write, stored, lookup_update]
      by_cases same : other = target
      · subst same
        simp [induction follows found]
      · by_cases here : digit other level = digit target level
        · simp [same, induction follows found, here, lookup_array, stored]
        · simp [same, here]

end

end Lockfreec.Lib.DigitTrie
