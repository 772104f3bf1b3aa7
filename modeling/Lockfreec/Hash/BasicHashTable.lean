import Lockfreec.Lib.DigitTrie
import Mathlib.Data.Finmap

/-!
# The sequential hash table

`BasicHashTable` is a trie of arrays with one slot for each hash nibble.  A
slot is a null pointer, owns a data node or owns the next array.  The model is
the instantiation with eight-byte keys: 64-bit hashes, `HASH_LEVEL` four.

A call that would shift a hash by its whole width, or that would fail an
`assert`, has no result in the model.
-/

namespace Lockfreec.Hash.BasicHashTable

open Lib.DigitTrie

/-! ## Nodes and nibbles -/

/-- `HASH_LEVEL`: the number of hash bits that index one array. -/
abbrev hashLevel : Nat := 4

/-- `ARRAY_SIZE`, that is `get_power2<HASH_LEVEL>`. -/
abbrev arraySize : Nat := 16

abbrev Node (Key T : Type) := Trie (Fin arraySize) (Key × T)

abbrev ArrayNode (Key T : Type) := Fin arraySize → Node Key T

/-- A newly made array node: `arr_` holds null pointers only. -/
def arrayNode {Key T : Type} : ArrayNode Key T := fun _ => .null

def nibble (hash : UInt64) (level : Nat) : Fin arraySize :=
  ⟨(hash.toNat >>> (hashLevel * level)) &&& (arraySize - 1), by
    exact Nat.lt_of_le_of_lt Nat.and_le_right (by decide)⟩

/-- `level_hash`, which has no meaning for a shift of 64 bits or more. -/
def levelHash (hash : UInt64) (level : Nat) : Option (Fin arraySize) :=
  if hashLevel * level < 64 then some (nibble hash level) else none

/-! ## The table and its constructor -/

structure HashTable (Key T : Type) where
  rootNode : ArrayNode Key T
  /-- The stack of spare array nodes, its top first. -/
  pool : List (ArrayNode Key T)
  size : UInt64
  maxLevel : Nat

/-- `for (; num < m2; num += num * ARRAY_SIZE) level++` on 64-bit words. -/
def levelLoop (bound : UInt64) : Nat → UInt64 → Nat → Option Nat
  | 0, _, _ => none
  | fuel + 1, num, level =>
    if num < bound then
      levelLoop bound fuel (num + num * UInt64.ofNat arraySize) (level + 1)
    else
      some level

/-- The largest `std::size_t`. -/
def sizeMax : UInt64 := 18446744073709551615

/-- `max_level_` as the constructor sets it for eight-byte keys. -/
def constructedMaxLevel : Option Nat :=
  (levelLoop (sizeMax / 2) 64 (UInt64.ofNat arraySize) 1).map (· + 1)

theorem constructedMaxLevel_eq : constructedMaxLevel = some 19 := by
  decide

def put {Key T : Type} (pool : List (ArrayNode Key T)) (count : Nat) :
    List (ArrayNode Key T) :=
  List.replicate count arrayNode ++ pool

/-- The number of array nodes that `Reserve` adds to the pool. -/
def reservedNodes (newCap : UInt64) : UInt64 :=
  if newCap % UInt64.ofNat arraySize ≠ 0 then
    newCap / UInt64.ofNat arraySize
  else
    newCap / UInt64.ofNat arraySize + 1

def reserve {Key T : Type} (table : HashTable Key T)
    (newCap : UInt64) : HashTable Key T :=
  { table with pool := put table.pool (reservedNodes newCap).toNat }

/-- `BasicHashTable()`, and `BasicHashTable(capacity)` when one is given. -/
def construct (Key T : Type) (capacity : Option UInt64) :
    Option (HashTable Key T) := do
  let maxLevel ← constructedMaxLevel
  let table : HashTable Key T := ⟨arrayNode, [], 0, maxLevel⟩
  match capacity with
  | none => pure table
  | some capacity => pure (reserve table capacity)

/-! ## The two locators -/

section

variable {Key T : Type} (hash : Key → UInt64)

/-- The finding locator from one array on: where `loc_ref_` points, with
`fuel` the number of levels up to `max_level_`. -/
def locatorFind (key : Key) :
    Nat → Nat → ArrayNode Key T → Option (Option (Address (Fin arraySize)))
  | 0, _, _ => some none
  | fuel + 1, level, arr => do
      let currHash ← levelHash (hash key) level
      match arr currHash with
      | .null => some none
      | .data entry =>
        if hash key = hash entry.1 then some (some (.here currHash))
        else some none
      | .array inner =>
        let located ← locatorFind key fuel (level + 1) inner
        some (located.map (.inside currHash))

/-- The array node for a split: the top of the pool, or a new one. -/
def takeArray :
    List (ArrayNode Key T) → ArrayNode Key T × List (ArrayNode Key T)
  | [] => (arrayNode, [])
  | top :: rest => (top, rest)

/-- The inserting locator from one array on: the array and the pool it leaves
behind, and whether `loc_ref_` points to a slot. -/
def locatorInsert (key : Key) (mapped : T) :
    Nat → Nat → ArrayNode Key T → List (ArrayNode Key T) →
      Option (ArrayNode Key T × List (ArrayNode Key T) × Bool)
  | 0, _, arr, pool => some (arr, pool, false)
  | fuel + 1, level, arr, pool => do
      let currHash ← levelHash (hash key) level
      match arr currHash with
      | .null =>
        some (Function.update arr currHash (.data (key, mapped)), pool, true)
      | .data entry =>
        if hash entry.1 = hash key then
          some (arr, pool, false)
        else
          let (fresh, rest) := takeArray pool
          let tempHash ← levelHash (hash entry.1) (level + 1)
          let (inner, left, located) ← locatorInsert key mapped fuel (level + 1)
              (Function.update fresh tempHash (.data entry)) rest
          some (Function.update arr currHash (.array inner), left, located)
      | .array inner =>
        let (grown, left, located) ←
          locatorInsert key mapped fuel (level + 1) inner pool
        some (Function.update arr currHash (.array grown), left, located)

end

/-! ## Operations -/

section

variable {Key T : Type} (hash : Key → UInt64)

def insert (table : HashTable Key T) (key : Key) (mapped : T) :
    Option (Bool × HashTable Key T) := do
  let (root, pool, located) ←
    locatorInsert hash key mapped table.maxLevel 0 table.rootNode table.pool
  if located then
    some (true, ⟨root, pool, table.size + 1, table.maxLevel⟩)
  else
    some (false, ⟨root, pool, table.size, table.maxLevel⟩)

/-- The pair that `Get` and `Find` read; both assert that its key is the one
asked for. -/
def locatedValue [DecidableEq Key] (table : HashTable Key T)
    (key : Key) : Option (Option (Key × T)) := do
  match ← locatorFind hash key table.maxLevel 0 table.rootNode with
  | none => some none
  | some address =>
    match address.read table.rootNode with
    | .data entry => if entry.1 = key then some (some entry) else none
    | _ => none

def remove (table : HashTable Key T) (key : Key) :
    Option (Bool × HashTable Key T) := do
  match ← locatorFind hash key table.maxLevel 0 table.rootNode with
  | none => some (false, table)
  | some address =>
    some (true,
        { table with
          rootNode := address.write .null table.rootNode
          size := table.size - 1 })

def update (table : HashTable Key T) (key : Key) (newMapped : T) :
    Option (Bool × HashTable Key T) := do
  match ← locatorFind hash key table.maxLevel 0 table.rootNode with
  | none => some (false, table)
  | some address =>
    match address.read table.rootNode with
    | .data entry =>
      some (true,
          { table with
            rootNode :=
              address.write (.data (entry.1, newMapped)) table.rootNode })
    | _ => none

end

/-! ## Call sequences -/

inductive Call (Key T : Type) where
  | insert (key : Key) (mapped : T)
  | get (key : Key)
  | find (key : Key)
  | remove (key : Key)
  | update (key : Key) (newMapped : T)
  | size
  | reserve (newCap : UInt64)

inductive Result (Key T : Type) where
  | done
  | bool (answer : Bool)
  | pair (entry : Key × T)
  /-- `std::out_of_range("No Element Found")`. -/
  | outOfRange
  /-- The pointer that `Find` returns. -/
  | shared (entry : Option (Key × T))
  | size (count : UInt64)
deriving DecidableEq

section

variable {Key T : Type} [DecidableEq Key] (hash : Key → UInt64)

def call (table : HashTable Key T) :
    Call Key T → Option (Result Key T × HashTable Key T)
  | .insert key mapped =>
    (insert hash table key mapped).map fun (answer, after) =>
      (.bool answer, after)
  | .get key =>
    (locatedValue hash table key).map fun value =>
      (match value with
        | none => .outOfRange
        | some entry => .pair entry, table)
  | .find key =>
    (locatedValue hash table key).map fun value => (.shared value, table)
  | .remove key =>
    (remove hash table key).map fun (answer, after) => (.bool answer, after)
  | .update key newMapped =>
    (update hash table key newMapped).map fun (answer, after) =>
      (.bool answer, after)
  | .size => some (.size table.size, table)
  | .reserve newCap => some (.done, reserve table newCap)

def calls (table : HashTable Key T) :
    List (Call Key T) → Option (List (Result Key T) × HashTable Key T)
  | [] => some ([], table)
  | first :: rest => do
      let (result, after) ← call hash table first
      let (results, last) ← calls after rest
      some (result :: results, last)

end

/-! ## The finite map -/

section

variable {Key T : Type} [DecidableEq Key]

abbrev FiniteMap (Key T : Type) := Finmap fun _ : Key => T

def FiniteMap.bound (map : FiniteMap Key T) (key : Key) :
    Option (Key × T) :=
  (map.lookup key).map fun mapped => (key, mapped)

def mapCall (map : FiniteMap Key T) :
    Call Key T → Result Key T × FiniteMap Key T
  | .insert key mapped =>
    if key ∈ map then (.bool false, map)
    else (.bool true, Finmap.insert key mapped map)
  | .get key =>
    (match FiniteMap.bound map key with
      | none => .outOfRange
      | some entry => .pair entry, map)
  | .find key => (.shared (FiniteMap.bound map key), map)
  | .remove key =>
    if key ∈ map then (.bool true, Finmap.erase key map)
    else (.bool false, map)
  | .update key newMapped =>
    if key ∈ map then (.bool true, Finmap.insert key newMapped map)
    else (.bool false, map)
  | .size => (.size (UInt64.ofNat map.keys.card), map)
  | .reserve _ => (.done, map)

def mapCalls (map : FiniteMap Key T) :
    List (Call Key T) → List (Result Key T) × FiniteMap Key T
  | [] => ([], map)
  | first :: rest =>
    let (result, after) := mapCall map first
    let (results, last) := mapCalls after rest
    (result :: results, last)

end

end Lockfreec.Hash.BasicHashTable
