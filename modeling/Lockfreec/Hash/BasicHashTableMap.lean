import Lockfreec.Hash.BasicHashTable

/-!
# The hash table is a finite map

Sixteen nibbles determine a 64-bit hash, so two entries with different hashes
part at the latest in the sixteenth array.  Hence no split reaches below level
fifteen, `level_hash` never shifts by 64 bits and the nineteen levels that the
constructor allows are never used up.
-/

namespace Lockfreec.Hash.BasicHashTable

open Function Lib.DigitTrie

/-! ## Nibbles -/

/-- The number of nibbles of a hash. -/
abbrev nibbles : Nat := 16

theorem nibble_testBit (hash : UInt64) {level bit : Nat} (within : bit < 4) :
    (nibble hash level).val.testBit bit =
      hash.toNat.testBit (4 * level + bit) := by
  have mask : Nat.testBit 15 bit = true := by
    revert bit
    decide
  simp [nibble, mask]

theorem nibbles_separate (first second : UInt64) (same :
      ∀ position < nibbles, nibble first position = nibble second position) :
    first = second := by
  apply UInt64.toNat_inj.1
  apply Nat.eq_of_testBit_eq
  intro bit
  by_cases within : bit < 64
  · have remainder : bit % 4 < 4 := Nat.mod_lt _ (by decide)
    have position : bit / 4 < 16 := by omega
    rw [← Nat.div_add_mod bit 4, ← nibble_testBit first remainder,
      ← nibble_testBit second remainder, same _ position]
  · have high : (2 : Nat) ^ 64 ≤ 2 ^ bit :=
      Nat.pow_le_pow_right (by decide) (Nat.le_of_not_lt within)
    rw [Nat.testBit_lt_two_pow (first.toNat_lt.trans_le high),
      Nat.testBit_lt_two_pow (second.toNat_lt.trans_le high)]

theorem levelHash_of_lt (hash : UInt64) {level : Nat}
    (within : level < nibbles) :
    levelHash hash level = some (nibble hash level) := by
  have shift : hashLevel * level < 64 :=
    Nat.mul_lt_mul_of_pos_left within (by decide)
  simp [levelHash, shift]

/-! ## The locators -/

section

variable {Key T : Type} {hash : Key → UInt64}

/-- The entry with hash `target` below an array of level `level`. -/
abbrev lookupFrom (hash : Key → UInt64) (target : UInt64) (level : Nat)
    (arr : ArrayNode Key T) : Option (Key × T) :=
  lookup (fun entry => hash entry.1) nibble target level (.array arr)

abbrev PlacedFrom (hash : Key → UInt64) (level : Nat)
    (path : Nat → Fin arraySize) (arr : ArrayNode Key T) : Prop :=
  Placed (fun entry => hash entry.1) nibble nibbles level path (.array arr)

theorem lookupFrom_slot (target : UInt64) (level : Nat)
    (arr : ArrayNode Key T) :
    lookupFrom hash target level arr =
      lookup (fun entry => hash entry.1) nibble target (level + 1)
        (arr (nibble target level)) :=
  lookup_array

theorem lookupFrom_update (target : UInt64) (level : Nat)
    (arr : ArrayNode Key T) (index : Fin arraySize) (node : Node Key T) :
    lookupFrom hash target level (Function.update arr index node) =
      if nibble target level = index then
        lookup (fun entry => hash entry.1) nibble target (level + 1) node
      else lookupFrom hash target level arr :=
  lookup_update index node

/-- What the finding locator reports about a key. -/
def Located (hash : Key → UInt64) (key : Key) (level : Nat)
    (arr : ArrayNode Key T) : Option (Address (Fin arraySize)) → Prop
  | none => lookupFrom hash (hash key) level arr = none
  | some address =>
    address.Follows nibble (hash key) level ∧
      ∃ entry, address.read arr = .data entry ∧
        lookupFrom hash (hash key) level arr = some entry

variable {level : Nat} {path : Nat → Fin arraySize} {arr : ArrayNode Key T}
  {pool : List (ArrayNode Key T)}

theorem locatorFind_located (key : Key) {fuel : Nat}
    (enough : nibbles ≤ level + fuel) (placed : PlacedFrom hash level path arr)
    :
    ∃ located, locatorFind hash key fuel level arr = some located ∧
        Located hash key level arr located := by
  induction fuel generalizing level path arr with
  | zero =>
    have within := placed.1
    omega
  | succ fuel induction =>
    simp only [locatorFind, levelHash_of_lt _ placed.1]
    have slotPlaced := placed.slot (nibble (hash key) level)
    cases stored : arr (nibble (hash key) level) with
    | null =>
      exact ⟨none, by simp [stored], by simp [Located, lookupFrom_slot, stored]⟩
    | data entry =>
      by_cases same : hash key = hash entry.1
      · refine ⟨some (.here (nibble (hash key) level)),
          by simp [stored, same.symm], rfl, entry, stored, ?_⟩
        simp [lookupFrom_slot, stored, same.symm]
      · exact ⟨none, by simp [stored, same],
          by simp [Located, lookupFrom_slot, stored, Ne.symm same]⟩
    | array inner =>
      rw [stored] at slotPlaced
      rcases induction (by omega) slotPlaced with
        ⟨located, found, report⟩
      refine ⟨located.map (.inside (nibble (hash key) level)),
        by simp [stored, found], ?_⟩
      cases located with
      | none =>
        simpa [Located, lookupFrom_slot, stored] using report
      | some address =>
        rcases report with ⟨follows, entry, atAddress, bound⟩
        refine ⟨⟨rfl, follows⟩, entry, ?_, ?_⟩
        · simpa [Address.read, stored] using atAddress
        · simpa [lookupFrom_slot, stored] using bound

/-- Every spare array is as new. -/
def FreshPool (pool : List (ArrayNode Key T)) : Prop :=
  ∀ spare ∈ pool, spare = arrayNode

theorem takeArray_fresh (fresh : FreshPool pool) :
    (takeArray pool).1 = arrayNode ∧ FreshPool (takeArray pool).2 := by
  cases pool with
  | nil =>
    exact ⟨rfl, fresh⟩
  | cons top rest =>
    exact ⟨fresh top (.head _), fun spare mem => fresh spare (.tail _ mem)⟩

/-- The array a split starts with holds the displaced entry alone. -/
theorem lookup_split (entry : Key × T) (level : Nat) (target : UInt64) :
    lookupFrom hash target level
        (Function.update arrayNode (nibble (hash entry.1) level)
          (.data entry)) =
      if hash entry.1 = target then some entry else none := by
  rw [lookupFrom_update]
  by_cases same : hash entry.1 = target
  · simp [same]
  · simp [same, lookupFrom_slot, arrayNode]

/-- What the inserting locator leaves behind. -/
structure Inserted (hash : Key → UInt64) (key : Key) (mapped : T)
    (level : Nat) (path : Nat → Fin arraySize) (before : ArrayNode Key T)
    (after : ArrayNode Key T) (pool : List (ArrayNode Key T))
    (located : Bool) : Prop where
  placed : PlacedFrom hash level path after
  fresh : FreshPool pool
  absent : located = (lookupFrom hash (hash key) level before).isNone
  lookups : ∀ target, lookupFrom hash target level after =
      if located ∧ target = hash key then some (key, mapped)
      else lookupFrom hash target level before

/-- Inserting below one slot: what holds of the array in the slot holds of
the array around it. -/
theorem Inserted.inside {key : Key} {mapped : T}
    {before after : ArrayNode Key T} {located : Bool}
    (placed : PlacedFrom hash level path arr) (same : ∀ target,
        lookup (fun entry => hash entry.1) nibble target (level + 1)
            (arr (nibble (hash key) level)) =
          lookupFrom hash target (level + 1) before) (inserted :
      Inserted hash key mapped (level + 1)
        (Function.update path level (nibble (hash key) level)) before after
        pool located) :
    Inserted hash key mapped level path arr
      (Function.update arr (nibble (hash key) level) (.array after)) pool
      located where
  placed := placed.update inserted.placed
  fresh := inserted.fresh
  absent := by
    rw [lookupFrom_slot, same]
    exact inserted.absent
  lookups := by
    intro target
    rw [lookupFrom_update]
    by_cases here : nibble target level = nibble (hash key) level
    · rw [if_pos here, lookupFrom_slot, here, same]
      exact inserted.lookups target
    · have other : target ≠ hash key := by
        rintro rfl
        exact here rfl
      simp [here, other]

theorem locatorInsert_inserted (key : Key) (mapped : T) {fuel : Nat}
    (enough : nibbles ≤ level + fuel) (placed : PlacedFrom hash level path arr)
    (onPath : OnPath nibble path level (hash key)) (fresh : FreshPool pool) :
    ∃ after left located, locatorInsert hash key mapped fuel level arr pool =
          some (after, left, located) ∧
        Inserted hash key mapped level path arr after left located := by
  induction fuel generalizing level path arr pool with
  | zero =>
    have within := placed.1
    omega
  | succ fuel induction =>
    simp only [locatorInsert, levelHash_of_lt _ placed.1]
    have slotPlaced := placed.slot (nibble (hash key) level)
    have deeper : OnPath nibble
          (Function.update path level (nibble (hash key) level))
          (level + 1) (hash key) :=
      onPath.descend rfl
    cases stored : arr (nibble (hash key) level) with
    | null =>
      refine ⟨Function.update arr (nibble (hash key) level)
            (.data (key, mapped)),
          pool, true, by simp [stored],
          placed.update (placed_data.2 deeper), fresh, by simp [lookupFrom_slot, stored], ?_⟩
      intro target
      rw [lookupFrom_update]
      by_cases here : nibble target level = nibble (hash key) level
      · simp [here, lookupFrom_slot, stored, eq_comm]
      · have other : target ≠ hash key := by
          rintro rfl
          exact here rfl
        simp [here, other]
    | data entry =>
      by_cases same : hash entry.1 = hash key
      · exact ⟨arr, pool, false, by simp [stored, same], placed, fresh,
          by simp [lookupFrom_slot, stored, same], by simp⟩
      · rw [stored] at slotPlaced
        -- Were this the last array, the two hashes would be equal.
        have within : level + 1 < nibbles := by
          by_contra full
          have last : level + 1 = nibbles :=
            Nat.le_antisymm placed.1 (Nat.le_of_not_lt full)
          rw [last] at deeper
          rw [last] at slotPlaced
          exact same ((placed_data.1 slotPlaced).unique nibbles_separate deeper)
        rcases takeArray_fresh fresh with ⟨isNew, leftFresh⟩
        have splitPlaced : PlacedFrom hash (level + 1)
              (Function.update path level (nibble (hash key) level))
              (Function.update (takeArray pool).1
                (nibble (hash entry.1) (level + 1)) (.data entry)) := by
          rw [isNew]
          exact (Placed.empty within).update
            (placed_data.2 ((placed_data.1 slotPlaced).descend rfl))
        rcases induction (by omega) splitPlaced deeper leftFresh with
          ⟨after, left, located, ran, inserted⟩
        refine ⟨_, left, located,
          by simp [stored, same, levelHash_of_lt _ within, ran],
          Inserted.inside placed ?_ inserted⟩
        intro target
        rw [isNew, lookup_split, stored, lookup_data]
    | array inner =>
      rw [stored] at slotPlaced
      rcases induction (by omega) slotPlaced deeper fresh with
        ⟨after, left, located, ran, inserted⟩
      refine ⟨_, left, located, by simp [stored, ran],
        Inserted.inside placed ?_ inserted⟩
      intro target
      rw [stored]

end

/-! ## Refinement -/

section

variable {Key T : Type} [DecidableEq Key] {hash : Key → UInt64}
  {table : HashTable Key T} {map : FiniteMap Key T}

/-- The table holds exactly the bindings of the map. -/
structure Represents (hash : Key → UInt64) (table : HashTable Key T)
    (map : FiniteMap Key T) : Prop where
  placed : PlacedFrom hash 0 (fun _ => 0) table.rootNode
  fresh : FreshPool table.pool
  lookups : ∀ key, lookupFrom hash (hash key) 0 table.rootNode = map.bound key
  size : table.size = UInt64.ofNat map.keys.card
  maxLevel : table.maxLevel = 19

theorem FiniteMap.bound_eq_none {key : Key} :
    map.bound key = none ↔ key ∉ map := by
  simp [FiniteMap.bound, Finmap.lookup_eq_none]

theorem FiniteMap.bound_insert (key other : Key) (mapped : T) :
    FiniteMap.bound (Finmap.insert key mapped map) other =
      if other = key then some (key, mapped) else map.bound other := by
  by_cases same : other = key
  · subst same
    simp [FiniteMap.bound]
  · simp [FiniteMap.bound, same, Finmap.lookup_insert_of_ne _ same]

theorem FiniteMap.bound_erase (key other : Key) :
    FiniteMap.bound (Finmap.erase key map) other =
      if other = key then none else map.bound other := by
  by_cases same : other = key
  · subst same
    simp [FiniteMap.bound]
  · simp [FiniteMap.bound, same, Finmap.lookup_erase_ne same]

theorem FiniteMap.keys_insert (key : Key) (mapped : T) :
    (Finmap.insert key mapped map).keys = Insert.insert key map.keys := by
  ext other
  simp [Finmap.mem_keys]

section

variable (represents : Represents hash table map)

include represents

/-- The finding locator on a table that represents a map. -/
theorem Represents.locate (key : Key) : (key ∉ map ∧
        locatorFind hash key table.maxLevel 0 table.rootNode = some none) ∨
      key ∈ map ∧ ∃ address mapped,
          locatorFind hash key table.maxLevel 0 table.rootNode =
              some (some address) ∧
            address.Follows nibble (hash key) 0 ∧
            address.read table.rootNode = .data (key, mapped) ∧
            map.bound key = some (key, mapped) := by
  have enough : nibbles ≤ 0 + table.maxLevel := by
    rw [represents.maxLevel]
    decide
  rcases locatorFind_located key enough represents.placed with
    ⟨located, found, report⟩
  cases located with
  | none =>
    rw [Located, represents.lookups] at report
    exact .inl ⟨FiniteMap.bound_eq_none.1 report, found⟩
  | some address =>
    rcases report with ⟨follows, entry, atAddress, stored⟩
    rw [represents.lookups] at stored
    rcases Option.map_eq_some_iff.1 stored with ⟨mapped, bound, rfl⟩
    exact .inr
      ⟨Finmap.mem_iff.2 ⟨mapped, bound⟩, address, mapped, found, follows,
        atAddress, stored⟩

theorem Represents.locatedValue (key : Key) :
    locatedValue hash table key = some (map.bound key) := by
  rcases represents.locate key with
    ⟨absent, found⟩ | ⟨_, address, mapped, found, _, atAddress, bound⟩
  · simp [BasicHashTable.locatedValue, found, FiniteMap.bound_eq_none.2 absent]
  · simp [BasicHashTable.locatedValue, found, atAddress, bound]

variable (injective : Injective hash)

include injective

/-- Writing the slot of a bound key with a node that answers for that key
alone. -/
theorem Represents.write {key : Key} {mapped : T}
    {address : Address (Fin arraySize)} {node : Node Key T}
    {answer : Option (Key × T)} {after : FiniteMap Key T} {count : UInt64}
    (follows : address.Follows nibble (hash key) 0)
    (atAddress : address.read table.rootNode = .data (key, mapped))
    (fits : ∀ {level path},
        Placed (fun entry => hash entry.1) nibble nibbles level path
            (.data (key, mapped)) →
          Placed (fun entry => hash entry.1) nibble nibbles level path node)
    (answers : ∀ level other,
        lookup (fun entry => hash entry.1) nibble other level node =
          if other = hash key then answer else none)
    (bounds : ∀ other, after.bound other =
        if other = key then answer else map.bound other)
    (counted : count = UInt64.ofNat after.keys.card) :
    Represents hash
      { table with
        rootNode := address.write node table.rootNode, size := count }
      after where
  placed := represents.placed.write fits atAddress
  fresh := represents.fresh
  lookups := by
    intro other
    have written : lookupFrom hash (hash other) 0
            (address.write node table.rootNode) =
          if hash other = hash key then answer
          else lookupFrom hash (hash other) 0 table.rootNode :=
      lookup_write (fun entry => hash entry.1) rfl answers (hash other)
        follows atAddress
    rw [bounds other, written]
    by_cases same : other = key
    · simp [same]
    · simp [same, injective.ne same, represents.lookups other]
  size := counted
  maxLevel := represents.maxLevel

theorem Represents.insert (key : Key) (mapped : T) : ∃ after,
      insert hash table key mapped = some (decide (key ∉ map), after) ∧
        Represents hash after
          (if key ∈ map then map else Finmap.insert key mapped map) := by
  have enough : nibbles ≤ 0 + table.maxLevel := by
    rw [represents.maxLevel]
    decide
  have onPath : OnPath nibble (fun _ => 0) 0 (hash key) := by
    intro position within
    exact absurd within (Nat.not_lt_zero _)
  rcases locatorInsert_inserted key mapped enough represents.placed onPath
      represents.fresh with
    ⟨root, pool, located, ran, inserted⟩
  have absent : located = (map.bound key).isNone := by
    rw [← represents.lookups]
    exact inserted.absent
  by_cases mem : key ∈ map
  · have bound : located = false := by
      rw [absent, Option.isNone_eq_false_iff, Option.isSome_iff_ne_none]
      exact fun unbound => FiniteMap.bound_eq_none.1 unbound mem
    subst bound
    refine ⟨⟨root, pool, table.size, table.maxLevel⟩, ?_, ?_⟩
    · simp [BasicHashTable.insert, ran, mem]
    · rw [if_pos mem]
      exact ⟨inserted.placed, inserted.fresh, fun other => by
          simpa [represents.lookups] using inserted.lookups (hash other),
        represents.size, represents.maxLevel⟩
  · have unbound : located = true := by
      rw [absent, FiniteMap.bound_eq_none.2 mem]
      rfl
    subst unbound
    refine ⟨⟨root, pool, table.size + 1, table.maxLevel⟩, ?_, ?_⟩
    · simp [BasicHashTable.insert, ran, mem]
    · rw [if_neg mem]
      refine ⟨inserted.placed, inserted.fresh, ?_, ?_, represents.maxLevel⟩
      · intro other
        rw [inserted.lookups, FiniteMap.bound_insert, represents.lookups]
        simp [injective.eq_iff]
      · rw [FiniteMap.keys_insert,
          Finset.card_insert_of_notMem (mt Finmap.mem_keys.1 mem),
          represents.size]
        exact (UInt64.ofNat_add _ _).symm

theorem Represents.remove (key : Key) : ∃ after,
      remove hash table key = some (decide (key ∈ map), after) ∧
        Represents hash after
          (if key ∈ map then Finmap.erase key map else map) := by
  rcases represents.locate key with
    ⟨absent, found⟩ | ⟨mem, address, mapped, found, follows, atAddress, _⟩
  · refine ⟨table, by simp [BasicHashTable.remove, found, absent], ?_⟩
    rw [if_neg absent]
    exact represents
  · refine ⟨{ table with
          rootNode := address.write .null table.rootNode
          size := table.size - 1 },
        by simp [BasicHashTable.remove, found, mem], ?_⟩
    rw [if_pos mem]
    apply represents.write injective follows atAddress
    · intro level path _
      simp [Placed]
    · intro level other
      rw [lookup_null, ite_self]
    · exact FiniteMap.bound_erase key
    · rw [Finmap.keys_erase, represents.size]
      have counted := Finset.card_erase_add_one (Finmap.mem_keys.2 mem)
      rw [← counted, UInt64.ofNat_add]
      simp

theorem Represents.update (key : Key) (newMapped : T) : ∃ after,
      update hash table key newMapped = some (decide (key ∈ map), after) ∧
        Represents hash after
          (if key ∈ map then Finmap.insert key newMapped map else map) := by
  rcases represents.locate key with
    ⟨absent, found⟩ | ⟨mem, address, mapped, found, follows, atAddress, _⟩
  · refine ⟨table, by simp [BasicHashTable.update, found, absent], ?_⟩
    rw [if_neg absent]
    exact represents
  · refine ⟨{ table with
          rootNode :=
            address.write (.data (key, newMapped)) table.rootNode },
        by simp [BasicHashTable.update, found, atAddress, mem], ?_⟩
    rw [if_pos mem]
    apply represents.write injective follows atAddress
    · intro level path placed
      simpa only [placed_data] using placed
    · intro level other
      rw [lookup_data]
      exact if_congr eq_comm rfl rfl
    · exact fun other => FiniteMap.bound_insert key other newMapped
    · rw [FiniteMap.keys_insert,
        Finset.insert_eq_of_mem (Finmap.mem_keys.2 mem), represents.size]

omit injective in
theorem Represents.reserve (newCap : UInt64) :
    Represents hash (reserve table newCap) map where
  placed := represents.placed
  fresh := by
    intro spare mem
    rcases List.mem_append.1 mem with added | old
    · exact List.eq_of_mem_replicate added
    · exact represents.fresh spare old
  lookups := represents.lookups
  size := represents.size
  maxLevel := represents.maxLevel

theorem Represents.call (made : Call Key T) : ∃ after,
      call hash table made = some ((mapCall map made).1, after) ∧
        Represents hash after (mapCall map made).2 := by
  cases made with
  | insert key mapped =>
    rcases represents.insert injective key mapped with ⟨after, ran, kept⟩
    refine ⟨after, ?_, ?_⟩
    all_goals by_cases mem : key ∈ map
    all_goals simp_all [BasicHashTable.call, mapCall]
  | get | find =>
    refine ⟨table, ?_, represents⟩
    simp [BasicHashTable.call, represents.locatedValue, mapCall]
  | remove key =>
    rcases represents.remove injective key with ⟨after, ran, kept⟩
    refine ⟨after, ?_, ?_⟩
    all_goals by_cases mem : key ∈ map
    all_goals simp_all [BasicHashTable.call, mapCall]
  | update key newMapped =>
    rcases represents.update injective key newMapped with
      ⟨after, ran, kept⟩
    refine ⟨after, ?_, ?_⟩
    all_goals by_cases mem : key ∈ map
    all_goals simp_all [BasicHashTable.call, mapCall]
  | size =>
    exact ⟨table, by simp [BasicHashTable.call, mapCall, represents.size],
      represents⟩
  | reserve newCap =>
    exact ⟨_, rfl, represents.reserve newCap⟩

theorem Represents.calls (made : List (Call Key T)) : ∃ after,
      calls hash table made = some ((mapCalls map made).1, after) ∧
        Represents hash after (mapCalls map made).2 := by
  induction made generalizing table map with
  | nil =>
    exact ⟨table, rfl, represents⟩
  | cons first rest induction =>
    rcases represents.call injective first with ⟨next, ran, kept⟩
    rcases induction kept with ⟨after, others, finished⟩
    exact ⟨after, by simp [BasicHashTable.calls, ran, others, mapCalls],
      finished⟩

end

theorem Represents.construct (capacity : Option UInt64) : ∃ table,
      construct Key T capacity = some table ∧
        Represents hash table (∅ : FiniteMap Key T) := by
  have created : Represents hash (⟨arrayNode, [], 0, 19⟩ : HashTable Key T) ∅ :=
    ⟨Placed.empty (by decide), by simp [FreshPool],
      fun key => by simp [lookupFrom_slot, arrayNode, FiniteMap.bound],
      rfl, rfl⟩
  cases capacity with
  | none =>
    exact ⟨_, by simp [BasicHashTable.construct, constructedMaxLevel_eq],
      created⟩
  | some capacity =>
    exact ⟨_, by simp [BasicHashTable.construct, constructedMaxLevel_eq],
      created.reserve capacity⟩

end

/-- Every call sequence on a new table of any capacity completes, with no
shift of 64 bits and no failed assertion, answers as a finite map does and
leaves exactly the bindings of that map. -/
theorem basicHashTable_refines_map {Key T : Type} [DecidableEq Key]
    (hash : Key → UInt64) (injective : Injective hash)
    (capacity : Option UInt64) (made : List (Call Key T)) :
    ∃ table after, construct Key T capacity = some table ∧
        calls hash table made = some ((mapCalls ∅ made).1, after) ∧
        ∀ key, locatedValue hash after key =
            some (FiniteMap.bound (mapCalls ∅ made).2 key) := by
  have new : ∃ table, construct Key T capacity = some table ∧
        Represents hash table (∅ : FiniteMap Key T) :=
    Represents.construct capacity
  rcases new with ⟨table, created, represents⟩
  rcases represents.calls injective made with ⟨after, ran, finished⟩
  exact ⟨table, after, created, ran, finished.locatedValue⟩

/-- Two keys whose hashes share their first nibble, and a third key that is
never bound. -/
theorem basicHashTable_refines_map_split :
    Injective (id : UInt64 → UInt64) ∧ ∃ table after,
        construct UInt64 Nat (some 40) = some table ∧ calls id table
              [.insert 1 10, .insert 17 20, .get 17, .remove 1, .find 33] =
            some ((mapCalls ∅ [.insert 1 10, .insert 17 20, .get 17, .remove 1,
                  .find 33]).1, after) ∧
          ∀ key, locatedValue id after key = some (FiniteMap.bound (mapCalls ∅
                    [.insert 1 10, .insert 17 20, .get 17, .remove 1,
                      .find 33]).2 key) :=
  ⟨injective_id, basicHashTable_refines_map id injective_id (some 40) _⟩

example : (construct UInt64 Nat none).bind (fun table =>
      (calls id table
        [.insert 1 10, .insert 17 20, .insert 1 30, .size, .remove 1,
          .get 1, .find 17]).map Prod.fst) =
      some [.bool true, .bool true, .bool false, .size 2, .bool true,
          .outOfRange, .shared (some (17, 20))] := by
  decide

end Lockfreec.Hash.BasicHashTable
