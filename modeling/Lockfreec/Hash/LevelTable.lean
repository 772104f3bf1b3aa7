import Lockfreec.Lib.DigitTrie
import Mathlib.Data.Nat.Bitwise
import Mathlib.Data.UInt

/-!
# The hash table of any level width

`BasicHashTable` for every `HASH_LEVEL`, every `sizeof(Key)`, every hash
functor and every `KeyEqual`.  The locators compare hashes, never keys, and
they look at no more than `max_level_` arrays.  An entry that an insertion
pushes below the last of them stays in the table and is never found again.

The pool of spare arrays is left out: like `make_unique`, it hands out arrays
of null pointers.
-/

namespace Lockfreec.Hash.LevelTable

open Function Lib.DigitTrie

/-! ## Arrays and levels -/

/-- `ARRAY_SIZE`. -/
def arraySize (hashLevel : Nat) : Nat :=
  if hashLevel > 10 then 65536 else 2 ^ hashLevel

theorem arraySize_pos (hashLevel : Nat) : 0 < arraySize hashLevel := by
  unfold arraySize
  split
  · decide
  · exact Nat.two_pow_pos hashLevel

abbrev Index (hashLevel : Nat) := Fin (arraySize hashLevel)

abbrev ArrayNode (hashLevel : Nat) (Key T : Type) :=
  Index hashLevel → Trie (Index hashLevel) (Key × T)

def arrayNode {hashLevel : Nat} {Key T : Type} : ArrayNode hashLevel Key T :=
  fun _ => .null

/-- `level_hash`.  A shift of 64 bits or more yields whatever the machine
makes of it. -/
def levelHash {hashLevel : Nat} (shifted : UInt64 → Nat → Index hashLevel)
    (target : UInt64) (level : Nat) : Index hashLevel :=
  if hashLevel * level < 64 then
    ⟨(target.toNat >>> (hashLevel * level)) &&& (arraySize hashLevel - 1),
      Nat.lt_of_le_of_lt Nat.and_le_right
        (Nat.sub_lt (arraySize_pos hashLevel) Nat.one_pos)⟩
  else shifted target level

structure HashTable (hashLevel : Nat) (Key T : Type) where
  rootNode : ArrayNode hashLevel Key T
  size : UInt64
  maxLevel : Nat

/-- `for (; num < bound; num += num * ARRAY_SIZE) level++`. -/
def levelLoop (hashLevel : Nat) (bound : UInt64) :
    Nat → UInt64 → Nat → Option Nat
  | 0, _, _ => none
  | fuel + 1, num, level =>
    if num < bound then
      levelLoop hashLevel bound fuel
        (num + num * UInt64.ofNat (arraySize hashLevel)) (level + 1)
    else some level

/-- `BasicHashTable()` for keys of `sizeofKey` bytes. -/
def construct (hashLevel sizeofKey : Nat) (Key T : Type) (fuel : Nat) :
    Option (HashTable hashLevel Key T) :=
  let num := UInt64.ofNat (arraySize hashLevel)
  (if sizeofKey * 8 < 64 then
      levelLoop hashLevel (UInt64.ofNat (2 ^ (sizeofKey * 8))) fuel num 1
    else
      (levelLoop hashLevel (18446744073709551615 / 2) fuel num 1).map
        (· + 1)).map
    fun maxLevel => ⟨arrayNode, 0, maxLevel⟩

/-! ## The locators -/

section

variable {hashLevel : Nat} {Key T : Type}
  (digit : UInt64 → Nat → Index hashLevel) (hash : Key → UInt64)

/-- The finding locator from one array on: where `loc_ref_` points and the
entry there, with `fuel` the number of levels up to `max_level_`. -/
def locatorFind (key : Key) :
    Nat → Nat → ArrayNode hashLevel Key T →
      Option (Address (Index hashLevel) × (Key × T))
  | 0, _, _ => none
  | fuel + 1, level, arr =>
    match arr (digit (hash key) level) with
    | .null => none
    | .data entry =>
      if hash key = hash entry.1 then
        some (.here (digit (hash key) level), entry)
      else none
    | .array inner =>
      (locatorFind key fuel (level + 1) inner).map fun located =>
        (.inside (digit (hash key) level) located.1, located.2)

/-- The inserting locator from one array on: the array it leaves behind, and
whether `loc_ref_` points to a slot. -/
def locatorInsert (key : Key) (mapped : T) :
    Nat → Nat → ArrayNode hashLevel Key T → ArrayNode hashLevel Key T × Bool
  | 0, _, arr => (arr, false)
  | fuel + 1, level, arr =>
    let currHash := digit (hash key) level
    match arr currHash with
    | .null => (Function.update arr currHash (.data (key, mapped)), true)
    | .data entry =>
      if hash entry.1 = hash key then (arr, false)
      else
        let result := locatorInsert key mapped fuel (level + 1)
          (Function.update arrayNode (digit (hash entry.1) (level + 1))
            (.data entry))
        (Function.update arr currHash (.array result.1), result.2)
    | .array inner =>
      let result := locatorInsert key mapped fuel (level + 1) inner
      (Function.update arr currHash (.array result.1), result.2)

/-! ## Operations -/

def locate (table : HashTable hashLevel Key T) (key : Key) :
    Option (Address (Index hashLevel) × (Key × T)) :=
  locatorFind digit hash key table.maxLevel 0 table.rootNode

def insert (table : HashTable hashLevel Key T) (key : Key) (mapped : T) :
    Bool × HashTable hashLevel Key T :=
  let result :=
    locatorInsert digit hash key mapped table.maxLevel 0 table.rootNode
  (result.2,
    { table with
      rootNode := result.1
      size := if result.2 then table.size + 1 else table.size })

/-- What `Find` returns, and `Get` unless it throws.  Unless `NDEBUG` is
defined, both assert that the key they have found is the one asked for, and
do not return if it is not. -/
def find (ndebug : Bool) (keyEqual : Key → Key → Bool)
    (table : HashTable hashLevel Key T) (key : Key) :
    Option (Option (Key × T)) :=
  match locate digit hash table key with
  | none => some none
  | some (_, entry) =>
    if ndebug || keyEqual entry.1 key then some (some entry) else none

def remove (table : HashTable hashLevel Key T) (key : Key) :
    Bool × HashTable hashLevel Key T :=
  match locate digit hash table key with
  | none => (false, table)
  | some (address, _) =>
    (true, { table with
      rootNode := address.write .null table.rootNode
      size := table.size - 1 })

def update (table : HashTable hashLevel Key T) (key : Key) (newMapped : T) :
    Bool × HashTable hashLevel Key T :=
  match locate digit hash table key with
  | none => (false, table)
  | some (address, entry) =>
    (true, { table with
      rootNode :=
        address.write (.data (entry.1, newMapped)) table.rootNode })

/-- The tables that calls lead to from a new one. -/
inductive Reachable (sizeofKey : Nat) : HashTable hashLevel Key T → Prop where
  | new {fuel : Nat} {table : HashTable hashLevel Key T}
      (created : construct hashLevel sizeofKey Key T fuel = some table) :
      Reachable sizeofKey table
  | insert {table : HashTable hashLevel Key T} (key : Key) (mapped : T)
      (before : Reachable sizeofKey table) :
      Reachable sizeofKey (insert digit hash table key mapped).2
  | remove {table : HashTable hashLevel Key T} (key : Key)
      (before : Reachable sizeofKey table) :
      Reachable sizeofKey (remove digit hash table key).2
  | update {table : HashTable hashLevel Key T} (key : Key) (mapped : T)
      (before : Reachable sizeofKey table) :
      Reachable sizeofKey (update digit hash table key mapped).2

/-! ## Where the path of a hash ends -/

/-- The end of a path: an empty slot, an entry, or an array below the last
level. -/
inductive Spot (Key T : Type) where
  | empty
  | held (entry : Key × T)
  | deep

def walk (target : UInt64) :
    Nat → Nat → ArrayNode hashLevel Key T → Spot Key T
  | 0, _, _ => .deep
  | fuel + 1, level, arr =>
    match arr (digit target level) with
    | .null => .empty
    | .data entry => .held entry
    | .array inner => walk target fuel (level + 1) inner

/-- The end of the path of a hash in a table. -/
def spot (table : HashTable hashLevel Key T) (target : UInt64) :
    Spot Key T :=
  walk digit target table.maxLevel 0 table.rootNode

/-- Two hashes have the same digits on the first levels. -/
def Agree (left right : UInt64) (bound : Nat) : Prop :=
  ∀ level < bound, digit left level = digit right level

end

section

variable {hashLevel : Nat} {Key T : Type}
  {digit : UInt64 → Nat → Index hashLevel} {hash : Key → UInt64}
  {fuel level : Nat} {arr : ArrayNode hashLevel Key T} {key : Key} {mapped : T}
  {entry : Key × T}

theorem walk_congr {left right : UInt64} {bound : Nat}
    (agree : Agree digit left right bound) (within : level + fuel ≤ bound) :
    walk digit left fuel level arr = walk digit right fuel level arr := by
  induction fuel generalizing level arr with
  | zero => rfl
  | succ fuel ih =>
    have here := agree level (by omega)
    have below : ∀ inner : ArrayNode hashLevel Key T,
        walk digit left fuel (level + 1) inner =
          walk digit right fuel (level + 1) inner := fun _ => ih (by omega)
    simp only [walk, here, below]

/-- The finding locator points to the entry where the path of the key ends,
if that has the hash of the key. -/
theorem locatorFind_some {address : Address (Index hashLevel)}
    (found : locatorFind digit hash key fuel level arr =
      some (address, entry)) :
    walk digit (hash key) fuel level arr = .held entry ∧
      hash key = hash entry.1 ∧ address.read arr = .data entry := by
  induction fuel generalizing level arr address with
  | zero => cases found
  | succ fuel ih =>
    simp only [locatorFind, walk] at found ⊢
    split at found
    · cases found
    · next stored =>
        split at found
        · next same =>
            cases found
            exact ⟨rfl, same, stored⟩
        · cases found
    · next inner stored =>
        obtain ⟨⟨below, other⟩, inside, same⟩ :=
          Option.map_eq_some_iff.1 found
        cases same
        obtain ⟨ends, same, reads⟩ := ih inside
        exact ⟨ends, same, by simp [Address.read, stored, reads]⟩

theorem locatorFind_held
    (held : walk digit (hash key) fuel level arr = .held entry)
    (same : hash key = hash entry.1) :
    ∃ address, locatorFind digit hash key fuel level arr =
      some (address, entry) := by
  induction fuel generalizing level arr with
  | zero => cases held
  | succ fuel ih =>
    simp only [locatorFind, walk] at held ⊢
    split at held
    · cases held
    · cases held
      exact ⟨_, if_pos same⟩
    · obtain ⟨address, found⟩ := ih held
      simp [found]

/-! ## Refused insertions -/

/-- An insertion whose path ends here stops without a change. -/
def Spot.Blocks (hash : Key → UInt64) (key : Key) : Spot Key T → Prop
  | .empty => False
  | .held entry => hash entry.1 = hash key
  | .deep => True

theorem locatorInsert_blocked
    (blocks : (walk digit (hash key) fuel level arr).Blocks hash key) :
    locatorInsert digit hash key mapped fuel level arr = (arr, false) := by
  induction fuel generalizing level arr with
  | zero => rfl
  | succ fuel ih =>
    simp only [walk, locatorInsert] at blocks ⊢
    cases stored : arr (digit (hash key) level) with
    | null =>
      rw [stored] at blocks
      exact blocks.elim
    | data entry =>
      rw [stored] at blocks
      exact if_pos blocks
    | array inner =>
      rw [stored] at blocks
      simp only [ih blocks]
      rw [← stored, update_eq_self]

theorem locatorInsert_refused
    (refused : (locatorInsert digit hash key mapped fuel level arr).2 = false) :
    walk digit (hash key) fuel level arr ≠ .empty := by
  induction fuel generalizing level arr with
  | zero => simp [walk]
  | succ fuel ih =>
    simp only [walk, locatorInsert] at refused ⊢
    cases stored : arr (digit (hash key) level) with
    | null => simp [stored] at refused
    | data entry => simp
    | array inner =>
      simp only [stored] at refused
      exact ih refused

/-- An entry of another hash is pushed down as long as its digits are those
of the key, and out of reach if they all are. -/
theorem pushed (ne : hash entry.1 ≠ hash key)
    (agree : Agree digit (hash entry.1) (hash key) level)
    {result : ArrayNode hashLevel Key T × Bool}
    (ran : locatorInsert digit hash key mapped fuel level
      (Function.update arrayNode (digit (hash entry.1) level)
        (.data entry)) = result) :
    (result.2 = false ↔ Agree digit (hash entry.1) (hash key) (level + fuel)) ∧
    (result.2 = false → walk digit (hash key) fuel level result.1 = .deep) := by
  induction fuel generalizing level result with
  | zero =>
    cases ran
    exact ⟨iff_of_true rfl agree, fun _ => rfl⟩
  | succ fuel ih =>
    have reassoc : level + (fuel + 1) = level + 1 + fuel := by omega
    by_cases here : digit (hash entry.1) level = digit (hash key) level
    · have longer : Agree digit (hash entry.1) (hash key) (level + 1) := by
        intro position within
        rcases Nat.lt_succ_iff_lt_or_eq.1 within with earlier | last
        · exact agree position earlier
        · rw [last, here]
      obtain ⟨iff, deep⟩ := ih longer rfl
      simp only [locatorInsert, here, update_self, if_neg ne] at ran
      subst ran
      rw [reassoc]
      refine ⟨iff, fun refused => ?_⟩
      simp [walk, deep refused]
    · simp only [locatorInsert, arrayNode, update_of_ne (Ne.symm here)] at ran
      subst ran
      refine ⟨iff_of_false (by simp) fun all => ?_, by simp⟩
      exact here (all level (by omega))

/-- Every entry lies on the path of its own hash. -/
abbrev PlacedFrom (digit : UInt64 → Nat → Index hashLevel)
    (hash : Key → UInt64) (depth level : Nat)
    (path : Nat → Index hashLevel) (arr : ArrayNode hashLevel Key T) : Prop :=
  Placed (fun entry => hash entry.1) digit depth level path (.array arr)

variable {path : Nat → Index hashLevel} {depth : Nat}

/-- The insertion of a key whose path ends at an entry of another hash is
refused if all digits of the two hashes are the same. -/
theorem locatorInsert_held (placed : PlacedFrom digit hash depth level path arr)
    (onPath : OnPath digit path level (hash key))
    (held : walk digit (hash key) fuel level arr = .held entry)
    (ne : hash entry.1 ≠ hash key) {result : ArrayNode hashLevel Key T × Bool}
    (ran : locatorInsert digit hash key mapped fuel level arr = result) :
    (result.2 = false ↔ Agree digit (hash entry.1) (hash key) (level + fuel)) ∧
    (result.2 = false → walk digit (hash key) fuel level result.1 = .deep) := by
  induction fuel generalizing level arr path result with
  | zero => cases held
  | succ fuel ih =>
    have deeper := onPath.descend (rfl : digit (hash key) level = _)
    have slot := placed.slot (digit (hash key) level)
    have reassoc : level + (fuel + 1) = level + 1 + fuel := by omega
    simp only [walk, locatorInsert] at held ran
    cases stored : arr (digit (hash key) level) with
    | null => simp [stored] at held
    | data other =>
      simp only [stored] at held ran slot
      cases held
      rw [placed_data] at slot
      have agree : Agree digit (hash entry.1) (hash key) (level + 1) :=
        fun position below => by
          rw [slot position below, deeper position below]
      rw [if_neg ne] at ran
      subst ran
      obtain ⟨iff, deep⟩ := pushed ne agree rfl
      rw [reassoc]
      refine ⟨iff, fun refused => ?_⟩
      simp [walk, deep refused]
    | array inner =>
      simp only [stored] at held ran slot
      subst ran
      obtain ⟨iff, deep⟩ := ih slot deeper held rfl
      rw [reassoc]
      refine ⟨iff, fun refused => ?_⟩
      simp [walk, deep refused]

theorem locatorInsert_placed
    (placed : PlacedFrom digit hash depth level path arr)
    (onPath : OnPath digit path level (hash key))
    (bound : level + fuel < depth) :
    PlacedFrom digit hash depth level path
      (locatorInsert digit hash key mapped fuel level arr).1 := by
  induction fuel generalizing level arr path with
  | zero => exact placed
  | succ fuel ih =>
    have deeper := onPath.descend (rfl : digit (hash key) level = _)
    have slot := placed.slot (digit (hash key) level)
    simp only [locatorInsert]
    cases stored : arr (digit (hash key) level) with
    | null => exact placed.update (placed_data.2 deeper)
    | data entry =>
      rw [stored] at slot
      dsimp only
      split
      · exact placed
      · refine placed.update (ih ?_ deeper (by omega))
        exact (Placed.empty (by omega)).update
          (placed_data.2 ((placed_data.1 slot).descend rfl))
    | array inner =>
      rw [stored] at slot
      exact placed.update (ih slot deeper (by omega))

end

/-! ## Tables -/

section

variable {hashLevel sizeofKey : Nat} {Key T : Type}
  {digit : UInt64 → Nat → Index hashLevel} {hash : Key → UInt64}
  {table : HashTable hashLevel Key T} {key : Key} {mapped : T}

/-- The path before the first digit. -/
abbrev rootPath (hashLevel : Nat) : Nat → Index hashLevel :=
  fun _ => ⟨0, arraySize_pos hashLevel⟩

theorem onRootPath (target : UInt64) :
    OnPath digit (rootPath hashLevel) 0 target :=
  fun _ below => absurd below (Nat.not_lt_zero _)

theorem Reachable.placed (reachable : Reachable digit hash sizeofKey table) :
    PlacedFrom digit hash (table.maxLevel + 1) 0 (rootPath hashLevel)
      table.rootNode := by
  induction reachable with
  | new created =>
    obtain ⟨maxLevel, -, rfl⟩ := Option.map_eq_some_iff.1 created
    exact Placed.empty (Nat.succ_pos maxLevel)
  | insert key mapped before ih =>
    exact locatorInsert_placed ih (onRootPath _) (by simp [LevelTable.insert])
  | remove key before ih =>
    rw [LevelTable.remove]
    split
    · exact ih
    · next located =>
        obtain ⟨-, -, reads⟩ := locatorFind_some located
        exact ih.write (fun _ => by simp [Placed]) reads
  | update key mapped before ih =>
    rw [LevelTable.update]
    split
    · exact ih
    · next located =>
        obtain ⟨-, -, reads⟩ := locatorFind_some located
        exact ih.write (fun before => by
          simpa only [placed_data] using before) reads

/-- An entry of another hash with all digits of the key is lost. -/
theorem insert_loses {entry : Key × T} (ndebug : Bool)
    (keyEqual : Key → Key → Bool)
    (reachable : Reachable digit hash sizeofKey table)
    (refused : (insert digit hash table key mapped).1 = false)
    (held : spot digit table (hash key) = .held entry)
    (ne : hash entry.1 ≠ hash key) :
    find digit hash ndebug keyEqual (insert digit hash table key mapped).2
        entry.1 = some none ∧
      find digit hash ndebug keyEqual table entry.1 ≠ some none := by
  obtain ⟨iff, deep⟩ := locatorInsert_held reachable.placed (onRootPath _)
    held ne
    (rfl : locatorInsert digit hash key mapped _ _ _ = _)
  have agree := iff.1 refused
  have gone : spot digit (insert digit hash table key mapped).2
      (hash entry.1) = .deep :=
    (walk_congr agree (le_refl _)).trans (deep refused)
  have before : spot digit table (hash entry.1) = .held entry :=
    (walk_congr agree (le_refl _)).trans held
  constructor
  · rw [find]
    split
    · rfl
    · next located =>
        have still := (locatorFind_some located).1
        rw [spot] at gone
        rw [gone] at still
        cases still
  · obtain ⟨address, located⟩ := locatorFind_held before rfl
    rw [find, locate, located]
    dsimp only
    split <;> simp

/-- A refused insertion changes nothing exactly if the path of its key does
not end at an entry of another hash. -/
theorem insert_refused_unchanged_iff (shifted : UInt64 → Nat → Index hashLevel)
    (ndebug : Bool) (keyEqual : Key → Key → Bool)
    (reachable : Reachable (levelHash shifted) hash sizeofKey table)
    (refused : (insert (levelHash shifted) hash table key mapped).1 = false) :
    ((∀ other, find (levelHash shifted) hash ndebug keyEqual
            (insert (levelHash shifted) hash table key mapped).2 other =
          find (levelHash shifted) hash ndebug keyEqual table other) ∧
      (insert (levelHash shifted) hash table key mapped).2.size = table.size) ↔
    ∀ entry, spot (levelHash shifted) table (hash key) = .held entry →
      hash entry.1 = hash key := by
  constructor
  · rintro ⟨finds, -⟩ entry held
    by_contra different
    obtain ⟨gone, found⟩ :=
      insert_loses ndebug keyEqual reachable refused held different
    exact found ((finds entry.1).symm.trans gone)
  · intro ends
    have blocks : (spot (levelHash shifted) table (hash key)).Blocks hash
        key := by
      cases at_ : spot (levelHash shifted) table (hash key) with
      | empty => exact absurd at_ (locatorInsert_refused refused)
      | held entry => exact ends entry at_
      | deep => trivial
    have kept : insert (levelHash shifted) hash table key mapped =
        (false, table) := by
      rw [insert, locatorInsert_blocked blocks]
      rfl
    rw [kept]
    exact ⟨fun _ => rfl, rfl⟩

/-- What a machine might make of a shift of 64 bits or more. -/
abbrev shiftedOut (_ : UInt64) (_ : Nat) : Index 4 :=
  ⟨0, arraySize_pos 4⟩

/-- A hash functor for four-byte keys. -/
def upperHash (key : UInt32) : UInt64 := key.toUInt64 <<< 32

/-- The table of four-byte keys after its first insertion. -/
abbrev firstInserted : HashTable 4 UInt32 Nat :=
  (insert (levelHash shiftedOut) upperHash ⟨arrayNode, 0, 8⟩ 0 10).2

theorem firstInserted_reachable :
    Reachable (levelHash shiftedOut) upperHash 4 firstInserted := by
  apply Reachable.insert
  refine .new (show construct 4 4 UInt32 Nat 16 = _ from ?_)
  rfl

theorem insert_refused_unchanged_iff_twice : ((∀ other,
        find (levelHash shiftedOut) upperHash true (· == ·)
            (insert (levelHash shiftedOut) upperHash firstInserted 0 20).2
            other =
          find (levelHash shiftedOut) upperHash true (· == ·) firstInserted
            other) ∧
      (insert (levelHash shiftedOut) upperHash firstInserted 0 20).2.size =
        firstInserted.size) ↔
    ∀ entry, spot (levelHash shiftedOut) firstInserted (upperHash 0) =
      .held entry → upperHash entry.1 = upperHash 0 :=
  insert_refused_unchanged_iff shiftedOut true (· == ·)
    firstInserted_reachable (by decide +kernel)

/-- Eight levels of four bits see only the lower half of the hashes: the
second key is refused, and the first one is no longer found. -/
theorem insert_refused_loses_key :
    Reachable (levelHash shiftedOut) upperHash 4 firstInserted ∧
      (insert (levelHash shiftedOut) upperHash firstInserted 1 20).1 = false ∧
      find (levelHash shiftedOut) upperHash false (· == ·) firstInserted 0 =
        some (some (0, 10)) ∧
      find (levelHash shiftedOut) upperHash false (· == ·)
        (insert (levelHash shiftedOut) upperHash firstInserted 1 20).2 0 =
        some none := by
  refine ⟨firstInserted_reachable, ?_⟩
  decide +kernel

/-! ## Equal keys -/

/-- The table holds an entry where the locators look for it. -/
def Holds (digit : UInt64 → Nat → Index hashLevel) (hash : Key → UInt64)
    (table : HashTable hashLevel Key T) (entry : Key × T) : Prop :=
  spot digit table (hash entry.1) = .held entry

/-- The calls with this key act on entries with an equal key only. -/
structure ActsOnEqualKeys (digit : UInt64 → Nat → Index hashLevel)
    (hash : Key → UInt64) (keyEqual : Key → Key → Bool)
    (table : HashTable hashLevel Key T) (key : Key) (mapped : T) :
    Prop where
  found : ∀ ndebug entry,
    find digit hash ndebug keyEqual table key = some (some entry) →
      keyEqual entry.1 key
  removed : (remove digit hash table key).1 →
    ∃ (address : Address (Index hashLevel)) (entry : Key × T),
      address.read table.rootNode = .data entry ∧
      (remove digit hash table key).2.rootNode =
        address.write .null table.rootNode ∧ keyEqual entry.1 key
  updated : (update digit hash table key mapped).1 →
    ∃ (address : Address (Index hashLevel)) (entry : Key × T),
      address.read table.rootNode = .data entry ∧
      (update digit hash table key mapped).2.rootNode =
        address.write (.data (entry.1, mapped)) table.rootNode ∧
      keyEqual entry.1 key
  refused : (insert digit hash table key mapped).1 = false →
    ∃ entry, Holds digit hash table entry ∧ keyEqual entry.1 key

/-- No slot is left for the key: its path leads below the last level, or it
ends at an entry of another hash with the same digits. -/
def Crowded (digit : UInt64 → Nat → Index hashLevel) (hash : Key → UInt64)
    (table : HashTable hashLevel Key T) (key : Key) : Prop :=
  match spot digit table (hash key) with
  | .empty => False
  | .held entry => hash entry.1 ≠ hash key ∧
      Agree digit (hash entry.1) (hash key) table.maxLevel
  | .deep => True

/-- An insertion is refused if there is no slot left or the hash is there. -/
theorem insert_refused_iff (reachable : Reachable digit hash sizeofKey table) :
    (insert digit hash table key mapped).1 = false ↔
      Crowded digit hash table key ∨
        ∃ entry, spot digit table (hash key) = .held entry ∧
          hash entry.1 = hash key := by
  rw [Crowded]
  cases ends : spot digit table (hash key) with
  | empty =>
    simp only [reduceCtorEq, false_and, exists_false, or_false, iff_false]
    exact fun refused => locatorInsert_refused refused ends
  | held entry =>
    simp only [Spot.held.injEq, exists_eq_left']
    by_cases same : hash entry.1 = hash key
    · have blocks : (spot digit table (hash key)).Blocks hash key := by
        rw [ends]
        exact same
      simp [same, insert, locatorInsert_blocked blocks]
    · have pushes := (locatorInsert_held reachable.placed (onRootPath _)
        ends same (rfl : locatorInsert digit hash key mapped _ _ _ = _)).1
      rw [Nat.zero_add] at pushes
      simp only [same, or_false, ne_eq, not_false_eq_true, true_and]
      exact pushes
  | deep =>
    have blocks : (spot digit table (hash key)).Blocks hash key := by
      rw [ends]
      trivial
    simp [insert, locatorInsert_blocked blocks]

/-- The calls with a key act on equal keys only exactly if every entry of its
hash has an equal key, and one is present when there is no slot left. -/
theorem actsOnEqualKeys_iff (shifted : UInt64 → Nat → Index hashLevel)
    (keyEqual : Key → Key → Bool) (mapped : T)
    (reachable : Reachable (levelHash shifted) hash sizeofKey table) :
    ActsOnEqualKeys (levelHash shifted) hash keyEqual table key mapped ↔
      (∀ entry, Holds (levelHash shifted) hash table entry →
        hash entry.1 = hash key → keyEqual entry.1 key) ∧
      (Crowded (levelHash shifted) hash table key →
        ∃ entry, Holds (levelHash shifted) hash table entry ∧
          keyEqual entry.1 key) := by
  constructor
  · intro acts
    constructor
    · intro entry holds same
      rw [Holds, same] at holds
      obtain ⟨address, located⟩ := locatorFind_held holds same.symm
      exact acts.found true entry (by simp [find, locate, located])
    · intro crowded
      exact acts.refused ((insert_refused_iff reachable).2 (.inl crowded))
  · rintro ⟨equal, present⟩
    have located : ∀ address entry,
        locate (levelHash shifted) hash table key = some (address, entry) →
        address.read table.rootNode = .data entry ∧ keyEqual entry.1 key := by
      intro address entry found
      obtain ⟨held, same, reads⟩ := locatorFind_some found
      refine ⟨reads, equal entry ?_ same.symm⟩
      rw [Holds, ← same]
      exact held
    constructor
    · intro ndebug entry ran
      rw [find] at ran
      split at ran
      · cases ran
      · next found =>
          split at ran <;> cases ran
          exact (located _ _ found).2
    · rw [remove]
      split
      · intro none
        cases none
      · next address entry found =>
          exact fun _ => ⟨address, entry, (located _ _ found).1, rfl,
            (located _ _ found).2⟩
    · rw [update]
      split
      · intro none
        cases none
      · next address entry found =>
          exact fun _ => ⟨address, entry, (located _ _ found).1, rfl,
            (located _ _ found).2⟩
    · intro refused
      rcases (insert_refused_iff reachable).1 refused with
        crowded | ⟨entry, held, same⟩
      · exact present crowded
      · have holds : Holds (levelHash shifted) hash table entry := by
          rw [Holds, same]
          exact held
        exact ⟨entry, holds, equal entry holds same⟩

theorem actsOnEqualKeys_iff_first :
    ActsOnEqualKeys (levelHash shiftedOut) upperHash (· == ·) firstInserted
        0 20 ↔
      (∀ entry, Holds (levelHash shiftedOut) upperHash firstInserted entry →
        upperHash entry.1 = upperHash 0 → entry.1 == 0) ∧
      (Crowded (levelHash shiftedOut) upperHash firstInserted 0 → ∃ entry,
          Holds (levelHash shiftedOut) upperHash firstInserted entry ∧
          entry.1 == 0) :=
  actsOnEqualKeys_iff shiftedOut (· == ·) 20 firstInserted_reachable

/-- A table of keys whose hashes are all zero, after its first insertion. -/
abbrev zeroInserted : HashTable 4 UInt64 Nat :=
  (insert (levelHash shiftedOut) (fun _ => 0) ⟨arrayNode, 0, 19⟩ 1 10).2

/-- The removal of a key that was never inserted removes another one. -/
theorem remove_removes_other_key :
    Reachable (levelHash shiftedOut) (fun _ => 0) 8 zeroInserted ∧
      (remove (levelHash shiftedOut) (fun _ => 0) zeroInserted 2).1 = true ∧
      find (levelHash shiftedOut) (fun _ => 0) false (· == ·)
        (remove (levelHash shiftedOut) (fun _ => 0) zeroInserted 2).2 1 =
        some none ∧
      ¬ ActsOnEqualKeys (levelHash shiftedOut) (fun _ => 0) (· == ·)
        zeroInserted 2 20 := by
  refine ⟨?_, by decide +kernel, by decide +kernel, ?_⟩
  · apply Reachable.insert
    refine .new (show construct 4 8 UInt64 Nat 64 = _ from ?_)
    rfl
  · intro acts
    have equal := acts.found true (1, 10) (by decide +kernel)
    exact absurd equal (by decide)

end

end Lockfreec.Hash.LevelTable
