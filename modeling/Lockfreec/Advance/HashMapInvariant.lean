import Lockfreec.Advance.HashMap
import Lockfreec.Lib.SortedChain
import Mathlib.Order.Fin.Basic

/-!
# The buckets of the hash map

Between its head and its end every bucket is a chain with increasing keys.
Items are only ever added to a bucket, and the block that an item points to is
only replaced by one with the same key.  Items outside the buckets are in the
pool or in the hands of one thread.
-/

namespace Lockfreec.Advance.HashMap

open Function Lib.Chain Lib.Interleaving Lib.SortedChain

variable {Tid Item Block : Type}

/-! ## Indices -/

theorem toInt_small {word : Nat} (small : word < 2 ^ 31) :
    toInt word = word := by
  unfold toInt
  apply Int.bmod_eq_of_le
  · simp
  · simp
    omega

theorem bucketMax_eq {nbpow : Nat} (small : nbpow ≤ 30) :
    bucketMax nbpow = 2 ^ nbpow := by
  have bound : 2 ^ nbpow ≤ 2 ^ 30 := Nat.pow_le_pow_right (by decide) small
  rw [bucketMax, Nat.mod_eq_of_lt (by omega), toInt_small (by omega)]
  simp

theorem bucketMask_eq {nbpow : Nat} (small : nbpow ≤ 30) :
    bucketMask nbpow = 2 ^ nbpow - 1 := by
  have bound : 2 ^ nbpow ≤ 2 ^ 30 := Nat.pow_le_pow_right (by decide) small
  have positive : 0 < 2 ^ nbpow := Nat.two_pow_pos nbpow
  rw [bucketMask, bucketMax_eq small]
  have cast : ((2 : Int) ^ nbpow - 1) = ((2 ^ nbpow - 1 : Nat) : Int) := by
    push_cast [Nat.one_le_two_pow]
    rfl
  rw [cast]
  omega

theorem bucketIndex_inTable {nbpow : Nat} (small : nbpow ≤ 30)
    (key : Atom) : InTable nbpow (bucketIndex nbpow key) := by
  have bound : 2 ^ nbpow ≤ 2 ^ 30 := Nat.pow_le_pow_right (by decide) small
  have positive : 0 < 2 ^ nbpow := Nat.two_pow_pos nbpow
  have masked : key.val &&& bucketMask nbpow < 2 ^ nbpow := by
    rw [bucketMask_eq small]
    exact Nat.lt_of_le_of_lt Nat.and_le_right (by omega)
  rw [InTable, bucketIndex, toInt_small (by omega)]
  constructor
  · exact Int.natCast_nonneg _
  · exact_mod_cast masked

/-! ## Items -/

def itemKey (hash : HashState Tid Item Block) (item : Item) : Atom :=
  hash.key (hash.data item)

/-- The next item of the bucket, none before the end. -/
def succ (hash : HashState Tid Item Block) (item : Item) : Option Item :=
  (hash.next item).filter fun next => hash.nodeType next ≠ .endNode

theorem succ_eq_some {hash : HashState Tid Item Block} {item next : Item} :
    succ hash item = some next ↔
      hash.next item = some next ∧ hash.nodeType next ≠ .endNode := by
  simp [succ, Option.filter_eq_some_iff]

/--
The items of the buckets, the pool and the hands.
-/
structure ItemInv (nbpow : Nat) (hash : HashState Tid Item Block)
    (hands : Tid → Option Item) (items : Int → List Item)
    (cells : List Item) : Prop where
  headType : ∀ index, InTable nbpow index →
    hash.nodeType (hash.table index) = .headNode
  headsApart : ∀ {left right}, InTable nbpow left → InTable nbpow right →
    hash.table left = hash.table right → left = right
  lists : ∀ index, InTable nbpow index →
    SortedLinked (succ hash) (itemKey hash) (succ hash (hash.table index))
      (items index)
  inner : ∀ {index item}, item ∈ items index →
    InTable nbpow index ∧ hash.nodeType item = .iNode ∧
      bucketIndex nbpow (itemKey hash item) = index
  nexts : ∀ {index item}, InTable nbpow index →
    item = hash.table index ∨ item ∈ items index → hash.next item ≠ none
  pool : Linked hash.next hash.he cells
  poolType : ∀ item ∈ cells, hash.next item ≠ none → hash.nodeType item = .iNode
  poolApart : ∀ item ∈ cells, (∀ index, item ∉ items index) ∧
    ∀ index, InTable nbpow index → item ≠ hash.table index
  held : ∀ {thread item}, hands thread = some item →
    hash.nodeType item = .iNode ∧ item ∉ cells ∧ ∀ index, item ∉ items index
  heldOnce : ∀ {left right item}, hands left = some item →
    hands right = some item → left = right

namespace ItemInv

variable [DecidableEq Tid] {nbpow : Nat} {hash after : HashState Tid Item Block}
  {hands : Tid → Option Item} {items : Int → List Item} {cells : List Item}
  {tid : Tid} {hand : Option Item} {index : Int} {item : Item}

omit [DecidableEq Tid] in
theorem not_head (inv : ItemInv nbpow hash hands items cells)
    (inTable : InTable nbpow index)
    (inner : hash.nodeType item = .iNode) : item ≠ hash.table index := by
  rintro rfl
  rw [inv.headType index inTable] at inner
  cases inner

/-- A step that stores at most into the item in hand, or replaces a block by
one with the same key. -/
theorem frame (inv : ItemInv nbpow hash hands items cells)
    (sameType : after.nodeType = hash.nodeType)
    (sameTable : after.table = hash.table) (sameHe : after.he = hash.he)
    (sameNext : ∀ item, hands tid ≠ some item →
      after.next item = hash.next item)
    (sameKey : ∀ index, ∀ item ∈ items index,
      itemKey after item = itemKey hash item)
    (kept : hand = none ∨ hand = hands tid) :
    ItemInv nbpow after (update hands tid hand) items cells := by
  have nextHead : ∀ {index}, InTable nbpow index →
      after.next (hash.table index) = hash.next (hash.table index) := by
    intro index inTable
    apply sameNext
    intro held
    exact inv.not_head inTable (inv.held held).1 rfl
  have nextItem : ∀ {index item}, item ∈ items index →
      after.next item = hash.next item := by
    intro index item mem
    apply sameNext
    intro held
    exact (inv.held held).2.2 index mem
  constructor
  case headType =>
    intro index inTable
    rw [sameType, sameTable]
    exact inv.headType index inTable
  case headsApart =>
    intro left right inLeft inRight same
    rw [sameTable] at same
    exact inv.headsApart inLeft inRight same
  case lists =>
    intro index inTable
    rw [sameTable, succ, nextHead inTable, sameType]
    apply (inv.lists index inTable).congr
    · intro item mem
      rw [succ, nextItem mem, sameType]
      rfl
    · exact sameKey index
  case inner =>
    intro index item mem
    rw [sameType, sameKey index item mem]
    exact inv.inner mem
  case nexts =>
    intro index item inTable
    rw [sameTable]
    rintro (rfl | mem)
    · rw [nextHead inTable]
      exact inv.nexts inTable (.inl rfl)
    · rw [nextItem mem]
      exact inv.nexts inTable (.inr mem)
  case pool =>
    rw [sameHe]
    apply inv.pool.congr
    intro item mem
    apply sameNext
    intro held
    exact (inv.held held).2.1 mem
  case poolType =>
    intro item mem
    rw [sameType, sameNext item fun held => (inv.held held).2.1 mem]
    exact inv.poolType item mem
  case poolApart =>
    rw [sameTable]
    exact inv.poolApart
  case held =>
    intro other item held
    rw [sameType]
    exact inv.held (held_of_kept id kept held)
  case heldOnce =>
    intro left right item leftHeld rightHeld
    exact inv.heldOnce (held_of_kept id kept leftHeld)
      (held_of_kept id kept rightHeld)

theorem pop {rest : List Item}
    (inv : ItemInv nbpow hash hands items (item :: rest))
    (more : hash.next item ≠ none) :
    ItemInv nbpow { hash with he := hash.next item }
      (update hands tid (some item)) items rest := by
  have distinct := List.nodup_cons.1 inv.pool.nodup
  constructor
  case headType => exact inv.headType
  case headsApart => exact inv.headsApart
  case lists => exact inv.lists
  case inner => exact inv.inner
  case nexts => exact inv.nexts
  case pool => exact inv.pool.2
  case poolType =>
    exact fun other mem =>
      inv.poolType other (.tail _ mem)
  case poolApart =>
    exact fun other mem =>
      inv.poolApart other (.tail _ mem)
  case held =>
    intro other otherItem held
    rcases update_cases (· = some otherItem) held with ⟨-, isHand⟩ | ⟨-, isHeld⟩
    · cases isHand
      exact ⟨inv.poolType item (.head _) more, distinct.1,
        (inv.poolApart item (.head _)).1⟩
    · rcases inv.held isHeld with ⟨inner, notCell, notLinked⟩
      exact ⟨inner, fun mem =>
        notCell (.tail _ mem), notLinked⟩
  case heldOnce =>
    refine once_update id inv.heldOnce ?_
    rintro other _ - held ⟨⟩
    exact (inv.held held).2.1 (.head _)

/-! ### Linking an item -/

variable [DecidableEq Item] {hPrev : Item} {prevNext : Item} {label : Atom}

omit [DecidableEq Tid] in
theorem succ_link (inner : hash.nodeType item = .iNode) :
    succ { hash with next := update hash.next hPrev (some item) } =
      update (succ hash) hPrev (some item) := by
  funext other
  by_cases same : other = hPrev
  · subst same
    simp [succ, inner]
  · simp [succ, same]

/-- `h_prev` is the head of the bucket, or an item before the key. -/
def AtPrev (hash : HashState Tid Item Block) (items : Int → List Item)
    (index : Int) (label : Atom) (hPrev : Item) : Prop :=
  hPrev = hash.table index ∨ hPrev ∈ items index ∧ itemKey hash hPrev < label

/-- `prev_next` is the end of the bucket, or an item behind the key. -/
def Beyond (hash : HashState Tid Item Block) (items : Int → List Item)
    (index : Int) (label : Atom) (prevNext : Item) : Prop :=
  hash.nodeType prevNext = .endNode ∨
    prevNext ∈ items index ∧ label < itemKey hash prevNext

omit [DecidableEq Tid] [DecidableEq Item] in
theorem Beyond.gap {other : Item}
    (beyond : Beyond hash items index label prevNext)
    (link : hash.next hPrev = some prevNext) :
    succ hash hPrev = some other → label < itemKey hash other := by
  intro following
  rcases succ_eq_some.1 following with ⟨next, notEnd⟩
  rw [link] at next
  cases next
  rcases beyond with ending | ⟨-, less⟩
  · exact absurd ending notEnd
  · exact less

variable (inv : ItemInv nbpow hash hands items cells)

include inv

omit [DecidableEq Tid] [DecidableEq Item] in
/-- Between `h_prev` and `prev_next` the key is absent. -/
theorem absent (inTable : InTable nbpow index)
    (atPrev : AtPrev hash items index label hPrev)
    (beyond : Beyond hash items index label prevNext)
    (link : hash.next hPrev = some prevNext) :
    ∀ item ∈ items index, itemKey hash item ≠ label := by
  intro item mem
  rcases atPrev with rfl | ⟨inBucket, less⟩
  · exact (inv.lists index inTable).not_mem_front (fun _ => beyond.gap link) mem
  · exact (inv.lists index inTable).not_mem_between inBucket less
      (fun _ => beyond.gap link) mem

omit [DecidableEq Tid] in
theorem link_chain (inTable : InTable nbpow index)
    (inner : hash.nodeType item = .iNode) (fresh : ∀ index, item ∉ items index)
    (atPrev : AtPrev hash items index (itemKey hash item) hPrev)
    (beyond : Beyond hash items index (itemKey hash item) prevNext)
    (own : hash.next item = some prevNext)
    (link : hash.next hPrev = some prevNext) :
    ∃ list, SortedLinked (update (succ hash) hPrev (some item)) (itemKey hash)
          (update (succ hash) hPrev (some item) (hash.table index)) list ∧
        ∀ each, each ∈ list ↔ each = item ∨ each ∈ items index := by
  have chain := inv.lists index inTable
  have same : succ hash item = succ hash hPrev := by
    rw [succ, succ, own, link]
  rcases atPrev with rfl | ⟨inBucket, less⟩
  · refine ⟨item :: items index, ?_, fun each => List.mem_cons⟩
    rw [update_self]
    apply (chain.insert_front same fun _ => beyond.gap link).congr
    · intro each mem
      apply update_of_ne
      rcases List.mem_cons.1 mem with rfl | inList
      · exact inv.not_head inTable inner
      · exact inv.not_head inTable (inv.inner inList).2.1
    · exact fun _ _ => rfl
  · have notHead := inv.not_head inTable (inv.inner inBucket).2.1
    rw [update_of_ne notHead.symm]
    exact chain.insert_behind inBucket (fresh index) same less
      fun _ => beyond.gap link

theorem link (inTable : InTable nbpow index) (held : hands tid = some item)
    (home : bucketIndex nbpow (itemKey hash item) = index)
    (atPrev : AtPrev hash items index (itemKey hash item) hPrev)
    (beyond : Beyond hash items index (itemKey hash item) prevNext)
    (own : hash.next item = some prevNext)
    (linked : hash.next hPrev = some prevNext) :
    ∃ grown, ItemInv nbpow
          { hash with next := update hash.next hPrev (some item) }
          (update hands tid none) grown cells ∧
        ∀ other each, each ∈ grown other ↔
          each ∈ items other ∨ other = index ∧ each = item := by
  rcases inv.held held with ⟨inner, notCell, fresh⟩
  rcases inv.link_chain inTable inner fresh atPrev beyond own linked with
    ⟨list, chain, listed⟩
  have members : ∀ other each, each ∈ update items index list other ↔
        each ∈ items other ∨ other = index ∧ each = item := by
    intro other each
    by_cases same : other = index
    · subst same
      simp [listed, or_comm]
    · simp [same]
  have elsewhere : ∀ {other each}, other ≠ index → InTable nbpow other →
      each = hash.table other ∨ each ∈ items other → each ≠ hPrev := by
    rintro other each ne inOther here rfl
    rcases atPrev with isHead | ⟨inBucket, -⟩
    · rcases here with rfl | mem
      · exact ne (inv.headsApart inOther inTable isHead)
      · exact inv.not_head inTable (inv.inner mem).2.1 isHead
    · rcases here with rfl | mem
      · exact inv.not_head inOther (inv.inner inBucket).2.1 rfl
      · exact ne ((inv.inner mem).2.2.symm.trans (inv.inner inBucket).2.2)
  have prevNotCell : hPrev ∉ cells := by
    intro mem
    rcases atPrev with isHead | ⟨inBucket, -⟩
    · exact (inv.poolApart _ mem).2 index inTable isHead
    · exact (inv.poolApart _ mem).1 index inBucket
  refine ⟨update items index list, ?_, members⟩
  constructor
  case headType => exact inv.headType
  case headsApart => exact inv.headsApart
  case lists =>
    intro other inOther
    rw [succ_link inner]
    by_cases same : other = index
    · subst same
      rw [update_self]
      exact chain
    · rw [update_of_ne same, update_of_ne (elsewhere same inOther (.inl rfl))]
      apply (inv.lists other inOther).congr
      · intro each mem
        exact update_of_ne (elsewhere same inOther (.inr mem)) _ _
      · exact fun _ _ => rfl
  case inner =>
    intro other each mem
    rcases (members other each).1 mem with old | ⟨rfl, rfl⟩
    · exact inv.inner old
    · exact ⟨inTable, inner, home⟩
  case nexts =>
    intro other each inOther place
    by_cases isPrev : each = hPrev
    · subst isPrev
      simp
    · change update hash.next hPrev (some item) each ≠ none
      rw [update_of_ne isPrev]
      rcases place with isHead | mem
      · exact inv.nexts inOther (.inl isHead)
      · rcases (members other each).1 mem with old | ⟨-, rfl⟩
        · exact inv.nexts inOther (.inr old)
        · simp [own]
  case pool => exact inv.pool.update prevNotCell
  case poolType =>
    intro each mem
    change update hash.next hPrev (some item) each ≠ none → _
    rw [update_of_ne (ne_of_mem_of_not_mem mem prevNotCell)]
    exact inv.poolType each mem
  case poolApart =>
    intro each mem
    refine ⟨?_, (inv.poolApart each mem).2⟩
    intro other inOther
    rcases (members other each).1 inOther with old | ⟨-, rfl⟩
    · exact (inv.poolApart each mem).1 other old
    · exact notCell mem
  case held =>
    intro other each otherHeld
    obtain ⟨ne, isHeld⟩ := held_of_empty id rfl otherHeld
    rcases inv.held isHeld with ⟨eachInner, eachNotCell, eachFresh⟩
    refine ⟨eachInner, eachNotCell, ?_⟩
    intro bucket mem
    rcases (members bucket each).1 mem with old | ⟨-, rfl⟩
    · exact eachFresh bucket old
    · exact ne (inv.heldOnce isHeld held)
  case heldOnce => exact once_update id inv.heldOnce (by simp)

end ItemInv

/-! ## Blocks -/

/--
The blocks that items point to are allocated and belong to one item each; the
other allocated blocks belong to the calls that were made with them or have
replaced them.  A block that a call has loaded a pointer to counts as seen.
-/
structure BlockInv (hash : HashState Tid Item Block)
    (owners pointers : Tid → Option Block) (items : Int → List Item) :
    Prop where
  linkedLive : ∀ {index item}, item ∈ items index →
    hash.live (hash.data item) = true
  dataOnce : ∀ {left right first second}, first ∈ items left →
    second ∈ items right → hash.data first = hash.data second →
    first = second
  owned : ∀ {thread block}, owners thread = some block →
    hash.live block = true ∧
      ∀ index, ∀ item ∈ items index, hash.data item ≠ block
  ownedOnce : ∀ {left right block}, owners left = some block →
    owners right = some block → left = right
  pointed : ∀ {thread block}, pointers thread = some block →
    (thread, block) ∈ hash.seen

namespace BlockInv

variable [DecidableEq Tid] {hash after : HashState Tid Item Block}
  {owners pointers : Tid → Option Block} {items : Int → List Item} {tid : Tid}
  {owner pointer : Option Block} {block : Block}

variable (inv : BlockInv hash owners pointers items)

include inv

theorem pointed_update (more : ∀ pair ∈ hash.seen, pair ∈ after.seen)
    (pointing : ∀ block, pointer = some block → (tid, block) ∈ after.seen) :
    ∀ {other block}, update pointers tid pointer other = some block →
        (other, block) ∈ after.seen := by
  intro other block pointed
  rcases update_cases (· = some block) pointed with ⟨rfl, own⟩ | ⟨-, before⟩
  · exact pointing block own
  · exact more _ (inv.pointed before)

theorem frame (sameData : ∀ index, ∀ item ∈ items index,
      after.data item = hash.data item)
    (sameLive : after.live = hash.live)
    (kept : owner = none ∨ owner = owners tid)
    (more : ∀ pair ∈ hash.seen, pair ∈ after.seen)
    (pointing : ∀ block, pointer = some block → (tid, block) ∈ after.seen) :
    BlockInv after (update owners tid owner)
      (update pointers tid pointer) items := by
  constructor
  case linkedLive =>
    intro index item mem
    rw [sameLive, sameData index item mem]
    exact inv.linkedLive mem
  case dataOnce =>
    intro left right first second inLeft inRight same
    rw [sameData left first inLeft, sameData right second inRight] at same
    exact inv.dataOnce inLeft inRight same
  case owned =>
    intro other block owned
    have before := inv.owned (held_of_kept id kept owned)
    rw [sameLive]
    refine ⟨before.1, ?_⟩
    intro index item mem
    rw [sameData index item mem]
    exact before.2 index item mem
  case ownedOnce =>
    exact fun left right => inv.ownedOnce (held_of_kept id kept left)
      (held_of_kept id kept right)
  case pointed => exact inv.pointed_update more pointing

theorem allocate [DecidableEq Block] (free : hash.live block = false)
    (sameData : after.data = hash.data)
    (live : after.live = update hash.live block true)
    (more : ∀ pair ∈ hash.seen, pair ∈ after.seen) :
    BlockInv after (update owners tid (some block))
      (update pointers tid none) items := by
  have notLive : ∀ {other}, hash.live other = true → other ≠ block := by
    rintro other isLive rfl
    rw [free] at isLive
    cases isLive
  have stillLive : ∀ {other}, hash.live other = true →
      after.live other = true := by
    intro other isLive
    rw [live, update_of_ne (notLive isLive)]
    exact isLive
  constructor
  case linkedLive =>
    intro index item mem
    rw [sameData]
    exact stillLive (inv.linkedLive mem)
  case dataOnce =>
    rw [sameData]
    exact inv.dataOnce
  case owned =>
    intro other each owned
    rw [sameData]
    rcases update_cases (· = some each) owned with ⟨-, isOwner⟩ | ⟨-, isOwned⟩
    · cases isOwner
      refine ⟨by rw [live, update_self], ?_⟩
      intro index item mem
      exact notLive (inv.linkedLive mem)
    · exact ⟨stillLive (inv.owned isOwned).1, (inv.owned isOwned).2⟩
  case ownedOnce =>
    refine once_update id inv.ownedOnce ?_
    rintro other _ - owned ⟨⟩
    exact notLive (inv.owned owned).1 rfl
  case pointed => exact inv.pointed_update more (by simp)

/-- `aligned_free` on a block of the thread. -/
theorem free [DecidableEq Block] (owned : owners tid = some block) : BlockInv
      { hash with live := update hash.live block false }
      (update owners tid none)
      (update pointers tid none) items := by
  constructor
  case linkedLive =>
    intro index item mem
    change update hash.live block false (hash.data item) = true
    rw [update_of_ne ((inv.owned owned).2 index item mem)]
    exact inv.linkedLive mem
  case dataOnce => exact inv.dataOnce
  case owned =>
    intro other each otherOwned
    obtain ⟨ne, isOwned⟩ := held_of_empty id rfl otherOwned
    have apart : each ≠ block := by
      rintro rfl
      exact ne (inv.ownedOnce isOwned owned)
    refine ⟨?_, (inv.owned isOwned).2⟩
    change update hash.live block false each = true
    rw [update_of_ne apart]
    exact (inv.owned isOwned).1
  case ownedOnce => exact once_update id inv.ownedOnce (by simp)
  case pointed => exact inv.pointed_update (fun _ mem => mem) (by simp)

/-- An item that points to the block of the thread is linked. -/
theorem link {grown : Int → List Item} {index : Int} {item : Item}
    (owned : owners tid = some block) (points : hash.data item = block)
    (members : ∀ other each, each ∈ grown other ↔
      each ∈ items other ∨ other = index ∧ each = item)
    (sameData : after.data = hash.data) (sameLive : after.live = hash.live)
    (sameSeen : after.seen = hash.seen) :
    BlockInv after (update owners tid none)
      (update pointers tid none) grown := by
  constructor
  case linkedLive =>
    intro other each mem
    rw [sameLive, sameData]
    rcases (members other each).1 mem with old | ⟨-, rfl⟩
    · exact inv.linkedLive old
    · rw [points]
      exact (inv.owned owned).1
  case dataOnce =>
    intro left right first second inLeft inRight same
    rw [sameData] at same
    rcases (members left first).1 inLeft with oldLeft | ⟨-, rfl⟩
    · rcases (members right second).1 inRight with oldRight | ⟨-, rfl⟩
      · exact inv.dataOnce oldLeft oldRight same
      · exact absurd (same.trans points)
          ((inv.owned owned).2 left first oldLeft)
    · rcases (members right second).1 inRight with oldRight | ⟨-, rfl⟩
      · exact absurd (same.symm.trans points)
          ((inv.owned owned).2 right second oldRight)
      · rfl
  case owned =>
    intro other each otherOwned
    rw [sameLive, sameData]
    obtain ⟨ne, isOwned⟩ := held_of_empty id rfl otherOwned
    refine ⟨(inv.owned isOwned).1, ?_⟩
    intro bucket linked mem
    rcases (members bucket linked).1 mem with old | ⟨-, rfl⟩
    · exact (inv.owned isOwned).2 bucket linked old
    · rw [points]
      rintro rfl
      exact ne (inv.ownedOnce isOwned owned)
  case ownedOnce => exact once_update id inv.ownedOnce (by simp)
  case pointed =>
    exact inv.pointed_update (fun _ mem => sameSeen ▸ mem) (by simp)

/-- The block of the thread takes the place of the block of an item. -/
theorem replace [DecidableEq Item] {index : Int} {item : Item}
    (owned : owners tid = some block) (mem : item ∈ items index) :
    BlockInv { hash with data := update hash.data item block }
      (update owners tid (some (hash.data item)))
      (update pointers tid none) items := by
  have others : ∀ {bucket each}, each ∈ items bucket → each ≠ item →
      update hash.data item block each ≠ hash.data item := by
    intro bucket each inBucket ne
    rw [update_of_ne ne]
    exact fun same => ne (inv.dataOnce inBucket mem same)
  constructor
  case linkedLive =>
    intro bucket each inBucket
    change hash.live (update hash.data item block each) = true
    by_cases same : each = item
    · subst same
      rw [update_self]
      exact (inv.owned owned).1
    · rw [update_of_ne same]
      exact inv.linkedLive inBucket
  case dataOnce =>
    intro left right first second inLeft inRight
    change update hash.data item block first =
      update hash.data item block second → _
    by_cases isFirst : first = item
    · by_cases isSecond : second = item
      · exact fun _ => isFirst.trans isSecond.symm
      · rw [isFirst, update_self, update_of_ne isSecond]
        exact fun same =>
          absurd same.symm ((inv.owned owned).2 right second inRight)
    · by_cases isSecond : second = item
      · rw [isSecond, update_self, update_of_ne isFirst]
        exact fun same =>
          absurd same ((inv.owned owned).2 left first inLeft)
      · rw [update_of_ne isFirst, update_of_ne isSecond]
        exact inv.dataOnce inLeft inRight
  case owned =>
    intro other each otherOwned
    rcases update_cases (· = some each) otherOwned with
      ⟨-, isOwner⟩ | ⟨ne, isOwned⟩
    · cases isOwner
      refine ⟨inv.linkedLive mem, ?_⟩
      intro bucket linked inBucket
      by_cases same : linked = item
      · subst same
        change update hash.data linked block linked ≠ _
        rw [update_self]
        exact ((inv.owned owned).2 index linked mem).symm
      · exact others inBucket same
    · refine ⟨(inv.owned isOwned).1, ?_⟩
      intro bucket linked inBucket
      change update hash.data item block linked ≠ each
      by_cases same : linked = item
      · subst same
        rw [update_self]
        rintro rfl
        exact ne (inv.ownedOnce isOwned owned)
      · rw [update_of_ne same]
        exact (inv.owned isOwned).2 bucket linked inBucket
  case ownedOnce =>
    refine once_update id inv.ownedOnce ?_
    rintro other _ - owned ⟨⟩
    exact (inv.owned owned).2 index item mem rfl
  case pointed => exact inv.pointed_update (fun _ seen => seen) (by simp)

theorem forget : BlockInv
      { hash with seen := hash.seen.filter fun pair => pair.1 ≠ tid }
      (update owners tid none)
      (update pointers tid none) items := by
  constructor
  case linkedLive => exact inv.linkedLive
  case dataOnce => exact inv.dataOnce
  case owned => exact fun owned => inv.owned (held_of_empty id rfl owned).2
  case ownedOnce => exact once_update id inv.ownedOnce (by simp)
  case pointed =>
    intro other each pointed
    obtain ⟨ne, old⟩ := held_of_empty id rfl pointed
    exact List.mem_filter.2 ⟨inv.pointed old, by simp [ne]⟩

end BlockInv

end Lockfreec.Advance.HashMap
