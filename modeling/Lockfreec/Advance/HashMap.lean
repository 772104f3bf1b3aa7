import Lockfreec.Lib.Chain
import Lockfreec.Lib.Interleaving
import Lockfreec.Lib.Linearizability
import Mathlib.Data.Fin.Basic
import Mathlib.Algebra.Group.Int.Defs
import Mathlib.Algebra.Group.Nat.Defs

/-!
# The lock-free hash map

The model of `lf_hashmap.c`: `lf_hash_add` with `hashlist_pop`, and
`lf_hash_search`, on a table made by `hash_new`.  Every step loads, stores,
decrements or compares-and-swaps one word of shared memory, or frees a block.

The block that `lf_hash_add` is called with belongs to its caller until it is
linked, so its key and value are read with the call.  The heap hands out a
block that is not allocated and that no running call has seen; which blocks a
running call has seen is recorded for this rule alone.  A null pointer that
would be dereferenced leaves its thread without a step.
-/

namespace Lockfreec.Advance.HashMap

open Function Lib.Interleaving Lib.Linearizability

/-- `atom_t`. -/
abbrev Atom := Fin (2 ^ 64)

/-! ## The size of the table -/

/-- The conversion of a word to `int`. -/
def toInt (word : Nat) : Int :=
  Int.bmod word (2 ^ 32)

/-- `bucket_max`, an `int`. -/
def bucketMax (nbpow : Nat) : Int :=
  toInt (2 ^ nbpow % 2 ^ 64)

/-- `bucket_mask`, an `unsigned long`. -/
def bucketMask (nbpow : Nat) : Nat :=
  ((bucketMax nbpow - 1) % 2 ^ 64).toNat

/-- `(int) (key & bucket_mask)`. -/
def bucketIndex (nbpow : Nat) (key : Atom) : Int :=
  toInt (key.val &&& bucketMask nbpow)

/-! ## Memory -/

inductive NodeType where
  | headNode
  | iNode
  | endNode
deriving DecidableEq

/-- The items, the blocks, the table and the item pool. -/
structure HashState (Tid Item Block : Type) where
  next : Item → Option Item
  data : Item → Block
  nodeType : Item → NodeType
  key : Block → Atom
  val : Block → Atom
  /-- `h->table`. -/
  table : Int → Item
  /-- `hl->he`. -/
  he : Option Item
  itemNum : UInt64
  /-- The blocks that are allocated. -/
  live : Block → Bool
  /-- The blocks that running calls have seen. -/
  seen : List (Tid × Block)

/-! ## Calls -/

inductive HashOp where
  | add (key val : Atom)
  | search (key : Atom)
deriving DecidableEq

inductive HashRet where
  | exist
  | add
  | replace
  | searchFail
  | searchSucc
deriving DecidableEq

/-- The block that `lf_hash_add` is called with. -/
structure Adding (Block : Type) where
  hdata : Block
  key : Atom
  val : Atom

/-- The program points between two steps. -/
inductive HashPc (Item Block : Type) where
  | idle
  | finish (result : HashRet)
  -- hashlist_pop
  | popLoad (call : Adding Block)
  | popTest (call : Adding Block) (heLocal : Option Item)
  | popNext (call : Adding Block) (heCmp : Item)
  | popCas (call : Adding Block) (heCmp : Item) (next : Option Item)
  | popCount (call : Adding Block) (hItem : Item)
  -- lf_hash_add
  | readHead (call : Adding Block) (hItem : Item)
  | storeData (call : Adding Block) (hItem hPrev prevNext : Item)
  | testType (call : Adding Block) (hItem hPrev prevNext : Item)
  | greaterData (call : Adding Block) (hItem hPrev prevNext : Item)
  | greaterKey (call : Adding Block) (hItem hPrev prevNext : Item)
      (block : Block)
  | lessData (call : Adding Block) (hItem hPrev prevNext : Item)
  | lessKey (call : Adding Block) (hItem hPrev prevNext : Item)
      (block : Block)
  | readNext (call : Adding Block) (hItem prevNext : Item)
  | storeNext (call : Adding Block) (hItem hPrev prevNext : Item)
  | linkCas (call : Adding Block) (hItem hPrev prevNext : Item)
  | valData (call : Adding Block) (hItem prevNext : Item)
  | valTest (call : Adding Block) (hItem prevNext : Item) (block : Block)
  | replaceLoad (call : Adding Block) (hItem prevNext : Item)
  | replaceCas (call : Adding Block) (hItem prevNext : Item)
      (hData : Block)
  | freeData (block : Block) (hItem : Item) (result : HashRet)
  | freeItem (hItem : Item) (result : HashRet)
  -- lf_hash_search
  | searchHead (key : Atom)
  | searchType (key : Atom) (bucket : Item)
  | searchGreaterData (key : Atom) (bucket : Item)
  | searchGreaterKey (key : Atom) (bucket : Item) (block : Block)
  | searchLessData (key : Atom) (bucket : Item)
  | searchLessKey (key : Atom) (bucket : Item) (block : Block)
  | searchNext (key : Atom) (bucket : Item)

/-- A call of an idle thread, or the next step of a call. -/
inductive HashAction (Block : Type) where
  | add (hdata : Block) (key val : Atom)
  | search (key : Atom)
  | run

/-! ## Steps -/

section

variable {Tid Item Block : Type}

abbrev HashOutcome (Tid Item Block : Type) :=
  Outcome (HashState Tid Item Block) (HashPc Item Block)
    (CallEvent Tid HashOp HashRet)

/-- A step without a visible event. -/
def silent (hash : HashState Tid Item Block) (pc : HashPc Item Block) :
    Option (HashOutcome Tid Item Block) :=
  some ⟨hash, pc, []⟩

/-- A step that loads the data pointer of an item. -/
def loadData (thread : Tid) (hash : HashState Tid Item Block) (item : Item)
    (after : Block → HashPc Item Block) :
    Option (HashOutcome Tid Item Block) :=
  silent { hash with seen := (thread, hash.data item) :: hash.seen }
    (after (hash.data item))

/-- A step that loads the `next` pointer of an item and goes on with it. -/
def loadNext (hash : HashState Tid Item Block) (item : Item)
    (after : Item → HashPc Item Block) :
    Option (HashOutcome Tid Item Block) :=
  match hash.next item with
  | none => none
  | some next => silent hash (after next)

variable [DecidableEq Tid] [DecidableEq Item] [DecidableEq Block]

def hashCall (thread : Tid) (hash : HashState Tid Item Block) :
    HashAction Block → Option (HashOutcome Tid Item Block)
  | .add hdata key val =>
    if hash.live hdata = false ∧ hdata ∉ hash.seen.map Prod.snd then
      some ⟨{ hash with
          key := update hash.key hdata key
          val := update hash.val hdata val
          live := update hash.live hdata true
          seen := (thread, hdata) :: hash.seen },
        .popLoad ⟨hdata, key, val⟩, [.call thread (.add key val)]⟩
    else none
  | .search key =>
    some ⟨hash, .searchHead key, [.call thread (.search key)]⟩
  | .run => none

/-- The steps of `hashlist_pop`; without an item the caller calls again. -/
def popStep (hash : HashState Tid Item Block) :
    HashPc Item Block → Option (HashOutcome Tid Item Block)
  | .popLoad call => silent hash (.popTest call hash.he)
  | .popTest call none => silent hash (.popLoad call)
  | .popTest call (some heLocal) =>
    silent hash (if hash.next heLocal = none then .popLoad call
        else .popNext call heLocal)
  | .popNext call heCmp =>
    silent hash (.popCas call heCmp (hash.next heCmp))
  | .popCas call heCmp next =>
    if hash.he = some heCmp then
      silent { hash with he := next } (.popCount call heCmp)
    else silent hash (.popTest call hash.he)
  | .popCount call hItem =>
    silent { hash with itemNum := hash.itemNum - 1 } (.readHead call hItem)
  | _ => none

/-- The steps of `lf_hash_add` behind the pop. -/
def addStep (nbpow : Nat) (thread : Tid) (hash : HashState Tid Item Block) :
    HashPc Item Block → Option (HashOutcome Tid Item Block)
  | .readHead call hItem =>
    let bucket := hash.table (bucketIndex nbpow call.key)
    loadNext hash bucket (.storeData call hItem bucket)
  | .storeData call hItem hPrev prevNext =>
    silent
      { hash with data := update hash.data hItem call.hdata }
      (.testType call hItem hPrev prevNext)
  | .testType call hItem hPrev prevNext =>
    silent hash (if hash.nodeType prevNext = .endNode then
        .storeNext call hItem hPrev prevNext
      else .greaterData call hItem hPrev prevNext)
  | .greaterData call hItem hPrev prevNext =>
    loadData thread hash prevNext (.greaterKey call hItem hPrev prevNext)
  | .greaterKey call hItem hPrev prevNext block =>
    silent hash (if call.key < hash.key block then
        .storeNext call hItem hPrev prevNext
      else .lessData call hItem hPrev prevNext)
  | .lessData call hItem hPrev prevNext =>
    loadData thread hash prevNext (.lessKey call hItem hPrev prevNext)
  | .lessKey call hItem _ prevNext block =>
    silent hash (if hash.key block < call.key then .readNext call hItem prevNext
      else .valData call hItem prevNext)
  | .readNext call hItem prevNext =>
    loadNext hash prevNext (.testType call hItem prevNext)
  | .storeNext call hItem hPrev prevNext =>
    silent
      { hash with next := update hash.next hItem prevNext }
      (.linkCas call hItem hPrev prevNext)
  | .linkCas call hItem hPrev prevNext =>
    if hash.next hPrev = some prevNext then
      silent
        { hash with next := update hash.next hPrev hItem }
        (.finish .add)
    else loadNext hash hPrev (.testType call hItem hPrev)
  | .valData call hItem prevNext =>
    loadData thread hash prevNext (.valTest call hItem prevNext)
  | .valTest call hItem prevNext block =>
    silent hash (if call.val = hash.val block then
        .freeData call.hdata hItem .exist
      else .replaceLoad call hItem prevNext)
  | .replaceLoad call hItem prevNext =>
    loadData thread hash prevNext (.replaceCas call hItem prevNext)
  | .replaceCas call hItem prevNext hData =>
    if hash.data prevNext = hData then
      silent
        { hash with data := update hash.data prevNext call.hdata }
        (.freeData hData hItem .replace)
    else
      loadData thread hash prevNext (.replaceCas call hItem prevNext)
  | .freeData block hItem result =>
    silent { hash with live := update hash.live block false }
      (.freeItem hItem result)
  | .freeItem _ result => silent hash (.finish result)
  | _ => none

/-- The steps of `lf_hash_search`. -/
def searchStep (nbpow : Nat) (thread : Tid) (hash : HashState Tid Item Block) :
    HashPc Item Block → Option (HashOutcome Tid Item Block)
  | .searchHead key =>
    loadNext hash (hash.table (bucketIndex nbpow key)) (.searchType key)
  | .searchType key bucket =>
    silent hash (if hash.nodeType bucket = .endNode then .finish .searchFail
      else .searchGreaterData key bucket)
  | .searchGreaterData key bucket =>
    loadData thread hash bucket (.searchGreaterKey key bucket)
  | .searchGreaterKey key bucket block =>
    silent hash (if key < hash.key block then .finish .searchFail
      else .searchLessData key bucket)
  | .searchLessData key bucket =>
    loadData thread hash bucket (.searchLessKey key bucket)
  | .searchLessKey key bucket block =>
    silent hash (if hash.key block < key then .searchNext key bucket
      else .finish .searchSucc)
  | .searchNext key bucket => loadNext hash bucket (.searchType key)
  | _ => none

/-- The return of a call, which forgets what it has seen. -/
def hashReturn (thread : Tid) (hash : HashState Tid Item Block)
    (result : HashRet) : HashOutcome Tid Item Block :=
  ⟨{ hash with seen := hash.seen.filter fun pair => pair.1 ≠ thread },
    .idle, [.ret thread result]⟩

/-- Any number of threads on one table. -/
def hashMachine (nbpow : Nat) :
    Machine Tid (HashAction Block) (HashState Tid Item Block)
      (HashPc Item Block) (CallEvent Tid HashOp HashRet) where
  step thread action hash pc :=
    match pc, action with
    | .idle, action => hashCall thread hash action
    | .finish result, .run => some (hashReturn thread hash result)
    | pc, .run =>
      (popStep hash pc).orElse fun _ =>
        (addStep nbpow thread hash pc).orElse fun _ =>
          searchStep nbpow thread hash pc
    | _, _ => none

end

/-! ## The table that `hash_new` makes -/

section

variable {Tid Item Block : Type}

/-- The indices of the table. -/
def InTable (nbpow : Nat) (index : Int) : Prop :=
  0 ≤ index ∧ index < 2 ^ nbpow

/-- Every head is linked to an end, and the item pool is a chain that ends at
null, whose last item is never taken.  What the memory held before is
arbitrary. -/
structure HashNew (nbpow : Nat) (hash : HashState Tid Item Block)
    (cells : List Item) : Prop where
  small : nbpow ≤ 30
  headType : ∀ index, InTable nbpow index →
    hash.nodeType (hash.table index) = .headNode
  ends : ∀ index, InTable nbpow index →
    ∃ ending, hash.next (hash.table index) = some ending ∧
      hash.nodeType ending = .endNode
  apart : ∀ {left right}, InTable nbpow left → InTable nbpow right →
    hash.table left = hash.table right → left = right
  pool : Lockfreec.Lib.Chain.Linked hash.next hash.he cells
  poolType : ∀ item ∈ cells, hash.next item ≠ none → hash.nodeType item = .iNode
  poolApart : ∀ item ∈ cells, ∀ index, InTable nbpow index →
    item ≠ hash.table index
  unseen : hash.seen = []

/-- The head and the end that the heap provides for a bucket. -/
structure BucketNodes (Item : Type) where
  head : Item
  ending : Item

section New

variable [DecidableEq Item]

/-- `init_hash_table`, from the bucket `loop` on. -/
def initHashTable :
    Nat → List (BucketNodes Item) → HashState Tid Item Block →
      HashState Tid Item Block
  | _, [], hash => hash
  | loop, nodes :: rest, hash =>
    initHashTable (loop + 1) rest
      { hash with
        nodeType := update (update hash.nodeType nodes.head .headNode)
          nodes.ending .endNode
        table := update hash.table (loop : Int) nodes.head
        next := update hash.next nodes.head nodes.ending }

def initHashlist (he : Item) (hash : HashState Tid Item Block) :
    HashState Tid Item Block :=
  { hash with he := some he, itemNum := 1 }

/-- `hashlist_internal_new_element` and `hashlist_push`, before any thread
can see the pool. -/
def hashlistNewElement (hash : HashState Tid Item Block) (he : Item) :
    HashState Tid Item Block :=
  { hash with
    itemNum := hash.itemNum + 1
    nodeType := update hash.nodeType he .iNode
    next := update hash.next he hash.he
    he := some he }

/-- `hash_new` with the nodes that the heap provides. -/
def hashNew (nodes : List (BucketNodes Item)) (first : Item)
    (elements : List Item) (hash : HashState Tid Item Block) :
    HashState Tid Item Block :=
  elements.foldl hashlistNewElement
    (initHashlist first (initHashTable 0 nodes hash))

end New

/-- No call has been made yet. -/
def hashStart (hash : HashState Tid Item Block) :
    Config Tid (HashState Tid Item Block) (HashPc Item Block) where
  shared := hash
  threads := fun _ => .idle

end

/-! ## The atomic map -/

/-- The map that the calls act on.  With `strict` a replacement changes the
value. -/
def hashObject (strict : Bool) :
    SequentialObject (Atom → Option Atom) HashOp HashRet
  | before, .add key val, .add, after =>
    before key = none ∧ after = update before key (some val)
  | before, .add key val, .exist, after =>
    before key = some val ∧ after = before
  | before, .add key val, .replace, after =>
    (∃ old, before key = some old ∧ (strict → old ≠ val)) ∧
      after = update before key (some val)
  | before, .search key, .searchSucc, after =>
    before key ≠ none ∧ after = before
  | before, .search key, .searchFail, after =>
    before key = none ∧ after = before
  | _, _, _, _ => False

end Lockfreec.Advance.HashMap
