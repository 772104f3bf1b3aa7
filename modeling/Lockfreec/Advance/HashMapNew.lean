import Lockfreec.Advance.HashMapInvariant

/-!
# The table that `hash_new` makes

If the heap provides distinct nodes, and the first item of the pool is null
terminated, then `hash_new` leaves every head linked to its end and all the
items in the pool.
-/

namespace Lockfreec.Advance.HashMap

open Function Lib.Chain

variable {Tid Item Block : Type} [DecidableEq Item]

/-- The heads and the ends of the buckets. -/
def bucketItems (nodes : List (BucketNodes Item)) : List Item :=
  nodes.flatMap fun each => [each.head, each.ending]

/-! ## The buckets -/

section Buckets

variable {hash : HashState Tid Item Block} {nodes : List (BucketNodes Item)}
  {loop : Nat}

theorem initHashTable_frame {item : Item} (outside : item ∉ bucketItems nodes) :
    (initHashTable loop nodes hash).next item = hash.next item ∧
      (initHashTable loop nodes hash).nodeType item = hash.nodeType item := by
  induction nodes generalizing loop hash with
  | nil => exact ⟨rfl, rfl⟩
  | cons node rest ih =>
    simp only [bucketItems, List.flatMap_cons, List.mem_append,
      List.mem_cons, List.not_mem_nil, or_false, not_or] at outside
    rw [initHashTable, (ih outside.2).1, (ih outside.2).2]
    simp [outside.1]

theorem initHashTable_table {index : Int} (before : index < loop) :
    (initHashTable loop nodes hash).table index = hash.table index := by
  induction nodes generalizing loop hash with
  | nil => rfl
  | cons node rest ih =>
    rw [initHashTable, ih (by omega)]
    exact update_of_ne (by omega) _ _

theorem initHashTable_seen :
    (initHashTable loop nodes hash).seen = hash.seen := by
  induction nodes generalizing loop hash with
  | nil => rfl
  | cons node rest ih => exact ih

theorem initHashTable_bucket (loop : Nat) (hash : HashState Tid Item Block)
    (distinct : (bucketItems nodes).Nodup) {place : Nat}
    {node : BucketNodes Item} (here : nodes[place]? = some node) :
    (initHashTable loop nodes hash).table ((loop + place : Nat) : Int) =
        node.head ∧
      (initHashTable loop nodes hash).nodeType node.head = .headNode ∧
      (initHashTable loop nodes hash).next node.head = some node.ending ∧
      (initHashTable loop nodes hash).nodeType node.ending = .endNode := by
  induction nodes generalizing loop hash place with
  | nil => simp at here
  | cons first rest ih =>
    have split : first.head ≠ first.ending ∧ first.head ∉ bucketItems rest ∧
        first.ending ∉ bucketItems rest ∧ (bucketItems rest).Nodup := by
      simp only [bucketItems, List.flatMap_cons, List.cons_append,
        List.nil_append, List.nodup_cons, List.mem_cons,
        not_or] at distinct
      exact ⟨distinct.1.1, distinct.1.2, distinct.2.1, distinct.2.2⟩
    rcases split with ⟨apart, headOutside, endOutside, others⟩
    cases place with
    | zero =>
      cases here
      rw [initHashTable, initHashTable_table (by omega)]
      rw [(initHashTable_frame headOutside).1,
        (initHashTable_frame headOutside).2,
        (initHashTable_frame endOutside).2]
      simp [apart]
    | succ place =>
      have shift : loop + (place + 1) = loop + 1 + place := by omega
      rw [shift]
      exact ih (loop + 1) _ others here

end Buckets

/-! ## The pool -/

section Pool

/-- Pushing the items leaves the table and all other items alone. -/
theorem newElements_frame (elements : List Item)
    (hash : HashState Tid Item Block) :
    (elements.foldl hashlistNewElement hash).table = hash.table ∧
      (elements.foldl hashlistNewElement hash).seen = hash.seen ∧
      ∀ item, item ∉ elements →
        (elements.foldl hashlistNewElement hash).next item = hash.next item ∧
          (elements.foldl hashlistNewElement hash).nodeType item =
            hash.nodeType item := by
  induction elements generalizing hash with
  | nil => exact ⟨rfl, rfl, fun _ _ => ⟨rfl, rfl⟩⟩
  | cons he rest ih =>
    rcases ih (hashlistNewElement hash he) with
      ⟨table, seen, items⟩
    refine ⟨table, seen, ?_⟩
    intro item outside
    simp only [List.mem_cons, not_or] at outside
    rw [List.foldl_cons, (items item outside.2).1, (items item outside.2).2]
    exact ⟨update_of_ne outside.1 _ _, update_of_ne outside.1 _ _⟩

theorem newElements_pool (elements cells : List Item)
    (hash : HashState Tid Item Block) (pool : Linked hash.next hash.he cells)
    (inner : ∀ item ∈ cells, hash.next item ≠ none →
      hash.nodeType item = .iNode)
    (distinct : (elements ++ cells).Nodup) :
    Linked (elements.foldl hashlistNewElement hash).next
        (elements.foldl hashlistNewElement hash).he
        (elements.reverse ++ cells) ∧
      ∀ item ∈ elements.reverse ++ cells,
        (elements.foldl hashlistNewElement hash).next item ≠ none →
          (elements.foldl hashlistNewElement hash).nodeType item =
            .iNode := by
  induction elements generalizing hash cells with
  | nil => exact ⟨pool, inner⟩
  | cons he rest ih =>
    have fresh : he ∉ cells := by
      simp only [List.cons_append, List.nodup_cons, List.mem_append] at distinct
      exact fun mem => distinct.1 (.inr mem)
    have pushed : Linked (hashlistNewElement hash he).next
        (hashlistNewElement hash he).he (he :: cells) := by
      refine ⟨rfl, ?_⟩
      change Linked (update hash.next he hash.he)
        (update hash.next he hash.he he) cells
      rw [update_self]
      exact pool.update fresh
    have pushedInner : ∀ item ∈ he :: cells,
        (hashlistNewElement hash he).next item ≠ none →
          (hashlistNewElement hash he).nodeType item = .iNode := by
      intro item mem
      by_cases same : item = he
      · subst same
        exact fun _ => update_self _ _ _
      · change update hash.next he hash.he item ≠ none →
          update hash.nodeType he .iNode item = .iNode
        rw [update_of_ne same, update_of_ne same]
        exact inner item ((List.mem_cons.1 mem).resolve_left same)
    have moved : (rest ++ he :: cells).Nodup :=
      List.nodup_middle.2 distinct
    rw [List.reverse_cons, List.append_assoc]
    exact ih _ _ pushed pushedInner moved

end Pool

/-! ## Both together -/

variable {nbpow : Nat} {hash : HashState Tid Item Block}
  {nodes : List (BucketNodes Item)} {first : Item} {elements : List Item}

omit [DecidableEq Item] in
theorem mem_bucketItems {place : Nat} {node : BucketNodes Item}
    (here : nodes[place]? = some node) :
    node.head ∈ bucketItems nodes ∧ node.ending ∈ bucketItems nodes := by
  have member := List.mem_of_getElem? here
  constructor <;>
    exact List.mem_flatMap.2 ⟨node, member, by simp⟩

omit [DecidableEq Item] in
theorem heads_apart (distinct : (bucketItems nodes).Nodup) {left right : Nat}
    {node other : BucketNodes Item} (isLeft : nodes[left]? = some node)
    (isRight : nodes[right]? = some other)
    (same : node.head = other.head) : left = right := by
  have heads : (nodes.map BucketNodes.head).Sublist (bucketItems nodes) := by
    clear isLeft isRight distinct
    induction nodes with
    | nil => exact List.Sublist.slnil
    | cons first rest ih => exact (ih.cons first.ending).cons_cons first.head
  have inside : left < (nodes.map BucketNodes.head).length := by
    rw [List.length_map]
    exact (List.getElem?_eq_some_iff.1 isLeft).1
  apply (List.getElem?_inj inside (distinct.sublist heads)).1
  rw [List.getElem?_map, List.getElem?_map, isLeft, isRight]
  exact congrArg some same

/-- The head and the end of a bucket after `hash_new`. -/
theorem hashNew_bucket (hash : HashState Tid Item Block) (small : nbpow ≤ 30)
    (buckets : nodes.length = (bucketMax nbpow).toNat)
    (distinct : (bucketItems nodes ++ (elements ++ [first])).Nodup)
    {index : Int} (inTable : InTable nbpow index) :
    ∃ node, nodes[index.toNat]? = some node ∧
      (hashNew nodes first elements hash).table index = node.head ∧
      (hashNew nodes first elements hash).nodeType node.head = .headNode ∧
      (hashNew nodes first elements hash).next node.head = some node.ending ∧
      (hashNew nodes first elements hash).nodeType node.ending =
        .endNode := by
  rcases inTable with ⟨nonnegative, less⟩
  rw [← bucketMax_eq small] at less
  have inside : index.toNat < nodes.length := by omega
  have here : nodes[index.toNat]? = some nodes[index.toNat] :=
    List.getElem?_eq_getElem inside
  generalize nodes[index.toNat] = node at here
  rcases List.nodup_append.1 distinct with ⟨bucketsApart, -, apart⟩
  have outside : ∀ item ∈ bucketItems nodes, item ∉ elements := by
    intro item mem isElement
    exact apart item mem item (by simp [isElement]) rfl
  rcases newElements_frame elements
    (initHashlist first (initHashTable 0 nodes hash)) with
    ⟨table, -, items⟩
  rcases initHashTable_bucket 0 hash bucketsApart here with
    ⟨isHead, headType, link, endType⟩
  rcases items node.head (outside _ (mem_bucketItems here).1) with
    ⟨headNext, headSame⟩
  rcases items node.ending (outside _ (mem_bucketItems here).2) with
    ⟨-, endSame⟩
  refine ⟨node, here, ?_, headSame.trans headType, headNext.trans link,
    endSame.trans endType⟩
  have cast : ((0 + index.toNat : Nat) : Int) = index := by omega
  rw [cast] at isHead
  exact (congrFun table index).trans isHead

/-- What `hash_new` makes is a table for any number of threads. -/
theorem HashNew.of_hashNew (small : nbpow ≤ 30)
    (buckets : nodes.length = (bucketMax nbpow).toNat)
    (distinct : (bucketItems nodes ++ (elements ++ [first])).Nodup)
    (terminated : hash.next first = none) (unseen : hash.seen = []) :
    HashNew nbpow (hashNew nodes first elements hash)
      (elements.reverse ++ [first]) := by
  rcases List.nodup_append.1 distinct with
    ⟨bucketsApart, poolDistinct, apart⟩
  have firstOutside : first ∉ bucketItems nodes :=
    fun mem => apart first mem first (by simp) rfl
  have ends : (initHashTable 0 nodes hash).next first = none :=
    (initHashTable_frame firstOutside).1.trans terminated
  have pool := newElements_pool elements [first]
    (initHashlist first (initHashTable 0 nodes hash)) ⟨rfl, ends⟩
    (by simp [initHashlist, ends]) poolDistinct
  constructor
  case small => exact small
  case headType =>
    intro index inTable
    rcases hashNew_bucket hash small buckets distinct inTable with
      ⟨node, -, isHead, headType, -⟩
    rw [isHead, headType]
  case ends =>
    intro index inTable
    rcases hashNew_bucket hash small buckets distinct inTable with
      ⟨node, -, isHead, -, link, endType⟩
    exact ⟨node.ending, by rw [isHead, link], endType⟩
  case apart =>
    intro left right inLeft inRight same
    rcases hashNew_bucket hash small buckets distinct inLeft with
      ⟨leftNode, leftHere, leftHead, -⟩
    rcases hashNew_bucket hash small buckets distinct inRight with
      ⟨rightNode, rightHere, rightHead, -⟩
    have places := heads_apart bucketsApart leftHere rightHere
      (leftHead.symm.trans (same.trans rightHead))
    have fromLeft := inLeft.1
    have fromRight := inRight.1
    omega
  case pool => exact pool.1
  case poolType => exact pool.2
  case poolApart =>
    intro item mem index inTable same
    rcases hashNew_bucket hash small buckets distinct inTable with
      ⟨node, here, isHead, -⟩
    rw [isHead] at same
    subst same
    exact apart node.head (mem_bucketItems here).1 node.head
      (by simpa using mem) rfl
  case unseen =>
    exact (newElements_frame elements _).2.1.trans
      (initHashTable_seen.trans unseen)

end Lockfreec.Advance.HashMap
