import Lockfreec.Advance.HashMapLinearizable
import Lockfreec.Lib.Solo
import Mathlib.Data.Nat.Bitwise

/-!
# One thread on the hash map

`hash_lookup` and `hash_free`, and the end of a call of `lf_hash_add` that
nobody disturbs.  `hash_lookup` masks with `bucket_max` and starts at the head
of a bucket.  `hash_free` frees the first head twice and the table never.
`lf_hash_add` takes an item for every call, also if it gives it to the heap
afterwards, and tries again for ever once the pool has none to give.

The memory that a call of `aligned_free` gets stays readable here.
-/

namespace Lockfreec.Advance.HashMap

open Function Lib.Chain Lib.Interleaving Lib.Linearizability

variable {Tid Item Block : Type}

/-! ## `hash_lookup` -/

/-- `bucket_mask` of `hash_lookup`, an `unsigned long`. -/
def lookupMask (nbpow : Nat) : Nat :=
  (bucketMax nbpow % 2 ^ 64).toNat

/-- `bucket_index` of `hash_lookup`. -/
def lookupIndex (nbpow : Nat) (key : Atom) : Int :=
  toInt (key.val &&& lookupMask nbpow)

/-- The loop of `hash_lookup`: the items whose data it reads, and the value
that it returns. -/
def lookupLoop (hash : HashState Tid Item Block) (key : Atom) :
    Nat → Option Item → Option (List Item × Nat)
  | _, none => some ([], 0)
  | 0, some _ => none
  | fuel + 1, some bucket =>
    if hash.key (hash.data bucket) = key then
      some ([bucket], (hash.val (hash.data bucket)).val)
    else
      (lookupLoop hash key fuel (hash.next bucket)).map fun result =>
        (bucket :: result.1, result.2)

def hashLookup (nbpow : Nat) (hash : HashState Tid Item Block) (key : Atom)
    (fuel : Nat) : Option (List Item × Nat) :=
  lookupLoop hash key fuel (some (hash.table (lookupIndex nbpow key)))

/-- The value of the last call of `lf_hash_add` for a key. -/
def lastAdded (key : Atom) :
    List (CallEvent Tid HashOp HashRet) → Option Atom
  | [] => none
  | .call _ (.add added val) :: rest =>
    (lastAdded key rest).or (if added = key then some val else none)
  | _ :: rest => lastAdded key rest

section Lookup

variable [DecidableEq Tid] [DecidableEq Item] [DecidableEq Block]

/-- What `lf_hash_search` returns to a thread that nobody disturbs. -/
def SearchReports (nbpow : Nat)
    (config : Config Tid (HashState Tid Item Block) (HashPc Item Block))
    (thread : Tid) (key : Atom) (result : HashRet) : Prop :=
  ∃ steps final, (hashMachine nbpow).execute config
        ((thread, .search key) :: List.replicate steps (thread, .run)) =
      some (final, [.call thread (.search key), .ret thread result])

/-- `hash_lookup` stays in the table, reads the data of items only and agrees
with `lf_hash_search`. -/
structure LookupAgrees (nbpow : Nat)
    (history : List (CallEvent Tid HashOp HashRet))
    (config : Config Tid (HashState Tid Item Block) (HashPc Item Block))
    (thread : Tid) (key : Atom) : Prop where
  inTable : 0 ≤ lookupIndex nbpow key ∧ lookupIndex nbpow key < bucketMax nbpow
  returns : ∃ fuel reads val,
    hashLookup nbpow config.shared key fuel = some (reads, val) ∧
      (∀ item ∈ reads, config.shared.nodeType item = .iNode) ∧
      (SearchReports nbpow config thread key .searchSucc →
        ∃ added, lastAdded key history = some added ∧ val = added.val) ∧
      (SearchReports nbpow config thread key .searchFail → val = 0)

/-- The mask lets one bit through, so there are two indices. -/
theorem lookupIndex_cases {nbpow : Nat} (small : nbpow ≤ 30) (key : Atom) :
    lookupIndex nbpow key = 0 ∨ lookupIndex nbpow key = bucketMax nbpow := by
  have bound : 2 ^ nbpow ≤ 2 ^ 30 := Nat.pow_le_pow_right (by decide) small
  have mask : lookupMask nbpow = 2 ^ nbpow := by
    rw [lookupMask, bucketMax_eq small]
    have cast : (2 : Int) ^ nbpow = ((2 ^ nbpow : Nat) : Int) := by simp
    rw [cast]
    generalize 2 ^ nbpow = size at bound
    omega
  rw [lookupIndex, mask, Nat.and_two_pow, bucketMax_eq small]
  cases key.val.testBit nbpow with
  | false =>
    left
    rw [toInt_small] <;> simp
  | true =>
    right
    rw [toInt_small] <;> simp
    omega

omit [DecidableEq Tid] [DecidableEq Item] [DecidableEq Block] in
theorem lookupLoop_reads {hash : HashState Tid Item Block} {key : Atom}
    {fuel val : Nat} {bucket : Item} {reads : List Item}
    (returned : lookupLoop hash key fuel (some bucket) = some (reads, val)) :
    bucket ∈ reads := by
  cases fuel with
  | zero => cases returned
  | succ fuel =>
    rw [lookupLoop] at returned
    split at returned
    · cases returned
      exact List.mem_singleton_self _
    · rcases Option.map_eq_some_iff.1 returned with ⟨result, -, same⟩
      cases same
      exact .head _

variable {nbpow : Nat} {hash : HashState Tid Item Block} {cells : List Item}
  {history : List (CallEvent Tid HashOp HashRet)}
  {config : Config Tid (HashState Tid Item Block) (HashPc Item Block)}

theorem HashNew.run_inv (new : HashNew nbpow hash cells)
    (run : (hashMachine nbpow).Run (hashStart hash) history config) :
    ∃ items cells, HashInv nbpow config.shared config.threads items cells := by
  obtain ⟨items, cells, _, reached⟩ : HashRun.Reached false nbpow history
      config.shared config.threads :=
    new.reached_run run (by simp)
  exact ⟨items, cells, reached.inv⟩

/--
In no state of the table does `hash_lookup` do for any key what it is for: it
leaves the table, or it reads the data of the first head.
-/
theorem hashLookup_never_agrees (new : HashNew nbpow hash cells)
    (run : (hashMachine nbpow).Run (hashStart hash) history config)
    (thread : Tid) (key : Atom) :
    ¬ LookupAgrees nbpow history config thread key := by
  rintro ⟨inTable, fuel, reads, val, returned, items, -⟩
  rcases new.run_inv run with ⟨_, _, inv⟩
  rcases lookupIndex_cases new.small key with first | last
  · have read := items _ (lookupLoop_reads returned)
    rw [first, inv.item.headType 0 ⟨by decide, Int.pow_pos (by decide)⟩] at read
    cases read
  · rw [last] at inTable
    exact absurd inTable.2 (Int.lt_irrefl _)

end Lookup

/-- On a new table with two buckets. -/
theorem hashLookup_never_agrees_new :
    ¬ LookupAgrees 1 [] (hashStart twoBuckets) true 3 :=
  hashLookup_never_agrees twoBuckets_new .nil true 3

/-- The keys 0 and 1 are looked up at the head of the first bucket, the keys 2
and 3 behind the table. -/
theorem hashLookup_reads_head : HashNew 1 twoBuckets [10, 11, 12, 13] ∧
      (hashLookup 1 twoBuckets 1 3).map Prod.fst = some [0, 100] ∧
      twoBuckets.nodeType 0 = .headNode ∧
      twoBuckets.nodeType 100 = .endNode ∧
      lookupIndex 1 2 = 2 ∧ bucketMax 1 = 2 :=
  ⟨twoBuckets_new, by decide +kernel⟩

/-! ## `hash_free` -/

/-- What is passed to `aligned_free`. -/
inductive Pointer (Item Block : Type) where
  | hash
  /-- `h->hl`. -/
  | hashList
  /-- `h->dl`. -/
  | dataList
  /-- `h->table`, the array of bucket pointers. -/
  | table
  | item (item : Item)
  | data (block : Block)
deriving DecidableEq

/-- `struct data_list`. -/
structure DataList (Block : Type) where
  hd : Option Block
  next : Block → Option Block

/-- The frees of a loop over a list.  `hashlist_pop` and `datalist_pop` leave
the last node in the list, `hashtable_delete` goes on to null. -/
def deleteNodes {Node : Type} (keepsLast : Bool) (next : Node → Option Node)
    (deleteFunc : Node → List (Pointer Item Block)) :
    Nat → Option Node → Option (List (Pointer Item Block))
  | _, none => some []
  | 0, some _ => none
  | fuel + 1, some node =>
    if keepsLast = true ∧ next node = none then some []
    else
      (deleteNodes keepsLast next deleteFunc fuel (next node)).map
        (deleteFunc node ++ ·)

section Free

variable [DecidableEq Block] (null : Block) (hash : HashState Tid Item Block)

def hashDeleteItemFunc (bucket : Item) : List (Pointer Item Block) :=
  if hash.data bucket = null then [.item bucket]
  else [.data (hash.data bucket), .item bucket]

def hashDeleteDataFunc (block : Block) : List (Pointer Item Block) :=
  [.data block]

def hashlistDelete (fuel : Nat) : Option (List (Pointer Item Block)) :=
  deleteNodes true hash.next (hashDeleteItemFunc null hash) fuel hash.he

def datalistDelete (dl : DataList Block) (fuel : Nat) :
    Option (List (Pointer Item Block)) :=
  deleteNodes true dl.next hashDeleteDataFunc fuel dl.hd

/-- `hashtable_delete`, for the buckets below a bound. -/
def hashtableDelete (fuel : Nat) : Nat → Option (List (Pointer Item Block))
  | 0 => some []
  | i + 1 => do
      let before ← hashtableDelete fuel i
      let bucket ← deleteNodes false hash.next
        (hashDeleteItemFunc null hash) fuel (some (hash.table i))
      return before ++ bucket

/-- `hash_free` on a table that `hash_new` has made. -/
def hashFree (nbpow : Nat) (dl : DataList Block) (fuel : Nat) :
    Option (List (Pointer Item Block)) := do
  let items ← hashlistDelete null hash fuel
  let blocks ← datalistDelete dl fuel
  let buckets ← hashtableDelete null hash fuel (bucketMax nbpow).toNat
  return items ++ .hashList :: blocks ++ .dataList :: buckets ++
    [.item (hash.table 0), .hash]

/-- Together with what the calls of `lf_hash_add` have freed, `hash_free`
frees every block once. -/
structure ReleasesOnce (nbpow : Nat) (dl : DataList Block)
    (freed released : List (Pointer Item Block)) : Prop where
  returns : ∃ fuel, hashFree null hash nbpow dl fuel = some released
  once : (freed ++ released).Nodup
  table : .table ∈ released
  buckets : ∀ index list ending, InTable nbpow index →
    BucketList nbpow hash index list ending →
      ∀ item ∈ hash.table index :: (list ++ [ending]), .item item ∈ released
  blocks : ∀ index list ending, InTable nbpow index →
    BucketList nbpow hash index list ending →
      ∀ item ∈ list, .data (hash.data item) ∈ released
  items : ∀ cells, Linked hash.next hash.he cells →
    ∀ item ∈ cells, .item item ∈ released
  data : ∀ cells, Linked dl.next dl.hd cells →
    ∀ block ∈ cells, .data block ∈ released

variable {null hash}

omit [DecidableEq Block] in
theorem deleteNodes_mem {Node : Type} {keepsLast : Bool}
    {next : Node → Option Node} {deleteFunc : Node → List (Pointer Item Block)}
    {fuel : Nat} {node : Option Node} {freed : List (Pointer Item Block)}
    (deleted : deleteNodes keepsLast next deleteFunc fuel node = some freed) :
    ∀ pointer ∈ freed, ∃ other, pointer ∈ deleteFunc other := by
  induction fuel generalizing node freed with
  | zero =>
    cases node <;> cases deleted
    simp
  | succ fuel ih =>
    cases node with
    | none =>
      cases deleted
      simp
    | some node =>
      rw [deleteNodes] at deleted
      split at deleted
      · cases deleted
        simp
      · rcases Option.map_eq_some_iff.1 deleted with ⟨rest, inner, rfl⟩
        intro pointer mem
        rcases List.mem_append.1 mem with now | later
        · exact ⟨node, now⟩
        · exact ih inner pointer later

theorem hashDeleteItemFunc_table (bucket : Item) :
    .table ∉ hashDeleteItemFunc null hash bucket := by
  rw [hashDeleteItemFunc]
  split <;> simp

theorem hashtableDelete_table {fuel count : Nat}
    {freed : List (Pointer Item Block)}
    (deleted : hashtableDelete null hash fuel count = some freed) :
    .table ∉ freed := by
  induction count generalizing freed with
  | zero =>
    cases deleted
    simp
  | succ count ih =>
    rcases Option.bind_eq_some_iff.1 deleted with ⟨before, earlier, rest⟩
    rcases Option.bind_eq_some_iff.1 rest with ⟨bucket, now, same⟩
    cases same
    intro mem
    rcases List.mem_append.1 mem with old | new
    · exact ih earlier old
    · rcases deleteNodes_mem now _ new with ⟨item, freed⟩
      exact hashDeleteItemFunc_table item freed

/-- `hash_free` never frees the array of bucket pointers. -/
theorem hashFree_never_once (nbpow : Nat) (dl : DataList Block)
    (freed released : List (Pointer Item Block)) :
    ¬ ReleasesOnce null hash nbpow dl freed released := by
  rintro ⟨⟨fuel, returned⟩, -, member, -⟩
  rcases Option.bind_eq_some_iff.1 returned with ⟨items, first, rest⟩
  rcases Option.bind_eq_some_iff.1 rest with ⟨blocks, second, rest⟩
  rcases Option.bind_eq_some_iff.1 rest with ⟨buckets, third, same⟩
  cases same
  have notItems : .table ∉ items := by
    intro inItems
    rcases deleteNodes_mem first _ inItems with ⟨item, freed⟩
    exact hashDeleteItemFunc_table item freed
  have notBlocks : .table ∉ blocks := by
    intro inBlocks
    rcases deleteNodes_mem second _ inBlocks with ⟨block, freed⟩
    simp [hashDeleteDataFunc] at freed
  simp [notItems, notBlocks, hashtableDelete_table third] at member

end Free

/-- `hash_free` of a new table with two buckets frees the head of the first
bucket twice and leaves the table and the last item of the pool. -/
theorem hashFree_frees_head_twice :
    hashFree 0 twoBuckets 1 ⟨some 1, fun _ => none⟩ 4 =
      some [.item 10, .item 11, .item 12, .hashList, .dataList,
        .item 0, .item 100, .item 1, .item 101, .item 0, .hash] := by
  decide +kernel

/-! ## The end of `lf_hash_add` -/

section Add

variable [DecidableEq Tid] [DecidableEq Item] [DecidableEq Block] {nbpow : Nat}
  {tid : Tid} {hash after : HashState Tid Item Block} {pc : HashPc Item Block}
  {goal : HashState Tid Item Block → HashPc Item Block → Prop}

/-- A call of `lf_hash_add` that nobody disturbs returns. -/
def AddReturns (nbpow : Nat) (thread : Tid) (hash : HashState Tid Item Block)
    (hdata : Block) (key val : Atom) :
    Prop :=
  ∃ called, hashCall thread hash (.add hdata key val) = some called ∧
    (hashMachine nbpow).Leads thread .run (fun _ pc => pc = .idle)
      called.shared called.thread

/-- `hashlist_pop` has an item to give. -/
def PoolGives (hash : HashState Tid Item Block) : Prop :=
  ∃ item, hash.he = some item ∧ hash.next item ≠ none

/-- A step of a call is the only one its thread can take. -/
theorem leads_step {outcome : HashOutcome Tid Item Block} (busy : pc ≠ .idle)
    (step : (hashMachine nbpow).step tid .run hash pc = some outcome)
    (rest : (hashMachine nbpow).Leads tid .run goal outcome.shared
      outcome.thread) :
    (hashMachine nbpow).Leads tid .run goal hash pc := by
  refine .step ⟨outcome, step⟩ ?_
  intro action other moved
  cases action with
  | run =>
    rw [step] at moved
    cases moved
    exact rest
  | _ => cases pc <;> first | exact absurd rfl busy | cases moved

theorem hashMachine_addStep {outcome : HashOutcome Tid Item Block}
    (added : addStep nbpow tid hash pc = some outcome) :
    (hashMachine nbpow).step tid .run hash pc = some outcome := by
  cases pc <;>
    first
      | (cases added; done)
      | simp [hashMachine, popStep, added]

omit [DecidableEq Tid] [DecidableEq Item] [DecidableEq Block] in
theorem loadNext_some {item following : Item} {place : Item → HashPc Item Block}
    (link : hash.next item = some following) :
    loadNext hash item place = some ⟨hash, place following, []⟩ := by
  rw [loadNext, link]
  rfl

variable {call : Adding Block} {hItem hPrev prevNext following : Item}

/-- `hashlist_pop` with an item to give. -/
theorem leads_pop (he : hash.he = some hItem)
    (more : hash.next hItem = some following)
    (rest : (hashMachine nbpow).Leads tid .run goal
      { hash with he := some following, itemNum := hash.itemNum - 1 }
      (.readHead call hItem)) :
    (hashMachine nbpow).Leads tid .run goal hash (.popLoad call) := by
  have cas : (hashMachine nbpow).step tid .run hash
      (.popCas call hItem (some following)) =
      some ⟨{ hash with he := some following }, .popCount call hItem, []⟩ := by
    simp [hashMachine, popStep, he, silent]
  refine leads_step (by simp) rfl ?_
  show Machine.Leads _ _ _ _ hash (HashPc.popTest call hash.he)
  rw [he]
  refine leads_step (by simp) rfl ?_
  show Machine.Leads _ _ _ _ hash (if hash.next hItem = none then _ else _)
  rw [if_neg (by simp [more])]
  refine leads_step (by simp) rfl ?_
  show Machine.Leads _ _ _ _ hash (HashPc.popCas call hItem _)
  rw [more]
  exact leads_step (by simp) cas (leads_step (by simp) rfl rest)

/-- What a call leaves alone once it has its item: the pool, the links of the
items that it does not touch, and the blocks that are not allocated. -/
structure Settles (hash after : HashState Tid Item Block)
    (touched : List Item) : Prop where
  he : after.he = hash.he
  next : ∀ item, item ∉ touched → after.next item = hash.next item
  live : ∀ block, after.live block = true → hash.live block = true

/-- The call of the thread is on its way to its return. -/
def Finishes (nbpow : Nat) (thread : Tid) (hash : HashState Tid Item Block)
    (touched : List Item) :
    HashState Tid Item Block → HashPc Item Block → Prop :=
  (hashMachine nbpow).Leads thread .run fun after pc =>
    pc = .idle ∧ Settles hash after touched ∧
      ∀ pair ∈ after.seen, pair.1 ≠ thread

variable {list touched : List Item}

theorem Settles.finish {result : HashRet}
    (settles : Settles hash after touched) :
    Finishes nbpow tid hash touched after (.finish result) :=
  leads_step nofun rfl (.here ⟨rfl, ⟨settles.he, settles.next, settles.live⟩,
      by simp [hashReturn]⟩)

theorem Settles.free {block : Block} {result : HashRet}
    (settles : Settles hash after touched) :
    Finishes nbpow tid hash touched after (.freeData block hItem result) := by
  refine leads_step nofun rfl (leads_step nofun rfl (Settles.finish ?_))
  refine ⟨settles.he, settles.next, ?_⟩
  intro other live
  by_cases same : other = block
  · subst same
    simp at live
  · apply settles.live other
    simpa [same] using live

theorem Settles.link (settles : Settles hash after touched)
    (link : after.next hPrev = some prevNext) (apart : hItem ≠ hPrev)
    (item : hItem ∈ touched) (prev : hPrev ∈ touched) :
    Finishes nbpow tid hash touched after
      (.storeNext call hItem hPrev prevNext) := by
  refine leads_step nofun rfl ?_
  have same : update after.next hItem (some prevNext) hPrev =
      some prevNext := by
    rw [update_of_ne apart.symm, link]
  refine leads_step nofun (hashMachine_addStep (if_pos same))
    (Settles.finish ⟨settles.he, ?_, settles.live⟩)
  intro other outside
  show update (update after.next hItem _) hPrev _ other = _
  have notPrev : other ≠ hPrev := fun isPrev => outside (isPrev ▸ prev)
  have notItem : other ≠ hItem := fun isItem => outside (isItem ▸ item)
  rw [update_of_ne notPrev, update_of_ne notItem]
  exact settles.next other outside

/-- The loop over the bucket, by induction on the items ahead. -/
theorem Settles.walk (settles : Settles hash after touched)
    (links : List.IsChain (fun left right => after.next left = some right)
      (hPrev :: prevNext :: list))
    (last : ∃ ending ∈ prevNext :: list, after.nodeType ending = .endNode)
    (apart : hItem ∉ hPrev :: prevNext :: list) (item : hItem ∈ touched)
    (prev : hPrev ∈ touched)
    (within : ∀ other ∈ prevNext :: list,
      after.nodeType other ≠ .endNode → other ∈ touched) :
    Finishes nbpow tid hash touched after
      (.testType call hItem hPrev prevNext) := by
  have link : after.next hPrev = some prevNext :=
    (List.isChain_cons_cons.1 links).1
  have notPrev : hItem ≠ hPrev := fun same => apart (same ▸ .head _)
  induction list generalizing after hPrev prevNext with
  | nil =>
    rcases last with ⟨ending, mem, isEnd⟩
    rw [List.mem_singleton.1 mem] at isEnd
    refine leads_step nofun rfl ?_
    show Finishes nbpow tid hash touched after (if _ then _ else _)
    rw [if_pos isEnd]
    exact settles.link link notPrev item prev
  | cons following rest ih =>
    have again : ∀ seen,
        Settles hash { after with seen := seen } touched := fun seen =>
      ⟨settles.he, settles.next, settles.live⟩
    refine leads_step nofun rfl ?_
    show Finishes nbpow tid hash touched after (if _ then _ else _)
    split
    · exact settles.link link notPrev item prev
    · next inner =>
        refine leads_step nofun rfl (leads_step nofun rfl ?_)
        show Finishes nbpow tid hash touched _ (if _ then _ else _)
        split
        · exact (again _).link link notPrev item prev
        · refine leads_step nofun rfl (leads_step nofun rfl ?_)
          show Finishes nbpow tid hash touched _ (if _ then _ else _)
          split
          · rcases List.isChain_cons_cons.1 links with ⟨-, behind⟩
            have onward := (List.isChain_cons_cons.1 behind).1
            refine leads_step nofun (hashMachine_addStep
              (loadNext_some onward)) (ih (again _) behind ?_ ?_ ?_ ?_
              onward ?_)
            · rcases last with ⟨ending, mem, isEnd⟩
              rcases List.mem_cons.1 mem with rfl | ahead
              · exact absurd isEnd inner
              · exact ⟨ending, ahead, isEnd⟩
            · exact fun mem => apart (.tail _ mem)
            · exact within prevNext (.head _) inner
            · exact fun other mem => within other (.tail _ mem)
            · exact fun same => apart (same ▸ .tail _ (.head _))
          · refine leads_step nofun rfl (leads_step nofun rfl ?_)
            show Finishes nbpow tid hash touched _ (if _ then _ else _)
            split
            · exact (again _).free
            · exact leads_step nofun rfl (leads_step nofun
                (hashMachine_addStep (if_pos rfl))
                (Settles.free ⟨settles.he, settles.next, settles.live⟩))

variable {pcs : Tid → HashPc Item Block} {items : Int → List Item}
  {cells : List Item} {hdata : Block} {key val : Atom}

/-- A call that gets an item returns, and takes only this item from the
pool. -/
theorem HashInv.add_finishes
    (inv : HashInv nbpow hash pcs items (hItem :: cells))
    (more : hash.next hItem = some following) (free : hash.live hdata = false)
    (unseen : hdata ∉ hash.seen.map Prod.snd) :
    ∃ called touched, hashCall tid hash (.add hdata key val) = some called ∧
      (∀ cell ∈ cells, cell ∉ touched) ∧
      Finishes nbpow tid
        { hash with
          he := some following
          live := update hash.live hdata true } touched
        called.shared called.thread := by
  have inTable := inv.inTable key
  rcases inv.bucketList inTable with ⟨ending, bucket⟩
  have he : hash.he = some hItem := inv.item.pool.1
  have own := inv.item.poolApart hItem (.head _)
  have inner : hash.nodeType hItem = .iNode :=
    inv.item.poolType hItem (.head _) (by simp [more])
  refine ⟨_, hItem :: hash.table (bucketIndex nbpow key) ::
    items (bucketIndex nbpow key), if_pos ⟨free, unseen⟩, ?_, ?_⟩
  · intro cell mem touched
    rcases List.mem_cons.1 touched with rfl | touched
    · exact (List.nodup_cons.1 inv.item.pool.nodup).1 mem
    · rcases inv.item.poolApart cell (.tail _ mem) with ⟨inside, heads⟩
      rcases List.mem_cons.1 touched with isHead | touched
      · exact heads _ inTable isHead
      · exact inside _ touched
  · refine leads_pop he more ?_
    have links := bucket.links
    cases split : items (bucketIndex nbpow key) ++ [ending] with
    | nil => simp at split
    | cons first rest =>
      rw [split] at links
      have front := (List.isChain_cons_cons.1 links).1
      have members : ∀ {other}, other ∈ first :: rest ↔
          other ∈ items (bucketIndex nbpow key) ∨ other = ending := by
        intro other
        rw [← split]
        simp
      refine leads_step nofun (hashMachine_addStep (loadNext_some front))
        (leads_step nofun rfl (Settles.walk ⟨rfl, fun _ _ => rfl,
          fun _ => id⟩ links ⟨ending, members.2 (.inr rfl),
            bucket.endType⟩ ?_ (.head _) (.tail _ (.head _)) ?_))
      · intro mem
        rcases List.mem_cons.1 mem with isHead | mem
        · exact own.2 _ inTable isHead
        · rcases members.1 mem with inside | rfl
          · exact own.1 _ inside
          · exact absurd (inner.symm.trans bucket.endType) nofun
      · intro other mem notEnd
        rcases members.1 mem with inside | rfl
        · exact .tail _ (.tail _ inside)
        · exact absurd bucket.endType notEnd

theorem pop_never_returns (empty : ¬ PoolGives hash)
    (leads : (hashMachine nbpow).Leads tid .run (fun _ pc => pc = .idle)
      hash pc)
    (waits : pc = .popLoad call ∨ pc = .popTest call hash.he) : False := by
  generalize same : hash = memory at leads
  induction leads with
  | here reached => rcases waits with rfl | rfl <;> cases reached
  | step enabled next ih =>
    subst same
    rcases waits with rfl | rfl
    · exact ih .run ⟨hash, .popTest call hash.he, []⟩ rfl (.inr rfl) rfl
    · refine ih .run ⟨hash, .popLoad call, []⟩ ?_ (.inl rfl) rfl
      cases he : hash.he with
      | none => rfl
      | some item =>
        have last : hash.next item = none := by
          by_contra more
          exact empty ⟨item, he, more⟩
        simp [hashMachine, popStep, last, silent]

/--
On every table that `hash_new` has made, whatever the threads have done so
far, the next call of `lf_hash_add` returns exactly if the pool has an item to
give.
-/
theorem lfHashAdd_returns_iff (new : HashNew nbpow hash cells)
    {history : List (CallEvent Tid HashOp HashRet)}
    {config : Config Tid (HashState Tid Item Block) (HashPc Item Block)}
    (run : (hashMachine nbpow).Run (hashStart hash) history config)
    (free : config.shared.live hdata = false)
    (unseen : hdata ∉ config.shared.seen.map Prod.snd) :
    AddReturns nbpow tid config.shared hdata key val ↔
      PoolGives config.shared := by
  constructor
  · rintro ⟨called, isCall, leads⟩
    by_contra empty
    cases (if_pos ⟨free, unseen⟩).symm.trans isCall
    refine pop_never_returns ?_ leads (.inl rfl)
    rintro ⟨item, he, more⟩
    exact empty ⟨item, he, more⟩
  · rintro ⟨item, he, more⟩
    rcases new.run_inv run with ⟨items, cells, inv⟩
    rcases Option.ne_none_iff_exists'.1 more with ⟨following, link⟩
    rcases (he ▸ inv.item.pool).exists_cons with ⟨rest, rfl, -⟩
    rcases inv.add_finishes link free unseen with
      ⟨called, touched, isCall, -, leads⟩
    exact ⟨called, isCall, leads.trans fun _ _ reached => .here reached.1⟩

end Add

/-- On a new table with three items to give. -/
theorem lfHashAdd_returns_iff_new :
    PoolGives twoBuckets ∧ AddReturns 1 true twoBuckets 7 5 9 := by
  have gives : PoolGives twoBuckets := ⟨10, rfl, by decide⟩
  exact ⟨gives, (lfHashAdd_returns_iff twoBuckets_new .nil rfl
    (List.not_mem_nil)).2 gives⟩

/-! ### The pool runs out -/

section RunsOut

variable {Item : Type} [DecidableEq Item]

/-- Nobody searches. -/
def addsOnly : Guard Unit (HashAction Nat) (HashState Unit Item Nat)
    (HashPc Item Nat) :=
  fun _ _ action => ∀ key, action ≠ .search key

variable {nbpow : Nat} {hash : HashState Unit Item Nat} {cells : List Item}

theorem HashNew.exists_drop (new : HashNew nbpow hash cells)
    (unused : ∀ block, hash.live block = false) (count : Nat)
    (enough : count < cells.length) :
    ∃ history config,
      (hashMachine nbpow).RunWhere addsOnly (hashStart hash) history config ∧
        config.threads () = .idle ∧ config.shared.seen = [] ∧
        Linked config.shared.next config.shared.he (cells.drop count) ∧
        ∀ block, config.shared.live block = true → block < count := by
  induction count with
  | zero =>
    exact ⟨[], hashStart hash, .nil, rfl, new.unseen, new.pool,
      by simp [hashStart, unused]⟩
  | succ count ih =>
    rcases ih (by omega) with ⟨history, config, run, idle, seen, pool, live⟩
    rcases new.run_inv run.toRun with ⟨items, others, inv⟩
    have same := inv.item.pool.unique pool
    rw [List.drop_eq_getElem_cons (by omega)] at same pool
    subst same
    generalize cells[count] = item at inv pool
    have tail := pool.2
    cases rest : cells.drop (count + 1) with
    | nil =>
      have short := congrArg List.length rest
      simp at short
      omega
    | cons following others =>
      have link : config.shared.next item = some following := by
        rw [rest] at tail
        exact tail.1
      have free : config.shared.live count = false := by
        by_contra alive
        exact Nat.lt_irrefl _ (live count (by simpa using alive))
      rcases inv.add_finishes link free (by simp [seen]) with
        ⟨called, touched, isCall, apart, leads⟩
      have step : (hashMachine nbpow).step ()
          (.add count 0 0) config.shared (config.threads ()) =
          some called := by
        rw [idle]
        exact isCall
      have running : ∀ config : Config Unit (HashState Unit Item Nat)
          (HashPc Item Nat), addsOnly config () .run :=
        fun _ _ => nofun
      rcases leads.runWhere running (config.advance () called) rfl
        (by simp) with ⟨events, final, further, isIdle, settles, forgot⟩
      have calling : addsOnly config () (.add count 0 0) :=
        fun _ => nofun
      refine ⟨_, final, (run.snoc calling step).trans further, isIdle,
        ?_, ?_, ?_⟩
      · exact List.eq_nil_iff_forall_not_mem.2 fun pair mem =>
          forgot pair mem rfl
      · rw [← rest, settles.he, ← link]
        exact tail.congr fun cell mem =>
          settles.next cell (apart cell mem)
      · intro block alive
        by_cases isNew : block = count
        · omega
        · have before := settles.live block alive
          simp only [update_of_ne isNew] at before
          exact Nat.lt_succ_of_lt (live block before)

end RunsOut

/-- `MAX_HASH_LIST_NUM`. -/
def maxHashListNum : Nat := 30000000

/-- Memory that holds zeros. -/
def cleared : HashState Unit Nat Nat :=
  { next := fun _ => none
    data := fun _ => 0
    nodeType := fun _ => .headNode
    key := fun _ => ⟨0, Nat.two_pow_pos 64⟩
    val := fun _ => ⟨0, Nat.two_pow_pos 64⟩
    table := fun _ => 0
    he := none
    itemNum := 0
    live := fun _ => false
    seen := [] }

theorem hashNew_live {Tid Item Block : Type} [DecidableEq Item]
    (nodes : List (BucketNodes Item)) (first : Item) (elements : List Item)
    (hash : HashState Tid Item Block) :
    (hashNew nodes first elements hash).live = hash.live := by
  have table : ∀ loop (hash : HashState Tid Item Block),
      (initHashTable loop nodes hash).live = hash.live := by
    induction nodes with
    | nil => exact fun _ _ => rfl
    | cons node rest ih => exact fun loop hash => ih (loop + 1) _
  have pool : ∀ hash : HashState Tid Item Block,
      (elements.foldl hashlistNewElement hash).live = hash.live := by
    induction elements with
    | nil => exact fun _ => rfl
    | cons he rest ih => exact fun hash => ih _
  exact (pool _).trans (table 0 hash)

/-- On a table with one bucket, calls of `lf_hash_add` alone empty the pool,
and then no further call returns. -/
theorem lfHashAdd_runs_out : ∃ history config, (hashMachine 0).RunWhere addsOnly
          (hashStart (hashNew [⟨0, 1⟩] 2 (List.range' 3 maxHashListNum)
            cleared)) history config ∧
        config.threads () = .idle ∧
        ∀ hdata key val, config.shared.live hdata = false →
          ¬ AddReturns 0 () config.shared hdata key val := by
  generalize maxHashListNum = size
  have new : HashNew 0 (hashNew [⟨0, 1⟩] 2 (List.range' 3 size) cleared)
      ((List.range' 3 size).reverse ++ [2]) := by
    refine HashNew.of_hashNew (by decide) (by decide) ?_ rfl rfl
    simp [bucketItems, List.nodup_append, List.nodup_range']
    omega
  rcases new.exists_drop (fun _ => by rw [hashNew_live]; rfl) size (by simp)
    with ⟨history, config, run, idle, seen, pool, -⟩
  refine ⟨history, config, run, idle, ?_⟩
  intro hdata key val free returns
  rcases (lfHashAdd_returns_iff new run.toRun free (by simp [seen])).1 returns
    with ⟨item, he, more⟩
  have last : ((List.range' 3 size).reverse ++ [2]).drop size = [2] := by
    simp
  rw [last, he] at pool
  rcases pool with ⟨⟨⟩, ending⟩
  exact more ending

end Lockfreec.Advance.HashMap
