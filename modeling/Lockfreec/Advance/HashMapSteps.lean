import Lockfreec.Advance.HashMapInvariant

/-!
# The steps of the hash map

What a thread knows at each of its program points, which of it the steps of
other threads leave alone, and how every step keeps the invariants of the
items and of the blocks.
-/

namespace Lockfreec.Advance.HashMap

open Function Lib.Chain Lib.Interleaving Lib.SortedChain
open ItemInv

variable {Tid Item Block : Type}

/-! ## What a thread has -/

/-- The call of a thread whose block has not been linked yet. -/
def HashPc.adding : HashPc Item Block → Option (Adding Block)
  | .popLoad call | .popTest call _ | .popNext call _ | .popCas call _ _
  | .popCount call _ | .readHead call _ | .storeData call _ _ _
  | .testType call _ _ _ | .greaterData call _ _ _ | .greaterKey call _ _ _ _
  | .lessData call _ _ _ | .lessKey call _ _ _ _ | .readNext call _ _
  | .storeNext call _ _ _ | .linkCas call _ _ _ | .valData call _ _
  | .valTest call _ _ _ | .replaceLoad call _ _ | .replaceCas call _ _ _ =>
    some call
  | _ => none

/-- The item that a thread has taken from the pool and not linked yet. -/
def HashPc.item : HashPc Item Block → Option Item
  | .popCount _ hItem | .readHead _ hItem | .storeData _ hItem _ _
  | .testType _ hItem _ _ | .greaterData _ hItem _ _ | .greaterKey _ hItem _ _ _
  | .lessData _ hItem _ _ | .lessKey _ hItem _ _ _ | .readNext _ hItem _
  | .storeNext _ hItem _ _ | .linkCas _ hItem _ _ | .valData _ hItem _
  | .valTest _ hItem _ _ | .replaceLoad _ hItem _ | .replaceCas _ hItem _ _ =>
    some hItem
  | _ => none

/-- The block that a thread may free. -/
def HashPc.owned : HashPc Item Block → Option Block
  | .freeData block _ _ => some block
  | pc => pc.adding.map Adding.hdata

/-- The block whose key or value a thread reads next. -/
def HashPc.pointer : HashPc Item Block → Option Block
  | .greaterKey _ _ _ _ block | .lessKey _ _ _ _ block | .valTest _ _ _ block
  | .searchGreaterKey _ _ block | .searchLessKey _ _ block => some block
  | _ => none

theorem owned_of_adding {pc : HashPc Item Block} {call : Adding Block}
    (adding : pc.adding = some call) : pc.owned = some call.hdata := by
  cases pc <;> simp_all [HashPc.adding, HashPc.owned]

/-! ## What a thread knows -/

section

variable (nbpow : Nat) (hash : HashState Tid Item Block)
  (items : Int → List Item) (cells : List Item)

/-- The block of a call still has the key and the value of the call. -/
def CallOk (pc : HashPc Item Block) : Prop :=
  ∀ call, pc.adding = some call →
    hash.key call.hdata = call.key ∧ hash.val call.hdata = call.val

/-- The end of the bucket, or an item of it. -/
def AtNext (index : Int) (prevNext : Item) : Prop :=
  hash.nodeType prevNext = .endNode ∨ prevNext ∈ items index

/-- The place of an item between two neighbours of the bucket. -/
def Between (call : Adding Block) (hItem hPrev : Item) : Prop :=
  hash.data hItem = call.hdata ∧
    AtPrev hash items (bucketIndex nbpow call.key) call.key hPrev

/-- What a thread knows of the buckets and of the pool. -/
def PlaceOk : HashPc Item Block → Prop
  | .popNext _ heCmp => heCmp ∈ cells → hash.next heCmp ≠ none
  | .popCas _ heCmp next => heCmp ∈ cells →
      next = hash.next heCmp ∧ hash.next heCmp ≠ none
  | .storeData call _ hPrev prevNext =>
    AtPrev hash items (bucketIndex nbpow call.key) call.key hPrev ∧
      AtNext hash items (bucketIndex nbpow call.key) prevNext
  | .testType call hItem hPrev prevNext =>
    Between nbpow hash items call hItem hPrev ∧
      AtNext hash items (bucketIndex nbpow call.key) prevNext
  | .greaterData call hItem hPrev prevNext =>
    Between nbpow hash items call hItem hPrev ∧
      prevNext ∈ items (bucketIndex nbpow call.key)
  | .greaterKey call hItem hPrev prevNext block =>
    Between nbpow hash items call hItem hPrev ∧
      prevNext ∈ items (bucketIndex nbpow call.key) ∧
      hash.key block = itemKey hash prevNext
  | .lessData call hItem _ prevNext =>
    hash.data hItem = call.hdata ∧
      prevNext ∈ items (bucketIndex nbpow call.key) ∧
      itemKey hash prevNext ≤ call.key
  | .lessKey call hItem _ prevNext block =>
    hash.data hItem = call.hdata ∧
      prevNext ∈ items (bucketIndex nbpow call.key) ∧
      itemKey hash prevNext ≤ call.key ∧
      hash.key block = itemKey hash prevNext
  | .readNext call hItem prevNext =>
    hash.data hItem = call.hdata ∧
      prevNext ∈ items (bucketIndex nbpow call.key) ∧
      itemKey hash prevNext < call.key
  | .storeNext call hItem hPrev prevNext =>
    Between nbpow hash items call hItem hPrev ∧
      Beyond hash items (bucketIndex nbpow call.key) call.key prevNext
  | .linkCas call hItem hPrev prevNext =>
    Between nbpow hash items call hItem hPrev ∧
      Beyond hash items (bucketIndex nbpow call.key) call.key prevNext ∧
      hash.next hItem = some prevNext
  | .valData call _ prevNext | .valTest call _ prevNext _
  | .replaceLoad call _ prevNext | .replaceCas call _ prevNext _ =>
    prevNext ∈ items (bucketIndex nbpow call.key) ∧
      itemKey hash prevNext = call.key
  | .searchType key bucket =>
    AtNext hash items (bucketIndex nbpow key) bucket
  | .searchGreaterData key bucket => bucket ∈ items (bucketIndex nbpow key)
  | .searchGreaterKey key bucket block =>
    bucket ∈ items (bucketIndex nbpow key) ∧
      hash.key block = itemKey hash bucket
  | .searchLessData key bucket =>
    bucket ∈ items (bucketIndex nbpow key) ∧ itemKey hash bucket ≤ key
  | .searchLessKey key bucket block =>
    bucket ∈ items (bucketIndex nbpow key) ∧
      itemKey hash bucket ≤ key ∧ hash.key block = itemKey hash bucket
  | .searchNext key bucket =>
    bucket ∈ items (bucketIndex nbpow key) ∧ itemKey hash bucket < key
  | _ => True

end

/-! ## What the other threads leave alone -/

/-- The buckets only grow, the pool only shrinks, and what a thread has or
has seen stays as it is. -/
structure Stays (hash after : HashState Tid Item Block)
    (items grown : Int → List Item) (cells left : List Item)
    (pc : HashPc Item Block) : Prop where
  sameType : after.nodeType = hash.nodeType
  sameTable : after.table = hash.table
  grows : ∀ {index item}, item ∈ items index → item ∈ grown index
  sameKey : ∀ {index item}, item ∈ items index →
    itemKey after item = itemKey hash item
  sameBlock : ∀ {block}, pc.owned = some block ∨ pc.pointer = some block →
    after.key block = hash.key block ∧ after.val block = hash.val block
  shrinks : ∀ {item}, item ∈ left →
    item ∈ cells ∧ after.next item = hash.next item
  sameItem : ∀ {item}, pc.item = some item →
    after.data item = hash.data item ∧ after.next item = hash.next item

namespace Stays

variable {hash after : HashState Tid Item Block} {items grown : Int → List Item}
  {cells left : List Item} {pc : HashPc Item Block} {nbpow : Nat} {index : Int}
  {label : Atom} {item : Item} {call : Adding Block}

variable (stays : Stays hash after items grown cells left pc)

include stays

theorem callOk (ok : CallOk hash pc) : CallOk after pc := by
  intro call adding
  have same := stays.sameBlock (.inl (owned_of_adding adding))
  rw [same.1, same.2]
  exact ok call adding

theorem atPrev (before : AtPrev hash items index label item) :
    AtPrev after grown index label item := by
  rcases before with isHead | ⟨mem, less⟩
  · exact .inl (by rw [stays.sameTable, isHead])
  · exact .inr ⟨stays.grows mem, by rwa [stays.sameKey mem]⟩

theorem atNext (before : AtNext hash items index item) :
    AtNext after grown index item := by
  rcases before with isEnd | mem
  · exact .inl (by rw [stays.sameType, isEnd])
  · exact .inr (stays.grows mem)

theorem beyond (before : Beyond hash items index label item) :
    Beyond after grown index label item := by
  rcases before with isEnd | ⟨mem, less⟩
  · exact .inl (by rw [stays.sameType, isEnd])
  · exact .inr ⟨stays.grows mem, by rwa [stays.sameKey mem]⟩

theorem between {hPrev : Item} (held : pc.item = some item)
    (before : Between nbpow hash items call item hPrev) :
    Between nbpow after grown call item hPrev :=
  ⟨(stays.sameItem held).1.trans before.1, stays.atPrev before.2⟩

theorem placeOk (ok : PlaceOk nbpow hash items cells pc) :
    PlaceOk nbpow after grown left pc := by
  cases pc with
  | popNext | popCas =>
    intro mem
    rcases stays.shrinks mem with ⟨wasCell, same⟩
    rw [same]
    exact ok wasCell
  | storeData call hItem hPrev prevNext =>
    exact ⟨stays.atPrev ok.1, stays.atNext ok.2⟩
  | testType call hItem hPrev prevNext =>
    exact ⟨stays.between rfl ok.1, stays.atNext ok.2⟩
  | greaterData call hItem hPrev prevNext =>
    exact ⟨stays.between rfl ok.1, stays.grows ok.2⟩
  | greaterKey call hItem hPrev prevNext block =>
    rcases ok with ⟨place, mem, same⟩
    refine ⟨stays.between rfl place, stays.grows mem, ?_⟩
    rw [stays.sameKey mem, (stays.sameBlock (.inr rfl)).1, same]
  | lessData call hItem hPrev prevNext =>
    rcases ok with ⟨data, mem, least⟩
    refine ⟨(stays.sameItem rfl).1.trans data, stays.grows mem, ?_⟩
    rwa [stays.sameKey mem]
  | lessKey call hItem hPrev prevNext block =>
    rcases ok with ⟨data, mem, least, same⟩
    refine ⟨(stays.sameItem rfl).1.trans data, stays.grows mem, ?_⟩
    rw [stays.sameKey mem, (stays.sameBlock (.inr rfl)).1]
    exact ⟨least, same⟩
  | readNext call hItem prevNext =>
    rcases ok with ⟨data, mem, less⟩
    refine ⟨(stays.sameItem rfl).1.trans data, stays.grows mem, ?_⟩
    rwa [stays.sameKey mem]
  | storeNext call hItem hPrev prevNext =>
    exact ⟨stays.between rfl ok.1, stays.beyond ok.2⟩
  | linkCas call hItem hPrev prevNext =>
    exact ⟨stays.between rfl ok.1, stays.beyond ok.2.1,
      (stays.sameItem rfl).2.trans ok.2.2⟩
  | valData | valTest | replaceLoad | replaceCas =>
    exact ⟨stays.grows ok.1, (stays.sameKey ok.1).trans ok.2⟩
  | searchType key bucket => exact stays.atNext ok
  | searchGreaterData key bucket => exact stays.grows ok
  | searchGreaterKey key bucket block =>
    refine ⟨stays.grows ok.1, ?_⟩
    rw [stays.sameKey ok.1, (stays.sameBlock (.inr rfl)).1, ok.2]
  | searchLessData | searchNext =>
    refine ⟨stays.grows ok.1, ?_⟩
    rw [stays.sameKey ok.1]
    exact ok.2
  | searchLessKey key bucket block =>
    refine ⟨stays.grows ok.1, ?_⟩
    rw [stays.sameKey ok.1, (stays.sameBlock (.inr rfl)).1]
    exact ok.2
  | _ => trivial

end Stays

/-! ## The invariant -/

structure HashInv (nbpow : Nat) (hash : HashState Tid Item Block)
    (pcs : Tid → HashPc Item Block) (items : Int → List Item)
    (cells : List Item) : Prop where
  small : nbpow ≤ 30
  item : ItemInv nbpow hash (fun thread => (pcs thread).item) items cells
  block : BlockInv hash (fun thread => (pcs thread).owned)
    (fun thread => (pcs thread).pointer) items
  calls : ∀ thread, CallOk hash (pcs thread)
  places : ∀ thread, PlaceOk nbpow hash items cells (pcs thread)

/-- A step keeps the invariant, and the other threads what they know. -/
structure Advances [DecidableEq Tid] (nbpow : Nat)
    (hash : HashState Tid Item Block) (pcs : Tid → HashPc Item Block)
    (items : Int → List Item) (cells : List Item) (thread : Tid)
    (after : HashState Tid Item Block) (pc : HashPc Item Block)
    (grown : Int → List Item) (left : List Item) : Prop where
  inv : HashInv nbpow after (update pcs thread pc) grown left
  stays : ∀ other, other ≠ thread →
    Stays hash after items grown cells left (pcs other)

/-- What a thread takes along to its next program point. -/
def Keeps (old pc : HashPc Item Block) : Prop :=
  (pc.item = none ∨ pc.item = old.item) ∧
    (pc.owned = none ∨ pc.owned = old.owned) ∧
    (pc.adding = none ∨ pc.adding = old.adding)

theorem Keeps.of_eq {old pc : HashPc Item Block}
    (same : (pc.item, pc.owned, pc.adding) =
      (old.item, old.owned, old.adding)) : Keeps old pc := by
  simp only [Prod.mk.injEq] at same
  exact ⟨.inr same.1, .inr same.2.1, .inr same.2.2⟩

/-- A step that stores at most into one item and sees blocks. -/
structure Confined (hash after : HashState Tid Item Block)
    (hand : Option Item) : Prop where
  sameType : after.nodeType = hash.nodeType
  sameTable : after.table = hash.table
  sameHe : after.he = hash.he
  sameKey : after.key = hash.key
  sameVal : after.val = hash.val
  sameLive : after.live = hash.live
  sameNext : ∀ item, hand ≠ some item → after.next item = hash.next item
  sameData : ∀ item, hand ≠ some item → after.data item = hash.data item
  more : ∀ pair ∈ hash.seen, pair ∈ after.seen

theorem Confined.refl (hash : HashState Tid Item Block)
    (hand : Option Item) : Confined hash hash hand :=
  ⟨rfl, rfl, rfl, rfl, rfl, rfl, fun _ _ => rfl, fun _ _ => rfl,
    fun _ mem => mem⟩

theorem Confined.see (hash : HashState Tid Item Block) (hand : Option Item)
    (pair : Tid × Block) :
    Confined hash { hash with seen := pair :: hash.seen } hand :=
  ⟨rfl, rfl, rfl, rfl, rfl, rfl, fun _ _ => rfl, fun _ _ => rfl,
    fun _ mem => .tail _ mem⟩

namespace HashInv

variable [DecidableEq Tid] {nbpow : Nat} {hash after : HashState Tid Item Block}
  {pcs : Tid → HashPc Item Block} {items grown : Int → List Item}
  {cells left : List Item} {tid : Tid} {old pc : HashPc Item Block}
  {call : Adding Block} {hItem hPrev prevNext : Item} {block : Block}

section

variable (inv : HashInv nbpow hash pcs items cells)

include inv

theorem advances (item : ItemInv nbpow after
      (update (fun tid => (pcs tid).item) tid pc.item)
      grown left)
    (block : BlockInv after (update (fun tid => (pcs tid).owned) tid pc.owned)
      (update (fun tid => (pcs tid).pointer) tid pc.pointer) grown)
    (stays : ∀ other, other ≠ tid →
      Stays hash after items grown cells left (pcs other))
    (callOk : CallOk after pc)
    (placeOk : PlaceOk nbpow after grown left pc) :
    Advances nbpow hash pcs items cells tid after pc grown left where
  inv := {
    small := inv.small
    item := by
      rw [field_update HashPc.item]
      exact item
    block := by
      rw [field_update HashPc.owned, field_update HashPc.pointer]
      exact block
    calls := forall_update _ callOk fun other ne =>
      (stays other ne).callOk (inv.calls other)
    places := forall_update _ placeOk fun other ne =>
      (stays other ne).placeOk (inv.places other) }
  stays := stays

omit [DecidableEq Tid] in
theorem linked_not_held {index : Int} {item : Item} (mem : item ∈ items index) :
    (pcs tid).item ≠ some item :=
  fun held => (inv.item.held held).2.2 index mem

omit [DecidableEq Tid] in
theorem held_apart {other : Tid} {item : Item} (ne : other ≠ tid)
    (held : (pcs other).item = some item) :
    (pcs tid).item ≠ some item :=
  fun ownHeld => ne (inv.item.heldOnce held ownHeld)

theorem confined (here : pcs tid = old) (state : Confined hash after old.item)
    (keeps : Keeps old pc)
    (pointing : ∀ block, pc.pointer = some block → (tid, block) ∈ after.seen)
    (placeOk : PlaceOk nbpow after items cells pc) :
    Advances nbpow hash pcs items cells tid after pc items cells := by
  subst here
  have sameData : ∀ index, ∀ item ∈ items index,
      after.data item = hash.data item :=
    fun index item mem => state.sameData item (inv.linked_not_held mem)
  have sameKey : ∀ index, ∀ item ∈ items index,
      itemKey after item = itemKey hash item := by
    intro index item mem
    rw [itemKey, sameData index item mem, state.sameKey]
    rfl
  apply inv.advances
  · exact inv.item.frame state.sameType state.sameTable state.sameHe
      state.sameNext sameKey keeps.1
  · exact inv.block.frame sameData state.sameLive keeps.2.1 state.more pointing
  · intro other ne
    exact {
      sameType := state.sameType
      sameTable := state.sameTable
      grows := fun mem => mem
      sameKey := fun mem => sameKey _ _ mem
      sameBlock := fun _ => by rw [state.sameKey, state.sameVal]; simp
      shrinks := fun mem => ⟨mem, state.sameNext _ fun held =>
        (inv.item.held held).2.1 mem⟩
      sameItem := fun held =>
        ⟨state.sameData _ (inv.held_apart ne held),
          state.sameNext _ (inv.held_apart ne held)⟩ }
  · intro call adding
    rw [state.sameKey, state.sameVal]
    rcases keeps.2.2 with none | same
    · rw [none] at adding
      cases adding
    · exact inv.calls tid call (same ▸ adding)
  · exact placeOk

theorem move (here : pcs tid = old) (keeps : Keeps old pc)
    (pointer : pc.pointer = none)
    (placeOk : PlaceOk nbpow hash items cells pc) :
    Advances nbpow hash pcs items cells tid hash pc items cells := by
  apply inv.confined here (.refl _ _) keeps _ placeOk
  intro block pointed
  rw [pointer] at pointed
  cases pointed

theorem look (here : pcs tid = old) (keeps : Keeps old pc)
    (pointer : pc.pointer = none ∨ pc.pointer = some block)
    (placeOk : PlaceOk nbpow
      { hash with seen := (tid, block) :: hash.seen } items cells pc) :
    Advances nbpow hash pcs items cells tid
      { hash with seen := (tid, block) :: hash.seen } pc items cells := by
  apply inv.confined here (.see _ _ _) keeps _ placeOk
  intro other pointed
  rcases pointer with none | isBlock
  · rw [none] at pointed
    cases pointed
  · rw [isBlock] at pointed
    cases pointed
    exact .head _

section

omit [DecidableEq Tid]

theorem inTable (key : Atom) : InTable nbpow (bucketIndex nbpow key) :=
  bucketIndex_inTable inv.small key

/-- The next item behind the head or an item of a bucket. -/
theorem next_atNext {item next : Item} (key : Atom)
    (atPrev : AtPrev hash items (bucketIndex nbpow key) key item)
    (link : hash.next item = some next) :
    AtNext hash items (bucketIndex nbpow key) next := by
  by_cases isEnd : hash.nodeType next = .endNode
  · exact .inl isEnd
  · have following := succ_eq_some.2 ⟨link, isEnd⟩
    have chain := inv.item.lists _ (inv.inTable key)
    rcases atPrev with rfl | ⟨mem, -⟩
    · exact .inr (chain.start_mem following)
    · exact .inr (chain.next_mem mem following).1

theorem placeOk (here : pcs tid = pc) : PlaceOk nbpow hash items cells pc :=
  here ▸ inv.places tid

end

end

/-! ### Taking an item from the pool -/

section Pop

variable (inv : HashInv nbpow hash pcs items cells)

include inv

theorem popCas_step {heCmp : Item} {next : Option Item}
    (here : pcs tid = .popCas call heCmp next)
    (success : hash.he = some heCmp) :
    ∃ rest, Advances nbpow hash pcs items cells tid
      { hash with he := next } (.popCount call heCmp) items rest := by
  have pool := inv.item.pool
  rw [success] at pool
  rcases pool.exists_cons with ⟨rest, rfl, -⟩
  rcases inv.placeOk here (.head _) with ⟨rfl, more⟩
  have noItem : (pcs tid).item = none := by
    rw [here]
    rfl
  refine ⟨rest, inv.advances (inv.item.pop more) ?_ ?_ ?_ trivial⟩
  · exact inv.block.frame (fun _ _ _ => rfl) rfl
      (.inr (by rw [here]; rfl)) (fun _ mem => mem)
      (by simp [HashPc.pointer])
  · intro other ne
    exact {
      sameType := rfl
      sameTable := rfl
      grows := fun mem => mem
      sameKey := fun _ => rfl
      sameBlock := fun _ => ⟨rfl, rfl⟩
      shrinks := fun mem => ⟨.tail _ mem, rfl⟩
      sameItem := fun _ => ⟨rfl, rfl⟩ }
  · intro other adding
    apply inv.calls tid
    rw [here]
    exact adding

theorem popCount_step (here : pcs tid = .popCount call hItem) :
    Advances nbpow hash pcs items cells tid
      { hash with itemNum := hash.itemNum - 1 } (.readHead call hItem)
      items cells :=
  inv.confined here ⟨rfl, rfl, rfl, rfl, rfl, rfl, fun _ _ => rfl,
      fun _ _ => rfl, fun _ mem => mem⟩
    (.of_eq rfl) (by simp [HashPc.pointer]) trivial

end Pop

/-! ### Walking along a bucket -/

section Walk

variable (inv : HashInv nbpow hash pcs items cells)

include inv

theorem storeData_step [DecidableEq Item]
    (here : pcs tid = .storeData call hItem hPrev prevNext) :
    Advances nbpow hash pcs items cells tid
      { hash with data := update hash.data hItem call.hdata }
      (.testType call hItem hPrev prevNext) items cells := by
  rcases inv.placeOk here with ⟨atPrev, atNext⟩
  have others : ∀ {item}, some hItem ≠ some item →
      update hash.data hItem call.hdata item = hash.data item := by
    intro item notHeld
    apply update_of_ne
    rintro rfl
    exact notHeld rfl
  apply inv.confined here
  · exact ⟨rfl, rfl, rfl, rfl, rfl, rfl, fun _ _ => rfl, fun _ => others,
      fun _ mem => mem⟩
  · exact .of_eq rfl
  · simp [HashPc.pointer]
  · refine ⟨⟨update_self _ _ _, ?_⟩, atNext⟩
    rcases atPrev with isHead | ⟨mem, less⟩
    · exact .inl isHead
    · refine .inr ⟨mem, ?_⟩
      change hash.key (update hash.data hItem call.hdata hPrev) < _
      have notHeld : (pcs tid).item ≠ some hPrev :=
        inv.linked_not_held mem
      rw [here] at notHeld
      rw [others notHeld]
      exact less

end Walk

/-! ### Linking -/

section Link

variable (inv : HashInv nbpow hash pcs items cells)

include inv

theorem storeNext_step [DecidableEq Item]
    (here : pcs tid = .storeNext call hItem hPrev prevNext) :
    Advances nbpow hash pcs items cells tid
      { hash with next := update hash.next hItem prevNext }
      (.linkCas call hItem hPrev prevNext) items cells := by
  rcases inv.placeOk here with ⟨between, beyond⟩
  apply inv.confined here
  · refine ⟨rfl, rfl, rfl, rfl, rfl, rfl, ?_, fun _ _ => rfl, fun _ mem => mem⟩
    intro item notHeld
    apply update_of_ne
    rintro rfl
    exact notHeld rfl
  · exact .of_eq rfl
  · simp [HashPc.pointer]
  · exact ⟨between, beyond, update_self _ _ _⟩

variable (here : pcs tid = .linkCas call hItem hPrev prevNext)

include here

omit [DecidableEq Tid] in
theorem linkCas_key : itemKey hash hItem = call.key ∧
      hash.val (hash.data hItem) = call.val := by
  rcases inv.placeOk here with ⟨between, -⟩
  rw [itemKey, between.1]
  apply inv.calls tid
  rw [here]
  rfl

omit [DecidableEq Tid] in
theorem linkCas_absent (success : hash.next hPrev = some prevNext) :
    ∀ item ∈ items (bucketIndex nbpow call.key),
      itemKey hash item ≠ call.key := by
  rcases inv.placeOk here with ⟨between, beyond, -⟩
  exact inv.item.absent (inv.inTable _) between.2 beyond success

theorem linkCas_step [DecidableEq Item]
    (success : hash.next hPrev = some prevNext) :
    ∃ grown, Advances nbpow hash pcs items cells tid
          { hash with next := update hash.next hPrev hItem }
          (.finish .add) grown cells ∧
        ∀ other each, each ∈ grown other ↔ each ∈ items other ∨
          other = bucketIndex nbpow call.key ∧ each = hItem := by
  have held : (pcs tid).item = some hItem := by
    rw [here]
    rfl
  have owned : (pcs tid).owned = some call.hdata := by
    rw [here]
    rfl
  rcases inv.placeOk here with ⟨between, beyond, own⟩
  have same := (inv.linkCas_key here).1
  rcases inv.item.link (inv.inTable call.key) held (by rw [same])
    (same.symm ▸ between.2) (same.symm ▸ beyond) own success with
    ⟨grown, item, members⟩
  refine ⟨grown, inv.advances item ?_ ?_ ?_ trivial, members⟩
  · exact inv.block.link owned between.1 members rfl rfl rfl
  · intro other ne
    have apart : ∀ {item}, item ∈ cells ∨ (pcs other).item = some item →
        item ≠ hPrev := by
      rintro item place rfl
      rcases between.2 with isHead | ⟨mem, -⟩
      · rcases place with isCell | isHeld
        · exact (inv.item.poolApart _ isCell).2 _ (inv.inTable _) isHead
        · exact inv.item.not_head (inv.inTable _)
            (inv.item.held isHeld).1 isHead
      · rcases place with isCell | isHeld
        · exact (inv.item.poolApart _ isCell).1 _ mem
        · exact inv.linked_not_held mem isHeld
    exact {
      sameType := rfl
      sameTable := rfl
      grows := fun mem => (members _ _).2 (.inl mem)
      sameKey := fun _ => rfl
      sameBlock := fun _ => ⟨rfl, rfl⟩
      shrinks := fun mem =>
        ⟨mem, update_of_ne (apart (.inl mem)) _ _⟩
      sameItem := fun isHeld =>
        ⟨rfl, update_of_ne (apart (.inr isHeld)) _ _⟩ }
  · intro other adding
    cases adding

end Link

/-! ### Replacing -/

section Replace

variable (inv : HashInv nbpow hash pcs items cells)

include inv

theorem replaceCas_step [DecidableEq Item] (here : pcs tid =
      .replaceCas call hItem prevNext (hash.data prevNext)) :
    Advances nbpow hash pcs items cells tid
      { hash with data := update hash.data prevNext call.hdata }
      (.freeData (hash.data prevNext) hItem .replace) items cells := by
  have owned : (pcs tid).owned = some call.hdata := by
    rw [here]
    rfl
  have callOk := inv.calls tid call (by rw [here]; rfl)
  rcases inv.placeOk here with ⟨mem, same⟩
  have sameKey : ∀ item, hash.key (update hash.data prevNext call.hdata item) =
        hash.key (hash.data item) := by
    intro item
    by_cases isPrevNext : item = prevNext
    · subst isPrevNext
      rw [update_self, callOk.1]
      exact same.symm
    · rw [update_of_ne isPrevNext]
  apply inv.advances
  · exact inv.item.frame rfl rfl rfl (fun _ _ => rfl)
      (fun _ item _ => sameKey item) (.inl rfl)
  · exact inv.block.replace owned mem
  · intro other ne
    exact {
      sameType := rfl
      sameTable := rfl
      grows := fun mem => mem
      sameKey := fun _ => sameKey _
      sameBlock := fun _ => ⟨rfl, rfl⟩
      shrinks := fun mem => ⟨mem, rfl⟩
      sameItem := by
        intro item held
        refine ⟨update_of_ne ?_ _ _, rfl⟩
        rintro rfl
        exact inv.linked_not_held mem held }
  · intro other adding
    cases adding
  · trivial

/-- `aligned_free` of a block that nothing points to. -/
theorem freeData_step [DecidableEq Block] {result : HashRet}
    (here : pcs tid = .freeData block hItem result) :
    Advances nbpow hash pcs items cells tid
      { hash with live := update hash.live block false }
      (.freeItem hItem result) items cells := by
  apply inv.advances
  · exact inv.item.frame rfl rfl rfl (fun _ _ => rfl) (fun _ _ _ => rfl)
      (.inl rfl)
  · exact inv.block.free (by rw [here]; rfl)
  · intro other ne
    exact ⟨rfl, rfl, fun mem => mem, fun _ => rfl,
      fun _ => ⟨rfl, rfl⟩, fun mem => ⟨mem, rfl⟩,
      fun _ => ⟨rfl, rfl⟩⟩
  · intro other adding
    cases adding
  · trivial

end Replace

/-! ### Calls and returns -/

section Calls

variable (inv : HashInv nbpow hash pcs items cells)

include inv

/-- The call of `lf_hash_add` with a block that no running call has seen. -/
theorem add_step [DecidableEq Block] {key val : Atom}
    (free : hash.live block = false) (unseen : block ∉ hash.seen.map Prod.snd) :
    Advances nbpow hash pcs items cells tid
      { hash with
        key := update hash.key block key
        val := update hash.val block val
        live := update hash.live block true
        seen := (tid, block) :: hash.seen }
      (.popLoad ⟨block, key, val⟩) items cells := by
  have notLive : ∀ {other}, hash.live other = true → other ≠ block := by
    rintro other isLive rfl
    rw [free] at isLive
    cases isLive
  have sameKey : ∀ index, ∀ item ∈ items index,
      update hash.key block key (hash.data item) =
        hash.key (hash.data item) := by
    intro index item mem
    exact update_of_ne (notLive (inv.block.linkedLive mem)) _ _
  apply inv.advances
  · exact inv.item.frame rfl rfl rfl (fun _ _ => rfl) sameKey (.inl rfl)
  · exact inv.block.allocate free rfl rfl fun _ mem => .tail _ mem
  · intro other ne
    exact {
      sameType := rfl
      sameTable := rfl
      grows := fun mem => mem
      sameKey := fun mem => sameKey _ _ mem
      sameBlock := by
        intro each has
        have apart : each ≠ block := by
          rcases has with isOwned | isPointer
          · exact notLive (inv.block.owned isOwned).1
          · rintro rfl
            exact unseen (List.mem_map.2 ⟨_, inv.block.pointed isPointer, rfl⟩)
        exact ⟨update_of_ne apart _ _, update_of_ne apart _ _⟩
      shrinks := fun mem => ⟨mem, rfl⟩
      sameItem := fun _ => ⟨rfl, rfl⟩ }
  · intro call adding
    cases adding
    exact ⟨update_self _ _ _, update_self _ _ _⟩
  · trivial

theorem return_step : Advances nbpow hash pcs items cells tid
      { hash with seen := hash.seen.filter fun pair => pair.1 ≠ tid }
      .idle items cells := by
  apply inv.advances
  · exact inv.item.frame rfl rfl rfl (fun _ _ => rfl) (fun _ _ _ => rfl)
      (.inl rfl)
  · exact inv.block.forget
  · intro other ne
    exact ⟨rfl, rfl, fun mem => mem, fun _ => rfl,
      fun _ => ⟨rfl, rfl⟩, fun mem => ⟨mem, rfl⟩,
      fun _ => ⟨rfl, rfl⟩⟩
  · intro call adding
    cases adding
  · trivial

end Calls

end HashInv

end Lockfreec.Advance.HashMap
