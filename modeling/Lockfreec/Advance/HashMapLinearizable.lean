import Lockfreec.Advance.HashMapNew
import Lockfreec.Advance.HashMapSteps

/-!
# The hash map is linearizable

`lf_hash_add` takes effect with the compare-and-swap that links its item or
replaces a block, or, when the value is there already, with the load of the
data pointer behind which it finds the value.  `lf_hash_search` takes effect
with the load of the `next` pointer that leads it to the key or past it.
-/

namespace Lockfreec.Advance.HashMap

open Function Lib.Chain Lib.Interleaving Lib.Linearizability Lib.SortedChain
open ItemInv

variable {Tid Item Block : Type}

/-! ## The map in the buckets -/

/-- The map binds the keys of the items to the values of their blocks. -/
def Represents (hash : HashState Tid Item Block) (items : Int → List Item)
    (map : Atom → Option Atom) : Prop :=
  ∀ key val, map key = some val ↔ ∃ index, ∃ item ∈ items index,
      itemKey hash item = key ∧ hash.val (hash.data item) = val

/-- The items have the same keys and values. -/
def SameContents (hash after : HashState Tid Item Block)
    (items : Int → List Item) : Prop :=
  ∀ index, ∀ item ∈ items index, itemKey after item = itemKey hash item ∧
      after.val (after.data item) = hash.val (hash.data item)

theorem SameContents.refl (hash : HashState Tid Item Block)
    (items : Int → List Item) : SameContents hash hash items :=
  fun _ _ _ => ⟨rfl, rfl⟩

namespace Represents

variable {nbpow : Nat} {hash after : HashState Tid Item Block}
  {hands : Tid → Option Item} {items : Int → List Item} {cells : List Item}
  {map : Atom → Option Atom} {key : Atom} {index : Int} {item : Item}

variable (represents : Represents hash items map)

include represents

theorem congr
    (same : SameContents hash after items) : Represents after items map := by
  intro key val
  rw [represents key val]
  apply exists_congr
  intro index
  apply exists_congr
  intro item
  apply and_congr_right
  intro mem
  rw [(same index item mem).1, (same index item mem).2]

theorem present (mem : item ∈ items index) :
    map (itemKey hash item) = some (hash.val (hash.data item)) :=
  (represents _ _).2 ⟨index, item, mem, rfl, rfl⟩

theorem absent (inv : ItemInv nbpow hash hands items cells)
    (missing : ∀ item ∈ items (bucketIndex nbpow key),
      itemKey hash item ≠ key) : map key = none := by
  cases bound : map key with
  | none => rfl
  | some val =>
    rcases (represents key val).1 bound with
      ⟨index, item, mem, same, -⟩
    have home := (inv.inner mem).2.2
    rw [same] at home
    subst home
    exact absurd same (missing item mem)

theorem link {grown : Int → List Item}
    (unbound : map (itemKey hash item) = none)
    (members : ∀ other each, each ∈ grown other ↔
      each ∈ items other ∨ other = index ∧ each = item) :
    Represents hash grown (update map (itemKey hash item)
      (some (hash.val (hash.data item)))) := by
  intro key val
  constructor
  · intro bound
    by_cases same : key = itemKey hash item
    · subst same
      rw [update_self] at bound
      cases bound
      exact ⟨index, item, (members _ _).2 (.inr ⟨rfl, rfl⟩), rfl, rfl⟩
    · rw [update_of_ne same] at bound
      rcases (represents key val).1 bound with ⟨other, each, mem, found⟩
      exact ⟨other, each, (members _ _).2 (.inl mem), found⟩
  · rintro ⟨other, each, mem, rfl, rfl⟩
    rcases (members _ _).1 mem with old | ⟨-, rfl⟩
    · have bound := represents.present old
      rw [update_of_ne]
      · exact bound
      · intro same
        rw [same, unbound] at bound
        cases bound
    · rw [update_self]

theorem replace [DecidableEq Item] {block : Block}
    (inv : ItemInv nbpow hash hands items cells) (mem : item ∈ items index)
    (sameKey : hash.key block = itemKey hash item) :
    Represents
      { hash with data := update hash.data item block } items
      (update map (itemKey hash item) (some (hash.val block))) := by
  have keys : ∀ each, hash.key (update hash.data item block each) =
      itemKey hash each := by
    intro each
    by_cases same : each = item
    · subst same
      rwa [update_self]
    · rw [update_of_ne same, itemKey]
  intro key val
  change _ ↔ ∃ index, ∃ each ∈ items index,
    hash.key (update hash.data item block each) = key ∧
      hash.val (update hash.data item block each) = val
  simp only [keys]
  constructor
  · intro bound
    by_cases same : key = itemKey hash item
    · subst same
      rw [update_self] at bound
      cases bound
      exact ⟨index, item, mem, rfl, by rw [update_self]⟩
    · rw [update_of_ne same] at bound
      rcases (represents key val).1 bound with
        ⟨other, each, inOther, rfl, rfl⟩
      refine ⟨other, each, inOther, rfl, ?_⟩
      rw [update_of_ne]
      rintro rfl
      exact same rfl
  · rintro ⟨other, each, inOther, rfl, rfl⟩
    by_cases isItem : each = item
    · subst isItem
      rw [update_self, update_self]
    · rw [update_of_ne isItem, update_of_ne]
      · exact represents.present inOther
      · intro same
        have home := (inv.inner inOther).2.2
        rw [same, (inv.inner mem).2.2] at home
        subst home
        exact isItem ((inv.lists index (inv.inner mem).1).eq_of_key
          inOther mem same)

end Represents

/-! ## Phases of the calls -/

/-- A search that has come to an item knows its answer, unless the item lies
before the key. -/
def verdict (hash : HashState Tid Item Block) (key : Atom) (bucket : Item) :
    Phase HashOp HashRet :=
  if hash.nodeType bucket = .endNode ∨ key < itemKey hash bucket then
    .done .searchFail
  else if itemKey hash bucket = key then .done .searchSucc
  else .called (.search key)

/-- How far the call of a thread has come. -/
def HashPc.phase (hash : HashState Tid Item Block) :
    HashPc Item Block → Phase HashOp HashRet
  | .idle => .idle
  | .finish result => .done result
  | .valTest call _ _ block =>
    if call.val = hash.val block then .done .exist
    else .called (.add call.key call.val)
  | .freeData _ _ result | .freeItem _ result => .done result
  | .searchHead key => .called (.search key)
  | .searchType key bucket | .searchGreaterData key bucket
  | .searchGreaterKey key bucket _ | .searchLessData key bucket
  | .searchLessKey key bucket _ | .searchNext key bucket =>
    verdict hash key bucket
  | pc =>
    match pc.adding with
    | some call => .called (.add call.key call.val)
    | none => .idle

namespace Stays

variable {nbpow : Nat} {hash after : HashState Tid Item Block}
  {items grown : Int → List Item} {cells left : List Item}
  {pc : HashPc Item Block} {index : Int}

theorem verdict_eq {key : Atom} {bucket : Item}
    (stays : Stays hash after items grown cells left pc)
    (place : AtNext hash items index bucket) :
    verdict after key bucket = verdict hash key bucket := by
  rw [verdict, verdict, stays.sameType]
  rcases place with isEnd | mem
  · simp [isEnd]
  · rw [stays.sameKey mem]

/-- The other threads do not change how far a call has come. -/
theorem phase_eq (stays : Stays hash after items grown cells left pc)
    (ok : PlaceOk nbpow hash items cells pc) :
    pc.phase after = pc.phase hash := by
  cases pc with
  | valTest call hItem prevNext block =>
    rw [HashPc.phase, (stays.sameBlock (.inr rfl)).2]
    rfl
  | searchType key bucket => exact stays.verdict_eq ok
  | searchGreaterData key bucket => exact stays.verdict_eq (.inr ok)
  | searchGreaterKey key bucket block
  | searchLessData | searchLessKey | searchNext =>
    exact stays.verdict_eq (.inr ok.1)
  | _ => rfl

end Stays

/-! ## Calls that do not overlap -/

/-- Between its test of the value and its compare-and-swap, a call that no
other call overlaps finds a value that differs from its own. -/
def Differs (hash : HashState Tid Item Block) : HashPc Item Block → Prop
  | .valTest _ _ prevNext block => block = hash.data prevNext
  | .replaceLoad call _ prevNext | .replaceCas call _ prevNext _ =>
    call.val ≠ hash.val (hash.data prevNext)
  | _ => True

/-- At most one thread is inside a call. -/
def Alone (hash : HashState Tid Item Block)
    (pcs : Tid → HashPc Item Block) : Prop :=
  ∀ thread, pcs thread ≠ .idle → (∀ other, other ≠ thread → pcs other = .idle) ∧
      Differs hash (pcs thread)

/-- Calls are made when no other call is in progress. -/
def noOverlap : Guard Tid (HashAction Block) (HashState Tid Item Block)
    (HashPc Item Block) :=
  fun config thread _ =>
    config.threads thread = .idle → ∀ other, config.threads other = .idle

section

variable [DecidableEq Tid] {after : HashState Tid Item Block}
  {pcs : Tid → HashPc Item Block} {pc : HashPc Item Block} {tid : Tid}

theorem Alone.update (others : ∀ other, other ≠ tid → pcs other = .idle)
    (differs : Differs after pc) :
    Alone after (update pcs tid pc) := by
  intro active notIdle
  have isThread : active = tid := by
    by_contra ne
    rw [update_of_ne ne] at notIdle
    exact notIdle (others active ne)
  subst isThread
  rw [update_self]
  refine ⟨?_, differs⟩
  intro other ne
  rw [update_of_ne ne]
  exact others other ne

end

/-! ## The atomic map follows every step -/

/-- The phases of all threads. -/
def phases (hash : HashState Tid Item Block)
    (pcs : Tid → HashPc Item Block) : Tid → Phase HashOp HashRet :=
  fun thread => (pcs thread).phase hash

/-- What holds at the end of every run. -/
structure HashRun [DecidableEq Tid] (strict : Bool) (nbpow : Nat)
    (history : List (CallEvent Tid HashOp HashRet))
    (hash : HashState Tid Item Block) (pcs : Tid → HashPc Item Block)
    (items : Int → List Item) (cells : List Item)
    (map : Atom → Option Atom) : Prop where
  inv : HashInv nbpow hash pcs items cells
  represents : Represents hash items map
  follows : AtomicRun (hashObject strict) (fun _ => none) history map
    (phases hash pcs)
  alone : strict = true → Alone hash pcs

namespace HashRun

variable [DecidableEq Tid] {strict : Bool} {nbpow : Nat}
  {history : List (CallEvent Tid HashOp HashRet)}
  {hash after : HashState Tid Item Block} {pcs : Tid → HashPc Item Block}
  {items grown : Int → List Item} {cells left : List Item}
  {bound changed : Atom → Option Atom} {tid : Tid} {pc old : HashPc Item Block}

section

variable (run : HashRun strict nbpow history hash pcs items cells bound)

include run

theorem phases_advance
    (advances : Advances nbpow hash pcs items cells tid after pc grown left) :
    phases after (update pcs tid pc) =
      update (phases hash pcs) tid (pc.phase after) := by
  funext other
  by_cases same : other = tid
  · subst same
    simp [phases]
  · simp only [phases, update_of_ne same]
    exact (advances.stays other same).phase_eq (run.inv.places other)

theorem alone_advance (here : pcs tid = old) (active : old ≠ .idle)
    (differs : Differs hash old → Differs after pc) :
    strict = true → Alone after (update pcs tid pc) := by
  intro isStrict
  rcases run.alone isStrict tid (here ▸ active) with ⟨others, before⟩
  exact Alone.update others (differs (here ▸ before))

theorem quiet (here : pcs tid = old) (active : old ≠ .idle)
    (advances : Advances nbpow hash pcs items cells tid after pc items left)
    (same : SameContents hash after items)
    (phase : pc.phase after = old.phase hash)
    (differs : Differs hash old → Differs after pc) :
    HashRun strict nbpow history after (update pcs tid pc) items
      left bound where
  inv := advances.inv
  represents := run.represents.congr same
  follows := by
    rw [run.phases_advance advances, phase, ← here]
    change AtomicRun _ _ _ _
      (update (phases hash pcs) tid (phases hash pcs tid))
    rw [update_eq_self]
    exact run.follows
  alone := run.alone_advance here active differs

theorem take {op : HashOp} {result : HashRet} (here : pcs tid = old)
    (active : old ≠ .idle)
    (advances : Advances nbpow hash pcs items cells tid after pc grown left)
    (represents : Represents after grown changed)
    (called : old.phase hash = .called op)
    (done : pc.phase after = .done result)
    (effect : hashObject strict bound op result changed)
    (differs : Differs hash old → Differs after pc) :
    HashRun strict nbpow history after (update pcs tid pc) grown
      left changed where
  inv := advances.inv
  represents := represents
  follows := by
    rw [run.phases_advance advances, done]
    exact AtomicRun.take run.follows (by rw [phases, here, called]) effect
  alone := run.alone_advance here active differs

end

/-! ### Effects -/

section Effects

variable {call : Adding Block} {hItem hPrev prevNext bucket : Item} {key : Atom}

variable (run : HashRun strict nbpow history hash pcs items cells bound)

include run

theorem linkCas [DecidableEq Item]
    (here : pcs tid = .linkCas call hItem hPrev prevNext)
    (success : hash.next hPrev = some prevNext) :
    ∃ grown, HashRun strict nbpow history
      { hash with next := update hash.next hPrev hItem }
      (update pcs tid (.finish .add)) grown cells
      (update bound call.key (some call.val)) := by
  rcases run.inv.linkCas_step here success with ⟨grown, advances, members⟩
  rcases run.inv.linkCas_key here with ⟨sameKey, sameVal⟩
  have unbound : bound call.key = none :=
    run.represents.absent run.inv.item (run.inv.linkCas_absent here success)
  have represents := run.represents.link (sameKey.symm ▸ unbound) members
  rw [sameKey, sameVal] at represents
  exact ⟨grown, run.take here (by simp) advances represents rfl rfl
    ⟨unbound, rfl⟩ fun _ => trivial⟩

theorem replaceCas [DecidableEq Item] (here : pcs tid =
      .replaceCas call hItem prevNext (hash.data prevNext)) :
    HashRun strict nbpow history
      { hash with data := update hash.data prevNext call.hdata }
      (update pcs tid
        (.freeData (hash.data prevNext) hItem .replace)) items cells
      (update bound call.key (some call.val)) := by
  rcases run.inv.placeOk here with ⟨mem, sameKey⟩
  have callOk := run.inv.calls tid call (by rw [here]; rfl)
  have represents := run.represents.replace run.inv.item mem
    (callOk.1.trans sameKey.symm)
  have present := run.represents.present mem
  rw [sameKey, callOk.2] at represents
  rw [sameKey] at present
  apply run.take here (by simp) (run.inv.replaceCas_step here) represents
    rfl rfl ⟨⟨_, present, ?_⟩, rfl⟩ fun _ => trivial
  intro isStrict
  have notIdle : pcs tid ≠ .idle := by
    rw [here]
    simp
  have differs := (run.alone isStrict tid notIdle).2
  rw [here] at differs
  exact differs.symm

/-- The load of the data pointer behind which the value is compared. -/
theorem valData (here : pcs tid = .valData call hItem prevNext) :
    HashRun strict nbpow history
      { hash with seen := (tid, hash.data prevNext) :: hash.seen }
      (update pcs tid
        (.valTest call hItem prevNext (hash.data prevNext))) items cells
      bound := by
  have place := run.inv.placeOk here
  have advances : Advances nbpow hash pcs items cells tid _
      (.valTest call hItem prevNext (hash.data prevNext)) items cells :=
    run.inv.look here (.of_eq rfl) (.inr rfl) place
  have present := run.represents.present place.1
  rw [place.2] at present
  by_cases same : call.val = hash.val (hash.data prevNext)
  · apply run.take here (by simp) advances _ rfl (if_pos same)
      ⟨same ▸ present, rfl⟩ fun _ => rfl
    exact run.represents.congr fun _ _ _ => ⟨rfl, rfl⟩
  · exact run.quiet here (by simp) advances (fun _ _ _ => ⟨rfl, rfl⟩)
      (if_neg same) fun _ => rfl

/-- The load of a `next` pointer by a search. -/
theorem searched (here : pcs tid = old) (active : old ≠ .idle)
    (called : old.phase hash = .called (.search key))
    (keeps : Keeps old (.searchType key bucket))
    (atPrev : AtPrev hash items (bucketIndex nbpow key) key hPrev)
    (link : hash.next hPrev = some bucket) :
    HashRun strict nbpow history hash
      (update pcs tid (.searchType key bucket)) items cells
      bound := by
  have atNext : AtNext hash items (bucketIndex nbpow key) bucket :=
    run.inv.next_atNext key atPrev link
  have advances := run.inv.move here keeps rfl atNext
  by_cases past : hash.nodeType bucket = .endNode ∨ key < itemKey hash bucket
  · have beyond : Beyond hash items (bucketIndex nbpow key) key bucket := by
      by_cases isEnd : hash.nodeType bucket = .endNode
      · exact .inl isEnd
      · exact .inr ⟨atNext.resolve_left isEnd, past.resolve_left isEnd⟩
    have unbound : bound key = none :=
      run.represents.absent run.inv.item
        (run.inv.item.absent (run.inv.inTable _) atPrev beyond link)
    exact run.take here active advances run.represents called (if_pos past)
      ⟨unbound, rfl⟩ fun _ => trivial
  · have member := atNext.resolve_left fun isEnd => past (.inl isEnd)
    by_cases same : itemKey hash bucket = key
    · have present := run.represents.present member
      rw [same] at present
      apply run.take here active advances run.represents called
        ((if_neg past).trans (if_pos same)) ⟨?_, rfl⟩ fun _ => trivial
      rw [present]
      simp
    · apply run.quiet here active advances (SameContents.refl _ _) _
        fun _ => trivial
      rw [called]
      exact (if_neg past).trans (if_neg same)

end Effects

/-! ### Every step -/

section Steps

/-- What holds of a configuration that a run has reached. -/
def Reached (strict : Bool) (nbpow : Nat)
    (history : List (CallEvent Tid HashOp HashRet))
    (hash : HashState Tid Item Block) (pcs : Tid → HashPc Item Block) :
    Prop :=
  ∃ items cells map, HashRun strict nbpow history hash pcs items cells map

variable {outcome : HashOutcome Tid Item Block}

variable (run : HashRun strict nbpow history hash pcs items cells bound)

include run

variable (here : pcs tid = old) (active : old ≠ .idle)

include here active

theorem silently
    (advances : Advances nbpow hash pcs items cells tid after pc items left)
    (same : SameContents hash after items)
    (phase : pc.phase after = old.phase hash)
    (differs : Differs hash old → Differs after pc)
    (step : silent after pc = some outcome) :
    outcome.events = [] ∧ Reached strict nbpow history outcome.shared
        (update pcs tid outcome.thread) := by
  cases step
  exact ⟨rfl, items, left, bound,
    run.quiet here active advances same phase differs⟩

theorem moves (step : silent hash pc = some outcome) (keeps : Keeps old pc)
    (pointer : pc.pointer = none) (placeOk : PlaceOk nbpow hash items cells pc)
    (phase : pc.phase hash = old.phase hash)
    (differs : Differs hash old → Differs hash pc) :
    outcome.events = [] ∧ Reached strict nbpow history outcome.shared
        (update pcs tid outcome.thread) :=
  run.silently here active (run.inv.move here keeps pointer placeOk)
    (.refl _ _) phase differs step

theorem looks {block : Block}
    (step : silent { hash with seen := (tid, block) :: hash.seen } pc =
      some outcome)
    (keeps : Keeps old pc)
    (pointer : pc.pointer = none ∨ pc.pointer = some block)
    (placeOk : PlaceOk nbpow
      { hash with seen := (tid, block) :: hash.seen } items cells pc)
    (phase : pc.phase hash = old.phase hash)
    (differs : Differs hash old → Differs hash pc) :
    outcome.events = [] ∧ Reached strict nbpow history outcome.shared
        (update pcs tid outcome.thread) := by
  apply run.silently here active (run.inv.look here keeps pointer placeOk)
    (fun _ _ _ => ⟨rfl, rfl⟩) _ _ step
  · cases pc <;> exact phase
  · cases pc <;> exact differs

variable [DecidableEq Item] [DecidableEq Block]

omit [DecidableEq Block] in
theorem popStep_reached (step : popStep hash old = some outcome) :
    outcome.events = [] ∧ Reached strict nbpow history outcome.shared
        (update pcs tid outcome.thread) := by
  have place := run.inv.placeOk here
  cases old with
  | popLoad call =>
    exact run.moves here active step (.of_eq rfl) rfl trivial rfl
      fun _ => trivial
  | popTest call heLocal =>
    cases heLocal with
    | none =>
      exact run.moves here active step (.of_eq rfl) rfl trivial rfl
        fun _ => trivial
    | some heLocal =>
      simp only [popStep] at step
      split at step
      · exact run.moves here active step (.of_eq rfl) rfl trivial rfl
          fun _ => trivial
      · rename_i more
        exact run.moves here active step (.of_eq rfl) rfl (fun _ => more) rfl
          fun _ => trivial
  | popNext call heCmp =>
    exact run.moves here active step (.of_eq rfl) rfl
      (fun mem => ⟨rfl, place mem⟩) rfl fun _ => trivial
  | popCas call heCmp next =>
    simp only [popStep] at step
    split at step
    · rename_i success
      rcases run.inv.popCas_step here success with ⟨rest, advances⟩
      exact run.silently here active advances (fun _ _ _ => ⟨rfl, rfl⟩) rfl
        (fun _ => trivial) step
    · exact run.moves here active step (.of_eq rfl) rfl trivial rfl
        fun _ => trivial
  | popCount call hItem =>
    exact run.silently here active (run.inv.popCount_step here)
      (fun _ _ _ => ⟨rfl, rfl⟩) rfl (fun _ => trivial) step
  | _ => cases step

theorem addStep_reached (step : addStep nbpow tid hash old = some outcome) :
    outcome.events = [] ∧ Reached strict nbpow history outcome.shared
        (update pcs tid outcome.thread) := by
  have place := run.inv.placeOk here
  cases old with
  | readHead call hItem =>
    simp only [addStep, loadNext] at step
    split at step
    · cases step
    · rename_i prevNext link
      exact run.moves here active step (.of_eq rfl) rfl
        ⟨.inl rfl, run.inv.next_atNext _ (.inl rfl) link⟩ rfl
        fun _ => trivial
  | storeData call hItem hPrev prevNext =>
    apply run.silently here active (run.inv.storeData_step here) _ rfl
      (fun _ => trivial) step
    intro index item mem
    have apart : item ≠ hItem := by
      rintro rfl
      exact run.inv.linked_not_held mem (by rw [here]; rfl)
    simp [itemKey, apart]
  | testType call hItem hPrev prevNext =>
    simp only [addStep] at step
    split at step
    · rename_i isEnd
      exact run.moves here active step (.of_eq rfl) rfl
        ⟨place.1, .inl isEnd⟩ rfl fun _ => trivial
    · rename_i notEnd
      exact run.moves here active step (.of_eq rfl) rfl
        ⟨place.1, place.2.resolve_left notEnd⟩ rfl fun _ => trivial
  | greaterData call hItem hPrev prevNext =>
    exact run.looks here active step (.of_eq rfl) (.inr rfl)
      ⟨place.1, place.2, rfl⟩ rfl fun _ => trivial
  | greaterKey call hItem hPrev prevNext block =>
    rcases place with ⟨between, mem, same⟩
    simp only [addStep, same] at step
    split at step
    · rename_i less
      exact run.moves here active step (.of_eq rfl) rfl
        ⟨between, .inr ⟨mem, less⟩⟩ rfl fun _ => trivial
    · rename_i notLess
      exact run.moves here active step (.of_eq rfl) rfl
        ⟨between.1, mem, not_lt.1 notLess⟩ rfl fun _ => trivial
  | lessData call hItem hPrev prevNext =>
    rcases place with ⟨data, mem, least⟩
    exact run.looks here active step (.of_eq rfl) (.inr rfl)
      ⟨data, mem, least, rfl⟩ rfl fun _ => trivial
  | lessKey call hItem hPrev prevNext block =>
    rcases place with ⟨data, mem, least, same⟩
    simp only [addStep, same] at step
    split at step
    · rename_i less
      exact run.moves here active step (.of_eq rfl) rfl ⟨data, mem, less⟩
        rfl fun _ => trivial
    · rename_i notLess
      exact run.moves here active step (.of_eq rfl) rfl
        ⟨mem, le_antisymm least (not_lt.1 notLess)⟩ rfl
        fun _ => trivial
  | readNext call hItem prevNext =>
    rcases place with ⟨data, mem, less⟩
    simp only [addStep, loadNext] at step
    split at step
    · cases step
    · rename_i next link
      exact run.moves here active step (.of_eq rfl) rfl
        ⟨⟨data, .inr ⟨mem, less⟩⟩,
          run.inv.next_atNext _ (.inr ⟨mem, less⟩) link⟩ rfl
        fun _ => trivial
  | storeNext call hItem hPrev prevNext =>
    exact run.silently here active (run.inv.storeNext_step here)
      (fun _ _ _ => ⟨rfl, rfl⟩) rfl (fun _ => trivial) step
  | linkCas call hItem hPrev prevNext =>
    simp only [addStep, loadNext] at step
    split at step
    · rename_i success
      cases step
      rcases run.linkCas here success with ⟨grown, linked⟩
      exact ⟨rfl, grown, cells, _, linked⟩
    · split at step
      · cases step
      · rename_i next link
        exact run.moves here active step (.of_eq rfl) rfl
          ⟨place.1, run.inv.next_atNext _ place.1.2 link⟩ rfl
          fun _ => trivial
  | valData call hItem prevNext =>
    cases step
    exact ⟨rfl, items, cells, bound, run.valData here⟩
  | valTest call hItem prevNext block =>
    simp only [addStep] at step
    split at step
    · rename_i same
      exact run.moves here active step ⟨.inl rfl, .inr rfl, .inl rfl⟩
        rfl trivial (if_pos same).symm fun _ => trivial
    · rename_i differs
      refine run.moves here active step (.of_eq rfl) rfl place
        (if_neg differs).symm ?_
      rintro rfl
      exact differs
  | replaceLoad call hItem prevNext =>
    exact run.looks here active step (.of_eq rfl) (.inl rfl) place rfl id
  | replaceCas call hItem prevNext hData =>
    simp only [addStep, loadData] at step
    split at step
    · rename_i success
      subst success
      cases step
      exact ⟨rfl, items, cells, _, run.replaceCas here⟩
    · exact run.looks here active step (.of_eq rfl) (.inl rfl) place rfl id
  | freeData block hItem result =>
    exact run.silently here active (run.inv.freeData_step here)
      (fun _ _ _ => ⟨rfl, rfl⟩) rfl (fun _ => trivial) step
  | freeItem hItem result =>
    exact run.moves here active step (.of_eq rfl) rfl trivial rfl
      fun _ => trivial
  | _ => cases step

omit [DecidableEq Item] [DecidableEq Block] in
theorem searchStep_reached
    (step : searchStep nbpow tid hash old = some outcome) :
    outcome.events = [] ∧ Reached strict nbpow history outcome.shared
        (update pcs tid outcome.thread) := by
  have place := run.inv.placeOk here
  cases old with
  | searchHead key =>
    simp only [searchStep, loadNext] at step
    split at step
    · cases step
    · rename_i bucket link
      cases step
      exact ⟨rfl, items, cells, bound, run.searched here active rfl
        (.of_eq rfl) (.inl rfl) link⟩
  | searchType key bucket =>
    simp only [searchStep] at step
    split at step
    · rename_i isEnd
      exact run.moves here active step (.of_eq rfl) rfl trivial
        (if_pos (.inl isEnd)).symm fun _ => trivial
    · rename_i notEnd
      exact run.moves here active step (.of_eq rfl) rfl
        (place.resolve_left notEnd) rfl fun _ => trivial
  | searchGreaterData key bucket =>
    exact run.looks here active step (.of_eq rfl) (.inr rfl) ⟨place, rfl⟩
      rfl fun _ => trivial
  | searchGreaterKey key bucket block =>
    simp only [searchStep, place.2] at step
    split at step
    · rename_i less
      exact run.moves here active step (.of_eq rfl) rfl trivial
        (if_pos (.inr less)).symm fun _ => trivial
    · rename_i notLess
      exact run.moves here active step (.of_eq rfl) rfl
        ⟨place.1, not_lt.1 notLess⟩ rfl fun _ => trivial
  | searchLessData key bucket =>
    exact run.looks here active step (.of_eq rfl) (.inr rfl)
      ⟨place.1, place.2, rfl⟩ rfl fun _ => trivial
  | searchLessKey key bucket block =>
    rcases place with ⟨mem, least, same⟩
    simp only [searchStep, same] at step
    split at step
    · rename_i less
      exact run.moves here active step (.of_eq rfl) rfl ⟨mem, less⟩ rfl
        fun _ => trivial
    · rename_i notLess
      have equal := le_antisymm least (not_lt.1 notLess)
      have inner := (run.inv.item.inner mem).2.1
      refine run.moves here active step (.of_eq rfl) rfl trivial ?_
        fun _ => trivial
      simp [HashPc.phase, verdict, equal, inner]
  | searchNext key bucket =>
    rcases place with ⟨mem, less⟩
    simp only [searchStep, loadNext] at step
    split at step
    · cases step
    · rename_i next link
      cases step
      have inner := (run.inv.item.inner mem).2.1
      refine ⟨rfl, items, cells, bound, run.searched here active ?_
        (.of_eq rfl) (.inr ⟨mem, less⟩) link⟩
      simp [HashPc.phase, verdict, inner, less.ne, less.le]
  | _ => cases step

end Steps

/-! ### Calls and returns -/

section Calls

variable {outcome : HashOutcome Tid Item Block} {result : HashRet}

variable (run : HashRun strict nbpow history hash pcs items cells bound)

include run

theorem called {op : HashOp} (here : pcs tid = .idle)
    (silence : strict = true → ∀ other, pcs other = .idle)
    (advances : Advances nbpow hash pcs items cells tid after pc items cells)
    (same : SameContents hash after items) (phase : pc.phase after = .called op)
    (differs : Differs after pc) :
    HashRun strict nbpow (history ++ [.call tid op]) after
      (update pcs tid pc) items cells bound where
  inv := advances.inv
  represents := run.represents.congr same
  follows := by
    rw [run.phases_advance advances, phase]
    exact AtomicRun.call run.follows (by rw [phases, here]; rfl) op
  alone := fun isStrict =>
    Alone.update (fun other _ => silence isStrict other) differs

theorem hashCall_reached [DecidableEq Block] {action : HashAction Block}
    (here : pcs tid = .idle)
    (silence : strict = true → ∀ other, pcs other = .idle)
    (step : hashCall tid hash action = some outcome) :
    Reached strict nbpow (history ++ outcome.events) outcome.shared
      (update pcs tid outcome.thread) := by
  cases action with
  | add hdata key val =>
    simp only [hashCall] at step
    split at step
    · rename_i allowed
      cases step
      refine ⟨items, cells, bound, run.called here silence
        (run.inv.add_step allowed.1 allowed.2) ?_ rfl trivial⟩
      intro index item mem
      have apart : hash.data item ≠ hdata := by
        rintro rfl
        have live := run.inv.block.linkedLive mem
        rw [allowed.1] at live
        cases live
      simp [itemKey, apart]
    · cases step
  | search key =>
    cases step
    exact ⟨items, cells, bound, run.called here silence
      (run.inv.move here (.of_eq rfl) rfl trivial) (.refl _ _) rfl trivial⟩
  | run => cases step

theorem hashReturn_reached (here : pcs tid = .finish result) :
    Reached strict nbpow (history ++ [.ret tid result])
      (hashReturn tid hash result).shared
      (update pcs tid .idle) := by
  have advances : Advances nbpow hash pcs items cells tid
      (hashReturn tid hash result).shared .idle items cells :=
    run.inv.return_step
  refine ⟨items, cells, bound, advances.inv,
    run.represents.congr fun _ _ _ => ⟨rfl, rfl⟩, ?_,
    run.alone_advance here (by simp) fun _ => trivial⟩
  rw [run.phases_advance advances]
  exact AtomicRun.ret run.follows (by rw [phases, here]; rfl)

end Calls

end HashRun

/-! ## Whole runs -/

section Runs

variable [DecidableEq Tid] [DecidableEq Item] [DecidableEq Block] {nbpow : Nat}
  {strict : Bool} {history : List (CallEvent Tid HashOp HashRet)}
  {hash : HashState Tid Item Block} {cells : List Item}
  {config : Config Tid (HashState Tid Item Block) (HashPc Item Block)}

theorem hashMachine_run {tid : Tid} {action : HashAction Block}
    {pc : HashPc Item Block} {outcome : HashOutcome Tid Item Block}
    (active : pc ≠ .idle)
    (step : (hashMachine nbpow).step tid action hash pc = some outcome) :
    (∃ result, pc = .finish result ∧ outcome = hashReturn tid hash result) ∨
      popStep hash pc = some outcome ∨
      addStep nbpow tid hash pc = some outcome ∨
      searchStep nbpow tid hash pc = some outcome := by
  simp only [hashMachine] at step
  split at step
  · exact absurd rfl active
  · rename_i result
    cases step
    exact .inl ⟨result, rfl, rfl⟩
  · right
    cases popped : popStep hash pc with
    | some result =>
      rw [popped] at step
      exact .inl step
    | none =>
      rw [popped] at step
      cases added : addStep nbpow tid hash pc with
      | some result =>
        rw [added] at step
        exact .inr (.inl step)
      | none =>
        rw [added] at step
        exact .inr (.inr step)
  · cases step

theorem HashRun.Reached.step {tid : Tid} {action : HashAction Block}
    {outcome : HashOutcome Tid Item Block}
    (reached : HashRun.Reached strict nbpow history config.shared
      config.threads)
    (admitted : strict = true → noOverlap config tid action)
    (step : (hashMachine nbpow).step tid action config.shared
      (config.threads tid) = some outcome) :
    HashRun.Reached strict nbpow (history ++ outcome.events) outcome.shared
      (update config.threads tid outcome.thread) := by
  rcases reached with ⟨items, cells, map, run⟩
  by_cases here : config.threads tid = .idle
  · rw [here] at step
    exact run.hashCall_reached here
      (fun isStrict => admitted isStrict here) step
  · have silently : outcome.events = [] ∧
        HashRun.Reached strict nbpow history outcome.shared
          (update config.threads tid outcome.thread) →
        HashRun.Reached strict nbpow (history ++ outcome.events) outcome.shared
          (update config.threads tid outcome.thread) := by
      rintro ⟨noEvent, after⟩
      rw [noEvent, List.append_nil]
      exact after
    rcases hashMachine_run here step with
      ⟨result, finished, rfl⟩ | popped | added | searched
    · exact run.hashReturn_reached finished
    · exact silently (run.popStep_reached rfl here popped)
    · exact silently (run.addStep_reached rfl here added)
    · exact silently (run.searchStep_reached rfl here searched)

omit [DecidableEq Item] [DecidableEq Block] in
theorem HashNew.reached (new : HashNew nbpow hash cells) :
    HashRun.Reached strict nbpow [] hash fun _ : Tid => .idle := by
  have empty : ∀ index, InTable nbpow index →
      succ hash (hash.table index) = none := by
    intro index inTable
    rcases new.ends index inTable with ⟨ending, link, isEnd⟩
    simp [succ, link, isEnd]
  have item : ItemInv nbpow hash (fun _ : Tid => none) (fun _ => [])
      cells := {
    headType := new.headType
    headsApart := new.apart
    lists := fun index inTable => ⟨empty index inTable, List.Pairwise.nil⟩
    inner := by simp
    nexts := by
      rintro index item inTable (rfl | mem)
      · rcases new.ends index inTable with ⟨ending, link, -⟩
        simp [link]
      · simp at mem
    pool := new.pool
    poolType := new.poolType
    poolApart := fun item mem =>
      ⟨by simp, new.poolApart item mem⟩
    held := by simp
    heldOnce := by simp }
  have block : BlockInv hash (fun _ : Tid => none) (fun _ => none)
      fun _ => ([] : List Item) := by
    constructor <;> simp
  refine ⟨fun _ => [], cells, fun _ => none,
    ⟨new.small, item, block, ?_, fun _ => trivial⟩, ?_, AtomicRun.nil, ?_⟩
  · intro tid call adding
    cases adding
  · intro key val
    simp
  · intro _ tid active
    exact absurd rfl active

theorem HashNew.reached_run
    {guard : Guard Tid (HashAction Block) (HashState Tid Item Block)
      (HashPc Item Block)}
    (new : HashNew nbpow hash cells)
    (run : (hashMachine nbpow).RunWhere guard (hashStart hash) history config)
    (apart : ∀ config tid action, guard config tid action →
      strict = true → noOverlap config tid action) :
    HashRun.Reached strict nbpow history config.shared config.threads := by
  apply run.invariant fun history config =>
    HashRun.Reached strict nbpow history config.shared config.threads
  · exact new.reached
  · intro history config tid action outcome before admitted step
    exact before.step (apart _ _ _ admitted) step

/-! ## The shape of a bucket -/

/-- From the head of a bucket over its items to its end, with increasing keys
that belong into the bucket. -/
structure BucketList (nbpow : Nat) (hash : HashState Tid Item Block)
    (index : Int) (list : List Item) (ending : Item) : Prop where
  headType : hash.nodeType (hash.table index) = .headNode
  innerType : ∀ item ∈ list, hash.nodeType item = .iNode
  endType : hash.nodeType ending = .endNode
  links : List.IsChain (fun left right => hash.next left = some right)
    (hash.table index :: (list ++ [ending]))
  increasing : list.Pairwise fun left right =>
    itemKey hash left < itemKey hash right
  home : ∀ item ∈ list,
    (((itemKey hash item).val &&& bucketMask nbpow : Nat) : Int) = index

omit [DecidableEq Tid] [DecidableEq Item] [DecidableEq Block] in
theorem exists_ending {first : Item} {list : List Item}
    (linked : Linked (succ hash) (succ hash first) list)
    (nexts : ∀ item ∈ first :: list, hash.next item ≠ none) :
    ∃ ending, hash.nodeType ending = .endNode ∧
      List.IsChain (fun left right => hash.next left = some right)
        (first :: (list ++ [ending])) := by
  induction list generalizing first with
  | nil =>
    rcases Option.ne_none_iff_exists'.1 (nexts first (by simp)) with
      ⟨ending, link⟩
    refine ⟨ending, ?_, by simp [link]⟩
    by_contra notEnd
    have following := succ_eq_some.2 ⟨link, notEnd⟩
    rw [linked_nil.1 linked] at following
    cases following
  | cons item rest ih =>
    rcases linked with ⟨following, tail⟩
    rcases ih tail fun each mem =>
      nexts each (.tail _ mem) with
      ⟨ending, isEnd, chain⟩
    exact ⟨ending, isEnd, List.isChain_cons_cons.2
      ⟨(succ_eq_some.1 following).1, chain⟩⟩

theorem bucketIndex_eq (small : nbpow ≤ 30) (key : Atom) :
    bucketIndex nbpow key = ((key.val &&& bucketMask nbpow : Nat) : Int) := by
  have bound : 2 ^ nbpow ≤ 2 ^ 30 := Nat.pow_le_pow_right (by decide) small
  have masked : key.val &&& bucketMask nbpow ≤ bucketMask nbpow :=
    Nat.and_le_right
  rw [bucketMask_eq small] at masked
  rw [bucketIndex, toInt_small]
  rw [bucketMask_eq small]
  omega

omit [DecidableEq Tid] [DecidableEq Item] [DecidableEq Block] in
theorem HashInv.bucketList {pcs : Tid → HashPc Item Block}
    {items : Int → List Item} {index : Int}
    (inv : HashInv nbpow hash pcs items cells) (inTable : InTable nbpow index) :
    ∃ ending, BucketList nbpow hash index (items index) ending := by
  have chain := inv.item.lists index inTable
  have nexts : ∀ item ∈ hash.table index :: items index,
      hash.next item ≠ none := by
    intro item mem
    exact inv.item.nexts inTable (List.mem_cons.1 mem)
  rcases exists_ending chain.linked nexts with ⟨ending, isEnd, links⟩
  refine ⟨ending, inv.item.headType index inTable,
    fun item mem => (inv.item.inner mem).2.1, isEnd, links,
    chain.sorted, ?_⟩
  intro item mem
  rw [← bucketIndex_eq inv.small]
  exact (inv.item.inner mem).2.2

/--
In every run on a table made by `hash_new`, each bucket is a list from its
head to its end with increasing keys that belong into it, and the calls are
linearizable to a map.  If calls do not overlap, a replacement changes the
value.
-/
theorem hashMap_linearizable (new : HashNew nbpow hash cells) :
    (∀ history config, (hashMachine nbpow).Run (hashStart hash) history config →
        (∀ index, InTable nbpow index → ∃ list ending,
          BucketList nbpow config.shared index list ending) ∧
        Linearizable (hashObject false) (fun _ => none) history) ∧
    ∀ history config,
      (hashMachine nbpow).RunWhere noOverlap (hashStart hash) history config →
        Linearizable (hashObject true) (fun _ => none) history := by
  constructor
  · intro history config run
    obtain ⟨items, cells, map, reached⟩ : HashRun.Reached false nbpow
        history config.shared config.threads :=
      new.reached_run run (by simp)
    refine ⟨?_, map, _, reached.follows⟩
    intro index inTable
    exact ⟨items index, reached.inv.bucketList inTable⟩
  · intro history config run
    obtain ⟨items, cells, map, reached⟩ : HashRun.Reached true nbpow
        history config.shared config.threads :=
      new.reached_run run fun _ _ _ admitted _ => admitted
    exact ⟨map, _, reached.follows⟩

end Runs

/-! ## An execution -/

section Execution

def HashPc.isIdle : HashPc Item Block → Bool
  | .idle => true
  | _ => false

theorem isIdle_iff {pc : HashPc Item Block} :
    pc.isIdle = true ↔ pc = .idle := by
  cases pc <;> simp [HashPc.isIdle]

instance (pc : HashPc Item Block) : Decidable (pc = .idle) :=
  decidable_of_iff _ isIdle_iff

instance (config : Config Bool (HashState Bool Item Block)
    (HashPc Item Block)) (tid : Bool) (action : HashAction Block) :
    Decidable (noOverlap config tid action) :=
  inferInstanceAs (Decidable (config.threads tid = .idle →
      ∀ other, config.threads other = .idle))

/-- A table with two buckets and four items in the pool. -/
def twoBuckets : HashState Bool Nat Nat :=
  hashNew [⟨0, 100⟩, ⟨1, 101⟩] 13 [12, 11, 10]
    { next := fun _ => none
      data := fun _ => 0
      nodeType := fun _ => .headNode
      key := fun _ => 0
      val := fun _ => 0
      table := fun _ => 0
      he := none
      itemNum := 0
      live := fun _ => false
      seen := [] }

theorem twoBuckets_new : HashNew 1 twoBuckets [10, 11, 12, 13] :=
  HashNew.of_hashNew (by decide) (by decide +kernel) (by decide) rfl rfl

/-- One thread adds a key, another replaces its value and the first finds
the key. -/
theorem hashMap_linearizable_replace :
    ∃ (config : Config Bool (HashState Bool Nat Nat) (HashPc Nat Nat))
      (history : List (CallEvent Bool HashOp HashRet)),
      history = [.call false (.add 5 7), .ret false .add,
          .call true (.add 5 8), .ret true .replace,
          .call false (.search 5), .ret false .searchSucc] ∧
      (hashMachine 1).RunWhere noOverlap (hashStart twoBuckets) history config ∧
      Linearizable (hashObject true) (fun _ => none) history ∧
      ∃ list ending, BucketList 1 config.shared 1 list ending := by
  have events : ((hashMachine 1).executeWhere noOverlap (hashStart twoBuckets)
      ((false, .add 1 5 7) :: List.replicate 11 (false, .run) ++
        (true, .add 2 5 8) :: List.replicate 19 (true, .run) ++
        (false, .search 5) :: List.replicate 7 (false, .run))).map Prod.snd =
      some [.call false (.add 5 7), .ret false .add,
          .call true (.add 5 8), .ret true .replace,
          .call false (.search 5), .ret false .searchSucc] := by
    decide +kernel
  rcases Option.map_eq_some_iff.1 events with ⟨⟨config, _⟩, executed, rfl⟩
  have run := Machine.runWhere_of_execute executed
  have linearizable := hashMap_linearizable twoBuckets_new
  exact ⟨_, _, rfl, run, linearizable.2 _ _ run,
    (linearizable.1 _ _ run.toRun).1 1 ⟨by decide, by decide⟩⟩

end Execution

end Lockfreec.Advance.HashMap
