import Lockfreec.Basic.FreelistInvariant

/-!
# Freelists of allocated blocks

The stack and the queue keep their elements in a freelist.  Both create it
with an `init_func` that allocates one block for every freelist element and
fails exactly when the allocation fails, so one model serves
`stack_internal_freelist_init_function` and
`queue_internal_freelist_init_function`.  On top of the freelist invariant,
the elements of such a freelist have different blocks, and all of them are
counted as soon as they have left `freelist_internal_new_element`.
-/

namespace Lockfreec.Basic.ElementPool

open Function Basic.Freelist Lib.Chain Lib.Interleaving Lib.TaggedStack

/-! ## The model -/

/-- A freelist and the blocks that its `init_func` has allocated. -/
structure PoolState where
  fs : FreelistState
  block : Addr → Bool

/--
A step inside a freelist function.  `init_func` stores a new block and returns
one, or it returns zero.
-/
def poolStep (action : FreelistAction) (pool : PoolState) :
    FreelistPc → Option (PoolState × FreelistPc)
  | .newInit caller fe =>
    match action with
    | .init 1 (some block) =>
      if pool.block block then none
      else (freelistStep action pool.fs (.newInit caller fe)).map fun result =>
          (⟨result.1, update pool.block block true⟩, result.2)
    | .init 0 none =>
      (freelistStep action pool.fs (.newInit caller fe)).map
        fun result => ({ pool with fs := result.1 }, result.2)
    | _ => none
  | pc =>
    (freelistStep action pool.fs pc).map
      fun result => ({ pool with fs := result.1 }, result.2)

/-- The freelist after `freelist_new` has pushed these elements and blocks. -/
def poolNew (next : Addr → Word) (data : Addr → Ptr) :
    List (Addr × Addr) → PoolState
  | [] =>
    { fs :=
        { top := ⟨none, 0⟩
          initFunc := true
          abaCounter := 0
          elementCount := 0
          next := next
          data := data
          allocated := fun _ => false
          counted := [] }
      block := fun _ => false }
  | (fe, block) :: rest =>
    let pool := poolNew next data rest
    { fs :=
        { top := ⟨some fe, pool.fs.abaCounter + 1⟩
          initFunc := true
          abaCounter := pool.fs.abaCounter + 1
          elementCount := pool.fs.elementCount + 1
          next := update pool.fs.next fe pool.fs.top
          data := update pool.fs.data fe (some block)
          allocated := update pool.fs.allocated fe true
          counted := pool.fs.counted ++ [fe] }
      block := update pool.block block true }

/-! ## The invariant -/

/-- The element that waits for its `init_func`. -/
def rawElement : FreelistPc → Option Addr
  | .newInit _ fe => some fe
  | _ => none

/-- The element that has been allocated and not been counted yet. -/
def uncountedElement : FreelistPc → Option Addr
  | .newInit _ fe | .newCount _ fe => some fe
  | _ => none

variable {Tid : Type}

/-- An element whose `init_func` has run. -/
def Ready (fs : FreelistState) (pcs : Tid → FreelistPc) (fe : Addr) : Prop :=
  fs.allocated fe = true ∧ ∀ thread, rawElement (pcs thread) ≠ some fe

/-- The freelist invariant, for elements that own a block each. -/
structure PoolInv (pool : PoolState) (pcs : Tid → FreelistPc)
    (outside : Set Addr) (cells : List (Addr × Nat)) : Prop where
  freelist : FreelistInv pool.fs pcs outside cells
  payload : ∀ fe, Ready pool.fs pcs fe →
    ∃ block, pool.fs.data fe = some block ∧ pool.block block = true
  injective : ∀ left right block,
    Ready pool.fs pcs left → Ready pool.fs pcs right →
    pool.fs.data left = some block → pool.fs.data right = some block →
    left = right
  counted : ∀ fe, pool.fs.allocated fe = true →
    (∀ thread, uncountedElement (pcs thread) ≠ some fe) →
    fe ∈ pool.fs.counted

theorem rawElement_inHand {pc : FreelistPc} {fe : Addr}
    (raw : rawElement pc = some fe) : pc.inHand = some fe := by
  cases pc <;> simp_all [rawElement, FreelistPc.inHand]

namespace PoolInv

variable {pool : PoolState} {pcs : Tid → FreelistPc} {outside : Set Addr}
  {cells : List (Addr × Nat)} {tid : Tid} {pc : FreelistPc}

theorem ready_of_outside (inv : PoolInv pool pcs outside cells) {fe : Addr}
    (mem : fe ∈ outside) : Ready pool.fs pcs fe := by
  constructor
  · exact (inv.freelist.allocated fe).mpr (.inr (.inl mem))
  · intro other raw
    exact inv.freelist.inHand_not_outside (rawElement_inHand raw) mem

theorem ready_of_popReturn (inv : PoolInv pool pcs outside cells) {fe : Addr}
    (here : pcs tid = .popReturn (some fe)) : Ready pool.fs pcs fe := by
  have held : (pcs tid).inHand = some fe := by
    rw [here]
    rfl
  constructor
  · exact (inv.freelist.allocated fe).mpr (.inr (.inr ⟨tid, held⟩))
  · intro other raw
    by_cases same : other = tid
    · subst same
      simp [here, rawElement] at raw
    · exact inv.freelist.inHand_apart held (Ne.symm same)
        (rawElement_inHand raw)

variable [DecidableEq Tid]

theorem change (inv : PoolInv pool pcs outside cells)
    {after : PoolState} {beyond : Set Addr} {changed : List (Addr × Nat)}
    (freelist : FreelistInv after.fs (update pcs tid pc) beyond changed)
    (allocated : after.fs.allocated = pool.fs.allocated)
    (data : after.fs.data = pool.fs.data)
    (counted : after.fs.counted = pool.fs.counted)
    (block : after.block = pool.block)
    (sameRaw : rawElement pc = rawElement (pcs tid))
    (sameUncounted : uncountedElement pc = uncountedElement (pcs tid)) :
    PoolInv after (update pcs tid pc) beyond changed := by
  have raw := project_update rawElement sameRaw
  have uncounted := project_update uncountedElement sameUncounted
  have ready : ∀ fe, Ready after.fs (update pcs tid pc) fe ↔
      Ready pool.fs pcs fe := by
    intro fe
    simp only [Ready, raw, allocated]
  refine ⟨freelist, ?_, ?_, ?_⟩
  · intro fe isReady
    rw [data, block]
    exact inv.payload fe ((ready fe).mp isReady)
  · intro left right shared isLeft isRight
    rw [data]
    exact inv.injective left right shared ((ready left).mp isLeft)
      ((ready right).mp isRight)
  · intro fe
    simp only [uncounted, allocated, counted]
    exact inv.counted fe

end PoolInv

variable {action : FreelistAction} {old : FreelistPc}

/-- Steps that create no element leave the element blocks alone. -/
theorem freelistStep_frame {fs after : FreelistState} {pc : FreelistPc}
    (step : freelistStep action fs old = some (after, pc))
    (notMalloc : ∀ caller, old ≠ .newMalloc caller)
    (complete : uncountedElement old = none) :
    after.allocated = fs.allocated ∧ after.data = fs.data ∧
      after.counted = fs.counted ∧ uncountedElement pc = none := by
  cases old with
  | newMalloc caller => exact absurd rfl (notMalloc caller)
  | newInit | newCount => simp [uncountedElement] at complete
  | popLoop | newElementsLoop =>
    simp only [freelistStep] at step
    split at step
    all_goals
      cases step
      exact ⟨rfl, rfl, rfl, rfl⟩
  | popDcas feLocal fe exchange =>
    cases step
    refine ⟨rfl, rfl, rfl, ?_⟩
    split <;> rfl
  | pushDcas caller fe counter original =>
    cases step
    refine ⟨rfl, rfl, rfl, ?_⟩
    split
    · cases caller <;> rfl
    · rfl
  | idle | popReturn | newElementsReturn | pushReturn =>
    simp [freelistStep] at step
  | _ =>
    cases step
    exact ⟨rfl, rfl, rfl, rfl⟩

theorem poolStep_freelist {pool after : PoolState} {pc : FreelistPc}
    (step : poolStep action pool old = some (after, pc)) :
    freelistStep action pool.fs old = some (after.fs, pc) := by
  unfold poolStep at step
  split at step
  · split at step
    · split at step
      · cases step
      · obtain ⟨_, inside, same⟩ := Option.map_eq_some_iff.1 step
        cases same
        exact inside
    · obtain ⟨_, inside, same⟩ := Option.map_eq_some_iff.1 step
      cases same
      exact inside
    · cases step
  · obtain ⟨_, inside, same⟩ := Option.map_eq_some_iff.1 step
    cases same
    exact inside

/-- Only `init_func` stores data, and only into its own element. -/
theorem poolStep_data {pool after : PoolState} {pc : FreelistPc} {fe : Addr}
    (step : poolStep action pool old = some (after, pc))
    (notHeld : old.inHand ≠ some fe) :
    after.fs.data fe = pool.fs.data fe := by
  have inside := poolStep_freelist step
  generalize after.fs = fs at inside ⊢
  cases old with
  | newMalloc caller =>
    obtain ⟨_, -, rfl, -⟩ := FreelistInv.step_newMalloc inside
    rfl
  | newInit caller other =>
    obtain ⟨rv, data, -, rfl, -⟩ := FreelistInv.step_newInit inside
    refine update_of_ne ?_ _ _
    rintro rfl
    exact notHeld rfl
  | newCount caller other =>
    cases inside
    rfl
  | _ => rw [(freelistStep_frame inside nofun rfl).2.1]

theorem rawElement_of_uncounted {pc : FreelistPc}
    (complete : uncountedElement pc = none) : rawElement pc = none := by
  cases pc <;> simp_all [uncountedElement, rawElement]

theorem afterNew_created (fe : Addr) (rv : Nat) (caller : Caller) :
    uncountedElement (afterNew fe rv caller) = none := by
  cases caller with
  | none => rfl
  | some loop =>
    simp only [afterNew]
    split <;> rfl

namespace PoolInv

variable {pool : PoolState} {pcs : Tid → FreelistPc} {outside : Set Addr}
  {cells : List (Addr × Nat)} {tid : Tid} {pc : FreelistPc} [DecidableEq Tid]

omit [DecidableEq Tid] in
theorem shrink (inv : PoolInv pool pcs outside cells) {after : PoolState}
    {others : Tid → FreelistPc}
    (freelist : FreelistInv after.fs others outside cells)
    (block : after.block = pool.block)
    (ready : ∀ fe, Ready after.fs others fe →
      Ready pool.fs pcs fe ∧ after.fs.data fe = pool.fs.data fe)
    (counted : ∀ fe, after.fs.allocated fe = true →
      (∀ tid, uncountedElement (others tid) ≠ some fe) →
      fe ∈ after.fs.counted) :
    PoolInv after others outside cells := by
  refine ⟨freelist, ?_, ?_, counted⟩
  · intro fe isReady
    rcases ready fe isReady with ⟨before, same⟩
    rw [same, block]
    exact inv.payload fe before
  · intro left right shared isLeft isRight
    rcases ready left isLeft with ⟨beforeLeft, sameLeft⟩
    rcases ready right isRight with ⟨beforeRight, sameRight⟩
    rw [sameLeft, sameRight]
    exact inv.injective left right shared beforeLeft beforeRight

variable {caller : Caller} {fe : Addr}

variable (inv : PoolInv pool pcs outside cells)

include inv

theorem malloc (here : pcs tid = .newMalloc caller)
    (fresh : pool.fs.allocated fe = false) :
    PoolInv
      { pool with
        fs := { pool.fs with
          allocated := update pool.fs.allocated fe true } }
      (update pcs tid (.newInit caller fe)) outside cells := by
  refine inv.shrink (inv.freelist.allocate here fresh) rfl ?_ ?_
  · rintro other ⟨taken, initialized⟩
    have ne : other ≠ fe := by
      rintro rfl
      exact initialized tid (by rw [update_self]; rfl)
    refine ⟨⟨?_, fun another => ?_⟩, rfl⟩
    · simpa only [update_of_ne ne] using taken
    · exact forall_of_update (rawElement · ≠ some other)
        (by simp [here, rawElement]) initialized another
  · intro other taken complete
    have ne : other ≠ fe := by
      rintro rfl
      exact complete tid (by rw [update_self]; rfl)
    refine inv.counted other ?_
      (forall_of_update (uncountedElement · ≠ some other) ?_ complete)
    · simpa only [update_of_ne ne] using taken
    · simp [here, uncountedElement]

/-- An `init_func` without memory: the element is freed. -/
theorem initFailed (here : pcs tid = .newInit caller fe) :
    PoolInv { pool with fs := pool.fs.initElement fe 0 none }
      (update pcs tid (afterNew fe 0 caller)) outside cells := by
  have freelist := inv.freelist.initElement 0 none here
  rw [if_neg (by simp)] at freelist
  have gone : ∀ other, (pool.fs.initElement fe 0 none).allocated other =
      true → other ≠ fe ∧ pool.fs.allocated other = true := by
    intro other taken
    by_cases same : other = fe
    · subst same
      simp [FreelistState.initElement] at taken
    · simp only [FreelistState.initElement, update_of_ne same] at taken
      exact ⟨same, taken⟩
  refine inv.shrink freelist rfl ?_ ?_
  · rintro other ⟨taken, initialized⟩
    rcases gone other taken with ⟨ne, before⟩
    refine ⟨⟨before, fun another => ?_⟩, ?_⟩
    · exact forall_of_update (rawElement · ≠ some other)
        (by simpa [here, rawElement] using ne.symm) initialized another
    · simp only [FreelistState.initElement, update_of_ne ne]
  · intro other taken complete
    rcases gone other taken with ⟨ne, before⟩
    refine inv.counted other before
      (forall_of_update (uncountedElement · ≠ some other) ?_ complete)
    simpa [here, uncountedElement] using ne.symm

/-- An `init_func` with a new block. -/
theorem initBlock {block : Addr} (here : pcs tid = .newInit caller fe)
    (fresh : pool.block block = false) :
    PoolInv ⟨pool.fs.initElement fe 1 (some block),
        update pool.block block true⟩
      (update pcs tid (.newCount caller fe)) outside cells := by
  have freelist := inv.freelist.initElement 1 (some block) here
  rw [if_pos rfl] at freelist
  have ready : ∀ other, other ≠ fe →
      Ready (pool.fs.initElement fe 1 (some block))
        (update pcs tid (.newCount caller fe)) other →
      Ready pool.fs pcs other := by
    rintro other ne ⟨taken, initialized⟩
    refine ⟨?_, fun another => ?_⟩
    · simpa only [FreelistState.initElement, update_of_ne ne] using taken
    · exact forall_of_update (rawElement · ≠ some other)
        (by simpa [here, rawElement] using ne.symm) initialized another
  have stored : ∀ other, other ≠ fe →
      (pool.fs.initElement fe 1 (some block)).data other =
        pool.fs.data other := by
    intro other ne
    simp only [FreelistState.initElement, update_of_ne ne]
  have new : (pool.fs.initElement fe 1 (some block)).data fe = some block := by
    simp [FreelistState.initElement]
  have unused : ∀ other, other ≠ fe →
      Ready (pool.fs.initElement fe 1 (some block))
        (update pcs tid (.newCount caller fe)) other →
      (pool.fs.initElement fe 1 (some block)).data other ≠ some block := by
    intro other ne isReady equal
    rcases inv.payload other (ready other ne isReady) with
      ⟨known, data, taken⟩
    rw [stored other ne, data, Option.some.injEq] at equal
    subst equal
    simp [fresh] at taken
  refine ⟨freelist, ?_, ?_, ?_⟩
  · intro other isReady
    by_cases same : other = fe
    · subst same
      exact ⟨block, new, by simp⟩
    · rcases inv.payload other (ready other same isReady) with
        ⟨known, data, taken⟩
      refine ⟨known, (stored other same).trans data, ?_⟩
      by_cases equal : known = block
      · subst equal
        simp
      · simpa only [update_of_ne equal] using taken
  · intro left right shared isLeft isRight dataLeft dataRight
    by_cases sameLeft : left = fe
    · by_cases sameRight : right = fe
      · rw [sameLeft, sameRight]
      · subst sameLeft
        rw [new] at dataLeft
        exact absurd (dataRight.trans dataLeft.symm)
          (unused right sameRight isRight)
    · by_cases sameRight : right = fe
      · subst sameRight
        rw [new] at dataRight
        exact absurd (dataLeft.trans dataRight.symm)
          (unused left sameLeft isLeft)
      · rw [stored left sameLeft] at dataLeft
        rw [stored right sameRight] at dataRight
        exact inv.injective left right shared (ready left sameLeft isLeft)
          (ready right sameRight isRight) dataLeft dataRight
  · intro other taken complete
    have ne : other ≠ fe := by
      rintro rfl
      exact complete tid (by rw [update_self]; rfl)
    refine inv.counted other ?_
      (forall_of_update (uncountedElement · ≠ some other) ?_ complete)
    · simpa only [FreelistState.initElement, update_of_ne ne] using taken
    · simpa [here, uncountedElement] using ne.symm

theorem count (here : pcs tid = .newCount caller fe) : PoolInv
      { pool with
        fs := { pool.fs with
          elementCount := pool.fs.elementCount + 1
          counted := pool.fs.counted ++ [fe] } }
      (update pcs tid (afterNew fe 1 caller)) outside cells := by
  have raw : rawElement (afterNew fe 1 caller) = rawElement (pcs tid) := by
    rw [here, rawElement_of_uncounted (afterNew_created fe 1 caller)]
    rfl
  refine inv.shrink (inv.freelist.count here) rfl ?_ ?_
  · rintro other ⟨taken, initialized⟩
    simp only [project_update rawElement raw] at initialized
    exact ⟨⟨taken, initialized⟩, rfl⟩
  · intro other taken complete
    by_cases same : other = fe
    · subst same
      simp
    · apply List.mem_append_left
      refine inv.counted other taken
        (forall_of_update (uncountedElement · ≠ some other) ?_ complete)
      simpa [here, uncountedElement] using Ne.symm same

/-- Every step inside a freelist function keeps the pool invariant. -/
theorem step {action : FreelistAction} {after : PoolState}
    (stepped : poolStep action pool (pcs tid) = some (after, pc)) :
    ∃ changed, PoolInv after (update pcs tid pc) outside changed := by
  have frame : ∀ {fs : FreelistState},
      freelistStep action pool.fs (pcs tid) = some (fs, pc) →
      (∀ caller, pcs tid ≠ .newMalloc caller) →
      uncountedElement (pcs tid) = none →
      ∃ changed, PoolInv { pool with fs := fs }
        (update pcs tid pc) outside changed := by
    intro fs inside notMalloc complete
    rcases inv.freelist.step inside with ⟨changed, -, freelist⟩
    rcases freelistStep_frame inside notMalloc complete with
      ⟨allocated, data, counted, created⟩
    refine ⟨changed, inv.change freelist allocated data counted rfl ?_ ?_⟩
    · rw [rawElement_of_uncounted created, rawElement_of_uncounted complete]
    · rw [created, complete]
  cases here : pcs tid with
  | newMalloc caller =>
    rw [here] at stepped
    obtain ⟨⟨fs, pc⟩, inside, same⟩ := Option.map_eq_some_iff.1 stepped
    cases same
    obtain ⟨fe, fresh, rfl, rfl⟩ := FreelistInv.step_newMalloc inside
    exact ⟨cells, inv.malloc here fresh⟩
  | newInit caller fe =>
    simp only [here, poolStep] at stepped
    split at stepped
    · next block =>
        split at stepped
        · cases stepped
        · next fresh =>
            obtain ⟨⟨fs, pc⟩, inside, same⟩ := Option.map_eq_some_iff.1 stepped
            cases same
            obtain ⟨rv, data, ⟨⟩, rfl, rfl⟩ := FreelistInv.step_newInit inside
            exact ⟨cells, inv.initBlock here (by simpa using fresh)⟩
    · obtain ⟨⟨fs, pc⟩, inside, same⟩ := Option.map_eq_some_iff.1 stepped
      cases same
      obtain ⟨rv, data, ⟨⟩, rfl, rfl⟩ := FreelistInv.step_newInit inside
      exact ⟨cells, inv.initFailed here⟩
    · cases stepped
  | newCount caller fe =>
    rw [here] at stepped
    cases stepped
    exact ⟨cells, inv.count here⟩
  | _ =>
    simp only [here, poolStep] at stepped
    obtain ⟨⟨fs, pc⟩, inside, same⟩ := Option.map_eq_some_iff.1 stepped
    cases same
    rw [← here] at inside
    exact frame inside (by simp [here]) (by rw [here]; rfl)

/-! ## Elements passing in and out -/

theorem move (here : (pcs tid).access = .away) (access : pc.access = .away)
    (localOk : LocalOk pool.fs pc) :
    PoolInv pool (update pcs tid pc) outside cells := by
  have complete : ∀ {state : FreelistPc}, state.access = .away →
      uncountedElement state = none := by
    intro state away
    cases state <;> first | rfl | simp [FreelistPc.access] at away
  refine inv.change (inv.freelist.outer here access localOk) rfl rfl rfl
    rfl ?_ ?_
  · rw [rawElement_of_uncounted (complete access),
      rawElement_of_uncounted (complete here)]
  · rw [complete access, complete here]

/-- `freelist_push` is called with an element of its user. -/
theorem take (given : fe ∈ outside) (here : pcs tid = .idle) :
    PoolInv pool (update pcs tid (.pushIncrement none fe))
      (outside \ {fe}) cells := by
  have empty : (pcs tid).inHand = none := by rw [here]; rfl
  have freelist : FreelistInv pool.fs
      (update pcs tid (.pushIncrement none fe)) (outside \ {fe})
      cells := inv.freelist.take given empty rfl trivial
  apply inv.change freelist rfl rfl rfl rfl
  · rw [here]
    rfl
  · rw [here]
    rfl

theorem give (here : pcs tid = .popReturn (some fe)) :
    PoolInv pool (update pcs tid .idle) (insert fe outside)
      cells := by
  have held : (pcs tid).inHand = some fe := by rw [here]; rfl
  have freelist : FreelistInv pool.fs (update pcs tid .idle)
      (insert fe outside) cells := inv.freelist.give held rfl trivial
  apply inv.change freelist rfl rfl rfl rfl
  · rw [here]
    rfl
  · rw [here]
    rfl

end PoolInv

/-! ## Creation -/

/-- Execute freelist steps of the one thread that creates a freelist. -/
def poolRun : List FreelistAction → PoolState × FreelistPc →
    Option (PoolState × FreelistPc)
  | [], state => some state
  | action :: rest, (pool, pc) => (poolStep action pool pc).bind (poolRun rest)

/-- One round of the loop of `freelist_new_elements`. -/
def newRound (element : Addr × Addr) : List FreelistAction :=
  .run :: .malloc element.1 :: .init 1 (some element.2) ::
    List.replicate 7 .run

theorem poolRun_newRound {next : Addr → Word} {data : Addr → Ptr}
    {rest : List (Addr × Addr)} {fe block : Addr} {loop : NewElements}
    (more : loop.loop < loop.numberElements)
    (freshElement : (poolNew next data rest).fs.allocated fe = false)
    (freshBlock : (poolNew next data rest).block block = false)
    (later : List FreelistAction) :
    poolRun (newRound (fe, block) ++ later)
        (poolNew next data rest, .newElementsLoop loop) =
      poolRun later (poolNew next data ((fe, block) :: rest), .newElementsLoop
        { loop with loop := loop.loop + 1, count := loop.count + 1 }) := by
  have initFunc : (poolNew next data rest).fs.initFunc = true := by
    cases rest <;> rfl
  simp [newRound, poolRun, poolStep, freelistStep, more, freshElement,
    freshBlock, initFunc, List.replicate, afterNew, afterPush, abstractionDcas,
    FreelistState.initElement, FreelistState.storeNextPointer,
    FreelistState.storeNextCounter, poolNew]

section PoolNew

variable {next : Addr → Word} {data : Addr → Ptr}
  {elements : List (Addr × Addr)}

theorem poolNew_allocated {fe : Addr} :
    (poolNew next data elements).fs.allocated fe = true ↔
      fe ∈ elements.map Prod.fst := by
  induction elements with
  | nil => simp [poolNew]
  | cons head rest ih =>
    rcases head with ⟨first, block⟩
    by_cases same : fe = first
    · subst same
      simp [poolNew]
    · simp [poolNew, same, ih]

theorem poolNew_block {block : Addr} :
    (poolNew next data elements).block block = true ↔
      block ∈ elements.map Prod.snd := by
  induction elements with
  | nil => simp [poolNew]
  | cons head rest ih =>
    rcases head with ⟨first, own⟩
    by_cases same : block = own
    · subst same
      simp [poolNew]
    · simp [poolNew, same, ih]

/--
With memory for every element, `freelist_new_elements` pushes as many elements
as it is asked for.
-/
theorem freelistNewElements_pushes_all {rest : List (Addr × Addr)}
    {loop : NewElements}
    (all : loop.numberElements = loop.loop + elements.length)
    (distinct : ((elements ++ rest).map Prod.fst).Nodup)
    (blocks : ((elements ++ rest).map Prod.snd).Nodup) :
    poolRun (elements.flatMap newRound ++ [.run])
        (poolNew next data rest, .newElementsLoop loop) =
      some (poolNew next data (elements.reverse ++ rest),
        .newElementsReturn (loop.count + elements.length)) := by
  induction elements generalizing rest loop with
  | nil => simp [poolRun, poolStep, freelistStep, all]
  | cons element elements ih =>
    have more : loop.loop < loop.numberElements := by grind
    have freshElement : (poolNew next data rest).fs.allocated element.1 =
        false := by
      rw [← Bool.not_eq_true, poolNew_allocated]
      grind
    have freshBlock : (poolNew next data rest).block element.2 = false := by
      rw [← Bool.not_eq_true, poolNew_block]
      grind
    rw [List.flatMap_cons, List.append_assoc,
      poolRun_newRound more freshElement freshBlock, ih]
    case all => grind
    case distinct => grind
    case blocks => grind
    simp [Nat.add_assoc, Nat.add_comm 1]

theorem freelistNewElements_pushes_two :
    let new := poolNew (fun _ => ⟨none, 0⟩) fun _ => none
    poolRun ([(1, 11), (2, 12)].flatMap newRound ++ [.run])
        (new [], .newElementsLoop ⟨2, 0, 0⟩) =
      some (new [(2, 12), (1, 11)], .newElementsReturn 2) :=
  freelistNewElements_pushes_all rfl (by decide) (by decide)

theorem poolNew_counts (next : Addr → Word) (data : Addr → Ptr)
    (elements : List (Addr × Addr)) :
    (poolNew next data elements).fs.counted = (elements.map Prod.fst).reverse ∧
      (poolNew next data elements).fs.elementCount = elements.length ∧
      (poolNew next data elements).fs.abaCounter = elements.length := by
  induction elements with
  | nil => exact ⟨rfl, rfl, rfl⟩
  | cons head rest ih =>
    rcases ih with ⟨counted, count, counter⟩
    simp [poolNew, counted, count, counter]

theorem poolNew_data (distinct : (elements.map Prod.fst).Nodup)
    {fe block : Addr} (mem : (fe, block) ∈ elements) :
    (poolNew next data elements).fs.data fe = some block := by
  induction elements with
  | nil => simp at mem
  | cons head rest ih =>
    rcases head with ⟨first, own⟩
    rw [List.map_cons, List.nodup_cons] at distinct
    rcases List.mem_cons.mp mem with same | mem
    · simp only [Prod.mk.injEq] at same
      rcases same with ⟨rfl, rfl⟩
      simp [poolNew]
    · have ne : fe ≠ first := by
        intro same
        exact distinct.1 (List.mem_map.mpr ⟨_, mem, same⟩)
      simp only [poolNew, update_of_ne ne]
      exact ih distinct.2 mem

theorem poolNew_chain (distinct : (elements.map Prod.fst).Nodup) :
    ∃ cells, cells.map Prod.fst = elements.map Prod.fst ∧
      (∀ tag ∈ cells.map Prod.snd, tag ≤ elements.length) ∧
      TagLinked (poolNew next data elements).fs.next
        (poolNew next data elements).fs.top cells := by
  induction elements with
  | nil => exact ⟨[], rfl, by simp, rfl⟩
  | cons head rest ih =>
    rcases head with ⟨fe, block⟩
    rw [List.map_cons, List.nodup_cons] at distinct
    rcases ih distinct.2 with ⟨cells, same, bound, chain⟩
    have counter := (poolNew_counts next data rest).2.2
    refine ⟨(fe, rest.length + 1) :: cells, by simp [same], ?_, ?_⟩
    · intro tag mem
      rcases List.mem_cons.mp mem with rfl | mem
      · exact Nat.le_refl _
      · exact Nat.le_succ_of_le (bound tag mem)
    · simp only [poolNew, counter, tagLinked_cons, update_self, true_and]
      exact chain.update (same ▸ distinct.1)

/-- The freelist of a new container, before any thread uses it. -/
theorem PoolInv.new (Tid : Type) (distinct : (elements.map Prod.fst).Nodup)
    (blocks : (elements.map Prod.snd).Nodup) :
    ∃ cells, cells.map Prod.fst = elements.map Prod.fst ∧
      PoolInv (poolNew next data elements) (fun _ : Tid => .idle) ∅
        cells := by
  rcases poolNew_chain distinct with ⟨cells, same, bound, chain⟩
  rcases poolNew_counts next data elements with
    ⟨counted, count, counter⟩
  have element : ∀ fe, Ready (poolNew next data elements).fs
      (fun _ : Tid => .idle) fe → ∃ block, (fe, block) ∈ elements := by
    rintro fe ⟨taken, -⟩
    rw [poolNew_allocated, List.mem_map] at taken
    rcases taken with ⟨⟨other, block⟩, mem, rfl⟩
    exact ⟨block, mem⟩
  refine ⟨cells, same, ?_, ?_, ?_, ?_⟩
  · refine ⟨.of_chain chain (by rw [counter]; exact bound),
      fun _ => trivial, by simp, by simp, ?_, ?_, ?_, ?_⟩
    · intro fe
      rw [poolNew_allocated, same]
      simp [FreelistPc.inHand]
    · intro fe mem
      rw [counted, List.mem_reverse] at mem
      exact poolNew_allocated.mpr mem
    · rw [counted, List.nodup_reverse]
      exact distinct
    · rw [counted, count]
      simp
  · intro fe ready
    rcases element fe ready with ⟨block, mem⟩
    exact ⟨block, poolNew_data distinct mem,
      poolNew_block.mpr (List.mem_map.mpr ⟨_, mem, rfl⟩)⟩
  · intro left right block isLeft isRight dataLeft dataRight
    rcases element left isLeft with ⟨first, memberLeft⟩
    rcases element right isRight with ⟨second, memberRight⟩
    rw [poolNew_data distinct memberLeft, Option.some.injEq] at dataLeft
    rw [poolNew_data distinct memberRight, Option.some.injEq] at dataRight
    subst dataLeft
    subst dataRight
    exact congrArg Prod.fst
      (List.inj_on_of_nodup_map blocks memberLeft memberRight rfl)
  · intro fe taken _
    rw [counted, List.mem_reverse]
    exact poolNew_allocated.mp taken

/-- The first element of a freelist that no thread uses has been popped. -/
theorem PoolInv.popFirst {Tid : Type} {pool : PoolState} {fe : Addr}
    {tag : Nat} {cells : List (Addr × Nat)}
    (inv : PoolInv pool (fun _ : Tid => .idle) ∅ ((fe, tag) :: cells)) :
    PoolInv { pool with fs := { pool.fs with top := pool.fs.next fe } }
      (fun _ : Tid => .idle) {fe} cells := by
  have distinct := inv.freelist.tagged.nodup
  rw [List.map_cons, List.nodup_cons] at distinct
  refine ⟨⟨.of_chain inv.freelist.tagged.chain.2 ?_, fun _ => trivial, ?_, ?_,
    ?_, inv.freelist.countedAllocated, inv.freelist.countedNodup,
    inv.freelist.countedLength⟩, inv.payload, inv.injective, inv.counted⟩
  · intro other mem
    exact inv.freelist.tagged.tagBound other (by
      rw [List.map_cons]
      exact .tail _ mem)
  · rintro other rfl
    exact distinct.1
  · intro other _ tid held
    cases held
  · intro other
    change pool.fs.allocated other = true ↔ _
    rw [inv.freelist.allocated other]
    simp only [List.map_cons, List.mem_cons, Set.mem_empty_iff_false,
      Set.mem_singleton_iff, false_or, or_assoc]
    exact or_left_comm

end PoolNew

end Lockfreec.Basic.ElementPool
