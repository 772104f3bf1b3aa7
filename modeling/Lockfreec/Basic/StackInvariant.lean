import Lockfreec.Basic.Stack

/-!
# The stack invariant

The chain of the stack is a stack with tagged links over the blocks of its
freelist.  Every block in the chain or in the hands of a thread belongs to one
freelist element, and these elements are exactly the ones outside of the
freelist.  Since different elements have different blocks, the two structures
can be read separately: ownership of elements excludes that a block is in use
twice, and the tags of the stack exclude that a stale snapshot succeeds.
-/

namespace Lockfreec.Basic.Stack

open Function
open Basic.ElementPool Basic.Freelist Lib.Chain Lib.Interleaving Lib.TaggedStack

variable {Value : Type}

/-! ## What a program point holds -/

/-- Where a thread is inside the freelist. -/
def StackPc.freelistPc : StackPc Value → FreelistPc
  | .newElement _ _ pc | .popFreelistPush _ pc => pc
  | _ => .idle

/-- The stage of the access to the chain at a program point. -/
def StackPc.access : StackPc Value → Access Addr
  | .initIncrement _ _ se _ => .holding se
  | .initNextPointer _ _ se counter _ | .initNextCounter _ _ se counter _
  | .initFe _ _ se counter _ | .initData _ se counter _
  | .pushReadPointer _ se counter | .pushReadCounter _ se counter _
  | .pushStorePointer _ se counter _ => .drawn se counter
  | .pushStoreCounter _ se counter orgTop =>
    .storedPointer se counter orgTop.pointer
  | .pushDcas _ se counter orgTop => .stored se counter orgTop
  | .popLoop seLocal => .reading seLocal.counter
  | .popReadNextCounter seLocal se nextPointer =>
    .loadedPointer se seLocal.counter nextPointer
  | .popDcas seLocal se exchange => .loaded se seLocal.counter exchange
  | .popReadData se | .popReadFe se _ => .holding se
  | _ => .away

/-- The freelist element of the block that a thread has in hand. -/
def ownedFe (fe : Addr → Addr) : StackPc Value → Option Addr
  | .initIncrement _ fe _ _ | .initNextPointer _ fe _ _ _
  | .initNextCounter _ fe _ _ _ | .initFe _ fe _ _ _ => some fe
  | pc => pc.access.hand.map fe

/-- The compare-and-swap of a pop is made with the pair it has read. -/
def Snapshot : StackPc Value → Prop
  | .popReadNextCounter seLocal se _ | .popDcas seLocal se _ =>
    seLocal.pointer = some se
  | _ => True

theorem ownedFe_isSome (fe : Addr → Addr) (pc : StackPc Value) :
    (ownedFe fe pc).isSome = pc.access.hand.isSome := by
  cases pc <;> rfl

theorem exists_hand_of_ownedFe {fe : Addr → Addr} {pc : StackPc Value}
    {owned : Addr} (owns : ownedFe fe pc = some owned) :
    ∃ se, pc.access.hand = some se := by
  rw [← Option.isSome_iff_exists, ← ownedFe_isSome fe, owns]
  rfl

/-- What a step between two program points does to the chain. -/
inductive ContentStep :
    StackPc Value → StackPc Value → List (Addr × Nat) →
      List (Addr × Nat) → Prop where
  | keep {before after : StackPc Value} {cells : List (Addr × Nat)}
      (notPushed : ∀ guaranteed se counter orgTop,
        before = .pushDcas guaranteed se counter orgTop →
          after ≠ .pushReturn guaranteed true)
      (notPopped : ∀ se, after ≠ .popReadData se) :
      ContentStep before after cells cells
  | push {guaranteed : Bool} {se : Addr} {counter : Nat} {orgTop : Word}
      {cells : List (Addr × Nat)} :
      ContentStep (.pushDcas guaranteed se counter orgTop)
        (.pushReturn guaranteed true) cells ((se, counter) :: cells)
  | pop {seLocal exchange : Word} {se : Addr} {rest : List (Addr × Nat)} :
      ContentStep (.popDcas seLocal se exchange) (.popReadData se)
        ((se, seLocal.counter) :: rest) rest

/-! ## The invariant -/

variable {Tid : Type}

/-- The freelist elements whose blocks the stack and its threads use. -/
def inUse (fe : Addr → Addr) (pcs : Tid → StackPc Value)
    (cells : List (Addr × Nat)) : Set Addr :=
  { owned | (∃ se ∈ cells.map Prod.fst, fe se = owned) ∨
      ∃ thread, ownedFe fe (pcs thread) = some owned }

/-- The invariant of a stack with this chain and this freelist chain. -/
structure StackInv (ss : StackState Value) (pcs : Tid → StackPc Value)
    (cells free : List (Addr × Nat)) : Prop where
  tagged : TaggedInv ss.next ss.top ss.abaCounter
    (fun thread => (pcs thread).access) cells
  pool : PoolInv ss.pool (fun thread => (pcs thread).freelistPc)
    (inUse ss.fe pcs cells) free
  cellFe : ∀ se ∈ cells.map Prod.fst, ss.pool.fs.data (ss.fe se) = some se
  handFe : ∀ thread se fe, (pcs thread).access.hand = some se →
    ownedFe ss.fe (pcs thread) = some fe → ss.pool.fs.data fe = some se
  snapshot : ∀ thread, Snapshot (pcs thread)

namespace StackInv

variable {ss after : StackState Value} {pcs : Tid → StackPc Value}
  {cells changed free : List (Addr × Nat)} {tid : Tid} {old pc : StackPc Value}

variable {se : Addr} {guaranteed : Bool}

variable (inv : StackInv ss pcs cells free)

include inv

theorem hand_not_cell (held : (pcs tid).access.hand = some se) :
    se ∉ cells.map Prod.fst :=
  (inv.tagged.accessOk tid).hand se held

theorem hand_apart {other : Tid} (held : (pcs tid).access.hand = some se)
    (ne : tid ≠ other) :
    (pcs other).access.hand ≠ some se :=
  (inv.tagged.compatible tid other ne).hand se held

/-- The element of a block in hand is the element of no other block. -/
theorem ownedFe_unique {fe : Addr} (owns : ownedFe ss.fe (pcs tid) = some fe) :
    (∀ se ∈ cells.map Prod.fst, ss.fe se ≠ fe) ∧
      ∀ other, tid ≠ other → ownedFe ss.fe (pcs other) ≠ some fe := by
  rcases exists_hand_of_ownedFe owns with ⟨se, held⟩
  have data := inv.handFe tid se fe held owns
  constructor
  · rintro cell mem rfl
    have same := (inv.cellFe cell mem).symm.trans data
    rw [Option.some.injEq] at same
    exact inv.hand_not_cell held (same ▸ mem)
  · intro other ne otherOwns
    rcases exists_hand_of_ownedFe otherOwns with ⟨otherSe, otherHeld⟩
    have same := (inv.handFe other otherSe fe otherHeld otherOwns).symm.trans
      data
    rw [Option.some.injEq] at same
    exact inv.hand_apart held ne (same ▸ otherHeld)

variable [DecidableEq Tid]

omit inv in
omit [DecidableEq Tid] in
theorem exists_ownedFe (owned : Addr) (tid : Tid) :
    (∃ other, ownedFe ss.fe (pcs other) = some owned) ↔
      ownedFe ss.fe (pcs tid) = some owned ∨ ∃ other, other ≠ tid ∧
          ownedFe ss.fe (pcs other) = some owned :=
  exists_thread
    (fun state : StackPc Value => ownedFe ss.fe state = some owned) tid

omit inv in
theorem exists_ownedFe_update (owned : Addr) :
    (∃ other, ownedFe ss.fe (update pcs tid pc other) = some owned) ↔
      ownedFe ss.fe pc = some owned ∨ ∃ other, other ≠ tid ∧
          ownedFe ss.fe (pcs other) = some owned :=
  exists_update fun state : StackPc Value =>
    ownedFe ss.fe state = some owned

section

variable (here : pcs tid = old)

include here

/-- A step inside the stack functions that keeps the thread's element. -/
theorem keep (tagged : TaggedInv after.next after.top after.abaCounter
      (update (fun other => (pcs other).access) tid pc.access)
      cells)
    (pool : after.pool = ss.pool)
    (samePc : pc.freelistPc = old.freelistPc)
    (sameHand : pc.access.hand = old.access.hand)
    (sameOwned : ownedFe after.fe pc = ownedFe ss.fe old)
    (cellsFe : ∀ se ∈ cells.map Prod.fst, after.fe se = ss.fe se)
    (othersFe : ∀ other, other ≠ tid →
      ownedFe after.fe (pcs other) = ownedFe ss.fe (pcs other))
    (snapshot : Snapshot pc) :
    StackInv after (update pcs tid pc) cells free := by
  subst here
  have owned : ∀ other, ownedFe after.fe (update pcs tid pc other) =
        ownedFe ss.fe (pcs other) := by
    intro other
    by_cases same : other = tid
    · subst same
      rw [update_self]
      exact sameOwned
    · rw [update_of_ne same]
      exact othersFe other same
  have hand := project_update (fun state : StackPc Value =>
    state.access.hand) sameHand
  refine ⟨?_, ?_, ?_, ?_, ?_⟩
  · rwa [field_update StackPc.access]
  · have used : inUse after.fe (update pcs tid pc) cells =
        inUse ss.fe pcs cells := by
      ext fe
      apply or_congr
      · apply exists_congr
        intro se
        apply and_congr_right
        intro mem
        rw [cellsFe se mem]
      · simp only [owned]
    rw [used, pool]
    have same := project_update StackPc.freelistPc samePc
    simpa only [same] using inv.pool
  · intro se mem
    rw [pool, cellsFe se mem]
    exact inv.cellFe se mem
  · intro other se fe held owns
    rw [pool]
    rw [hand] at held
    rw [owned] at owns
    exact inv.handFe other se fe held owns
  · exact forall_update _ snapshot fun other _ => inv.snapshot other

/-- A step of `keep` that leaves the `fe` fields alone. -/
theorem keep_fe (tagged : TaggedInv after.next after.top after.abaCounter
      (update (fun other => (pcs other).access) tid pc.access)
      cells)
    (pool : after.pool = ss.pool) (fe : after.fe = ss.fe)
    (samePc : pc.freelistPc = old.freelistPc)
    (sameHand : pc.access.hand = old.access.hand)
    (sameOwned : ownedFe ss.fe pc = ownedFe ss.fe old)
    (snapshot : Snapshot pc) :
    StackInv after (update pcs tid pc) cells free := by
  apply inv.keep here tagged pool samePc sameHand _ _ _ snapshot
  · rw [fe]
    exact sameOwned
  · intro se _
    rw [fe]
  · intro other _
    rw [fe]

theorem pass (tagged : TaggedInv after.next after.top after.abaCounter
      (update (fun other => (pcs other).access) tid pc.access)
      changed)
    (pool : after.pool = ss.pool) (fe : after.fe = ss.fe)
    (samePc : pc.freelistPc = old.freelistPc)
    (ownedOld : ownedFe ss.fe old = old.access.hand.map ss.fe)
    (ownedNew : ownedFe ss.fe pc = pc.access.hand.map ss.fe)
    (places : ∀ se, se ∈ changed.map Prod.fst ∨ pc.access.hand = some se ↔
        se ∈ cells.map Prod.fst ∨ old.access.hand = some se)
    (snapshot : Snapshot pc) :
    StackInv after (update pcs tid pc) changed free := by
  subst here
  have data : ∀ se, se ∈ changed.map Prod.fst ∨
      pc.access.hand = some se → ss.pool.fs.data (ss.fe se) = some se := by
    intro se place
    rcases (places se).mp place with mem | held
    · exact inv.cellFe se mem
    · exact inv.handFe tid se _ held (by rw [ownedOld, held]; rfl)
  refine ⟨?_, ?_, ?_, ?_, ?_⟩
  · rwa [field_update StackPc.access]
  · have used : inUse after.fe (update pcs tid pc) changed =
        inUse ss.fe pcs cells := by
      ext owned
      change (_ ∨ _) ↔ (_ ∨ _)
      rw [fe, exists_ownedFe_update, exists_ownedFe owned tid, ownedOld,
        ownedNew, ← or_assoc, ← or_assoc]
      apply or_congr_left
      simp only [Option.map_eq_some_iff, ← exists_or, ← or_and_right, places]
    rw [used, pool]
    have same := project_update StackPc.freelistPc samePc
    simpa only [same] using inv.pool
  · intro se mem
    rw [pool, fe]
    exact data se (.inl mem)
  · intro other se owned
    rw [pool, fe]
    by_cases same : other = tid
    · subst same
      rw [update_self, ownedNew]
      intro held owns
      rw [held, Option.map_some, Option.some.injEq] at owns
      subst owns
      exact data se (.inr held)
    · rw [update_of_ne same]
      exact inv.handFe other se owned
  · exact forall_update _ snapshot fun other _ => inv.snapshot other

/-! ## Steps inside the freelist -/

omit inv here in
omit [DecidableEq Tid] in
theorem ownedFe_away {fe : Addr → Addr} {state : StackPc Value}
    (away : state.access = .away) : ownedFe fe state = none := by
  rw [← Option.isNone_iff_eq_none, ← Option.not_isSome, ownedFe_isSome, away]
  rfl

omit inv here in
theorem inUse_update {fe : Addr → Addr}
    (same : ownedFe fe pc = ownedFe fe (pcs tid)) :
    inUse fe (update pcs tid pc) cells = inUse fe pcs cells := by
  simp only [inUse, project_update (ownedFe fe) same]

theorem poolKeep {pool : PoolState} {freeAfter : List (Addr × Nat)}
    (wasAway : old.access = .away) (away : pc.access = .away)
    (kept : PoolInv pool (update (fun other => (pcs other).freelistPc) tid
        pc.freelistPc) (inUse ss.fe pcs cells) freeAfter)
    (data : ∀ fe ∈ inUse ss.fe pcs cells, pool.fs.data fe = ss.pool.fs.data fe)
    (snapshot : Snapshot pc) :
    StackInv { ss with pool := pool } (update pcs tid pc) cells
      freeAfter := by
  subst here
  have sameOwned : ∀ fe : Addr → Addr,
      ownedFe fe pc = ownedFe fe (pcs tid) := by
    intro fe
    rw [ownedFe_away away, ownedFe_away wasAway]
  refine ⟨?_, ?_, ?_, ?_, ?_⟩
  · rw [field_update StackPc.access, away]
    exact inv.tagged.release
  · rw [field_update StackPc.freelistPc, inUse_update (sameOwned ss.fe)]
    exact kept
  · intro se mem
    rw [data _ (.inl ⟨se, mem, rfl⟩)]
    exact inv.cellFe se mem
  · intro other se fe held owns
    have hand := project_update (fun state : StackPc Value =>
      state.access.hand) (by rw [away, wasAway]) other
    rw [hand] at held
    rw [project_update (ownedFe ss.fe) (sameOwned ss.fe)] at owns
    rw [data fe (.inr ⟨other, owns⟩)]
    exact inv.handFe other se fe held owns
  · exact forall_update _ snapshot fun other _ => inv.snapshot other

theorem poolMove {pool : PoolState} {action : FreelistAction}
    (pc : StackPc Value) (wasAway : old.access = .away)
    (away : pc.access = .away)
    (step : poolStep action ss.pool old.freelistPc = some (pool, pc.freelistPc))
    (snapshot : Snapshot pc) :
    ∃ freeAfter, StackInv { ss with pool := pool }
      (update pcs tid pc) cells freeAfter := by
  subst here
  rcases inv.pool.step step with ⟨freeAfter, kept⟩
  refine ⟨freeAfter, inv.poolKeep rfl wasAway away kept ?_ snapshot⟩
  intro fe mem
  apply poolStep_data step
  exact inv.pool.freelist.outsideNotHeld fe mem tid

/-- A call of a freelist function, or its return without an element. -/
theorem poolOuter (wasAway : old.access = .away) (away : pc.access = .away)
    (poolHere : old.freelistPc.access = .away)
    (poolAway : pc.freelistPc.access = .away)
    (localOk : LocalOk ss.pool.fs pc.freelistPc) (snapshot : Snapshot pc) :
    StackInv ss (update pcs tid pc) cells free := by
  subst here
  exact inv.poolKeep rfl wasAway away (inv.pool.move poolHere poolAway localOk)
    (fun _ _ => rfl) snapshot

end

/-- A new element comes out of the freelist and its block is looked up. -/
theorem acquire {data : Value} {fe : Addr}
    (here : pcs tid = .newElement guaranteed data (.popReturn (some fe)))
    (block : ss.pool.fs.data fe = some se) :
    StackInv ss (update pcs tid (.initIncrement guaranteed fe se data))
      cells free := by
  have freelistPc : (pcs tid).freelistPc = .popReturn (some fe) :=
    congrArg StackPc.freelistPc here
  have held : (pcs tid).freelistPc.inHand = some fe := by
    rw [freelistPc]
    rfl
  have unused : fe ∉ inUse ss.fe pcs cells :=
    inv.pool.freelist.inHand_not_outside held
  have ready := inv.pool.ready_of_popReturn freelistPc
  have apart : ∀ other ∈ inUse ss.fe pcs cells,
      ss.pool.fs.data other ≠ some se := by
    intro other mem same
    have equal := inv.pool.injective other fe se
      (inv.pool.ready_of_outside mem) ready same block
    exact unused (equal ▸ mem)
  refine ⟨?_, ?_, inv.cellFe, ?_, ?_⟩
  · rw [field_update StackPc.access]
    apply inv.tagged.acquire
    · intro mem
      exact apart _ (.inl ⟨se, mem, rfl⟩) (inv.cellFe se mem)
    · intro other held
      have owned : (ownedFe ss.fe (pcs other)).isSome = true := by
        rw [ownedFe_isSome, held]
        rfl
      rcases Option.isSome_iff_exists.mp owned with ⟨otherFe, owns⟩
      exact apart _ (.inr ⟨other, owns⟩) (inv.handFe other se otherFe held owns)
  · have used : inUse ss.fe (update pcs tid
        (.initIncrement guaranteed fe se data)) cells =
        insert fe (inUse ss.fe pcs cells) := by
      ext owned
      change (_ ∨ _) ↔ (_ ∨ (_ ∨ _))
      rw [exists_ownedFe_update, exists_ownedFe owned tid, here]
      simp only [ownedFe, StackPc.access, Access.hand, Option.map_none,
        Option.some.injEq, reduceCtorEq, false_or, eq_comm]
      exact or_left_comm
    rw [used, field_update StackPc.freelistPc]
    exact inv.pool.give freelistPc
  · intro other otherSe owned otherHeld owns
    by_cases same : other = tid
    · subst same
      rw [update_self] at otherHeld owns
      simp only [ownedFe, StackPc.access, Access.hand,
        Option.some.injEq] at otherHeld owns
      rw [← owns, ← otherHeld]
      exact block
    · rw [update_of_ne same] at otherHeld owns
      exact inv.handFe other otherSe owned otherHeld owns
  · exact forall_update _ trivial fun other _ => inv.snapshot other

theorem release {data : Value} (here : pcs tid = .popReadFe se data) :
    StackInv ss (update pcs tid
        (.popFreelistPush data (.pushIncrement none (ss.fe se))))
      cells free := by
  have owns : ownedFe ss.fe (pcs tid) = some (ss.fe se) :=
    congrArg (ownedFe ss.fe) here
  rcases inv.ownedFe_unique owns with ⟨notCell, notOther⟩
  refine ⟨?_, ?_, inv.cellFe, ?_, ?_⟩
  · rw [field_update StackPc.access]
    exact inv.tagged.release
  · have used : inUse ss.fe (update pcs tid
        (.popFreelistPush data (.pushIncrement none (ss.fe se)))) cells =
        inUse ss.fe pcs cells \ {ss.fe se} := by
      ext owned
      change (_ ∨ _) ↔ ((_ ∨ _) ∧ owned ≠ ss.fe se)
      rw [exists_ownedFe_update, exists_ownedFe owned tid, owns]
      constructor
      · rintro (⟨cell, mem, rfl⟩ | none | ⟨other, ne, isOther⟩)
        · exact ⟨.inl ⟨cell, mem, rfl⟩, notCell cell mem⟩
        · simp [ownedFe, StackPc.access, Access.hand] at none
        · refine ⟨.inr (.inr ⟨other, ne, isOther⟩), ?_⟩
          rintro rfl
          exact notOther other (Ne.symm ne) isOther
      · rintro ⟨cell | own | elsewhere, ne⟩
        · exact .inl cell
        · rw [Option.some.injEq] at own
          exact absurd own.symm ne
        · exact .inr (.inr elsewhere)
    rw [used, field_update StackPc.freelistPc]
    exact inv.pool.take (.inr ⟨tid, owns⟩) (congrArg StackPc.freelistPc here)
  · intro other otherSe owned held
    by_cases same : other = tid
    · subst same
      simp [StackPc.access, Access.hand] at held
    · rw [update_of_ne same] at held ⊢
      exact inv.handFe other otherSe owned held
  · exact forall_update _ trivial fun other _ => inv.snapshot other

/-! ## Every step of a stack function -/

theorem quiet (here : pcs tid = old) (samePc : pc.freelistPc = old.freelistPc)
    (sameHand : pc.access.hand = old.access.hand)
    (sameOwned : ownedFe ss.fe pc = ownedFe ss.fe old)
    (sameDrawn : pc.access.drawnTag = old.access.drawnTag)
    (readFrom : ∀ counter, pc.access.readTag = some counter →
      old.access.readTag = some counter ∨ counter = ss.top.counter)
    (knows : pc.access.Knows ss.next cells) (snapshot : Snapshot pc) :
    StackInv ss (update pcs tid pc) cells free :=
  inv.keep_fe here (inv.tagged.move (congrArg StackPc.access here) sameHand
    sameDrawn readFrom knows) rfl rfl samePc sameHand sameOwned snapshot

/-- A store into the `next` of the block in hand. -/
theorem storeNext {link : Word} (here : pcs tid = old)
    (held : old.access.hand = some se) (samePc : pc.freelistPc = old.freelistPc)
    (sameHand : pc.access.hand = old.access.hand)
    (sameOwned : ownedFe ss.fe pc = ownedFe ss.fe old)
    (sameDrawn : pc.access.drawnTag = old.access.drawnTag)
    (noRead : pc.access.readTag = none)
    (knows : pc.access.Knows (update ss.next se link) cells)
    (snapshot : Snapshot pc) :
    StackInv { ss with next := update ss.next se link }
      (update pcs tid pc) cells free :=
  inv.keep_fe here (inv.tagged.store (congrArg StackPc.access here) held
    sameHand sameDrawn noRead knows) rfl rfl samePc sameHand sameOwned snapshot

/-- The store of the `fe` field of the block in hand. -/
theorem storeFe {fe : Addr} {counter : Nat} {data : Value}
    (here : pcs tid = .initFe guaranteed fe se counter data) :
    StackInv { ss with fe := update ss.fe se fe }
      (update pcs tid (.initData guaranteed se counter data))
      cells free := by
  have held : (pcs tid).access.hand = some se := by
    rw [here]
    rfl
  refine inv.keep here (inv.tagged.move (congrArg StackPc.access here) rfl rfl
    (fun _ => .inl) trivial) rfl rfl rfl ?_ ?_ ?_ trivial
  · simp [ownedFe, StackPc.access, Access.hand]
  · intro other mem
    exact update_of_ne (ne_of_mem_of_not_mem mem (inv.hand_not_cell held)) _ _
  · intro other ne
    have apart := inv.hand_apart held (Ne.symm ne)
    have unchanged : (pcs other).access.hand.map (update ss.fe se fe) =
          (pcs other).access.hand.map ss.fe := by
      cases hand : (pcs other).access.hand with
      | none => rfl
      | some otherSe =>
        rw [hand, ne_eq, Option.some.injEq] at apart
        rw [Option.map_some, Option.map_some, update_of_ne apart]
    unfold ownedFe
    split <;> first | rfl | exact unchanged

theorem link {counter : Nat} {orgTop : Word}
    (here : pcs tid = .pushDcas guaranteed se counter orgTop)
    (equal : ss.top = orgTop) :
    StackInv { ss with top := ⟨some se, counter⟩ }
      (update pcs tid (.pushReturn guaranteed true))
      ((se, counter) :: cells) free := by
  refine inv.pass here (inv.tagged.link (congrArg StackPc.access here) equal)
    rfl rfl rfl rfl rfl ?_ trivial
  intro other
  rw [List.map_cons, List.mem_cons]
  simp only [StackPc.access, Access.hand, Option.some.injEq, reduceCtorEq,
    or_false]
  rw [or_comm, eq_comm]

theorem unlink {seLocal exchange : Word}
    (here : pcs tid = .popDcas seLocal se exchange) (equal : ss.top = seLocal) :
    ∃ rest, cells = (se, seLocal.counter) :: rest ∧
      StackInv { ss with top := exchange }
        (update pcs tid (.popReadData se)) rest free := by
  have pointer := inv.snapshot tid
  rw [here] at pointer
  change seLocal.pointer = some se at pointer
  have top : ss.top = ⟨some se, seLocal.counter⟩ := by
    rw [equal, ← pointer]
  rcases inv.tagged.unlink (congrArg StackPc.access here) top with
    ⟨rest, rfl, tagged⟩
  refine ⟨rest, rfl, inv.pass here tagged rfl rfl rfl rfl rfl ?_ trivial⟩
  intro other
  rw [List.map_cons, List.mem_cons]
  simp only [StackPc.access, Access.hand, Option.some.injEq, reduceCtorEq,
    or_false]
  rw [or_comm, eq_comm]

theorem call (op : StackOp Value) (here : pcs tid = .idle) :
    StackInv ss (update pcs tid (stackCall op)) cells free := by
  cases op <;> exact inv.poolOuter here rfl rfl rfl rfl trivial trivial

theorem returned {result : StackRet Value}
    (here : stackReturn (pcs tid) = some result) :
    StackInv ss (update pcs tid .idle) cells free := by
  cases state : pcs tid <;> simp [state, stackReturn] at here
  all_goals
    exact inv.quiet state rfl rfl rfl rfl (fun _ => .inl) trivial trivial

theorem step {action : FreelistAction}
    (stepped : stackStep action ss (pcs tid) = some (after, pc)) :
    ∃ changed freeAfter, ContentStep (pcs tid) pc cells changed ∧
      StackInv after (update pcs tid pc) changed freeAfter := by
  have knows := (inv.tagged.accessOk tid).knows
  have snapshot := inv.snapshot tid
  generalize here : pcs tid = old at stepped knows snapshot ⊢
  cases old with
  | idle | pushReturn | popReturn => cases stepped
  | newElement guaranteed data freelistPc =>
    rcases stackStep_newElement stepped with
      ⟨pool, next, moved, rfl, rfl⟩ | ⟨rfl, rfl, rfl⟩ |
      ⟨fe, se, rfl, block, rfl, rfl⟩
    · rcases inv.poolMove here (.newElement guaranteed data next) rfl rfl
        moved trivial with ⟨freeAfter, kept⟩
      exact ⟨cells, freeAfter, .keep (by simp) (by simp), kept⟩
    · exact ⟨cells, free, .keep (by simp) (by simp),
        inv.poolOuter here rfl rfl rfl rfl trivial trivial⟩
    · exact ⟨cells, free, .keep (by simp) (by simp), inv.acquire here block⟩
  | initIncrement guaranteed fe se data =>
    cases stepped
    exact ⟨cells, free, .keep (by simp) (by simp), inv.keep_fe here
      (inv.tagged.draw (congrArg StackPc.access here) rfl rfl rfl trivial)
      rfl rfl rfl rfl rfl trivial⟩
  | initNextPointer | initNextCounter =>
    cases stepped
    exact ⟨cells, free, .keep (by simp) (by simp),
      inv.storeNext here rfl rfl rfl rfl rfl rfl trivial trivial⟩
  | initFe guaranteed fe se counter data =>
    cases stepped
    exact ⟨cells, free, .keep (by simp) (by simp), inv.storeFe here⟩
  | initData guaranteed se counter data =>
    cases stepped
    exact ⟨cells, free, .keep (by simp) (by simp), inv.keep_fe here
      (inv.tagged.move (congrArg StackPc.access here) rfl rfl
        (fun _ => .inl) trivial) rfl rfl rfl rfl rfl trivial⟩
  | pushReadPointer | pushReadCounter | popReadPointer | popReadData =>
    cases stepped
    exact ⟨cells, free, .keep (by simp) (by simp),
      inv.quiet here rfl rfl rfl rfl (fun _ => .inl) trivial trivial⟩
  | pushStorePointer guaranteed se counter orgTop =>
    cases stepped
    refine ⟨cells, free, .keep (by simp) (by simp),
      inv.storeNext here rfl rfl rfl rfl rfl rfl ?_ trivial⟩
    simp [StackPc.access, Access.Knows]
  | pushStoreCounter guaranteed se counter orgTop =>
    cases stepped
    have pointer : (ss.next se).pointer = orgTop.pointer := knows
    refine ⟨cells, free, .keep (by simp) (by simp),
      inv.storeNext here rfl rfl rfl rfl rfl rfl ?_ trivial⟩
    simp [StackPc.access, Access.Knows, pointer]
  | pushDcas guaranteed se counter orgTop =>
    cases stepped
    by_cases equal : ss.top = orgTop
    · simp only [abstractionDcas, if_pos equal, if_true]
      exact ⟨_, free, .push, inv.link here equal⟩
    · simp only [abstractionDcas, if_neg equal, Bool.false_eq_true, if_false]
      exact ⟨cells, free, .keep (by simp) (by simp),
        inv.quiet here rfl rfl rfl rfl (fun _ => .inl) trivial trivial⟩
  | popReadCounter pointer =>
    cases stepped
    refine ⟨cells, free, .keep (by simp) (by simp),
      inv.quiet here rfl rfl rfl rfl ?_ trivial trivial⟩
    intro counter read
    exact .inr (Option.some.inj read).symm
  | popLoop seLocal =>
    simp only [stackStep] at stepped
    split at stepped
    · cases stepped
      refine ⟨cells, free, .keep (by simp) (by simp),
        inv.quiet here rfl rfl rfl rfl ?_ trivial trivial⟩
      simp [StackPc.access, Access.readTag]
    · rename_i se pointer
      cases stepped
      exact ⟨cells, free, .keep (by simp) (by simp),
        inv.quiet here rfl rfl rfl rfl (fun _ => .inl) (fun _ => rfl) pointer⟩
  | popReadNextCounter seLocal se nextPointer =>
    cases stepped
    refine ⟨cells, free, .keep (by simp) (by simp),
      inv.quiet here rfl rfl rfl rfl (fun _ => .inl) ?_ snapshot⟩
    intro mem
    rw [knows mem]
  | popDcas seLocal se exchange =>
    cases stepped
    by_cases equal : ss.top = seLocal
    · simp only [abstractionDcas, if_pos equal, if_true]
      rcases inv.unlink here equal with ⟨rest, rfl, kept⟩
      exact ⟨rest, free, .pop, kept⟩
    · simp only [abstractionDcas, if_neg equal, Bool.false_eq_true, if_false]
      refine ⟨cells, free, .keep (by simp) (by simp),
        inv.quiet here rfl rfl rfl rfl ?_ trivial trivial⟩
      intro counter read
      exact .inr (Option.some.inj read).symm
  | popReadFe se data =>
    cases stepped
    exact ⟨cells, free, .keep (by simp) (by simp), inv.release here⟩
  | popFreelistPush data freelistPc =>
    rcases stackStep_popFreelistPush stepped with
      ⟨pool, next, moved, rfl, rfl⟩ | ⟨rfl, rfl, rfl⟩
    · rcases inv.poolMove here (.popFreelistPush data next) rfl rfl moved
        trivial with ⟨freeAfter, kept⟩
      exact ⟨cells, freeAfter, .keep (by simp) (by simp), kept⟩
    · exact ⟨cells, free, .keep (by simp) (by simp),
        inv.poolOuter here rfl rfl rfl rfl trivial trivial⟩

end StackInv

end Lockfreec.Basic.Stack
