import Lockfreec.Basic.Freelist
import Lockfreec.Lib.TaggedStack
import Mathlib.Data.Set.Insert

/-!
# The freelist invariant

The invariant is stated for a freelist whose threads may be anywhere inside
its functions, relative to a set `outside` of elements that are in the hands
of the freelist's users.  It is therefore the same for a freelist that is used
on its own and for the freelists inside the other containers.

The chain itself is a stack with tagged links, and every program point is a
stage of an access to it.  What the freelist adds is where its elements come
from and that `element_count` counts them.
-/

namespace Lockfreec.Basic.Freelist

open Function Lib.Chain Lib.Interleaving Lib.TaggedStack

/-! ## What a program point holds -/

/-- The element a thread has in hand inside a freelist function. -/
def FreelistPc.inHand : FreelistPc → Option Addr
  | .popReturn fe => fe
  | .newInit _ fe | .newCount _ fe | .pushIncrement _ fe
  | .pushReadPointer _ fe _ | .pushReadCounter _ fe _ _
  | .pushStorePointer _ fe _ _ | .pushStoreCounter _ fe _ _ | .pushDcas _ fe _ _ =>
    some fe
  | _ => none

/-- The stage of the access to the chain at a program point. -/
def FreelistPc.access : FreelistPc → Access Addr
  | .popReadPointer counter => .reading counter
  | .popLoop feLocal => .reading feLocal.counter
  | .popReadNextCounter feLocal fe nextPointer =>
    .loadedPointer fe feLocal.counter nextPointer
  | .popDcas feLocal fe exchange => .loaded fe feLocal.counter exchange
  | .popReturn (some fe) | .newInit _ fe | .newCount _ fe | .pushIncrement _ fe =>
    .holding fe
  | .pushReadPointer _ fe counter | .pushReadCounter _ fe counter _
  | .pushStorePointer _ fe counter _ => .drawn fe counter
  | .pushStoreCounter _ fe counter original =>
    .storedPointer fe counter original.pointer
  | .pushDcas _ fe counter original => .stored fe counter original
  | _ => .away

/-- The counter that a pop has read from `top`. -/
def FreelistPc.readCounter (pc : FreelistPc) : Option Nat :=
  pc.access.readTag

theorem FreelistPc.access_hand (pc : FreelistPc) :
    pc.access.hand = pc.inHand := by
  cases pc with
  | popReturn fe => cases fe <;> rfl
  | _ => rfl

/-- What a thread knows besides what it has seen of the chain. -/
def LocalOk (fs : FreelistState) : FreelistPc → Prop
  | .popReadNextCounter feLocal fe _ | .popDcas feLocal fe _ =>
    feLocal.pointer = some fe
  | .newInit _ fe | .newCount _ fe => fe ∉ fs.counted
  | _ => True

theorem LocalOk.congr {fs changed : FreelistState} {pc : FreelistPc}
    (before : LocalOk fs pc) (counted : changed.counted = fs.counted) :
    LocalOk changed pc := by
  cases pc <;> simp only [LocalOk, counted] at before ⊢ <;> exact before

theorem LocalOk.count {fs : FreelistState} {pc : FreelistPc} {fe : Addr}
    {total : Nat} (before : LocalOk fs pc) (notHeld : pc.inHand ≠ some fe) :
    LocalOk { fs with elementCount := total, counted := fs.counted ++ [fe] }
      pc := by
  have apart : ∀ {other}, pc.inHand = some other →
      other ∉ fs.counted → other ∉ fs.counted ++ [fe] := by
    intro other held absent mem
    rcases List.mem_append.mp mem with old | new
    · exact absent old
    · rw [List.mem_singleton] at new
      exact notHeld (new ▸ held)
  cases pc with
  | newInit | newCount => exact apart rfl before
  | _ => exact before

theorem afterPush_access (caller : Caller) :
    (afterPush caller).access = .away := by
  cases caller <;> rfl

theorem afterPush_inHand (caller : Caller) :
    (afterPush caller).inHand = none := by
  cases caller <;> rfl

theorem afterPush_localOk (fs : FreelistState) (caller : Caller) :
    LocalOk fs (afterPush caller) := by
  cases caller <;> trivial

theorem afterNew_access (fe : Addr) (rv : Nat) (caller : Caller) :
    (afterNew fe rv caller).access =
      if rv = 0 then .away else .holding fe := by
  cases caller with
  | none | some =>
    simp only [afterNew]
    split <;> rfl

theorem afterNew_inHand (fe : Addr) (rv : Nat) (caller : Caller) :
    (afterNew fe rv caller).inHand = if rv = 0 then none else some fe := by
  rw [← FreelistPc.access_hand, afterNew_access]
  split <;> rfl

theorem afterNew_localOk (fs : FreelistState) (fe : Addr) (rv : Nat)
    (caller : Caller) : LocalOk fs (afterNew fe rv caller) := by
  cases caller with
  | none => trivial
  | some loop =>
    simp only [afterNew]
    split <;> trivial

theorem afterNew_readCounter (fe : Addr) (rv : Nat) (caller : Caller) :
    (afterNew fe rv caller).readCounter = none := by
  rw [FreelistPc.readCounter, afterNew_access]
  split <;> rfl

/-! ## The invariant -/

/-- What a step between two program points does to the chain. -/
inductive ChainStep :
    FreelistPc → FreelistPc → List (Addr × Nat) → List (Addr × Nat) → Prop where
  | keep {before after : FreelistPc} {cells : List (Addr × Nat)}
      (quiet : freelistEvent before after = some .readTop ∨
        freelistEvent before after = none ∧ (after.readCounter = none ∨
            after.readCounter = before.readCounter)) :
      ChainStep before after cells cells
  | pop {feLocal exchange : Word} {fe : Addr} {rest : List (Addr × Nat)} :
      ChainStep (.popDcas feLocal fe exchange) (.popReturn (some fe))
        ((fe, feLocal.counter) :: rest) rest
  | push {caller : Caller} {fe : Addr} {counter : Nat} {original : Word}
      {cells : List (Addr × Nat)} :
      ChainStep (.pushDcas caller fe counter original) (afterPush caller)
        cells ((fe, counter) :: cells)

variable {Tid : Type}

/-- The invariant of a freelist whose chain is `cells`. -/
structure FreelistInv (fs : FreelistState) (pcs : Tid → FreelistPc)
    (outside : Set Addr) (cells : List (Addr × Nat)) : Prop where
  tagged : TaggedInv fs.next fs.top fs.abaCounter
    (fun thread => (pcs thread).access) cells
  localOk : ∀ thread, LocalOk fs (pcs thread)
  outsideNotCell : ∀ fe ∈ outside, fe ∉ cells.map Prod.fst
  outsideNotHeld : ∀ fe ∈ outside, ∀ thread, (pcs thread).inHand ≠ some fe
  allocated : ∀ fe, fs.allocated fe = true ↔
    fe ∈ cells.map Prod.fst ∨ fe ∈ outside ∨
      ∃ thread, (pcs thread).inHand = some fe
  countedAllocated : ∀ fe ∈ fs.counted, fs.allocated fe = true
  countedNodup : fs.counted.Nodup
  countedLength : fs.counted.length = fs.elementCount

namespace FreelistInv

variable {fs : FreelistState} {pcs : Tid → FreelistPc} {outside : Set Addr}
  {cells : List (Addr × Nat)} {tid : Tid} {old pc : FreelistPc}

variable {fe : Addr} {caller : Caller}

variable (inv : FreelistInv fs pcs outside cells)

include inv

theorem inHand_not_cell
    (held : (pcs tid).inHand = some fe) : fe ∉ cells.map Prod.fst := by
  rw [← FreelistPc.access_hand] at held
  exact (inv.tagged.accessOk tid).hand fe held

theorem inHand_apart {other : Tid} (held : (pcs tid).inHand = some fe)
    (ne : tid ≠ other) :
    (pcs other).inHand ≠ some fe := by
  rw [← FreelistPc.access_hand] at held ⊢
  exact (inv.tagged.compatible tid other ne).hand fe held

/-- The element of an unfinished push is not in the hands of a user. -/
theorem inHand_not_outside (held : (pcs tid).inHand = some fe) : fe ∉ outside :=
  fun mem => inv.outsideNotHeld fe mem tid held

omit inv in
theorem exists_inHand (fe : Addr) (tid : Tid) :
    (∃ other, (pcs other).inHand = some fe) ↔ (pcs tid).inHand = some fe ∨
        ∃ other, other ≠ tid ∧ (pcs other).inHand = some fe :=
  exists_thread (fun state : FreelistPc => state.inHand = some fe) tid

variable [DecidableEq Tid]

omit inv in
theorem exists_inHand_update :
    (∃ other, (update pcs tid pc other).inHand = some fe) ↔
      pc.inHand = some fe ∨
        ∃ other, other ≠ tid ∧ (pcs other).inHand = some fe :=
  exists_update fun state : FreelistPc => state.inHand = some fe

omit inv in
/-- The accesses of all threads after a step of one of them. -/
theorem access_update (pcs : Tid → FreelistPc) (tid : Tid) (pc : FreelistPc) :
    (fun other => (update pcs tid pc other).access) =
      update (fun other => (pcs other).access) tid pc.access :=
  field_update FreelistPc.access pcs tid pc

section

variable {after : FreelistState} {changed : List (Addr × Nat)}
  {beyond : Set Addr}
  (tagged : TaggedInv after.next after.top after.abaCounter
    (update (fun other => (pcs other).access) tid pc.access)
    changed)
  (localOk : LocalOk after pc) (counted : after.counted = fs.counted)
  (elementCount : after.elementCount = fs.elementCount)

include tagged localOk counted elementCount

/--
A step of a thread, given where the elements are afterwards: in the chain, in
the hands of the users, in those of the thread or of another one.
-/
theorem relocate (kept : ∀ fe ∈ fs.counted, after.allocated fe = true)
    (apart : ∀ fe ∈ beyond, fe ∉ changed.map Prod.fst ∧ pc.inHand ≠ some fe ∧
      ∀ other ≠ tid, (pcs other).inHand ≠ some fe)
    (allocated : ∀ fe, after.allocated fe = true ↔
      fe ∈ changed.map Prod.fst ∨ fe ∈ beyond ∨ pc.inHand = some fe ∨
        ∃ other, other ≠ tid ∧ (pcs other).inHand = some fe) :
    FreelistInv after (update pcs tid pc) beyond changed := by
  refine ⟨?_, ?_, fun fe mem => (apart fe mem).1, ?_, ?_, ?_, ?_, ?_⟩
  · rw [access_update]
    exact tagged
  · exact forall_update _ localOk fun other _ =>
      (inv.localOk other).congr counted
  · intro fe mem
    exact forall_update (fun state : FreelistPc => state.inHand ≠ some fe)
      (apart fe mem).2.1 (apart fe mem).2.2
  · intro fe
    rw [exists_inHand_update]
    exact allocated fe
  · rwa [counted]
  · rw [counted]
    exact inv.countedNodup
  · rw [counted, elementCount]
    exact inv.countedLength

/--
A step that creates no element: elements move between the chain and the
thread's hand only.
-/
theorem change (allocated : after.allocated = fs.allocated)
    (places : ∀ fe, fe ∈ changed.map Prod.fst ∨ pc.inHand = some fe ↔
      fe ∈ cells.map Prod.fst ∨ (pcs tid).inHand = some fe) :
    FreelistInv after (update pcs tid pc) outside changed := by
  refine inv.relocate tagged localOk counted elementCount ?_ ?_ ?_
  · rw [allocated]
    exact inv.countedAllocated
  · intro fe mem
    have notHeld := inv.outsideNotHeld fe mem
    rw [← and_assoc, ← not_or, places fe, not_or]
    exact ⟨⟨inv.outsideNotCell fe mem, notHeld tid⟩,
      fun other _ => notHeld other⟩
  · intro fe
    have moved := places fe
    rw [allocated, inv.allocated fe, exists_inHand fe tid]
    tauto

end

/--
A step that leaves the memory alone and keeps what the thread has in hand and
has drawn.  It may read the counter of `top`.
-/
theorem move (here : pcs tid = old) (sameHand : pc.inHand = old.inHand)
    (sameDrawn : pc.access.drawnTag = old.access.drawnTag)
    (readFrom : ∀ counter, pc.readCounter = some counter →
      old.readCounter = some counter ∨ counter = fs.top.counter)
    (knows : pc.access.Knows fs.next cells)
    (localOk : LocalOk fs pc) :
    FreelistInv fs (update pcs tid pc) outside cells := by
  subst here
  refine inv.change ?_ localOk rfl rfl rfl fun fe => by rw [sameHand]
  apply inv.tagged.move rfl _ sameDrawn readFrom knows
  rw [FreelistPc.access_hand, FreelistPc.access_hand]
  exact sameHand

theorem outer (here : (pcs tid).access = .away) (access : pc.access = .away)
    (localOk : LocalOk fs pc) :
    FreelistInv fs (update pcs tid pc) outside cells := by
  have empty : ∀ {state : FreelistPc}, state.access = .away →
      state.inHand = none := by
    intro state away
    rw [← FreelistPc.access_hand, away]
    rfl
  refine inv.move rfl ?_ ?_ ?_ ?_ localOk
  · rw [empty access, empty here]
  · rw [access, here]
  · simp [FreelistPc.readCounter, access, Access.readTag]
  · rw [access]
    trivial

/-- A private store: the cell written to is in the thread's hands. -/
theorem store {link : Word} (here : pcs tid = old) (held : old.inHand = some fe)
    (sameHand : pc.inHand = old.inHand)
    (sameDrawn : pc.access.drawnTag = old.access.drawnTag)
    (noRead : pc.readCounter = none)
    (knows : pc.access.Knows (update fs.next fe link) cells)
    (localOk : LocalOk fs pc) :
    FreelistInv { fs with next := update fs.next fe link }
      (update pcs tid pc) outside cells := by
  subst here
  refine inv.change ?_ (localOk.congr rfl) rfl rfl rfl
    fun other => by rw [sameHand]
  rw [← FreelistPc.access_hand] at held sameHand
  rw [← FreelistPc.access_hand] at sameHand
  exact inv.tagged.store rfl held sameHand sameDrawn noRead knows

/-- The double-word compare-and-swap of a pop that succeeds. -/
theorem unlink {feLocal exchange : Word}
    (here : pcs tid = .popDcas feLocal fe exchange) (equal : fs.top = feLocal) :
    ∃ rest, cells = (fe, feLocal.counter) :: rest ∧
      FreelistInv { fs with top := exchange }
        (update pcs tid (.popReturn (some fe))) outside
        rest := by
  have pointer := inv.localOk tid
  rw [here] at pointer
  change feLocal.pointer = some fe at pointer
  have access : (pcs tid).access = .loaded fe feLocal.counter exchange := by
    rw [here]
    rfl
  have top : fs.top = ⟨some fe, feLocal.counter⟩ := by
    rw [equal, ← pointer]
  rcases inv.tagged.unlink access top with ⟨rest, rfl, tagged⟩
  refine ⟨rest, rfl, inv.change tagged trivial rfl rfl rfl ?_⟩
  intro other
  rw [here, List.map_cons, List.mem_cons]
  simp only [FreelistPc.inHand, Option.some.injEq, reduceCtorEq]
  tauto

/-- The double-word compare-and-swap of a push that succeeds. -/
theorem link {counter : Nat} {original : Word}
    (here : pcs tid = .pushDcas caller fe counter original)
    (equal : fs.top = original) :
    FreelistInv { fs with top := ⟨some fe, counter⟩ }
      (update pcs tid (afterPush caller)) outside
      ((fe, counter) :: cells) := by
  have access : (pcs tid).access = .stored fe counter original := by
    rw [here]
    rfl
  refine inv.change ?_ (afterPush_localOk _ caller) rfl rfl rfl ?_
  · rw [afterPush_access]
    exact inv.tagged.link access equal
  · intro other
    rw [here, afterPush_inHand, List.map_cons, List.mem_cons]
    simp only [FreelistPc.inHand, Option.some.injEq, reduceCtorEq]
    tauto

/-! ## New elements -/

theorem allocate (here : pcs tid = .newMalloc caller)
    (fresh : fs.allocated fe = false) :
    FreelistInv
      { fs with allocated := update fs.allocated fe true }
      (update pcs tid (.newInit caller fe)) outside cells := by
  have nowhere : ¬ (fe ∈ cells.map Prod.fst ∨ fe ∈ outside ∨
      ∃ other, (pcs other).inHand = some fe) := by
    rw [← inv.allocated fe, fresh]
    simp
  simp only [not_or, not_exists] at nowhere
  have notCounted : fe ∉ fs.counted := by
    intro mem
    have taken := inv.countedAllocated fe mem
    simp [fresh] at taken
  refine inv.relocate ?_ notCounted rfl rfl ?_ ?_ ?_
  · apply inv.tagged.acquire nowhere.1
    intro other
    rw [FreelistPc.access_hand]
    exact nowhere.2.2 other
  · intro other mem
    have ne : other ≠ fe := ne_of_mem_of_not_mem mem notCounted
    simpa only [update_of_ne ne] using inv.countedAllocated other mem
  · intro other mem
    refine ⟨inv.outsideNotCell other mem, ?_,
      fun another _ => inv.outsideNotHeld other mem another⟩
    rintro ⟨⟩
    exact nowhere.2.1 mem
  · intro other
    by_cases same : other = fe
    · subst same
      simp [FreelistPc.inHand]
    · have unchanged := inv.allocated other
      rw [exists_inHand other tid, here] at unchanged
      simp only [update_of_ne same, unchanged]
      simp [FreelistPc.inHand, Ne.symm same]

/-- A new element whose `init_func` returned zero is freed again. -/
theorem free {data : Ptr} (here : pcs tid = .newInit caller fe) :
    FreelistInv (fs.initElement fe 0 data)
      (update pcs tid (afterNew fe 0 caller)) outside cells := by
  have notCounted := inv.localOk tid
  rw [here] at notCounted
  change fe ∉ fs.counted at notCounted
  have held : (pcs tid).inHand = some fe := by rw [here]; rfl
  have empty : (afterNew fe 0 caller).inHand = none :=
    afterNew_inHand fe 0 caller
  refine inv.relocate ?_ (afterNew_localOk _ fe 0 caller) rfl rfl ?_ ?_ ?_
  · rw [afterNew_access, if_pos rfl]
    exact inv.tagged.release
  · intro other mem
    have ne : other ≠ fe := ne_of_mem_of_not_mem mem notCounted
    simpa only [FreelistState.initElement, update_of_ne ne]
      using inv.countedAllocated other mem
  · intro other mem
    exact ⟨inv.outsideNotCell other mem, by simp [empty],
      fun another _ => inv.outsideNotHeld other mem another⟩
  · intro other
    rw [empty]
    by_cases same : other = fe
    · subst same
      simp only [FreelistState.initElement, update_self, ne_eq,
        not_true_eq_false, decide_false, Bool.false_eq_true,
        inv.inHand_not_cell held, inv.inHand_not_outside held,
        reduceCtorEq, false_or, false_iff, not_exists, not_and]
      intro another ne
      exact inv.inHand_apart held (Ne.symm ne)
    · have unchanged := inv.allocated other
      rw [exists_inHand other tid, held] at unchanged
      simp only [FreelistState.initElement, update_of_ne same, unchanged]
      simp [Ne.symm same]

/-- The result of `init_func` decides whether the element is kept. -/
theorem initElement (rv : Nat) (data : Ptr)
    (here : pcs tid = .newInit caller fe) :
    FreelistInv (fs.initElement fe rv data) (update pcs tid
        (if rv = 1 then .newCount caller fe else afterNew fe rv caller))
      outside cells := by
  by_cases zero : rv = 0
  · subst zero
    exact inv.free here
  · have uncounted := inv.localOk tid
    rw [here] at uncounted
    have held : (pcs tid).inHand = some fe := by rw [here]; rfl
    have taken : fs.allocated fe = true :=
      (inv.allocated fe).mpr (.inr (.inr ⟨tid, held⟩))
    have same : (fs.initElement fe rv data).allocated = fs.allocated := by
      simp [FreelistState.initElement, zero, ← taken]
    have kept : ∀ next : FreelistPc, next.access = .holding fe →
        LocalOk fs next → next.inHand = some fe →
        FreelistInv (fs.initElement fe rv data)
          (update pcs tid next) outside cells := by
      intro next access localOk hand
      refine inv.change ?_ (localOk.congr rfl) rfl rfl same
        fun other => by rw [hand, held]
      apply inv.tagged.move rfl
      · rw [access, here]
        rfl
      · rw [access, here]
        rfl
      · rw [access]
        simp [Access.readTag]
      · rw [access]
        trivial
    split
    · exact kept _ rfl uncounted rfl
    · refine kept _ ?_ (afterNew_localOk _ fe rv caller) ?_
      · rw [afterNew_access, if_neg zero]
      · rw [afterNew_inHand, if_neg zero]

theorem count (here : pcs tid = .newCount caller fe) : FreelistInv
      { fs with
        elementCount := fs.elementCount + 1
        counted := fs.counted ++ [fe] }
      (update pcs tid (afterNew fe 1 caller)) outside
      cells := by
  have notCounted := inv.localOk tid
  rw [here] at notCounted
  change fe ∉ fs.counted at notCounted
  have held : (pcs tid).inHand = some fe := by rw [here]; rfl
  have moved : FreelistInv fs
      (update pcs tid (afterNew fe 1 caller)) outside cells := by
    apply inv.move here
    · rw [afterNew_inHand]
      rfl
    · rw [afterNew_access]
      rfl
    · simp [afterNew_readCounter]
    · rw [afterNew_access]
      trivial
    · exact afterNew_localOk _ fe 1 caller
  refine ⟨moved.tagged, ?_, moved.outsideNotCell, moved.outsideNotHeld,
    moved.allocated, ?_, ?_, ?_⟩
  · apply forall_update _ (afterNew_localOk _ fe 1 caller)
    intro other ne
    exact (inv.localOk other).count (inv.inHand_apart held (Ne.symm ne))
  · intro other mem
    rcases List.mem_append.mp mem with before | new
    · exact inv.countedAllocated other before
    · rw [List.mem_singleton] at new
      subst new
      exact (inv.allocated other).mpr (.inr (.inr ⟨tid, held⟩))
  · refine List.nodup_append.mpr ⟨inv.countedNodup, by simp, ?_⟩
    intro left leftMember right rightMember same
    rw [List.mem_singleton] at rightMember
    exact notCounted (rightMember ▸ same ▸ leftMember)
  · simp [inv.countedLength]

/-! ## Elements passing in and out -/

theorem take (given : fe ∈ outside) (empty : (pcs tid).inHand = none)
    (access : pc.access = .holding fe) (localOk : LocalOk fs pc) :
    FreelistInv fs (update pcs tid pc) (outside \ {fe})
      cells := by
  have taken : pc.inHand = some fe := by
    rw [← FreelistPc.access_hand, access]
    rfl
  refine inv.relocate ?_ localOk rfl rfl inv.countedAllocated ?_ ?_
  · rw [access]
    apply inv.tagged.acquire (inv.outsideNotCell fe given)
    intro other
    rw [FreelistPc.access_hand]
    exact inv.outsideNotHeld fe given other
  · rintro other ⟨mem, ne⟩
    refine ⟨inv.outsideNotCell other mem, ?_,
      fun another _ => inv.outsideNotHeld other mem another⟩
    rw [taken]
    exact fun same => ne (Option.some.inj same).symm
  · intro other
    rw [inv.allocated other, exists_inHand other tid, empty, taken,
      Option.some.injEq]
    by_cases same : other = fe
    · subst same
      simp [given]
    · simp [same, Ne.symm same]

theorem give (held : (pcs tid).inHand = some fe) (access : pc.access = .away)
    (localOk : LocalOk fs pc) :
    FreelistInv fs (update pcs tid pc) (insert fe outside)
      cells := by
  have empty : pc.inHand = none := by
    rw [← FreelistPc.access_hand, access]
    rfl
  refine inv.relocate ?_ localOk rfl rfl inv.countedAllocated ?_ ?_
  · rw [access]
    exact inv.tagged.release
  · rw [empty]
    rintro other (rfl | mem)
    · exact ⟨inv.inHand_not_cell held, nofun,
        fun another ne => inv.inHand_apart held (Ne.symm ne)⟩
    · exact ⟨inv.outsideNotCell other mem, nofun,
        fun another _ => inv.outsideNotHeld other mem another⟩
  · intro other
    rw [inv.allocated other, exists_inHand other tid, empty, held,
      Option.some.injEq]
    by_cases same : other = fe
    · subst same
      simp
    · simp [same, Ne.symm same]

/-! ## Every step of a freelist function -/

omit inv [DecidableEq Tid] in
theorem step_newMalloc {action : FreelistAction} {after : FreelistState}
    (step : freelistStep action fs (.newMalloc caller) = some (after, pc)) :
    ∃ fe, fs.allocated fe = false ∧
      after = { fs with allocated := update fs.allocated fe true } ∧
      pc = .newInit caller fe := by
  simp only [freelistStep] at step
  split at step <;> try cases step
  next fe =>
    split at step <;> cases step
    next fresh => exact ⟨fe, by simpa using fresh, rfl, rfl⟩

omit inv [DecidableEq Tid] in
theorem step_newInit {action : FreelistAction} {after : FreelistState}
    (step : freelistStep action fs (.newInit caller fe) = some (after, pc)) :
    ∃ rv data, action = .init rv data ∧ after = fs.initElement fe rv data ∧
      pc = if rv = 1 then .newCount caller fe else afterNew fe rv caller := by
  simp only [freelistStep] at step
  split at step <;> try cases step
  next rv data =>
    split at step <;> cases step
    exact ⟨rv, data, rfl, rfl, rfl⟩

/-- Every step inside a freelist function keeps the invariant. -/
theorem step {action : FreelistAction} {after : FreelistState}
    (stepped : freelistStep action fs (pcs tid) = some (after, pc)) :
    ∃ changed, ChainStep (pcs tid) pc cells changed ∧
      FreelistInv after (update pcs tid pc) outside changed := by
  have knows := (inv.tagged.accessOk tid).knows
  have localOk := inv.localOk tid
  generalize here : pcs tid = old at stepped knows localOk ⊢
  cases old with
  | idle | popReturn | newElementsReturn | pushReturn => cases stepped
  | popReadCounter =>
    cases stepped
    refine ⟨cells, .keep (.inl rfl), inv.move here rfl rfl ?_ trivial trivial⟩
    intro counter read
    exact .inr (Option.some.inj read).symm
  | popReadPointer counter =>
    cases stepped
    exact ⟨cells, .keep (.inr ⟨rfl, .inr rfl⟩),
      inv.move here rfl rfl (fun _ => .inl) trivial trivial⟩
  | popLoop feLocal =>
    simp only [freelistStep] at stepped
    split at stepped
    · cases stepped
      refine ⟨cells, .keep (.inr ⟨rfl, .inl rfl⟩),
        inv.move here rfl rfl ?_ trivial trivial⟩
      intro counter read
      simp [FreelistPc.readCounter, FreelistPc.access, Access.readTag] at read
    · rename_i fe pointer
      cases stepped
      exact ⟨cells, .keep (.inr ⟨rfl, .inr rfl⟩),
        inv.move here rfl rfl (fun _ => .inl) (fun _ => rfl) pointer⟩
  | popReadNextCounter feLocal fe nextPointer =>
    cases stepped
    refine ⟨cells, .keep (.inr ⟨rfl, .inr rfl⟩),
      inv.move here rfl rfl (fun _ => .inl) ?_ localOk⟩
    intro mem
    rw [knows mem]
  | popDcas feLocal fe exchange =>
    cases stepped
    by_cases equal : fs.top = feLocal
    · simp only [abstractionDcas, if_pos equal, if_true]
      rcases inv.unlink here equal with ⟨rest, rfl, kept⟩
      exact ⟨rest, .pop, kept⟩
    · simp only [abstractionDcas, if_neg equal, Bool.false_eq_true, if_false]
      refine ⟨cells, .keep (.inl rfl), inv.move here rfl rfl ?_ trivial trivial⟩
      intro counter read
      exact .inr (Option.some.inj read).symm
  | newElementsLoop loop =>
    simp only [freelistStep] at stepped
    split at stepped
    all_goals
      cases stepped
      exact ⟨cells, .keep (.inr ⟨rfl, .inl rfl⟩),
        inv.move here rfl rfl (fun _ => .inl) trivial trivial⟩
  | newMalloc caller =>
    obtain ⟨fe, fresh, rfl, rfl⟩ := step_newMalloc stepped
    exact ⟨cells, .keep (.inr ⟨rfl, .inl rfl⟩), inv.allocate here fresh⟩
  | newInit caller fe =>
    obtain ⟨rv, data, -, rfl, rfl⟩ := step_newInit stepped
    refine ⟨cells, .keep (.inr ⟨rfl, .inl ?_⟩), inv.initElement rv data here⟩
    split
    · rfl
    · exact afterNew_readCounter fe rv caller
  | newCount caller fe =>
    cases stepped
    exact ⟨cells, .keep (.inr ⟨rfl, .inl (afterNew_readCounter fe 1 caller)⟩),
      inv.count here⟩
  | pushIncrement caller fe =>
    cases stepped
    have access : (pcs tid).access = .holding fe := by rw [here]; rfl
    refine ⟨cells, .keep (.inr ⟨rfl, .inl rfl⟩),
      inv.change (inv.tagged.draw access rfl rfl rfl trivial) trivial rfl
        rfl rfl ?_⟩
    intro other
    rw [here]
    rfl
  | pushReadPointer | pushReadCounter =>
    cases stepped
    exact ⟨cells, .keep (.inr ⟨rfl, .inl rfl⟩),
      inv.move here rfl rfl (fun _ => .inl) trivial trivial⟩
  | pushStorePointer caller fe counter original =>
    cases stepped
    refine ⟨cells, .keep (.inr ⟨rfl, .inl rfl⟩),
      inv.store here rfl rfl rfl rfl ?_ trivial⟩
    simp [FreelistPc.access, Access.Knows]
  | pushStoreCounter caller fe counter original =>
    cases stepped
    refine ⟨cells, .keep (.inr ⟨rfl, .inl rfl⟩),
      inv.store here rfl rfl rfl rfl ?_ trivial⟩
    have pointer : (fs.next fe).pointer = original.pointer := knows
    simp [FreelistPc.access, Access.Knows, pointer]
  | pushDcas caller fe counter original =>
    cases stepped
    by_cases equal : fs.top = original
    · simp only [abstractionDcas, if_pos equal, if_true]
      exact ⟨_, .push, inv.link here equal⟩
    · simp only [abstractionDcas, if_neg equal, Bool.false_eq_true, if_false]
      exact ⟨cells, .keep (.inr ⟨rfl, .inl rfl⟩),
        inv.move here rfl rfl (fun _ => .inl) trivial trivial⟩

end FreelistInv

end Lockfreec.Basic.Freelist
