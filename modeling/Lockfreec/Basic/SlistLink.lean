import Lockfreec.Basic.Slist
import Lockfreec.Lib.Chain

/-!
# Insertions into the list

The loop condition of `slist_internal_link_after` compares a variable with the
value that the same expression assigns to it.  If the variable is read last,
the loop ends although the compare-and-swap has failed, and the new element is
in no list.  In `slist_internal_link_head` the left operand is a field of the
new element; read last, it may have been changed by an insertion behind the
new element, and the loop links the element once more.

As long as neither happens, every insertion puts its element between two
neighbours of a chain that ends in `NULL`.
-/

namespace Lockfreec.Basic.Slist

open Function Basic.Freelist Lib.Chain Lib.Interleaving

variable {Value : Type} {Tid : Type}

/-! ## What an evaluation order can do -/

/-- A step in which no evaluation order does harm.  Harmful are a failed
compare-and-swap of `slist_internal_link_after` whose result is read for both
operands, and a `next` that has changed since `slist_internal_link_head` has
linked its element. -/
def Harmless (compiler : Compiler) (ss : SlistState Value) :
    SlistPc Value → Prop
  | .headRight se compare seNext => compare = seNext → ss.next se = seNext
  | .afterCas _ ase _ compare =>
    compiler.after = .rightFirst → ss.next ase = compare
  | _ => True

instance (compiler : Compiler) (ss : SlistState Value) :
    (pc : SlistPc Value) → Decidable (Harmless compiler ss pc)
  | .headRight se compare seNext =>
    inferInstanceAs (Decidable (compare = seNext → ss.next se = seNext))
  | .afterCas _ ase _ compare =>
    inferInstanceAs
      (Decidable (compiler.after = .rightFirst → ss.next ase = compare))
  | .idle | .gone | .newMalloc .. | .newData .. | .newFlag .. | .headRead ..
  | .headStore .. | .headLeft .. | .headCompare .. | .headCas ..
  | .afterRead .. | .afterStore .. | .afterCompare .. | .newReturn ..
  | .data .. | .freeRead .. | .freeTest .. | .freeNext .. =>
    inferInstanceAs (Decidable True)

/-! ## The invariant -/

/-- The element that a thread has not linked yet. -/
def SlistPc.unlinked : SlistPc Value → Ptr
  | .newData _ se _ | .newFlag _ se | .headRead se | .headStore se _
  | .headLeft se | .headCompare se _ | .headCas se _ _ => some se
  | .headRight se compare seNext =>
    if compare = seNext then none else some se
  | .afterRead se _ | .afterStore se _ _ | .afterCompare se _ _
  | .afterCas se _ _ _ => some se
  | _ => none

/-- An insertion goes to the head or behind an element of the list. -/
def Place.Ok (cells : List Addr) : Place → Prop
  | .head => True
  | .after ase => ase ∈ cells

/-- What a thread knows at a program point; the deletion of all elements is
not reached. -/
def LinkOk (ss : SlistState Value) (cells : List Addr) :
    SlistPc Value → Prop
  | .newMalloc place _ | .newData place _ _ | .newFlag place _ => place.Ok cells
  | .headCompare se left => ∀ value, left = some value → value = ss.next se
  | .headCas se left compare =>
    compare = ss.next se ∧ ∀ value, left = some value → value = compare
  | .headRight se compare seNext =>
    (compare = seNext → se ∈ cells) ∧ (compare ≠ seNext → ss.next se = compare)
  | .afterRead _ ase | .afterStore _ ase _ => ase ∈ cells
  | .afterCompare se ase seNext => ase ∈ cells ∧ ss.next se = seNext
  | .afterCas se ase seNext compare =>
    ase ∈ cells ∧ ss.next se = compare ∧ seNext = compare
  | .newReturn (some se) => se ∈ cells
  | .gone | .freeRead _ | .freeTest _ _ | .freeNext _ _ => False
  | _ => True

/-- The invariant of a list with these elements. -/
structure LinkInv (ss : SlistState Value) (pcs : Tid → SlistPc Value)
    (cells : List Addr) : Prop where
  chain : Linked ss.next ss.head cells
  localOk : ∀ tid, LinkOk ss cells (pcs tid)
  allocated : ∀ se ∈ cells, ss.allocated se = true
  unlinkedAllocated : ∀ tid se, (pcs tid).unlinked = some se →
    ss.allocated se = true
  unlinkedOutside : ∀ tid se, (pcs tid).unlinked = some se → se ∉ cells
  unlinkedApart : ∀ left right, left ≠ right →
    ∀ se, (pcs left).unlinked = some se → (pcs right).unlinked ≠ some se

/-- What a thread knows stays true while the list grows and the element that
it has not linked yet is left alone. -/
theorem LinkOk.later {ss after : SlistState Value} {cells changed : List Addr}
    {pc : SlistPc Value} (ok : LinkOk ss cells pc)
    (grows : ∀ se ∈ cells, se ∈ changed)
    (same : ∀ se, pc.unlinked = some se → after.next se = ss.next se) :
    LinkOk after changed pc := by
  have placeOk : ∀ {place : Place}, place.Ok cells → place.Ok changed := by
    intro place known
    cases place with
    | head => trivial
    | after ase => exact grows ase known
  cases pc with
  | newMalloc | newData | newFlag => exact placeOk ok
  | headCompare se left | headCas se left compare =>
    rw [LinkOk, same se rfl]
    exact ok
  | headRight se compare seNext =>
    refine ⟨fun won => grows se (ok.1 won), fun failed => ?_⟩
    rw [same se (if_neg failed)]
    exact ok.2 failed
  | afterRead se ase | afterStore se ase seNext => exact grows ase ok
  | afterCompare se ase seNext | afterCas se ase seNext compare =>
    rw [LinkOk, same se rfl]
    exact ⟨grows ase ok.1, ok.2⟩
  | newReturn se =>
    cases se with
    | none => trivial
    | some se => exact grows se ok
  | gone | freeRead | freeTest | freeNext => exact ok
  | _ => trivial

/-- A list that has at most grown by one element. -/
structure Grows (cells changed : List Addr) (added : Ptr) : Prop where
  old : ∀ cell ∈ cells, cell ∈ changed
  new : ∀ cell ∈ changed, cell ∈ cells ∨ added = some cell

/-- A list into which at most one element was put, somewhere. -/
def Inserts (cells changed : List Addr) (added : Ptr) : Prop :=
  changed = cells ∨ ∃ se front back, added = some se ∧ cells = front ++ back ∧
      changed = front ++ se :: back

theorem Inserts.refl (cells : List Addr) (added : Ptr) :
    Inserts cells cells added :=
  .inl rfl

theorem Inserts.grows {cells changed : List Addr} {added : Ptr}
    (inserts : Inserts cells changed added) : Grows cells changed added := by
  rcases inserts with rfl | ⟨se, front, back, isAdded, rfl, rfl⟩
  · exact ⟨fun _ => id, fun _ => .inl⟩
  · constructor
    · intro cell mem
      rcases List.mem_append.1 mem with inFront | inBack
      · exact List.mem_append_left _ inFront
      · exact List.mem_append_right _ (.tail _ inBack)
    · intro cell mem
      rcases List.mem_append.1 mem with inFront | inBack
      · exact .inl (List.mem_append_left _ inFront)
      · rcases List.mem_cons.1 inBack with rfl | inRest
        · exact .inr isAdded
        · exact .inl (List.mem_append_right _ inRest)

namespace LinkInv

variable [DecidableEq Tid] {ss after : SlistState Value}
  {pcs : Tid → SlistPc Value} {cells : List Addr} {tid : Tid}
  {pc old : SlistPc Value}

variable {se : Addr}

theorem unlinked_update
    (others : ∀ se, pc.unlinked = some se → (pcs tid).unlinked = some se)
    {other : Tid} (unlinked : (update pcs tid pc other).unlinked = some se) :
    (pcs other).unlinked = some se := by
  rcases update_cases
    (fun state : SlistPc Value => state.unlinked = some se) unlinked with
    ⟨rfl, now⟩ | ⟨-, before⟩
  · exact others se now
  · exact before

variable (inv : LinkInv ss pcs cells)

include inv

/-- A step that leaves the links and the elements in use alone. -/
theorem keep (sameNext : after.next = ss.next) (sameHead : after.head = ss.head)
    (sameAllocated : after.allocated = ss.allocated)
    (unlinked : ∀ se, pc.unlinked = some se → (pcs tid).unlinked = some se)
    (own : LinkOk after cells pc) :
    LinkInv after (update pcs tid pc) cells := by
  constructor
  case chain =>
    rw [sameNext, sameHead]
    exact inv.chain
  case localOk =>
    apply forall_update _ own
    intro other _
    apply LinkOk.later (inv.localOk other) (fun _ => id)
    exact fun se _ => by rw [sameNext]
  case allocated =>
    rw [sameAllocated]
    exact inv.allocated
  case unlinkedAllocated =>
    rw [sameAllocated]
    exact fun other se known =>
      inv.unlinkedAllocated other se (unlinked_update unlinked known)
  case unlinkedOutside =>
    exact fun other se known =>
      inv.unlinkedOutside other se (unlinked_update unlinked known)
  case unlinkedApart =>
    intro left right ne se isLeft isRight
    exact inv.unlinkedApart left right ne se
      (unlinked_update unlinked isLeft) (unlinked_update unlinked isRight)

theorem malloc {place : Place} {data : Value}
    (here : pcs tid = .newMalloc place data) (fresh : ss.allocated se = false) :
    LinkInv
      { ss with allocated := update ss.allocated se true }
      (update pcs tid (.newData place se data)) cells := by
  have notKnown : ∀ other, (pcs other).unlinked ≠ some se := by
    intro other unlinked
    rw [inv.unlinkedAllocated other se unlinked] at fresh
    cases fresh
  have notCell : se ∉ cells := by
    intro mem
    rw [inv.allocated se mem] at fresh
    cases fresh
  have stays : ∀ {known : Addr}, ss.allocated known = true →
      update ss.allocated se true known = true := by
    intro known isAllocated
    by_cases same : known = se
    · rw [same, update_self]
    · rwa [update_of_ne same]
  constructor
  case chain => exact inv.chain
  case localOk =>
    have own := inv.localOk tid
    rw [here] at own
    apply forall_update (LinkOk _ cells)
    · exact own
    · intro other _
      exact LinkOk.later (inv.localOk other) (fun _ => id) fun _ _ => rfl
  case allocated => exact fun cell mem => stays (inv.allocated cell mem)
  case unlinkedAllocated =>
    intro other known unlinked
    rcases update_cases
      (fun state : SlistPc Value => state.unlinked = some known) unlinked
      with ⟨-, now⟩ | ⟨-, before⟩
    · cases now
      exact update_self ..
    · exact stays (inv.unlinkedAllocated other known before)
  case unlinkedOutside =>
    intro other known unlinked
    rcases update_cases
      (fun state : SlistPc Value => state.unlinked = some known) unlinked
      with ⟨-, now⟩ | ⟨-, before⟩
    · cases now
      exact notCell
    · exact inv.unlinkedOutside other known before
  case unlinkedApart =>
    apply pairwise_update fun left right : SlistPc Value =>
      ∀ se, left.unlinked = some se → right.unlinked ≠ some se
    · exact inv.unlinkedApart
    · intro other ne
      constructor
      · intro known isNew
        cases isNew
        exact notKnown other
      · intro known isOld isNew
        cases isNew
        exact notKnown other isOld

/-- A store into the `next` of an element that is not linked yet. -/
theorem store {se : Addr} {seNext : Ptr} (here : (pcs tid).unlinked = some se)
    (unlinked : pc.unlinked = some se)
    (own : LinkOk { ss with next := update ss.next se seNext } cells pc) :
    LinkInv { ss with next := update ss.next se seNext }
      (update pcs tid pc) cells := by
  have outside := inv.unlinkedOutside tid se here
  have same : ∀ known, pc.unlinked = some known →
      (pcs tid).unlinked = some known := by
    intro known isKnown
    rw [here, ← unlinked]
    exact isKnown
  constructor
  case chain => exact inv.chain.update outside
  case localOk =>
    apply forall_update _ own
    intro other ne
    apply LinkOk.later (inv.localOk other) (fun _ => id)
    intro known isKnown
    apply update_of_ne
    rintro rfl
    exact inv.unlinkedApart other tid ne known isKnown here
  case allocated => exact inv.allocated
  case unlinkedAllocated =>
    exact fun other known isKnown =>
      inv.unlinkedAllocated other known (unlinked_update same isKnown)
  case unlinkedOutside =>
    exact fun other known isKnown =>
      inv.unlinkedOutside other known (unlinked_update same isKnown)
  case unlinkedApart =>
    intro left right ne known isLeft isRight
    exact inv.unlinkedApart left right ne known
      (unlinked_update same isLeft) (unlinked_update same isRight)

theorem link {changed : List Addr} (here : (pcs tid).unlinked = some se)
    (linked : pc.unlinked = none) (chain : Linked after.next after.head changed)
    (members : ∀ cell, cell ∈ changed ↔ cell = se ∨ cell ∈ cells)
    (sameNext : ∀ cell ∉ cells, after.next cell = ss.next cell)
    (sameAllocated : after.allocated = ss.allocated)
    (own : LinkOk after changed pc) :
    LinkInv after (update pcs tid pc) changed := by
  have before : ∀ {other : Tid} {known : Addr},
      (update pcs tid pc other).unlinked = some known →
      other ≠ tid ∧ (pcs other).unlinked = some known := by
    intro other known isKnown
    rcases update_cases
      (fun state : SlistPc Value => state.unlinked = some known) isKnown
      with ⟨-, now⟩ | before
    · rw [linked] at now
      cases now
    · exact before
  constructor
  case chain => exact chain
  case localOk =>
    apply forall_update _ own
    intro other _
    apply LinkOk.later (inv.localOk other)
    · exact fun cell mem => (members cell).2 (.inr mem)
    · exact fun known isKnown =>
        sameNext known (inv.unlinkedOutside other known isKnown)
  case allocated =>
    rw [sameAllocated]
    intro cell mem
    rcases (members cell).1 mem with rfl | old
    · exact inv.unlinkedAllocated tid cell here
    · exact inv.allocated cell old
  case unlinkedAllocated =>
    rw [sameAllocated]
    exact fun other known isKnown =>
      inv.unlinkedAllocated other known (before isKnown).2
  case unlinkedOutside =>
    intro other known isKnown mem
    rcases before isKnown with ⟨ne, isOld⟩
    rcases (members known).1 mem with rfl | old
    · exact inv.unlinkedApart other tid ne known isOld here
    · exact inv.unlinkedOutside other known isOld old
  case unlinkedApart =>
    intro left right ne known isLeft isRight
    exact inv.unlinkedApart left right ne known (before isLeft).2
      (before isRight).2

/-! ## The steps of the insertions -/

/-- The compare-and-swap of `slist_internal_link_head`. -/
theorem headCas {left : Option Ptr} {compare : Ptr}
    (here : pcs tid = .headCas se left compare) (success : ss.head = compare)
    (linked : pc.unlinked = none) (own : ∀ changed, se ∈ changed →
      LinkOk { ss with head := some se } changed pc) :
    LinkInv { ss with head := some se } (update pcs tid pc) (se :: cells) := by
  have known := inv.localOk tid
  have unlinked : (pcs tid).unlinked = some se := by
    rw [here]
    rfl
  rw [here] at known
  refine inv.link unlinked linked ?_ (fun cell => List.mem_cons)
    (fun _ _ => rfl) rfl (own _ (.head _))
  refine ⟨rfl, ?_⟩
  change Linked ss.next (ss.next se) cells
  rw [← known.1, ← success]
  exact inv.chain

/-- The compare-and-swap of `slist_internal_link_after`. -/
theorem afterCas {ase : Addr} {seNext compare : Ptr}
    (here : pcs tid = .afterCas se ase seNext compare)
    (success : ss.next ase = compare) :
    ∃ changed, Inserts cells changed (some se) ∧
      LinkInv { ss with next := update ss.next ase (some se) }
        (update pcs tid (.newReturn (some se))) changed := by
  have known := inv.localOk tid
  have unlinked : (pcs tid).unlinked = some se := by
    rw [here]
    rfl
  have outside := inv.unlinkedOutside tid se unlinked
  rw [here] at known
  rcases known with ⟨inList, next, -⟩
  have ne : se ≠ ase := by
    rintro rfl
    exact outside inList
  rcases List.append_of_mem inList with ⟨front, back, rfl⟩
  have members : ∀ cell, cell ∈ front ++ ase :: se :: back ↔
      cell = se ∨ cell ∈ front ++ ase :: back := by
    intro cell
    simp only [List.mem_append, List.mem_cons]
    tauto
  refine ⟨front ++ ase :: se :: back,
    .inr ⟨se, front ++ [ase], back, rfl, by simp, by simp⟩,
    inv.link unlinked rfl ?_ members ?_ rfl ?_⟩
  · apply inv.chain.relink
    refine ⟨rfl, ?_⟩
    rw [update_of_ne ne, next, ← success]
    apply inv.chain.drop.update
    have nodup := inv.chain.nodup
    rw [List.nodup_append] at nodup
    exact (List.nodup_cons.1 nodup.2.1).1
  · intro cell notCell
    apply update_of_ne
    rintro rfl
    exact notCell inList
  · change se ∈ front ++ ase :: se :: back
    simp

theorem newStep {compiler : Compiler}
    (harmless : Harmless compiler ss (pcs tid))
    (step : newStep compiler ss (pcs tid) = some (after, pc)) :
    ∃ changed, Inserts cells changed (pcs tid).unlinked ∧
      LinkInv after (update pcs tid pc) changed := by
  have known := inv.localOk tid
  generalize here : pcs tid = old at step known harmless
  have unlinked : (pcs tid).unlinked = old.unlinked := by rw [here]
  have same : ∀ {after : SlistState Value} {pc : SlistPc Value},
      after.next = ss.next → after.head = ss.head →
      after.allocated = ss.allocated → pc.unlinked = old.unlinked →
      LinkOk after cells pc →
      ∃ changed, Inserts cells changed old.unlinked ∧
        LinkInv after (update pcs tid pc) changed := by
    intro after pc sameNext sameHead sameAllocated sameUnlinked own
    refine ⟨cells, .refl cells _,
      inv.keep sameNext sameHead sameAllocated ?_ own⟩
    rw [sameUnlinked, unlinked]
    exact fun _ => id
  cases old with
  | newData | afterRead =>
    cases step
    exact same rfl rfl rfl rfl known
  | newFlag place se =>
    cases step
    cases place with
    | head => exact same rfl rfl rfl rfl trivial
    | after ase => exact same rfl rfl rfl rfl known
  | headRead se =>
    cases step
    exact same rfl rfl rfl rfl trivial
  | headStore se seNext =>
    cases order : compiler.head with
    | leftFirst =>
      simp only [Slist.newStep, order, Option.some.injEq, Prod.mk.injEq] at step
      rcases step with ⟨rfl, rfl⟩
      exact ⟨cells, .refl cells _, inv.store unlinked rfl trivial⟩
    | rightFirst =>
      simp only [Slist.newStep, order, Option.some.injEq, Prod.mk.injEq] at step
      rcases step with ⟨rfl, rfl⟩
      exact ⟨cells, .refl cells _, inv.store unlinked rfl (by simp [LinkOk])⟩
  | headLeft se =>
    cases step
    refine same rfl rfl rfl rfl ?_
    rintro value isLeft
    cases isLeft
    rfl
  | headCompare se left =>
    cases step
    exact same rfl rfl rfl rfl ⟨rfl, known⟩
  | headCas se left compare =>
    cases step
    by_cases success : ss.head = compare
    · refine ⟨se :: cells, .inr ⟨se, [], cells, rfl, rfl, rfl⟩, ?_⟩
      rw [if_pos success]
      cases left with
      | none =>
        refine inv.headCas here success (if_pos success.symm) ?_
        exact fun changed mem =>
          ⟨fun _ => mem, fun failed => absurd success.symm failed⟩
      | some left =>
        have isLeft : left = ss.head := by
          rw [success]
          exact known.2 left rfl
        simp only [if_pos isLeft]
        exact inv.headCas here success rfl fun changed mem => mem
    · rw [if_neg success]
      cases left with
      | none =>
        have failed : compare ≠ ss.head := fun equal => success equal.symm
        refine same rfl rfl rfl (if_neg failed) ?_
        exact ⟨fun equal => absurd equal failed, fun _ => known.1.symm⟩
      | some left =>
        have notLeft : left ≠ ss.head := by
          rw [known.2 left rfl]
          exact fun equal => success equal.symm
        simp only [if_neg notLeft]
        exact same rfl rfl rfl rfl trivial
  | headRight se compare seNext =>
    cases step
    by_cases won : compare = seNext
    · rw [if_pos (harmless won)]
      exact same rfl rfl rfl (if_pos won).symm (known.1 won)
    · have changed : ss.next se ≠ seNext := by
        rw [known.2 won]
        exact won
      rw [if_neg changed]
      exact same rfl rfl rfl (if_neg won).symm trivial
  | afterStore se ase seNext =>
    cases step
    refine ⟨cells, .refl cells _, inv.store unlinked rfl ⟨known, ?_⟩⟩
    exact update_self ..
  | afterCompare se ase seNext =>
    cases step
    exact same rfl rfl rfl rfl ⟨known.1, rfl, known.2.symm⟩
  | afterCas se ase seNext compare =>
    cases step
    by_cases success : ss.next ase = compare
    · have ends : compiler.after.left seNext (ss.next ase) = ss.next ase := by
        cases compiler.after with
        | leftFirst => exact known.2.2.trans success.symm
        | rightFirst => rfl
      rw [if_pos success, if_pos ends]
      exact inv.afterCas here success
    · have order : compiler.after = .leftFirst := by
        cases order : compiler.after with
        | leftFirst => rfl
        | rightFirst => exact absurd (harmless order) success
      have loops : compiler.after.left seNext (ss.next ase) ≠ ss.next ase := by
        rw [order, EvalOrder.left, known.2.2]
        exact fun equal => success equal.symm
      rw [if_neg success, if_neg loops]
      exact same rfl rfl rfl rfl known.1
  | _ => cases step

end LinkInv

/-! ## Every step of the machine -/

theorem elementAt_mem {next : Addr → Ptr} {start : Ptr} {cells : List Addr}
    (linked : Linked next start cells) {position : Nat} {se : Addr}
    (found : elementAt next position start = some se) : se ∈ cells := by
  induction cells generalizing start position with
  | nil =>
    rw [linked_nil] at linked
    subst linked
    cases position <;> cases found
  | cons cell rest ih =>
    rcases linked with ⟨rfl, tail⟩
    cases position with
    | zero =>
      cases found
      exact .head _
    | succ position => exact .tail _ (ih tail found)

/-- Whether a call frees all elements. -/
def SlistAction.frees : SlistAction Value → Bool
  | .physicallyDeleteAllElements | .delete => true
  | _ => false

/-- No deletion of all elements, and no harm by an evaluation order. -/
def LinkGuard (compiler : Compiler)
    (config : Config Tid (SlistState Value) (SlistPc Value)) (tid : Tid)
    (action : SlistAction Value) : Prop :=
  action.frees = false ∧ Harmless compiler config.shared (config.threads tid)

instance (compiler : Compiler)
    (config : Config Tid (SlistState Value) (SlistPc Value)) (tid : Tid)
    (action : SlistAction Value) :
    Decidable (LinkGuard compiler config tid action) :=
  inferInstanceAs (Decidable (_ ∧ _))

theorem created_not_mem_slistEvents (ss : SlistState Value) (pc : SlistPc Value)
    (se : Ptr) :
    SlistEvent.created se ∉ slistEvents ss pc := by
  rw [slistEvents.eq_def]
  split
  · simp
  · simp
  · split <;> simp
  · simp

namespace LinkInv

variable [DecidableEq Tid] [DecidableEq Value] {ss after : SlistState Value}
  {pcs : Tid → SlistPc Value} {cells : List Addr} {tid : Tid}
  {pc old : SlistPc Value} {compiler : Compiler}

theorem inside (inv : LinkInv ss pcs cells)
    (harmless : Harmless compiler ss (pcs tid))
    (step : slistStep compiler ss (pcs tid) = some (after, pc)) :
    ∃ changed, Inserts cells changed (pcs tid).unlinked ∧
      LinkInv after (update pcs tid pc) changed := by
  by_cases isData : ∃ se dataPc, pcs tid = .data se dataPc
  · rcases isData with ⟨se, dataPc, here⟩
    rw [here] at step
    simp only [slistStep, Option.map_eq_some_iff, Prod.mk.injEq] at step
    rcases step with ⟨result, -, rfl, rfl⟩
    refine ⟨cells, .refl cells _, inv.keep rfl rfl rfl ?_ trivial⟩
    intro known isKnown
    cases isKnown
  · have isNew : Slist.newStep compiler ss (pcs tid) = some (after, pc) := by
      have known := inv.localOk tid
      generalize pcs tid = old at step isData known
      cases old with
      | data se dataPc => exact absurd ⟨se, dataPc, rfl⟩ isData
      | freeRead | freeTest | freeNext => exact absurd known id
      | _ => exact step
    exact inv.newStep harmless isNew

theorem step (inv : LinkInv ss pcs cells) {action : SlistAction Value}
    {outcome : Outcome (SlistState Value) (SlistPc Value)
      (Tid × SlistEvent Value)}
    (guard : LinkGuard compiler ⟨ss, pcs⟩ tid action)
    (stepped : (slistMachine compiler Tid).step tid action ss (pcs tid) =
      some outcome) :
    ∃ changed, Inserts cells changed (pcs tid).unlinked ∧
      (∀ other se, (other, .created (some se)) ∈ outcome.events →
        se ∈ changed) ∧
      LinkInv outcome.shared (update pcs tid outcome.thread)
        changed := by
  rcases guard with ⟨noDelete, harmless⟩
  have known := inv.localOk tid
  cases slistMachine_move stepped with
  | @returned event returned =>
    refine ⟨cells, .refl .., ?_, inv.keep rfl rfl rfl (by simp
      [SlistPc.unlinked]) trivial⟩
    intro other se mem
    rw [List.mem_singleton, Prod.mk.injEq] at mem
    rcases mem with ⟨-, rfl⟩
    generalize pcs tid = old at returned known
    cases old with
    | newReturn found =>
      cases returned
      exact known
    | data found dataPc =>
      rcases Option.map_eq_some_iff.1 returned with ⟨result, -, other⟩
      cases other
    | _ => cases returned
  | inside pending inner =>
    rcases inv.inside harmless inner with ⟨changed, inserts, kept⟩
    refine ⟨changed, inserts, ?_, kept⟩
    intro other se mem
    rcases List.mem_map.1 mem with ⟨event, isEvent, same⟩
    cases same
    exact absurd isEvent (created_not_mem_slistEvents ss (pcs tid) _)
  | @malloc place data address after next here inner =>
    cases address with
    | none =>
      cases inner
      exact ⟨cells, .refl .., by simp,
        inv.keep rfl rfl rfl (by simp [SlistPc.unlinked]) trivial⟩
    | some se =>
      simp only [slistMalloc] at inner
      split at inner
      · cases inner
      · next fresh =>
          cases inner
          exact ⟨cells, .refl .., by simp,
            inv.malloc here (Bool.eq_false_iff.2 fresh)⟩
  | @call action called here call =>
    have starts : called.unlinked = none ∧ LinkOk ss cells called := by
      cases action with
      | newHead data =>
        cases call
        exact ⟨rfl, trivial⟩
      | newNext position data =>
        rcases Option.map_eq_some_iff.1 call with ⟨ase, found, rfl⟩
        exact ⟨rfl, elementAt_mem inv.chain found⟩
      | call position dataCall =>
        rcases Option.map_eq_some_iff.1 call with ⟨se, found, rfl⟩
        exact ⟨rfl, trivial⟩
      | physicallyDeleteAllElements | delete =>
        cases noDelete
      | malloc | inside => cases call
    refine ⟨cells, .refl .., by simp, inv.keep rfl rfl rfl ?_ starts.2⟩
    rw [starts.1]
    simp

end LinkInv

/--
In a run in which no evaluation order does harm, the list is always a chain
that ends in `NULL` without repeating an element, and every element whose
creating call has returned is in it.
-/
theorem slist_insertions_kept [DecidableEq Tid] [DecidableEq Value]
    (compiler : Compiler) {hasDeleteFunc : Bool} {next : Addr → Ptr}
    {dataFlag : Addr → DataFlag Value} {history : List (Tid × SlistEvent Value)}
    {config : Config Tid (SlistState Value) (SlistPc Value)}
    (run : (slistMachine compiler Tid).RunWhere (LinkGuard compiler)
      (slistStart Tid (slistNew hasDeleteFunc next dataFlag)) history
      config) :
    ∃ cells, Linked config.shared.next config.shared.head cells ∧ cells.Nodup ∧
      ∀ tid se, (tid, .created (some se)) ∈ history → se ∈ cells := by
  have inv : ∃ cells, LinkInv config.shared config.threads cells ∧
      ∀ tid se, (tid, .created (some se)) ∈ history → se ∈ cells := by
    apply run.invariant fun history config =>
      ∃ cells, LinkInv config.shared config.threads cells ∧
        ∀ tid se, (tid, .created (some se)) ∈ history → se ∈ cells
    · refine ⟨[], ?_, by simp⟩
      exact ⟨rfl, fun _ => trivial, by simp, by simp [slistStart,
        SlistPc.unlinked], by simp, by simp [slistStart, SlistPc.unlinked]⟩
    · rintro history config tid action outcome ⟨cells, inv, past⟩ guard stepped
      rcases inv.step guard stepped with ⟨changed, inserts, now, kept⟩
      refine ⟨changed, kept, ?_⟩
      intro other se member
      rcases List.mem_append.1 member with before | new
      · exact inserts.grows.old se (past other se before)
      · exact now other se new
  rcases inv with ⟨cells, inv, past⟩
  exact ⟨cells, inv.chain, inv.chain.nodup, past⟩

/-- Two threads insert behind the same element; the operands are evaluated
from left to right. -/
theorem slist_insertions_kept_race :
    ∃ (config : Config Bool (SlistState Nat) (SlistPc Nat)) (cells : List Addr),
      Linked config.shared.next config.shared.head cells ∧ 2 ∈ cells ∧
        3 ∈ cells := by
  have executed : (slistMachine ⟨.leftFirst, .leftFirst⟩ Bool).executeWhere
      (LinkGuard ⟨.leftFirst, .leftFirst⟩)
      (slistStart Bool (slistNew false (fun _ => none) fun _ => ⟨0, 0⟩))
      ((false, .newHead 10) :: (false, .malloc (some 1)) ::
        List.replicate 8 (false, .inside) ++
        (true, .newNext 0 20) :: (true, .malloc (some 2)) ::
        List.replicate 3 (true, .inside) ++
        (false, .newNext 0 30) :: (false, .malloc (some 3)) ::
        List.replicate 7 (false, .inside) ++
        List.replicate 7 (true, .inside)) =
      some (_, [(false, .called), (false, .created (some 1)),
        (true, .called), (false, .called), (false, .created (some 3)),
        (true, .created (some 2))]) :=
    rfl
  rcases slist_insertions_kept _ (Machine.runWhere_of_execute executed) with
    ⟨cells, chain, -, created⟩
  exact ⟨_, cells, chain, created true 2 (by simp), created false 3 (by simp)⟩

/-- If the operands are evaluated from right to left, the second of the two
insertions ends with its element in no list. -/
theorem slist_insertion_lost : ∃ (history : List (Bool × SlistEvent Nat))
      (config : Config Bool (SlistState Nat) (SlistPc Nat)),
      (slistMachine ⟨.leftFirst, .rightFirst⟩ Bool).Run
        (slistStart Bool (slistNew false (fun _ => none) fun _ => ⟨0, 0⟩))
        history config ∧
      (true, .created (some 2)) ∈ history ∧
      ∀ cells, Linked config.shared.next config.shared.head cells →
        2 ∉ cells := by
  have executed : (slistMachine ⟨.leftFirst, .rightFirst⟩ Bool).execute
      (slistStart Bool (slistNew false (fun _ => none) fun _ => ⟨0, 0⟩))
      ((false, .newHead 10) :: (false, .malloc (some 1)) ::
        List.replicate 8 (false, .inside) ++
        (true, .newNext 0 20) :: (true, .malloc (some 2)) ::
        List.replicate 3 (true, .inside) ++
        (false, .newNext 0 30) :: (false, .malloc (some 3)) ::
        List.replicate 7 (false, .inside) ++
        List.replicate 4 (true, .inside)) =
      some (_, [(false, .called), (false, .created (some 1)),
        (true, .called), (false, .called), (false, .created (some 3)),
        (true, .created (some 2))]) :=
    rfl
  refine ⟨_, _, Machine.run_of_execute executed, by simp, ?_⟩
  intro cells linked
  have isList : cells = [1, 3] := linked.unique ⟨rfl, rfl, rfl⟩
  rw [isList]
  decide

end Lockfreec.Basic.Slist
