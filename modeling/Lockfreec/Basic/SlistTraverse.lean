import Lockfreec.Basic.SlistLink
import Lockfreec.Lib.Solo

/-!
# Traversing the list

One thread iterates with `slist_pick_head` from `NULL` until it gets `NULL`,
while others insert elements and delete them logically.  The list only grows,
so the cursor always splits it into a part that it has passed and a part
before it, and a passed element was yielded or is deleted.
-/

namespace Lockfreec.Basic.Slist

open Function Basic.Freelist Lib.Chain Lib.Interleaving

variable {Value : Type} {Tid : Type}

/-! ## The cursor -/

/-- The program points of the iterating thread. -/
inductive CursorPc where
  /-- The call of `slist_pick_head` with this `*se`. -/
  | pick (se : Ptr)
  /-- The loop condition of `slist_internal_moveto_first`. -/
  | test (se : Ptr)
  /-- The body of that loop. -/
  | skip (se : Addr)
  /-- `slist_pick_head` returns. -/
  | picked (se : Ptr)
  | done
deriving DecidableEq

/-- A step of the iterating thread, with what `slist_pick_head` yields. -/
def cursorStep (ss : SlistState Value) :
    CursorPc → Option (CursorPc × List Ptr)
  -- slist_get_head
  | .pick none => some (.test ss.head, [])
  -- slist_get_next
  | .pick (some se) => some (.test (ss.next se), [])
  -- slist_internal_moveto_first
  | .test none => some (.picked none, [])
  | .test (some se) =>
    some (if (ss.dataFlag se).deleted then .skip se else .picked (some se), [])
  | .skip se => some (.test (ss.next se), [])
  | .picked none => some (.done, [none])
  | .picked (some se) => some (.pick (some se), [some se])
  | .done => none

/-- The program points of all threads. -/
inductive TraversePc (Value : Type) where
  | worker (pc : SlistPc Value)
  | cursor (pc : CursorPc)

/-- The program point of a thread as seen by the list operations. -/
def TraversePc.pc : TraversePc Value → SlistPc Value
  | .worker pc => pc
  | .cursor _ => .idle

inductive TraverseEvent (Tid Value : Type) where
  | worker (thread : Option Tid) (event : SlistEvent Value)
  /-- `slist_pick_head` has returned this element, or `NULL`. -/
  | yielded (se : Ptr)
deriving DecidableEq

/-- The thread `none` iterates, the others work on the list.  The action
`none` is the next step of the cursor. -/
def traverseMachine [DecidableEq Value] (compiler : Compiler) (Tid : Type) :
    Machine (Option Tid) (Option (SlistAction Value)) (SlistState Value)
      (TraversePc Value) (TraverseEvent Tid Value) where
  step thread action ss pc :=
    match pc, action with
    | .worker pc, some action =>
      ((slistMachine compiler (Option Tid)).step thread action ss pc).map
        fun outcome =>
          ⟨outcome.shared, .worker outcome.thread,
            outcome.events.map fun event => .worker event.1 event.2⟩
    | .cursor pc, none =>
      (cursorStep ss pc).map fun result =>
        ⟨ss, .cursor result.1, result.2.map .yielded⟩
    | _, _ => none

/-- All threads before their first call. -/
def traverseStart (Tid : Type) (ss : SlistState Value) :
    Config (Option Tid) (SlistState Value) (TraversePc Value) where
  shared := ss
  threads := fun
    | none => .cursor (.pick none)
    | some _ => .worker .idle

/-- No deletion of all elements, and the insertions link correctly. -/
def TraverseGuard (compiler : Compiler)
    (config : Config (Option Tid) (SlistState Value) (TraversePc Value))
    (thread : Option Tid) : Option (SlistAction Value) → Prop
  | none => True
  | some action =>
    LinkGuard compiler
      ⟨config.shared, fun other => (config.threads other).pc⟩ thread action

instance (compiler : Compiler)
    (config : Config (Option Tid) (SlistState Value) (TraversePc Value))
    (thread : Option Tid) :
    (action : Option (SlistAction Value)) →
      Decidable (TraverseGuard compiler config thread action)
  | none => inferInstanceAs (Decidable True)
  | some _ => inferInstanceAs (Decidable (LinkGuard ..))

/-- The elements that the iteration has yielded, in this order. -/
def yields (history : List (TraverseEvent Tid Value)) : List Addr :=
  history.filterMap fun
    | .yielded se => se
    | .worker .. => none

/-! ## What the other threads do to the list -/

theorem dataStep_deleted [DecidableEq Value] {hasDeleteFunc : Bool}
    {held after : DataFlag Value} {pc next : DataPc Value}
    (step : dataStep hasDeleteFunc held pc = some (after, next))
    (deleted : held.deleted = true) : after.deleted = true := by
  cases pc with
  | setDcas data dataFlag =>
    simp only [dataStep] at step
    split at step
    · next same =>
        cases step
        rw [same] at deleted
        exact deleted
    · cases step
      exact deleted
  | deleteDcas dataFlag =>
    simp only [dataStep] at step
    split at step
    · cases step
      exact dataFlag.delete_deleted
    · cases step
      exact deleted
  | idle | setReturn | getReturn | deleteReturn => cases step
  | _ =>
    cases step
    exact deleted

section

variable [DecidableEq Value] {compiler : Compiler}

/-- An element of the list that is deleted stays deleted. -/
theorem LinkInv.deleted_kept {ss : SlistState Value} {pcs : Tid → SlistPc Value}
    {cells : List Addr} {tid : Tid} {action : SlistAction Value} {se : Addr}
    {outcome : Outcome (SlistState Value) (SlistPc Value)
      (Tid × SlistEvent Value)}
    (inv : LinkInv ss pcs cells)
    (step : (slistMachine compiler Tid).step tid action ss (pcs tid) =
      some outcome)
    (mem : se ∈ cells) (deleted : (ss.dataFlag se).deleted = true) :
    (outcome.shared.dataFlag se).deleted = true := by
  have linked : (pcs tid).unlinked ≠ some se :=
    fun unlinked => inv.unlinkedOutside tid se unlinked mem
  cases slistMachine_move step with
  | returned | call => exact deleted
  | @malloc place data address after next here inner =>
    cases address with
    | none =>
      cases inner
      exact deleted
    | some se =>
      simp only [slistMalloc] at inner
      split at inner
      · cases inner
      · cases inner
        exact deleted
  | @inside after next pending inner =>
    generalize pcs tid = pc at inner linked
    cases pc with
    | data own dataPc =>
      rcases Option.map_eq_some_iff.1 inner with ⟨result, moved, same⟩
      cases same
      by_cases isOwn : se = own
      · subst isOwn
        show (update ss.dataFlag se result.1 se).deleted = true
        rw [update_self]
        exact dataStep_deleted moved deleted
      · show (update ss.dataFlag own result.1 se).deleted = true
        rwa [update_of_ne isOwn]
    | newData place own data | newFlag place own =>
      cases inner
      have ne : se ≠ own := by
        rintro rfl
        exact linked rfl
      show (update ss.dataFlag own _ se).deleted = true
      rwa [update_of_ne ne]
    | freeTest last found => cases found <;> cases inner <;> exact deleted
    | _ => cases inner <;> exact deleted

end

/-! ## The cursor in the list -/

/-- What has become of the elements in the passed part of the list: those of
the list at the beginning were yielded or are deleted. -/
structure Seen (ss : SlistState Value) (linked yielded passed : List Addr) :
    Prop where
  order : yielded.Sublist passed
  complete : ∀ se ∈ linked, se ∈ passed →
    se ∈ yielded ∨ (ss.dataFlag se).deleted = true

/-- Where the cursor stands. -/
def CursorOk (ss : SlistState Value) (linked cells yielded : List Addr) :
    CursorPc → Prop
  | .pick none => yielded = []
  | .pick (some se) | .skip se =>
    ∃ front back, cells = front ++ se :: back ∧
      Seen ss linked yielded (front ++ [se])
  | .test se | .picked se =>
    ∃ front back, cells = front ++ back ∧ se = back.head? ∧
      Seen ss linked yielded front
  | .done => Seen ss linked yielded cells

theorem linked_head {next : Addr → Ptr} {start : Ptr} {cells : List Addr}
    (chain : Linked next start cells) : start = cells.head? := by
  cases cells with
  | nil => exact chain
  | cons se cells => exact chain.1

theorem linked_back {next : Addr → Ptr} {start : Ptr} {front back : List Addr}
    (chain : Linked next start (front ++ back)) :
    Linked next back.head? back := by
  cases back with
  | nil => rfl
  | cons se back => exact ⟨rfl, chain.drop⟩

section

variable {ss after : SlistState Value}
  {linked cells changed yielded passed longer : List Addr}

theorem Seen.later (seen : Seen ss linked yielded passed)
    (sublist : passed.Sublist longer)
    (old : ∀ se ∈ linked, se ∈ longer → se ∈ passed)
    (kept : ∀ se ∈ linked, (ss.dataFlag se).deleted = true →
      (after.dataFlag se).deleted = true) :
    Seen after linked yielded longer where
  order := seen.order.trans sublist
  complete := by
    intro se isLinked inside
    rcases seen.complete se isLinked (old se isLinked inside) with
      isYielded | deleted
    · exact .inl isYielded
    · exact .inr (kept se isLinked deleted)

variable {added : Ptr} {pc : CursorPc}

/-- An insertion somewhere into a list that is split at an element. -/
theorem Inserts.split {front back : List Addr} {cell : Addr}
    (inserts : Inserts (front ++ cell :: back) changed added)
    (distinct : changed.Nodup) :
    ∃ before behind, changed = before ++ cell :: behind ∧ front.Sublist before ∧
      ∀ se ∈ before, se ∈ front ∨ se ∉ front ++ cell :: back := by
  rcases inserts with rfl | ⟨new, first, second, -, same, rfl⟩
  · exact ⟨front, back, rfl, .refl _, fun _ => .inl⟩
  have fresh : new ∉ front ++ cell :: back := by
    rw [same]
    have apart := List.nodup_middle.1 distinct
    exact (List.nodup_cons.1 apart).1
  rcases List.append_eq_append_iff.1 same with
    ⟨between, rfl, isSecond⟩ | ⟨between, rfl, rfl⟩
  · cases between with
    | nil =>
      rw [List.nil_append] at isSecond
      subst isSecond
      refine ⟨front ++ [new], back, by simp, List.sublist_append_left .., ?_⟩
      intro se mem
      rcases List.mem_append.1 mem with inFront | isNew
      · exact .inl inFront
      · rw [List.mem_singleton.1 isNew]
        exact .inr fresh
    | cons other between =>
      cases isSecond
      exact ⟨front, between ++ new :: second, by simp, .refl _, fun _ => .inl⟩
  · refine ⟨first ++ new :: between, back, by simp, ?_, ?_⟩
    · exact List.Sublist.append_left (List.sublist_cons_self ..) first
    · intro se mem
      rcases List.mem_append.1 mem with inFirst | inRest
      · exact .inl (List.mem_append_left _ inFirst)
      · rcases List.mem_cons.1 inRest with rfl | inBetween
        · exact .inr fresh
        · exact .inl (List.mem_append_right _ inBetween)

theorem Inserts.sublist (inserts : Inserts cells changed added) :
    cells.Sublist changed := by
  rcases inserts with rfl | ⟨new, first, second, -, rfl, rfl⟩
  · exact .refl _
  · exact List.Sublist.append_left (List.sublist_cons_self ..) first

variable (ok : CursorOk ss linked cells yielded pc)

include ok

theorem CursorOk.sublist : yielded.Sublist cells := by
  cases pc with
  | pick se =>
    cases se with
    | none =>
      cases ok
      exact List.nil_sublist _
    | some se =>
      rcases ok with ⟨front, back, rfl, seen⟩
      apply seen.order.trans
      simp
  | skip se =>
    rcases ok with ⟨front, back, rfl, seen⟩
    apply seen.order.trans
    simp
  | test se | picked se =>
    rcases ok with ⟨front, back, rfl, -, seen⟩
    exact seen.order.trans (List.sublist_append_left ..)
  | done => exact ok.order

/-- The cursor stays where it is while others work on the list. -/
theorem CursorOk.later (inserts : Inserts cells changed added)
    (distinct : changed.Nodup) (inside : ∀ se ∈ linked, se ∈ cells)
    (kept : ∀ se ∈ linked, (ss.dataFlag se).deleted = true →
      (after.dataFlag se).deleted = true) :
    CursorOk after linked changed yielded pc := by
  have behind : ∀ {se : Addr}, (∃ front back, cells = front ++ se :: back ∧
        Seen ss linked yielded (front ++ [se])) →
      ∃ front back, changed = front ++ se :: back ∧
        Seen after linked yielded (front ++ [se]) := by
    rintro se ⟨front, back, rfl, seen⟩
    rcases inserts.split distinct with ⟨before, rest, rfl, longer, old⟩
    refine ⟨before, rest, rfl, seen.later (longer.append_right [se]) ?_ kept⟩
    intro other isLinked isPassed
    rcases List.mem_append.1 isPassed with inBefore | isLast
    · rcases old other inBefore with inFront | isNew
      · exact List.mem_append_left _ inFront
      · exact absurd (inside other isLinked) isNew
    · exact List.mem_append_right _ isLast
  have before : ∀ {se : Ptr},
      (∃ front back, cells = front ++ back ∧ se = back.head? ∧
        Seen ss linked yielded front) →
      ∃ front back, changed = front ++ back ∧ se = back.head? ∧
        Seen after linked yielded front := by
    rintro se ⟨front, back, rfl, rfl, seen⟩
    cases back with
    | nil =>
      rw [List.append_nil] at inserts inside
      refine ⟨changed, [], by simp, rfl, seen.later inserts.sublist ?_ kept⟩
      exact fun other isLinked _ => inside other isLinked
    | cons cell back =>
      rcases inserts.split distinct with ⟨before, rest, rfl, longer, old⟩
      refine ⟨before, cell :: rest, rfl, rfl, seen.later longer ?_ kept⟩
      intro other isLinked inBefore
      exact (old other inBefore).resolve_right
        fun isNew => isNew (inside other isLinked)
  cases pc with
  | pick se =>
    cases se with
    | none => exact ok
    | some se => exact behind ok
  | skip se => exact behind ok
  | test se | picked se => exact before ok
  | done =>
    exact Seen.later ok inserts.sublist
      (fun other isLinked _ => inside other isLinked) kept

theorem CursorOk.step {next : CursorPc} {given : List Ptr}
    (chain : Linked ss.next ss.head cells)
    (step : cursorStep ss pc = some (next, given)) :
    CursorOk ss linked cells (yielded ++ given.filterMap id) next := by
  have advance : ∀ {se : Addr}, (∃ front back, cells = front ++ se :: back ∧
        Seen ss linked yielded (front ++ [se])) →
      CursorOk ss linked cells (yielded ++ []) (.test (ss.next se)) := by
    rintro se ⟨front, back, rfl, seen⟩
    rw [List.append_nil]
    exact ⟨front ++ [se], back, by simp, linked_head chain.drop, seen⟩
  cases pc with
  | pick se =>
    cases se with
    | none =>
      cases step
      cases ok
      exact ⟨[], cells, rfl, linked_head chain, .refl _, by simp⟩
    | some se =>
      cases step
      exact advance ok
  | skip se =>
    cases step
    exact advance ok
  | test se =>
    cases se with
    | none =>
      cases step
      rw [List.filterMap_nil, List.append_nil]
      exact ok
    | some se =>
      cases step
      rw [List.filterMap_nil, List.append_nil]
      split
      · next deleted =>
          rcases ok with ⟨front, back, rfl, isFirst, seen⟩
          cases back with
          | nil => cases isFirst
          | cons cell back =>
            cases isFirst
            refine ⟨front, back, rfl,
              seen.order.trans (List.sublist_append_left ..), ?_⟩
            intro other isLinked isPassed
            rcases List.mem_append.1 isPassed with inFront | isLast
            · exact seen.complete other isLinked inFront
            · rw [List.mem_singleton.1 isLast]
              exact .inr deleted
      · exact ok
  | picked se =>
    rcases ok with ⟨front, back, rfl, isFirst, seen⟩
    cases back with
    | nil =>
      cases isFirst
      cases step
      simpa [CursorOk] using seen
    | cons cell back =>
      cases isFirst
      cases step
      refine ⟨front, back, rfl, seen.order.append (.refl _), ?_⟩
      intro other isLinked isPassed
      rcases List.mem_append.1 isPassed with inFront | isLast
      · rcases seen.complete other isLinked inFront with
          isYielded | deleted
        · exact .inl (List.mem_append_left _ isYielded)
        · exact .inr deleted
      · exact .inl (List.mem_append_right _ isLast)
  | done => cases step

end

/-! ## Runs -/

section

variable [DecidableEq Tid] [DecidableEq Value] {compiler : Compiler}
  {config : Config (Option Tid) (SlistState Value) (TraversePc Value)}
  {thread : Option Tid} {action : Option (SlistAction Value)}
  {outcome : Outcome (SlistState Value) (TraversePc Value)
  (TraverseEvent Tid Value)}

omit [DecidableEq Tid] in
theorem traverseMachine_step {ss : SlistState Value} {pc : TraversePc Value}
    (step : (traverseMachine compiler Tid).step thread action ss pc =
      some outcome) :
    (∃ own act inner, pc = .worker own ∧ action = some act ∧
        (slistMachine compiler (Option Tid)).step thread act ss own =
          some inner ∧
        outcome = ⟨inner.shared, .worker inner.thread,
          inner.events.map fun event => .worker event.1 event.2⟩) ∨
      ∃ own next given, pc = .cursor own ∧
        cursorStep ss own = some (next, given) ∧
        outcome = ⟨ss, .cursor next, given.map .yielded⟩ := by
  cases pc with
  | worker own =>
    cases action with
    | none => cases step
    | some act =>
      rcases Option.map_eq_some_iff.1 step with ⟨inner, moved, rfl⟩
      exact .inl ⟨own, act, inner, rfl, rfl, moved, rfl⟩
  | cursor own =>
    cases action with
    | some act => cases step
    | none =>
      rcases Option.map_eq_some_iff.1 step with
        ⟨⟨next, given⟩, moved, rfl⟩
      exact .inr ⟨own, next, given, rfl, moved, rfl⟩

omit [DecidableEq Tid] [DecidableEq Value] in
theorem cursorStep_given {ss : SlistState Value} {pc next : CursorPc}
    {given : List Ptr} {se : Addr}
    (step : cursorStep ss pc = some (next, given))
    (mem : some se ∈ given) : pc = .picked (some se) := by
  cases pc with
  | picked found =>
    cases found with
    | none =>
      cases step
      simp at mem
    | some found =>
      cases step
      simp at mem
      rw [mem]
  | pick found | test found =>
    cases found <;> cases step <;> simp at mem
  | skip found =>
    cases step
    simp at mem
  | done => cases step

omit [DecidableEq Tid] [DecidableEq Value] in
/-- The loop stops at an element that is not deleted now. -/
theorem cursorStep_picked {ss : SlistState Value} {pc : CursorPc}
    {given : List Ptr} {se : Addr}
    (step : cursorStep ss pc = some (.picked (some se), given)) :
    (ss.dataFlag se).deleted = false := by
  cases pc with
  | test found =>
    cases found with
    | none => cases step
    | some found =>
      simp only [cursorStep, Option.some.injEq, Prod.mk.injEq] at step
      split at step
      · cases step.1
      · next live =>
          cases step.1
          simpa using live
  | pick found | picked found => cases found <;> cases step
  | skip found | done => cases step

/-- One thread iterates, the others keep the list. -/
structure TraverseBase
    (config : Config (Option Tid) (SlistState Value) (TraversePc Value))
    (cells : List Addr) : Prop where
  link : LinkInv config.shared (fun thread => (config.threads thread).pc) cells
  workers : ∀ tid, ∃ pc, config.threads (some tid) = .worker pc
  cursor : ∃ pc, config.threads none = .cursor pc

theorem TraverseBase.worker {cells : List Addr} {own : SlistPc Value}
    {act : SlistAction Value} {tid : Tid}
    {inner : Outcome (SlistState Value) (SlistPc Value)
      (Option Tid × SlistEvent Value)}
    {events : List (TraverseEvent Tid Value)}
    (base : TraverseBase config cells)
    (here : config.threads (some tid) = .worker own)
    (admitted : TraverseGuard compiler config (some tid) (some act))
    (step : (slistMachine compiler (Option Tid)).step (some tid) act
      config.shared own = some inner) :
    ∃ changed added, TraverseBase (config.advance (some tid)
        ⟨inner.shared, .worker inner.thread, events⟩) changed ∧
        Inserts cells changed added ∧
        ∀ se ∈ cells, (config.shared.dataFlag se).deleted = true →
          (inner.shared.dataFlag se).deleted = true := by
  have known : (config.threads (some tid)).pc = own := by
    rw [here]
    rfl
  rw [← known] at step
  rcases base.link.step admitted step with ⟨changed, inserts, -, kept⟩
  refine ⟨changed, _, ⟨?_, ?_, ?_⟩, inserts, fun se mem =>
    base.link.deleted_kept step mem⟩
  · rw [Config.advance_threads, field_update TraversePc.pc]
    exact kept
  · intro other
    by_cases same : other = tid
    · subst same
      exact ⟨inner.thread, config.advance_own ..⟩
    · rcases base.workers other with ⟨pc, isWorker⟩
      refine ⟨pc, (config.advance_other _ ?_).trans isWorker⟩
      simpa using same
  · rcases base.cursor with ⟨pc, isCursor⟩
    exact ⟨pc, (config.advance_other _ (by simp)).trans isCursor⟩

omit [DecidableEq Value] in
theorem TraverseBase.iterate {cells : List Addr} {next : CursorPc}
    {events : List (TraverseEvent Tid Value)}
    (base : TraverseBase config cells) :
    TraverseBase (config.advance none
      ⟨config.shared, .cursor next, events⟩) cells where
  link := by
    rcases base.cursor with ⟨pc, isCursor⟩
    have same : (fun thread => ((config.advance none
        (⟨config.shared, .cursor next, events⟩ : Outcome (SlistState Value)
          (TraversePc Value) (TraverseEvent Tid Value))).threads
          thread).pc) = fun thread => (config.threads thread).pc := by
      funext thread
      apply project_update TraversePc.pc
      rw [isCursor]
      rfl
    rw [same]
    exact base.link
  workers := by
    intro tid
    rcases base.workers tid with ⟨pc, isWorker⟩
    exact ⟨pc, (config.advance_other _ (by simp)).trans isWorker⟩
  cursor := ⟨next, config.advance_own ..⟩

theorem TraverseBase.step {cells : List Addr} (base : TraverseBase config cells)
    (admitted : TraverseGuard compiler config thread action)
    (step : (traverseMachine compiler Tid).step thread action
      config.shared (config.threads thread) = some outcome) :
    ∃ changed, TraverseBase (config.advance thread outcome) changed := by
  rcases traverseMachine_step step with
    ⟨own, act, inner, here, rfl, moved, rfl⟩ |
    ⟨own, next, given, here, -, rfl⟩
  · cases thread with
    | none =>
      rcases base.cursor with ⟨pc, isCursor⟩
      rw [isCursor] at here
      cases here
    | some tid =>
      rcases base.worker here admitted moved with ⟨changed, -, kept, -⟩
      exact ⟨changed, kept⟩
  · cases thread with
    | none => exact ⟨cells, base.iterate⟩
    | some tid =>
      rcases base.workers tid with ⟨pc, isWorker⟩
      rw [isWorker] at here
      cases here

omit [DecidableEq Tid] [DecidableEq Value] in
theorem TraverseBase.start (hasDeleteFunc : Bool) (next : Addr → Ptr)
    (dataFlag : Addr → DataFlag Value) :
    TraverseBase
      (traverseStart Tid (slistNew hasDeleteFunc next dataFlag)) [] where
  link := by
    have idle : ∀ thread : Option Tid, ((traverseStart Tid
        (slistNew hasDeleteFunc next dataFlag)).threads thread).pc =
        .idle := by
      intro thread
      cases thread <;> rfl
    constructor
    case chain => rfl
    all_goals simp [idle, SlistPc.unlinked, LinkOk]
  workers := fun _ => ⟨.idle, rfl⟩
  cursor := ⟨.pick none, rfl⟩

/-- At some instant of the run the element was not deleted, and these events
came after it. -/
def LiveAt (compiler : Compiler)
    (begin config : Config (Option Tid) (SlistState Value) (TraversePc Value))
    (history : List (TraverseEvent Tid Value)) (se : Addr)
    (after : List (TraverseEvent Tid Value) → Prop) : Prop :=
  ∃ middle first second, history = first ++ second ∧ after second ∧
      (traverseMachine compiler Tid).RunWhere (TraverseGuard compiler) begin
        first middle ∧
      (traverseMachine compiler Tid).RunWhere (TraverseGuard compiler)
        middle second config ∧
      (middle.shared.dataFlag se).deleted = false

variable {begin : Config (Option Tid) (SlistState Value) (TraversePc Value)}
  {history : List (TraverseEvent Tid Value)} {linked cells : List Addr}

theorem LiveAt.snoc {se : Addr}
    {after later : List (TraverseEvent Tid Value) → Prop}
    (live : LiveAt compiler begin config history se after)
    (admitted : TraverseGuard compiler config thread action)
    (step : (traverseMachine compiler Tid).step thread action
      config.shared (config.threads thread) = some outcome)
    (implies : ∀ second, after second → later (second ++ outcome.events)) :
    LiveAt compiler begin (config.advance thread outcome)
      (history ++ outcome.events) se later := by
  rcases live with ⟨middle, first, second, rfl, follows, reach, onward, live⟩
  exact ⟨middle, first, second ++ outcome.events, List.append_assoc ..,
    implies second follows, reach, onward.snoc admitted step, live⟩

/-- The iteration since it began. -/
structure TraverseInv (compiler : Compiler)
    (begin : Config (Option Tid) (SlistState Value) (TraversePc Value))
    (linked : List Addr) (history : List (TraverseEvent Tid Value))
    (config : Config (Option Tid) (SlistState Value) (TraversePc Value))
    (cells : List Addr) : Prop where
  run : (traverseMachine compiler Tid).RunWhere (TraverseGuard compiler)
    begin history config
  base : TraverseBase config cells
  inside : ∀ se ∈ linked, se ∈ cells
  cursor : ∀ pc, config.threads none = .cursor pc →
    CursorOk config.shared linked cells (yields history) pc
  live : ∀ se ∈ yields history,
    LiveAt compiler begin config history se fun second =>
      .yielded (some se) ∈ second
  picked : ∀ se, config.threads none = .cursor (.picked (some se)) →
    LiveAt compiler begin config history se fun _ => True

section

omit [DecidableEq Tid] [DecidableEq Value]

theorem yields_append (first second : List (TraverseEvent Tid Value)) :
    yields (first ++ second) = yields first ++ yields second :=
  List.filterMap_append

theorem yields_yielded (given : List Ptr) :
    yields (given.map .yielded : List (TraverseEvent Tid Value)) =
      given.filterMap id := by
  rw [yields, List.filterMap_map]
  rfl

theorem yields_worker (events : List (Option Tid × SlistEvent Value)) :
    yields (events.map fun event => .worker event.1 event.2) = [] := by
  rw [yields, List.filterMap_map]
  exact List.filterMap_eq_nil_iff.2 fun _ _ => rfl

end

theorem TraverseInv.step
    (inv : TraverseInv compiler begin linked history config cells)
    (admitted : TraverseGuard compiler config thread action)
    (step : (traverseMachine compiler Tid).step thread action
      config.shared (config.threads thread) = some outcome) :
    ∃ changed, TraverseInv compiler begin linked
      (history ++ outcome.events) (config.advance thread outcome)
      changed := by
  have run := inv.run.snoc admitted step
  have still : ∀ se ∈ yields history,
      LiveAt compiler begin (config.advance thread outcome)
        (history ++ outcome.events) se fun second =>
          .yielded (some se) ∈ second := by
    intro se mem
    apply (inv.live se mem).snoc admitted step
    exact fun second => List.mem_append_left _
  rcases traverseMachine_step step with
    ⟨own, act, inner, here, rfl, moved, same⟩ |
    ⟨own, next, given, here, moved, same⟩
  · cases thread with
    | none =>
      rcases inv.base.cursor with ⟨pc, isCursor⟩
      rw [isCursor] at here
      cases here
    | some tid =>
      rcases inv.base.worker here admitted moved with
        ⟨changed, added, base, inserts, kept⟩
      have quiet : yields (history ++ outcome.events) = yields history := by
        rw [yields_append, same, yields_worker, List.append_nil]
      have waiting : (config.advance (some tid) outcome).threads none =
          config.threads none :=
        config.advance_other outcome (by simp)
      refine ⟨changed, run, same ▸ base, ?_, ?_, ?_, ?_⟩
      · intro se isLinked
        exact inserts.grows.old se (inv.inside se isLinked)
      · intro pc isCursor
        rw [waiting] at isCursor
        rw [quiet]
        apply (inv.cursor pc isCursor).later inserts
          base.link.chain.nodup inv.inside
        intro se isLinked deleted
        subst same
        exact kept se (inv.inside se isLinked) deleted
      · rw [quiet]
        exact still
      · intro se isPicked
        rw [waiting] at isPicked
        exact (inv.picked se isPicked).snoc admitted step fun _ _ => trivial
  · cases thread with
    | some tid =>
      rcases inv.base.workers tid with ⟨pc, isWorker⟩
      rw [isWorker] at here
      cases here
    | none =>
      have there : (config.advance none outcome).threads none =
          .cursor next := by
        rw [config.advance_own, same]
      have memory : (config.advance none outcome).shared =
          config.shared := by
        subst same
        rfl
      have longer : yields (history ++ outcome.events) =
          yields history ++ given.filterMap id := by
        rw [yields_append, same, yields_yielded]
      refine ⟨cells, run, same ▸ inv.base.iterate, inv.inside, ?_, ?_, ?_⟩
      · intro pc isCursor
        rw [there] at isCursor
        cases isCursor
        rw [memory, longer]
        exact (inv.cursor own here).step inv.base.link.chain moved
      · rw [longer]
        intro se mem
        rcases List.mem_append.1 mem with old | new
        · exact still se old
        · have isPicked : own = .picked (some se) :=
            cursorStep_given moved (by simpa using new)
          rw [isPicked] at here
          apply (inv.picked se here).snoc admitted step
          intro second _
          rw [same]
          refine List.mem_append_right _ (List.mem_map.2 ⟨some se, ?_, rfl⟩)
          simpa using new
      · intro se isPicked
        rw [there] at isPicked
        cases isPicked
        have live := cursorStep_picked moved
        exact ⟨config, history, outcome.events, rfl, trivial, inv.run,
          .snoc .nil admitted step, live⟩

/-! ## The end of the iteration -/

omit [DecidableEq Tid] in
theorem cursor_leads {ss : SlistState Value} {pc next : CursorPc}
    {given : List Ptr} {goal : SlistState Value → TraversePc Value → Prop}
    (step : cursorStep ss pc = some (next, given))
    (rest : (traverseMachine compiler Tid).Leads none none goal ss
      (.cursor next)) :
    (traverseMachine compiler Tid).Leads none none goal ss (.cursor pc) := by
  refine .step ⟨⟨ss, .cursor next, given.map .yielded⟩, ?_⟩ ?_
  · simp only [traverseMachine, step]
    rfl
  · intro action outcome arrived
    rcases traverseMachine_step arrived with
      ⟨own, act, inner, here, -⟩ | ⟨own, after, events, here, moved, rfl⟩
    · cases here
    · cases here
      rw [step] at moved
      cases moved
      exact rest

omit [DecidableEq Tid] in
theorem test_leads {ss : SlistState Value} {back : List Addr} {se : Ptr}
    (chain : Linked ss.next se back) :
    (traverseMachine compiler Tid).Leads none none
      (fun _ pc => pc = .cursor .done) ss (.cursor (.test se)) := by
  induction back generalizing se with
  | nil =>
    cases chain
    refine cursor_leads rfl ?_
    exact cursor_leads rfl (.here rfl)
  | cons cell back induction =>
    rcases chain with ⟨rfl, tail⟩
    by_cases deleted : (ss.dataFlag cell).deleted = true
    · have skips : cursorStep ss (.test (some cell)) =
          some (.skip cell, []) := by
        rw [cursorStep, if_pos deleted]
      exact cursor_leads skips (cursor_leads rfl (induction tail))
    · have stops : cursorStep ss (.test (some cell)) =
          some (.picked (some cell), []) := by
        rw [cursorStep, if_neg deleted]
      refine cursor_leads stops (cursor_leads rfl ?_)
      exact cursor_leads rfl (induction tail)

theorem TraverseInv.leads {pc : CursorPc}
    (inv : TraverseInv compiler begin linked history config cells)
    (here : config.threads none = .cursor pc) :
    (traverseMachine compiler Tid).Leads none none
      (fun _ pc => pc = .cursor .done) config.shared (.cursor pc) := by
  have chain := inv.base.link.chain
  have ok := inv.cursor pc here
  have behind : ∀ {se : Addr}, (∃ front back, cells = front ++ se :: back ∧
        Seen config.shared linked (yields history) (front ++ [se])) →
      (traverseMachine compiler Tid).Leads none none
        (fun _ pc => pc = .cursor .done) config.shared
        (.cursor (.test (config.shared.next se))) := by
    rintro se ⟨front, back, rfl, -⟩
    exact test_leads chain.drop
  cases pc with
  | pick se =>
    cases se with
    | none => exact cursor_leads rfl (test_leads chain)
    | some se => exact cursor_leads rfl (behind ok)
  | skip se => exact cursor_leads rfl (behind ok)
  | test se =>
    rcases ok with ⟨front, back, rfl, rfl, -⟩
    exact test_leads (linked_back chain)
  | picked se =>
    cases se with
    | none => exact cursor_leads rfl (.here rfl)
    | some se =>
      rcases ok with ⟨front, back, rfl, isFirst, -⟩
      have rest := linked_back chain
      rw [← isFirst] at rest
      rcases rest.exists_cons with ⟨tail, -, onward⟩
      refine cursor_leads rfl ?_
      exact cursor_leads rfl (test_leads onward)
  | done => exact .here rfl

/--
One thread iterates, from any moment at which it has not begun yet, while
others insert elements and delete them logically.  It yields no element twice
and keeps to the order of the list.  When it is done it has yielded every
element that was linked before it began and is not deleted, and what it has
yielded was not deleted at some instant before that.  Left alone, it comes to
its end.
-/
theorem slist_traversal_complete (compiler : Compiler) {hasDeleteFunc : Bool}
    {next : Addr → Ptr} {dataFlag : Addr → DataFlag Value}
    {before : List (TraverseEvent Tid Value)}
    (earlier : (traverseMachine compiler Tid).RunWhere (TraverseGuard compiler)
      (traverseStart Tid (slistNew hasDeleteFunc next dataFlag)) before
      begin)
    (fresh : begin.threads none = .cursor (.pick none))
    (run : (traverseMachine compiler Tid).RunWhere (TraverseGuard compiler)
      begin history config) :
    ∃ linked cells, Linked begin.shared.next begin.shared.head linked ∧
      Linked config.shared.next config.shared.head cells ∧
      (yields history).Nodup ∧ (yields history).Sublist cells ∧
      (config.threads none = .cursor .done →
        ∀ se ∈ linked, (config.shared.dataFlag se).deleted = false →
          se ∈ yields history) ∧
      (∀ se ∈ yields history,
        LiveAt compiler begin config history se fun second =>
          .yielded (some se) ∈ second) ∧
      ∃ steps after events, (traverseMachine compiler Tid).execute config
            (List.replicate steps (none, none)) = some (after, events) ∧
          after.threads none = .cursor .done := by
  have atBegin : ∃ linked, TraverseBase begin linked := by
    apply earlier.invariant fun _ config =>
      ∃ linked, TraverseBase config linked
    · exact ⟨[], .start hasDeleteFunc next dataFlag⟩
    · rintro history config thread action outcome ⟨linked, base⟩ admitted
        stepped
      exact base.step admitted stepped
  rcases atBegin with ⟨linked, base⟩
  have inv : ∃ cells,
      TraverseInv compiler begin linked history config cells := by
    apply run.invariant fun history config =>
      ∃ cells, TraverseInv compiler begin linked history config cells
    · refine ⟨linked, .nil, base, fun _ => id, ?_, by simp [yields], ?_⟩
      · intro pc isCursor
        rw [fresh] at isCursor
        cases isCursor
        rfl
      · intro se isPicked
        rw [fresh] at isPicked
        cases isPicked
    · rintro history config thread action outcome ⟨cells, inv⟩ admitted stepped
      exact inv.step admitted stepped
  rcases inv with ⟨cells, inv⟩
  rcases inv.base.cursor with ⟨pc, here⟩
  have order := (inv.cursor pc here).sublist
  refine ⟨linked, cells, base.link.chain, inv.base.link.chain,
    order.nodup inv.base.link.chain.nodup, order, ?_, inv.live, ?_⟩
  · intro isDone se isLinked live
    rcases (inv.cursor .done isDone).complete se isLinked
        (inv.inside se isLinked) with isYielded | deleted
    · exact isYielded
    · rw [live] at deleted
      cases deleted
  · exact (inv.leads here).execute config rfl here

end

/-- Two elements are linked before the iteration begins, and a third one
behind the first of them while it stands there. -/
theorem slist_traversal_complete_insertion : ∃ (begin config :
        Config (Option Unit) (SlistState Nat) (TraversePc Nat))
      (history : List (TraverseEvent Unit Nat)),
      begin.threads none = .cursor (.pick none) ∧
      (traverseMachine ⟨.leftFirst, .leftFirst⟩ Unit).RunWhere
        (TraverseGuard ⟨.leftFirst, .leftFirst⟩) begin history config ∧
      yields history = [2, 3, 1] ∧
      ∃ cells, Linked config.shared.next config.shared.head cells ∧
        [2, 3, 1].Sublist cells := by
  have executed : ∃ begin before config history,
      (traverseMachine ⟨.leftFirst, .leftFirst⟩ Unit).executeWhere
          (TraverseGuard ⟨.leftFirst, .leftFirst⟩)
          (traverseStart Unit (slistNew false (fun _ => none) fun _ => ⟨0, 0⟩))
          ((some (), some (.newHead 10)) ::
            (some (), some (.malloc (some 1))) ::
            List.replicate 8 (some (), some .inside) ++
            (some (), some (.newHead 20)) ::
            (some (), some (.malloc (some 2))) ::
            List.replicate 8 (some (), some .inside)) =
        some (begin, before) ∧
      begin.threads none = .cursor (.pick none) ∧
      (traverseMachine ⟨.leftFirst, .leftFirst⟩ Unit).executeWhere
          (TraverseGuard ⟨.leftFirst, .leftFirst⟩) begin
          (List.replicate 3 (none, none) ++ (some (), some (.newNext 0 30)) ::
            (some (), some (.malloc (some 3))) ::
            List.replicate 7 (some (), some .inside) ++
            List.replicate 9 (none, none)) =
        some (config, history) ∧
      yields history = [2, 3, 1] :=
    ⟨_, _, _, _, rfl, rfl, rfl, rfl⟩
  rcases executed with
    ⟨begin, before, config, history, earlier, fresh, later, yielded⟩
  have run := Machine.runWhere_of_execute later
  rcases slist_traversal_complete _ (Machine.runWhere_of_execute earlier)
    fresh run with ⟨linked, cells, -, chain, -, order, -⟩
  rw [yielded] at order
  exact ⟨begin, config, history, fresh, run, yielded, cells, chain, order⟩

end Lockfreec.Basic.Slist
