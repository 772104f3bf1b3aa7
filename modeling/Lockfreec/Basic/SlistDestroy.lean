import Lockfreec.Basic.SlistLink
import Lockfreec.Lib.Solo

/-!
# The destruction of the elements' data

One caller uses a list and ends with `slist_delete`.  The deletion of all
elements calls `delete_func` for every element of the list, without looking at
its flag.  So the data of an element is destroyed once, and once more if the
element has been deleted logically before.
-/

namespace Lockfreec.Basic.Slist

open Function Basic.Freelist Lib.Chain Lib.Interleaving Lib.Solo

variable {Value : Type}

/-! ## Reading a history -/

/-- The data that `delete_func` has been called with for an element. -/
def destroyedData (se : Addr) (history : List (Unit × SlistEvent Value)) :
    List Value :=
  history.filterMap fun event =>
    match event.2 with
    | .destroyed other data => if other = se then some data else none
    | _ => none

/-- An element has been created. -/
def Created (se : Addr) (history : List (Unit × SlistEvent Value)) : Prop :=
  ((), .created (some se)) ∈ history

/-- A logical deletion of an element has returned one. -/
def Deleted (se : Addr) (history : List (Unit × SlistEvent Value)) : Prop :=
  ((), .returned se (.didDelete true)) ∈ history

variable {se : Addr} {event : SlistEvent Value}

@[simp]
theorem destroyedData_append {history events : List (Unit × SlistEvent Value)} :
    destroyedData se (history ++ events) =
      destroyedData se history ++ destroyedData se events :=
  List.filterMap_append

/-! ## Between two calls -/

/-- A list with these elements from a pointer on, and the data of all others
destroyed. -/
structure Between (ss : SlistState Value) (start : Ptr) (cells : List Addr)
    (history : List (Unit × SlistEvent Value)) : Prop where
  chain : Linked ss.next start cells
  hook : ss.hasDeleteFunc = true
  live : ∀ se ∈ cells, Created se history
  fresh : ∀ se, ss.allocated se = false →
    ¬ Created se history ∧ ¬ Deleted se history ∧ destroyedData se history = []
  deleted : ∀ se, Created se history →
    (Deleted se history ↔ (ss.dataFlag se).deleted = true)
  destroyed : ∀ se, Created se history → destroyedData se history =
    (if (ss.dataFlag se).deleted then [(ss.dataFlag se).data] else []) ++
      if se ∈ cells then [] else [(ss.dataFlag se).data]

variable {ss : SlistState Value} {start : Ptr} {cells : List Addr}
  {history events : List (Unit × SlistEvent Value)}

@[simp]
theorem created_append : Created se (history ++ events) ↔
    Created se history ∨ Created se events :=
  List.mem_append

@[simp]
theorem deleted_append : Deleted se (history ++ events) ↔
    Deleted se history ∨ Deleted se events :=
  List.mem_append

@[simp]
theorem created_cons : Created se (((), event) :: events) ↔
      event = .created (some se) ∨ Created se events := by
  simp [Created, eq_comm]

@[simp]
theorem deleted_cons : Deleted se (((), event) :: events) ↔
      event = .returned se (.didDelete true) ∨ Deleted se events := by
  simp [Deleted, eq_comm]

@[simp]
theorem created_nil : ¬ Created se ([] : List (Unit × SlistEvent Value)) :=
  nofun

@[simp]
theorem deleted_nil : ¬ Deleted se ([] : List (Unit × SlistEvent Value)) :=
  nofun

theorem destroyedData_cons : destroyedData se (((), event) :: events) =
      (match event with
        | .destroyed other data => if other = se then [data] else []
        | _ => []) ++ destroyedData se events := by
  cases event with
  | destroyed other data => by_cases same : other = se <;>
      simp [destroyedData, same]
  | _ => simp [destroyedData]

@[simp]
theorem destroyedData_nil :
    destroyedData se ([] : List (Unit × SlistEvent Value)) = [] :=
  rfl

/-- Events that do not say anything about the data of the elements. -/
structure Silent (events : List (Unit × SlistEvent Value)) : Prop where
  created : ∀ se, ¬ Created se events
  deleted : ∀ se, ¬ Deleted se events
  destroyed : ∀ se, destroyedData se events = []

theorem silent_called :
    Silent [((), (SlistEvent.called : SlistEvent Value))] where
  created := by simp
  deleted := by simp
  destroyed := by simp [destroyedData_cons]

section

variable (between : Between ss start cells history)

include between

theorem Between.silent (silent : Silent events) :
    Between ss start cells (history ++ events) where
  chain := between.chain
  hook := between.hook
  live se member := created_append.2 (.inl (between.live se member))
  fresh se unused := by
    have fresh := between.fresh se unused
    simp [fresh, silent.created, silent.deleted, silent.destroyed]
  deleted se := by
    simpa [silent.created, silent.deleted] using between.deleted se
  destroyed se := by
    simpa [silent.created, silent.destroyed] using between.destroyed se

/-- A call on an element changes its data while it is not deleted, or deletes
it and destroys its data. -/
theorem Between.onData {se : Addr} {held : DataFlag Value} (member : se ∈ cells)
    (current : (ss.dataFlag se).deleted = false)
    (created : ∀ other, ¬ Created other events)
    (others : ∀ other, other ≠ se →
      ¬ Deleted other events ∧ destroyedData other events = [])
    (deleted : Deleted se events ↔ held.deleted = true)
    (destroyed : destroyedData se events =
      if held.deleted then [held.data] else []) :
    Between { ss with dataFlag := update ss.dataFlag se held } start
      cells (history ++ events) where
  chain := between.chain
  hook := between.hook
  live other member := created_append.2 (.inl (between.live other member))
  fresh other unused := by
    have fresh := between.fresh other unused
    have ne : other ≠ se := by
      rintro rfl
      exact fresh.1 (between.live other member)
    simp [fresh, created, others other ne]
  deleted other := by
    have before := between.deleted other
    by_cases same : other = se
    · subst same
      simp only [created_append, deleted_append, created, or_false, deleted,
        update_self]
      intro wasCreated
      simp [before wasCreated, current]
    · simpa [created, others other same, same] using before
  destroyed other := by
    have before := between.destroyed other
    by_cases same : other = se
    · subst same
      simp only [created_append, created, or_false, destroyedData_append,
        destroyed, update_self]
      intro wasCreated
      simp [before wasCreated, current, member]
    · simpa [created, others other same, same] using before

theorem Between.insert {se : Addr} {data : Value} {next : Addr → Ptr}
    {head : Ptr} {linked : List Addr}
    (unused : ss.allocated se = false) (chain : Linked next head linked)
    (members : ∀ other, other ∈ linked ↔ other = se ∨ other ∈ cells) :
    Between { ss with
        next := next
        head := head
        allocated := update ss.allocated se true
        dataFlag := update ss.dataFlag se ⟨data, noFlags⟩ }
      head linked (history ++ [((), .created (some se))]) where
  chain := chain
  hook := between.hook
  live other member := by
    rcases (members other).1 member with rfl | member
    · simp
    · exact created_append.2 (.inl (between.live other member))
  fresh other unusedOther := by
    have ne : other ≠ se := by
      rintro rfl
      simp at unusedOther
    have fresh := between.fresh other (by simpa [ne] using unusedOther)
    simp [fresh, destroyedData_cons, Ne.symm ne]
  deleted other := by
    by_cases same : other = se
    · subst same
      have fresh := between.fresh other unused
      simp [fresh, DataFlag.deleted, noFlags]
    · simpa [same, Ne.symm same] using between.deleted other
  destroyed other := by
    by_cases same : other = se
    · subst same
      have fresh := between.fresh other unused
      simp [fresh, destroyedData_cons, DataFlag.deleted, noFlags, members]
    · simpa [destroyedData_cons, same, Ne.symm same, members] using
        between.destroyed other

end

/-- The deletion of all elements destroys the data of the next one. -/
theorem Between.free {se : Addr} (between : Between ss (some se) cells history) :
    ∃ rest, cells = se :: rest ∧ Between ss (ss.next se) rest
      (history ++ [((), .destroyed se (ss.dataFlag se).data)]) := by
  obtain ⟨rest, rfl, chain⟩ := between.chain.exists_cons
  have absent := (List.nodup_cons.1 between.chain.nodup).1
  refine ⟨rest, rfl, chain, between.hook, ?_, ?_, ?_, ?_⟩
  · intro other mem
    exact created_append.2 (.inl (between.live other (.tail _ mem)))
  · intro other unused
    have fresh := between.fresh other unused
    have ne : se ≠ other := by
      rintro rfl
      exact fresh.1 (between.live se (.head _))
    simp [fresh, destroyedData_cons, ne]
  · intro other
    simpa using between.deleted other
  · intro other wasCreated
    have before := between.destroyed other (by simpa using wasCreated)
    by_cases same : other = se
    · subst same
      simp [before, destroyedData_cons, absent]
    · simp [before, destroyedData_cons, same, Ne.symm same]

/-! ## The calls -/

/-- Before the next call, or after `slist_delete`. -/
def Settled (history : List (Unit × SlistEvent Value)) (ss : SlistState Value)
    (pc : SlistPc Value) : Prop :=
  ∃ cells, Between ss ss.head cells history ∧
    (pc = .idle ∨ pc = .gone ∧ cells = [])

section

variable [DecidableEq Value] {compiler : Compiler}

/-- The caller gets to the end of its call. -/
abbrev Settles (compiler : Compiler) :
    List (Unit × SlistEvent Value) → SlistState Value → SlistPc Value → Prop :=
  (slistMachine compiler Unit).Reaches () Settled

variable {pc next : SlistPc Value} {after : SlistState Value}

theorem settles_inside (pending : slistReturn pc = none)
    (step : slistStep compiler ss pc = some (after, next))
    (rest : Settles compiler (history ++ (slistEvents ss pc).map ((), ·))
      after next) :
    Settles compiler history ss pc := by
  refine .step ⟨.inside, _, by simp only [slistMachine, pending, step]; rfl⟩
    fun action outcome arrived => ?_
  cases slistMachine_move arrived with
  | returned returned => rw [pending] at returned; cases returned
  | inside _ again =>
    rw [step] at again
    cases again
    exact rest
  | malloc here | call here => subst here; cases step

theorem settles_return {event : SlistEvent Value}
    (returned : slistReturn pc = some event)
    (between : Between ss ss.head cells (history ++ [((), event)])) :
    Settles compiler history ss pc := by
  refine .step ⟨.inside, _, by simp only [slistMachine, returned]; rfl⟩
    fun action outcome arrived => ?_
  cases slistMachine_move arrived with
  | returned again =>
    rw [returned] at again
    cases again
    exact .here ⟨cells, between, .inl rfl⟩
  | inside pending => rw [returned] at pending; cases pending
  | malloc here | call here => subst here; cases returned

/-- The silent steps of `slist_new_head` and `slist_new_next`. -/
theorem settles_new {count : Nat}
    (ran : iterate (newStep compiler) count ss pc = some (after, next))
    (rest : Settles compiler history after next) :
    Settles compiler history ss pc := by
  induction count generalizing ss pc with
  | zero =>
    cases ran
    exact rest
  | succ count ih =>
    obtain ⟨result, step, ran⟩ := Option.bind_eq_some_iff.1 ran
    have inside : slistReturn pc = none ∧ slistEvents ss pc = [] ∧
        slistStep compiler ss pc = some result := by
      cases pc <;> first
        | exact ⟨rfl, rfl, by simp only [slistStep, step]; rfl⟩
        | cases step
    refine settles_inside inside.1 inside.2.2 ?_
    rw [inside.2.1, List.map_nil, List.append_nil]
    exact ih ran

theorem settles_data {se : Addr} {old pc : DataPc Value}
    {held : DataFlag Value} (pending : dataReturn old = none)
    (step : dataStep ss.hasDeleteFunc (ss.dataFlag se) old = some (held, pc))
    (rest : Settles compiler
      (history ++ (slistEvents ss (.data se old)).map ((), ·))
      { ss with dataFlag := update ss.dataFlag se held }
      (.data se pc)) :
    Settles compiler history ss (.data se old) := by
  refine settles_inside (by simp [slistReturn, pending]) ?_ rest
  simp only [slistStep, step, Option.map_some]

theorem settles_load {se : Addr} {old pc : DataPc Value}
    (pending : dataReturn old = none)
    (quiet : slistEvents ss (.data se old) = [])
    (step : dataStep ss.hasDeleteFunc (ss.dataFlag se) old =
      some (ss.dataFlag se, pc))
    (rest : Settles compiler history ss (.data se pc)) :
    Settles compiler history ss (.data se old) := by
  refine settles_data pending step ?_
  rwa [quiet, List.map_nil, List.append_nil, update_eq_self]

section

variable (between : Between ss ss.head cells history)

include between

theorem settles_set {se : Addr} {data : Value} (mem : se ∈ cells) :
    Settles compiler history ss (.data se (.setReadData data)) := by
  refine settles_load rfl rfl rfl (settles_load rfl rfl rfl ?_)
  show Settles compiler history ss (.data se (setDecide data (ss.dataFlag se)))
  cases current : (ss.dataFlag se).deleted with
  | true =>
    rw [setDecide, if_pos current]
    refine settles_return rfl (between.silent ?_)
    constructor <;> simp [destroyedData_cons]
  | false =>
    rw [setDecide, if_neg (by simp [current])]
    refine settles_data rfl (if_pos rfl) ?_
    rw [slistEvents, List.map_nil, List.append_nil]
    refine settles_return rfl (between.onData mem current ?_ ?_ ?_ ?_)
    all_goals simp_all [destroyedData_cons, DataFlag.deleted]

theorem settles_get {se : Addr} :
    Settles compiler history ss (.data se .getReadData) := by
  refine settles_load rfl rfl rfl (settles_load rfl rfl rfl ?_)
  refine settles_return rfl (between.silent ?_)
  constructor <;> simp [destroyedData_cons]

theorem settles_delete {se : Addr} (mem : se ∈ cells) :
    Settles compiler history ss (.data se .deleteReadData) := by
  refine settles_load rfl rfl rfl (settles_load rfl rfl rfl ?_)
  show Settles compiler history ss (.data se (deleteDecide (ss.dataFlag se)))
  cases current : (ss.dataFlag se).deleted with
  | true =>
    rw [deleteDecide, if_pos current]
    refine settles_return rfl (between.silent ?_)
    constructor <;> simp [destroyedData_cons]
  | false =>
    rw [deleteDecide, if_neg (by simp [current])]
    have swapped : dataStep ss.hasDeleteFunc (ss.dataFlag se)
        (.deleteDcas (ss.dataFlag se)) =
        some ((ss.dataFlag se).delete, .deleteFunc (ss.dataFlag se).data) := by
      rw [dataStep, if_pos rfl, if_pos between.hook]
    refine settles_data rfl swapped (settles_data rfl rfl ?_)
    simp only [slistEvents, List.map_nil, List.append_nil,
      List.map_singleton, update_eq_self]
    refine @settles_return _ _ cells _ _ _ _ _ rfl ?_
    rw [List.append_assoc]
    have data : (ss.dataFlag se).delete.data = (ss.dataFlag se).data := rfl
    refine between.onData mem current ?_ ?_ ?_ ?_
    all_goals simp [destroyedData_cons, data, eq_comm]

theorem settles_newHead {se : Addr} {data : Value}
    (unused : ss.allocated se = false) :
    Settles compiler history
      { ss with allocated := update ss.allocated se true }
      (.newData .head se data) := by
  have fresh : se ∉ cells := fun mem =>
    (between.fresh se unused).1 (between.live se mem)
  have chain : Linked (update ss.next se ss.head) (some se) (se :: cells) := by
    refine ⟨rfl, ?_⟩
    rw [update_self]
    exact between.chain.update fresh
  have inserted := @between.insert _ _ _ _ _ se data _ _ _ unused chain (by simp)
  obtain ⟨count, ran⟩ : ∃ count, iterate (newStep compiler) count
      { ss with allocated := update ss.allocated se true }
      (.newData .head se data) = some ({ ss with
        next := update ss.next se ss.head
        head := some se
        allocated := update ss.allocated se true
        dataFlag := update ss.dataFlag se ⟨data, noFlags⟩ },
      .newReturn (some se)) := by
    cases order : compiler.head with
    | leftFirst | rightFirst =>
      exact ⟨7, by simp [iterate, newStep, Place.link, order]⟩
  exact settles_new ran (settles_return rfl inserted)

theorem settles_newNext {se ase : Addr} {data : Value}
    (unused : ss.allocated se = false) (mem : ase ∈ cells) :
    Settles compiler history
      { ss with allocated := update ss.allocated se true }
      (.newData (.after ase) se data) := by
  have fresh : se ∉ cells := fun mem =>
    (between.fresh se unused).1 (between.live se mem)
  have ne : ase ≠ se := ne_of_mem_of_not_mem mem fresh
  obtain ⟨front, back, rfl⟩ := List.append_of_mem mem
  have chain : Linked (update
      (update ss.next se (ss.next ase)) ase (some se)) ss.head
      (front ++ ase :: se :: back) := by
    refine (between.chain.update fresh).relink ⟨rfl, ?_⟩
    rw [update_of_ne (Ne.symm ne), update_self]
    have absent : ase ∉ back := by
      have distinct := (List.nodup_append.1 between.chain.nodup).2.1
      exact (List.nodup_cons.1 distinct).1
    refine Linked.update (Linked.update between.chain.drop ?_) absent
    exact fun inBack => fresh (by simp [inBack])
  have inserted := @between.insert _ _ _ _ _ se data _ _ _ unused chain
    (by intro other; simp; tauto)
  have ran : iterate (newStep compiler) 6
      { ss with allocated := update ss.allocated se true }
      (.newData (.after ase) se data) = some ({ ss with
        next := update (update ss.next se (ss.next ase)) ase (some se)
        allocated := update ss.allocated se true
        dataFlag := update ss.dataFlag se ⟨data, noFlags⟩ },
      .newReturn (some se)) := by
    cases order : compiler.after <;>
      simp [iterate, newStep, Place.link, EvalOrder.left, order, ne]
  exact settles_new ran (settles_return rfl inserted)

omit between in
/-- The loop of `slist_single_threaded_physically_delete_all_elements`. -/
theorem settles_free {last : Bool} {se : Ptr}
    (between : Between ss se cells history) :
    Settles compiler history ss (.freeTest last se) := by
  induction cells generalizing se history with
  | nil =>
    obtain rfl : se = none := between.chain
    refine settles_inside rfl rfl (.here ⟨[], ?_, ?_⟩)
    · have silent : Silent [((), (SlistEvent.deletedAll : SlistEvent Value))]
        := by constructor <;> simp [destroyedData_cons]
      have after := between.silent silent
      exact ⟨rfl, after.hook, after.live, after.fresh, after.deleted,
        after.destroyed⟩
    · cases last
      · exact .inl rfl
      · exact .inr ⟨rfl, rfl⟩
  | cons first rest ih =>
    obtain rfl : se = some first := between.chain.1
    obtain ⟨_, same, freed⟩ := between.free
    cases same
    refine settles_inside rfl rfl (settles_inside rfl rfl ?_)
    simp only [slistEvents, between.hook, if_true, List.map_singleton,
      List.map_nil, List.append_nil]
    exact ih freed

theorem settles_malloc {place : Place} {data : Value}
    (inside : ∀ ase, place = .after ase → ase ∈ cells) :
    Settles compiler history ss (.newMalloc place data) := by
  refine .step ⟨.malloc none, _, rfl⟩ fun action outcome arrived => ?_
  cases slistMachine_move arrived with
  | returned returned => cases returned
  | inside _ step => cases step
  | call here => cases here
  | @malloc _ _ address after next here step =>
    cases here
    rw [List.append_nil]
    cases address with
    | none =>
      cases step
      refine settles_return rfl (between.silent ?_)
      constructor <;> simp [destroyedData_cons]
    | some se =>
      rw [slistMalloc] at step
      split at step
      · cases step
      · next unused =>
          cases step
          have unused := eq_false_of_ne_true unused
          cases place with
          | head => exact settles_newHead between unused
          | after ase =>
            exact settles_newNext between unused (inside ase rfl)

theorem Between.call {action : SlistAction Value} {called : SlistPc Value}
    (call : slistCall ss action = some called) :
    Settles compiler history ss called := by
  cases action with
  | newHead data =>
    cases call
    exact settles_malloc between nofun
  | newNext position data =>
    obtain ⟨ase, found, rfl⟩ := Option.map_eq_some_iff.1 call
    refine settles_malloc between ?_
    rintro _ ⟨⟩
    exact elementAt_mem between.chain found
  | call position kind =>
    obtain ⟨se, found, rfl⟩ := Option.map_eq_some_iff.1 call
    have member := elementAt_mem between.chain found
    cases kind with
    | setData data => exact settles_set between member
    | getData => exact settles_get between
    | logicallyDeleteElement => exact settles_delete between member
  | physicallyDeleteAllElements | delete =>
    cases call
    refine settles_inside rfl rfl ?_
    simp only [slistEvents, List.map_nil, List.append_nil]
    exact settles_free between
  | malloc address | inside => cases call

end

theorem Settled.step {action : SlistAction Value}
    {outcome : Outcome (SlistState Value) (SlistPc Value)
      (Unit × SlistEvent Value)}
    (settled : Settled history ss pc)
    (step : (slistMachine compiler Unit).step () action ss pc = some outcome) :
    Settles compiler (history ++ outcome.events) outcome.shared
      outcome.thread := by
  obtain ⟨cells, between, rfl | ⟨rfl, -⟩⟩ := settled
  · cases slistMachine_move step with
    | returned returned => cases returned
    | inside _ step => cases step
    | malloc here => cases here
    | call _ call => exact (between.silent silent_called).call call
  · cases slistMachine_move step with
    | returned returned => cases returned
    | inside _ step => cases step
    | malloc here | call here => cases here

end

/--
After `slist_delete` the data of an element has been destroyed exactly once,
with the data that the element held last, if and only if no logical deletion
of the element returned one.
-/
theorem slist_destroys_once_iff [DecidableEq Value] (compiler : Compiler)
    {next : Addr → Ptr} {dataFlag : Addr → DataFlag Value}
    {history : List (Unit × SlistEvent Value)}
    {config : Config Unit (SlistState Value) (SlistPc Value)}
    (run : (slistMachine compiler Unit).Run
      (slistStart Unit (slistNew true next dataFlag)) history config)
    (ended : config.threads () = .gone) (se : Addr)
    (created : ((), .created (some se)) ∈ history) :
    destroyedData se history = [(config.shared.dataFlag se).data] ↔
      ((), .returned se (.didDelete true)) ∉ history := by
  have initial : Between (slistNew true next dataFlag) none [] [] :=
    ⟨rfl, rfl, nofun, by simp, nofun, nofun⟩
  have settles : Settles compiler history config.shared (config.threads ()) :=
    Machine.Reaches.run run (.here ⟨[], initial, .inl rfl⟩)
      fun _ _ _ _ _ settled => settled.step
  rw [ended] at settles
  obtain ⟨cells, between, here | ⟨-, rfl⟩⟩ :
      Settled history config.shared .gone := by
    cases settles with
    | here reached => exact reached
    | step enabled =>
      obtain ⟨action, outcome, stepped⟩ := enabled
      cases slistMachine_move stepped with
      | returned returned => cases returned
      | inside _ stepped => cases stepped
      | malloc here | call here => cases here
  · cases here
  · have destroyed := between.destroyed se created
    have deleted := between.deleted se created
    rw [Deleted] at deleted
    rw [deleted, destroyed]
    cases (config.shared.dataFlag se).deleted <;> simp

/-- An element that is set and not deleted is destroyed with its last data. -/
theorem slist_destroys_once_iff_set : destroyedData 1
        [((), SlistEvent.called), ((), .created (some 1)), ((), .called),
          ((), .returned 1 (.didSet 7 true)), ((), .called),
          ((), .destroyed 1 7), ((), .deletedAll)] = [7] ∧
      ((), .returned 1 (.didDelete true)) ∉
        [((), SlistEvent.called), ((), .created (some 1)), ((), .called),
          ((), .returned 1 (.didSet 7 true)), ((), .called),
          ((), .destroyed 1 7), ((), .deletedAll)] := by
  have executed : (slistMachine ⟨.leftFirst, .leftFirst⟩ Unit).execute
      (slistStart Unit (slistNew true (fun _ => none) fun _ => ⟨0, 0⟩))
      (((), .newHead 5) :: ((), .malloc (some 1)) ::
        List.replicate 8 ((), .inside) ++
        ((), .call 0 (.setData 7)) :: List.replicate 4 ((), .inside) ++
        ((), .delete) :: List.replicate 4 ((), .inside)) =
      some (_, [((), .called), ((), .created (some 1)), ((), .called),
        ((), .returned 1 (.didSet 7 true)), ((), .called),
        ((), .destroyed 1 7), ((), .deletedAll)]) :=
    rfl
  have once := slist_destroys_once_iff ⟨.leftFirst, .leftFirst⟩
    (Machine.run_of_execute executed) rfl 1 (by simp)
  exact ⟨rfl, once.1 rfl⟩

/-- An element that has been deleted logically is destroyed twice. -/
theorem slist_destroys_twice : ∃ (history : List (Unit × SlistEvent Nat))
      (config : Config Unit (SlistState Nat) (SlistPc Nat)),
      (slistMachine ⟨.leftFirst, .leftFirst⟩ Unit).Run
        (slistStart Unit (slistNew true (fun _ => none) fun _ => ⟨0, 0⟩))
        history config ∧
      config.threads () = .gone ∧
      ((), .created (some 1)) ∈ history ∧ destroyedData 1 history = [5, 5] := by
  have executed : (slistMachine ⟨.leftFirst, .leftFirst⟩ Unit).execute
      (slistStart Unit (slistNew true (fun _ => none) fun _ => ⟨0, 0⟩))
      (((), .newHead 5) :: ((), .malloc (some 1)) ::
        List.replicate 8 ((), .inside) ++
        ((), .call 0 .logicallyDeleteElement) ::
        List.replicate 5 ((), .inside) ++
        ((), .delete) :: List.replicate 4 ((), .inside)) =
      some (_, [((), .called), ((), .created (some 1)), ((), .called),
        ((), .destroyed 1 5), ((), .returned 1 (.didDelete true)),
        ((), .called), ((), .destroyed 1 5), ((), .deletedAll)]) :=
    rfl
  exact ⟨_, _, Machine.run_of_execute executed, rfl, by simp, rfl⟩

end Lockfreec.Basic.Slist
