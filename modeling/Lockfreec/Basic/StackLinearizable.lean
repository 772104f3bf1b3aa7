import Lockfreec.Basic.StackInvariant

/-!
# The stack is linearizable

A push takes effect with its compare-and-swap, a pop that finds an element
with its own.  A pop that answers that the stack is empty takes effect when it
sees the null pointer, which is before it loads the counter and before it
tests the pointer.  Phases of the calls are read off the program points, so
the atomic stack is in step with the memory at every moment.
-/

namespace Lockfreec.Basic.Stack

open Function Basic.ElementPool Basic.Freelist Lib.Chain Lib.Interleaving
  Lib.Linearizability Lib.TaggedStack

variable {Value : Type}

/-! ## Phases of the calls -/

/-- The operation of a push. -/
def pushOp (guaranteed : Bool) (data : Value) : StackOp Value :=
  if guaranteed then .guaranteedPush data else .push data

/-- A pop that has seen a null pointer is done. -/
def seenPhase : Ptr → Phase (StackOp Value) (StackRet Value)
  | none => .done (.popped none)
  | some _ => .called .pop

/-- How far the call of a thread has come. -/
def StackPc.phase (data : Addr → Value) :
    StackPc Value → Phase (StackOp Value) (StackRet Value)
  | .idle => .idle
  | .newElement guaranteed value _ | .initIncrement guaranteed _ _ value
  | .initNextPointer guaranteed _ _ _ value
  | .initNextCounter guaranteed _ _ _ value | .initFe guaranteed _ _ _ value
  | .initData guaranteed _ _ value => .called (pushOp guaranteed value)
  | .pushReadPointer guaranteed se _ | .pushReadCounter guaranteed se _ _
  | .pushStorePointer guaranteed se _ _ | .pushStoreCounter guaranteed se _ _
  | .pushDcas guaranteed se _ _ =>
    .called (pushOp guaranteed (data se))
  | .pushReturn _ rv => .done (.pushed rv)
  | .popReadPointer => .called .pop
  | .popReadCounter pointer => seenPhase pointer
  | .popLoop seLocal => seenPhase seLocal.pointer
  | .popReadNextCounter _ _ _ | .popDcas _ _ _ => .called .pop
  | .popReadData se => .done (.popped (some (data se)))
  | .popReadFe _ value | .popFreelistPush value _ =>
    .done (.popped (some value))
  | .popReturn value => .done (.popped value)

/-- The values in the stack, the top first. -/
def contents (data : Addr → Value) (cells : List (Addr × Nat)) :
    List Value :=
  cells.map fun cell => data cell.1

/-- A store to the data of a block that the thread does not hold. -/
theorem phase_congr {data changed : Addr → Value} {pc : StackPc Value}
    (same : ∀ se, pc.access.hand = some se → changed se = data se) :
    pc.phase changed = pc.phase data := by
  cases pc with
  | pushReadPointer guaranteed se counter
  | pushReadCounter guaranteed se counter pointer
  | pushStorePointer guaranteed se counter orgTop
  | pushStoreCounter guaranteed se counter orgTop
  | pushDcas guaranteed se counter orgTop | popReadData se =>
    simp only [StackPc.phase, same se rfl]
  | _ => rfl

theorem contents_congr {data changed : Addr → Value} {cells : List (Addr × Nat)}
    (same : ∀ se ∈ cells.map Prod.fst, changed se = data se) :
    contents changed cells = contents data cells := by
  apply List.map_congr_left
  intro cell mem
  exact same cell.1 (List.mem_map.mpr ⟨cell, mem, rfl⟩)

theorem stackObject_pushFailed {before : List Value} (guaranteed : Bool)
    (data : Value) :
    stackObject before (pushOp guaranteed data) (.pushed false) before := by
  cases guaranteed <;> rfl

theorem stackObject_pushed {before : List Value} (guaranteed : Bool)
    (data : Value) :
    stackObject before (pushOp guaranteed data) (.pushed true)
      (data :: before) := by
  cases guaranteed <;> rfl

/-! ## The atomic stack follows every step -/

variable {Tid : Type} [DecidableEq Tid]

/-- The phases of all threads. -/
def phases (data : Addr → Value) (pcs : Tid → StackPc Value) :
    Tid → Phase (StackOp Value) (StackRet Value) :=
  fun thread => (pcs thread).phase data

/-- The atomic stack has the same history and the values of the chain. -/
abbrev Follows (history : List (CallEvent Tid (StackOp Value)
    (StackRet Value))) (data : Addr → Value) (pcs : Tid → StackPc Value)
    (cells : List (Addr × Nat)) : Prop :=
  AtomicRun stackObject [] history (contents data cells) (phases data pcs)

section Follows

variable {history : List (CallEvent Tid (StackOp Value) (StackRet Value))}
  {ss after : StackState Value} {pcs : Tid → StackPc Value}
  {cells changed free : List (Addr × Nat)} {tid : Tid} {pc : StackPc Value}

theorem phases_update (data : Addr → Value) : phases data (update pcs tid pc) =
      update (phases data pcs) tid (pc.phase data) :=
  field_update (StackPc.phase data) pcs tid pc

variable {data : Addr → Value}

section

variable (follows : Follows history data pcs cells)

include follows

theorem Follows.quiet (same : pc.phase data = (pcs tid).phase data) :
    Follows history data (update pcs tid pc) cells := by
  rw [Follows, phases_update, same]
  change AtomicRun _ _ _ _ (update (phases data pcs) tid (phases data pcs tid))
  rwa [update_eq_self]

theorem Follows.take {op : StackOp Value} {result : StackRet Value}
    (called : (pcs tid).phase data = .called op)
    (done : pc.phase data = .done result)
    (effect : stackObject (contents data cells) op result
      (contents data changed)) :
    Follows history data (update pcs tid pc) changed := by
  rw [Follows, phases_update, done]
  exact AtomicRun.take follows called effect

/-- A pop looks at the pointer of `top`. -/
theorem Follows.seen {pointer : Ptr}
    (called : (pcs tid).phase data = .called .pop)
    (seen : pc.phase data = seenPhase pointer)
    (empty : pointer = none → cells = []) :
    Follows history data (update pcs tid pc) cells := by
  cases pointer with
  | none =>
    apply follows.take called seen
    rw [empty rfl]
    exact ⟨rfl, rfl⟩
  | some se =>
    apply follows.quiet
    rw [seen, called]
    rfl

end

/-- The store of the data of a block that is not yet in the stack. -/
theorem Follows.storeData (inv : StackInv ss pcs cells free)
    (follows : Follows history ss.data pcs cells) {guaranteed : Bool}
    {se : Addr} {counter : Nat} {value : Value}
    (here : pcs tid = .initData guaranteed se counter value) :
    Follows history (update ss.data se value)
      (update pcs tid (.pushReadPointer guaranteed se counter))
      cells := by
  have held : (pcs tid).access.hand = some se := by
    rw [here]
    rfl
  have others : phases (update ss.data se value) (update pcs tid
        (.pushReadPointer guaranteed se counter)) = phases ss.data pcs := by
    funext other
    by_cases same : other = tid
    · subst same
      simp [phases, here, StackPc.phase]
    · simp only [phases, update_of_ne same]
      apply phase_congr
      intro otherSe otherHeld
      apply update_of_ne
      rintro rfl
      exact inv.hand_apart held (Ne.symm same) otherHeld
  rw [Follows, others, contents_congr]
  · exact follows
  · intro other mem
    exact update_of_ne (ne_of_mem_of_not_mem mem (inv.hand_not_cell held)) _ _

/-- The atomic stack follows every step inside a stack function. -/
theorem Follows.step (inv : StackInv ss pcs cells free)
    (follows : Follows history ss.data pcs cells) {action : FreelistAction}
    (step : stackStep action ss (pcs tid) = some (after, pc))
    (content : ContentStep (pcs tid) pc cells changed) :
    Follows history after.data (update pcs tid pc) changed := by
  have empty : ss.top.pointer = none → cells = [] :=
    inv.tagged.chain.eq_nil
  generalize here : pcs tid = old at content
  have phaseHere : (pcs tid).phase ss.data = old.phase ss.data := by
    rw [here]
  rw [here] at step
  cases content with
  | push =>
    rename_i guaranteed se counter orgTop
    have data : after.data = ss.data := by
      simp only [stackStep, Option.some.injEq, Prod.mk.injEq] at step
      rw [← step.1]
    rw [data]
    exact follows.take phaseHere rfl (stackObject_pushed guaranteed _)
  | pop =>
    have data : after.data = ss.data := by
      simp only [stackStep, Option.some.injEq, Prod.mk.injEq] at step
      rw [← step.1]
    rw [data]
    exact follows.take phaseHere rfl rfl
  | keep notPushed notPopped =>
    cases old with
    | idle | pushReturn | popReturn => simp [stackStep] at step
    | newElement guaranteed value freelistPc =>
      rcases stackStep_newElement step with
        ⟨pool, next, -, rfl, rfl⟩ | ⟨-, rfl, rfl⟩ |
        ⟨fe, se, -, -, rfl, rfl⟩
      · exact follows.quiet phaseHere.symm
      · exact follows.take phaseHere rfl
          (stackObject_pushFailed guaranteed value)
      · exact follows.quiet phaseHere.symm
    | initData guaranteed se counter value =>
      cases step
      exact follows.storeData inv here
    | pushDcas guaranteed se counter orgTop =>
      cases step
      split
      · rename_i success
        rw [if_pos success] at notPushed
        exact absurd rfl (notPushed guaranteed se counter orgTop rfl)
      · exact follows.quiet phaseHere.symm
    | popReadPointer =>
      cases step
      exact follows.seen phaseHere rfl empty
    | popLoop seLocal =>
      simp only [stackStep] at step
      split at step
      · rename_i pointer
        cases step
        apply follows.quiet
        rw [phaseHere]
        simp only [StackPc.phase, pointer, seenPhase]
      · rename_i se pointer
        cases step
        apply follows.quiet
        rw [phaseHere]
        simp only [StackPc.phase, pointer, seenPhase]
    | popDcas seLocal se exchange =>
      simp only [stackStep, abstractionDcas] at step
      by_cases equal : ss.top = seLocal
      · simp only [if_pos equal, if_true] at step
        cases step
        exact absurd rfl (notPopped se)
      · simp only [if_neg equal, Bool.false_eq_true, if_false] at step
        cases step
        exact follows.seen phaseHere rfl empty
    | popFreelistPush value freelistPc =>
      rcases stackStep_popFreelistPush step with
        ⟨pool, next, -, rfl, rfl⟩ | ⟨-, rfl, rfl⟩
      all_goals exact follows.quiet phaseHere.symm
    | _ =>
      cases step
      exact follows.quiet phaseHere.symm

end Follows

/-! ## A push that finds no free element -/

/-- The runs of a stack. -/
abbrev StackRun (start : Config Tid (StackState Value) (StackPc Value)) :
    List (CallEvent Tid (StackOp Value) (StackRet Value)) →
      Config Tid (StackState Value) (StackPc Value) → Prop :=
  (stackMachine Tid Value).Run start

/--
At some moment since the thread's last call the freelist was empty.
-/
def EmptyDuringCall (start : Config Tid (StackState Value) (StackPc Value))
    (thread : Tid)
    (history : List (CallEvent Tid (StackOp Value) (StackRet Value)))
    (config : Config Tid (StackState Value) (StackPc Value)) : Prop :=
  ∃ before since middle, history = before ++ since ∧
    StackRun start before middle ∧ StackRun middle since config ∧
    middle.threads thread ≠ .idle ∧
    middle.shared.pool.fs.top.pointer = none ∧
    ∀ op, .call thread op ∉ since

/-- The program points of `freelist_pop`. -/
def inFreelistPop : FreelistPc → Bool
  | .popReadCounter | .popReadPointer _ | .popLoop _ | .popReadNextCounter _ _ _
  | .popDcas _ _ _ | .popReturn _ => true
  | _ => false

/-- A `freelist_pop` that has loaded a null pointer. -/
def sawNull : FreelistPc → Bool
  | .popLoop feLocal => feLocal.pointer.isNone
  | .popReturn fe => fe.isNone
  | _ => false

/-- A `stack_push` calls `freelist_pop` and no other freelist function. -/
def PopOnly : StackPc Value → Prop
  | .newElement false _ pc => inFreelistPop pc = true
  | _ => True

/-- A `stack_push` that is going to return zero. -/
def FindsNone : StackPc Value → Prop
  | .newElement false _ pc => sawNull pc = true
  | .pushReturn false rv => rv = false
  | _ => False

theorem poolStep_pop {action : FreelistAction} {pool after : PoolState}
    {old pc : FreelistPc} (pop : inFreelistPop old = true)
    (step : poolStep action pool old = some (after, pc)) :
    inFreelistPop pc = true ∧ (sawNull pc = true →
        sawNull old = true ∨ pool.fs.top.pointer = none) := by
  have inside := poolStep_freelist step
  cases old with
  | popReadCounter | popReadNextCounter =>
    simp only [freelistStep, Option.some.injEq, Prod.mk.injEq] at inside
    rcases inside with ⟨-, rfl⟩
    exact ⟨rfl, by simp [sawNull]⟩
  | popReadPointer counter =>
    simp only [freelistStep, Option.some.injEq, Prod.mk.injEq] at inside
    rcases inside with ⟨-, rfl⟩
    exact ⟨rfl, fun null => .inr (by simpa [sawNull] using null)⟩
  | popLoop feLocal =>
    simp only [freelistStep] at inside
    split at inside
    · rename_i pointer
      simp only [Option.some.injEq, Prod.mk.injEq] at inside
      rcases inside with ⟨-, rfl⟩
      exact ⟨rfl, fun _ => .inl (by simp [sawNull, pointer])⟩
    · simp only [Option.some.injEq, Prod.mk.injEq] at inside
      rcases inside with ⟨-, rfl⟩
      exact ⟨rfl, by simp [sawNull]⟩
  | popDcas feLocal fe exchange =>
    simp only [freelistStep, abstractionDcas, Option.some.injEq,
      Prod.mk.injEq] at inside
    rcases inside with ⟨-, rfl⟩
    by_cases equal : pool.fs.top = feLocal
    · simp [equal, inFreelistPop, sawNull]
    · simp [equal, inFreelistPop, sawNull]
  | popReturn fe => simp [freelistStep] at inside
  | _ => simp [inFreelistPop] at pop

/-- One step of a `stack_push` towards an answer of zero. -/
theorem stackStep_findsNone {action : FreelistAction}
    {ss after : StackState Value} {old pc : StackPc Value} (only : PopOnly old)
    (step : stackStep action ss old = some (after, pc)) :
    PopOnly pc ∧ (FindsNone pc →
      FindsNone old ∨ ss.pool.fs.top.pointer = none) := by
  cases old with
  | newElement guaranteed data freelistPc =>
    rcases stackStep_newElement step with
      ⟨pool, next, moved, rfl, rfl⟩ | ⟨rfl, rfl, rfl⟩ |
      ⟨fe, se, -, -, rfl, rfl⟩
    · cases guaranteed with
      | true => exact ⟨trivial, False.elim⟩
      | false => exact poolStep_pop only moved
    · cases guaranteed with
      | true => exact ⟨trivial, False.elim⟩
      | false => exact ⟨trivial, fun _ => .inl rfl⟩
    · exact ⟨trivial, False.elim⟩
  | pushDcas guaranteed se counter orgTop =>
    cases step
    split
    · cases guaranteed with
      | true => exact ⟨trivial, False.elim⟩
      | false => exact ⟨trivial, by simp [FindsNone]⟩
    · exact ⟨trivial, False.elim⟩
  | popLoop seLocal =>
    simp only [stackStep] at step
    split at step <;> cases step <;> exact ⟨trivial, False.elim⟩
  | popDcas seLocal se exchange =>
    cases step
    split <;> exact ⟨trivial, False.elim⟩
  | popFreelistPush data freelistPc =>
    rcases stackStep_popFreelistPush step with
      ⟨pool, next, -, rfl, rfl⟩ | ⟨-, rfl, rfl⟩
    all_goals exact ⟨trivial, False.elim⟩
  | idle | pushReturn | popReturn => simp [stackStep] at step
  | _ =>
    cases step
    exact ⟨trivial, False.elim⟩

/-! ## Whole runs -/

section Runs

variable {start config : Config Tid (StackState Value) (StackPc Value)}
  {history : List (CallEvent Tid (StackOp Value) (StackRet Value))}

variable {action : StackAction Value}
  {outcome : Outcome (StackState Value) (StackPc Value)
  (CallEvent Tid (StackOp Value) (StackRet Value))}

theorem EmptyDuringCall.extend {tid other : Tid}
    (empty : EmptyDuringCall start tid history config)
    (step : (stackMachine Tid Value).step other action config.shared
      (config.threads other) = some outcome)
    (noCall : ∀ op, .call tid op ∉ outcome.events) :
    EmptyDuringCall start tid (history ++ outcome.events)
      (config.advance other outcome) := by
  rcases empty with
    ⟨before, since, middle, rfl, first, second, inCall, null, calls⟩
  refine ⟨before, since ++ outcome.events, middle, List.append_assoc _ _ _,
    first, second.snoc trivial step, inCall, null, ?_⟩
  intro op mem
  rcases List.mem_append.mp mem with old | new
  · exact calls op old
  · exact noCall op new

/-- What holds at the end of every run. -/
structure StackRunInv (start : Config Tid (StackState Value) (StackPc Value))
    (history : List (CallEvent Tid (StackOp Value) (StackRet Value)))
    (config : Config Tid (StackState Value) (StackPc Value)) : Prop where
  run : StackRun start history config
  memory : ∃ cells free, StackInv config.shared config.threads cells free ∧
      Follows history config.shared.data config.threads cells
  popOnly : ∀ thread, PopOnly (config.threads thread)
  findsNone : ∀ thread, FindsNone (config.threads thread) →
    EmptyDuringCall start thread history config

/-- What a step has to show, apart from what the other threads keep. -/
theorem StackRunInv.advance {tid : Tid} (inv : StackRunInv start history config)
    (step : (stackMachine Tid Value).step tid action config.shared
      (config.threads tid) = some outcome) (only : PopOnly outcome.thread)
    (finds : FindsNone outcome.thread →
      EmptyDuringCall start tid (history ++ outcome.events)
        (config.advance tid outcome))
    (noCall : ∀ other, other ≠ tid → ∀ op,
      .call other op ∉ outcome.events) (memory : ∃ cells free,
      StackInv outcome.shared
        (update config.threads tid outcome.thread) cells free ∧
      Follows (history ++ outcome.events) outcome.shared.data
        (update config.threads tid outcome.thread) cells) :
    StackRunInv start (history ++ outcome.events)
      (config.advance tid outcome) := by
  refine ⟨inv.run.snoc trivial step, memory,
    forall_update _ only fun other _ => inv.popOnly other, ?_⟩
  intro other
  by_cases same : other = tid
  · subst same
    rw [Config.advance_threads, update_self]
    exact finds
  · rw [Config.advance_threads, update_of_ne same]
    intro earlier
    exact (inv.findsNone other earlier).extend step (noCall other same)

theorem StackRunInv.step {tid : Tid} (inv : StackRunInv start history config)
    (step : (stackMachine Tid Value).step tid action config.shared
      (config.threads tid) = some outcome) :
    StackRunInv start (history ++ outcome.events)
      (config.advance tid outcome) := by
  rcases inv.memory with ⟨cells, free, memory, follows⟩
  have machine := step
  simp only [stackMachine] at machine
  split at machine
  · rename_i op here
    cases machine
    refine inv.advance step ?_ ?_ ?_ ?_
    · cases op <;> first | rfl | trivial
    · intro finds
      cases op <;> simp [stackCall, FindsNone, sawNull] at finds
    · intro other ne another
      simpa using fun equal => absurd equal ne
    · refine ⟨cells, free, memory.call op here, ?_⟩
      rw [Follows, phases_update]
      have idle : phases config.shared.data config.threads tid =
          .idle := by
        simp only [phases, here]
        rfl
      have called := AtomicRun.call follows idle op
      cases op <;> exact called
  · rename_i inside
    split at machine
    · rename_i result returned
      cases machine
      refine inv.advance step ?_ ?_ ?_ ?_
      · trivial
      · exact False.elim
      · simp
      · refine ⟨cells, free, memory.returned returned, ?_⟩
        rw [Follows, phases_update]
        have done : phases config.shared.data config.threads tid =
            .done result := by
          cases here : config.threads tid <;>
            simp [here, stackReturn] at returned
          all_goals
            subst returned
            simp only [phases, here]
            rfl
        exact AtomicRun.ret follows done
    · simp only [Option.map_eq_some_iff] at machine
      rcases machine with ⟨⟨after, pc⟩, machine, rfl⟩
      rcases memory.step machine with
        ⟨changed, freeAfter, content, kept⟩
      rcases stackStep_findsNone (inv.popOnly tid) machine with
        ⟨only, finds⟩
      refine inv.advance step only ?_ ?_ ?_
      · intro now
        rcases finds now with earlier | null
        · exact (inv.findsNone tid earlier).extend step (by simp)
        · have inCall : config.threads tid ≠ .idle := by
            intro idle
            simp [idle, stackStep] at machine
          have last : StackRun config ([] ++ [])
              (config.advance tid ⟨after, pc, []⟩) :=
            Machine.RunWhere.snoc .nil trivial step
          exact ⟨history, [], config, rfl, inv.run, last, inCall, null, by simp⟩
      · simp
      · refine ⟨changed, freeAfter, kept, ?_⟩
        rw [List.append_nil]
        exact follows.step memory machine content
  · simp at machine

omit [DecidableEq Tid] in
/-- Without a call in progress every element is in the stack or free. -/
theorem StackInv.idle_count {ss : StackState Value} {pcs : Tid → StackPc Value}
    {cells free : List (Addr × Nat)} (inv : StackInv ss pcs cells free)
    (idle : ∀ tid, pcs tid = .idle) :
    cells.length + free.length = ss.pool.fs.elementCount := by
  have freelist := inv.pool.freelist
  have counted : ∀ fe, fe ∈ ss.pool.fs.counted ↔
      fe ∈ cells.map (fun cell => ss.fe cell.1) ++ free.map Prod.fst := by
    intro fe
    have known : fe ∈ ss.pool.fs.counted ↔ ss.pool.fs.allocated fe = true := by
      constructor
      · exact freelist.countedAllocated fe
      · intro taken
        apply inv.pool.counted fe taken
        simp [idle, StackPc.freelistPc, uncountedElement]
    rw [known, freelist.allocated fe, List.mem_append, or_comm]
    apply or_congr_left
    simp [inUse, idle, StackPc.freelistPc, FreelistPc.inHand, ownedFe,
      StackPc.access, Access.hand]
  have distinct : (cells.map (fun cell => ss.fe cell.1) ++
      free.map Prod.fst).Nodup := by
    rw [List.nodup_append]
    refine ⟨?_, freelist.tagged.nodup, ?_⟩
    · rw [← Function.comp_def ss.fe, ← List.map_map]
      apply List.Nodup.map_on _ inv.tagged.nodup
      intro left leftMember right rightMember same
      have equal := (inv.cellFe left leftMember).symm.trans
        ((congrArg ss.pool.fs.data same).trans (inv.cellFe right rightMember))
      exact Option.some.inj equal
    · rintro fe inStack other isFree rfl
      rw [List.mem_map] at inStack
      rcases inStack with ⟨cell, mem, rfl⟩
      exact freelist.outsideNotCell (ss.fe cell.1)
        (.inl ⟨cell.1, List.mem_map.mpr ⟨cell, mem, rfl⟩, rfl⟩) isFree
  have same := (List.perm_ext_iff_of_nodup freelist.countedNodup
    distinct).mpr counted
  have lengths := same.length_eq
  rw [freelist.countedLength] at lengths
  simp only [List.length_append, List.length_map] at lengths
  exact lengths.symm

/--
The stack that `stack_new` has just created, with every thread outside of it.
-/
def stackStart (Tid : Type) (pool : PoolState) (next : Addr → Word)
    (fe : Addr → Addr) (data : Addr → Value) :
    Config Tid (StackState Value) (StackPc Value) where
  shared := stackNew pool next fe data
  threads := fun _ => .idle

/-- The stacks that `stack_new` creates, for any number of elements. -/
def Created (start : Config Tid (StackState Value) (StackPc Value)) : Prop :=
  ∃ poolNext poolData elements next fe data,
    (elements.map Prod.fst).Nodup ∧ (elements.map Prod.snd).Nodup ∧
      start = stackStart Tid (poolNew poolNext poolData elements) next fe data

theorem StackRunInv.new (created : Created start) :
    StackRunInv start [] start := by
  rcases created with
    ⟨poolNext, poolData, elements, next, fe, data, distinct, blocks, rfl⟩
  rcases PoolInv.new Tid distinct blocks with ⟨free, -, pool⟩
  refine ⟨.nil, ⟨[], free, ?_, AtomicRun.nil⟩, fun _ => trivial,
    fun _ => False.elim⟩
  have unused : inUse fe (fun _ : Tid => (.idle : StackPc Value)) [] = ∅ := by
    simp [inUse, ownedFe, StackPc.access, Access.hand]
  refine ⟨.of_chain rfl (by simp), ?_, by simp, ?_, fun _ => trivial⟩
  · rw [← unused] at pool
    exact pool
  · simp [stackStart, StackPc.access, Access.hand]

/--
Every run of the stack is linearizable to the sequential stack.  A
`stack_push` returns zero only if the freelist was empty at some moment of the
call, and without a call in progress the elements of the stack and of the
freelist are all the elements there are.
-/
theorem stack_linearizable (created : Created start)
    (run : StackRun start history config) :
    Linearizable stackObject [] history ∧
    (∀ thread, config.threads thread = .pushReturn false false →
      EmptyDuringCall start thread history config) ∧
    ((∀ thread, config.threads thread = .idle) → ∃ stacked free,
        Linked (fun se => (config.shared.next se).pointer)
          config.shared.top.pointer stacked ∧
        Linked (fun fe => (config.shared.pool.fs.next fe).pointer)
          config.shared.pool.fs.top.pointer free ∧
        stacked.length + free.length = config.shared.pool.fs.elementCount) := by
  have inv : StackRunInv start history config := by
    apply run.invariant fun history config =>
      StackRunInv start history config
    · exact StackRunInv.new created
    · intro history config thread action outcome before _ stepped
      exact before.step stepped
  rcases inv.memory with ⟨cells, free, memory, follows⟩
  refine ⟨⟨_, _, follows⟩, ?_, ?_⟩
  · intro thread here
    apply inv.findsNone thread
    rw [here]
    rfl
  · intro idle
    refine ⟨cells.map Prod.fst, free.map Prod.fst,
      memory.tagged.chain.linked, memory.pool.freelist.tagged.chain.linked,
      ?_⟩
    rw [List.length_map, List.length_map]
    exact memory.idle_count idle

/-- One thread pushes a value, another pushes in vain and then pops it. -/
theorem stack_linearizable_push_pop :
    ∃ (start config : Config Bool (StackState Nat) (StackPc Nat))
      (history : List (CallEvent Bool (StackOp Nat) (StackRet Nat))),
      Created start ∧
      history = [.call false (.push 5), .ret false (.pushed true),
          .call true (.push 6), .ret true (.pushed false),
          .call true .pop, .ret true (.popped (some 5))] ∧
      StackRun start history config ∧
      Linearizable stackObject [] history ∧
      config.shared.pool.fs.elementCount = 1 := by
  have executed : (stackMachine Bool Nat).execute
      (stackStart Bool (poolNew (fun _ => ⟨none, 0⟩) (fun _ => none)
        [(7, 70)]) (fun _ => ⟨none, 0⟩) (fun _ => 0) fun _ => 0)
      ((false, .call (.push 5)) :: List.replicate 17 (false, .inside .run) ++
        (true, .call (.push 6)) :: List.replicate 5 (true, .inside .run) ++
        (true, .call .pop) :: List.replicate 15 (true, .inside .run)) =
      some (_, [.call false (.push 5), .ret false (.pushed true),
          .call true (.push 6), .ret true (.pushed false),
          .call true .pop, .ret true (.popped (some 5))]) :=
    rfl
  have run := Machine.run_of_execute executed
  have created : Created (stackStart Bool (poolNew (fun _ => ⟨none, 0⟩)
      (fun _ => none) [(7, 70)]) (fun _ => ⟨none, 0⟩) (fun _ => 0)
      fun _ => (0 : Nat)) :=
    ⟨_, _, [(7, 70)], _, _, _, by decide, by decide, rfl⟩
  exact ⟨_, _, _, created, rfl, run, (stack_linearizable created run).1, rfl⟩

end Runs

end Lockfreec.Basic.Stack
