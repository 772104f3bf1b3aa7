import Lockfreec.Basic.FreelistInvariant
import Lockfreec.Lib.History

/-!
# Conservation of freelist elements

Any number of threads call the functions of one freelist in any order.  A
thread keeps the elements it has popped in a list of its own and may push only
elements of that list.  Every element the freelist counts is then in exactly
one place at any time, and the element that a pop removes has not been popped
or pushed since the pop took its snapshot of `top`.
-/

namespace Lockfreec.Basic.Freelist

open Function Lib.Chain Lib.History Lib.Interleaving Lib.TaggedStack

/-! ## Threads that use a freelist -/

/-- A thread inside or outside of the freelist functions. -/
structure UserThread where
  pc : FreelistPc
  /-- The elements it has popped and not pushed back. -/
  held : List Addr

/-- The calls a user may make, and the steps inside a call. -/
inductive UserAction where
  | pop
  | push (fe : Addr)
  | guaranteedPop
  | newElements (numberElements : Nat)
  | inside (action : FreelistAction)

/-- An effect on `top` and the thread that had it. -/
structure UserEvent (Tid : Type) where
  thread : Tid
  event : FreelistEvent
deriving DecidableEq

/-- A call made by an idle thread. -/
def userCall (user : UserThread) : UserAction → Option UserThread
  | .pop => some { user with pc := .popReadCounter }
  | .push fe =>
    if fe ∈ user.held then
      some { pc := .pushIncrement none fe, held := user.held.erase fe }
    else none
  | .guaranteedPop => some { user with pc := .newMalloc none }
  | .newElements numberElements =>
    some { user with pc := .newElementsLoop ⟨numberElements, 0, 0⟩ }
  | .inside _ => none

/-- The return of a freelist function to its user. -/
def userReturn (user : UserThread) : Option UserThread :=
  match user.pc with
  | .popReturn fe => some { pc := .idle, held := fe.toList ++ user.held }
  | .newElementsReturn _ | .pushReturn => some { user with pc := .idle }
  | _ => none

/-- A call, a return or a step inside a freelist function. -/
def userMachine (Tid : Type) :
    Machine Tid UserAction FreelistState UserThread (UserEvent Tid) where
  step thread action fs user :=
    if user.pc = .idle then
      (userCall user action).map fun called => ⟨fs, called, []⟩
    else
      match userReturn user, action with
      | some returned, .inside .run => some ⟨fs, returned, []⟩
      | none, .inside action =>
        (freelistStep action fs user.pc).map fun result =>
          ⟨result.1, { user with pc := result.2 },
            (freelistEvent user.pc result.2).toList.map
              fun event => ⟨thread, event⟩⟩
      | _, _ => none

/--
The state that `freelist_new` sets up before it adds the first element.  The
heap cells hold whatever the memory held.
-/
def freelistNew (initFunc : Bool) (next : Addr → Word) (data : Addr → Ptr) :
    FreelistState where
  top := ⟨none, 0⟩
  initFunc := initFunc
  abaCounter := 0
  elementCount := 0
  next := next
  data := data
  allocated := fun _ => false
  counted := []

/-! ## The invariant of all users together -/

variable {Tid : Type} [DecidableEq Tid]

/-- Every element some user holds between two calls. -/
def heldElements (threads : Tid → UserThread) : Set Addr :=
  { fe | ∃ thread, fe ∈ (threads thread).held }

/-- The freelist invariant, and no element is held twice. -/
structure UserInv (config : Config Tid FreelistState UserThread)
    (cells : List (Addr × Nat)) : Prop where
  freelist : FreelistInv config.shared
    (fun thread => (config.threads thread).pc)
    (heldElements config.threads) cells
  heldNodup : ∀ thread, (config.threads thread).held.Nodup
  heldApart : ∀ left right, left ≠ right →
    List.Disjoint (config.threads left).held (config.threads right).held

variable {config : Config Tid FreelistState UserThread}
  {cells changed : List (Addr × Nat)} {tid : Tid} {user : UserThread}
  {fe : Addr} {action : UserAction} {history : List (UserEvent Tid)}

theorem UserInv.same_held {fs : FreelistState} (inv : UserInv config cells)
    (same : user.held = (config.threads tid).held) (freelist : FreelistInv fs
      (update (fun other => (config.threads other).pc) tid
        user.pc) (heldElements config.threads) changed) :
    UserInv ⟨fs, update config.threads tid user⟩ changed where
  freelist := by
    have held := project_update UserThread.held same
    simpa only [heldElements, held,
      field_update UserThread.pc config.threads] using freelist
  heldNodup := fun other => by
    simpa only [project_update UserThread.held same] using inv.heldNodup other
  heldApart := fun left right ne => by
    simpa only [project_update UserThread.held same] using
      inv.heldApart left right ne

theorem heldElements_erase {threads : Tid → UserThread} (pc : FreelistPc)
    (nodup : (threads tid).held.Nodup) (apart : ∀ left right, left ≠ right →
      List.Disjoint (threads left).held (threads right).held)
    (mem : fe ∈ (threads tid).held) :
    heldElements (update threads tid ⟨pc, (threads tid).held.erase fe⟩) =
      heldElements threads \ {fe} := by
  ext other
  simp only [heldElements, Set.mem_sdiff, Set.mem_ofPred_eq,
    Set.mem_singleton_iff]
  rw [exists_update fun user : UserThread => other ∈ user.held,
    exists_thread (fun user : UserThread => other ∈ user.held) tid,
    nodup.mem_erase_iff]
  constructor
  · rintro (⟨ne, own⟩ | ⟨another, isOther, held⟩)
    · exact ⟨.inl own, ne⟩
    · refine ⟨.inr ⟨another, isOther, held⟩, ?_⟩
      rintro rfl
      exact apart another tid isOther held mem
  · rintro ⟨own | elsewhere, ne⟩
    · exact .inl ⟨ne, own⟩
    · exact .inr elsewhere

theorem UserInv.call (inv : UserInv config cells)
    (idle : (config.threads tid).pc = .idle)
    (called : userCall (config.threads tid) action = some user) :
    UserInv ⟨config.shared, update config.threads tid user⟩
      cells := by
  cases action with
  | pop | guaranteedPop | newElements =>
    cases called
    exact inv.same_held rfl (inv.freelist.move idle rfl rfl
      (fun _ => .inl) trivial trivial)
  | inside action => simp [userCall] at called
  | push fe =>
    simp only [userCall] at called
    split at called
    · rename_i mem
      cases called
      have subset : (config.threads tid).held.erase fe ⊆
          (config.threads tid).held := List.erase_subset
      refine ⟨?_, ?_, ?_⟩
      · rw [heldElements_erase _ (inv.heldNodup tid) inv.heldApart
          mem, field_update UserThread.pc config.threads]
        exact inv.freelist.take ⟨tid, mem⟩ (by rw [idle]; rfl) rfl
          trivial
      · exact forall_update (fun user : UserThread => user.held.Nodup)
          ((inv.heldNodup tid).erase fe)
          fun other _ => inv.heldNodup other
      · refine pairwise_update (fun left right : UserThread =>
            List.Disjoint left.held right.held)
          inv.heldApart fun other ne => ?_
        exact ⟨List.disjoint_of_subset_left subset
            (inv.heldApart tid other ne.symm),
          List.disjoint_of_subset_right subset (inv.heldApart other tid ne)⟩
    · simp at called

theorem heldElements_cons {threads : Tid → UserThread} (pc : FreelistPc) :
    heldElements (update threads tid ⟨pc, fe :: (threads tid).held⟩) =
      insert fe (heldElements threads) := by
  ext other
  simp only [heldElements, Set.mem_insert_iff, Set.mem_ofPred_eq]
  rw [exists_update fun user : UserThread => other ∈ user.held,
    exists_thread (fun user : UserThread => other ∈ user.held) tid,
    List.mem_cons, or_assoc]

theorem UserInv.return (inv : UserInv config cells)
    (returned : userReturn (config.threads tid) = some user) :
    UserInv ⟨config.shared, update config.threads tid user⟩
      cells := by
  unfold userReturn at returned
  split at returned
  · rename_i fe here
    cases returned
    cases fe with
    | none =>
      exact inv.same_held rfl (inv.freelist.move here rfl rfl
        (fun _ => .inl) trivial trivial)
    | some fe =>
      have own : (config.threads tid).pc.inHand = some fe := by
        rw [here]
        rfl
      have absent := inv.freelist.inHand_not_outside own
      have fresh : ∀ other, fe ∉ (config.threads other).held :=
        fun other mem => absent ⟨other, mem⟩
      simp only [Option.toList_some, List.singleton_append]
      refine ⟨?_, ?_, ?_⟩
      · rw [heldElements_cons, field_update UserThread.pc config.threads]
        exact inv.freelist.give own rfl trivial
      · exact forall_update (fun user : UserThread => user.held.Nodup)
          (List.nodup_cons.mpr ⟨fresh tid, inv.heldNodup tid⟩)
          fun other _ => inv.heldNodup other
      · refine pairwise_update (fun left right : UserThread =>
            List.Disjoint left.held right.held)
          inv.heldApart fun other ne => ?_
        exact ⟨List.disjoint_cons_left.mpr ⟨fresh other,
            inv.heldApart tid other ne.symm⟩,
          List.disjoint_cons_right.mpr ⟨fresh other,
            inv.heldApart other tid ne⟩⟩
  · rename_i here
    cases returned
    exact inv.same_held rfl (inv.freelist.move here rfl rfl
      (fun _ => .inl) trivial trivial)
  · rename_i here
    cases returned
    exact inv.same_held rfl (inv.freelist.move here rfl rfl
      (fun _ => .inl) trivial trivial)
  · simp at returned

/-! ## What happens between a snapshot and its compare-and-swap -/

/-- No thread pops or pushes the element in these events. -/
def Untouched (fe : Addr) (events : List (UserEvent Tid)) : Prop :=
  ∀ other, ⟨other, .popped fe⟩ ∉ events ∧ ⟨other, .pushed fe⟩ ∉ events

/-- The events since a thread's last snapshot of `top`. -/
def sinceRead (thread : Tid) (history : List (UserEvent Tid)) :
    List (UserEvent Tid) :=
  since (fun event => event = ⟨thread, .readTop⟩) history

/--
Whenever a pop takes an element out, that element has been neither popped nor
pushed since the pop took its snapshot.
-/
def StalledPopsSafe (history : List (UserEvent Tid)) : Prop :=
  ∀ first between last thread fe,
    history = first ++ ⟨thread, .readTop⟩ :: between ++
      ⟨thread, .popped fe⟩ :: last →
    ⟨thread, .readTop⟩ ∉ between →
    Untouched fe between

/-- A snapshot whose pair is still linked has seen its element rest. -/
def SnapshotsRest (history : List (UserEvent Tid))
    (pcs : Tid → FreelistPc) (cells : List (Addr × Nat)) : Prop :=
  ∀ thread counter fe, (pcs thread).readCounter = some counter →
    (fe, counter) ∈ cells → Untouched fe (sinceRead thread history)

omit [DecidableEq Tid] in
theorem Untouched.append {events : List (UserEvent Tid)} {event : FreelistEvent}
    (before : Untouched fe events) (popped : event ≠ .popped fe)
    (pushed : event ≠ .pushed fe) :
    Untouched fe (events ++ [⟨tid, event⟩]) := by
  intro other
  constructor
  · intro mem
    rcases List.mem_append.mp mem with old | new
    · exact (before other).1 old
    · simp only [List.mem_singleton, UserEvent.mk.injEq] at new
      exact popped new.2.symm
  · intro mem
    rcases List.mem_append.mp mem with old | new
    · exact (before other).2 old
    · simp only [List.mem_singleton, UserEvent.mk.injEq] at new
      exact pushed new.2.symm

theorem sinceRead_append {other : Tid} {event : FreelistEvent}
    (ne : (⟨other, event⟩ : UserEvent Tid) ≠ ⟨tid, .readTop⟩) :
    sinceRead tid (history ++ [⟨other, event⟩]) =
      sinceRead tid history ++ [⟨other, event⟩] :=
  since_append (decide_eq_false ne)

theorem sinceRead_read : sinceRead tid (history ++ [⟨tid, .readTop⟩]) = [] :=
  since_marked (decide_eq_true rfl)

/-- The events after the last snapshot, read off the history. -/
theorem sinceRead_split {first between : List (UserEvent Tid)}
    (absent : (⟨tid, .readTop⟩ : UserEvent Tid) ∉ between) :
    sinceRead tid (first ++ ⟨tid, .readTop⟩ :: between) =
      between := by
  apply since_split
  · exact decide_eq_true rfl
  · intro other mem
    apply decide_eq_false
    rintro rfl
    exact absent mem

theorem freelistEvent_push {caller : Caller} {counter : Nat} {original : Word} :
    freelistEvent (.pushDcas caller fe counter original)
      (afterPush caller) = some (.pushed fe) := by
  cases caller <;> rfl

/-- A step inside a freelist function keeps the snapshots at rest. -/
theorem SnapshotsRest.step {fs : FreelistState} {pcs : Tid → FreelistPc}
    {outside : Set Addr} {pc : FreelistPc}
    (rest : SnapshotsRest history pcs cells)
    (inv : FreelistInv fs pcs outside cells)
    (chain : ChainStep (pcs tid) pc cells changed) :
    SnapshotsRest (history ++ (freelistEvent (pcs tid) pc).toList.map
        fun event => ⟨tid, event⟩)
      (update pcs tid pc) changed := by
  intro other counter fe read mem
  by_cases same : other = tid
  · subst same
    rw [update_self] at read
    generalize here : pcs other = old at chain
    cases chain with
    | keep quiet =>
      rcases quiet with snapshot | ⟨silent, kept⟩
      · rw [snapshot, Option.toList_some, List.map_singleton, sinceRead_read]
        intro another
        simp
      · rw [silent, Option.toList_none, List.map_nil, List.append_nil]
        rcases kept with gone | kept
        · rw [gone] at read
          simp at read
        · exact rest other counter fe (by rw [here, ← kept, read]) mem
    | pop => simp [FreelistPc.readCounter, FreelistPc.access,
        Access.readTag] at read
    | push => simp [FreelistPc.readCounter, afterPush_access,
        Access.readTag] at read
  · rw [update_of_ne same] at read
    have apart := inv.tagged.compatible tid other (Ne.symm same)
    have foreign : ∀ event, (⟨tid, event⟩ : UserEvent Tid) ≠
        ⟨other, .readTop⟩ := by
      intro event equal
      simp only [UserEvent.mk.injEq] at equal
      exact same equal.1.symm
    have nodup := inv.tagged.nodup
    have held := (inv.tagged.accessOk tid).hand
    generalize here : pcs tid = old at chain apart held
    cases chain with
    | keep quiet =>
      have before := rest other counter fe read mem
      rcases quiet with snapshot | ⟨silent, -⟩
      · rw [snapshot, Option.toList_some, List.map_singleton,
          sinceRead_append (foreign _)]
        exact before.append (by simp) (by simp)
      · rwa [silent, Option.toList_none, List.map_nil, List.append_nil]
    | pop =>
      rename_i feLocal exchange popped
      have before := rest other counter fe read (by simp [mem])
      have ne : popped ≠ fe := by
        rintro rfl
        rw [List.map_cons, List.nodup_cons] at nodup
        exact nodup.1 (List.mem_map.mpr ⟨_, mem, rfl⟩)
      change Untouched fe (sinceRead other (history ++ [⟨tid, .popped popped⟩]))
      rw [sinceRead_append (foreign _)]
      exact before.append (by simpa using ne) (by simp)
    | push =>
      rename_i caller pushed drawn original
      rcases List.mem_cons.mp mem with equal | mem
      · simp only [Prod.mk.injEq] at equal
        exact absurd read (equal.2 ▸ apart.read drawn rfl)
      · have before := rest other counter fe read mem
        have ne : pushed ≠ fe := by
          rintro rfl
          exact held pushed rfl (List.mem_map.mpr ⟨_, mem, rfl⟩)
        rw [freelistEvent_push]
        change Untouched fe (sinceRead other
          (history ++ [⟨tid, .pushed pushed⟩]))
        rw [sinceRead_append (foreign _)]
        exact before.append (by simp) (by simpa using ne)

theorem StalledPopsSafe.append {event : UserEvent Tid}
    (safe : StalledPopsSafe history)
    (popped : ∀ tid fe, event = ⟨tid, .popped fe⟩ →
      Untouched fe (sinceRead tid history)) :
    StalledPopsSafe (history ++ [event]) := by
  intro first between last tid fe split absent
  rcases snoc_split split with ⟨rfl, same⟩ | ⟨front, shorter⟩
  · have untouched := popped tid fe same
    rwa [sinceRead_split absent] at untouched
  · exact safe first between front tid fe shorter absent

theorem StalledPopsSafe.step {pcs : Tid → FreelistPc} {pc : FreelistPc}
    (safe : StalledPopsSafe history) (rest : SnapshotsRest history pcs cells)
    (chain : ChainStep (pcs tid) pc cells changed) :
    StalledPopsSafe (history ++ (freelistEvent (pcs tid) pc).toList.map
        fun event => ⟨tid, event⟩) := by
  generalize here : pcs tid = old at chain
  cases chain with
  | keep quiet =>
    rcases quiet with snapshot | ⟨silent, -⟩
    · rw [snapshot, Option.toList_some, List.map_singleton]
      exact safe.append (by simp)
    · rwa [silent, Option.toList_none, List.map_nil, List.append_nil]
  | pop =>
    rename_i feLocal exchange fe
    apply safe.append
    intro other popped equal
    simp only [UserEvent.mk.injEq, FreelistEvent.popped.injEq] at equal
    rcases equal with ⟨rfl, rfl⟩
    exact rest tid feLocal.counter fe (by rw [here]; rfl) (by simp)
  | push =>
    rw [freelistEvent_push]
    exact safe.append (by simp)

/-! ## Conservation -/

/-- Everything a user has in its hands, inside and between calls. -/
def UserThread.hand (user : UserThread) : List Addr :=
  user.pc.inHand.toList ++ user.held

/-- Once in the chain, or once in the hands of exactly one thread. -/
def InOnePlace (cells : List Addr) (threads : Tid → UserThread)
    (fe : Addr) : Prop :=
  (cells.count fe = 1 ∧ ∀ thread, fe ∉ (threads thread).hand) ∨
    (fe ∉ cells ∧ ∃ thread, (threads thread).hand.count fe = 1 ∧
      ∀ other, other ≠ thread → fe ∉ (threads other).hand)

/-- The invariant of users together with the history of their run. -/
structure HistoryInv (history : List (UserEvent Tid))
    (config : Config Tid FreelistState UserThread)
    (cells : List (Addr × Nat)) : Prop where
  users : UserInv config cells
  rest : SnapshotsRest history (fun thread => (config.threads thread).pc) cells
  safe : StalledPopsSafe history

theorem userCall_readCounter {called : UserThread}
    (call : userCall user action = some called) :
    called.pc.readCounter = none := by
  cases action <;> simp only [userCall, Option.some.injEq] at call
  case push =>
    split at call <;> simp only [Option.some.injEq, reduceCtorEq] at call
    subst call
    rfl
  case inside => simp at call
  all_goals
    subst call
    rfl

theorem userReturn_readCounter {returned : UserThread}
    (back : userReturn user = some returned) :
    returned.pc.readCounter = none := by
  unfold userReturn at back
  split at back <;> simp only [Option.some.injEq, reduceCtorEq] at back
  all_goals
    subst back
    rfl

/-- A call or a return takes no snapshot and leaves the chain alone. -/
theorem HistoryInv.outside (inv : HistoryInv history config cells)
    (users : UserInv ⟨config.shared, update config.threads tid user⟩ cells)
    (unread : user.pc.readCounter = none) :
    HistoryInv (history ++ []) ⟨config.shared, update config.threads tid user⟩
      cells := by
  rw [List.append_nil]
  refine ⟨users, ?_, inv.safe⟩
  intro other counter fe read mem
  by_cases same : other = tid
  · subst same
    simp [unread] at read
  · simp only [update_of_ne same] at read
    exact inv.rest other counter fe read mem

theorem HistoryInv.step
    {outcome : Outcome FreelistState UserThread (UserEvent Tid)}
    (inv : HistoryInv history config cells)
    (step : (userMachine Tid).step tid action config.shared
      (config.threads tid) = some outcome) :
    ∃ changed, HistoryInv (history ++ outcome.events)
      (config.advance tid outcome) changed := by
  simp only [userMachine] at step
  split at step
  · rename_i idle
    simp only [Option.map_eq_some_iff] at step
    rcases step with ⟨user, called, rfl⟩
    exact ⟨cells, inv.outside (inv.users.call idle called)
      (userCall_readCounter called)⟩
  · split at step
    · rename_i user returned
      cases step
      exact ⟨cells, inv.outside (inv.users.return returned)
        (userReturn_readCounter returned)⟩
    · simp only [Option.map_eq_some_iff] at step
      rcases step with ⟨⟨fs, pc⟩, inside, rfl⟩
      obtain ⟨changed, chain, freelist⟩ := inv.users.freelist.step inside
      refine ⟨changed, inv.users.same_held rfl freelist, ?_,
        inv.safe.step inv.rest chain⟩
      have rest := inv.rest.step inv.users.freelist chain
      rwa [← field_update UserThread.pc config.threads tid
        ⟨pc, (config.threads tid).held⟩] at rest
    · simp at step

omit [DecidableEq Tid] in
theorem UserInv.inOnePlace (inv : UserInv config cells)
    (allocated : config.shared.allocated fe = true) :
    InOnePlace (cells.map Prod.fst) config.threads fe := by
  have apart : ∀ left right, left ≠ right → fe ∈ (config.threads left).hand →
      fe ∉ (config.threads right).hand := by
    intro left right ne leftHand rightHand
    simp only [UserThread.hand, List.mem_append, Option.mem_toList]
      at leftHand rightHand
    rcases leftHand with leftPc | leftHeld
    · rcases rightHand with rightPc | rightHeld
      · exact inv.freelist.inHand_apart leftPc ne rightPc
      · exact inv.freelist.inHand_not_outside leftPc ⟨right, rightHeld⟩
    · rcases rightHand with rightPc | rightHeld
      · exact inv.freelist.inHand_not_outside rightPc ⟨left, leftHeld⟩
      · exact inv.heldApart left right ne leftHeld rightHeld
  have once : ∀ tid, (config.threads tid).hand.Nodup := by
    intro tid
    refine List.nodup_append.mpr ⟨?_, inv.heldNodup tid, ?_⟩
    · cases (config.threads tid).pc.inHand <;> simp
    · rintro left leftMember right rightMember rfl
      rw [Option.mem_toList] at leftMember
      exact inv.freelist.inHand_not_outside leftMember ⟨tid, rightMember⟩
  by_cases cell : fe ∈ cells.map Prod.fst
  · refine .inl ⟨List.count_eq_one_of_mem inv.freelist.tagged.nodup cell, ?_⟩
    intro tid mem
    simp only [UserThread.hand, List.mem_append, Option.mem_toList] at mem
    rcases mem with inside | held
    · exact inv.freelist.inHand_not_cell inside cell
    · exact inv.freelist.outsideNotCell fe ⟨tid, held⟩ cell
  · have somewhere : ∃ tid, fe ∈ (config.threads tid).hand := by
      rcases (inv.freelist.allocated fe).mp allocated with
        inChain | held | ⟨tid, inside⟩
      · exact absurd inChain cell
      · rcases held with ⟨tid, held⟩
        exact ⟨tid, by simp [UserThread.hand, held]⟩
      · exact ⟨tid, by simp [UserThread.hand, inside]⟩
    rcases somewhere with ⟨tid, mem⟩
    refine .inr ⟨cell, tid, List.count_eq_one_of_mem (once tid) mem, ?_⟩
    intro other ne
    exact apart tid other (Ne.symm ne) mem

/-- The freelist just created, with every thread outside of it. -/
def freelistStart (Tid : Type) (initFunc : Bool) (next : Addr → Word)
    (data : Addr → Ptr) : Config Tid FreelistState UserThread where
  shared := freelistNew initFunc next data
  threads := fun _ => ⟨.idle, []⟩

theorem HistoryInv.start (initFunc : Bool) (next : Addr → Word)
    (data : Addr → Ptr) :
    HistoryInv [] (freelistStart Tid initFunc next data) [] where
  users :=
    { freelist :=
        { tagged := .of_chain rfl (by simp)
          localOk := fun _ => trivial
          outsideNotCell := by simp
          outsideNotHeld := by simp [freelistStart, FreelistPc.inHand]
          allocated := by
            simp [freelistStart, freelistNew, heldElements, FreelistPc.inHand]
          countedAllocated := by simp [freelistStart, freelistNew]
          countedNodup := List.nodup_nil
          countedLength := rfl }
      heldNodup := fun _ => List.nodup_nil
      heldApart := fun _ _ _ => by simp [freelistStart] }
  rest := by
    intro tid counter fe read
    simp [freelistStart, FreelistPc.readCounter, FreelistPc.access,
      Access.readTag] at read
  safe := by
    intro first between last tid fe split
    simp at split

/--
In every reachable state the chain from `top` ends at `NULL` and is acyclic,
every counted element is in exactly one place, and no pop has removed an
element that was popped or pushed behind its snapshot.
-/
theorem freelist_conservation {initFunc : Bool} {next : Addr → Word}
    {data : Addr → Ptr} {history : List (UserEvent Tid)}
    {config : Config Tid FreelistState UserThread}
    (run : (userMachine Tid).Run (freelistStart Tid initFunc next data)
      history config) :
    (∃ cells, Linked (fun fe => (config.shared.next fe).pointer)
        config.shared.top.pointer cells ∧
      cells.Nodup ∧
      ∀ fe ∈ config.shared.counted, InOnePlace cells config.threads fe) ∧
    config.shared.counted.Nodup ∧
    config.shared.counted.length = config.shared.elementCount ∧
    StalledPopsSafe history := by
  have inv : ∃ cells, HistoryInv history config cells := by
    apply run.invariant fun history config =>
      ∃ cells, HistoryInv history config cells
    · exact ⟨[], .start initFunc next data⟩
    · rintro history config tid action outcome ⟨cells, before⟩ - stepped
      exact before.step stepped
  rcases inv with ⟨cells, inv⟩
  have freelist := inv.users.freelist
  refine ⟨⟨cells.map Prod.fst, freelist.tagged.chain.linked,
    freelist.tagged.nodup, ?_⟩, freelist.countedNodup,
    freelist.countedLength, inv.safe⟩
  intro fe member
  exact inv.users.inOnePlace (freelist.countedAllocated fe member)

/-- One thread adds an element and another one pops it. -/
theorem freelist_conservation_pop :
    ∃ config : Config Bool FreelistState UserThread, (userMachine Bool).Run
        (freelistStart Bool false (fun _ => ⟨none, 0⟩) fun _ => none)
        [⟨false, .pushed 7⟩, ⟨true, .readTop⟩, ⟨true, .popped 7⟩] config ∧
      config.shared.counted = [7] ∧ config.shared.elementCount = 1 ∧
      InOnePlace [] config.threads 7 := by
  have executed : (userMachine Bool).execute
      (freelistStart Bool false (fun _ => ⟨none, 0⟩) fun _ => none)
      ((false, .newElements 1) :: (false, .inside .run) ::
        (false, .inside (.malloc 7)) :: (false, .inside (.init 1 none)) ::
        List.replicate 7 (false, .inside .run) ++
        (true, .pop) :: List.replicate 5 (true, .inside .run)) =
      some (_, [⟨false, .pushed 7⟩, ⟨true, .readTop⟩, ⟨true, .popped 7⟩]) :=
    rfl
  have run := Machine.run_of_execute executed
  obtain ⟨⟨cells, chain, -, places⟩, -, count, -⟩ :=
    freelist_conservation run
  have empty : cells = [] := linked_none.mp chain
  subst empty
  exact ⟨_, run, rfl, count.symm, places 7 (by decide)⟩

end Lockfreec.Basic.Freelist
