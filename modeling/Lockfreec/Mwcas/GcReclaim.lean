import Lockfreec.Mwcas.GcGracePeriod

/-!
# Objects that are reclaimed twice

Where `EXCHANGE` is `__sync_fetch_and_add`, `gc_cycle` does not take the list
out of limbo: adding a null pointer leaves `gc->limbo` as it was.  Limbo only
grows, every epoch stages all of it, and each list that is reclaimed contains
all the lists reclaimed before.  So the first list that is not empty is
reclaimed without harm, and every further one repeats its objects.
-/

namespace Lockfreec.Mwcas.Gc

open Function Lib.Chain Lib.Interleaving

variable {Tid Obj : Type}

/-! ## The lists passed to `gc->reclaim` -/

/-- The list of a call of `gc->reclaim`. -/
def GcEvent.reclaimedList : GcEvent Tid Obj → Option (List Obj)
  | .reclaim objs => some objs
  | _ => none

/-- The lists ever passed to `gc->reclaim`. -/
def reclaimedLists (history : List (GcEvent Tid Obj)) : List (List Obj) :=
  history.filterMap GcEvent.reclaimedList

/-- The objects ever passed to `gc->reclaim`, one after the other. -/
def reclaimedObjs (history : List (GcEvent Tid Obj)) : List Obj :=
  (reclaimedLists history).flatten

/-- The calls of `gc->reclaim` with a list that is not empty. -/
def reclaimCalls (history : List (GcEvent Tid Obj)) : Nat :=
  (reclaimedLists history).countP fun objs => !objs.isEmpty

variable {history events : List (GcEvent Tid Obj)} {list : List Obj}

theorem reclaimedLists_append : reclaimedLists (history ++ events) =
      reclaimedLists history ++ reclaimedLists events :=
  List.filterMap_append

theorem reclaimedLists_reclaim : reclaimedLists (history ++ [.reclaim list]) =
      reclaimedLists history ++ [list] := by
  rw [reclaimedLists_append]
  rfl

/-- Only the empty list has been reclaimed so far. -/
theorem reclaimedObjs_eq_nil (none : reclaimCalls history = 0) :
    reclaimedObjs history = [] := by
  rw [reclaimCalls, List.countP_eq_zero] at none
  rw [reclaimedObjs, List.flatten_eq_nil_iff]
  intro objs mem
  simpa using none objs mem

/-- A further list that contains all earlier ones. -/
theorem reclaimedObjs_reclaim
    (exact : (reclaimedObjs history).Nodup ↔ reclaimCalls history ≤ 1)
    (nodup : list.Nodup)
    (repeats : list = [] ∨ ∀ objs ∈ reclaimedLists history, objs ⊆ list) :
    (reclaimedObjs (history ++ [.reclaim list])).Nodup ↔
      reclaimCalls (history ++ [.reclaim list]) ≤ 1 := by
  rw [reclaimedObjs, reclaimCalls, reclaimedLists_reclaim,
    List.flatten_append, List.countP_append]
  change (reclaimedObjs history ++ [list].flatten).Nodup ↔
    reclaimCalls history + _ ≤ 1
  rw [List.flatten_singleton]
  by_cases empty : list = []
  · subst empty
    simpa using exact
  · have repeats := repeats.resolve_left empty
    have single : [list].countP (fun objs => !objs.isEmpty) = 1 := by
      simp [empty]
    rw [single]
    by_cases first : reclaimCalls history = 0
    · rw [first, reclaimedObjs_eq_nil first]
      simpa using nodup
    · have positive : 0 < reclaimCalls history := Nat.pos_of_ne_zero first
      rw [reclaimCalls, List.countP_pos_iff] at positive
      rcases positive with ⟨objs, mem, nonempty⟩
      have some : objs ≠ [] := by simpa using nonempty
      rcases List.exists_mem_of_ne_nil objs some with ⟨obj, inside⟩
      constructor
      · intro distinct
        rw [List.nodup_append] at distinct
        have before : obj ∈ reclaimedObjs history :=
          List.mem_flatten.mpr ⟨objs, mem, inside⟩
        exact absurd rfl (distinct.2.2 obj before obj (repeats objs mem inside))
      · intro few
        omega

/-! ## Limbo only grows -/

namespace GcPc

/-- The epoch has been advanced and its list not been staged yet. -/
def advanced : GcPc Tid Obj → Bool
  | .syncGcEpoch _ | .cycleStaging _ _ | .cycleExchange _ _ _
  | .cycleStoreList _ _ _ _ => true
  | _ => false

end GcPc

/-- The epoch whose list has been staged last. -/
def lastStaged (gc : GcState Tid Obj) (pc : GcPc Tid Obj) : Nat :=
  if pc.advanced then (gc.globalEpoch + 2) % ebrEpochs else gc.globalEpoch

/--
The lists of the last three epochs and of limbo, each of them contained in the
next, and what has been reclaimed is contained in all that will be.
-/
structure Growing (objs : Slot → List Obj) (last : Nat)
    (history : List (GcEvent Tid Obj)) : Prop where
  oldest : objs (.staged ((last + 1) % ebrEpochs)) ⊆
    objs (.staged ((last + 2) % ebrEpochs))
  middle : objs (.staged ((last + 2) % ebrEpochs)) ⊆ objs (.staged last)
  newest : objs (.staged last) ⊆ objs .limbo
  reclaimed : ∀ list ∈ reclaimedLists history,
    list ⊆ objs (.staged ((last + 2) % ebrEpochs)) ∧
      (objs (.staged ((last + 1) % ebrEpochs)) = [] ∨
        list ⊆ objs (.staged ((last + 1) % ebrEpochs)))

/-- The list in the collector's hand is between the staged ones and limbo. -/
def TakenOk (objs : Slot → List Obj) (last : Nat) : GcPc Tid Obj → Prop
  | .cycleStoreList _ _ _ _ =>
    objs (.staged last) ⊆ objs .taken ∧ objs .taken ⊆ objs .limbo
  | _ => True

theorem Growing.congr {objs changed : Slot → List Obj} {last : Nat}
    {longer : List (GcEvent Tid Obj)} (growing : Growing objs last history)
    (staged : ∀ epoch, changed (.staged epoch) = objs (.staged epoch))
    (limbo : objs .limbo ⊆ changed .limbo)
    (same : reclaimedLists longer = reclaimedLists history) :
    Growing changed last longer := by
  refine ⟨?_, ?_, ?_, ?_⟩
  · rw [staged, staged]
    exact growing.oldest
  · rw [staged, staged]
    exact growing.middle
  · rw [staged]
    exact fun _ mem => limbo (growing.newest mem)
  · rw [staged, staged, same]
    exact growing.reclaimed

theorem epoch_shift : ∀ epoch < ebrEpochs,
    ((epoch + 2) % ebrEpochs + 2) % ebrEpochs = (epoch + 1) % ebrEpochs ∧
      (epoch + 2) % ebrEpochs ≠ (epoch + 1) % ebrEpochs := by
  decide

theorem Growing.stage [DecidableEq Obj] {objs : Slot → List Obj}
    {epoch : Nat} (bound : epoch < ebrEpochs)
    (growing : Growing objs ((epoch + 2) % ebrEpochs) history)
    (older : objs (.staged ((epoch + 2) % ebrEpochs)) ⊆ objs .taken)
    (newer : objs .taken ⊆ objs .limbo) :
    Growing (update (update objs (.staged epoch) (objs .taken)) .taken [])
      epoch history := by
  have shift := (epoch_shift epoch bound).1
  rcases epoch_cases epoch bound with ⟨next, previous, -, -⟩
  have middle := growing.middle
  have reclaimed := growing.reclaimed
  rw [shift] at middle reclaimed
  refine ⟨?_, ?_, ?_, ?_⟩
  · simpa [next, previous] using middle
  · simpa [previous] using older
  · simpa using newer
  · intro list mem
    have before := (reclaimed list mem).1
    constructor
    · have kept : list ⊆ objs (.staged ((epoch + 2) % ebrEpochs)) :=
        fun _ inside => middle (before inside)
      simpa [previous] using kept
    · right
      simpa [next] using before

theorem Growing.clear {objs : Slot → List Obj} {epoch : Nat}
    (bound : epoch < ebrEpochs) (growing : Growing objs epoch history) :
    Growing (update objs (.staged ((epoch + 1) % ebrEpochs)) []) epoch
      history := by
  have apart := (epoch_shift epoch bound).2
  have next := (epoch_cases epoch bound).1
  refine ⟨?_, ?_, ?_, ?_⟩
  · simp
  · simpa [apart, Ne.symm next] using growing.middle
  · simpa [Ne.symm next] using growing.newest
  · intro list mem
    have before := (growing.reclaimed list mem).1
    refine ⟨?_, .inl (by simp)⟩
    simpa [apart] using before

theorem Growing.reclaim {objs : Slot → List Obj} {epoch : Nat}
    (growing : Growing objs epoch history) :
    Growing objs epoch (history ++
        [.reclaim (objs (.staged ((epoch + 1) % ebrEpochs)))]) := by
  refine { growing with reclaimed := ?_ }
  intro list mem
  rw [reclaimedLists_reclaim, List.mem_append, List.mem_singleton] at mem
  rcases mem with earlier | rfl
  · exact growing.reclaimed list earlier
  · exact ⟨growing.oldest, .inr (List.Subset.refl _)⟩

/-! ## Every step -/

/-- The invariant of a run. -/
structure RepeatInv (collector : Tid) (history : List (GcEvent Tid Obj))
    (config : Config Tid (GcState Tid Obj) (GcThread Tid Obj))
    (nodes : List Tid) (objs : Slot → List Obj) : Prop where
  memory : GcInv collector config.shared config.threads nodes objs
  growing : Growing objs
    (lastStaged config.shared (config.threads collector).pc) history
  taken : TakenOk objs (lastStaged config.shared (config.threads collector).pc)
    (config.threads collector).pc
  exact : (reclaimedObjs history).Nodup ↔ reclaimCalls history ≤ 1

theorem advanced_collecting {pc : GcPc Tid Obj}
    (outside : pc.collecting = false) : pc.advanced = false := by
  cases pc <;> simp_all [GcPc.collecting, GcPc.advanced]

/-- What the steps outside of `gc_cycle` leave alone. -/
theorem gcStep_user [DecidableEq Tid] [DecidableEq Obj] {exchange : Exchange}
    {tid : Tid} {gc : GcState Tid Obj} {user : GcThread Tid Obj}
    {outcome : Outcome (GcState Tid Obj) (GcThread Tid Obj)
      (GcEvent Tid Obj)} (objs : Slot → List Obj)
    (step : gcStep exchange tid gc user = some outcome)
    (outside : user.pc.collecting = false) :
    outcome.shared.globalEpoch = gc.globalEpoch ∧
      outcome.thread.pc.collecting = false ∧
      reclaimedLists outcome.events = [] ∧
      (∀ epoch, slotsAfter exchange gc objs user.pc (.staged epoch) =
        objs (.staged epoch)) ∧
      slotsAfter exchange gc objs user.pc .taken = objs .taken ∧
      objs .limbo ⊆ slotsAfter exchange gc objs user.pc .limbo := by
  unfold gcStep at step
  split at step <;> rename_i here <;> rw [here] at outside ⊢
  case h_5 =>
    split at step <;> simp only [Option.some.injEq] at step <;>
      subst step <;> simp [slotsAfter, reclaimedLists, GcPc.collecting]
  case h_11 =>
    split at step <;> rename_i equal <;>
      simp only [Option.some.injEq] at step <;>
      subst step <;>
      simp [slotsAfter, reclaimedLists, GcPc.collecting, equal]
  all_goals
    first
      | simp [GcPc.collecting] at outside; done
      | simp at step; done
      | (cases step
         simp [slotsAfter, reclaimedLists, GcPc.collecting,
           GcEvent.reclaimedList])

section Steps

variable [DecidableEq Tid] {collector tid : Tid}
  {config : Config Tid (GcState Tid Obj) (GcThread Tid Obj)}
  {nodes nodesAfter : List Tid} {objs objsAfter : Slot → List Obj}
  {outcome : Outcome (GcState Tid Obj) (GcThread Tid Obj)
  (GcEvent Tid Obj)} {user : GcThread Tid Obj}

section

variable (inv : RepeatInv collector history config nodes objs)
  (here : config.threads tid = user) (memory : GcInv collector outcome.shared
  (update config.threads tid outcome.thread) nodesAfter objsAfter)

include inv here memory

/-- A step outside of `gc_cycle`. -/
theorem RepeatInv.outside (outside : user.pc.collecting = false)
    (epoch : outcome.shared.globalEpoch = config.shared.globalEpoch)
    (after : outcome.thread.pc.advanced = false)
    (notStaging : ∀ last, TakenOk objsAfter last outcome.thread.pc)
    (events : reclaimedLists outcome.events = [])
    (staged : ∀ index, objsAfter (.staged index) = objs (.staged index))
    (taken : objsAfter .taken = objs .taken)
    (limbo : objs .limbo ⊆ objsAfter .limbo) :
    RepeatInv collector (history ++ outcome.events)
      (config.advance tid outcome) nodesAfter objsAfter := by
  subst here
  have same : reclaimedLists (history ++ outcome.events) =
      reclaimedLists history := by
    rw [reclaimedLists_append, events, List.append_nil]
  have last : lastStaged outcome.shared
      (update config.threads tid outcome.thread collector).pc =
        lastStaged config.shared (config.threads collector).pc := by
    by_cases isThread : collector = tid
    · subst isThread
      rw [update_self, lastStaged, lastStaged, after,
        advanced_collecting outside, epoch]
    · rw [update_of_ne isThread, lastStaged, lastStaged, epoch]
  refine ⟨memory, ?_, ?_, ?_⟩
  · rw [Config.advance_threads, Config.advance_shared, last]
    exact inv.growing.congr staged limbo same
  · rw [Config.advance_threads, Config.advance_shared, last]
    have known := inv.taken
    by_cases isThread : collector = tid
    · subst isThread
      rw [update_self]
      exact notStaging _
    · rw [update_of_ne isThread]
      cases here : (config.threads collector).pc with
      | cycleStoreList count gcEpoch stagingEpoch list =>
        rw [here] at known
        refine ⟨?_, ?_⟩
        · rw [staged, taken]
          exact known.1
        · rw [taken]
          exact fun _ mem => limbo (known.2 mem)
      | _ => trivial
  · rw [reclaimedObjs, reclaimCalls, same]
    exact inv.exact

theorem RepeatInv.cycle (collecting : user.pc.collecting = true)
    (silent : outcome.events = [])
    (growing : Growing objsAfter
      (lastStaged outcome.shared outcome.thread.pc) history)
    (taken : TakenOk objsAfter
      (lastStaged outcome.shared outcome.thread.pc) outcome.thread.pc) :
    RepeatInv collector (history ++ outcome.events)
      (config.advance tid outcome) nodesAfter objsAfter := by
  have isCollector := (here ▸ inv.memory.threadOk tid).collects collecting
  subst isCollector
  rw [silent, List.append_nil]
  refine ⟨memory, ?_, ?_, inv.exact⟩
  · rw [Config.advance_threads, Config.advance_shared, update_self]
    exact growing
  · rw [Config.advance_threads, Config.advance_shared, update_self]
    exact taken

end

variable [DecidableEq Obj]

theorem RepeatInv.step (inv : RepeatInv collector history config nodes objs)
    (here : config.threads tid = user)
    (step : gcStep .fetchAndAdd tid config.shared user = some outcome) :
    ∃ nodesAfter objsAfter, RepeatInv collector (history ++ outcome.events)
      (config.advance tid outcome) nodesAfter objsAfter := by
  have memory := inv.memory.step here step
  have own := here ▸ inv.memory.threadOk tid
  by_cases outside : user.pc.collecting = false
  · rcases gcStep_user objs step outside with
      ⟨epoch, after, events, staged, taken, limbo⟩
    refine ⟨_, _, inv.outside here memory outside epoch
      (advanced_collecting after) ?_ events staged taken limbo⟩
    intro last
    cases here : outcome.thread.pc <;> rw [here] at after <;> trivial
  · have collecting : user.pc.collecting = true := by
      simpa using outside
    have isCollector := own.collects collecting
    have pcOk := own.pcOk
    have growing := inv.growing
    have taken := inv.taken
    rw [← isCollector, here] at growing taken
    rcases user with ⟨pc, registered, critical⟩
    cases pc with
    | syncScan count epoch t =>
      cases t with
      | none =>
        cases step
        change epoch = config.shared.globalEpoch at pcOk
        refine ⟨_, _, inv.cycle here memory rfl rfl ?_ trivial⟩
        have last : lastStaged
            { config.shared with
              globalEpoch := (epoch + 1) % ebrEpochs }
            (.syncGcEpoch count : GcPc Tid Obj) = epoch :=
          (epoch_cases epoch (pcOk ▸ inv.memory.epoch)).2.2.1
        rw [last, pcOk]
        exact growing
      | some t =>
        simp only [gcStep] at step
        split at step <;> cases step
        all_goals
          exact ⟨_, _, inv.cycle here memory rfl rfl growing trivial⟩
    | cycleExchange count gcEpoch stagingEpoch =>
      cases step
      exact ⟨_, _, inv.cycle here memory rfl rfl
        (growing.congr (fun _ => rfl) (List.Subset.refl _) rfl)
        ⟨growing.newest, List.Subset.refl _⟩⟩
    | cycleStoreList count gcEpoch stagingEpoch list =>
      rcases pcOk with ⟨-, rfl⟩
      cases step
      exact ⟨_, _, inv.cycle here memory rfl rfl
        (growing.stage inv.memory.epoch taken.1 taken.2) trivial⟩
    | cycleClear gcEpoch =>
      change gcEpoch = _ at pcOk
      subst pcOk
      cases step
      exact ⟨_, _, inv.cycle here memory rfl rfl
        (growing.clear inv.memory.epoch) trivial⟩
    | cycleReclaim gcEpoch gcList =>
      rcases inv.memory.reclaimed here with ⟨rfl, list⟩
      cases step
      rw [list]
      refine ⟨_, _, memory, ?_, ?_, ?_⟩
      · rw [Config.advance_threads, Config.advance_shared, ← isCollector,
          update_self]
        exact growing.reclaim
      · rw [Config.advance_threads, ← isCollector, update_self]
        trivial
      · apply reclaimedObjs_reclaim inv.exact
        · exact (inv.memory.chain (.staged _)).nodup
        · by_cases empty : objs (.staged
              ((config.shared.globalEpoch + 1) % ebrEpochs)) = []
          · exact .inl empty
          · refine .inr fun earlier mem => ?_
            exact (growing.reclaimed earlier mem).2.resolve_left empty
    | cycleLoadList count gcEpoch =>
      simp only [gcStep] at step
      split at step <;> cases step
      all_goals
        exact ⟨_, _, inv.cycle here memory rfl rfl growing trivial⟩
    | _ =>
      first
        | (cases collecting; done)
        | (cases step
           exact ⟨_, _, inv.cycle here memory rfl rfl growing trivial⟩)

theorem RepeatInv.call (inv : RepeatInv collector history config nodes objs)
    {action : GcAction Obj} (here : config.threads tid = user)
    (idle : user.pc = .idle)
    (called : gcCall collector tid config.shared user action = some outcome) :
    RepeatInv collector (history ++ outcome.events)
      (config.advance tid outcome) nodes objs := by
  have memory := inv.memory.call here idle called
  have outside : user.pc.collecting = false := by
    rw [idle]
    rfl
  cases action with
  | run => cases called
  | _ =>
    simp only [gcCall] at called
    split at called <;> cases called
    exact inv.outside here memory outside rfl rfl (fun _ => trivial) rfl
      (fun _ => rfl) rfl (List.Subset.refl _)

theorem RepeatInv.of_run {localEpoch : Tid → Nat}
    {tlsNext : Tid → Option Tid} {entNext : Obj → Option Obj}
    (run : (gcMachine .fetchAndAdd collector).Run
      (gcStart localEpoch tlsNext entNext) history config) :
    ∃ nodes objs, RepeatInv collector history config nodes objs := by
  apply run.invariant fun history config =>
    ∃ nodes objs, RepeatInv collector history config nodes objs
  · refine ⟨[], fun _ => [], .start collector localEpoch tlsNext entNext,
      ?_, trivial, ?_⟩
    · exact ⟨by simp, by simp, by simp, by simp [reclaimedLists]⟩
    · simp [reclaimedObjs, reclaimCalls, reclaimedLists]
  · rintro history config tid action outcome ⟨nodes, objs, before⟩ - step
    rcases gcMachine_step step with ⟨idle, called⟩ | inside
    · exact ⟨nodes, objs, before.call rfl idle called⟩
    · exact before.step rfl inside

end Steps

end Lockfreec.Mwcas.Gc
