import Lockfreec.Mwcas.GcInvariant
import Lockfreec.Lib.History
import Mathlib.Data.List.Perm.Subperm

/-!
# The grace period

An object that the collector stages in some epoch is reclaimed two epochs
later.  Both scans in between run to their end while a thread that was already
inside its critical section when the object went into limbo stays there with
the same local epoch, and no local epoch passes both scans, because the scans
compare with two different residues modulo three.
-/

namespace Lockfreec.Mwcas.Gc

open Function Lib.Chain Lib.History Lib.Interleaving

variable {Tid Obj : Type}

/-! ## Critical sections in a history -/

/-- The thread has entered a critical section and not left it. -/
def Inside (history : List (GcEvent Tid Obj)) (thread : Tid) : Prop :=
  ∃ first last, history = first ++ .enter thread :: last ∧ .exit thread ∉ last

/--
The thread is inside a critical section that it entered before `gc_limbo` was
called on the object.
-/
def InsideSince (history : List (GcEvent Tid Obj)) (thread : Tid)
    (obj : Obj) : Prop :=
  ∃ first between last,
    history = first ++ .enter thread :: between ++ .limbo obj :: last ∧
      .exit thread ∉ between ∧ .exit thread ∉ last

variable {history : List (GcEvent Tid Obj)} {event : GcEvent Tid Obj}
  {tid : Tid} {obj : Obj}

theorem InsideSince.inside (since : InsideSince history tid obj) :
    Inside history tid := by
  rcases since with ⟨first, between, last, rfl, noExit, noLater⟩
  refine ⟨first, between ++ .limbo obj :: last, by simp, ?_⟩
  simp [noExit, noLater]

theorem Inside.of_snoc (inside : Inside (history ++ [event]) tid) :
    event = .enter tid ∨ Inside history tid ∧ event ≠ .exit tid := by
  rcases inside with ⟨first, last, split, noExit⟩
  rcases List.eq_nil_or_concat last with rfl | ⟨front, final, rfl⟩
  · rcases List.append_inj' split rfl with ⟨-, ending⟩
    rw [List.cons.injEq] at ending
    exact .inl ending.1
  · rw [List.concat_eq_append, ← List.cons_append, ← List.append_assoc] at split
    rcases List.append_inj' split rfl with ⟨shorter, ending⟩
    rw [List.cons.injEq] at ending
    rw [List.concat_eq_append, List.mem_append, not_or] at noExit
    refine .inr ⟨⟨first, front, shorter, noExit.1⟩, ?_⟩
    rintro rfl
    exact noExit.2 (by simp [ending.1])

theorem InsideSince.of_snoc (since : InsideSince (history ++ [event]) tid obj) :
    event = .limbo obj ∨ InsideSince history tid obj ∧ event ≠ .exit tid := by
  rcases since with ⟨first, between, last, split, noExit, noLater⟩
  rcases List.eq_nil_or_concat last with rfl | ⟨front, final, rfl⟩
  · rcases List.append_inj' split rfl with ⟨-, ending⟩
    rw [List.cons.injEq] at ending
    exact .inl ending.1
  · rw [List.concat_eq_append, ← List.cons_append, ← List.append_assoc] at split
    rcases List.append_inj' split rfl with ⟨shorter, ending⟩
    rw [List.cons.injEq] at ending
    rw [List.concat_eq_append, List.mem_append, not_or] at noLater
    refine .inr ⟨⟨first, between, front, shorter, noExit, noLater.1⟩, ?_⟩
    rintro rfl
    exact noLater.2 (by simp [ending.1])

/-- No list handed to `gc->reclaim` was in use at that moment. -/
def ReclaimsSafe (history : List (GcEvent Tid Obj)) : Prop :=
  ∀ before objs after, history = before ++ .reclaim objs :: after →
    ∀ obj ∈ objs, ∀ thread, ¬ InsideSince before thread obj

theorem ReclaimsSafe.append (safe : ReclaimsSafe history)
    (reclaimed : ∀ objs, event = .reclaim objs →
      ∀ obj ∈ objs, ∀ tid, ¬ InsideSince history tid obj) :
    ReclaimsSafe (history ++ [event]) := by
  intro before objs after split
  rcases snoc_split split with ⟨rfl, same⟩ | ⟨front, shorter⟩
  · exact reclaimed objs same
  · exact safe before objs front shorter

/-! ## Epochs -/

theorem active_of_flag (epoch : Nat) :
    (epoch ||| activeFlag) &&& activeFlag ≠ 0 := by
  rw [Nat.and_or_distrib_right, Nat.and_self]
  intro zero
  have flag := (Nat.or_eq_zero_iff.mp zero).2
  simp [activeFlag] at flag

/-- Different epochs have different active local epochs. -/
theorem flag_injective : ∀ left < ebrEpochs, ∀ right < ebrEpochs,
    left ||| activeFlag = right ||| activeFlag → left = right := by
  decide

/-- The epochs of the three lists, counted from the current one. -/
theorem epoch_cases : ∀ epoch < ebrEpochs,
    (epoch + 1) % ebrEpochs ≠ epoch ∧ (epoch + 2) % ebrEpochs ≠ epoch ∧
      ((epoch + 1) % ebrEpochs + 2) % ebrEpochs = epoch ∧
      ((epoch + 1) % ebrEpochs + 1) % ebrEpochs = (epoch + 2) % ebrEpochs := by
  decide

/-! ## The invariant -/

/--
What the epochs say about the threads that may still use staged objects, for
the list staged in the previous epoch and for the one before it.
-/
structure Aged (gc : GcState Tid Obj) (objs : Slot → List Obj)
    (history : List (GcEvent Tid Obj)) : Prop where
  once : ∀ obj ∈ objs (.staged ((gc.globalEpoch + 2) % ebrEpochs)),
    ∀ thread, InsideSince history thread obj → gc.localEpoch thread =
        (gc.globalEpoch + 2) % ebrEpochs ||| activeFlag
  twice : ∀ obj ∈ objs (.staged ((gc.globalEpoch + 1) % ebrEpochs)),
    ∀ thread, ¬ InsideSince history thread obj

/-- What a scan knows about the threads it has already passed. -/
structure Scanned (gc : GcState Tid Obj) (nodes : List Tid)
    (objs : Slot → List Obj) (history : List (GcEvent Tid Obj))
    (t : Option Tid) (rest : List Tid) : Prop where
  linked : Linked gc.tlsNext t rest
  registered : ∀ other ∈ rest, other ∈ nodes
  passed : ∀ epoch, ∀ obj ∈ objs (.staged epoch), ∀ other,
    InsideSince history other obj →
      other ∈ rest ∨ gc.localEpoch other = gc.globalEpoch ||| activeFlag

/-- The scan at a program point of the collector. -/
def ScanOk (gc : GcState Tid Obj) (nodes : List Tid) (objs : Slot → List Obj)
    (history : List (GcEvent Tid Obj)) :
    GcPc Tid Obj → Prop
  | .syncScan _ _ t => ∃ rest, Scanned gc nodes objs history t rest
  | .syncNext _ _ t =>
    t ∈ nodes ∧ ∃ rest, Scanned gc nodes objs history (gc.tlsNext t) rest
  | _ => True

/-- The invariant of a run. -/
structure GraceInv (collector : Tid) (history : List (GcEvent Tid Obj))
    (config : Config Tid (GcState Tid Obj) (GcThread Tid Obj))
    (nodes : List Tid) (objs : Slot → List Obj) : Prop where
  memory : GcInv collector config.shared config.threads nodes objs
  inside : ∀ thread, Inside history thread →
    (config.threads thread).critical = true
  aged : Aged config.shared objs history
  scan : ScanOk config.shared nodes objs history (config.threads collector).pc
  safe : ReclaimsSafe history

/-! ## Steps that touch neither the epoch nor the older lists -/

/--
No staged object is in use by more threads than before, and the threads that
use one keep their local epochs.
-/
def Fewer (gc after : GcState Tid Obj) (objs : Slot → List Obj)
    (history longer : List (GcEvent Tid Obj)) : Prop :=
  ∀ epoch, ∀ obj ∈ objs (.staged epoch), ∀ thread,
    InsideSince longer thread obj → InsideSince history thread obj ∧
        after.localEpoch thread = gc.localEpoch thread

section Frame

variable {gc after : GcState Tid Obj} {objs objsAfter : Slot → List Obj}
  {longer : List (GcEvent Tid Obj)} {nodes nodesAfter : List Tid}
  {pc : GcPc Tid Obj}

theorem Aged.frame (aged : Aged gc objs history)
    (bound : gc.globalEpoch < ebrEpochs)
    (epoch : after.globalEpoch = gc.globalEpoch)
    (staged : ∀ other, other ≠ gc.globalEpoch →
      ∀ obj ∈ objsAfter (.staged other), obj ∈ objs (.staged other))
    (fewer : Fewer gc after objs history longer) :
    Aged after objsAfter longer := by
  rcases epoch_cases gc.globalEpoch bound with ⟨next, previous, -, -⟩
  constructor
  · rw [epoch]
    intro obj mem other since
    have before := staged _ previous obj mem
    rcases fewer _ obj before other since with ⟨earlier, same⟩
    rw [same]
    exact aged.once obj before other earlier
  · rw [epoch]
    intro obj mem other since
    have before := staged _ next obj mem
    exact aged.twice obj before other (fewer _ obj before other since).1

theorem Scanned.frame {t : Option Tid} {rest : List Tid}
    (scanned : Scanned gc nodes objs history t rest)
    (epoch : after.globalEpoch = gc.globalEpoch)
    (tlsNext : ∀ other ∈ nodes, after.tlsNext other = gc.tlsNext other)
    (more : ∀ other ∈ nodes, other ∈ nodesAfter)
    (staged : ∀ other, ∀ obj ∈ objsAfter (.staged other),
      obj ∈ objs (.staged other))
    (fewer : Fewer gc after objs history longer) :
    Scanned after nodesAfter objsAfter longer t rest := by
  refine ⟨?_, fun other mem => more other (scanned.registered _ mem), ?_⟩
  · apply scanned.linked.congr
    intro other mem
    exact tlsNext other (scanned.registered other mem)
  · intro index obj mem other since
    have before := staged index obj mem
    rcases fewer index obj before other since with ⟨earlier, same⟩
    rw [same, epoch]
    exact scanned.passed index obj before other earlier

theorem ScanOk.frame (scan : ScanOk gc nodes objs history pc)
    (epoch : after.globalEpoch = gc.globalEpoch)
    (tlsNext : ∀ other ∈ nodes, after.tlsNext other = gc.tlsNext other)
    (more : ∀ other ∈ nodes, other ∈ nodesAfter)
    (staged : ∀ other, ∀ obj ∈ objsAfter (.staged other),
      obj ∈ objs (.staged other))
    (fewer : Fewer gc after objs history longer) :
    ScanOk after nodesAfter objsAfter longer pc := by
  cases pc with
  | syncScan count current t =>
    rcases scan with ⟨rest, scanned⟩
    exact ⟨rest, scanned.frame epoch tlsNext more staged fewer⟩
  | syncNext count current t =>
    rcases scan with ⟨mem, rest, scanned⟩
    refine ⟨more t mem, rest, ?_⟩
    rw [tlsNext t mem]
    exact scanned.frame epoch tlsNext more staged fewer
  | _ => trivial

theorem Fewer.snoc
    (fresh : ∀ epoch, ∀ obj ∈ objs (.staged epoch), event ≠ .limbo obj)
    (localEpoch : ∀ tid, Inside history tid →
      event ≠ .exit tid → after.localEpoch tid = gc.localEpoch tid) :
    Fewer gc after objs history (history ++ [event]) := by
  intro epoch obj mem other since
  rcases since.of_snoc with limbo | ⟨earlier, noExit⟩
  · exact absurd limbo (fresh epoch obj mem)
  · exact ⟨earlier, localEpoch other earlier.inside noExit⟩

end Frame

/-! ## Every step -/

theorem gcDefaultReclaim_linked {next : Obj → Option Obj} {start : Option Obj}
    {cells : List Obj} {fuel : Nat} (linked : Linked next start cells)
    (enough : cells.length ≤ fuel) :
    gcDefaultReclaim next fuel start = cells := by
  induction cells generalizing start fuel with
  | nil =>
    rw [linked_nil] at linked
    subst linked
    cases fuel <;> rfl
  | cons cell rest ih =>
    rcases linked with ⟨rfl, tail⟩
    cases fuel with
    | zero => simp at enough
    | succ fuel =>
      rw [gcDefaultReclaim, ih tail (Nat.le_of_succ_le_succ enough)]

variable [DecidableEq Tid]

omit [DecidableEq Tid] in
/-- The list that `gc->reclaim` gets is the whole list of its epoch. -/
theorem GcInv.reclaimed {collector : Tid} {gc : GcState Tid Obj}
    {threads : Tid → GcThread Tid Obj} {nodes : List Tid}
    {objs : Slot → List Obj} {gcEpoch : Nat} {gcList : Option Obj}
    {registered critical : Bool} (inv : GcInv collector gc threads nodes objs)
    (here : threads tid =
      ⟨.cycleReclaim gcEpoch gcList, registered, critical⟩) :
    gcEpoch = (gc.globalEpoch + 1) % ebrEpochs ∧
      gcDefaultReclaim gc.entNext gc.retired.length gcList =
        objs (.staged gcEpoch) := by
  rcases (here ▸ inv.threadOk tid).pcOk with ⟨epoch, rfl⟩
  refine ⟨epoch, ?_⟩
  have chain := inv.chain (.staged gcEpoch)
  apply gcDefaultReclaim_linked chain
  exact (chain.nodup.subperm (inv.retired (.staged gcEpoch))).length_le

section Steps

variable {collector : Tid}
  {config : Config Tid (GcState Tid Obj) (GcThread Tid Obj)}
  {nodes nodesAfter : List Tid} {objs objsAfter : Slot → List Obj}
  {outcome : Outcome (GcState Tid Obj) (GcThread Tid Obj)
  (GcEvent Tid Obj)} {user : GcThread Tid Obj}

theorem ScanOk.update {gc : GcState Tid Obj} {longer : List (GcEvent Tid Obj)}
    {threads : Tid → GcThread Tid Obj}
    (own : ScanOk gc nodes objs longer user.pc)
    (others : collector ≠ tid →
      ScanOk gc nodes objs longer (threads collector).pc) :
    ScanOk gc nodes objs longer (update threads tid user collector).pc := by
  by_cases same : collector = tid
  · subst same
    rwa [update_self]
  · rw [update_of_ne same]
    exact others same

section

omit [DecidableEq Tid]

theorem ScanOk.idle {gc : GcState Tid Obj} {pc : GcPc Tid Obj}
    (outside : pc.collecting = false) :
    ScanOk gc nodes objs history pc := by
  cases pc <;> trivial

/-- The scan has passed every thread: the epoch advances. -/
theorem Aged.advance {gc : GcState Tid Obj} (aged : Aged gc objs history)
    (bound : gc.globalEpoch < ebrEpochs)
    (passed : ∀ epoch, ∀ obj ∈ objs (.staged epoch), ∀ other,
      InsideSince history other obj →
        gc.localEpoch other = gc.globalEpoch ||| activeFlag) :
    Aged { gc with globalEpoch := (gc.globalEpoch + 1) % ebrEpochs } objs
      history := by
  rcases epoch_cases gc.globalEpoch bound with
    ⟨-, ne, last, previous⟩
  constructor
  · change ∀ obj ∈ objs (.staged
      (((gc.globalEpoch + 1) % ebrEpochs + 2) % ebrEpochs)), _
    rw [last]
    intro obj mem other since
    exact passed gc.globalEpoch obj mem other since
  · change ∀ obj ∈ objs (.staged
      (((gc.globalEpoch + 1) % ebrEpochs + 1) % ebrEpochs)), _
    rw [previous]
    intro obj mem other since
    have now := passed _ obj mem other since
    have before := aged.once obj mem other since
    rw [now] at before
    exact ne (flag_injective _ bound _ (Nat.mod_lt _ (by decide)) before).symm

/-- A thread that the scan passes has the current epoch or is not inside. -/
theorem Scanned.pass {gc : GcState Tid Obj} {threads : Tid → GcThread Tid Obj}
    {t : Tid} {rest : List Tid}
    (scanned : Scanned gc nodes objs history (some t) rest)
    (memory : GcInv collector gc threads nodes objs)
    (inside : ∀ other, Inside history other → (threads other).critical = true)
    (current : ¬ (gc.localEpoch t &&& activeFlag ≠ 0 ∧
      gc.localEpoch t ≠ gc.globalEpoch ||| activeFlag)) :
    t ∈ nodes ∧ ∃ tail, Scanned gc nodes objs history (gc.tlsNext t) tail := by
  rcases scanned.linked.exists_cons with ⟨tail, rfl, linked⟩
  refine ⟨scanned.registered t (.head _), tail, linked, ?_, ?_⟩
  · intro other mem
    exact scanned.registered other (.tail _ mem)
  · intro epoch obj mem other since
    rcases scanned.passed epoch obj mem other since with ahead | done
    · rcases List.mem_cons.mp ahead with rfl | ahead
      · apply Or.inr
        have critical := inside other since.inside
        rcases (memory.threadOk other).critical critical with
          ⟨-, own, flagged⟩
        have active : gc.localEpoch other &&& activeFlag ≠ 0 := by
          rw [flagged]
          exact active_of_flag own
        by_contra ne
        exact current ⟨active, ne⟩
      · exact .inl ahead
    · exact .inr done

end

section

variable (inv : GraceInv collector history config nodes objs)

include inv

variable (here : config.threads tid = user)

include here

theorem GraceInv.silent (memory : GcInv collector outcome.shared
      (update config.threads tid outcome.thread) nodesAfter
      objsAfter)
    (silent : outcome.events = [])
    (critical : outcome.thread.critical = user.critical)
    (aged : Aged outcome.shared objsAfter history)
    (scan : ScanOk outcome.shared nodesAfter objsAfter history
      (update config.threads tid outcome.thread collector).pc) :
    GraceInv collector (history ++ outcome.events)
      (config.advance tid outcome) nodesAfter objsAfter := by
  subst here
  rw [silent, List.append_nil]
  refine ⟨memory, ?_, aged, scan, inv.safe⟩
  intro other inside
  rw [Config.advance_threads, project_update GcThread.critical critical]
  exact inv.inside other inside

/-- A silent step of a thread that is not in `gc_cycle`. -/
theorem GraceInv.outside (memory : GcInv collector outcome.shared
      (update config.threads tid outcome.thread) nodesAfter
      objsAfter)
    (silent : outcome.events = [])
    (critical : outcome.thread.critical = user.critical)
    (epoch : outcome.shared.globalEpoch = config.shared.globalEpoch)
    (notScanning : outcome.thread.pc.collecting = false)
    (localEpoch : ∀ other, (config.threads other).critical = true →
      outcome.shared.localEpoch other = config.shared.localEpoch other)
    (tlsNext : ∀ other ∈ nodes,
      outcome.shared.tlsNext other = config.shared.tlsNext other)
    (more : ∀ other ∈ nodes, other ∈ nodesAfter)
    (staged : ∀ index, objsAfter (.staged index) = objs (.staged index)) :
    GraceInv collector (history ++ outcome.events)
      (config.advance tid outcome) nodesAfter objsAfter := by
  have fewer : Fewer config.shared outcome.shared objs history history := by
    intro index obj mem other since
    exact ⟨since, localEpoch other (inv.inside other since.inside)⟩
  have same : ∀ index, ∀ obj ∈ objsAfter (.staged index),
      obj ∈ objs (.staged index) := by
    intro index obj mem
    rwa [staged index] at mem
  apply inv.silent here memory silent critical
  · exact inv.aged.frame inv.memory.epoch epoch
      (fun index _ => same index) fewer
  · apply ScanOk.update (.idle notScanning)
    intro _
    exact inv.scan.frame epoch tlsNext more same fewer

omit here in
theorem GraceInv.border {event : GcEvent Tid Obj} {localEpoch : Nat}
    (memory : GcInv collector outcome.shared
      (update config.threads tid outcome.thread) nodes objs)
    (shared : outcome.shared = { config.shared with
      localEpoch :=
        update config.shared.localEpoch tid localEpoch })
    (events : outcome.events = [event])
    (border : event = .enter tid ∧ outcome.thread.critical = true ∧
        (config.threads tid).critical = false ∨
      event = .exit tid)
    (notScanning : outcome.thread.pc.collecting = false) :
    GraceInv collector (history ++ outcome.events)
      (config.advance tid outcome) nodes objs := by
  have notLimbo : ∀ obj, event ≠ .limbo obj := by
    rintro obj rfl
    rcases border with ⟨⟨⟩, -⟩ | ⟨⟨⟩⟩
  have fewer : Fewer config.shared outcome.shared objs history
      (history ++ [event]) := by
    apply Fewer.snoc
    · intro epoch obj _
      exact notLimbo obj
    · intro other inside notExit
      rw [shared]
      apply update_of_ne
      rintro rfl
      rcases border with ⟨-, -, outside⟩ | exit
      · have critical := inv.inside other inside
        simp [outside] at critical
      · exact notExit exit
  have epoch : outcome.shared.globalEpoch =
      config.shared.globalEpoch := by
    rw [shared]
  rw [events]
  refine ⟨memory, ?_, ?_, ?_, ?_⟩
  · intro other inside
    rw [Config.advance_threads]
    by_cases same : other = tid
    · subst same
      rw [update_self]
      rcases border with ⟨-, critical, -⟩ | rfl
      · exact critical
      · rcases inside.of_snoc with ⟨⟨⟩⟩ | ⟨-, notExit⟩
        exact absurd rfl notExit
    · rw [update_of_ne same]
      rcases inside.of_snoc with rfl | ⟨earlier, -⟩
      · rcases border with ⟨⟨⟩, -⟩ | ⟨⟨⟩⟩
        exact absurd rfl same
      · exact inv.inside other earlier
  · exact inv.aged.frame inv.memory.epoch epoch (fun _ _ _ mem => mem) fewer
  · apply ScanOk.update (.idle notScanning)
    intro _
    refine inv.scan.frame epoch ?_ (fun _ mem => mem) (fun _ _ mem => mem) fewer
    intro other _
    rw [Config.advance_shared, shared]
  · apply inv.safe.append
    rintro list rfl
    rcases border with ⟨⟨⟩, -⟩ | ⟨⟨⟩⟩

theorem GraceInv.cycle (collecting : user.pc.collecting = true)
    (memory : GcInv collector outcome.shared
      (update config.threads tid outcome.thread) nodes
      objsAfter)
    (silent : outcome.events = [])
    (critical : outcome.thread.critical = user.critical)
    (epoch : outcome.shared.globalEpoch = config.shared.globalEpoch)
    (localEpoch : outcome.shared.localEpoch = config.shared.localEpoch)
    (staged : ∀ index, index ≠ config.shared.globalEpoch →
      ∀ obj ∈ objsAfter (.staged index), obj ∈ objs (.staged index))
    (scan : ScanOk outcome.shared nodes objsAfter history outcome.thread.pc) :
    GraceInv collector (history ++ outcome.events)
      (config.advance tid outcome) nodes objsAfter := by
  have isCollector := (here ▸ inv.memory.threadOk tid).collects collecting
  apply inv.silent here memory silent critical
  · apply inv.aged.frame inv.memory.epoch epoch staged
    intro index obj mem other since
    exact ⟨since, by rw [localEpoch]⟩
  · rw [← isCollector, update_self]
    exact scan

theorem GraceInv.emit {event : GcEvent Tid Obj}
    (memory : GcInv collector outcome.shared
      (update config.threads tid outcome.thread) nodes objs)
    (events : outcome.events = [event])
    (notEnter : ∀ other, event ≠ .enter other)
    (critical : outcome.thread.critical = user.critical)
    (epoch : outcome.shared.globalEpoch = config.shared.globalEpoch)
    (tlsNext : outcome.shared.tlsNext = config.shared.tlsNext)
    (localEpoch : outcome.shared.localEpoch = config.shared.localEpoch)
    (notScanning : ScanOk outcome.shared nodes objs (history ++ [event])
      outcome.thread.pc)
    (fresh : ∀ obj, event = .limbo obj → obj ∉ config.shared.retired)
    (safe : ∀ list, event = .reclaim list →
      ∀ obj ∈ list, ∀ other, ¬ InsideSince history other obj) :
    GraceInv collector (history ++ outcome.events)
      (config.advance tid outcome) nodes objs := by
  subst here
  have fewer : Fewer config.shared outcome.shared objs history
      (history ++ [event]) := by
    refine Fewer.snoc ?_ fun _ _ _ => by rw [localEpoch]
    intro index other mem same
    exact fresh other same (inv.memory.retired _ other mem)
  rw [events]
  refine ⟨memory, ?_, ?_, ?_, inv.safe.append safe⟩
  · intro other inside
    rw [Config.advance_threads, project_update GcThread.critical critical]
    rcases inside.of_snoc with enter | ⟨earlier, -⟩
    · exact absurd enter (notEnter other)
    · exact inv.inside other earlier
  · exact inv.aged.frame inv.memory.epoch epoch (fun _ _ _ mem => mem) fewer
  · apply ScanOk.update notScanning
    intro _
    exact inv.scan.frame epoch (fun other _ => congrFun tlsNext other)
      (fun _ mem => mem) (fun _ _ mem => mem) fewer

end

variable [DecidableEq Obj] {exchange : Exchange}

theorem GraceInv.step (inv : GraceInv collector history config nodes objs)
    (here : config.threads tid = user)
    (step : gcStep exchange tid config.shared user = some outcome) :
    ∃ nodesAfter objsAfter, GraceInv collector (history ++ outcome.events)
      (config.advance tid outcome) nodesAfter objsAfter := by
  have memory := inv.memory.step here step
  have own := here ▸ inv.memory.threadOk tid
  have pcOk := own.pcOk
  have scan : user.pc.collecting = true →
      ScanOk config.shared nodes objs history user.pc := by
    intro collecting
    have scan := inv.scan
    rwa [← own.collects collecting, here] at scan
  have notCritical : user.pc.registering = true →
      ∀ other, (config.threads other).critical = true → other ≠ tid := by
    rintro registering other critical rfl
    rw [here] at critical
    have fresh := own.registers registering
    rw [(own.critical critical).1] at fresh
    cases fresh
  have notNode : user.pc.registering = true → ∀ other ∈ nodes, other ≠ tid := by
    rintro registering other mem rfl
    have fresh := own.registers registering
    rw [← here, (inv.memory.registered other).mpr mem] at fresh
    cases fresh
  rcases user with ⟨pc, registered, critical⟩
  cases pc with
  | idle => cases step
  | registerInit =>
    cases step
    refine ⟨_, _, inv.outside here memory rfl rfl rfl rfl ?_ ?_
      (fun _ mem => mem) (fun _ => rfl)⟩
    · intro other critical
      exact update_of_ne (notCritical rfl other critical) _ _
    · intro other mem
      exact update_of_ne (notNode rfl other mem) _ _
  | registerStore head =>
    cases step
    refine ⟨_, _, inv.outside here memory rfl rfl rfl rfl
      (fun _ _ => rfl) ?_ (fun _ mem => mem) (fun _ => rfl)⟩
    intro other mem
    exact update_of_ne (notNode rfl other mem) _ _
  | registerCas head =>
    have more : ∀ other ∈ nodes, other ∈ nodesAfter config.shared tid
        nodes (.registerCas head : GcPc Tid Obj) := by
      intro other mem
      rw [nodesAfter]
      split
      · exact .tail _ mem
      · exact mem
    simp only [gcStep] at step
    split at step <;> cases step
    all_goals
      exact ⟨_, _, inv.outside here memory rfl rfl rfl rfl
        (fun _ _ => rfl) (fun _ _ => rfl) more (fun _ => rfl)⟩
  | limboCas obj head =>
    have staged : ∀ index, slotsAfter exchange config.shared objs
        (.limboCas obj head : GcPc Tid Obj) (.staged index) =
          objs (.staged index) := by
      intro index
      rw [slotsAfter]
      split <;> simp
    simp only [gcStep] at step
    split at step <;> cases step
    all_goals
      exact ⟨_, _, inv.outside here memory rfl rfl rfl rfl
        (fun _ _ => rfl) (fun _ _ => rfl) (fun _ mem => mem) staged⟩
  | enterStore epoch =>
    cases step
    exact ⟨_, _, inv.border memory rfl rfl
      (.inl ⟨rfl, rfl, by rw [here, (own.enters rfl).2]⟩) rfl⟩
  | exitStore =>
    cases step
    exact ⟨_, _, inv.border memory rfl rfl (.inr rfl) rfl⟩
  | syncReadList count epoch =>
    cases step
    refine ⟨_, _, inv.cycle here rfl memory rfl rfl rfl rfl
      (fun _ _ _ mem => mem) ⟨nodes, inv.memory.tls, fun _ mem => mem, ?_⟩⟩
    intro index obj _ other since
    have critical := inv.inside other since.inside
    exact .inl ((inv.memory.registered other).mp
      ((inv.memory.threadOk other).critical critical).1)
  | syncScan count epoch t =>
    rcases scan rfl with ⟨rest, scanned⟩
    change epoch = config.shared.globalEpoch at pcOk
    subst pcOk
    cases t with
    | none =>
      cases step
      refine ⟨_, _, inv.silent here memory rfl rfl ?_ ?_⟩
      · apply inv.aged.advance inv.memory.epoch
        intro index obj mem other since
        rcases scanned.passed index obj mem other since with
          ahead | done
        · rw [linked_none.mp scanned.linked] at ahead
          cases ahead
        · exact done
      · rw [← own.collects rfl, update_self]
        trivial
    | some t =>
      simp only [gcStep] at step
      split at step <;> cases step
      · exact ⟨_, _, inv.cycle here rfl memory rfl rfl rfl rfl
          (fun _ _ _ mem => mem) trivial⟩
      · next current =>
          exact ⟨_, _, inv.cycle here rfl memory rfl rfl rfl rfl
            (fun _ _ _ mem => mem)
            (scanned.pass inv.memory inv.inside current)⟩
  | syncNext count epoch t =>
    cases step
    exact ⟨_, _, inv.cycle here rfl memory rfl rfl rfl rfl
      (fun _ _ _ mem => mem) (scan rfl).2⟩
  | cycleExchange count gcEpoch stagingEpoch =>
    cases step
    refine ⟨_, _, inv.cycle here rfl memory rfl rfl rfl rfl ?_
      trivial⟩
    intro index _ obj mem
    cases exchange <;> simpa [slotsAfter] using mem
  | cycleStoreList count gcEpoch stagingEpoch taken =>
    cases step
    refine ⟨_, _, inv.cycle here rfl memory rfl rfl rfl rfl ?_
      trivial⟩
    intro index ne obj mem
    rw [← pcOk.2] at ne
    simpa [slotsAfter, ne] using mem
  | cycleLoadList count gcEpoch =>
    simp only [gcStep] at step
    split at step <;> cases step
    all_goals
      exact ⟨_, _, inv.cycle here rfl memory rfl rfl rfl rfl
        (fun _ _ _ mem => mem) trivial⟩
  | cycleReclaim gcEpoch gcList =>
    rcases inv.memory.reclaimed here with ⟨rfl, list⟩
    cases step
    rw [list]
    refine ⟨_, _, inv.emit here memory rfl (by simp) rfl rfl rfl rfl trivial
      (by simp) ?_⟩
    rintro reclaimed ⟨⟩
    exact inv.aged.twice
  | cycleClear gcEpoch =>
    cases step
    refine ⟨_, _, inv.cycle here rfl memory rfl rfl rfl rfl ?_
      trivial⟩
    intro index _ obj mem
    by_cases same : index = gcEpoch
    · subst same
      simp [slotsAfter] at mem
    · simpa [slotsAfter, same] using mem
  | registerRead | enterRead | limboRead | limboStore =>
    cases step
    exact ⟨_, _, inv.outside here memory rfl rfl rfl rfl
      (fun _ _ => rfl) (fun _ _ => rfl) (fun _ mem => mem)
      fun _ => rfl⟩
  | _ =>
    cases step
    exact ⟨_, _, inv.cycle here rfl memory rfl rfl rfl rfl
      (fun _ _ _ mem => mem) trivial⟩

theorem GraceInv.call (inv : GraceInv collector history config nodes objs)
    {action : GcAction Obj} (here : config.threads tid = user)
    (idle : user.pc = .idle)
    (called : gcCall collector tid config.shared user action = some outcome) :
    GraceInv collector (history ++ outcome.events)
      (config.advance tid outcome) nodes objs := by
  have memory := inv.memory.call here idle called
  cases action with
  | limbo obj =>
    simp only [gcCall] at called
    split at called <;> cases called
    next fresh =>
      refine inv.emit here memory rfl (by simp) rfl rfl rfl rfl trivial
        ?_ (by simp)
      rintro other ⟨⟩
      exact fresh
  | cycle =>
    simp only [gcCall] at called
    split at called <;> cases called
    next isCollector =>
      refine inv.silent here memory rfl rfl inv.aged ?_
      rw [← isCollector, update_self]
      trivial
  | run => cases called
  | _ =>
    simp only [gcCall] at called
    split at called <;> cases called
    exact inv.outside here memory rfl rfl rfl rfl (fun _ _ => rfl)
      (fun _ _ => rfl) (fun _ mem => mem) fun _ => rfl

end Steps

end Lockfreec.Mwcas.Gc
