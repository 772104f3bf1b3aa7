import Lockfreec.Mwcas.Gc

/-!
# The lists of the collector

Every object that has been put into limbo is in the hands of the thread that
still links it, or it can be reached from one of the slots: from `limbo`, from
an entry of `epoch_list`, or from the pointer the collector has just taken out
of `limbo`.  Entries are linked once and never changed again, so every slot
starts a finite chain, and `slotsAfter` says how a step moves the objects
between the slots.
-/

namespace Lockfreec.Mwcas.Gc

open Function Lib.Chain Lib.Interleaving

variable {Tid Obj : Type} [DecidableEq Tid]

/-! ## Slots -/

/-- The places from which the collector's lists start. -/
inductive Slot where
  | limbo
  | taken
  | staged (epoch : Nat)
deriving DecidableEq

namespace GcPc

/-- The object that a thread is linking into limbo. -/
def pushing : GcPc Tid Obj → Option Obj
  | .limboRead obj | .limboStore obj _ | .limboCas obj _ => some obj
  | _ => none

/-- The list between its exchange and its store. -/
def taken : GcPc Tid Obj → Option Obj
  | .cycleStoreList _ _ _ taken => taken
  | _ => none

/-- The program points of `gc_register`. -/
def registering : GcPc Tid Obj → Bool
  | .registerInit | .registerRead | .registerStore _ | .registerCas _ => true
  | _ => false

/-- The program points of `gc_crit_enter`. -/
def entering : GcPc Tid Obj → Bool
  | .enterRead | .enterStore _ => true
  | _ => false

/-- The program points of `gc_cycle`. -/
def collecting : GcPc Tid Obj → Bool
  | .syncReadEpoch _ | .syncReadList _ _ | .syncScan _ _ _ | .syncNext _ _ _
  | .syncFail | .syncGcEpoch _ | .cycleStaging _ _ | .cycleExchange _ _ _
  | .cycleStoreList _ _ _ _ | .cycleLoadList _ _ | .cycleReclaim _ _
  | .cycleClear _ => true
  | _ => false

end GcPc

/-- The pointer in a slot. -/
def slotHead (gc : GcState Tid Obj) (taken : Option Obj) : Slot → Option Obj
  | .limbo => gc.limbo
  | .taken => taken
  | .staged epoch => gc.epochList epoch

/-- The objects of the slots after a step from a program point. -/
def slotsAfter [DecidableEq Obj] (exchange : Exchange) (gc : GcState Tid Obj)
    (objs : Slot → List Obj) : GcPc Tid Obj → Slot → List Obj
  | .limboCas obj head =>
    if gc.limbo = head then
      update objs .limbo (obj :: objs .limbo)
    else objs
  | .cycleExchange _ _ _ =>
    match exchange with
    | .fetchAndAdd => update objs .taken (objs .limbo)
    | .interlocked =>
      update (update objs .taken (objs .limbo)) .limbo []
  | .cycleStoreList _ _ stagingEpoch _ =>
    update (update objs (.staged stagingEpoch) (objs .taken)) .taken []
  | .cycleClear gcEpoch => update objs (.staged gcEpoch) []
  | _ => objs

/-- The registered threads after a step from a program point. -/
def nodesAfter (gc : GcState Tid Obj) (thread : Tid) (nodes : List Tid) :
    GcPc Tid Obj → List Tid
  | .registerCas head => if gc.list = head then thread :: nodes else nodes
  | _ => nodes

/-! ## The invariant -/

/-- What a program point implies about the memory. -/
def PcOk (gc : GcState Tid Obj) (thread : Tid) : GcPc Tid Obj → Prop
  | .registerCas head => gc.tlsNext thread = head
  | .limboCas obj head => gc.entNext obj = head
  | .syncReadList _ epoch | .syncScan _ epoch _ | .syncNext _ epoch _ =>
    epoch = gc.globalEpoch
  | .cycleStaging _ gcEpoch => gcEpoch = (gc.globalEpoch + 1) % ebrEpochs
  | .cycleExchange _ gcEpoch stagingEpoch
  | .cycleStoreList _ gcEpoch stagingEpoch _ =>
    gcEpoch = (gc.globalEpoch + 1) % ebrEpochs ∧ stagingEpoch = gc.globalEpoch
  | .cycleLoadList _ gcEpoch => gcEpoch = (gc.globalEpoch + 1) % ebrEpochs
  | .cycleReclaim gcEpoch gcList =>
    gcEpoch = (gc.globalEpoch + 1) % ebrEpochs ∧ gcList = gc.epochList gcEpoch
  | .cycleClear gcEpoch => gcEpoch = (gc.globalEpoch + 1) % ebrEpochs
  | _ => True

/-- The part of the invariant about one thread. -/
structure ThreadOk (collector : Tid) (gc : GcState Tid Obj) (thread : Tid)
    (user : GcThread Tid Obj) : Prop where
  pcOk : PcOk gc thread user.pc
  collects : user.pc.collecting = true → thread = collector
  registers : user.pc.registering = true → user.registered = false
  enters : user.pc.entering = true →
    user.registered = true ∧ user.critical = false
  critical : user.critical = true → user.registered = true ∧
      ∃ epoch, gc.localEpoch thread = epoch ||| activeFlag

omit [DecidableEq Tid] in
/-- A step of another thread that does not touch what this one relies on. -/
theorem ThreadOk.congr {collector tid : Tid} {gc after : GcState Tid Obj}
    {user : GcThread Tid Obj} (ok : ThreadOk collector gc tid user)
    (localEpoch : after.localEpoch tid = gc.localEpoch tid)
    (tlsNext : after.tlsNext tid = gc.tlsNext tid)
    (entNext : ∀ obj, user.pc.pushing = some obj →
      after.entNext obj = gc.entNext obj)
    (cycle : user.pc.collecting = true → after.globalEpoch = gc.globalEpoch ∧
        after.epochList = gc.epochList) :
    ThreadOk collector after tid user := by
  refine { ok with pcOk := ?_, critical := ?_ }
  · have pcOk := ok.pcOk
    cases here : user.pc with
    | registerCas head =>
      rw [here] at pcOk
      exact tlsNext.trans pcOk
    | limboCas obj head =>
      rw [here] at pcOk entNext
      exact (entNext obj rfl).trans pcOk
    | _ =>
      rw [here] at pcOk cycle
      first
        | trivial
        | (rcases cycle rfl with ⟨global, lists⟩
           simpa only [PcOk, global, lists] using pcOk)
  · intro critical
    rw [localEpoch]
    exact ok.critical critical

/-- The invariant of a `gc` instance. -/
structure GcInv (collector : Tid) (gc : GcState Tid Obj)
    (threads : Tid → GcThread Tid Obj) (nodes : List Tid)
    (objs : Slot → List Obj) : Prop where
  epoch : gc.globalEpoch < ebrEpochs
  tls : Linked gc.tlsNext gc.list nodes
  registered : ∀ thread, (threads thread).registered = true ↔ thread ∈ nodes
  chain : ∀ slot, Linked gc.entNext
    (slotHead gc (threads collector).pc.taken slot) (objs slot)
  retired : ∀ slot, ∀ obj ∈ objs slot, obj ∈ gc.retired
  pushing : ∀ thread obj, (threads thread).pc.pushing = some obj →
    obj ∈ gc.retired ∧ ∀ slot, obj ∉ objs slot
  pushingApart : ∀ left right, left ≠ right → ∀ obj,
    (threads left).pc.pushing = some obj → (threads right).pc.pushing ≠ some obj
  threadOk : ∀ thread, ThreadOk collector gc thread (threads thread)

section

variable {collector tid : Tid} {gc after : GcState Tid Obj}
  {user : GcThread Tid Obj} {pc : GcPc Tid Obj}

omit [DecidableEq Tid]

/-- A program point of the collector after one of its steps. -/
theorem ThreadOk.cycle (ok : ThreadOk collector gc tid user)
    (collecting : user.pc.collecting = true) (pcOk : PcOk after tid pc)
    (registering : pc.registering = false) (entering : pc.entering = false)
    (localEpoch : after.localEpoch = gc.localEpoch) :
    ThreadOk collector after tid { user with pc := pc } := by
  refine ⟨pcOk, fun _ => ok.collects collecting, ?_, ?_, ?_⟩
  · simp [registering]
  · simp [entering]
  · rw [localEpoch]
    exact ok.critical

end

/-- A step is a call of an idle thread or a step inside a function. -/
theorem gcMachine_step [DecidableEq Obj] {exchange : Exchange}
    {collector tid : Tid} {gc : GcState Tid Obj} {user : GcThread Tid Obj}
    {action : GcAction Obj}
    {outcome : Outcome (GcState Tid Obj) (GcThread Tid Obj) (GcEvent Tid Obj)}
    (step : (gcMachine exchange collector).step tid action gc user =
      some outcome) :
    user.pc = .idle ∧ gcCall collector tid gc user action = some outcome ∨
      gcStep exchange tid gc user = some outcome := by
  simp only [gcMachine] at step
  split at step
  · next idle => exact .inl ⟨idle, step⟩
  · exact .inr step
  · cases step

namespace GcInv

variable {collector tid : Tid} {gc after : GcState Tid Obj}
  {threads : Tid → GcThread Tid Obj} {nodes grown : List Tid}
  {objs moved : Slot → List Obj} {user next : GcThread Tid Obj}
  (inv : GcInv collector gc threads nodes objs)

include inv

omit inv in
theorem taken_update (same : next.pc.taken = (threads tid).pc.taken) :
    (update threads tid next collector).pc.taken =
      (threads collector).pc.taken :=
  project_update (fun state : GcThread Tid Obj => state.pc.taken) same collector

theorem registered_update (same : next.registered = (threads tid).registered)
    (other : Tid) :
    (update threads tid next other).registered = true ↔ other ∈ nodes := by
  rw [project_update GcThread.registered same]
  exact inv.registered other

theorem chain_update (same : next.pc.taken = (threads tid).pc.taken)
    (limbo : after.limbo = gc.limbo)
    (epochList : after.epochList = gc.epochList) (slot : Slot) :
    Linked gc.entNext
      (slotHead after (update threads tid next collector).pc.taken
        slot) (objs slot) := by
  have chain := inv.chain slot
  rw [taken_update same]
  cases slot with
  | limbo =>
    show Linked gc.entNext after.limbo _
    rw [limbo]
    exact chain
  | taken => exact chain
  | staged epoch =>
    show Linked gc.entNext (after.epochList epoch) _
    rw [epochList]
    exact chain

/-- A step of one thread.  An object that it starts to push is new, and one
that it links is the one it was pushing. -/
theorem change (here : threads tid = user)
    (epoch : after.globalEpoch < ebrEpochs)
    (tls : Linked after.tlsNext after.list grown)
    (registered : ∀ other, (update threads tid next other).registered = true ↔
        other ∈ grown)
    (chain : ∀ slot, Linked after.entNext
      (slotHead after (update threads tid next collector).pc.taken
        slot) (moved slot))
    (retired : gc.retired ⊆ after.retired)
    (linked : ∀ slot, ∀ obj ∈ moved slot, (∃ other, obj ∈ objs other) ∨
      user.pc.pushing = some obj ∧ next.pc.pushing = none)
    (pushed : ∀ obj, next.pc.pushing = some obj →
      user.pc.pushing = some obj ∨ obj ∉ gc.retired ∧ obj ∈ after.retired)
    (others : ∀ other, other ≠ tid →
      ThreadOk collector after other (threads other))
    (ok : ThreadOk collector after tid next) :
    GcInv collector after (update threads tid next) grown
      moved := by
  subst here
  have known : ∀ slot, ∀ obj ∈ moved slot, obj ∈ gc.retired := by
    intro slot obj mem
    rcases linked slot obj mem with ⟨other, old⟩ | ⟨held, -⟩
    · exact inv.retired other obj old
    · exact (inv.pushing tid obj held).1
  refine ⟨epoch, tls, registered, chain,
    fun slot obj mem => retired (known slot obj mem), ?_, ?_,
    (Function.forall_update_iff threads _).2 ⟨ok, others⟩⟩
  · intro other obj held
    rcases update_cases (fun state : GcThread Tid Obj =>
        state.pc.pushing = some obj) held with
      ⟨rfl, starts⟩ | ⟨ne, pushes⟩
    · rcases pushed obj starts with old | ⟨fresh, now⟩
      · refine ⟨retired (inv.pushing other obj old).1, fun slot mem => ?_⟩
        rcases linked slot obj mem with ⟨place, before⟩ | ⟨-, none⟩
        · exact (inv.pushing other obj old).2 place before
        · simp [none] at starts
      · exact ⟨now, fun slot mem => fresh (known slot obj mem)⟩
    · have elsewhere := inv.pushing other obj pushes
      refine ⟨retired elsewhere.1, fun slot mem => ?_⟩
      rcases linked slot obj mem with ⟨place, before⟩ | ⟨own, -⟩
      · exact elsewhere.2 place before
      · exact inv.pushingApart other tid ne obj pushes own
  · apply pairwise_update (fun left right : GcThread Tid Obj => ∀ obj,
        left.pc.pushing = some obj → right.pc.pushing ≠ some obj)
      inv.pushingApart
    intro other ne
    have apart : ∀ obj, next.pc.pushing = some obj →
        (threads other).pc.pushing ≠ some obj := by
      intro obj held otherHeld
      rcases pushed obj held with old | ⟨fresh, -⟩
      · exact inv.pushingApart other tid ne obj otherHeld old
      · exact fresh (inv.pushing other obj otherHeld).1
    exact ⟨apart, fun obj otherHeld held => apart obj held otherHeld⟩

/--
A step that stores at most into the thread's own block.  The links of a block
in the list are not written to.
-/
theorem own (here : threads tid = user) (localEpoch : Tid → Nat)
    (tlsNext : Tid → Option Tid)
    (others : ∀ other, other ≠ tid → localEpoch other = gc.localEpoch other ∧
        tlsNext other = gc.tlsNext other)
    (linked : tid ∈ nodes → tlsNext tid = gc.tlsNext tid)
    (registered : next.registered = user.registered)
    (pushing : next.pc.pushing = user.pc.pushing)
    (taken : next.pc.taken = user.pc.taken)
    (ok : ThreadOk collector
      { gc with localEpoch := localEpoch, tlsNext := tlsNext } tid next) :
    GcInv collector { gc with localEpoch := localEpoch, tlsNext := tlsNext }
      (update threads tid next) nodes objs := by
  subst here
  refine inv.change rfl inv.epoch ?_ (inv.registered_update registered)
    (inv.chain_update taken rfl rfl) (fun _ mem => mem)
    (fun slot _ mem => .inl ⟨slot, mem⟩)
    (fun obj held => .inl (pushing ▸ held)) ?_ ok
  · apply inv.tls.congr
    intro other mem
    by_cases same : other = tid
    · subst same
      exact linked mem
    · exact (others other same).2
  · intro other ne
    exact (inv.threadOk other).congr (others other ne).1
      (others other ne).2 (fun _ _ => rfl) fun _ => ⟨rfl, rfl⟩

theorem quiet (here : threads tid = user)
    (registered : next.registered = user.registered)
    (pushing : next.pc.pushing = user.pc.pushing)
    (taken : next.pc.taken = user.pc.taken)
    (ok : ThreadOk collector gc tid next) :
    GcInv collector gc (update threads tid next) nodes objs :=
  inv.own here gc.localEpoch gc.tlsNext (fun _ _ => ⟨rfl, rfl⟩)
    (fun _ => rfl) registered pushing taken ok

/-- The compare-and-swap of `ebr_register` that succeeds. -/
theorem register {registered critical : Bool}
    (here : threads tid = ⟨.registerCas gc.list, registered, critical⟩) :
    GcInv collector { gc with list := some tid }
      (update threads tid ⟨.idle, true, critical⟩)
      (tid :: nodes) objs := by
  have own := here ▸ inv.threadOk tid
  refine inv.change here inv.epoch ⟨rfl, ?_⟩ ?_
    (inv.chain_update (by rw [here]; rfl) rfl rfl) (fun _ mem => mem)
    (fun slot _ mem => .inl ⟨slot, mem⟩) nofun
    (fun other _ => (inv.threadOk other).congr rfl rfl (fun _ _ => rfl)
      fun _ => ⟨rfl, rfl⟩)
    ⟨trivial, nofun, nofun, nofun, fun inside => ⟨rfl, (own.critical inside).2⟩⟩
  · have stored : gc.tlsNext tid = gc.list := own.pcOk
    rw [stored]
    exact inv.tls
  · intro other
    rw [List.mem_cons]
    by_cases same : other = tid
    · subst same
      simp
    · rw [update_of_ne same, inv.registered other]
      simp [same]

variable {obj : Obj} {count gcEpoch : Nat}

/-- The store into the entry of an object that is not linked yet. -/
theorem storeEntry [DecidableEq Obj] {registered critical : Bool}
    {head : Option Obj}
    (here : threads tid = ⟨.limboStore obj head, registered, critical⟩) :
    GcInv collector
      { gc with entNext := update gc.entNext obj head }
      (update threads tid
        ⟨.limboCas obj head, registered, critical⟩) nodes objs := by
  have own := here ▸ inv.threadOk tid
  have held : (threads tid).pc.pushing = some obj := by
    rw [here]
    rfl
  refine inv.change here inv.epoch inv.tls
    (inv.registered_update (by rw [here])) ?_ (fun _ mem => mem)
    (fun slot _ mem => .inl ⟨slot, mem⟩) (fun _ => .inl) ?_
    ⟨update_self .., nofun, nofun, nofun, own.critical⟩
  · intro slot
    exact (inv.chain_update (by rw [here]; rfl) rfl rfl slot).update
      ((inv.pushing tid obj held).2 slot)
  · intro other ne
    refine (inv.threadOk other).congr rfl rfl ?_ fun _ => ⟨rfl, rfl⟩
    intro another otherHeld
    apply update_of_ne
    rintro rfl
    exact inv.pushingApart other tid ne another otherHeld held

/-- The compare-and-swap of `gc_limbo` that succeeds. -/
theorem limboLink {registered critical : Bool}
    (here : threads tid = ⟨.limboCas obj gc.limbo, registered, critical⟩) :
    GcInv collector { gc with limbo := some obj }
      (update threads tid ⟨.idle, registered, critical⟩)
      nodes (update objs .limbo (obj :: objs .limbo)) := by
  have own := here ▸ inv.threadOk tid
  refine inv.change here inv.epoch inv.tls
    (inv.registered_update (by rw [here])) ?_ (fun _ mem => mem) ?_
    nofun
    (fun other _ => (inv.threadOk other).congr rfl rfl (fun _ _ => rfl)
      fun _ => ⟨rfl, rfl⟩) ⟨trivial, nofun, nofun, nofun, own.critical⟩
  · intro slot
    have chain := inv.chain slot
    rw [taken_update (by rw [here]; rfl)]
    cases slot with
    | limbo =>
      have stored : gc.entNext obj = gc.limbo := own.pcOk
      rw [update_self]
      exact ⟨rfl, stored ▸ chain⟩
    | taken | staged epoch => exact chain
  · intro slot other mem
    by_cases isLimbo : slot = .limbo
    · subst isLimbo
      rw [update_self] at mem
      rcases List.mem_cons.1 mem with rfl | old
      · exact .inr ⟨rfl, rfl⟩
      · exact .inl ⟨.limbo, old⟩
    · rw [update_of_ne isLimbo] at mem
      exact .inl ⟨slot, mem⟩

/-- `gc_limbo` is called on an object for the first time. -/
theorem retire {registered critical : Bool}
    (here : threads tid = ⟨.idle, registered, critical⟩)
    (fresh : obj ∉ gc.retired) :
    GcInv collector { gc with retired := obj :: gc.retired }
      (update threads tid ⟨.limboRead obj, registered, critical⟩)
      nodes objs := by
  have own := here ▸ inv.threadOk tid
  refine inv.change here inv.epoch inv.tls
    (inv.registered_update (by rw [here]))
    (inv.chain_update (by rw [here]; rfl) rfl rfl)
    (fun _ => List.mem_cons_of_mem _)
    (fun slot _ mem => .inl ⟨slot, mem⟩) ?_
    (fun other _ => (inv.threadOk other).congr rfl rfl (fun _ _ => rfl)
      fun _ => ⟨rfl, rfl⟩) ⟨trivial, nofun, nofun, nofun, own.critical⟩
  rintro other ⟨⟩
  exact .inr ⟨fresh, (.head _)⟩

/-! ## Steps of the collector -/

/-- A step of the collector on the words that only it and limbo use. -/
theorem collect (here : threads tid = user)
    (collecting : user.pc.collecting = true) {globalEpoch : Nat}
    {limbo : Option Obj} {epochList : Nat → Option Obj} {pc : GcPc Tid Obj}
    (epoch : globalEpoch < ebrEpochs) (pushing : pc.pushing = none)
    (registering : pc.registering = false) (entering : pc.entering = false)
    (chain : ∀ slot, Linked gc.entNext (slotHead
        { gc with
          globalEpoch := globalEpoch, limbo := limbo
          epochList := epochList } pc.taken slot) (moved slot))
    (known : ∀ slot, ∀ obj ∈ moved slot, ∃ other, obj ∈ objs other)
    (pcOk : PcOk
      { gc with
        globalEpoch := globalEpoch, limbo := limbo
        epochList := epochList } tid pc) :
    GcInv collector
      { gc with
        globalEpoch := globalEpoch, limbo := limbo
        epochList := epochList }
      (update threads tid { user with pc := pc }) nodes
      moved := by
  have own := here ▸ inv.threadOk tid
  have isCollector := own.collects collecting
  refine inv.change here epoch inv.tls (inv.registered_update (by rw [here]))
    ?_ (fun _ mem => mem)
    (fun slot obj mem => .inl (known slot obj mem)) (by simp [pushing])
    ?_ (own.cycle collecting pcOk registering entering rfl)
  · intro slot
    rw [← isCollector, update_self]
    exact chain slot
  · intro other ne
    refine (inv.threadOk other).congr rfl rfl (fun _ _ => rfl) ?_
    intro otherCollects
    have equal := (inv.threadOk other).collects otherCollects
    exact absurd (equal.trans isCollector.symm) ne

variable {registered critical : Bool}

theorem cycleQuiet {old pc : GcPc Tid Obj}
    (here : threads tid = ⟨old, registered, critical⟩)
    (collecting : old.collecting = true) (noTaken : old.taken = none)
    (noPush : old.pushing = none) (registering : pc.registering = false)
    (entering : pc.entering = false) (pushing : pc.pushing = none)
    (taken : pc.taken = none) (pcOk : PcOk gc tid pc) :
    GcInv collector gc (update threads tid ⟨pc, registered, critical⟩) nodes
      objs :=
  inv.quiet here rfl (pushing.trans noPush.symm) (taken.trans noTaken.symm)
    ((here ▸ inv.threadOk tid).cycle collecting pcOk registering entering rfl)

theorem exchangeLimbo [DecidableEq Obj] (exchange : Exchange)
    {stagingEpoch : Nat} (here : threads tid =
      ⟨.cycleExchange count gcEpoch stagingEpoch, registered, critical⟩) :
    GcInv collector { gc with limbo := exchange.leaves gc.limbo }
      (update threads tid
        ⟨.cycleStoreList count gcEpoch stagingEpoch gc.limbo, registered,
          critical⟩) nodes
      (slotsAfter exchange gc objs
        (.cycleExchange count gcEpoch stagingEpoch : GcPc Tid Obj)) := by
  refine inv.collect here rfl inv.epoch rfl rfl rfl ?_ ?_
    (here ▸ inv.threadOk tid).pcOk
  · intro slot
    have chain := inv.chain slot
    have limbo := inv.chain .limbo
    cases exchange <;> cases slot <;>
      first
        | exact limbo
        | exact chain
        | exact rfl
  · intro slot obj mem
    cases exchange <;> cases slot <;>
      first
        | exact ⟨.limbo, mem⟩
        | exact ⟨_, mem⟩
        | simp [slotsAfter] at mem

omit [DecidableEq Tid] in
theorem hand (here : threads tid = user)
    (collecting : user.pc.collecting = true) :
    Linked gc.entNext user.pc.taken (objs .taken) := by
  subst here
  have chain := inv.chain .taken
  rwa [← (inv.threadOk tid).collects collecting] at chain

theorem stage [DecidableEq Obj] (exchange : Exchange) {stagingEpoch : Nat}
    {taken : Option Obj} (here : threads tid =
      ⟨.cycleStoreList count gcEpoch stagingEpoch taken, registered,
        critical⟩) :
    GcInv collector
      { gc with
        epochList := update gc.epochList stagingEpoch taken }
      (update threads tid
        ⟨.cycleLoadList count gcEpoch, registered, critical⟩) nodes
      (slotsAfter exchange gc objs
        (.cycleStoreList count gcEpoch stagingEpoch taken : GcPc Tid Obj)) := by
  have hand : Linked gc.entNext taken (objs .taken) := inv.hand here rfl
  refine inv.collect here rfl inv.epoch rfl rfl rfl ?_ ?_
    (here ▸ inv.threadOk tid).pcOk.1
  · intro slot
    have chain := inv.chain slot
    cases slot with
    | limbo => exact chain
    | taken => exact rfl
    | staged epoch =>
      by_cases same : epoch = stagingEpoch
      · subst same
        simpa [slotHead, slotsAfter] using hand
      · simpa [slotHead, slotsAfter, same] using chain
  · intro slot obj mem
    cases slot with
    | limbo => exact ⟨.limbo, mem⟩
    | taken => simp [slotsAfter] at mem
    | staged epoch =>
      by_cases same : epoch = stagingEpoch
      · subst same
        exact ⟨.taken, by simpa [slotsAfter] using mem⟩
      · exact ⟨.staged epoch, by simpa [slotsAfter, same] using mem⟩

theorem clear [DecidableEq Obj] (exchange : Exchange)
    (here : threads tid = ⟨.cycleClear gcEpoch, registered, critical⟩) :
    GcInv collector
      { gc with epochList := update gc.epochList gcEpoch none }
      (update threads tid ⟨.idle, registered, critical⟩) nodes
      (slotsAfter exchange gc objs (.cycleClear gcEpoch : GcPc Tid Obj)) := by
  refine inv.collect here rfl inv.epoch rfl rfl rfl ?_ ?_ trivial
  · intro slot
    have chain := inv.chain slot
    cases slot with
    | limbo => exact chain
    | taken => exact inv.hand here rfl
    | staged epoch =>
      by_cases same : epoch = gcEpoch
      · subst same
        simp [slotHead, slotsAfter]
      · simpa [slotHead, slotsAfter, same] using chain
  · intro slot obj mem
    cases slot with
    | limbo => exact ⟨.limbo, mem⟩
    | taken => exact ⟨.taken, mem⟩
    | staged epoch =>
      by_cases same : epoch = gcEpoch
      · subst same
        simp [slotsAfter] at mem
      · exact ⟨.staged epoch, by simpa [slotsAfter, same] using mem⟩

/-- A scan that has found no thread behind advances the epoch. -/
theorem advance {epoch : Nat} (here : threads tid =
      ⟨.syncScan count epoch none, registered, critical⟩) :
    GcInv collector { gc with globalEpoch := (epoch + 1) % ebrEpochs }
      (update threads tid
        ⟨.syncGcEpoch count, registered, critical⟩) nodes objs := by
  refine inv.collect here rfl (Nat.mod_lt _ (by decide)) rfl rfl rfl ?_
    (fun slot _ mem => ⟨slot, mem⟩) trivial
  intro slot
  have chain := inv.chain slot
  cases slot with
  | limbo => exact chain
  | taken => exact inv.hand here rfl
  | staged epoch => exact chain

/-! ## Every step -/

variable {exchange : Exchange}
  {outcome : Outcome (GcState Tid Obj) (GcThread Tid Obj)
  (GcEvent Tid Obj)}

theorem step [DecidableEq Obj] (here : threads tid = user)
    (stepped : gcStep exchange tid gc user = some outcome) :
    GcInv collector outcome.shared (update threads tid outcome.thread)
      (nodesAfter gc tid nodes user.pc)
      (slotsAfter exchange gc objs user.pc) := by
  have own := here ▸ inv.threadOk tid
  have pcOk := own.pcOk
  have notNode : user.pc.registering = true → tid ∉ nodes := by
    intro registering mem
    rw [← inv.registered, here, own.registers registering] at mem
    cases mem
  rcases user with ⟨pc, registered, critical⟩
  cases pc with
  | idle => cases stepped
  | registerInit =>
    cases stepped
    refine inv.own here _ _ ?_ (fun mem => absurd mem (notNode rfl))
      rfl rfl rfl ⟨trivial, nofun, fun _ => own.registers rfl, nofun, ?_⟩
    · intro other ne
      exact ⟨update_of_ne ne _ _, update_of_ne ne _ _⟩
    · intro inside
      have known := (own.critical inside).1
      rw [own.registers rfl] at known
      cases known
  | registerRead =>
    cases stepped
    exact inv.quiet here rfl rfl rfl
      ⟨trivial, nofun, fun _ => own.registers rfl, nofun, own.critical⟩
  | registerStore head =>
    cases stepped
    refine inv.own here gc.localEpoch _ ?_
      (fun mem => absurd mem (notNode rfl)) rfl rfl rfl
      ⟨update_self .., nofun, fun _ => own.registers rfl, nofun, own.critical⟩
    intro other ne
    exact ⟨rfl, update_of_ne ne _ _⟩
  | registerCas head =>
    simp only [gcStep] at stepped
    rw [nodesAfter]
    split at stepped
    · next equal =>
        cases stepped
        subst equal
        rw [if_pos rfl]
        exact inv.register here
    · next ne =>
        cases stepped
        rw [if_neg ne]
        exact inv.quiet here rfl rfl rfl
          ⟨trivial, nofun, fun _ => own.registers rfl, nofun, own.critical⟩
  | enterRead =>
    cases stepped
    exact inv.quiet here rfl rfl rfl
      ⟨trivial, nofun, nofun, fun _ => own.enters rfl, own.critical⟩
  | enterStore epoch =>
    cases stepped
    refine inv.own here _ gc.tlsNext ?_ (fun _ => rfl) rfl rfl rfl
      ⟨trivial, nofun, nofun, nofun,
        fun _ => ⟨(own.enters rfl).1, epoch, update_self ..⟩⟩
    intro other ne
    exact ⟨update_of_ne ne _ _, rfl⟩
  | exitStore =>
    cases stepped
    refine inv.own here _ gc.tlsNext ?_ (fun _ => rfl) rfl rfl rfl
      ⟨trivial, nofun, nofun, nofun, nofun⟩
    intro other ne
    exact ⟨update_of_ne ne _ _, rfl⟩
  | limboRead obj =>
    cases stepped
    exact inv.quiet here rfl rfl rfl
      ⟨trivial, nofun, nofun, nofun, own.critical⟩
  | limboStore obj head =>
    cases stepped
    exact inv.storeEntry here
  | limboCas obj head =>
    simp only [gcStep] at stepped
    rw [slotsAfter]
    split at stepped
    · next equal =>
        cases stepped
        subst equal
        rw [if_pos rfl]
        exact inv.limboLink here
    · next ne =>
        cases stepped
        rw [if_neg ne]
        exact inv.quiet here rfl rfl rfl
          ⟨trivial, nofun, nofun, nofun, own.critical⟩
  | syncScan count epoch t =>
    cases t with
    | none =>
      cases stepped
      exact inv.advance here
    | some t =>
      simp only [gcStep] at stepped
      split at stepped <;> cases stepped
      · exact inv.cycleQuiet here rfl rfl rfl rfl rfl rfl rfl trivial
      · exact inv.cycleQuiet here rfl rfl rfl rfl rfl rfl rfl pcOk
  | cycleExchange count gcEpoch stagingEpoch =>
    cases stepped
    exact inv.exchangeLimbo exchange here
  | cycleStoreList count gcEpoch stagingEpoch taken =>
    cases stepped
    exact inv.stage exchange here
  | cycleClear gcEpoch =>
    cases stepped
    exact inv.clear exchange here
  | cycleLoadList count gcEpoch =>
    simp only [gcStep] at stepped
    split at stepped <;> cases stepped
    · exact inv.cycleQuiet here rfl rfl rfl rfl rfl rfl rfl trivial
    · exact inv.cycleQuiet here rfl rfl rfl rfl rfl rfl rfl ⟨pcOk, rfl⟩
  | cycleReclaim gcEpoch gcList =>
    cases stepped
    exact inv.cycleQuiet here rfl rfl rfl rfl rfl rfl rfl pcOk.1
  | cycleStaging count gcEpoch =>
    cases stepped
    exact inv.cycleQuiet here rfl rfl rfl rfl rfl rfl rfl ⟨pcOk, rfl⟩
  | syncReadList | syncNext =>
    cases stepped
    exact inv.cycleQuiet here rfl rfl rfl rfl rfl rfl rfl pcOk
  | _ =>
    cases stepped
    exact inv.cycleQuiet here rfl rfl rfl rfl rfl rfl rfl (by trivial)

/-- A call keeps the invariant and moves no object between the slots. -/
theorem call [DecidableEq Obj] {action : GcAction Obj}
    (here : threads tid = user) (idle : user.pc = .idle)
    (called : gcCall collector tid gc user action = some outcome) :
    GcInv collector outcome.shared
      (update threads tid outcome.thread) nodes objs := by
  have own := here ▸ inv.threadOk tid
  rcases user with ⟨pc, registered, critical⟩
  cases idle
  cases action with
  | run => cases called
  | _ =>
    simp only [gcCall] at called
    split at called <;> cases called
    next allowed =>
      first
        | exact inv.retire here allowed
        | exact inv.quiet here rfl rfl rfl
            ⟨trivial, nofun, fun _ => by simpa using allowed, nofun,
              own.critical⟩
        | exact inv.quiet here rfl rfl rfl
            ⟨trivial, nofun, nofun, fun _ => allowed, own.critical⟩
        | exact inv.quiet here rfl rfl rfl
            ⟨trivial, fun _ => allowed, nofun, nofun, own.critical⟩
        | exact inv.quiet here rfl rfl rfl
            ⟨trivial, nofun, nofun, nofun, own.critical⟩

omit inv [DecidableEq Tid] in
theorem start (collector : Tid) (localEpoch : Tid → Nat)
    (tlsNext : Tid → Option Tid) (entNext : Obj → Option Obj) :
    GcInv collector (gcStart localEpoch tlsNext entNext).shared
      (gcStart localEpoch tlsNext entNext).threads [] fun _ => [] where
  epoch := Nat.zero_lt_succ 2
  tls := rfl
  registered := by simp [gcStart]
  chain := by
    intro slot
    cases slot <;> rfl
  retired := by simp
  pushing := by simp [gcStart, GcPc.pushing]
  pushingApart := by simp [gcStart, GcPc.pushing]
  threadOk := fun tid =>
    ⟨trivial, by simp [gcStart, GcPc.collecting],
      by simp [gcStart, GcPc.registering], by simp [gcStart, GcPc.entering],
      by simp [gcStart]⟩

end GcInv

end Lockfreec.Mwcas.Gc
