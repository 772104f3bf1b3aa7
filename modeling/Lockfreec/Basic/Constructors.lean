import Mathlib.Algebra.Group.Nat.Defs
import Lockfreec.Basic.Freelist

/-!
# The constructors of the containers

The model of `freelist_new`, `stack_new`, `queue_new` and `ringbuffer_new` when
`aligned_malloc` can fail.  The calls of `aligned_malloc` are numbered, a block
bears the number of its call, and an arbitrary function says which calls
succeed.  No other thread knows a container that is being built, so
`freelist_push` and `freelist_pop` work on the chain as on a list.  A result
of `none` means that `NULL` has been dereferenced.
-/

namespace Lockfreec.Basic.Constructors

open Basic.Freelist

/-! ## The allocator and `init_func` -/

/-- What `init_func` leaves in `data`, what it returns, and the number of
calls of `aligned_malloc` after it. -/
structure Initialised where
  data : Ptr
  rv : Nat
  calls : Nat

/-- An `init_func`, on an element and on a `data` that points into none. -/
structure InitFunc where
  call : Addr → Nat → Initialised
  onNull : Nat → Option Initialised

/-- The call `fs->init_func(&(*fe)->data, fs->state)`. -/
def InitFunc.run (init : InitFunc) (calls : Nat) : Ptr → Option Initialised
  | some fe => some (init.call fe calls)
  | none => init.onNull calls

/-- A freelist: its chain from `top` on, with the `data` of the elements. -/
structure Freelist where
  chain : List (Addr × Ptr)
  elementCount : Nat

/-- A `struct stack_state`. -/
structure Stack where
  top : Word
  abaCounter : Nat
  fs : Freelist

/-- A `struct queue_state`. -/
structure Queue where
  enqueue : Word
  dequeue : Word
  abaCount : Nat
  fs : Freelist

/-- A `struct ringbuffer_state`. -/
structure RingBuffer where
  fs : Freelist
  qs : Queue

/-- What a constructor returns, its output pointer, and the number of calls of
`aligned_malloc` after it. -/
structure Created (Container : Type) where
  rv : Nat
  output : Option Container
  calls : Nat

section Model

variable (succeeds : Nat → Bool)

def alignedMalloc (calls : Nat) : Ptr × Nat :=
  (if succeeds calls then some calls else none, calls + 1)

/-- The body that the two `init_func`s of the containers share. -/
def allocatingInit : InitFunc where
  call _ calls :=
    let (data, calls) := alignedMalloc succeeds calls
    ⟨data, if data.isSome then 1 else 0, calls⟩
  onNull _ := none

def stackInternalFreelistInitFunction : InitFunc :=
  allocatingInit succeeds

def queueInternalFreelistInitFunction : InitFunc :=
  allocatingInit succeeds

/-! ## The freelist -/

/-- The result, the element and the freelist after it. -/
def freelistInternalNewElement (initFunc : Option InitFunc) (fs : Freelist)
    (calls : Nat) : Option (Nat × Option (Addr × Ptr) × Freelist × Nat) :=
  let (fe, calls) := alignedMalloc succeeds calls
  let counted := { fs with elementCount := fs.elementCount + 1 }
  -- The test `NULL != fe` is made on the out parameter.
  match initFunc with
  | none => fe.map fun fe => (1, some (fe, none), counted, calls)
  | some init =>
    (init.run calls fe).bind fun result =>
      -- aligned_free(*fe)
      if result.rv = 0 then fe.map fun _ => (0, none, fs, result.calls)
      else
        some (result.rv, fe.map fun fe => (fe, result.data),
          if result.rv = 1 then counted else fs, result.calls)

def freelistPush (fs : Freelist) : Option (Addr × Ptr) → Option Freelist
  | none => none
  | some fe => some { fs with chain := fe :: fs.chain }

/-- The loop of `freelist_new_elements` with this many elements to go. -/
def freelistNewElements (initFunc : Option InitFunc) :
    Nat → Nat → Freelist → Nat → Option (Nat × Freelist × Nat)
  | 0, count, fs, calls => some (count, fs, calls)
  | remaining + 1, count, fs, calls =>
    (freelistInternalNewElement succeeds initFunc fs calls).bind
      fun (rv, fe, fs, calls) =>
        if rv = 0 then
          freelistNewElements initFunc remaining count fs calls
        else
          (freelistPush fs fe).bind fun fs =>
            freelistNewElements initFunc remaining (count + 1) fs calls

def freelistNew (initFunc : Option InitFunc) (numberElements calls : Nat) :
    Option (Created Freelist) :=
  match alignedMalloc succeeds calls with
  | (none, calls) => some ⟨0, none, calls⟩
  | (some _, calls) =>
    (freelistNewElements succeeds initFunc numberElements 0 ⟨[], 0⟩
      calls).map fun (elementCount, fs, calls) =>
        if elementCount = numberElements then ⟨1, some fs, calls⟩
        else ⟨0, none, calls⟩

/-! ## The containers over it -/

def stackNew (numberElements calls : Nat) : Option (Created Stack) :=
  -- The test `NULL != ss` is made on the out parameter.
  match alignedMalloc succeeds calls with
  | (none, _) => none
  | (some _, calls) =>
    (freelistNew succeeds (some (stackInternalFreelistInitFunction succeeds))
      numberElements calls).bind fun created =>
        match created.output with
        -- `*ss = NULL`, and then the test of `(*ss)->fs`
        | none => none
        | some fs => some ⟨1, some ⟨⟨none, 0⟩, 0, fs⟩, created.calls⟩

/-- `queue_internal_new_element_from_freelist` on a queue that is being
built: the element and the freelist without it. -/
def queueInternalNewElementFromFreelist (fs : Freelist) :
    Option (Ptr × Freelist) :=
  match fs.chain with
  | [] => some (none, fs)
  | fe :: rest => fe.2.map fun qe => (some qe, { fs with chain := rest })

def queueNew (numberElements calls : Nat) : Option (Created Queue) :=
  match alignedMalloc succeeds calls with
  | (none, calls) => some ⟨0, none, calls⟩
  | (some _, calls) =>
    (freelistNew succeeds (some (queueInternalFreelistInitFunction succeeds))
      ((numberElements + 1) % 2 ^ 64) calls).bind fun created =>
        match created.output with
        | none => some ⟨0, none, created.calls⟩
        | some fs =>
          (queueInternalNewElementFromFreelist fs).map fun (qe, fs) =>
            ⟨1, some ⟨⟨qe, 0⟩, ⟨qe, 0⟩, 0, fs⟩, created.calls⟩

def ringbufferNew (initFunc : Option InitFunc) (numberElements calls : Nat) :
    Option (Created RingBuffer) :=
  match alignedMalloc succeeds calls with
  | (none, calls) => some ⟨0, none, calls⟩
  | (some _, calls) =>
    (freelistNew succeeds initFunc numberElements calls).bind fun created =>
      match created.output with
      | none => some ⟨0, none, created.calls⟩
      | some fs =>
        (queueNew succeeds numberElements created.calls).bind fun created =>
            match created.output with
            -- `*rs = NULL`, and then the test of `(*rs)->fs`
            | none => none
            | some qs => some ⟨1, some ⟨fs, qs⟩, created.calls⟩

end Model

/-! ## What a constructor is for -/

/-- A constructor that dereferences no `NULL` and returns one with a built
container, or zero with the output pointer at `NULL`. -/
def Survives {Container : Type} (Built : Container → Prop)
    (result : Option (Created Container)) : Prop :=
  ∃ created, result = some created ∧
    (created.rv = 1 ∧ (∃ container, created.output = some container ∧
      Built container) ∨ created.rv = 0 ∧ created.output = none)

/-- A freelist of so many elements. -/
structure FreelistBuilt (size : Nat) (fs : Freelist) : Prop where
  chain : fs.chain.length = size
  elementCount : fs.elementCount = size

/-- A stack whose freelist holds so many elements with their blocks. -/
structure StackBuilt (size : Nat) (ss : Stack) : Prop where
  freelist : FreelistBuilt size ss.fs
  blocks : ∀ fe ∈ ss.fs.chain, fe.2 ≠ none

/-- A queue with its first element, whose freelist holds so many others. -/
structure QueueBuilt (size : Nat) (qs : Queue) : Prop where
  enqueue : qs.enqueue.pointer ≠ none
  dequeue : qs.dequeue.pointer = qs.enqueue.pointer
  chain : qs.fs.chain.length = size
  elementCount : qs.fs.elementCount = size + 1
  blocks : ∀ fe ∈ qs.fs.chain, fe.2 ≠ none

/-- A ring buffer with its freelist and its queue. -/
structure RingBuilt (size : Nat) (rs : RingBuffer) : Prop where
  freelist : FreelistBuilt size rs.fs
  queue : QueueBuilt size rs.qs

/-! ## Which allocations matter -/

section Allocations

variable (succeeds : Nat → Bool) (initFunc : Option InitFunc)

/-- What initialises the element that the call of this number allocates. -/
def initialised (call : Nat) : Initialised :=
  match initFunc with
  | none => ⟨none, 1, call + 1⟩
  | some init => init.call call (call + 1)

/-- The call that allocates an element, counted from this first one. -/
def elementCall : Nat → Nat → Nat
  | call, 0 => call
  | call, index + 1 => elementCall (initialised initFunc call).calls index

/-- The state and all elements are allocated, with these results of
`init_func`. -/
def Allocated (Result : Nat → Prop) (size calls : Nat) : Prop :=
  succeeds calls = true ∧
    ∀ index < size, succeeds (elementCall initFunc (calls + 1) index) = true ∧
      Result (initialised initFunc (elementCall initFunc (calls + 1) index)).rv

/-- `freelist_new` builds its freelist. -/
def FreelistBuilds (size calls : Nat) : Prop :=
  Allocated succeeds initFunc (· = 1) size calls

/-- `freelist_new` fails, with nothing allocated or all elements allocated
and one of them refused by `init_func`. -/
def FreelistFails (size calls : Nat) : Prop :=
  succeeds calls = false ∨ Allocated succeeds initFunc (fun _ => True) size
    calls ∧ ¬ Allocated succeeds initFunc (· ≠ 0) size calls

/-- The `init_func` of the freelist of a stack or a queue. -/
abbrev poolInit : Option InitFunc :=
  some (allocatingInit succeeds)

/-- `queue_new` builds its queue. -/
def QueueBuilds (size calls : Nat) : Prop :=
  succeeds calls = true ∧ size + 1 < 2 ^ 64 ∧
    FreelistBuilds succeeds (poolInit succeeds) (size + 1) (calls + 1)

/-- `queue_new` fails without or with a state. -/
def QueueFails (size calls : Nat) : Prop :=
  succeeds calls = false ∨ FreelistFails succeeds (poolInit succeeds)
    ((size + 1) % 2 ^ 64) (calls + 1)

end Allocations

section Proofs

variable {succeeds : Nat → Bool} {initFunc : Option InitFunc}
  {size count calls : Nat} {fs : Freelist}

/-- The result of `init_func` on the element of this index. -/
def elementRv (initFunc : Option InitFunc) (call index : Nat) : Nat :=
  (initialised initFunc (elementCall initFunc call index)).rv

theorem newElements_null (failed : succeeds calls = false) :
    freelistNewElements succeeds initFunc (size + 1) count fs calls =
      none := by
  cases initFunc with
  | none =>
    simp [freelistNewElements, freelistInternalNewElement, alignedMalloc,
      failed]
  | some init =>
    cases ran : init.onNull (calls + 1) with
    | none =>
      simp [freelistNewElements, freelistInternalNewElement,
        alignedMalloc, failed, InitFunc.run, ran]
    | some result =>
      by_cases zero : result.rv = 0 <;>
        simp [freelistNewElements, freelistInternalNewElement,
          alignedMalloc, failed, InitFunc.run, ran, zero, freelistPush]

theorem newElements_step (succeeded : succeeds calls = true) :
    freelistNewElements succeeds initFunc (size + 1) count fs calls =
      let result := initialised initFunc calls
      if result.rv = 0 then
        freelistNewElements succeeds initFunc size count fs result.calls
      else
        freelistNewElements succeeds initFunc size (count + 1)
          ⟨(calls, result.data) :: fs.chain,
            fs.elementCount + if result.rv = 1 then 1 else 0⟩
          result.calls := by
  cases initFunc with
  | none =>
    simp [freelistNewElements, freelistInternalNewElement, alignedMalloc,
      succeeded, freelistPush, initialised]
  | some init =>
    simp only [freelistNewElements, freelistInternalNewElement,
      alignedMalloc, succeeded, if_true, InitFunc.run, Option.bind_some,
      initialised]
    by_cases zero : (init.call calls (calls + 1)).rv = 0
    · simp [zero]
    · by_cases one : (init.call calls (calls + 1)).rv = 1 <;>
        simp [zero, one, freelistPush]

theorem newElements_lost {index : Nat} (inside : index < size)
    (failed : succeeds (elementCall initFunc calls index) = false) :
    freelistNewElements succeeds initFunc size count fs calls = none := by
  induction size generalizing index count fs calls with
  | zero => cases inside
  | succ size ih =>
    cases here : succeeds calls with
    | false => exact newElements_null here
    | true =>
      cases index with
      | zero => cases here.symm.trans failed
      | succ index =>
        rw [newElements_step here]
        dsimp only
        split <;> exact ih (Nat.lt_of_succ_lt_succ inside) failed

/-- The elements that the loop has made, and how many of them it counted. -/
structure Made (initFunc : Option InitFunc) (size call : Nat)
    (made : List (Addr × Ptr)) (counted : Nat) : Prop where
  length : made.length ≤ size
  full : made.length = size ↔ ∀ index < size, elementRv initFunc call index ≠ 0
  counted_le : counted ≤ made.length
  all : counted = size ↔ ∀ index < size, elementRv initFunc call index = 1
  data : ∀ fe ∈ made, ∃ call, (initialised initFunc call).rv ≠ 0 ∧
    fe.2 = (initialised initFunc call).data

theorem newElements_made (allocated : ∀ index < size,
      succeeds (elementCall initFunc calls index) = true) :
    ∃ made counted, Made initFunc size calls made counted ∧
      freelistNewElements succeeds initFunc size count fs calls =
        some (count + made.length,
          ⟨made ++ fs.chain, fs.elementCount + counted⟩,
          elementCall initFunc calls size) := by
  induction size generalizing count fs calls with
  | zero =>
    exact ⟨[], 0, ⟨Nat.le_refl 0, by simp, Nat.le_refl 0, by simp, by simp⟩,
      rfl⟩
  | succ size ih =>
    have first : succeeds calls = true := allocated 0 (Nat.succ_pos size)
    have rest : ∀ index < size, succeeds (elementCall initFunc
        (initialised initFunc calls).calls index) = true :=
      fun index inside => allocated (index + 1) (Nat.succ_lt_succ inside)
    rw [newElements_step first]
    by_cases zero : (initialised initFunc calls).rv = 0
    · rcases ih rest with ⟨made, counted, ok, same⟩
      have length := ok.length
      have counted_le := ok.counted_le
      refine ⟨made, counted, ⟨by omega, ?_, counted_le, ?_, ok.data⟩, ?_⟩
      · exact iff_of_false (by omega) fun nonzero =>
          nonzero 0 (Nat.succ_pos size) zero
      · exact iff_of_false (by omega) fun one =>
          Nat.zero_ne_one (zero.symm.trans (one 0 (Nat.succ_pos size)))
      · rw [if_pos zero]
        exact same
    · rcases ih rest with ⟨made, counted, ok, same⟩
      have counted_le := ok.counted_le
      refine ⟨made ++ [(calls, (initialised initFunc calls).data)],
        (if (initialised initFunc calls).rv = 1 then 1 else 0) + counted,
        ⟨?_, ?_, ?_, ?_, ?_⟩, ?_⟩
      · simpa using ok.length
      · rw [Nat.forall_lt_succ_left]
        simp only [List.length_append, List.length_singleton,
          Nat.add_right_cancel_iff]
        exact ok.full.trans (and_iff_right zero).symm
      · rw [List.length_append, List.length_singleton]
        split <;> omega
      · rw [Nat.forall_lt_succ_left]
        split
        · next one =>
            rw [Nat.add_comm, Nat.add_right_cancel_iff, ok.all]
            exact (and_iff_right one).symm
        · next one =>
            exact iff_of_false (by have := ok.length; omega)
              fun all => one all.1
      · intro fe mem
        rcases List.mem_append.1 mem with old | new
        · exact ok.data fe old
        · rw [List.mem_singleton] at new
          subst new
          exact ⟨calls, zero, rfl⟩
      · rw [if_neg zero, same]
        simp [elementCall, Nat.add_assoc, Nat.add_comm 1]

/-- How a constructor ends that is to build or to fail under these
conditions; `Sound` is what is known of a container in any case. -/
inductive Ends {Container : Type} (Sound : Container → Nat → Prop)
    (Built : Container → Prop) (builds fails : Prop) :
    Option (Created Container) → Prop where
  | failed {after : Nat} (isFailed : fails) (unbuilt : ¬ builds) :
      Ends Sound Built builds fails (some ⟨0, none, after⟩)
  | made {container : Container} {after : Nat} (sound : Sound container after)
      (built : Built container ↔ builds) (notFailed : ¬ fails) :
      Ends Sound Built builds fails (some ⟨1, some container, after⟩)
  | lost (notFailed : ¬ fails) (unbuilt : ¬ builds) :
      Ends Sound Built builds fails none

theorem Ends.survives_iff {Container : Type} {Sound : Container → Nat → Prop}
    {Built : Container → Prop} {builds fails : Prop}
    {result : Option (Created Container)}
    (ends : Ends Sound Built builds fails result) :
    Survives Built result ↔ builds ∨ fails := by
  cases ends with
  | failed isFailed unbuilt =>
    exact iff_of_true ⟨_, rfl, .inr ⟨rfl, rfl⟩⟩ (.inr isFailed)
  | made sound built notFailed =>
    rw [or_iff_left notFailed, ← built]
    constructor
    · rintro ⟨_, ⟨⟩, ⟨-, _, ⟨⟩, isBuilt⟩ | ⟨⟨⟩, -⟩⟩
      exact isBuilt
    · exact fun isBuilt => ⟨_, rfl, .inl ⟨rfl, _, rfl, isBuilt⟩⟩
  | lost notFailed unbuilt =>
    exact iff_of_false (by rintro ⟨_, ⟨⟩, -⟩) (not_or.2 ⟨unbuilt, notFailed⟩)

theorem Allocated.mono {First Second : Nat → Prop}
    (weaker : ∀ rv, First rv → Second rv)
    (made : Allocated succeeds initFunc First size calls) :
    Allocated succeeds initFunc Second size calls :=
  ⟨made.1, fun index inside =>
    ⟨(made.2 index inside).1, weaker _ (made.2 index inside).2⟩⟩

/-- All elements are in the chain and hold what `init_func` gave them. -/
structure Filled (initFunc : Option InitFunc) (size : Nat) (fs : Freelist) :
    Prop where
  length : fs.chain.length = size
  data : ∀ fe ∈ fs.chain, ∃ call, (initialised initFunc call).rv ≠ 0 ∧
    fe.2 = (initialised initFunc call).data

theorem freelistNew_ends (succeeds : Nat → Bool)
    (initFunc : Option InitFunc) (size calls : Nat) :
    Ends (fun fs after => Filled initFunc size fs ∧
        after = elementCall initFunc (calls + 1) size)
      (FreelistBuilt size) (FreelistBuilds succeeds initFunc size calls)
      (FreelistFails succeeds initFunc size calls)
      (freelistNew succeeds initFunc size calls) := by
  have stateFails : FreelistFails succeeds initFunc size calls →
      succeeds calls = true →
      ¬ Allocated succeeds initFunc (· ≠ 0) size calls := by
    rintro (failed | ⟨-, refused⟩) state
    · cases state.symm.trans failed
    · exact refused
  rw [freelistNew, alignedMalloc]
  cases state : succeeds calls with
  | false =>
    exact .failed (.inl state) fun builds => by
      cases state.symm.trans builds.1
  | true =>
    simp only [if_true]
    by_cases allocated : ∀ index < size,
        succeeds (elementCall initFunc (calls + 1) index) = true
    · have all : ∀ {Result : Nat → Prop},
          Allocated succeeds initFunc Result size calls ↔
            ∀ index < size, Result (elementRv initFunc (calls + 1) index) :=
        ⟨fun made index inside => (made.2 index inside).2, fun results =>
          ⟨state, fun index inside =>
            ⟨allocated index inside, results index inside⟩⟩⟩
      rcases @newElements_made succeeds initFunc size 0 (calls + 1) ⟨[], 0⟩
        allocated with ⟨made, counted, ok, same⟩
      rw [same, Option.map_some, Nat.zero_add, Nat.zero_add]
      split
      · next full =>
          rw [List.append_nil]
          refine .made ⟨⟨full, ok.data⟩, rfl⟩ ?_ fun fails =>
            stateFails fails state (all.2 (ok.full.1 full))
          rw [FreelistBuilds, all, ← ok.all]
          exact ⟨fun built => built.elementCount, fun isAll => ⟨full, isAll⟩⟩
      · next short =>
          have refused : ¬ Allocated succeeds initFunc (· ≠ 0) size calls :=
            fun makes => short (ok.full.2 (all.1 makes))
          exact .failed (.inr ⟨all.2 fun _ _ => trivial, refused⟩)
            fun builds => refused (builds.mono (by simp +contextual))
    · have lost : ¬ Allocated succeeds initFunc (fun _ => True) size calls :=
        fun made => allocated fun index inside => (made.2 index inside).1
      simp only [not_forall, Bool.not_eq_true] at allocated
      rcases allocated with ⟨index, inside, failed⟩
      rw [newElements_lost inside failed]
      refine .lost ?_ fun builds => lost (builds.mono fun _ _ => trivial)
      rintro (failed | ⟨made, -⟩)
      · cases state.symm.trans failed
      · exact lost made

/-- The elements of a stack or a queue hold their blocks. -/
theorem Filled.blocks (filled : Filled (poolInit succeeds) size fs)
    {fe : Addr × Ptr} (mem : fe ∈ fs.chain) : fe.2 ≠ none := by
  rcases filled.data fe mem with ⟨call, nonzero, isData⟩
  rw [isData]
  cases next : succeeds (call + 1) <;>
    simp_all [initialised, allocatingInit, alignedMalloc]

theorem stackNew_ends (succeeds : Nat → Bool) (size calls : Nat) :
    Ends (fun _ _ => True) (StackBuilt size) (succeeds calls = true ∧
      FreelistBuilds succeeds (poolInit succeeds) size (calls + 1)) False
      (stackNew succeeds size calls) := by
  have ends := freelistNew_ends succeeds (poolInit succeeds) size (calls + 1)
  rw [stackNew, alignedMalloc]
  cases state : succeeds calls with
  | false => exact .lost id nofun
  | true =>
    simp only [stackInternalFreelistInitFunction, if_true, true_and]
    generalize freelistNew succeeds (poolInit succeeds) size (calls + 1) =
      result at ends ⊢
    cases ends with
    | failed isFailed unbuilt => exact .lost id unbuilt
    | made sound built notFailed =>
      exact .made trivial (Iff.trans ⟨StackBuilt.freelist, fun isBuilt =>
        ⟨isBuilt, fun _ => sound.1.blocks⟩⟩ built) id
    | lost notFailed unbuilt => exact .lost id unbuilt

theorem QueueBuilds.freelist (builds : QueueBuilds succeeds size calls) :
    FreelistBuilds succeeds (poolInit succeeds) ((size + 1) % 2 ^ 64)
      (calls + 1) := by
  rw [Nat.mod_eq_of_lt builds.2.1]
  exact builds.2.2

theorem queueNew_ends (succeeds : Nat → Bool) (calls : Nat)
    (small : size < 2 ^ 64) :
    Ends (fun _ _ => True) (QueueBuilt size) (QueueBuilds succeeds size calls)
      (QueueFails succeeds size calls) (queueNew succeeds size calls) := by
  have ends := freelistNew_ends succeeds (poolInit succeeds)
    ((size + 1) % 2 ^ 64) (calls + 1)
  rw [queueNew, alignedMalloc]
  cases state : succeeds calls with
  | false =>
    exact .failed (.inl state) fun builds => by
      cases state.symm.trans builds.1
  | true =>
    have failing : QueueFails succeeds size calls ↔ FreelistFails succeeds
        (poolInit succeeds) ((size + 1) % 2 ^ 64) (calls + 1) := by
      simp [QueueFails, state]
    simp only [if_true, queueInternalFreelistInitFunction]
    generalize freelistNew succeeds (poolInit succeeds)
      ((size + 1) % 2 ^ 64) (calls + 1) = result at ends ⊢
    cases ends with
    | failed isFailed unbuilt =>
      exact .failed (failing.2 isFailed) fun builds =>
        unbuilt builds.freelist
    | lost notFailed unbuilt =>
      exact .lost (mt failing.1 notFailed) fun builds =>
        unbuilt builds.freelist
    | @made fs after sound built notFailed =>
      rcases fs with ⟨_ | ⟨⟨fe, data⟩, rest⟩, count⟩
      · refine .made trivial (iff_of_false ?_ ?_) (mt failing.1 notFailed)
        · exact fun queue => queue.enqueue rfl
        · intro builds
          have empty := (built.2 builds.freelist).chain
          rw [Nat.mod_eq_of_lt builds.2.1] at empty
          cases empty
      · rcases Option.ne_none_iff_exists'.1
          (sound.1.blocks (.head _)) with ⟨qe, rfl⟩
        refine .made trivial ⟨fun queue => ?_, fun builds => ?_⟩
          (mt failing.1 notFailed)
        · have length := sound.1.length
          have fits : size + 1 < 2 ^ 64 := by
            by_contra wraps
            rw [show size + 1 = 2 ^ 64 by omega, Nat.mod_self] at length
            cases length
          refine ⟨state, fits, ?_⟩
          rw [Nat.mod_eq_of_lt fits] at built length
          exact built.1 ⟨length, queue.elementCount⟩
        · have isBuilt := built.2 builds.freelist
          rw [Nat.mod_eq_of_lt builds.2.1] at isBuilt
          exact ⟨nofun, rfl, Nat.succ.inj isBuilt.chain,
            isBuilt.elementCount, fun fe mem =>
              sound.1.blocks (.tail _ mem)⟩

theorem ringbufferNew_ends (succeeds : Nat → Bool)
    (initFunc : Option InitFunc) (calls : Nat) (small : size < 2 ^ 64) :
    Ends (fun _ _ => True) (RingBuilt size) (succeeds calls = true ∧
        FreelistBuilds succeeds initFunc size (calls + 1) ∧
        QueueBuilds succeeds size (elementCall initFunc (calls + 2) size))
      (succeeds calls = false ∨
        FreelistFails succeeds initFunc size (calls + 1))
      (ringbufferNew succeeds initFunc size calls) := by
  have ends := freelistNew_ends succeeds initFunc size (calls + 1)
  rw [ringbufferNew, alignedMalloc]
  cases state : succeeds calls with
  | false => exact .failed (.inl rfl) nofun
  | true =>
    simp only [if_true, true_and, reduceCtorEq, false_or]
    generalize freelistNew succeeds initFunc size (calls + 1) = result at ends ⊢
    cases ends with
    | failed isFailed unbuilt =>
      exact .failed isFailed fun both => unbuilt both.1
    | lost notFailed unbuilt =>
      exact .lost notFailed fun both => unbuilt both.1
    | @made fs after sound built notFailed =>
      rcases sound with ⟨-, rfl⟩
      have queue := queueNew_ends succeeds
        (elementCall initFunc (calls + 2) size) small
      simp only [Option.bind_some]
      generalize queueNew succeeds size
        (elementCall initFunc (calls + 2) size) = result at queue ⊢
      cases queue with
      | failed isFailed unbuilt | lost noQueue unbuilt =>
        exact .lost notFailed fun both => unbuilt both.2
      | made sound isQueue noQueue =>
        exact .made trivial (Iff.trans ⟨fun ring => ⟨ring.freelist,
          ring.queue⟩, fun both => ⟨both.1, both.2⟩⟩
          (and_congr built isQueue)) notFailed

end Proofs

/-- When the constructors survive failing allocations, for every size that
an `atom_t` can hold and every `init_func` of the user. -/
theorem constructors_survive_iff (succeeds : Nat → Bool)
    (initFunc : Option InitFunc) (size calls : Nat) (small : size < 2 ^ 64) :
    (Survives (FreelistBuilt size) (freelistNew succeeds initFunc size calls) ↔
      FreelistBuilds succeeds initFunc size calls ∨
        FreelistFails succeeds initFunc size calls) ∧
    (Survives (StackBuilt size) (stackNew succeeds size calls) ↔
      succeeds calls = true ∧
        FreelistBuilds succeeds (poolInit succeeds) size (calls + 1)) ∧
    (Survives (QueueBuilt size) (queueNew succeeds size calls) ↔
      QueueBuilds succeeds size calls ∨ QueueFails succeeds size calls) ∧
    (Survives (RingBuilt size) (ringbufferNew succeeds initFunc size calls) ↔
      (succeeds calls = true ∧
        FreelistBuilds succeeds initFunc size (calls + 1) ∧
        QueueBuilds succeeds size (elementCall initFunc (calls + 2) size)) ∨
      succeeds calls = false ∨
        FreelistFails succeeds initFunc size (calls + 1)) := by
  refine ⟨(freelistNew_ends succeeds initFunc size calls).survives_iff, ?_,
    (queueNew_ends succeeds calls small).survives_iff,
    (ringbufferNew_ends succeeds initFunc calls small).survives_iff⟩
  rw [(stackNew_ends succeeds size calls).survives_iff, or_false]

/-- With an allocator that never fails `stack_new` builds two elements. -/
theorem constructors_survive_iff_two :
    Survives (StackBuilt 2) (stackNew (fun _ => true) 2 0) :=
  (constructors_survive_iff (fun _ => true) none 2 0
    (by decide)).2.1.2 ⟨rfl, rfl, by decide⟩

/-- `stack_new` when the state of its freelist is not allocated: it frees the
stack, sets `*ss` to `NULL` and then reads `(*ss)->fs`. -/
theorem stackNew_dereferences_null :
    stackNew (fun call => call != 1) 4 0 = none :=
  rfl

end Lockfreec.Basic.Constructors
