import Lockfreec.Basic.Slist
import Lockfreec.Lib.History

/-!
# The data and the flag of a list element

Any number of threads call the functions on one element.  Both words change
only by a compare-and-swap on an element that is not deleted, so the deletion
is the last change.  A thread's own changes since its call are what its result
says.
-/

namespace Lockfreec.Basic.Slist

open Function Lib.History Lib.Interleaving

variable {Value : Type} [DecidableEq Value]

/-! ## Threads on one element -/

/-- What happened in a step. -/
inductive DataEvent (Value : Type) where
  | called (call : DataCall Value)
  /-- A word was loaded while the element held this pair. -/
  | loaded (held : DataFlag Value)
  | installed (before after : DataFlag Value)
  /-- `delete_func` was called. -/
  | destroyed (data : Value)
  | returned (result : DataReturn Value)
deriving DecidableEq

/-- The event of a step inside a call. -/
def dataEvents (held after : DataFlag Value) :
    DataPc Value → List (DataEvent Value)
  | .setReadData _ | .setReadFlag _ _ => [.loaded held]
  | .setDcas _ dataFlag =>
    if held = dataFlag then [.installed held after] else []
  | .getReadData | .getReadFlag _ | .deleteReadData | .deleteReadFlag _ =>
    [.loaded held]
  | .deleteDcas dataFlag =>
    if held = dataFlag then [.installed held after] else []
  | .deleteFunc data => [.destroyed data]
  | _ => []

/-- What a thread does next. -/
inductive DataAction (Value : Type) where
  | call (call : DataCall Value)
  | inside
deriving DecidableEq

/-- Any number of threads on one element. -/
def dataMachine (hasDeleteFunc : Bool) (Tid : Type) :
    Machine Tid (DataAction Value) (DataFlag Value) (DataPc Value)
      (Tid × DataEvent Value) where
  step tid action held pc :=
    match action, pc with
    | .inside, pc =>
      match dataReturn pc with
      | some result => some ⟨held, .idle, [(tid, .returned result)]⟩
      | none =>
        (dataStep hasDeleteFunc held pc).map fun result =>
          ⟨result.1, result.2, (dataEvents held result.1 pc).map (tid, ·)⟩
    | .call call, .idle =>
      some ⟨held, call.start, [(tid, .called call)]⟩
    | _, _ => none

/-- An element that holds a pair, before the first call. -/
def dataStart (Tid : Type) (held : DataFlag Value) :
    Config Tid (DataFlag Value) (DataPc Value) where
  shared := held
  threads := fun _ => .idle

/-! ## Reading a history -/

/-- The changes of the element. -/
def changes {Tid : Type} (history : List (Tid × DataEvent Value)) :
    List (DataFlag Value × DataFlag Value) :=
  history.filterMap fun event =>
    match event.2 with
    | .installed before after => some (before, after)
    | _ => none

/-- The data that `delete_func` was called with. -/
def destroyed {Tid : Type} (history : List (Tid × DataEvent Value)) :
    List Value :=
  history.filterMap fun event =>
    match event.2 with
    | .destroyed data => some data
    | _ => none

/-- The deletions that returned one. -/
def deletions {Tid : Type} (history : List (Tid × DataEvent Value)) :
    List Tid :=
  history.filterMap fun event =>
    match event.2 with
    | .returned (.didDelete true) => some event.1
    | _ => none

variable {Tid : Type} [DecidableEq Tid]

/-- The events of a thread. -/
def own (tid : Tid) (history : List (Tid × DataEvent Value)) :
    List (Tid × DataEvent Value) :=
  history.filter fun event => event.1 = tid

/-- Whether an event is a call of this thread. -/
def calledBy (tid : Tid) (event : Tid × DataEvent Value) : Bool :=
  match event.2 with
  | .called _ => event.1 = tid
  | _ => false

/-- What happened since the last call of a thread. -/
def segment (tid : Tid) (history : List (Tid × DataEvent Value)) :
    List (Tid × DataEvent Value) :=
  since (calledBy tid) history

/-- The pair that an element holds after these changes.  Each of them finds
the pair that the one before has left, and it is not deleted. -/
def Held (start : DataFlag Value) :
    List (DataFlag Value × DataFlag Value) → DataFlag Value → Prop
  | [], now => now = start
  | (before, after) :: rest, now =>
    before = start ∧ before.deleted = false ∧ Held after rest now

/-- What the changes and the calls of `delete_func` of a call are, given what
it returns. -/
def ReturnOk (hasDeleteFunc : Bool) (tid : Tid)
    (since : List (Tid × DataEvent Value)) : DataReturn Value → Prop
  | .didSet data true =>
    (∃ before, before.deleted = false ∧
      changes (own tid since) = [(before, ⟨data, before.flag⟩)]) ∧
    destroyed (own tid since) = []
  | .didSet _ false =>
    changes (own tid since) = [] ∧ destroyed (own tid since) = []
  | .got data rv =>
    (changes (own tid since) = [] ∧ destroyed (own tid since) = []) ∧
    (rv = true → ∃ held, (tid, .loaded held) ∈ since ∧ held.data = data ∧
      held.deleted = false)
  | .didDelete true =>
    ∃ before, before.deleted = false ∧
      changes (own tid since) = [(before, before.delete)] ∧
      destroyed (own tid since) =
        if hasDeleteFunc then [before.data] else []
  | .didDelete false =>
    changes (own tid since) = [] ∧ destroyed (own tid since) = []

/-! ## How the readings grow -/

section Readings

omit [DecidableEq Value]

variable {tid other : Tid} {start now : DataFlag Value}
  {history events : List (Tid × DataEvent Value)}

section

omit [DecidableEq Tid]

@[simp]
theorem changes_append : changes (history ++ events) =
    changes history ++ changes events :=
  List.filterMap_append

@[simp]
theorem destroyed_append : destroyed (history ++ events) =
    destroyed history ++ destroyed events :=
  List.filterMap_append

@[simp]
theorem deletions_append : deletions (history ++ events) =
    deletions history ++ deletions events :=
  List.filterMap_append

end

@[simp]
theorem own_append : own tid (history ++ events) =
    own tid history ++ own tid events :=
  List.filter_append ..

section

variable (mine : ∀ event ∈ events, event.1 = tid)

include mine

theorem own_eq_nil (ne : other ≠ tid) : own other events = [] := by
  apply List.filter_eq_nil_iff.2
  intro event mem
  simp [mine event mem, ne.symm]

theorem own_eq_self : own tid events = events := by
  apply List.filter_eq_self.2
  intro event mem
  simp [mine event mem]

/-- The events of another thread extend what happened since a call. -/
theorem segment_other (ne : other ≠ tid) :
    segment other (history ++ events) = segment other history ++ events := by
  apply since_append_all
  intro event mem
  rcases event with ⟨thread, event⟩
  cases mine _ mem
  cases event <;> simp [calledBy, ne.symm]

end

/-- Between two calls the events of a thread extend its segment. -/
theorem segment_own
    (inside : ∀ event ∈ events, ∀ call, event.2 ≠ .called call) :
    segment tid (history ++ events) = segment tid history ++ events := by
  apply since_append_all
  intro event mem
  rcases event with ⟨thread, event⟩
  cases event with
  | called call => exact absurd rfl (inside _ mem call)
  | _ => rfl

theorem Held.snoc {rest : List (DataFlag Value × DataFlag Value)}
    {after : DataFlag Value} (held : Held start rest now)
    (alive : now.deleted = false) :
    Held start (rest ++ [(now, after)]) after := by
  induction rest generalizing start with
  | nil =>
    cases held
    exact ⟨rfl, alive, rfl⟩
  | cons change rest ih => exact ⟨held.1, held.2.1, ih held.2.2⟩

end Readings

/-! ## The invariant -/

/-- A call that has neither changed nor destroyed anything. -/
def Clean (tid : Tid) (since : List (Tid × DataEvent Value)) : Prop :=
  changes (own tid since) = [] ∧ destroyed (own tid since) = []

/-- What a thread knows at a program point, given what happened since its
call. -/
def LocalOk (hasDeleteFunc : Bool) (held : DataFlag Value) (tid : Tid)
    (since : List (Tid × DataEvent Value)) : DataPc Value → Prop
  | .idle => True
  | .setReadData _ | .setReadFlag _ _ => Clean tid since
  | .setDcas _ dataFlag => Clean tid since ∧ dataFlag.deleted = false
  | .setReturn data rv => ReturnOk hasDeleteFunc tid since (.didSet data rv)
  | .getReadData => Clean tid since
  | .getReadFlag data =>
    Clean tid since ∧ ∃ seen, (tid, .loaded seen) ∈ since ∧
      seen.data = data ∧ (seen.deleted = true → held.deleted = true)
  | .getReturn data rv => ReturnOk hasDeleteFunc tid since (.got data rv)
  | .deleteReadData | .deleteReadFlag _ => Clean tid since
  | .deleteDcas dataFlag => Clean tid since ∧ dataFlag.deleted = false
  | .deleteFunc data =>
    hasDeleteFunc = true ∧ destroyed (own tid since) = [] ∧
      ∃ before, before.deleted = false ∧ before.data = data ∧
        changes (own tid since) = [(before, before.delete)]
  | .deleteReturn rv => ReturnOk hasDeleteFunc tid since (.didDelete rv)

/-- Behind the compare-and-swap that deleted the element. -/
def Winner : DataPc Value → Prop
  | .deleteFunc _ => True
  | .deleteReturn rv => rv = true
  | _ => False

/-- The invariant of an element that held a pair at the start. -/
structure DataInv (hasDeleteFunc : Bool) (start : DataFlag Value)
    (history : List (Tid × DataEvent Value)) (held : DataFlag Value)
    (pcs : Tid → DataPc Value) : Prop where
  chain : Held start (changes history) held
  localOk : ∀ tid,
    LocalOk hasDeleteFunc held tid (segment tid history) (pcs tid)
  returns : ∀ past tid result future,
    history = past ++ (tid, .returned result) :: future →
    ReturnOk hasDeleteFunc tid (segment tid past) result
  alive : held.deleted = false → destroyed history = [] ∧ deletions history = []
  winner : ∀ tid, Winner (pcs tid) →
    held.deleted = true ∧ deletions history = []
  winnerOnce : ∀ left right, Winner (pcs left) → Winner (pcs right) →
    left = right
  pending : ∀ tid data, pcs tid = .deleteFunc data →
    destroyed history = [] ∧ data = held.data
  deletedOnce : (deletions history).length ≤ 1
  destroyedOnce : destroyed history = [] ∨ destroyed history = [held.data]

section Stable

omit [DecidableEq Value]

variable {hasDeleteFunc : Bool} {held after : DataFlag Value} {tid other : Tid}
  {pc : DataPc Value} {since events : List (Tid × DataEvent Value)}

theorem ReturnOk.later {result : DataReturn Value}
    (ok : ReturnOk hasDeleteFunc other since result)
    (mine : ∀ event ∈ events, event.1 = tid) (ne : other ≠ tid) :
    ReturnOk hasDeleteFunc other (since ++ events) result := by
  have same : own other (since ++ events) = own other since := by
    rw [own_append, own_eq_nil mine ne, List.append_nil]
  cases result with
  | didSet data rv | didDelete rv =>
    cases rv <;> (rw [ReturnOk, same]; exact ok)
  | got data rv =>
    refine ⟨?_, fun isOne => ?_⟩
    · rw [same]
      exact ok.1
    · rcases ok.2 isOne with ⟨seen, mem, known⟩
      exact ⟨seen, List.mem_append_left _ mem, known⟩

/-- The steps of other threads leave alone what a thread knows. -/
theorem LocalOk.later (ok : LocalOk hasDeleteFunc held other since pc)
    (mine : ∀ event ∈ events, event.1 = tid) (ne : other ≠ tid)
    (stays : held.deleted = true → after.deleted = true) :
    LocalOk hasDeleteFunc after other (since ++ events) pc := by
  have same : own other (since ++ events) = own other since := by
    rw [own_append, own_eq_nil mine ne, List.append_nil]
  have clean : Clean other since → Clean other (since ++ events) := by
    rw [Clean, Clean, same]
    exact id
  cases pc with
  | idle => trivial
  | setReadData | setReadFlag | getReadData | deleteReadData
  | deleteReadFlag => exact clean ok
  | setDcas | deleteDcas => exact ⟨clean ok.1, ok.2⟩
  | setReturn | deleteReturn => exact ReturnOk.later ok mine ne
  | getReadFlag data =>
    rcases ok with ⟨isClean, seen, mem, isData, seenDeleted⟩
    exact ⟨clean isClean, seen, List.mem_append_left _ mem, isData,
      fun deleted => stays (seenDeleted deleted)⟩
  | getReturn data rv =>
    have answered : ReturnOk hasDeleteFunc other since (.got data rv) := ok
    exact answered.later mine ne
  | deleteFunc data =>
    rw [LocalOk, same]
    exact ok

end Stable

namespace DataInv

variable {hasDeleteFunc : Bool} {start held after : DataFlag Value} {tid : Tid}
  {pcs : Tid → DataPc Value} {pc : DataPc Value}
  {history events : List (Tid × DataEvent Value)}

section Effects

omit [DecidableEq Value]

section

variable (inv : DataInv hasDeleteFunc start history held pcs)

include inv

theorem returns_append
    (none : ∀ event ∈ events, ∀ result, event.2 ≠ .returned result) :
    ∀ past tid result future,
      history ++ events = past ++ (tid, .returned result) :: future →
      ReturnOk hasDeleteFunc tid (segment tid past) result := by
  intro past tid result future split
  have absent : (tid, DataEvent.returned result) ∉ events := by
    intro mem
    exact none _ mem result rfl
  rcases append_split split absent with ⟨front, same⟩
  exact inv.returns past tid result front same

theorem localOk_append (mine : ∀ event ∈ events, event.1 = tid)
    (stays : held.deleted = true → after.deleted = true)
    (own : LocalOk hasDeleteFunc after tid (segment tid (history ++ events))
      pc) :
    ∀ other, LocalOk hasDeleteFunc after other
      (segment other (history ++ events))
      (update pcs tid pc other) := by
  intro other
  by_cases same : other = tid
  · subst same
    rw [update_self]
    exact own
  · rw [update_of_ne same, segment_other mine same]
    exact LocalOk.later (inv.localOk other) mine same stays

theorem quiet (mine : ∀ event ∈ events, event.1 = tid)
    (noChange : changes events = []) (noDestroy : destroyed events = [])
    (noDelete : deletions events = []) (notWinner : ¬ Winner pc)
    (own : LocalOk hasDeleteFunc held tid (segment tid (history ++ events)) pc)
    (returns : ∀ past tid result future,
      history ++ events = past ++ (tid, .returned result) :: future →
      ReturnOk hasDeleteFunc tid (segment tid past) result) :
    DataInv hasDeleteFunc start (history ++ events) held
      (update pcs tid pc) := by
  have others : ∀ other, Winner (update pcs tid pc other) →
      Winner (pcs other) := by
    intro other isWinner
    rcases update_cases Winner isWinner with ⟨rfl, now⟩ | ⟨-, before⟩
    · exact absurd now notWinner
    · exact before
  constructor
  case chain =>
    rw [changes_append, noChange, List.append_nil]
    exact inv.chain
  case localOk => exact inv.localOk_append mine id own
  case returns => exact returns
  case alive =>
    rw [destroyed_append, deletions_append, noDestroy, noDelete,
      List.append_nil, List.append_nil]
    exact inv.alive
  case winner =>
    rw [deletions_append, noDelete, List.append_nil]
    exact fun other isWinner => inv.winner other (others other isWinner)
  case winnerOnce =>
    exact fun left right isLeft isRight =>
      inv.winnerOnce left right (others left isLeft) (others right isRight)
  case pending =>
    rw [destroyed_append, noDestroy, List.append_nil]
    intro other data here
    rcases update_cases
        (fun state : DataPc Value => state = .deleteFunc data) here with
      ⟨rfl, now⟩ | ⟨-, before⟩
    · subst now
      exact absurd trivial notWinner
    · exact inv.pending other data before
  case deletedOnce =>
    rw [deletions_append, noDelete, List.append_nil]
    exact inv.deletedOnce
  case destroyedOnce =>
    rw [destroyed_append, noDestroy, List.append_nil]
    exact inv.destroyedOnce

theorem answer {result : DataReturn Value}
    (ok : ReturnOk hasDeleteFunc tid (segment tid history) result)
    (won : result = .didDelete true → Winner (pcs tid)) :
    DataInv hasDeleteFunc start (history ++ [(tid, .returned result)]) held
      (update pcs tid .idle) := by
  have mine : ∀ event ∈ [(tid, DataEvent.returned result)], event.1 = tid := by
    simp
  have returns : ∀ past other answer future,
      history ++ [(tid, .returned result)] =
        past ++ (other, .returned answer) :: future →
      ReturnOk hasDeleteFunc other (segment other past) answer := by
    intro past other answer future split
    rcases snoc_split split with ⟨rfl, same⟩ | ⟨front, same⟩
    · rw [Prod.mk.injEq, DataEvent.returned.injEq] at same
      rcases same with ⟨rfl, rfl⟩
      exact ok
    · exact inv.returns past other answer front same
  by_cases isDelete : result = .didDelete true
  · subst isDelete
    have isWinner := won rfl
    rcases inv.winner tid isWinner with ⟨deleted, noDeletion⟩
    have noWinner : ∀ other, ¬ Winner (update pcs tid .idle other) := by
      intro other otherWins
      rcases update_cases Winner otherWins with ⟨-, now⟩ | ⟨apart, before⟩
      · exact now
      · exact apart (inv.winnerOnce other tid before isWinner)
    constructor
    case chain =>
      rw [changes_append]
      exact (List.append_nil _).symm ▸ inv.chain
    case localOk => exact inv.localOk_append mine id trivial
    case returns => exact returns
    case alive =>
      intro alive
      rw [deleted] at alive
      cases alive
    case winner => exact fun other wins => absurd wins (noWinner other)
    case winnerOnce =>
      exact fun left _ isLeft => absurd isLeft (noWinner left)
    case pending =>
      intro other data here
      apply absurd _ (noWinner other)
      rw [here]
      trivial
    case deletedOnce =>
      rw [deletions_append, noDeletion]
      exact Nat.le_refl 1
    case destroyedOnce =>
      rw [destroyed_append]
      exact (List.append_nil _).symm ▸ inv.destroyedOnce
  · have noDelete : deletions [(tid, DataEvent.returned result)] = [] := by
      cases result with
      | didDelete rv =>
        cases rv with
        | true => exact absurd rfl isDelete
        | false => rfl
      | _ => rfl
    exact inv.quiet mine rfl rfl noDelete id trivial returns

theorem install (alive : held.deleted = false)
    (own : LocalOk hasDeleteFunc after tid
      (segment tid history ++ [(tid, .installed held after)]) pc)
    (wins : Winner pc ↔ after.deleted = true)
    (data : ∀ data, pc = .deleteFunc data → data = after.data) :
    DataInv hasDeleteFunc start
      (history ++ [(tid, .installed held after)]) after
      (update pcs tid pc) := by
  have mine : ∀ event ∈ [(tid, DataEvent.installed held after)],
      event.1 = tid := by
    simp
  rcases inv.alive alive with ⟨noDestroy, noDeletion⟩
  have noWinner : ∀ other, ¬ Winner (pcs other) := by
    intro other isWinner
    rw [(inv.winner other isWinner).1] at alive
    cases alive
  have onlyHere : ∀ other, Winner (update pcs tid pc other) →
      other = tid ∧ Winner pc := by
    intro other isWinner
    rcases update_cases Winner isWinner with now | ⟨-, before⟩
    · exact now
    · exact absurd before (noWinner other)
  have destroyedAfter : destroyed
      (history ++ [(tid, .installed held after)]) = [] := by
    rw [destroyed_append, noDestroy]
    rfl
  have deletionsAfter : deletions
      (history ++ [(tid, .installed held after)]) = [] := by
    rw [deletions_append, noDeletion]
    rfl
  constructor
  case chain =>
    rw [changes_append]
    exact inv.chain.snoc alive
  case localOk =>
    apply inv.localOk_append mine
    · intro deleted
      rw [deleted] at alive
      cases alive
    · rw [segment_own (by simp)]
      exact own
  case returns => exact inv.returns_append (by simp)
  case alive => exact fun _ => ⟨destroyedAfter, deletionsAfter⟩
  case winner =>
    intro other isWinner
    exact ⟨wins.1 (onlyHere other isWinner).2, deletionsAfter⟩
  case winnerOnce =>
    intro left right isLeft isRight
    rw [(onlyHere left isLeft).1, (onlyHere right isRight).1]
  case pending =>
    intro other found here
    refine ⟨destroyedAfter, ?_⟩
    rcases update_cases
      (fun state : DataPc Value => state = .deleteFunc found) here with
      ⟨-, now⟩ | ⟨-, before⟩
    · exact data found now
    · apply absurd _ (noWinner other)
      rw [before]
      trivial
  case deletedOnce =>
    rw [deletionsAfter]
    exact Nat.zero_le 1
  case destroyedOnce => exact .inl destroyedAfter

/-- The thread that has deleted the element calls `delete_func`. -/
theorem destroy {data : Value} (here : pcs tid = .deleteFunc data) :
    DataInv hasDeleteFunc start (history ++ [(tid, .destroyed data)]) held
      (update pcs tid (.deleteReturn true)) := by
  have mine : ∀ event ∈ [(tid, DataEvent.destroyed data)], event.1 = tid := by
    simp
  have isWinner : Winner (pcs tid) := by
    rw [here]
    trivial
  rcases inv.winner tid isWinner with ⟨deleted, noDeletion⟩
  rcases inv.pending tid data here with ⟨noDestroy, rfl⟩
  have onlyHere : ∀ other, Winner (update pcs tid (.deleteReturn true) other) →
      other = tid := by
    intro other otherWins
    rcases update_cases Winner otherWins with ⟨same, -⟩ | ⟨-, before⟩
    · exact same
    · exact inv.winnerOnce other tid before isWinner
  have deletionsAfter : deletions
      (history ++ [(tid, .destroyed held.data)]) = [] := by
    rw [deletions_append, noDeletion]
    rfl
  constructor
  case chain =>
    rw [changes_append]
    exact (List.append_nil _).symm ▸ inv.chain
  case localOk =>
    apply inv.localOk_append mine id
    rw [segment_own (by simp)]
    have known := inv.localOk tid
    rw [here] at known
    rcases known with ⟨isSet, clean, before, alive, sameData, changed⟩
    refine ⟨before, alive, ?_, ?_⟩
    · rw [own_append, changes_append, changed, own_eq_self mine]
      rfl
    · rw [own_append, destroyed_append, clean, own_eq_self mine, isSet,
        sameData]
      rfl
  case returns => exact inv.returns_append (by simp)
  case alive =>
    intro alive
    rw [deleted] at alive
    cases alive
  case winner => exact fun _ _ => ⟨deleted, deletionsAfter⟩
  case winnerOnce =>
    intro left right isLeft isRight
    rw [onlyHere left isLeft, onlyHere right isRight]
  case pending =>
    intro other found otherHere
    rcases update_cases
      (fun state : DataPc Value => state = .deleteFunc found) otherHere with
      ⟨-, now⟩ | ⟨apart, before⟩
    · cases now
    · apply absurd _ apart
      apply inv.winnerOnce other tid _ isWinner
      rw [before]
      trivial
  case deletedOnce =>
    rw [deletionsAfter]
    exact Nat.zero_le 1
  case destroyedOnce =>
    rw [destroyed_append, noDestroy]
    exact .inr rfl

omit inv in
omit [DecidableEq Tid] in
theorem loaded_mine (held : DataFlag Value) :
    ∀ event ∈ [(tid, DataEvent.loaded held)], event.1 = tid := by
  simp

theorem load (notWinner : ¬ Winner pc) (own : LocalOk hasDeleteFunc held tid
      (segment tid history ++ [(tid, .loaded held)]) pc) :
    DataInv hasDeleteFunc start (history ++ [(tid, .loaded held)]) held
      (update pcs tid pc) := by
  refine inv.quiet (loaded_mine held) rfl rfl rfl notWinner ?_
    (inv.returns_append (by simp))
  rw [segment_own (by simp)]
  exact own

section

omit inv

theorem clean_load {since : List (Tid × DataEvent Value)}
    (clean : Clean tid since) (held : DataFlag Value) :
    Clean tid (since ++ [(tid, .loaded held)]) := by
  rw [Clean, own_append, own_eq_self (loaded_mine held), changes_append,
    destroyed_append, clean.1, clean.2]
  exact ⟨rfl, rfl⟩

theorem localOk_setDecide {since : List (Tid × DataEvent Value)}
    (clean : Clean tid since) (data : Value) (dataFlag : DataFlag Value) :
    LocalOk hasDeleteFunc held tid since (setDecide data dataFlag) ∧
      ¬ Winner (setDecide data dataFlag) := by
  rw [setDecide]
  split
  · exact ⟨clean, id⟩
  · next alive => exact ⟨⟨clean, Bool.eq_false_iff.2 alive⟩, id⟩

theorem localOk_deleteDecide {since : List (Tid × DataEvent Value)}
    (clean : Clean tid since) (dataFlag : DataFlag Value) :
    LocalOk hasDeleteFunc held tid since (deleteDecide dataFlag) ∧
      ¬ Winner (deleteDecide dataFlag) := by
  rw [deleteDecide]
  split
  · exact ⟨clean, by simp [Winner]⟩
  · next alive => exact ⟨⟨clean, Bool.eq_false_iff.2 alive⟩, id⟩

end

theorem retry (notWinner : ¬ Winner pc)
    (own : LocalOk hasDeleteFunc held tid (segment tid history) pc) :
    DataInv hasDeleteFunc start (history ++ []) held (update pcs tid pc) := by
  have noEvent : ∀ event ∈ ([] : List (Tid × DataEvent Value)),
      event.1 = tid := by
    simp
  refine inv.quiet noEvent rfl rfl rfl notWinner ?_
    (inv.returns_append (by simp))
  rw [List.append_nil]
  exact own

end

omit [DecidableEq Tid] in
theorem installed_mine (held after : DataFlag Value) :
    ∀ event ∈ [(tid, DataEvent.installed held after)], event.1 = tid := by
  simp

theorem clean_install {since : List (Tid × DataEvent Value)}
    (clean : Clean tid since) (held after : DataFlag Value) :
    changes (own tid (since ++ [(tid, .installed held after)])) =
        [(held, after)] ∧
      destroyed (own tid (since ++ [(tid, .installed held after)])) = [] := by
  rw [own_append, own_eq_self (installed_mine held after), changes_append,
    destroyed_append, clean.1, clean.2]
  exact ⟨rfl, rfl⟩

end Effects

/-! ## Every step of the machine -/

theorem inside (inv : DataInv hasDeleteFunc start history held pcs)
    (step : dataStep hasDeleteFunc held (pcs tid) = some (after, pc)) :
    DataInv hasDeleteFunc start
      (history ++ (dataEvents held after (pcs tid)).map (tid, ·)) after
      (update pcs tid pc) := by
  have known := inv.localOk tid
  generalize here : pcs tid = old at step known
  cases old with
  | setReadData | deleteReadData =>
    cases step
    exact inv.load id (clean_load known held)
  | setReadFlag data current =>
    cases step
    rcases localOk_setDecide (clean_load known held) data
      ⟨current, held.flag⟩ with ⟨own, notWinner⟩
    exact inv.load notWinner own
  | setDcas data dataFlag =>
    rcases known with ⟨clean, alive⟩
    by_cases success : held = dataFlag
    · subst success
      simp only [dataStep, if_true, Option.some.injEq, Prod.mk.injEq] at step
      rcases step with ⟨rfl, rfl⟩
      rcases clean_install clean held ⟨data, held.flag⟩ with
        ⟨changed, noDestroy⟩
      simp only [dataEvents, if_true, List.map_cons, List.map_nil]
      refine inv.install alive ⟨⟨held, alive, changed⟩, noDestroy⟩ ?_ (by simp)
      have stillAlive : DataFlag.deleted ⟨data, held.flag⟩ = false := alive
      simp [Winner, stillAlive]
    · simp only [dataStep, if_neg success, Option.some.injEq,
        Prod.mk.injEq] at step
      rcases step with ⟨rfl, rfl⟩
      rcases localOk_setDecide clean data held with ⟨own, notWinner⟩
      simp only [dataEvents, if_neg success, List.map_nil]
      exact inv.retry notWinner own
  | getReadData =>
    cases step
    exact inv.load id ⟨clean_load known held, held, by simp, rfl, id⟩
  | getReadFlag data =>
    cases step
    rcases known with ⟨clean, seen, mem, isData, seenDeleted⟩
    refine inv.load id ⟨clean_load clean held, fun isOne => ?_⟩
    refine ⟨seen, List.mem_append_left _ mem, isData, ?_⟩
    rw [Bool.not_eq_true'] at isOne
    rw [← Bool.not_eq_true]
    intro deleted
    rw [seenDeleted deleted] at isOne
    cases isOne
  | deleteReadFlag current =>
    cases step
    rcases localOk_deleteDecide (clean_load known held)
      ⟨current, held.flag⟩ with ⟨own, notWinner⟩
    exact inv.load notWinner own
  | deleteDcas dataFlag =>
    rcases known with ⟨clean, alive⟩
    by_cases success : held = dataFlag
    · subst success
      simp only [dataStep, if_true, Option.some.injEq, Prod.mk.injEq] at step
      rcases step with ⟨rfl, rfl⟩
      rcases clean_install clean held held.delete with
        ⟨changed, noDestroy⟩
      simp only [dataEvents, if_true, List.map_cons, List.map_nil]
      cases hasDeleteFunc with
      | true =>
        refine inv.install alive
          ⟨rfl, noDestroy, held, alive, rfl, changed⟩ ?_ ?_
        · simp [Winner]
        · rintro data isData
          cases isData
          rfl
      | false =>
        refine inv.install alive ⟨held, alive, changed, noDestroy⟩ ?_ ?_
        · simp [Winner]
        · simp
    · simp only [dataStep, if_neg success, Option.some.injEq,
        Prod.mk.injEq] at step
      rcases step with ⟨rfl, rfl⟩
      rcases localOk_deleteDecide clean held with ⟨own, notWinner⟩
      simp only [dataEvents, if_neg success, List.map_nil]
      exact inv.retry notWinner own
  | deleteFunc data =>
    cases step
    exact inv.destroy here
  | _ => cases step

theorem step (inv : DataInv hasDeleteFunc start history held pcs)
    {action : DataAction Value}
    {outcome : Outcome (DataFlag Value) (DataPc Value) (Tid × DataEvent Value)}
    (stepped : (dataMachine hasDeleteFunc Tid).step tid action held
      (pcs tid) = some outcome) :
    DataInv hasDeleteFunc start (history ++ outcome.events) outcome.shared
      (update pcs tid outcome.thread) := by
  have known := inv.localOk tid
  cases action with
  | inside =>
    simp only [dataMachine] at stepped
    split at stepped
    · next result returned =>
        cases stepped
        generalize here : pcs tid = old at returned known
        cases old with
        | setReturn | getReturn =>
          cases returned
          exact inv.answer known (by simp)
        | deleteReturn rv =>
          cases returned
          refine inv.answer known ?_
          rintro isDelete
          cases isDelete
          rw [here]
          rfl
        | _ => cases returned
    · simp only [Option.map_eq_some_iff] at stepped
      rcases stepped with ⟨result, stepped, rfl⟩
      exact inv.inside stepped
  | call call =>
    generalize pcs tid = old at stepped
    cases old with
    | idle =>
      cases stepped
      have mine : ∀ event ∈ [(tid, DataEvent.called call)], event.1 = tid := by
        simp
      have fresh : segment tid (history ++ [(tid, .called call)]) = [] := by
        apply since_marked
        simp [calledBy]
      refine inv.quiet mine rfl rfl rfl ?_ ?_ (inv.returns_append (by simp))
      · cases call <;> exact id
      · rw [fresh]
        cases call <;> exact ⟨rfl, rfl⟩
    | _ => cases stepped

omit [DecidableEq Value] in
theorem new (Tid : Type) [DecidableEq Tid] (hasDeleteFunc : Bool)
    (start : DataFlag Value) :
    DataInv hasDeleteFunc start ([] : List (Tid × DataEvent Value)) start
      (fun _ => .idle) := by
  constructor
  case chain => rfl
  case localOk => exact fun _ => trivial
  case returns => simp
  case alive => exact fun _ => ⟨rfl, rfl⟩
  case winner => exact fun _ impossible => absurd impossible id
  case winnerOnce => exact fun _ _ impossible => absurd impossible id
  case pending => simp
  case deletedOnce => exact Nat.zero_le 1
  case destroyedOnce => exact .inl rfl

end DataInv

end Lockfreec.Basic.Slist
