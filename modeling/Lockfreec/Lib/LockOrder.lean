import Lockfreec.Lib.Interleaving
import Lockfreec.Lib.Serializability
import Mathlib.Order.WithBot

/-!
# Locks

A thread waits for another one if it wants a lock that the other one holds.
If every lock that a thread holds comes before the one it wants, nobody waits
in a circle: along a chain of waiting threads the wanted lock moves upwards.
-/

namespace Lockfreec.Lib.LockOrder

open Function Lib.Interleaving Lib.Serializability

variable {Tid Lock Key : Type}

/-- The first thread wants a lock that the second one holds. -/
def WaitsFor (wanted : Tid → Option Lock) (held : Tid → List Lock)
    (first second : Tid) : Prop :=
  ∃ lock, wanted first = some lock ∧ lock ∈ held second

/-- Whoever holds locks wants one behind them. -/
def InOrder [LT Key] (key : Lock → Key) (wanted : Tid → Option Lock)
    (held : Tid → List Lock) : Prop :=
  ∀ tid lock next, lock ∈ held tid → wanted tid = some next →
    key lock < key next

theorem InOrder.acyclic [Preorder Key] {key : Lock → Key}
    {wanted : Tid → Option Lock} {held : Tid → List Lock}
    (inOrder : InOrder key wanted held) (tid : Tid) :
    ¬ Relation.TransGen (WaitsFor wanted held) tid tid := by
  let rank (tid : Tid) : WithTop Key := (wanted tid).map key
  refine acyclic_of_rank rank ?_ tid
  rintro first second ⟨lock, isWanted, isHeld⟩
  have low : rank first = key lock := by
    show (wanted first).map key = _
    rw [isWanted]
    rfl
  rw [low]
  show (key lock : WithTop Key) < (wanted second).map key
  cases isNext : wanted second with
  | none => exact WithTop.coe_lt_top _
  | some next =>
    exact WithTop.coe_lt_coe.2 (inOrder second lock next isHeld isNext)

/-! ## Exclusive locks -/

variable [DecidableEq Tid] [DecidableEq Lock]

/-- Every lock that is set has one owner, which holds it once. -/
def Exclusive (locked : Lock → Bool) (held : Tid → List Lock) : Prop :=
  ∃ owner : Lock → Option Tid, ∀ lock,
    locked lock = (owner lock).isSome ∧
      ∀ tid, (held tid).count lock = if owner lock = some tid then 1 else 0

section

variable {locked after : Lock → Bool} {held : Tid → List Lock}

theorem Exclusive.spec (exclusive : Exclusive locked held) (tid : Tid) :
    (held tid).Nodup ∧ ∀ lock ∈ held tid, locked lock = true ∧
      ∀ other, other ≠ tid → lock ∉ held other := by
  have pos : ∀ tid lock, lock ∈ held tid ↔ 0 < (held tid).count lock :=
    fun _ _ => List.count_pos_iff.symm
  grind [Exclusive]

/-- A thread sets the locks that it takes and resets those that it gives
back. -/
theorem Exclusive.step (exclusive : Exclusive locked held) {tid : Tid}
    {mine : List Lock}
    (kept : ∀ lock, (after lock).toNat + (held tid).count lock =
      (locked lock).toNat + mine.count lock) :
    Exclusive after (update held tid mine) := by
  rcases exclusive with ⟨owner, owned⟩
  refine ⟨fun lock => if mine.count lock = 0 then
    if owner lock = some tid then none else owner lock
    else some tid, fun lock => ?_⟩
  have own := (owned lock).2 tid
  have same := kept lock
  have most := (after lock).toNat_le
  rw [(owned lock).1] at same
  constructor
  · cases here : after lock <;> grind
  · intro other
    rw [update_apply]
    cases here : after lock <;> grind

end

section

variable {Action Shared Local Event : Type} (locked : Shared → Lock → Bool)
  (held : Local → List Lock) (sound : Shared → Local → Prop)
  (same : Shared → Shared → Lock → Prop)

/-- A step changes only what belongs to locks of its thread. -/
structure LockStep (shared after : Shared) (thread next : Local) : Prop where
  kept : ∀ lock, (locked after lock).toNat + (held thread).count lock =
    (locked shared lock).toNat + (held next).count lock
  frame : ∀ lock, lock ∉ held thread → same shared after lock
  sound : sound after next

variable {machine : Machine Tid Action Shared Local Event}
  {start config : Config Tid Shared Local} {history : List Event}

/-- Locks are exclusive if threads take them only while they are free and give
back only their own.  What a thread knows about its locks stays true. -/
theorem Exclusive.run (run : machine.Run start history config)
    (free : ∀ lock, locked start.shared lock = false)
    (empty : ∀ tid, held (start.threads tid) = [])
    (begins : ∀ tid, sound start.shared (start.threads tid))
    (stays : ∀ {shared after thread}, sound shared thread →
      (∀ lock ∈ held thread, same shared after lock) → sound after thread)
    (steps : ∀ {tid action shared thread after next events},
      (held thread).Nodup →
      (∀ lock ∈ held thread, locked shared lock = true) →
      sound shared thread →
      machine.step tid action shared thread = some ⟨after, next, events⟩ →
      LockStep locked held sound same shared after thread next) :
    Exclusive (locked config.shared) (fun tid => held (config.threads tid)) ∧
      ∀ tid, sound config.shared (config.threads tid) := by
  refine run.invariant (fun _ config =>
    Exclusive (locked config.shared) (fun tid => held (config.threads tid)) ∧
      ∀ tid, sound config.shared (config.threads tid)) ?_ ?_
  · exact ⟨⟨fun _ => none, by simp [free, empty]⟩, begins⟩
  · rintro history config tid action ⟨after, next, events⟩
      ⟨exclusive, isSound⟩ - step
    have spec := exclusive.spec tid
    have moved := steps spec.1 (fun lock mem => (spec.2 lock mem).1)
      (isSound tid) step
    constructor
    · have stepped := exclusive.step moved.kept
      rwa [← field_update held] at stepped
    · refine forall_update (sound after) moved.sound fun other ne =>
        stays (isSound other) fun lock mem => moved.frame lock ?_
      exact ((exclusive.spec other).2 lock mem).2 tid ne.symm

end

end Lockfreec.Lib.LockOrder
