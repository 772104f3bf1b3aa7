import Lockfreec.Lib.Interleaving
import Mathlib.Algebra.Group.Nat.Defs

/-!
# The bit vector of the Bloom filter

The model of `bv_init`, `bv_set`, `bv_unset`, `bv_toggle` and `bv_get`.  Bits
share words of 32 bits, and every update is one atomic read-modify-write of
the word of its index.  Other threads update the same word, but no other bit.
-/

namespace Lockfreec.Advance.Bloom

open Lib.Interleaving

/-- `INT_BIT`. -/
def intBit : Nat :=
  32

structure BitVector where
  field : List (BitVec 32)
  size : Nat

/-- `bv_init` with memory for its words. -/
def bvInit (k : Nat) : BitVector where
  field := List.replicate ((k + (intBit - 1)) % 2 ^ 64 / intBit) 0#32
  size := k

/-- The updates of one word. -/
inductive Update where
  | set
  | unset
  | toggle

/-- `1 << (k % INT_BIT)`, a wrapping `int`. -/
def mask (k : Nat) : BitVec 32 :=
  1#32 <<< (k % intBit)

def Update.word (mask word : BitVec 32) : Update → BitVec 32
  | .set => word ||| mask
  | .unset => word &&& ~~~mask
  | .toggle => word ^^^ mask

/-- An update of index `k`; `none` if an assertion or an access fails. -/
def BitVector.update (bv : BitVector) (update : Update) (k : Nat) :
    Option BitVector :=
  if k < bv.size ∧ k / intBit < bv.field.length then
    some ⟨bv.field.modify (k / intBit) fun word => update.word (mask k) word,
      bv.size⟩
  else none

def bvSet (bv : BitVector) (k : Nat) : Option BitVector :=
  bv.update .set k

def bvUnset (bv : BitVector) (k : Nat) : Option BitVector :=
  bv.update .unset k

def bvToggle (bv : BitVector) (k : Nat) : Option BitVector :=
  bv.update .toggle k

def bvGet (bv : BitVector) (k : Nat) : Option Bool :=
  if k < bv.size then
    (bv.field[k / intBit]?).map fun word => word &&& mask k != 0#32
  else none

/-- Threads that update the vector; an event is an executed update. -/
def bitMachine (Tid : Type) :
    Machine Tid (Update × Nat) BitVector Unit (Tid × Update × Nat) where
  step tid action bv _ :=
    let after := match action.1 with
      | .set => bvSet bv action.2
      | .unset => bvUnset bv action.2
      | .toggle => bvToggle bv action.2
    after.map fun bv => ⟨bv, (), [(tid, action)]⟩

/-! ## One bit of a word -/

/-- What an update does to a bit of its own. -/
def Update.bit : Update → Bool → Bool
  | .set, _ => true
  | .unset, _ => false
  | .toggle, bit => !bit

theorem mask_bit (k bit : Nat) :
    (mask k).getLsbD bit = decide (k % intBit = bit) := by
  have inside : k % intBit < 32 := Nat.mod_lt k (by decide)
  rw [mask, ← BitVec.twoPow_eq, BitVec.getLsbD_twoPow, decide_eq_true inside,
    Bool.true_and]

theorem test_mask (word : BitVec 32) (k : Nat) :
    (word &&& mask k != 0#32) = word.getLsbD (k % intBit) := by
  by_cases bit : word.getLsbD (k % intBit)
  · rw [bit, bne_iff_ne]
    intro zero
    have same := congrArg (fun word => word.getLsbD (k % intBit)) zero
    simp [bit, mask_bit] at same
  · rw [mask, ← BitVec.twoPow_eq, BitVec.and_twoPow, if_neg bit]
    simp [bit]

/-- An update changes its own bit and no other bit of the word. -/
theorem word_bit (update : Update) (word : BitVec 32) (k : Nat) {bit : Nat}
    (inside : bit < 32) :
    (update.word (mask k) word).getLsbD bit =
      if k % intBit = bit then update.bit (word.getLsbD bit)
      else word.getLsbD bit := by
  cases update with
  | set =>
    rw [Update.word, BitVec.getLsbD_or, mask_bit]
    by_cases own : k % intBit = bit <;> simp [Update.bit, own]
  | unset =>
    rw [Update.word, BitVec.getLsbD_and, BitVec.getLsbD_not, mask_bit,
      decide_eq_true inside]
    by_cases own : k % intBit = bit <;> simp [Update.bit, own]
  | toggle =>
    rw [Update.word, BitVec.getLsbD_xor, mask_bit]
    by_cases own : k % intBit = bit <;> simp [Update.bit, own]

/-! ## One bit of the vector -/

/-- An update of index `k` as index `i` sees it. -/
theorem get_update {bv after : BitVector} {update : Update} {k i : Nat}
    (updated : bv.update update k = some after) :
    bvGet after i = (bvGet bv i).map fun bit =>
      if k = i then update.bit bit else bit := by
  rcases Option.ite_none_right_eq_some.1 updated with ⟨-, same⟩
  cases same
  have inside : i % intBit < 32 := Nat.mod_lt i (by decide)
  simp only [bvGet, test_mask, List.getElem?_modify, Option.map_eq_map]
  split
  · rw [Option.map_map, Option.map_map]
    apply congrArg (Option.map · bv.field[i / intBit]?)
    funext word
    by_cases sameWord : k / intBit = i / intBit
    · have own : k % intBit = i % intBit ↔ k = i := by
        simp only [intBit] at *
        omega
      simp [sameWord, word_bit update word k inside, own]
    · have ne : k ≠ i := by
        rintro rfl
        exact sameWord rfl
      simp [sameWord, ne]
  · rfl

/-! ## Whole runs -/

section

variable {Tid : Type}

/-- The updates of one index, in the order of their execution. -/
def ownUpdates (i : Nat) (history : List (Tid × Update × Nat)) : List Update :=
  (history.filter fun event => event.2.2 = i).map fun event => event.2.1

theorem bitMachine_step {tid : Tid} {action : Update × Nat} {bv : BitVector}
    {state : Unit} {outcome : Outcome BitVector Unit (Tid × Update × Nat)}
    (step : (bitMachine Tid).step tid action bv state = some outcome) :
    bv.update action.1 action.2 = some outcome.shared ∧
      outcome.events = [(tid, action)] := by
  rcases action with ⟨update, k⟩
  cases update with
  | set | unset | toggle =>
    rcases Option.map_eq_some_iff.1 step with ⟨after, updated, rfl⟩
    exact ⟨updated, rfl⟩

variable [DecidableEq Tid]

/--
After any interleaving of updates of a new bit vector, a bit is what the
updates of its own index make of a bit that starts at zero.
-/
theorem bits_independent {k : Nat} (room : k + 31 < 2 ^ 64)
    {history : List (Tid × Update × Nat)} {config : Config Tid BitVector Unit}
    (run : (bitMachine Tid).Run ⟨bvInit k, fun _ => ()⟩ history config)
    {i : Nat} (inside : i < k) :
    bvGet config.shared i = some ((ownUpdates i history).foldl
      (fun bit update => update.bit bit) false) := by
  apply run.invariant fun history config =>
    bvGet config.shared i = some ((ownUpdates i history).foldl
      (fun bit update => update.bit bit) false)
  · have inField : i / intBit < (k + (intBit - 1)) % 2 ^ 64 / intBit := by
      simp only [intBit]
      omega
    have word := List.getElem?_replicate_of_lt inField (a := 0#32)
    simp only [bvGet, bvInit, inside, if_true, word, ownUpdates]
    simp
  · intro history config tid action outcome before _ stepped
    rcases bitMachine_step stepped with ⟨updated, events⟩
    rw [Config.advance_shared, get_update updated, before, events]
    by_cases own : action.2 = i <;> simp [ownUpdates, own]

theorem bits_independent_sign : ∃ history config,
      (bitMachine Bool).Run ⟨bvInit 40, fun _ => ()⟩ history config ∧
        bvGet config.shared 31 = some true := by
  have executed : (bitMachine Bool).execute ⟨bvInit 40, fun _ => ()⟩
      [(true, .toggle, 31), (false, .set, 30)] = some (_, _) :=
    rfl
  have run := Machine.run_of_execute executed
  exact ⟨_, _, run, bits_independent (by decide) run (by decide)⟩

end

end Lockfreec.Advance.Bloom
