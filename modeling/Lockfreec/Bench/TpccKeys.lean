import Mathlib.Algebra.Group.Nat.Defs
import Mathlib.Data.List.Induction
import Mathlib.Logic.Function.Basic

/-!
# The keys of the TPC-C tables

The model of the key functions of `tpcc_helper.cpp` with `HASH_PRIMARY_KEYS`
undefined, in which `hash_murmur3` is the identity.  A key packs its parts as
digits, and keys are distinct only while the parts stay below their radices.
-/

namespace Lockfreec.Bench.TpccKeys

open Function

/-- `DIST_PER_WARE`. -/
def distPerWare : Nat :=
  10

def distKey (dId dWId : Nat) : Nat :=
  (dWId * distPerWare + dId) % 2 ^ 64

/-! ## Orders -/

structure Order where
  wId : Nat
  dId : Nat
  oId : Nat
deriving DecidableEq

/-- `g_cust_per_dist` is a parameter. -/
def orderlineKey (custPerDist : Nat) (order : Order) : Nat :=
  (distKey order.dId order.wId * custPerDist + order.oId) % 2 ^ 64

def neworderKey (custPerDist : Nat) (order : Order) : Nat :=
  orderlineKey custPerDist order

def orderPrimaryKey (custPerDist : Nat) (order : Order) : Nat :=
  orderlineKey custPerDist order

/-- A district of a warehouse. -/
structure District where
  wId : Nat
  dId : Nat
deriving DecidableEq

abbrev District.Valid (district : District) : Prop :=
  1 ≤ district.wId ∧ 1 ≤ district.dId ∧ district.dId ≤ distPerWare

/-- `D_NEXT_O_ID` of every district after `init_tab_dist`. -/
def initialNextOId : District → Nat :=
  fun _ => 3001

/-- The orders of a sequence of `run_new_order` calls: each increments
`D_NEXT_O_ID` of its district and takes the new value. -/
def newOrders (nextOId : District → Nat) : List District → List Order
  | [] => []
  | district :: rest =>
    let oId := nextOId district + 1
    ⟨district.wId, district.dId, oId⟩ ::
      newOrders (update nextOId district oId) rest

/-- An order of `init_tab_order` or of a `run_new_order`. -/
def Occurs (custPerDist : Nat) (calls : List District) (order : Order) :
    Prop :=
  (District.Valid ⟨order.wId, order.dId⟩ ∧ 1 ≤ order.oId ∧
      order.oId ≤ custPerDist) ∨
    order ∈ newOrders initialNextOId calls

/-- The key fits into 64 bits. -/
abbrev InRange (custPerDist : Nat) (order : Order) : Prop :=
  (order.wId * distPerWare + order.dId) * custPerDist + order.oId < 2 ^ 64

/-- The three keys identify the orders that occur. -/
def OrderKeysDistinct (custPerDist : Nat) (calls : List District) : Prop :=
  ∀ left right, Occurs custPerDist calls left → Occurs custPerDist calls right →
    InRange custPerDist left → InRange custPerDist right → left ≠ right →
    orderPrimaryKey custPerDist left ≠ orderPrimaryKey custPerDist right ∧
      orderlineKey custPerDist left ≠ orderlineKey custPerDist right ∧
      neworderKey custPerDist left ≠ neworderKey custPerDist right

section

variable {custPerDist : Nat} {order left right : Order}

theorem orderlineKey_eq (inRange : InRange custPerDist order)
    (positive : 0 < custPerDist) :
    orderlineKey custPerDist order =
      (order.wId * distPerWare + order.dId) * custPerDist + order.oId := by
  have small : order.wId * distPerWare + order.dId < 2 ^ 64 := by
    refine Nat.lt_of_le_of_lt ?_ inRange
    exact Nat.le_trans (Nat.le_mul_of_pos_right _ positive)
      (Nat.le_add_right _ _)
  rw [orderlineKey, distKey, Nat.mod_eq_of_lt small, Nat.mod_eq_of_lt inRange]

theorem mem_newOrders {nextOId : District → Nat} {calls : List District}
    (mem : order ∈ newOrders nextOId calls) :
    ⟨order.wId, order.dId⟩ ∈ calls ∧ 1 ≤ order.oId := by
  induction calls generalizing nextOId with
  | nil => cases mem
  | cons district rest ih =>
    rcases List.mem_cons.1 mem with rfl | later
    · exact ⟨.head _, Nat.le_add_left _ _⟩
    · exact ⟨.tail _ (ih later).1, (ih later).2⟩

/-- Digits below their radix are determined by the key. -/
theorem digits_unique {high low other small : Nat}
    (bounds : 1 ≤ low ∧ low ≤ custPerDist)
    (smallBounds : 1 ≤ small ∧ small ≤ custPerDist)
    (same : high * custPerDist + low = other * custPerDist + small) :
    high = other ∧ low = small := by
  have equal : high = other := by
    rcases Nat.lt_trichotomy high other with less | equal | more
    · have gap := Nat.mul_le_mul_right custPerDist less
      rw [Nat.succ_mul] at gap
      omega
    · exact equal
    · have gap := Nat.mul_le_mul_right custPerDist more
      rw [Nat.succ_mul] at gap
      omega
  subst equal
  exact ⟨rfl, by omega⟩

/-- An order with a large number has the key of an order that was loaded. -/
theorem exists_collision (positive : 0 < custPerDist)
    (valid : District.Valid ⟨order.wId, order.dId⟩)
    (inRange : InRange custPerDist order) (large : custPerDist < order.oId) :
    ∃ other, Occurs custPerDist [] other ∧ InRange custPerDist other ∧
      order ≠ other ∧
      orderlineKey custPerDist order = orderlineKey custPerDist other := by
  rcases order with ⟨wId, dId, oId⟩
  rcases valid with ⟨warehouse, first, last⟩
  dsimp only [distPerWare] at *
  have split := Nat.div_add_mod (oId - 1) custPerDist
  have low := Nat.mod_lt (oId - 1) positive
  generalize (oId - 1) / custPerDist = carry at split
  generalize (oId - 1) % custPerDist = rest at split low
  let target := wId * 10 + dId + carry
  have digits : (target - 1) / 10 * 10 + ((target - 1) % 10 + 1) = target := by
    omega
  have isOther : ((target - 1) / 10 * 10 + ((target - 1) % 10 + 1)) *
      custPerDist + (rest + 1) = (wId * 10 + dId) * custPerDist + oId := by
    rw [digits, Nat.add_mul, Nat.mul_comm carry]
    omega
  have otherRange : InRange custPerDist
      ⟨(target - 1) / 10, (target - 1) % 10 + 1, rest + 1⟩ :=
    Nat.lt_of_le_of_lt (Nat.le_of_eq isOther) inRange
  refine ⟨_, .inl ⟨⟨?_, ?_, ?_⟩, ?_, ?_⟩, otherRange, ?_, ?_⟩
  · show 1 ≤ (target - 1) / 10
    omega
  · exact Nat.le_add_left _ _
  · show (target - 1) % 10 + 1 ≤ 10
    omega
  · exact Nat.le_add_left _ _
  · exact low
  · intro same
    have sameId : oId = rest + 1 := congrArg Order.oId same
    omega
  · rw [orderlineKey_eq inRange positive, orderlineKey_eq otherRange positive]
    exact isOther.symm

/--
The keys identify the orders exactly as long as no order number exceeds
`g_cust_per_dist`, the radix of its digit.
-/
theorem orderKeys_distinct_iff (positive : 0 < custPerDist)
    {calls : List District} (valid : ∀ district ∈ calls, district.Valid) :
    OrderKeysDistinct custPerDist calls ↔
      ∀ order, Occurs custPerDist calls order → InRange custPerDist order →
        order.oId ≤ custPerDist := by
  have districts : ∀ order, Occurs custPerDist calls order →
      District.Valid ⟨order.wId, order.dId⟩ ∧ 1 ≤ order.oId := by
    rintro order (⟨isValid, first, -⟩ | mem)
    · exact ⟨isValid, first⟩
    · exact ⟨valid _ (mem_newOrders mem).1, (mem_newOrders mem).2⟩
  constructor
  · intro distinct order occurs inRange
    by_contra large
    rcases exists_collision positive (districts order occurs).1 inRange
      (by omega) with ⟨other, loaded | new, otherRange, ne, same⟩
    · exact (distinct order other occurs (.inl loaded) inRange otherRange
        ne).1 same
    · cases new
  · intro bounded left right isLeft isRight leftRange rightRange ne
    have differ : orderlineKey custPerDist left ≠
        orderlineKey custPerDist right := by
      rw [orderlineKey_eq leftRange positive,
        orderlineKey_eq rightRange positive]
      intro same
      rcases districts left isLeft with ⟨leftValid, leftFirst⟩
      rcases districts right isRight with ⟨rightValid, rightFirst⟩
      rcases digits_unique ⟨leftFirst, bounded left isLeft leftRange⟩
        ⟨rightFirst, bounded right isRight rightRange⟩ same with
        ⟨district, number⟩
      rcases digits_unique leftValid.2 rightValid.2 district with
        ⟨warehouse, sameDistrict⟩
      apply ne
      rcases left with ⟨_, _, _⟩
      cases warehouse
      cases sameDistrict
      cases number
      rfl
    exact ⟨differ, differ, differ⟩

/-- Without new orders the keys identify the orders. -/
theorem orderKeys_distinct_iff_loaded : OrderKeysDistinct 3000 [] := by
  refine (orderKeys_distinct_iff (by decide) (by simp)).2 ?_
  rintro order (⟨-, -, bounded⟩ | new) -
  · exact bounded
  · cases new

/-- The first new order of a district has the key of an order of the next
district. -/
theorem new_order_key_collides : ¬ OrderKeysDistinct 3000 [⟨1, 1⟩] := by
  intro distinct
  exact (distinct ⟨1, 1, 3002⟩ ⟨1, 2, 2⟩ (.inr (.head _))
    (.inl ⟨by decide, by decide, by decide⟩) (by decide) (by decide)
    (by decide)).1 (by decide)

end

/-! ## Customers by name -/

/-- The syllables of `Lastname`. -/
def syllables : List (List Char) :=
  [['B', 'A', 'R'], ['O', 'U', 'G', 'H', 'T'], ['A', 'B', 'L', 'E'],
    ['P', 'R', 'I'], ['P', 'R', 'E', 'S'], ['E', 'S', 'E'],
    ['A', 'N', 'T', 'I'], ['C', 'A', 'L', 'L', 'Y'],
    ['A', 'T', 'I', 'O', 'N'], ['E', 'I', 'N', 'G']]

def lastname (num : Nat) : List Char :=
  syllables.getD (num / 100) [] ++ syllables.getD (num / 10 % 10) [] ++
    syllables.getD (num % 10) []

/-- The loop of `custNPKey`. -/
def foldName (cLast : List Char) : Nat :=
  cLast.foldl (fun key c => (key * 4 % 2 ^ 64 + (c.toNat - 'A'.toNat)) % 2 ^ 64)
    0

def custNPKey (cLast : List Char) (cDId cWId : Nat) : Nat :=
  (foldName cLast * 8 % 2 ^ 64 + (cWId * distPerWare + cDId)) % 2 ^ 64

def pow2roundup (x : Nat) : Nat :=
  let x := (x + (2 ^ 64 - 1)) % 2 ^ 64
  let x := x ||| x >>> 1
  let x := x ||| x >>> 2
  let x := x ||| x >>> 4
  let x := x ||| x >>> 8
  let x := x ||| x >>> 16
  let x := x ||| x >>> 32
  (x + 1) % 2 ^ 64

/-- `g_cust_per_dist`. -/
def gCustPerDist (tpccSmall : Bool) : Nat :=
  if tpccSmall then 2000 else 3000

def custNPKeyOrderedByCid (tpccSmall : Bool) (cLast : List Char)
    (cId cDId cWId : Nat) : Nat :=
  (custNPKey cLast cDId cWId *
    pow2roundup ((gCustPerDist tpccSmall + 1) % 2 ^ 32) % 2 ^ 64 + cId) % 2 ^ 64

/-- The part of a key that is not the name. -/
structure NameKey where
  num : Nat
  cDId : Nat
  cWId : Nat

def NameKey.Valid (numWh : Nat) (key : NameKey) : Prop :=
  key.num ≤ 999 ∧ (1 ≤ key.cDId ∧ key.cDId ≤ distPerWare) ∧
    1 ≤ key.cWId ∧ key.cWId ≤ numWh

/-- Both keys identify the customers of `numWh` warehouses by name. -/
def NameKeysDistinct (tpccSmall : Bool) (numWh : Nat) : Prop :=
  ∀ left right : NameKey, left.Valid numWh → right.Valid numWh →
    (custNPKey (lastname left.num) left.cDId left.cWId =
        custNPKey (lastname right.num) right.cDId right.cWId →
      lastname left.num = lastname right.num ∧ left.cDId = right.cDId ∧
        left.cWId = right.cWId) ∧
    ∀ leftId rightId, 1 ≤ leftId → leftId ≤ gCustPerDist tpccSmall →
      1 ≤ rightId → rightId ≤ gCustPerDist tpccSmall →
      custNPKeyOrderedByCid tpccSmall (lastname left.num) leftId left.cDId
          left.cWId =
        custNPKeyOrderedByCid tpccSmall (lastname right.num) rightId
          right.cDId right.cWId →
      lastname left.num = lastname right.num ∧ leftId = rightId ∧
        left.cDId = right.cDId ∧ left.cWId = right.cWId

theorem foldName_append (front back : List Char) : foldName (front ++ back) =
      (foldName front * 4 ^ back.length + foldName back) % 2 ^ 64 := by
  induction back using List.reverseRecOn with
  | nil =>
    have small : foldName front < 2 ^ 64 := by
      rcases front.eq_nil_or_concat with rfl | ⟨rest, last, rfl⟩
      · decide
      · rw [foldName, List.concat_eq_append, List.foldl_append]
        exact Nat.mod_lt _ (by decide)
    have nil : foldName [] = 0 := rfl
    rw [List.append_nil, List.length_nil, Nat.pow_zero, Nat.mul_one, nil,
      Nat.add_zero, Nat.mod_eq_of_lt small]
  | append_singleton back last ih =>
    have step : ∀ cs, foldName (cs ++ [last]) =
        (foldName cs * 4 % 2 ^ 64 + (last.toNat - 'A'.toNat)) % 2 ^ 64 := by
      intro cs
      rw [foldName, List.foldl_append]
      rfl
    have power : 4 ^ (back ++ [last]).length = 4 ^ back.length * 4 := by
      rw [List.length_append]
      rfl
    rw [← List.append_assoc, step, ih, step, power, ← Nat.mul_assoc]
    omega

/-- The folds of two syllables differ in their last six bits, and are not
neighbours. -/
theorem syllables_apart : ∀ left < 10, ∀ right < 10,
    (foldName (syllables.getD left []) % 64 =
        foldName (syllables.getD right []) % 64 ∨
      (foldName (syllables.getD left []) + 1) % 64 =
        foldName (syllables.getD right []) % 64) → left = right := by
  decide +kernel

theorem syllable_bounds : ∀ num < 10,
    foldName (syllables.getD num []) < 2 ^ 13 ∧
      (4 ^ (syllables.getD num []).length % 64 = 0 ∧
        64 ≤ 4 ^ (syllables.getD num []).length ∧
        4 ^ (syllables.getD num []).length ≤ 2 ^ 10) := by
  decide +kernel

/-- The last syllable of a name, from a key that is off by at most one. -/
theorem last_syllable {front other : List Char} {left right : Nat}
    (isLeft : left < 10) (isRight : right < 10)
    (near : foldName (front ++ syllables.getD left []) =
        foldName (other ++ syllables.getD right []) ∨
      foldName (front ++ syllables.getD left []) + 1 =
        foldName (other ++ syllables.getD right [])) :
    left = right ∧ foldName (front ++ syllables.getD left []) =
      foldName (other ++ syllables.getD right []) := by
  have residue : ∀ cs {num}, num < 10 →
      foldName (cs ++ syllables.getD num []) % 64 =
        foldName (syllables.getD num []) % 64 := by
    intro cs num inside
    rcases Nat.dvd_of_mod_eq_zero (syllable_bounds num inside).2.1 with
      ⟨factor, isFactor⟩
    rw [foldName_append, isFactor, Nat.mul_left_comm]
    omega
  have first := residue front isLeft
  have second := residue other isRight
  have same : left = right := by
    apply syllables_apart left isLeft right isRight
    omega
  subst same
  exact ⟨rfl, by omega⟩

section

variable {front other : List Char} {num : Nat} (inside : num < 10)

include inside

/-- Names with the same key and the same last syllable. -/
theorem front_eq (small : foldName front < 2 ^ 32)
    (otherSmall : foldName other < 2 ^ 32)
    (same : foldName (front ++ syllables.getD num []) =
      foldName (other ++ syllables.getD num [])) :
    foldName front = foldName other := by
  rcases syllable_bounds num inside with ⟨code, -, positive, radix⟩
  have product := Nat.mul_le_mul (Nat.le_of_lt small) radix
  have otherProduct := Nat.mul_le_mul (Nat.le_of_lt otherSmall) radix
  rw [foldName_append, foldName_append, Nat.mod_eq_of_lt (by omega),
    Nat.mod_eq_of_lt (by omega), Nat.add_right_cancel_iff] at same
  exact Nat.eq_of_mul_eq_mul_right (by omega) same

theorem foldName_le (front : List Char) :
    foldName (front ++ syllables.getD num []) ≤
      foldName front * 2 ^ 10 + 2 ^ 13 := by
  rcases syllable_bounds num inside with ⟨code, -, -, radix⟩
  have product := Nat.mul_le_mul_left (foldName front) radix
  rw [foldName_append]
  exact Nat.le_trans (Nat.mod_le _ _) (by omega)

end

section

variable {left right : Nat} (isLeft : left ≤ 999) (isRight : right ≤ 999)

include isLeft

/-- The first two syllables. -/
theorem foldName_front : foldName (syllables.getD (left / 100) [] ++
    syllables.getD (left / 10 % 10) []) < 2 ^ 24 := by
  have first := (syllable_bounds (left / 100) (by omega)).1
  have second := foldName_le (show left / 10 % 10 < 10 by omega)
    (syllables.getD (left / 100) [])
  omega

theorem foldName_lastname : foldName (lastname left) < 2 ^ 35 := by
  have front := foldName_front isLeft
  have third := foldName_le (show left % 10 < 10 by omega)
    (syllables.getD (left / 100) [] ++ syllables.getD (left / 10 % 10) [])
  rw [← lastname] at third
  omega

include isRight

/-- Names whose folds are equal or neighbours are equal. -/
theorem lastname_unique
    (near : foldName (lastname left) = foldName (lastname right) ∨
      foldName (lastname left) + 1 = foldName (lastname right)) :
    left = right := by
  have front := foldName_front isLeft
  have otherFront := foldName_front isRight
  rcases last_syllable (by omega) (by omega) near with ⟨third, same⟩
  rw [third] at same
  have fronts := front_eq (by omega) (by omega) (by omega) same
  rcases last_syllable (by omega) (by omega) (.inl fronts) with
    ⟨second, same⟩
  rw [second] at same
  have first := front_eq (by omega)
    (Nat.lt_trans (syllable_bounds (left / 100) (by omega)).1 (by decide))
    (Nat.lt_trans (syllable_bounds (right / 100) (by omega)).1 (by decide))
    same
  have hundreds := syllables_apart (left / 100) (by omega) (right / 100)
    (by omega) (.inl (congrArg (· % 64) first))
  omega

end

/-- The keys of one warehouse. -/
theorem custNPKey_unique {left right : NameKey} (isLeft : left.Valid 1)
    (isRight : right.Valid 1)
    (same : custNPKey (lastname left.num) left.cDId left.cWId =
      custNPKey (lastname right.num) right.cDId right.cWId) :
    left = right := by
  rcases left with ⟨leftNum, leftDId, leftWId⟩
  rcases right with ⟨rightNum, rightDId, rightWId⟩
  rcases isLeft with ⟨leftName, leftDistrict, leftWarehouse⟩
  rcases isRight with ⟨rightName, rightDistrict, rightWarehouse⟩
  have leftSmall := foldName_lastname leftName
  have rightSmall := foldName_lastname rightName
  simp only [custNPKey, distPerWare] at *
  have sameNum : leftNum = rightNum := by
    rcases Nat.le_total (foldName (lastname leftNum))
      (foldName (lastname rightNum)) with less | more
    · exact lastname_unique leftName rightName (by omega)
    · exact (lastname_unique rightName leftName (by omega)).symm
  subst sameNum
  rw [NameKey.mk.injEq]
  exact ⟨rfl, by omega, by omega⟩

theorem custNPKey_lt {key : NameKey} (valid : key.Valid 1) :
    custNPKey (lastname key.num) key.cDId key.cWId < 2 ^ 39 := by
  rcases valid with ⟨name, district, warehouse⟩
  have small := foldName_lastname name
  simp only [custNPKey, distPerWare] at *
  omega

/-- The space for a customer number below the other parts of a key. -/
theorem pow2roundup_bounds (tpccSmall : Bool) : gCustPerDist tpccSmall ≤
        pow2roundup ((gCustPerDist tpccSmall + 1) % 2 ^ 32) ∧
      pow2roundup ((gCustPerDist tpccSmall + 1) % 2 ^ 32) ≤ 2 ^ 12 := by
  cases tpccSmall <;> decide +kernel

/-- The keys by name identify customers exactly for one warehouse. -/
theorem nameKeys_distinct_iff (tpccSmall : Bool) (numWh : Nat) :
    NameKeysDistinct tpccSmall numWh ↔ numWh ≤ 1 := by
  constructor
  · intro distinct
    by_contra more
    have two : 1 < numWh := Nat.lt_of_not_le more
    have collision := (distinct ⟨39, 7, 2⟩ ⟨43, 1, 1⟩
      ⟨by decide, by decide, by decide, two⟩
      ⟨by decide, by decide, by decide, Nat.le_of_lt two⟩).1
      (by decide +kernel)
    exact absurd collision.2.2 (by decide)
  · intro single left right isLeft isRight
    have leftOne : left.Valid 1 :=
      ⟨isLeft.1, isLeft.2.1, isLeft.2.2.1, Nat.le_trans isLeft.2.2.2 single⟩
    have rightOne : right.Valid 1 :=
      ⟨isRight.1, isRight.2.1, isRight.2.2.1, Nat.le_trans isRight.2.2.2 single⟩
    constructor
    · intro same
      cases custNPKey_unique leftOne rightOne same
      exact ⟨rfl, rfl, rfl⟩
    · intro leftId rightId leftFirst leftLast rightFirst rightLast same
      rcases pow2roundup_bounds tpccSmall with ⟨space, bound⟩
      unfold custNPKeyOrderedByCid at same
      generalize pow2roundup ((gCustPerDist tpccSmall + 1) % 2 ^ 32) = radix
        at same space bound
      have leftKey := Nat.mul_le_mul (Nat.le_of_lt (custNPKey_lt leftOne)) bound
      have rightKey :=
        Nat.mul_le_mul (Nat.le_of_lt (custNPKey_lt rightOne)) bound
      rw [Nat.mod_eq_of_lt (by omega), Nat.mod_eq_of_lt (by omega),
        Nat.mod_eq_of_lt (by omega), Nat.mod_eq_of_lt (by omega)] at same
      rcases digits_unique ⟨leftFirst, Nat.le_trans leftLast space⟩
        ⟨rightFirst, Nat.le_trans rightLast space⟩ same with
        ⟨sameKey, sameId⟩
      cases custNPKey_unique leftOne rightOne sameKey
      exact ⟨rfl, sameId, rfl, rfl⟩

/-- Two customers of two warehouses share a key. -/
theorem nameKeys_collide : ¬ NameKeysDistinct false 2 := by
  intro distinct
  have collision := (distinct ⟨39, 7, 2⟩ ⟨43, 1, 1⟩
    ⟨by decide, by decide, by decide, by decide⟩
    ⟨by decide, by decide, by decide, by decide⟩).1 (by decide +kernel)
  exact absurd collision.2.2 (by decide)

end Lockfreec.Bench.TpccKeys
