import Lockfreec.Bench.Tictoc
import Mathlib.Algebra.Group.Nat.Defs

/-!
# The timestamp word of TicToc

`_ts_word` packs the lock, the lease and the version of a row into 64 bits.
The functions of `Row_tictoc` on the word are the functions on its parts.
-/

namespace Lockfreec.Bench.TictocWord

/-- `LOCK_BIT`. -/
def lockBit : BitVec 64 :=
  1#64 <<< 63

/-- `WTS_LEN`. -/
def wtsLen : Nat :=
  63 - rtsLen

/-- `WTS_MASK`. -/
def wtsMask : BitVec 64 :=
  (1#64 <<< wtsLen) - 1#64

/-- `RTS_MASK`. -/
def rtsMask : BitVec 64 :=
  ((1#64 <<< rtsLen) - 1#64) <<< wtsLen

def getWts (tsWord : BitVec 64) : BitVec 64 :=
  tsWord &&& wtsMask

/-- The distance from `wts` to `rts`. -/
def getDelta (tsWord : BitVec 64) : BitVec 64 :=
  (tsWord &&& rtsMask) >>> wtsLen

def getRts (tsWord : BitVec 64) : BitVec 64 :=
  getDelta tsWord + getWts tsWord

/-- The `lock` of `get_ts_word`. -/
def getLock (tsWord : BitVec 64) : Bool :=
  tsWord &&& lockBit != 0#64

/-- `1 << RTS_LEN`, an `int`. -/
def leaseBound : BitVec 32 :=
  1#32 <<< rtsLen

/-- `v2` of `try_renew`, for a `wts` that may have been moved. -/
def renewed (wts deltaRts : BitVec 64) : BitVec 64 :=
  0#64 ||| wts ||| deltaRts <<< wtsLen

/-- `try_renew`, without interference: its compare-and-swap finds the word
that was loaded. -/
def tryRenew (wts rts tsWord : BitVec 64) : Bool × BitVec 64 :=
  if getWts tsWord = wts ∧ getDelta tsWord ≥ rts - wts then (true, tsWord)
  else if getLock tsWord then (false, tsWord)
  else if wts ≠ getWts tsWord then (false, tsWord)
  else
    let deltaRts := rts - wts
    if deltaRts < getDelta tsWord then (true, tsWord)
    else if deltaRts ≥ leaseBound.signExtend 64 then
      -- the `int` masks are sign-extended
      let delta := deltaRts &&& (~~~(leaseBound - 1#32)).signExtend 64
      (true, renewed (wts + delta)
        (deltaRts &&& (leaseBound - 1#32).signExtend 64))
    else (true, renewed wts deltaRts)

/-- `write_data`. -/
def writeData (tsWord wts : BitVec 64) : BitVec 64 :=
  tsWord &&& ~~~(rtsMask ||| wtsMask) ||| wts

/-! ## The parts of a word -/

/-- The parts that `Row_tictoc` reads from the word. -/
def unpack (tsWord : BitVec 64) : TsWord :=
  ⟨getLock tsWord, (getDelta tsWord).toNat, (getWts tsWord).toNat⟩

theorem getWts_toNat (tsWord : BitVec 64) :
    (getWts tsWord).toNat = tsWord.toNat % 2 ^ 48 := by
  have mask : wtsMask.toNat = 2 ^ 48 - 1 := by decide
  rw [getWts, BitVec.toNat_and, mask, Nat.and_two_pow_sub_one_eq_mod]

theorem getDelta_toNat (tsWord : BitVec 64) :
    (getDelta tsWord).toNat = tsWord.toNat / 2 ^ 48 % 2 ^ 15 := by
  have mask : (rtsMask >>> wtsLen).toNat = 2 ^ 15 - 1 := by decide
  rw [getDelta, BitVec.ushiftRight_and_distrib, BitVec.toNat_and, mask,
    Nat.and_two_pow_sub_one_eq_mod, BitVec.toNat_ushiftRight,
    Nat.shiftRight_eq_div_pow]
  rfl

theorem getLock_eq (tsWord : BitVec 64) :
    getLock tsWord = decide (2 ^ 63 ≤ tsWord.toNat) := by
  have mask : lockBit = BitVec.twoPow 64 63 := by decide
  have isMsb : tsWord.getLsbD 63 = decide (2 ^ 63 ≤ tsWord.toNat) :=
    BitVec.msb_eq_decide tsWord
  rw [getLock, mask, BitVec.and_twoPow, isMsb]
  by_cases high : 2 ^ 63 ≤ tsWord.toNat
  · rw [decide_eq_true high]
    rfl
  · rw [decide_eq_false high]
    rfl

theorem getRts_toNat (tsWord : BitVec 64) :
    (getRts tsWord).toNat = (unpack tsWord).lease := by
  have delta := getDelta_toNat tsWord
  have version := getWts_toNat tsWord
  rw [getRts, BitVec.toNat_add, TsWord.lease, unpack]
  apply Nat.mod_eq_of_lt
  omega

/-- Packing a lease that fits loses nothing. -/
theorem unpack_renewed {wts deltaRts : BitVec 64} (version : wts.toNat < 2 ^ 48)
    (lease : deltaRts.toNat < 2 ^ 15) :
    unpack (renewed wts deltaRts) = ⟨false, deltaRts.toNat, wts.toNat⟩ := by
  have shifted : (deltaRts <<< wtsLen).toNat = deltaRts.toNat <<< 48 := by
    rw [BitVec.toNat_shiftLeft]
    apply Nat.mod_eq_of_lt
    rw [Nat.shiftLeft_eq]
    simp only [wtsLen, rtsLen]
    omega
  have packed : (renewed wts deltaRts).toNat =
      deltaRts.toNat * 2 ^ 48 + wts.toNat := by
    rw [renewed, BitVec.zero_or, BitVec.or_comm, BitVec.toNat_or, shifted,
      ← Nat.shiftLeft_add_eq_or_of_lt version, Nat.shiftLeft_eq]
  rw [unpack, getLock_eq, getDelta_toNat, getWts_toNat, packed, TsWord.mk.injEq]
  refine ⟨decide_eq_false ?_, ?_, ?_⟩ <;> omega

/-- `write_data` keeps the lock and stores a version without a lease. -/
theorem unpack_writeData (tsWord : BitVec 64) {wts : BitVec 64}
    (version : wts.toNat < 2 ^ 48) :
    unpack (writeData tsWord wts) = ⟨getLock tsWord, 0, wts.toNat⟩ := by
  have mask : ~~~(rtsMask ||| wtsMask) = BitVec.allOnes 64 <<< 63 := by decide
  have shifted : (tsWord >>> 63 <<< 63).toNat =
      (tsWord.toNat / 2 ^ 63) <<< 63 := by
    rw [BitVec.toNat_shiftLeft, BitVec.toNat_ushiftRight,
      Nat.shiftRight_eq_div_pow]
    apply Nat.mod_eq_of_lt
    rw [Nat.shiftLeft_eq]
    omega
  have written : (writeData tsWord wts).toNat =
      tsWord.toNat / 2 ^ 63 * 2 ^ 63 + wts.toNat := by
    rw [writeData, mask, ← BitVec.shiftLeft_ushiftRight, BitVec.toNat_or,
      shifted, ← Nat.shiftLeft_add_eq_or_of_lt (by omega), Nat.shiftLeft_eq]
  rw [unpack, getLock_eq, getDelta_toNat, getWts_toNat, written, getLock_eq,
    TsWord.mk.injEq]
  refine ⟨decide_eq_decide.2 ?_, ?_, ?_⟩ <;> omega

/-! ## The refinement -/

/-- What a renewal without interference leaves behind. -/
def Renewal.result (v : TsWord) : Renewal → Bool × TsWord
  | .done success => (success, v)
  | .swap v2 _ => (true, v2)

theorem rebase_toNat (deltaRts : BitVec 64) :
    (deltaRts &&& (leaseBound - 1#32).signExtend 64).toNat =
        deltaRts.toNat % 2 ^ 15 ∧
      (deltaRts &&& (~~~(leaseBound - 1#32)).signExtend 64).toNat =
        deltaRts.toNat - deltaRts.toNat % 2 ^ 15 := by
  have low : ((leaseBound - 1#32).signExtend 64).toNat = 2 ^ 15 - 1 := by
    decide
  have high : (~~~(leaseBound - 1#32)).signExtend 64 =
      BitVec.allOnes 64 <<< 15 := by decide
  constructor
  · rw [BitVec.toNat_and, low, Nat.and_two_pow_sub_one_eq_mod]
  · rw [high, ← BitVec.shiftLeft_ushiftRight, BitVec.toNat_shiftLeft,
      BitVec.toNat_ushiftRight, Nat.shiftLeft_eq, Nat.shiftRight_eq_div_pow]
    omega

/-- `try_renew` on the word is `try_renew` on its parts. -/
theorem tryRenew_unpack {wts rts : BitVec 64} (order : wts ≤ rts)
    (small : rts.toNat < 2 ^ 48) (tsWord : BitVec 64) :
    ((tryRenew wts rts tsWord).1, unpack (tryRenew wts rts tsWord).2) =
      Renewal.result (unpack tsWord)
        (startRenew wts.toNat rts.toNat (unpack tsWord)) := by
  have below : wts.toNat ≤ rts.toNat := order
  have lease : (rts - wts).toNat = rts.toNat - wts.toNat :=
    BitVec.toNat_sub_of_le order
  have bound : (leaseBound.signExtend 64).toNat = 2 ^ rtsLen := by decide
  have parts : (unpack tsWord).wts = wts.toNat ↔ getWts tsWord = wts :=
    BitVec.toNat_inj
  have lock : (unpack tsWord).locked = getLock tsWord := rfl
  have delta : (unpack tsWord).rts = (getDelta tsWord).toNat := rfl
  simp only [tryRenew, startRenew, ge_iff_le, BitVec.le_def, BitVec.lt_def,
    lease, bound, parts, lock, delta, ne_eq, eq_comm (a := wts.toNat),
    eq_comm (a := wts)]
  split
  · rfl
  split
  · rfl
  split
  · rfl
  split
  · rfl
  split
  · next long =>
      rcases rebase_toNat (rts - wts) with ⟨low, high⟩
      have moved : (wts + (rts - wts &&&
          (~~~(leaseBound - 1#32)).signExtend 64)).toNat = wts.toNat +
            (rts.toNat - wts.toNat - (rts.toNat - wts.toNat) % 2 ^ 15) := by
        rw [BitVec.toNat_add, high, lease]
        omega
      rw [unpack_renewed (by rw [moved]; omega) (by rw [low]; omega), low,
        moved, lease]
      rfl
  · next short =>
      simp only [rtsLen] at short
      rw [unpack_renewed (by omega) (by omega), lease]
      rfl

theorem renewal_lease {wts rts : Nat} (order : wts ≤ rts) {v after : TsWord}
    (fits : v.rts < 2 ^ 15)
    (renewal : Renewal.result v (startRenew wts rts v) = (true, after)) :
    rts ≤ after.lease ∧ (rts - wts < 2 ^ 15 → after.wts = v.wts) ∧
      (2 ^ 15 ≤ rts - wts → wts ≤ after.wts ∧ after.wts ≤ rts ∧
        after.lease = rts) ∧
      v.lease ≤ after.lease ∧ after.locked = v.locked := by
  unfold startRenew at renewal
  simp only [TsWord.lease]
  split at renewal
  · next extended =>
      cases renewal
      refine ⟨?_, fun _ => rfl, ?_, le_refl _, rfl⟩ <;> omega
  split at renewal
  · cases renewal
  next unlocked =>
  split at renewal
  · cases renewal
  dsimp only at renewal
  split at renewal
  · omega
  have bound : 2 ^ rtsLen = 2 ^ 15 := rfl
  split at renewal
  all_goals
    cases renewal
    simp only [bound] at *
    refine ⟨?_, ?_, ?_, ?_, by simp [unlocked]⟩ <;> omega

/--
Without interference, a renewal that succeeds extends the lease at least to
`rts` and moves the version only to make room for it, one that fails changes
nothing, and `write_data` stores its timestamp; neither touches the lock.
-/
theorem word_packing_lossless (wts rts t tsWord : BitVec 64) (order : wts ≤ rts)
    (small : rts.toNat < 2 ^ 48) (stamp : t.toNat < 2 ^ 48) :
    (∀ after, tryRenew wts rts tsWord = (true, after) → rts ≤ getRts after ∧
      ((rts - wts).toNat < 2 ^ 15 → getWts after = getWts tsWord) ∧
      ((rts - wts).toNat ≥ 2 ^ 15 → wts ≤ getWts after ∧
        getWts after ≤ rts ∧ getRts after = rts) ∧
      getRts tsWord ≤ getRts after ∧ getLock after = getLock tsWord) ∧
    (∀ after, tryRenew wts rts tsWord = (false, after) → after = tsWord) ∧
    getWts (writeData tsWord t) = t ∧ getRts (writeData tsWord t) = t ∧
      getLock (writeData tsWord t) = getLock tsWord := by
  refine ⟨?_, ?_, ?_⟩
  · intro after success
    have refined := tryRenew_unpack order small tsWord
    rw [success] at refined
    have fits : (unpack tsWord).rts < 2 ^ 15 :=
      (getDelta_toNat tsWord).trans_lt (Nat.mod_lt _ (by decide))
    have lease : (rts - wts).toNat = rts.toNat - wts.toNat :=
      BitVec.toNat_sub_of_le order
    rw [lease]
    simp only [BitVec.le_def, ← BitVec.toNat_inj, getRts_toNat]
    exact renewal_lease order fits refined.symm
  · intro after failure
    unfold tryRenew at failure
    split at failure
    · cases failure
    split at failure
    · cases failure
      rfl
    split at failure
    · cases failure
      rfl
    dsimp only at failure
    split at failure
    · cases failure
    split at failure <;> cases failure
  · have written := unpack_writeData tsWord stamp
    simp only [← BitVec.toNat_inj, getRts_toNat, written]
    exact ⟨congrArg TsWord.wts written, Nat.zero_add _,
      congrArg TsWord.locked written⟩

theorem word_packing_lossless_rebase :
    tryRenew 5#64 40000#64 5#64 = (true, renewed 32773#64 7227#64) ∧
      getRts (renewed 32773#64 7227#64) = 40000#64 ∧
      getWts (writeData 5#64 9#64) = 9#64 := by
  have lossless := word_packing_lossless 5#64 40000#64 9#64 5#64 (by decide)
    (by decide) (by decide)
  have renewal : tryRenew 5#64 40000#64 5#64 =
      (true, renewed 32773#64 7227#64) := by
    decide
  exact ⟨renewal, ((lossless.1 _ renewal).2.2.1 (by decide)).2.2,
    lossless.2.2.1⟩

end Lockfreec.Bench.TictocWord
