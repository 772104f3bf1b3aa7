import Lockfreec.Bench.RowMvccOrder
import Mathlib.Data.List.MinMax

/-!
# The version that a read of the row is handed

A read at or below the latest version scans the unordered history for the
largest timestamp below its own, with a running maximum of 32 bits.  It is
handed the right row object exactly when no later entry lies between the
truncated timestamp of the right version and the read.
-/

namespace Lockfreec.Bench

open Function Lib.Interleaving

variable {Txn : Type}

/-- How often a row object is the base row or the row of an entry. -/
def RowMvcc.places (mvcc : RowMvcc Txn) (row : Nat) : Nat :=
  (mvcc.row :: mvcc.writeHistory.map WriteHisEntry.row).count row

/-- The entry of the newest version below `bound`. -/
structure Newest (entries : List WriteHisEntry) (bound : Nat)
    (entry : WriteHisEntry) : Prop where
  member : entry ∈ entries
  valid : entry.valid = true
  below : entry.ts < bound
  most : ∀ other ∈ entries, other.valid = true → other.ts < bound →
    other.ts ≤ entry.ts

/-- The row object of the newest version below `bound`, else the base row. -/
def RowMvcc.RightRow (mvcc : RowMvcc Txn) (bound row : Nat) : Prop :=
  (∃ entry, Newest mvcc.writeHistory bound entry ∧ row = entry.row) ∨
    (∀ entry ∈ mvcc.writeHistory, entry.valid = true → bound ≤ entry.ts) ∧
      row = mvcc.row

/-- Behind the newest version below `bound` there is none between its
truncated timestamp and `bound`. -/
def RowMvcc.Untruncated (mvcc : RowMvcc Txn) (bound : Nat) : Prop :=
  ∀ front entry back, mvcc.writeHistory = front ++ entry :: back →
    Newest mvcc.writeHistory bound entry → ∀ later ∈ back,
      later.valid = true → later.ts < bound → later.ts ≤ entry.ts % 2 ^ 32

/-- The versions have row objects and distinct positive timestamps. -/
structure VersionsOk (mvcc : RowMvcc Txn) : Prop where
  rows : ∀ entry ∈ mvcc.writeHistory, entry.valid = true → entry.row ≠ 0
  window : ∀ entry ∈ mvcc.writeHistory, entry.valid = true →
    0 < entry.ts ∧ entry.ts ≤ mvcc.latestWts
  distinct : mvcc.writeHistory.Pairwise fun left right =>
    left.valid = true → right.valid = true → left.ts ≠ right.ts

theorem HistoryOk.versionsOk {mvcc : RowMvcc Txn} {oldest count : Nat}
    {entries : List WriteHisEntry}
    (ok : HistoryOk mvcc.row oldest mvcc.latestWts count entries)
    (same : (mvcc.writeHistory.filter WriteHisEntry.valid).Perm
      (entries.filter WriteHisEntry.valid)) : VersionsOk mvcc := by
  have members : ∀ entry ∈ mvcc.writeHistory, entry.valid = true →
      entry ∈ entries := by
    intro entry mem valid
    exact (List.mem_filter.1 (same.mem_iff.1
      (List.mem_filter.2 ⟨mem, valid⟩))).1
  constructor
  · intro entry mem valid
    exact ok.rows entry (members entry mem valid) valid
  · intro entry mem valid
    have inside := ok.window entry (members entry mem valid) valid
    omega
  · rw [← List.pairwise_filter]
    exact same.symm.pairwise (List.pairwise_filter.2 ok.distinct) Ne.symm

theorem MvccInv.versionsOk {ts : Txn → Nat} {mvcc : RowMvcc Txn}
    {history : List (MvccEvent Txn)} {threads : Txn → MvccPc}
    (inv : MvccInv ts history mvcc threads) : VersionsOk mvcc := by
  rcases inv.state with ⟨-, -, ok⟩ |
    ⟨-, -, ⟨-, -, front, entry, back, split, -, -, invalid, -, ok⟩, -⟩
  · exact ok.versionsOk (.refl _)
  · refine ok.versionsOk (.of_eq ?_)
    simp [split, invalid]

section

variable {mvcc : RowMvcc Txn} {front back : List WriteHisEntry}
  {entry : WriteHisEntry} {bound : Nat} (ok : VersionsOk mvcc)

include ok

theorem versionBelow_split (split : mvcc.writeHistory = front ++ entry :: back)
    (newest : Newest mvcc.writeHistory bound entry) :
    (∀ later ∈ back, later.valid = true → later.ts < bound →
        later.ts ≤ entry.ts % 2 ^ 32) ∧
      mvcc.versionBelow bound = entry.row ∨
    (∃ later ∈ back, later.valid = true ∧ later.ts < bound ∧
        entry.ts % 2 ^ 32 < later.ts) ∧
      ∃ found ∈ back, mvcc.versionBelow bound = found.row := by
  have older : ∀ each ∈ front, each.valid = true → each.ts < bound →
      each.ts < entry.ts := by
    intro each mem valid below
    have distinct := ok.distinct
    rw [split] at distinct
    have different := (List.pairwise_append.1 distinct).2.2 each mem entry
      (.head _) valid newest.valid
    have most := newest.most each (by simp [split, mem]) valid below
    omega
  have higher := (ok.window entry newest.member newest.valid).1
  have reached := newestBelow_reaches 32 back newest.valid newest.below older
    0 higher (front ++ entry :: back).length
  rw [Nat.zero_add] at reached
  simp only [RowMvcc.versionBelow, split, reached]
  rcases newestBelow_found 32 bound (front.length + 1) (entry.ts % 2 ^ 32)
    front.length with ⟨most, same⟩ | ⟨more, j, found, at_, -, -, result⟩
  · refine .inl ⟨most, ?_⟩
    simp only [same, getElem?_split]
  · refine .inr ⟨more, found, List.mem_of_getElem? at_, ?_⟩
    have index : (front ++ entry :: back)[front.length + 1 + j]? =
        some found := by
      rw [List.getElem?_append_right (by omega), ← at_,
        show front.length + 1 + j - front.length = j + 1 by omega]
      rfl
    simp only [result, index]

omit ok in
theorem exists_newest (some : ∃ entry ∈ mvcc.writeHistory,
    entry.valid = true ∧ entry.ts < bound) :
    ∃ entry, Newest mvcc.writeHistory bound entry := by
  let versions := mvcc.writeHistory.filter fun entry =>
    entry.valid ∧ entry.ts < bound
  cases found : versions.argmax WriteHisEntry.ts with
  | none =>
    obtain ⟨entry, member, valid, below⟩ := some
    have empty : versions = [] := List.argmax_eq_none.1 found
    have inside : entry ∈ versions := by simp [versions, member, valid, below]
    rw [empty] at inside
    cases inside
  | some entry =>
    have member := List.argmax_mem found
    simp only [versions, List.mem_filter, decide_eq_true_eq] at member
    refine ⟨entry, member.1, member.2.1, member.2.2, ?_⟩
    intro other isOther valid below
    exact List.le_of_mem_argmax (by simp [versions, isOther, valid, below]) found

theorem versionBelow_rightRow_iff
    (apart : ∀ row, row ≠ 0 → mvcc.places row ≤ 1) :
    mvcc.RightRow bound (mvcc.versionBelow bound) ↔ mvcc.Untruncated bound := by
  constructor
  · intro right front entry back split newest
    rcases versionBelow_split ok split newest with
      ⟨most, -⟩ | ⟨-, found, member, handed⟩
    · exact most
    rw [handed] at right
    rcases right with ⟨other, isNewest, same⟩ | ⟨none, -⟩
    · have sameTs : other.ts = entry.ts := Nat.le_antisymm
        (newest.most other isNewest.member isNewest.valid isNewest.below)
        (isNewest.most entry newest.member newest.valid newest.below)
      have isEntry : other = entry := by
        have member := isNewest.member
        have apartTs := ok.distinct
        rw [split] at member apartTs
        obtain ⟨-, behind, across⟩ := List.pairwise_append.1 apartTs
        rcases List.mem_append.1 member with inFront | isEntry | inBack
        · exact absurd sameTs (across other inFront entry (.head _)
            isNewest.valid newest.valid)
        · rfl
        · exact absurd sameTs.symm (List.rel_of_pairwise_cons behind ‹_›
            newest.valid isNewest.valid)
      have once := apart entry.row (ok.rows entry newest.member newest.valid)
      have twice : 0 < (back.map WriteHisEntry.row).count entry.row := by
        rw [List.count_pos_iff, ← isEntry, ← same]
        exact List.mem_map_of_mem member
      simp only [RowMvcc.places, split, List.map_append, List.map_cons,
        List.count_cons, List.count_append, beq_self_eq_true, if_true] at once
      omega
    · have := none entry newest.member newest.valid
      have := newest.below
      omega
  · intro untruncated
    by_cases some : ∃ entry ∈ mvcc.writeHistory,
        entry.valid = true ∧ entry.ts < bound
    · obtain ⟨entry, newest⟩ := exists_newest some
      obtain ⟨front, back, split⟩ := List.append_of_mem newest.member
      rcases versionBelow_split ok split newest with
        ⟨-, same⟩ | ⟨⟨later, member, valid, below, above⟩, -⟩
      · exact .inl ⟨entry, newest, same⟩
      · have := untruncated front entry back split newest later member valid
          below
        omega
    · refine .inr ⟨?_, ?_⟩
      · intro entry member valid
        by_contra below
        exact some ⟨entry, member, valid, by omega⟩
      · rcases @newestBelow_found mvcc.writeHistory 32 bound 0 0
          mvcc.writeHistory.length with ⟨-, same⟩ | ⟨⟨entry, member, valid, below, -⟩, -⟩
        · simp [RowMvcc.versionBelow, same]
        · exact absurd ⟨entry, member, valid, below⟩ some

end

/-! ## Reads -/

/--
In every state that transactions with distinct timestamps of 64 bits reach, a
read from the oldest to the latest version is handed the row object of the
newest version below it exactly when no version further down the history lies
between the truncated timestamp of that version and the read.  The allocator
has not handed out a row object twice.
-/
theorem read_rightRow_iff [DecidableEq Txn] (settings : MvccSettings)
    {ts : Txn → Nat} (distinct : Injective ts) (positive : ∀ txn, 0 < ts txn)
    (bounded : ∀ txn, ts txn < 2 ^ 64) {row : Nat} (object : row ≠ 0)
    {requester : Txn} {curRow : Txn → Nat} {tsReady : Txn → Bool}
    {history : List (MvccEvent Txn)} {config : Config Txn (RowMvcc Txn) MvccPc}
    (run : (mvccMachine settings ts).Run
      (mvccStart row requester curRow tsReady) history config)
    (apart : ∀ row, row ≠ 0 → config.shared.places row ≤ 1) {stamp : Nat}
    (oldest : config.shared.oldestWts ≤ stamp)
    (latest : stamp ≤ config.shared.latestWts) (reader : Txn) :
    (∃ result, config.shared.read stamp reader = some result ∧
      config.shared.RightRow stamp (result.mvcc.curRow reader)) ↔
        config.shared.Untruncated stamp := by
  have inv := MvccInv.of_run distinct positive bounded object run
  rw [← versionBelow_rightRow_iff inv.versionsOk apart, RowMvcc.read,
    if_neg (by omega), if_neg (by omega)]
  simp [RowMvcc.serve]

/-- The timestamps of three writers. -/
def farStamps (txn : Fin 3) : Nat :=
  if txn = 0 then 10 else 2 ^ (31 + txn.val)

theorem farStamps_run : ∃ config, (mvccMachine ⟨false, 4⟩ farStamps).Run
        (mvccStart 1 0 (fun _ => 0) (fun _ => false))
        [.committed 0, .committed 1, .committed 2] config ∧
      config.shared.writeHistory = [⟨false, false, 0, 0⟩,
        ⟨true, true, 2 ^ 33, 4⟩, ⟨true, true, 2 ^ 32, 3⟩,
        ⟨true, true, 10, 2⟩] ∧
      config.shared.row = 1 ∧ config.shared.oldestWts = 0 ∧
      config.shared.latestWts = 2 ^ 33 := by
  have executed : ((mvccMachine ⟨false, 4⟩ farStamps).execute
      (mvccStart 1 0 (fun _ => 0) (fun _ => false))
      [(0, ⟨.pReq, 0, 2⟩), (0, ⟨.wReq, 0, 9⟩), (1, ⟨.pReq, 0, 3⟩),
        (1, ⟨.wReq, 0, 9⟩), (2, ⟨.pReq, 0, 4⟩), (2, ⟨.wReq, 0, 9⟩)]).map
      (fun result => (result.2, result.1.shared.writeHistory,
        result.1.shared.row, result.1.shared.oldestWts,
        result.1.shared.latestWts)) =
      some ([.committed 0, .committed 1, .committed 2],
        [⟨false, false, 0, 0⟩, ⟨true, true, 2 ^ 33, 4⟩,
          ⟨true, true, 2 ^ 32, 3⟩, ⟨true, true, 10, 2⟩], 1, 0, 2 ^ 33) := by
    decide +kernel
  obtain ⟨⟨config, history⟩, ran, same⟩ := Option.map_eq_some_iff.1 executed
  simp only [Prod.mk.injEq] at same
  obtain ⟨rfl, rest⟩ := same
  exact ⟨config, Machine.run_of_execute ran, rest⟩

/-- The read behind the first version is handed that version. -/
theorem read_rightRow_iff_first :
    ∃ config : Config (Fin 3) (RowMvcc (Fin 3)) MvccPc,
    config.shared.oldestWts ≤ 11 ∧ 11 ≤ config.shared.latestWts ∧
      ((∃ result, config.shared.read 11 0 = some result ∧
        config.shared.RightRow 11 (result.mvcc.curRow 0)) ↔
          config.shared.Untruncated 11) := by
  obtain ⟨config, run, entries, base, oldest, latest⟩ := farStamps_run
  have distinct : ∀ left right, farStamps left = farStamps right →
      left = right := by decide +kernel
  have apart : ∀ row, row ≠ 0 → config.shared.places row ≤ 1 := by
    intro row _
    rw [RowMvcc.places, entries, base]
    simp only [List.map_cons, List.map_nil]
    exact List.nodup_iff_count_le_one.1 (by decide) row
  refine ⟨config, by omega, by omega, ?_⟩
  exact read_rightRow_iff ⟨false, 4⟩ distinct (by decide +kernel)
    (by decide +kernel) Nat.one_ne_zero run apart (by omega) (by omega) 0

/--
A read between the versions of timestamps 2 ^ 32 and 2 ^ 33 is handed the
version of timestamp 10: the running maximum is 0 after the right entry.
-/
theorem read_hands_old_version : ∃ config,
    (mvccMachine ⟨false, 4⟩ farStamps).Run
        (mvccStart 1 0 (fun _ => 0) (fun _ => false))
        [.committed 0, .committed 1, .committed 2] config ∧
      config.shared.oldestWts ≤ 2 ^ 32 + 1 ∧
      2 ^ 32 + 1 ≤ config.shared.latestWts ∧
      config.shared.versionBelow (2 ^ 32 + 1) = 2 ∧
      Newest config.shared.writeHistory (2 ^ 32 + 1) ⟨true, true, 2 ^ 32, 3⟩ ∧
      ¬ config.shared.RightRow (2 ^ 32 + 1)
        (config.shared.versionBelow (2 ^ 32 + 1)) := by
  obtain ⟨config, run, entries, base, oldest, latest⟩ := farStamps_run
  have handed : config.shared.versionBelow (2 ^ 32 + 1) = 2 := by
    rw [RowMvcc.versionBelow, entries]
    rfl
  have newest : Newest config.shared.writeHistory (2 ^ 32 + 1)
      ⟨true, true, 2 ^ 32, 3⟩ := by
    rw [entries]
    exact ⟨by simp, rfl, by decide, by decide +kernel⟩
  refine ⟨config, run, by omega, by omega, handed, newest, ?_⟩
  rw [handed]
  rintro (⟨entry, isNewest, same⟩ | ⟨-, same⟩)
  · have most := isNewest.most _ newest.member rfl newest.below
    have member := isNewest.member
    rw [entries] at member
    simp only [List.mem_cons, List.not_mem_nil, or_false] at member
    rcases member with rfl | rfl | rfl | rfl <;> simp at same most
  · rw [base] at same
    cases same

end Lockfreec.Bench
