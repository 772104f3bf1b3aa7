import Lockfreec.Bench.RowMvcc
import Mathlib.Data.List.Pairwise
import Mathlib.Data.List.Perm.Basic

/-!
# The write history of a multi-version row

`HistoryOk` says what the entries of the history are worth: the valid ones
are versions with distinct timestamps above the one that `_row` stands for,
they have row objects, and the others are not reserved.  It does not depend on
the order of the entries, so every update of one entry is an update of the
head of the list.

A row is `Settled` without a prewrite and `Reserved` with one, when the
history without the entry of the prewrite is in order.  `reserveRow` takes a
settled row to a reserved one, whichever way it finds an entry, and none of
its assertions fails.
-/

namespace Lockfreec.Bench

variable {Txn : Type}

/-- The entries, apart from that of a prewrite, under the fields of the row. -/
structure HistoryOk (row oldestWts latestWts numVersions : Nat)
    (entries : List WriteHisEntry) : Prop where
  base : row ≠ 0
  ordered : oldestWts ≤ latestWts
  bounded : latestWts < 2 ^ 64
  count : numVersions = entries.countP WriteHisEntry.valid
  window : ∀ entry ∈ entries, entry.valid = true →
    oldestWts < entry.ts ∧ entry.ts ≤ latestWts
  rows : ∀ entry ∈ entries, entry.valid = true → entry.row ≠ 0
  distinct : entries.Pairwise fun left right =>
    left.valid = true → right.valid = true → left.ts ≠ right.ts
  newest : oldestWts < latestWts →
    ∃ entry ∈ entries, entry.valid = true ∧ entry.ts = latestWts
  unreserved : ∀ entry ∈ entries, entry.valid = false → entry.reserved = false

section

variable {row oldestWts latestWts numVersions ts : Nat} {entry : WriteHisEntry}
  {entries other : List WriteHisEntry}

section

variable (ok : HistoryOk row oldestWts latestWts numVersions entries)

include ok

theorem HistoryOk.perm (same : entries.Perm other) :
    HistoryOk row oldestWts latestWts numVersions other where
  base := ok.base
  ordered := ok.ordered
  bounded := ok.bounded
  count := by rw [ok.count, same.countP_eq]
  window := fun entry mem => ok.window entry (same.mem_iff.2 mem)
  rows := fun entry mem => ok.rows entry (same.mem_iff.2 mem)
  distinct := by
    refine same.pairwise ok.distinct ?_
    intro left right ne validRight validLeft
    exact (ne validLeft validRight).symm
  newest := by
    intro later
    obtain ⟨entry, mem, latest⟩ := ok.newest later
    exact ⟨entry, same.mem_iff.1 mem, latest⟩
  unreserved := fun entry mem => ok.unreserved entry (same.mem_iff.2 mem)

omit ok in
theorem historyOk_unused (invalid : entry.valid = false)
    (free : entry.reserved = false) :
    HistoryOk row oldestWts latestWts numVersions (entry :: entries) ↔
      HistoryOk row oldestWts latestWts numVersions entries := by
  constructor
  · intro ok
    exact {
      base := ok.base
      ordered := ok.ordered
      bounded := ok.bounded
      count := by simpa [invalid] using ok.count
      window := fun each mem => ok.window each (.tail _ mem)
      rows := fun each mem => ok.rows each (.tail _ mem)
      distinct := ok.distinct.of_cons
      newest := by simpa [invalid] using ok.newest
      unreserved := fun each mem => ok.unreserved each (.tail _ mem) }
  · intro ok
    exact {
      base := ok.base
      ordered := ok.ordered
      bounded := ok.bounded
      count := by simpa [invalid] using ok.count
      window := by simpa [invalid] using ok.window
      rows := by simpa [invalid] using ok.rows
      distinct := by simpa [invalid] using ok.distinct
      newest := by simpa [invalid] using ok.newest
      unreserved := by simpa [free] using ok.unreserved }

theorem historyOk_replicate (count : Nat) :
    HistoryOk row oldestWts latestWts numVersions
      (List.replicate count ⟨false, false, 0, 0⟩ ++ entries) := by
  induction count with
  | zero => exact ok
  | succ count ih => exact (historyOk_unused rfl rfl).2 ih

/-- A prewrite above the latest version becomes the latest version. -/
theorem HistoryOk.install (valid : entry.valid = true) (object : entry.row ≠ 0)
    (stamp : entry.ts = ts) (later : latestWts < ts) (bounded : ts < 2 ^ 64) :
    HistoryOk row oldestWts ts (numVersions + 1) (entry :: entries) where
  base := ok.base
  ordered := by
    have := ok.ordered
    omega
  bounded := bounded
  count := by rw [List.countP_cons_of_pos valid, ok.count]
  window := by
    have ordered := ok.ordered
    intro each mem isValid
    cases mem with
    | head => omega
    | tail _ mem =>
      have := ok.window each mem isValid
      omega
  rows := by
    intro each mem isValid
    cases mem with
    | head => exact object
    | tail _ mem => exact ok.rows each mem isValid
  distinct := by
    refine List.pairwise_cons.2 ⟨?_, ok.distinct⟩
    intro each mem _ isValid
    have := ok.window each mem isValid
    omega
  newest := fun _ => ⟨entry, .head _, valid, stamp⟩
  unreserved := by
    intro each mem invalid
    cases mem with
    | head => simp [valid] at invalid
    | tail _ mem => exact ok.unreserved each mem invalid

end

/-! ## Recycling -/

theorem recycle_valid (maxRecycleTs : Nat) (entry : WriteHisEntry) :
    (entry.recycle maxRecycleTs).valid = true ↔
      entry.valid = true ∧ maxRecycleTs < entry.ts := by
  cases valid : entry.valid <;>
    by_cases stale : entry.ts ≤ maxRecycleTs <;>
      simp [WriteHisEntry.recycle, WriteHisEntry.stale, valid, stale,
        Nat.lt_of_not_le]

variable {maxRecycleTs : Nat}

theorem recycle_of_valid (kept : (entry.recycle maxRecycleTs).valid = true) :
    entry.recycle maxRecycleTs = entry := by
  have later := ((recycle_valid maxRecycleTs entry).1 kept).2
  have fresh : ¬ entry.ts ≤ maxRecycleTs := by omega
  simp [WriteHisEntry.recycle, WriteHisEntry.stale, fresh]

theorem recycle_stale (stale : entry.stale maxRecycleTs = true) :
    entry.recycle maxRecycleTs =
      { entry with valid := false, reserved := false } := by
  rw [WriteHisEntry.recycle, if_pos stale]

theorem recycle_unreserved
    (unreserved : entry.valid = false → entry.reserved = false)
    (invalid : (entry.recycle maxRecycleTs).valid = false) :
    (entry.recycle maxRecycleTs).reserved = false := by
  cases stale : entry.stale maxRecycleTs with
  | true => rw [recycle_stale stale]
  | false =>
    have same : entry.recycle maxRecycleTs = entry := by
      simp [WriteHisEntry.recycle, stale]
    rw [same] at invalid ⊢
    exact unreserved invalid

/-- Recycling takes as many versions away as it counts. -/
theorem countP_recycle (maxRecycleTs : Nat) (entries : List WriteHisEntry) :
    (entries.map (WriteHisEntry.recycle maxRecycleTs)).countP WriteHisEntry.valid =
      entries.countP WriteHisEntry.valid - entries.countP (WriteHisEntry.stale maxRecycleTs) ∧
    entries.countP (WriteHisEntry.stale maxRecycleTs) ≤ entries.countP WriteHisEntry.valid := by
  induction entries with
  | nil => simp
  | cons entry rest ih =>
    cases valid : entry.valid <;>
      by_cases stale : entry.ts ≤ maxRecycleTs <;>
        simp [WriteHisEntry.recycle, WriteHisEntry.stale, valid, stale]
          at ih ⊢ <;>
          omega

/-- Fold the version at the head and all older ones into `_row`. -/
theorem HistoryOk.recycle
    (ok : HistoryOk row oldestWts latestWts numVersions (entry :: entries))
    (valid : entry.valid = true) :
    HistoryOk entry.row entry.ts latestWts
      (numVersions - (1 + entries.countP (WriteHisEntry.stale entry.ts)))
      (entries.map (WriteHisEntry.recycle entry.ts)) where
  base := ok.rows entry (.head _) valid
  ordered := (ok.window entry (.head _) valid).2
  bounded := ok.bounded
  count := by
    have counted := countP_recycle entry.ts entries
    rw [ok.count, List.countP_cons_of_pos valid]
    omega
  window := by
    intro each mem kept
    obtain ⟨old, isOld, rfl⟩ := List.mem_map.1 mem
    have stays := (recycle_valid _ _).1 kept
    rw [recycle_of_valid kept]
    exact ⟨stays.2, (ok.window old (.tail _ isOld) stays.1).2⟩
  rows := by
    intro each mem kept
    obtain ⟨old, isOld, rfl⟩ := List.mem_map.1 mem
    have stays := (recycle_valid _ _).1 kept
    rw [recycle_of_valid kept]
    exact ok.rows old (.tail _ isOld) stays.1
  distinct := by
    refine List.pairwise_map.2 (ok.distinct.of_cons.imp ?_)
    intro left right ne keptLeft keptRight
    rw [recycle_of_valid keptLeft, recycle_of_valid keptRight]
    exact ne ((recycle_valid _ _).1 keptLeft).1
      ((recycle_valid _ _).1 keptRight).1
  newest := by
    intro later
    have older := (ok.window entry (.head _) valid).1
    obtain ⟨last, mem, isValid, latest⟩ := ok.newest (by omega)
    cases mem with
    | head => omega
    | tail _ mem =>
      have kept : (last.recycle entry.ts).valid = true :=
        (recycle_valid _ _).2 ⟨isValid, by omega⟩
      refine ⟨last.recycle entry.ts, List.mem_map_of_mem mem, kept, ?_⟩
      rw [recycle_of_valid kept, latest]
  unreserved := by
    intro each mem invalid
    obtain ⟨old, isOld, rfl⟩ := List.mem_map.1 mem
    exact recycle_unreserved (ok.unreserved old (.tail _ isOld)) invalid

theorem HistoryOk.recycleOldest
    (ok : HistoryOk row oldestWts latestWts numVersions (entry :: entries))
    (valid : entry.valid = true)
    (oldest : ∀ each ∈ entries, each.valid = true → entry.ts ≤ each.ts) :
    HistoryOk entry.row entry.ts latestWts (numVersions - 1) entries := by
  have fresh : ∀ each ∈ entries, each.stale entry.ts = false := by
    intro each mem
    cases isValid : each.valid with
    | false => simp [WriteHisEntry.stale, isValid]
    | true =>
      have different := List.rel_of_pairwise_cons ok.distinct mem valid isValid
      have older := oldest each mem isValid
      simp [WriteHisEntry.stale, isValid]
      omega
  have none : entries.countP (WriteHisEntry.stale entry.ts) = 0 := by
    rw [List.countP_eq_zero]
    intro each mem
    simp [fresh each mem]
  have same : entries.map (WriteHisEntry.recycle entry.ts) = entries := by
    refine List.map_congr_left ?_ |>.trans (List.map_id entries)
    intro each mem
    simp [WriteHisEntry.recycle, fresh each mem]
  have recycled := ok.recycle valid
  rwa [none, same] at recycled

end

/-! ## The loops -/

section

variable {entry : WriteHisEntry} {entries : List WriteHisEntry}

/-- The scan stays where it is, or it moves to an entry of the list. -/
theorem newestBelow_found (width bound i theTs theI : Nat) :
    (∀ entry ∈ entries, entry.valid = true → entry.ts < bound →
        entry.ts ≤ theTs) ∧
      newestBelow width bound entries i theTs theI = (theTs, theI) ∨
    (∃ entry ∈ entries, entry.valid = true ∧ entry.ts < bound ∧
        theTs < entry.ts) ∧
      ∃ j entry, entries[j]? = some entry ∧ entry.valid = true ∧
        entry.ts < bound ∧ newestBelow width bound entries i theTs theI =
          (entry.ts % 2 ^ width, i + j) := by
  induction entries generalizing i theTs theI with
  | nil => exact .inl ⟨nofun, rfl⟩
  | cons entry rest ih =>
    rw [newestBelow]
    split
    · next better =>
        refine .inr ⟨⟨entry, .head _, better⟩, ?_⟩
        rcases ih (i + 1) (entry.ts % 2 ^ width) i with
          ⟨-, same⟩ | ⟨-, j, found, at_, valid, below, result⟩
        · exact ⟨0, entry, rfl, better.1, better.2.1, same⟩
        · refine ⟨j + 1, found, at_, valid, below, ?_⟩
          rw [result, Nat.add_assoc, Nat.add_comm 1]
    · next worse =>
        rcases ih (i + 1) theTs theI with ⟨most, same⟩ |
          ⟨⟨each, mem, better⟩, j, found, at_, valid, below, result⟩
        · refine .inl ⟨?_, same⟩
          intro each mem valid below
          cases mem with
          | head => exact Nat.le_of_not_lt fun less => worse ⟨valid, below, less⟩
          | tail _ mem => exact most each mem valid below
        · refine .inr ⟨⟨each, .tail _ mem, better⟩, j + 1, found, at_,
            valid, below, ?_⟩
          rw [result, Nat.add_assoc, Nat.add_comm 1]

/-- A version above all before it is chosen when the scan reaches it. -/
theorem newestBelow_reaches (width : Nat) (back : List WriteHisEntry)
    {bound : Nat} (valid : entry.valid = true) (below : entry.ts < bound)
    (older : ∀ each ∈ entries, each.valid = true → each.ts < bound →
      each.ts < entry.ts) (i : Nat) {theTs : Nat} (higher : theTs < entry.ts)
    (theI : Nat) :
    newestBelow width bound (entries ++ entry :: back) i theTs theI =
      newestBelow width bound back (i + entries.length + 1)
        (entry.ts % 2 ^ width) (i + entries.length) := by
  induction entries generalizing i theTs theI with
  | nil => exact if_pos ⟨valid, below, higher⟩
  | cons each rest ih =>
    have olderRest : ∀ each ∈ rest, each.valid = true → each.ts < bound →
        each.ts < entry.ts := fun each mem => older each (.tail _ mem)
    rw [List.cons_append, newestBelow, List.length_cons,
      ← Nat.add_assoc, Nat.add_right_comm i rest.length 1]
    split
    · next better =>
        refine ih olderRest (i + 1) (Nat.lt_of_le_of_lt (Nat.mod_le _ _) ?_) i
        exact older each (.head _) better.1 better.2.1
    · exact ih olderRest (i + 1) higher theI

theorem oldestVersion_le (entries : List WriteHisEntry) (i minTs idx : Nat) :
    (oldestVersion entries i minTs idx).1 ≤ minTs ∧
      ∀ entry ∈ entries, entry.valid = true →
        (oldestVersion entries i minTs idx).1 ≤ entry.ts := by
  induction entries generalizing i minTs idx with
  | nil => simp [oldestVersion]
  | cons entry rest ih =>
    rw [oldestVersion]
    split
    · next better =>
        have bound := ih (i + 1) entry.ts i
        refine ⟨by omega, ?_⟩
        intro each mem valid
        cases mem with
        | head => exact bound.1
        | tail _ mem => exact bound.2 each mem valid
    · next worse =>
        have bound := ih (i + 1) minTs idx
        refine ⟨bound.1, ?_⟩
        intro each mem valid
        cases mem with
        | head =>
          have : ¬ entry.ts < minTs := fun less => worse ⟨valid, less⟩
          omega
        | tail _ mem => exact bound.2 each mem valid

theorem oldestVersion_found (entries : List WriteHisEntry) (i minTs idx : Nat) :
    oldestVersion entries i minTs idx = (minTs, idx) ∨
      ∃ j entry, entries[j]? = some entry ∧ entry.valid = true ∧
        oldestVersion entries i minTs idx = (entry.ts, i + j) := by
  induction entries generalizing i minTs idx with
  | nil => exact .inl rfl
  | cons entry rest ih =>
    rw [oldestVersion]
    split
    · next better =>
        rcases ih (i + 1) entry.ts i with
          same | ⟨j, found, at_, valid, result⟩
        · exact .inr ⟨0, entry, rfl, better.1, same⟩
        · refine .inr ⟨j + 1, found, at_, valid, ?_⟩
          rw [result]
          congr 1
          omega
    · rcases ih (i + 1) minTs idx with
        same | ⟨j, found, at_, valid, result⟩
      · exact .inl same
      · refine .inr ⟨j + 1, found, at_, valid, ?_⟩
        rw [result]
        congr 1
        omega

theorem unusedEntry_none
    (used : ∀ entry ∈ entries, entry.valid = false → entry.reserved = true)
    (i idx : Nat) : unusedEntry entries i idx = idx := by
  induction entries generalizing i with
  | nil => rfl
  | cons entry rest ih =>
    have taken : ¬ (entry.valid = false ∧ entry.reserved = false) := by
      rintro ⟨invalid, free⟩
      simp [used entry (.head _) invalid] at free
    rw [unusedEntry, if_neg (fun all => taken ⟨all.1, all.2.1⟩), if_neg taken]
    exact ih (fun each mem => used each (.tail _ mem)) (i + 1)

theorem unusedEntry_found (unused : ∃ entry ∈ entries, entry.valid = false ∧
      entry.reserved = false) (i idx : Nat) :
    ∃ j found, entries[j]? = some found ∧ found.valid = false ∧
      found.reserved = false ∧ unusedEntry entries i idx = i + j := by
  induction entries generalizing i idx with
  | nil => simp at unused
  | cons head rest ih =>
    have later : (∃ entry ∈ rest, entry.valid = false ∧
          entry.reserved = false) → ∀ idx,
        ∃ j found, (head :: rest)[j]? = some found ∧
          found.valid = false ∧ found.reserved = false ∧
            unusedEntry rest (i + 1) idx = i + j := by
      intro inRest idx
      obtain ⟨j, found, at_, invalid, free, result⟩ :=
        ih inRest (i + 1) idx
      exact ⟨j + 1, found, at_, invalid, free, by rw [result]; omega⟩
    rw [unusedEntry]
    split
    · next first =>
        exact ⟨0, head, rfl, first.1, first.2.1, rfl⟩
    split
    · next first =>
        by_cases inRest : ∃ entry ∈ rest, entry.valid = false ∧
            entry.reserved = false
        · exact later inRest i
        · have used : ∀ each ∈ rest, each.valid = false →
              each.reserved = true := by
            simpa using inRest
          exact ⟨0, head, rfl, first.1, first.2, unusedEntry_none used _ _⟩
    · next taken =>
        obtain ⟨entry, mem, invalid, free⟩ := unused
        cases mem with
        | head => exact absurd ⟨invalid, free⟩ taken
        | tail _ mem => exact later ⟨entry, mem, invalid, free⟩ idx

theorem newestVersion_eq {latestWts : Nat}
    (bound : ∀ entry ∈ entries, entry.valid = true → entry.ts ≤ latestWts)
    {maxTs : Nat} (small : maxTs ≤ latestWts)
    (reached : maxTs = latestWts ∨
      ∃ entry ∈ entries, entry.valid = true ∧ entry.ts = latestWts) :
    newestVersion entries maxTs = latestWts := by
  induction entries generalizing maxTs with
  | nil => simpa [newestVersion] using reached
  | cons entry rest ih =>
    rw [newestVersion]
    refine ih (fun each mem => bound each (.tail _ mem)) ?_ ?_
    · split
      · next better => exact bound entry (.head _) better.1
      · exact small
    · rcases reached with same | ⟨each, mem, valid, latest⟩
      · left
        split
        · next better =>
            have := bound entry (.head _) better.1
            omega
        · exact same
      · cases mem with
        | head =>
          left
          split
          · exact latest
          · next worse =>
              have : ¬ maxTs < entry.ts := fun less => worse ⟨valid, less⟩
              omega
        | tail _ mem => exact .inr ⟨each, mem, valid, latest⟩

end

/-! ## Splitting the history at an index -/

theorem split_of_getElem? {entries : List WriteHisEntry} {idx : Nat}
    {entry : WriteHisEntry} (at_ : entries[idx]? = some entry) :
    ∃ front back, entries = front ++ entry :: back ∧ front.length = idx := by
  obtain ⟨bound, rfl⟩ := List.getElem?_eq_some_iff.1 at_
  refine ⟨entries.take idx, entries.drop (idx + 1), ?_, ?_⟩
  · rw [List.getElem_cons_drop, List.take_append_drop]
  · exact List.length_take_of_le (Nat.le_of_lt bound)

theorem getElem?_split (front back : List WriteHisEntry)
    (entry : WriteHisEntry) :
    (front ++ entry :: back)[front.length]? = some entry := by
  simp

theorem set_split (front back : List WriteHisEntry)
    (entry other : WriteHisEntry) :
    (front ++ entry :: back).set front.length other =
      front ++ other :: back := by
  simp

/-! ## Reserving an entry -/

/-- No prewrite is granted. -/
def Settled (mvcc : RowMvcc Txn) : Prop :=
  mvcc.existsPrewrite = false ∧ 1 < mvcc.writeHistory.length ∧
    HistoryOk mvcc.row mvcc.oldestWts mvcc.latestWts mvcc.numVersions
      mvcc.writeHistory

/-- The history is in order but for the entry at an index. -/
def HasRoom (mvcc : RowMvcc Txn) (idx : Nat) : Prop :=
  ∃ front entry back, mvcc.writeHistory = front ++ entry :: back ∧
    front.length = idx ∧ 1 < mvcc.writeHistory.length ∧
      HistoryOk mvcc.row mvcc.oldestWts mvcc.latestWts mvcc.numVersions
        (front ++ back)

/-- A prewrite is granted with the given row object. -/
def Reserved (mvcc : RowMvcc Txn) (row : Nat) : Prop :=
  mvcc.existsPrewrite = true ∧ row ≠ 0 ∧
    ∃ front entry back, mvcc.writeHistory = front ++ entry :: back ∧
      front.length = mvcc.prewriteHisId ∧ 1 < mvcc.writeHistory.length ∧
        entry.valid = false ∧ entry.row = row ∧
          HistoryOk mvcc.row mvcc.oldestWts mvcc.latestWts
            mvcc.numVersions (front ++ back)

/-- Nothing but the history and the prewrite differs. -/
structure SameClients (before after : RowMvcc Txn) : Prop where
  latestRow : after.latestRow = before.latestRow
  latestWts : after.latestWts = before.latestWts
  maxServedRts : after.maxServedRts = before.maxServedRts
  requests : after.requests = before.requests
  curRow : after.curRow = before.curRow
  tsReady : after.tsReady = before.tsReady

section

variable {mvcc : RowMvcc Txn}

theorem SameClients.trans {before middle after : RowMvcc Txn}
    (first : SameClients before middle) (second : SameClients middle after) :
    SameClients before after where
  latestRow := second.latestRow.trans first.latestRow
  latestWts := second.latestWts.trans first.latestWts
  maxServedRts := second.maxServedRts.trans first.maxServedRts
  requests := second.requests.trans first.requests
  curRow := second.curRow.trans first.curRow
  tsReady := second.tsReady.trans first.tsReady

theorem recycleUpTo_settled (settled : Settled mvcc) {idx : Nat}
    {entry : WriteHisEntry} (at_ : mvcc.writeHistory[idx]? = some entry)
    (valid : entry.valid = true) :
    ∃ after, mvcc.recycleUpTo entry.ts idx = some after ∧
      Settled after ∧ SameClients mvcc after := by
  obtain ⟨idle, long, ok⟩ := settled
  obtain ⟨front, back, split, rfl⟩ := split_of_getElem? at_
  have headed : HistoryOk mvcc.row mvcc.oldestWts mvcc.latestWts
      mvcc.numVersions (entry :: (front ++ back)) :=
    (split ▸ ok).perm List.perm_middle
  have stale : ({ entry with row := mvcc.row } : WriteHisEntry).stale
      entry.ts = true := by
    simp [WriteHisEntry.stale, valid]
  have objects : ∀ each ∈ front ++ { entry with row := mvcc.row } :: back,
      each.stale entry.ts → each.row ≠ 0 := by
    intro each mem isStale
    rcases List.mem_cons.1 (List.perm_middle.mem_iff.1 mem) with
      rfl | mem
    · exact ok.base
    · have isValid : each.valid = true := by
        simp only [WriteHisEntry.stale, Bool.and_eq_true] at isStale
        exact isStale.1
      exact headed.rows each (.tail _ mem) isValid
  rw [RowMvcc.recycleUpTo, at_]
  simp only [split, set_split]
  rw [if_pos objects]
  refine ⟨_, rfl, ?_, ?_⟩
  · refine ⟨idle, by simpa [split] using long, ?_⟩
    have recycled := headed.recycle valid
    refine HistoryOk.perm ?_ (List.perm_middle.symm.map _)
    rw [List.map_cons, recycle_stale stale]
    refine (historyOk_unused rfl rfl).2 ?_
    rw [List.perm_middle.countP_eq, List.countP_cons_of_pos stale, Nat.add_comm]
    exact recycled
  · exact ⟨rfl, rfl, rfl, rfl, rfl, rfl⟩

theorem collectGarbage_settled (settled : Settled mvcc) (minTs : Nat) :
    ∃ after, mvcc.collectGarbage minTs = some after ∧
      Settled after ∧ SameClients mvcc after := by
  have unchanged : Settled mvcc ∧ SameClients mvcc mvcc :=
    ⟨settled, rfl, rfl, rfl, rfl, rfl, rfl⟩
  rw [RowMvcc.collectGarbage]
  split
  · rcases newestBelow_found 64 minTs 0 0 mvcc.writeHistory.length with
      ⟨-, same⟩ | ⟨-, j, entry, at_, valid, -, result⟩
    · rw [same]
      exact ⟨mvcc, if_neg (by simp), unchanged⟩
    · have narrow : entry.ts < 2 ^ 64 := by
        have below := settled.2.2.window entry (List.mem_of_getElem? at_) valid
        have bounded := settled.2.2.bounded
        omega
      rw [result, Nat.zero_add, Nat.mod_eq_of_lt narrow]
      have bound : j ≠ mvcc.writeHistory.length := by
        have := (List.getElem?_eq_some_iff.1 at_).1
        omega
      simp only [ne_eq, bound, not_false_eq_true, if_true]
      exact recycleUpTo_settled settled at_ valid
  · exact ⟨mvcc, rfl, unchanged⟩

theorem Settled.historyAsserts (settled : Settled mvcc) :
    mvcc.historyAsserts := by
  obtain ⟨-, -, ok⟩ := settled
  refine ⟨ok.count.symm, ?_⟩
  intro some
  rw [ok.count, List.countP_pos_iff] at some
  obtain ⟨entry, mem, valid⟩ := some
  have inside := ok.window entry mem valid
  exact newestVersion_eq (fun each mem valid =>
    (ok.window each mem valid).2) (Nat.zero_le _)
    (.inr (ok.newest (by omega)))

/-- With a free entry, `findUnused` finds one. -/
theorem findUnused_hasRoom (settled : Settled mvcc)
    (notFull : mvcc.numVersions < mvcc.writeHistory.length) :
    ∃ idx, mvcc.findUnused = some idx ∧
      idx ≠ mvcc.writeHistory.length ∧ HasRoom mvcc idx := by
  obtain ⟨-, long, ok⟩ := settled
  have unused : ∃ entry ∈ mvcc.writeHistory, entry.valid = false ∧
      entry.reserved = false := by
    have someInvalid : ¬ ∀ entry ∈ mvcc.writeHistory, entry.valid = true := by
      intro full
      rw [ok.count, List.countP_eq_length.2 full] at notFull
      exact Nat.lt_irrefl _ notFull
    push Not at someInvalid
    obtain ⟨entry, mem, invalid⟩ := someInvalid
    have invalid : entry.valid = false := by simpa using invalid
    exact ⟨entry, mem, invalid, ok.unreserved entry mem invalid⟩
  obtain ⟨j, entry, at_, invalid, free, result⟩ :=
    unusedEntry_found unused 0 mvcc.writeHistory.length
  have bound := (List.getElem?_eq_some_iff.1 at_).1
  obtain ⟨front, back, split, rfl⟩ := split_of_getElem? at_
  refine ⟨front.length, ?_, Nat.ne_of_lt bound, ?_⟩
  · rw [RowMvcc.findUnused, if_pos notFull, result, Nat.zero_add]
    exact if_pos bound
  · refine ⟨front, entry, back, split, rfl, long, ?_⟩
    exact (historyOk_unused invalid free).1 ((split ▸ ok).perm List.perm_middle)

theorem recycleOldest_hasRoom (settled : Settled mvcc)
    (full : ∀ entry ∈ mvcc.writeHistory, entry.valid = true) :
    ∃ idx after, mvcc.recycleOldest = some (idx, after) ∧
      HasRoom after idx ∧ SameClients mvcc after := by
  obtain ⟨-, long, ok⟩ := settled
  have bound := oldestVersion_le mvcc.writeHistory 0 uint64Max
    mvcc.writeHistory.length
  rcases oldestVersion_found mvcc.writeHistory 0 uint64Max
      mvcc.writeHistory.length with same | ⟨j, entry, at_, valid, result⟩
  · have top : ∀ entry ∈ mvcc.writeHistory, entry.ts = uint64Max := by
      intro entry mem
      have less := bound.2 entry mem (full entry mem)
      have inside := ok.window entry mem (full entry mem)
      have bounded := ok.bounded
      rw [same] at less
      simp only [uint64Max] at less ⊢
      omega
    have apart := List.pairwise_iff_getElem.1 ok.distinct 0 1 (by omega) long
      Nat.one_pos (full _ (List.getElem_mem _)) (full _ (List.getElem_mem _))
    rw [top _ (List.getElem_mem _), top _ (List.getElem_mem _)] at apart
    exact absurd rfl apart
  · rw [result, Nat.zero_add] at bound
    obtain ⟨front, back, split, rfl⟩ := split_of_getElem? at_
    have headed : HistoryOk mvcc.row mvcc.oldestWts mvcc.latestWts
        mvcc.numVersions (entry :: (front ++ back)) :=
      (split ▸ ok).perm List.perm_middle
    have asserted : mvcc.oldestWts < entry.ts ∧ entry.row ≠ 0 :=
      ⟨(headed.window entry (.head _) valid).1,
        headed.rows entry (.head _) valid⟩
    rw [RowMvcc.recycleOldest, result, Nat.zero_add]
    simp only [at_]
    rw [if_pos asserted]
    refine ⟨front.length, _, rfl, ?_, ?_⟩
    · refine ⟨front, _, back, by rw [split, set_split], rfl,
        by simpa using long, ?_⟩
      refine headed.recycleOldest valid ?_
      intro each mem isValid
      refine bound.2 each ?_ isValid
      rw [split]
      exact List.perm_middle.mem_iff.2 (.tail _ mem)
    · exact ⟨rfl, rfl, rfl, rfl, rfl, rfl⟩

theorem doubleHistory_hasRoom (settings : MvccSettings) (ts : Nat)
    (settled : Settled mvcc)
    (full : ∀ entry ∈ mvcc.writeHistory, entry.valid = true) :
    ∃ idx after, mvcc.doubleHistory settings ts = some (idx, after) ∧
      HasRoom after idx ∧ SameClients mvcc after := by
  obtain ⟨-, long, ok⟩ := settled
  obtain ⟨count, positive⟩ : ∃ count, mvcc.writeHistory.length = count + 1 :=
    Nat.exists_eq_succ_of_ne_zero (by omega)
  have half : (mvcc.writeHistory ++ List.replicate mvcc.writeHistory.length
      (⟨false, false, 0, 0⟩ : WriteHisEntry)).length / 2 =
      mvcc.writeHistory.length := by
    rw [List.length_append, List.length_replicate]
    omega
  rw [RowMvcc.doubleHistory]
  simp only [half]
  rw [if_pos fun _ => full]
  refine ⟨mvcc.writeHistory.length, _, rfl, ?_, ?_⟩
  · refine ⟨mvcc.writeHistory, ⟨false, false, 0, 0⟩,
      List.replicate count ⟨false, false, 0, 0⟩, ?_, rfl, ?_, ?_⟩
    · rw [positive, List.replicate_succ]
    · rw [List.length_append]
      omega
    · refine HistoryOk.perm ?_ List.perm_append_comm
      exact historyOk_replicate ok count
  · exact ⟨rfl, rfl, rfl, rfl, rfl, rfl⟩

/-- The entry that `reserveRow` settles on, whichever way it finds it. -/
theorem makeRoom_hasRoom (settings : MvccSettings) (ts : Nat)
    (settled : Settled mvcc) :
    ∃ unused, mvcc.findUnused = some unused ∧
      ∃ idx after, mvcc.makeRoom settings ts unused = some (idx, after) ∧
        HasRoom after idx ∧ SameClients mvcc after := by
  by_cases notFull : mvcc.numVersions < mvcc.writeHistory.length
  · obtain ⟨idx, found, inside, room⟩ := findUnused_hasRoom settled notFull
    refine ⟨idx, found, idx, mvcc, if_neg inside, room, ?_⟩
    exact ⟨rfl, rfl, rfl, rfl, rfl, rfl⟩
  · have full : ∀ entry ∈ mvcc.writeHistory, entry.valid = true := by
      rw [← List.countP_eq_length]
      have most := List.countP_le_length (p := WriteHisEntry.valid)
        (l := mvcc.writeHistory)
      have count := settled.2.2.count
      omega
    refine ⟨mvcc.writeHistory.length, if_neg notFull, ?_⟩
    rw [RowMvcc.makeRoom, if_pos rfl]
    split
    · exact recycleOldest_hasRoom settled full
    · exact doubleHistory_hasRoom settings ts settled full

theorem reserveEntry_reserved {idx fresh : Nat} (ts : Nat)
    (room : HasRoom mvcc idx) (object : fresh ≠ 0) :
    ∃ row after, mvcc.reserveEntry fresh ts idx = some (row, after) ∧
      Reserved after row ∧ after.prewriteTs = ts ∧ SameClients mvcc after := by
  obtain ⟨front, entry, back, split, rfl, long, ok⟩ := room
  rw [RowMvcc.reserveEntry, split, getElem?_split]
  simp only [set_split]
  refine ⟨_, _, rfl, ⟨rfl, ?_, front, _, back, rfl, rfl,
    by simpa [split] using long, rfl, rfl, ok⟩,
    rfl, ⟨rfl, rfl, rfl, rfl, rfl, rfl⟩⟩
  split
  · exact object
  · next has => exact has

/-- `reserveRow` on a row without a prewrite. -/
theorem reserveRow_reserved (settings : MvccSettings) {supply : MvccSupply}
    (ts : Nat) (settled : Settled mvcc) (object : supply.fresh ≠ 0) :
    ∃ row after, mvcc.reserveRow settings supply ts = some (row, after) ∧
      Reserved after row ∧ after.prewriteTs = ts ∧ SameClients mvcc after := by
  obtain ⟨collected, collects, clean, first⟩ :=
    collectGarbage_settled settled supply.minTs
  obtain ⟨unused, finds, idx, roomy, makes, room, second⟩ :=
    makeRoom_hasRoom settings ts clean
  obtain ⟨row, after, reserves, reserved, stamp, third⟩ :=
    reserveEntry_reserved ts room object
  refine ⟨row, after, ?_, reserved, stamp, (first.trans second).trans third⟩
  have asserted : settings.debugCc = true → collected.historyAsserts :=
    fun _ => clean.historyAsserts
  rw [RowMvcc.reserveRow, settled.1, collects]
  simp only [Bool.false_eq_true, if_false, Option.bind_some]
  rw [if_pos asserted, finds, Option.bind_some, makes, Option.bind_some,
    reserves]

/-! ## Ending a prewrite -/

theorem Reserved.count {row : Nat} (reserved : Reserved mvcc row) :
    mvcc.numVersions = mvcc.writeHistory.countP WriteHisEntry.valid := by
  obtain ⟨-, -, front, entry, back, split, -, -, invalid, -, ok⟩ := reserved
  have skipped : ¬ entry.valid = true := by simp [invalid]
  rw [ok.count, split, List.perm_middle.countP_eq,
    List.countP_cons_of_neg skipped]

theorem Reserved.install {row ts : Nat} (reserved : Reserved mvcc row)
    (later : mvcc.latestWts < ts) (bounded : ts < 2 ^ 64) :
    ∃ after, mvcc.install ts row = some after ∧ Settled after ∧
      after.latestWts = ts ∧ after.maxServedRts = mvcc.maxServedRts ∧
        after.requests = mvcc.requests ∧ after.tsReady = mvcc.tsReady := by
  obtain ⟨-, object, front, entry, back, split, at_, long, -, same, ok⟩ :=
    reserved
  have asserted : mvcc.latestWts < ts ∧ row = entry.row :=
    ⟨later, same.symm⟩
  rw [RowMvcc.install, split, ← at_, getElem?_split]
  simp only [set_split]
  rw [if_pos asserted]
  refine ⟨_, rfl, ⟨rfl, by simpa [split] using long, ?_⟩, rfl, rfl, rfl, rfl⟩
  refine HistoryOk.perm ?_ List.perm_middle.symm
  refine HistoryOk.install ok rfl ?_ rfl later bounded
  show entry.row ≠ 0
  rwa [same]

theorem Reserved.discard {row : Nat} (reserved : Reserved mvcc row) :
    ∃ after, mvcc.discard row = some after ∧ Settled after ∧
      after.latestWts = mvcc.latestWts ∧
        after.maxServedRts = mvcc.maxServedRts ∧
          after.requests = mvcc.requests ∧ after.tsReady = mvcc.tsReady := by
  obtain ⟨-, -, front, entry, back, split, at_, long, -, same, ok⟩ := reserved
  rw [RowMvcc.discard, split, ← at_, getElem?_split]
  simp only [set_split]
  rw [if_pos same.symm]
  refine ⟨_, rfl, ⟨rfl, by simpa [split] using long, ?_⟩, rfl, rfl, rfl, rfl⟩
  refine HistoryOk.perm ?_ List.perm_middle.symm
  exact (historyOk_unused rfl rfl).2 ok

end

end Lockfreec.Bench
