import Lockfreec.Bench.RowTs

/-!
# The buffers of basic timestamp ordering

While no write is buffered, `update_buffer` makes one pass: it moves `min_pts`
to the oldest prewrite that is left and serves the reads that are not behind
it.  A read waits only behind a prewrite, so nothing is left when the last
prewrite ends.

A write that is buffered is only looked at after some read was served, so it
can be left in the buffer for ever, with its prewrite.  The results are about
the runs in which no write comes before an older prewrite has ended.
-/

namespace Lockfreec.Bench

open Function Lib.Interleaving

section

variable {Txn Data : Type}

/-! ## The oldest request of a list -/

theorem calMin_min (queue : List (TsReqEntry Txn Data)) (ts least : Nat) :
    calMin queue (min ts least) = min ts (calMin queue least) := by
  induction queue generalizing least with
  | nil => rfl
  | cons entry rest ih =>
    have step : ∀ bound : Nat, (if entry.ts < bound then entry.ts else bound) =
          min entry.ts bound := by
      intro bound
      split <;> omega
    rw [calMin, calMin, step, step, Nat.min_left_comm, ih]

theorem calMin_cons (entry : TsReqEntry Txn Data)
    (rest : List (TsReqEntry Txn Data)) (least : Nat) :
    calMin (entry :: rest) least =
      if entry.ts < calMin rest least then entry.ts
      else calMin rest least := by
  have step : (if entry.ts < least then entry.ts else least) =
      min entry.ts least := by
    split <;> omega
  rw [calMin, step, calMin_min]
  split <;> omega

theorem calMin_le (queue : List (TsReqEntry Txn Data)) (least : Nat) :
    calMin queue least ≤ least := by
  induction queue with
  | nil => exact Nat.le_refl _
  | cons entry rest ih =>
    rw [calMin_cons]
    split <;> omega

variable {queue : List (TsReqEntry Txn Data)}

theorem calMin_le_of_mem {least : Nat} {entry : TsReqEntry Txn Data}
    (mem : entry ∈ queue) :
    calMin queue least ≤ entry.ts := by
  induction queue with
  | nil => cases mem
  | cons first rest ih =>
    rw [calMin_cons]
    rcases List.mem_cons.1 mem with rfl | mem
    · split <;> omega
    · have := ih mem
      split <;> omega

theorem le_calMin {least bound : Nat} (below : bound ≤ least)
    (each : ∀ entry ∈ queue, bound ≤ entry.ts) :
    bound ≤ calMin queue least := by
  induction queue with
  | nil => exact below
  | cons first rest ih =>
    rw [calMin_cons]
    have := each first (.head _)
    have := ih fun entry mem => each entry (.tail _ mem)
    split <;> omega

theorem calMin_mono {kept : List (TsReqEntry Txn Data)} (sub : kept ⊆ queue)
    (least : Nat) :
    calMin queue least ≤ calMin kept least :=
  le_calMin (calMin_le queue least) fun _ mem =>
    calMin_le_of_mem (sub mem)

theorem filter_lt_eq_self {ts : Nat} (above : ∀ entry ∈ queue, ts < entry.ts) :
    (queue.filter fun entry => ts < entry.ts) = queue :=
  List.filter_eq_self.2 fun entry mem => decide_eq_true (above entry mem)

section

variable [DecidableEq Txn]

theorem takeTxn_of_mem {txn : Txn} {queue : List (TsReqEntry Txn Data)}
    {entry : TsReqEntry Txn Data} (mem : entry ∈ queue)
    (same : entry.txn = txn) :
    ∃ front found back, queue = front ++ found :: back ∧ found.txn = txn ∧
      takeTxn txn queue = some (front ++ back) := by
  induction queue with
  | nil => cases mem
  | cons first rest ih =>
    by_cases isTxn : first.txn = txn
    · exact ⟨[], first, rest, rfl, isTxn, by rw [takeTxn, if_pos isTxn]; rfl⟩
    · rcases List.mem_cons.1 mem with rfl | mem
      · exact absurd same isTxn
      · obtain ⟨front, found, back, rfl, isFound, taken⟩ := ih mem
        refine ⟨first :: front, found, back, rfl, isFound, ?_⟩
        rw [takeTxn, if_neg isTxn, taken]
        rfl

/-! ## `update_buffer` -/

theorem foldl_serveBuffered (reads : List (TsReqEntry Txn Data))
    (row : RowTs Txn Data) :
    ∃ curRow rts tsReady, reads.foldl RowTs.serveBuffered row =
        { row with curRow := curRow, rts := rts, tsReady := tsReady } ∧
      ∀ txn, row.tsReady txn = true ∨ (∃ read ∈ reads, read.txn = txn) →
        tsReady txn = true := by
  induction reads generalizing row with
  | nil =>
    refine ⟨row.curRow, row.rts, row.tsReady, rfl, fun txn ready => ?_⟩
    exact ready.resolve_right (by simp)
  | cons read rest ih =>
    obtain ⟨curRow, rts, tsReady, folded, ready⟩ :=
      ih (row.serveBuffered read)
    refine ⟨curRow, rts, tsReady, folded, fun txn already => ready txn ?_⟩
    by_cases isTxn : txn = read.txn
    · left
      rw [isTxn]
      exact update_self ..
    · rcases already with already | ⟨other, mem, same⟩
      · left
        rw [← already]
        exact update_of_ne isTxn _ _
      · rcases List.mem_cons.1 mem with rfl | mem
        · exact absurd same.symm isTxn
        · exact .inr ⟨other, mem, same⟩

theorem debufferPreqs_writereq {writes : List (TsReqEntry Txn Data)}
    {row after : RowTs Txn Data}
    (taken : row.debufferPreqs writes = some after) :
    after.writereq = row.writereq := by
  induction writes generalizing row with
  | nil =>
    cases taken
    rfl
  | cons write rest ih =>
    obtain ⟨next, first, later⟩ := Option.bind_eq_some_iff.1 taken
    obtain ⟨kept, -, rfl⟩ := Option.map_eq_some_iff.1 first
    exact (ih later).trans rfl

omit [DecidableEq Txn] in
theorem debufferUpTo_fewer {ts : Nat}
    (busy : ¬ (debufferUpTo ts queue).1.isEmpty) :
    (debufferUpTo ts queue).2.length < queue.length := by
  obtain ⟨entry, mem, old⟩ : ∃ entry ∈ queue, entry.ts ≤ ts := by
    simpa [debufferUpTo] using busy
  exact List.length_filter_lt_length_iff_exists.2
    ⟨entry, mem, by simpa using old⟩

/-- What `update_buffer` does while no write is buffered. -/
structure Drained (before after : RowTs Txn Data) : Prop where
  row : after.row = before.row
  wts : after.wts = before.wts
  writereq : after.writereq = []
  prereq : after.prereq = before.prereq
  minPts : after.minPts = calMin before.prereq uint64Max
  readreq : after.readreq =
    before.readreq.filter fun entry => after.minPts < entry.ts
  minRts : after.minRts = calMin after.readreq uint64Max
  ready : ∀ txn, before.tsReady txn = true ∨
    (∃ read ∈ before.readreq, read.ts ≤ after.minPts ∧ read.txn = txn) →
      after.tsReady txn = true

theorem updateBuffer_drained (row : RowTs Txn Data) (writes : row.writereq = [])
    (minPts : row.minPts ≤ calMin row.prereq uint64Max)
    (reads : ∀ read ∈ row.readreq, row.minPts < read.ts)
    (minRts : row.minRts = calMin row.readreq uint64Max) :
    ∃ after, row.updateBuffer = some after ∧ Drained row after := by
  have kept : ∀ {txn : Txn}, row.tsReady txn = true ∨
      (∃ read ∈ row.readreq, read.ts ≤ row.minPts ∧ read.txn = txn) →
        row.tsReady txn = true := by
    rintro txn (ready | ⟨read, mem, old, -⟩)
    · exact ready
    · exact absurd (reads read mem) (by omega)
  simp only [RowTs.updateBuffer, writes, List.length_nil, RowTs.updateLoop,
    if_neg (Nat.not_lt.2 minPts)]
  split
  · next same =>
      refine ⟨row, rfl, rfl, rfl, writes, rfl, same.symm, ?_, minRts,
        fun _ => kept⟩
      exact (filter_lt_eq_self reads).symm
  · split
    · next empty =>
        rw [List.isEmpty_iff, debufferUpTo, List.reverse_eq_nil_iff,
          List.filter_eq_nil_iff] at empty
        have above : ∀ read ∈ row.readreq,
            calMin row.prereq uint64Max < read.ts := by
          intro read mem
          simpa using empty read mem
        refine ⟨_, rfl, rfl, rfl, rfl, rfl, rfl, rfl, ?_, ?_⟩
        · show row.minRts = calMin (row.readreq.filter _) uint64Max
          rw [filter_lt_eq_self above]
          exact minRts
        · rintro txn (ready | ⟨read, mem, old, -⟩)
          · exact ready
          · exact absurd (above read mem) (Nat.not_lt.2 old)
    · obtain ⟨curRow, rts, tsReady, folded, ready⟩ := foldl_serveBuffered
        (debufferUpTo (calMin row.prereq uint64Max) row.readreq).1
        { row with
          minPts := calMin row.prereq uint64Max
          readreq :=
            (debufferUpTo (calMin row.prereq uint64Max) row.readreq).2
          writereq := [] }
      have served : ∀ txn, row.tsReady txn = true ∨
          (∃ read ∈ row.readreq, read.ts ≤ calMin row.prereq uint64Max ∧
            read.txn = txn) → tsReady txn = true := by
        rintro txn (already | ⟨read, mem, old, same⟩)
        · exact ready txn (.inl already)
        · refine ready txn (.inr ⟨read, ?_, same⟩)
          exact List.mem_reverse.2 (List.mem_filter.2 ⟨mem, decide_eq_true old⟩)
      rw [folded]
      dsimp only
      split
      · next unchanged =>
          refine ⟨_, rfl, rfl, rfl, rfl, rfl, rfl, rfl, ?_, served⟩
          refine Nat.le_antisymm ?_ unchanged
          show row.minRts ≤ calMin (row.readreq.filter _) uint64Max
          rw [minRts]
          exact calMin_mono (fun _ => List.mem_of_mem_filter) uint64Max
      · refine ⟨_, rfl, rfl, rfl, rfl, rfl, rfl, rfl, rfl, served⟩

/-! ## Runs -/

/-- The row holds what the write with the largest timestamp stored. -/
def Latest (ts : Txn → Nat) (first row : Data) (wts : Nat)
    (history : List (TsEvent Txn Data)) : Prop :=
  (∀ txn data, .wrote txn data ∉ history) ∧ row = first ∨
    ∃ txn, .wrote txn row ∈ history ∧ wts = ts txn ∧
      ∀ other data, .wrote other data ∈ history → ts other ≤ ts txn

/-- No write is buffered, and reads wait only behind a prewrite. -/
structure RowTsInv (ts : Txn → Nat) (first : Data) (row : RowTs Txn Data)
    (threads : Txn → TsPc) (history : List (TsEvent Txn Data)) : Prop where
  prewrites : ∀ entry ∈ row.prereq,
    entry.ts = ts entry.txn ∧ threads entry.txn = .pending
  once : (row.prereq.map TsReqEntry.txn).Nodup
  pending : ∀ txn, threads txn = .pending →
    ∃ entry ∈ row.prereq, entry.txn = txn
  reads : ∀ entry ∈ row.readreq, row.minPts < entry.ts ∧ entry.ts ≤ uint64Max ∧
      threads entry.txn = .waiting
  waiting : ∀ txn, threads txn = .waiting →
    row.tsReady txn = true ∨ ∃ entry ∈ row.readreq, entry.txn = txn
  writes : row.writereq = []
  minPts : row.minPts = calMin row.prereq uint64Max
  minRts : row.minRts = calMin row.readreq uint64Max
  floor : ∀ entry ∈ row.prereq, row.wts ≤ entry.ts
  latest : Latest ts first row.row row.wts history

variable {ts : Txn → Nat} {first : Data} {row : RowTs Txn Data}
  {threads : Txn → TsPc} {history : List (TsEvent Txn Data)} {txn : Txn}

variable (inv : RowTsInv ts first row threads history)

include inv

section

variable (unused : threads txn = .unused)

include unused

omit [DecidableEq Txn] in
theorem RowTsInv.prewrite_ne : ∀ entry ∈ row.prereq, entry.txn ≠ txn := by
  rintro entry mem rfl
  have isPending := (inv.prewrites entry mem).2
  rw [unused] at isPending
  cases isPending

omit [DecidableEq Txn] in
theorem RowTsInv.read_ne : ∀ entry ∈ row.readreq, entry.txn ≠ txn := by
  rintro entry mem rfl
  have isWaiting := (inv.reads entry mem).2.2
  rw [unused] at isWaiting
  cases isWaiting

theorem RowTsInv.answer (curRow : Txn → Data) (rts : Nat) :
    RowTsInv ts first { row with curRow := curRow, rts := rts }
      (update threads txn .done) history where
  prewrites := by
    intro entry mem
    rw [update_of_ne (inv.prewrite_ne unused entry mem)]
    exact inv.prewrites entry mem
  once := inv.once
  pending := by
    intro other isPending
    rcases update_cases (· = TsPc.pending) isPending with
      ⟨-, isPending⟩ | ⟨-, isPending⟩
    · cases isPending
    · exact inv.pending other isPending
  reads := by
    intro entry mem
    rw [update_of_ne (inv.read_ne unused entry mem)]
    exact inv.reads entry mem
  waiting := by
    intro other isWaiting
    rcases update_cases (· = TsPc.waiting) isWaiting with
      ⟨-, isWaiting⟩ | ⟨-, isWaiting⟩
    · cases isWaiting
    · exact inv.waiting other isWaiting
  writes := inv.writes
  minPts := inv.minPts
  minRts := inv.minRts
  floor := inv.floor
  latest := inv.latest

theorem RowTsInv.delay (behind : row.minPts < ts txn)
    (bounded : ts txn ≤ uint64Max) :
    RowTsInv ts first
      { row.bufferReq .rReq ⟨txn, none, ts txn⟩ with
        tsReady := update row.tsReady txn false }
      (update threads txn .waiting) history where
  prewrites := by
    intro entry mem
    rw [update_of_ne (inv.prewrite_ne unused entry mem)]
    exact inv.prewrites entry mem
  once := inv.once
  pending := by
    intro other isPending
    rcases update_cases (· = TsPc.pending) isPending with
      ⟨-, isPending⟩ | ⟨-, isPending⟩
    · cases isPending
    · exact inv.pending other isPending
  reads := by
    intro entry mem
    rcases List.mem_cons.1 mem with rfl | mem
    · exact ⟨behind, bounded, update_self ..⟩
    · rw [update_of_ne (inv.read_ne unused entry mem)]
      exact inv.reads entry mem
  waiting := by
    intro other isWaiting
    rcases update_cases (· = TsPc.waiting) isWaiting with
      ⟨rfl, -⟩ | ⟨ne, isWaiting⟩
    · exact .inr ⟨_, .head _, rfl⟩
    · rcases inv.waiting other isWaiting with ready | ⟨entry, mem, same⟩
      · left
        show update row.tsReady txn false other = true
        rw [update_of_ne ne]
        exact ready
      · exact .inr ⟨entry, .tail _ mem, same⟩
  writes := inv.writes
  minPts := inv.minPts
  minRts := by
    show (if ts txn < row.minRts then ts txn else row.minRts) =
      calMin (⟨txn, none, ts txn⟩ :: row.readreq) uint64Max
    rw [calMin_cons, inv.minRts]
  floor := inv.floor
  latest := inv.latest

theorem RowTsInv.accept (young : row.wts ≤ ts txn) :
    RowTsInv ts first (row.bufferReq .pReq ⟨txn, none, ts txn⟩)
      (update threads txn .pending) history where
  prewrites := by
    intro entry mem
    rcases List.mem_cons.1 mem with rfl | mem
    · exact ⟨rfl, update_self ..⟩
    · rw [update_of_ne (inv.prewrite_ne unused entry mem)]
      exact inv.prewrites entry mem
  once := by
    refine List.nodup_cons.2 ⟨fun mem => ?_, inv.once⟩
    obtain ⟨entry, mem, same⟩ := List.mem_map.1 mem
    exact inv.prewrite_ne unused entry mem same
  pending := by
    intro other isPending
    rcases update_cases (· = TsPc.pending) isPending with
      ⟨rfl, -⟩ | ⟨-, isPending⟩
    · exact ⟨_, .head _, rfl⟩
    · obtain ⟨entry, mem, same⟩ := inv.pending other isPending
      exact ⟨entry, .tail _ mem, same⟩
  reads := by
    intro entry mem
    have old := inv.reads entry mem
    refine ⟨?_, old.2.1, ?_⟩
    · show (if ts txn < row.minPts then ts txn else row.minPts) < entry.ts
      split <;> omega
    · rw [update_of_ne (inv.read_ne unused entry mem)]
      exact old.2.2
  waiting := by
    intro other isWaiting
    rcases update_cases (· = TsPc.waiting) isWaiting with
      ⟨-, isWaiting⟩ | ⟨-, isWaiting⟩
    · cases isWaiting
    · exact inv.waiting other isWaiting
  writes := inv.writes
  minPts := by
    show (if ts txn < row.minPts then ts txn else row.minPts) =
      calMin (⟨txn, none, ts txn⟩ :: row.prereq) uint64Max
    rw [calMin_cons, inv.minPts]
  minRts := inv.minRts
  floor := by
    intro entry mem
    rcases List.mem_cons.1 mem with rfl | mem
    · exact young
    · exact inv.floor entry mem
  latest := inv.latest

end

/-- The end of a prewrite; the row and its timestamp may have changed. -/
theorem RowTsInv.finish (isPending : threads txn = .pending) {data : Data}
    {wts : Nat} {events : List (TsEvent Txn Data)}
    (floor : ∀ entry ∈ row.prereq, wts ≤ entry.ts)
    (latest : Latest ts first data wts (history ++ events)) :
    ∃ after, { row with row := data, wts := wts }.undo txn =
        some (.rcok, after) ∧
      RowTsInv ts first after (update threads txn .done)
        (history ++ events) := by
  obtain ⟨entry, mem, same⟩ := inv.pending txn isPending
  obtain ⟨front, found, back, split, isFound, taken⟩ :=
    takeTxn_of_mem mem same
  have sub : (front ++ back).Sublist row.prereq := by
    rw [split]
    exact (List.sublist_cons_self _ _).append_left front
  have apart : ∀ entry ∈ front ++ back, entry.txn ≠ txn := by
    intro entry mem isTxn
    have once := inv.once
    rw [split, List.map_append, List.map_cons, List.nodup_middle,
      ← List.map_append, List.nodup_cons, isFound] at once
    exact once.1 (List.mem_map.2 ⟨entry, mem, isTxn⟩)
  obtain ⟨after, updated, drained⟩ := updateBuffer_drained
    { row with
      row := data, wts := wts, prereq := front ++ back,
      preqLen := row.preqLen - 1 }
    inv.writes
    (by
      show row.minPts ≤ calMin (front ++ back) uint64Max
      rw [inv.minPts]
      exact calMin_mono sub.subset uint64Max)
    (fun read mem => (inv.reads read mem).1)
    inv.minRts
  refine ⟨after, ?_, ?_⟩
  · rw [RowTs.undo, RowTs.debufferPreq]
    show (((takeTxn txn row.prereq).map _).bind _) = _
    rw [taken]
    show ((RowTs.updateBuffer _).map _) = _
    rw [updated]
    rfl
  have isPrereq : after.prereq = front ++ back := drained.prereq
  have isReadreq : after.readreq =
      row.readreq.filter fun entry => after.minPts < entry.ts :=
    drained.readreq
  have isMin : after.minPts = calMin (front ++ back) uint64Max :=
    drained.minPts
  constructor
  · intro entry mem
    rw [isPrereq] at mem
    rw [update_of_ne (apart entry mem)]
    exact inv.prewrites entry (sub.subset mem)
  · rw [isPrereq]
    exact inv.once.sublist (sub.map _)
  · intro other stays
    rcases update_cases (· = TsPc.pending) stays with
      ⟨-, stays⟩ | ⟨ne, stays⟩
    · cases stays
    · obtain ⟨entry, mem, isOther⟩ := inv.pending other stays
      refine ⟨entry, ?_, isOther⟩
      rw [split] at mem
      rw [isPrereq]
      rcases List.mem_append.1 mem with mem | mem
      · exact List.mem_append_left _ mem
      · rcases List.mem_cons.1 mem with rfl | mem
        · exact absurd (isOther.symm.trans isFound) ne
        · exact List.mem_append_right _ mem
  · intro entry mem
    rw [isReadreq] at mem
    obtain ⟨mem, behind⟩ := List.mem_filter.1 mem
    have old := inv.reads entry mem
    refine ⟨of_decide_eq_true behind, old.2.1, ?_⟩
    rw [update_of_ne]
    · exact old.2.2
    · rintro rfl
      rw [isPending] at old
      cases old.2.2
  · intro other isWaiting
    rcases update_cases (· = TsPc.waiting) isWaiting with
      ⟨-, isWaiting⟩ | ⟨-, isWaiting⟩
    · cases isWaiting
    · rcases inv.waiting other isWaiting with ready | ⟨read, mem, isOther⟩
      · exact .inl (drained.ready other (.inl ready))
      · by_cases behind : after.minPts < read.ts
        · refine .inr ⟨read, ?_, isOther⟩
          rw [isReadreq]
          exact List.mem_filter.2 ⟨mem, decide_eq_true behind⟩
        · exact .inl (drained.ready other
            (.inr ⟨read, mem, Nat.not_lt.1 behind, isOther⟩))
  · exact drained.writereq
  · rw [isMin, isPrereq]
  · exact drained.minRts
  · intro entry mem
    rw [isPrereq] at mem
    rw [drained.wts]
    exact floor entry (sub.subset mem)
  · rw [drained.row, drained.wts]
    exact latest

omit inv in
omit [DecidableEq Txn] in
theorem Latest.write {ts : Txn → Nat} {first row data : Data} {wts : Nat}
    {history : List (TsEvent Txn Data)} {txn : Txn}
    (latest : Latest ts first row wts history) (young : wts ≤ ts txn) :
    Latest ts first data (ts txn) (history ++ [.wrote txn data]) := by
  refine .inr ⟨txn, List.mem_append_right _ (.head _), rfl, ?_⟩
  intro other stored mem
  rcases List.mem_append.1 mem with mem | mem
  · rcases latest with ⟨none, -⟩ | ⟨writer, -, isWts, largest⟩
    · exact absurd mem (none other stored)
    · have := largest other stored mem
      omega
  · cases List.mem_singleton.1 mem
    exact Nat.le_refl _

/-- Every call of `access`, if a write comes after the older prewrites. -/
theorem RowTsInv.access (bounded : ts txn ≤ uint64Max) {call : TsCall Data}
    (allowed : threads txn = call.type.allowedAt)
    (oldest : call.type = .wReq → ts txn ≤ row.minPts) :
    ∃ rc after, row.access (ts txn) txn call.type call.data = some (rc, after) ∧
      RowTsInv ts first after (update threads txn (call.type.next rc))
        (history ++ call.events txn) := by
  obtain ⟨type, data⟩ := call
  cases type with
  | rReq =>
    rw [show TsCall.events txn ⟨.rReq, data⟩ = [] from rfl, List.append_nil]
    simp only [RowTs.access, RowTs.read]
    split
    · exact ⟨_, _, rfl, inv.answer allowed row.curRow row.rts⟩
    · split
      · next behind => exact ⟨_, _, rfl, inv.delay allowed behind bounded⟩
      · exact ⟨_, _, rfl, inv.answer allowed _ _⟩
  | pReq =>
    rw [show TsCall.events txn ⟨.pReq, data⟩ = [] from rfl, List.append_nil]
    simp only [RowTs.access, RowTs.prewrite]
    split
    · exact ⟨_, _, rfl, inv.answer allowed row.curRow row.rts⟩
    · split
      · exact ⟨_, _, rfl, inv.answer allowed row.curRow row.rts⟩
      · next young =>
          exact ⟨_, _, rfl, inv.accept allowed (Nat.not_lt.1 young)⟩
  | wReq =>
    have old := oldest rfl
    have above : ∀ entry ∈ row.prereq, ts txn ≤ entry.ts := by
      intro entry mem
      rw [inv.minPts] at old
      exact Nat.le_trans old (calMin_le_of_mem mem)
    have noRead : ¬ row.minRts < ts txn := by
      rw [inv.minRts, Nat.not_lt]
      refine le_calMin bounded fun entry mem => ?_
      have := (inv.reads entry mem).1
      omega
    have young : row.wts ≤ ts txn := by
      obtain ⟨entry, mem, rfl⟩ := inv.pending txn allowed
      rw [← (inv.prewrites entry mem).1]
      exact inv.floor entry mem
    have isWts : (if row.wts < ts txn then ts txn else row.wts) = ts txn := by
      split <;> omega
    obtain ⟨after, undone, kept⟩ :=
      inv.finish allowed above (inv.latest.write young)
    refine ⟨.rcok, after, ?_, kept⟩
    simp only [RowTs.access, RowTs.write, if_neg (Nat.not_lt.2 old),
      if_neg noRead, RowTs.output, isWts]
    exact undone
  | xpReq =>
    obtain ⟨after, undone, kept⟩ := inv.finish allowed inv.floor
      ((List.append_nil history).symm ▸ inv.latest)
    exact ⟨.rcok, after, undone, kept⟩

end

/-- A write comes only after the older prewrites have ended. -/
def OldestWrite (ts : Txn → Nat) :
    Guard Txn (TsCall Data) (RowTs Txn Data) TsPc :=
  fun config txn call => call.type = .wReq → ts txn ≤ config.shared.minPts

instance (ts : Txn → Nat) (config : Config Txn (RowTs Txn Data) TsPc)
    (txn : Txn) (call : TsCall Data) :
    Decidable (OldestWrite ts config txn call) :=
  inferInstanceAs (Decidable (_ → _))

/-- Nothing is buffered and the row is up to date. -/
structure RowTsIdle (ts : Txn → Nat) (first : Data) (row : RowTs Txn Data)
    (threads : Txn → TsPc) (history : List (TsEvent Txn Data)) : Prop where
  readreq : row.readreq = []
  prereq : row.prereq = []
  writereq : row.writereq = []
  ready : ∀ txn, threads txn = .waiting → row.tsReady txn = true
  latest : Latest ts first row.row row.wts history

theorem RowTsInv.idle {ts : Txn → Nat} {first : Data} {row : RowTs Txn Data}
    {threads : Txn → TsPc} {history : List (TsEvent Txn Data)}
    (inv : RowTsInv ts first row threads history)
    (ended : ∀ txn, threads txn ≠ .pending) :
    RowTsIdle ts first row threads history := by
  have prereq : row.prereq = [] := by
    rw [List.eq_nil_iff_forall_not_mem]
    exact fun entry mem => ended _ (inv.prewrites entry mem).2
  have readreq : row.readreq = [] := by
    rw [List.eq_nil_iff_forall_not_mem]
    intro entry mem
    have behind := inv.reads entry mem
    rw [inv.minPts, prereq] at behind
    exact absurd behind.2.1 (Nat.not_le.2 behind.1)
  refine ⟨readreq, prereq, inv.writes, fun txn isWaiting => ?_, inv.latest⟩
  rcases inv.waiting txn isWaiting with ready | ⟨entry, mem, -⟩
  · exact ready
  · rw [readreq] at mem
    cases mem

/--
Basic timestamp ordering drains its buffers if no write comes before an older
prewrite has ended; every call is then answered.
-/
theorem row_ts_drains [DecidableEq Txn] {ts : Txn → Nat}
    (bounded : ∀ txn, ts txn ≤ uint64Max) {first : Data} {curRow : Txn → Data}
    {tsReady : Txn → Bool} {history : List (TsEvent Txn Data)}
    {config : Config Txn (RowTs Txn Data) TsPc}
    (run : (rowTsMachine ts).RunWhere (OldestWrite ts)
      (rowTsStart first curRow tsReady) history config) :
    ((∀ txn, config.threads txn ≠ .pending) →
      RowTsIdle ts first config.shared config.threads history) ∧
    ∀ txn call, config.threads txn = call.type.allowedAt →
      OldestWrite ts config txn call →
      ∃ outcome, (rowTsMachine ts).step txn call config.shared
        (config.threads txn) = some outcome := by
  have inv : RowTsInv ts first config.shared config.threads history := by
    refine run.invariant (fun history config =>
        RowTsInv ts first config.shared config.threads history) ?_ ?_
    · exact ⟨nofun, .nil, nofun, nofun, nofun, rfl, rfl, rfl, nofun,
        .inl ⟨fun _ _ => List.not_mem_nil, rfl⟩⟩
    · intro history config txn call outcome inv oldest stepped
      simp only [rowTsMachine] at stepped
      split at stepped
      · next allowed =>
          obtain ⟨rc, after, answered, kept⟩ :=
            inv.access (bounded txn) allowed oldest
          rw [answered] at stepped
          cases stepped
          exact kept
      · cases stepped
  refine ⟨inv.idle, fun txn call allowed oldest => ?_⟩
  obtain ⟨rc, after, answered, -⟩ := inv.access (bounded txn) allowed oldest
  simp only [rowTsMachine, if_pos allowed, answered]
  exact ⟨_, rfl⟩

end

/-- The timestamps of three transactions. -/
def threeStamps (txn : Fin 3) : Nat :=
  txn + 1

theorem threeStamps_le (txn : Fin 3) : threeStamps txn ≤ uint64Max := by
  have := txn.isLt
  simp only [threeStamps, uint64Max]
  omega

/-- A read waits behind a prewrite and is served by its write. -/
theorem row_ts_drains_read :
    ∃ (config : Config (Fin 3) (RowTs (Fin 3) Nat) TsPc) (history : _),
      config.threads 1 = .waiting ∧ config.shared.row = 8 ∧
      RowTsIdle threeStamps 7 config.shared config.threads history := by
  have executed :
      ((rowTsMachine threeStamps).executeWhere (OldestWrite threeStamps)
        (rowTsStart 7 (fun _ => 0) fun _ => false)
        [(0, ⟨.pReq, 0⟩), (1, ⟨.rReq, 0⟩), (0, ⟨.wReq, 8⟩)]).map
        (fun result => (result.1.threads 1, result.1.shared.row,
          decide (∀ txn, result.1.threads txn ≠ .pending))) =
      some (TsPc.waiting, 8, true) := by decide +kernel
  obtain ⟨⟨config, history⟩, ran, same⟩ := Option.map_eq_some_iff.1 executed
  simp only [Prod.mk.injEq] at same
  obtain ⟨waits, isRow, ended⟩ := same
  exact ⟨config, history, waits, isRow,
    (row_ts_drains threeStamps_le (Machine.runWhere_of_execute ran)).1
      (of_decide_eq_true ended)⟩

/--
A write that comes before an older prewrite has ended stays in the buffer with
its own prewrite, although every prewrite has had its write.
-/
theorem row_ts_write_stranded :
    ∃ (config : Config (Fin 3) (RowTs (Fin 3) Nat) TsPc) (history : _),
      (rowTsMachine threeStamps).Run
        (rowTsStart 7 (fun _ => 0) fun _ => false) history config ∧
      (∀ txn, config.threads txn ≠ .pending) ∧
      history = [.wrote 1 9, .wrote 0 8] ∧
      config.shared.writereq ≠ [] ∧ config.shared.prereq ≠ [] ∧
      config.shared.row = 8 := by
  have executed : ((rowTsMachine threeStamps).execute
        (rowTsStart 7 (fun _ => 0) fun _ => false)
        [(0, ⟨.pReq, 0⟩), (1, ⟨.pReq, 0⟩), (1, ⟨.wReq, 9⟩),
          (0, ⟨.wReq, 8⟩)]).map
        (fun result =>
          (decide (∀ txn, result.1.threads txn ≠ .pending), result.2,
            result.1.shared.writereq.length,
            result.1.shared.prereq.length, result.1.shared.row)) =
      some (true, [.wrote 1 9, .wrote 0 8], 1, 1, 8) := by decide +kernel
  obtain ⟨⟨config, history⟩, ran, same⟩ := Option.map_eq_some_iff.1 executed
  simp only [Prod.mk.injEq] at same
  obtain ⟨ended, isHistory, writes, prewrites, isRow⟩ := same
  refine ⟨config, history, Machine.run_of_execute ran,
    of_decide_eq_true ended, isHistory, ?_, ?_, isRow⟩
  · exact List.ne_nil_of_length_pos (by omega)
  · exact List.ne_nil_of_length_pos (by omega)

end Lockfreec.Bench
