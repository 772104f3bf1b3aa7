import Lockfreec.Lib.History
import Mathlib.Logic.Function.Basic

/-!
# Serial execution of logged transactions

A log lists transactions with what they read and what they write, in the order
of their stamps.  It is serial if every transaction reads what the ones before
it leave behind when they are executed one after the other.  Every read then
returns what the writer with the largest stamp below that of the reader wrote.
-/

namespace Lockfreec.Lib.SerialLog

open Function Lib.History

/-- A transaction of a log. -/
structure Logged (Id Row Data : Type) where
  id : Id
  stamp : Nat
  reads : List (Row × Data)
  writes : List (Row × Data)
deriving DecidableEq, Repr

section

variable {Id Row Data : Type} [DecidableEq Row]

/-- Store rows one after the other. -/
def store (state : Row → Data) (writes : List (Row × Data)) : Row → Data :=
  writes.foldl (fun state write => update state write.1 write.2) state

/-- Execute the transactions of a log. -/
def replay (init : Row → Data) (log : List (Logged Id Row Data)) :
    Row → Data :=
  log.foldl (fun state txn => store state txn.writes) init

/-- Every transaction reads what the ones before it have left. -/
def Serial (init : Row → Data) : List (Logged Id Row Data) → Prop :=
  Emitted fun before txn =>
    ∀ read ∈ txn.reads, replay init before read.1 = read.2

theorem store_of_not_mem {state : Row → Data} {writes : List (Row × Data)}
    {row : Row} (absent : row ∉ writes.map Prod.fst) :
    store state writes row = state row := by
  induction writes generalizing state with
  | nil => rfl
  | cons write rest ih =>
    rw [List.map_cons, List.mem_cons, not_or] at absent
    show store (update state write.1 write.2) rest row = state row
    rw [ih absent.2, update_of_ne absent.1]

theorem store_of_mem {state : Row → Data} {writes : List (Row × Data)}
    (once : (writes.map Prod.fst).Nodup) {write : Row × Data}
    (mem : write ∈ writes) : store state writes write.1 = write.2 := by
  induction writes generalizing state with
  | nil => cases mem
  | cons first rest ih =>
    rw [List.map_cons, List.nodup_cons] at once
    show store (update state first.1 first.2) rest write.1 = write.2
    rcases List.mem_cons.1 mem with rfl | mem
    · rw [store_of_not_mem once.1, update_self]
    · exact ih once.2 mem

theorem replay_snoc (init : Row → Data) (log : List (Logged Id Row Data))
    (txn : Logged Id Row Data) :
    replay init (log ++ [txn]) = store (replay init log) txn.writes := by
  rw [replay, List.foldl_append]
  rfl

/-- A row holds what its last writer has left, or its initial contents. -/
theorem replay_cases (init : Row → Data) (log : List (Logged Id Row Data))
    (once : ∀ txn ∈ log, (txn.writes.map Prod.fst).Nodup) (row : Row) :
    (replay init log row = init row ∧
        ∀ txn ∈ log, row ∉ txn.writes.map Prod.fst) ∨
      ∃ before txn after, log = before ++ txn :: after ∧
        (row, replay init log row) ∈ txn.writes ∧
        ∀ later ∈ after, row ∉ later.writes.map Prod.fst := by
  induction log using List.reverseRecOn with
  | nil => exact .inl ⟨rfl, nofun⟩
  | append_singleton log txn ih =>
    by_cases writes : row ∈ txn.writes.map Prod.fst
    · obtain ⟨⟨row, data⟩, mem, rfl⟩ := List.mem_map.1 writes
      refine .inr ⟨log, txn, [], rfl, ?_, nofun⟩
      rw [replay_snoc, store_of_mem (once txn (by simp)) mem]
      exact mem
    · have same : replay init (log ++ [txn]) row = replay init log row := by
        rw [replay_snoc, store_of_not_mem writes]
      rw [same]
      rcases ih fun each mem => once each (by simp [mem]) with
        ⟨initial, none⟩ | ⟨before, writer, after, rfl, wrote, none⟩
      · refine .inl ⟨initial, fun each mem => ?_⟩
        rcases List.mem_append.1 mem with mem | mem
        · exact none each mem
        · rw [List.mem_singleton.1 mem]
          exact writes
      · refine .inr ⟨before, writer, after ++ [txn], by simp, wrote, ?_⟩
        intro each mem
        rcases List.mem_append.1 mem with mem | mem
        · exact none each mem
        · rw [List.mem_singleton.1 mem]
          exact writes

/-- What a reader with a stamp has to be given: what the writer with the
largest smaller stamp wrote. -/
def LargestBelow (init : Row → Data) (log : List (Logged Id Row Data))
    (stamp : Nat) (row : Row) (data : Data) : Prop :=
  (data = init row ∧
      ∀ txn ∈ log, txn.stamp < stamp → row ∉ txn.writes.map Prod.fst) ∨
    ∃ writer ∈ log, writer.stamp < stamp ∧ (row, data) ∈ writer.writes ∧
      ∀ txn ∈ log, writer.stamp < txn.stamp → txn.stamp < stamp →
        row ∉ txn.writes.map Prod.fst

/-- In a serial log every read returns what was written last below it. -/
theorem Serial.largestBelow {init : Row → Data}
    {log : List (Logged Id Row Data)} (serial : Serial init log)
    (once : ∀ txn ∈ log, (txn.writes.map Prod.fst).Nodup)
    (increasing : log.Pairwise fun first second => first.stamp < second.stamp)
    {txn : Logged Id Row Data} (mem : txn ∈ log) {read : Row × Data}
    (isRead : read ∈ txn.reads) :
    LargestBelow init log txn.stamp read.1 read.2 := by
  obtain ⟨before, after, rfl⟩ := List.append_of_mem mem
  have value := serial before txn after rfl read isRead
  rw [List.pairwise_append, List.pairwise_cons] at increasing
  obtain ⟨inBefore, ⟨above, -⟩, below⟩ := increasing
  have early : ∀ each ∈ before ++ txn :: after, each.stamp < txn.stamp →
      each ∈ before := by
    intro each mem less
    rcases List.mem_append.1 mem with mem | mem
    · exact mem
    · rcases List.mem_cons.1 mem with rfl | mem
      · exact absurd less (Nat.lt_irrefl _)
      · exact absurd (above each mem) (Nat.not_lt_of_gt less)
  rcases replay_cases init before
    (fun each mem => once each (by simp [mem])) read.1 with
    ⟨initial, none⟩ | ⟨front, writer, back, rfl, wrote, none⟩
  · refine .inl ⟨value ▸ initial, fun each mem less => ?_⟩
    exact none each (early each mem less)
  · rw [value] at wrote
    refine .inr ⟨writer, by simp, below writer (by simp) txn (.head _),
      wrote, fun each mem later less => ?_⟩
    rw [List.pairwise_append, List.pairwise_cons] at inBefore
    rcases List.mem_append.1 (early each mem less) with mem | mem
    · have := inBefore.2.2 each mem writer (.head _)
      omega
    · rcases List.mem_cons.1 mem with rfl | mem
      · exact absurd later (Nat.lt_irrefl _)
      · exact none each mem

end

end Lockfreec.Lib.SerialLog
