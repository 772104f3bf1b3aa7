import Lockfreec.Lib.Interleaving
import Mathlib.Algebra.Group.Nat.Defs

/-!
# Timestamp allocation

The model of `Manager::get_ts` with `TS_CAS` and of `thread_t::get_next_ts`.
With `g_ts_batch_alloc`, a thread draws a batch of timestamps at once and
takes the end of its batch from the residue of its own counter: it stops at
the next multiple of `g_ts_batch_num`, which no batch reaches over.
-/

namespace Lockfreec.Bench.Timestamps

open Function Lib.Interleaving

/-- `g_ts_batch_alloc` and `g_ts_batch_num`. -/
structure Batching where
  alloc : Bool
  num : Nat

/-- `get_ts` with `TS_CAS`: the timestamp and the counter behind it. -/
def getTs (batching : Batching) (timestamp : Nat) : Nat × Nat :=
  (timestamp, (timestamp + if batching.alloc then batching.num else 1) % 2 ^ 64)

/-- What `get_next_ts` leaves behind. -/
structure Drawn where
  time : Nat
  timestamp : Nat
  currTs : Nat

/-- `get_next_ts`. -/
def getNextTs (batching : Batching) (timestamp currTs : Nat) : Drawn :=
  if batching.alloc then
    let drawn :=
      if currTs % batching.num = 0 then getTs batching timestamp
      else (currTs, timestamp)
    let next := (drawn.1 + 1) % 2 ^ 64
    ⟨(next + (2 ^ 64 - 1)) % 2 ^ 64, drawn.2, next⟩
  else
    let drawn := getTs batching timestamp
    ⟨drawn.1, drawn.2, drawn.1⟩

inductive TsCall where
  | getTs
  | getNextTs
deriving DecidableEq

/-- A call that has returned. -/
structure TsEvent (Tid : Type) where
  tid : Tid
  call : TsCall
  time : Nat

/-- Threads that call both functions.  The one access to shared memory of a
call is its atomic addition. -/
def tsMachine (Tid : Type) (batching : Batching) :
    Machine Tid TsCall Nat Nat (TsEvent Tid) where
  step tid call timestamp currTs :=
    match call with
    | .getTs =>
      let drawn := getTs batching timestamp
      some ⟨drawn.2, currTs, [⟨tid, call, drawn.1⟩]⟩
    | .getNextTs =>
      let drawn := getNextTs batching timestamp currTs
      some ⟨drawn.timestamp, drawn.currTs, [⟨tid, call, drawn.time⟩]⟩

/-- After `Manager::init`, with `_curr_ts` zero in every thread. -/
def tsStart (Tid : Type) : Config Tid Nat Nat where
  shared := 1
  threads := fun _ => 0

/-- The counter does not wrap. -/
abbrev NoWrap {Tid : Type} (batching : Batching) :
    Guard Tid TsCall Nat Nat :=
  fun config _ _ => config.shared + batching.num < 2 ^ 64

/-! ## The invariant -/

/-- Two calls, the earlier one first. -/
def Follows {Tid : Type} (earlier later : TsEvent Tid) : Prop :=
  earlier.time ≠ later.time ∧
    (earlier.tid = later.tid → earlier.call = .getNextTs →
      later.call = .getNextTs → earlier.time < later.time)

/-- The timestamps that a thread may still take from its batch. -/
def Reserved (num currTs time : Nat) : Prop :=
  currTs % num ≠ 0 ∧ currTs ≤ time ∧ time / num = currTs / num

section

variable {Tid : Type}

structure TsInv (num : Nat) (history : List (TsEvent Tid)) (timestamp : Nat)
    (currTs : Tid → Nat) : Prop where
  below : ∀ event ∈ history, event.time < timestamp
  reserved : ∀ tid time, Reserved num (currTs tid) time → time < timestamp ∧
    ∀ event ∈ history, event.time ≠ time
  apart : ∀ left right, left ≠ right → ∀ time,
    Reserved num (currTs left) time → ¬ Reserved num (currTs right) time
  passed : ∀ event ∈ history, event.call = .getNextTs →
    event.time < currTs event.tid
  follows : history.Pairwise Follows

/-- A batch does not reach over the next multiple of its size. -/
theorem Reserved.lt {num timestamp time : Nat} (positive : 0 < num)
    (reserved : Reserved num (timestamp + 1) time) :
    timestamp < time ∧ time < timestamp + num := by
  rcases reserved with ⟨inside, above, same⟩
  have split := Nat.div_add_mod (timestamp + 1) num
  have upper := Nat.lt_mul_div_succ time positive
  rw [same, Nat.mul_add] at upper
  omega

theorem Reserved.rest {num currTs time : Nat}
    (more : Reserved num (currTs + 1) time) (inside : currTs % num ≠ 0) :
    Reserved num currTs time ∧ time ≠ currTs := by
  rcases more with ⟨insideNext, above, same⟩
  have notDvd : ¬ num ∣ currTs + 1 := fun dvd =>
    insideNext (Nat.mod_eq_zero_of_dvd dvd)
  rw [Nat.succ_div, if_neg notDvd, Nat.add_zero] at same
  exact ⟨⟨inside, by omega, same⟩, by omega⟩

namespace TsInv

variable {num timestamp next time : Nat} {history : List (TsEvent Tid)}
  {currTs : Tid → Nat} {tid : Tid} {call : TsCall}

variable [DecidableEq Tid]

theorem snoc (inv : TsInv num history timestamp currTs) {after : Nat}
    (older : timestamp ≤ after) (fits : time < after)
    (fresh : ∀ event ∈ history, event.time ≠ time)
    (notReserved : ∀ other, other ≠ tid → ¬ Reserved num (currTs other) time)
    (own : ∀ left, Reserved num next left → left < after ∧ time ≠ left ∧
      (timestamp ≤ left ∨ Reserved num (currTs tid) left))
    (passes : ∀ event ∈ history, event.tid = tid → event.call = .getNextTs →
      event.time < next ∧ (call = .getNextTs → event.time < time))
    (last : call = .getNextTs → time < next) :
    TsInv num (history ++ [⟨tid, call, time⟩]) after
      (update currTs tid next) := by
  have others : ∀ other, other ≠ tid → ∀ left, Reserved num next left →
      ¬ Reserved num (currTs other) left := by
    intro other different left isOwn isOther
    rcases (own left isOwn).2.2 with new | old
    · have before := (inv.reserved other left isOther).1
      omega
    · exact inv.apart other tid different left isOther old
  constructor
  case below =>
    refine List.forall_mem_append.2 ⟨?_, List.forall_mem_singleton.2 fits⟩
    exact fun event mem => Nat.lt_of_lt_of_le (inv.below event mem) older
  case reserved =>
    intro other left isReserved
    rcases update_cases (Reserved num · left) isReserved with
      ⟨-, isOwn⟩ | ⟨different, isOther⟩
    · rcases own left isOwn with ⟨bound, ne, origin⟩
      refine ⟨bound, List.forall_mem_append.2
        ⟨?_, List.forall_mem_singleton.2 ne⟩⟩
      intro event mem
      rcases origin with new | old
      · have before := inv.below event mem
        omega
      · exact (inv.reserved tid left old).2 event mem
    · rcases inv.reserved other left isOther with ⟨bound, notUsed⟩
      refine ⟨Nat.lt_of_lt_of_le bound older, List.forall_mem_append.2
        ⟨notUsed, List.forall_mem_singleton.2 ?_⟩⟩
      rintro rfl
      exact notReserved other different isOther
  case apart =>
    intro left right different each
    exact pairwise_update (fun left right => Reserved num left each →
      ¬ Reserved num right each)
      (fun left right different => inv.apart left right different each)
      (fun other different => ⟨others other different each,
        fun isOther isOwn => others other different each isOwn isOther⟩)
      left right different
  case passed =>
    refine List.forall_mem_append.2 ⟨?_, List.forall_mem_singleton.2 ?_⟩
    · intro event mem isNext
      by_cases isTid : event.tid = tid
      · rw [isTid, update_self]
        exact (passes event mem isTid isNext).1
      · rw [update_of_ne isTid]
        exact inv.passed event mem isNext
    · intro isNext
      rw [update_self]
      exact last isNext
  case follows =>
    refine List.pairwise_append.2 ⟨inv.follows, List.pairwise_singleton _ _, ?_⟩
    intro event mem _ isLast
    rw [List.mem_singleton.1 isLast]
    exact ⟨fresh event mem, fun isTid isNext =>
      (passes event mem isTid isNext).2⟩

theorem draw (inv : TsInv num history timestamp currTs) (positive : 0 < num)
    (isNext : next = timestamp + 1 ∨ call = .getTs ∧ next = currTs tid) :
    TsInv num (history ++ [⟨tid, call, timestamp⟩]) (timestamp + num)
      (update currTs tid next) := by
  refine inv.snoc (by omega) (by omega)
    (fun event mem => Nat.ne_of_lt (inv.below event mem)) ?_ ?_ ?_ ?_
  · intro other _ isReserved
    exact absurd (inv.reserved other timestamp isReserved).1 (by omega)
  · intro left isReserved
    rcases isNext with rfl | ⟨-, rfl⟩
    · have bounds := isReserved.lt positive
      exact ⟨bounds.2, by omega, .inl (by omega)⟩
    · have bound := (inv.reserved tid left isReserved).1
      exact ⟨by omega, by omega, .inr isReserved⟩
  · intro event mem isTid passed
    have bound := inv.below event mem
    refine ⟨?_, fun _ => bound⟩
    rcases isNext with rfl | ⟨-, rfl⟩
    · omega
    · rw [← isTid]
      exact inv.passed event mem passed
  · rintro rfl
    rcases isNext with rfl | ⟨isOther, -⟩
    · omega
    · cases isOther

theorem take (inv : TsInv num history timestamp currTs)
    (inside : currTs tid % num ≠ 0) :
    TsInv num (history ++ [⟨tid, .getNextTs, currTs tid⟩]) timestamp
      (update currTs tid (currTs tid + 1)) := by
  have own : Reserved num (currTs tid) (currTs tid) := ⟨inside, Nat.le_refl _, rfl⟩
  rcases inv.reserved tid _ own with ⟨bound, fresh⟩
  refine inv.snoc (Nat.le_refl _) bound fresh (fun other different isOther =>
      inv.apart other tid different _ isOther own) ?_ ?_ (fun _ => by omega)
  · intro left more
    rcases more.rest inside with ⟨isReserved, ne⟩
    exact ⟨(inv.reserved tid left isReserved).1, ne.symm, .inr isReserved⟩
  · intro event mem isTid isNext
    have passed := inv.passed event mem isNext
    rw [isTid] at passed
    exact ⟨by omega, fun _ => passed⟩

theorem step {config : Config Tid Nat Nat}
    (inv : TsInv num history config.shared config.threads) (positive : 0 < num)
    (noWrap : config.shared + num < 2 ^ 64)
    {outcome : Outcome Nat Nat (TsEvent Tid)}
    (stepped : (tsMachine Tid ⟨true, num⟩).step tid call config.shared
      (config.threads tid) = some outcome) :
    TsInv num (history ++ outcome.events) outcome.shared
      (update config.threads tid outcome.thread) := by
  have counter : (config.shared + num) % 2 ^ 64 = config.shared + num :=
    Nat.mod_eq_of_lt noWrap
  have back : ∀ time, time + 1 < 2 ^ 64 → (time + 1) % 2 ^ 64 = time + 1 ∧
        (time + 1 + (2 ^ 64 - 1)) % 2 ^ 64 = time := by
    intro time fits
    omega
  cases call with
  | getTs =>
    cases stepped
    simp only [getTs, if_true, counter]
    exact inv.draw positive (.inr ⟨rfl, rfl⟩)
  | getNextTs =>
    cases stepped
    simp only [getNextTs, if_true]
    by_cases used : config.threads tid % num = 0
    · rcases back config.shared (by omega) with ⟨forth, back⟩
      simp only [getTs, if_pos used, if_true, counter, forth, back]
      exact inv.draw positive (.inl rfl)
    · have bound := (inv.reserved tid _ ⟨used, Nat.le_refl _, rfl⟩).1
      rcases back (config.threads tid) (by omega) with ⟨forth, back⟩
      simp only [if_neg used, forth, back]
      exact inv.take used

end TsInv

variable [DecidableEq Tid]

/--
While the counter does not wrap, the timestamps that all calls of all threads
return are distinct, and those that `get_next_ts` returns to one thread grow.
-/
theorem timestamps_unique {num : Nat} (positive : 0 < num)
    {history : List (TsEvent Tid)} {config : Config Tid Nat Nat}
    (run : (tsMachine Tid ⟨true, num⟩).RunWhere (NoWrap ⟨true, num⟩)
      (tsStart Tid) history config) :
    history.Pairwise Follows := by
  have inv : TsInv num history config.shared config.threads := by
    apply run.invariant fun history config =>
      TsInv num history config.shared config.threads
    · constructor <;> simp [tsStart, Reserved]
    · intro history config tid call outcome inv noWrap stepped
      exact inv.step positive noWrap stepped
  exact inv.follows

/-- A thread takes two timestamps of its batch of three, and then draws
another one. -/
theorem timestamps_unique_batch :
    ∃ history : List (TsEvent Bool), history.map TsEvent.time = [1, 4, 2, 7] ∧
      history.Pairwise Follows := by
  have executed : (tsMachine Bool ⟨true, 3⟩).executeWhere (NoWrap ⟨true, 3⟩)
      (tsStart Bool) [(false, .getNextTs), (true, .getTs), (false, .getNextTs),
        (false, .getNextTs)] = some (_, _) := rfl
  exact ⟨_, rfl, timestamps_unique (by decide)
    (Machine.runWhere_of_execute executed)⟩

end

end Lockfreec.Bench.Timestamps
