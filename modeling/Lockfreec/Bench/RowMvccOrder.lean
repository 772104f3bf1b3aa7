import Lockfreec.Bench.RowMvccRequests

/-!
# Timestamp order on a multi-version row

The invariant ties the fields of the row to the transactions: the prewrite of
the row is that of the one transaction whose prewrite is granted, pending
requests are behind it, and every read that has been served lies below it and
below everything that can still be granted.  One lemma per outcome of a call
keeps it, and each of them shows that the call meets its assertions.
-/

namespace Lockfreec.Bench

open Function Lib.Interleaving

variable {Txn : Type}

/-- A request in a slot, and the transaction that waits for it. -/
structure PendingReq (ts : Txn → Nat) (mvcc : RowMvcc Txn)
    (threads : Txn → MvccPc) (request : ReqEntry Txn) : Prop where
  behind : mvcc.existsPrewrite = true ∧ mvcc.prewriteTs < request.ts
  stamp : request.ts = ts request.txn
  waits : threads request.txn = .waiting request.type
  notReady : mvcc.tsReady request.txn = false
  type : request.type = .rReq ∨ request.type = .pReq

/-- A read that was served before a commit lies below it. -/
def ServedBelow (ts : Txn → Nat) (earlier later : MvccEvent Txn) : Prop :=
  ∀ reader wts writer, earlier = .served reader wts →
    later = .committed writer → ts reader < ts writer

structure MvccInv (ts : Txn → Nat) (history : List (MvccEvent Txn))
    (mvcc : RowMvcc Txn) (threads : Txn → MvccPc) : Prop where
  state : Settled mvcc ∨ ∃ holder, Granted mvcc (threads holder) holder ∧
      Reserved mvcc (mvcc.curRow holder) ∧ mvcc.latestWts < ts holder
  granted : ∀ txn, Granted mvcc (threads txn) txn →
    mvcc.existsPrewrite = true ∧ mvcc.prewriteTs = ts txn
  requests : RequestsOk (PendingReq ts mvcc threads) mvcc.requests
  started : ∀ txn, threads txn = .unused → ts txn ≠ mvcc.latestWts
  served : ∀ reader wts, .served reader wts ∈ history →
    threads reader ≠ .unused ∧ (ts reader ≤ mvcc.latestWts ∨
        ts reader ≤ mvcc.maxServedRts) ∧
      (mvcc.existsPrewrite = true → ts reader < mvcc.prewriteTs)
  order : history.Pairwise (ServedBelow ts)

section

variable {ts : Txn → Nat} {history : List (MvccEvent Txn)} {mvcc : RowMvcc Txn}
  {threads : Txn → MvccPc} {txn : Txn}

variable {pc : MvccPc} {request : ReqEntry Txn}

theorem Granted.ne_unused (granted : Granted mvcc pc txn) : pc ≠ .unused := by
  rintro rfl
  rcases granted with holds | ⟨waits, -⟩
  · cases holds
  · cases waits

theorem PendingReq.not_granted (pending : PendingReq ts mvcc threads request) :
    ¬ Granted mvcc (threads request.txn) request.txn := by
  rintro (holds | ⟨-, ready⟩)
  · rw [pending.waits] at holds
    cases holds
  · rw [pending.notReady] at ready
    cases ready

theorem PendingReq.ne_unused (pending : PendingReq ts mvcc threads request)
    (unused : threads txn = .unused) : request.txn ≠ txn := by
  rintro rfl
  rw [pending.waits] at unused
  cases unused

theorem stamp_ne (distinct : Injective ts) (unused : threads txn = .unused)
    {other : Txn} (used : threads other ≠ .unused) : ts txn ≠ ts other := by
  intro same
  rw [distinct same] at unused
  exact used unused

section

variable (inv : MvccInv ts history mvcc threads)

include inv

theorem MvccInv.granted_unique (distinct : Injective ts) {other : Txn}
    (left : Granted mvcc (threads txn) txn)
    (right : Granted mvcc (threads other) other) :
    txn = other := by
  apply distinct
  rw [← (inv.granted txn left).2, ← (inv.granted other right).2]

theorem MvccInv.holder (exist : mvcc.existsPrewrite = true) :
    ∃ holder, Granted mvcc (threads holder) holder ∧
      Reserved mvcc (mvcc.curRow holder) ∧ mvcc.latestWts < ts holder ∧
          mvcc.prewriteTs = ts holder := by
  rcases inv.state with settled | ⟨holder, granted, reserved, later⟩
  · rw [settled.1] at exist
    cases exist
  · exact ⟨holder, granted, reserved, later, (inv.granted holder granted).2⟩

theorem MvccInv.settled (idle : mvcc.existsPrewrite = false) :
    Settled mvcc := by
  rcases inv.state with settled | ⟨holder, -, reserved, -⟩
  · exact settled
  · rw [reserved.1] at idle
    cases idle

theorem MvccInv.requestAsserts :
    mvcc.requestAsserts := by
  intro request mem valid
  have pending := inv.requests.each request mem valid
  obtain ⟨holder, -, -, later, same⟩ := inv.holder pending.behind.1
  have behind := pending.behind.2
  exact ⟨by omega, fun _ => behind⟩

end

/-- Nothing has to lie below a read. -/
theorem order_append (order : history.Pairwise (ServedBelow ts))
    {events : List (MvccEvent Txn)}
    (reads : ∀ event ∈ events, ∃ reader wts, event = .served reader wts) :
    (history ++ events).Pairwise (ServedBelow ts) := by
  have below : ∀ earlier, ∀ later ∈ events, ServedBelow ts earlier later := by
    rintro earlier later mem reader wts writer - rfl
    obtain ⟨_, _, same⟩ := reads _ mem
    cases same
  refine List.pairwise_append.2 ⟨order, ?_, fun earlier _ => below earlier⟩
  exact List.pairwise_of_forall_mem_list fun earlier _ => below earlier

variable [DecidableEq Txn]

theorem update_used {other : Txn} (unused : threads txn = .unused)
    (used : threads other ≠ .unused) :
    update threads txn pc other = threads other := by
  rw [update_of_ne]
  rintro rfl
  exact used unused

/-! ## The first call of a transaction -/

section

variable (inv : MvccInv ts history mvcc threads)

include inv

/--
A first call that leaves the prewrite and the pending requests of others as
they are: the clauses of the invariant about the other transactions.
-/
theorem MvccInv.served_first (unused : threads txn = .unused)
    (used : pc ≠ .unused) {shared : RowMvcc Txn} {events : List (MvccEvent Txn)}
    (latest : shared.latestWts = mvcc.latestWts)
    (grows : mvcc.maxServedRts ≤ shared.maxServedRts)
    (below : ∀ reader, threads reader ≠ .unused → ts reader ≤ mvcc.latestWts ∨
        ts reader ≤ mvcc.maxServedRts →
      (mvcc.existsPrewrite = true → ts reader < mvcc.prewriteTs) →
      shared.existsPrewrite = true → ts reader < shared.prewriteTs)
    (emitted : ∀ event ∈ events, ∃ wts, event = .served txn wts ∧
      (ts txn ≤ shared.latestWts ∨ ts txn ≤ shared.maxServedRts) ∧
        (shared.existsPrewrite = true → ts txn < shared.prewriteTs)) :
    ∀ reader wts, .served reader wts ∈ history ++ events →
      update threads txn pc reader ≠ .unused ∧
        (ts reader ≤ shared.latestWts ∨ ts reader ≤ shared.maxServedRts) ∧
        (shared.existsPrewrite = true → ts reader < shared.prewriteTs) := by
  intro reader wts mem
  rcases List.mem_append.1 mem with mem | mem
  · obtain ⟨isUsed, reached, isBelow⟩ := inv.served reader wts mem
    rw [update_used unused isUsed, latest]
    exact ⟨isUsed, reached.imp id fun reach => Nat.le_trans reach grows,
      below reader isUsed reached isBelow⟩
  · obtain ⟨_, same, reached, isBelow⟩ := emitted _ mem
    cases same
    rw [update_self]
    exact ⟨used, reached, isBelow⟩

theorem MvccInv.started_first (used : pc ≠ .unused) (other : Txn)
    (unused : update threads txn pc other = .unused) :
    ts other ≠ mvcc.latestWts := by
  rcases update_cases (· = MvccPc.unused) unused with
    ⟨-, own⟩ | ⟨-, before⟩
  · exact absurd own used
  · exact inv.started other before

theorem MvccInv.answer (unused : threads txn = .unused) {curRow : Txn → Nat}
    {maxServedRts : Nat} {events : List (MvccEvent Txn)}
    (others : ∀ other, other ≠ txn → curRow other = mvcc.curRow other)
    (grows : mvcc.maxServedRts ≤ maxServedRts)
    (emitted : ∀ event ∈ events, ∃ wts, event = .served txn wts ∧
      (ts txn ≤ mvcc.latestWts ∨ ts txn ≤ maxServedRts) ∧
        (mvcc.existsPrewrite = true → ts txn < mvcc.prewriteTs)) :
    MvccInv ts (history ++ events)
      { mvcc with curRow := curRow, maxServedRts := maxServedRts }
      (update threads txn .done) := by
  constructor
  · rcases inv.state with settled | ⟨holder, granted, reserved, later⟩
    · exact .inl settled
    · refine .inr ⟨holder, ?_, ?_, later⟩
      · rw [update_used unused granted.ne_unused]
        exact granted
      · have apart : holder ≠ txn := by
          rintro rfl
          exact granted.ne_unused unused
        show Reserved _ (curRow holder)
        rw [others holder apart]
        exact reserved
  · intro other granted
    rcases update_cases (Granted mvcc · other) granted with
      ⟨-, holds | ⟨waits, -⟩⟩ | ⟨-, before⟩
    · cases holds
    · cases waits
    · exact inv.granted other before
  · refine inv.requests.imp ?_
    intro request _ _ pending
    refine ⟨pending.behind, pending.stamp, ?_, pending.notReady, pending.type⟩
    rw [update_of_ne (pending.ne_unused unused)]
    exact pending.waits
  · exact inv.started_first MvccPc.noConfusion
  · exact inv.served_first unused MvccPc.noConfusion rfl grows
      (fun _ _ _ below => below) emitted
  · refine order_append inv.order ?_
    intro event mem
    obtain ⟨wts, same, -⟩ := emitted event mem
    exact ⟨txn, wts, same⟩

theorem MvccInv.delay (distinct : Injective ts) (unused : threads txn = .unused)
    {type : TsType} (isType : type = .rReq ∨ type = .pReq)
    (exist : mvcc.existsPrewrite = true) (behind : mvcc.prewriteTs < ts txn) :
    ∃ delayed, mvcc.delay type (ts txn) txn = some delayed ∧
      MvccInv ts (history ++ []) delayed
        (update threads txn (.waiting type)) := by
  have ready : ∀ {other}, threads other ≠ .unused →
      update mvcc.tsReady txn false other = mvcc.tsReady other := by
    intro other used
    rw [update_of_ne]
    rintro rfl
    exact used unused
  have kept : RequestsOk (PendingReq ts
      { mvcc with tsReady := update mvcc.tsReady txn false }
      (update threads txn (.waiting type))) mvcc.requests := by
    refine inv.requests.imp ?_
    intro request _ _ pending
    have used : threads request.txn ≠ .unused := by
      rw [pending.waits]
      exact MvccPc.noConfusion
    refine ⟨pending.behind, pending.stamp, ?_, ?_, pending.type⟩
    · rw [update_used unused used]
      exact pending.waits
    · exact (ready used).trans pending.notReady
  have apart : ∀ other ∈ mvcc.requests, other.valid = true →
      other.ts ≠ ts txn := by
    intro other mem valid same
    have pending := inv.requests.each other mem valid
    rw [pending.stamp] at same
    exact pending.ne_unused unused (distinct same)
  have own : PendingReq ts
      { mvcc with tsReady := update mvcc.tsReady txn false }
      (update threads txn (.waiting type))
      ⟨true, type, ts txn, txn⟩ :=
    ⟨⟨exist, behind⟩, rfl, update_self _ _ _, update_self _ _ _, isType⟩
  obtain ⟨filled, buffers, ok⟩ := bufferReq_ok kept own apart
  refine ⟨{ mvcc with
      requests := filled
      tsReady := update mvcc.tsReady txn false }, ?_, ?_⟩
  · rw [RowMvcc.delay, buffers]
    rfl
  constructor
  · obtain ⟨holder, granted, reserved, later, -⟩ := inv.holder exist
    refine .inr ⟨holder, ?_, reserved, later⟩
    rw [update_used unused granted.ne_unused]
    exact granted.imp id fun waits =>
      ⟨waits.1, (ready granted.ne_unused).trans waits.2⟩
  · intro other granted
    by_cases same : other = txn
    · subst same
      rcases granted with holds | ⟨-, isReady⟩
      · rw [update_self] at holds
        cases holds
      · have notReady : update mvcc.tsReady other false other =
            true := isReady
        rw [update_self] at notReady
        cases notReady
    · refine inv.granted other ?_
      rw [update_of_ne same] at granted
      refine granted.imp id fun waits => ⟨waits.1, ?_⟩
      have isReady : update mvcc.tsReady txn false other = true :=
        waits.2
      rwa [update_of_ne same] at isReady
  · refine ok.imp ?_
    intro request _ _ pending
    exact ⟨pending.behind, pending.stamp, pending.waits, pending.notReady,
      pending.type⟩
  · exact inv.started_first MvccPc.noConfusion
  · exact inv.served_first unused MvccPc.noConfusion rfl (Nat.le_refl _)
      (fun _ _ _ below => below) (by simp)
  · exact order_append inv.order (by simp)

theorem MvccInv.grant (distinct : Injective ts) (settings : MvccSettings)
    {supply : MvccSupply} (object : supply.fresh ≠ 0)
    (unused : threads txn = .unused) (idle : mvcc.existsPrewrite = false)
    (later : mvcc.latestWts < ts txn) (unread : mvcc.maxServedRts ≤ ts txn) :
    ∃ row reserved,
      mvcc.reserveRow settings supply (ts txn) = some (row, reserved) ∧
        row ≠ 0 ∧ MvccInv ts (history ++ [])
            { reserved.copyLatest row with
              curRow := update reserved.curRow txn row }
            (update threads txn .holding) := by
  obtain ⟨row, reserved, reserves, ok, prewriteTs, same⟩ :=
    reserveRow_reserved settings (ts txn) (inv.settled idle) object
  refine ⟨row, reserved, reserves, ok.2.1, ?_⟩
  constructor
  · refine .inr ⟨txn, ?_, ?_, ?_⟩
    · rw [update_self]
      exact .inl rfl
    · show Reserved _ (update reserved.curRow txn row txn)
      rw [update_self]
      exact ok
    · show reserved.latestWts < _
      rwa [same.latestWts]
  · intro other granted
    rcases update_cases (Granted reserved · other) granted with
      ⟨rfl, -⟩ | ⟨-, before⟩
    · exact ⟨ok.1, prewriteTs⟩
    · have old : Granted mvcc (threads other) other := by
        rwa [Granted, same.tsReady] at before
      rw [(inv.granted other old).1] at idle
      cases idle
  · show RequestsOk _ reserved.requests
    rw [same.requests]
    refine inv.requests.imp ?_
    intro request _ _ pending
    have := pending.behind.1
    rw [idle] at this
    cases this
  · show ∀ other, _ → ts other ≠ reserved.latestWts
    rw [same.latestWts]
    exact inv.started_first MvccPc.noConfusion
  · refine inv.served_first unused MvccPc.noConfusion same.latestWts
      (Nat.le_of_eq same.maxServedRts.symm) ?_ (by simp)
    intro reader used reached _ _
    show ts reader < reserved.prewriteTs
    rw [prewriteTs]
    have apart := stamp_ne distinct unused used
    omega
  · exact order_append inv.order (by simp)

end

/-! ## The end of a prewrite -/

/-- The timestamp of the prewrite that is granted next. -/
def nextOf (ts : Txn → Nat) (mvcc : RowMvcc Txn) (txn : Txn) : Nat :=
  nextPreTs (ts txn) mvcc.requests uint64Max

/-- The requests that do not precede the next prewrite are behind one. -/
def NextFound (ts : Txn → Nat) (mvcc : RowMvcc Txn) (txn : Txn) : Prop :=
  ∀ request ∈ mvcc.requests, request.valid = true →
    nextOf ts mvcc txn ≤ request.ts →
      ∃ other ∈ mvcc.requests, other.valid = true ∧ other.type = .pReq ∧
        other.ts = nextOf ts mvcc txn

omit [DecidableEq Txn] in
theorem MvccInv.nextFound (inv : MvccInv ts history mvcc threads)
    (bounded : ∀ txn, ts txn < 2 ^ 32) : NextFound ts mvcc txn := by
  intro request mem valid reached
  rcases nextPreTs_found (ts txn) mvcc.requests uint64Max with none | found
  · have small := bounded request.txn
    rw [← (inv.requests.each request mem valid).stamp] at small
    rw [nextOf, none, uint64Max] at reached
    omega
  · exact found

omit [DecidableEq Txn] in
/-- What the loop of `update_buffer` relies on. -/
theorem MvccInv.due (inv : MvccInv ts history mvcc threads)
    (distinct : Injective ts) (nextFound : NextFound ts mvcc txn)
    (granted : Granted mvcc (threads txn) txn) (mem : request ∈ mvcc.requests)
    (valid : request.valid = true) :
    ts txn < request.ts ∧
      (request.ts = nextOf ts mvcc txn → request.type = .pReq) ∧
        (request.type = .rReq ∨ nextOf ts mvcc txn ≤ request.ts) := by
  have pending := inv.requests.each request mem valid
  have behind : ts txn < request.ts := by
    rw [← (inv.granted txn granted).2]
    exact pending.behind.2
  refine ⟨behind, ?_, ?_⟩
  · intro isNext
    obtain ⟨other, inside, isValid, isPre, same⟩ :=
      nextFound request mem valid (Nat.le_of_eq isNext.symm)
    have waits := (inv.requests.each other inside isValid).waits
    have sameTxn : other.txn = request.txn := by
      apply distinct
      rw [← pending.stamp, isNext, ← same,
        (inv.requests.each other inside isValid).stamp]
    rw [sameTxn, pending.waits, isPre] at waits
    exact MvccPc.waiting.inj waits
  · refine pending.type.imp id fun isPre => ?_
    exact (nextPreTs_le _ _ _).2 request mem valid isPre behind

/-- The next prewrite is granted, if there is one. -/
def NextGranted (ts : Txn → Nat) (mvcc : RowMvcc Txn) (txn : Txn)
    (after : RowMvcc Txn) : Prop :=
  Settled after ∧ (∀ request ∈ mvcc.requests, request.valid = true →
      request.ts ≠ nextOf ts mvcc txn) ∨
    ∃ request ∈ mvcc.requests, request.valid = true ∧
      request.ts = nextOf ts mvcc txn ∧ request.type = .pReq ∧
        Reserved after (after.curRow request.txn) ∧
          after.prewriteTs = nextOf ts mvcc txn

omit [DecidableEq Txn] in
theorem NextGranted.prewrite {after : RowMvcc Txn}
    (result : NextGranted ts mvcc txn after)
    (some : after.existsPrewrite = true ∨
      ∃ request ∈ mvcc.requests, request.valid = true ∧
        request.ts = nextOf ts mvcc txn) :
    after.existsPrewrite = true ∧ after.prewriteTs = nextOf ts mvcc txn := by
  rcases result with ⟨quiet, others⟩ | ⟨request, -, -, -, -, ok, stamp⟩
  · rcases some with exist | ⟨request, mem, valid, same⟩
    · rw [quiet.1] at exist
      cases exist
    · exact absurd same (others request mem valid)
  · exact ⟨ok.1, stamp⟩

section

variable {ended after : RowMvcc Txn} {left : List (ReqEntry Txn)}
  {first events : List (MvccEvent Txn)} (inv : MvccInv ts history mvcc threads)
  (distinct : Injective ts) (nextFound : NextFound ts mvcc txn)
  (granted : Granted mvcc (threads txn) txn)
  (answered : Answered (nextOf ts mvcc txn) mvcc.requests ended after
  left events) (result : NextGranted ts mvcc txn after)

include inv granted in
theorem released_waits {request : ReqEntry Txn} (mem : request ∈ mvcc.requests)
    (valid : request.valid = true) :
    update threads txn .done request.txn = .waiting request.type := by
  have pending := inv.requests.each request mem valid
  rw [update_of_ne]
  · exact pending.waits
  · rintro rfl
    exact pending.not_granted granted

omit [DecidableEq Txn] in
include inv distinct nextFound granted result in
theorem released_later (exist : after.existsPrewrite = true) :
    ts txn < nextOf ts mvcc txn := by
  rcases result with ⟨quiet, -⟩ | ⟨request, mem, valid, same, -⟩
  · rw [quiet.1] at exist
    cases exist
  · rw [← same]
    exact (inv.due distinct nextFound granted mem valid).1

include inv distinct nextFound granted answered result in
theorem released_state (latest : ended.latestWts ≤ ts txn) :
    Settled after ∨ ∃ holder,
      Granted after (update threads txn .done holder) holder ∧
        Reserved after (after.curRow holder) ∧ after.latestWts < ts holder := by
  have later := released_later inv distinct nextFound granted result
  rcases result with ⟨quiet, -⟩ | ⟨request, mem, valid, same, isPre, ok, -⟩
  · exact .inl quiet
  · refine .inr ⟨request.txn, ?_, ok, ?_⟩
    · rw [released_waits inv granted mem valid, isPre]
      refine .inr ⟨rfl, ?_⟩
      exact (answered.tsReady request.txn).2
        (.inr ⟨request, mem, valid, Nat.le_of_eq same, rfl⟩)
    · have behind := later ok.1
      rw [← (inv.requests.each request mem valid).stamp, answered.latestWts]
      omega

include inv distinct nextFound granted answered result in
theorem released_granted (tsReady : ended.tsReady = mvcc.tsReady)
    {other : Txn} (isGranted : Granted after
      (update threads txn .done other) other) :
    after.existsPrewrite = true ∧ after.prewriteTs = ts other := by
  rcases update_cases (Granted after · other) isGranted with
    ⟨-, holds | ⟨isWaiting, -⟩⟩ | ⟨apart, now⟩
  · cases holds
  · cases isWaiting
  have notBefore : ¬ Granted mvcc (threads other) other :=
    fun both => apart (inv.granted_unique distinct both granted)
  rcases now with holds | ⟨isWaiting, ready⟩
  · exact absurd (.inl holds) notBefore
  rcases (answered.tsReady other).1 ready with
    old | ⟨request, mem, valid, due, rfl⟩
  · rw [tsReady] at old
    exact absurd (.inr ⟨isWaiting, old⟩) notBefore
  · have pending := inv.requests.each request mem valid
    rw [pending.waits] at isWaiting
    have isPre := MvccPc.waiting.inj isWaiting
    have same : request.ts = nextOf ts mvcc txn := by
      rcases (inv.due distinct nextFound granted mem valid).2.2 with
        isRead | reached
      · rw [isPre] at isRead
        cases isRead
      · omega
    have next := result.prewrite (.inr ⟨request, mem, valid, same⟩)
    rw [← pending.stamp, same]
    exact next

include inv nextFound granted answered result in
theorem released_pending (tsReady : ended.tsReady = mvcc.tsReady)
    {request : ReqEntry Txn} (mem : request ∈ left)
    (valid : request.valid = true) :
    PendingReq ts { after with requests := left }
      (update threads txn .done) request := by
  have kept : request ∈ left.filter ReqEntry.valid :=
    List.mem_filter.2 ⟨mem, valid⟩
  rw [answered.pending, List.mem_filter, Bool.and_eq_true] at kept
  have old := kept.1
  have behind := of_decide_eq_true kept.2.2
  have pending := inv.requests.each request old valid
  obtain ⟨other, isOld, isValid, -, same⟩ :=
    nextFound request old valid (Nat.le_of_lt behind)
  have next := result.prewrite (.inr ⟨other, isOld, isValid, same⟩)
  refine ⟨⟨next.1, ?_⟩, pending.stamp,
    released_waits inv granted old valid, ?_, pending.type⟩
  · show after.prewriteTs < request.ts
    rwa [next.2]
  · rw [Bool.eq_false_iff]
    intro ready
    rcases (answered.tsReady request.txn).1 ready with
      before | ⟨woken, isWoken, wokenValid, due, sameTxn⟩
    · rw [tsReady, pending.notReady] at before
      cases before
    · rw [(inv.requests.each woken isWoken wokenValid).stamp, sameTxn,
        ← pending.stamp] at due
      omega

include inv nextFound granted answered result in
theorem released_requests (tsReady : ended.tsReady = mvcc.tsReady) :
    RequestsOk (PendingReq ts { after with requests := left }
      (update threads txn .done)) left := by
  constructor
  · intro request mem valid
    exact released_pending inv nextFound granted answered result tsReady
      mem valid
  · rw [← List.pairwise_filter, answered.pending, List.pairwise_filter]
    refine inv.requests.distinct.imp ?_
    intro earlier later ne keptEarlier keptLater
    exact ne (Bool.and_eq_true_iff.1 keptEarlier).1
      (Bool.and_eq_true_iff.1 keptLater).1
  · intro empty
    have slots := answered.slots
    rw [empty] at slots
    exact inv.requests.slots (List.length_eq_zero_iff.1 slots.symm)

include inv distinct nextFound granted answered result in
theorem released_served (grows : mvcc.latestWts ≤ ended.latestWts)
    (maxServedRts : ended.maxServedRts = mvcc.maxServedRts)
    (commits : ∀ event ∈ first, event = .committed txn) {reader : Txn}
    {wts : Nat} (mem : .served reader wts ∈ history ++ (first ++ events)) :
    update threads txn .done reader ≠ .unused ∧
      (ts reader ≤ after.latestWts ∨ ts reader ≤ after.maxServedRts) ∧
        (after.existsPrewrite = true → ts reader < after.prewriteTs) := by
  have later := released_later inv distinct nextFound granted result
  have latest := answered.latestWts
  have served := answered.maxServedRts
  rcases List.mem_append.1 mem with mem | mem
  · obtain ⟨used, reached, below⟩ := inv.served reader wts mem
    have before := inv.granted txn granted
    refine ⟨?_, by omega, ?_⟩
    · intro unused
      rcases update_cases (· = MvccPc.unused) unused with
        ⟨-, finished⟩ | ⟨-, old⟩
      · cases finished
      · exact used old
    · intro exist
      have isBelow := below before.1
      have isLater := later exist
      have next := (result.prewrite (.inl exist)).2
      omega
  rcases List.mem_append.1 mem with mem | mem
  · cases commits _ mem
  · obtain ⟨request, old, valid, below, reached, _, same⟩ :=
      answered.events _ mem
    cases same
    have stamp := (inv.requests.each request old valid).stamp
    rw [released_waits inv granted old valid, ← stamp]
    refine ⟨MvccPc.noConfusion, .inr reached, ?_⟩
    intro exist
    rwa [(result.prewrite (.inl exist)).2]

omit [DecidableEq Txn] in
include inv granted answered in
theorem released_order (commits : ∀ event ∈ first, event = .committed txn)
    (once : first.Pairwise (ServedBelow ts)) :
    (history ++ (first ++ events)).Pairwise (ServedBelow ts) := by
  rw [← List.append_assoc]
  refine order_append ?_ ?_
  · refine List.pairwise_append.2 ⟨inv.order, once, ?_⟩
    rintro earlier mem later isFirst reader wts writer rfl rfl
    cases commits _ isFirst
    have before := inv.granted txn granted
    have below := (inv.served reader wts mem).2.2 before.1
    omega
  · intro event mem
    obtain ⟨request, -, -, -, -, wts, same⟩ := answered.events event mem
    exact ⟨request.txn, wts, same⟩

end

/-- The row with the prewrite of a transaction written or given up. -/
structure Ended (ts : Txn → Nat) (mvcc : RowMvcc Txn)
    (threads : Txn → MvccPc) (txn : Txn) (ended : RowMvcc Txn) : Prop where
  settled : Settled ended
  grows : mvcc.latestWts ≤ ended.latestWts
  latest : ended.latestWts ≤ ts txn
  started : ∀ other, threads other = .unused → ts other ≠ ended.latestWts
  maxServedRts : ended.maxServedRts = mvcc.maxServedRts
  requests : ended.requests = mvcc.requests
  tsReady : ended.tsReady = mvcc.tsReady

variable {supply : MvccSupply}

/-- `update_buffer` at the end of a prewrite. -/
theorem MvccInv.release (inv : MvccInv ts history mvcc threads)
    (distinct : Injective ts) (nextFound : NextFound ts mvcc txn)
    (settings : MvccSettings) (object : supply.fresh ≠ 0)
    (granted : Granted mvcc (threads txn) txn) {ended : RowMvcc Txn}
    (ends : Ended ts mvcc threads txn ended) (first : List (MvccEvent Txn))
    (commits : ∀ event ∈ first, event = .committed txn)
    (once : first.Pairwise (ServedBelow ts)) :
    ∃ released events, ended.updateBuffer settings supply (ts txn) =
        some (released, events) ∧
      MvccInv ts (history ++ (first ++ events)) released
        (update threads txn .done) := by
  have due : ∀ request ∈ mvcc.requests, request.valid = true →
      ts txn < request.ts ∧
        (request.ts = nextOf ts mvcc txn → request.type = .pReq) ∧
          (request.type = .rReq ∨ nextOf ts mvcc txn ≤ request.ts) :=
    fun _ mem valid => inv.due distinct nextFound granted mem valid
  obtain ⟨left, after, events, answers, answered, result⟩ :=
    answerRequests_settled settings ended ends.settled object due
      inv.requests.distinct ts
      fun request mem valid =>
        (inv.requests.each request mem valid).stamp
  refine ⟨{ after with requests := left }, events, ?_, ?_⟩
  · rw [RowMvcc.updateBuffer, ends.requests]
    show Option.map _ (answerRequests _ _ _ (nextOf ts mvcc txn) _ _) = _
    rw [answers]
    rfl
  have state := released_state inv distinct nextFound granted answered result
    ends.latest
  constructor
  · exact state
  · intro other
    exact released_granted inv distinct nextFound granted answered result
      ends.tsReady
  · exact released_requests inv nextFound granted answered result ends.tsReady
  · intro other unused
    show ts other ≠ after.latestWts
    rw [answered.latestWts]
    rcases update_cases (· = MvccPc.unused) unused with
      ⟨-, finished⟩ | ⟨-, before⟩
    · cases finished
    · exact ends.started other before
  · intro reader wts
    exact released_served inv distinct nextFound granted answered result
      ends.grows ends.maxServedRts commits
  · exact released_order inv granted answered commits once

/-! ## Every call -/

/-- What a call leaves behind keeps the invariant. -/
def Keeps (ts : Txn → Nat) (history : List (MvccEvent Txn))
    (threads : Txn → MvccPc) (txn : Txn) (type : TsType)
    (call : Option (AccessResult Txn)) : Prop :=
  ∃ result, call = some result ∧
    MvccInv ts (history ++ result.events) result.mvcc
      (update threads txn (.next type result.rc))

section

variable (inv : MvccInv ts history mvcc threads)

include inv

variable (distinct : Injective ts)

include distinct

theorem MvccInv.read (unused : threads txn = .unused) :
    Keeps ts history threads txn .rReq (mvcc.read (ts txn) txn) := by
  have others : ∀ row other, other ≠ txn →
      update mvcc.curRow txn row other = mvcc.curRow other :=
    fun row other apart => update_of_ne apart row mvcc.curRow
  rw [RowMvcc.read]
  split
  · exact ⟨_, rfl, inv.answer unused (fun _ _ => rfl) (Nat.le_refl _) (by simp)⟩
  split
  · split
    · next later wait =>
        obtain ⟨delayed, delays, kept⟩ :=
          inv.delay distinct unused (.inl rfl) wait.1 wait.2
        rw [delays]
        exact ⟨_, rfl, kept⟩
    · next later served =>
        refine ⟨_, rfl, inv.answer unused (others _) (Nat.le_max_left _ _) ?_⟩
        intro event mem
        refine ⟨_, List.mem_singleton.1 mem, .inr (Nat.le_max_right _ _), ?_⟩
        intro exist
        obtain ⟨holder, granted, -, -, same⟩ := inv.holder exist
        have apart := stamp_ne distinct unused granted.ne_unused
        have : ¬ mvcc.prewriteTs < ts txn := fun less => served ⟨exist, less⟩
        omega
  · next notAbove =>
      refine ⟨_, rfl, inv.answer unused (others _) (Nat.le_refl _) ?_⟩
      intro event mem
      refine ⟨_, List.mem_singleton.1 mem, .inl (by omega), ?_⟩
      intro exist
      obtain ⟨holder, -, -, later, same⟩ := inv.holder exist
      omega

theorem MvccInv.prewrite (settings : MvccSettings) (object : supply.fresh ≠ 0)
    (unused : threads txn = .unused) :
    Keeps ts history threads txn .pReq
      (mvcc.prewrite settings supply (ts txn) txn) := by
  rw [RowMvcc.prewrite]
  split
  · exact ⟨_, rfl, inv.answer unused (fun _ _ => rfl) (Nat.le_refl _) (by simp)⟩
  · next admitted =>
      have fresh := inv.started txn unused
      split
      · next exist =>
          have behind : mvcc.prewriteTs < ts txn := by
            obtain ⟨holder, granted, -, -, same⟩ := inv.holder exist
            have apart := stamp_ne distinct unused granted.ne_unused
            have : ¬ ts txn < mvcc.prewriteTs :=
              fun less => admitted (.inr (.inr ⟨exist, less⟩))
            omega
          obtain ⟨delayed, delays, kept⟩ :=
            inv.delay distinct unused (.inr rfl) exist behind
          rw [delays]
          exact ⟨_, rfl, kept⟩
      · next idle =>
          have idle : mvcc.existsPrewrite = false := by simpa using idle
          obtain ⟨row, reserved, reserves, object, kept⟩ :=
            inv.grant distinct settings object unused idle (by omega) (by omega)
          rw [reserves, Option.bind_some, if_neg object]
          exact ⟨_, rfl, kept⟩

variable (bounded : ∀ txn, ts txn < 2 ^ 64)

include bounded

theorem MvccInv.write (settings : MvccSettings) (object : supply.fresh ≠ 0)
    (granted : Granted mvcc (threads txn) txn)
    (nextFound : NextFound ts mvcc txn) :
    Keeps ts history threads txn .wReq
      (mvcc.write settings supply (ts txn) txn (mvcc.curRow txn)) := by
  obtain ⟨holder, holds, reserved, later, -⟩ :=
    inv.holder (inv.granted txn granted).1
  cases inv.granted_unique distinct holds granted
  obtain ⟨ended, installs, settled, latest, rest⟩ :=
    reserved.install later (bounded txn)
  have started : ∀ other, threads other = .unused →
      ts other ≠ ended.latestWts := by
    intro other unused
    rw [latest]
    exact stamp_ne distinct unused granted.ne_unused
  have ends : Ended ts mvcc threads txn ended :=
    ⟨settled, by omega, by omega, started, rest.1, rest.2.1, rest.2.2⟩
  obtain ⟨released, events, updates, kept⟩ :=
    inv.release distinct nextFound settings object granted ends
      [.committed txn] (by simp) (List.pairwise_singleton _ _)
  rw [RowMvcc.write, installs, Option.bind_some, updates]
  exact ⟨_, rfl, kept⟩

omit bounded in
theorem MvccInv.undo (settings : MvccSettings) (object : supply.fresh ≠ 0)
    (granted : Granted mvcc (threads txn) txn)
    (nextFound : NextFound ts mvcc txn) :
    Keeps ts history threads txn .xpReq
      (mvcc.undo settings supply (ts txn) (mvcc.curRow txn)) := by
  obtain ⟨holder, holds, reserved, later, -⟩ :=
    inv.holder (inv.granted txn granted).1
  cases inv.granted_unique distinct holds granted
  obtain ⟨ended, discards, settled, latest, rest⟩ := reserved.discard
  have ends : Ended ts mvcc threads txn ended := by
    refine ⟨settled, by omega, by omega, ?_, rest.1, rest.2.1, rest.2.2⟩
    rw [latest]
    exact inv.started
  obtain ⟨released, events, updates, kept⟩ :=
    inv.release distinct nextFound settings object granted ends [] (by simp) .nil
  rw [RowMvcc.undo, discards, Option.bind_some, updates]
  exact ⟨_, rfl, kept⟩

/-- Every permitted call meets its assertions and keeps the invariant. -/
theorem MvccInv.step (settings : MvccSettings) {call : MvccCall}
    (permitted : Permitted mvcc (threads txn) txn call)
    (nextFound : call.type = .wReq ∨ call.type = .xpReq →
      NextFound ts mvcc txn) :
    ∃ outcome, (mvccMachine settings ts).step txn call mvcc (threads txn) =
        some outcome ∧
      MvccInv ts (history ++ outcome.events) outcome.shared
        (update threads txn outcome.thread) := by
  have asserted : settings.debugCc = true → mvcc.requestAsserts :=
    fun _ => inv.requestAsserts
  have accessed : Keeps ts history threads txn call.type
      (mvcc.access settings call.supply (ts txn) txn call.type
        (if threads txn = .unused then 0 else mvcc.curRow txn)) := by
    rcases call with ⟨type, supply⟩
    obtain ⟨object, usage⟩ := permitted
    cases type with
    | rReq =>
      rw [RowMvcc.access, if_pos asserted]
      exact inv.read distinct usage
    | pReq =>
      rw [RowMvcc.access, if_pos asserted]
      exact inv.prewrite distinct settings object usage
    | wReq =>
      rw [RowMvcc.access, if_pos asserted, if_neg (Granted.ne_unused usage)]
      exact inv.write distinct bounded settings object usage
        (nextFound (.inl rfl))
    | xpReq =>
      rw [RowMvcc.access, if_pos asserted, if_neg (Granted.ne_unused usage)]
      exact inv.undo distinct settings object usage (nextFound (.inr rfl))
  obtain ⟨result, accesses, kept⟩ := accessed
  refine ⟨⟨result.mvcc, .next call.type result.rc, result.events⟩, ?_, kept⟩
  show (if _ then _ else _) = _
  rw [if_pos permitted, accesses]
  rfl

omit inv distinct bounded [DecidableEq Txn] in
theorem install_requests {stamp row : Nat} {ended : RowMvcc Txn}
    (installs : mvcc.install stamp row = some ended) :
    ended.requests = mvcc.requests := by
  rw [RowMvcc.install] at installs
  split at installs
  · cases installs
  · split at installs
    · cases installs
      rfl
    · cases installs

omit inv distinct bounded [DecidableEq Txn] in
theorem discard_requests {row : Nat} {ended : RowMvcc Txn}
    (discards : mvcc.discard row = some ended) :
    ended.requests = mvcc.requests := by
  rw [RowMvcc.discard] at discards
  split at discards
  · cases discards
  · split at discards
    · cases discards
      rfl
    · cases discards

omit distinct in
/-- In 64 bits: a write or undo that returns has found the next prewrite. -/
theorem MvccInv.nextFound_of_update {ended : RowMvcc Txn}
    (same : ended.requests = mvcc.requests) {settings : MvccSettings}
    {result : RowMvcc Txn × List (MvccEvent Txn)}
    (updates : ended.updateBuffer settings supply (ts txn) = some result) :
    NextFound ts mvcc txn := by
  intro request mem valid reached
  obtain ⟨_, answers, -⟩ := Option.map_eq_some_iff.1 updates
  rw [same] at answers
  rcases nextPreTs_found (ts txn) mvcc.requests uint64Max with none | found
  · have small := bounded request.txn
    rw [← (inv.requests.each request mem valid).stamp] at small
    have isNext : request.ts = nextOf ts mvcc txn := by
      rw [nextOf, none, uint64Max] at reached ⊢
      omega
    exact ⟨request, mem, valid,
      answerRequests_next settings answers request mem valid isNext, isNext⟩
  · exact found

theorem MvccInv.advance (settings : MvccSettings) {call : MvccCall}
    {outcome : Outcome (RowMvcc Txn) MvccPc (MvccEvent Txn)}
    (step : (mvccMachine settings ts).step txn call mvcc (threads txn) =
      some outcome) :
    MvccInv ts (history ++ outcome.events) outcome.shared
      (update threads txn outcome.thread) := by
  have permitted : Permitted mvcc (threads txn) txn call := by
    by_contra refused
    rw [show (mvccMachine settings ts).step txn call mvcc (threads txn) = none
      from if_neg refused] at step
    cases step
  have nextFound : call.type = .wReq ∨ call.type = .xpReq →
      NextFound ts mvcc txn := by
    intro ends
    have accessed := step
    simp only [mvccMachine, if_pos permitted, RowMvcc.access] at accessed
    obtain ⟨_, accessed, -⟩ := Option.map_eq_some_iff.1 accessed
    rw [if_pos fun _ => inv.requestAsserts] at accessed
    rcases ends with isWrite | isUndo
    · simp only [isWrite, RowMvcc.write] at accessed
      obtain ⟨ended, installs, updates⟩ := Option.bind_eq_some_iff.1 accessed
      obtain ⟨_, updates, -⟩ := Option.map_eq_some_iff.1 updates
      exact inv.nextFound_of_update bounded (install_requests installs) updates
    · simp only [isUndo, RowMvcc.undo] at accessed
      obtain ⟨ended, discards, updates⟩ := Option.bind_eq_some_iff.1 accessed
      obtain ⟨_, updates, -⟩ := Option.map_eq_some_iff.1 updates
      exact inv.nextFound_of_update bounded (discard_requests discards) updates
  obtain ⟨_, same, kept⟩ := inv.step distinct bounded settings permitted
    nextFound
  rw [step] at same
  cases same
  exact kept

end

omit [DecidableEq Txn] in
theorem MvccInv.start {row : Nat} (object : row ≠ 0) (requester : Txn)
    (curRow : Txn → Nat) (tsReady : Txn → Bool) (positive : ∀ txn, 0 < ts txn) :
    MvccInv ts [] (.init row requester curRow tsReady) (fun _ => .unused) := by
  have empty : HistoryOk row 0 0 0 [] := by
    constructor <;> simp [object]
  constructor
  · refine .inl ⟨rfl, by simp [RowMvcc.init], ?_⟩
    exact historyOk_replicate empty 4
  · intro txn granted
    exact absurd rfl granted.ne_unused
  · constructor
    · intro request mem valid
      rw [List.eq_of_mem_replicate mem] at valid
      cases valid
    · exact List.pairwise_replicate.2 (.inr nofun)
    · simp [RowMvcc.init]
  · intro txn _
    exact Nat.ne_of_gt (positive txn)
  · simp
  · exact .nil

/-! ## Timestamp order -/

/-- What holds of the row in every state that its transactions reach. -/
structure MvccOk (ts : Txn → Nat) (mvcc : RowMvcc Txn)
    (threads : Txn → MvccPc) : Prop where
  oneGranted : ∀ left right, Granted mvcc (threads left) left →
    Granted mvcc (threads right) right → left = right
  grantedLast : ∀ txn, Granted mvcc (threads txn) txn → mvcc.latestWts < ts txn
  pendingBehind : ∀ request ∈ mvcc.requests, request.valid = true →
    ∃ holder, Granted mvcc (threads holder) holder ∧ ts holder < request.ts
  versionsCounted : mvcc.numVersions =
    mvcc.writeHistory.countP WriteHisEntry.valid

omit [DecidableEq Txn] in
theorem MvccInv.ok (inv : MvccInv ts history mvcc threads)
    (distinct : Injective ts) : MvccOk ts mvcc threads where
  oneGranted := fun _ _ => inv.granted_unique distinct
  grantedLast := by
    intro txn granted
    obtain ⟨holder, -, -, later, same⟩ :=
      inv.holder (inv.granted txn granted).1
    rwa [← (inv.granted txn granted).2, same]
  pendingBehind := by
    intro request mem valid
    have pending := inv.requests.each request mem valid
    obtain ⟨holder, granted, -, -, same⟩ := inv.holder pending.behind.1
    exact ⟨holder, granted, same ▸ pending.behind.2⟩
  versionsCounted := by
    rcases inv.state with settled | ⟨holder, -, reserved, -⟩
    · exact settled.2.2.count
    · exact reserved.count

theorem MvccInv.of_run {settings : MvccSettings} (distinct : Injective ts)
    (positive : ∀ txn, 0 < ts txn) (bounded : ∀ txn, ts txn < 2 ^ 64)
    {row : Nat} (object : row ≠ 0) {requester : Txn} {curRow : Txn → Nat}
    {tsReady : Txn → Bool} {config : Config Txn (RowMvcc Txn) MvccPc}
    (run : (mvccMachine settings ts).Run
      (mvccStart row requester curRow tsReady) history config) :
    MvccInv ts history config.shared config.threads := by
  refine run.invariant
    (fun history config => MvccInv ts history config.shared config.threads)
    (MvccInv.start object requester curRow tsReady positive) ?_
  intro history config txn call outcome inv _ step
  exact inv.advance distinct bounded settings step

/--
The row enforces timestamp order, for transactions with distinct positive
timestamps of 32 bits: no version is committed below a read that has been
served across it, in every state the row is in order, and no permitted call
fails an assertion.
-/
theorem mvcc_timestamp_order (settings : MvccSettings) (distinct : Injective ts)
    (positive : ∀ txn, 0 < ts txn) (bounded : ∀ txn, ts txn < 2 ^ 32)
    {row : Nat} (object : row ≠ 0) {requester : Txn} {curRow : Txn → Nat}
    {tsReady : Txn → Bool} {config : Config Txn (RowMvcc Txn) MvccPc}
    (run : (mvccMachine settings ts).Run
      (mvccStart row requester curRow tsReady) history config) :
    (∀ before reader wts after writer,
      history = before ++ .served reader wts :: after →
        .committed writer ∈ after →
          ¬ (wts < ts writer ∧ ts writer < ts reader)) ∧
    MvccOk ts config.shared config.threads ∧
    ∀ txn call, Permitted config.shared (config.threads txn) txn call →
      ∃ outcome, (mvccMachine settings ts).step txn call config.shared
        (config.threads txn) = some outcome := by
  have wide : ∀ txn, ts txn < 2 ^ 64 := by
    intro txn
    have := bounded txn
    omega
  have inv := MvccInv.of_run distinct positive wide object run
  refine ⟨?_, inv.ok distinct, ?_⟩
  · rintro before reader wts after writer rfl member ⟨-, between⟩
    have order := (List.pairwise_append.1 inv.order).2.1
    have below := List.rel_of_pairwise_cons order member reader wts writer
      rfl rfl
    omega
  · intro txn call permitted
    obtain ⟨outcome, stepped, -⟩ :=
      inv.step distinct wide settings permitted fun _ => inv.nextFound bounded
    exact ⟨outcome, stepped⟩

end

/-- The timestamps of four transactions, from one on. -/
def fourStamps (txn : Fin 4) : Nat :=
  txn + 1

/--
A read below the prewrite is served, a read and a prewrite behind it wait,
and the commit serves the one and grants the other.
-/
theorem mvcc_timestamp_order_burst :
    ∃ history config, (mvccMachine ⟨true, 4⟩ fourStamps).Run
        (mvccStart 1 0 (fun _ => 0) (fun _ => false)) history config ∧
      history = [.served 0 0, .committed 1, .served 2 2] ∧
      Granted config.shared (config.threads 3) 3 ∧
      MvccOk fourStamps config.shared config.threads := by
  have executed : ((mvccMachine ⟨true, 4⟩ fourStamps).execute
      (mvccStart 1 0 (fun _ => 0) (fun _ => false))
      [(1, ⟨.pReq, 0, 2⟩), (2, ⟨.rReq, 0, 3⟩), (3, ⟨.pReq, 0, 3⟩),
        (0, ⟨.rReq, 0, 3⟩), (1, ⟨.wReq, 0, 3⟩)]).map
      (fun result => (result.2,
        decide (Granted result.1.shared (result.1.threads 3) 3))) =
      some ([.served 0 0, .committed 1, .served 2 2], true) := by
    decide +kernel
  obtain ⟨⟨config, history⟩, ran, same⟩ := Option.map_eq_some_iff.1 executed
  have run := Machine.run_of_execute ran
  have distinct : Injective fourStamps := by
    intro left right same
    exact Fin.ext (Nat.add_right_cancel same)
  have bounded : ∀ txn, fourStamps txn < 2 ^ 32 := by
    intro txn
    have := txn.isLt
    simp only [fourStamps]
    omega
  refine ⟨history, config, run, (Prod.mk.inj same).1,
    of_decide_eq_true (Prod.mk.inj same).2, ?_⟩
  exact (mvcc_timestamp_order ⟨true, 4⟩ distinct (fun _ => Nat.succ_pos _)
    bounded Nat.one_ne_zero run).2.1

/--
A prewrite with timestamp zero is granted on a new row although its timestamp
does not exceed that of the latest version, and its write fails an assertion.
-/
theorem mvcc_zero_timestamp : Injective (Fin.val : Fin 2 → Nat) ∧
      (∀ txn : Fin 2, txn.val < 2 ^ 32) ∧
      ∃ history config, (mvccMachine ⟨false, 2⟩ (Fin.val : Fin 2 → Nat)).Run
          (mvccStart 1 0 (fun _ => 0) (fun _ => false)) history config ∧
        Granted config.shared (config.threads 0) 0 ∧
        ¬ config.shared.latestWts < (0 : Fin 2).val ∧
        Permitted config.shared (config.threads 0) 0 ⟨.wReq, 0, 3⟩ ∧
        ((mvccMachine ⟨false, 2⟩ (Fin.val : Fin 2 → Nat)).step 0
          ⟨.wReq, 0, 3⟩ config.shared (config.threads 0)).isNone := by
  have executed : ((mvccMachine ⟨false, 2⟩ (Fin.val : Fin 2 → Nat)).execute
      (mvccStart 1 0 (fun _ => 0) (fun _ => false))
      [(0, ⟨.pReq, 0, 2⟩)]).map
      (fun result =>
        (decide (Granted result.1.shared (result.1.threads 0) 0),
          result.1.shared.latestWts,
          decide (Permitted result.1.shared (result.1.threads 0) 0
            ⟨.wReq, 0, 3⟩),
          ((mvccMachine ⟨false, 2⟩ (Fin.val : Fin 2 → Nat)).step 0
            ⟨.wReq, 0, 3⟩ result.1.shared (result.1.threads 0)).isNone)) =
      some (true, 0, true, true) := by
    decide +kernel
  obtain ⟨⟨config, history⟩, ran, same⟩ := Option.map_eq_some_iff.1 executed
  simp only [Prod.mk.injEq, decide_eq_true_eq] at same
  obtain ⟨granted, latest, permitted, fails⟩ := same
  refine ⟨fun _ _ => Fin.ext, fun txn => by omega, history, config,
    Machine.run_of_execute ran, granted, by simp, permitted, fails⟩

end Lockfreec.Bench
