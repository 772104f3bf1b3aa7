import Lockfreec.Bench.RowMvccHistory

/-!
# The pending requests of a multi-version row

`buffer_req` always finds a slot, and `update_buffer` answers exactly the
pending requests up to the next prewrite: the reads below it are served the
latest version, and the prewrite itself is granted, wherever in the array it
is met.  `Answered` is the whole effect of the loop on the transactions.
-/

namespace Lockfreec.Bench

open Function

variable {Txn : Type}

/-- The occupied slots, with what holds of every pending request. -/
structure RequestsOk (pending : ReqEntry Txn → Prop)
    (requests : List (ReqEntry Txn)) : Prop where
  each : ∀ request ∈ requests, request.valid = true → pending request
  distinct : requests.Pairwise fun left right =>
    left.valid = true → right.valid = true → left.ts ≠ right.ts
  slots : requests ≠ []

section

variable {pending : ReqEntry Txn → Prop} {request : ReqEntry Txn}
  {requests filled : List (ReqEntry Txn)}

theorem RequestsOk.imp {weaker : ReqEntry Txn → Prop}
    (ok : RequestsOk pending requests)
    (implies : ∀ request ∈ requests, request.valid = true →
      pending request → weaker request) :
    RequestsOk weaker requests where
  each := fun request mem valid =>
    implies request mem valid (ok.each request mem valid)
  distinct := ok.distinct
  slots := ok.slots

/-! ## Filling a slot -/

theorem putReq_split (put : putReq request requests = some filled) :
    ∃ front slot back, requests = front ++ slot :: back ∧
      slot.valid = false ∧ filled = front ++ request :: back := by
  induction requests generalizing filled with
  | nil => simp [putReq] at put
  | cons slot rest ih =>
    rw [putReq] at put
    split at put
    · obtain ⟨others, fills, rfl⟩ := Option.map_eq_some_iff.1 put
      obtain ⟨front, free, back, rfl, invalid, rfl⟩ := ih fills
      exact ⟨slot :: front, free, back, rfl, invalid, rfl⟩
    · next invalid =>
        cases put
        exact ⟨[], slot, rest, rfl, by simpa using invalid, rfl⟩

theorem putReq_free (request : ReqEntry Txn)
    (free : ∃ slot ∈ requests, slot.valid = false) :
    ∃ filled, putReq request requests = some filled := by
  induction requests with
  | nil => simp at free
  | cons slot rest ih =>
    rw [putReq]
    split
    · next occupied =>
        obtain ⟨other, mem, invalid⟩ := free
        cases mem with
        | head => simp [occupied] at invalid
        | tail _ mem =>
          obtain ⟨others, fills⟩ := ih ⟨other, mem, invalid⟩
          rw [fills]
          exact ⟨slot :: others, rfl⟩
    · exact ⟨request :: rest, rfl⟩

theorem RequestsOk.put (ok : RequestsOk pending requests)
    (own : pending request)
    (apart : ∀ other ∈ requests, other.valid = true → other.ts ≠ request.ts)
    (fills : putReq request requests = some filled) :
    RequestsOk pending filled := by
  obtain ⟨front, slot, back, rfl, invalid, rfl⟩ := putReq_split fills
  have others : ∀ other ∈ front ++ back, other ∈ front ++ slot :: back := by
    intro other mem
    exact List.perm_middle.mem_iff.2 (.tail _ mem)
  have symmetric : ∀ {left right : ReqEntry Txn},
      (left.valid = true → right.valid = true → left.ts ≠ right.ts) →
        right.valid = true → left.valid = true → right.ts ≠ left.ts :=
    fun ne validRight validLeft =>
      (ne validLeft validRight).symm
  have distinct := (List.pairwise_middle symmetric).1 ok.distinct
  constructor
  · intro other mem valid
    rcases List.mem_cons.1 (List.perm_middle.mem_iff.1 mem) with
      rfl | mem
    · exact own
    · exact ok.each other (others other mem) valid
  · refine (List.pairwise_middle symmetric).2 ?_
    refine List.pairwise_cons.2 ⟨?_, distinct.of_cons⟩
    intro other mem _ valid
    exact (apart other (others other mem) valid).symm
  · simp

theorem RequestsOk.double (ok : RequestsOk pending requests) (count : Nat)
    (slot : ReqEntry Txn) (free : slot.valid = false) :
    RequestsOk pending (requests ++ List.replicate count slot) := by
  constructor
  · intro request mem valid
    rcases List.mem_append.1 mem with mem | mem
    · exact ok.each request mem valid
    · rw [List.eq_of_mem_replicate mem, free] at valid
      cases valid
  · refine List.pairwise_append.2 ⟨ok.distinct, ?_, ?_⟩
    · refine List.pairwise_replicate.2 (.inr ?_)
      intro valid
      rw [free] at valid
      cases valid
    · intro left _ right mem _ valid
      rw [List.eq_of_mem_replicate mem, free] at valid
      cases valid
  · simp [ok.slots]

theorem bufferReq_ok {mvcc : RowMvcc Txn} {type : TsType} {ts : Nat} {txn : Txn}
    (ok : RequestsOk pending mvcc.requests)
    (own : pending ⟨true, type, ts, txn⟩)
    (apart : ∀ other ∈ mvcc.requests, other.valid = true → other.ts ≠ ts) :
    ∃ requests, mvcc.bufferReq type ts txn =
        some { mvcc with requests := requests } ∧
      RequestsOk pending requests := by
  rw [RowMvcc.bufferReq]
  cases put : putReq ⟨true, type, ts, txn⟩ mvcc.requests with
  | some filled => exact ⟨filled, rfl, ok.put own apart put⟩
  | none =>
    have doubled := ok.double mvcc.requests.length ⟨false, .rReq, 0, txn⟩ rfl
    have free : ∃ slot ∈ mvcc.requests ++ List.replicate mvcc.requests.length
          (⟨false, .rReq, 0, txn⟩ : ReqEntry Txn),
        slot.valid = false := by
      refine ⟨⟨false, .rReq, 0, txn⟩, ?_, rfl⟩
      refine List.mem_append_right _ (List.mem_replicate.2 ⟨?_, rfl⟩)
      simp [ok.slots]
    obtain ⟨filled, fills⟩ := putReq_free ⟨true, type, ts, txn⟩ free
    refine ⟨filled, by simp only [fills, Option.map_some], ?_⟩
    refine doubled.put own ?_ fills
    intro other mem valid
    rcases List.mem_append.1 mem with mem | mem
    · exact apart other mem valid
    · rw [List.eq_of_mem_replicate mem] at valid
      cases valid

/-! ## The next prewrite -/

theorem nextPreTs_le (ts : Nat) (requests : List (ReqEntry Txn)) (next : Nat) :
    nextPreTs ts requests next ≤ next ∧
      ∀ request ∈ requests, request.valid = true → request.type = .pReq →
        ts < request.ts → nextPreTs ts requests next ≤ request.ts := by
  induction requests generalizing next with
  | nil => simp [nextPreTs]
  | cons request rest ih =>
    rw [nextPreTs]
    split
    · next better =>
        have bound := ih request.ts
        refine ⟨by omega, ?_⟩
        intro other mem valid isPre later
        cases mem with
        | head => exact bound.1
        | tail _ mem => exact bound.2 other mem valid isPre later
    · next worse =>
        have bound := ih next
        refine ⟨bound.1, ?_⟩
        intro other mem valid isPre later
        cases mem with
        | head =>
          have : ¬ request.ts < next :=
            fun less => worse ⟨valid, isPre, later, less⟩
          omega
        | tail _ mem => exact bound.2 other mem valid isPre later

theorem nextPreTs_found (ts : Nat) (requests : List (ReqEntry Txn))
    (next : Nat) :
    nextPreTs ts requests next = next ∨
      ∃ request ∈ requests, request.valid = true ∧
        request.type = .pReq ∧ request.ts = nextPreTs ts requests next := by
  induction requests generalizing next with
  | nil => exact .inl rfl
  | cons request rest ih =>
    rw [nextPreTs]
    split
    · next better =>
        rcases ih request.ts with same | ⟨other, mem, found⟩
        · exact .inr ⟨request, .head _, better.1, better.2.1, same.symm⟩
        · exact .inr ⟨other, .tail _ mem, found⟩
    · rcases ih next with same | ⟨other, mem, found⟩
      · exact .inl same
      · exact .inr ⟨other, .tail _ mem, found⟩

end

/-! ## Answering requests -/

/-- The pending requests up to `next` have been answered. -/
structure Answered (next : Nat) (requests : List (ReqEntry Txn))
    (before after : RowMvcc Txn) (left : List (ReqEntry Txn))
    (events : List (MvccEvent Txn)) : Prop where
  latestWts : after.latestWts = before.latestWts
  maxServedRts : before.maxServedRts ≤ after.maxServedRts
  pending : left.filter ReqEntry.valid =
    requests.filter fun request => request.valid && decide (next < request.ts)
  slots : left.length = requests.length
  curRow : ∀ txn, (∀ request ∈ requests, request.valid = true →
    request.ts ≤ next → request.txn ≠ txn) →
      after.curRow txn = before.curRow txn
  tsReady : ∀ txn, after.tsReady txn = true ↔
    before.tsReady txn = true ∨ ∃ request ∈ requests,
      request.valid = true ∧ request.ts ≤ next ∧ request.txn = txn
  events : ∀ event ∈ events, ∃ request ∈ requests,
    request.valid = true ∧ request.ts < next ∧ request.ts ≤ after.maxServedRts ∧
        ∃ wts, event = .served request.txn wts

section

variable {next : Nat} {request : ReqEntry Txn}
  {requests left : List (ReqEntry Txn)} {before after woken : RowMvcc Txn}
  {events : List (MvccEvent Txn)}

theorem Answered.nil (mvcc : RowMvcc Txn) :
    Answered next [] mvcc mvcc [] [] where
  latestWts := rfl
  maxServedRts := Nat.le_refl _
  pending := rfl
  slots := rfl
  curRow := fun _ _ => rfl
  tsReady := by simp
  events := by simp

/-- A request behind the next prewrite, or a free slot. -/
theorem Answered.keep (kept : request.valid = true → next < request.ts)
    (rest : Answered next requests before after left events) :
    Answered next (request :: requests) before after (request :: left)
      events where
  latestWts := rest.latestWts
  maxServedRts := rest.maxServedRts
  pending := by
    rw [List.filter_cons, List.filter_cons, rest.pending]
    cases valid : request.valid with
    | false => rfl
    | true => simp [kept valid]
  slots := congrArg (· + 1) rest.slots
  curRow := by
    intro txn others
    exact rest.curRow txn fun each mem => others each (.tail _ mem)
  tsReady := by
    intro txn
    rw [rest.tsReady txn]
    refine or_congr_right ⟨?_, ?_⟩
    · rintro ⟨each, mem, found⟩
      exact ⟨each, .tail _ mem, found⟩
    · rintro ⟨each, mem, valid, due, same⟩
      cases mem with
      | head =>
        have := kept valid
        omega
      | tail _ mem => exact ⟨each, mem, valid, due, same⟩
  events := by
    intro event mem
    obtain ⟨each, inside, found⟩ := rest.events event mem
    exact ⟨each, .tail _ inside, found⟩

/-- A request that is due: its transaction is woken. -/
theorem Answered.wake [DecidableEq Txn] {row : Nat}
    (rest : Answered next requests woken after left events)
    (new : List (MvccEvent Txn)) (valid : request.valid = true)
    (due : request.ts ≤ next) (latest : woken.latestWts = before.latestWts)
    (served : before.maxServedRts ≤ woken.maxServedRts)
    (given : woken.curRow = update before.curRow request.txn row)
    (ready : woken.tsReady = update before.tsReady request.txn true)
    (emitted : ∀ event ∈ new, request.ts < next ∧
      request.ts ≤ woken.maxServedRts ∧
        ∃ wts, event = .served request.txn wts) :
    Answered next (request :: requests) before after
      ({ request with valid := false } :: left) (new ++ events) where
  latestWts := rest.latestWts.trans latest
  maxServedRts := Nat.le_trans served rest.maxServedRts
  pending := by
    have old : ¬ next < request.ts := by omega
    simp [rest.pending, old]
  slots := congrArg (· + 1) rest.slots
  curRow := by
    intro txn others
    rw [rest.curRow txn fun each mem => others each (.tail _ mem),
      given, update_of_ne]
    exact (others request (.head _) valid due).symm
  tsReady := by
    intro txn
    rw [rest.tsReady txn, ready]
    by_cases same : txn = request.txn
    · subst same
      have self : ∃ each ∈ request :: requests, each.valid = true ∧
          each.ts ≤ next ∧ each.txn = request.txn :=
        ⟨request, .head _, valid, due, rfl⟩
      simp only [update_self, true_or, self, or_true]
    · rw [update_of_ne same]
      refine or_congr_right ⟨?_, ?_⟩
      · rintro ⟨each, mem, found⟩
        exact ⟨each, .tail _ mem, found⟩
      · rintro ⟨each, mem, found⟩
        cases mem with
        | head => exact absurd found.2.2.symm same
        | tail _ mem => exact ⟨each, mem, found⟩
  events := by
    intro event mem
    rcases List.mem_append.1 mem with mem | mem
    · obtain ⟨below, reached, isServed⟩ := emitted event mem
      exact ⟨request, .head _, valid, below,
        Nat.le_trans reached rest.maxServedRts, isServed⟩
    · obtain ⟨each, inside, found⟩ := rest.events event mem
      exact ⟨each, .tail _ inside, found⟩

/-- Nothing but what serving reads changes differs. -/
def OnlyServed (before after : RowMvcc Txn) : Prop :=
  after = { before with
    maxServedRts := after.maxServedRts
    curRow := after.curRow
    tsReady := after.tsReady }

theorem OnlyServed.reserved {row : Nat} (only : OnlyServed before after)
    (reserved : Reserved before row) : Reserved after row := by
  rw [only]
  exact reserved

/-- Either no pending request is the next prewrite, or that one has been
granted. -/
def NextSettled (next : Nat) (requests : List (ReqEntry Txn))
    (after : RowMvcc Txn) : Prop :=
  Settled after ∧ (∀ request ∈ requests, request.valid = true →
      request.ts ≠ next) ∨
    ∃ request ∈ requests, request.valid = true ∧ request.ts = next ∧
      request.type = .pReq ∧ Reserved after (after.curRow request.txn) ∧
        after.prewriteTs = next

theorem NextSettled.cons (result : NextSettled next requests after)
    (apart : request.valid = true → request.ts ≠ next) :
    NextSettled next (request :: requests) after := by
  rcases result with ⟨quiet, others⟩ | ⟨granted, mem, found⟩
  · exact .inl ⟨quiet, List.forall_mem_cons.2 ⟨apart, others⟩⟩
  · exact .inr ⟨granted, .tail _ mem, found⟩

variable [DecidableEq Txn] (settings : MvccSettings) {supply : MvccSupply}
  {ts : Nat}

/-- The loop only goes past a request at the next prewrite if it is one. -/
theorem answerRequests_next {mvcc : RowMvcc Txn}
    {result : List (ReqEntry Txn) × RowMvcc Txn × List (MvccEvent Txn)}
    (answers : answerRequests settings supply ts next requests mvcc =
      some result) :
    ∀ request ∈ requests, request.valid = true → request.ts = next →
      request.type = .pReq := by
  induction requests generalizing mvcc result with
  | nil => nofun
  | cons request rest ih =>
    rw [answerRequests] at answers
    intro each mem valid isNext
    split at answers
    · cases answers
    split at answers
    · next served =>
        obtain ⟨tail, answersTail, -⟩ := Option.map_eq_some_iff.1 answers
        cases mem with
        | head => omega
        | tail _ mem => exact ih answersTail each mem valid isNext
    split at answers
    · split at answers
      · next isPre =>
          obtain ⟨reserved, -, answers⟩ := Option.bind_eq_some_iff.1 answers
          split at answers
          · cases answers
          · obtain ⟨tail, answersTail, -⟩ := Option.map_eq_some_iff.1 answers
            cases mem with
            | head => exact isPre
            | tail _ mem => exact ih answersTail each mem valid isNext
      · cases answers
    · next other =>
        obtain ⟨tail, answersTail, -⟩ := Option.map_eq_some_iff.1 answers
        cases mem with
        | head => exact absurd ⟨valid, isNext⟩ other
        | tail _ mem => exact ih answersTail each mem valid isNext

/-- A read that is served from the latest version. -/
theorem Answered.serve (valid : request.valid = true)
    (early : request.ts < next) {event : MvccEvent Txn}
    (served : ∃ wts, event = .served request.txn wts)
    (rest : Answered next requests
      ((before.serveLatest request.ts).wake request.txn before.latestRow)
      after left events) :
    Answered next (request :: requests) before after
      ({ request with valid := false } :: left) (event :: events) := by
  refine rest.wake [event] valid (Nat.le_of_lt early) rfl
    (Nat.le_max_left _ _) rfl rfl ?_
  rintro each (_ | ⟨_, ⟨⟩⟩)
  exact ⟨early, Nat.le_max_right _ _, served⟩

/-- The loop over requests of which none is the next prewrite. -/
theorem answerRequests_reads (supply : MvccSupply) (before : RowMvcc Txn)
    (due : ∀ request ∈ requests, request.valid = true →
      ts < request.ts ∧ request.ts ≠ next ∧
        (request.type = .rReq ∨ next < request.ts)) :
    ∃ left after events,
      answerRequests settings supply ts next requests before =
        some (left, after, events) ∧
      Answered next requests before after left events ∧
        OnlyServed before after := by
  induction requests generalizing before with
  | nil => exact ⟨[], before, [], rfl, .nil before, rfl⟩
  | cons request rest ih =>
    obtain ⟨own, dueRest⟩ := List.forall_mem_cons.1 due
    have notEarly : ¬ (request.valid = true ∧ request.ts ≤ ts) := by
      rintro ⟨valid, early⟩
      have := (own valid).1
      omega
    rw [answerRequests, if_neg notEarly]
    split
    · next reads =>
        obtain ⟨left, after, events, answers, answered, only⟩ :=
          ih ((before.serveLatest request.ts).wake request.txn
            before.latestRow) dueRest
        rw [answers]
        refine ⟨_, _, _, rfl, answered.serve reads.1 reads.2.2 ⟨_, rfl⟩, ?_⟩
        rw [only]
        rfl
    · next notRead =>
        have notNext : ¬ (request.valid = true ∧ request.ts = next) :=
          fun both => (own both.1).2.1 both.2
        obtain ⟨left, after, events, answers, answered, only⟩ :=
          ih before dueRest
        rw [if_neg notNext, answers]
        refine ⟨_, _, _, rfl, answered.keep ?_, only⟩
        intro valid
        rcases (own valid).2.2 with isRead | later
        · have := (own valid).2.1
          have : ¬ request.ts < next :=
            fun less => notRead ⟨valid, isRead, less⟩
          omega
        · exact later

/-- The loop of `update_buffer` on a row without a prewrite. -/
theorem answerRequests_settled (before : RowMvcc Txn) (settled : Settled before)
    (object : supply.fresh ≠ 0)
    (due : ∀ request ∈ requests, request.valid = true →
      ts < request.ts ∧ (request.ts = next → request.type = .pReq) ∧
        (request.type = .rReq ∨ next ≤ request.ts))
    (distinct : requests.Pairwise fun left right =>
      left.valid = true → right.valid = true → left.ts ≠ right.ts)
    (stamp : Txn → Nat)
    (stamped : ∀ request ∈ requests, request.valid = true →
      request.ts = stamp request.txn) :
    ∃ left after events,
      answerRequests settings supply ts next requests before =
        some (left, after, events) ∧
      Answered next requests before after left events ∧
        NextSettled next requests after := by
  induction requests generalizing before with
  | nil =>
    exact ⟨[], before, [], rfl, .nil before, .inl ⟨settled, by simp⟩⟩
  | cons request rest ih =>
    obtain ⟨own, dueRest⟩ := List.forall_mem_cons.1 due
    obtain ⟨ownStamp, stampedRest⟩ := List.forall_mem_cons.1 stamped
    have notEarly : ¬ (request.valid = true ∧ request.ts ≤ ts) := by
      rintro ⟨valid, early⟩
      have := (own valid).1
      omega
    rw [answerRequests, if_neg notEarly]
    split
    · next reads =>
        obtain ⟨left, after, events, answers, answered, result⟩ :=
          ih ((before.serveLatest request.ts).wake request.txn
            before.latestRow) settled dueRest distinct.of_cons stampedRest
        rw [answers]
        exact ⟨_, _, _, rfl, answered.serve reads.1 reads.2.2 ⟨_, rfl⟩,
          result.cons fun _ => Nat.ne_of_lt reads.2.2⟩
    split
    · next grants =>
        obtain ⟨valid, isNext⟩ := grants
        obtain ⟨row, reserved, reserves, ok, prewriteTs, same⟩ :=
          reserveRow_reserved settings request.ts settled object
        have readsRest : ∀ each ∈ rest, each.valid = true →
            ts < each.ts ∧ each.ts ≠ next ∧
              (each.type = .rReq ∨ next < each.ts) := by
          intro each mem isValid
          have different := List.rel_of_pairwise_cons distinct mem valid isValid
          have about := dueRest each mem isValid
          refine ⟨about.1, by omega, about.2.2.imp id ?_⟩
          omega
        obtain ⟨left, after, events, answers, answered, only⟩ :=
          answerRequests_reads settings supply
            ((reserved.copyLatest row).wake request.txn row) readsRest
        rw [if_pos ((own valid).2.1 isNext), reserves, Option.bind_some,
          if_neg ok.2.1, answers]
        have kept : after.curRow request.txn = row := by
          rw [answered.curRow]
          · exact update_self _ _ _
          · intro each mem isValid _ sameTxn
            have different := List.rel_of_pairwise_cons distinct mem
              valid isValid
            rw [ownStamp valid, stampedRest each mem isValid, sameTxn] at different
            exact different rfl
        refine ⟨_, _, _, rfl, ?_, .inr ⟨request, .head _, valid, isNext,
          (own valid).2.1 isNext, ?_, ?_⟩⟩
        · have given : ((reserved.copyLatest row).wake request.txn row).curRow =
              update before.curRow request.txn row := by
            show update reserved.curRow request.txn row = _
            rw [same.curRow]
          have ready : ((reserved.copyLatest row).wake request.txn
              row).tsReady =
              update before.tsReady request.txn true := by
            show update reserved.tsReady request.txn true = _
            rw [same.tsReady]
          exact answered.wake [] valid (Nat.le_of_eq isNext)
            same.latestWts (Nat.le_of_eq same.maxServedRts.symm) given
            ready (by simp)
        · rw [kept]
          exact only.reserved ok
        · rw [only]
          exact prewriteTs.trans isNext
    · next notRead notNext =>
        obtain ⟨left, after, events, answers, answered, result⟩ :=
          ih before settled dueRest distinct.of_cons stampedRest
        rw [answers]
        refine ⟨_, _, _, rfl, answered.keep ?_, ?_⟩
        · intro valid
          have apart : request.ts ≠ next := fun same =>
            notNext ⟨valid, same⟩
          rcases (own valid).2.2 with isRead | later
          · have : ¬ request.ts < next :=
              fun less => notRead ⟨valid, isRead, less⟩
            omega
          · omega
        · exact result.cons fun valid same => notNext ⟨valid, same⟩

end

end Lockfreec.Bench
