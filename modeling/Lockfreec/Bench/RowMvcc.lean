import Lockfreec.Bench.RowLock
import Lockfreec.Lib.Interleaving
import Mathlib.Algebra.Group.Nat.Defs

/-!
# The multi-version row

A `Row_mvcc` keeps the committed versions of one row in an array of history
entries, below them the version `_row` that everything older was folded into,
and the requests that wait for the granted prewrite to end.  A call of
`access` runs under the row's latch and is one step.

Row objects are named by their addresses, with `0` for `NULL`.  Their contents
are not modelled, but `wts` records for every row object the timestamp of the
version that it holds.  A failed `assert` leaves no state: it is `none`.
-/

namespace Lockfreec.Bench

open Function Lib.Interleaving

/-- The four kinds of requests of the timestamp-ordering protocols. -/
inductive TsType where
  | rReq
  | wReq
  | pReq
  | xpReq
deriving DecidableEq, Repr

structure WriteHisEntry where
  valid : Bool
  reserved : Bool
  ts : Nat
  row : Nat
deriving DecidableEq, Repr

structure ReqEntry (Txn : Type) where
  valid : Bool
  type : TsType
  ts : Nat
  txn : Txn

/--
The fields of a `Row_mvcc`, the fields `cur_row` and `ts_ready` of the
transactions that it writes, and the timestamp of the version in every row
object.  The lengths `_his_len` and `_req_len` are those of the lists.
-/
structure RowMvcc (Txn : Type) where
  row : Nat
  latestRow : Nat
  latestWts : Nat
  oldestWts : Nat
  writeHistory : List WriteHisEntry
  numVersions : Nat
  existsPrewrite : Bool
  prewriteTs : Nat
  prewriteHisId : Nat
  maxServedRts : Nat
  requests : List (ReqEntry Txn)
  curRow : Txn → Nat
  tsReady : Txn → Bool
  wts : Nat → Nat

/-- The compile-time switch `DEBUG_CC` and the number of threads. -/
structure MvccSettings where
  debugCc : Bool
  threadCnt : Nat

/--
What the environment answers in one call of `access`: the value of
`get_min_ts` and the row object that `_mm_malloc` hands out.
-/
structure MvccSupply where
  minTs : Nat
  fresh : Nat
deriving DecidableEq, Repr

/-- A read was served a version, or a prewrite became a version. -/
inductive MvccEvent (Txn : Type) where
  | served (reader : Txn) (wts : Nat)
  | committed (writer : Txn)
deriving DecidableEq, Repr

def uint64Max : Nat :=
  2 ^ 64 - 1

variable {Txn : Type}

/-- The row after `init`; the entries are taken to start unreserved. -/
def RowMvcc.init (row : Nat) (requester : Txn) (curRow : Txn → Nat)
    (tsReady : Txn → Bool) : RowMvcc Txn where
  row := row
  latestRow := row
  latestWts := 0
  oldestWts := 0
  writeHistory := List.replicate 4 ⟨false, false, 0, 0⟩
  numVersions := 0
  existsPrewrite := false
  prewriteTs := 0
  prewriteHisId := 0
  maxServedRts := 0
  requests := List.replicate 4 ⟨false, .rReq, 0, requester⟩
  curRow := curRow
  tsReady := tsReady
  wts := fun _ => 0

/-! ## Loops over the history -/

/--
The newest version below a timestamp: its timestamp, kept in a variable of
the given width, and its index.
-/
def newestBelow (width bound : Nat) :
    List WriteHisEntry → Nat → Nat → Nat → Nat × Nat
  | [], _, theTs, theI => (theTs, theI)
  | entry :: rest, i, theTs, theI =>
    if entry.valid ∧ entry.ts < bound ∧ theTs < entry.ts then
      newestBelow width bound rest (i + 1) (entry.ts % 2 ^ width) i
    else
      newestBelow width bound rest (i + 1) theTs theI

/-- The oldest version: its timestamp and its index. -/
def oldestVersion : List WriteHisEntry → Nat → Nat → Nat → Nat × Nat
  | [], _, minTs, idx => (minTs, idx)
  | entry :: rest, i, minTs, idx =>
    if entry.valid ∧ entry.ts < minTs then
      oldestVersion rest (i + 1) entry.ts i
    else
      oldestVersion rest (i + 1) minTs idx

/-- An unused entry, if possible one that still has a row object. -/
def unusedEntry : List WriteHisEntry → Nat → Nat → Nat
  | [], _, idx => idx
  | entry :: rest, i, idx =>
    if entry.valid = false ∧ entry.reserved = false ∧ entry.row ≠ 0 then
      i
    else if entry.valid = false ∧ entry.reserved = false then
      unusedEntry rest (i + 1) i
    else
      unusedEntry rest (i + 1) idx

/-- The largest timestamp of a version, from `maxTs` on. -/
def newestVersion : List WriteHisEntry → Nat → Nat
  | [], maxTs => maxTs
  | entry :: rest, maxTs =>
    newestVersion rest
      (if entry.valid ∧ maxTs < entry.ts then entry.ts else maxTs)

/-! ## Reserving a history entry -/

/-- The versions that go when everything up to a timestamp is recycled. -/
def WriteHisEntry.stale (maxRecycleTs : Nat) (entry : WriteHisEntry) :
    Bool :=
  entry.valid && decide (entry.ts ≤ maxRecycleTs)

def WriteHisEntry.recycle (maxRecycleTs : Nat) (entry : WriteHisEntry) :
    WriteHisEntry :=
  if entry.stale maxRecycleTs then
    { entry with valid := false, reserved := false }
  else entry

/-- Fold the versions up to the one at `idx` into `_row`. -/
def RowMvcc.recycleUpTo (maxRecycleTs idx : Nat) (mvcc : RowMvcc Txn) :
    Option (RowMvcc Txn) :=
  match mvcc.writeHistory[idx]? with
  | none => none
  | some entry =>
    let swapped := mvcc.writeHistory.set idx { entry with row := mvcc.row }
    if ∀ each ∈ swapped, each.stale maxRecycleTs → each.row ≠ 0 then
      some { mvcc with
        row := entry.row
        oldestWts := maxRecycleTs
        writeHistory := swapped.map (WriteHisEntry.recycle maxRecycleTs)
        numVersions :=
          mvcc.numVersions - swapped.countP (WriteHisEntry.stale maxRecycleTs) }
    else none

/-- The garbage collection at the head of `reserveRow`. -/
def RowMvcc.collectGarbage (minTs : Nat) (mvcc : RowMvcc Txn) :
    Option (RowMvcc Txn) :=
  if mvcc.oldestWts < minTs ∧ mvcc.numVersions = mvcc.writeHistory.length then
    let found := newestBelow 64 minTs mvcc.writeHistory 0 0
      mvcc.writeHistory.length
    if found.2 ≠ mvcc.writeHistory.length then
      mvcc.recycleUpTo found.1 found.2
    else some mvcc
  else some mvcc

/-- The assertions of `reserveRow` under `DEBUG_CC`. -/
def RowMvcc.historyAsserts (mvcc : RowMvcc Txn) : Prop :=
  mvcc.writeHistory.countP WriteHisEntry.valid = mvcc.numVersions ∧
    (0 < mvcc.numVersions → newestVersion mvcc.writeHistory 0 = mvcc.latestWts)

instance (mvcc : RowMvcc Txn) : Decidable mvcc.historyAsserts :=
  inferInstanceAs (Decidable (_ ∧ _))

/-- The index of an unused entry, or `_his_len` when all hold versions. -/
def RowMvcc.findUnused (mvcc : RowMvcc Txn) : Option Nat :=
  if mvcc.numVersions < mvcc.writeHistory.length then
    let idx := unusedEntry mvcc.writeHistory 0 mvcc.writeHistory.length
    if idx < mvcc.writeHistory.length then some idx else none
  else some mvcc.writeHistory.length

/-- Fold the oldest version into `_row` and free its entry. -/
def RowMvcc.recycleOldest (mvcc : RowMvcc Txn) :
    Option (Nat × RowMvcc Txn) :=
  let found := oldestVersion mvcc.writeHistory 0 uint64Max
    mvcc.writeHistory.length
  match mvcc.writeHistory[found.2]? with
  | none => none
  | some entry =>
    if mvcc.oldestWts < found.1 ∧ entry.row ≠ 0 then
      some (found.2, { mvcc with
        row := entry.row
        writeHistory :=
          mvcc.writeHistory.set found.2 { entry with row := mvcc.row }
        oldestWts := found.1
        numVersions := mvcc.numVersions - 1 })
    else none

/-- `double_list(0)`, with the first of the new entries. -/
def RowMvcc.doubleHistory (settings : MvccSettings) (ts : Nat)
    (mvcc : RowMvcc Txn) : Option (Nat × RowMvcc Txn) :=
  let doubled := mvcc.writeHistory ++
    List.replicate mvcc.writeHistory.length ⟨false, false, 0, 0⟩
  if settings.debugCc → ∀ entry ∈ mvcc.writeHistory, entry.valid then
    some (doubled.length / 2,
      { mvcc with writeHistory := doubled, prewriteTs := ts })
  else none

/-- An entry for the prewrite when `findUnused` answered `idx`. -/
def RowMvcc.makeRoom (settings : MvccSettings) (ts idx : Nat)
    (mvcc : RowMvcc Txn) : Option (Nat × RowMvcc Txn) :=
  if idx = mvcc.writeHistory.length then
    if settings.threadCnt ≤ mvcc.writeHistory.length then
      mvcc.recycleOldest
    else mvcc.doubleHistory settings ts
  else some (idx, mvcc)

/-- Turn the entry at `idx` into the prewrite. -/
def RowMvcc.reserveEntry (fresh ts idx : Nat) (mvcc : RowMvcc Txn) :
    Option (Nat × RowMvcc Txn) :=
  match mvcc.writeHistory[idx]? with
  | none => none
  | some entry =>
    let row := if entry.row = 0 then fresh else entry.row
    some (row, { mvcc with
      writeHistory := mvcc.writeHistory.set idx ⟨false, true, ts, row⟩
      existsPrewrite := true
      prewriteHisId := idx
      prewriteTs := ts })

/-- `reserveRow`: the row object of the new prewrite. -/
def RowMvcc.reserveRow (settings : MvccSettings) (supply : MvccSupply)
    (ts : Nat) (mvcc : RowMvcc Txn) : Option (Nat × RowMvcc Txn) :=
  if mvcc.existsPrewrite then none
  else
    (mvcc.collectGarbage supply.minTs).bind fun collected =>
      if settings.debugCc → collected.historyAsserts then
        collected.findUnused.bind fun unused =>
          (collected.makeRoom settings ts unused).bind fun room =>
            room.2.reserveEntry supply.fresh ts room.1
      else none

/-! ## Pending requests -/

/-- Fill the first free slot. -/
def putReq (request : ReqEntry Txn) :
    List (ReqEntry Txn) → Option (List (ReqEntry Txn))
  | [] => none
  | slot :: rest =>
    if slot.valid then (putReq request rest).map (slot :: ·)
    else some (request :: rest)

/-- `buffer_req`: fill a free slot, after `double_list(1)` if there is none. -/
def RowMvcc.bufferReq (type : TsType) (ts : Nat) (txn : Txn)
    (mvcc : RowMvcc Txn) : Option (RowMvcc Txn) :=
  let request : ReqEntry Txn := ⟨true, type, ts, txn⟩
  match putReq request mvcc.requests with
  | some requests => some { mvcc with requests := requests }
  | none =>
    (putReq request (mvcc.requests ++
      List.replicate mvcc.requests.length ⟨false, .rReq, 0, txn⟩)).map
      fun requests => { mvcc with requests := requests }

section

variable [DecidableEq Txn]

/-- A request that has to wait. -/
def RowMvcc.delay (type : TsType) (ts : Nat) (txn : Txn)
    (mvcc : RowMvcc Txn) : Option (RowMvcc Txn) :=
  (mvcc.bufferReq type ts txn).map fun buffered =>
    { buffered with tsReady := update mvcc.tsReady txn false }

/-- Hand a row object to a transaction that waits. -/
def RowMvcc.wake (txn : Txn) (row : Nat) (mvcc : RowMvcc Txn) :
    RowMvcc Txn :=
  { mvcc with
    curRow := update mvcc.curRow txn row
    tsReady := update mvcc.tsReady txn true }

/-- `copy(_latest_row)` into another row object. -/
def RowMvcc.copyLatest (row : Nat) (mvcc : RowMvcc Txn) : RowMvcc Txn :=
  { mvcc with
    wts := update mvcc.wts row (mvcc.wts mvcc.latestRow) }

/-- Serve the latest version to a read. -/
def RowMvcc.serveLatest (ts : Nat) (mvcc : RowMvcc Txn) : RowMvcc Txn :=
  { mvcc with maxServedRts := max mvcc.maxServedRts ts }

/-- The smallest timestamp of a pending prewrite above `ts`. -/
def nextPreTs (ts : Nat) : List (ReqEntry Txn) → Nat → Nat
  | [], next => next
  | request :: rest, next =>
    nextPreTs ts rest
      (if request.valid ∧ request.type = .pReq ∧ ts < request.ts ∧
          request.ts < next
        then request.ts else next)

/-- The loop of `update_buffer` that answers pending requests. -/
def answerRequests (settings : MvccSettings) (supply : MvccSupply)
    (ts next : Nat) : List (ReqEntry Txn) → RowMvcc Txn →
      Option (List (ReqEntry Txn) × RowMvcc Txn × List (MvccEvent Txn))
  | [], mvcc => some ([], mvcc, [])
  | request :: rest, mvcc =>
    if request.valid ∧ request.ts ≤ ts then none
    else if request.valid ∧ request.type = .rReq ∧ request.ts < next then
      (answerRequests settings supply ts next rest
        ((mvcc.serveLatest request.ts).wake request.txn mvcc.latestRow)).map
        fun result => ({ request with valid := false } :: result.1, result.2.1,
          .served request.txn (mvcc.wts mvcc.latestRow) :: result.2.2)
    else if request.valid ∧ request.ts = next then
      if request.type = .pReq then
        (mvcc.reserveRow settings supply request.ts).bind fun reserved =>
          if reserved.1 = 0 then none
          else
            (answerRequests settings supply ts next rest
              ((reserved.2.copyLatest reserved.1).wake request.txn
                reserved.1)).map
              fun result =>
                ({ request with valid := false } :: result.1, result.2)
      else none
    else
      (answerRequests settings supply ts next rest mvcc).map
        fun result => (request :: result.1, result.2)

/-- `update_buffer`. -/
def RowMvcc.updateBuffer (settings : MvccSettings) (supply : MvccSupply)
    (ts : Nat) (mvcc : RowMvcc Txn) :
    Option (RowMvcc Txn × List (MvccEvent Txn)) :=
  (answerRequests settings supply ts
    (nextPreTs ts mvcc.requests uint64Max) mvcc.requests mvcc).map
    fun result => ({ result.2.1 with requests := result.1 }, result.2.2)

/-! ## The calls of `access` -/

/-- What a call of `access` answers, leaves behind and emits. -/
structure AccessResult (Txn : Type) where
  rc : Rc
  mvcc : RowMvcc Txn
  events : List (MvccEvent Txn)

/-- A read that is served the row object `row` at once. -/
def RowMvcc.serve (txn : Txn) (row : Nat) (mvcc : RowMvcc Txn) :
    AccessResult Txn where
  rc := .rcok
  mvcc := { mvcc with curRow := update mvcc.curRow txn row }
  events := [.served txn (mvcc.wts row)]

/-- The row object of the version below `ts`. -/
def RowMvcc.versionBelow (ts : Nat) (mvcc : RowMvcc Txn) : Nat :=
  let found := newestBelow 32 ts mvcc.writeHistory 0 0 mvcc.writeHistory.length
  match mvcc.writeHistory[found.2]? with
  | some entry => entry.row
  | none => mvcc.row

/-- `access` with `R_REQ`. -/
def RowMvcc.read (ts : Nat) (txn : Txn) (mvcc : RowMvcc Txn) :
    Option (AccessResult Txn) :=
  if ts < mvcc.oldestWts then some ⟨.abort, mvcc, []⟩
  else if mvcc.latestWts < ts then
    if mvcc.existsPrewrite ∧ mvcc.prewriteTs < ts then
      (mvcc.delay .rReq ts txn).map fun delayed => ⟨.wait, delayed, []⟩
    else some ((mvcc.serveLatest ts).serve txn mvcc.latestRow)
  else some (mvcc.serve txn (mvcc.versionBelow ts))

/-- `access` with `P_REQ`. -/
def RowMvcc.prewrite (settings : MvccSettings) (supply : MvccSupply)
    (ts : Nat) (txn : Txn) (mvcc : RowMvcc Txn) :
    Option (AccessResult Txn) :=
  if ts < mvcc.latestWts ∨ ts < mvcc.maxServedRts ∨
      mvcc.existsPrewrite ∧ ts < mvcc.prewriteTs then
    some ⟨.abort, mvcc, []⟩
  else if mvcc.existsPrewrite then
    (mvcc.delay .pReq ts txn).map fun delayed => ⟨.wait, delayed, []⟩
  else
    (mvcc.reserveRow settings supply ts).bind fun reserved =>
      if reserved.1 = 0 then none
      else some ⟨.rcok, { reserved.2.copyLatest reserved.1 with
        curRow := update reserved.2.curRow txn reserved.1 }, []⟩

/-- Make the prewrite a version, before `update_buffer`. -/
def RowMvcc.install (ts row : Nat) (mvcc : RowMvcc Txn) :
    Option (RowMvcc Txn) :=
  match mvcc.writeHistory[mvcc.prewriteHisId]? with
  | none => none
  | some entry =>
    if mvcc.latestWts < ts ∧ row = entry.row then
      some { mvcc with
        writeHistory := mvcc.writeHistory.set mvcc.prewriteHisId
          { entry with valid := true, ts := ts }
        latestWts := ts
        latestRow := row
        existsPrewrite := false
        numVersions := mvcc.numVersions + 1
        wts := update mvcc.wts row ts }
    else none

/-- Give the prewrite up, before `update_buffer`. -/
def RowMvcc.discard (row : Nat) (mvcc : RowMvcc Txn) :
    Option (RowMvcc Txn) :=
  match mvcc.writeHistory[mvcc.prewriteHisId]? with
  | none => none
  | some entry =>
    if row = entry.row then
      some { mvcc with
        writeHistory := mvcc.writeHistory.set mvcc.prewriteHisId
          { entry with valid := false, reserved := false }
        existsPrewrite := false }
    else none

/-- `access` with `W_REQ`. -/
def RowMvcc.write (settings : MvccSettings) (supply : MvccSupply)
    (ts : Nat) (txn : Txn) (row : Nat) (mvcc : RowMvcc Txn) :
    Option (AccessResult Txn) :=
  (mvcc.install ts row).bind fun installed =>
    (installed.updateBuffer settings supply ts).map fun result =>
      ⟨.rcok, result.1, .committed txn :: result.2⟩

/-- `access` with `XP_REQ`. -/
def RowMvcc.undo (settings : MvccSettings) (supply : MvccSupply)
    (ts row : Nat) (mvcc : RowMvcc Txn) : Option (AccessResult Txn) :=
  (mvcc.discard row).bind fun discarded =>
    (discarded.updateBuffer settings supply ts).map fun result =>
      ⟨.rcok, result.1, result.2⟩

/-- The assertions at the head of `access` under `DEBUG_CC`. -/
def RowMvcc.requestAsserts (mvcc : RowMvcc Txn) : Prop :=
  ∀ request ∈ mvcc.requests, request.valid → mvcc.latestWts < request.ts ∧
      (mvcc.existsPrewrite → mvcc.prewriteTs < request.ts)

omit [DecidableEq Txn] in
instance (mvcc : RowMvcc Txn) : Decidable mvcc.requestAsserts :=
  inferInstanceAs (Decidable (∀ _ ∈ _, _))

/-- `access`: the whole call, under the latch of the row. -/
def RowMvcc.access (settings : MvccSettings) (supply : MvccSupply)
    (ts : Nat) (txn : Txn) (type : TsType) (row : Nat)
    (mvcc : RowMvcc Txn) : Option (AccessResult Txn) :=
  if settings.debugCc → mvcc.requestAsserts then
    match type with
    | .rReq => mvcc.read ts txn
    | .pReq => mvcc.prewrite settings supply ts txn
    | .wReq => mvcc.write settings supply ts txn row
    | .xpReq => mvcc.undo settings supply ts row
  else none

/-! ## Transactions -/

/--
Where a transaction is in its use of the row: it has not asked yet, its
request was buffered, its prewrite was granted at once, or it is through.
-/
inductive MvccPc where
  | unused
  | waiting (type : TsType)
  | holding
  | done
deriving DecidableEq, Repr

/-- A request and what the environment answers in it. -/
structure MvccCall where
  type : TsType
  supply : MvccSupply
deriving DecidableEq, Repr

/-- The prewrite of a transaction was granted and has not ended. -/
def Granted (mvcc : RowMvcc Txn) (pc : MvccPc) (txn : Txn) : Prop :=
  pc = .holding ∨ pc = .waiting .pReq ∧ mvcc.tsReady txn = true

omit [DecidableEq Txn] in
instance (mvcc : RowMvcc Txn) (pc : MvccPc) (txn : Txn) :
    Decidable (Granted mvcc pc txn) :=
  inferInstanceAs (Decidable (_ ∨ _))

/--
The calls that a transaction may make: one read or prewrite, and one write or
undo after a granted prewrite.  The allocator does not hand out `NULL`.
-/
def Permitted (mvcc : RowMvcc Txn) (pc : MvccPc) (txn : Txn)
    (call : MvccCall) : Prop :=
  call.supply.fresh ≠ 0 ∧
    match call.type with
    | .rReq | .pReq => pc = .unused
    | .wReq | .xpReq => Granted mvcc pc txn

omit [DecidableEq Txn] in
instance (mvcc : RowMvcc Txn) (pc : MvccPc) (txn : Txn) (call : MvccCall) :
    Decidable (Permitted mvcc pc txn call) :=
  match call with
  | ⟨.rReq, _⟩ | ⟨.pReq, _⟩ | ⟨.wReq, _⟩ | ⟨.xpReq, _⟩ =>
    inferInstanceAs (Decidable (_ ∧ _))

/-- Where a transaction is after a call. -/
def MvccPc.next (type : TsType) (rc : Rc) : MvccPc :=
  match type, rc with
  | _, .wait => .waiting type
  | .pReq, .rcok => .holding
  | _, _ => .done

/--
The transactions that use one row.  A write or undo passes the row object
that the prewrite was given; a read or prewrite passes `NULL`.
-/
def mvccMachine (settings : MvccSettings) (ts : Txn → Nat) :
    Machine Txn MvccCall (RowMvcc Txn) MvccPc (MvccEvent Txn) where
  step txn call mvcc pc :=
    if Permitted mvcc pc txn call then
      (mvcc.access settings call.supply (ts txn) txn call.type
        (if pc = .unused then 0 else mvcc.curRow txn)).map fun result =>
        { shared := result.mvcc
          thread := .next call.type result.rc
          events := result.events }
    else none

/-- Every transaction is before its first call on the new row. -/
def mvccStart (row : Nat) (requester : Txn) (curRow : Txn → Nat)
    (tsReady : Txn → Bool) : Config Txn (RowMvcc Txn) MvccPc where
  shared := .init row requester curRow tsReady
  threads := fun _ => .unused

end

end Lockfreec.Bench
