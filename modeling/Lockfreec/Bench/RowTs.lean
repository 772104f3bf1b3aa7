import Lockfreec.Bench.RowMvcc

/-!
# The row of basic timestamp ordering

A `Row_ts` buffers prewrites until they end, reads that are younger than a
buffered prewrite, and writes that are younger than a buffered prewrite or
read.  `update_buffer` is called whenever a prewrite ends; it serves the reads
that are no longer behind a prewrite and then outputs writes that are no
longer behind a read.  A call of `access` runs under the row's latch and is
one step.  The model has `TS_TWR` off.

The request lists are singly linked, with the last request first.  Entries
and rows that are given back to the allocator are left out.  A failed `assert`
leaves no state: it is `none`.
-/

namespace Lockfreec.Bench

open Function Lib.Interleaving

structure TsReqEntry (Txn Data : Type) where
  txn : Txn
  row : Option Data
  ts : Nat

/--
The fields of a `Row_ts` and the fields `cur_row` and `ts_ready` of the
transactions that it writes.
-/
structure RowTs (Txn Data : Type) where
  row : Data
  wts : Nat
  rts : Nat
  minWts : Nat
  minRts : Nat
  minPts : Nat
  readreq : List (TsReqEntry Txn Data)
  writereq : List (TsReqEntry Txn Data)
  prereq : List (TsReqEntry Txn Data)
  preqLen : Nat
  curRow : Txn → Data
  tsReady : Txn → Bool

section

variable {Txn Data : Type}

/-- The row after `init`. -/
def RowTs.init (row : Data) (curRow : Txn → Data) (tsReady : Txn → Bool) :
    RowTs Txn Data where
  row := row
  wts := 0
  rts := 0
  minWts := uint64Max
  minRts := uint64Max
  minPts := uint64Max
  readreq := []
  writereq := []
  prereq := []
  preqLen := 0
  curRow := curRow
  tsReady := tsReady

/-! ## The request lists -/

/-- `buffer_req`. -/
def RowTs.bufferReq (type : TsType) (entry : TsReqEntry Txn Data)
    (row : RowTs Txn Data) : RowTs Txn Data :=
  match type with
  | .rReq =>
    { row with
      readreq := entry :: row.readreq
      minRts := if entry.ts < row.minRts then entry.ts else row.minRts }
  | .wReq =>
    { row with
      writereq := entry :: row.writereq
      minWts := if entry.ts < row.minWts then entry.ts else row.minWts }
  | .pReq =>
    { row with
      preqLen := row.preqLen + 1
      prereq := entry :: row.prereq
      minPts := if entry.ts < row.minPts then entry.ts else row.minPts }
  | .xpReq => row

/-- `cal_min`. -/
def calMin : List (TsReqEntry Txn Data) → Nat → Nat
  | [], least => least
  | entry :: rest, least =>
    calMin rest (if entry.ts < least then entry.ts else least)

/-- `debuffer_req` with a timestamp: the requests that are taken out, the last
one found first, and those that stay. -/
def debufferUpTo (ts : Nat) (queue : List (TsReqEntry Txn Data)) :
    List (TsReqEntry Txn Data) × List (TsReqEntry Txn Data) :=
  ((queue.filter fun entry => entry.ts ≤ ts).reverse,
    queue.filter fun entry => ts < entry.ts)

section

variable [DecidableEq Txn]

/-- Take out the first request of a transaction. -/
def takeTxn (txn : Txn) :
    List (TsReqEntry Txn Data) → Option (List (TsReqEntry Txn Data))
  | [] => none
  | entry :: rest =>
    if entry.txn = txn then some rest
    else (takeTxn txn rest).map (entry :: ·)

/-- `debuffer_req` with a transaction, which is called for prewrites only. -/
def RowTs.debufferPreq (txn : Txn) (row : RowTs Txn Data) :
    Option (RowTs Txn Data) :=
  (takeTxn txn row.prereq).map fun rest =>
    { row with prereq := rest, preqLen := row.preqLen - 1 }

/-- Take out the prewrites of some writes. -/
def RowTs.debufferPreqs (writes : List (TsReqEntry Txn Data))
    (row : RowTs Txn Data) : Option (RowTs Txn Data) :=
  match writes with
  | [] => some row
  | write :: rest =>
    (row.debufferPreq write.txn).bind (RowTs.debufferPreqs rest)

/-! ## `update_buffer` -/

/-- Serve a read that was buffered. -/
def RowTs.serveBuffered (row : RowTs Txn Data)
    (read : TsReqEntry Txn Data) : RowTs Txn Data :=
  { row with
    curRow := update row.curRow read.txn row.row
    rts := if row.rts < read.ts then read.ts else row.rts
    tsReady := update row.tsReady read.txn true }

/-- The request that `update_buffer` calls the youngest. -/
def youngest : List (TsReqEntry Txn Data) → Nat →
    Option (TsReqEntry Txn Data) → Option (TsReqEntry Txn Data)
  | [], _, found => found
  | entry :: rest, youngTs, found =>
    if entry.ts < youngTs then youngest rest entry.ts (some entry)
    else youngest rest youngTs found

/-- Output the write of a request. -/
def RowTs.output (ts : Nat) (data : Data) (row : RowTs Txn Data) :
    RowTs Txn Data :=
  { row with row := data, wts := if row.wts < ts then ts else row.wts }

/--
The loop of `update_buffer`.  Every pass but the last one takes a buffered
write out, so their number bounds the passes.
-/
def RowTs.updateLoop : Nat → RowTs Txn Data → Option (RowTs Txn Data)
  | 0, _ => none
  | fuel + 1, row =>
    let newMinPts := calMin row.prereq uint64Max
    if newMinPts < row.minPts then none
    else if newMinPts = row.minPts then some row
    else
      let ready := debufferUpTo newMinPts row.readreq
      let row := { row with minPts := newMinPts, readreq := ready.2 }
      if ready.1.isEmpty then some row
      else
        let row := ready.1.foldl RowTs.serveBuffered row
        let newMinRts := calMin row.readreq uint64Max
        if newMinRts ≤ row.minRts then some row
        else
          let ready := debufferUpTo newMinRts row.writereq
          let row := { row with minRts := newMinRts, writereq := ready.2 }
          if ready.1.isEmpty then some row
          else
            (row.debufferPreqs ready.1).bind fun row =>
              (youngest ready.1 uint64Max none).bind fun young =>
                young.row.bind fun data =>
                  (row.output young.ts data).updateLoop fuel

def RowTs.updateBuffer (row : RowTs Txn Data) : Option (RowTs Txn Data) :=
  row.updateLoop (row.writereq.length + 1)

/-! ## `access` -/

/-- `access` with `R_REQ`. -/
def RowTs.read (ts : Nat) (txn : Txn) (row : RowTs Txn Data) :
    Rc × RowTs Txn Data :=
  if ts < row.wts then (.abort, row)
  else if row.minPts < ts then
    (.wait, { row.bufferReq .rReq ⟨txn, none, ts⟩ with
      tsReady := update row.tsReady txn false })
  else
    (.rcok, { row with
      curRow := update row.curRow txn row.row
      rts := if row.rts < ts then ts else row.rts })

/-- `access` with `P_REQ`. -/
def RowTs.prewrite (ts : Nat) (txn : Txn) (row : RowTs Txn Data) :
    Rc × RowTs Txn Data :=
  if ts < row.rts then (.abort, row)
  else if ts < row.wts then (.abort, row)
  else (.rcok, row.bufferReq .pReq ⟨txn, none, ts⟩)

/-- `access` with `XP_REQ`. -/
def RowTs.undo (txn : Txn) (row : RowTs Txn Data) :
    Option (Rc × RowTs Txn Data) :=
  (row.debufferPreq txn).bind fun row =>
    row.updateBuffer.map fun row => (.rcok, row)

/-- `access` with `W_REQ`. -/
def RowTs.write (ts : Nat) (txn : Txn) (data : Data)
    (row : RowTs Txn Data) : Option (Rc × RowTs Txn Data) :=
  if row.minPts < ts then
    some (.rcok, row.bufferReq .wReq ⟨txn, some data, ts⟩)
  else if row.minRts < ts then
    some (.rcok, row.bufferReq .wReq ⟨txn, some data, ts⟩)
  else (row.output ts data).undo txn

/-- `access`, with the new row for `W_REQ`. -/
def RowTs.access (ts : Nat) (txn : Txn) (type : TsType) (data : Data)
    (row : RowTs Txn Data) : Option (Rc × RowTs Txn Data) :=
  match type with
  | .rReq => some (row.read ts txn)
  | .pReq => some (row.prewrite ts txn)
  | .wReq => row.write ts txn data
  | .xpReq => row.undo txn

/-! ## Transactions -/

/--
Where a transaction is in its use of the row: it has not asked yet, its read
was told to wait, its prewrite was accepted and has not had its write or undo,
or it is through.
-/
inductive TsPc where
  | unused
  | waiting
  | pending
  | done
deriving DecidableEq, Repr

/-- A request, with the new row for `W_REQ`. -/
structure TsCall (Data : Type) where
  type : TsType
  data : Data

/-- Where a transaction is when it may issue a request. -/
def TsType.allowedAt : TsType → TsPc
  | .rReq => .unused
  | .pReq => .unused
  | .wReq => .pending
  | .xpReq => .pending

/-- Where a transaction is after an answer. -/
def TsType.next : TsType → Rc → TsPc
  | .rReq, .wait => .waiting
  | .pReq, .rcok => .pending
  | _, _ => .done

/-- A write was accepted. -/
inductive TsEvent (Txn Data : Type) where
  | wrote (txn : Txn) (data : Data)
deriving DecidableEq

def TsCall.events (txn : Txn) (call : TsCall Data) :
    List (TsEvent Txn Data) :=
  match call.type with
  | .wReq => [.wrote txn call.data]
  | _ => []

/-- Transactions that use one row; `ts` gives their timestamps. -/
def rowTsMachine (ts : Txn → Nat) :
    Machine Txn (TsCall Data) (RowTs Txn Data) TsPc (TsEvent Txn Data) where
  step txn call row pc :=
    if pc = call.type.allowedAt then
      (row.access (ts txn) txn call.type call.data).map fun answer =>
        ⟨answer.2, call.type.next answer.1, call.events txn⟩
    else none

end

/-- A new row that no transaction has used. -/
def rowTsStart (row : Data) (curRow : Txn → Data) (tsReady : Txn → Bool) :
    Config Txn (RowTs Txn Data) TsPc where
  shared := .init row curRow tsReady
  threads := fun _ => .unused

end

end Lockfreec.Bench
