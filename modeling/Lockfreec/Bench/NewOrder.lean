import Lockfreec.Bench.TpccKeys

/-!
# The index entries of a NewOrder transaction

The model of `run_new_order` with `get_row`, `insert_row`, `index_insert`,
`finish` and `cleanup`.  The rows of an order are indexed before `finish`
validates, and `cleanup` frees them after an abort without looking at the
indexes.
-/

namespace Lockfreec.Bench.NewOrder

open TpccKeys

variable {Row : Type}

inductive Rc where
  | rcok
  | abort
deriving DecidableEq

/-- The values of `CC_ALG` that decide commit in `finish`. -/
inductive CcAlg where
  | tictoc
  | silo
  | occ
  | hekaton
deriving DecidableEq

structure ItemNo where
  olIId : Nat
  olSupplyWId : Nat

/-- The fields of the query that choose rows and keys. -/
structure Query where
  wId : Nat
  dId : Nat
  cId : Nat
  items : List ItemNo

/-- The indexes that the transaction reads, and `D_NEXT_O_ID` of a district. -/
structure Catalog (Row : Type) where
  custPerDist : Nat
  maxItems : Nat
  iWarehouse : Nat → Option Row
  iCustomerId : Nat → Option Row
  iDistrict : Nat → Option Row
  iItem : Nat → Option Row
  iStock : Nat → Option Row
  nextOId : Row → Nat

def Catalog.custKey (catalog : Catalog Row) (query : Query) : Nat :=
  (distKey query.dId query.wId * catalog.custPerDist + query.cId) % 2 ^ 64

def Catalog.stockKey (catalog : Catalog Row) (item : ItemNo) : Nat :=
  (item.olSupplyWId * catalog.maxItems + item.olIId) % 2 ^ 64

/-- The entries of the indexes that the transaction writes. -/
structure Indexes (Row : Type) where
  iOrder : List (Nat × Row)
  iOrderline : List (Nat × Row)
  iOrderlineWd : List (Nat × Row)

/-- Which calls of `get_row` return a row, the rows that `get_new_row` hands
out one after the other, and the verdict of the validation. -/
structure Outside (Row : Type) where
  granted : Nat → Bool
  newRow : Nat → Row
  valid : Bool

/-- The counters and rows of the transaction manager. -/
structure TxnMan (Row : Type) where
  rowCnt : Nat
  insertRows : List Row

def insertRow (row : Row) (man : TxnMan Row) : TxnMan Row :=
  { man with insertRows := man.insertRows ++ [row] }

/-- The call of `finish`, with its argument. -/
structure AtFinish (Row : Type) where
  rc : Rc
  man : TxnMan Row
  indexes : Indexes Row

section

variable (out : Outside Row) (catalog : Catalog Row) (before : Indexes Row)

/-- `get_row` on a row of an index, and `finish(Abort)` if it returns null.
The call crashes if the index has no row. -/
def getRow (item : Option Row) (man : TxnMan Row)
    (next : Row → TxnMan Row → Option (AtFinish Row)) :
    Option (AtFinish Row) :=
  match item with
  | none => none
  | some row =>
    if out.granted man.rowCnt then
      next row { man with rowCnt := man.rowCnt + 1 }
    else some ⟨.abort, man, before⟩

/-- The loop over the items, with the rows in `buf`, which has room for 15. -/
def orderLines (next : List Row → TxnMan Row → Option (AtFinish Row)) :
    List ItemNo → List Row → TxnMan Row → Option (AtFinish Row)
  | [], buf, man => next buf man
  | item :: rest, buf, man =>
    getRow out before (catalog.iItem item.olIId) man fun _ man =>
    getRow out before (catalog.iStock (catalog.stockKey item)) man fun _ man =>
      let rOl := out.newRow (buf.length + 2)
      if buf.length < 15 then
        orderLines next rest (buf ++ [rOl]) (insertRow rOl man)
      else none

/-- The entries of an order with its lines are added. -/
def indexInsert (order : Order) (rOrder : Row) (buf : List Row) :
    Indexes Row where
  iOrder := before.iOrder ++
    [(orderPrimaryKey catalog.custPerDist order, rOrder)]
  iOrderline := before.iOrderline ++
    buf.map fun row => (orderlineKey catalog.custPerDist order, row)
  iOrderlineWd := before.iOrderlineWd ++
    buf.map fun row => (distKey order.dId order.wId, row)

/-- `run_new_order` up to the call of `finish`. -/
def newOrderBody (query : Query) : Option (AtFinish Row) :=
  getRow out before (catalog.iWarehouse query.wId) ⟨0, []⟩ fun _ man =>
  getRow out before (catalog.iCustomerId (catalog.custKey query)) man
    fun _ man =>
  getRow out before (catalog.iDistrict (distKey query.dId query.wId)) man
    fun rDist man =>
    let order : Order := ⟨query.wId, query.dId, catalog.nextOId rDist + 1⟩
    let rOrder := out.newRow 0
    let rNo := out.newRow 1
    orderLines out catalog before (fun buf man =>
        some ⟨.rcok, man, indexInsert catalog before order rOrder buf⟩)
      query.items [] (insertRow rNo (insertRow rOrder man))

end

/-- What the call returns, with the rows that `cleanup` has freed. -/
structure Returned (Row : Type) where
  rc : Rc
  freed : List Row
  indexes : Indexes Row

/-- The rows that `cleanup` frees. -/
def cleanup (alg : CcAlg) (rc : Rc) (man : TxnMan Row) : List Row :=
  if alg = .hekaton then []
  else if rc = .abort then man.insertRows
  else []

def finish (alg : CcAlg) (out : Outside Row) (call : AtFinish Row) :
    Returned Row :=
  let rc := if call.rc = .rcok ∧ out.valid then .rcok else .abort
  ⟨rc, cleanup alg rc call.man, call.indexes⟩

def runNewOrder (alg : CcAlg) (out : Outside Row) (catalog : Catalog Row)
    (query : Query) (before : Indexes Row) : Option (Returned Row) :=
  (newOrderBody out catalog before query).map (finish alg out)

/-! ## Aborted calls -/

/-- No entry refers to the row. -/
def Indexes.Lacks (indexes : Indexes Row) (row : Row) : Prop :=
  ∀ key, (key, row) ∉ indexes.iOrder ∧ (key, row) ∉ indexes.iOrderline ∧
    (key, row) ∉ indexes.iOrderlineWd

/-- The indexes have the same entries. -/
def Indexes.Same (before after : Indexes Row) : Prop :=
  ∀ entry, (entry ∈ after.iOrder ↔ entry ∈ before.iOrder) ∧
    (entry ∈ after.iOrderline ↔ entry ∈ before.iOrderline) ∧
    (entry ∈ after.iOrderlineWd ↔ entry ∈ before.iOrderlineWd)

/-- The indexes are as before, and no entry refers to a row that has been
freed. -/
def Clean (before : Indexes Row) (result : Returned Row) : Prop :=
  before.Same result.indexes ∧ ∀ row ∈ result.freed, result.indexes.Lacks row

/-- `finish` is called with `Abort`, because a `get_row` has returned null. -/
def Refused (out : Outside Row) (catalog : Catalog Row) (query : Query)
    (before : Indexes Row) : Prop :=
  (newOrderBody out catalog before query).map AtFinish.rc = some .abort

section

variable {out : Outside Row} {catalog : Catalog Row} {before : Indexes Row}
  {man : TxnMan Row}

/-- The rows to be freed come from `get_new_row`. -/
def Made (out : Outside Row) (man : TxnMan Row) : Prop :=
  ∀ row ∈ man.insertRows, ∃ count, row = out.newRow count

theorem Made.insertRow (made : Made out man) (count : Nat) :
    Made out (insertRow (out.newRow count) man) :=
  List.forall_mem_append.2 ⟨made, List.forall_mem_singleton.2 ⟨count, rfl⟩⟩

/-- The indexes are as they were, or the order is in them. -/
structure Told (out : Outside Row) (before : Indexes Row)
    (call : AtFinish Row) : Prop where
  made : Made out call.man
  refused : call.rc = .abort → call.indexes = before
  indexed : call.rc = .rcok → ∃ key, (key, out.newRow 0) ∈ call.indexes.iOrder

theorem getRow_told {item : Option Row}
    {next : Row → TxnMan Row → Option (AtFinish Row)} (made : Made out man)
    (later : ∀ row man, Made out man → ∀ call ∈ next row man,
      Told out before call) :
    ∀ call ∈ getRow out before item man next, Told out before call := by
  intro call isCall
  cases item with
  | none => cases isCall
  | some row =>
    rw [getRow] at isCall
    split at isCall
    · exact later row ⟨man.rowCnt + 1, man.insertRows⟩ made call isCall
    · cases isCall
      exact ⟨made, fun _ => rfl, nofun⟩

theorem orderLines_told {next : List Row → TxnMan Row → Option (AtFinish Row)}
    (later : ∀ buf man, Made out man → ∀ call ∈ next buf man,
      Told out before call) (items : List ItemNo) :
    ∀ buf man, Made out man →
      ∀ call ∈ orderLines out catalog before next items buf man,
        Told out before call := by
  induction items with
  | nil => exact later
  | cons item rest ih =>
    intro buf man made
    refine getRow_told made fun _ man made => getRow_told made ?_
    intro _ man made call isCall
    split at isCall
    · exact ih _ _ (made.insertRow _) call isCall
    · cases isCall

theorem newOrderBody_told (query : Query) :
    ∀ call ∈ newOrderBody out catalog before query, Told out before call := by
  refine getRow_told nofun fun _ man made => getRow_told made fun _ man made =>
    getRow_told made fun rDist man made => ?_
  refine orderLines_told ?_ query.items [] _ ((made.insertRow 0).insertRow 1)
  rintro buf man made call ⟨⟩
  exact ⟨made, nofun, fun _ => ⟨_, List.mem_append_right _ (.head _)⟩⟩

end

/-- Every lookup finds a row. -/
def fullCatalog : Catalog Nat :=
  ⟨3000, 100000, some, some, some, some, some, fun _ => 3001⟩

end Lockfreec.Bench.NewOrder
