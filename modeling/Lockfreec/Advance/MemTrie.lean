import Lockfreec.Lib.Chain
import Lockfreec.Lib.Interleaving
import Mathlib.Data.Fin.Basic

/-!
# The lock-free trie

The model of `lf_memtrie.c`: `lf_trie_insert_real_data` with the functions it
calls, and `lf_trie_search_real_data`.  Every step loads, stores, increments
or compares-and-swaps one word of shared memory.  Locals, among them the
`prev` and `prev_next` that are passed by address, belong to one thread.  A
null pointer that is dereferenced leaves its thread without a step.

The node pool comes in two forms.  Either `tnode_pop` and `tnode_push` run
step by step, or each of them is one atomic step.
-/

namespace Lockfreec.Advance.MemTrie

open Function Lib.Interleaving

/-- `unsigned char`. -/
abbrev Byte := Fin 256

theorem byte_neZero : @NeZero Nat Zero.ofOfNat0 256 := ⟨by decide⟩

instance byteNeZero : @NeZero Nat Zero.ofOfNat0 256 := byte_neZero

/-! ## Memory -/

/-- The nodes, the pool `trieNodeList` and the two counters. -/
structure TrieState (Node : Type) where
  firstSubNode : Node → Option Node
  brotherNode : Node → Option Node
  key : Node → Byte
  /-- `nodelist->first`. -/
  first : Option Node
  nodelistCounter : UInt64
  /-- `trie_entry->counter`. -/
  counter : UInt64

/-- How the operations of the node pool run. -/
inductive PoolMode where
  | stepwise
  | atomic
deriving DecidableEq

/-! ## Calls -/

inductive TrieCall where
  | insert (inStr : List Byte)
  | search (inStr : List Byte)
deriving DecidableEq

inductive TrieRet where
  | insertSuccess
  | insertDuplication
  | insertError
  | searchSuccess
  | searchError
deriving DecidableEq

/-- The locals of `lf_trie_insert_real_data`, `node` apart. -/
structure Cursor (Node : Type) where
  inStr : List Byte
  pos : Nat
  parrent : Node
  prev : Node
  prevNext : Option Node

/-- `in_str[pos]`. -/
def Cursor.label {Node : Type} (cursor : Cursor Node) : Byte :=
  cursor.inStr.getD cursor.pos 0

/-- Where `get_subnode_by_label` was called from. -/
inductive Site (Node : Type) where
  | lookup
  | insertNode (tnode : Node)

/-- The program points between two steps. -/
inductive TriePc (Node : Type) where
  | idle
  | finish (call : TrieCall) (result : TrieRet)
  -- get_subnode_by_label
  | readFirst (site : Site Node) (cursor : Cursor Node)
  | firstGreater (site : Site Node) (cursor : Cursor Node) (tmp : Node)
  | firstLess (site : Site Node) (cursor : Cursor Node) (tmp : Node)
  | readBrother (site : Site Node) (cursor : Cursor Node)
  | nextLess (site : Site Node) (cursor : Cursor Node) (next : Node)
  | nextGreater (site : Site Node) (cursor : Cursor Node) (next : Node)
  | readSub (site : Site Node) (cursor : Cursor Node)
  -- lf_trie_insert_node
  | storeKey (cursor : Cursor Node) (tnode : Node)
  | clearBrother (cursor : Cursor Node) (tnode : Node)
  | storeBrother (cursor : Cursor Node) (tnode : Node)
  | linkCas (cursor : Cursor Node) (tnode : Node)
  | loadSub (cursor : Cursor Node) (tnode : Node)
  | countNode (cursor : Cursor Node)
  -- tnode_pop
  | popLoad (cursor : Cursor Node)
  | popTest (cursor : Cursor Node) (original : Option Node)
  | popNext (cursor : Cursor Node) (original : Option Node)
  | popCas (cursor : Cursor Node) (original : Node) (next : Option Node)
  | popCount (cursor : Cursor Node) (tnode : Node)
  | popClear (cursor : Cursor Node) (tnode : Node)
  -- tnode_push
  | pushLoad (cursor : Cursor Node) (tnode : Node)
  | pushStore (cursor : Cursor Node) (tnode : Node)
      (original : Option Node)
  | pushTest (cursor : Cursor Node) (tnode : Node) (original : Option Node)
  | pushCas (cursor : Cursor Node) (tnode : Node)
      (original loaded : Option Node)
  | pushReload (cursor : Cursor Node) (tnode : Node)
      (original returned : Option Node)
  | pushCount (cursor : Cursor Node)
  -- lf_trie_search_real_data with search_subnode_by_label
  | searchFirst (inStr : List Byte) (pos : Nat) (node : Node)
  | searchGreater (inStr : List Byte) (pos : Nat) (tmp : Node)
  | searchLess (inStr : List Byte) (pos : Nat) (tmp : Node)
  | searchBrother (inStr : List Byte) (pos : Nat) (tmp : Node)

/-- A call of an idle thread, or the next step of a call.  Whether the loop
condition of `tnode_push` loads the link before or after it swaps the head is
the compiler's choice. -/
inductive TrieAction where
  | call (call : TrieCall)
  | run
  | swapFirst
deriving DecidableEq

inductive TrieEvent (Tid : Type) where
  | called (thread : Tid) (call : TrieCall)
  /-- A search makes one access to shared memory. -/
  | accessed (thread : Tid)
  | returned (thread : Tid) (call : TrieCall) (result : TrieRet)
deriving DecidableEq

/-! ## Control flow between two accesses -/

section

variable {Node : Type}

/-- The loop of `get_subnode_by_label` tests `*prev_next`: a label beyond it,
or its end, makes the caller insert. -/
def notFound (site : Site Node) (cursor : Cursor Node) : TriePc Node :=
  match site with
  | .lookup => .popLoad cursor
  | .insertNode tnode => .storeBrother cursor tnode

def nextTest (site : Site Node) (cursor : Cursor Node) : TriePc Node :=
  match cursor.prevNext with
  | none => notFound site cursor
  | some next => .nextLess site cursor next

/-- The `for` loop of `lf_trie_insert_real_data` after one inserted label. -/
def insertNext (cursor : Cursor Node) (node : Node) : TriePc Node :=
  if cursor.pos + 1 < cursor.inStr.length then
    .popLoad { cursor with pos := cursor.pos + 1, parrent := node }
  else
    .finish (.insert cursor.inStr) .insertSuccess

/-- The `while` loop of `lf_trie_insert_real_data` after one found label. -/
def lookupNext (cursor : Cursor Node) (node : Node) : TriePc Node :=
  if cursor.pos + 1 < cursor.inStr.length then
    .readFirst .lookup
      { cursor with pos := cursor.pos + 1, parrent := node }
  else
    .finish (.insert cursor.inStr) .insertDuplication

/-- `get_subnode_by_label` returns `*prev`. -/
def found (site : Site Node) (cursor : Cursor Node) : TriePc Node :=
  match site with
  | .lookup => lookupNext cursor cursor.prev
  | .insertNode tnode => .clearBrother cursor tnode

/-- `lf_trie_search_real_data` before the label at `pos`. -/
def searchNext (inStr : List Byte) (pos : Nat) (node : Node) :
    TriePc Node :=
  if pos < inStr.length then .searchFirst inStr pos node
  else .finish (.search inStr) .searchSuccess

/-- `search_subnode_by_label` tests `tmp_node`. -/
def searchTest (inStr : List Byte) (pos : Nat) :
    Option Node → TriePc Node
  | none => .finish (.search inStr) .searchError
  | some tmp => .searchGreater inStr pos tmp

end

/-! ## Steps -/

section

variable {Tid Node : Type} [DecidableEq Node]

abbrev TrieOutcome (Tid Node : Type) :=
  Outcome (TrieState Node) (TriePc Node) (TrieEvent Tid)

/-- The whole of `tnode_pop` in one step. -/
def tnodePop (trie : TrieState Node) (cursor : Cursor Node) :
    TrieOutcome Tid Node :=
  match trie.first with
  | none => ⟨trie, .finish (.insert cursor.inStr) .insertError, []⟩
  | some tnode =>
    ⟨{ trie with
        first := trie.brotherNode tnode
        nodelistCounter := trie.nodelistCounter - 1
        brotherNode := update trie.brotherNode tnode none },
      .storeKey cursor tnode, []⟩

/-- The whole of `tnode_push` in one step. -/
def tnodePush (trie : TrieState Node) (cursor : Cursor Node)
    (tnode : Node) : TrieOutcome Tid Node :=
  ⟨{ trie with
      first := some tnode
      nodelistCounter := trie.nodelistCounter + 1
      brotherNode := update trie.brotherNode tnode trie.first },
    insertNext cursor cursor.prev, []⟩

def trieCall (root : Node) (thread : Tid) (trie : TrieState Node) :
    TrieCall → TrieOutcome Tid Node
  | .insert inStr =>
    if 0 < inStr.length then
      ⟨trie, .readFirst .lookup ⟨inStr, 0, root, root, none⟩,
        [.called thread (.insert inStr)]⟩
    else
      ⟨trie, .finish (.insert inStr) .insertDuplication,
        [.called thread (.insert inStr)]⟩
  | .search inStr =>
    ⟨trie, searchNext inStr 0 root, [.called thread (.search inStr)]⟩

/-- The steps of `lf_trie_insert_real_data` and of what it calls. -/
def insertStep (mode : PoolMode) (action : TrieAction) (trie : TrieState Node) :
    TriePc Node → Option (TrieOutcome Tid Node)
  -- get_subnode_by_label
  | .readFirst site cursor =>
    match trie.firstSubNode cursor.parrent with
    | none =>
      some ⟨trie, notFound site
        { cursor with prev := cursor.parrent, prevNext := none }, []⟩
    | some tmp => some ⟨trie, .firstGreater site cursor tmp, []⟩
  | .firstGreater site cursor tmp =>
    if cursor.label < trie.key tmp then
      some ⟨trie, notFound site
        { cursor with
          prev := cursor.parrent, prevNext := some tmp }, []⟩
    else some ⟨trie, .firstLess site cursor tmp, []⟩
  | .firstLess site cursor tmp =>
    if trie.key tmp < cursor.label then
      if cursor.prev = cursor.parrent then
        some ⟨trie, .readBrother site { cursor with prev := tmp }, []⟩
      else some ⟨trie, nextTest site cursor, []⟩
    else some ⟨trie, .readSub site { cursor with prev := tmp }, []⟩
  | .readBrother site cursor =>
    some ⟨trie, nextTest site
      { cursor with prevNext := trie.brotherNode cursor.prev }, []⟩
  | .nextLess site cursor next =>
    if trie.key next < cursor.label then
      some ⟨trie, .readBrother site { cursor with prev := next }, []⟩
    else some ⟨trie, .nextGreater site cursor next, []⟩
  | .nextGreater site cursor next =>
    if cursor.label < trie.key next then
      some ⟨trie, notFound site cursor, []⟩
    else some ⟨trie, .readSub site { cursor with prev := next }, []⟩
  | .readSub site cursor =>
    some ⟨trie, found site
      { cursor with prevNext := trie.firstSubNode cursor.prev }, []⟩
  -- lf_trie_insert_node
  | .storeKey cursor tnode =>
    some ⟨{ trie with
        key := update trie.key tnode cursor.label },
      .readFirst (.insertNode tnode) cursor, []⟩
  | .clearBrother cursor tnode =>
    some ⟨{ trie with
        brotherNode := update trie.brotherNode tnode none },
      .pushLoad cursor tnode, []⟩
  | .storeBrother cursor tnode =>
    some ⟨{ trie with
        brotherNode :=
          update trie.brotherNode tnode cursor.prevNext },
      .linkCas cursor tnode, []⟩
  | .linkCas cursor tnode =>
    if cursor.prev = cursor.parrent then
      if trie.firstSubNode cursor.prev = cursor.prevNext then
        some ⟨{ trie with
            firstSubNode :=
              update trie.firstSubNode cursor.prev (some tnode) },
          .loadSub { cursor with prev := tnode } tnode, []⟩
      else
        some ⟨trie, .readFirst (.insertNode tnode)
          { cursor with
            prevNext := trie.firstSubNode cursor.prev }, []⟩
    else
      if trie.brotherNode cursor.prev = cursor.prevNext then
        some ⟨{ trie with
            brotherNode :=
              update trie.brotherNode cursor.prev (some tnode) },
          .loadSub { cursor with prev := tnode } tnode, []⟩
      else
        some ⟨trie, .readFirst (.insertNode tnode)
          { cursor with
            prevNext := trie.brotherNode cursor.prev }, []⟩
  | .loadSub cursor tnode =>
    some ⟨trie, .countNode
      { cursor with prevNext := trie.firstSubNode tnode }, []⟩
  | .countNode cursor =>
    some ⟨{ trie with counter := trie.counter + 1 },
      insertNext cursor cursor.prev, []⟩
  -- tnode_pop
  | .popLoad cursor =>
    match mode with
    | .atomic => some (tnodePop trie cursor)
    | .stepwise => some ⟨trie, .popTest cursor trie.first, []⟩
  | .popTest cursor original =>
    if trie.first = none then
      some ⟨trie, .finish (.insert cursor.inStr) .insertError, []⟩
    else some ⟨trie, .popNext cursor original, []⟩
  | .popNext _ none => none
  | .popNext cursor (some original) =>
    some ⟨trie, .popCas cursor original (trie.brotherNode original), []⟩
  | .popCas cursor original next =>
    if trie.first = some original then
      some ⟨{ trie with first := next }, .popCount cursor original, []⟩
    else some ⟨trie, .popTest cursor trie.first, []⟩
  | .popCount cursor tnode =>
    some ⟨{ trie with nodelistCounter := trie.nodelistCounter - 1 },
      .popClear cursor tnode, []⟩
  | .popClear cursor tnode =>
    some ⟨{ trie with
        brotherNode := update trie.brotherNode tnode none },
      .storeKey cursor tnode, []⟩
  -- tnode_push
  | .pushLoad cursor tnode =>
    match mode with
    | .atomic => some (tnodePush trie cursor tnode)
    | .stepwise => some ⟨trie, .pushStore cursor tnode trie.first, []⟩
  | .pushStore cursor tnode original =>
    some ⟨{ trie with
        brotherNode := update trie.brotherNode tnode original },
      .pushTest cursor tnode original, []⟩
  | .pushTest cursor tnode original =>
    if action = .swapFirst then
      if trie.first = original then
        some ⟨{ trie with first := some tnode },
          .pushReload cursor tnode original trie.first, []⟩
      else
        some ⟨trie, .pushReload cursor tnode original trie.first, []⟩
    else
      some ⟨trie, .pushCas cursor tnode original (trie.brotherNode tnode), []⟩
  | .pushCas cursor tnode original loaded =>
    if trie.first = original then
      some ⟨{ trie with first := some tnode },
        if loaded = original then .pushCount cursor
        else .pushStore cursor tnode original, []⟩
    else
      some ⟨trie,
        if loaded = trie.first then .pushCount cursor
        else .pushStore cursor tnode trie.first, []⟩
  | .pushReload cursor tnode _ returned =>
    if trie.brotherNode tnode = returned then
      some ⟨trie, .pushCount cursor, []⟩
    else some ⟨trie, .pushStore cursor tnode returned, []⟩
  | .pushCount cursor =>
    some ⟨{ trie with nodelistCounter := trie.nodelistCounter + 1 },
      insertNext cursor cursor.prev, []⟩
  | _ => none

/-- The steps of `lf_trie_search_real_data`. -/
def searchStep (thread : Tid) (trie : TrieState Node) :
    TriePc Node → Option (TrieOutcome Tid Node)
  | .searchFirst inStr pos node =>
    some ⟨trie, searchTest inStr pos (trie.firstSubNode node),
      [.accessed thread]⟩
  | .searchGreater inStr pos tmp =>
    some ⟨trie,
      if inStr.getD pos 0 < trie.key tmp then
        .finish (.search inStr) .searchError
      else .searchLess inStr pos tmp,
      [.accessed thread]⟩
  | .searchLess inStr pos tmp =>
    some ⟨trie,
      if trie.key tmp < inStr.getD pos 0 then
        .searchBrother inStr pos tmp
      else searchNext inStr (pos + 1) tmp,
      [.accessed thread]⟩
  | .searchBrother inStr pos tmp =>
    some ⟨trie, searchTest inStr pos (trie.brotherNode tmp), [.accessed thread]⟩
  | _ => none

/-- Any number of threads on one trie. -/
def trieMachine (mode : PoolMode) (root : Node) :
    Machine Tid TrieAction (TrieState Node) (TriePc Node) (TrieEvent Tid) where
  step thread action trie pc :=
    match pc, action with
    | .idle, .call call => some (trieCall root thread trie call)
    | .idle, _ => none
    | _, .call _ => none
    | .finish call result, _ =>
      some ⟨trie, .idle, [.returned thread call result]⟩
    | pc, action =>
      (insertStep mode action trie pc).orElse fun _ => searchStep thread trie pc

/-- What `trie_new` leaves behind: no node has a child yet. -/
def trieStart (brotherNode : Node → Option Node) (key : Node → Byte)
    (first : Option Node) (nodelistCounter counter : UInt64) :
    Config Tid (TrieState Node) (TriePc Node) where
  shared :=
    { firstSubNode := fun _ => none
      brotherNode := brotherNode
      key := key
      first := first
      nodelistCounter := nodelistCounter
      counter := counter }
  threads := fun _ => .idle

end

end Lockfreec.Advance.MemTrie
