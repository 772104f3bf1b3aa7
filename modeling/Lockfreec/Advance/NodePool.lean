import Lockfreec.Lib.Chain
import Lockfreec.Lib.Solo
import Mathlib.Data.Fintype.Basic
import Mathlib.Data.UInt

/-!
# The node pools of the trie and of the binary tree

`tnode_push` and `tnode_pop` of `lf_memtrie.c`, and the same two loops over
another link in `lf_binarytree.c`.  Every step loads or stores one word or
compares and swaps it.  A pop tests the shared head where it uses its own
copy of it, so a push in between makes it follow a null pointer.

`trie_new` fills such a pool from one thread.  It allocates the head of the
list without clearing it.
-/

namespace Lockfreec.Advance.NodePool

open Function Lib.Chain Lib.Interleaving Lib.Solo

/-! ## The list -/

/-- The member of a node that links a pool: `_brotherNode` of a `trie_node`,
`_right` of a `binary_node`. -/
inductive LinkField where
  | brotherNode
  | right
deriving DecidableEq

/-- A `trie_node_list` or a `binary_node_list` with the links of its nodes. -/
structure NodeList (Node : Type) where
  link : LinkField → Node → Option Node
  first : Option Node
  nodelistCounter : UInt64

variable {Tid Node : Type} [DecidableEq Node]

def NodeList.setLink (list : NodeList Node) (field : LinkField)
    (node : Node) (target : Option Node) : NodeList Node :=
  { list with
    link := update list.link field (update (list.link field) node target) }

/-- `abstraction_cas` of `nodelist->first`, with the value it returns. -/
def NodeList.casFirst (list : NodeList Node) (exchange compare : Option Node) :
    NodeList Node × Option Node :=
  if list.first = compare then
    ({ list with first := exchange }, list.first)
  else (list, list.first)

/-! ## The loops -/

inductive PoolPc (Node : Type) where
  | idle
  | popLoad
  | popTest (original : Option Node)
  | popNext (original : Option Node)
  | popCas (original : Node) (next : Option Node)
  | popCount (node : Node)
  | popClear (node : Node)
  | pushLoad (node : Node)
  | pushStore (node : Node) (original : Option Node)
  | pushTest (node : Node) (original : Option Node)
  | pushCas (node : Node) (original loaded : Option Node)
  | pushReload (node : Node) (returned : Option Node)
  | pushCount
  | returned (result : Option Node)
  /-- A null pointer was dereferenced. -/
  | crashed
deriving DecidableEq

/-- One step of a call.  Whether the loop condition of a push swaps the head
before it loads the link is the compiler's choice. -/
def poolStep (field : LinkField) (swapFirst : Bool) (list : NodeList Node) :
    PoolPc Node → Option (NodeList Node × PoolPc Node)
  | .popLoad => some (list, .popTest list.first)
  | .popTest original =>
    if list.first = none then some (list, .returned none)
    else some (list, .popNext original)
  | .popNext none => some (list, .crashed)
  | .popNext (some original) =>
    some (list, .popCas original (list.link field original))
  | .popCas original next =>
    some ((list.casFirst next (some original)).1,
      if (list.casFirst next (some original)).2 = some original then
        .popCount original
      else .popTest (list.casFirst next (some original)).2)
  | .popCount node =>
    some ({ list with nodelistCounter := list.nodelistCounter - 1 },
      .popClear node)
  | .popClear node =>
    some (list.setLink field node none, .returned (some node))
  | .pushLoad node => some (list, .pushStore node list.first)
  | .pushStore node original =>
    some (list.setLink field node original, .pushTest node original)
  | .pushTest node original =>
    if swapFirst then
      some ((list.casFirst (some node) original).1,
        .pushReload node (list.casFirst (some node) original).2)
    else some (list, .pushCas node original (list.link field node))
  | .pushCas node original loaded =>
    some ((list.casFirst (some node) original).1,
      if loaded = (list.casFirst (some node) original).2 then .pushCount
      else .pushStore node (list.casFirst (some node) original).2)
  | .pushReload node returned =>
    some (list,
      if list.link field node = returned then .pushCount
      else .pushStore node returned)
  | .pushCount =>
    some ({ list with nodelistCounter := list.nodelistCounter + 1 },
      .returned none)
  | .idle | .returned _ | .crashed => none

/-! ## Any number of threads -/

inductive PoolAction (Node : Type) where
  | pop
  | push (node : Node)
  | run
  | swapFirst
deriving DecidableEq

/-- Threads that pop and push the nodes of one list. -/
def poolMachine (Tid : Type) (field : LinkField) :
    Machine Tid (PoolAction Node) (NodeList Node) (PoolPc Node)
      (Tid × Option Node) where
  step thread action list pc :=
    match pc, action with
    | .idle, .pop => some ⟨list, .popLoad, []⟩
    | .idle, .push node => some ⟨list, .pushLoad node, []⟩
    | .returned result, _ => some ⟨list, .idle, [(thread, result)]⟩
    | pc, action =>
      (poolStep field (action = .swapFirst) list pc).map
        fun result => ⟨result.1, result.2, []⟩

/-- `tnode_pop` and `tnode_push`. -/
def tnodePool (Tid : Type) :
    Machine Tid (PoolAction Node) (NodeList Node) (PoolPc Node)
      (Tid × Option Node) :=
  poolMachine Tid .brotherNode

/-- `binarytree_node_pop` and `binarytree_node_push`. -/
def binarytreeNodePool (Tid : Type) :
    Machine Tid (PoolAction Node) (NodeList Node) (PoolPc Node)
      (Tid × Option Node) :=
  poolMachine Tid .right

/-- A list of any length, and threads outside of every call. -/
def poolStart (list : NodeList Node) :
    Config Tid (NodeList Node) (PoolPc Node) :=
  ⟨list, fun _ => .idle⟩

/-! ## Null pointers -/

/-- The thread is about to swap its node into an empty list. -/
def Fills (list : NodeList Node) (pc : PoolPc Node)
    (action : PoolAction Node) : Prop :=
  list.first = none ∧
    match pc with
    | .pushTest _ original => original = none ∧ action = .swapFirst
    | .pushCas _ original _ => original = none
    | _ => False

instance (list : NodeList Node) (pc : PoolPc Node)
    (action : PoolAction Node) : Decidable (Fills list pc action) := by
  unfold Fills
  cases pc <;> infer_instance

/-- No pop has found the list empty and still has to test it. -/
def NoEmptyPop (threads : Tid → PoolPc Node) : Prop :=
  ∀ thread, threads thread ≠ .popTest none

instance [Fintype Tid] (threads : Tid → PoolPc Node) :
    Decidable (NoEmptyPop threads) :=
  inferInstanceAs (Decidable (∀ _, _))

/-- An empty list is filled only while no pop stands between its load and
its test. -/
def fillsApart :
    Guard Tid (PoolAction Node) (NodeList Node) (PoolPc Node) :=
  fun config thread action =>
    Fills config.shared (config.threads thread) action →
      NoEmptyPop config.threads

instance [Fintype Tid] (config : Config Tid (NodeList Node) (PoolPc Node))
    (tid : Tid) (action : PoolAction Node) :
    Decidable (fillsApart config tid action) :=
  inferInstanceAs (Decidable (_ → _))

/-- A pop that found the list empty still finds it so. -/
def Sound (list : NodeList Node) (pc : PoolPc Node) : Prop :=
  match pc with
  | .popTest none => list.first = none
  | .popNext original => original ≠ none
  | .crashed => False
  | _ => True

variable {field : LinkField} {pc : PoolPc Node}

/-- What a step leaves of an empty list. -/
theorem poolStep_first {swapFirst : Bool} {list : NodeList Node}
    {result : NodeList Node × PoolPc Node} {action : PoolAction Node}
    (choice : swapFirst = decide (action = .swapFirst))
    (step : poolStep field swapFirst list pc = some result)
    (empty : list.first = none) (calm : ¬ Fills list pc action) :
    result.1.first = none := by
  cases pc with
  | popNext original =>
    cases original <;> cases step <;> exact empty
  | popTest original =>
    simp only [poolStep, empty, if_true, Option.some.injEq] at step
    cases step
    exact empty
  | popCas original next =>
    cases step
    simp [NodeList.casFirst, empty]
  | pushTest node original =>
    subst choice
    by_cases swaps : action = .swapFirst
    · have other : original ≠ none := fun same =>
        calm ⟨empty, same, swaps⟩
      simp only [poolStep, swaps, decide_true, if_true] at step
      cases step
      simp [NodeList.casFirst, empty, other.symm]
    · simp only [poolStep, swaps, decide_false] at step
      cases step
      exact empty
  | pushCas node original loaded =>
    have other : original ≠ none := fun same => calm ⟨empty, same⟩
    cases step
    simp [NodeList.casFirst, empty, other.symm]
  | _ => cases step <;> exact empty

theorem poolStep_sound {swapFirst : Bool} {list : NodeList Node}
    {result : NodeList Node × PoolPc Node}
    (step : poolStep field swapFirst list pc = some result)
    (sound : Sound list pc) : Sound result.1 result.2 := by
  cases pc with
  | popLoad =>
    cases step
    cases found : list.first <;> simp [Sound, found]
  | popTest original =>
    simp only [poolStep] at step
    split at step
    · cases step
      trivial
    · next filled =>
        cases step
        rintro rfl
        exact filled sound
  | popNext original =>
    cases original with
    | none => exact absurd rfl sound
    | some original =>
      cases step
      trivial
  | popCas original next =>
    cases step
    by_cases same : list.first = some original
    · simp [NodeList.casFirst, same, Sound]
    · cases found : list.first <;>
        simp_all [NodeList.casFirst, Sound]
  | pushTest node original =>
    simp only [poolStep] at step
    split at step <;> cases step <;> trivial
  | pushCas | pushReload =>
    cases step
    dsimp only
    split <;> trivial
  | _ => cases step <;> trivial

theorem poolMachine_cases {tid : Tid} {action : PoolAction Node}
    {list : NodeList Node}
    {outcome : Outcome (NodeList Node) (PoolPc Node) (Tid × Option Node)}
    (step : (poolMachine Tid field).step tid action list pc = some outcome) :
    (outcome.shared = list ∧ ∀ list, Sound list outcome.thread) ∨
      poolStep field (action = .swapFirst) list pc =
        some (outcome.shared, outcome.thread) := by
  have loops : ∀ {pc : PoolPc Node},
      (poolStep field (action = .swapFirst) list pc).map
          (fun result => (⟨result.1, result.2, []⟩ : Outcome _ _ _)) =
        some outcome →
      poolStep field (action = .swapFirst) list pc =
        some (outcome.shared, outcome.thread) := by
    intro pc mapped
    obtain ⟨result, ran, rfl⟩ := Option.map_eq_some_iff.1 mapped
    exact ran
  cases pc with
  | idle =>
    cases action with
    | pop | push =>
      cases step
      exact .inl ⟨rfl, fun _ => trivial⟩
    | run | swapFirst => cases step
  | returned result =>
    cases step
    exact .inl ⟨rfl, fun _ => trivial⟩
  | _ => exact .inr (loops step)

omit [DecidableEq Node] in
/-- A thread is not disturbed by what another one does to the list. -/
theorem Sound.frame {list changed : NodeList Node} (sound : Sound list pc)
    (empty : pc = .popTest none → list.first = none → changed.first = none) :
    Sound changed pc := by
  cases pc with
  | popTest original =>
    cases original with
    | none => exact empty rfl sound
    | some original => trivial
  | popNext original | crashed => exact sound
  | _ => trivial

theorem poolMachine_sound (field : LinkField) (list : NodeList Node)
    [DecidableEq Tid] {history : List (Tid × Option Node)}
    {config : Config Tid (NodeList Node) (PoolPc Node)}
    (run : (poolMachine Tid field).RunWhere fillsApart (poolStart list)
      history config) :
    ∀ tid, Sound config.shared (config.threads tid) := by
  apply run.invariant fun _ config =>
    ∀ tid, Sound config.shared (config.threads tid)
  · intro tid
    trivial
  · intro history config tid action outcome sound apart step
    obtain ⟨same, own⟩ | ran := poolMachine_cases step
    · apply forall_update (Sound outcome.shared)
      · exact own outcome.shared
      · intro other ne
        exact (sound other).frame fun _ empty => same ▸ empty
    · apply forall_update (Sound outcome.shared)
      · exact poolStep_sound ran (sound tid)
      · intro other ne
        refine (sound other).frame fun standing empty => ?_
        exact poolStep_first rfl ran empty fun fills =>
          apart fills other standing

/-- As long as no empty list is filled under a pop that found it empty, no
pop follows a null pointer. -/
theorem pops_never_crash [DecidableEq Tid] (list : NodeList Node)
    (history : List (Tid × Option Node))
    (config : Config Tid (NodeList Node) (PoolPc Node)) (thread : Tid)
    (run : (tnodePool Tid).RunWhere fillsApart (poolStart list) history config ∨
      (binarytreeNodePool Tid).RunWhere fillsApart (poolStart list)
        history config) :
    config.threads thread ≠ .crashed := by
  have sound : Sound config.shared (config.threads thread) := by
    cases run with
    | inl trie => exact poolMachine_sound .brotherNode list trie thread
    | inr tree => exact poolMachine_sound .right list tree thread
  intro crashed
  rw [crashed] at sound
  exact sound

/-- A list of one node. -/
def oneNode : NodeList (Fin 1) :=
  ⟨fun _ _ => none, some 0, 1⟩

/-- The only node is popped and pushed back. -/
def popAndPush : List (Bool × PoolAction (Fin 1)) :=
  (false, .pop) :: List.replicate 7 (false, .run) ++
    (false, .push 0) :: List.replicate 6 (false, .run)

theorem pops_never_crash_oneNode :
    ∃ config, (tnodePool Bool).RunWhere fillsApart (poolStart oneNode)
        [(false, some 0), (false, none)] config ∧
      config.threads true ≠ .crashed := by
  obtain ⟨⟨config, history⟩, executed, same⟩ :=
    Option.map_eq_some_iff.1 (show
      ((tnodePool Bool).executeWhere fillsApart (poolStart oneNode)
        popAndPush).map Prod.snd =
        some [(false, some 0), (false, none)] from by decide +kernel)
  subst same
  have run := Machine.runWhere_of_execute executed
  exact ⟨config, run, pops_never_crash oneNode _ config true (.inl run)⟩

/-- A second pop finds the list empty before the push, and tests it behind
the push. -/
def popAcrossPush : List (Bool × PoolAction (Fin 1)) :=
  (false, .pop) :: List.replicate 7 (false, .run) ++
    (true, .pop) :: (true, .run) ::
    (false, .push 0) :: List.replicate 6 (false, .run) ++
    [(true, .run), (true, .run)]

theorem poolMachine_crashes (field : LinkField) :
    ∃ config, (poolMachine Bool field).Run (poolStart oneNode)
        [(false, some 0), (false, none)] config ∧
      config.threads true = .crashed := by
  obtain ⟨⟨config, history⟩, executed, same⟩ :=
    Option.map_eq_some_iff.1 (show
      ((poolMachine Bool field).execute (poolStart oneNode) popAcrossPush).map
          (fun result => (result.2, result.1.threads true)) =
        some ([(false, some 0), (false, none)], .crashed) from by
      cases field <;> decide +kernel)
  obtain ⟨rfl, crashed⟩ := Prod.mk.inj same
  exact ⟨config, Machine.run_of_execute executed, crashed⟩

/-- A pop that found the list empty follows the null pointer when the only
node is pushed back before its test. -/
theorem pops_crash : (∃ config, (tnodePool Bool).Run (poolStart oneNode)
        [(false, some 0), (false, none)] config ∧
      config.threads true = .crashed) ∧
    ∃ config, (binarytreeNodePool Bool).Run (poolStart oneNode)
        [(false, some 0), (false, none)] config ∧
      config.threads true = .crashed :=
  ⟨poolMachine_crashes .brotherNode, poolMachine_crashes .right⟩

/-! ## Calls of one thread -/

/-- Run a call to its end. -/
def finish (field : LinkField) (swapFirst : Bool) :
    Nat → NodeList Node → PoolPc Node → Option (NodeList Node × Option Node)
  | _, list, .returned result => some (list, result)
  | 0, _, _ => none
  | fuel + 1, list, pc =>
    (poolStep field swapFirst list pc).bind fun next =>
      finish field swapFirst fuel next.1 next.2

def tnodePush (swapFirst : Bool) (fuel : Nat) (list : NodeList Node)
    (tnode : Node) : Option (NodeList Node) :=
  (finish .brotherNode swapFirst fuel list (.pushLoad tnode)).map Prod.fst

/-- A pop returns the node, or 0. -/
def tnodePop (swapFirst : Bool) (fuel : Nat) (list : NodeList Node) :
    Option (NodeList Node × Option Node) :=
  finish .brotherNode swapFirst fuel list .popLoad

/-- One pop after the other. -/
def tnodePops (swapFirst : Bool) (fuel : Nat) :
    Nat → NodeList Node → Option (NodeList Node × List (Option Node))
  | 0, list => some (list, [])
  | count + 1, list => do
      let (next, result) ← tnodePop swapFirst fuel list
      let (final, results) ← tnodePops swapFirst fuel count next
      some (final, result :: results)

/-- `trie_nodelist_new_elements`, with what its calls of `aligned_malloc`
return. -/
def trieNodelistNewElements (swapFirst : Bool) (fuel : Nat) :
    NodeList Node → List (Option Node) → Option (NodeList Node × UInt64)
  | list, [] => some (list, 0)
  | list, none :: allocs =>
    trieNodelistNewElements swapFirst fuel list allocs
  | list, some tnode :: allocs => do
      let pushed ← tnodePush swapFirst fuel
        (list.setLink .brotherNode tnode none) tnode
      let (final, count) ← trieNodelistNewElements swapFirst fuel pushed allocs
      some (final, count + 1)

/-- `trie_new_nodelist` on the memory it was given for the list: what it
returns and `*nodelist`. -/
def trieNewNodelist (swapFirst : Bool) (fuel : Nat) (memory : NodeList Node)
    (trieNodeNum : UInt64) (allocs : List (Option Node)) :
    Option (UInt64 × Option (NodeList Node)) :=
  (trieNodelistNewElements swapFirst fuel memory allocs).map fun result =>
    if result.2 = trieNodeNum then (1, some result.1) else (0, none)

/-- A `trie_state` with its `trie_entry`. -/
structure NewTrie (Node : Type) where
  initNodeCounter : UInt64
  root : Node
  counter : UInt64
  trieNodeList : Option (NodeList Node)

/-- `trie_new` once the state and its entry are allocated. -/
def trieNew (swapFirst : Bool) (fuel : Nat) (root : Node)
    (memory : NodeList Node) (trieNodeNum : UInt64)
    (allocs : List (Option Node)) :
    Option (UInt64 × Option (NewTrie Node)) :=
  (trieNewNodelist swapFirst fuel memory trieNodeNum allocs).map fun result =>
      match result.2 with
      | none => (0, none)
      | some list => (1, some ⟨trieNodeNum, root, 0, some list⟩)

/-! ## What one call does -/

/-- The list behind a push. -/
def NodeList.pushed (list : NodeList Node) (tnode : Node) : NodeList Node :=
  { list.setLink .brotherNode tnode list.first with
    first := some tnode
    nodelistCounter := list.nodelistCounter + 1 }

/-- The list behind a pop. -/
def NodeList.popped (list : NodeList Node) (tnode : Node) : NodeList Node :=
  { list.setLink .brotherNode tnode none with
    first := list.link .brotherNode tnode
    nodelistCounter := list.nodelistCounter - 1 }

section

variable {swapFirst : Bool} {fuel : Nat} {list : NodeList Node}

@[simp]
theorem pushed_link (tnode : Node) : (list.pushed tnode).link .brotherNode =
      update (list.link .brotherNode) tnode list.first := by
  simp [NodeList.pushed, NodeList.setLink]

@[simp]
theorem popped_link (tnode : Node) : (list.popped tnode).link .brotherNode =
      update (list.link .brotherNode) tnode none := by
  simp [NodeList.popped, NodeList.setLink]

theorem tnodePush_alone (enough : 6 ≤ fuel) (tnode : Node) :
    tnodePush swapFirst fuel list tnode = some (list.pushed tnode) := by
  obtain ⟨more, rfl⟩ := Nat.exists_eq_add_of_le' enough
  cases swapFirst <;>
    simp [tnodePush, finish, poolStep, NodeList.casFirst,
      NodeList.setLink, NodeList.pushed]

theorem tnodePop_alone (enough : 6 ≤ fuel) {tnode : Node}
    (head : list.first = some tnode) :
    tnodePop swapFirst fuel list = some (list.popped tnode, some tnode) := by
  obtain ⟨more, rfl⟩ := Nat.exists_eq_add_of_le' enough
  simp [tnodePop, finish, poolStep, NodeList.casFirst, NodeList.setLink,
    NodeList.popped, head]

theorem tnodePop_empty (enough : 6 ≤ fuel) (empty : list.first = none) :
    tnodePop swapFirst fuel list = some (list, none) := by
  obtain ⟨more, rfl⟩ := Nat.exists_eq_add_of_le' enough
  simp [tnodePop, finish, poolStep, empty]

/-- The pops of a chain return its nodes and leave the list empty. -/
theorem tnodePops_linked (swapFirst : Bool) (enough : 6 ≤ fuel)
    {list : NodeList Node} {cells : List Node}
    (linked : Linked (list.link .brotherNode) list.first cells) :
    ∃ emptied, tnodePops swapFirst fuel cells.length list =
        some (emptied, cells.map some) ∧ emptied.first = none := by
  induction cells generalizing list with
  | nil => exact ⟨list, rfl, linked⟩
  | cons tnode rest ih =>
    have outside : tnode ∉ rest := (List.nodup_cons.1 linked.nodup).1
    obtain ⟨head, tail⟩ := linked
    have behind : Linked ((list.popped tnode).link .brotherNode)
        (list.popped tnode).first rest := by
      rw [popped_link]
      exact tail.update outside
    obtain ⟨emptied, popped, empty⟩ := ih behind
    refine ⟨emptied, ?_, empty⟩
    simp [tnodePops, tnodePop_alone enough head, popped]

/-- What the constructor puts in front of the memory it was given. -/
theorem newElements_alone (swapFirst : Bool) (list : NodeList Node)
    (enough : 6 ≤ fuel) {nodes : List Node} (distinct : nodes.Nodup) :
    ∃ final, trieNodelistNewElements swapFirst fuel list
          (nodes.map some) = some (final, UInt64.ofNat nodes.length) ∧
      final.nodelistCounter = list.nodelistCounter + UInt64.ofNat nodes.length ∧
      (∀ other, other ∉ nodes → final.link .brotherNode other =
        list.link .brotherNode other) ∧
      ∀ cells, Linked (final.link .brotherNode) final.first cells ↔
        ∃ rest, cells = nodes.reverse ++ rest ∧
          Linked (final.link .brotherNode) list.first rest := by
  induction nodes generalizing list with
  | nil =>
    refine ⟨list, rfl, by simp, fun _ _ => rfl, fun cells => ?_⟩
    simp
  | cons tnode nodes ih =>
    obtain ⟨outside, distinct⟩ := List.nodup_cons.1 distinct
    obtain ⟨final, built, counter, frame, chain⟩ :=
      ih ((list.setLink .brotherNode tnode none).pushed tnode) distinct
    have link : final.link .brotherNode tnode = list.first := by
      rw [frame tnode outside, pushed_link, update_self]
      rfl
    refine ⟨final, ?_, ?_, ?_, ?_⟩
    · simp [trieNodelistNewElements, tnodePush_alone enough, built]
    · rw [counter, List.length_cons, UInt64.ofNat_add,
        UInt64.add_comm (UInt64.ofNat _), ← UInt64.add_assoc]
      rfl
    · intro other absent
      rw [List.mem_cons, not_or] at absent
      rw [frame other absent.2, pushed_link, update_of_ne absent.1]
      simp [NodeList.setLink, update_of_ne absent.1]
    · intro cells
      rw [chain cells]
      constructor
      · rintro ⟨rest, rfl, linked⟩
        obtain ⟨behind, rfl, tail⟩ := linked.exists_cons
        exact ⟨behind, by simp, link ▸ tail⟩
      · rintro ⟨rest, rfl, linked⟩
        exact ⟨tnode :: rest, by simp, rfl, link ▸ linked⟩

end

/-! ## A new trie -/

/-- The pool of a new trie holds exactly the nodes that were requested. -/
def HoldsRequested (swapFirst : Bool) (root : Node)
    (memory : NodeList Node) (nodes : List Node) : Prop :=
  ∀ fuel, 6 ≤ fuel → ∃ (trie : NewTrie Node) (list emptied : NodeList Node)
      (cells popped : List Node),
      trieNew swapFirst fuel root memory (UInt64.ofNat nodes.length)
          (nodes.map some) = some (1, some trie) ∧
        trie.trieNodeList = some list ∧
        Linked (list.link .brotherNode) list.first cells ∧
        cells.Nodup ∧ cells.length = nodes.length ∧
        list.nodelistCounter = UInt64.ofNat nodes.length ∧
        tnodePops swapFirst fuel nodes.length list =
          some (emptied, popped.map some) ∧ popped.Nodup ∧
        tnodePop swapFirst fuel emptied = some (emptied, none)

/-- The pool holds what was requested exactly if the memory of the list
happened to be cleared. -/
theorem trieNew_holdsRequested_iff (swapFirst : Bool) (root : Node)
    (memory : NodeList Node) (nodes : List Node) (distinct : nodes.Nodup) :
    HoldsRequested swapFirst root memory nodes ↔
      memory.first = none ∧ memory.nodelistCounter = 0 := by
  constructor
  · intro holds
    obtain ⟨trie, list, emptied, cells, popped, created, pool, linked, -,
      length, counter, -⟩ := holds 6 (le_refl 6)
    obtain ⟨final, built, count, frame, chain⟩ :=
      newElements_alone swapFirst memory (le_refl 6) distinct
    have same : final = list := by
      simp only [trieNew, trieNewNodelist, built, Option.map_some,
        if_true] at created
      cases created
      exact Option.some.inj pool
    subst same
    obtain ⟨rest, rfl, behind⟩ := (chain cells).1 linked
    have none : rest = [] := by simpa using length
    subst none
    refine ⟨behind, ?_⟩
    simpa [count] using counter
  · rintro ⟨empty, zero⟩ fuel enough
    obtain ⟨final, built, count, frame, chain⟩ :=
      newElements_alone swapFirst memory enough distinct
    have linked : Linked (final.link .brotherNode) final.first
        nodes.reverse := (chain _).2 ⟨[], by simp, empty⟩
    obtain ⟨emptied, popped, drained⟩ :=
      tnodePops_linked swapFirst enough linked
    rw [List.length_reverse] at popped
    refine ⟨⟨UInt64.ofNat nodes.length, root, 0, some final⟩, final,
      emptied, nodes.reverse, nodes.reverse, ?_, rfl, linked,
      linked.nodup, List.length_reverse, ?_, popped, linked.nodup,
      tnodePop_empty enough drained⟩
    · simp [trieNew, trieNewNodelist, built]
    · rw [count, zero, UInt64.zero_add]

theorem trieNew_holdsRequested_iff_cleared :
    HoldsRequested false (2 : Fin 3) ⟨fun _ _ => some 2, none, 0⟩ [0, 1] ↔
      (none : Option (Fin 3)) = none ∧ (0 : UInt64) = 0 :=
  trieNew_holdsRequested_iff false 2 ⟨fun _ _ => some 2, none, 0⟩ [0, 1]
    (by decide)

/-- The list head holds the address of an older block. -/
theorem trieNew_keeps_garbage :
    ¬ HoldsRequested false (2 : Fin 3) ⟨fun _ _ => none, some 2, 7⟩ [0, 1] := by
  intro holds
  obtain ⟨trie, list, emptied, cells, popped, created, pool, -, -, -,
    counter, -⟩ := holds 6 (le_refl 6)
  have nine : trie.trieNodeList.map NodeList.nodelistCounter = some 9 := by
    have evaluated : (trieNew false 6 (2 : Fin 3)
        ⟨fun _ _ => none, some 2, 7⟩ (UInt64.ofNat [(0 : Fin 3), 1].length)
        ([0, 1].map some)).map (fun result =>
          result.2.map fun trie =>
            trie.trieNodeList.map NodeList.nodelistCounter) =
          some (some (some 9)) := by decide +kernel
    rw [created] at evaluated
    simpa using evaluated
  rw [pool, Option.map_some, counter] at nine
  exact absurd nine (by decide)

end Lockfreec.Advance.NodePool
