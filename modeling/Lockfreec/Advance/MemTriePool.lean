import Lockfreec.Advance.MemTrieSteps

/-!
# The node pool of the trie

While no compare-and-swap of the pool is fooled, every node is in the pool, in
the trie or in the hands of one thread.  The pool is a stack with an untagged
head, so a pop that was stalled between reading the link of the head and
swapping the head can be fooled: it then makes a node of the trie the head of
the pool.
-/

namespace Lockfreec.Advance.MemTrie

open Lib.Chain Lib.Interleaving

variable {Tid Node : Type}

/-! ## Places of a node -/

def ChildOf (trie : TrieState Node) (parent child : Node) : Prop :=
  ∃ list, Linked trie.brotherNode (trie.firstSubNode parent) list ∧ child ∈ list

inductive InTrie (trie : TrieState Node) (root : Node) : Node → Prop where
  | root : InTrie trie root root
  | child {parent node : Node} (above : InTrie trie root parent)
      (linked : ChildOf trie parent node) : InTrie trie root node

def LinkedUnder (trie : TrieState Node) (root node parent : Node) : Prop :=
  InTrie trie root parent ∧ ChildOf trie parent node

/-- The node is in exactly one of the pool, the trie and the hands, and it is
there once. -/
def InOnePlace (trie : TrieState Node) (hands : Tid → Option Node)
    (root : Node) (cells : List Node) (node : Node) : Prop :=
  (node ∈ cells ∧ (∀ parent, ¬ LinkedUnder trie root node parent) ∧
      ∀ thread, hands thread ≠ some node) ∨
    (node ∉ cells ∧ (∃! parent, LinkedUnder trie root node parent) ∧
      ∀ thread, hands thread ≠ some node) ∨
    node ∉ cells ∧ (∀ parent, ¬ LinkedUnder trie root node parent) ∧
      ∃! thread, hands thread = some node

/-- The chain of the pool ends at null, and each node has its place. -/
def Partitioned (trie : TrieState Node) (hands : Tid → Option Node)
    (root : Node) (nodes : List Node) : Prop :=
  ∃ cells, Linked trie.brotherNode trie.first cells ∧
    ∀ node ∈ nodes, InOnePlace trie hands root cells node

/-- The head of the pool may not be a node of the trie. -/
theorem not_partitioned {trie : TrieState Node} {hands : Tid → Option Node}
    {root node parent : Node} {nodes : List Node}
    (first : trie.first = some node)
    (linked : LinkedUnder trie root node parent) (mem : node ∈ nodes) :
    ¬ Partitioned trie hands root nodes := by
  rintro ⟨cells, pool, places⟩
  rw [first] at pool
  rcases pool.exists_cons with ⟨rest, rfl, -⟩
  rcases places node mem with inPool | inTrie | held
  · exact inPool.2.1 parent linked
  · exact inTrie.1 (.head _)
  · exact held.1 (.head _)

section

variable [DecidableEq Node] {trie : TrieState Node} {pcs : Tid → TriePc Node}
  {root : Node} {nodes cells : List Node} {children : Node → List Node}

variable (inv : TrieInv trie pcs root nodes cells children)

include inv

theorem TrieInv.childOf_iff {parent child : Node} :
    ChildOf trie parent child ↔ child ∈ children parent := by
  constructor
  · rintro ⟨list, linked, mem⟩
    rwa [← linked.unique (inv.lists parent).linked]
  · intro mem
    exact ⟨children parent, (inv.lists parent).linked, mem⟩

theorem TrieInv.inTrie {path : List Byte} {source target : Node}
    (above : InTrie trie root source)
    (spells : Spells children trie.key path source target) :
    InTrie trie root target := by
  induction path generalizing source with
  | nil =>
    rw [Spells] at spells
    exact spells ▸ above
  | cons label path induction =>
    rcases spells with ⟨child, mem, -, tail⟩
    exact induction (above.child (inv.childOf_iff.2 mem)) tail

theorem TrieInv.linkedUnder_iff {node parent : Node} :
    LinkedUnder trie root node parent ↔ node ∈ children parent := by
  constructor
  · rintro ⟨-, linked⟩
    exact inv.childOf_iff.1 linked
  · intro mem
    rcases inv.rooted mem with ⟨path, spells⟩
    exact ⟨inv.inTrie .root spells, inv.childOf_iff.2 mem⟩

theorem TrieInv.partitioned :
    Partitioned trie (fun tid => (pcs tid).hand) root nodes := by
  refine ⟨cells, inv.pool, ?_⟩
  intro node mem
  simp only [InOnePlace, inv.linkedUnder_iff]
  rcases inv.conserved node mem with inPool | ⟨parent, child⟩ | held
  · refine .inl ⟨inPool, (inv.poolLoose node inPool).notChild, ?_⟩
    intro tid held
    exact (inv.heldLoose held).2 inPool
  · refine .inr (.inl ⟨?_, ⟨parent, child, ?_⟩, ?_⟩)
    · intro inPool
      exact (inv.poolLoose node inPool).notChild parent child
    · intro other otherChild
      exact inv.unique otherChild child
    · intro tid held
      exact (inv.heldLoose held).1.notChild parent child
  · rcases held with ⟨tid, held⟩
    rcases inv.heldLoose held with ⟨loose, notCell⟩
    refine .inr (.inr ⟨notCell, loose.notChild, tid, held, ?_⟩)
    intro other otherHeld
    exact inv.heldOnce otherHeld held

end

/-! ## Runs -/

section

variable [DecidableEq Tid] [DecidableEq Node]

/-- The guard under which no compare-and-swap of the pool is fooled. -/
def poolSafe : Guard Tid TrieAction (TrieState Node) (TriePc Node) :=
  fun config thread _ => PoolSafe config.shared (config.threads thread)

instance (trie : TrieState Node) (pc : TriePc Node) :
    Decidable (PoolSafe trie pc) := by
  cases pc
  case popCas cursor original next =>
    exact inferInstanceAs (Decidable
      (trie.first = some original → next = trie.brotherNode original))
  case pushReload cursor tnode original returned =>
    exact inferInstanceAs (Decidable
      (original = returned → trie.brotherNode tnode = returned))
  all_goals exact inferInstanceAs (Decidable True)

instance (config : Config Tid (TrieState Node) (TriePc Node)) (tid : Tid)
    (action : TrieAction) :
    Decidable (poolSafe config tid action) :=
  inferInstanceAs (Decidable (PoolSafe config.shared (config.threads tid)))

theorem TrieInv.of_run {mode : PoolMode} {root : Node} {nodes : List Node}
    {brotherNode : Node → Option Node} {key : Node → Byte} {first : Option Node}
    {nodelistCounter counter : UInt64} {history : List (TrieEvent Tid)}
    {config : Config Tid (TrieState Node) (TriePc Node)}
    (chain : Linked brotherNode first nodes) (apart : root ∉ nodes)
    (run : (trieMachine mode root).RunWhere poolSafe
      (trieStart brotherNode key first nodelistCounter counter) history
      config) :
    ∃ cells children,
      TrieInv config.shared config.threads root nodes cells children := by
  apply run.invariant fun _ config => ∃ cells children,
    TrieInv config.shared config.threads root nodes cells children
  · exact ⟨nodes, fun _ => [], TrieInv.start chain apart⟩
  · rintro _ config tid action outcome ⟨cells, children, inv⟩ safe step
    rcases inv.step safe step with ⟨left, grown, kept, -⟩
    exact ⟨left, grown, kept⟩

/--
Every node stays in exactly one place in every run in which each successful
pop installs the node that is behind the head at that moment, and no
successful push finds the link of its node changed.
-/
theorem trie_pool_partition {root : Node} {nodes : List Node}
    {brotherNode : Node → Option Node} {key : Node → Byte} {first : Option Node}
    {nodelistCounter counter : UInt64} {history : List (TrieEvent Tid)}
    {config : Config Tid (TrieState Node) (TriePc Node)}
    (chain : Linked brotherNode first nodes) (apart : root ∉ nodes)
    (run : (trieMachine .stepwise root).RunWhere poolSafe
      (trieStart brotherNode key first nodelistCounter counter) history
      config) :
    Partitioned config.shared (fun thread => (config.threads thread).hand)
      root nodes := by
  rcases TrieInv.of_run chain apart run with ⟨cells, children, inv⟩
  exact inv.partitioned

end

/-! ## A fooled pop -/

/-- The pool of nodes one, two and three. -/
def threeNodes : Nat → Option Nat
  | 1 => some 2
  | 2 => some 3
  | _ => none

/--
Thread zero stalls between reading the link of node one and swapping the head.
Threads one and two pop nodes one and two for the same label.  Thread two
links its node, and thread one pushes its own back.
-/
def stalledPop : List (Nat × TrieAction) :=
  (0, .call (.insert [7])) :: List.replicate 4 (0, .run) ++
    (1, .call (.insert [9])) :: List.replicate 7 (1, .run) ++
    (2, .call (.insert [9])) :: List.replicate 14 (2, .run) ++
    List.replicate 12 (1, .run)

/-- Up to the stalled swap every node is in one place. -/
theorem trie_pool_partition_stalled :
    ∃ (config : Config Nat (TrieState Nat) (TriePc Nat))
      (history : List (TrieEvent Nat)),
      Linked threeNodes (some 1) [1, 2, 3] ∧ 0 ∉ [1, 2, 3] ∧
      (trieMachine .stepwise 0).RunWhere poolSafe
        (trieStart threeNodes (fun _ => 0) (some 1) 3 0) history config ∧
      config.shared.first = some 1 ∧
      Partitioned config.shared
        (fun thread => (config.threads thread).hand) 0 [1, 2, 3] := by
  have chain : Linked threeNodes (some 1) [1, 2, 3] :=
    ⟨rfl, rfl, rfl, rfl⟩
  have executed : (trieMachine .stepwise 0).executeWhere poolSafe
      (trieStart threeNodes (fun _ => 0) (some 1) 3 0) stalledPop =
      some (_, _) :=
    rfl
  have run := Machine.runWhere_of_execute executed
  exact ⟨_, _, chain, by decide, run, rfl,
    trie_pool_partition chain (by decide) run⟩

/-- The stalled swap makes node two the head of the pool, which is already
linked below the root. -/
theorem trie_pool_fooled : ∃ (config : Config Nat (TrieState Nat) (TriePc Nat))
      (history : List (TrieEvent Nat)),
      Linked threeNodes (some 1) [1, 2, 3] ∧ 0 ∉ [1, 2, 3] ∧
      (trieMachine .stepwise 0).Run
        (trieStart threeNodes (fun _ => 0) (some 1) 3 0) history config ∧
      config.shared.first = some 2 ∧
      LinkedUnder config.shared 0 2 0 ∧
      ¬ Partitioned config.shared
        (fun thread => (config.threads thread).hand) 0 [1, 2, 3] := by
  have executed : (trieMachine .stepwise 0).execute
      (trieStart threeNodes (fun _ => 0) (some 1) 3 0)
      (stalledPop ++ [(0, .run)]) = some (_, _) :=
    rfl
  have run := Machine.run_of_execute executed
  refine ⟨_, _, ⟨rfl, rfl, rfl, rfl⟩, by decide, run, rfl, ?_, ?_⟩
  · exact ⟨.root, [2], ⟨rfl, rfl⟩, by decide⟩
  · exact not_partitioned rfl ⟨.root, [2], ⟨rfl, rfl⟩, by decide⟩ (by decide)

end Lockfreec.Advance.MemTrie
