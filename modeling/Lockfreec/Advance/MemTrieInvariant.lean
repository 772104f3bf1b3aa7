import Lockfreec.Advance.MemTrie
import Lockfreec.Lib.SortedChain
import Mathlib.Order.Fin.Basic

/-!
# The invariant of the trie

The children of every node form a chain of brothers with increasing keys.
Nodes are only ever added to these chains, so what a thread has once seen of
the trie stays true.  A node outside the trie is in the pool or in the hands
of one thread, and nobody else writes to it there.
-/

namespace Lockfreec.Advance.MemTrie

open Function Lib.Chain Lib.Interleaving Lib.SortedChain

variable {Tid Node : Type}

/-! ## Paths -/

/-- The labels on the way down from one node to another. -/
def Spells (children : Node → List Node) (key : Node → Byte) :
    List Byte → Node → Node → Prop
  | [], source, target => source = target
  | label :: rest, source, target =>
    ∃ child ∈ children source, key child = label ∧
      Spells children key rest child target

/-- Children are added and keep their keys. -/
def Grows (children : Node → List Node) (key : Node → Byte)
    (grown : Node → List Node) (labels : Node → Byte) : Prop :=
  ∀ parent child, child ∈ children parent →
    child ∈ grown parent ∧ labels child = key child

section

variable {children grown : Node → List Node} {key labels : Node → Byte}
  {source middle target : Node} {path rest : List Byte}

theorem Grows.refl : Grows children key children key :=
  fun _ _ mem => ⟨mem, rfl⟩

theorem Grows.trans {last : Node → List Node} {names : Node → Byte}
    (first : Grows children key grown labels)
    (second : Grows grown labels last names) :
    Grows children key last names := by
  intro parent child mem
  rcases first parent child mem with ⟨kept, same⟩
  rcases second parent child kept with ⟨still, stillSame⟩
  exact ⟨still, stillSame.trans same⟩

theorem Spells.mono (grows : Grows children key grown labels)
    (spells : Spells children key path source target) :
    Spells grown labels path source target := by
  induction path generalizing source with
  | nil => exact spells
  | cons label path induction =>
    rcases spells with ⟨child, mem, named, tail⟩
    rcases grows source child mem with ⟨kept, same⟩
    exact ⟨child, kept, same.trans named, induction tail⟩

theorem Spells.append (front : Spells children key path source middle)
    (back : Spells children key rest middle target) :
    Spells children key (path ++ rest) source target := by
  induction path generalizing source with
  | nil =>
    rw [Spells] at front
    subst front
    exact back
  | cons label path induction =>
    rcases front with ⟨child, mem, named, tail⟩
    exact ⟨child, mem, named, induction tail⟩

theorem Spells.take (spells : Spells children key (path ++ rest) source target) :
    ∃ middle, Spells children key path source middle := by
  induction path generalizing source with
  | nil => exact ⟨source, rfl⟩
  | cons label path induction =>
    rcases spells with ⟨child, mem, named, tail⟩
    rcases induction tail with ⟨middle, front⟩
    exact ⟨middle, child, mem, named, front⟩

/-- A path ends where it starts or in a child. -/
theorem Spells.end_mem (spells : Spells children key path source target) :
    target = source ∨ ∃ parent, target ∈ children parent := by
  induction path generalizing source with
  | nil => exact .inl spells.symm
  | cons label path induction =>
    rcases spells with ⟨child, mem, -, tail⟩
    rcases induction tail with rfl | inside
    · exact .inr ⟨source, mem⟩
    · exact .inr inside

end

/-! ## What a thread knows -/

section

variable (children : Node → List Node) (key : Node → Byte)

structure CursorOk (root : Node) (cursor : Cursor Node) : Prop where
  within : cursor.pos < cursor.inStr.length
  spelled :
    Spells children key (cursor.inStr.take cursor.pos) root cursor.parrent

/-- `prev` is a child before the label, `prev_next` a later one. -/
structure Behind (cursor : Cursor Node) : Prop where
  prev : cursor.prev ∈ children cursor.parrent
  less : key cursor.prev < cursor.label
  next : ∀ next, cursor.prevNext = some next →
    next ∈ children cursor.parrent

def Entry (cursor : Cursor Node) : Prop :=
  cursor.prev = cursor.parrent ∨ Behind children key cursor

/-- `prev` is the child with the label. -/
def FoundAt (cursor : Cursor Node) : Prop :=
  cursor.prev ∈ children cursor.parrent ∧ key cursor.prev = cursor.label

/-- The label belongs between `prev` and `prev_next`. -/
structure Place (cursor : Cursor Node) : Prop where
  entry : Entry children key cursor
  beyond : ∀ next, cursor.prevNext = some next →
    next ∈ children cursor.parrent ∧ cursor.label < key next

/-- What a program point has seen of the trie. -/
def PathOk (root : Node) : TriePc Node → Prop
  | .finish (.insert inStr) result =>
    result ≠ .insertError → ∃ target, Spells children key inStr root target
  | .readFirst _ cursor | .storeKey cursor _ | .popLoad cursor
  | .popTest cursor _ | .popNext cursor _ | .popCas cursor _ _
  | .popCount cursor _ | .popClear cursor _ =>
    CursorOk children key root cursor ∧ Entry children key cursor
  | .firstGreater _ cursor tmp =>
    CursorOk children key root cursor ∧ Entry children key cursor ∧
      tmp ∈ children cursor.parrent
  | .firstLess _ cursor tmp =>
    CursorOk children key root cursor ∧ Entry children key cursor ∧
      tmp ∈ children cursor.parrent ∧ key tmp ≤ cursor.label
  | .readBrother _ cursor =>
    CursorOk children key root cursor ∧ cursor.prev ∈ children cursor.parrent ∧
      key cursor.prev < cursor.label
  | .nextLess _ cursor next =>
    CursorOk children key root cursor ∧ Behind children key cursor ∧
      cursor.prevNext = some next
  | .nextGreater _ cursor next =>
    CursorOk children key root cursor ∧ Behind children key cursor ∧
      cursor.prevNext = some next ∧ cursor.label ≤ key next
  | .readSub _ cursor | .clearBrother cursor _ | .loadSub cursor _
  | .countNode cursor | .pushLoad cursor _ | .pushStore cursor _ _
  | .pushTest cursor _ _ | .pushCas cursor _ _ _ | .pushReload cursor _ _ _
  | .pushCount cursor =>
    CursorOk children key root cursor ∧ FoundAt children key cursor
  | .storeBrother cursor _ | .linkCas cursor _ =>
    CursorOk children key root cursor ∧ Place children key cursor
  | _ => True

end

def Site.hand : Site Node → Option Node
  | .lookup => none
  | .insertNode tnode => some tnode

/-- The node that a thread has popped and neither linked nor pushed back. -/
def TriePc.hand [DecidableEq Node] : TriePc Node → Option Node
  | .readFirst site _ | .firstGreater site _ _ | .firstLess site _ _
  | .readBrother site _ | .nextLess site _ _ | .nextGreater site _ _
  | .readSub site _ => site.hand
  | .storeKey _ tnode | .clearBrother _ tnode | .storeBrother _ tnode
  | .linkCas _ tnode | .popCount _ tnode | .popClear _ tnode
  | .pushLoad _ tnode | .pushStore _ tnode _ | .pushTest _ tnode _
  | .pushCas _ tnode _ _ => some tnode
  | .pushReload _ tnode original returned =>
    if original = returned then none else some tnode
  | _ => none

/-- The label that the node in hand already carries. -/
def Site.Labelled (key : Node → Byte) (label : Byte) : Site Node → Prop
  | .lookup => True
  | .insertNode tnode => key tnode = label

/-- What a program point has stored in the node in hand. -/
def HandOk (trie : TrieState Node) : TriePc Node → Prop
  | .readFirst site cursor | .firstGreater site cursor _
  | .firstLess site cursor _ | .readBrother site cursor
  | .nextLess site cursor _ | .nextGreater site cursor _
  | .readSub site cursor => site.Labelled trie.key cursor.label
  | .storeBrother cursor tnode => trie.key tnode = cursor.label
  | .linkCas cursor tnode =>
    trie.key tnode = cursor.label ∧ trie.brotherNode tnode = cursor.prevNext
  | .pushTest _ tnode original => trie.brotherNode tnode = original
  | .pushCas _ tnode original loaded =>
    trie.brotherNode tnode = original ∧ loaded = original
  | .pushReload _ tnode original returned =>
    original ≠ returned → trie.brotherNode tnode = original
  | _ => True

section

variable {children grown : Node → List Node} {key labels : Node → Byte}
  {root : Node} {cursor : Cursor Node} {pc : TriePc Node}

section

variable (grows : Grows children key grown labels)

include grows

theorem CursorOk.mono (holds : CursorOk children key root cursor) :
    CursorOk grown labels root cursor :=
  ⟨holds.within, holds.spelled.mono grows⟩

theorem Behind.mono (behind : Behind children key cursor) :
    Behind grown labels cursor where
  prev := (grows _ _ behind.prev).1
  less := by
    rw [(grows _ _ behind.prev).2]
    exact behind.less
  next := fun next link => (grows _ _ (behind.next next link)).1

theorem Entry.mono
    (entry : Entry children key cursor) : Entry grown labels cursor :=
  entry.imp_right (Behind.mono grows)

theorem FoundAt.mono
    (foundAt : FoundAt children key cursor) : FoundAt grown labels cursor :=
  ⟨(grows _ _ foundAt.1).1, (grows _ _ foundAt.1).2.trans foundAt.2⟩

theorem Place.mono
    (place : Place children key cursor) : Place grown labels cursor where
  entry := place.entry.mono grows
  beyond := by
    intro next link
    rcases place.beyond next link with ⟨mem, less⟩
    rcases grows _ _ mem with ⟨kept, same⟩
    exact ⟨kept, same ▸ less⟩

theorem PathOk.mono
    (holds : PathOk children key root pc) : PathOk grown labels root pc := by
  cases pc
  case finish call result =>
    cases call with
    | insert inStr =>
      intro inserted
      rcases holds inserted with ⟨target, spells⟩
      exact ⟨target, spells.mono grows⟩
    | search inStr => trivial
  case firstGreater site cursor tmp =>
    exact ⟨holds.1.mono grows, holds.2.1.mono grows, (grows _ _ holds.2.2).1⟩
  case firstLess site cursor tmp =>
    rcases grows _ _ holds.2.2.1 with ⟨kept, same⟩
    exact ⟨holds.1.mono grows, holds.2.1.mono grows, kept, same ▸ holds.2.2.2⟩
  case readBrother site cursor =>
    rcases grows _ _ holds.2.1 with ⟨kept, same⟩
    exact ⟨holds.1.mono grows, kept, same ▸ holds.2.2⟩
  case nextLess site cursor next =>
    exact ⟨holds.1.mono grows, holds.2.1.mono grows, holds.2.2⟩
  case nextGreater site cursor next =>
    rcases grows _ _ (holds.2.1.next next holds.2.2.1) with ⟨-, same⟩
    exact ⟨holds.1.mono grows, holds.2.1.mono grows, holds.2.2.1,
      same ▸ holds.2.2.2⟩
  all_goals first
    | trivial
    | exact ⟨holds.1.mono grows, Entry.mono grows holds.2⟩
    | exact ⟨holds.1.mono grows, FoundAt.mono grows holds.2⟩
    | exact ⟨holds.1.mono grows, Place.mono grows holds.2⟩

end

theorem Site.Labelled.congr {site : Site Node} {label : Byte}
    (labelled : site.Labelled key label)
    (same : ∀ tnode, site.hand = some tnode → labels tnode = key tnode) :
    site.Labelled labels label := by
  cases site with
  | lookup => trivial
  | insertNode tnode => exact (same tnode rfl).trans labelled

/-- A program point depends on its own node alone. -/
theorem HandOk.congr [DecidableEq Node] {trie after : TrieState Node}
    (holds : HandOk trie pc)
    (same : ∀ tnode, pc.hand = some tnode →
      after.brotherNode tnode = trie.brotherNode tnode ∧
        after.key tnode = trie.key tnode) :
    HandOk after pc := by
  cases pc
  case storeBrother cursor tnode =>
    exact (same tnode rfl).2.trans holds
  case linkCas cursor tnode =>
    exact ⟨(same tnode rfl).2.trans holds.1, (same tnode rfl).1.trans holds.2⟩
  case pushTest cursor tnode original =>
    exact (same tnode rfl).1.trans holds
  case pushCas cursor tnode original loaded =>
    exact ⟨(same tnode rfl).1.trans holds.1, holds.2⟩
  case pushReload cursor tnode original returned =>
    intro ne
    exact (same tnode (if_neg ne)).1.trans (holds ne)
  all_goals first
    | trivial
    | exact Site.Labelled.congr holds fun tnode held =>
      (same tnode held).2

end

/-! ## Control flow -/

section

variable {children : Node → List Node} {key : Node → Byte} {root : Node}
  {cursor : Cursor Node} {site : Site Node}

section

variable (holds : CursorOk children key root cursor)

include holds

section

variable (foundAt : FoundAt children key cursor)

include foundAt

theorem CursorOk.descend :
    Spells children key (cursor.inStr.take (cursor.pos + 1)) root
      cursor.prev := by
  have label : cursor.inStr[cursor.pos]? = some cursor.label := by
    simp [Cursor.label, holds.within]
  rw [List.take_add_one, label]
  exact holds.spelled.append ⟨cursor.prev, foundAt.1, foundAt.2, rfl⟩

theorem CursorOk.whole (last : ¬ cursor.pos + 1 < cursor.inStr.length) :
    Spells children key cursor.inStr root cursor.prev := by
  have spelled := holds.descend foundAt
  rwa [List.take_of_length_le (Nat.le_of_not_lt last)] at spelled

theorem insertNext_pathOk :
    PathOk children key root (insertNext cursor cursor.prev) := by
  rw [insertNext]
  split
  · next more =>
      exact ⟨⟨more, holds.descend foundAt⟩, .inl rfl⟩
  · next last =>
      exact fun _ => ⟨cursor.prev, holds.whole foundAt last⟩

theorem found_pathOk : PathOk children key root (found site cursor) := by
  cases site with
  | lookup =>
    rw [found, lookupNext]
    split
    · next more =>
        exact ⟨⟨more, holds.descend foundAt⟩, .inl rfl⟩
    · next last =>
        exact fun _ => ⟨cursor.prev, holds.whole foundAt last⟩
  | insertNode tnode => exact ⟨holds, foundAt⟩

end

theorem notFound_pathOk (place : Place children key cursor) :
    PathOk children key root (notFound site cursor) := by
  cases site with
  | lookup => exact ⟨holds, place.entry⟩
  | insertNode tnode => exact ⟨holds, place⟩

theorem nextTest_pathOk (behind : Behind children key cursor) :
    PathOk children key root (nextTest site cursor) := by
  rw [nextTest]
  split
  · next ending =>
      apply notFound_pathOk holds
      refine ⟨.inr behind, ?_⟩
      intro next link
      rw [ending] at link
      simp at link
  · next next link => exact ⟨holds, behind, link⟩

end

variable [DecidableEq Node] {trie : TrieState Node}

theorem notFound_hand : (notFound site cursor).hand = site.hand := by
  cases site <;> rfl

theorem nextTest_hand : (nextTest site cursor).hand = site.hand := by
  rw [nextTest]
  split
  · exact notFound_hand
  · rfl

theorem insertNext_hand {node : Node} :
    (insertNext cursor node).hand = none := by
  rw [insertNext]
  split <;> rfl

theorem found_hand : (found site cursor).hand = site.hand := by
  cases site with
  | lookup =>
    rw [found, lookupNext]
    split <;> rfl
  | insertNode tnode => rfl

section

omit [DecidableEq Node]

theorem notFound_handOk (labelled : site.Labelled trie.key cursor.label) :
    HandOk trie (notFound site cursor) := by
  cases site with
  | lookup => trivial
  | insertNode tnode => exact labelled

theorem nextTest_handOk (labelled : site.Labelled trie.key cursor.label) :
    HandOk trie (nextTest site cursor) := by
  rw [nextTest]
  split
  · exact notFound_handOk labelled
  · exact labelled

theorem insertNext_handOk {node : Node} :
    HandOk trie (insertNext cursor node) := by
  rw [insertNext]
  split <;> trivial

theorem found_handOk : HandOk trie (found site cursor) := by
  cases site with
  | lookup =>
    rw [found, lookupNext]
    split <;> trivial
  | insertNode tnode => trivial

end

end

/-! ## The invariant -/

section

variable [DecidableEq Node]

/-- A node outside the trie. -/
structure Loose (children : Node → List Node) (root node : Node) :
    Prop where
  notRoot : node ≠ root
  notChild : ∀ parent, node ∉ children parent
  leaf : children node = []

/--
The pool holds `cells`, the children of every node are the given lists, and
each of the `nodes` is in the pool, in the trie or in one hand.
-/
structure TrieInv (trie : TrieState Node) (pcs : Tid → TriePc Node)
    (root : Node) (nodes cells : List Node) (children : Node → List Node) :
    Prop where
  pool : Linked trie.brotherNode trie.first cells
  lists : ∀ parent,
    SortedLinked trie.brotherNode trie.key (trie.firstSubNode parent)
      (children parent)
  unique : ∀ {left right child}, child ∈ children left →
    child ∈ children right → left = right
  notOwn : ∀ node, node ∉ children node
  rootless : ∀ parent, root ∉ children parent
  rooted : ∀ {parent child}, child ∈ children parent →
    ∃ path, Spells children trie.key path root parent
  poolLoose : ∀ node ∈ cells, Loose children root node
  heldLoose : ∀ {thread tnode}, (pcs thread).hand = some tnode →
    Loose children root tnode ∧ tnode ∉ cells
  heldOnce : ∀ {left right tnode}, (pcs left).hand = some tnode →
    (pcs right).hand = some tnode → left = right
  conserved : ∀ node ∈ nodes,
    node ∈ cells ∨ (∃ parent, node ∈ children parent) ∨
      ∃ thread, (pcs thread).hand = some node
  pathOk : ∀ thread, PathOk children trie.key root (pcs thread)
  handOk : ∀ thread, HandOk trie (pcs thread)

omit [DecidableEq Node] in
theorem Loose.not_spelled {children : Node → List Node} {key : Node → Byte}
    {root node : Node} {path : List Byte} (loose : Loose children root node)
    (spells : Spells children key path root node) : False := by
  rcases spells.end_mem with isRoot | ⟨parent, mem⟩
  · exact loose.notRoot isRoot
  · exact loose.notChild parent mem

namespace TrieInv

variable [DecidableEq Tid] {trie after : TrieState Node}
  {pcs : Tid → TriePc Node} {root : Node} {nodes cells : List Node}
  {children : Node → List Node} {tid : Tid} {pc : TriePc Node} {tnode : Node}

/--
The hands and the conservation law after a step of one thread, when every node
it lets go of is in the pool or in the trie.
-/
theorem exists_hand_update {node : Node}
    (held : ∃ other, (pcs other).hand = some node)
    (kept : (pcs tid).hand = some node → pc.hand = some node) :
    ∃ other, (update pcs tid pc other).hand = some node := by
  rcases held with ⟨other, isHeld⟩
  by_cases same : other = tid
  · subst same
    exact ⟨other, by rw [update_self]; exact kept isHeld⟩
  · exact ⟨other, by rw [update_of_ne same]; exact isHeld⟩

variable (inv : TrieInv trie pcs root nodes cells children)

include inv

/-- A step that writes at most to the node in the thread's own hands. -/
theorem write (hand : pc.hand = (pcs tid).hand)
    (sameSub : after.firstSubNode = trie.firstSubNode)
    (sameFirst : after.first = trie.first)
    (others : ∀ node, (pcs tid).hand ≠ some node →
      after.brotherNode node = trie.brotherNode node ∧
        after.key node = trie.key node)
    (path : PathOk children trie.key root pc) (own : HandOk after pc) :
    TrieInv after (update pcs tid pc) root nodes cells children ∧
      Grows children trie.key children after.key := by
  have child : ∀ {parent node}, node ∈ children parent →
      after.brotherNode node = trie.brotherNode node ∧
        after.key node = trie.key node := by
    intro parent node mem
    apply others
    intro held
    exact (inv.heldLoose held).1.notChild parent mem
  have grows : Grows children trie.key children after.key :=
    fun parent node mem => ⟨mem, (child mem).2⟩
  have still : ∀ {other node}, (update pcs tid pc other).hand = some node →
      (pcs other).hand = some node :=
    held_of_kept TriePc.hand (.inr hand)
  refine ⟨?_, grows⟩
  constructor
  case pool =>
    rw [sameFirst]
    apply inv.pool.congr
    intro node mem
    apply (others node _).1
    intro held
    exact (inv.heldLoose held).2 mem
  case lists =>
    intro parent
    rw [sameSub]
    exact (inv.lists parent).congr (fun node mem => (child mem).1)
      fun node mem => (child mem).2
  case unique => exact inv.unique
  case notOwn => exact inv.notOwn
  case rootless => exact inv.rootless
  case rooted =>
    intro parent node mem
    rcases inv.rooted mem with ⟨path, spells⟩
    exact ⟨path, spells.mono grows⟩
  case poolLoose => exact inv.poolLoose
  case heldLoose => exact fun held => inv.heldLoose (still held)
  case heldOnce =>
    exact fun left right => inv.heldOnce (still left) (still right)
  case conserved =>
    intro node mem
    rcases inv.conserved node mem with inPool | inTrie | held
    · exact .inl inPool
    · exact .inr (.inl inTrie)
    · exact .inr (.inr
        (exists_hand_update held fun isHeld => hand.trans isHeld))
  case pathOk =>
    apply forall_update
    · exact path.mono grows
    · intro other _
      exact (inv.pathOk other).mono grows
  case handOk =>
    apply forall_update
    · exact own
    · intro other ne
      apply (inv.handOk other).congr
      intro node held
      apply others
      intro isHeld
      exact ne (inv.heldOnce held isHeld)

omit inv in
theorem take {rest : List Node}
    (inv : TrieInv trie pcs root nodes (tnode :: rest) children)
    (empty : (pcs tid).hand = none) (hand : pc.hand = some tnode)
    (path : PathOk children trie.key root pc) (own : HandOk trie pc) :
    TrieInv { trie with first := trie.brotherNode tnode }
      (update pcs tid pc) root nodes rest children := by
  have distinct := List.nodup_cons.1 inv.pool.nodup
  have loose := inv.poolLoose tnode (.head _)
  constructor
  case pool => exact inv.pool.2
  case lists => exact inv.lists
  case unique => exact inv.unique
  case notOwn => exact inv.notOwn
  case rootless => exact inv.rootless
  case rooted => exact inv.rooted
  case poolLoose =>
    exact fun node mem =>
      inv.poolLoose node (.tail _ mem)
  case heldLoose =>
    intro other node held
    rcases update_cases (TriePc.hand · = some node) held with
      ⟨-, isHeld⟩ | ⟨-, isHeld⟩
    · rw [hand] at isHeld
      cases isHeld
      exact ⟨loose, distinct.1⟩
    · rcases inv.heldLoose isHeld with ⟨nodeLoose, notCell⟩
      exact ⟨nodeLoose, fun mem =>
        notCell (.tail _ mem)⟩
  case heldOnce =>
    refine once_update TriePc.hand inv.heldOnce ?_
    rintro other node - held isHand
    cases hand.symm.trans isHand
    exact (inv.heldLoose held).2 (.head _)
  case conserved =>
    intro node mem
    rcases inv.conserved node mem with inPool | inTrie | held
    · rcases List.mem_cons.1 inPool with rfl | inRest
      · exact .inr (.inr ⟨tid, by rw [update_self]; exact hand⟩)
      · exact .inl inRest
    · exact .inr (.inl inTrie)
    · refine .inr (.inr (exists_hand_update held ?_))
      intro isHeld
      rw [empty] at isHeld
      simp at isHeld
  case pathOk => exact forall_update _ path fun other _ => inv.pathOk other
  case handOk =>
    apply forall_update
    · exact own.congr fun _ _ => ⟨rfl, rfl⟩
    · exact fun other _ => (inv.handOk other).congr fun _ _ => ⟨rfl, rfl⟩

variable (held : (pcs tid).hand = some tnode)

include held

/-- Letting go of the node in hand, to the pool or to the trie. -/
theorem letGo {grown : Node → List Node} {left : List Node} (hand : pc.hand = none)
    (pool : Linked after.brotherNode after.first left)
    (lists : ∀ parent, SortedLinked after.brotherNode after.key
        (after.firstSubNode parent) (grown parent))
    (unique : ∀ {one two child}, child ∈ grown one →
      child ∈ grown two → one = two)
    (rooted : ∀ {parent child}, child ∈ grown parent →
      child ≠ parent ∧ child ≠ root ∧
        ∃ path, Spells grown after.key path root parent)
    (grows : Grows children trie.key grown after.key)
    (poolLoose : ∀ node ∈ left, Loose grown root node)
    (loose : ∀ node, node ≠ tnode → Loose children root node →
      node ∉ cells → Loose grown root node ∧ node ∉ left ∧
        after.brotherNode node = trie.brotherNode node ∧
        after.key node = trie.key node)
    (keptCells : ∀ node ∈ cells, node ∈ left)
    (placed : tnode ∈ left ∨ ∃ parent, tnode ∈ grown parent)
    (path : PathOk grown after.key root pc) (own : HandOk after pc) :
    TrieInv after (update pcs tid pc) root nodes left grown := by
  have apart : ∀ {other node}, other ≠ tid →
      (pcs other).hand = some node → node ≠ tnode := by
    rintro other node ne isHeld rfl
    exact ne (inv.heldOnce isHeld held)
  have others : ∀ {other node}, (update pcs tid pc other).hand = some node →
        other ≠ tid ∧ (pcs other).hand = some node :=
    held_of_empty TriePc.hand hand
  constructor
  case pool => exact pool
  case lists => exact lists
  case unique => exact unique
  case notOwn => exact fun node mem => (rooted mem).1 rfl
  case rootless => exact fun parent mem => (rooted mem).2.1 rfl
  case rooted => exact fun mem => (rooted mem).2.2
  case poolLoose => exact poolLoose
  case heldLoose =>
    intro other node isHeld
    rcases others isHeld with ⟨ne, kept⟩
    rcases inv.heldLoose kept with ⟨nodeLoose, notCell⟩
    rcases loose node (apart ne kept) nodeLoose notCell with
      ⟨still, notLeft, -⟩
    exact ⟨still, notLeft⟩
  case heldOnce =>
    intro one two node oneHeld twoHeld
    exact inv.heldOnce (others oneHeld).2 (others twoHeld).2
  case conserved =>
    intro node mem
    by_cases same : node = tnode
    · subst same
      rcases placed with inPool | inTrie
      · exact .inl inPool
      · exact .inr (.inl inTrie)
    · rcases inv.conserved node mem with inPool | inTrie | isHeld
      · exact .inl (keptCells node inPool)
      · rcases inTrie with ⟨parent, child⟩
        exact .inr (.inl ⟨parent, (grows parent node child).1⟩)
      · refine .inr (.inr (exists_hand_update isHeld ?_))
        intro isHand
        rw [held] at isHand
        cases isHand
        exact absurd rfl same
  case pathOk =>
    apply forall_update
    · exact path
    · exact fun other _ => (inv.pathOk other).mono grows
  case handOk =>
    apply forall_update
    · exact own
    · intro other ne
      apply (inv.handOk other).congr
      intro node isHeld
      rcases inv.heldLoose isHeld with ⟨nodeLoose, notCell⟩
      exact (loose node (apart ne isHeld) nodeLoose notCell).2.2

/-- Pushing the node in hand, which already links to the first of the pool. -/
theorem give (hand : pc.hand = none)
    (link : trie.brotherNode tnode = trie.first)
    (path : PathOk children trie.key root pc)
    (own : HandOk { trie with first := some tnode } pc) :
    TrieInv { trie with first := some tnode }
      (update pcs tid pc) root nodes (tnode :: cells)
      children := by
  have tnodeLoose := (inv.heldLoose held).1
  apply inv.letGo held hand
  case pool => exact ⟨rfl, link ▸ inv.pool⟩
  case lists => exact inv.lists
  case unique => exact inv.unique
  case rooted =>
    intro parent child mem
    refine ⟨?_, ?_, inv.rooted mem⟩
    · rintro rfl
      exact inv.notOwn child mem
    · rintro rfl
      exact inv.rootless parent mem
  case grows => exact Grows.refl
  case poolLoose =>
    intro node mem
    rcases List.mem_cons.1 mem with rfl | inCells
    · exact tnodeLoose
    · exact inv.poolLoose node inCells
  case loose =>
    intro node ne nodeLoose notCell
    exact ⟨nodeLoose, by simp [ne, notCell], rfl, rfl⟩
  case keptCells => exact fun node mem => .tail _ mem
  case placed => exact .inl (.head _)
  case path => exact path
  case own => exact own

theorem link {grown : Node → List Node} {parent : Node} (hand : pc.hand = none)
    (spelled : ∃ path, Spells children trie.key path root parent)
    (members : ∀ other child, child ∈ grown other ↔
      child ∈ children other ∨ other = parent ∧ child = tnode)
    (lists : ∀ other, SortedLinked after.brotherNode after.key
        (after.firstSubNode other) (grown other))
    (sameKey : after.key = trie.key) (sameFirst : after.first = trie.first)
    (sameLinks : ∀ node, (∀ other, node ∉ children other) →
      after.brotherNode node = trie.brotherNode node)
    (path : PathOk grown after.key root pc) (own : HandOk after pc) :
    TrieInv after (update pcs tid pc) root nodes cells grown ∧
      Grows children trie.key grown after.key := by
  rcases inv.heldLoose held with ⟨tnodeLoose, notCell⟩
  have grows : Grows children trie.key grown after.key := by
    intro other child mem
    exact ⟨(members other child).2 (.inl mem), by rw [sameKey]⟩
  have notParent : ∀ {node}, Loose children root node → node ≠ parent := by
    rintro node loose rfl
    rcases spelled with ⟨path, spells⟩
    exact loose.not_spelled spells
  have stillLoose : ∀ {node}, node ≠ tnode → Loose children root node →
      Loose grown root node := by
    intro node ne loose
    refine ⟨loose.notRoot, ?_, ?_⟩
    · intro other mem
      rcases (members other node).1 mem with old | ⟨-, new⟩
      · exact loose.notChild other old
      · exact ne new
    · apply List.eq_nil_iff_forall_not_mem.2
      intro child mem
      rcases (members node child).1 mem with old | ⟨new, -⟩
      · rw [loose.leaf] at old
        simp at old
      · exact notParent loose new
  refine ⟨?_, grows⟩
  apply inv.letGo held hand
  case pool =>
    rw [sameFirst]
    apply inv.pool.congr
    intro node mem
    exact sameLinks node (inv.poolLoose node mem).notChild
  case lists => exact lists
  case unique =>
    intro one two child inOne inTwo
    rcases (members one child).1 inOne with oldOne | ⟨rfl, rfl⟩
    · rcases (members two child).1 inTwo with oldTwo | ⟨rfl, rfl⟩
      · exact inv.unique oldOne oldTwo
      · exact absurd oldOne (tnodeLoose.notChild one)
    · rcases (members two child).1 inTwo with oldTwo | ⟨rfl, -⟩
      · exact absurd oldTwo (tnodeLoose.notChild two)
      · rfl
  case rooted =>
    intro other child mem
    rcases (members other child).1 mem with old | ⟨rfl, rfl⟩
    · rcases inv.rooted old with ⟨path, spells⟩
      refine ⟨?_, ?_, path, spells.mono grows⟩
      · rintro rfl
        exact inv.notOwn child old
      · rintro rfl
        exact inv.rootless other old
    · rcases spelled with ⟨path, spells⟩
      exact ⟨notParent tnodeLoose, tnodeLoose.notRoot, path, spells.mono grows⟩
  case grows => exact grows
  case poolLoose =>
    intro node mem
    apply stillLoose _ (inv.poolLoose node mem)
    rintro rfl
    exact notCell mem
  case loose =>
    intro node ne loose nodeNotCell
    exact ⟨stillLoose ne loose, nodeNotCell,
      sameLinks node loose.notChild, by rw [sameKey]⟩
  case keptCells => exact fun node mem => mem
  case placed => exact .inr ⟨parent, (members parent tnode).2 (by simp)⟩
  case path => exact path
  case own => exact own

end TrieInv

end

end Lockfreec.Advance.MemTrie
