import Lockfreec.Advance.MemTrieAlone
import Lockfreec.Advance.MemTrieSearch
import Mathlib.Data.Finset.Card
import Mathlib.Data.List.Infix

/-!
# The meaning of the trie for one thread

A trie that one thread has filled stores the prefixes of the inserted
strings, each in one node of its own.  Every call of that thread returns, and
its answer and the two counters can be read off the strings alone.
-/

namespace Lockfreec.Advance.MemTrie

open Function Lib.Chain Lib.History Lib.Interleaving Lib.SortedChain

variable {Node : Type}

/-! ## Strings -/

/-- The string is empty or a prefix of an inserted one. -/
def Known (inserted : List (List Byte)) (inStr : List Byte) : Prop :=
  inStr = [] ∨ ∃ other ∈ inserted, inStr <+: other

instance (inserted : List (List Byte)) (inStr : List Byte) :
    Decidable (Known inserted inStr) :=
  inferInstanceAs (Decidable (_ ∨ _))

/-- What a call returns after these insertions. -/
def answer (inserted : List (List Byte)) : TrieCall → TrieRet
  | .insert inStr =>
    if Known inserted inStr then .insertDuplication else .insertSuccess
  | .search inStr =>
    if Known inserted inStr then .searchSuccess else .searchError

/-- The distinct non-empty prefixes of the inserted strings. -/
def prefixes (inserted : List (List Byte)) : Finset (List Byte) :=
  (inserted.flatMap List.inits).toFinset.erase []

theorem mem_prefixes {inserted : List (List Byte)} {inStr : List Byte} :
    inStr ∈ prefixes inserted ↔
      inStr ≠ [] ∧ ∃ other ∈ inserted, inStr <+: other := by
  simp [prefixes]

theorem known_iff {inserted : List (List Byte)} {inStr : List Byte} :
    Known inserted inStr ↔ inStr = [] ∨ inStr ∈ prefixes inserted := by
  rw [Known, mem_prefixes]
  tauto

theorem prefixes_append_subset (inserted : List (List Byte))
    (inStr : List Byte) :
    prefixes inserted ⊆ prefixes (inserted ++ [inStr]) := by
  intro path mem
  rcases mem_prefixes.1 mem with ⟨nonempty, other, isInserted, isPrefix⟩
  exact mem_prefixes.2 ⟨nonempty, other, by simp [isInserted], isPrefix⟩

/-! ## Paths -/

section

variable {children grown : Node → List Node} {key labels : Node → Byte}
  {source target parent tnode : Node} {path : List Byte}

theorem Spells.last {label : Byte}
    (spells : Spells children key (path ++ [label]) source target) :
    ∃ parent, Spells children key path source parent ∧
      target ∈ children parent ∧ key target = label := by
  induction path generalizing source with
  | nil =>
    rcases spells with ⟨child, mem, named, rfl⟩
    exact ⟨source, rfl, mem, named⟩
  | cons first path induction =>
    rcases spells with ⟨child, mem, named, tail⟩
    rcases induction tail with ⟨parent, front, inside, label⟩
    exact ⟨parent, ⟨child, mem, named, front⟩, inside, label⟩

/-- A path of the trie after a leaf was linked is an old path, or the path to
that leaf. -/
theorem Spells.of_link (members : ∀ other child, child ∈ grown other ↔
      child ∈ children other ∨ other = parent ∧ child = tnode)
    (leaf : grown tnode = [])
    (same : ∀ other child, child ∈ children other → labels child = key child)
    (spells : Spells grown labels path source target) :
    Spells children key path source target ∨
      ∃ front, path = front ++ [labels tnode] ∧
        Spells children key front source parent := by
  induction path generalizing source with
  | nil => exact .inl spells
  | cons label path induction =>
    rcases spells with ⟨child, mem, named, tail⟩
    rcases (members source child).1 mem with old | ⟨rfl, rfl⟩
    · have oldName : key child = label := (same _ _ old).symm.trans named
      rcases induction tail with kept | ⟨front, rfl, toParent⟩
      · exact .inl ⟨child, old, oldName, kept⟩
      · exact .inr ⟨label :: front, rfl, child, old, oldName, toParent⟩
    · cases path with
      | nil => exact .inr ⟨[], by simp [named], rfl⟩
      | cons further path =>
        rcases tail with ⟨below, inLeaf, -⟩
        rw [leaf] at inLeaf
        simp at inLeaf

end

section

variable [DecidableEq Node] {Tid : Type} {trie : TrieState Node}
  {pcs : Tid → TriePc Node} {root left right source target : Node}
  {nodes cells : List Node} {children : Node → List Node}
  {path other : List Byte}

theorem TrieInv.target_unique (inv : TrieInv trie pcs root nodes cells children)
    (one : Spells children trie.key path source left)
    (two : Spells children trie.key path source right) : left = right := by
  induction path generalizing source with
  | nil => exact one.symm.trans two
  | cons label path induction =>
    rcases one with ⟨child, mem, named, tail⟩
    rcases two with ⟨brother, alsoMember, alsoNamed, alsoTail⟩
    cases (inv.lists source).eq_of_key mem alsoMember
      (named.trans alsoNamed.symm)
    exact induction tail alsoTail

theorem TrieInv.path_unique (inv : TrieInv trie pcs root nodes cells children)
    (one : Spells children trie.key path root target)
    (two : Spells children trie.key other root target) : path = other := by
  induction path using List.reverseRecOn generalizing other target with
  | nil =>
    cases one
    rcases List.eq_nil_or_concat' other with rfl | ⟨front, label, rfl⟩
    · rfl
    · rcases two.last with ⟨parent, -, mem, -⟩
      exact absurd mem (inv.rootless parent)
  | append_singleton path label induction =>
    rcases one.last with ⟨parent, front, mem, named⟩
    rcases List.eq_nil_or_concat' other with rfl | ⟨rest, final, rfl⟩
    · cases two
      exact absurd mem (inv.rootless parent)
    · rcases two.last with ⟨also, alsoFront, alsoMember, alsoNamed⟩
      cases inv.unique mem alsoMember
      rw [induction front alsoFront, ← named, alsoNamed]

end

/-! ## What the trie stores -/

section

variable [DecidableEq Node]

/-- Between two operations on the pool the trie stores these strings. -/
structure Stores (root : Node) (nodes : List Node) (total : UInt64)
    (trie : TrieState Node) (pc : TriePc Node) (stored : Finset (List Byte))
    (cells : List Node)
    (children : Node → List Node) : Prop where
  inv : TrieInv trie (fun _ : Unit => pc) root nodes cells children
  spelled : ∀ path, (∃ target, Spells children trie.key path root target) ↔
      path = [] ∨ path ∈ stored
  nonempty : [] ∉ stored
  size : stored.card + cells.length = nodes.length
  counter : trie.counter = UInt64.ofNat stored.card
  total : trie.counter + trie.nodelistCounter = total

/-- The trie of an idle thread stores the prefixes of the strings. -/
def Meaning (root : Node) (nodes : List Node) (total : UInt64)
    (inserted : List (List Byte)) (trie : TrieState Node) : Prop :=
  ∃ cells children,
    Stores root nodes total trie .idle (prefixes inserted) cells children

variable {root : Node} {nodes cells : List Node} {total : UInt64}
  {trie after : TrieState Node} {pc next : TriePc Node}
  {stored : Finset (List Byte)} {children : Node → List Node}
  {cursor : Cursor Node} {tnode : Node}
  {goal : TrieState Node → TriePc Node → Prop}

omit [DecidableEq Node] in
theorem update_only (pcs : Unit → TriePc Node) (pc : TriePc Node) :
    update pcs () pc = fun _ => pc := by
  ext thread
  cases thread
  exact update_self ..

theorem TrieInv.goto
    (inv : TrieInv trie (fun _ : Unit => pc) root nodes cells children)
    (hand : next.hand = pc.hand) (sub : after.firstSubNode = trie.firstSubNode)
    (first : after.first = trie.first)
    (others : ∀ node, pc.hand ≠ some node →
      after.brotherNode node = trie.brotherNode node ∧
        after.key node = trie.key node)
    (path : PathOk children trie.key root next) (own : HandOk after next) :
    TrieInv after (fun _ : Unit => next) root nodes cells children := by
  rw [← update_only (fun _ => pc) next]
  exact (inv.write hand sub first others path own).1

theorem Stores.goto
    (stores : Stores root nodes total trie pc stored cells children)
    (hand : next.hand = pc.hand) (path : PathOk children trie.key root next)
    (own : HandOk trie next) :
    Stores root nodes total trie next stored cells children :=
  { stores with
    inv := stores.inv.goto hand rfl rfl (fun _ _ => ⟨rfl, rfl⟩) path own }

theorem TrieInv.held_loose
    (inv : TrieInv trie (fun _ : Unit => pc) root nodes cells children)
    (held : pc.hand = some tnode) : Loose children root tnode :=
  (@TrieInv.heldLoose _ _ _ _ _ _ _ _ _ inv () tnode held).1

/-- A label that no child has continues no stored string. -/
theorem Stores.not_stored {parent : Node} {path : List Byte} {label : Byte}
    (stores : Stores root nodes total trie pc stored cells children)
    (spelled : Spells children trie.key path root parent)
    (missing : ∀ child ∈ children parent, trie.key child ≠ label) :
    path ++ [label] ∉ stored := by
  intro isStored
  rcases (stores.spelled _).2 (.inr isStored) with ⟨target, spells⟩
  rcases spells.last with ⟨also, front, mem, named⟩
  cases stores.inv.target_unique spelled front
  exact missing target mem named

omit [DecidableEq Node] in
theorem take_label (within : cursor.pos < cursor.inStr.length) :
    cursor.inStr.take (cursor.pos + 1) =
      cursor.inStr.take cursor.pos ++ [cursor.label] := by
  rw [List.take_add_one]
  simp [Cursor.label, within]

/-! ## `lf_trie_insert_node` -/

omit [DecidableEq Node] in
theorem Gap.toPlace (gap : Gap trie (children cursor.parrent) cursor)
    (chain : SortedLinked trie.brotherNode trie.key
      (trie.firstSubNode cursor.parrent) (children cursor.parrent)) :
    Place children trie.key cursor where
  entry := by
    rcases gap.place with ⟨atParent, -⟩ | ⟨inside, less, link⟩
    · exact .inl atParent
    · refine .inr ⟨inside, less, fun next isNext => ?_⟩
      exact (chain.next_mem inside (link.symm.trans isNext)).1
  beyond := by
    intro next isNext
    refine ⟨?_, gap.beyond next isNext⟩
    rcases gap.place with ⟨-, link⟩ | ⟨inside, -, link⟩
    · exact chain.start_mem (link.symm.trans isNext)
    · exact (chain.next_mem inside (link.symm.trans isNext)).1

/-- The compare-and-swap of a thread that stands in a gap succeeds. -/
theorem linkCas_alone
    (inv : TrieInv trie (fun _ : Unit => .linkCas cursor tnode) root nodes
      cells children)
    (gap : Gap trie (children cursor.parrent) cursor) :
    ∃ after grown, (∀ action,
        (insertStep .stepwise action trie (.linkCas cursor tnode) :
          Option (TrieOutcome Unit Node)) =
          some ⟨after, .loadSub { cursor with prev := tnode } tnode, []⟩) ∧
        TrieInv after
          (fun _ : Unit => .loadSub { cursor with prev := tnode } tnode)
          root nodes cells grown ∧
        (∀ other child, child ∈ grown other ↔ child ∈ children other ∨
            other = cursor.parrent ∧ child = tnode) ∧
        after.key = trie.key ∧ after.counter = trie.counter ∧
        after.nodelistCounter = trie.nodelistCounter := by
  rcases gap.place with ⟨atParent, link⟩ | ⟨inside, less, link⟩
  · have linked : Links trie (fun _ : Unit => .linkCas cursor tnode) root
        nodes cells children () cursor tnode _ :=
      inv.linkFront rfl atParent link.symm
    rcases linked with ⟨grown, ⟨kept, -⟩, members⟩
    rw [update_only] at kept
    refine ⟨_, grown, ?_, kept, members, rfl, rfl, rfl⟩
    intro action
    rw [insertStep, if_pos atParent, atParent, if_pos link.symm]
  · have notParent : cursor.prev ≠ cursor.parrent := by
      intro same
      exact inv.notOwn cursor.parrent (same ▸ inside)
    have place := (inv.pathOk ()).2
    have behind := place.entry.resolve_left notParent
    have linked : Links trie (fun _ : Unit => .linkCas cursor tnode) root
        nodes cells children () cursor tnode _ :=
      inv.linkBehind rfl behind link.symm
    rcases linked with ⟨grown, ⟨kept, -⟩, members⟩
    rw [update_only] at kept
    refine ⟨_, grown, ?_, kept, members, rfl, rfl, rfl⟩
    intro action
    rw [insertStep, if_neg notParent, if_pos link.symm]

/-- The strings once the leaf hangs below the parent of the cursor. -/
theorem Stores.link {grown : Node → List Node} {linked : TrieState Node}
    (stores : Stores root nodes total trie pc stored cells children)
    (cursorOk : CursorOk children trie.key root cursor)
    (members : ∀ other child, child ∈ grown other ↔
      child ∈ children other ∨ other = cursor.parrent ∧ child = tnode)
    (leaf : grown tnode = [])
    (same : ∀ other child, child ∈ children other →
      linked.key child = trie.key child)
    (label : linked.key tnode = cursor.label) (path : List Byte) :
    (∃ target, Spells grown linked.key path root target) ↔ path = [] ∨
        path ∈ insert (cursor.inStr.take (cursor.pos + 1)) stored := by
  have grows : Grows children trie.key grown linked.key := by
    intro other child mem
    exact ⟨(members other child).2 (.inl mem), same other child mem⟩
  have longer : Spells grown linked.key
      (cursor.inStr.take (cursor.pos + 1)) root tnode := by
    rw [take_label cursorOk.within]
    refine (cursorOk.spelled.mono grows).append ⟨tnode, ?_, label, rfl⟩
    exact (members cursor.parrent tnode).2 (.inr ⟨rfl, rfl⟩)
  rw [Finset.mem_insert, or_left_comm, ← stores.spelled path]
  constructor
  · rintro ⟨target, spells⟩
    rcases spells.of_link members leaf same with old | ⟨front, rfl, toParent⟩
    · exact .inr ⟨target, old⟩
    · cases stores.inv.path_unique toParent cursorOk.spelled
      rw [take_label cursorOk.within, label]
      exact .inl rfl
  · rintro (rfl | ⟨target, spells⟩)
    · exact ⟨tnode, longer⟩
    · exact ⟨target, spells.mono grows⟩

/-- From the popped node to the linked one: the second walk of
`get_subnode_by_label` finds the gap of the first, and the link succeeds. -/
theorem linkNode_alone
    (inv : TrieInv trie (fun _ : Unit => .storeKey cursor tnode) root nodes
      cells children)
    (gap : Gap trie (children cursor.parrent) cursor)
    (isLinked : ∀ linked grown prevNext, TrieInv linked
          (fun _ : Unit => .loadSub
            { cursor with prev := tnode, prevNext := prevNext } tnode)
          root nodes cells grown →
        (∀ other child, child ∈ grown other ↔ child ∈ children other ∨
            other = cursor.parrent ∧ child = tnode) →
        (∀ node, node ≠ tnode → linked.key node = trie.key node) →
        linked.key tnode = cursor.label →
        linked.counter = trie.counter →
        linked.nodelistCounter = trie.nodelistCounter →
        Alone root goal linked (.loadSub
          { cursor with prev := tnode, prevNext := prevNext } tnode)) :
    Alone root goal trie (.storeKey cursor tnode) := by
  rcases inv.pathOk () with ⟨cursorOk, -⟩
  have loose : Loose children root tnode := inv.held_loose rfl
  have ne : ∀ {other child}, child ∈ children other → child ≠ tnode := by
    rintro other child mem rfl
    exact loose.notChild other mem
  have chain := inv.lists cursor.parrent
  refine alone_insertStep (fun _ => rfl) ?_
  have sameKey : ∀ {node}, node ≠ tnode →
      update trie.key tnode cursor.label node = trie.key node :=
    fun isOther => update_of_ne isOther ..
  have keyed := chain.congr (fun _ _ => rfl) fun child mem => sameKey (ne mem)
  have gapAgain : Gap { trie with key := update trie.key tnode cursor.label }
        (children cursor.parrent) cursor :=
    gap.congr chain rfl fun child mem =>
      ⟨rfl, sameKey (ne mem)⟩
  apply getSubnodeByLabel_alone keyed (.inr gapAgain)
  · intro child mem same
    exact absurd same (gapAgain.missing keyed mem)
  · intro prev prevNext found
    have here : Gap trie (children cursor.parrent)
        { cursor with prev := prev, prevNext := prevNext } :=
      found.congr keyed rfl fun child mem =>
        ⟨rfl, (sameKey (ne mem)).symm⟩
    have there : Gap
          { trie with
            key := update trie.key tnode cursor.label
            brotherNode := update trie.brotherNode tnode prevNext }
          (children cursor.parrent)
          { cursor with prev := prev, prevNext := prevNext } :=
      here.congr chain rfl fun child mem =>
        ⟨update_of_ne (ne mem) .., sameKey (ne mem)⟩
    have ready : TrieInv
          { trie with
            key := update trie.key tnode cursor.label
            brotherNode := update trie.brotherNode tnode prevNext }
          (fun _ : Unit => .linkCas
            { cursor with prev := prev, prevNext := prevNext } tnode)
          root nodes cells children := by
      refine inv.goto rfl rfl rfl ?_
        ⟨⟨cursorOk.within, cursorOk.spelled⟩, here.toPlace chain⟩
        ⟨update_self .., update_self ..⟩
      intro node notHeld
      have isOther : node ≠ tnode := by
        rintro rfl
        exact notHeld rfl
      exact ⟨update_of_ne isOther .., sameKey isOther⟩
    rcases linkCas_alone ready there with
      ⟨linked, grown, step, kept, members, key, counter, pool⟩
    refine alone_insertStep (fun _ => rfl) ?_
    refine alone_insertStep step ?_
    apply isLinked linked grown prevNext kept members
    · intro node isOther
      rw [key]
      exact sameKey isOther
    · rw [key]
      exact update_self ..
    · exact counter
    · exact pool

/-- `lf_trie_insert_node` stores one more string, unless the pool is empty. -/
theorem insertNode_alone
    (stores : Stores root nodes total trie (.popLoad cursor) stored cells
      children)
    (gap : Gap trie (children cursor.parrent) cursor)
    (empty : trie.first = none → Alone root goal trie
      (.finish (.insert cursor.inStr) .insertError))
    (inserted : ∀ after rest grown tnode, trie.first ≠ none →
      cursor.inStr.take (cursor.pos + 1) ∉ stored →
      Stores root nodes total after
          (insertNext { cursor with prev := tnode, prevNext := none } tnode)
          (insert (cursor.inStr.take (cursor.pos + 1)) stored) rest grown →
        grown tnode = [] →
        Alone root goal after (insertNext
            { cursor with prev := tnode, prevNext := none } tnode)) :
    Alone root goal trie (.popLoad cursor) := by
  rcases stores.inv.pathOk () with ⟨cursorOk, -⟩
  apply tnodePop_alone
  cases cells with
  | nil =>
    have exhausted : trie.first = none := stores.inv.pool
    rw [tnodePop, exhausted]
    exact empty exhausted
  | cons tnode rest =>
    have first : trie.first = some tnode := stores.inv.pool.1
    rw [tnodePop, first]
    have popped : TrieInv _ (update (fun _ : Unit => .popLoad cursor) ()
          (.storeKey cursor tnode)) root nodes rest children :=
      stores.inv.pop rfl
    rw [update_only] at popped
    have loose : Loose children root tnode := by
      exact stores.inv.poolLoose tnode (.head _)
    have ne : ∀ other child, child ∈ children other → child ≠ tnode := by
      rintro other child mem rfl
      exact loose.notChild other mem
    have notParent : tnode ≠ cursor.parrent := by
      rintro rfl
      exact loose.not_spelled cursorOk.spelled
    refine linkNode_alone popped
      (gap.congr (stores.inv.lists cursor.parrent) rfl fun child mem =>
        ⟨update_of_ne (ne _ child mem) .., rfl⟩) ?_
    intro linked grown prevNext kept members sameKey label counter pool
    have leaf : grown tnode = [] := by
      apply List.eq_nil_iff_forall_not_mem.2
      intro child mem
      rcases (members tnode child).1 mem with old | ⟨same, -⟩
      · rw [loose.leaf] at old
        simp at old
      · exact notParent same
    have noChild : linked.firstSubNode tnode = none := by
      have list := (kept.lists tnode).linked
      rw [leaf] at list
      exact list
    refine alone_insertStep (fun _ => rfl) ?_
    refine alone_insertStep (fun _ => rfl) ?_
    simp only [noChild]
    have fresh : cursor.inStr.take (cursor.pos + 1) ∉ stored := by
      rw [take_label cursorOk.within]
      apply stores.not_stored cursorOk.spelled
      intro child mem
      exact gap.missing (stores.inv.lists cursor.parrent) mem
    rcases kept.pathOk () with ⟨⟨within, spelled⟩, foundAt⟩
    apply inserted _ rest grown tnode (by simp [first]) fresh _ leaf
    exact {
      inv := kept.goto insertNext_hand rfl rfl (fun _ _ => ⟨rfl, rfl⟩)
        (insertNext_pathOk ⟨within, spelled⟩ foundAt) insertNext_handOk
      spelled := stores.link cursorOk members leaf
        (fun other child mem => sameKey child (ne _ _ mem))
        label
      nonempty := by
        rw [take_label cursorOk.within]
        simp [stores.nonempty]
      size := by
        have before := stores.size
        rw [List.length_cons] at before
        rw [Finset.card_insert_of_notMem fresh, ← before]
        omega
      counter := by
        rw [Finset.card_insert_of_notMem fresh, UInt64.ofNat_add,
          ← stores.counter, ← counter]
        rfl
      total := by
        rw [← stores.total]
        show linked.counter + 1 + linked.nodelistCounter = _
        rw [counter, pool]
        show trie.counter + 1 + (trie.nodelistCounter - 1) = _
        grind }

/-! ## Calls -/

/-- The strings that a call inserts. -/
def TrieCall.strings : TrieCall → List (List Byte)
  | .insert inStr => [inStr]
  | .search _ => []

/-- A call is about to return.  Unless the pool was exhausted, the answer and
the trie are those that the strings determine. -/
def Answers (root : Node) (nodes : List Node) (total : UInt64)
    (inserted : List (List Byte)) (trie : TrieState Node)
    (pc : TriePc Node) : Prop :=
  ∃ call result, pc = .finish call result ∧ (result ≠ .insertError →
      result = answer inserted call ∧
        Meaning root nodes total (inserted ++ call.strings) trie)

variable {inserted : List (List Byte)} {inStr : List Byte}

/-- An inserted string brings its prefixes with it. -/
theorem Stores.whole {target : Node}
    (stores : Stores root nodes total trie pc stored cells children)
    (before : prefixes inserted ⊆ stored)
    (within : stored ⊆ prefixes (inserted ++ [inStr]))
    (spells : Spells children trie.key inStr root target) :
    stored = prefixes (inserted ++ [inStr]) := by
  apply Finset.Subset.antisymm within
  intro path mem
  rcases mem_prefixes.1 mem with ⟨nonempty, other, isInserted, isPrefix⟩
  rcases List.mem_append.1 isInserted with old | new
  · exact before (mem_prefixes.2 ⟨nonempty, other, old, isPrefix⟩)
  · rw [List.mem_singleton] at new
    subst new
    rcases isPrefix with ⟨rest, rfl⟩
    exact ((stores.spelled path).1 spells.take).resolve_left nonempty

/-- What an insertion leaves that finds the pool exhausted: the trie as it
was, if the pool was empty before, or one that stores more. -/
def Exhausted (root : Node) (nodes : List Node) (total : UInt64)
    (inserted : List (List Byte)) (trie after : TrieState Node) : Prop :=
  trie.first = none ∧ after = trie ∨ trie.first ≠ none ∧ ∃ more rest grown,
      Stores root nodes total after .idle more rest grown ∧
        ∃ path ∈ more, path ∉ prefixes inserted

/-- The `for` loop of `lf_trie_insert_real_data`. -/
theorem insertLoop_alone {start : TrieState Node} (left : Nat)
    (remaining : cursor.inStr.length - cursor.pos = left)
    (stores : Stores root nodes total trie (.popLoad cursor) stored cells
      children)
    (gap : Gap trie (children cursor.parrent) cursor)
    (before : prefixes inserted ⊆ stored)
    (within : stored ⊆ prefixes (inserted ++ [cursor.inStr]))
    (progress : trie = start ∨
      start.first ≠ none ∧ ∃ path ∈ stored, path ∉ prefixes inserted)
    (succeeds : ∀ after,
      Meaning root nodes total (inserted ++ [cursor.inStr]) after →
        goal after (.finish (.insert cursor.inStr) .insertSuccess))
    (fails : ∀ after, Exhausted root nodes total inserted start after →
      goal after (.finish (.insert cursor.inStr) .insertError)) :
    Alone root goal trie (.popLoad cursor) := by
  induction left generalizing trie cursor stored cells children with
  | zero =>
    have inside := (stores.inv.pathOk ()).1.within
    omega
  | succ left induction =>
    have inside := (stores.inv.pathOk ()).1.within
    apply insertNode_alone stores gap
    · intro empty
      apply Machine.Leads.here
      apply fails
      rcases progress with rfl | ⟨filled, grew⟩
      · exact .inl ⟨empty, rfl⟩
      · exact .inr ⟨filled, stored, cells, children,
          stores.goto rfl trivial trivial, grew⟩
    · intro after rest grown tnode filled fresh more leaf
      have longer : insert (cursor.inStr.take (cursor.pos + 1)) stored ⊆
          prefixes (inserted ++ [cursor.inStr]) := by
        apply Finset.insert_subset _ within
        refine mem_prefixes.2 ⟨?_, cursor.inStr, by simp, List.take_prefix ..⟩
        rw [take_label inside]
        simp
      have still := before.trans (Finset.subset_insert
        (cursor.inStr.take (cursor.pos + 1)) stored)
      have grew : start.first ≠ none := by
        rcases progress with rfl | ⟨filled, -⟩
        · exact filled
        · exact filled
      by_cases further : cursor.pos + 1 < cursor.inStr.length
      · rw [insertNext, if_pos further] at more ⊢
        refine induction ?_ more ?_ still longer (.inr ⟨grew, _,
          Finset.mem_insert_self .., mt (@before _) fresh⟩) succeeds fails
        · show cursor.inStr.length - (cursor.pos + 1) = left
          omega
        · have list := (more.inv.lists tnode).linked
          rw [leaf] at list
          exact ⟨.inl ⟨rfl, list.symm⟩, by simp⟩
      · rw [insertNext, if_neg further] at more ⊢
        rcases more.inv.pathOk () (by simp) with ⟨target, spells⟩
        have all := more.whole still longer spells
        apply Machine.Leads.here
        apply succeeds
        refine ⟨rest, grown, ?_⟩
        rw [← all]
        exact more.goto rfl trivial trivial

theorem Stores.known_iff
    (stores : Stores root nodes total trie pc (prefixes inserted) cells
      children) :
    Known inserted inStr ↔
      ∃ target, Spells children trie.key inStr root target := by
  rw [MemTrie.known_iff, stores.spelled]

/-- A string whose next label is missing is not known. -/
theorem Stores.not_known {pos : Nat} {parent : Node}
    (stores : Stores root nodes total trie pc (prefixes inserted) cells
      children)
    (inside : pos < inStr.length)
    (spelled : Spells children trie.key (inStr.take pos) root parent)
    (missing : ∀ child ∈ children parent, trie.key child ≠ inStr.getD pos 0) :
    ¬ Known inserted inStr := by
  intro known
  rcases stores.known_iff.1 known with ⟨target, spells⟩
  have label : inStr[pos]? = some (inStr.getD pos 0) := by simp [inside]
  rw [← List.take_append_drop (pos + 1) inStr, List.take_add_one,
    label] at spells
  rcases spells.take with ⟨middle, front⟩
  have isStored := (stores.spelled _).1 ⟨middle, front⟩
  exact stores.not_stored spelled missing (isStored.resolve_left (by simp))

/-- The goal accepts the answer that the strings determine. -/
def Accepts (root : Node) (nodes : List Node) (total : UInt64)
    (inserted : List (List Byte))
    (goal : TrieState Node → TriePc Node → Prop) (call : TrieCall) : Prop :=
  ∀ after result, result = answer inserted call →
    Meaning root nodes total (inserted ++ call.strings) after →
      goal after (.finish call result)

/-- The `while` loop of `lf_trie_insert_real_data`. -/
theorem lookupLoop_alone {pos : Nat} {parrent : Node} {prevNext : Option Node}
    (left : Nat) (remaining : inStr.length - pos = left)
    (inside : pos < inStr.length)
    (stores : Stores root nodes total trie .idle (prefixes inserted) cells
      children)
    (spelled : Spells children trie.key (inStr.take pos) root parrent)
    (accepts : Accepts root nodes total inserted goal (.insert inStr))
    (fails : ∀ after, Exhausted root nodes total inserted trie after →
      goal after (.finish (.insert inStr) .insertError)) :
    Alone root goal trie
      (.readFirst .lookup ⟨inStr, pos, parrent, parrent, prevNext⟩) := by
  induction left generalizing pos parrent prevNext with
  | zero => omega
  | succ left induction =>
    have cursorOk : ∀ prev prevNext, CursorOk children trie.key root
          ⟨inStr, pos, parrent, prev, prevNext⟩ :=
      fun _ _ => ⟨inside, spelled⟩
    apply getSubnodeByLabel_alone (stores.inv.lists parrent) (.inl rfl)
    · intro child mem same
      have deeper := (cursorOk child (trie.firstSubNode child)).descend
        ⟨mem, same⟩
      show Alone root _ trie (lookupNext _ child)
      by_cases further : pos + 1 < inStr.length
      · have fewer : inStr.length - (pos + 1) = left := by omega
        rw [lookupNext, if_pos further]
        exact induction fewer further deeper
      · rw [lookupNext, if_neg further]
        rw [List.take_of_length_le (Nat.le_of_not_lt further)] at deeper
        have known := stores.known_iff.2 ⟨child, deeper⟩
        have same := stores.whole (Finset.Subset.refl _)
          (prefixes_append_subset inserted inStr) deeper
        apply Machine.Leads.here
        apply accepts
        · rw [answer, if_pos known]
        · exact ⟨cells, children, same ▸ stores⟩
    · intro prev prevNext gap
      have chain := stores.inv.lists parrent
      have popping : Stores root nodes total trie
          (.popLoad ⟨inStr, pos, parrent, prev, prevNext⟩)
          (prefixes inserted) cells children :=
        stores.goto rfl ⟨cursorOk prev prevNext,
          (gap.toPlace chain).entry⟩ trivial
      have fresh := stores.not_known inside spelled fun child mem =>
        gap.missing chain mem
      refine insertLoop_alone (left + 1) remaining popping gap
        (Finset.Subset.refl _) (prefixes_append_subset inserted inStr)
        (.inl rfl) (fun after => accepts after _ ?_) fails
      rw [answer, if_neg fresh]

/-- `lf_trie_search_real_data`. -/
theorem searchLoop_alone {pos : Nat} {node : Node} (left : Nat)
    (remaining : inStr.length - pos = left) (inside : pos ≤ inStr.length)
    (stores : Stores root nodes total trie .idle (prefixes inserted) cells
      children)
    (spelled : Spells children trie.key (inStr.take pos) root node)
    (accepts : Accepts root nodes total inserted goal (.search inStr)) :
    Alone root goal trie (searchNext inStr pos node) := by
  have same : Meaning root nodes total
      (inserted ++ (TrieCall.search inStr).strings) trie := by
    rw [TrieCall.strings, List.append_nil]
    exact ⟨cells, children, stores⟩
  induction left generalizing pos node with
  | zero =>
    have last : ¬ pos < inStr.length := by omega
    rw [List.take_of_length_le (Nat.le_of_not_lt last)] at spelled
    rw [searchNext, if_neg last]
    refine .here (accepts _ _ ?_ same)
    rw [answer, if_pos (stores.known_iff.2 ⟨node, spelled⟩)]
  | succ left induction =>
    have further : pos < inStr.length := by omega
    rw [searchNext, if_pos further]
    apply searchSubnodeByLabel_alone (stores.inv.lists node)
    · intro child mem label
      have cursorOk : CursorOk children trie.key root
          ⟨inStr, pos, node, child, none⟩ :=
        ⟨further, spelled⟩
      exact induction (by omega) further (cursorOk.descend ⟨mem, label⟩)
    · intro missing
      refine .here (accepts _ _ ?_ same)
      rw [answer, if_neg (stores.not_known further spelled missing)]

theorem trieCall_alone (meaning : Meaning root nodes total inserted trie)
    (call : TrieCall) (accepts : Accepts root nodes total inserted goal call)
    (fails : ∀ after, Exhausted root nodes total inserted trie after →
      goal after (.finish call .insertError)) :
    Alone root goal (trieCall root () trie call).shared
      (trieCall root () trie call).thread := by
  rcases meaning with ⟨cells, children, stores⟩
  cases call with
  | search inStr =>
    exact searchLoop_alone inStr.length rfl (Nat.zero_le _) stores rfl accepts
  | insert inStr =>
    rw [trieCall]
    split
    · next inside =>
        exact lookupLoop_alone inStr.length rfl inside stores rfl accepts fails
    · next empty =>
        have nothing : inStr = [] :=
          List.length_eq_zero_iff.1 (Nat.eq_zero_of_not_pos empty)
        subst nothing
        have same := stores.whole (Finset.Subset.refl _)
          (prefixes_append_subset inserted []) rfl
        apply Machine.Leads.here
        apply accepts
        · have known : Known inserted [] := .inl rfl
          rw [answer, if_pos known]
        · exact ⟨cells, children, same ▸ stores⟩

/-! ## Runs of one thread -/

/-- The strings whose insertion has returned. -/
def insertedStrings (history : List (TrieEvent Unit)) : List (List Byte) :=
  history.flatMap fun
    | .returned _ call _ => call.strings
    | _ => []

omit [DecidableEq Node] in
theorem insertedStrings_append (first second : List (TrieEvent Unit)) :
    insertedStrings (first ++ second) =
      insertedStrings first ++ insertedStrings second :=
  List.flatMap_append

/-- A call returns what the insertions before it determine. -/
def AsAnswered (before : List (TrieEvent Unit)) :
    TrieEvent Unit → Prop
  | .returned _ call result => result = answer (insertedStrings before) call
  | _ => True

/-- The event does not answer a call. -/
def TrieEvent.Silent : TrieEvent Unit → Prop
  | .returned _ _ _ => False
  | _ => True

/-- No insertion has found the pool exhausted. -/
def NoError (history : List (TrieEvent Unit)) : Prop :=
  ∀ call, .returned () call .insertError ∉ history

/-- Between its calls the thread sees the meaning, and each call is on its way
to the answer. -/
structure SequentialInv (root : Node) (nodes : List Node) (total : UInt64)
    (history : List (TrieEvent Unit))
    (config : Config Unit (TrieState Node) (TriePc Node)) : Prop where
  answered : Emitted AsAnswered history
  resting : config.threads () = .idle →
    Meaning root nodes total (insertedStrings history) config.shared
  calling : config.threads () ≠ .idle →
    Alone root (Answers root nodes total (insertedStrings history))
      config.shared (config.threads ())

/-- The goal is the end of a call. -/
def AtFinish (goal : TrieState Node → TriePc Node → Prop) : Prop :=
  ∀ trie pc, goal trie pc → ∃ call result, pc = .finish call result

theorem Answers.atFinish : AtFinish (Answers root nodes total inserted) := by
  rintro trie pc ⟨call, result, atFinish, -⟩
  exact ⟨call, result, atFinish⟩

theorem not_alone_idle (ends : AtFinish goal) :
    ¬ Alone root goal trie .idle := by
  intro alone
  cases alone with
  | here reached =>
    rcases ends _ _ reached with ⟨call, result, atFinish⟩
    cases atFinish
  | step enabled next =>
    rcases enabled with ⟨outcome, stepped⟩
    cases stepped

theorem Alone.finished {call : TrieCall} {result : TrieRet}
    (ends : AtFinish goal)
    (alone : Alone root goal trie (.finish call result)) :
    goal trie (.finish call result) := by
  have step : (soloTrie root).step () .run trie (.finish call result) =
      some ⟨trie, .idle, [.returned () call result]⟩ := rfl
  rcases Machine.Leads.advance alone step with reached | idle
  · exact reached
  · exact absurd idle (not_alone_idle ends)

variable {history : List (TrieEvent Unit)}
  {config : Config Unit (TrieState Node) (TriePc Node)}

section

variable (inv : SequentialInv root nodes total history config)

include inv

theorem SequentialInv.within {outcome : TrieOutcome Unit Node}
    (silent : ∀ event ∈ outcome.events, event.Silent)
    (alone : Alone root (Answers root nodes total (insertedStrings history))
      outcome.shared outcome.thread) :
    SequentialInv root nodes total (history ++ outcome.events)
      (config.advance () outcome) := by
  have same : insertedStrings (history ++ outcome.events) =
      insertedStrings history := by
    have none : insertedStrings outcome.events = [] := by
      apply List.flatMap_eq_nil_iff.2
      intro event mem
      have isSilent := silent event mem
      cases event with
      | returned => exact absurd isSilent id
      | called | accessed => rfl
    rw [insertedStrings_append, none, List.append_nil]
  have only : (config.advance () outcome).threads () = outcome.thread := by
    simp
  constructor
  case answered =>
    apply inv.answered.append
    intro before event mem
    have isSilent := silent event mem
    cases event with
    | returned => exact absurd isSilent id
    | called | accessed => trivial
  case resting =>
    intro idle
    rw [only] at idle
    rw [idle] at alone
    exact absurd alone (not_alone_idle Answers.atFinish)
  case calling =>
    intro _
    rw [same, only]
    exact alone

theorem SequentialInv.returns {call : TrieCall} {result : TrieRet}
    (here : config.threads () = .finish call result)
    (noError : result ≠ .insertError) :
    SequentialInv root nodes total (history ++ [.returned () call result])
      (config.advance () (⟨config.shared, .idle, [.returned () call result]⟩ :
          TrieOutcome Unit Node)) := by
  have alone := inv.calling (by simp [here])
  rw [here] at alone
  rcases Alone.finished Answers.atFinish alone with ⟨answered, given, same, meant⟩
  cases same
  rcases meant noError with ⟨right, meaning⟩
  constructor
  case answered => exact inv.answered.snoc right
  case resting =>
    intro _
    rw [insertedStrings_append]
    simpa [insertedStrings] using meaning
  case calling =>
    intro busy
    simp at busy

theorem SequentialInv.step {action : TrieAction}
    {outcome : TrieOutcome Unit Node}
    (noError : NoError (history ++ outcome.events))
    (step : (soloTrie root).step () action config.shared
      (config.threads ()) = some outcome) :
    SequentialInv root nodes total (history ++ outcome.events)
      (config.advance () outcome) := by
  rcases trieMachine_step step with
    ⟨idle, call, -, rfl⟩ | ⟨call, result, here, rfl⟩ | inserting | searching
  · apply inv.within
    · intro event mem
      rw [trieCall_events, List.mem_singleton] at mem
      subst mem
      trivial
    · apply trieCall_alone (inv.resting idle) call
      · intro after result right meaning
        exact ⟨_, _, rfl, fun _ => ⟨right, meaning⟩⟩
      · exact fun _ _ => ⟨_, _, rfl, fun noError => absurd rfl noError⟩
  · apply inv.returns here
    rintro rfl
    exact noError call (by simp)
  · have busy : config.threads () ≠ .idle := by
      intro idle
      rw [idle] at inserting
      simp [insertStep] at inserting
    rcases (inv.calling busy).advance step with
      ⟨call, result, atFinish, -⟩ | alone
    · rw [atFinish] at inserting
      simp [insertStep] at inserting
    · apply inv.within _ alone
      simp [insertStep_events inserting]
  · have busy : config.threads () ≠ .idle := by
      intro idle
      rw [idle] at searching
      simp [searchStep] at searching
    rcases (inv.calling busy).advance step with
      ⟨call, result, atFinish, -⟩ | alone
    · rw [atFinish] at searching
      simp [searchStep] at searching
    · apply inv.within _ alone
      simp [searchStep_events searching, TrieEvent.Silent]

end

theorem SequentialInv.start {brotherNode : Node → Option Node}
    {key : Node → Byte} {first : Option Node} {nodelistCounter : UInt64}
    (chain : Linked brotherNode first nodes) (apart : root ∉ nodes) :
    SequentialInv root nodes nodelistCounter []
      (trieStart brotherNode key first nodelistCounter 0) where
  answered := .nil
  resting := by
    intro _
    refine ⟨nodes, fun _ => [], TrieInv.start chain apart, ?_, ?_, ?_, ?_, ?_⟩
    · intro path
      cases path with
      | nil => simp [Spells]
      | cons label path => simp [Spells, prefixes, insertedStrings]
    · simp [prefixes]
    · simp [prefixes, insertedStrings]
    · simp [prefixes, insertedStrings, trieStart]
    · simp [trieStart]
  calling := fun busy => absurd rfl busy

/--
The exact meaning of a trie that one thread uses, in every run in which no
insertion has found the pool exhausted.  Every call returns what the strings
inserted before it determine.  Between two calls the first counter is the
number of distinct non-empty prefixes, which the pool had nodes for, and the
sum of the counters is what it was.  Left to run, the thread returns from
every call.
-/
theorem trie_sequential_meaning {brotherNode : Node → Option Node}
    {key : Node → Byte} {first : Option Node} {nodelistCounter : UInt64}
    (chain : Linked brotherNode first nodes) (apart : root ∉ nodes)
    (run : (soloTrie root).Run
      (trieStart brotherNode key first nodelistCounter 0) history config)
    (noError : NoError history) :
    (∀ before call result rest,
        history = before ++ .returned () call result :: rest →
          result = answer (insertedStrings before) call) ∧
      (config.threads () = .idle → config.shared.counter =
            UInt64.ofNat (prefixes (insertedStrings history)).card ∧
          (prefixes (insertedStrings history)).card ≤ nodes.length ∧
          config.shared.counter + config.shared.nodelistCounter =
            nodelistCounter) ∧
      ∃ steps after events,
        (soloTrie root).execute config (List.replicate steps ((), .run)) =
            some (after, events) ∧
          after.threads () = .idle := by
  have inv : NoError history →
      SequentialInv root nodes nodelistCounter history config := by
    apply run.invariant (fun history config => NoError history →
      SequentialInv root nodes nodelistCounter history config)
    · exact fun _ => .start chain apart
    · intro history config thread action outcome before _ stepped fine
      apply (before _).step fine stepped
      intro call member
      exact fine call (List.mem_append_left _ member)
  refine ⟨?_, ?_, ?_⟩
  · intro before call result rest split
    exact (inv noError).answered before _ rest split
  · intro idle
    rcases (inv noError).resting idle with ⟨cells, children, stores⟩
    refine ⟨stores.counter, ?_, stores.total⟩
    rw [← stores.size]
    exact Nat.le_add_right ..
  · have returns : Alone root (fun _ pc => pc = .idle) config.shared
        (config.threads ()) := by
      by_cases idle : config.threads () = .idle
      · exact .here idle
      · apply ((inv noError).calling idle).trans
        rintro trie pc ⟨call, result, rfl, -⟩
        exact alone_finish (.here rfl)
    exact returns.execute config rfl rfl

end

/-- A string of two labels is inserted, then its first label again. -/
theorem trie_sequential_meaning_twice :
    ∃ (config : Config Unit (TrieState Nat) (TriePc Nat))
      (history : List (TrieEvent Unit)),
      Linked threeNodes (some 1) [1, 2, 3] ∧ 0 ∉ [1, 2, 3] ∧
      (soloTrie 0).Run (trieStart threeNodes (fun _ => 0) (some 1) 3 0)
        history config ∧
      NoError history ∧ insertedStrings history = [[7, 9], [7]] ∧
      config.shared.counter = UInt64.ofNat (prefixes [[7, 9], [7]]).card ∧
      config.shared.counter + config.shared.nodelistCounter = 3 := by
  have chain : Linked threeNodes (some 1) [1, 2, 3] :=
    ⟨rfl, rfl, rfl, rfl⟩
  have executed : (soloTrie 0).execute
      (trieStart threeNodes (fun _ => 0) (some 1) 3 0)
      (((), .call (.insert [7, 9])) :: List.replicate 26 ((), .run) ++
        ((), .call (.insert [7])) :: List.replicate 5 ((), .run)) =
      some (_, [.called () (.insert [7, 9]),
        .returned () (.insert [7, 9]) .insertSuccess,
        .called () (.insert [7]),
        .returned () (.insert [7]) .insertDuplication]) :=
    rfl
  have run := Machine.run_of_execute executed
  have noError : NoError [.called () (.insert [7, 9]),
      .returned () (.insert [7, 9]) .insertSuccess,
      .called () (.insert [7]),
      .returned () (.insert [7]) .insertDuplication] := by
    intro call
    simp
  have meaning := trie_sequential_meaning chain (by decide) run noError
  rcases meaning.2.1 rfl with ⟨counter, -, total⟩
  exact ⟨_, _, chain, by decide, run, noError, rfl, counter, total⟩

end Lockfreec.Advance.MemTrie
