import Lockfreec.Advance.MemTrieInvariant

/-!
# Every step keeps the invariant of the trie

One theorem for each function of the source.  The compare-and-swaps of the
pool compare a pointer alone, so their steps keep the invariant only under
`PoolSafe`, which says what a tag would have ensured.
-/

namespace Lockfreec.Advance.MemTrie

open Function Lib.Chain Lib.Interleaving Lib.SortedChain

variable {Tid Node : Type}

/-- All that the invariant reads of the trie. -/
def TrieState.links (trie : TrieState Node) :=
  (trie.firstSubNode, trie.brotherNode, trie.key, trie.first)

section

variable [DecidableEq Node]

/-- The invariant after a step, in a trie that has only grown. -/
def Keeps [DecidableEq Tid] (trie : TrieState Node) (pcs : Tid → TriePc Node)
    (root : Node) (nodes : List Node) (children : Node → List Node)
    (thread : Tid)
    (outcome : TrieOutcome Tid Node) : Prop :=
  ∃ cells grown, TrieInv outcome.shared (update pcs thread outcome.thread) root
        nodes cells grown ∧
      Grows children trie.key grown outcome.shared.key

/-- The invariant once the node hangs below the parent of the cursor. -/
def Links [DecidableEq Tid] (trie : TrieState Node) (pcs : Tid → TriePc Node)
    (root : Node) (nodes cells : List Node) (children : Node → List Node)
    (thread : Tid) (cursor : Cursor Node)
    (tnode : Node) (after : TrieState Node) : Prop :=
  ∃ grown, (TrieInv after (update pcs thread
          (.loadSub { cursor with prev := tnode } tnode))
        root nodes cells grown ∧
      Grows children trie.key grown after.key) ∧
    ∀ other child, child ∈ grown other ↔
      child ∈ children other ∨ other = cursor.parrent ∧ child = tnode

/--
What an untagged compare-and-swap cannot check: a pop installs the node that
is behind the head now, and a push that has succeeded still finds its link.
-/
def PoolSafe (trie : TrieState Node) : TriePc Node → Prop
  | .popCas _ original next =>
    trie.first = some original → next = trie.brotherNode original
  | .pushReload _ tnode original returned =>
    original = returned → trie.brotherNode tnode = returned
  | _ => True

namespace TrieInv

variable [DecidableEq Tid] {trie : TrieState Node} {pcs : Tid → TriePc Node}
  {root : Node} {nodes cells : List Node} {children : Node → List Node}
  {tid : Tid}

variable {mode : PoolMode} {action : TrieAction}
  {outcome : TrieOutcome Tid Node} {pc : TriePc Node}

omit [DecidableEq Node] in
theorem update_twice (first second : TriePc Node) :
    update (update pcs tid first) tid second = update pcs tid second :=
  update_idem ..

/-- An atomic step that does what two steps do. -/
theorem then_keeps {middle : TrieState Node} {between : List Node}
    (inv : TrieInv middle (update pcs tid pc) root nodes between children)
    (same : middle.key = trie.key)
    (second : TrieInv middle (update pcs tid pc) root nodes between children →
      Keeps middle (update pcs tid pc) root nodes children tid outcome) :
    Keeps trie pcs root nodes children tid outcome := by
  rcases second inv with ⟨last, grown, kept, grows⟩
  rw [update_twice] at kept
  exact ⟨last, grown, kept, same ▸ grows⟩

variable {after : TrieState Node} {events : List (TrieEvent Tid)} {tnode : Node}
  {site : Site Node} {cursor : Cursor Node}

variable (inv : TrieInv trie pcs root nodes cells children)

include inv

/-- A step that only moves its thread, or touches a counter. -/
theorem move (hand : pc.hand = (pcs tid).hand) (same : after.links = trie.links)
    (path : PathOk children trie.key root pc) (own : HandOk trie pc) :
    Keeps trie pcs root nodes children tid ⟨after, pc, events⟩ := by
  simp only [TrieState.links, Prod.mk.injEq] at same
  rcases same with ⟨sub, brother, key, first⟩
  refine ⟨cells, children, inv.write hand sub first ?_ path ?_⟩
  · intro node _
    rw [brother, key]
    exact ⟨rfl, rfl⟩
  · apply own.congr
    intro node _
    rw [brother, key]
    exact ⟨rfl, rfl⟩

theorem writeBrother {link : Option Node} (held : (pcs tid).hand = some tnode)
    (hand : pc.hand = some tnode) (same : after.links = { trie with
      brotherNode := update trie.brotherNode tnode link }.links)
    (path : PathOk children trie.key root pc) (own : HandOk after pc) :
    TrieInv after (update pcs tid pc) root nodes cells children ∧
      Grows children trie.key children after.key := by
  simp only [TrieState.links, Prod.mk.injEq] at same
  rcases same with ⟨sub, brother, key, first⟩
  apply inv.write (hand.trans held.symm) sub first _ path own
  intro node notHeld
  rw [brother, key]
  refine ⟨update_of_ne ?_ _ _, rfl⟩
  rintro rfl
  exact notHeld held

omit [DecidableEq Tid] in
/-- What the invariant says about a thread at a program point. -/
theorem standing (here : pcs tid = pc) :
    PathOk children trie.key root pc ∧ HandOk trie pc ∧
      pc.hand = (pcs tid).hand := by
  subst here
  exact ⟨inv.pathOk tid, inv.handOk tid, rfl⟩

variable (stepped : insertStep mode action trie (pcs tid) = some outcome)

include stepped

/-! ### `get_subnode_by_label` -/

theorem readFirst (here : pcs tid = .readFirst site cursor) :
    Keeps trie pcs root nodes children tid outcome := by
  rcases inv.standing here with ⟨⟨holds, entry⟩, labelled, hand⟩
  simp only [here, insertStep] at stepped
  split at stepped
  · cases stepped
    exact inv.move (notFound_hand.trans hand) rfl
      (notFound_pathOk ⟨holds.1, holds.2⟩ ⟨.inl rfl, by simp⟩)
      (notFound_handOk labelled)
  · next tmp first =>
      cases stepped
      exact inv.move hand rfl
        ⟨holds, entry, (inv.lists cursor.parrent).start_mem first⟩ labelled

theorem firstGreater {tmp : Node}
    (here : pcs tid = .firstGreater site cursor tmp) :
    Keeps trie pcs root nodes children tid outcome := by
  rcases inv.standing here with ⟨⟨holds, entry, mem⟩, labelled, hand⟩
  simp only [here, insertStep] at stepped
  split at stepped
  · next greater =>
      cases stepped
      refine inv.move (notFound_hand.trans hand) rfl
        (notFound_pathOk ⟨holds.1, holds.2⟩ ⟨.inl rfl, ?_⟩)
        (notFound_handOk labelled)
      rintro next ⟨⟩
      exact ⟨mem, greater⟩
  · next notGreater =>
      cases stepped
      exact inv.move hand rfl ⟨holds, entry, mem, not_lt.1 notGreater⟩ labelled

theorem firstLess {tmp : Node} (here : pcs tid = .firstLess site cursor tmp) :
    Keeps trie pcs root nodes children tid outcome := by
  rcases inv.standing here with
    ⟨⟨holds, entry, mem, notGreater⟩, labelled, hand⟩
  simp only [here, insertStep] at stepped
  split at stepped
  · next less =>
      split at stepped
      · cases stepped
        exact inv.move hand rfl ⟨⟨holds.1, holds.2⟩, mem, less⟩ labelled
      · next inside =>
          cases stepped
          exact inv.move (nextTest_hand.trans hand) rfl
            (nextTest_pathOk holds (entry.resolve_left inside))
            (nextTest_handOk labelled)
  · next notLess =>
      cases stepped
      exact inv.move hand rfl ⟨⟨holds.1, holds.2⟩, mem,
          le_antisymm notGreater (not_lt.1 notLess)⟩ labelled

theorem readBrother (here : pcs tid = .readBrother site cursor) :
    Keeps trie pcs root nodes children tid outcome := by
  rcases inv.standing here with ⟨⟨holds, mem, less⟩, labelled, hand⟩
  rw [here] at stepped
  cases stepped
  refine inv.move (nextTest_hand.trans hand) rfl
    (nextTest_pathOk ⟨holds.1, holds.2⟩ ⟨mem, less, ?_⟩)
    (nextTest_handOk labelled)
  intro next link
  exact ((inv.lists cursor.parrent).next_mem mem link).1

theorem nextLess {next : Node} (here : pcs tid = .nextLess site cursor next) :
    Keeps trie pcs root nodes children tid outcome := by
  rcases inv.standing here with ⟨⟨holds, behind, link⟩, labelled, hand⟩
  simp only [here, insertStep] at stepped
  split at stepped
  · next less =>
      cases stepped
      exact inv.move hand rfl ⟨⟨holds.1, holds.2⟩, behind.next next link, less⟩
        labelled
  · next notLess =>
      cases stepped
      exact inv.move hand rfl ⟨holds, behind, link, not_lt.1 notLess⟩ labelled

theorem nextGreater {next : Node}
    (here : pcs tid = .nextGreater site cursor next) :
    Keeps trie pcs root nodes children tid outcome := by
  rcases inv.standing here with
    ⟨⟨holds, behind, link, notLess⟩, labelled, hand⟩
  have member := behind.next next link
  simp only [here, insertStep] at stepped
  split at stepped
  · next greater =>
      cases stepped
      refine inv.move (notFound_hand.trans hand) rfl
        (notFound_pathOk holds ⟨.inr behind, ?_⟩) (notFound_handOk labelled)
      intro other otherLink
      rw [link] at otherLink
      cases otherLink
      exact ⟨member, greater⟩
  · next notGreater =>
      cases stepped
      exact inv.move hand rfl ⟨⟨holds.1, holds.2⟩, member,
          le_antisymm (not_lt.1 notGreater) notLess⟩ labelled

theorem readSub (here : pcs tid = .readSub site cursor) :
    Keeps trie pcs root nodes children tid outcome := by
  rcases inv.standing here with ⟨⟨holds, foundAt⟩, -, hand⟩
  rw [here] at stepped
  cases stepped
  exact inv.move (found_hand.trans hand) rfl
    (found_pathOk ⟨holds.1, holds.2⟩ foundAt) found_handOk

/-! ### `lf_trie_insert_node` -/

theorem storeKey (here : pcs tid = .storeKey cursor tnode) :
    Keeps trie pcs root nodes children tid outcome := by
  rcases inv.standing here with ⟨holds, -, hand⟩
  rw [here] at stepped
  cases stepped
  refine ⟨cells, children, inv.write hand rfl rfl ?_ holds ?_⟩
  · intro node notHeld
    refine ⟨rfl, update_of_ne ?_ _ _⟩
    rintro rfl
    exact notHeld hand.symm
  · exact update_self ..

section

variable (here : pcs tid = .linkCas cursor tnode)

include here

section

omit stepped

/-- The compare-and-swap of `lf_trie_insert_node` has put the node into the
list of its parent. -/
theorem linkChild {list : List Node} (chain :
      SortedLinked after.brotherNode after.key
        (after.firstSubNode cursor.parrent) list)
    (listed : ∀ each, each ∈ list ↔
      each = tnode ∨ each ∈ children cursor.parrent)
    (others : ∀ other, other ≠ cursor.parrent →
      SortedLinked after.brotherNode after.key (after.firstSubNode other)
        (children other)) (sameKey : after.key = trie.key)
    (sameFirst : after.first = trie.first)
    (sameLinks : ∀ node, (∀ other, node ∉ children other) →
      after.brotherNode node = trie.brotherNode node) :
    Links trie pcs root nodes cells children tid cursor tnode after := by
  rcases inv.standing here with ⟨holds, own, -⟩
  have held : (pcs tid).hand = some tnode := by rw [here]; rfl
  have members : ∀ other child,
      child ∈ update children cursor.parrent list other ↔
        child ∈ children other ∨ other = cursor.parrent ∧ child = tnode := by
    intro other child
    by_cases same : other = cursor.parrent
    · subst same
      simp [listed, or_comm]
    · simp [same]
  have grows : Grows children trie.key
      (update children cursor.parrent list) after.key := by
    intro parent child mem
    exact ⟨(members parent child).2 (.inl mem), by rw [sameKey]⟩
  refine ⟨_, inv.link held rfl ⟨_, holds.1.spelled⟩ members ?_
    sameKey sameFirst sameLinks ⟨?_, ?_⟩ trivial, members⟩
  · intro other
    by_cases same : other = cursor.parrent
    · subst same
      simpa using chain
    · simpa [same] using others other same
  · exact ⟨holds.1.within, holds.1.spelled.mono grows⟩
  · exact ⟨(members _ _).2 (.inr ⟨rfl, rfl⟩), by rw [sameKey]; exact own.1⟩

theorem linkFront (atFirst : cursor.prev = cursor.parrent)
    (unchanged : trie.firstSubNode cursor.parrent = cursor.prevNext) :
    Links trie pcs root nodes cells children tid cursor tnode
      { trie with
        firstSubNode :=
          update trie.firstSubNode cursor.prev (some tnode) } := by
  rcases inv.standing here with ⟨⟨-, place⟩, own, -⟩
  apply inv.linkChild here
  case chain =>
    simp only [atFirst, update_self]
    apply (inv.lists cursor.parrent).insert_front
    · rw [own.2, unchanged]
    · intro first isFirst
      rw [own.1]
      exact (place.beyond first (unchanged ▸ isFirst)).2
  case listed => exact fun each => List.mem_cons
  case others =>
    intro other ne
    simpa [atFirst, ne] using inv.lists other
  case sameKey => rfl
  case sameFirst => rfl
  case sameLinks => exact fun _ _ => rfl

theorem linkBehind (behind : Behind children trie.key cursor)
    (unchanged : trie.brotherNode cursor.prev = cursor.prevNext) :
    Links trie pcs root nodes cells children tid cursor tnode
      { trie with
        brotherNode :=
          update trie.brotherNode cursor.prev (some tnode) } := by
  rcases inv.standing here with ⟨⟨-, place⟩, own, -⟩
  have hand : (pcs tid).hand = some tnode := by rw [here]; rfl
  have loose := (inv.heldLoose hand).1
  have grown := (inv.lists cursor.parrent).insert_behind behind.prev
    (loose.notChild cursor.parrent) (own.2.trans unchanged.symm)
    (own.1 ▸ behind.less) (by
      intro following link
      rw [own.1]
      exact (place.beyond following (unchanged ▸ link)).2)
  rcases grown with ⟨list, longer, listed⟩
  apply inv.linkChild here longer listed
  case others =>
    intro other ne
    apply (inv.lists other).congr _ fun _ _ => rfl
    intro node mem
    apply update_of_ne
    rintro rfl
    exact ne (inv.unique mem behind.prev)
  case sameKey => rfl
  case sameFirst => rfl
  case sameLinks =>
    intro node notChild
    apply update_of_ne
    rintro rfl
    exact notChild _ behind.prev

end

theorem linkCas : Keeps trie pcs root nodes children tid outcome := by
  rcases inv.standing here with ⟨⟨cursorOk, place⟩, own, -⟩
  have hand : (pcs tid).hand = some tnode := by rw [here]; rfl
  simp only [here, insertStep] at stepped
  split at stepped
  · next atFirst =>
      split at stepped
      · next unchanged =>
          cases stepped
          rcases inv.linkFront here atFirst (atFirst ▸ unchanged) with
            ⟨grown, kept, -⟩
          exact ⟨cells, grown, kept⟩
      · cases stepped
        exact inv.move hand.symm rfl ⟨⟨cursorOk.1, cursorOk.2⟩, .inl atFirst⟩
          own.1
  · next inside =>
      have behind := place.entry.resolve_left inside
      split at stepped
      · next unchanged =>
          cases stepped
          rcases inv.linkBehind here behind unchanged with
            ⟨grown, kept, -⟩
          exact ⟨cells, grown, kept⟩
      · cases stepped
        refine inv.move hand.symm rfl
          ⟨⟨cursorOk.1, cursorOk.2⟩, .inr ⟨behind.1, behind.2, ?_⟩⟩ own.1
        intro next link
        exact ((inv.lists cursor.parrent).next_mem behind.prev link).1

end

/-! ### `tnode_pop` -/

omit inv stepped in
/-- What `tnode_pop` leaves behind when the pool is not empty. -/
theorem pop {rest : List Node}
    (inv : TrieInv trie pcs root nodes (tnode :: rest) children)
    (here : pcs tid = .popLoad cursor) :
    TrieInv
      { trie with
        first := trie.brotherNode tnode
        nodelistCounter := trie.nodelistCounter - 1
        brotherNode := update trie.brotherNode tnode none }
      (update pcs tid (.storeKey cursor tnode)) root nodes rest
      children := by
  rcases inv.standing here with ⟨holds, -, hand⟩
  have taken : TrieInv { trie with first := trie.brotherNode tnode }
        (update pcs tid (.popClear cursor tnode)) root nodes
        rest children :=
    inv.take hand.symm rfl holds trivial
  have held : (update pcs tid (.popClear cursor tnode)
      tid).hand = some tnode := by
    rw [update_self]
    rfl
  rw [← update_twice (.popClear cursor tnode)]
  apply And.left
  exact taken.writeBrother held rfl rfl holds trivial

omit stepped in
/-- The whole of `tnode_pop` in one step. -/
theorem popAtomic (here : pcs tid = .popLoad cursor) :
    Keeps trie pcs root nodes children tid (tnodePop trie cursor) := by
  rcases inv.standing here with ⟨holds, -, hand⟩
  rw [tnodePop]
  split
  · exact inv.move hand rfl (by simp [PathOk]) trivial
  · next tnode first =>
      have pool := inv.pool
      rw [first] at pool
      rcases pool.exists_cons with ⟨rest, rfl, -⟩
      exact ⟨rest, children, inv.pop here, Grows.refl⟩

theorem popCas {original : Node} {next : Option Node}
    (here : pcs tid = .popCas cursor original next)
    (safe : trie.first = some original → next = trie.brotherNode original) :
    Keeps trie pcs root nodes children tid outcome := by
  rcases inv.standing here with ⟨holds, -, hand⟩
  simp only [here, insertStep] at stepped
  split at stepped
  · next first =>
      cases stepped
      have pool := inv.pool
      rw [first] at pool
      rcases pool.exists_cons with ⟨rest, rfl, -⟩
      rw [safe first]
      exact ⟨rest, children, inv.take hand.symm rfl holds trivial, Grows.refl⟩
  · cases stepped
    exact inv.move hand rfl holds trivial

/-! ### `tnode_push` -/

omit stepped in
/-- The whole of `tnode_push` in one step. -/
theorem pushAtomic (here : pcs tid = .pushLoad cursor tnode) :
    Keeps trie pcs root nodes children tid (tnodePush trie cursor tnode) := by
  rcases inv.standing here with ⟨holds, -, hand⟩
  have stored : TrieInv
        { trie with
          brotherNode := update trie.brotherNode tnode trie.first }
        (update pcs tid (.pushTest cursor tnode trie.first))
        root nodes cells children := by
    apply And.left
    exact inv.writeBrother hand.symm rfl rfl holds (update_self ..)
  apply stored.then_keeps rfl
  intro linked
  have given : TrieInv
        { trie with
          first := some tnode
          brotherNode := update trie.brotherNode tnode trie.first }
        (update (update pcs tid (.pushTest cursor tnode trie.first))
          tid (.pushCount cursor))
        root nodes (tnode :: cells) children := by
    refine linked.give ?_ rfl (update_self ..) holds trivial
    rw [update_self]
    rfl
  apply given.then_keeps rfl
  intro counted
  refine counted.move ?_ rfl (insertNext_pathOk holds.1 holds.2)
    insertNext_handOk
  rw [update_self]
  exact insertNext_hand

theorem pushTest {original : Option Node}
    (here : pcs tid = .pushTest cursor tnode original) :
    Keeps trie pcs root nodes children tid outcome := by
  rcases inv.standing here with ⟨holds, link, hand⟩
  simp only [here, insertStep] at stepped
  split at stepped
  · split at stepped
    · next first =>
        cases stepped
        refine ⟨tnode :: cells, children,
          inv.give hand.symm (if_pos first.symm) ?_ holds ?_, Grows.refl⟩
        · exact link.trans first.symm
        · exact fun ne => absurd first.symm ne
    · next moved =>
        cases stepped
        have still : (TriePc.pushReload cursor tnode original
            trie.first).hand = some tnode :=
          if_neg fun same => moved same.symm
        exact inv.move (still.trans hand) rfl holds fun _ => link
  · cases stepped
    exact inv.move hand rfl holds ⟨link, link⟩

theorem pushCas {original loaded : Option Node}
    (here : pcs tid = .pushCas cursor tnode original loaded) :
    Keeps trie pcs root nodes children tid outcome := by
  rcases inv.standing here with ⟨holds, ⟨link, rfl⟩, hand⟩
  simp only [here, insertStep, if_true] at stepped
  split at stepped
  · next first =>
      cases stepped
      exact ⟨tnode :: cells, children,
        inv.give hand.symm rfl (link.trans first.symm) holds trivial,
        Grows.refl⟩
  · next moved =>
      rw [if_neg fun same => moved same.symm] at stepped
      cases stepped
      exact inv.move hand rfl holds trivial

theorem pushReload {original returned : Option Node}
    (here : pcs tid = .pushReload cursor tnode original returned)
    (safe : original = returned → trie.brotherNode tnode = returned) :
    Keeps trie pcs root nodes children tid outcome := by
  rcases inv.standing here with ⟨holds, link, hand⟩
  simp only [here, insertStep] at stepped
  by_cases won : original = returned
  · rw [if_pos (safe won)] at stepped
    cases stepped
    rw [TriePc.hand, if_pos won] at hand
    exact inv.move hand rfl holds trivial
  · have lost : trie.brotherNode tnode ≠ returned := by
      rw [link won]
      exact won
    rw [if_neg lost] at stepped
    cases stepped
    rw [TriePc.hand, if_neg won] at hand
    exact inv.move hand rfl holds trivial

/-! ### All steps -/

/-- Every step of an insertion keeps the invariant, unless a
compare-and-swap of the pool was fooled. -/
theorem insertStep (safe : PoolSafe trie (pcs tid)) :
    Keeps trie pcs root nodes children tid outcome := by
  have moved := stepped
  generalize here : pcs tid = pc at stepped safe
  rcases inv.standing here with ⟨holds, own, hand⟩
  cases pc
  case readFirst => exact inv.readFirst moved here
  case firstGreater => exact inv.firstGreater moved here
  case firstLess => exact inv.firstLess moved here
  case readBrother => exact inv.readBrother moved here
  case nextLess => exact inv.nextLess moved here
  case nextGreater => exact inv.nextGreater moved here
  case readSub => exact inv.readSub moved here
  case storeKey => exact inv.storeKey moved here
  case linkCas => exact inv.linkCas moved here
  case popCas => exact inv.popCas moved here safe
  case pushTest => exact inv.pushTest moved here
  case pushCas => exact inv.pushCas moved here
  case pushReload => exact inv.pushReload moved here safe
  case clearBrother | popClear =>
    cases stepped
    exact ⟨cells, children, inv.writeBrother hand.symm rfl rfl holds trivial⟩
  case storeBrother =>
    cases stepped
    exact ⟨cells, children, inv.writeBrother hand.symm rfl rfl holds
      ⟨own, update_self ..⟩⟩
  case pushStore =>
    cases stepped
    exact ⟨cells, children, inv.writeBrother hand.symm rfl rfl holds
      (update_self ..)⟩
  case loadSub =>
    cases stepped
    exact inv.move hand rfl ⟨⟨holds.1.1, holds.1.2⟩, holds.2⟩ trivial
  case countNode | pushCount =>
    cases stepped
    exact inv.move (insertNext_hand.trans hand) rfl
      (insertNext_pathOk holds.1 holds.2) insertNext_handOk
  case popLoad =>
    cases mode with
    | atomic =>
      cases stepped
      exact inv.popAtomic here
    | stepwise =>
      cases stepped
      exact inv.move hand rfl holds trivial
  case pushLoad =>
    cases mode with
    | atomic =>
      cases stepped
      exact inv.pushAtomic here
    | stepwise =>
      cases stepped
      exact inv.move hand rfl holds trivial
  case popTest =>
    simp only [MemTrie.insertStep] at stepped
    split at stepped
    · cases stepped
      exact inv.move hand rfl (by simp [PathOk]) trivial
    · cases stepped
      exact inv.move hand rfl holds trivial
  case popNext original =>
    cases original with
    | none => simp [MemTrie.insertStep] at stepped
    | some original =>
      cases stepped
      exact inv.move hand rfl holds trivial
  case popCount =>
    cases stepped
    exact inv.move hand rfl holds trivial
  all_goals simp [MemTrie.insertStep] at stepped

section

omit stepped

theorem searchNext_keeps {inStr : List Byte} {pos : Nat} {node : Node}
    (empty : (pcs tid).hand = none) :
    Keeps trie pcs root nodes children tid
      ⟨trie, searchNext inStr pos node, events⟩ := by
  rw [searchNext]
  split
  · exact inv.move empty.symm rfl trivial trivial
  · exact inv.move empty.symm rfl trivial trivial

theorem searchTest_keeps {inStr : List Byte} {pos : Nat} {tmp : Option Node}
    (empty : (pcs tid).hand = none) :
    Keeps trie pcs root nodes children tid
      ⟨trie, searchTest inStr pos tmp, events⟩ := by
  cases tmp with
  | none | some => exact inv.move empty.symm rfl trivial trivial

theorem searchStep (here : pcs tid = pc)
    (stepped : searchStep tid trie pc = some outcome) :
    Keeps trie pcs root nodes children tid outcome := by
  rcases inv.standing here with ⟨-, -, hand⟩
  cases pc
  case searchFirst =>
    cases stepped
    exact inv.searchTest_keeps hand.symm
  case searchGreater =>
    cases stepped
    split
    · exact inv.move hand rfl trivial trivial
    · exact inv.move hand rfl trivial trivial
  case searchLess =>
    cases stepped
    split
    · exact inv.move hand rfl trivial trivial
    · exact inv.searchNext_keeps hand.symm
  case searchBrother =>
    cases stepped
    exact inv.searchTest_keeps hand.symm
  all_goals simp [MemTrie.searchStep] at stepped

theorem trieCall (here : pcs tid = .idle) (call : TrieCall) :
    Keeps trie pcs root nodes children tid (trieCall root tid trie call) := by
  rcases inv.standing here with ⟨-, -, hand⟩
  cases call with
  | insert inStr =>
    rw [MemTrie.trieCall]
    split
    · next more =>
        exact inv.move hand rfl ⟨⟨more, rfl⟩, .inl rfl⟩ trivial
    · next empty =>
        have nothing : inStr = [] :=
          List.length_eq_zero_iff.1 (Nat.eq_zero_of_not_pos empty)
        subst nothing
        exact inv.move hand rfl (fun _ => ⟨root, rfl⟩) trivial
  | search inStr => exact inv.searchNext_keeps hand.symm

end

end TrieInv

theorem of_orElse {α : Type} (first : Option α) (second : Unit → Option α)
    {value : α} (chosen : first.orElse second = some value) :
    first = some value ∨ second () = some value := by
  cases first with
  | none => exact .inr chosen
  | some other => exact .inl chosen

theorem trieMachine_step {mode : PoolMode} {root : Node} {tid : Tid}
    {action : TrieAction} {trie : TrieState Node} {pc : TriePc Node}
    {outcome : TrieOutcome Tid Node}
    (stepped : (trieMachine mode root).step tid action trie pc = some outcome) :
    (pc = .idle ∧ ∃ call, action = .call call ∧
          outcome = trieCall root tid trie call) ∨
      (∃ call result, pc = .finish call result ∧
        outcome = ⟨trie, .idle, [.returned tid call result]⟩) ∨
      insertStep mode action trie pc = some outcome ∨
      searchStep tid trie pc = some outcome := by
  cases action with
  | call call =>
    cases pc
    case idle =>
      cases stepped
      exact .inl ⟨rfl, call, rfl, rfl⟩
    all_goals simp [trieMachine] at stepped
  | run | swapFirst =>
    cases pc
    case idle => simp [trieMachine] at stepped
    case finish call result =>
      cases stepped
      exact .inr (.inl ⟨call, result, rfl, rfl⟩)
    all_goals exact .inr (.inr (of_orElse (insertStep mode _ trie _)
        (fun _ => searchStep tid trie _) stepped))

theorem TrieInv.step [DecidableEq Tid] {mode : PoolMode} {root : Node}
    {nodes cells : List Node} {children : Node → List Node} {tid : Tid}
    {action : TrieAction} {trie : TrieState Node} {pcs : Tid → TriePc Node}
    {outcome : TrieOutcome Tid Node}
    (inv : TrieInv trie pcs root nodes cells children)
    (safe : PoolSafe trie (pcs tid))
    (stepped : (trieMachine mode root).step tid action trie
      (pcs tid) = some outcome) :
    Keeps trie pcs root nodes children tid outcome := by
  rcases trieMachine_step stepped with
    ⟨idle, call, -, rfl⟩ | ⟨call, result, here, rfl⟩ | inserting | searching
  · exact inv.trieCall idle call
  · have hand : (pcs tid).hand = none := by rw [here]; rfl
    exact inv.move hand.symm rfl trivial trivial
  · exact inv.insertStep inserting safe
  · exact inv.searchStep rfl searching

theorem TrieInv.start {root : Node} {nodes : List Node}
    {brotherNode : Node → Option Node} {key : Node → Byte} {first : Option Node}
    {nodelistCounter counter : UInt64} (chain : Linked brotherNode first nodes)
    (apart : root ∉ nodes) :
    TrieInv ((trieStart brotherNode key first nodelistCounter counter :
        Config Tid (TrieState Node) (TriePc Node))).shared
      (fun _ : Tid => .idle) root nodes nodes fun _ => [] where
  pool := chain
  lists := fun _ => ⟨rfl, List.Pairwise.nil⟩
  unique := fun mem => absurd mem List.not_mem_nil
  notOwn := fun _ => List.not_mem_nil
  rootless := fun _ => List.not_mem_nil
  rooted := fun mem => absurd mem List.not_mem_nil
  poolLoose := fun node mem =>
    ⟨ne_of_mem_of_not_mem mem apart, fun _ => List.not_mem_nil, rfl⟩
  heldLoose := fun held => by simp [TriePc.hand] at held
  heldOnce := fun held => by simp [TriePc.hand] at held
  conserved := fun _ mem => .inl mem
  pathOk := fun _ => trivial
  handOk := fun _ => trivial

end

end Lockfreec.Advance.MemTrie
