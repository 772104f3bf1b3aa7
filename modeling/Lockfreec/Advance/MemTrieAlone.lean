import Lockfreec.Advance.MemTrieSteps
import Lockfreec.Lib.Solo

/-!
# The functions of the trie, run by one thread

What `get_subnode_by_label`, `search_subnode_by_label`, `tnode_pop` and
`lf_trie_insert_node` do when nobody else touches the trie: where they go
next, and what they have then written.
-/

namespace Lockfreec.Advance.MemTrie

open Lib.Chain Lib.Interleaving Lib.SortedChain

variable {Node : Type} [DecidableEq Node]

/-- The trie with its only thread. -/
abbrev soloTrie (root : Node) :
    Machine Unit TrieAction (TrieState Node) (TriePc Node) (TrieEvent Unit) :=
  trieMachine .stepwise root

/-- The thread gets to the goal. -/
abbrev Alone (root : Node) (goal : TrieState Node → TriePc Node → Prop) :
    TrieState Node → TriePc Node → Prop :=
  (soloTrie root).Leads () .run goal

variable {root : Node} {goal : TrieState Node → TriePc Node → Prop}
  {trie after : TrieState Node} {pc next : TriePc Node}

/-! ## Single steps -/

theorem alone_insertStep (step : ∀ action,
      (insertStep .stepwise action trie pc :
        Option (TrieOutcome Unit Node)) = some ⟨after, next, []⟩)
    (rest : Alone root goal after next) : Alone root goal trie pc := by
  have taken : ∀ action, action = .run ∨ action = .swapFirst →
      (soloTrie root).step () action trie pc = some ⟨after, next, []⟩ := by
    intro action running
    have inserting := step action
    cases pc
    case idle | finish => simp [insertStep] at inserting
    all_goals
      rcases running with rfl | rfl
      all_goals simp only [trieMachine, inserting, Option.orElse_some]
  refine .step ⟨_, taken .run (.inl rfl)⟩ ?_
  intro action outcome arrived
  cases action with
  | call call =>
    have inserting := step .run
    cases pc
    case idle => simp [insertStep] at inserting
    all_goals simp [trieMachine] at arrived
  | run =>
    rw [taken .run (.inl rfl)] at arrived
    cases arrived
    exact rest
  | swapFirst =>
    rw [taken .swapFirst (.inr rfl)] at arrived
    cases arrived
    exact rest

theorem alone_searchStep
    (step : searchStep () trie pc = some ⟨trie, next, [.accessed ()]⟩)
    (rest : Alone root goal trie next) : Alone root goal trie pc := by
  have taken : ∀ action, action = .run ∨ action = .swapFirst →
      (soloTrie root).step () action trie pc =
        some ⟨trie, next, [.accessed ()]⟩ := by
    intro action running
    cases pc
    case searchFirst | searchGreater | searchLess | searchBrother =>
      rcases running with rfl | rfl
      · exact step
      · exact step
    all_goals simp [searchStep] at step
  refine .step ⟨_, taken .run (.inl rfl)⟩ ?_
  intro action outcome arrived
  cases action with
  | call call =>
    cases pc
    case idle => simp [searchStep] at step
    all_goals simp [trieMachine] at arrived
  | run =>
    rw [taken .run (.inl rfl)] at arrived
    cases arrived
    exact rest
  | swapFirst =>
    rw [taken .swapFirst (.inr rfl)] at arrived
    cases arrived
    exact rest

theorem alone_finish {call : TrieCall} {result : TrieRet}
    (rest : Alone root goal trie .idle) :
    Alone root goal trie (.finish call result) := by
  refine .step ⟨_, rfl⟩ ?_
  intro action outcome arrived
  cases action with
  | call call => cases arrived
  | run | swapFirst =>
    cases arrived
    exact rest

/-! ## `get_subnode_by_label` -/

/-- The label belongs between `prev` and `prev_next`, which are neighbours. -/
structure Gap (trie : TrieState Node) (list : List Node)
    (cursor : Cursor Node) : Prop where
  place : (cursor.prev = cursor.parrent ∧
        cursor.prevNext = trie.firstSubNode cursor.parrent) ∨
      (cursor.prev ∈ list ∧ trie.key cursor.prev < cursor.label ∧
        cursor.prevNext = trie.brotherNode cursor.prev)
  beyond : ∀ next, cursor.prevNext = some next → cursor.label < trie.key next

section

variable {list : List Node} {site : Site Node} {cursor : Cursor Node}

variable (chain : SortedLinked trie.brotherNode trie.key (trie.firstSubNode
  cursor.parrent) list)

include chain

omit [DecidableEq Node] in
theorem Gap.missing {child : Node} (gap : Gap trie list cursor)
    (mem : child ∈ list) : trie.key child ≠ cursor.label := by
  rcases gap.place with ⟨-, link⟩ | ⟨inside, less, link⟩
  · exact chain.not_mem_front (fun first isFirst =>
      gap.beyond first (link.trans isFirst)) mem
  · exact chain.not_mem_between inside less (fun following isNext =>
      gap.beyond following (link.trans isNext)) mem

omit [DecidableEq Node] in
/-- A gap stays one while nothing is written to the children. -/
theorem Gap.congr (gap : Gap trie list cursor)
    (sub : after.firstSubNode = trie.firstSubNode)
    (same : ∀ child ∈ list, after.brotherNode child = trie.brotherNode child ∧
        after.key child = trie.key child) :
    Gap after list cursor where
  place := by
    rcases gap.place with first | ⟨inside, less, link⟩
    · rw [sub]
      exact .inl first
    · rw [(same _ inside).1, (same _ inside).2]
      exact .inr ⟨inside, less, link⟩
  beyond := by
    intro next isNext
    have mem : next ∈ list := by
      rcases gap.place with ⟨-, link⟩ | ⟨inside, -, link⟩
      · exact chain.start_mem (link.symm.trans isNext)
      · exact (chain.next_mem inside (link.symm.trans isNext)).1
    rw [(same next mem).2]
    exact gap.beyond next isNext

omit chain in
/-- The loop over the brothers behind a child before the label. -/
theorem brothers_alone {back : List Node} {prev : Node}
    (chain : SortedLinked trie.brotherNode trie.key
      (trie.brotherNode prev) back)
    (inside : prev ∈ list) (within : ∀ child ∈ back, child ∈ list)
    (less : trie.key prev < cursor.label)
    (isFound : ∀ child ∈ list, trie.key child = cursor.label →
      Alone root goal trie (found site
        { cursor with
          prev := child, prevNext := trie.firstSubNode child }))
    (isMissing : ∀ prev prevNext,
      Gap trie list { cursor with prev := prev, prevNext := prevNext } →
      Alone root goal trie (notFound site
        { cursor with prev := prev, prevNext := prevNext }))
    (old : Option Node) :
    Alone root goal trie (.readBrother site
      { cursor with prev := prev, prevNext := old }) := by
  induction back generalizing prev old with
  | nil =>
    have last : trie.brotherNode prev = none := chain.linked
    refine alone_insertStep (fun _ => rfl) ?_
    rw [nextTest]
    simp only [last]
    apply isMissing prev none
    exact ⟨.inr ⟨inside, less, last.symm⟩, by simp⟩
  | cons following back induction =>
    have link : trie.brotherNode prev = some following := chain.linked.1
    have tail : SortedLinked trie.brotherNode trie.key
        (trie.brotherNode following) back :=
      ⟨chain.linked.2, (List.pairwise_cons.1 chain.sorted).2⟩
    have member := within following (.head _)
    refine alone_insertStep (fun _ => rfl) ?_
    rw [nextTest]
    simp only [link]
    rcases lt_trichotomy (trie.key following) cursor.label with
      before | same | behind
    · refine alone_insertStep (fun _ => if_pos before) ?_
      exact induction tail member
        (fun child isChild => within child (.tail _ isChild))
        before _
    · refine alone_insertStep (fun _ => if_neg same.not_lt) ?_
      refine alone_insertStep (fun _ => if_neg same.not_gt) ?_
      refine alone_insertStep (fun _ => rfl) ?_
      exact isFound following member same
    · refine alone_insertStep (fun _ => if_neg behind.not_gt) ?_
      refine alone_insertStep (fun _ => if_pos behind) ?_
      apply isMissing prev (some following)
      refine ⟨.inr ⟨inside, less, link.symm⟩, ?_⟩
      rintro next ⟨⟩
      exact behind

/-- `get_subnode_by_label` finds the child with the label, or the place where
such a child belongs. -/
theorem getSubnodeByLabel_alone
    (entry : cursor.prev = cursor.parrent ∨ Gap trie list cursor)
    (isFound : ∀ child ∈ list, trie.key child = cursor.label →
      Alone root goal trie (found site
        { cursor with
          prev := child, prevNext := trie.firstSubNode child }))
    (isMissing : ∀ prev prevNext,
      Gap trie list { cursor with prev := prev, prevNext := prevNext } →
      Alone root goal trie (notFound site
        { cursor with prev := prev, prevNext := prevNext })) :
    Alone root goal trie (.readFirst site cursor) := by
  cases start : trie.firstSubNode cursor.parrent with
  | none =>
    refine alone_insertStep (fun _ => by rw [insertStep, start]) ?_
    apply isMissing cursor.parrent none
    exact ⟨.inl ⟨rfl, start.symm⟩, by simp⟩
  | some tmp =>
    have member := chain.start_mem start
    refine alone_insertStep (fun _ => by rw [insertStep, start]) ?_
    rcases lt_trichotomy (trie.key tmp) cursor.label with
      before | same | behind
    · refine alone_insertStep (fun _ => if_neg before.not_gt) ?_
      by_cases atParent : cursor.prev = cursor.parrent
      · refine alone_insertStep
          (fun _ => (if_pos before).trans (if_pos atParent)) ?_
        rw [start] at chain
        rcases chain.linked.exists_cons with ⟨back, rfl, -⟩
        exact brothers_alone
          ⟨chain.linked.2, (List.pairwise_cons.1 chain.sorted).2⟩ member
          (fun child isChild => .tail _ isChild) before
          isFound isMissing _
      · -- the cursor still stands where the failed search left it
        have gap := entry.resolve_left atParent
        refine alone_insertStep
          (fun _ => (if_pos before).trans (if_neg atParent)) ?_
        have resumed := isMissing cursor.prev cursor.prevNext gap
        rw [nextTest]
        split
        · exact resumed
        · next following isNext =>
            have beyond := gap.beyond following isNext
            refine alone_insertStep (fun _ => if_neg beyond.not_gt) ?_
            exact alone_insertStep (fun _ => if_pos beyond) resumed
    · refine alone_insertStep (fun _ => if_neg same.not_gt) ?_
      refine alone_insertStep (fun _ => if_neg same.not_lt) ?_
      refine alone_insertStep (fun _ => rfl) ?_
      exact isFound tmp member same
    · refine alone_insertStep (fun _ => if_pos behind) ?_
      apply isMissing cursor.parrent (some tmp)
      refine ⟨.inl ⟨rfl, start.symm⟩, ?_⟩
      rintro next ⟨⟩
      exact behind

end

/-! ## `search_subnode_by_label` -/

section

variable {inStr : List Byte} {pos : Nat}

theorem searchTest_alone {list : List Node} {start : Option Node}
    (chain : SortedLinked trie.brotherNode trie.key start list)
    (isFound : ∀ child ∈ list, trie.key child = inStr.getD pos 0 →
      Alone root goal trie (searchNext inStr (pos + 1) child))
    (isMissing : (∀ child ∈ list, trie.key child ≠ inStr.getD pos 0) →
      Alone root goal trie (.finish (.search inStr) .searchError)) :
    Alone root goal trie (searchTest inStr pos start) := by
  induction list generalizing start with
  | nil =>
    have none : start = none := chain.linked
    subst none
    exact isMissing (by simp)
  | cons tmp list induction =>
    have first : start = some tmp := chain.linked.1
    subst first
    have sorted := List.pairwise_cons.1 chain.sorted
    show Alone root goal trie (.searchGreater inStr pos tmp)
    rcases lt_trichotomy (trie.key tmp) (inStr.getD pos 0) with
      before | same | behind
    · refine alone_searchStep (by rw [searchStep, if_neg before.not_gt]) ?_
      refine alone_searchStep (by rw [searchStep, if_pos before]) ?_
      refine alone_searchStep rfl ?_
      apply induction ⟨chain.linked.2, sorted.2⟩
      · intro child isChild
        exact isFound child (.tail _ isChild)
      · intro none
        apply isMissing
        intro child isChild
        rcases List.mem_cons.1 isChild with rfl | inList
        · exact before.ne
        · exact none child inList
    · refine alone_searchStep (by rw [searchStep, if_neg same.not_gt]) ?_
      refine alone_searchStep (by rw [searchStep, if_neg same.not_lt]) ?_
      exact isFound tmp (.head _) same
    · refine alone_searchStep (by rw [searchStep, if_pos behind]) ?_
      apply isMissing
      intro child isChild
      rcases List.mem_cons.1 isChild with rfl | inList
      · exact behind.ne'
      · exact (behind.trans (sorted.1 child inList)).ne'

/-- `search_subnode_by_label` finds the child with the label. -/
theorem searchSubnodeByLabel_alone {list : List Node} {node : Node}
    (chain : SortedLinked trie.brotherNode trie.key
      (trie.firstSubNode node) list)
    (isFound : ∀ child ∈ list, trie.key child = inStr.getD pos 0 →
      Alone root goal trie (searchNext inStr (pos + 1) child))
    (isMissing : (∀ child ∈ list, trie.key child ≠ inStr.getD pos 0) →
      Alone root goal trie (.finish (.search inStr) .searchError)) :
    Alone root goal trie (.searchFirst inStr pos node) :=
  alone_searchStep rfl (searchTest_alone chain isFound isMissing)

end

/-! ## `tnode_pop` -/

theorem tnodePop_alone {cursor : Cursor Node} (popped : Alone root goal
      (tnodePop trie cursor : TrieOutcome Unit Node).shared
      (tnodePop trie cursor : TrieOutcome Unit Node).thread) :
    Alone root goal trie (.popLoad cursor) := by
  refine alone_insertStep (fun _ => rfl) ?_
  cases first : trie.first with
  | none =>
    rw [tnodePop, first] at popped
    exact alone_insertStep (fun _ => if_pos first) popped
  | some tnode =>
    have notEmpty : trie.first ≠ none := by simp [first]
    rw [tnodePop, first] at popped
    refine alone_insertStep (fun _ => if_neg notEmpty) ?_
    refine alone_insertStep (fun _ => rfl) ?_
    refine alone_insertStep (fun _ => if_pos first) ?_
    refine alone_insertStep (fun _ => rfl) ?_
    exact alone_insertStep (fun _ => rfl) popped

end Lockfreec.Advance.MemTrie
