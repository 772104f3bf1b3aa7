import Lockfreec.Advance.MemTriePool
import Lockfreec.Lib.History

/-!
# Inserted strings are found

With atomic pool operations no step needs a guard.  The trie only grows, so a
string that an insertion has returned for stays spelled by a path.  A search
for a prefix of it never passes the next node of that path: the keys along the
list of brothers increase, so it meets the node after at most 256 brothers.
-/

namespace Lockfreec.Advance.MemTrie

open Function Lib.Chain Lib.History Lib.Interleaving Lib.SortedChain

variable {Tid Node : Type}

/-! ## Atomic pool operations -/

/-- The program points outside a step-by-step pop or push. -/
def OutsidePool : TriePc Node → Prop
  | .popTest _ _ | .popNext _ _ | .popCas _ _ _ | .popCount _ _
  | .popClear _ _ | .pushStore _ _ _ | .pushTest _ _ _ | .pushCas _ _ _ _
  | .pushReload _ _ _ _ | .pushCount _ => False
  | _ => True

section

variable {site : Site Node} {cursor : Cursor Node} {node : Node}

@[simp]
theorem notFound_outsidePool : OutsidePool (notFound site cursor) := by
  cases site <;> trivial

@[simp]
theorem nextTest_outsidePool : OutsidePool (nextTest site cursor) := by
  rw [nextTest]
  split
  · exact notFound_outsidePool
  · trivial

@[simp]
theorem insertNext_outsidePool : OutsidePool (insertNext cursor node) := by
  rw [insertNext]
  split <;> trivial

@[simp]
theorem found_outsidePool : OutsidePool (found site cursor) := by
  cases site with
  | lookup =>
    rw [found, lookupNext]
    split <;> trivial
  | insertNode tnode => trivial

@[simp]
theorem searchNext_outsidePool {inStr : List Byte} {pos : Nat} :
    OutsidePool (searchNext inStr pos node) := by
  rw [searchNext]
  split <;> trivial

@[simp]
theorem searchTest_outsidePool {inStr : List Byte} {pos : Nat}
    {tmp : Option Node} : OutsidePool (searchTest inStr pos tmp) := by
  cases tmp <;> trivial

end

section

variable [DecidableEq Node] {tid : Tid} {action : TrieAction}
  {trie : TrieState Node} {pc : TriePc Node} {outcome : TrieOutcome Tid Node}
  {root : Node}

theorem insertStep_outsidePool (outside : OutsidePool pc)
    (step : insertStep .atomic action trie pc = some outcome) :
    OutsidePool outcome.thread := by
  cases pc
  all_goals try exact absurd outside id
  all_goals simp only [insertStep, tnodePop, tnodePush] at step
  all_goals repeat' split at step
  all_goals cases step
  all_goals first
    | trivial
    | simp

omit [DecidableEq Node] in
theorem searchStep_outsidePool (step : searchStep tid trie pc = some outcome) :
    OutsidePool outcome.thread := by
  cases pc
  all_goals simp only [searchStep] at step
  all_goals cases step
  all_goals try split
  all_goals first
    | trivial
    | simp

omit [DecidableEq Node] in
theorem trieCall_outsidePool (call : TrieCall) :
    OutsidePool (trieCall root tid trie call).thread := by
  cases call with
  | insert inStr =>
    rw [trieCall]
    split <;> trivial
  | search inStr => exact searchNext_outsidePool

theorem OutsidePool.step (outside : OutsidePool pc)
    (step : (trieMachine .atomic root).step tid action trie pc = some outcome) :
    OutsidePool outcome.thread := by
  rcases trieMachine_step step with
    ⟨-, call, -, rfl⟩ | ⟨call, result, -, rfl⟩ | inserting | searching
  · exact trieCall_outsidePool call
  · trivial
  · exact insertStep_outsidePool outside inserting
  · exact searchStep_outsidePool searching

omit [DecidableEq Node] in
theorem OutsidePool.safe (outside : OutsidePool pc) : PoolSafe trie pc := by
  cases pc
  case popCas => exact absurd outside id
  case pushReload => exact absurd outside id
  all_goals trivial

end

/-! ## Growing tries -/

section

variable [DecidableEq Tid] [DecidableEq Node] {root : Node} {nodes : List Node}
  {config later : Config Tid (TrieState Node) (TriePc Node)}
  {rest : List (TrieEvent Tid)}

/-- The invariant of the trie with atomic pool operations. -/
structure AtomicInv (config : Config Tid (TrieState Node) (TriePc Node))
    (root : Node) (nodes cells : List Node) (children : Node → List Node) :
    Prop where
  trie : TrieInv config.shared config.threads root nodes cells children
  outside : ∀ thread, OutsidePool (config.threads thread)

theorem AtomicInv.step {cells : List Node} {children : Node → List Node}
    {tid : Tid} {action : TrieAction} {outcome : TrieOutcome Tid Node}
    (inv : AtomicInv config root nodes cells children)
    (step : (trieMachine .atomic root).step tid action config.shared
      (config.threads tid) = some outcome) :
    ∃ left grown, AtomicInv (config.advance tid outcome) root nodes left grown ∧
        Grows children config.shared.key grown outcome.shared.key := by
  rcases inv.trie.step (inv.outside tid).safe step with
    ⟨left, grown, kept, grows⟩
  refine ⟨left, grown, ⟨kept, ?_⟩, grows⟩
  apply forall_update
  · exact (inv.outside tid).step step
  · exact fun other _ => inv.outside other

theorem AtomicInv.run {cells : List Node} {children : Node → List Node}
    (inv : AtomicInv config root nodes cells children)
    (run : (trieMachine .atomic root).Run config rest later) :
    ∃ left grown, AtomicInv later root nodes left grown ∧
        Grows children config.shared.key grown later.shared.key := by
  apply run.invariant fun _ later => ∃ left grown,
    AtomicInv later root nodes left grown ∧
      Grows children config.shared.key grown later.shared.key
  · exact ⟨cells, children, inv, Grows.refl⟩
  · rintro _ middle tid action outcome ⟨left, grown, kept, grows⟩ - step
    rcases kept.step step with ⟨last, larger, finished, further⟩
    exact ⟨last, larger, finished, grows.trans further⟩

end

/-! ## Searches -/

/-- A brother on the way to the child with the label at `pos`, below which the
rest of the string is spelled. -/
def Approaching (children : Node → List Node) (key : Node → Byte)
    (inStr : List Byte) (pos : Nat) (tmp : Node) : Prop :=
  ∃ parent child target, tmp ∈ children parent ∧ child ∈ children parent ∧
      key child = inStr.getD pos 0 ∧ key tmp ≤ key child ∧
      Spells children key (inStr.drop (pos + 1)) child target

/-- The number of accesses that the search for one label makes at most: one
to the first child and three to each of the brothers. -/
def labelAccesses : Nat := 1 + 3 * 256

theorem label_bound {pos length : Nat} (within : pos < length) (label : Byte) :
    labelAccesses * pos + 3 * label.val + 3 ≤ labelAccesses * length := by
  have whole : labelAccesses * (pos + 1) ≤ labelAccesses * length :=
    Nat.mul_le_mul_left labelAccesses within
  have small := label.isLt
  simp only [labelAccesses] at whole ⊢
  omega

/-- A search that will succeed, with the number of its accesses so far. -/
def OnTrack (children : Node → List Node) (key : Node → Byte)
    (inStr : List Byte) (accesses : Nat) : TriePc Node → Prop
  | .searchFirst searched pos node =>
    searched = inStr ∧ pos < inStr.length ∧
      (∃ target, Spells children key (inStr.drop pos) node target) ∧
      accesses ≤ labelAccesses * pos
  | .searchGreater searched pos tmp =>
    searched = inStr ∧ pos < inStr.length ∧
      Approaching children key inStr pos tmp ∧
      accesses ≤ labelAccesses * pos + 3 * (key tmp).val + 1
  | .searchLess searched pos tmp =>
    searched = inStr ∧ pos < inStr.length ∧
      Approaching children key inStr pos tmp ∧
      accesses ≤ labelAccesses * pos + 3 * (key tmp).val + 2
  | .searchBrother searched pos tmp =>
    searched = inStr ∧ pos < inStr.length ∧
      Approaching children key inStr pos tmp ∧
      key tmp < inStr.getD pos 0 ∧
      accesses ≤ labelAccesses * pos + 3 * (key tmp).val + 3
  | .finish call result =>
    call = .search inStr ∧ result = .searchSuccess ∧
      accesses ≤ labelAccesses * inStr.length
  | _ => False

section

variable {children grown : Node → List Node} {key labels : Node → Byte}
  {inStr : List Byte} {pos accesses : Nat} {tmp : Node} {pc : TriePc Node}

theorem Approaching.mono (grows : Grows children key grown labels)
    (approaching : Approaching children key inStr pos tmp) :
    Approaching grown labels inStr pos tmp ∧ labels tmp = key tmp := by
  rcases approaching with
    ⟨parent, child, target, inside, mem, label, notPast, spells⟩
  rcases grows parent tmp inside with ⟨stillInside, sameTmp⟩
  rcases grows parent child mem with ⟨stillMember, sameChild⟩
  refine ⟨⟨parent, child, target, stillInside, stillMember, ?_, ?_, ?_⟩,
    sameTmp⟩
  · rw [sameChild, label]
  · rw [sameChild, sameTmp]
    exact notPast
  · exact spells.mono grows

theorem OnTrack.mono (grows : Grows children key grown labels)
    (onTrack : OnTrack children key inStr accesses pc) :
    OnTrack grown labels inStr accesses pc := by
  cases pc
  case searchFirst searched pos node =>
    rcases onTrack with ⟨same, within, ⟨target, spells⟩, few⟩
    exact ⟨same, within, ⟨target, spells.mono grows⟩, few⟩
  case searchGreater searched pos tmp =>
    rcases onTrack with ⟨same, within, approaching, few⟩
    rcases approaching.mono grows with ⟨still, label⟩
    exact ⟨same, within, still, label ▸ few⟩
  case searchLess searched pos tmp =>
    rcases onTrack with ⟨same, within, approaching, few⟩
    rcases approaching.mono grows with ⟨still, label⟩
    exact ⟨same, within, still, label ▸ few⟩
  case searchBrother searched pos tmp =>
    rcases onTrack with ⟨same, within, approaching, less, few⟩
    rcases approaching.mono grows with ⟨still, label⟩
    exact ⟨same, within, still, label ▸ less, label ▸ few⟩
  case finish call result => exact onTrack
  all_goals exact absurd onTrack id

/-- A search for a spelled string, before its next label. -/
theorem OnTrack.searchNext {node target : Node} (within : pos ≤ inStr.length)
    (spells : Spells children key (inStr.drop pos) node target)
    (few : accesses ≤ labelAccesses * pos) :
    OnTrack children key inStr accesses (searchNext inStr pos node) := by
  rw [MemTrie.searchNext]
  split
  · next more => exact ⟨rfl, more, ⟨target, spells⟩, few⟩
  · next last =>
      rw [Nat.le_antisymm within (Nat.le_of_not_lt last)] at few
      exact ⟨rfl, rfl, few⟩

/-- Each access of a search that is on its track keeps it there. -/
theorem OnTrack.step {trie : TrieState Node} {tid : Tid}
    {outcome : TrieOutcome Tid Node}
    (lists : ∀ parent,
      SortedLinked trie.brotherNode trie.key (trie.firstSubNode parent)
        (children parent))
    (onTrack : OnTrack children trie.key inStr accesses pc)
    (step : searchStep tid trie pc = some outcome) :
    OnTrack children trie.key inStr (accesses + 1) outcome.thread := by
  cases pc
  case searchFirst searched pos node =>
    rcases onTrack with ⟨rfl, within, ⟨target, spells⟩, few⟩
    rw [List.drop_eq_getElem_cons within] at spells
    rcases spells with ⟨child, mem, label, tail⟩
    rcases (lists node).exists_start mem with
      ⟨first, isFirst, inside, notPast⟩
    cases step
    rw [isFirst]
    refine ⟨rfl, within, ⟨node, child, target, inside, mem, ?_, notPast,
      tail⟩, by omega⟩
    simp [label, within]
  case searchGreater searched pos tmp =>
    rcases onTrack with ⟨rfl, within, approaching, few⟩
    have notGreater : ¬ searched.getD pos 0 < trie.key tmp := by
      rcases approaching with ⟨_, child, _, -, -, label, notPast, -⟩
      rw [← label]
      exact not_lt.2 notPast
    cases step
    rw [if_neg notGreater]
    exact ⟨rfl, within, approaching, by omega⟩
  case searchLess searched pos tmp =>
    rcases onTrack with ⟨rfl, within, approaching, few⟩
    cases step
    by_cases less : trie.key tmp < searched.getD pos 0
    · rw [if_pos less]
      exact ⟨rfl, within, approaching, less, by omega⟩
    · rw [if_neg less]
      rcases approaching with
        ⟨parent, child, target, inside, mem, label, notPast, tail⟩
      have same : trie.key tmp = trie.key child :=
        le_antisymm notPast (label ▸ not_lt.1 less)
      cases (lists parent).eq_of_key inside mem same
      apply OnTrack.searchNext within tail
      have bound := label_bound (Nat.lt_succ_self pos) (trie.key tmp)
      omega
  case searchBrother searched pos tmp =>
    rcases onTrack with ⟨rfl, within, approaching, less, few⟩
    rcases approaching with
      ⟨parent, child, target, inside, mem, label, -, tail⟩
    rcases (lists parent).exists_next inside mem (label ▸ less) with
      ⟨following, link, inList, later, notPast⟩
    cases step
    rw [link]
    refine ⟨rfl, within, ⟨parent, child, target, inList, mem, label,
      notPast, tail⟩, ?_⟩
    have larger : (trie.key tmp).val < (trie.key following).val := later
    omega
  all_goals simp [searchStep] at step

end

/-! ## Histories -/

/-- An insertion of a string that starts with `inStr` has returned. -/
def Inserted (history : List (TrieEvent Tid)) (inStr : List Byte) : Prop :=
  ∃ thread whole result, .returned thread (.insert whole) result ∈ history ∧
      (result = .insertSuccess ∨ result = .insertDuplication) ∧
      inStr <+: whole

/-- The thread has called the search and not returned from it. -/
def Searching (history : List (TrieEvent Tid)) (thread : Tid)
    (inStr : List Byte) (before since : List (TrieEvent Tid)) : Prop :=
  history = before ++ .called thread (.search inStr) :: since ∧
    ∀ call result, .returned thread call result ∉ since

section

variable [DecidableEq Tid] [DecidableEq Node]

/-- What the history says about the trie and the searches. -/
structure SearchInv (root : Node) (nodes : List Node)
    (history : List (TrieEvent Tid))
    (config : Config Tid (TrieState Node) (TriePc Node))
    (cells : List Node) (children : Node → List Node) : Prop where
  atomic : AtomicInv config root nodes cells children
  inserted : ∀ inStr, Inserted history inStr →
    ∃ target, Spells children config.shared.key inStr root target
  searching : ∀ thread inStr before since,
    Searching history thread inStr before since → Inserted before inStr →
      OnTrack children config.shared.key inStr
        (since.count (.accessed thread)) (config.threads thread)
  answered : ∀ thread inStr before since after result,
    history = before ++ .called thread (.search inStr) :: since ++
        .returned thread (.search inStr) result :: after →
      (∀ call result, .returned thread call result ∉ since) →
        Inserted before inStr → result = .searchSuccess

/-- The thread that an event is about. -/
def TrieEvent.actor : TrieEvent Tid → Tid
  | .called tid _ | .accessed tid | .returned tid _ _ => tid

variable {root : Node} {nodes cells : List Node} {children : Node → List Node}
  {config : Config Tid (TrieState Node) (TriePc Node)}
  {history : List (TrieEvent Tid)} {event : TrieEvent Tid} {tid : Tid}
  {action : TrieAction} {outcome : TrieOutcome Tid Node} {inStr : List Byte}

omit [DecidableEq Tid] in
theorem Searching.of_snoc {before since : List (TrieEvent Tid)} (searching :
      Searching (history ++ [event]) tid inStr before since) :
    (before = history ∧ since = [] ∧ event = .called tid (.search inStr)) ∨
      ∃ front, since = front ++ [event] ∧
        Searching history tid inStr before front ∧
        ∀ call result, event ≠ .returned tid call result := by
  rcases searching with ⟨split, open_⟩
  rcases List.eq_nil_or_concat since with rfl | ⟨front, last, rfl⟩
  · rcases List.append_inj' split rfl with ⟨same, ending⟩
    rw [List.cons.injEq] at ending
    exact .inl ⟨same.symm, rfl, ending.1⟩
  · rw [List.concat_eq_append, ← List.cons_append, ← List.append_assoc] at split
    rcases List.append_inj' split rfl with ⟨shorter, ending⟩
    rw [List.cons.injEq] at ending
    rcases ending with ⟨rfl, -⟩
    rw [List.concat_eq_append] at open_ ⊢
    refine .inr ⟨front, rfl, ⟨shorter, ?_⟩, ?_⟩
    · intro call result mem
      exact open_ call result (by simp [mem])
    · intro call result same
      exact open_ call result (by simp [same])

omit [DecidableEq Tid] in
theorem Inserted.of_snoc (inserted : Inserted (history ++ [event]) inStr) :
    Inserted history inStr ∨
      ∃ tid whole result, event = .returned tid (.insert whole) result ∧
        (result = .insertSuccess ∨ result = .insertDuplication) ∧
        inStr <+: whole := by
  rcases inserted with ⟨tid, whole, result, mem, succeeded, isPrefix⟩
  rcases List.mem_append.1 mem with old | new
  · exact .inl ⟨tid, whole, result, old, succeeded, isPrefix⟩
  · exact .inr
      ⟨tid, whole, result, (List.mem_singleton.1 new).symm, succeeded, isPrefix⟩

theorem SearchInv.snoc {left : List Node} {grown : Node → List Node}
    (inv : SearchInv root nodes history config cells children)
    (kept : AtomicInv (config.advance tid outcome) root nodes left grown)
    (grows : Grows children config.shared.key grown outcome.shared.key)
    (actor : event.actor = tid)
    (inserts : ∀ other whole result,
      event = .returned other (.insert whole) result → result ≠ .insertError →
        ∃ target, Spells grown outcome.shared.key whole root target)
    (own : ∀ inStr accesses, OnTrack children config.shared.key inStr accesses
          (config.threads tid) →
        (∀ call result, event ≠ .returned tid call result) →
        OnTrack grown outcome.shared.key inStr
          (accesses + [event].count (.accessed tid)) outcome.thread)
    (calls : ∀ inStr, event = .called tid (.search inStr) →
      Inserted history inStr →
        OnTrack grown outcome.shared.key inStr 0 outcome.thread)
    (answers : ∀ inStr accesses result,
      event = .returned tid (.search inStr) result →
        OnTrack children config.shared.key inStr accesses
          (config.threads tid) → result = .searchSuccess) :
    SearchInv root nodes (history ++ [event])
      (config.advance tid outcome) left grown := by
  constructor
  case atomic => exact kept
  case inserted =>
    intro inStr inserted
    rcases inserted.of_snoc with old | ⟨other, whole, result, new, succeeded,
      suffix, rfl⟩
    · rcases inv.inserted inStr old with ⟨target, spells⟩
      exact ⟨target, spells.mono grows⟩
    · have notError : result ≠ .insertError := by
        rcases succeeded with rfl | rfl <;> simp
      rcases inserts other _ result new notError with ⟨target, spells⟩
      exact spells.take
  case searching =>
    intro other inStr before since searching inserted
    rcases searching.of_snoc with ⟨rfl, rfl, rfl⟩ | ⟨front, rfl, old, more⟩
    · have same : other = tid := actor
      subst same
      rw [Config.advance_threads, update_self]
      exact calls inStr rfl inserted
    · have onTrack := inv.searching other inStr before front old inserted
      rw [List.count_append, Config.advance_threads]
      by_cases same : other = tid
      · subst same
        rw [update_self]
        exact own inStr _ onTrack more
      · have apart : [event].count (.accessed other) = 0 := by
          apply List.count_eq_zero_of_not_mem
          rw [List.mem_singleton]
          rintro rfl
          exact same actor
        rw [apart, update_of_ne same]
        exact onTrack.mono grows
  case answered =>
    intro other inStr before since after result split more inserted
    rcases snoc_split split with ⟨old, rfl⟩ | ⟨front, old⟩
    · cases actor
      exact answers inStr _ result rfl
        (inv.searching _ inStr before since ⟨old, more⟩ inserted)
    · exact inv.answered other inStr before since front result old more inserted

omit [DecidableEq Tid] in
theorem OnTrack.not_inserting {mode : PoolMode} {key : Node → Byte}
    {trie : TrieState Node} {accesses : Nat} {pc : TriePc Node}
    (onTrack : OnTrack children key inStr accesses pc)
    (step : insertStep mode action trie pc = some outcome) : False := by
  cases pc
  case searchFirst | searchGreater | searchLess | searchBrother | finish =>
    simp [insertStep] at step
  all_goals exact onTrack

omit [DecidableEq Tid] in
theorem insertStep_events {mode : PoolMode} {trie : TrieState Node}
    {pc : TriePc Node} (step : insertStep mode action trie pc = some outcome) :
    outcome.events = [] := by
  cases pc
  all_goals simp only [insertStep, tnodePop, tnodePush] at step
  all_goals repeat' split at step
  all_goals cases step
  all_goals rfl

omit [DecidableEq Tid] [DecidableEq Node] in
theorem searchStep_events {trie : TrieState Node} {pc : TriePc Node}
    (step : searchStep tid trie pc = some outcome) :
    outcome.events = [.accessed tid] := by
  cases pc
  all_goals simp only [searchStep] at step
  all_goals cases step
  all_goals rfl

omit [DecidableEq Tid] [DecidableEq Node] in
theorem trieCall_events {trie : TrieState Node} (call : TrieCall) :
    (trieCall root tid trie call).events = [.called tid call] := by
  cases call with
  | insert inStr =>
    rw [trieCall]
    split <;> rfl
  | search inStr => rfl

theorem SearchInv.step
    (inv : SearchInv root nodes history config cells children)
    (step : (trieMachine .atomic root).step tid action config.shared
      (config.threads tid) = some outcome) :
    ∃ left grown, SearchInv root nodes (history ++ outcome.events)
        (config.advance tid outcome) left grown := by
  rcases inv.atomic.step step with ⟨left, grown, kept, grows⟩
  refine ⟨left, grown, ?_⟩
  rcases trieMachine_step step with
    ⟨here, call, -, rfl⟩ | ⟨call, result, here, rfl⟩ | inserting | searching
  · rw [trieCall_events]
    apply inv.snoc kept grows rfl
    · rintro other whole result ⟨⟩
    · intro inStr accesses onTrack _
      rw [here] at onTrack
      exact absurd onTrack id
    · rintro inStr ⟨⟩ inserted
      rcases inv.inserted inStr inserted with ⟨target, spells⟩
      have onTrack : OnTrack children config.shared.key inStr 0
            (searchNext inStr 0 root) :=
        OnTrack.searchNext (Nat.zero_le _) spells (Nat.zero_le _)
      exact onTrack.mono grows
    · rintro inStr accesses result ⟨⟩
  · apply inv.snoc kept grows rfl
    · rintro other whole outcome ⟨⟩ succeeded
      have holds := inv.atomic.trie.pathOk tid
      rw [here] at holds
      rcases holds succeeded with ⟨target, spells⟩
      exact ⟨target, spells.mono grows⟩
    · intro inStr accesses _ more
      exact absurd rfl (more call result)
    · rintro inStr ⟨⟩
    · rintro inStr accesses outcome ⟨⟩ onTrack
      rw [here] at onTrack
      exact onTrack.2.1
  · rw [insertStep_events inserting, List.append_nil]
    constructor
    case atomic => exact kept
    case inserted =>
      intro inStr inserted
      rcases inv.inserted inStr inserted with ⟨target, spells⟩
      exact ⟨target, spells.mono grows⟩
    case searching =>
      intro other inStr before since searching inserted
      have onTrack := inv.searching other inStr before since searching inserted
      have ne : other ≠ tid := by
        rintro rfl
        exact onTrack.not_inserting inserting
      rw [Config.advance_threads, update_of_ne ne]
      exact onTrack.mono grows
    case answered => exact inv.answered
  · rw [searchStep_events searching]
    apply inv.snoc kept grows rfl
    · rintro other whole outcome ⟨⟩
    · intro inStr accesses onTrack _
      rw [List.count_singleton_self]
      exact (onTrack.step inv.atomic.trie.lists searching).mono grows
    · rintro inStr ⟨⟩
    · rintro inStr accesses result ⟨⟩

theorem SearchInv.of_run {brotherNode : Node → Option Node} {key : Node → Byte}
    {first : Option Node} {nodelistCounter counter : UInt64}
    (chain : Linked brotherNode first nodes) (apart : root ∉ nodes)
    (run : (trieMachine .atomic root).Run
      (trieStart brotherNode key first nodelistCounter counter) history
      config) :
    ∃ cells children, SearchInv root nodes history config cells children := by
  apply run.invariant fun history config => ∃ cells children,
    SearchInv root nodes history config cells children
  · refine ⟨nodes, fun _ => [], ?_⟩
    constructor
    case atomic => exact ⟨TrieInv.start chain apart, fun _ => trivial⟩
    case inserted =>
      rintro inStr ⟨_, _, _, mem, -⟩
      simp at mem
    case searching =>
      rintro tid inStr before since ⟨split, -⟩
      simp at split
    case answered =>
      intro tid inStr before since after result split
      simp at split
  · rintro history config tid action outcome ⟨cells, children, inv⟩ - step
    exact inv.step step

omit [DecidableEq Tid] in
theorem OnTrack.enabled {key : Node → Byte} {trie : TrieState Node}
    {accesses : Nat} {pc : TriePc Node}
    (onTrack : OnTrack children key inStr accesses pc) :
    ((trieMachine .atomic root).step tid .run trie pc).isSome := by
  cases pc
  case searchFirst | searchGreater | searchLess | searchBrother | finish =>
    rfl
  all_goals exact absurd onTrack id

omit [DecidableEq Tid] [DecidableEq Node] in
theorem OnTrack.accesses_le {key : Node → Byte} {accesses : Nat}
    {pc : TriePc Node} (onTrack : OnTrack children key inStr accesses pc) :
    accesses ≤ labelAccesses * inStr.length := by
  cases pc
  case finish call result => exact onTrack.2.2
  case searchFirst searched pos node =>
    have bound := label_bound onTrack.2.1 0
    have few := onTrack.2.2.2
    omega
  case searchGreater searched pos tmp =>
    have bound := label_bound onTrack.2.1 (key tmp)
    have few := onTrack.2.2.2
    omega
  case searchLess searched pos tmp =>
    have bound := label_bound onTrack.2.1 (key tmp)
    have few := onTrack.2.2.2
    omega
  case searchBrother searched pos tmp =>
    have bound := label_bound onTrack.2.1 (key tmp)
    have few := onTrack.2.2.2.2
    omega
  all_goals exact absurd onTrack id

/--
With atomic pool operations, in every run: child lists increase strictly, no
child is ever unlinked, and a search for a prefix of a string for which an
insertion returned before succeeds, after a bounded number of accesses.
-/
theorem trie_insert_loses_nothing {brotherNode : Node → Option Node}
    {key : Node → Byte} {first : Option Node} {nodelistCounter counter : UInt64}
    (chain : Linked brotherNode first nodes) (apart : root ∉ nodes)
    (run : (trieMachine .atomic root).Run
      (trieStart brotherNode key first nodelistCounter counter) history
      config) :
    (∀ parent, ∃ list, Linked config.shared.brotherNode
          (config.shared.firstSubNode parent) list ∧
        list.Pairwise fun left right =>
          config.shared.key left < config.shared.key right) ∧
    (∀ rest later, (trieMachine .atomic root).Run config rest later →
      ∀ parent child, ChildOf config.shared parent child →
        ChildOf later.shared parent child ∧
          later.shared.key child = config.shared.key child) ∧
    (∀ thread inStr before since after result,
      history = before ++ .called thread (.search inStr) :: since ++
          .returned thread (.search inStr) result :: after →
        (∀ call result, .returned thread call result ∉ since) →
          Inserted before inStr → result = .searchSuccess) ∧
    ∀ thread inStr before since, Searching history thread inStr before since →
        Inserted before inStr →
          since.count (.accessed thread) ≤ labelAccesses * inStr.length ∧
            ((trieMachine .atomic root).step thread .run config.shared
              (config.threads thread)).isSome := by
  rcases SearchInv.of_run chain apart run with ⟨cells, children, inv⟩
  refine ⟨?_, ?_, inv.answered, ?_⟩
  · intro parent
    exact ⟨children parent, (inv.atomic.trie.lists parent).linked,
      (inv.atomic.trie.lists parent).sorted⟩
  · intro rest later continued parent child linked
    rcases inv.atomic.run continued with ⟨left, grown, kept, grows⟩
    rcases grows parent child (inv.atomic.trie.childOf_iff.1 linked) with
      ⟨member, same⟩
    exact ⟨kept.trie.childOf_iff.2 member, same⟩
  · intro thread inStr before since searching inserted
    have onTrack := inv.searching thread inStr before since searching inserted
    exact ⟨onTrack.accesses_le, onTrack.enabled⟩

end

/-- One thread inserts a string of two labels, then another one searches for
its first label. -/
theorem trie_insert_loses_nothing_prefix :
    ∃ (config : Config Nat (TrieState Nat) (TriePc Nat))
      (history before since after : List (TrieEvent Nat)),
      Linked threeNodes (some 1) [1, 2, 3] ∧ 0 ∉ [1, 2, 3] ∧
      (trieMachine .atomic 0).Run
        (trieStart threeNodes (fun _ => 0) (some 1) 3 0) history config ∧
      Inserted before [7] ∧
      ∃ result, history = before ++ .called 1 (.search [7]) :: since ++
            .returned 1 (.search [7]) result :: after ∧
          result = .searchSuccess := by
  have chain : Linked threeNodes (some 1) [1, 2, 3] :=
    ⟨rfl, rfl, rfl, rfl⟩
  have executed : (trieMachine .atomic 0).execute
      (trieStart threeNodes (fun _ => 0) (some 1) 3 0)
      ((0, .call (.insert [7, 9])) :: List.replicate 16 (0, .run) ++
        (1, .call (.search [7])) :: List.replicate 4 (1, .run)) =
      some (_, [.called 0 (.insert [7, 9]),
        .returned 0 (.insert [7, 9]) .insertSuccess] ++
        .called 1 (.search [7]) :: [.accessed 1, .accessed 1, .accessed 1] ++
        .returned 1 (.search [7]) .searchSuccess :: []) :=
    rfl
  have run := Machine.run_of_execute executed
  have inserted : Inserted [TrieEvent.called 0 (.insert [7, 9]),
        .returned 0 (.insert [7, 9]) .insertSuccess] [7] :=
    ⟨0, [7, 9], .insertSuccess, by simp, .inl rfl, [9], rfl⟩
  refine ⟨_, _, _, _, _, chain, by decide, run, inserted, _, rfl, ?_⟩
  exact (trie_insert_loses_nothing chain (by decide) run).2.2.1 1 [7] _ _ _ _
    rfl (by simp) inserted

end Lockfreec.Advance.MemTrie
