import Lockfreec.Advance.MemTrieSequential

/-!
# Insertions that fail

`lf_trie_insert_real_data` links the missing suffix one node at a time and
never unlinks it.  An insertion that finds the pool exhausted on the way
leaves what it has linked, so that the trie is as before only if the pool was
empty when the insertion was called.
-/

namespace Lockfreec.Advance.MemTrie

open Lib.Chain Lib.Interleaving

variable {Node : Type} [DecidableEq Node] {root : Node}
  {nodes cells : List Node} {total : UInt64} {trie : TrieState Node}
  {pc : TriePc Node} {stored : Finset (List Byte)} {children : Node → List Node}
  {inserted : List (List Byte)} {inStr : List Byte}
  {config after : Config Unit (TrieState Node) (TriePc Node)}

/-! ## What a search answers -/

/-- `lf_trie_search_real_data` returns this result. -/
def SearchReturns (root : Node) (trie : TrieState Node)
    (inStr : List Byte) (result : TrieRet) : Prop :=
  Alone root (fun _ pc => pc = .finish (.search inStr) result)
    (trieCall root () trie (.search inStr)).shared
    (trieCall root () trie (.search inStr)).thread

/-- Two ends of one call are the same end. -/
theorem Alone.meet {one two : TrieState Node → TriePc Node → Prop}
    (first : Alone root one trie pc) (second : Alone root two trie pc)
    (oneEnds : AtFinish one) (twoEnds : AtFinish two) :
    ∃ after next, one after next ∧ two after next := by
  have alone := first
  induction first with
  | here reached =>
    rcases oneEnds _ _ reached with ⟨call, result, rfl⟩
    exact ⟨_, _, reached, Alone.finished twoEnds second⟩
  | step enabled next induction =>
    rcases enabled with ⟨outcome, stepped⟩
    rcases second.advance stepped with reached | further
    · rcases twoEnds _ _ reached with ⟨call, result, rfl⟩
      exact ⟨_, _, Alone.finished oneEnds alone, reached⟩
    · exact induction .run outcome stepped further (next .run outcome stepped)

theorem SearchReturns.unique {result other : TrieRet}
    (first : SearchReturns root trie inStr result)
    (second : SearchReturns root trie inStr other) : result = other := by
  rcases Alone.meet first second (fun _ _ ends => ⟨_, _, ends⟩)
    (fun _ _ ends => ⟨_, _, ends⟩) with ⟨_, _, ends, alsoEnds⟩
  cases ends.symm.trans alsoEnds
  rfl

/-- A search answers whether the string is a prefix of a stored one. -/
theorem Meaning.searchReturns
    (meaning : Meaning root nodes total inserted trie) :
    SearchReturns root trie inStr (answer inserted (.search inStr)) := by
  rcases meaning with ⟨cells, children, stores⟩
  apply searchLoop_alone inStr.length rfl (Nat.zero_le _) stores rfl
  rintro after result rfl -
  rfl

/-- The stored strings are the prefixes of a list of strings. -/
theorem Stores.meaning
    (stores : Stores root nodes total trie .idle stored cells children) :
    ∃ inserted, prefixes inserted = stored ∧
      Meaning root nodes total inserted trie := by
  have closed : prefixes stored.toList = stored := by
    ext path
    rw [mem_prefixes]
    constructor
    · rintro ⟨nonempty, other, isStored, rest, rfl⟩
      rw [Finset.mem_toList] at isStored
      rcases (stores.spelled _).2 (.inr isStored) with ⟨target, spells⟩
      exact ((stores.spelled path).1 spells.take).resolve_left nonempty
    · intro isStored
      refine ⟨?_, path, Finset.mem_toList.2 isStored, List.prefix_rfl⟩
      rintro rfl
      exact stores.nonempty isStored
  refine ⟨stored.toList, closed, cells, children, ?_⟩
  rw [closed]
  exact stores

/-! ## Runs with failures -/

/-- The thread is between two calls or about to return, and the trie stores
the prefixes of some strings. -/
def Rests (root : Node) (nodes : List Node) (total : UInt64)
    (trie : TrieState Node) (pc : TriePc Node) : Prop :=
  (pc = .idle ∨ ∃ call result, pc = .finish call result) ∧
    ∃ inserted, Meaning root nodes total inserted trie

theorem Rests.idle (rests : Alone root (Rests root nodes total) trie .idle) :
    ∃ inserted, Meaning root nodes total inserted trie := by
  cases rests with
  | here reached => exact reached.2
  | step enabled next =>
    rcases enabled with ⟨outcome, stepped⟩
    cases stepped

theorem Rests.step {action : TrieAction} {outcome : TrieOutcome Unit Node}
    (rests : Alone root (Rests root nodes total) config.shared
      (config.threads ()))
    (step : (soloTrie root).step () action config.shared
      (config.threads ()) = some outcome) :
    Alone root (Rests root nodes total) outcome.shared outcome.thread := by
  rcases rests.advance step with ⟨place, inserted, meaning⟩ | alone
  · rcases trieMachine_step step with
      ⟨-, call, -, rfl⟩ | ⟨call, result, -, rfl⟩ | inserting | searching
    · apply trieCall_alone meaning call
      · intro after result _ meaning
        exact ⟨.inr ⟨_, _, rfl⟩, _, meaning⟩
      · rintro after (⟨-, rfl⟩ | ⟨-, more, rest, grown, stores, -⟩)
        · exact ⟨.inr ⟨_, _, rfl⟩, inserted, meaning⟩
        · rcases stores.meaning with ⟨others, -, meaning⟩
          exact ⟨.inr ⟨_, _, rfl⟩, others, meaning⟩
    · exact .here ⟨.inl rfl, inserted, meaning⟩
    · rcases place with here | ⟨call, result, here⟩
      all_goals
        rw [here] at inserting
        simp [insertStep] at inserting
    · rcases place with here | ⟨call, result, here⟩
      all_goals
        rw [here] at searching
        simp [searchStep] at searching
  · exact alone

/-- What a call does that runs on its own and is silent. -/
abbrev callEvents (call : TrieCall) (result : TrieRet) :
    List (TrieEvent Unit) :=
  [.called () call, .returned () call result]

/-- Where a call that runs on its own is. -/
inductive CallRuns (root : Node)
    (goal : TrieState Node → TriePc Node → Prop)
    (start : TrieState Node) (call : TrieCall) :
    TrieState Node → TriePc Node → List (TrieEvent Unit) → Prop where
  | before : CallRuns root goal start call start .idle []
  | within {trie : TrieState Node} {pc : TriePc Node}
      (alone : Alone root goal trie pc) :
      CallRuns root goal start call trie pc [.called () call]
  | returned {trie : TrieState Node} {result : TrieRet}
      (reached : goal trie (.finish call result)) :
      CallRuns root goal start call trie .idle (callEvents call result)

section

variable {goal : TrieState Node → TriePc Node → Prop} {call : TrieCall}
  {result : TrieRet} (ends : AtFinish goal)
  (alone : Alone root goal (trieCall root () config.shared call).shared
  (trieCall root () config.shared call).thread)

include ends alone

theorem CallRuns.step {history : List (TrieEvent Unit)}
    {action : TrieAction} {outcome : TrieOutcome Unit Node}
    (runs : CallRuns root goal config.shared call trie pc history)
    (step : (soloTrie root).step () action trie pc = some outcome)
    (within : history ++ outcome.events <+: callEvents call result) :
    CallRuns root goal config.shared call outcome.shared outcome.thread
      (history ++ outcome.events) := by
  rcases trieMachine_step step with
    ⟨rfl, other, -, rfl⟩ | ⟨other, answered, rfl, rfl⟩ | inserting | searching
  · rw [trieCall_events] at within ⊢
    cases runs with
    | before =>
      obtain rfl : other = call := by simpa using within
      exact .within alone
    | within alone => exact absurd alone (not_alone_idle ends)
    | returned reached => simp at within
  · cases runs with
    | within finishing =>
      obtain ⟨rfl, rfl⟩ : other = call ∧ answered = result := by
        simpa using within
      exact .returned (Alone.finished ends finishing)
  · rw [insertStep_events inserting, List.append_nil]
    cases runs with
    | before | returned => simp [insertStep] at inserting
    | within alone =>
      rcases alone.advance step with reached | alone
      · rcases ends _ _ reached with ⟨_, _, rfl⟩
        simp [insertStep] at inserting
      · exact .within alone
  · rw [searchStep_events searching] at within
    cases runs with
    | before | returned => simp [searchStep] at searching
    | within alone => simp at within

theorem run_call (idle : config.threads () = .idle)
    (run : (soloTrie root).Run config (callEvents call result) after) :
    goal after.shared (.finish call result) := by
  have runs := run.invariant (fun history middle =>
    history <+: callEvents call result →
      CallRuns root goal config.shared call middle.shared
        (middle.threads ()) history) ?_ ?_
  · generalize after.threads () = pc, after.shared = trie at runs ⊢
    cases runs List.prefix_rfl with
    | returned reached => exact reached
  · intro _
    rw [idle]
    exact .before
  · intro history middle thread action outcome before _ step within
    have earlier := before ((List.prefix_append ..).trans within)
    have taken := earlier.step ends alone step within
    rwa [Config.advance, update_only]

end

/-! ## A failed insertion -/

/-- A call is about to return, with an error only if the pool ran out. -/
def FailsIfExhausted (root : Node) (nodes : List Node) (total : UInt64)
    (inserted : List (List Byte)) (start trie : TrieState Node)
    (pc : TriePc Node) : Prop :=
  ∃ call result, pc = .finish call result ∧
    (result = .insertError → Exhausted root nodes total inserted start trie)

theorem Meaning.exhausted
    (meaning : Meaning root nodes total inserted config.shared)
    (idle : config.threads () = .idle)
    (failed : (soloTrie root).Run config
      (callEvents (.insert inStr) .insertError) after) :
    Exhausted root nodes total inserted config.shared after.shared := by
  have ended : FailsIfExhausted root nodes total inserted config.shared
      after.shared (.finish (.insert inStr) .insertError) := by
    refine run_call ?_ ?_ idle failed
    · rintro trie pc ⟨call, result, atFinish, -⟩
      exact ⟨call, result, atFinish⟩
    · apply trieCall_alone meaning
      · rintro after result right -
        refine ⟨_, _, rfl, fun isError => ?_⟩
        rw [isError, answer] at right
        split at right
        all_goals cases right
      · exact fun _ exhausted => ⟨_, _, rfl, fun _ => exhausted⟩
  rcases ended with ⟨call, result, same, exhausted⟩
  cases same
  exact exhausted rfl

/--
After an insertion that found the pool exhausted, whatever calls came before
it and however many of those failed, all searches answer as before and both
counters are as before if and only if the pool was empty when the insertion
was called.
-/
theorem insertError_unchanged_iff {brotherNode : Node → Option Node}
    {key : Node → Byte} {first : Option Node} {nodelistCounter : UInt64}
    {history : List (TrieEvent Unit)}
    (chain : Linked brotherNode first nodes) (apart : root ∉ nodes)
    (run : (soloTrie root).Run
      (trieStart brotherNode key first nodelistCounter 0) history config)
    (idle : config.threads () = .idle)
    (failed : (soloTrie root).Run config
      (callEvents (.insert inStr) .insertError) after) :
    ((∀ other result, SearchReturns root after.shared other result ↔
          SearchReturns root config.shared other result) ∧
        after.shared.counter = config.shared.counter ∧
        after.shared.nodelistCounter = config.shared.nodelistCounter) ↔
      config.shared.first = none := by
  have rests : Alone root (Rests root nodes nodelistCounter) config.shared
      (config.threads ()) := by
    apply run.invariant (fun _ config => Alone root
      (Rests root nodes nodelistCounter) config.shared (config.threads ()))
    · exact .here ⟨.inl rfl, [], (SequentialInv.start chain apart).resting rfl⟩
    · intro history config thread action outcome rests _ stepped
      have taken := Rests.step rests stepped
      rwa [Config.advance, update_only]
  rw [idle] at rests
  rcases Rests.idle rests with ⟨inserted, meaning⟩
  have exhausted := meaning.exhausted idle failed
  constructor
  · rintro ⟨same, -, -⟩
    rcases exhausted with ⟨empty, -⟩ | ⟨-, more, rest, grown, stores, path,
      member, fresh⟩
    · exact empty
    · rcases stores.meaning with ⟨others, rfl, longer⟩
      have nonempty : path ≠ [] := (mem_prefixes.1 member).1
      have found := (same path _).1 longer.searchReturns
      have clash := found.unique meaning.searchReturns
      rw [answer, answer, if_pos (known_iff.2 (.inr member)),
        if_neg (by simp [known_iff, nonempty, fresh])] at clash
      cases clash
  · intro empty
    rcases exhausted with ⟨-, same⟩ | ⟨filled, -⟩
    · rw [same]
      exact ⟨fun _ _ => Iff.rfl, rfl, rfl⟩
    · exact absurd empty filled

/-- The pool has one node, the string needs two. -/
def oneNode : Config Unit (TrieState Nat) (TriePc Nat) :=
  trieStart (fun _ => none) (fun _ => 0) (some 1) 1 0

/-- The first label stays in the trie, and both counters have moved. -/
theorem insertError_keeps_node : ∃ after, (soloTrie 0).execute oneNode
          (((), .call (.insert [7, 9])) :: List.replicate 16 ((), .run)) =
        some (after, callEvents (.insert [7, 9]) .insertError) ∧
      (∃ final, (soloTrie 0).execute oneNode
          (((), .call (.search [7])) :: List.replicate 2 ((), .run)) =
        some (final, [.called () (.search [7]), .accessed (),
          .returned () (.search [7]) .searchError])) ∧
      (∃ final, (soloTrie 0).execute after
          (((), .call (.search [7])) :: List.replicate 4 ((), .run)) =
        some (final, [.called () (.search [7]), .accessed (), .accessed (),
          .accessed (), .returned () (.search [7]) .searchSuccess])) ∧
      oneNode.shared.counter = 0 ∧ after.shared.counter = 1 ∧
      oneNode.shared.nodelistCounter = 1 ∧
      after.shared.nodelistCounter = 0 :=
  ⟨_, rfl, ⟨_, rfl⟩, ⟨_, rfl⟩, rfl, rfl, rfl, rfl⟩

/-- A second insertion finds the pool empty and changes nothing. -/
theorem insertError_unchanged_iff_second : ∃ config after history,
      Linked (fun _ : Nat => none) (some 1) [1] ∧ 0 ∉ [1] ∧
      (soloTrie 0).Run oneNode history config ∧
      config.threads () = .idle ∧
      (soloTrie 0).Run config (callEvents (.insert [8]) .insertError) after ∧
      ∀ other result, SearchReturns 0 after.shared other result ↔
        SearchReturns 0 config.shared other result := by
  have chain : Linked (fun _ : Nat => none) (some 1) [1] := ⟨rfl, rfl⟩
  have executed : ∃ config after, (soloTrie 0).execute oneNode
          (((), .call (.insert [7, 9])) :: List.replicate 16 ((), .run)) =
        some (config, callEvents (.insert [7, 9]) .insertError) ∧
      config.threads () = .idle ∧ config.shared.first = none ∧
      (soloTrie 0).execute config
          (((), .call (.insert [8])) :: List.replicate 7 ((), .run)) =
        some (after, callEvents (.insert [8]) .insertError) :=
    ⟨_, _, rfl, rfl, rfl, rfl⟩
  rcases executed with ⟨config, after, executed, idle, empty, further⟩
  have run := Machine.run_of_execute executed
  have failed := Machine.run_of_execute further
  exact ⟨config, after, _, chain, by decide, run, idle, failed,
    ((insertError_unchanged_iff chain (by decide) run idle failed).2 empty).1⟩

end Lockfreec.Advance.MemTrie
