import Mathlib.Data.List.DropRight

/-!
# The end of a history

`since marker history` is the part of a history behind its last marked event.
Invariants that speak about what happened since a certain event are stated
with it; the three lemmas say how it grows with the history and that it is
what a reader of the history sees behind a marked event.

`Emitted allowed history` says of every event what held when it was emitted,
as a condition on the history before it.
-/

namespace Lockfreec.Lib.History

variable {Event : Type}

/-- The events behind the last marked one. -/
def since (marker : Event → Bool) (history : List Event) : List Event :=
  history.rtakeWhile fun event => !marker event

variable {marker : Event → Bool} {event : Event} {events first : List Event}

theorem since_append {history : List Event} (unmarked : marker event = false) :
    since marker (history ++ [event]) = since marker history ++ [event] := by
  apply List.rtakeWhile_concat_pos
  simp [unmarked]

theorem since_append_all (history : List Event)
    (unmarked : ∀ event ∈ events, marker event = false) :
    since marker (history ++ events) = since marker history ++ events := by
  induction events using List.reverseRecOn with
  | nil => simp
  | append_singleton events last ih =>
    have before : ∀ event ∈ events, marker event = false := by
      intro event mem
      exact unmarked event (by simp [mem])
    rw [← List.append_assoc, since_append (unmarked last (by simp)),
      ih before, List.append_assoc]

theorem since_marked {history : List Event} (marked : marker event = true) :
    since marker (history ++ [event]) = [] := by
  apply List.rtakeWhile_concat_neg
  simp [marked]

theorem since_split {between : List Event} (marked : marker event = true)
    (unmarked : ∀ other ∈ between, marker other = false) :
    since marker (first ++ event :: between) = between := by
  induction between using List.reverseRecOn with
  | nil => exact since_marked marked
  | append_singleton between last ih =>
    have ending : marker last = false := unmarked last (by simp)
    have before : ∀ other ∈ between, marker other = false := by
      intro other mem
      exact unmarked other (by simp [mem])
    rw [← List.cons_append, ← List.append_assoc, since_append ending, ih before]

/-- An event that is not among the new ones sits in the shorter history. -/
theorem append_split {history last : List Event} {stop : Event}
    (split : history ++ events = first ++ stop :: last) (absent : stop ∉ events) :
    ∃ front, history = first ++ stop :: front := by
  rcases List.append_eq_append_iff.1 split with
    ⟨between, -, isSuffix⟩ | ⟨between, isPrefix, isSuffix⟩
  · exact absurd (by simp [isSuffix]) absent
  · cases between with
    | nil =>
      rw [List.nil_append] at isSuffix
      exact absurd (by simp [← isSuffix]) absent
    | cons event between =>
      rw [List.cons_append, List.cons.injEq] at isSuffix
      rw [← isSuffix.1] at isPrefix
      exact ⟨between, isPrefix⟩

/-- Where an event of a longer history sits in the shorter one. -/
theorem snoc_split {history last : List Event} {stop : Event}
    (split : history ++ [event] = first ++ stop :: last) :
    (history = first ∧ event = stop) ∨
      ∃ front, history = first ++ stop :: front := by
  rcases List.eq_nil_or_concat last with rfl | ⟨front, final, rfl⟩
  · rcases List.append_inj' split rfl with ⟨same, ending⟩
    rw [List.cons.injEq] at ending
    exact .inl ⟨same, ending.1⟩
  · rw [List.concat_eq_append, ← List.cons_append, ← List.append_assoc] at split
    exact .inr ⟨front, (List.append_inj' split rfl).1⟩

/-! ## What every event met when it was emitted -/

/-- Every event of the history was allowed by the history before it. -/
def Emitted (allowed : List Event → Event → Prop)
    (history : List Event) : Prop :=
  ∀ before event after, history = before ++ event :: after →
    allowed before event

variable {allowed : List Event → Event → Prop} {history : List Event}

theorem Emitted.nil : Emitted allowed [] := by
  intro before event after split
  simp at split

theorem Emitted.snoc (emitted : Emitted allowed history)
    (next : allowed history event) : Emitted allowed (history ++ [event]) := by
  intro before stop after split
  rcases snoc_split split with ⟨rfl, rfl⟩ | ⟨front, split⟩
  · exact next
  · exact emitted before stop front split

/-- Events that are allowed anywhere. -/
theorem Emitted.append (emitted : Emitted allowed history)
    (always : ∀ before, ∀ event ∈ events, allowed before event) :
    Emitted allowed (history ++ events) := by
  induction events using List.reverseRecOn with
  | nil => simpa using emitted
  | append_singleton events last induction =>
    have shorter := induction fun before event mem =>
      always before event (by simp [mem])
    rw [← List.append_assoc]
    exact shorter.snoc (always _ last (by simp))

/-- Events that are allowed only behind related ones. -/
theorem Emitted.pairwise {related : Event → Event → Prop}
    (emitted : Emitted (fun before event =>
      ∀ earlier ∈ before, related earlier event) history) :
    history.Pairwise related := by
  induction history using List.reverseRecOn with
  | nil => exact List.Pairwise.nil
  | append_singleton history event ih =>
    apply List.pairwise_append.2
    refine ⟨ih ?_, List.pairwise_singleton _ _, ?_⟩
    · intro before stop after split
      apply emitted before stop (after ++ [event])
      rw [split]
      simp
    · intro earlier mem last isLast
      rw [List.mem_singleton.1 isLast]
      exact emitted history event [] rfl earlier mem

end Lockfreec.Lib.History
