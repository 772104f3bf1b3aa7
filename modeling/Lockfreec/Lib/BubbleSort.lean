import Mathlib.Data.List.Basic
import Mathlib.Order.Lattice

/-!
# Bubble sort

Two nested loops compare neighbours and swap them.  The outer loop makes the
inner one shorter by one comparison each time.  Elements that are not swapped
keep their order, so elements with equal keys stay as they were.
-/

namespace Lockfreec.Lib.BubbleSort

section

variable {α β : Type} (swap : α → α → Bool)

/-- The inner loop, with the number of comparisons. -/
def pass : Nat → List α → List α
  | count + 1, first :: second :: rest =>
    if swap first second then second :: pass count (first :: rest)
    else first :: pass count (second :: rest)
  | _, list => list

/-- The outer loop, from the number of comparisons of its first pass on. -/
def passes : Nat → List α → List α
  | 0, list => list
  | count + 1, list => passes count (pass swap (count + 1) list)

def bubbleSort (list : List α) : List α :=
  passes swap (list.length - 1) list

theorem pass_perm (count : Nat) (list : List α) :
    (pass swap count list).Perm list := by
  fun_induction pass swap count list with
  | case1 count first second rest _ ih =>
    exact (ih.cons second).trans (.swap first second rest)
  | case2 count first second rest _ ih => exact ih.cons first
  | case3 => exact .refl _

theorem passes_perm (count : Nat) (list : List α) :
    (passes swap count list).Perm list := by
  induction count generalizing list with
  | zero => exact .refl _
  | succ count ih => exact (ih _).trans (pass_perm swap _ _)

theorem bubbleSort_perm (list : List α) : (bubbleSort swap list).Perm list :=
  passes_perm swap _ _

variable {swap} [LinearOrder β] {key : α → β}
  (swaps : ∀ left right, swap left right = true ↔ key right < key left)

include swaps in
/-- One pass carries a largest element behind the last comparison. -/
theorem pass_top {count : Nat} {front : List α}
    (length : front.length = count + 1) (back : List α) :
    ∃ lower top, pass swap count (front ++ back) = lower ++ top :: back ∧
      (lower ++ [top]).Perm front ∧ ∀ each ∈ lower, key each ≤ key top := by
  induction count generalizing front with
  | zero =>
    obtain ⟨top, rfl⟩ := List.length_eq_one_iff.1 length
    refine ⟨[], top, ?_, .refl _, nofun⟩
    rw [pass.eq_def]
    rfl
  | succ count ih =>
    match front, length with
    | first :: second :: rest, length =>
      have shorter : ∀ each : α, (each :: rest).length = count + 1 := by
        intro each
        simpa using length
      simp only [List.cons_append, pass]
      split
      · next swapped =>
          obtain ⟨lower, top, passed, perm, largest⟩ := ih (shorter first)
          refine ⟨second :: lower, top, ?_, ?_, ?_⟩
          · rw [← List.cons_append, passed]
            rfl
          · exact (perm.cons second).trans (.swap first second rest)
          · intro each mem
            rcases List.mem_cons.1 mem with rfl | mem
            · have below := (swaps first each).1 swapped
              have isFirst : first ∈ lower ++ [top] :=
                perm.mem_iff.2 (.head _)
              rcases List.mem_append.1 isFirst with mem | mem
              · exact le_trans (le_of_lt below) (largest first mem)
              · rw [← List.mem_singleton.1 mem]
                exact le_of_lt below
            · exact largest each mem
      · next kept =>
          obtain ⟨lower, top, passed, perm, largest⟩ :=
            ih (shorter second)
          refine ⟨first :: lower, top, ?_, perm.cons first, ?_⟩
          · rw [← List.cons_append, passed]
            rfl
          · intro each mem
            rcases List.mem_cons.1 mem with rfl | mem
            · have below : key each ≤ key second := by
                rw [← not_lt, ← swaps]
                exact kept
              have isSecond : second ∈ lower ++ [top] :=
                perm.mem_iff.2 (.head _)
              rcases List.mem_append.1 isSecond with mem | mem
              · exact le_trans below (largest second mem)
              · rw [← List.mem_singleton.1 mem]
                exact below
            · exact largest each mem

include swaps in
theorem passes_sorted {count : Nat} (front : List α) {back : List α}
    (length : front.length = count + 1)
    (sorted : back.Pairwise fun left right => key left ≤ key right)
    (below : ∀ left ∈ front, ∀ right ∈ back, key left ≤ key right) :
    (passes swap count (front ++ back)).Pairwise
      fun left right => key left ≤ key right := by
  induction count generalizing front back with
  | zero =>
    obtain ⟨only, rfl⟩ := List.length_eq_one_iff.1 length
    exact List.pairwise_cons.2 ⟨below only (.head _), sorted⟩
  | succ count ih =>
    obtain ⟨lower, top, passed, perm, largest⟩ := pass_top swaps length back
    rw [passes, passed]
    have inFront : ∀ each, each ∈ lower ++ [top] → each ∈ front :=
      fun each => perm.mem_iff.1
    refine ih lower ?_ ?_ ?_
    · have same := perm.length_eq
      rw [List.length_append, length] at same
      simpa using same
    · refine List.pairwise_cons.2 ⟨fun right mem => ?_, sorted⟩
      exact below top (inFront top (by simp)) right mem
    · intro left inLower right mem
      rcases List.mem_cons.1 mem with rfl | mem
      · exact largest left inLower
      · exact below left (inFront left (by simp [inLower])) right mem

include swaps in
theorem bubbleSort_sorted (list : List α) : (bubbleSort swap list).Pairwise
      fun left right => key left ≤ key right := by
  cases list with
  | nil => exact .nil
  | cons first rest =>
    have sorted := passes_sorted swaps (first :: rest) rfl .nil
      (fun _ _ _ => nofun)
    rw [List.append_nil] at sorted
    exact sorted

end

end Lockfreec.Lib.BubbleSort
