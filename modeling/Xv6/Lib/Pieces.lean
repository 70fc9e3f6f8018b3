import Mathlib.Tactic.Common

/-!
# The pieces of a list between separators

The maximal runs of elements that are no separators, and how a scanner comes to the
next one: past the separators, then as far as the next separator.
-/

set_option autoImplicit false

namespace Xv6.Lib.Pieces

universe u

variable {α : Type u} (sep : α → Bool)

/-- The maximal runs without a separator. -/
def pieces (l : List α) : List (List α) :=
  (l.splitOnP sep).filter fun piece => !piece.isEmpty

variable {sep} {c : α} {l run rest : List α}

@[simp] theorem pieces_nil : pieces sep [] = [] := by
  simp [pieces]

theorem pieces_sep (separates : sep c = true) : pieces sep (c :: l) = pieces sep l := by
  rw [pieces, List.splitOnP_cons_eq_if_modifyHead, if_pos separates]
  rfl

/-- A run that the list or a separator ends is the first piece. -/
theorem pieces_run (clean : ∀ c ∈ run, sep c = false) (some_run : run ≠ [])
    (ends : rest = [] ∨ ∃ c l, rest = c :: l ∧ sep c = true) :
    pieces sep (run ++ rest) = run :: pieces sep rest := by
  have first : ∀ tail : List (List α), ((run :: tail).filter fun piece => !piece.isEmpty) =
      run :: tail.filter fun piece => !piece.isEmpty :=
    fun tail => List.filter_cons_of_pos (by simpa using some_run)
  rcases ends with rfl | ⟨c, l, rfl, separates⟩
  · rw [List.append_nil, pieces, List.splitOnP_eq_singleton clean, pieces_nil, first,
      List.filter_nil]
  · rw [pieces_sep separates, pieces,
      List.splitOnP_append_cons_of_forall_mem clean c separates, first, pieces]

end Xv6.Lib.Pieces
