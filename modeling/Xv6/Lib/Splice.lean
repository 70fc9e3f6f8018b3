import Mathlib.Tactic.Common

/-!
# Overlaying a list

`splice xs off data` is `xs` with `data` put at an offset that is within it or at its
end.
-/

set_option autoImplicit false

namespace Xv6.Lib.Splice

universe u

variable {α : Type u}

def splice (xs : List α) (off : Nat) (data : List α) : List α :=
  xs.take off ++ (data ++ xs.drop (off + data.length))

theorem splice_length {xs : List α} {off : Nat} (within : off ≤ xs.length) (data : List α) :
    (splice xs off data).length = max xs.length (off + data.length) := by
  simp only [splice, List.length_append, List.length_take, List.length_drop]
  omega

theorem getElem?_splice {xs : List α} {off : Nat} (within : off ≤ xs.length) (data : List α)
    (p : Nat) : (splice xs off data)[p]? =
      if p < off then xs[p]? else if p < off + data.length then data[p - off]? else xs[p]? := by
  have taken : (xs.take off).length = off := List.length_take_of_le within
  unfold splice
  split
  · rename_i before
    rw [List.getElem?_append_left (by omega), List.getElem?_take_of_lt before]
  · rename_i from_off
    rw [List.getElem?_append_right (by omega), taken]
    split
    · rename_i inside
      rw [List.getElem?_append_left (by omega)]
    · rename_i after
      rw [List.getElem?_append_right (by omega), List.getElem?_drop]
      congr 1
      omega

/-- Two splices one after the other. -/
theorem splice_splice {xs : List α} {off : Nat} (within : off ≤ xs.length)
    (a b : List α) : splice (splice xs off a) (off + a.length) b = splice xs off (a ++ b) := by
  apply List.ext_getElem?
  intro p
  have length := splice_length within a
  rw [getElem?_splice (by omega), getElem?_splice within, getElem?_splice within,
    List.length_append]
  by_cases before : p < off
  · rw [if_pos (by omega), if_pos before, if_pos before]
  · rw [if_neg before, if_neg before]
    by_cases first : p < off + a.length
    · rw [if_pos first, if_pos first, if_pos (by omega), List.getElem?_append_left (by omega)]
    · rw [if_neg first, if_neg first]
      by_cases second : p < off + a.length + b.length
      · rw [if_pos second, if_pos (by omega), List.getElem?_append_right (by omega)]
        congr 1
        omega
      · rw [if_neg second, if_neg (by omega)]

end Xv6.Lib.Splice
