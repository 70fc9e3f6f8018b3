import Mathlib.Data.List.Perm.Basic
import Mathlib.Tactic.Common

/-!
# Bubble sort in place

The two nested loops over an array of which only the first `count` entries are
to be sorted, by an integer key.  A pass is also described by recursion on the
array (`bubble`), and the facts about it are proved there.
-/

set_option autoImplicit false

universe u

namespace Xv6.Lib.BubbleSort

variable {α : Type u} (key : α → Int)

/-- The body of the inner loop at index `j`. -/
def swapAt (xs : List α) (j : Nat) : List α :=
  match xs[j]?, xs[j + 1]? with
  | some a, some b => if key a > key b then (xs.set j b).set (j + 1) a else xs
  | _, _ => xs

/-- The inner loop, `j` from 0 to `m - 1`. -/
def pass (xs : List α) (m : Nat) : List α := (List.range m).foldl (swapAt key) xs

/-- The outer loop. -/
def sort (count : Nat) (xs : List α) : List α :=
  (List.range (count - 1)).foldl (fun xs i => pass key xs (count - i - 1)) xs

/-! ## One pass -/

/-- A pass carries the larger of two neighbours along. -/
def bubble : Nat → List α → List α
  | m + 1, a :: b :: xs =>
      if key a > key b then b :: bubble m (a :: xs) else a :: bubble m (b :: xs)
  | _, xs => xs

theorem swapAt_succ (x : α) (xs : List α) (j : Nat) :
    swapAt key (x :: xs) (j + 1) = x :: swapAt key xs j := by
  simp only [swapAt, List.getElem?_cons_succ, List.set_cons_succ]
  split
  · split <;> rfl
  · rfl

theorem foldl_swapAt_succ (js : List Nat) (x : α) (xs : List α) :
    (js.map Nat.succ).foldl (swapAt key) (x :: xs) = x :: js.foldl (swapAt key) xs := by
  induction js generalizing xs with
  | nil => rfl
  | cons j js ih =>
      simp only [List.map_cons, List.foldl_cons, Nat.succ_eq_add_one, swapAt_succ]
      exact ih _

theorem pass_eq_bubble (m : Nat) (xs : List α) (room : m < xs.length) :
    pass key xs m = bubble key m xs := by
  induction m generalizing xs with
  | zero => cases xs <;> rfl
  | succ m ih =>
      match xs with
      | [] => simp at room
      | [_] => simp at room
      | a :: b :: xs =>
          simp only [List.length_cons, Nat.add_lt_add_iff_right] at room
          rw [pass, List.range_succ_eq_map, List.foldl_cons, bubble]
          have first : swapAt key (a :: b :: xs) 0 =
              if key a > key b then b :: a :: xs else a :: b :: xs := rfl
          rw [first]
          split
          · rw [foldl_swapAt_succ]
            exact congrArg _ (ih (a :: xs) (by simpa using room))
          · rw [foldl_swapAt_succ]
            exact congrArg _ (ih (b :: xs) (by simpa using room))

/-- What a pass over the first `m + 1` entries has done to them. -/
structure Passed (m : Nat) (xs ys : List α) : Prop where
  front : (ys.take (m + 1)).Perm (xs.take (m + 1))
  back : ys.drop (m + 1) = xs.drop (m + 1)
  top : ∃ t, ys[m]? = some t ∧ ∀ x ∈ xs.take (m + 1), key x ≤ key t

theorem Passed.cons {m : Nat} {xs ys zs : List α} {small large : α}
    (passed : Passed key m (large :: xs) ys) (order : key small ≤ key large)
    (both : (small :: large :: xs.take m).Perm (zs.take (m + 2)))
    (rest : zs.drop (m + 2) = xs.drop m) : Passed key (m + 1) zs (small :: ys) where
  front := by
    refine List.Perm.trans ?_ both
    exact passed.front.cons small
  back := by
    rw [rest]
    exact passed.back
  top := by
    obtain ⟨t, there, above⟩ := passed.top
    refine ⟨t, there, fun x member => ?_⟩
    rcases List.mem_cons.mp (both.mem_iff.mpr member) with rfl | later
    · exact Int.le_trans order (above large List.mem_cons_self)
    · exact above x later

theorem bubble_passed (m : Nat) (xs : List α) (room : m < xs.length) :
    Passed key m xs (bubble key m xs) := by
  induction m generalizing xs with
  | zero =>
      match xs with
      | [] => simp at room
      | a :: xs =>
          refine ⟨.refl _, rfl, a, rfl, ?_⟩
          simp
  | succ m ih =>
      match xs with
      | [] => simp at room
      | [_] => simp at room
      | a :: b :: xs =>
          simp only [List.length_cons, Nat.add_lt_add_iff_right] at room
          rw [bubble]
          split
          · rename_i greater
            refine (ih (a :: xs) (by simpa using room)).cons key (Int.le_of_lt greater) ?_ rfl
            exact .swap a b _
          · rename_i ordered
            refine (ih (b :: xs) (by simpa using room)).cons key (Int.not_lt.mp ordered) ?_ rfl
            exact .refl _

theorem pass_passed (m : Nat) (xs : List α) (room : m < xs.length) :
    Passed key m xs (pass key xs m) := by
  rw [pass_eq_bubble key m xs room]
  exact bubble_passed key m xs room

/-! ## All passes -/

/-- Of the first `count` entries those from `m` on are in their places. -/
structure Partly (count m : Nat) (xs ys : List α) : Prop where
  front : (ys.take count).Perm (xs.take count)
  back : ys.drop count = xs.drop count
  sorted : ((ys.drop m).take (count - m)).Pairwise fun x y => key x ≤ key y
  above : ∀ x ∈ ys.take m, ∀ y ∈ (ys.drop m).take (count - m), key x ≤ key y

theorem partly_start (count : Nat) (xs : List α) : Partly key count count xs xs where
  front := .refl _
  back := rfl
  sorted := by simp
  above := by simp

theorem Partly.pass {count n : Nat} {xs ys : List α} (partly : Partly key count (n + 1) xs ys)
    (bound : n < count) (room : count ≤ ys.length) :
    Partly key count n xs (pass key ys n) := by
  have passed := pass_passed key n ys (by omega)
  generalize BubbleSort.pass key ys n = zs at passed
  obtain ⟨t, there, top⟩ := passed.top
  have split : ∀ l : List α,
      l.take count = l.take (n + 1) ++ (l.drop (n + 1)).take (count - (n + 1)) := by
    intro l
    rw [← List.take_add, Nat.add_sub_cancel' bound]
  have suffix : (zs.drop n).take (count - n) = t :: (ys.drop (n + 1)).take (count - (n + 1)) := by
    have cell : zs.drop n = t :: zs.drop (n + 1) := by
      obtain ⟨inside, value⟩ := List.getElem?_eq_some_iff.mp there
      rw [List.drop_eq_getElem_cons inside, value]
    have more : count - n = count - (n + 1) + 1 := by omega
    rw [cell, more, List.take_succ_cons, passed.back]
  have old : ∀ x ∈ zs.take (n + 1), x ∈ ys.take (n + 1) := fun x => passed.front.mem_iff.mp
  have topOld : t ∈ ys.take (n + 1) := by
    refine old t (List.mem_of_getElem? (i := n) ?_)
    rw [List.getElem?_take_of_lt (Nat.lt_succ_self n)]
    exact there
  constructor
  case front =>
    refine List.Perm.trans ?_ partly.front
    rw [split zs, split ys, passed.back]
    exact passed.front.append_right _
  case back =>
    rw [← partly.back, ← Nat.add_sub_cancel' bound, ← List.drop_drop, ← List.drop_drop, passed.back]
  case sorted =>
    rw [suffix, List.pairwise_cons]
    exact ⟨fun y later => partly.above t topOld y later, partly.sorted⟩
  case above =>
    intro x early y later
    have member : x ∈ ys.take (n + 1) :=
      old x (List.take_subset_take_left zs (Nat.le_succ n) early)
    rw [suffix] at later
    rcases List.mem_cons.mp later with rfl | later
    · exact top x member
    · exact partly.above x member y later

theorem pass_length (xs : List α) (m : Nat) (room : m < xs.length) :
    (pass key xs m).length = xs.length := by
  have passed := pass_passed key m xs room
  rw [← List.take_append_drop (m + 1) (pass key xs m), passed.back, List.length_append,
    passed.front.length_eq, ← List.length_append, List.take_append_drop]

theorem passes_partly (count : Nat) (xs : List α) (room : count ≤ xs.length) (i : Nat)
    (some : i < count) :
    Partly key count (count - i) xs
        ((List.range i).foldl (fun xs i => pass key xs (count - i - 1)) xs) ∧
      ((List.range i).foldl (fun xs i => pass key xs (count - i - 1)) xs).length = xs.length := by
  induction i with
  | zero => exact ⟨partly_start key count xs, rfl⟩
  | succ i ih =>
      obtain ⟨partly, length⟩ := ih (by omega)
      rw [List.range_succ, List.foldl_append, List.foldl_cons, List.foldl_nil]
      have next : count - i = count - (i + 1) + 1 := by omega
      have bound : count - i - 1 = count - (i + 1) := by omega
      rw [next] at partly
      rw [bound]
      exact ⟨partly.pass key (by omega) (by omega), (pass_length key _ _ (by omega)).trans length⟩

/-- The sort permutes the first `count` entries into order and leaves the
others alone. -/
theorem sort_spec (count : Nat) (xs : List α) (room : count ≤ xs.length) :
    ((sort key count xs).take count).Perm (xs.take count) ∧
      (sort key count xs).drop count = xs.drop count ∧
      ((sort key count xs).take count).Pairwise (fun x y => key x ≤ key y) ∧
      (sort key count xs).length = xs.length := by
  cases count with
  | zero => exact ⟨.refl _, rfl, by simp [sort], rfl⟩
  | succ n =>
      obtain ⟨partly, length⟩ := passes_partly key (n + 1) xs room n (Nat.lt_succ_self n)
      have one : n + 1 - n = 0 + 1 := by omega
      rw [one] at partly
      refine ⟨partly.front, partly.back, ?_, length⟩
      have whole := partly.pass key (Nat.succ_pos n) (by omega)
      have same : pass key (sort key (n + 1) xs) 0 = sort key (n + 1) xs := rfl
      have sorted := whole.sorted
      rw [Nat.sub_zero, List.drop_zero] at sorted
      exact sorted

end Xv6.Lib.BubbleSort
