import Mathlib.Tactic.Common
import Xv6.Lib.Words

/-!
# C strings

A string is the list of bytes from a pointer on; the end of the list reads as
the NUL.  `text` is what the string says, and the functions of the C library
are compared with it.
-/

set_option autoImplicit false

namespace Xv6.Lib.CString

open Xv6.Lib.Words

/-- The bytes of a string literal. -/
def bytes (s : String) : List Byte := s.toList.map fun c => BitVec.ofNat 8 c.toNat

/-- The bytes before the first NUL. -/
def text (s : List Byte) : List Byte := s.takeWhile fun c => decide (c ≠ 0)

@[simp] theorem text_nil : text [] = [] := rfl

theorem text_cons (c : Byte) (s : List Byte) :
    text (c :: s) = if c = 0 then [] else c :: text s := by
  unfold text
  rw [List.takeWhile_cons]
  by_cases nul : c = 0
  · rw [if_pos nul, if_neg (by simp [nul])]
  · rw [if_neg nul, if_pos (decide_eq_true nul)]

def strlen : List Byte → Nat
  | [] => 0
  | c :: s => if c = 0 then 0 else strlen s + 1

def strcmp : List Byte → List Byte → Int
  | [], q => 0 - ((q.headD 0).toNat : Int)
  | c :: p, q =>
      if c ≠ 0 ∧ c = q.headD 0 then strcmp p q.tail
      else (c.toNat : Int) - ((q.headD 0).toNat : Int)

def strncmp : Nat → List Byte → List Byte → Int
  | 0, _, _ => 0
  | n + 1, p, q =>
      if p.headD 0 ≠ 0 ∧ p.headD 0 = q.headD 0 then strncmp n p.tail q.tail
      else ((p.headD 0).toNat : Int) - ((q.headD 0).toNat : Int)

/-- The `n` bytes that `strncpy(s, t, n)` of the kernel writes. -/
def strncpy : Nat → List Byte → List Byte
  | 0, _ => []
  | n + 1, t =>
      if t.headD 0 = 0 then List.replicate (n + 1) 0 else t.headD 0 :: strncpy n t.tail

/-- `safestrcpy(s, t, n)` of the kernel, into the array `s`. -/
def safestrcpy : List Byte → List Byte → Nat → List Byte
  | s, _, 0 => s
  | [], _, _ + 1 => []
  | _ :: s, t, n + 1 =>
      if n = 0 then 0 :: s
      else if t.headD 0 ≠ 0 then t.headD 0 :: safestrcpy s t.tail n
      else 0 :: s.set 0 0

/-- A string is its first byte and the rest, or empty if that byte is NUL. -/
theorem text_eq (s : List Byte) :
    text s = if s.headD 0 = 0 then [] else s.headD 0 :: text s.tail := by
  cases s with
  | nil => rfl
  | cons c s => simpa using text_cons c s

/-- Two such strings agree if the first bytes and, past them, the rests do. -/
theorem cell_eq_iff (a b : Byte) (s t : List Byte) :
    (if a = 0 then [] else a :: s) = (if b = 0 then [] else b :: t) ↔ a = b ∧ (a ≠ 0 → s = t) := by
  by_cases left : a = 0
  · rw [if_pos left]
    by_cases right : b = 0
    · rw [if_pos right]
      exact iff_of_true rfl ⟨left.trans right.symm, fun h => absurd left h⟩
    · rw [if_neg right]
      exact iff_of_false (List.cons_ne_nil b t).symm fun same => right (same.1 ▸ left)
  · rw [if_neg left]
    by_cases right : b = 0
    · rw [if_pos right]
      exact iff_of_false (List.cons_ne_nil a s) fun same => left (same.1.trans right)
    · rw [if_neg right, List.cons.injEq]
      exact and_congr_right fun _ => ⟨fun same _ => same, fun same => same left⟩

theorem text_eq_iff (p q : List Byte) : text p = text q ↔
    p.headD 0 = q.headD 0 ∧ (p.headD 0 ≠ 0 → text p.tail = text q.tail) := by
  rw [text_eq p, text_eq q, cell_eq_iff]

theorem take_text (n : Nat) (s : List Byte) : (text s).take (n + 1) =
    if s.headD 0 = 0 then [] else s.headD 0 :: (text s.tail).take n := by
  rw [text_eq s]
  split <;> rfl

theorem byte_sub_eq_zero_iff (a b : Byte) : (a.toNat : Int) - (b.toNat : Int) = 0 ↔ a = b := by
  rw [← BitVec.toNat_inj]
  omega

/-- The last comparison of both functions, after the bytes that agree. -/
theorem diff_eq_zero_iff {a b : Byte} (differs : ¬ (a ≠ 0 ∧ a = b)) (rest : Prop) :
    (a.toNat : Int) - (b.toNat : Int) = 0 ↔ a = b ∧ (a ≠ 0 → rest) := by
  rw [byte_sub_eq_zero_iff]
  exact ⟨fun same => ⟨same, fun nonzero => absurd ⟨nonzero, same⟩ differs⟩, fun same => same.1⟩

theorem strcmp_eq_zero_iff (p q : List Byte) : strcmp p q = 0 ↔ text p = text q := by
  induction p generalizing q with
  | nil =>
      rw [strcmp, text_eq_iff]
      exact diff_eq_zero_iff (a := 0) (fun differs => differs.1 rfl) _
  | cons c p ih =>
      rw [strcmp, text_eq_iff]
      split
      · rename_i equal
        rw [ih]
        exact ⟨fun same => ⟨equal.2, fun _ => same⟩, fun same => same.2 equal.1⟩
      · rename_i differs
        exact diff_eq_zero_iff differs _

theorem strncmp_eq_zero_iff (n : Nat) (p q : List Byte) :
    strncmp n p q = 0 ↔ (text p).take n = (text q).take n := by
  induction n generalizing p q with
  | zero => simp [strncmp]
  | succ n ih =>
      rw [strncmp, take_text, take_text, cell_eq_iff]
      split
      · rename_i equal
        rw [ih]
        exact ⟨fun same => ⟨equal.2, fun _ => same⟩, fun same => same.2 equal.1⟩
      · rename_i differs
        exact diff_eq_zero_iff differs _

/-! ## Copying -/

theorem text_replicate (n : Nat) : text (List.replicate n 0) = [] := by
  cases n with
  | zero => rfl
  | succ n => rw [List.replicate_succ, text_cons, if_pos rfl]

theorem strncpy_length (n : Nat) (t : List Byte) : (strncpy n t).length = n := by
  induction n generalizing t with
  | zero => rfl
  | succ n ih =>
      rw [strncpy]
      split
      · exact List.length_replicate
      · rw [List.length_cons, ih]

/-- The copy is what fits of the string, and need not end. -/
theorem strncpy_text (n : Nat) (t : List Byte) : text (strncpy n t) = (text t).take n := by
  induction n generalizing t with
  | zero => rfl
  | succ n ih =>
      rw [strncpy, take_text]
      split
      · exact text_replicate (n + 1)
      · rename_i nonzero
        rw [text_cons, if_neg nonzero, ih]

theorem safestrcpy_length (s t : List Byte) (n : Nat) : (safestrcpy s t n).length = s.length := by
  induction n generalizing s t with
  | zero => cases s <;> rfl
  | succ n ih =>
      cases s with
      | nil => rfl
      | cons c s =>
          rw [safestrcpy]
          split
          · rfl
          · split
            · rw [List.length_cons, ih, List.length_cons]
            · simp

/-- The copy is what fits of the string. -/
theorem safestrcpy_text (s t : List Byte) (n : Nat) (room : n + 1 ≤ s.length) :
    text (safestrcpy s t (n + 1)) = (text t).take n := by
  induction n generalizing s t with
  | zero =>
      cases s with
      | nil => simp at room
      | cons c s => simp [safestrcpy, text_cons]
  | succ n ih =>
      cases s with
      | nil => simp at room
      | cons c s =>
          rw [safestrcpy, if_neg (Nat.succ_ne_zero n), take_text]
          split
          · rename_i nonzero
            rw [text_cons, if_neg nonzero, ih s t.tail (Nat.le_of_succ_le_succ room)]
          · rename_i zero
            rw [text_cons, if_pos rfl, if_pos (not_not.mp zero)]

/-- The copy ends inside the array. -/
theorem safestrcpy_ends (s t : List Byte) (n : Nat) (room : n + 1 ≤ s.length) :
    (0 : Byte) ∈ safestrcpy s t (n + 1) := by
  induction n generalizing s t with
  | zero =>
      cases s with
      | nil => simp at room
      | cons c s => simp [safestrcpy]
  | succ n ih =>
      cases s with
      | nil => simp at room
      | cons c s =>
          rw [safestrcpy, if_neg (Nat.succ_ne_zero n)]
          split
          · exact List.mem_cons_of_mem _ (ih s t.tail (Nat.le_of_succ_le_succ room))
          · exact List.mem_cons_self

theorem text_length_lt {s : List Byte} (ends : (0 : Byte) ∈ s) : (text s).length < s.length := by
  induction s with
  | nil => cases ends
  | cons c s ih =>
      rw [text_cons]
      split
      · simp
      · rename_i nonzero
        rcases List.mem_cons.mp ends with zero | later
        · exact absurd zero.symm nonzero
        · simpa using ih later

end Xv6.Lib.CString
