import Mathlib.Algebra.Group.Nat.Defs
import Mathlib.Data.Nat.ModEq
import Mathlib.Logic.Function.Basic
import Mathlib.Tactic.Common
import Xv6.Lib.Words

/-!
# Rings with wrapping indices

A ring of `size` cells whose indices are 32-bit words that only ever go up by one and
wrap; a cell is the index modulo `size`, and `size` divides `2 ^ 32`.  `slice` is the list
of the cells from an index on.
-/

set_option autoImplicit false

namespace Xv6.Lib.Ring

open Xv6.Lib.Words

universe u

variable {α : Type u} {size : Nat}

/-- `n % size` -/
def cell (pos : 0 < size) (n : Word) : Fin size := ⟨n.toNat % size, Nat.mod_lt _ pos⟩

/-- `len` cells from the index `start` on. -/
def slice (pos : 0 < size) (buf : Fin size → α) : Word → Nat → List α
  | _, 0 => []
  | start, len + 1 => buf (cell pos start) :: slice pos buf (start + 1) len

section
variable (pos : 0 < size) (buf : Fin size → α) (start : Word)

@[simp] theorem slice_length (len : Nat) : (slice pos buf start len).length = len := by
  induction len generalizing start with
  | zero => rfl
  | succ len ih => simp [slice, ih]

theorem add_ofNat_succ (len : Nat) :
    start + BitVec.ofNat 32 (len + 1) = start + 1 + BitVec.ofNat 32 len := by
  rw [Nat.add_comm, BitVec.ofNat_add, ← BitVec.add_assoc]
  rfl

theorem slice_add (m n : Nat) :
    slice pos buf start (m + n) =
      slice pos buf start m ++ slice pos buf (start + BitVec.ofNat 32 m) n := by
  induction m generalizing start with
  | zero => simp [slice]
  | succ m ih =>
      rw [Nat.succ_add, slice, ih, ← add_ofNat_succ, slice, List.cons_append]

theorem slice_succ (len : Nat) :
    slice pos buf start (len + 1) =
      slice pos buf start len ++ [buf (cell pos (start + BitVec.ofNat 32 len))] := by
  rw [slice_add]
  rfl

theorem cell_add (divides : size ∣ 2 ^ 32) (k : Nat) :
    (cell pos (start + BitVec.ofNat 32 k)).val = (start.toNat + k) % size := by
  simp only [cell, BitVec.toNat_add, BitVec.toNat_ofNat]
  rw [Nat.mod_mod_of_dvd _ divides, Nat.add_mod, Nat.mod_mod_of_dvd _ divides, ← Nat.add_mod]

/-- Cells less than a round apart are different. -/
theorem cell_ne (divides : size ∣ 2 ^ 32) {i j : Nat} (apart : i < j) (round : j < i + size) :
    cell pos (start + BitVec.ofNat 32 i) ≠ cell pos (start + BitVec.ofNat 32 j) := by
  intro same
  have values := congrArg Fin.val same
  rw [cell_add pos start divides, cell_add pos start divides] at values
  obtain ⟨d, rfl⟩ : ∃ d, j = i + d := ⟨j - i, by omega⟩
  have zero : d % size = 0 := by
    have shifted : start.toNat + i + d ≡ start.toNat + i + 0 [MOD size] := by
      rw [Nat.ModEq, Nat.add_zero, Nat.add_assoc, ← values]
    have zero : d % size = 0 % size := Nat.ModEq.add_left_cancel' _ shifted
    rw [zero, Nat.zero_mod]
  rw [Nat.mod_eq_of_lt (by omega)] at zero
  omega

/-- A store behind the slice does not reach it while there is room. -/
theorem slice_update (divides : size ∣ 2 ^ 32) {len at_ : Nat} (behind : len ≤ at_)
    (room : at_ < size) (x : α) :
    slice pos (Function.update buf (cell pos (start + BitVec.ofNat 32 at_)) x) start len =
      slice pos buf start len := by
  induction len with
  | zero => rfl
  | succ len ih =>
      rw [slice_succ, slice_succ, ih (by omega),
        Function.update_of_ne (cell_ne pos start divides (by omega) (by omega))]

end

/-- The distance between two indices. -/
theorem sub_start (start : Word) {len : Nat} (small : len < 2 ^ 32) :
    (start + BitVec.ofNat 32 len - start).toNat = len := by
  rw [BitVec.add_comm, BitVec.add_sub_cancel, BitVec.toNat_ofNat]
  exact Nat.mod_eq_of_lt small

theorem add_inj (start : Word) {m n : Nat} (left : m < 2 ^ 32) (right : n < 2 ^ 32) :
    start + BitVec.ofNat 32 m = start + BitVec.ofNat 32 n ↔ m = n := by
  constructor
  · intro same
    rw [← sub_start start left, ← sub_start start right, same]
  · rintro rfl
    rfl

theorem add_eq_self_iff (start : Word) {len : Nat} (small : len < 2 ^ 32) :
    start + BitVec.ofNat 32 len = start ↔ len = 0 := by
  have inj := add_inj start small (Nat.two_pow_pos 32)
  rwa [show start + BitVec.ofNat 32 0 = start from BitVec.add_zero start] at inj

end Xv6.Lib.Ring
