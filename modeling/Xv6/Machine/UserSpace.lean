import Xv6.Lib.Words

/-!
# User memory and copyout

The bytes of a process by virtual address, with the page table as the set of
the pages that user code may touch.  copyout() of vm.c, the same in the three
kernels, writes a block page by page and stops at the first page that is not
there for the user.
-/

set_option autoImplicit false

namespace Xv6.Machine

open Xv6.Lib.Words

def PGSIZE : Nat := 4096

def PGROUNDDOWN (va : Word) : Word := va - BitVec.ofNat 32 (va.toNat % PGSIZE)

structure UserSpace where
  mem : Memory
  /-- The page that starts at an address is present and a user page. -/
  user : Word → Bool

/-- The loop of copyout() over the bytes that are left, with fuel for as many
rounds; whether all of them were written, and the memory then. -/
def copyoutLoop (user : Word → Bool) : Nat → Memory → Word → List Byte → Bool × Memory
  | _, mem, _, [] => (true, mem)
  | 0, mem, _, _ :: _ => (false, mem)
  | fuel + 1, mem, va, c :: buf =>
      let va0 := PGROUNDDOWN va
      if user va0 = false then (false, mem)
      else
        let n := min (PGSIZE - (va - va0).toNat) (buf.length + 1)
        copyoutLoop user fuel (overlay mem va ((c :: buf).take n)) (va0 + BitVec.ofNat 32 PGSIZE)
          ((c :: buf).drop n)

def copyout (space : UserSpace) (va : Word) (buf : List Byte) : Bool × Memory :=
  copyoutLoop space.user buf.length space.mem va buf

theorem page_offset (va : Word) : (va - PGROUNDDOWN va).toNat = va.toNat % PGSIZE := by
  have below : va.toNat % PGSIZE ≤ va.toNat := Nat.mod_le _ _
  have bound := va.isLt
  rw [PGROUNDDOWN]
  generalize va.toNat % PGSIZE = offset at below
  bv_omega

theorem page_next (va : Word) : PGROUNDDOWN va + BitVec.ofNat 32 PGSIZE =
    va + BitVec.ofNat 32 (PGSIZE - va.toNat % PGSIZE) := by
  have below : va.toNat % PGSIZE < PGSIZE := Nat.mod_lt _ (by decide)
  rw [PGROUNDDOWN]
  generalize va.toNat % PGSIZE = offset at below
  unfold PGSIZE at below ⊢
  bv_omega

theorem copyoutLoop_ok (user : Word → Bool) (fuel : Nat) (mem : Memory) (va : Word)
    (buf : List Byte) (small : buf.length ≤ 2 ^ 32)
    (ok : (copyoutLoop user fuel mem va buf).1 = true) :
    (copyoutLoop user fuel mem va buf).2 = overlay mem va buf := by
  induction fuel generalizing mem va buf with
  | zero =>
      cases buf with
      | nil => exact (overlay_nil mem va).symm
      | cons c buf => cases ok
  | succ fuel ih =>
      cases buf with
      | nil => exact (overlay_nil mem va).symm
      | cons c buf =>
          simp only [copyoutLoop] at ok ⊢
          split at ok
          · cases ok
          · rename_i present
            rw [if_neg present]
            rw [page_offset, page_next] at ok ⊢
            rw [ih _ _ _ (by rw [List.length_drop]; omega) ok]
            by_cases last : buf.length + 1 ≤ PGSIZE - va.toNat % PGSIZE
            · rw [Nat.min_eq_right last, List.drop_of_length_le (by simp), overlay_nil,
                List.take_of_length_le (by simp)]
            · have chunk := Nat.le_of_lt (Nat.lt_of_not_le last)
              rw [Nat.min_eq_left chunk]
              have length : ((c :: buf).take (PGSIZE - va.toNat % PGSIZE)).length =
                  PGSIZE - va.toNat % PGSIZE := by
                rw [List.length_take, List.length_cons, Nat.min_eq_left chunk]
              have joined := overlay_append mem va ((c :: buf).take (PGSIZE - va.toNat % PGSIZE))
                ((c :: buf).drop (PGSIZE - va.toNat % PGSIZE)) (by
                  rw [← List.length_append, List.take_append_drop]
                  exact small)
              rw [length, List.take_append_drop] at joined
              exact joined

/-- A copyout that succeeds has written the block and nothing else. -/
theorem copyout_ok (space : UserSpace) (va : Word) (buf : List Byte)
    (small : buf.length ≤ 2 ^ 32) (ok : (copyout space va buf).1 = true) :
    (copyout space va buf).2 = overlay space.mem va buf :=
  copyoutLoop_ok space.user buf.length space.mem va buf small ok

end Xv6.Machine
