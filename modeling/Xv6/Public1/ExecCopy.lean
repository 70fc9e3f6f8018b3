import Xv6.Public1.ExecImage

/-!
# Where copyout() writes for exec()

The new image has its stack in the last page, a page without PTE_U below it and
user pages below that; above KERNBASE nothing is for the user, and between the
memory and the devices there is no page table at all.  A block that is not within
the stack page is refused, or copyout() follows a null pointer.
-/

set_option autoImplicit false

namespace Xv6.Public1.Exec

open Xv6.Lib.Words
open Xv6.Public3 hiding PGROUNDDOWN
open Xv6.Machine (PGROUNDDOWN page_offset)

variable {d : Pgdir}

/-- The addresses above KERNBASE without page table. -/
def Hole (va : Nat) : Prop := RAM ≤ va ∧ va < DEVSPACE

instance (va : Nat) : Decidable (Hole va) := inferInstanceAs (Decidable (_ ∧ _))

/-- A new image with its guard page. -/
structure Ready (d : Pgdir) (sz : Nat) : Prop where
  two : 2 * PGSIZE ≤ sz
  small : sz < KERNBASE
  aligned : sz % PGSIZE = 0
  user : ∀ va, va < sz → ¬ (sz - 2 * PGSIZE ≤ va ∧ va < sz - PGSIZE) →
    ∃ e, d.pte va = some e ∧ e.perm.u = true
  guard : ∀ va, sz - 2 * PGSIZE ≤ va → va < sz - PGSIZE →
    ∃ e, d.pte va = some e ∧ e.perm.u = false
  kernel : ∀ va e, KERNBASE ≤ va → va < 2 ^ 32 → d.pte va = some e → e.perm.u = false
  hole : ∀ va, KERNBASE ≤ va → va < 2 ^ 32 → (d.pde (PDX va) = none ↔ Hole va)

/-! ## Addresses -/

theorem and_not_three (w : Word) : (w &&& (~~~3 : Word)).toNat = w.toNat / 4 * 4 := by
  have shifted : w &&& (~~~3 : Word) = w >>> 2 <<< 2 := by
    apply BitVec.eq_of_getLsbD_eq
    intro i inside
    have mask : ∀ i : Fin 32, (~~~3 : Word).getLsbD i.val = decide (2 ≤ i.val) := by decide
    have here := mask ⟨i, inside⟩
    rw [BitVec.getLsbD_and, here, BitVec.getLsbD_shiftLeft, BitVec.getLsbD_ushiftRight]
    by_cases low : i < 2
    · simp [low, inside]
    · have back : 2 + (i - 2) = i := by omega
      simp [low, inside, back]
      omega
  have bound := w.isLt
  rw [shifted, BitVec.toNat_shiftLeft, BitVec.toNat_ushiftRight, Nat.shiftLeft_eq,
    Nat.shiftRight_eq_div_pow]
  omega

/-- An argument that is not longer than what is below `sp` goes below it. -/
theorem push_toNat (sp : Word) (len : Nat) (fits : len + 1 ≤ sp.toNat) :
    (push sp len).toNat = (sp.toNat - (len + 1)) / 4 * 4 := by
  have bound := sp.isLt
  unfold push
  rw [and_not_three, BitVec.toNat_sub, BitVec.toNat_ofNat]
  omega

/-- A longer one gets an address above KERNBASE. -/
theorem push_wraps {sp : Word} {len : Nat} (long : sp.toNat < len + 1) (small : len < KERNBASE) :
    KERNBASE ≤ (push sp len).toNat := by
  have bound := sp.isLt
  unfold push
  rw [and_not_three, BitVec.toNat_sub, BitVec.toNat_ofNat]
  simp only [KERNBASE] at *
  omega

theorem rounddown_toNat (va : Word) :
    (PGROUNDDOWN va).toNat = va.toNat - va.toNat % PGSIZE := by
  have below : va.toNat % PGSIZE ≤ va.toNat := Nat.mod_le _ _
  have bound := va.isLt
  have same : Machine.PGSIZE = PGSIZE := rfl
  rw [PGROUNDDOWN, same]
  generalize va.toNat % PGSIZE = offset at below ⊢
  bv_omega

theorem uva2ka_of_pte {uva : Word} {e : Pte} (entry : d.pte uva.toNat = some e) :
    uva2ka d uva = .ok (if e.perm.u = true then some e.page else none) := by
  obtain ⟨pgtab, found⟩ := Option.isSome_iff_exists.mp (Pgdir.pde_of_pte (entry ▸ rfl :
    (d.pte uva.toNat).isSome = true))
  unfold uva2ka
  rw [found, entry]
  rfl

theorem uva2ka_hole {uva : Word} (absent : d.pde (PDX uva.toNat) = none) :
    uva2ka d uva = .error .nullDereference := by
  unfold uva2ka
  rw [absent]

/-! ## One round -/

section Round
variable {fuel : Nat} {mem : Memory} {va : Word} {c : Byte} {buf : List Byte}

theorem copyout_found {page : Page} (found : uva2ka d (PGROUNDDOWN va) = .ok (some page)) :
    copyoutLoop d (fuel + 1) mem va (c :: buf) =
      copyoutLoop d fuel
        (overlay mem (page + (va - PGROUNDDOWN va))
          ((c :: buf).take (min (PGSIZE - va.toNat % PGSIZE) (buf.length + 1))))
        (PGROUNDDOWN va + BitVec.ofNat 32 PGSIZE)
        ((c :: buf).drop (min (PGSIZE - va.toNat % PGSIZE) (buf.length + 1))) := by
  have offset : (va - PGROUNDDOWN va).toNat = va.toNat % PGSIZE := page_offset va
  rw [copyoutLoop]
  dsimp only
  rw [found, offset]
  rfl

theorem copyout_refused (refused : uva2ka d (PGROUNDDOWN va) = .ok none) :
    copyoutLoop d (fuel + 1) mem va (c :: buf) = .ok (false, mem) := by
  rw [copyoutLoop]
  dsimp only
  rw [refused]
  rfl

theorem copyout_fault {e : Fault} (fault : uva2ka d (PGROUNDDOWN va) = .error e) :
    copyoutLoop d (fuel + 1) mem va (c :: buf) = .error e := by
  rw [copyoutLoop]
  dsimp only
  rw [fault]
  rfl

end Round

namespace Ready

variable {sz : Nat} (h : Ready d sz)
include h

/-- The page of the stack. -/
theorem stackPage : ∃ e, d.pte (sz - PGSIZE) = some e ∧ e.perm.u = true := by
  have two := h.two
  exact h.user (sz - PGSIZE) (by simp only [PGSIZE] at *; omega) (by omega)

/-- A block in the stack page is written. -/
theorem inside {va : Word} {buf : List Byte} {e : Pte} (mem : Memory) (some_byte : buf ≠ [])
    (entry : d.pte (sz - PGSIZE) = some e) (first : sz - PGSIZE ≤ va.toNat)
    (last : va.toNat + buf.length ≤ sz) :
    copyout d mem va buf =
      .ok (true, overlay mem (e.page + BitVec.ofNat 32 (va.toNat - (sz - PGSIZE))) buf) := by
  have two := h.two
  have aligned := h.aligned
  obtain ⟨c, buf, rfl⟩ := List.exists_cons_of_ne_nil some_byte
  rw [List.length_cons] at last
  have down : (PGROUNDDOWN va).toNat = sz - PGSIZE := by
    rw [rounddown_toNat]
    simp only [PGSIZE] at *
    omega
  have offset : va - PGROUNDDOWN va = BitVec.ofNat 32 (va.toNat - (sz - PGSIZE)) := by
    apply BitVec.eq_of_toNat_eq
    have bound := va.isLt
    rw [page_offset, BitVec.toNat_ofNat]
    simp only [PGSIZE, Machine.PGSIZE] at *
    omega
  have whole : min (PGSIZE - va.toNat % PGSIZE) (buf.length + 1) = (c :: buf).length := by
    rw [List.length_cons]
    simp only [PGSIZE] at *
    omega
  have user : uva2ka d (PGROUNDDOWN va) = .ok (some e.page) := by
    obtain ⟨e', entry', granted⟩ := h.stackPage
    obtain rfl : e = e' := Option.some.inj (entry.symm.trans entry')
    rw [uva2ka_of_pte (down.symm ▸ entry), if_pos granted]
  unfold copyout
  rw [List.length_cons, copyout_found user, whole, offset, List.take_length, List.drop_length,
    copyoutLoop]
  rfl

/-- A block that reaches the guard page from below is refused there. -/
theorem stops {fuel : Nat} {mem : Memory} {va : Word} {buf : List Byte}
    (enough : buf.length ≤ fuel) (below : va.toNat < sz - PGSIZE)
    (reaches : sz - 2 * PGSIZE < va.toNat + buf.length) (some_byte : buf ≠ []) :
    ∃ mem', copyoutLoop d fuel mem va buf = .ok (false, mem') := by
  have two := h.two
  have small := h.small
  have aligned := h.aligned
  induction fuel generalizing mem va buf with
  | zero => exact absurd (List.eq_nil_of_length_eq_zero (Nat.le_zero.mp enough)) some_byte
  | succ fuel ih =>
      obtain ⟨c, buf, rfl⟩ := List.exists_cons_of_ne_nil some_byte
      have down := rounddown_toNat va
      rw [List.length_cons] at enough reaches
      by_cases guard : sz - 2 * PGSIZE ≤ va.toNat
      · obtain ⟨e, entry, refused⟩ := h.guard (PGROUNDDOWN va).toNat
          (by simp only [PGSIZE] at *; omega) (by omega)
        refine ⟨mem, copyout_refused ?_⟩
        rw [uva2ka_of_pte entry, if_neg (by simp [refused])]
      · obtain ⟨e, entry, granted⟩ := h.user (PGROUNDDOWN va).toNat (by omega) (by omega)
        have found : uva2ka d (PGROUNDDOWN va) = .ok (some e.page) := by
          rw [uva2ka_of_pte entry, if_pos granted]
        have next : (PGROUNDDOWN va + BitVec.ofNat 32 PGSIZE).toNat =
            va.toNat - va.toNat % PGSIZE + PGSIZE := by
          rw [BitVec.toNat_add, down, BitVec.toNat_ofNat]
          simp only [PGSIZE, KERNBASE] at *
          omega
        rw [copyout_found found]
        have rest : ((c :: buf).drop (min (PGSIZE - va.toNat % PGSIZE) (buf.length + 1))).length =
            buf.length + 1 - min (PGSIZE - va.toNat % PGSIZE) (buf.length + 1) := by
          rw [List.length_drop, List.length_cons]
        apply ih
        · rw [rest]
          simp only [PGSIZE] at *
          omega
        · rw [next]
          simp only [PGSIZE] at *
          omega
        · rw [next, rest]
          simp only [PGSIZE] at *
          omega
        · rw [← List.length_pos_iff, rest]
          simp only [PGSIZE] at *
          omega

/-- Above KERNBASE a block is refused at once, or the null pointer is followed. -/
theorem kernelBlock (mem : Memory) {va : Word} {buf : List Byte} (above : KERNBASE ≤ va.toNat)
    (some_byte : buf ≠ []) :
    copyout d mem va buf = if Hole va.toNat then .error .nullDereference else .ok (false, mem) := by
  obtain ⟨c, buf, rfl⟩ := List.exists_cons_of_ne_nil some_byte
  have bound := va.isLt
  have down := rounddown_toNat va
  have high : KERNBASE ≤ (PGROUNDDOWN va).toNat := by
    rw [down]
    simp only [KERNBASE, PGSIZE] at *
    omega
  have table := h.hole (PGROUNDDOWN va).toNat high (PGROUNDDOWN va).isLt
  have same : Hole (PGROUNDDOWN va).toNat ↔ Hole va.toNat := by
    rw [down]
    simp only [Hole, RAM, KERNBASE, PHYSTOP, DEVSPACE, PGSIZE]
    omega
  rw [same] at table
  unfold copyout
  by_cases lost : Hole va.toNat
  · rw [if_pos lost, List.length_cons]
    exact copyout_fault (uva2ka_hole (table.mpr lost))
  · rw [if_neg lost, List.length_cons]
    apply copyout_refused
    cases entry : d.pte (PGROUNDDOWN va).toNat with
    | none =>
        unfold uva2ka
        cases found : d.pde (PDX (PGROUNDDOWN va).toNat) with
        | none => exact absurd (table.mp found) lost
        | some pgtab =>
            dsimp only
            rw [entry]
            rfl
    | some e =>
        have refused := h.kernel _ e high (PGROUNDDOWN va).isLt entry
        rw [uva2ka_of_pte entry, if_neg (by simp [refused])]

end Ready

end Xv6.Public1.Exec
