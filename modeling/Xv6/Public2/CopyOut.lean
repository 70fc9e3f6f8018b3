import Xv6.Lib.Outcome
import Xv6.Machine.UserSpace

/-!
# copyout() (vm.c of xv6-public_2)

uva2ka() looks a user page up in the page directory, and copyout() writes a block
through it, page by page.  The memory is the kernel's: a page is at P2V() of its
frame.  The page tables are a value, since copyout() does not write to them.
-/

set_option autoImplicit false

namespace Xv6.Public2.CopyOut

open Xv6.Lib.Words
open Xv6.Machine (PGSIZE PGROUNDDOWN page_offset page_next)

abbrev NPDENTRIES : Nat := 1024

abbrev NPTENTRIES : Nat := 1024

def KERNBASE : Word := 0x80000000

/-- `PTE_P` -/
def PTE_P : Word := 0x001

/-- `PTE_U` -/
def PTE_U : Word := 0x004

def PTE_ADDR (pte : Word) : Word := pte &&& ~~~0xFFF

def P2V (a : Word) : Word := a + KERNBASE

theorem npdentries_pos : 0 < NPDENTRIES := Nat.succ_pos 1023

theorem nptentries_pos : 0 < NPTENTRIES := Nat.succ_pos 1023

def PDX (va : Word) : Fin NPDENTRIES :=
  ⟨va.toNat / 2 ^ 22 % NPDENTRIES, Nat.mod_lt _ npdentries_pos⟩

def PTX (va : Word) : Fin NPTENTRIES :=
  ⟨va.toNat / 2 ^ 12 % NPTENTRIES, Nat.mod_lt _ nptentries_pos⟩

/-- The page tables of the entries with `PTE_P`. -/
structure Pgdir where
  pde : Fin NPDENTRIES → Option (Fin NPTENTRIES → Word)

inductive Fault where
  /-- The null result of walkpgdir() is dereferenced. -/
  | nullDereference
  deriving DecidableEq

/-- The entry of an address, with `alloc` 0. -/
def walkpgdir (pgdir : Pgdir) (va : Word) : Option Word :=
  (pgdir.pde (PDX va)).map fun pgtab => pgtab (PTX va)

/-- The kernel address of a user page, or 0. -/
def uva2ka (pgdir : Pgdir) (uva : Word) : Except Fault Word :=
  match walkpgdir pgdir uva with
  | none => .error .nullDereference
  | some pte =>
      if pte &&& PTE_P = 0 then pure 0
      else if pte &&& PTE_U = 0 then pure 0
      else pure (P2V (PTE_ADDR pte))

def memmove (mem : Memory) (dst : Word) (src : Nat → Byte) (n : Nat) : Memory := fun a =>
  if (a - dst).toNat < n then src (a - dst).toNat else mem a

/-- The rounds of copyout(), with `len` bytes of `buf` to come. -/
def copyoutLoop (pgdir : Pgdir) : Nat → Memory → Word → (Nat → Byte) → Nat →
    Except Fault (Int × Memory)
  | 0, mem, _, _, _ => pure (0, mem)
  | fuel + 1, mem, va, buf, len =>
      if len = 0 then pure (0, mem)
      else do
        let va0 := PGROUNDDOWN va
        let pa0 ← uva2ka pgdir va0
        if pa0 = 0 then pure (-1, mem)
        else
          let n := min (PGSIZE - (va - va0).toNat) len
          copyoutLoop pgdir fuel (memmove mem (pa0 + (va - va0)) buf n)
            (va0 + BitVec.ofNat 32 PGSIZE) (fun q => buf (n + q)) (len - n)

/-- What copyout() returns, and the memory then. -/
def copyout (pgdir : Pgdir) (mem : Memory) (va : Word) (p : Nat → Byte) (len : Word) :
    Except Fault (Int × Memory) :=
  copyoutLoop pgdir len.toNat mem va p len.toNat

/-! ## What copyout() is for -/

/-- The byte is in a page that is present and has `PTE_U`. -/
def UserByte (pgdir : Pgdir) (va : Word) : Prop :=
  ∃ pte, walkpgdir pgdir va = some pte ∧ pte &&& PTE_P ≠ 0 ∧ pte &&& PTE_U ≠ 0

/-- Where the kernel finds a byte of the user. -/
def address (pgdir : Pgdir) (va : Word) : Word :=
  P2V (PTE_ADDR ((walkpgdir pgdir va).getD 0)) + BitVec.ofNat 32 (va.toNat % PGSIZE)

/-- The first `m` bytes of `buf`, stored one after the other from `va` on. -/
def stored (pgdir : Pgdir) (mem : Memory) (va : Word) (buf : Nat → Byte) : Nat → Memory
  | 0 => mem
  | m + 1 => Function.update (stored pgdir mem va buf m)
      (address pgdir (va + BitVec.ofNat 32 m)) (buf m)

/-- The block `[va, va + m)` has been written, all of it in user pages. -/
structure Wrote (pgdir : Pgdir) (mem : Memory) (va : Word) (buf : Nat → Byte) (m : Nat)
    (mem' : Memory) : Prop where
  no_wrap : va.toNat + m ≤ 2 ^ 32
  user : ∀ k, k < m → UserByte pgdir (va + BitVec.ofNat 32 k)
  memory : mem' = stored pgdir mem va buf m

/-- What is wanted of a call. -/
def Meets (pgdir : Pgdir) (mem : Memory) (va : Word) (buf : Nat → Byte) (len : Word) : Prop :=
  match copyout pgdir mem va buf len with
  | .error _ => False
  | .ok (result, mem') =>
      result = 0 ∧ Wrote pgdir mem va buf len.toNat mem' ∨
        result = -1 ∧ ∃ m, m ≤ len.toNat ∧ Wrote pgdir mem va buf m mem'

/-! ## The pages of a block -/

/-- The page with the first byte, and those after it. -/
def page (va : Word) (k : Nat) : Word := PGROUNDDOWN va + BitVec.ofNat 32 (k * PGSIZE)

/-- The `k`th page has a byte of the block. -/
def Touches (va : Word) (len k : Nat) : Prop := 0 < len ∧ k * PGSIZE < va.toNat % PGSIZE + len

/-- The bytes of the block before the `k`th page. -/
def before (va : Word) (k : Nat) : Nat := k * PGSIZE - va.toNat % PGSIZE

/-- uva2ka() finds the page. -/
def Found (pgdir : Pgdir) (va : Word) : Prop := ∃ pa0, uva2ka pgdir va = .ok pa0 ∧ pa0 ≠ 0

/-- Up to the first page that uva2ka() does not find, every page has a page table; and if the
block goes past the end of the address space, there is such a page up to page 0. -/
structure Safe (pgdir : Pgdir) (va : Word) (len : Nat) : Prop where
  tables : ∀ k, Touches va len k → (∀ j, j < k → Found pgdir (page va j)) →
    (pgdir.pde (PDX (page va k))).isSome = true
  wraps : 2 ^ 32 < va.toNat + len → ∃ k, k * PGSIZE ≤ 2 ^ 32 - (PGROUNDDOWN va).toNat ∧
    ¬ Found pgdir (page va k)

section Pages
variable {va : Word}

theorem rounddown_toNat (va : Word) :
    (PGROUNDDOWN va).toNat = va.toNat - va.toNat % PGSIZE := by
  have below : va.toNat % PGSIZE ≤ va.toNat := Nat.mod_le _ _
  have bound := va.isLt
  rw [PGROUNDDOWN]
  generalize va.toNat % PGSIZE = offset at below ⊢
  bv_omega

/-- A byte of the page that `va` is in. -/
theorem same_page (pgdir : Pgdir) {k : Nat} (inside : va.toNat % PGSIZE + k < PGSIZE) :
    walkpgdir pgdir (va + BitVec.ofNat 32 k) = walkpgdir pgdir (PGROUNDDOWN va) ∧
      (va + BitVec.ofNat 32 k).toNat % PGSIZE = va.toNat % PGSIZE + k := by
  have bound := va.isLt
  have down := rounddown_toNat va
  unfold PGSIZE at inside down ⊢
  have value : (va + BitVec.ofNat 32 k).toNat = va.toNat + k := by
    rw [BitVec.toNat_add, BitVec.toNat_ofNat]
    omega
  have pdx : PDX (va + BitVec.ofNat 32 k) = PDX (PGROUNDDOWN va) := by
    apply Fin.ext
    simp only [PDX, NPDENTRIES, value, down, Nat.reducePow]
    omega
  have ptx : PTX (va + BitVec.ofNat 32 k) = PTX (PGROUNDDOWN va) := by
    apply Fin.ext
    simp only [PTX, NPTENTRIES, value, down, Nat.reducePow]
    omega
  refine ⟨?_, ?_⟩
  · unfold walkpgdir
    rw [pdx, ptx]
  · rw [value]
    omega

theorem page_zero : page va 0 = PGROUNDDOWN va := by simp [page]

/-- The round after this one starts at the next page. -/
theorem page_succ (k : Nat) :
    page (PGROUNDDOWN va + BitVec.ofNat 32 PGSIZE) k = page va (k + 1) := by
  have aligned : PGROUNDDOWN (PGROUNDDOWN va + BitVec.ofNat 32 PGSIZE) =
      PGROUNDDOWN va + BitVec.ofNat 32 PGSIZE := by
    apply BitVec.eq_of_toNat_eq
    rw [rounddown_toNat, BitVec.toNat_add, rounddown_toNat]
    have bound := va.isLt
    simp only [PGSIZE, BitVec.toNat_ofNat]
    omega
  unfold page
  rw [aligned, BitVec.add_assoc, ← BitVec.ofNat_add, Nat.succ_mul, Nat.add_comm PGSIZE]

end Pages

/-! ## The loop -/

section Loop
variable {pgdir : Pgdir} {mem : Memory} {va : Word} {buf : Nat → Byte}

/-- Two blocks one after the other. -/
theorem stored_append (n m : Nat) : stored pgdir mem va buf (n + m) =
    stored pgdir (stored pgdir mem va buf n) (va + BitVec.ofNat 32 n) (fun q => buf (n + q)) m := by
  induction m with
  | zero => rfl
  | succ m ih =>
      rw [← Nat.add_assoc, stored, stored, ih, BitVec.add_assoc, ← BitVec.ofNat_add]

theorem found_entry {va : Word} (found : Found pgdir va) : ∃ pte, walkpgdir pgdir va = some pte ∧
    pte &&& PTE_P ≠ 0 ∧ pte &&& PTE_U ≠ 0 ∧ uva2ka pgdir va = .ok (P2V (PTE_ADDR pte)) := by
  obtain ⟨pa0, looked, nonzero⟩ := found
  unfold uva2ka at looked ⊢
  cases walked : walkpgdir pgdir va with
  | none =>
      rw [walked] at looked
      cases looked
  | some pte =>
      rw [walked] at looked
      dsimp only at looked ⊢
      split_ifs at looked with absent system
      · cases looked
        exact absurd rfl nonzero
      · cases looked
        exact absurd rfl nonzero
      · rw [if_neg absent, if_neg system]
        exact ⟨pte, rfl, absent, system, rfl⟩

theorem walk_of_error {va : Word} {e : Fault} (failed : uva2ka pgdir va = .error e) :
    walkpgdir pgdir va = none := by
  unfold uva2ka at failed
  cases walked : walkpgdir pgdir va with
  | none => rfl
  | some pte =>
      rw [walked] at failed
      dsimp only at failed
      split_ifs at failed
      all_goals cases failed

/-- What is within one page, at once or byte by byte. -/
theorem memmove_eq_stored {pa0 : Word} (found : Found pgdir (PGROUNDDOWN va))
    (looked : uva2ka pgdir (PGROUNDDOWN va) = .ok pa0) (n : Nat)
    (inside : va.toNat % PGSIZE + n ≤ PGSIZE) :
    memmove mem (pa0 + (va - PGROUNDDOWN va)) buf n = stored pgdir mem va buf n := by
  obtain ⟨pte, walked, _, _, here⟩ := found_entry found
  rw [here] at looked
  obtain rfl : P2V (PTE_ADDR pte) = pa0 := Except.ok.inj looked
  have offset : va - PGROUNDDOWN va = BitVec.ofNat 32 (va.toNat % PGSIZE) := by
    apply BitVec.eq_of_toNat_eq
    have below : va.toNat % PGSIZE < PGSIZE := Nat.mod_lt _ (by decide)
    rw [page_offset, BitVec.toNat_ofNat]
    unfold PGSIZE at below ⊢
    omega
  rw [offset]
  induction n with
  | zero =>
      funext a
      exact if_neg (Nat.not_lt_zero _)
  | succ n ih =>
      obtain ⟨same, place⟩ := same_page pgdir (Nat.lt_of_succ_le inside)
      have byte : address pgdir (va + BitVec.ofNat 32 n) =
          P2V (PTE_ADDR pte) + BitVec.ofNat 32 (va.toNat % PGSIZE) + BitVec.ofNat 32 n := by
        unfold address
        rw [same, walked, place, BitVec.ofNat_add, ← BitVec.add_assoc]
        rfl
      rw [stored, ← ih (Nat.le_of_succ_le inside), byte]
      generalize P2V (PTE_ADDR pte) + BitVec.ofNat 32 (va.toNat % PGSIZE) = dst
      have small : n < 2 ^ 32 := by
        unfold PGSIZE at inside
        omega
      funext a
      unfold memmove
      by_cases last : a = dst + BitVec.ofNat 32 n
      · have index : (a - dst).toNat = n := by
          rw [last]
          bv_omega
        rw [last, Function.update_self, ← last, index, if_pos (Nat.lt_succ_self n)]
      · have other : (a - dst).toNat ≠ n := by
          intro index
          apply last
          bv_omega
        rw [Function.update_of_ne last]
        congr 1
        rw [eq_iff_iff]
        omega

section Round
variable {fuel len : Nat} (more : len ≠ 0)
include more

theorem loop_fault {e : Fault} (looked : uva2ka pgdir (PGROUNDDOWN va) = .error e) :
    copyoutLoop pgdir (fuel + 1) mem va buf len = .error e := by
  rw [copyoutLoop, if_neg more]
  dsimp only
  rw [looked]
  rfl

theorem loop_stop (looked : uva2ka pgdir (PGROUNDDOWN va) = .ok 0) :
    copyoutLoop pgdir (fuel + 1) mem va buf len = .ok (-1, mem) := by
  rw [copyoutLoop, if_neg more]
  dsimp only
  rw [looked]
  rfl

theorem loop_round {n : Nat} (found : Found pgdir (PGROUNDDOWN va))
    (cut : n = min (PGSIZE - va.toNat % PGSIZE) len) :
    copyoutLoop pgdir (fuel + 1) mem va buf len =
      copyoutLoop pgdir fuel (stored pgdir mem va buf n)
        (PGROUNDDOWN va + BitVec.ofNat 32 PGSIZE) (fun q => buf (n + q)) (len - n) := by
  obtain ⟨pa0, looked, nonzero⟩ := found
  have below : va.toNat % PGSIZE < PGSIZE := Nat.mod_lt _ (by decide)
  rw [copyoutLoop, if_neg more]
  dsimp only
  rw [looked, page_offset, ← cut, ← memmove_eq_stored ⟨pa0, looked, nonzero⟩ looked n (by omega)]
  exact if_neg nonzero

end Round

/-- The rounds go through the pages up to one that uva2ka() does not find. -/
theorem loop_ends (pgdir : Pgdir) (fuel : Nat) : ∀ (mem : Memory) (va : Word) (buf : Nat → Byte) (len : Nat),
    len ≤ fuel →
    (∀ k, Touches va len k → Found pgdir (page va k)) ∧
        copyoutLoop pgdir fuel mem va buf len = .ok (0, stored pgdir mem va buf len) ∨
      ∃ k, Touches va len k ∧ (∀ j, j < k → Found pgdir (page va j)) ∧
        (uva2ka pgdir (page va k) = .ok 0 ∧ copyoutLoop pgdir fuel mem va buf len =
            .ok (-1, stored pgdir mem va buf (before va k)) ∨
          walkpgdir pgdir (page va k) = none ∧
            copyoutLoop pgdir fuel mem va buf len = .error .nullDereference) := by
  induction fuel with
  | zero =>
      intro mem va buf len enough
      obtain rfl := Nat.le_zero.mp enough
      exact Or.inl ⟨fun k touched => absurd touched.1 (Nat.lt_irrefl 0), rfl⟩
  | succ fuel ih =>
      intro mem va buf len enough
      by_cases done : len = 0
      · subst done
        exact Or.inl ⟨fun k touched => absurd touched.1 (Nat.lt_irrefl 0), rfl⟩
      · have some_byte : 0 < len := Nat.pos_of_ne_zero done
        have below : va.toNat % PGSIZE < PGSIZE := Nat.mod_lt _ (by decide)
        have first : Touches va len 0 := ⟨some_byte, by omega⟩
        cases looked : uva2ka pgdir (PGROUNDDOWN va) with
        | error e =>
            cases e
            refine Or.inr ⟨0, first, fun j impossible => absurd impossible (Nat.not_lt_zero j),
              Or.inr ⟨?_, loop_fault done looked⟩⟩
            rw [page_zero]
            exact walk_of_error looked
        | ok pa0 =>
            by_cases zero : pa0 = 0
            · subst zero
              refine Or.inr ⟨0, first, fun j impossible => absurd impossible (Nat.not_lt_zero j),
                Or.inl ⟨?_, ?_⟩⟩
              · rw [page_zero]
                exact looked
              · have none_before : before va 0 = 0 := by
                  unfold before
                  omega
                rw [none_before]
                exact loop_stop done looked
            · have found : Found pgdir (PGROUNDDOWN va) := ⟨pa0, looked, zero⟩
              obtain ⟨n, cut⟩ : ∃ n, n = min (PGSIZE - va.toNat % PGSIZE) len := ⟨_, rfl⟩
              rw [loop_round done found cut]
              have aligned : (PGROUNDDOWN va + BitVec.ofNat 32 PGSIZE).toNat % PGSIZE = 0 := by
                rw [BitVec.toNat_add, rounddown_toNat, BitVec.toNat_ofNat]
                have bound := va.isLt
                simp only [PGSIZE]
                omega
              -- The pages of the rest are those after the first.
              have rest : ∀ k, Touches (PGROUNDDOWN va + BitVec.ofNat 32 PGSIZE) (len - n) k ↔
                  Touches va len (k + 1) := by
                intro k
                unfold Touches
                rw [aligned, Nat.succ_mul]
                omega
              have every : ∀ k, (∀ j, j < k → Found pgdir
                  (page (PGROUNDDOWN va + BitVec.ofNat 32 PGSIZE) j)) →
                    ∀ j, j < k + 1 → Found pgdir (page va j) := by
                intro k before j less
                cases j with
                | zero =>
                    rw [page_zero]
                    exact found
                | succ j =>
                    rw [← page_succ]
                    exact before j (Nat.lt_of_succ_lt_succ less)
              have join : ∀ m, n = PGSIZE - va.toNat % PGSIZE ∨ m = 0 →
                  stored pgdir (stored pgdir mem va buf n)
                    (PGROUNDDOWN va + BitVec.ofNat 32 PGSIZE) (fun q => buf (n + q)) m =
                      stored pgdir mem va buf (n + m) := by
                rintro m (whole | rfl)
                · rw [stored_append, page_next, whole]
                · rfl
              obtain ⟨all, copied⟩ | ⟨k, touched, before_k, ended⟩ :=
                ih (stored pgdir mem va buf n) (PGROUNDDOWN va + BitVec.ofNat 32 PGSIZE)
                  (fun q => buf (n + q)) (len - n) (by omega)
              · left
                refine ⟨?_, ?_⟩
                · intro k touched
                  cases k with
                  | zero =>
                      rw [page_zero]
                      exact found
                  | succ k =>
                      rw [← page_succ]
                      exact all k ((rest k).mpr touched)
                · rw [copied, join _ (by omega), Nat.add_sub_cancel' (by omega)]
              · right
                have whole : n = PGSIZE - va.toNat % PGSIZE := by
                  have left := touched.1
                  omega
                refine ⟨k + 1, (rest k).mp touched, every k before_k, ?_⟩
                rw [← page_succ]
                rcases ended with ⟨stopped, copied⟩ | ⟨absent, fault⟩
                · left
                  refine ⟨stopped, ?_⟩
                  have count : n + before (PGROUNDDOWN va + BitVec.ofNat 32 PGSIZE) k =
                      before va (k + 1) := by
                    unfold before
                    rw [aligned, Nat.succ_mul]
                    omega
                  rw [copied, join _ (Or.inl whole), count]
                · exact Or.inr ⟨absent, fault⟩

end Loop

/-! ## When copyout() does what it is for -/

section Safe
variable {pgdir : Pgdir} {va : Word}

theorem page_aligned (va : Word) (k : Nat) : (page va k).toNat % PGSIZE = 0 := by
  unfold page
  rw [BitVec.toNat_add, rounddown_toNat, BitVec.toNat_ofNat]
  have bound := va.isLt
  unfold PGSIZE
  omega

/-- The bytes of a page that is found. -/
theorem user_of_found {q : Nat} (found : Found pgdir (page va ((va.toNat % PGSIZE + q) / PGSIZE))) :
    UserByte pgdir (va + BitVec.ofNat 32 q) := by
  obtain ⟨k, number⟩ : ∃ k, k = (va.toNat % PGSIZE + q) / PGSIZE := ⟨_, rfl⟩
  rw [← number] at found
  obtain ⟨pte, walked, present, user, _⟩ := found_entry found
  have aligned := page_aligned va k
  have inside : (page va k).toNat % PGSIZE + (va.toNat % PGSIZE + q) % PGSIZE < PGSIZE := by
    rw [aligned, Nat.zero_add]
    exact Nat.mod_lt _ (by decide)
  have here : page va k + BitVec.ofNat 32 ((va.toNat % PGSIZE + q) % PGSIZE) =
      va + BitVec.ofNat 32 q := by
    have bound := va.isLt
    have down := rounddown_toNat va
    apply BitVec.eq_of_toNat_eq
    unfold page
    rw [BitVec.toNat_add, BitVec.toNat_add, BitVec.toNat_add, down]
    simp only [BitVec.toNat_ofNat]
    rw [number]
    unfold PGSIZE
    omega
  have start : PGROUNDDOWN (page va k) = page va k := by
    apply BitVec.eq_of_toNat_eq
    rw [rounddown_toNat, aligned, Nat.sub_zero]
  have same := (same_page pgdir inside).1
  rw [here, start] at same
  exact ⟨pte, same.trans walked, present, user⟩

theorem not_found_of_zero {va : Word} (looked : uva2ka pgdir va = .ok 0) : ¬ Found pgdir va := by
  rintro ⟨pa0, again, nonzero⟩
  rw [looked] at again
  exact nonzero (Except.ok.inj again).symm

theorem not_found_of_walk {va : Word} (absent : walkpgdir pgdir va = none) : ¬ Found pgdir va := by
  intro found
  obtain ⟨pte, walked, _⟩ := found_entry found
  rw [absent] at walked
  cases walked

theorem meets_of_safe {len : Word} (safe : Safe pgdir va len.toNat) (mem : Memory)
    (buf : Nat → Byte) : Meets pgdir mem va buf len := by
  have bound := va.isLt
  have down := rounddown_toNat va
  unfold Meets copyout
  obtain ⟨all, ended⟩ | ⟨k, touched, before_k, ⟨stopped, ended⟩ | ⟨absent, _⟩⟩ :=
    loop_ends pgdir len.toNat mem va buf len.toNat (Nat.le_refl _)
  · rw [ended]
    refine Or.inl ⟨rfl, ?_⟩
    constructor
    case no_wrap =>
      by_contra wraps
      obtain ⟨k, low, missing⟩ := safe.wraps (Nat.lt_of_not_le wraps)
      apply missing
      apply all
      unfold Touches
      unfold PGSIZE at *
      omega
    case user =>
      intro q inside
      apply user_of_found
      apply all
      unfold Touches
      unfold PGSIZE at *
      omega
    case memory => rfl
  · rw [ended]
    have inside := touched.2
    refine Or.inr ⟨rfl, before va k, ?_, ?_⟩
    · unfold before
      omega
    · constructor
      case no_wrap =>
        by_contra past
        have wraps : 2 ^ 32 < va.toNat + len.toNat := by
          unfold before at past
          omega
        obtain ⟨k', low, missing⟩ := safe.wraps wraps
        have late : ¬ k' < k := fun less => missing (before_k k' less)
        unfold before at past
        unfold PGSIZE at *
        omega
      case user =>
        intro q inside
        apply user_of_found
        apply before_k
        unfold before at inside
        unfold PGSIZE at *
        omega
      case memory => rfl
  · have table := safe.tables k touched before_k
    rw [walkpgdir, Option.map_eq_none_iff] at absent
    rw [absent] at table
    cases table

/-- Of a block of zeroes up to the end of the address space and ones from there on, a one
stays. -/
theorem stored_mark (pgdir : Pgdir) (va : Word) {c : Nat} (m : Nat) (past : c < m) :
    stored pgdir (fun _ => 0) va (fun q => if q < c then 0 else 1) m
      (address pgdir (va + BitVec.ofNat 32 c)) = 1 := by
  induction m with
  | zero => exact absurd past (Nat.not_lt_zero c)
  | succ m ih =>
      have one : ¬ m < c := by omega
      rw [stored, if_neg one]
      by_cases here : address pgdir (va + BitVec.ofNat 32 c) =
          address pgdir (va + BitVec.ofNat 32 m)
      · rw [here, Function.update_self]
      · have later : m ≠ c := by
          rintro rfl
          exact here rfl
        rw [Function.update_of_ne here]
        exact ih (by omega)

theorem stored_zero {c : Nat} (m : Nat) (early : m ≤ c) :
    stored pgdir (fun _ => 0) va (fun q => if q < c then 0 else 1) m = fun _ => 0 := by
  induction m with
  | zero => rfl
  | succ m ih =>
      rw [stored, if_pos (Nat.lt_of_succ_le early), ih (Nat.le_of_succ_le early)]
      exact Function.update_eq_self _ (fun _ : Word => (0 : Byte))

theorem safe_of_meets {len : Word} (meets : ∀ mem buf, Meets pgdir mem va buf len) :
    Safe pgdir va len.toNat := by
  have bound := va.isLt
  have down := rounddown_toNat va
  constructor
  case tables =>
    intro k touched before_k
    by_contra missing
    have absent : walkpgdir pgdir (page va k) = none := by
      rw [walkpgdir, Option.map_eq_none_iff]
      exact Option.not_isSome_iff_eq_none.mp missing
    have met := meets (fun _ => 0) fun _ => 0
    unfold Meets copyout at met
    obtain ⟨all, _⟩ | ⟨k', _, before_k', ⟨stopped, _⟩ | ⟨_, ended⟩⟩ :=
      loop_ends pgdir len.toNat (fun _ => 0) va (fun _ => 0) len.toNat (Nat.le_refl _)
    · exact not_found_of_walk absent (all k touched)
    · rcases Nat.lt_trichotomy k k' with less | rfl | less
      · exact not_found_of_walk absent (before_k' k less)
      · rw [uva2ka, absent] at stopped
        cases stopped
      · exact not_found_of_zero stopped (before_k k' less)
    · rw [ended] at met
      exact met
  case wraps =>
    intro wraps
    by_contra every
    have found : ∀ k, k * PGSIZE ≤ 2 ^ 32 - (PGROUNDDOWN va).toNat → Found pgdir (page va k) := by
      intro k low
      by_contra missing
      exact every ⟨k, low, missing⟩
    obtain ⟨c, rest⟩ : ∃ c, c = 2 ^ 32 - va.toNat := ⟨_, rfl⟩
    have met := meets (fun _ => 0) fun q => if q < c then 0 else 1
    unfold Meets copyout at met
    obtain ⟨_, ended⟩ | ⟨k, _, _, ⟨stopped, ended⟩ | ⟨_, ended⟩⟩ :=
      loop_ends pgdir len.toNat (fun _ => 0) va (fun q => if q < c then 0 else 1)
        len.toNat (Nat.le_refl _)
    · rw [ended] at met
      rcases met with ⟨_, wrote⟩ | ⟨impossible, _⟩
      · exact absurd wrote.no_wrap (Nat.not_le.mpr wraps)
      · cases impossible
    · rw [ended] at met
      rcases met with ⟨impossible, _⟩ | ⟨_, m, _, wrote⟩
      · cases impossible
      · have far : ¬ k * PGSIZE ≤ 2 ^ 32 - (PGROUNDDOWN va).toNat := fun low =>
          not_found_of_zero stopped (found k low)
        have below : va.toNat % PGSIZE ≤ va.toNat := Nat.mod_le _ _
        have past : c < before va k := by
          rw [down] at far
          unfold before
          omega
        have short := wrote.no_wrap
        have mark := stored_mark pgdir va (before va k) past
        rw [wrote.memory, stored_zero m (by omega)] at mark
        cases mark
    · rw [ended] at met
      exact met

/-- Whatever the memory and the bytes, copyout() does what it is for exactly if it comes to no
page without a page table and does not go on past the end of the address space. -/
theorem copyout_meets (pgdir : Pgdir) (va len : Word) :
    (∀ mem buf, Meets pgdir mem va buf len) ↔ Safe pgdir va len.toNat :=
  ⟨safe_of_meets, meets_of_safe⟩

end Safe

/-! ## The push of trap() -/

def MAGIC_SIGRET : Word := 0xDEADBEEF

/-- What trap() does before it enters the handler of a signal. -/
def pushReturn (pgdir : Pgdir) (mem : Memory) (esp : Word) : Except Fault (Int × Memory) :=
  copyout pgdir mem (esp - 4) (fun q => (wordBytes MAGIC_SIGRET).getD q 0) 4

/-- The user part of a small process: one page table, full of user pages. -/
def smallProcess : Pgdir where
  pde := fun i => if i.val = 0 then some fun _ => 0x007 else none

/-- The process has chosen an address in its second four megabytes as its stack pointer. -/
theorem pushReturn_faults (mem : Memory) :
    pushReturn smallProcess mem 0x00800000 = .error .nullDereference := by
  have absent : uva2ka smallProcess (PGROUNDDOWN (0x00800000 - 4)) = .error .nullDereference := rfl
  have more : (4 : Word).toNat ≠ 0 := by decide
  exact loop_fault more absent

theorem copyout_dereferences_null : ¬ ∀ (pgdir : Pgdir) (mem : Memory) (va : Word)
    (buf : Nat → Byte) (len : Word), Meets pgdir mem va buf len := by
  intro every
  have met := every smallProcess (fun _ => 0) (0x00800000 - 4)
    (fun q => (wordBytes MAGIC_SIGRET).getD q 0) 4
  have fault := pushReturn_faults fun _ => 0
  unfold pushReturn at fault
  unfold Meets at met
  rw [fault] at met
  exact met

end Xv6.Public2.CopyOut
