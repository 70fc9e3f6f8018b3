import Xv6.Public1.Exec
import Xv6.Public3.PageTables

/-!
# The image that exec() loads

What the loop over the program headers makes of a page directory: nobody loses a
page, no panic is reached, and the size is that of the file, wherever kalloc() may
have failed.
-/

set_option autoImplicit false

namespace Xv6.Public1.Exec

open Xv6.Lib.Words
open Xv6.Lib.Allocation
open Xv6.Public3

variable {l : Layout} {d : Pgdir} {frame held : Set Page} {ip : Inode}

/-! ## loaduvm() -/

/-- readi() finds the bytes of so many pages. -/
def Inode.reads (ip : Inode) : Nat → Word → Nat → Bool
  | 0, _, _ => true
  | left + 1, offset, sz =>
      match ip.readi offset (BitVec.ofNat 32 (min sz PGSIZE)) with
      | none => false
      | some bytes =>
          if bytes.length ≠ min sz PGSIZE then false
          else ip.reads left (offset + BitVec.ofNat 32 PGSIZE) (sz - min sz PGSIZE)

/-- loaduvm() returns 0. -/
def Inode.holds (ip : Inode) (ph : Proghdr) : Bool :=
  ip.reads ((ph.filesz.toNat + PGSIZE - 1) / PGSIZE) ph.off ph.filesz.toNat

theorem loaduvmLoop_eq (left va : Nat) (offset : Word) (sz : Nat) (mem : Memory) {top : Nat}
    (tables : ∀ va, va < top → (d.pde (PDX va)).isSome = true)
    (inside : va + left * PGSIZE ≤ top) :
    ∃ mem', loaduvmLoop d ip left va offset sz mem = pure (ip.reads left offset sz, mem') := by
  induction left generalizing va offset sz mem with
  | zero => exact ⟨mem, rfl⟩
  | succ left ih =>
      have grown : (left + 1) * PGSIZE = left * PGSIZE + PGSIZE := Nat.succ_mul _ _
      have page : 0 < PGSIZE := by decide
      unfold loaduvmLoop Inode.reads
      rw [walkpgdir_read, if_pos (tables va (by omega))]
      cases read : ip.readi offset (BitVec.ofNat 32 (min sz PGSIZE)) with
      | none => exact ⟨mem, by simp only [read]; rfl⟩
      | some bytes =>
          by_cases short : bytes.length ≠ min sz PGSIZE
          · exact ⟨_, by simp only [read, if_pos short]; rfl⟩
          · obtain ⟨mem', rest⟩ := ih (va + PGSIZE) (offset + BitVec.ofNat 32 PGSIZE)
              (sz - min sz PGSIZE) (overlay mem (((d.pte va).map Pte.page).getD 0) bytes) (by omega)
            exact ⟨mem', by simp only [read, if_neg short]; exact rest⟩

/-- The segments of an image are within the pages that allocuvm() has made. -/
theorem loaduvm_eq (ip : Inode) (mem : Memory) {ph : Proghdr} {sz : Nat}
    (covers : ¬ ph.memsz < ph.filesz) (no_wrap : ¬ ph.vaddr + ph.memsz < ph.vaddr) (aligned : ph.vaddr.toNat % PGSIZE = 0)
    (grown : (ph.vaddr + ph.memsz).toNat ≤ sz) (small : sz ≤ KERNBASE)
    (filled : d.Filled (PGROUNDUP sz)) :
    ∃ mem', loaduvm d ip ph mem = pure (ip.holds ph, mem') := by
  have inside := @segment_inside ⟨ph.type, ph.vaddr, ph.filesz, ph.memsz, 0⟩ sz covers no_wrap
    aligned grown small
  unfold loaduvm
  rw [if_neg (not_not_intro aligned)]
  exact loaduvmLoop_eq _ _ _ _ _ (fun va below => Pgdir.pde_of_pte (filled.below va below)) inside

/-! ## The program headers -/

/-- The size of the image, none if the file is refused. -/
def Inode.size (ip : Inode) : Nat → Word → Nat → Option Nat
  | 0, _, sz => some sz
  | left + 1, off, sz =>
      match ip.ph off with
      | none => none
      | some ph =>
          if ph.type ≠ ELF_PROG_LOAD then ip.size left (off + BitVec.ofNat 32 PROGHDR) sz
          else if ph.memsz < ph.filesz then none
          else if ph.vaddr + ph.memsz < ph.vaddr then none
          else if KERNBASE ≤ (ph.vaddr + ph.memsz).toNat then none
          else if max sz (ph.vaddr + ph.memsz).toNat = 0 then none
          else if ph.vaddr.toNat % PGSIZE ≠ 0 then none
          else if ip.holds ph = false then none
          else
            ip.size left (off + BitVec.ofNat 32 PROGHDR) (max sz (ph.vaddr + ph.memsz).toNat)

/-- The end of the memory above KERNBASE. -/
def RAM : Nat := KERNBASE + PHYSTOP

/-- A new page directory, with the user memory up to a size. -/
structure Sized (d : Pgdir) (sz : Nat) : Prop where
  small : sz < KERNBASE
  space : d.Space (PGROUNDUP sz) RAM (2 ^ 32)

theorem Sized.filled {sz : Nat} (h : Sized d sz) : d.Filled (PGROUNDUP sz) := by
  have top := pgroundup_top (Nat.le_of_lt h.small)
  constructor
  case below =>
    intro va low
    have entry := h.space.users.pte va (Nat.zero_le va) (by omega)
    rw [if_pos low, Option.map_eq_some_iff] at entry
    obtain ⟨e, found, _⟩ := entry
    rw [found]
    rfl
  case above =>
    intro va high low
    have entry := h.space.users.pte va (Nat.zero_le va) low
    rw [if_neg (Nat.not_lt_of_le high), Option.map_eq_none_iff] at entry
    exact entry

theorem Sized.allocuvm_returns {sz new sz' : Nat} {d' : Pgdir} (h : Sized d sz)
    (some_byte : sz' ≠ 0) (done : Returns (allocuvm l d sz new) (d', sz')) :
    new < KERNBASE ∧ sz' = max sz new ∧ Sized d' sz' := by
  obtain ⟨low, larger, space⟩ := Public3.allocuvm_returns h.space some_byte done
  have small := h.small
  exact ⟨low, larger, by omega, space⟩

/-- allocuvm() returns 0 or has made the memory as large as it should be. -/
theorem Sized.allocuvm {sz new : Nat} (h : Sized d sz) (owns : Owns l d frame held) :
    Does l True (allocuvm l d sz new) held fun s r =>
      Owns l r.1 frame s ∧ (r.2 ≠ 0 → new < KERNBASE ∧ r.2 = max sz new ∧ Sized r.1 r.2) := by
  refine wp_mono (wp_returns (allocuvm_wp owns fun _ => h.filled)) ?_
  rintro s ⟨d', sz'⟩ ⟨⟨owns, _⟩, returned⟩
  exact ⟨owns, fun some_byte => h.allocuvm_returns some_byte returned⟩

theorem no_size {sz : Nat} {p : Prop} (impossible : (none : Option Nat) = some sz) : p := by
  cases impossible

theorem loadLoop_wp (ip : Inode) {left sz : Nat} {off : Word} {mem : Memory} (h : Sized d sz)
    (owns : Owns l d frame held) :
    Does l True (loadLoop l ip left off d sz mem) held fun s r =>
      Owns l r.pgdir frame s ∧
        ∀ sz', r.sz = some sz' → ip.size left off sz = some sz' ∧ Sized r.pgdir sz' := by
  induction left generalizing d held sz off mem with
  | zero =>
      refine wp_pure ⟨owns, ?_⟩
      rintro _ ⟨⟩
      exact ⟨rfl, h⟩
  | succ left ih =>
      unfold loadLoop Inode.size
      cases header : ip.ph off with
      | none => exact wp_pure ⟨owns, fun _ => no_size⟩
      | some ph =>
          dsimp only
          split
          · exact ih h owns
          · split
            · exact wp_pure ⟨owns, fun _ => no_size⟩
            · rename_i covers
              split
              · exact wp_pure ⟨owns, fun _ => no_size⟩
              · rename_i no_wrap
                apply wp_bind
                refine wp_mono (h.allocuvm owns) ?_
                rintro s ⟨d, new⟩ ⟨owns, grown⟩
                dsimp only at owns grown ⊢
                split
                · exact wp_pure ⟨owns, fun _ => no_size⟩
                · rename_i nonzero
                  obtain ⟨low, rfl, sized⟩ := grown nonzero
                  have below := sized.small
                  rw [if_neg (Nat.not_le_of_lt low), if_neg nonzero]
                  split
                  · exact wp_pure ⟨owns, fun _ => no_size⟩
                  · rename_i aligned
                    obtain ⟨mem', loaded⟩ := loaduvm_eq ip mem covers no_wrap
                      (Decidable.not_not.mp aligned) (Nat.le_max_right sz _) (Nat.le_of_lt below)
                      sized.filled
                    rw [loaded]
                    apply wp_bind
                    apply wp_pure
                    dsimp only
                    split
                    · exact wp_pure ⟨owns, fun _ => no_size⟩
                    · exact ih sized owns

theorem cost_zero : cost 0 = 0 := rfl

theorem cost_mono {a b : Nat} (le : a ≤ b) (small : b ≤ KERNBASE) : cost a ≤ cost b := by
  unfold cost
  rw [pgroundup_eq small, pgroundup_eq (Nat.le_trans le small)]
  simp only [tables, BLOCK, PGSIZE]
  omega

theorem size_grows {left sz sz' : Nat} {off : Word} (fits : ip.size left off sz = some sz')
    (small : sz < KERNBASE) : sz ≤ sz' ∧ sz' < KERNBASE := by
  induction left generalizing sz off with
  | zero =>
      cases fits
      exact ⟨Nat.le_refl _, small⟩
  | succ left ih =>
      unfold Inode.size at fits
      cases header : ip.ph off with
      | none =>
          rw [header] at fits
          cases fits
      | some ph =>
          rw [header] at fits
          dsimp only at fits
          split_ifs at fits with load covers no_wrap low nonzero aligned holds
          · exact ih fits small
          · obtain ⟨grown, below⟩ := ih fits (by omega)
            exact ⟨by omega, below⟩

/-- With the pages for its size an image is loaded. -/
theorem loadLoop_given {left sz sz' n : Nat} {off : Word} {mem : Memory} (h : Sized d sz)
    (fits : ip.size left off sz = some sz') :
    Given (loadLoop l ip left off d sz mem) (n + (cost sz' - cost sz))
      fun m r => m = n ∧ r.sz = some sz' ∧ Sized r.pgdir sz' := by
  induction left generalizing d sz off mem with
  | zero =>
      cases fits
      rw [Nat.sub_self]
      exact given_pure ⟨rfl, rfl, h⟩
  | succ left ih =>
      unfold Inode.size at fits
      unfold loadLoop
      cases header : ip.ph off with
      | none =>
          rw [header] at fits
          cases fits
      | some ph =>
          rw [header] at fits
          dsimp only at fits ⊢
          split_ifs at fits with load covers no_wrap low nonzero aligned holds
          · rw [if_pos load]
            exact ih h fits
          · have below := h.small
            have small : (ph.vaddr + ph.memsz).toNat < KERNBASE := Nat.lt_of_not_ge low
            obtain ⟨grown, last⟩ := size_grows fits (by omega)
            have first := cost_mono (Nat.le_max_left sz (ph.vaddr + ph.memsz).toNat) (by omega)
            have second := cost_mono grown (Nat.le_of_lt last)
            have split : n + (cost sz' - cost sz) =
                n + (cost sz' - cost (max sz (ph.vaddr + ph.memsz).toNat)) +
                  (cost (max sz (ph.vaddr + ph.memsz).toNat) - cost sz) := by
              omega
            rw [if_neg load, if_neg covers, if_neg no_wrap, split]
            apply given_bind
            refine given_mono (given_returns (allocuvm_given h.space small)) ?_
            rintro m ⟨d, new⟩ ⟨⟨rfl, same⟩, returned⟩
            have same : new = max sz (ph.vaddr + ph.memsz).toNat := same
            subst same
            obtain ⟨_, _, sized⟩ := h.allocuvm_returns nonzero returned
            obtain ⟨mem', loaded⟩ := loaduvm_eq ip mem covers no_wrap
              (Decidable.not_not.mp aligned) (Nat.le_max_right sz _) (Nat.le_of_lt sized.small)
              sized.filled
            dsimp only
            rw [if_neg nonzero, if_neg aligned, loaded]
            apply given_bind
            apply given_pure
            dsimp only
            rw [if_neg holds]
            exact ih sized fits

end Xv6.Public1.Exec
