import Xv6.Lib.Contents
import Xv6.Public3.PageTables

/-!
# What is in the pages of a process (vm.c, proc.c, sysproc.c)

allocuvm(), copyuvm() and sbrk() with the bytes of the pages beside the page tables.
kfree() fills a page with ones; the link that it then puts into the first word of a
free page is left out.
-/

set_option autoImplicit false

namespace Xv6.Public3.Contents

open Xv6.Lib.Words
open Xv6.Lib.Allocation

/-- The bytes of a page, by offset. -/
abbrev Frame := Nat → Byte

/-- A program over pages that also stores into them. -/
abbrev VmC (α : Type) := Stores Page Frame Panic α

/-- The byte of a process at an address. -/
def byte (d : Pgdir) (m : Page → Frame) (va : Nat) : Option Byte :=
  (d.pte va).map fun e => m e.page (va % PGSIZE)

/-- What the functions that do not look into the pages of a process do. -/
def lift {α : Type} (x : Vm α) : VmC α := withContents (fun _ => 1) x

def memset (page : Page) (b : Byte) (m : Page → Frame) : Page → Frame :=
  Function.update m page fun _ => b

def memmove (dst src : Page) (m : Page → Frame) : Page → Frame := Function.update m dst (m src)

variable (l : Layout)

/-- The loop of allocuvm() from `a` on, with so many rounds to come. -/
def allocuvmLoop (oldsz newsz : Nat) : Nat → Pgdir → Nat → VmC (Pgdir × Nat)
  | 0, d, _ => pure (d, newsz)
  | left + 1, d, a => do
      let mem ← lift kalloc
      match mem with
      | none => do
          let emptied ← lift (deallocuvm l d newsz oldsz)
          pure (emptied.1, 0)
      | some mem => do
          modify (memset mem 0)
          let mapped ← lift (mappages d a PGSIZE mem user)
          match mapped with
          | (d, true) => allocuvmLoop oldsz newsz left d (a + PGSIZE)
          | (d, false) => do
              let emptied ← lift (deallocuvm l d newsz oldsz)
              lift (kfree l mem)
              pure (emptied.1, 0)

def allocuvm (d : Pgdir) (oldsz newsz : Nat) : VmC (Pgdir × Nat) :=
  if newsz ≥ KERNBASE then pure (d, 0)
  else if newsz < oldsz then pure (d, oldsz)
  else
    let a := PGROUNDUP oldsz
    allocuvmLoop l oldsz newsz ((newsz + PGSIZE - 1 - a) / PGSIZE) d a

/-- The loop of copyuvm() from `i` on, with so many rounds to come. -/
def copyuvmLoop (pgdir : Pgdir) : Nat → Pgdir → Nat → VmC (Option Pgdir)
  | 0, d, _ => pure (some d)
  | left + 1, d, i => do
      let walked ← lift (walkpgdir pgdir i false)
      match walked with
      | none => lift (.fail .pteShouldExist)
      | some pgdir' =>
          match pgdir'.pte i with
          | none => lift (.fail .pageNotPresent)
          | some e => do
              let mem ← lift kalloc
              match mem with
              | none => do
                  lift (freevm l d)
                  pure none
              | some mem => do
                  modify (memmove mem e.page)
                  let mapped ← lift (mappages d i PGSIZE mem e.perm)
                  match mapped with
                  | (d, true) => copyuvmLoop pgdir left d (i + PGSIZE)
                  | (d, false) => do
                      lift (kfree l mem)
                      lift (freevm l d)
                      pure none

def copyuvm (pgdir : Pgdir) (sz : Nat) : VmC (Option Pgdir) := do
  let d ← lift (setupkvm l)
  match d with
  | none => pure none
  | some d => copyuvmLoop l pgdir ((sz + PGSIZE - 1) / PGSIZE) d 0

/-- The process after growproc(), which returns 0 or -1. -/
def growproc (im : Image) (n : Word) : VmC (Image × Bool) :=
  let sum := (im.sz + n.toNat) % 2 ^ 32
  if 0 < n.toInt then do
    let grown ← allocuvm l im.pgdir im.sz sum
    pure (if grown.2 = 0 then ({ im with pgdir := grown.1 }, false)
      else ({ pgdir := grown.1, sz := grown.2 }, true))
  else if n.toInt < 0 then do
    let shrunk ← lift (deallocuvm l im.pgdir im.sz sum)
    pure (if shrunk.2 = 0 then ({ im with pgdir := shrunk.1 }, false)
      else ({ pgdir := shrunk.1, sz := shrunk.2 }, true))
  else pure (im, true)

/-- The process after the call, and what it returns. -/
def sys_sbrk (im : Image) (n : Word) : VmC (Image × Int) := do
  let addr : Int := (BitVec.ofNat 32 im.sz).toInt
  let grown ← growproc l im n
  pure (grown.1, if grown.2 = true then addr else -1)

/-! ## The bytes change nothing else -/

variable {l}

theorem forgets_lift {α : Type} (x : Vm α) : Forgets (lift x) x := forgets_withContents _ x

theorem allocuvmLoop_forgets (oldsz newsz left : Nat) (d : Pgdir) (a : Nat) :
    Forgets (allocuvmLoop l oldsz newsz left d a)
      (Public3.allocuvmLoop l oldsz newsz left d a) := by
  induction left generalizing d a with
  | zero => exact forgets_pure _
  | succ left ih =>
      unfold allocuvmLoop Public3.allocuvmLoop
      apply forgets_bind (forgets_lift _)
      intro mem
      cases mem with
      | none => exact forgets_bind (forgets_lift _) fun emptied => forgets_pure _
      | some mem =>
          apply forgets_modify
          apply forgets_bind (forgets_lift _)
          rintro ⟨d, _ | _⟩
          · apply forgets_bind (forgets_lift _)
            intro emptied
            exact forgets_bind (forgets_lift _) fun _ => forgets_pure _
          · exact ih d _

theorem allocuvm_forgets (d : Pgdir) (oldsz newsz : Nat) :
    Forgets (allocuvm l d oldsz newsz) (Public3.allocuvm l d oldsz newsz) := by
  unfold allocuvm Public3.allocuvm
  split
  · exact forgets_pure _
  · split
    · exact forgets_pure _
    · exact allocuvmLoop_forgets _ _ _ _ _

theorem copyuvmLoop_forgets (pgdir : Pgdir) (left : Nat) (d : Pgdir) (i : Nat) :
    Forgets (copyuvmLoop l pgdir left d i) (Public3.copyuvmLoop l pgdir left d i) := by
  induction left generalizing d i with
  | zero => exact forgets_pure _
  | succ left ih =>
      unfold copyuvmLoop Public3.copyuvmLoop
      apply forgets_bind (forgets_lift _)
      intro walked
      cases walked with
      | none => exact forgets_lift _
      | some pgdir' =>
          dsimp only
          cases pgdir'.pte i with
          | none => exact forgets_lift _
          | some e =>
              apply forgets_bind (forgets_lift _)
              intro mem
              cases mem with
              | none => exact forgets_bind (forgets_lift _) fun _ => forgets_pure _
              | some mem =>
                  apply forgets_modify
                  apply forgets_bind (forgets_lift _)
                  rintro ⟨d, _ | _⟩
                  · apply forgets_bind (forgets_lift _)
                    intro _
                    exact forgets_bind (forgets_lift _) fun _ => forgets_pure _
                  · exact ih d _

theorem copyuvm_forgets (pgdir : Pgdir) (sz : Nat) :
    Forgets (copyuvm l pgdir sz) (Public3.copyuvm l pgdir sz) := by
  unfold copyuvm Public3.copyuvm
  apply forgets_bind (forgets_lift _)
  intro d
  cases d with
  | none => exact forgets_pure _
  | some d => exact copyuvmLoop_forgets _ _ _ _

theorem growproc_forgets (im : Image) (n : Word) :
    Forgets (growproc l im n) (Public3.growproc l im n) := by
  unfold growproc Public3.growproc
  dsimp only
  split
  · exact forgets_bind (allocuvm_forgets _ _ _) fun _ => forgets_pure _
  · split
    · exact forgets_bind (forgets_lift _) fun _ => forgets_pure _
    · exact forgets_pure _

end Xv6.Public3.Contents
