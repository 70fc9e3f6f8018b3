import Mathlib.Algebra.Group.Nat.Defs
import Mathlib.Data.List.FinRange
import Xv6.Lib.Allocation
import Xv6.Lib.Words

/-!
# Page tables (vm.c of xv6-public_3, proc.c, exec.c)

What the kernel does to the two levels of a page directory, as programs over
kalloc() and kfree().  A page is its physical address.  A page directory is a
value, with the pages that it and its page tables are in: nobody but the process
looks at it.
-/

set_option autoImplicit false

namespace Xv6.Public3

open Xv6.Lib
open Xv6.Lib.Words
open Xv6.Lib.Allocation (Prog)

def PGSIZE : Nat := 4096

abbrev NPDENTRIES : Nat := 1024

abbrev NPTENTRIES : Nat := 1024

def EXTMEM : Nat := 0x100000

def PHYSTOP : Nat := 0xE000000

def DEVSPACE : Nat := 0xFE000000

def KERNBASE : Nat := 0x80000000

def KERNLINK : Nat := KERNBASE + EXTMEM

theorem npdentries_pos : 0 < NPDENTRIES := Nat.succ_pos 1023

theorem nptentries_pos : 0 < NPTENTRIES := Nat.succ_pos 1023

def PDX (va : Nat) : Fin NPDENTRIES := ⟨va / 2 ^ 22 % NPDENTRIES, Nat.mod_lt _ npdentries_pos⟩

def PTX (va : Nat) : Fin NPTENTRIES := ⟨va / 2 ^ 12 % NPTENTRIES, Nat.mod_lt _ nptentries_pos⟩

/-- `PGADDR(d, 0, 0)` -/
def PGADDR (d : Nat) : Nat := d * 2 ^ 22

def PGROUNDUP (sz : Nat) : Nat := (sz + PGSIZE - 1) % 2 ^ 32 / PGSIZE * PGSIZE

def PGROUNDDOWN (a : Nat) : Nat := a / PGSIZE * PGSIZE

/-! ## Page tables -/

/-- The physical address of a page. -/
abbrev Page := Word

/-- `PTE_W` and `PTE_U`. -/
structure Perm where
  w : Bool
  u : Bool

/-- An entry with `PTE_P`. -/
structure Pte where
  page : Page
  perm : Perm

structure PageTable where
  page : Page
  pte : Fin NPTENTRIES → Option Pte

structure Pgdir where
  page : Page
  pde : Fin NPDENTRIES → Option PageTable

namespace Pgdir

/-- The entry for an address. -/
def pte (d : Pgdir) (va : Nat) : Option Pte := (d.pde (PDX va)).bind fun pgtab => pgtab.pte (PTX va)

/-- A store to the entry, in a page table that exists. -/
def setPte (d : Pgdir) (va : Nat) (e : Option Pte) : Pgdir :=
  match d.pde (PDX va) with
  | none => d
  | some pgtab =>
      { d with
        pde := Function.update d.pde (PDX va)
          (some { pgtab with pte := Function.update pgtab.pte (PTX va) e }) }

/-- A page of zeros becomes the page table for an address. -/
def setPde (d : Pgdir) (va : Nat) (pgtab : Page) : Pgdir :=
  { d with pde := Function.update d.pde (PDX va) (some { page := pgtab, pte := fun _ => none }) }

end Pgdir

inductive Panic where
  | kfree | remap | loaduvm | clearpteu
  /-- copyuvm: pte should exist -/
  | pteShouldExist
  /-- copyuvm: page not present -/
  | pageNotPresent
  | phystop
  deriving DecidableEq

abbrev Vm (α : Type) := Prog Page Panic α

/-- Where the linker has put the kernel. -/
structure Layout where
  /-- `data` -/
  data : Nat
  /-- `end` -/
  kend : Nat
  data_aligned : data % PGSIZE = 0
  data_after : KERNLINK < data
  data_before : data < KERNBASE + PHYSTOP
  kend_after : KERNLINK < kend

def kalloc : Vm (Option Page) := Allocation.alloc

variable (l : Layout)

def kfree (page : Page) : Vm Unit :=
  if page.toNat % PGSIZE ≠ 0 ∨ KERNBASE + page.toNat < l.kend ∨ PHYSTOP ≤ page.toNat then
    .fail .kfree
  else Allocation.free page

/-- The directory in which the entry for `va` exists. -/
def walkpgdir (d : Pgdir) (va : Nat) (alloc : Bool) : Vm (Option Pgdir) :=
  match d.pde (PDX va) with
  | some _ => pure (some d)
  | none =>
      if alloc = false then pure none
      else do
        let pgtab ← kalloc
        pure (pgtab.map (d.setPde va))

/-! ## mappages() -/

/-- One round of mappages(), none for -1. -/
def mapPage (perm : Perm) (d : Pgdir) (a : Nat) (pa : Page) : Vm (Option Pgdir) := do
  let walked ← walkpgdir d a true
  match walked with
  | none => pure none
  | some d =>
      if (d.pte a).isSome = true then .fail .remap
      else pure (some (d.setPte a (some { page := pa, perm := perm })))

/-- From `a` on, with so many rounds to come after this one. -/
def mappagesLoop (perm : Perm) : Nat → Pgdir → Nat → Page → Vm (Pgdir × Bool)
  | 0, d, a, pa => do
      let mapped ← mapPage perm d a pa
      match mapped with
      | none => pure (d, false)
      | some d => pure (d, true)
  | left + 1, d, a, pa => do
      let mapped ← mapPage perm d a pa
      match mapped with
      | none => pure (d, false)
      | some d => mappagesLoop perm left d (a + PGSIZE) (pa + BitVec.ofNat 32 PGSIZE)

def mappages (d : Pgdir) (va size : Nat) (pa : Page) (perm : Perm) : Vm (Pgdir × Bool) :=
  let a := PGROUNDDOWN va
  let last := PGROUNDDOWN ((va + size + 2 ^ 32 - 1) % 2 ^ 32)
  mappagesLoop perm ((last + 2 ^ 32 - a) % 2 ^ 32 / PGSIZE) d a pa

/-! ## deallocuvm() and freevm() -/

/-- The loop of deallocuvm() from `a` on. -/
def deallocuvmLoop (oldsz : Nat) : Nat → Pgdir → Nat → Vm Pgdir
  | 0, d, _ => pure d
  | fuel + 1, d, a =>
      if a < oldsz then do
        let walked ← walkpgdir d a false
        match walked with
        | none => deallocuvmLoop oldsz fuel d (PGADDR ((PDX a).val + 1) - PGSIZE + PGSIZE)
        | some d =>
            match d.pte a with
            | none => deallocuvmLoop oldsz fuel d (a + PGSIZE)
            | some e =>
                if e.page = 0 then .fail .kfree
                else do
                  kfree l e.page
                  deallocuvmLoop oldsz fuel (d.setPte a none) (a + PGSIZE)
      else pure d

def deallocuvm (d : Pgdir) (oldsz newsz : Nat) : Vm (Pgdir × Nat) :=
  if newsz ≥ oldsz then pure (d, oldsz)
  else do
    let d ← deallocuvmLoop l oldsz (NPDENTRIES * NPTENTRIES) d (PGROUNDUP newsz)
    pure (d, newsz)

/-- The page tables. -/
def freevmLoop (d : Pgdir) : List (Fin NPDENTRIES) → Vm Unit
  | [] => pure ()
  | i :: rest =>
      match d.pde i with
      | none => freevmLoop d rest
      | some pgtab => do
          kfree l pgtab.page
          freevmLoop d rest

def freevm (d : Pgdir) : Vm Unit := do
  let emptied ← deallocuvm l d KERNBASE 0
  freevmLoop l emptied.1 (List.finRange NPDENTRIES)
  kfree l d.page

/-! ## setupkvm() -/

structure Kmap where
  virt : Nat
  phys_start : Nat
  phys_end : Nat
  perm : Perm

def Kmap.size (k : Kmap) : Nat := (k.phys_end + 2 ^ 32 - k.phys_start) % 2 ^ 32

def V2P (a : Nat) : Nat := a - KERNBASE

def kmap : List Kmap :=
  [{ virt := KERNBASE, phys_start := 0, phys_end := EXTMEM, perm := ⟨true, false⟩ },
   { virt := KERNLINK, phys_start := V2P KERNLINK, phys_end := V2P l.data, perm := ⟨false, false⟩ },
   { virt := l.data, phys_start := V2P l.data, phys_end := PHYSTOP, perm := ⟨true, false⟩ },
   { virt := DEVSPACE, phys_start := DEVSPACE, phys_end := 0, perm := ⟨true, false⟩ }]

def setupkvmLoop : List Kmap → Pgdir → Vm (Option Pgdir)
  | [], d => pure (some d)
  | k :: rest, d => do
      let mapped ← mappages d k.virt k.size (BitVec.ofNat 32 k.phys_start) k.perm
      match mapped with
      | (d, true) => setupkvmLoop rest d
      | (d, false) => do
          freevm l d
          pure none

def setupkvm : Vm (Option Pgdir) := do
  let pgdir ← kalloc
  match pgdir with
  | none => pure none
  | some pgdir =>
      if KERNBASE + PHYSTOP > DEVSPACE then .fail .phystop
      else setupkvmLoop l (kmap l) { page := pgdir, pde := fun _ => none }

/-! ## User memory -/

/-- `PTE_W|PTE_U` -/
def user : Perm := ⟨true, true⟩

/-- The loop of allocuvm() from `a` on, with so many rounds to come. -/
def allocuvmLoop (oldsz newsz : Nat) : Nat → Pgdir → Nat → Vm (Pgdir × Nat)
  | 0, d, _ => pure (d, newsz)
  | left + 1, d, a => do
      let mem ← kalloc
      match mem with
      | none => do
          let emptied ← deallocuvm l d newsz oldsz
          pure (emptied.1, 0)
      | some mem => do
          let mapped ← mappages d a PGSIZE mem user
          match mapped with
          | (d, true) => allocuvmLoop oldsz newsz left d (a + PGSIZE)
          | (d, false) => do
              let emptied ← deallocuvm l d newsz oldsz
              kfree l mem
              pure (emptied.1, 0)

def allocuvm (d : Pgdir) (oldsz newsz : Nat) : Vm (Pgdir × Nat) :=
  if newsz ≥ KERNBASE then pure (d, 0)
  else if newsz < oldsz then pure (d, oldsz)
  else
    let a := PGROUNDUP oldsz
    allocuvmLoop l oldsz newsz ((newsz + PGSIZE - 1 - a) / PGSIZE) d a

def clearpteu (d : Pgdir) (uva : Nat) : Vm Pgdir := do
  let walked ← walkpgdir d uva false
  match walked with
  | none => .fail .clearpteu
  | some d =>
      pure (d.setPte uva ((d.pte uva).map fun e => { e with perm := { e.perm with u := false } }))

/-- The loop of copyuvm() from `i` on, with so many rounds to come. -/
def copyuvmLoop (pgdir : Pgdir) : Nat → Pgdir → Nat → Vm (Option Pgdir)
  | 0, d, _ => pure (some d)
  | left + 1, d, i => do
      let walked ← walkpgdir pgdir i false
      match walked with
      | none => .fail .pteShouldExist
      | some pgdir' =>
          match pgdir'.pte i with
          | none => .fail .pageNotPresent
          | some e => do
              let mem ← kalloc
              match mem with
              | none => do
                  freevm l d
                  pure none
              | some mem => do
                  let mapped ← mappages d i PGSIZE mem e.perm
                  match mapped with
                  | (d, true) => copyuvmLoop pgdir left d (i + PGSIZE)
                  | (d, false) => do
                      kfree l mem
                      freevm l d
                      pure none

def copyuvm (pgdir : Pgdir) (sz : Nat) : Vm (Option Pgdir) := do
  let d ← setupkvm l
  match d with
  | none => pure none
  | some d => copyuvmLoop l pgdir ((sz + PGSIZE - 1) / PGSIZE) d 0

/-! ## exec() -/

structure Image where
  pgdir : Pgdir
  sz : Nat

def ELF_PROG_LOAD : Word := 1

/-- A program header, and for how many pages readi() finds the bytes of the segment. -/
structure Proghdr where
  type : Word
  vaddr : Word
  filesz : Word
  memsz : Word
  reads : Nat

/-- What exec() finds: the header is read and has ELF_MAGIC, the program headers
that readi() finds, and whether the arguments can be copied to the stack. -/
structure Program where
  elf : Bool
  ph : List (Option Proghdr)
  args : Bool

/-- The loop of loaduvm(), with so many rounds to come. -/
def loaduvmLoop (d : Pgdir) : Nat → Nat → Nat → Vm Bool
  | 0, _, _ => pure true
  | left + 1, reads, a => do
      let walked ← walkpgdir d a false
      match walked, reads with
      | none, _ => .fail .loaduvm
      | some _, 0 => pure false
      | some _, reads + 1 => loaduvmLoop d left reads (a + PGSIZE)

def loaduvm (d : Pgdir) (ph : Proghdr) : Vm Bool :=
  loaduvmLoop d ((ph.filesz.toNat + PGSIZE - 1) / PGSIZE) ph.reads ph.vaddr.toNat

/-- The loop over the program headers; none for `goto bad`. -/
def loadLoop : List (Option Proghdr) → Pgdir → Nat → Vm (Pgdir × Option Nat)
  | [], d, sz => pure (d, some sz)
  | none :: _, d, _ => pure (d, none)
  | some ph :: rest, d, sz =>
      if ph.type ≠ ELF_PROG_LOAD then loadLoop rest d sz
      else if ph.memsz < ph.filesz then pure (d, none)
      else if ph.vaddr + ph.memsz < ph.vaddr then pure (d, none)
      else do
        let grown ← allocuvm l d sz (ph.vaddr + ph.memsz).toNat
        if grown.2 = 0 then pure (grown.1, none)
        else if ph.vaddr.toNat % PGSIZE ≠ 0 then pure (grown.1, none)
        else do
          let loaded ← loaduvm grown.1 ph
          if loaded = true then loadLoop rest grown.1 grown.2 else pure (grown.1, none)

/-- `bad:` with the new page directory. -/
def execBad (old : Image) (d : Pgdir) : Vm (Image × Bool) := do
  freevm l d
  pure (old, false)

def exec (old : Image) (path : Option Program) : Vm (Image × Bool) :=
  match path with
  | none => pure (old, false)
  | some file =>
      if file.elf = false then pure (old, false)
      else do
        let pgdir ← setupkvm l
        match pgdir with
        | none => pure (old, false)
        | some d => do
            let loaded ← loadLoop l file.ph d 0
            match loaded with
            | (d, none) => execBad l old d
            | (d, some sz) => do
                let grown ← allocuvm l d (PGROUNDUP sz) ((PGROUNDUP sz + 2 * PGSIZE) % 2 ^ 32)
                if grown.2 = 0 then execBad l old grown.1
                else do
                  let d ← clearpteu grown.1 (grown.2 - 2 * PGSIZE)
                  if file.args = false then execBad l old d
                  else do
                    freevm l old.pgdir
                    pure ({ pgdir := d, sz := grown.2 }, true)

/-! ## growproc(), fork() and wait() -/

/-- The process after growproc(), which returns 0 or -1. -/
def growproc (im : Image) (n : Word) : Vm (Image × Bool) :=
  let sum := (im.sz + n.toNat) % 2 ^ 32
  if 0 < n.toInt then do
    let grown ← allocuvm l im.pgdir im.sz sum
    pure (if grown.2 = 0 then ({ im with pgdir := grown.1 }, false)
      else ({ pgdir := grown.1, sz := grown.2 }, true))
  else if n.toInt < 0 then do
    let shrunk ← deallocuvm l im.pgdir im.sz sum
    pure (if shrunk.2 = 0 then ({ im with pgdir := shrunk.1 }, false)
      else ({ pgdir := shrunk.1, sz := shrunk.2 }, true))
  else pure (im, true)

/-- The kernel stack and the memory of a child, allocproc() and copyuvm(). -/
def forkMemory (im : Image) : Vm (Option (Page × Image)) := do
  let kstack ← kalloc
  match kstack with
  | none => pure none
  | some kstack => do
      let copy ← copyuvm l im.pgdir im.sz
      match copy with
      | none => do
          kfree l kstack
          pure none
      | some d => pure (some (kstack, { im with pgdir := d }))

/-- What wait() does with the memory of a zombie. -/
def waitMemory (kstack : Page) (im : Image) : Vm Unit := do
  kfree l kstack
  freevm l im.pgdir

end Xv6.Public3
