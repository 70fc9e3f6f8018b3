import Xv6.Lib.CString
import Xv6.Machine.UserSpace
import Xv6.Public3.Vm

/-!
# exec() (exec.c and vm.c of xv6-public_1)

The new image is built beside the old one: the segments of the file, two pages at
the end, and in the second of them the arguments.  vm.c is the one of xv6-public_3
but for a function that exec() does not use, so the page tables are those of
`Xv6.Public3`; here come loaduvm() and copyout() with the bytes that they move.
The memory is the physical one.
-/

set_option autoImplicit false

namespace Xv6.Public1.Exec

open Xv6.Lib.Words
open Xv6.Lib.CString (safestrcpy)
open Xv6.Machine (PGROUNDDOWN)
open Xv6.Public3 (KERNBASE PDX PGSIZE PGROUNDUP Page Pgdir Pte Vm Layout walkpgdir setupkvm allocuvm
  clearpteu freevm)

def MAXARG : Nat := 32

/-! ## The file -/

/-- What readi() finds: the bytes of a file or directory, or what a device gives when so
many bytes are asked for at an offset. -/
inductive Content where
  | file (bytes : List Byte)
  | device (read : Word → Word → Option (List Byte))

structure Inode where
  mode : Word
  content : Content

/-- The bytes that are read, none for -1. -/
def Inode.readi (ip : Inode) (off n : Word) : Option (List Byte) :=
  match ip.content with
  | .device read => read off n
  | .file bytes =>
      if bytes.length < off.toNat ∨ off + n < off then none
      else
        let n := if bytes.length < (off + n).toNat then bytes.length - off.toNat else n.toNat
        some ((bytes.drop off.toNat).take n)

def ELF_MAGIC : Word := 0x464C457F

def ELF_PROG_LOAD : Word := 1

/-- `sizeof(struct elfhdr)` -/
def ELFHDR : Nat := 52

/-- `sizeof(struct proghdr)` -/
def PROGHDR : Nat := 32

structure Elfhdr where
  magic : Word
  entry : Word
  phoff : Word
  phnum : BitVec 16
  deriving DecidableEq

structure Proghdr where
  type : Word
  off : Word
  vaddr : Word
  filesz : Word
  memsz : Word

/-- The word at an offset of a structure that has been read. -/
def word (bytes : List Byte) (off : Nat) : Word :=
  bytes.getD (off + 3) 0 ++ bytes.getD (off + 2) 0 ++ bytes.getD (off + 1) 0 ++ bytes.getD off 0

def Elfhdr.ofBytes (bytes : List Byte) : Elfhdr where
  magic := word bytes 0
  entry := word bytes 24
  phoff := word bytes 28
  phnum := bytes.getD 45 0 ++ bytes.getD 44 0

def Proghdr.ofBytes (bytes : List Byte) : Proghdr where
  type := word bytes 0
  off := word bytes 4
  vaddr := word bytes 8
  filesz := word bytes 16
  memsz := word bytes 20

/-- The ELF header, none for `goto bad`. -/
def Inode.elf (ip : Inode) : Option Elfhdr :=
  match ip.readi 0 (BitVec.ofNat 32 ELFHDR) with
  | none => none
  | some bytes =>
      if bytes.length ≠ ELFHDR then none
      else if (Elfhdr.ofBytes bytes).magic ≠ ELF_MAGIC then none
      else some (Elfhdr.ofBytes bytes)

def Inode.ph (ip : Inode) (off : Word) : Option Proghdr :=
  match ip.readi off (BitVec.ofNat 32 PROGHDR) with
  | none => none
  | some bytes => if bytes.length ≠ PROGHDR then none else some (Proghdr.ofBytes bytes)

/-- `log.outstanding`, `ip->ref` and whether the process has locked the inode. -/
structure Fs where
  outstanding : Nat
  ref : Nat
  locks : Nat

namespace Fs

def begin_op (fs : Fs) : Fs := { fs with outstanding := fs.outstanding + 1 }

def end_op (fs : Fs) : Fs := { fs with outstanding := fs.outstanding - 1 }

/-- The reference that namei() returns. -/
def iget (fs : Fs) : Fs := { fs with ref := fs.ref + 1 }

def ilock (fs : Fs) : Fs := { fs with locks := fs.locks + 1 }

def iunlockput (fs : Fs) : Fs := { fs with locks := fs.locks - 1, ref := fs.ref - 1 }

end Fs

/-! ## loaduvm() -/

/-- The loop of loaduvm() at `va`, with `sz` bytes from `offset` on to come. -/
def loaduvmLoop (d : Pgdir) (ip : Inode) : Nat → Nat → Word → Nat → Memory → Vm (Bool × Memory)
  | 0, _, _, _, mem => pure (true, mem)
  | left + 1, va, offset, sz, mem => do
      let walked ← walkpgdir d va false
      match walked with
      | none => .fail .loaduvm
      | some d =>
          let pa := ((d.pte va).map Pte.page).getD 0
          let n := min sz PGSIZE
          match ip.readi offset (BitVec.ofNat 32 n) with
          | none => pure (false, mem)
          | some bytes =>
              if bytes.length ≠ n then pure (false, overlay mem pa bytes)
              else
                loaduvmLoop d ip left (va + PGSIZE) (offset + BitVec.ofNat 32 PGSIZE) (sz - n)
                  (overlay mem pa bytes)

def loaduvm (d : Pgdir) (ip : Inode) (ph : Proghdr) (mem : Memory) : Vm (Bool × Memory) :=
  if ph.vaddr.toNat % PGSIZE ≠ 0 then .fail .loaduvm
  else
    loaduvmLoop d ip ((ph.filesz.toNat + PGSIZE - 1) / PGSIZE) ph.vaddr.toNat ph.off
      ph.filesz.toNat mem

/-- A new image, without a size after `goto bad`. -/
structure Loaded where
  pgdir : Pgdir
  mem : Memory
  sz : Option Nat

/-- The loop over so many program headers. -/
def loadLoop (l : Layout) (ip : Inode) : Nat → Word → Pgdir → Nat → Memory → Vm Loaded
  | 0, _, d, sz, mem => pure ⟨d, mem, some sz⟩
  | left + 1, off, d, sz, mem =>
      match ip.ph off with
      | none => pure ⟨d, mem, none⟩
      | some ph =>
          if ph.type ≠ ELF_PROG_LOAD then
            loadLoop l ip left (off + BitVec.ofNat 32 PROGHDR) d sz mem
          else if ph.memsz < ph.filesz then pure ⟨d, mem, none⟩
          else if ph.vaddr + ph.memsz < ph.vaddr then pure ⟨d, mem, none⟩
          else do
            let grown ← allocuvm l d sz (ph.vaddr + ph.memsz).toNat
            if grown.2 = 0 then pure ⟨grown.1, mem, none⟩
            else if ph.vaddr.toNat % PGSIZE ≠ 0 then pure ⟨grown.1, mem, none⟩
            else do
              let loaded ← loaduvm grown.1 ip ph mem
              if loaded.1 = false then pure ⟨grown.1, loaded.2, none⟩
              else loadLoop l ip left (off + BitVec.ofNat 32 PROGHDR) grown.1 grown.2 loaded.2

/-! ## copyout() -/

inductive Fault where
  /-- uva2ka() reads the entry where walkpgdir() has found no page table. -/
  | nullDereference
  deriving DecidableEq

/-- The page of a user address, none for 0. -/
def uva2ka (d : Pgdir) (uva : Word) : Except Fault (Option Page) :=
  match d.pde (PDX uva.toNat) with
  | none => .error .nullDereference
  | some _ =>
      match d.pte uva.toNat with
      | none => pure none
      | some e => pure (if e.perm.u = true then some e.page else none)

/-- The loop of copyout() over the bytes that are left, with fuel for as many rounds; whether
all of them were written, and the memory then. -/
def copyoutLoop (d : Pgdir) : Nat → Memory → Word → List Byte → Except Fault (Bool × Memory)
  | _, mem, _, [] => pure (true, mem)
  | 0, mem, _, _ :: _ => pure (false, mem)
  | fuel + 1, mem, va, c :: buf => do
      let va0 := PGROUNDDOWN va
      let pa0 ← uva2ka d va0
      match pa0 with
      | none => pure (false, mem)
      | some pa0 =>
          let n := min (PGSIZE - (va - va0).toNat) (buf.length + 1)
          copyoutLoop d fuel (overlay mem (pa0 + (va - va0)) ((c :: buf).take n))
            (va0 + BitVec.ofNat 32 PGSIZE) ((c :: buf).drop n)

def copyout (d : Pgdir) (mem : Memory) (va : Word) (p : List Byte) : Except Fault (Bool × Memory) :=
  copyoutLoop d p.length mem va p

/-! ## The arguments -/

/-- `(sp - (len + 1)) & ~3` -/
def push (sp : Word) (len : Nat) : Word := (sp - BitVec.ofNat 32 (len + 1)) &&& ~~~3

/-- The loop over argv[], with the pointers so far: `ustack[3]` and what follows it. -/
def pushArgs (d : Pgdir) :
    List (List Byte) → List Word → Word → Memory →
      Except Fault (Option (Word × List Word) × Memory)
  | [], pointers, sp, mem => pure (some (sp, pointers), mem)
  | s :: argv, pointers, sp, mem =>
      if MAXARG ≤ pointers.length then pure (none, mem)
      else do
        let sp := push sp s.length
        let copied ← copyout d mem sp (s ++ [0])
        if copied.1 = false then pure (none, copied.2)
        else pushArgs d argv (pointers ++ [sp]) sp copied.2

def ustack (sp : Word) (pointers : List Word) : List Word :=
  [0xffffffff, BitVec.ofNat 32 pointers.length, sp - BitVec.ofNat 32 ((pointers.length + 1) * 4)] ++
    pointers ++ [0]

/-- The stack of a new image that ends at `sz`, without `sp` after `goto bad`. -/
def stack (d : Pgdir) (sz : Nat) (argv : List (List Byte)) (mem : Memory) :
    Except Fault (Option Word × Memory) := do
  let pushed ← pushArgs d argv [] (BitVec.ofNat 32 sz) mem
  match pushed.1 with
  | none => pure (none, pushed.2)
  | some (sp, pointers) =>
      let esp := sp - BitVec.ofNat 32 ((3 + pointers.length + 1) * 4)
      let copied ← copyout d pushed.2 esp ((ustack sp pointers).flatMap wordBytes)
      pure (if copied.1 = true then some esp else none, copied.2)

/-- The name after the last slash. -/
def lastName : List Byte → List Byte → List Byte
  | [], last => last
  | c :: s, last => lastName s (if c = 0x2F then s else last)

/-! ## exec() -/

structure Proc where
  pgdir : Pgdir
  sz : Nat
  name : List Byte
  check : Int
  eip : Word
  esp : Word

/-- Commit to the user image. -/
def Proc.commit (p : Proc) (path : List Byte) (pgdir : Pgdir) (sz : Nat) (entry sp : Word) :
    Proc where
  pgdir := pgdir
  sz := sz
  name := safestrcpy p.name (lastName path path) 16
  check := 1
  eip := entry
  esp := sp

structure Done where
  ret : Int
  proc : Proc
  mem : Memory
  fs : Fs

/-- `bad:`, where `ip` is still locked or has been put. -/
def bad (l : Layout) (p : Proc) (pgdir : Option Pgdir) (ip : Bool) (mem : Memory) (fs : Fs) :
    Vm (Except Fault Done) := do
  match pgdir with
  | none => pure ()
  | some d => freevm l d
  pure (.ok ⟨-1, p, mem, if ip = true then fs.iunlockput.end_op else fs⟩)

/-- What comes after the image has been loaded. -/
def enter (l : Layout) (p : Proc) (path : List Byte) (argv : List (List Byte)) (entry : Word)
    (loaded : Pgdir) (sz : Nat) (mem : Memory) (fs : Fs) : Vm (Except Fault Done) := do
  let grown ← allocuvm l loaded (PGROUNDUP sz) ((PGROUNDUP sz + 2 * PGSIZE) % 2 ^ 32)
  if grown.2 = 0 then bad l p (some grown.1) false mem fs
  else do
    let d ← clearpteu grown.1 (grown.2 - 2 * PGSIZE)
    match stack d grown.2 argv mem with
    | .error e => pure (.error e)
    | .ok (none, mem) => bad l p (some d) false mem fs
    | .ok (some sp, mem) => do
        freevm l p.pgdir
        pure (.ok ⟨0, p.commit path d grown.2 entry sp, mem, fs⟩)

/-- What namei() finds at the path, and what exec() does. -/
def exec (l : Layout) (namei : List Byte → Option Inode) (p : Proc) (mem : Memory) (fs : Fs)
    (path : List Byte) (argv : List (List Byte)) : Vm (Except Fault Done) :=
  match namei path with
  | none => pure (.ok ⟨-1, p, mem, fs.begin_op.end_op⟩)
  | some ip =>
      let fs := fs.begin_op.iget.ilock
      if ip.mode &&& 4 = 0 then pure (.ok ⟨-1, p, mem, fs.iunlockput.end_op⟩)
      else
        match ip.elf with
        | none => bad l p none true mem fs
        | some elf => do
            let pgdir ← setupkvm l
            match pgdir with
            | none => bad l p none true mem fs
            | some d => do
                let loaded ← loadLoop l ip elf.phnum.toNat elf.phoff d 0 mem
                match loaded.sz with
                | none => bad l p (some loaded.pgdir) true loaded.mem fs
                | some sz =>
                    enter l p path argv elf.entry loaded.pgdir sz loaded.mem fs.iunlockput.end_op

end Xv6.Public1.Exec
