import Xv6.Common.FileTable

/-!
# The inode cache (xv6-public_1)

fs.c as far as it decides where an in-memory inode lives and which mode it has:
the references, the loading and the writing back of `type`, `nlink` and `mode`,
and what ialloc() and iput() do to an inode on disk.  The size and the blocks of
an inode, and its sleep-lock, are left out.
-/

set_option autoImplicit false

namespace Xv6.Public1.Inodes

open Xv6.Lib.Words
open Xv6.Common

structure Dinode where
  type : Int
  nlink : Int
  mode : Word

structure Inode where
  dev : Word
  inum : Word
  ref : Int
  valid : Bool
  type : Int
  nlink : Int
  mode : Word

structure Icache where
  inode : InodeSlot → Inode
  /-- The inodes on disk by device and number. -/
  disk : Word → Word → Dinode

namespace Icache

def set (c : Icache) (ip : InodeSlot) (value : Inode) : Icache :=
  { c with inode := Function.update c.inode ip value }

def write (c : Icache) (dev inum : Word) (value : Dinode) : Icache :=
  { c with disk := Function.update c.disk dev (Function.update (c.disk dev) inum value) }

def slots : List InodeSlot := List.finRange NINODE

def cached (c : Icache) (dev inum : Word) : Option InodeSlot :=
  slots.find? fun ip =>
    decide ((c.inode ip).ref > 0 ∧ (c.inode ip).dev = dev ∧ (c.inode ip).inum = inum)

def empty (c : Icache) : Option InodeSlot := slots.find? fun ip => decide ((c.inode ip).ref = 0)

def idup (c : Icache) (ip : InodeSlot) : Icache :=
  c.set ip { c.inode ip with ref := (c.inode ip).ref + 1 }

/-- None is the panic. -/
def iget (c : Icache) (dev inum : Word) : Option (InodeSlot × Icache) :=
  match c.cached dev inum with
  | some ip => some (ip, c.idup ip)
  | none =>
      c.empty.map fun ip =>
        (ip, c.set ip
          { c.inode ip with dev := dev, inum := inum, ref := 1, valid := false, mode := 7 })

def iupdate (c : Icache) (ip : InodeSlot) : Icache :=
  let i := c.inode ip
  c.write i.dev i.inum { type := i.type, nlink := i.nlink, mode := i.mode }

/-- None is one of the two panics. -/
def ilock (c : Icache) (ip : InodeSlot) : Option Icache :=
  let i := c.inode ip
  if i.ref < 1 then none
  else if i.valid then some c
  else
    let dip := c.disk i.dev i.inum
    if dip.type = 0 then none
    else
      some (c.set ip
        { i with type := dip.type, nlink := dip.nlink, mode := dip.mode, valid := true })

/-- The part of iput() that frees an inode without links. -/
def free (c : Icache) (ip : InodeSlot) : Icache :=
  let c := (c.set ip { c.inode ip with type := 0 }).iupdate ip
  c.set ip { c.inode ip with valid := false }

def iput (c : Icache) (ip : InodeSlot) : Icache :=
  let i := c.inode ip
  let c := if i.valid = true ∧ i.nlink = 0 ∧ i.ref = 1 then c.free ip else c
  c.set ip { c.inode ip with ref := (c.inode ip).ref - 1 }

/-- The inode number that ialloc() comes to, and the inode it writes there. -/
def ialloc (c : Icache) (ninodes : Nat) (dev : Word) (type : Int) : Option (InodeSlot × Icache) :=
  match ((List.range ninodes).drop 1).find? fun inum =>
      decide ((c.disk dev (BitVec.ofNat 32 inum)).type = 0) with
  | none => none
  | some inum =>
      let inum := BitVec.ofNat 32 inum
      (c.write dev inum { type := type, nlink := 0, mode := 7 }).iget dev inum

/-- `ip->nlink` is changed and written back. -/
def setLinks (c : Icache) (ip : InodeSlot) (nlink : Int) : Icache :=
  (c.set ip { c.inode ip with nlink := nlink }).iupdate ip

/-- chmod_actual() on the locked inode. -/
def setMode (c : Icache) (ip : InodeSlot) (mode : Word) : Icache :=
  (c.set ip { c.inode ip with mode := mode }).iupdate ip

end Icache

/-- What the path walks and the other calls of the file system do to the cache,
by whoever holds the reference that it takes. -/
inductive InodeOp where
  | iget (dev inum : Word)
  | idup (ip : InodeSlot)
  | ilock (ip : InodeSlot)
  | iput (ip : InodeSlot)
  | ialloc (dev : Word) (type : Int)
  | setLinks (ip : InodeSlot) (nlink : Int)

/-- `sb.ninodes` of the image. -/
def ninodes : Nat := 200

def InodeOp.apply (c : Icache) : InodeOp → Option Icache
  | .iget dev inum => (c.iget dev inum).map Prod.snd
  | .idup ip => if (c.inode ip).ref > 0 then some (c.idup ip) else none
  | .ilock ip => c.ilock ip
  | .iput ip => if (c.inode ip).ref > 0 then some (c.iput ip) else none
  | .ialloc dev type => (c.ialloc ninodes dev type).map Prod.snd
  | .setLinks ip nlink =>
      if (c.inode ip).ref > 0 ∧ (c.inode ip).valid = true then some (c.setLinks ip nlink) else none

end Xv6.Public1.Inodes
