import Mathlib.Algebra.Group.Nat.Defs
import Mathlib.Data.List.FinRange
import Xv6.Lib.Allocation
import Xv6.Lib.Words

/-!
# Blocks and the content of inodes (fs.c of xv6-public_1)

The free map, the blocks and the inodes of the disk as the buffer cache shows
them, and the inodes in memory: balloc(), bfree(), bmap(), itrunc(), readi(),
writei() and what creates, loads, writes back and frees an inode.  An inode in
memory is found by its number; the slots of the cache and the locks are left out.
-/

set_option autoImplicit false

namespace Xv6.Public1.Blocks

open Xv6.Lib.Words

abbrev BSIZE : Nat := 512

/-- Bitmap bits per block. -/
abbrev BPB : Nat := BSIZE * 8

abbrev NDIRECT : Nat := 11

abbrev NINDIRECT : Nat := 128

abbrev MAXFILE : Nat := NDIRECT + NINDIRECT

abbrev NDEV : Nat := 10

def T_DEV : Int := 3

abbrev Block := Fin BSIZE → Byte

theorem word_inside {j : Fin NINDIRECT} {k : Nat} (small : k < 4) : 4 * j.val + k < BSIZE := by
  have bound := j.isLt
  simp only [NINDIRECT, BSIZE] at *
  omega

/-- `((uint*)bp->data)[j]` -/
def word (b : Block) (j : Fin NINDIRECT) : Word :=
  b ⟨4 * j.val + 3, word_inside (by decide)⟩ ++ b ⟨4 * j.val + 2, word_inside (by decide)⟩ ++
    b ⟨4 * j.val + 1, word_inside (by decide)⟩ ++ b ⟨4 * j.val + 0, word_inside (by decide)⟩

def setWord (b : Block) (j : Fin NINDIRECT) (w : Word) : Block := fun q =>
  if q.val / 4 = j.val then w.extractLsb' (8 * (q.val % 4)) 8 else b q

/-- The fields of the super block that are used here, as mkfs computes them. -/
structure Superblock where
  size : Nat
  ninodes : Nat
  bmapstart : Nat
  boot_block : 0 < bmapstart
  /-- The free map ends within the image. -/
  metadata : bmapstart + (size / BPB + 1) ≤ size
  size_uint : size < 2 ^ 32

/-- The first data block. -/
def Superblock.nmeta (sb : Superblock) : Nat := sb.bmapstart + (sb.size / BPB + 1)

/-- `struct dinode`, and the copy of it in `struct inode`. -/
structure Dinode where
  type : Int
  major : Int
  minor : Int
  nlink : Int
  size : Word
  mode : Word
  addrs : Fin (NDIRECT + 1) → Word

/-- A cache entry. -/
structure Inode where
  ref : Int
  valid : Bool
  copy : Dinode

abbrev Inum (sb : Superblock) := Fin sb.ninodes

structure Fs (sb : Superblock) where
  bitmap : Word → Bool
  block : Word → Block
  dinode : Inum sb → Dinode
  inode : Inum sb → Inode

inductive Panic where
  /-- balloc: out of blocks -/
  | outOfBlocks
  /-- freeing free block -/
  | freeingFreeBlock
  /-- bmap: out of range -/
  | outOfRange
  /-- ialloc: no inodes -/
  | noInodes
  | ilock
  /-- ilock: no type -/
  | noType
  deriving DecidableEq

/-- `devsw[major].read` and `devsw[major].write`. -/
structure Devsw where
  read : Int → Option (Word → Option (List Byte))
  write : Int → Option ((Nat → Byte) → Word → Option Word)

/-- The bytes that memmove() takes from a block, from offset `off` on. -/
def bytes (b : Block) (off m : Nat) : List Byte :=
  (List.range m).map fun q => b ⟨(off + q) % BSIZE, Nat.mod_lt _ (Nat.succ_pos 511)⟩

/-- The block after memmove() has put `m` bytes at offset `off`. -/
def memmove (b : Block) (off m : Nat) (src : Nat → Byte) : Block := fun q =>
  if off ≤ q.val ∧ q.val < off + m then src (q.val - off) else b q

namespace Fs

variable {sb : Superblock}

def setBit (s : Fs sb) (b : Word) (used : Bool) : Fs sb :=
  { s with bitmap := Function.update s.bitmap b used }

def setBlock (s : Fs sb) (b : Word) (data : Block) : Fs sb :=
  { s with block := Function.update s.block b data }

def setInode (s : Fs sb) (i : Inum sb) (value : Inode) : Fs sb :=
  { s with inode := Function.update s.inode i value }

/-- A store to the fields of the inode in memory. -/
def setCopy (s : Fs sb) (i : Inum sb) (copy : Dinode) : Fs sb :=
  s.setInode i { s.inode i with copy := copy }

def setDinode (s : Fs sb) (i : Inum sb) (dip : Dinode) : Fs sb :=
  { s with dinode := Function.update s.dinode i dip }

/-- The inode in memory. -/
def ip (s : Fs sb) (i : Inum sb) : Dinode := (s.inode i).copy

/-! ## Blocks -/

/-- The first free block, which is zeroed. -/
def balloc (s : Fs sb) : Except Panic (Word × Fs sb) :=
  match (List.range sb.size).find? fun b => !s.bitmap (BitVec.ofNat 32 b) with
  | none => .error .outOfBlocks
  | some b =>
      let b := BitVec.ofNat 32 b
      .ok (b, (s.setBit b true).setBlock b fun _ => 0)

def bfree (s : Fs sb) (b : Word) : Except Panic (Fs sb) :=
  if s.bitmap b = false then .error .freeingFreeBlock else .ok (s.setBit b false)

/-! ## Inodes -/

def iupdate (s : Fs sb) (i : Inum sb) : Fs sb := s.setDinode i (s.ip i)

/-- `ip->addrs[k] = addr` -/
def setAddr (s : Fs sb) (i : Inum sb) (k : Fin (NDIRECT + 1)) (addr : Word) : Fs sb :=
  s.setCopy i { s.ip i with addrs := Function.update (s.ip i).addrs k addr }

/-- `if((addr = ip->addrs[k]) == 0) ip->addrs[k] = addr = balloc(ip->dev);` -/
def bmapAddr (s : Fs sb) (i : Inum sb) (k : Fin (NDIRECT + 1)) : Except Panic (Word × Fs sb) :=
  if (s.ip i).addrs k = 0 then do
    let (addr, s) ← s.balloc
    pure (addr, s.setAddr i k addr)
  else pure ((s.ip i).addrs k, s)

/-- The same for an entry of the indirect block. -/
def bmapEntry (s : Fs sb) (indirect : Word) (j : Fin NINDIRECT) : Except Panic (Word × Fs sb) :=
  if word (s.block indirect) j = 0 then do
    let (addr, s) ← s.balloc
    pure (addr, s.setBlock indirect (setWord (s.block indirect) j addr))
  else pure (word (s.block indirect) j, s)

def bmap (s : Fs sb) (i : Inum sb) (bn : Nat) : Except Panic (Word × Fs sb) :=
  if direct : bn < NDIRECT then s.bmapAddr i (Fin.castSucc ⟨bn, direct⟩)
  else
    if inside : bn - NDIRECT < NINDIRECT then do
      let (addr, s) ← s.bmapAddr i (Fin.last NDIRECT)
      s.bmapEntry addr ⟨bn - NDIRECT, inside⟩
    else .error .outOfRange

def itrunc (s : Fs sb) (i : Inum sb) : Except Panic (Fs sb) := do
  let s ← (List.finRange NDIRECT).foldlM (fun s k =>
    if (s.ip i).addrs k.castSucc ≠ 0 then do
      let s ← s.bfree ((s.ip i).addrs k.castSucc)
      pure (s.setAddr i k.castSucc 0)
    else pure s) s
  let indirect := (s.ip i).addrs (Fin.last NDIRECT)
  let s ←
    if indirect ≠ 0 then do
      let a := s.block indirect
      let s ← (List.finRange NINDIRECT).foldlM (fun s j =>
        if word a j ≠ 0 then s.bfree (word a j) else pure s) s
      let s ← s.bfree indirect
      pure (s.setAddr i (Fin.last NDIRECT) 0)
    else pure s
  pure ((s.setCopy i { s.ip i with size := 0 }).iupdate i)

/-! ## readi() and writei() -/

/-- The rounds of readi() from `off` on, with `left` bytes to come. -/
def readLoop (i : Inum sb) : Nat → Fs sb → Nat → Nat → Except Panic (Fs sb × List Byte)
  | 0, s, _, _ => pure (s, [])
  | fuel + 1, s, off, left =>
      if left = 0 then pure (s, [])
      else do
        let (addr, s) ← s.bmap i (off / BSIZE)
        let m := min left (BSIZE - off % BSIZE)
        let (s', rest) ← readLoop i fuel s (off + m) (left - m)
        pure (s', bytes (s.block addr) (off % BSIZE) m ++ rest)

/-- The bytes that are read, or none for -1. -/
def readi (devsw : Devsw) (s : Fs sb) (i : Inum sb) (off n : Word) :
    Except Panic (Fs sb × Option (List Byte)) :=
  if (s.ip i).type = T_DEV then
    if (s.ip i).major < 0 ∨ NDEV ≤ (s.ip i).major then pure (s, none)
    else pure (s, (devsw.read (s.ip i).major).bind fun read => read n)
  else if off > (s.ip i).size ∨ off + n < off then pure (s, none)
  else do
    let n := if off + n > (s.ip i).size then (s.ip i).size - off else n
    let (s, dst) ← readLoop i n.toNat s off.toNat n.toNat
    pure (s, some dst)

/-- The rounds of writei() from `off` on, with `left` bytes of `src` to come. -/
def writeLoop (i : Inum sb) : Nat → Fs sb → Nat → Nat → (Nat → Byte) → Except Panic (Fs sb)
  | 0, s, _, _, _ => pure s
  | fuel + 1, s, off, left, src =>
      if left = 0 then pure s
      else do
        let (addr, s) ← s.bmap i (off / BSIZE)
        let m := min left (BSIZE - off % BSIZE)
        let s := s.setBlock addr (memmove (s.block addr) (off % BSIZE) m src)
        writeLoop i fuel s (off + m) (left - m) fun q => src (m + q)

/-- The number of bytes that are written, or none for -1. -/
def writei (devsw : Devsw) (s : Fs sb) (i : Inum sb) (src : Nat → Byte) (off n : Word) :
    Except Panic (Fs sb × Option Word) :=
  if (s.ip i).type = T_DEV then
    if (s.ip i).major < 0 ∨ NDEV ≤ (s.ip i).major then pure (s, none)
    else pure (s, (devsw.write (s.ip i).major).bind fun write => write src n)
  else if off > (s.ip i).size ∨ off + n < off then pure (s, none)
  else if (off + n).toNat > MAXFILE * BSIZE then pure (s, none)
  else do
    let s ← writeLoop i n.toNat s off.toNat n.toNat src
    if n > 0 ∧ off + n > (s.ip i).size then
      pure ((s.setCopy i { s.ip i with size := off + n }).iupdate i, some n)
    else pure (s, some n)

/-! ## The cache -/

def iget (s : Fs sb) (i : Inum sb) : Fs sb :=
  if 0 < (s.inode i).ref then s.setInode i { s.inode i with ref := (s.inode i).ref + 1 }
  else s.setInode i { s.inode i with ref := 1, valid := false }

def idup (s : Fs sb) (i : Inum sb) : Fs sb :=
  s.setInode i { s.inode i with ref := (s.inode i).ref + 1 }

def ilock (s : Fs sb) (i : Inum sb) : Except Panic (Fs sb) :=
  if (s.inode i).ref < 1 then .error .ilock
  else if (s.inode i).valid = true then pure s
  else if (s.dinode i).type = 0 then .error .noType
  else pure (s.setInode i { s.inode i with valid := true, copy := s.dinode i })

def iput (s : Fs sb) (i : Inum sb) : Except Panic (Fs sb) := do
  let s ←
    if (s.inode i).valid = true ∧ (s.ip i).nlink = 0 ∧ (s.inode i).ref = 1 then do
      let s ← s.itrunc i
      let s := (s.setCopy i { s.ip i with type := 0 }).iupdate i
      pure (s.setInode i { s.inode i with valid := false })
    else pure s
  pure (s.setInode i { s.inode i with ref := (s.inode i).ref - 1 })

/-- The first free inode on disk. -/
def ialloc (s : Fs sb) (type : Int) : Except Panic (Inum sb × Fs sb) :=
  match (List.finRange sb.ninodes).find? fun i => decide (i.val ≠ 0 ∧ (s.dinode i).type = 0) with
  | none => .error .noInodes
  | some i =>
      let dip : Dinode :=
        { type := type, major := 0, minor := 0, nlink := 0, size := 0, mode := 7, addrs := fun _ => 0 }
      .ok (i, (s.setDinode i dip).iget i)

end Fs

end Xv6.Public1.Blocks
