import Xv6.Public1.Blocks
import Xv6.Public1.Directory

/-!
# mkfs (mkfs.c of xv6-public_1)

The program that writes the first image: the super block, the inodes, the blocks of
the files and of the root directory, and the free map, sector by sector.  What
xint() and xshort() store is little endian on every host.
-/

set_option autoImplicit false

namespace Xv6.Public1.Mkfs

open Xv6.Lib.Words
open Xv6.Lib.CString
open Xv6.Public1.Blocks (BSIZE BPB NDIRECT NINDIRECT MAXFILE Block word setWord memmove)
open Xv6.Public1.Directory (Dirent direntBytes)

abbrev FSSIZE : Nat := 1000

abbrev LOGSIZE : Nat := 30

abbrev NINODES : Nat := 200

/-- Inodes per block. -/
abbrev IPB : Nat := 8

def ROOTINO : Nat := 1

def T_DIR : BitVec 16 := 1

def T_FILE : BitVec 16 := 2

abbrev nbitmap : Nat := FSSIZE / (BSIZE * 8) + 1

abbrev ninodeblocks : Nat := NINODES / IPB + 1

abbrev nlog : Nat := LOGSIZE

/-- Number of meta blocks (boot, sb, nlog, inode, bitmap). -/
abbrev nmeta : Nat := 2 + nlog + ninodeblocks + nbitmap

/-- Number of data blocks. -/
abbrev nblocks : Nat := FSSIZE - nmeta

abbrev logstart : Nat := 2

abbrev inodestart : Nat := 2 + nlog

abbrev bmapstart : Nat := 2 + nlog + ninodeblocks

/-! ## Inodes in their blocks -/

/-- `struct dinode` -/
structure Dinode where
  type : BitVec 16
  major : BitVec 16
  minor : BitVec 16
  nlink : BitVec 16
  size : Word
  addrs : Fin (NDIRECT + 1) → Word
  mode : Word

/-- The words of a dinode, lowest address first. -/
def Dinode.word (d : Dinode) (j : Nat) : Word :=
  if j = 0 then d.major ++ d.type
  else if j = 1 then d.nlink ++ d.minor
  else if j = 2 then d.size
  else if inside : j - 3 < NDIRECT + 1 then d.addrs ⟨j - 3, inside⟩
  else d.mode

theorem dinode_inside (k : Fin IPB) {j : Nat} (small : j < 16) : 16 * k.val + j < NINDIRECT := by
  have bound := k.isLt
  simp only [IPB, NINDIRECT] at *
  omega

theorem addr_inside (a : Fin (NDIRECT + 1)) : 3 + a.val < 16 := by
  have bound := a.isLt
  simp only [NDIRECT] at bound
  omega

/-- `((struct dinode*)buf)[k]` -/
def dinodeAt (buf : Block) (k : Fin IPB) : Dinode where
  type := (Blocks.word buf ⟨16 * k.val + 0, dinode_inside k (by decide)⟩).extractLsb' 0 16
  major := (Blocks.word buf ⟨16 * k.val + 0, dinode_inside k (by decide)⟩).extractLsb' 16 16
  minor := (Blocks.word buf ⟨16 * k.val + 1, dinode_inside k (by decide)⟩).extractLsb' 0 16
  nlink := (Blocks.word buf ⟨16 * k.val + 1, dinode_inside k (by decide)⟩).extractLsb' 16 16
  size := Blocks.word buf ⟨16 * k.val + 2, dinode_inside k (by decide)⟩
  addrs := fun a => Blocks.word buf ⟨16 * k.val + (3 + a.val), dinode_inside k (addr_inside a)⟩
  mode := Blocks.word buf ⟨16 * k.val + 15, dinode_inside k (by decide)⟩

/-- `((struct dinode*)buf)[k] = d` -/
def setDinode (buf : Block) (k : Fin IPB) (d : Dinode) : Block := fun q =>
  if q.val / 64 = k.val then (d.word (q.val % 64 / 4)).extractLsb' (8 * (q.val % 4)) 8 else buf q

/-! ## Sectors -/

structure State where
  sector : Word → Block
  freeinode : Nat
  freeblock : Word

inductive Failure where
  /-- An assertion fails. -/
  | assertion
  /-- rsect() does not get a whole block. -/
  | rsect
  deriving DecidableEq

theorem field_inside {k : Nat} (small : k < 7) : k < NINDIRECT := Nat.lt_trans small (by decide)

/-- The words of `sb`, at the start of a block. -/
def superblock : Block := fun q =>
  let buf := setWord (fun _ => 0) ⟨0, field_inside (by decide)⟩ (BitVec.ofNat 32 FSSIZE)
  let buf := setWord buf ⟨1, field_inside (by decide)⟩ (BitVec.ofNat 32 nblocks)
  let buf := setWord buf ⟨2, field_inside (by decide)⟩ (BitVec.ofNat 32 NINODES)
  let buf := setWord buf ⟨3, field_inside (by decide)⟩ (BitVec.ofNat 32 nlog)
  let buf := setWord buf ⟨4, field_inside (by decide)⟩ (BitVec.ofNat 32 logstart)
  let buf := setWord buf ⟨5, field_inside (by decide)⟩ (BitVec.ofNat 32 inodestart)
  setWord buf ⟨6, field_inside (by decide)⟩ (BitVec.ofNat 32 bmapstart) q

theorem inum_inside (inum : Nat) : inum % IPB < IPB := Nat.mod_lt inum (Nat.succ_pos 7)

/-- `IBLOCK(inum, sb)` -/
def IBLOCK (inum : Nat) : Word := BitVec.ofNat 32 (inum / IPB + inodestart)

namespace State

/-- What main() has written before the first inode: sectors of zeroes, and the super block. -/
def start : State where
  sector := Function.update (fun _ _ => 0) 1 superblock
  freeinode := 1
  freeblock := BitVec.ofNat 32 nmeta

/-- The image has FSSIZE sectors. -/
def rsect (s : State) (sec : Word) : Except Failure Block :=
  if sec.toNat < FSSIZE then pure (s.sector sec) else .error .rsect

def wsect (s : State) (sec : Word) (buf : Block) : State :=
  { s with sector := Function.update s.sector sec buf }

def winode (s : State) (inum : Nat) (ip : Dinode) : Except Failure State := do
  let buf ← s.rsect (IBLOCK inum)
  pure (s.wsect (IBLOCK inum) (setDinode buf ⟨inum % IPB, inum_inside inum⟩ ip))

def rinode (s : State) (inum : Nat) : Except Failure Dinode := do
  let buf ← s.rsect (IBLOCK inum)
  pure (dinodeAt buf ⟨inum % IPB, inum_inside inum⟩)

def ialloc (s : State) (type : BitVec 16) : Except Failure (Nat × State) := do
  let inum := s.freeinode
  let s := { s with freeinode := s.freeinode + 1 }
  let din : Dinode :=
    { type := type, major := 0, minor := 0, nlink := 1, size := 0, addrs := fun _ => 0, mode := 7 }
  let s ← s.winode inum din
  pure (inum, s)

/-- `buf[i/8] = buf[i/8] | (0x1 << (i%8))` for every `i` below `used`. -/
def bitmapLoop (used : Nat) : Block :=
  (List.range used).foldl (fun buf i q =>
    if q.val = i / 8 then buf q ||| (1 <<< (i % 8)) else buf q) fun _ => 0

def balloc (s : State) (used : Nat) : Except Failure State :=
  if used < BSIZE * 8 then pure (s.wsect (BitVec.ofNat 32 bmapstart) (bitmapLoop used))
  else .error .assertion

/-! ## iappend() -/

/-- `if(din.addrs[k] == 0) din.addrs[k] = freeblock++;` -/
def iappendAddr (s : State) (din : Dinode) (k : Fin (NDIRECT + 1)) : Word × Dinode × State :=
  if din.addrs k = 0 then
    (s.freeblock, { din with addrs := Function.update din.addrs k s.freeblock },
      { s with freeblock := s.freeblock + 1 })
  else (din.addrs k, din, s)

/-- `if(indirect[j] == 0) indirect[j] = freeblock++;` with the indirect block in `sec`. -/
def iappendEntry (s : State) (sec : Word) (j : Fin NINDIRECT) : Except Failure (Word × State) := do
  let indirect ← s.rsect sec
  if word indirect j = 0 then
    pure (s.freeblock,
      { s with freeblock := s.freeblock + 1 }.wsect sec (setWord indirect j s.freeblock))
  else pure (word indirect j, s)

/-- The sector of a block of the file. -/
def iappendBlock (s : State) (din : Dinode) (fbn : Nat) : Except Failure (Word × Dinode × State) :=
  if direct : fbn < NDIRECT then pure (s.iappendAddr din (Fin.castSucc ⟨fbn, direct⟩))
  else if inside : fbn - NDIRECT < NINDIRECT then do
    let (sec, din, s) := s.iappendAddr din (Fin.last NDIRECT)
    let (x, s) ← s.iappendEntry sec ⟨fbn - NDIRECT, inside⟩
    pure (x, din, s)
  -- assert(fbn < MAXFILE)
  else .error .assertion

/-- The rounds of iappend() from `off` on, with the bytes `p` to come. -/
def iappendLoop : Nat → State → Dinode → Nat → List Byte → Except Failure (Dinode × Nat × State)
  | 0, s, din, off, _ => pure (din, off, s)
  | fuel + 1, s, din, off, p =>
      if p = [] then pure (din, off, s)
      else do
        let fbn := off / BSIZE
        let (x, din, s) ← s.iappendBlock din fbn
        let n1 := min p.length ((fbn + 1) * BSIZE - off)
        let buf ← s.rsect x
        let s := s.wsect x (memmove buf (off - fbn * BSIZE) n1 fun q => p.getD q 0)
        iappendLoop fuel s din (off + n1) (p.drop n1)

def iappend (s : State) (inum : Nat) (p : List Byte) : Except Failure State := do
  let din ← s.rinode inum
  let (din, off, s) ← iappendLoop p.length s din din.size.toNat p
  s.winode inum { din with size := BitVec.ofNat 32 off }

end State

/-! ## main() -/

/-- An argument: its name, and what read() gives of the file, one buffer after the other. -/
structure Input where
  name : List Byte
  reads : List (List Byte)

def slash : Byte := 47

def underscore : Byte := 95

/-- The name without a leading underscore. -/
def Input.shortName (f : Input) : List Byte :=
  if f.name.head? = some underscore then f.name.tail else f.name

/-- `.` or `..` of the root directory. -/
def dirent (name : List Byte) (inum : Nat) : Dirent := Directory.entry name (BitVec.ofNat 16 inum)

namespace State

def addFile (s : State) (rootino : Nat) (f : Input) : Except Failure State :=
  if slash ∈ f.name then .error .assertion
  else do
    let (inum, s) ← s.ialloc T_FILE
    let s ← s.iappend rootino (direntBytes (dirent f.shortName inum))
    f.reads.foldlM (fun s buf => s.iappend inum buf) s

/-- The size of the root directory is rounded up. -/
def fixRoot (s : State) (rootino : Nat) : Except Failure State := do
  let din ← s.rinode rootino
  let off := (din.size.toNat / BSIZE + 1) * BSIZE
  s.winode rootino { din with size := BitVec.ofNat 32 off }

end State

def main (files : List Input) : Except Failure State := do
  let (rootino, s) ← State.start.ialloc T_DIR
  if rootino ≠ ROOTINO then .error .assertion
  else
    let s ← s.iappend rootino (direntBytes (dirent (bytes ".") rootino))
    let s ← s.iappend rootino (direntBytes (dirent (bytes "..") rootino))
    let s ← files.foldlM (fun s f => s.addFile rootino f) s
    let s ← s.fixRoot rootino
    s.balloc s.freeblock.toNat

end Xv6.Public1.Mkfs
