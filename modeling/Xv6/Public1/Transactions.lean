import Xv6.Lib.Rely
import Xv6.Public1.Blocks
import Xv6.Public1.Tree

/-!
# The blocks of a transaction (fs.c, sysfile.c, file.c and exec.c of xv6-public_1)

What the system calls do between begin_op() and end_op(), with the blocks that they pass
to log_write(), while other processes change what is not locked.  What is done to an inode
under its lock is one action, as is what is done under icache.lock.

An inode has one copy here: every store to the copy in memory is followed by iupdate().
The entries of its indirect block are kept with it, and so are the bytes of its blocks.
Sizes are at most `MAXFILE*BSIZE`, so that their sums do not wrap.
-/

set_option autoImplicit false

namespace Xv6.Public1.Transactions

open Xv6.Lib.Words
open Xv6.Lib.CString
open Xv6.Lib.Rely
open Xv6.Public1.Directory (Inum Dirent DIRSIZ direntSize direntBytes namecmp entry noEntry)
open Xv6.Public1.Blocks (BSIZE BPB NDIRECT NINDIRECT MAXFILE NDEV)
open Xv6.Public1.Tree (T_DIR T_FILE T_DEV ROOTINO dot dotdot slash elements)

/-- max # of blocks any FS op writes -/
def MAXOPBLOCKS : Nat := 10

/-- size of file system in blocks, which is `sb.size` -/
@[irreducible] def FSSIZE : Nat := 1000

/-- Inodes per block. -/
abbrev IPB : Nat := 8

/-- What no transaction changes: the places of the inodes and of the free map, and the
devices. -/
structure Machine where
  inodestart : Nat
  bmapstart : Nat
  ninodes : Nat
  /-- `devsw[major].write` -/
  devwrite : Int → Option (List Byte → Int)

/-- Block containing inode i -/
def Machine.IBLOCK (k : Machine) (i : Inum) : Nat := i.toNat / IPB + k.inodestart

/-- Block of free map containing bit for block b -/
def Machine.BBLOCK (k : Machine) (b : Nat) : Nat := b / BPB + k.bmapstart

structure Inode where
  type : Int
  major : Int
  minor : Int
  nlink : Int
  size : Nat
  mode : Word
  /-- `addrs[bn]`, and from NDIRECT on the entries of the indirect block. -/
  addrs : Nat → Nat
  /-- `addrs[NDIRECT]` -/
  indirect : Nat
  /-- The bytes of the blocks, by their offsets. -/
  data : Nat → Byte

/-- The process that makes the transaction. -/
structure Proc where
  pid : Nat
  cwd : Inum

structure State where
  inode : Inum → Inode
  ref : Inum → Int
  valid : Inum → Bool
  /-- `ip->lock.pid`, if `ip->lock.locked` -/
  lock : Inum → Option Nat
  /-- The bits of the free map. -/
  used : Nat → Bool
  /-- The blocks that this transaction has passed to log_write(), the last one first. -/
  log : List Nat
  /-- The inodes that its path lookups have freed. -/
  freed : List Inum

inductive Panic where
  /-- balloc: out of blocks -/
  | outOfBlocks
  /-- freeing free block -/
  | freeingFreeBlock
  /-- bmap: out of range -/
  | outOfRange
  /-- ialloc: no inodes -/
  | noInodes
  | ilock
  /-- ilock: no type -/
  | noType
  | iunlock
  /-- dirlookup not DIR -/
  | notDir
  /-- dirlookup read -/
  | dirlookupRead
  /-- dirlink read -/
  | dirlinkRead
  /-- isdirempty: readi -/
  | isdirempty
  | dirlink
  /-- unlink: nlink < 1 -/
  | unlinkNlink
  /-- unlink: writei -/
  | unlinkWritei
  /-- create dots -/
  | createDots
  /-- create: dirlink -/
  | createDirlink

/-- An inode that ialloc() has cleared. -/
def cleared (type : Int) : Inode where
  type := type
  major := 0
  minor := 0
  nlink := 0
  size := 0
  mode := 7
  addrs := fun _ => 0
  indirect := 0
  data := fun _ => 0

namespace State

def setInode (s : State) (i : Inum) (ip : Inode) : State :=
  { s with inode := Function.update s.inode i ip }

def setRef (s : State) (i : Inum) (ref : Int) : State :=
  { s with ref := Function.update s.ref i ref }

def setValid (s : State) (i : Inum) (valid : Bool) : State :=
  { s with valid := Function.update s.valid i valid }

def setLock (s : State) (i : Inum) (lock : Option Nat) : State :=
  { s with lock := Function.update s.lock i lock }

def setUsed (s : State) (b : Nat) (used : Bool) : State :=
  { s with used := Function.update s.used b used }

def log_write (s : State) (b : Nat) : State := { s with log := b :: s.log }

/-- A new transaction. -/
def begin_op (s : State) : State := { s with log := [], freed := [] }

/-! ## Blocks -/

section Blocks

variable (k : Machine)

/-- The first free block, which bzero() clears. -/
def balloc (s : State) : Except Panic (Nat × State) :=
  match (List.range FSSIZE).find? fun b => !s.used b with
  | none => .error .outOfBlocks
  | some b => .ok (b, ((s.setUsed b true).log_write (k.BBLOCK b)).log_write b)

def bfree (s : State) (b : Nat) : Except Panic State :=
  if s.used b = false then .error .freeingFreeBlock
  else .ok ((s.setUsed b false).log_write (k.BBLOCK b))

def iupdate (s : State) (i : Inum) : State := s.log_write (k.IBLOCK i)

/-- A block for the bytes from `bn*BSIZE` on. -/
def setAddr (s : State) (i : Inum) (bn addr : Nat) : State :=
  let ip := s.inode i
  s.setInode i { ip with
    addrs := Function.update ip.addrs bn addr
    data := fun q => if q / BSIZE = bn then 0 else ip.data q }

/-- `ip->addrs[NDIRECT] = addr`, a block without entries or none. -/
def setIndirect (s : State) (i : Inum) (addr : Nat) : State :=
  let ip := s.inode i
  s.setInode i { ip with
    indirect := addr
    addrs := fun bn => if bn < NDIRECT then ip.addrs bn else 0 }

/-- `if((addr = ip->addrs[NDIRECT]) == 0) ip->addrs[NDIRECT] = addr = balloc(ip->dev);` -/
def bmapIndirect (s : State) (i : Inum) : Except Panic State :=
  if (s.inode i).indirect = 0 then do
    let (addr, s) ← s.balloc k
    pure (s.setIndirect i addr)
  else pure s

def bmap (s : State) (i : Inum) (bn : Nat) : Except Panic (Nat × State) :=
  if bn < NDIRECT then
    if (s.inode i).addrs bn = 0 then do
      let (addr, s) ← s.balloc k
      pure (addr, s.setAddr i bn addr)
    else pure ((s.inode i).addrs bn, s)
  else if bn - NDIRECT < NINDIRECT then do
    let s ← s.bmapIndirect k i
    if (s.inode i).addrs bn = 0 then do
      let (addr, s) ← s.balloc k
      pure (addr, (s.setAddr i bn addr).log_write (s.inode i).indirect)
    else pure ((s.inode i).addrs bn, s)
  else .error .outOfRange

def itrunc (s : State) (i : Inum) : Except Panic State := do
  let s ← (List.range NDIRECT).foldlM (fun s bn =>
    if (s.inode i).addrs bn ≠ 0 then do
      let s ← s.bfree k ((s.inode i).addrs bn)
      pure (s.setAddr i bn 0)
    else pure s) s
  let s ←
    if (s.inode i).indirect ≠ 0 then do
      let a := (s.inode i).addrs
      let s ← (List.range NINDIRECT).foldlM (fun s j =>
        if a (NDIRECT + j) ≠ 0 then s.bfree k (a (NDIRECT + j)) else pure s) s
      let s ← s.bfree k (s.inode i).indirect
      pure (s.setIndirect i 0)
    else pure s
  pure ((s.setInode i { s.inode i with size := 0 }).iupdate k i)

/-- The rounds of readi() from `off` on, with `left` bytes to come. -/
def readLoop (i : Inum) : Nat → State → Nat → Nat → Except Panic (List Byte × State)
  | 0, s, _, _ => pure ([], s)
  | fuel + 1, s, off, left =>
      if left = 0 then pure ([], s)
      else do
        let (_, s) ← s.bmap k i (off / BSIZE)
        let m := min left (BSIZE - off % BSIZE)
        let (rest, s') ← readLoop i fuel s (off + m) (left - m)
        pure ((List.range m).map (fun q => (s.inode i).data (off + q)) ++ rest, s')

/-- The bytes that are read of a directory. -/
def readi (s : State) (i : Inum) (off n : Nat) : Except Panic (List Byte × State) :=
  if off > (s.inode i).size then pure ([], s)
  else
    let n := if off + n > (s.inode i).size then (s.inode i).size - off else n
    readLoop k i n s off n

/-- The rounds of writei() from `off` on, with `src` to come. -/
def writeLoop (i : Inum) : Nat → State → Nat → List Byte → Except Panic State
  | 0, s, _, _ => pure s
  | fuel + 1, s, off, src =>
      if src = [] then pure s
      else do
        let (addr, s) ← s.bmap k i (off / BSIZE)
        let m := min src.length (BSIZE - off % BSIZE)
        let ip := s.inode i
        let s := s.setInode i { ip with
          data := fun q => if off ≤ q ∧ q < off + m then src.getD (q - off) 0 else ip.data q }
        writeLoop i fuel (s.log_write addr) (off + m) (src.drop m)

def writei (s : State) (i : Inum) (src : List Byte) (off : Nat) : Except Panic (Int × State) :=
  if (s.inode i).type = T_DEV then
    if (s.inode i).major < 0 ∨ NDEV ≤ (s.inode i).major then pure (-1, s)
    else
      match k.devwrite (s.inode i).major with
      | none => pure (-1, s)
      | some write => pure (write src, s)
  else if off > (s.inode i).size then pure (-1, s)
  else if off + src.length > MAXFILE * BSIZE then pure (-1, s)
  else do
    let s ← s.writeLoop k i src.length off src
    if src ≠ [] ∧ off + src.length > (s.inode i).size then
      let s := s.setInode i { s.inode i with size := off + src.length }
      pure (src.length, s.iupdate k i)
    else pure (src.length, s)

end Blocks

/-! ## Directories -/

def iget (s : State) (i : Inum) : State :=
  if 0 < s.ref i then s.setRef i (s.ref i + 1) else (s.setRef i 1).setValid i false

section Directories

variable (k : Machine)

/-- `readi(dp, (char*)&de, off, sizeof(de)) != sizeof(de)` is a panic. -/
def readEntry (s : State) (dp : Inum) (short : Panic) (off : Nat) :
    Except Panic (Dirent × State) := do
  let (bytes, s) ← s.readi k dp off direntSize
  if sized : bytes.length = direntSize then
    pure ({
      inum := bytes.getD 1 0 ++ bytes.getD 0 0
      name := bytes.drop 2
      sized := List.length_drop.trans (congrArg (· - 2) sized) }, s)
  else .error short

/-- A loop over the entries from `off` on: the one it stops at, and the last offset. -/
def scan (dp : Inum) (short : Panic) (stops : Dirent → Bool) :
    Nat → State → Nat → Except Panic (Option Dirent × Nat × State)
  | 0, s, off => pure (none, off, s)
  | fuel + 1, s, off =>
      if off < (s.inode dp).size then do
        let (de, s) ← s.readEntry k dp short off
        if stops de = true then pure (some de, off, s)
        else scan dp short stops fuel s (off + direntSize)
      else pure (none, off, s)

def dirlookup (dp : Inum) (name : List Byte) (s : State) :
    Except Panic (Option (Inum × Nat) × State) :=
  if (s.inode dp).type ≠ T_DIR then .error .notDir
  else do
    let stops := fun de : Dirent => decide (de.inum ≠ 0 ∧ namecmp name de.name = 0)
    let (found, off, s) ← scan k dp .dirlookupRead stops (s.inode dp).size s 0
    match found with
    | none => pure (none, s)
    | some de => pure (some (de.inum, off), s.iget de.inum)

/-- dirlink() once the name is not found. -/
def addEntry (dp : Inum) (name : List Byte) (inum : Inum) (s : State) :
    Except Panic (Unit × State) := do
  let stops := fun de : Dirent => decide (de.inum = 0)
  let (_, off, s) ← scan k dp .dirlinkRead stops (s.inode dp).size s 0
  let (r, s) ← s.writei k dp (direntBytes (entry name inum)) off
  if r ≠ direntSize then .error .dirlink else pure ((), s)

/-- No entry but the first two. -/
def isdirempty (dp : Inum) (s : State) : Except Panic (Bool × State) := do
  let stops := fun de : Dirent => decide (de.inum ≠ 0)
  let (found, _, s) ← scan k dp .isdirempty stops (s.inode dp).size s (2 * direntSize)
  pure (found.isNone, s)

/-- `memset(&de, 0, sizeof(de));` and writei(). -/
def clearEntry (dp : Inum) (off : Nat) (s : State) : Except Panic (Unit × State) := do
  let (r, s) ← s.writei k dp (direntBytes noEntry) off
  if r ≠ direntSize then .error .unlinkWritei else pure ((), s)

/-! ## Inodes -/

/-- The first free inode. -/
def ialloc (type : Int) (s : State) : Except Panic (Inum × State) :=
  match (List.range k.ninodes).find? fun inum =>
      decide (inum ≠ 0 ∧ (s.inode (BitVec.ofNat 16 inum)).type = 0) with
  | none => .error .noInodes
  | some inum =>
      let i := BitVec.ofNat 16 inum
      .ok (i, ((s.setInode i (cleared type)).log_write (k.IBLOCK i)).iget i)

/-- What iput() does while it has the lock; the last reference to an inode without links
frees it.  `lookup` says that namex() has called. -/
def release (lookup : Bool) (i : Inum) (s : State) : Except Panic (Unit × State) :=
  if s.valid i = true ∧ (s.inode i).nlink = 0 ∧ s.ref i = 1 then do
    let s ← s.itrunc k i
    let s := (s.setInode i { s.inode i with type := 0 }).iupdate k i
    let s := s.setValid i false
    pure ((), if lookup = true then { s with freed := i :: s.freed } else s)
  else pure ((), s)

/-- A store to fields of the inode, and iupdate(). -/
def store (i : Inum) (f : Inode → Inode) (s : State) : State :=
  (s.setInode i (f (s.inode i))).iupdate k i

end Directories

end State

/-! ## Locks and references -/

abbrev Code (α : Type) := Prog State Panic α

section Calls

variable (k : Machine) (p : Proc)

def acquiresleep (i : Inum) : Code Unit :=
  spin (fun s => (s.lock i).isSome) fun s =>
    if (s.lock i).isSome = true then s else s.setLock i (some p.pid)

def releasesleep (i : Inum) : Code Unit := write fun s => s.setLock i none

def ilock (i : Inum) : Code Unit := do
  let ref ← read fun s => s.ref i
  if ref < 1 then .fail .ilock
  else do
    acquiresleep p i
    atomic fun s =>
      if s.valid i = true then .ok ((), s)
      else if (s.inode i).type = 0 then .error .noType
      else .ok ((), s.setValid i true)

def iunlock (i : Inum) : Code Unit :=
  atomic fun s =>
    if s.lock i ≠ some p.pid ∨ s.ref i < 1 then .error .iunlock else .ok ((), s.setLock i none)

def iput (lookup : Bool) (i : Inum) : Code Unit := do
  acquiresleep p i
  atomic (State.release k lookup i)
  releasesleep i
  write fun s => s.setRef i (s.ref i - 1)

def iunlockput (lookup : Bool) (i : Inum) : Code Unit := do
  iunlock p i
  iput k p lookup i

/-- `ip->type`, of an inode that is locked. -/
def typeOf (i : Inum) : Code Int := read fun s => (s.inode i).type

/-! ## Paths -/

/-- The loop of namex(): the inode, and the last element if its parent is looked for. -/
def namexLoop (nameiparent : Bool) : Inum → List (List Byte) → Code (Option (Inum × List Byte))
  | ip, [] =>
      if nameiparent = true then do
        iput k p true ip
        pure none
      else pure (some (ip, []))
  | ip, name :: rest => do
      ilock p ip
      let type ← typeOf ip
      if type ≠ T_DIR then do
        iunlockput k p true ip
        pure none
      -- Stop one level early.
      else if nameiparent = true ∧ rest = [] then do
        iunlock p ip
        pure (some (ip, name))
      else do
        let next ← atomic (State.dirlookup k ip name)
        match next with
        | none => do
            iunlockput k p true ip
            pure none
        | some (next, _) => do
            iunlockput k p true ip
            namexLoop nameiparent next rest

def namex (path : List Byte) (nameiparent : Bool) : Code (Option (Inum × List Byte)) :=
  let path := text path
  let names := elements path.length path
  if path.head? = some slash then do
    write fun s => s.iget ROOTINO
    namexLoop k p nameiparent ROOTINO names
  else do
    -- idup()
    write fun s => s.setRef p.cwd (s.ref p.cwd + 1)
    namexLoop k p nameiparent p.cwd names

def namei (path : List Byte) : Code (Option Inum) := do
  let found ← namex k p path false
  pure (found.map Prod.fst)

def nameiparent (path : List Byte) : Code (Option (Inum × List Byte)) := namex k p path true

/-! ## System calls -/

def dirlink (dp : Inum) (name : List Byte) (inum : Inum) : Code Int := do
  let found ← atomic (State.dirlookup k dp name)
  match found with
  | some (ip, _) => do
      iput k p false ip
      pure (-1)
  | none => do
      atomic (State.addEntry k dp name inum)
      pure 0

/-- `.` and `..` of a new directory. -/
def createDots (ip dp : Inum) : Code Unit := do
  let r ← dirlink k p ip dot ip
  if r < 0 then .fail .createDots
  else do
    let r ← dirlink k p ip dotdot dp
    if r < 0 then .fail .createDots else pure ()

/-- What create() does with a new inode. -/
def createInode (ip dp : Inum) (type major minor : Int) : Code Unit := do
  ilock p ip
  write (State.store k ip fun d => { d with major := major, minor := minor, nlink := 1 })
  if type = T_DIR then do
    write (State.store k dp fun d => { d with nlink := d.nlink + 1 })
    createDots k p ip dp
  else pure ()

/-- The inode, locked. -/
def create (path : List Byte) (type major minor : Int) : Code (Option Inum) := do
  let parent ← nameiparent k p path
  match parent with
  | none => pure none
  | some (dp, name) => do
      ilock p dp
      let found ← atomic (State.dirlookup k dp name)
      match found with
      | some (ip, _) => do
          iunlockput k p false dp
          ilock p ip
          let old ← typeOf ip
          if type = T_FILE ∧ old = T_FILE then pure (some ip)
          else do
            iunlockput k p false ip
            pure none
      | none => do
          let ip ← atomic (State.ialloc k type)
          createInode k p ip dp type major minor
          let r ← dirlink k p dp name ip
          if r < 0 then .fail .createDirlink
          else do
            iunlockput k p false dp
            pure (some ip)

/-- With O_CREATE; `fd` is what filealloc() and fdalloc() give. -/
def sys_open (path : List Byte) (fd : Option Nat) : Code Int := do
  let made ← create k p path T_FILE 0 0
  match made with
  | none => pure (-1)
  | some ip =>
      match fd with
      | none => do
          iunlockput k p false ip
          pure (-1)
      | some fd => do
          iunlock p ip
          pure fd

/-- sys_mkdir() and sys_mknod(). -/
def sys_create (path : List Byte) (type major minor : Int) : Code Int := do
  let made ← create k p path type major minor
  match made with
  | none => pure (-1)
  | some ip => do
      iunlockput k p false ip
      pure 0

def sys_mkdir (path : List Byte) : Code Int := sys_create k p path T_DIR 0 0

def sys_mknod (path : List Byte) (major minor : Int) : Code Int :=
  sys_create k p path T_DEV major minor

/-- The rest of sys_link() after `bad:`. -/
def sys_linkBad (ip : Inum) : Code Int := do
  ilock p ip
  write (State.store k ip fun d => { d with nlink := d.nlink - 1 })
  iunlockput k p false ip
  pure (-1)

def sys_link (old new : List Byte) : Code Int := do
  let found ← namei k p old
  match found with
  | none => pure (-1)
  | some ip => do
      ilock p ip
      let type ← typeOf ip
      if type = T_DIR then do
        iunlockput k p false ip
        pure (-1)
      else do
        write (State.store k ip fun d => { d with nlink := d.nlink + 1 })
        iunlock p ip
        let parent ← nameiparent k p new
        match parent with
        | none => sys_linkBad k p ip
        | some (dp, name) => do
            ilock p dp
            let r ← dirlink k p dp name ip
            if r < 0 then do
              iunlockput k p false dp
              sys_linkBad k p ip
            else do
              iunlockput k p false dp
              iput k p false ip
              pure 0

/-- The entry is removed, and the link that `..` of a directory was. -/
def clearName (dp : Inum) (off : Nat) (type : Int) : Code Unit := do
  atomic (State.clearEntry k dp off)
  if type = T_DIR then write (State.store k dp fun d => { d with nlink := d.nlink - 1 })
  else pure ()

/-- sys_unlink() once it has both inodes, locked. -/
def unlinkEntry (dp ip : Inum) (off : Nat) (type : Int) : Code Int := do
  clearName k dp off type
  iunlockput k p false dp
  write (State.store k ip fun d => { d with nlink := d.nlink - 1 })
  iunlockput k p false ip
  pure 0

def sys_unlink (path : List Byte) : Code Int := do
  let parent ← nameiparent k p path
  match parent with
  | none => pure (-1)
  | some (dp, name) => do
      ilock p dp
      if namecmp name dot = 0 ∨ namecmp name dotdot = 0 then do
        iunlockput k p false dp
        pure (-1)
      else do
        let found ← atomic (State.dirlookup k dp name)
        match found with
        | none => do
            iunlockput k p false dp
            pure (-1)
        | some (ip, off) => do
            ilock p ip
            let nlink ← read fun s => (s.inode ip).nlink
            if nlink < 1 then .fail .unlinkNlink
            else do
              let type ← typeOf ip
              if type = T_DIR then do
                let empty ← atomic (State.isdirempty k ip)
                if empty = true then unlinkEntry k p dp ip off type
                else do
                  iunlockput k p false ip
                  iunlockput k p false dp
                  pure (-1)
              else unlinkEntry k p dp ip off type

def sys_chdir (path : List Byte) : Code Int := do
  let found ← namei k p path
  match found with
  | none => pure (-1)
  | some ip => do
      ilock p ip
      let type ← typeOf ip
      if type ≠ T_DIR then do
        iunlockput k p false ip
        pure (-1)
      else do
        iunlock p ip
        iput k p false p.cwd
        pure 0

/-- From begin_op() on. -/
def chmod_actual (file : List Byte) (mode : Word) : Code Int := do
  let found ← namei k p file
  match found with
  | none => pure (-1)
  | some ip => do
      ilock p ip
      write (State.store k ip fun d => { d with mode := mode })
      iunlockput k p false ip
      pure 0

/-- `((MAXOPBLOCKS-1-1-2) / 2) * 512` -/
def maxChunk : Nat := (MAXOPBLOCKS - 1 - 1 - 2) / 2 * 512

/-- A round of filewrite(), with the bytes from `addr + i` on. -/
def filewrite (ip : Inum) (off : Nat) (addr : List Byte) : Code Int := do
  ilock p ip
  let r ← atomic fun s => s.writei k ip (addr.take maxChunk) off
  iunlock p ip
  pure r

/-- The transaction of fileclose(). -/
def fileclose (ip : Inum) : Code Int := do
  iput k p false ip
  pure 0

/-- What is done between a begin_op() and its end_op(). -/
inductive Op where
  | write (ip : Inum) (off : Nat) (addr : List Byte)
  | create (path : List Byte) (fd : Option Nat)
  | mkdir (path : List Byte)
  | mknod (path : List Byte) (major minor : Int)
  | link (old new : List Byte)
  | unlink (path : List Byte)
  | chdir (path : List Byte)
  | chmod (file : List Byte) (mode : Word)
  | close (ip : Inum)

def Op.code : Op → Code Int
  | .write ip off addr => filewrite k p ip off addr
  | .create path fd => sys_open k p path fd
  | .mkdir path => sys_mkdir k p path
  | .mknod path major minor => sys_mknod k p path major minor
  | .link old new => sys_link k p old new
  | .unlink path => sys_unlink k p path
  | .chdir path => sys_chdir k p path
  | .chmod file mode => chmod_actual k p file mode
  | .close ip => fileclose k p ip

end Calls

/-! ## The other processes -/

/-- An inode has the blocks below its size, on the image. -/
structure Fine (ip : Inode) : Prop where
  mapped : ∀ bn, bn * BSIZE < ip.size → ip.addrs bn ≠ 0
  /-- No entries without the indirect block. -/
  entries : ip.indirect = 0 → ∀ bn, NDIRECT ≤ bn → ip.addrs bn = 0
  inside : ∀ bn, ip.addrs bn < FSSIZE
  indirect : ip.indirect < FSSIZE

structure Sane (s : State) : Prop where
  boot_block : s.used 0 = true
  fine : ∀ i, Fine (s.inode i)

/-- What other processes do: they leave the inodes that this one has locked, and its
locks, as they are. -/
structure Others (p : Proc) (s s' : State) : Prop where
  sane : Sane s → Sane s'
  mine : ∀ i, s.lock i = some p.pid → s'.inode i = s.inode i
  lock : ∀ i, s'.lock i = some p.pid ↔ s.lock i = some p.pid
  log : s'.log = s.log
  freed : s'.freed = s.freed

end Xv6.Public1.Transactions
