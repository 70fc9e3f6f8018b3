import Mathlib.Data.List.FinRange
import Xv6.Public1.Directory

/-!
# The tree of directories (fs.c and sysfile.c of xv6-public_1)

Path lookup and the system calls that create, link, unlink, open and leave inodes,
one call at a time, by processes that have a current directory and open files.

An inode has one copy here: every store to the copy in memory is followed by
iupdate().  Without fork() and dup() a struct file belongs to one descriptor.
-/

set_option autoImplicit false

namespace Xv6.Public1.Tree

open Xv6.Lib.Words
open Xv6.Lib.CString
open Xv6.Public1.Directory

def T_DIR : Int := 1

def T_FILE : Int := 2

def T_DEV : Int := 3

def ROOTINO : Inum := 1

/-- NINODES of mkfs.c, which is `sb.ninodes`. -/
def ninodes : Nat := 200

abbrev NOFILE : Nat := 16

abbrev NPROC : Nat := 64

def O_RDONLY : Int := 0

abbrev Pid := Fin NPROC

abbrev Fd := Fin NOFILE

/-- The fields of a dinode, with the entries of a directory. -/
structure Node where
  type : Int
  nlink : Int
  entries : Dir

structure Proc where
  cwd : Inum
  /-- The inode of an open file. -/
  ofile : Fd → Option Inum

structure Sys where
  node : Inum → Node
  ref : Inum → Int
  valid : Inum → Bool
  proc : Pid → Option Proc

inductive Panic where
  | ilock
  /-- ilock: no type -/
  | noType
  /-- ialloc: no inodes -/
  | noInodes
  /-- dirlookup not DIR -/
  | notDir
  | dirlink
  /-- unlink: nlink < 1 -/
  | unlinkNlink
  /-- create dots -/
  | createDots
  /-- create: dirlink -/
  | createDirlink
  deriving DecidableEq

def dot : List Byte := bytes "."

def dotdot : List Byte := bytes ".."

def slash : Byte := 47

namespace Sys

/-! ## Inodes -/

def setNode (s : Sys) (i : Inum) (node : Node) : Sys :=
  { s with node := Function.update s.node i node }

def setRef (s : Sys) (i : Inum) (ref : Int) : Sys :=
  { s with ref := Function.update s.ref i ref }

def setValid (s : Sys) (i : Inum) (valid : Bool) : Sys :=
  { s with valid := Function.update s.valid i valid }

def setProc (s : Sys) (p : Pid) (proc : Option Proc) : Sys :=
  { s with proc := Function.update s.proc p proc }

/-- `ip->nlink = nlink; iupdate(ip);` -/
def setNlink (s : Sys) (i : Inum) (nlink : Int) : Sys :=
  s.setNode i { s.node i with nlink := nlink }

def setEntries (s : Sys) (i : Inum) (entries : Dir) : Sys :=
  s.setNode i { s.node i with entries := entries }

def iget (s : Sys) (i : Inum) : Sys :=
  if 0 < s.ref i then s.setRef i (s.ref i + 1) else (s.setRef i 1).setValid i false

def idup (s : Sys) (i : Inum) : Sys := s.setRef i (s.ref i + 1)

def ilock (s : Sys) (i : Inum) : Except Panic Sys :=
  if s.ref i < 1 then .error .ilock
  else if s.valid i = true then pure s
  else if (s.node i).type = 0 then .error .noType
  else pure (s.setValid i true)

/-- The last reference to an inode without links frees it. -/
def iput (s : Sys) (i : Inum) : Sys :=
  let s :=
    if s.valid i = true ∧ (s.node i).nlink = 0 ∧ s.ref i = 1 then
      -- itrunc(ip); ip->type = 0; iupdate(ip); ip->valid = 0;
      (s.setNode i { s.node i with type := 0, entries := [] }).setValid i false
    else s
  s.setRef i (s.ref i - 1)

/-- The first free inode. -/
def ialloc (s : Sys) (type : Int) : Except Panic (Inum × Sys) :=
  match (List.range ninodes).find? fun inum =>
      decide (inum ≠ 0 ∧ (s.node (BitVec.ofNat 16 inum)).type = 0) with
  | none => .error .noInodes
  | some inum =>
      let i := BitVec.ofNat 16 inum
      .ok (i, (s.setNode i { type := type, nlink := 0, entries := [] }).iget i)

/-! ## Directories -/

def dirlookup (s : Sys) (dp : Inum) (name : List Byte) :
    Except Panic (Option (Inum × Nat) × Sys) :=
  if (s.node dp).type ≠ T_DIR then .error .notDir
  else
    match Directory.dirlookup (s.node dp).entries name with
    | none => pure (none, s)
    | some (inum, off) => pure (some (inum, off), s.iget inum)

def dirlink (s : Sys) (dp : Inum) (name : List Byte) (inum : Inum) :
    Except Panic (Int × Sys) := do
  let (found, s) ← s.dirlookup dp name
  match found with
  | some (ip, _) => pure (-1, s.iput ip)
  | none =>
      match Directory.dirlink (s.node dp).entries name inum with
      | .error _ => .error .dirlink
      | .ok (entries, _) => pure (0, s.setEntries dp entries)

/-! ## Paths -/

end Sys

/-- The next path element, and what follows it. -/
def skipelem (path : List Byte) : Option (List Byte × List Byte) :=
  let path := path.dropWhile fun c => decide (c = slash)
  if path = [] then none
  else
    let elem := path.takeWhile fun c => decide (c ≠ slash)
    let rest := path.dropWhile fun c => decide (c ≠ slash)
    some (elem.take DIRSIZ, rest.dropWhile fun c => decide (c = slash))

/-- The path elements that skipelem() gives one after the other. -/
def elements : Nat → List Byte → List (List Byte)
  | 0, _ => []
  | fuel + 1, path =>
      match skipelem path with
      | none => []
      | some (name, rest) => name :: elements fuel rest

namespace Sys

/-- The loop of namex(): the inode, and the last element if its parent is looked for. -/
def namexLoop (nameiparent : Bool) (s : Sys) (ip : Inum) :
    List (List Byte) → Except Panic (Option (Inum × List Byte) × Sys)
  | [] => if nameiparent = true then pure (none, s.iput ip) else pure (some (ip, []), s)
  | name :: rest => do
      let s ← s.ilock ip
      if (s.node ip).type ≠ T_DIR then pure (none, s.iput ip)
      -- Stop one level early.
      else if nameiparent = true ∧ rest = [] then pure (some (ip, name), s)
      else
        let (next, s) ← s.dirlookup ip name
        match next with
        | none => pure (none, s.iput ip)
        | some (next, _) => namexLoop nameiparent (s.iput ip) next rest

def namex (s : Sys) (cwd : Inum) (path : List Byte) (nameiparent : Bool) :
    Except Panic (Option (Inum × List Byte) × Sys) :=
  let path := text path
  let names := elements path.length path
  if path.head? = some slash then namexLoop nameiparent (s.iget ROOTINO) ROOTINO names
  else namexLoop nameiparent (s.idup cwd) cwd names

def namei (s : Sys) (cwd : Inum) (path : List Byte) : Except Panic (Option Inum × Sys) := do
  let (found, s) ← s.namex cwd path false
  pure (found.map Prod.fst, s)

def nameiparent (s : Sys) (cwd : Inum) (path : List Byte) :
    Except Panic (Option (Inum × List Byte) × Sys) :=
  s.namex cwd path true

/-! ## System calls -/

/-- `.` and `..` of a new directory. -/
def createDots (s : Sys) (ip dp : Inum) : Except Panic Sys := do
  let (r, s) ← s.dirlink ip dot ip
  if r < 0 then .error .createDots
  else
    let (r, s) ← s.dirlink ip dotdot dp
    if r < 0 then .error .createDots else pure s

/-- The inode, locked. -/
def create (s : Sys) (cwd : Inum) (path : List Byte) (type : Int) :
    Except Panic (Option Inum × Sys) := do
  let (parent, s) ← s.nameiparent cwd path
  match parent with
  | none => pure (none, s)
  | some (dp, name) =>
      let s ← s.ilock dp
      let (found, s) ← s.dirlookup dp name
      match found with
      | some (ip, _) =>
          let s := s.iput dp
          let s ← s.ilock ip
          if type = T_FILE ∧ (s.node ip).type = T_FILE then pure (some ip, s)
          else pure (none, s.iput ip)
      | none =>
          let (ip, s) ← s.ialloc type
          let s ← s.ilock ip
          let s := s.setNlink ip 1
          let s ←
            if type = T_DIR then createDots (s.setNlink dp ((s.node dp).nlink + 1)) ip dp
            else pure s
          let (r, s) ← s.dirlink dp name ip
          if r < 0 then .error .createDirlink else pure (some ip, s.iput dp)

/-- sys_mkdir() and sys_mknod(). -/
def sys_create (s : Sys) (cwd : Inum) (path : List Byte) (type : Int) :
    Except Panic (Int × Sys) := do
  let (made, s) ← s.create cwd path type
  match made with
  | none => pure (-1, s)
  | some ip => pure (0, s.iput ip)

def sys_mkdir (s : Sys) (cwd : Inum) (path : List Byte) : Except Panic (Int × Sys) :=
  s.sys_create cwd path T_DIR

def sys_mknod (s : Sys) (cwd : Inum) (path : List Byte) : Except Panic (Int × Sys) :=
  s.sys_create cwd path T_DEV

/-- The rest of sys_link() after `bad:`. -/
def sys_linkBad (s : Sys) (ip : Inum) : Except Panic (Int × Sys) := do
  let s ← s.ilock ip
  let s := s.setNlink ip ((s.node ip).nlink - 1)
  pure (-1, s.iput ip)

def sys_link (s : Sys) (cwd : Inum) (old new : List Byte) : Except Panic (Int × Sys) := do
  let (found, s) ← s.namei cwd old
  match found with
  | none => pure (-1, s)
  | some ip =>
      let s ← s.ilock ip
      if (s.node ip).type = T_DIR then pure (-1, s.iput ip)
      else
        let s := s.setNlink ip ((s.node ip).nlink + 1)
        let (parent, s) ← s.nameiparent cwd new
        match parent with
        | none => s.sys_linkBad ip
        | some (dp, name) =>
            let s ← s.ilock dp
            let (r, s) ← s.dirlink dp name ip
            if r < 0 then (s.iput dp).sys_linkBad ip
            else pure (0, (s.iput dp).iput ip)

/-- No entry but the first two. -/
def isdirempty (d : Dir) : Bool := (d.drop 2).all fun de => decide (de.inum = 0)

def sys_unlink (s : Sys) (cwd : Inum) (path : List Byte) : Except Panic (Int × Sys) := do
  let (parent, s) ← s.nameiparent cwd path
  match parent with
  | none => pure (-1, s)
  | some (dp, name) =>
      let s ← s.ilock dp
      if namecmp name dot = 0 ∨ namecmp name dotdot = 0 then pure (-1, s.iput dp)
      else
        let (found, s) ← s.dirlookup dp name
        match found with
        | none => pure (-1, s.iput dp)
        | some (ip, off) =>
            let s ← s.ilock ip
            if (s.node ip).nlink < 1 then .error .unlinkNlink
            else if (s.node ip).type = T_DIR ∧ isdirempty (s.node ip).entries = false then
              pure (-1, (s.iput ip).iput dp)
            else
              let s := s.setEntries dp (writeEntry (s.node dp).entries off noEntry)
              let s :=
                if (s.node ip).type = T_DIR then s.setNlink dp ((s.node dp).nlink - 1) else s
              let s := s.iput dp
              let s := s.setNlink ip ((s.node ip).nlink - 1)
              pure (0, s.iput ip)

/-- What sys_open() does once it has the inode, locked; `full` says that filealloc() finds no
free struct file. -/
def openInode (s : Sys) (p : Pid) (proc : Proc) (ip : Inum) (full : Bool) : Int × Sys :=
  match (List.finRange NOFILE).find? fun fd => (proc.ofile fd).isNone with
  | none => (-1, s.iput ip)
  | some fd =>
      if full = true then (-1, s.iput ip)
      else (fd.val, s.setProc p (some { proc with ofile := Function.update proc.ofile fd (some ip) }))

def sys_open (s : Sys) (p : Pid) (proc : Proc) (path : List Byte) (o_create : Bool) (omode : Int)
    (full : Bool) : Except Panic (Int × Sys) :=
  if o_create = true then do
    let (made, s) ← s.create proc.cwd path T_FILE
    match made with
    | none => pure (-1, s)
    | some ip => pure (s.openInode p proc ip full)
  else do
    let (found, s) ← s.namei proc.cwd path
    match found with
    | none => pure (-1, s)
    | some ip =>
        let s ← s.ilock ip
        if (s.node ip).type = T_DIR ∧ omode ≠ O_RDONLY then pure (-1, s.iput ip)
        else pure (s.openInode p proc ip full)

def sys_chdir (s : Sys) (p : Pid) (proc : Proc) (path : List Byte) : Except Panic (Int × Sys) := do
  let (found, s) ← s.namei proc.cwd path
  match found with
  | none => pure (-1, s)
  | some ip =>
      let s ← s.ilock ip
      if (s.node ip).type ≠ T_DIR then pure (-1, s.iput ip)
      else pure (0, (s.iput proc.cwd).setProc p (some { proc with cwd := ip }))

/-- sys_close(), and a round of the loop of exit(). -/
def closeFile (s : Sys) (p : Pid) (fd : Fd) : Sys :=
  match s.proc p with
  | none => s
  | some proc =>
      match proc.ofile fd with
      | none => s
      | some ip =>
          (s.setProc p (some { proc with ofile := Function.update proc.ofile fd none })).iput ip

def exit (s : Sys) (p : Pid) : Sys :=
  let s := (List.finRange NOFILE).foldl (fun s fd => s.closeFile p fd) s
  match s.proc p with
  | none => s
  | some proc => (s.iput proc.cwd).setProc p none

end Sys

inductive Call where
  | mkdir (path : List Byte)
  | mknod (path : List Byte)
  | openFile (path : List Byte) (o_create : Bool) (omode : Int) (full : Bool)
  | link (old new : List Byte)
  | unlink (path : List Byte)
  | chdir (path : List Byte)
  | close (fd : Fd)
  | exit

/-- A process makes a system call. -/
structure Event where
  pid : Pid
  call : Call

namespace Sys

def perform (s : Sys) (p : Pid) (proc : Proc) : Call → Except Panic (Int × Sys)
  | .mkdir path => s.sys_mkdir proc.cwd path
  | .mknod path => s.sys_mknod proc.cwd path
  | .openFile path o_create omode full => s.sys_open p proc path o_create omode full
  | .link old new => s.sys_link proc.cwd old new
  | .unlink path => s.sys_unlink proc.cwd path
  | .chdir path => s.sys_chdir p proc path
  | .close fd => pure (if (proc.ofile fd).isNone = true then -1 else 0, s.closeFile p fd)
  | .exit => pure (0, s.exit p)

/-- A panic ends the run. -/
def step (s : Sys) (e : Event) : Option Sys :=
  match s.proc e.pid with
  | none => none
  | some proc => (s.perform e.pid proc e.call).toOption.map Prod.snd

end Sys

end Xv6.Public1.Tree
