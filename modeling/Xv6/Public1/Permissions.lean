import Xv6.Public1.Files
import Xv6.Public1.InodeCache

/-!
# Where the mode of a regular file is checked and used (xv6-public_1)

sys_read(), sys_write() and exec() test `ip->mode` and then use the inode: the
first two outside `ip->lock` and once for the whole call, exec() inside the
lock.  Any process may be the next to move.  A step is a stretch between two
acquisitions of a lock, on top of the inode cache; an observer notes the mode
that an inode has when its bytes are read, written or loaded.
-/

set_option autoImplicit false

namespace Xv6.Public1.Permissions

open Xv6.Lib
open Xv6.Lib.Words
open Xv6.Common
open Xv6.Public1.Inodes
open Xv6.Public1.InodeCache
open Xv6.Public1.Files (advance maxChunk O_WRONLY O_RDWR)

/-- The variables of a process that point to inodes. -/
inductive Local where
  | ip | dp | next | cwd
  deriving DecidableEq

theorem Local.complete (l : Local) : l ∈ ({.ip, .dp, .next, .cwd} : Finset Local) := by
  cases l <;> decide

instance : Fintype Local := ⟨{.ip, .dp, .next, .cwd}, Local.complete⟩

/-- `f->ip` of a file, or a variable of a process. -/
abbrev Var (P : Type) := FileSlot ⊕ P × Local

inductive Thread where
  | user
  /-- In fileread() after the check. -/
  | reading (f : FileSlot) (n : Nat)
  /-- In the loop of filewrite() after the check, with `i` bytes written. -/
  | writing (f : FileSlot) (n i : Nat)
  /-- In exec() after the check, with the inode locked. -/
  | loading

/-- `f->ip` is the variable `.inl f` of the cache. -/
structure Kernel (P : Type) where
  cache : Cache (Var P)
  file : FileTable
  ofile : P → Descriptors
  thread : P → Thread

inductive Note where
  | wrote (ip : InodeSlot) (mode : Word)
  | returned (ip : InodeSlot) (mode : Word)
  | loaded (ip : InodeSlot) (mode : Word)

/-- What the claims of chmod promise of the use of an inode. -/
def Note.Allowed : Note → Prop
  | .wrote _ mode => mode &&& 2 ≠ 0
  | .returned _ mode => mode &&& 1 ≠ 0
  | .loaded _ mode => mode &&& 4 ≠ 0

instance : DecidablePred Note.Allowed := fun note => by
  cases note <;> exact inferInstanceAs (Decidable (_ ≠ _))

variable {P : Type} [DecidableEq P]

namespace Kernel

def setThread (k : Kernel P) (p : P) (thread : Thread) : Kernel P :=
  { k with thread := Function.update k.thread p thread }

def setOfile (k : Kernel P) (p : P) (fd : Fin NOFILE) (f : Option FileSlot) : Kernel P :=
  { k with ofile := Function.update k.ofile p (Function.update (k.ofile p) fd f) }

/-- The inode of an open file. -/
def fileInode (k : Kernel P) (f : FileSlot) : Option InodeSlot := (k.cache.var (.inl f)).slot

end Kernel

/-! ## open(), dup(), close() -/

/-- sys_open() after create() or namei() and ilock(): the file, the descriptor
and iunlock(). -/
def sys_open (k : Kernel P) (p : P) (omode : Word) : Option (Kernel P) :=
  (k.file.filealloc).bind fun got =>
    (fdalloc (k.ofile p) got.1).bind fun slot =>
      (k.cache.iunlock (.inr (p, .ip))).bind fun cache =>
        (cache.move (.inr (p, .ip)) (.inl got.1)).map fun cache =>
          { k with
            cache := cache
            file := got.2.set got.1
              { got.2 got.1 with
                type := .FD_INODE
                off := 0
                readable := decide (omode &&& O_WRONLY = 0)
                writable := decide (omode &&& O_WRONLY ≠ 0 ∨ omode &&& O_RDWR ≠ 0) }
            ofile := Function.update k.ofile p slot.2 }

def sys_dup (k : Kernel P) (p : P) (fd : Fin NOFILE) : Option (Kernel P) :=
  (k.ofile p fd).bind fun f =>
    (fdalloc (k.ofile p) f).bind fun slot =>
      (k.file.filedup f).map fun file =>
        { k with file := file, ofile := Function.update k.ofile p slot.2 }

/-- fileclose() to the iput() of the last reference, which the process makes
afterwards. -/
def fileclose (k : Kernel P) (p : P) (f : FileSlot) : Option (Kernel P) :=
  (k.file.drop f).bind fun dropped =>
    match dropped.2 with
    | none => some { k with file := dropped.1 }
    | some ff =>
        match ff.type with
        | .FD_INODE =>
            (k.cache.move (.inl f) (.inr (p, .ip))).map fun cache =>
              { k with cache := cache, file := dropped.1 }
        | .FD_PIPE | .FD_NONE => some { k with file := dropped.1 }

def sys_close (k : Kernel P) (p : P) (fd : Fin NOFILE) : Option (Kernel P) :=
  (k.ofile p fd).bind fun f => fileclose (k.setOfile p fd none) p f

/-! ## read() and write() -/

/-- `f->ip->mode`. -/
def ipMode (k : Kernel P) (f : FileSlot) : Option Word :=
  (k.fileInode f).map fun ip => (k.cache.inode ip).mode

/-- The check of a call, outside the lock, and what follows if it passes. -/
def checked (bit : Word) (k : Kernel P) (p : P) (fd : Fin NOFILE)
    (allowed : FileSlot → Thread) : Option (Kernel P) :=
  (k.ofile p fd).bind fun f =>
    (ipMode k f).map fun mode =>
      if mode &&& bit = 0 then k else k.setThread p (allowed f)

def sys_read (k : Kernel P) (p : P) (fd : Fin NOFILE) (n : Nat) : Option (Kernel P) :=
  checked 1 k p fd fun f => if (k.file f).readable = true then .reading f n else .user

def sys_write (k : Kernel P) (p : P) (fd : Fin NOFILE) (n : Nat) : Option (Kernel P) :=
  checked 2 k p fd fun f =>
    if (k.file f).writable = true ∧ 0 < n then .writing f n 0 else .user

/-- fileread() from ilock() to iunlock(), with what readi() returns. -/
def fileread (k : Kernel P) (p : P) (f : FileSlot) (r : Int) :
    Option (List Note × Kernel P) :=
  match k.fileInode f with
  | none => none
  | some ip =>
      (k.cache.ilock (.inl f)).bind fun locked =>
        (locked.iunlock (.inl f)).map fun cache =>
          let k := { k with
            cache := cache
            file := k.file.set f { k.file f with off := advance (k.file f).off r } }
          (if r > 0 then [.returned ip (locked.inode ip).mode] else [],
            k.setThread p .user)

/-- One round of the loop of filewrite(), with what writei() returns; `grows`
says whether writei() has come past the end of the file.  None is the panic. -/
def filewriteRound (k : Kernel P) (p : P) (f : FileSlot) (n i : Nat) (r : Int) (grows : Bool) :
    Option (List Note × Kernel P) :=
  match k.fileInode f with
  | none => none
  | some ip =>
      (k.cache.ilock (.inl f)).bind fun locked =>
        (if grows then locked.iupdate (.inl f) else some locked).bind fun written =>
          (written.iunlock (.inl f)).bind fun cache =>
            let file := k.file.set f { k.file f with off := advance (k.file f).off r }
            let after := { k with cache := cache, file := file }
            if r < 0 then some ([], after.setThread p .user)
            else if r ≠ min ((n : Int) - i) maxChunk then none
            else
              let i := i + r.toNat
              some ([.wrote ip (locked.inode ip).mode],
                after.setThread p (if i < n then .writing f n i else .user))

/-! ## exec() and chmod() -/

/-- exec() after ilock(): the check. -/
def execCheck (k : Kernel P) (p : P) : Option (Kernel P) :=
  (k.cache.locked (.inr (p, .ip))).map fun at_ =>
    if (k.cache.inode at_.1).mode &&& 4 = 0 then k else k.setThread p .loading

/-- A readi() of exec(). -/
def execLoad (k : Kernel P) (p : P) : Option (List Note × Kernel P) :=
  (k.cache.locked (.inr (p, .ip))).map fun at_ =>
    ([.loaded at_.1 (k.cache.inode at_.1).mode], k)

/-- chmod_actual() after ilock(): the store. -/
def chmodStore (k : Kernel P) (p : P) (mode : Word) : Option (Kernel P) :=
  if mode > 7 then none
  else (k.cache.storeMode (.inr (p, .ip)) mode).map fun cache => { k with cache := cache }

/-! ## Steps -/

inductive Event (P : Type) where
  /-- What the path walks, create(), link(), unlink(), chdir() and the rest of
  chmod(), exec() and close() do to the cache. -/
  | inode (p : P) (e : InodeCache.Event (Var P))
  | open (p : P) (omode : Word)
  | dup (p : P) (fd : Fin NOFILE)
  | close (p : P) (fd : Fin NOFILE)
  | read (p : P) (fd : Fin NOFILE) (n : Nat)
  | fileread (p : P) (r : Int)
  | write (p : P) (fd : Fin NOFILE) (n : Nat)
  | filewrite (p : P) (r : Int) (grows : Bool)
  | exec (p : P)
  | execLoad (p : P)
  | execEnd (p : P)
  | chmod (p : P) (mode : Word)

def Var.ofProc (p : P) : Var P → Bool
  | .inl _ => false
  | .inr (q, _) => decide (q = p)

/-- A step on variables of the process alone, and no store of a mode. -/
def own (p : P) (e : InodeCache.Event (Var P)) : Bool :=
  !e.storesMode && e.vars.all (Var.ofProc p)

/-- A step of a process in user mode or in a call that has taken no file. -/
def inCall {α : Type} (k : Kernel P) (p : P) (next : Option α) : Option α :=
  match k.thread p with
  | .user => next
  | _ => none

def step (k : Kernel P) : Event P → Option (List Note × Kernel P)
  | .inode p e =>
      inCall k p
        (if own p e = true then
          (InodeCache.step k.cache e).map fun cache => ([], { k with cache := cache })
        else none)
  | .open p omode => inCall k p ((sys_open k p omode).map fun k => ([], k))
  | .dup p fd => inCall k p ((sys_dup k p fd).map fun k => ([], k))
  | .close p fd => inCall k p ((sys_close k p fd).map fun k => ([], k))
  | .read p fd n => inCall k p ((sys_read k p fd n).map fun k => ([], k))
  | .fileread p r =>
      match k.thread p with
      | .reading f n => if r ≤ n then fileread k p f r else none
      | _ => none
  | .write p fd n => inCall k p ((sys_write k p fd n).map fun k => ([], k))
  | .filewrite p r grows =>
      match k.thread p with
      | .writing f n i => filewriteRound k p f n i r grows
      | _ => none
  | .exec p => inCall k p ((execCheck k p).map fun k => ([], k))
  | .execLoad p =>
      match k.thread p with
      | .loading => execLoad k p
      | _ => none
  | .execEnd p =>
      match k.thread p with
      | .loading => some ([], k.setThread p .user)
      | _ => none
  | .chmod p mode => inCall k p ((chmodStore k p mode).map fun k => ([], k))

/-- The kernel with no file open, over an image of the disk. -/
def boot (disk : Word → Word → Dinode) : Kernel P where
  cache := InodeCache.boot disk
  file := fun _ => {}
  ofile := fun _ _ => none
  thread := fun _ => .user

/-- A step of the kernel with the notes so far. -/
def tracked (s : Kernel P × List Note) (e : Event P) : Option (Kernel P × List Note) :=
  (step s.1 e).map fun taken => (taken.2, s.2 ++ taken.1)

/-! ## The condition -/

/-- The call that a thread is making on the inode does not use what the new mode
takes away. -/
def Respects (k : Kernel P) (ip : InodeSlot) (mode : Word) : Thread → Prop
  | .reading f _ => k.fileInode f = some ip → mode &&& 1 ≠ 0
  | .writing f _ _ => k.fileInode f = some ip → mode &&& 2 ≠ 0
  | .user | .loading => True

instance (k : Kernel P) (ip : InodeSlot) (mode : Word) : DecidablePred (Respects k ip mode)
  | .reading _ _ => inferInstanceAs (Decidable (_ → _))
  | .writing _ _ _ => inferInstanceAs (Decidable (_ → _))
  | .user => isTrue trivial
  | .loading => isTrue trivial

/-- No chmod() takes a right away from an inode while a read() or write() that
has been granted it is on its way. -/
def Undisturbed (k : Kernel P) : Event P → Prop
  | .chmod p mode =>
      match k.cache.locked (.inr (p, .ip)) with
      | some at_ => ∀ q, Respects k at_.1 mode (k.thread q)
      | none => True
  | _ => True

instance [Fintype P] (k : Kernel P) (e : Event P) : Decidable (Undisturbed k e) := by
  unfold Undisturbed
  split
  · split <;> infer_instance
  · exact isTrue trivial

end Xv6.Public1.Permissions
