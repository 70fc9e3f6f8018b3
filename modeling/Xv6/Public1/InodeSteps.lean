import Xv6.Common.FileTable
import Xv6.Lib.Runs
import Xv6.Public1.Blocks

/-!
# The inode cache, step by step (fs.c of xv6-public_1)

iget(), idup(), ilock(), iunlock(), iput() and ialloc() as the processes take turns
in them.  A step is what is done under icache.lock or with one buffer of the disk, and
iput() is the six of them between which other processes may come in.  A variable of
type `struct inode *` that holds a reference says how far its process has come.
-/

set_option autoImplicit false

namespace Xv6.Public1.InodeSteps

open Xv6.Lib.Words
open Xv6.Common
open Xv6.Public1.Blocks (Dinode)

/-- `struct inode`; the lock is in `State`. -/
structure Inode where
  dev : Word
  inum : Word
  ref : Int
  valid : Bool
  copy : Dinode

/-- Where the process is that uses a reference. -/
inductive Stage where
  | held
  /-- ilock() has the lock. -/
  | entering
  /-- ilock() has returned. -/
  | inside
  /-- iput() has the lock. -/
  | putting
  /-- iput() has found that no link and no other reference is left. -/
  | freeing
  /-- itrunc() has returned to iput(). -/
  | truncated
  /-- iput() has written the type 0. -/
  | cleared
  /-- Before releasesleep() in iput(). -/
  | done
  /-- Before `ip->ref--` in iput(). -/
  | leaving
  deriving DecidableEq

/-- The process has `ip->lock`. -/
def Stage.locks : Stage → Bool
  | .held | .leaving => false
  | .entering | .inside | .putting | .freeing | .truncated | .cleared | .done => true

/-- iput() has read that `ip->ref` is 1, and has not yet cleared `ip->valid`. -/
def Stage.doomed : Stage → Bool
  | .freeing | .truncated | .cleared => true
  | _ => false

/-- The process has not given the reference to iput(). -/
def Stage.keeps : Stage → Bool
  | .held | .entering | .inside => true
  | _ => false

structure State (V : Type) where
  inode : InodeSlot → Inode
  /-- The inodes on disk by device and number. -/
  disk : Word → Word → Dinode
  var : V → Option (InodeSlot × Stage)
  /-- The variable through which `ip->lock` is held. -/
  lock : InodeSlot → Option V

variable {V : Type}

namespace State

def setInode (s : State V) (ip : InodeSlot) (x : Inode) : State V :=
  { s with inode := Function.update s.inode ip x }

def write (s : State V) (dev inum : Word) (dip : Dinode) : State V :=
  { s with disk := Function.update s.disk dev (Function.update (s.disk dev) inum dip) }

def iupdate (s : State V) (ip : InodeSlot) : State V :=
  s.write (s.inode ip).dev (s.inode ip).inum (s.inode ip).copy

def setCopy (s : State V) (ip : InodeSlot) (copy : Dinode) : State V :=
  s.setInode ip { s.inode ip with copy := copy }

/-- The inode on disk that an entry stands for. -/
def dinode (s : State V) (ip : InodeSlot) : Dinode := s.disk (s.inode ip).dev (s.inode ip).inum

def cached (s : State V) (dev inum : Word) : Option InodeSlot :=
  (List.finRange NINODE).find? fun ip =>
    decide ((s.inode ip).ref > 0 ∧ (s.inode ip).dev = dev ∧ (s.inode ip).inum = inum)

def empty (s : State V) : Option InodeSlot :=
  (List.finRange NINODE).find? fun ip => decide ((s.inode ip).ref = 0)

variable [DecidableEq V]

def point (s : State V) (v : V) (p : Option (InodeSlot × Stage)) : State V :=
  { s with var := Function.update s.var v p }

def acquiresleep (s : State V) (v : V) (ip : InodeSlot) : Option (State V) :=
  if s.lock ip = none then some { s with lock := Function.update s.lock ip (some v) } else none

def releasesleep (s : State V) (ip : InodeSlot) : State V :=
  { s with lock := Function.update s.lock ip none }

/-- `ip->ref++` -/
def take (s : State V) (v : V) (ip : InodeSlot) : State V :=
  (s.setInode ip { s.inode ip with ref := (s.inode ip).ref + 1 }).point v (some (ip, .held))

/-- `v = iget(dev, inum)`. -/
def iget (s : State V) (v : V) (dev inum : Word) : Option (State V) :=
  if s.var v = none then
    match s.cached dev inum with
    | some ip => some (s.take v ip)
    | none =>
        s.empty.map fun ip =>
          (s.setInode ip
            { dev := dev, inum := inum, ref := 1, valid := false,
              copy := { (s.inode ip).copy with mode := 7 } }).point v (some (ip, .held))
  else none

/-- `w = idup(v)`. -/
def idup (s : State V) (v w : V) : Option (State V) :=
  match s.var v, s.var w with
  | some (ip, .held), none => some (s.take w ip)
  | _, _ => none

/-- `w = v`, and `v` is not used again. -/
def move (s : State V) (v w : V) : Option (State V) :=
  match s.var v, s.var w with
  | some (ip, .held), none => some ((s.point v none).point w (some (ip, .held)))
  | _, _ => none

/-- ialloc() has come to an inode that is free; its iget() is a step of its own. -/
def ialloc (s : State V) (dev inum : Word) (type : Int) : Option (State V) :=
  if (s.disk dev inum).type = 0 ∧ type ≠ 0 then
    some (s.write dev inum
      { type := type, major := 0, minor := 0, nlink := 0, size := 0, mode := 7,
        addrs := fun _ => 0 })
  else none

/-- ilock() to acquiresleep(). -/
def ilock (s : State V) (v : V) : Option (State V) :=
  match s.var v with
  | some (ip, .held) =>
      if (s.inode ip).ref < 1 then none
      else (s.acquiresleep v ip).map fun s => s.point v (some (ip, .entering))
  | _ => none

/-- The rest of ilock(). -/
def load (s : State V) (v : V) : Option (State V) :=
  match s.var v with
  | some (ip, .entering) =>
      if (s.inode ip).valid = true then some (s.point v (some (ip, .inside)))
      else if (s.dinode ip).type = 0 then none
      else
        some ((s.setInode ip { s.inode ip with copy := s.dinode ip, valid := true }).point v
          (some (ip, .inside)))
  | _ => none

end State

/-- An inode that is still the same, with what it had and perhaps more. -/
structure Keeps (before after : Dinode) : Prop where
  type : after.type = before.type
  size : before.size ≤ after.size
  addrs : ∀ k, before.addrs k ≠ 0 → after.addrs k = before.addrs k

instance (before after : Dinode) : Decidable (Keeps before after) :=
  decidable_of_iff (after.type = before.type ∧ before.size ≤ after.size ∧
      ∀ k, before.addrs k ≠ 0 → after.addrs k = before.addrs k)
    ⟨fun h => ⟨h.1, h.2.1, h.2.2⟩, fun h => ⟨h.type, h.size, h.addrs⟩⟩

namespace State

variable [DecidableEq V]

/-- Stores to the fields of an inode that is locked: the links and the mode, and in writei()
and bmap() a larger size and the blocks that are new. -/
def store (s : State V) (v : V) (copy : Dinode) : Option (State V) :=
  match s.var v with
  | some (ip, .inside) =>
      if Keeps (s.inode ip).copy copy then some (s.setCopy ip copy) else none
  | _ => none

/-- `iupdate(v)`. -/
def update (s : State V) (v : V) : Option (State V) :=
  match s.var v with
  | some (ip, .inside) => some (s.iupdate ip)
  | _ => none

def iunlock (s : State V) (v : V) : Option (State V) :=
  match s.var v with
  | some (ip, .inside) => some ((s.releasesleep ip).point v (some (ip, .held)))
  | _ => none

/-- iput() to acquiresleep(). -/
def iput (s : State V) (v : V) : Option (State V) :=
  match s.var v with
  | some (ip, .held) => (s.acquiresleep v ip).map fun s => s.point v (some (ip, .putting))
  | _ => none

/-- The stores of itrunc(), after which it calls iupdate(). -/
def itrunc (s : State V) (ip : InodeSlot) : State V :=
  (s.setCopy ip { (s.inode ip).copy with size := 0, addrs := fun _ => 0 }).iupdate ip

/-- The next step of an iput() that has the lock. -/
def next (s : State V) (v : V) : Option (State V) :=
  match s.var v with
  | some (ip, .putting) =>
      if (s.inode ip).valid = true ∧ (s.inode ip).copy.nlink = 0 ∧ (s.inode ip).ref = 1 then
        some (s.point v (some (ip, .freeing)))
      else some (s.point v (some (ip, .done)))
  | some (ip, .freeing) => some ((s.itrunc ip).point v (some (ip, .truncated)))
  | some (ip, .truncated) =>
      some (((s.setCopy ip { (s.inode ip).copy with type := 0 }).iupdate ip).point v
        (some (ip, .cleared)))
  | some (ip, .cleared) =>
      some ((s.setInode ip { s.inode ip with valid := false }).point v (some (ip, .done)))
  | some (ip, .done) => some ((s.releasesleep ip).point v (some (ip, .leaving)))
  | some (ip, .leaving) =>
      some ((s.setInode ip { s.inode ip with ref := (s.inode ip).ref - 1 }).point v none)
  | _ => none

end State

/-! ## Steps -/

inductive Event (V : Type) where
  | iget (v : V) (dev inum : Word)
  | idup (v w : V)
  | move (v w : V)
  | ialloc (dev inum : Word) (type : Int)
  | ilock (v : V)
  | load (v : V)
  | store (v : V) (copy : Dinode)
  | update (v : V)
  | iunlock (v : V)
  | iput (v : V)
  | next (v : V)

/-- A panic stops the machine, and a lock that is held makes its caller wait. -/
def step [DecidableEq V] (s : State V) : Event V → Option (State V)
  | .iget v dev inum => s.iget v dev inum
  | .idup v w => s.idup v w
  | .move v w => s.move v w
  | .ialloc dev inum type => s.ialloc dev inum type
  | .ilock v => s.ilock v
  | .load v => s.load v
  | .store v copy => s.store v copy
  | .update v => s.update v
  | .iunlock v => s.iunlock v
  | .iput v => s.iput v
  | .next v => s.next v

/-- The cache after iinit(), over an image of the disk. -/
def boot (disk : Word → Word → Dinode) : State V where
  inode := fun _ =>
    { dev := 0
      inum := 0
      ref := 0
      valid := false
      copy :=
        { type := 0, major := 0, minor := 0, nlink := 0, size := 0, mode := 0,
          addrs := fun _ => 0 } }
  disk := disk
  var := fun _ => none
  lock := fun _ => none

/-! ## What is promised -/

/-- An inode that is allocated is freed or loses content. -/
def Loses (before after : Dinode) : Prop := before.type ≠ 0 ∧ ¬Keeps before after

/-- `v` holds the only reference to an inode without links. -/
structure Sole (s : State V) (v : V) (ip : InodeSlot) : Prop where
  only : ∀ w stage, s.var w = some (ip, stage) → w = v
  valid : (s.inode ip).valid = true
  links : (s.inode ip).copy.nlink = 0

/-- `v` holds a reference that no iput() has missed. -/
structure Established (s : State V) (v : V) (ip : InodeSlot) : Prop where
  holds : ∃ stage, s.var v = some (ip, stage) ∧ stage.keeps = true
  seen : ∀ w stage, s.var w = some (ip, stage) → stage.doomed = false

/-- The event takes the reference out of a variable. -/
def Event.takes (v : V) : Event V → Prop
  | .iput w | .move w _ => w = v
  | _ => False

/-- The reference in the first variable, or a copy of it, is in the second one after the
events. -/
inductive Passed : V → List (Event V) → V → Prop where
  | nil (v : V) : Passed v [] v
  | stay {v w : V} {e : Event V} {es : List (Event V)} (stays : ¬e.takes v) :
      Passed v es w → Passed v (e :: es) w
  | move {u v w : V} {es : List (Event V)} : Passed v es w → Passed u (.move u v :: es) w
  | idup {u v w : V} {es : List (Event V)} : Passed v es w → Passed u (.idup u v :: es) w

end Xv6.Public1.InodeSteps
