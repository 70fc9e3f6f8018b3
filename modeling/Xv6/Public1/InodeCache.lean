import Xv6.Lib.References
import Xv6.Lib.Runs
import Xv6.Public1.Inodes

/-!
# References to the inode cache and the locks of its entries (xv6-public_1)

The inode cache with the pointer variables that refer to it (a local of a
system call, `f->ip` of an open file, a current directory) and with `ip->lock`.
A step is a stretch in which no other process can see the entry halfway: iput()
is two of them, and between ilock() and iunlock() every store to a field and
every iupdate() is one of its own.
-/

set_option autoImplicit false

namespace Xv6.Public1.InodeCache

open Xv6.Lib
open Xv6.Lib.Words
open Xv6.Lib.References (refs refs_update refs_none refs_pos)
open Xv6.Common
open Xv6.Public1.Inodes

/-- A variable of type `struct inode *` that holds a reference. -/
inductive Pointer where
  | null
  | to (ip : InodeSlot)
  /-- In iput(), before `ip->ref--`. -/
  | putting (ip : InodeSlot)
  deriving DecidableEq

def Pointer.slot : Pointer → Option InodeSlot
  | .null => none
  | .to ip | .putting ip => some ip

@[simp] theorem null_slot : Pointer.null.slot = none := rfl

@[simp] theorem to_slot (ip : InodeSlot) : (Pointer.to ip).slot = some ip := rfl

@[simp] theorem putting_slot (ip : InodeSlot) : (Pointer.putting ip).slot = some ip := rfl

/-- Between ilock() and iunlock(): what has been stored since the last iupdate(). -/
inductive Phase where
  | clean
  | links
  | mode
  deriving DecidableEq

structure Cache (V : Type) where
  icache : Icache
  var : V → Pointer
  /-- The variable through which the entry is locked. -/
  lock : InodeSlot → Option (V × Phase)

variable {V : Type}

namespace Cache

variable [DecidableEq V]

def inode (s : Cache V) (ip : InodeSlot) : Inode := s.icache.inode ip

/-- The inode on disk that an entry stands for. -/
def dinode (s : Cache V) (ip : InodeSlot) : Dinode :=
  s.icache.disk (s.inode ip).dev (s.inode ip).inum

def point (s : Cache V) (v : V) (p : Pointer) : Cache V :=
  { s with var := Function.update s.var v p }

def setLock (s : Cache V) (ip : InodeSlot) (owner : Option (V × Phase)) : Cache V :=
  { s with lock := Function.update s.lock ip owner }

/-- The entry that is locked through a variable. -/
def locked (s : Cache V) (v : V) : Option (InodeSlot × Phase) :=
  match s.var v with
  | .to ip =>
      match s.lock ip with
      | some (w, phase) => if w = v then some (ip, phase) else none
      | none => none
  | _ => none

/-- The entry that a variable points to, not locked through it. -/
def free (s : Cache V) (v : V) : Option InodeSlot :=
  match s.var v, s.locked v with
  | .to ip, none => some ip
  | _, _ => none

/-! ## What the functions of fs.c do -/

/-- `v = iget(dev, inum)`. -/
def iget (s : Cache V) (v : V) (dev inum : Word) : Option (Cache V) :=
  if s.var v = .null then
    (s.icache.iget dev inum).map fun got => { s with icache := got.2 }.point v (.to got.1)
  else none

/-- `v = ialloc(dev, type)`. -/
def ialloc (s : Cache V) (v : V) (dev : Word) (type : Int) : Option (Cache V) :=
  if s.var v = .null ∧ type ≠ 0 then
    (s.icache.ialloc ninodes dev type).map fun got =>
      { s with icache := got.2 }.point v (.to got.1)
  else none

/-- `w = idup(v)`. -/
def idup (s : Cache V) (v w : V) : Option (Cache V) :=
  match s.var v, s.var w with
  | .to ip, .null => some ({ s with icache := s.icache.idup ip }.point w (.to ip))
  | _, _ => none

/-- `w = v`, and `v` is not used again. -/
def move (s : Cache V) (v w : V) : Option (Cache V) :=
  match s.free v, s.var w with
  | some ip, .null => some ((s.point v .null).point w (.to ip))
  | _, _ => none

def ilock (s : Cache V) (v : V) : Option (Cache V) :=
  match s.var v with
  | .to ip =>
      match s.lock ip with
      | some _ => none
      | none =>
          (s.icache.ilock ip).map fun icache =>
            { s with icache := icache }.setLock ip (some (v, .clean))
  | _ => none

/-- `v->nlink = nlink`. -/
def storeLinks (s : Cache V) (v : V) (nlink : Int) : Option (Cache V) :=
  match s.locked v with
  | some (ip, .clean) =>
      some ({ s with icache := s.icache.set ip { s.inode ip with nlink := nlink } }.setLock ip
        (some (v, .links)))
  | _ => none

/-- `v->mode = mode`. -/
def storeMode (s : Cache V) (v : V) (mode : Word) : Option (Cache V) :=
  match s.locked v with
  | some (ip, .clean) =>
      some ({ s with icache := s.icache.set ip { s.inode ip with mode := mode } }.setLock ip
        (some (v, .mode)))
  | _ => none

def iupdate (s : Cache V) (v : V) : Option (Cache V) :=
  (s.locked v).map fun at_ =>
    { s with icache := s.icache.iupdate at_.1 }.setLock at_.1 (some (v, .clean))

def iunlock (s : Cache V) (v : V) : Option (Cache V) :=
  match s.locked v with
  | some (ip, .clean) => some (s.setLock ip none)
  | _ => none

/-- What iput() finds when nobody else refers to the entry and no name is left. -/
def Last (s : Cache V) (ip : InodeSlot) : Prop :=
  (s.inode ip).valid = true ∧ (s.inode ip).nlink = 0 ∧ (s.inode ip).ref = 1

instance (s : Cache V) (ip : InodeSlot) : Decidable (s.Last ip) :=
  inferInstanceAs (Decidable (_ ∧ _ ∧ _))

/-- iput() to the release of `ip->lock`. -/
def iput (s : Cache V) (v : V) : Option (Cache V) :=
  match s.var v with
  | .to ip =>
      match s.lock ip with
      | some _ => none
      | none =>
          let icache := if s.Last ip then s.icache.free ip else s.icache
          some ({ s with icache := icache }.point v (.putting ip))
  | _ => none

/-- The rest of iput(). -/
def putEnd (s : Cache V) (v : V) : Option (Cache V) :=
  match s.var v with
  | .putting ip =>
      some ({ s with
        icache := s.icache.set ip { s.inode ip with ref := (s.inode ip).ref - 1 } }.point v .null)
  | _ => none

/-- create() from ialloc() on, for a name that is not there. -/
def create (s : Cache V) (v : V) (dev : Word) (type : Int) : Option (Cache V) :=
  (s.ialloc v dev type).bind fun s =>
    (s.ilock v).bind fun s =>
      (s.storeLinks v 1).bind fun s => s.iupdate v

end Cache

/-! ## Steps -/

inductive Event (V : Type) where
  | iget (v : V) (dev inum : Word)
  | idup (v w : V)
  | move (v w : V)
  | ilock (v : V)
  | storeLinks (v : V) (nlink : Int)
  | storeMode (v : V) (mode : Word)
  | iupdate (v : V)
  | iunlock (v : V)
  | iput (v : V)
  | putEnd (v : V)
  | create (v : V) (dev : Word) (type : Int)

/-- The variables that a step reads or stores to. -/
def Event.vars : Event V → List V
  | .idup v w | .move v w => [v, w]
  | .iget v _ _ | .ilock v | .storeLinks v _ | .storeMode v _ | .iupdate v | .iunlock v
  | .iput v | .putEnd v | .create v _ _ => [v]

def Event.storesMode : Event V → Bool
  | .storeMode _ _ => true
  | _ => false

/-- A panic stops the machine, and a lock that is held makes its caller wait. -/
def step [DecidableEq V] (s : Cache V) : Event V → Option (Cache V)
  | .iget v dev inum => s.iget v dev inum
  | .idup v w => s.idup v w
  | .move v w => s.move v w
  | .ilock v => s.ilock v
  | .storeLinks v nlink => s.storeLinks v nlink
  | .storeMode v mode => s.storeMode v mode
  | .iupdate v => s.iupdate v
  | .iunlock v => s.iunlock v
  | .iput v => s.iput v
  | .putEnd v => s.putEnd v
  | .create v dev type => s.create v dev type

/-- The cache after iinit(), over an image of the disk. -/
def boot (disk : Word → Word → Dinode) : Cache V where
  icache :=
    { inode := fun _ =>
        { dev := 0, inum := 0, ref := 0, valid := false, type := 0, nlink := 0, mode := 0 }
      disk := disk }
  var := fun _ => .null
  lock := fun _ => none

/-! ## The observer -/

/-- For each inode the mode that chmod() or create() has given it, until it is
freed. -/
abbrev Given := Word → Word → Option Word

def Given.set (given : Given) (i : Inode) (mode : Option Word) : Given :=
  Function.update given i.dev (Function.update (given i.dev) i.inum mode)

/-- chmod_actual() has succeeded with its iupdate(). -/
def record [DecidableEq V] (s : Cache V) (given : Given) : Event V → Given
  | .iupdate v =>
      match s.locked v with
      | some (ip, .mode) => given.set (s.inode ip) (some (s.inode ip).mode)
      | _ => given
  | .iput v =>
      match s.var v with
      | .to ip => if s.Last ip then given.set (s.inode ip) none else given
      | _ => given
  | .create v dev type =>
      match s.create v dev type with
      | some next =>
          match next.var v with
          | .to ip => given.set (next.inode ip) (some 7)
          | _ => given
      | none => given
  | _ => given

/-- A step of the cache with its observer. -/
def tracked [DecidableEq V] (s : Cache V × Given) (e : Event V) : Option (Cache V × Given) :=
  (step s.1 e).map fun next => (next, record s.1 s.2 e)

/-! ## The system calls -/

section Calls
variable (v f : V) (dev inum : Word)

/-- open() of a file that is there. -/
def openFile : List (Event V) := [.iget v dev inum, .ilock v, .iunlock v, .move v f]

def close : List (Event V) := [.move f v, .iput v, .putEnd v]

def chmod_actual (mode : Word) : List (Event V) :=
  [.iget v dev inum, .ilock v, .storeMode v mode, .iupdate v, .iunlock v, .iput v, .putEnd v]

end Calls

/-! ## Fields after a store -/

section Fields
variable (s : Cache V) (c : Icache) (v w : V) (p : Pointer) (ip j : InodeSlot)
  (owner : Option (V × Phase)) (x : Inode) (d n dev inum : Word) (y : Dinode)

@[simp] theorem mk_inode (var : V → Pointer) (lock : InodeSlot → Option (V × Phase)) :
    (Cache.mk c var lock).inode j = c.inode j := rfl

@[simp] theorem icache_inode : s.icache.inode j = s.inode j := rfl

@[simp] theorem setLock_inode : (s.setLock ip owner).inode j = s.inode j := rfl

@[simp] theorem setLock_icache : (s.setLock ip owner).icache = s.icache := rfl

@[simp] theorem setLock_var : (s.setLock ip owner).var = s.var := rfl

theorem setLock_lock : (s.setLock ip owner).lock j = if j = ip then owner else s.lock j :=
  Function.update_apply s.lock ip owner j

@[simp] theorem set_disk : (c.set ip x).disk = c.disk := rfl

theorem set_inode : (c.set ip x).inode j = if j = ip then x else c.inode j :=
  Function.update_apply c.inode ip x j

@[simp] theorem write_inode : (c.write dev inum y).inode = c.inode := rfl

theorem write_disk : (c.write dev inum y).disk d n =
    if d = dev ∧ n = inum then y else c.disk d n := by
  simp only [Icache.write, Function.update_apply]
  by_cases same : d = dev
  · subst same
    by_cases number : n = inum <;> simp [number]
  · simp [same]

variable [DecidableEq V]

@[simp] theorem point_inode : (s.point v p).inode j = s.inode j := rfl

@[simp] theorem point_icache : (s.point v p).icache = s.icache := rfl

@[simp] theorem point_lock : (s.point v p).lock = s.lock := rfl

theorem point_var : (s.point v p).var w = if w = v then p else s.var w :=
  Function.update_apply s.var v p w

end Fields

end Xv6.Public1.InodeCache
