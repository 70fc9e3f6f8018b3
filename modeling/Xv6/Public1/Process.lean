import Mathlib.Data.List.FinRange
import Mathlib.Logic.Function.Basic
import Xv6.Lib.BubbleSort
import Xv6.Machine.UserSpace
import Xv6.Public1.BlockCalls

/-!
# Processes and the history log (xv6-public_1)

`struct proc` and `ptable`, the log that exit() appends to, and what proc.c and
exec.c do to them.  Slots of `ptable.proc` are `Fin NPROC`, a null
`struct proc*` is `none`.  `thread` is not stored by the kernel: it says where
the kernel thread of the slot goes on when it is resumed.
-/

set_option autoImplicit false

namespace Xv6.Public1.Process

open Xv6.Lib
open Xv6.Lib.Words
open Xv6.Lib.CString
open Xv6.Machine
open Xv6.Public1.Syscall
open Xv6.Public1.BlockCalls

abbrev NPROC : Nat := 64
abbrev MAX_LIMIT : Nat := 64

abbrev Slot := Fin NPROC

-- Numerals for slots.
instance slotNeZero : @NeZero Nat Zero.ofOfNat0 NPROC := ⟨Nat.succ_ne_zero 63⟩

/-- A sleep channel: the address of a `struct proc` or any other address. -/
inductive Chan where
  | proc (slot : Slot)
  | addr (a : Nat)
  deriving DecidableEq

inductive ProcState where
  | UNUSED | EMBRYO | SLEEPING | RUNNABLE | RUNNING | ZOMBIE
  deriving DecidableEq

inductive ForkStage where
  | allocated | stacked | copied
  deriving DecidableEq

/-- A call of fork() that has got its slot and not yet returned. -/
structure ForkCall where
  np : Slot
  stage : ForkStage
  deriving DecidableEq

inductive Thread where
  | user
  | asleep
  | waiting
  | forking (call : ForkCall)
  deriving DecidableEq

/-- A `char name[16]` that holds a string. -/
structure Name where
  bytes : List Byte := List.replicate 16 0
  size : bytes.length = 16 := by decide
  ends : (0 : Byte) ∈ bytes := by decide

def Name.text (name : Name) : List Byte := CString.text name.bytes

/-- `safestrcpy(name, src, sizeof(name))`. -/
def Name.copy (name : Name) (src : List Byte) : Name where
  bytes := safestrcpy name.bytes src 16
  size := (safestrcpy_length _ _ _).trans name.size
  ends := safestrcpy_ends _ _ 15 (by rw [name.size])

/-- `name[0] = 0`. -/
def Name.clear (name : Name) : Name where
  bytes := name.bytes.set 0 0
  size := (List.length_set ..).trans name.size
  ends := List.mem_set (by rw [name.size]; decide) 0

structure Proc extends Caller where
  /-- The page that starts at an address is present and a user page. -/
  user : Word → Bool
  state : ProcState
  pid : Int
  parent : Option Slot
  chan : Option Chan
  killed : Int
  name : Name
  check : Int
  thread : Thread

/-- A slot of the table before its first use. -/
def unused : Proc where
  sz := 0
  tf := {}
  mem := fun _ => 0
  blocked_syscalls := fun _ => 0
  user := fun _ => false
  state := .UNUSED
  pid := 0
  parent := none
  chan := none
  killed := 0
  name := {}
  check := 0
  thread := .user

def slots : List Slot := List.finRange NPROC

def setThread (thread : Thread) (p : Proc) : Proc := { p with thread := thread }

/-- Store the result of a system call. -/
def result (eax : Word) (p : Proc) : Proc := { p with toCaller := setEax eax p.toCaller }

/-! ## The history log -/

structure History where
  pid : Int
  name : Name
  totalMemory : Int
  creationTime : Int

/-- The `sizeof(struct history_struct)` bytes of a record. -/
def History.bytes (h : History) : List Byte :=
  wordBytes (BitVec.ofInt 32 h.pid) ++ h.name.bytes ++ wordBytes (BitVec.ofInt 32 h.totalMemory) ++
    wordBytes (BitVec.ofInt 32 h.creationTime)

structure Log where
  hist_arr : List History
  hist_count : Nat
  size : hist_arr.length = MAX_LIMIT
  bound : hist_count ≤ MAX_LIMIT

/-- `hist_arr[0..hist_count)`. -/
def Log.used (log : Log) : List History := log.hist_arr.take log.hist_count

def emptyLog : Log where
  hist_arr := List.replicate MAX_LIMIT { pid := 0, name := {}, totalMemory := 0, creationTime := 0 }
  hist_count := 0
  size := List.length_replicate
  bound := Nat.zero_le _

/-- The part of exit() under hist_lock. -/
def Log.append (log : Log) (p : Proc) : Log :=
  if room : log.hist_count < MAX_LIMIT ∧ p.check ≠ 0 then
    have inside : log.hist_count < log.hist_arr.length := by rw [log.size]; exact room.1
    let entry := log.hist_arr.get ⟨log.hist_count, inside⟩
    { hist_arr := log.hist_arr.set log.hist_count
        { entry with
          pid := p.pid
          name := entry.name.copy p.name.bytes
          totalMemory := p.sz.toInt }
      hist_count := log.hist_count + 1
      size := (List.length_set ..).trans log.size
      bound := room.1 }
  else log

/-- The sort in gethistory_actual(). -/
def Log.sort (log : Log) : Log where
  hist_arr := BubbleSort.sort History.pid log.hist_count log.hist_arr
  hist_count := log.hist_count
  size := (BubbleSort.sort_spec _ _ _ (by rw [log.size]; exact log.bound)).2.2.2.trans log.size
  bound := log.bound

def argptr (p : Caller) (n : Word) (size : Nat) : Option Word :=
  (argint p n).bind fun i =>
    if i ≥ p.sz ∨ i + BitVec.ofNat 32 size > p.sz then none else some i

/-- gethistory_actual() into the memory of the caller. -/
def gethistory_actual (user_buffer : Word) (log : Log) (p : Proc) : Word × Proc × Log :=
  let sorted := log.sort
  let copied := copyout ⟨p.mem, p.user⟩ user_buffer (sorted.used.flatMap History.bytes)
  (if copied.1 then BitVec.ofNat 32 sorted.hist_count else -1, { p with mem := copied.2 }, sorted)

def sys_gethistory (log : Log) (p : Proc) : Word × Proc × Log :=
  match argptr p.toCaller 0 (28 * MAX_LIMIT) with
  | none => (-1, p, log)
  | some user_buffer => gethistory_actual user_buffer log p

/-! ## exec -/

/-- What exec() has loaded when it comes to its commit. -/
structure Image where
  sz : Word
  entry : Word
  sp : Word
  space : UserSpace

def slash : Byte := 47

/-- The loop of exec() over the path: what follows the last slash. -/
def lastPart : List Byte → List Byte → List Byte
  | last, [] => last
  | last, c :: s => if c = slash then lastPart s s else lastPart last s

/-- exec() from the program name on. -/
def exec (path : List Byte) (image : Image) (p : Proc) : Proc :=
  { p with
    name := p.name.copy (lastPart path path)
    mem := image.space.mem
    user := image.space.user
    sz := image.sz
    check := 1
    tf := { p.tf with eip := image.entry, esp := image.sp } }

/-- sys_exec() where the rest of exec() and of the fetching of its arguments
ends with an image or, by a failure that changes nothing, without one. -/
def sys_exec (image : Option Image) (p : Proc) : Word × Proc :=
  match argstr p.toCaller 0, image with
  | some path, some image => (0, exec path image p)
  | _, _ => (-1, p)

/-- sys_sbrk(), with what growproc() has made of the size and the memory. -/
def sys_sbrk (grown : Option (Word × UserSpace)) (p : Proc) : Word × Proc :=
  match grown with
  | none => (-1, p)
  | some (sz, space) => (p.sz, { p with sz := sz, mem := space.mem, user := space.user })

/-- A handler that works on what syscall() sees of its caller. -/
def onCaller (f : Caller → Word × Caller) (p : Proc) : Word × Proc :=
  ((f p.toCaller).1, { p with toCaller := (f p.toCaller).2 })

end Xv6.Public1.Process
