import Mathlib.Data.List.FinRange
import Xv6.Lib.Links
import Xv6.Lib.Runs
import Xv6.Lib.Words

/-!
# The disk queue (ide.c of xv6-public_2)

iderw(), ideintr() and idestart() over `idequeue` and the `qnext` pointers, by any
number of processes.  What is done under `idelock` is one step, as far as sleep().
The device answers with any status, and with some sector.

`queued`, `completed` and `returned` are what has happened so far.
-/

set_option autoImplicit false

namespace Xv6.Public2.DiskQueue

open Xv6.Lib.Words
open Xv6.Lib.Runs
open Xv6.Lib.Links

universe u v

abbrev NBUF : Nat := 30

def FSSIZE : Nat := 1000

abbrev BufSlot := Fin NBUF

def IDE_BSY : Byte := 0x80
def IDE_DRDY : Byte := 0x40
def IDE_DF : Byte := 0x20
def IDE_ERR : Byte := 0x01

structure Buf (P : Type u) (D : Type v) where
  B_VALID : Bool
  B_DIRTY : Bool
  dev : Word
  blockno : Word
  data : D
  /-- The process that holds `lock`. -/
  holder : Option P

/-- A command to the device, for the sector `blockno` of disk `dev & 1`. -/
structure Request (D : Type v) where
  buf : BufSlot
  disk : Word
  sector : Word
  /-- What outsl() sends with a write command. -/
  out : Option D

/-- A process inside iderw(). -/
structure Call where
  buf : BufSlot
  asleep : Bool
  /-- The place of the request among all that were queued. -/
  turn : Nat

/-- What ideintr() did with a request. -/
structure Completion (D : Type v) where
  buf : BufSlot
  write : Bool
  /-- What insl() has put into `b->data`. -/
  moved : Option D

structure State (P : Type u) (D : Type v) where
  buf : BufSlot → Buf P D
  qnext : BufSlot → Option BufSlot
  idequeue : Option BufSlot
  havedisk1 : Bool
  /-- The command that the device has been given and that ideintr() has not come to. -/
  device : Option (Request D)
  calls : P → Option Call
  queued : List (BufSlot × Bool)
  completed : List (Completion D)
  returned : List Call

variable {P : Type u} {D : Type v}

/-! ## The source -/

/-- The status with which the loop of idewait() ends. -/
def ready (r : Byte) : Bool := decide (r &&& (IDE_BSY ||| IDE_DRDY) = IDE_DRDY)

/-- What idewait() returns for that status. -/
def idewait (checkerr : Bool) (r : Byte) : Int :=
  if checkerr = true ∧ r &&& (IDE_DF ||| IDE_ERR) ≠ 0 then -1 else 0

namespace State

def setBuf (s : State P D) (b : BufSlot) (buf : Buf P D) : State P D :=
  { s with buf := Function.update s.buf b buf }

/-- The command for `b`; BSIZE is SECTOR_SIZE. -/
def request (s : State P D) (b : BufSlot) : Request D where
  buf := b
  disk := (s.buf b).dev &&& 1
  sector := (s.buf b).blockno
  out := if (s.buf b).B_DIRTY = true then some (s.buf b).data else none

/-- `none` is the panic "incorrect blockno". -/
def idestart (s : State P D) (b : BufSlot) : Option (State P D) :=
  if FSSIZE ≤ (s.buf b).blockno.toNat then none else some { s with device := some (s.request b) }

/-- What `pp` points to: `none` is `&idequeue`, and `some b` is `&b->qnext`. -/
def deref (s : State P D) : Option BufSlot → Option BufSlot
  | none => s.idequeue
  | some b => s.qnext b

/-- `for(pp=&idequeue; *pp; pp=&(*pp)->qnext)`, with fuel for as many rounds as there
are buffers. -/
def tailLoop (s : State P D) : Nat → Option BufSlot → Option (Option BufSlot)
  | 0, _ => none
  | fuel + 1, pp =>
      match s.deref pp with
      | none => some pp
      | some b => s.tailLoop fuel (some b)

/-- `*pp = b` -/
def store (s : State P D) (pp : Option BufSlot) (b : BufSlot) : State P D :=
  match pp with
  | none => { s with idequeue := some b }
  | some c => { s with qnext := Function.update s.qnext c (some b) }

/-- The request is one of those that have been queued. -/
def enqueued (s : State P D) (b : BufSlot) : State P D :=
  { s with queued := s.queued ++ [(b, (s.buf b).B_DIRTY)] }

/-- `(b->flags & (B_VALID|B_DIRTY)) == B_VALID` -/
def finished (s : State P D) (b : BufSlot) : Prop :=
  (s.buf b).B_VALID = true ∧ (s.buf b).B_DIRTY = false

instance (s : State P D) (b : BufSlot) : Decidable (s.finished b) :=
  inferInstanceAs (Decidable (_ ∧ _))

variable [DecidableEq P]

def setCall (s : State P D) (p : P) (call : Option Call) : State P D :=
  { s with calls := Function.update s.calls p call }

/-- One round of the loop of iderw(): the process sleeps, or the call returns. -/
def waitLoop (s : State P D) (p : P) (call : Call) : State P D :=
  if s.finished call.buf then
    { s.setCall p none with returned := s.returned ++ [call] }
  else s.setCall p (some { call with asleep := true })

/-- iderw() as far as its first sleep; `none` where it panics. -/
def iderw (s : State P D) (p : P) (b : BufSlot) : Option (State P D) :=
  if (s.buf b).holder ≠ some p then none
  else if s.finished b then none
  else if (s.buf b).dev ≠ 0 ∧ s.havedisk1 = false then none
  else
    let s := { s with qnext := Function.update s.qnext b none }
    (s.tailLoop (NBUF + 1) none).bind fun pp =>
      let s := (s.store pp b).enqueued b
      (if s.idequeue = some b then s.idestart b else some s).map fun s =>
        s.waitLoop p { buf := b, asleep := false, turn := s.queued.length - 1 }

/-- `wakeup(b)` -/
def wakeup (s : State P D) (b : BufSlot) : State P D :=
  { s with
    calls := fun p => (s.calls p).map fun call =>
      if call.buf = b then { call with asleep := false } else call }

/-- `r` is the status with which idewait(1) ends, and `sector` what the device has read. -/
def ideintr (s : State P D) (r : Byte) (sector : D) : Option (State P D) :=
  match s.idequeue with
  | none => some s
  | some b =>
      let buf := s.buf b
      let read := buf.B_DIRTY = false
      if read ∧ ready r = false then none
      else
        let s := { s with idequeue := s.qnext b }
        let moved := if read ∧ idewait true r ≥ 0 then some sector else none
        let s := s.setBuf b
          { buf with data := moved.getD buf.data, B_VALID := true, B_DIRTY := false }
        let done : Completion D := { buf := b, write := buf.B_DIRTY, moved := moved }
        let s := { s with device := none, completed := s.completed ++ [done] }
        let s := s.wakeup b
        match s.idequeue with
        | none => some s
        | some next => s.idestart next

end State

/-! ## Runs -/

inductive Event (P : Type u) (D : Type v) where
  | acquiresleep (p : P) (b : BufSlot)
  | releasesleep (p : P) (b : BufSlot)
  /-- The holder of the buffer changes it. -/
  | modify (p : P) (b : BufSlot) (valid dirty : Bool) (data : D)
  /-- bget() takes a buffer that nobody has for another block. -/
  | recycle (b : BufSlot) (dev blockno : Word)
  | iderw (p : P) (b : BufSlot)
  | ideintr (r : Byte) (sector : D)
  /-- kill() wakes a process. -/
  | kill (p : P)
  /-- A process that is awake is back from sleep(). -/
  | resume (p : P)

variable [DecidableEq P]

def step (s : State P D) : Event P D → Option (State P D)
  | .acquiresleep p b =>
      if s.calls p = none ∧ (s.buf b).holder = none then
        some (s.setBuf b { s.buf b with holder := some p })
      else none
  | .releasesleep p b =>
      if s.calls p = none ∧ (s.buf b).holder = some p then
        some (s.setBuf b { s.buf b with holder := none })
      else none
  | .modify p b valid dirty data =>
      if s.calls p = none ∧ (s.buf b).holder = some p then
        some (s.setBuf b { s.buf b with B_VALID := valid, B_DIRTY := dirty, data := data })
      else none
  | .recycle b dev blockno =>
      if (s.buf b).holder = none then
        some (s.setBuf b
          { s.buf b with B_VALID := false, B_DIRTY := false, dev := dev, blockno := blockno })
      else none
  | .iderw p b => if s.calls p = none then s.iderw p b else none
  | .ideintr r sector => s.ideintr r sector
  | .kill p =>
      match s.calls p with
      | none => some s
      | some call => some (s.setCall p (some { call with asleep := false }))
  | .resume p =>
      match s.calls p with
      | none => none
      | some call => if call.asleep = true then none else some (s.waitLoop p call)

/-- Nothing is queued, and no buffer is locked. -/
def boot (data : BufSlot → D) (havedisk1 : Bool) : State P D where
  buf b := ⟨false, false, 0, 0, data b, none⟩
  qnext _ := none
  idequeue := none
  havedisk1 := havedisk1
  device := none
  calls _ := none
  queued := []
  completed := []
  returned := []

end Xv6.Public2.DiskQueue
