import Mathlib.Data.Finset.Card
import Xv6.Lib.Runs
import Xv6.Lib.Slots
import Xv6.Lib.Words

/-!
# The log (log.c, the same in the three kernels)

The redo log over the buffer cache and the disk, as a step relation: the
operations of any processes, each bwrite() of a commit, and after a crash, which
may come at any point, each bwrite() of the recovery.  A disk write is atomic.
log_write() is two steps, since it tests `log.lh.n` before it takes log.lock.
A buffer that nobody has dirtied may be recycled at any time.
-/

set_option autoImplicit false

namespace Xv6.Common.Log

open Xv6.Lib
open Xv6.Lib.Words

def MAXOPBLOCKS : Nat := 10

def LOGSIZE : Nat := MAXOPBLOCKS * 3

/-- `log.start`, which mkfs puts after the boot block and the super block. -/
def logstart : Nat := 2

/-- `log.size`, which is the `nlog` of mkfs. -/
def nlog : Nat := LOGSIZE

/-- The words of a block of BSIZE bytes. -/
abbrev Block := Fin 128 → Word

structure Buf where
  data : Block
  dirty : Bool

/-! ## The header block -/

/-- `lh` written over what is in the header block. -/
def encode (before : Block) (lh : List Word) : Block := fun i =>
  if i.val = 0 then BitVec.ofNat 32 lh.length
  else lh.getD (i.val - 1) (before i)

def decode (b : Block) : List Word :=
  (List.range (b 0).toInt.toNat).map fun i =>
    if inside : i + 1 < 128 then b ⟨i + 1, inside⟩ else 0

/-- Where the head of the log is on disk. -/
def head : Word := BitVec.ofNat 32 logstart

/-- Where its block number `tail` is. -/
def logBlock (tail : Nat) : Word := BitVec.ofNat 32 (logstart + tail + 1)

/-- Not a block of the log. -/
def Home (b : Word) : Prop := b.toNat < logstart ∨ logstart + nlog ≤ b.toNat

instance : DecidablePred Home := fun _ => inferInstanceAs (Decidable (_ ∨ _))

/-! ## States -/

/-- Where commit() or recover_from_log() is. -/
inductive Phase where
  | running
  | writeLog (tail : Nat)
  | writeHead
  | install (tail : Nat)
  | clear
  | readHead
  | reinstall (tail : Nat)
  | reclear
  deriving DecidableEq

/-- Where a process is in an operation on the file system. -/
inductive Thread where
  | out
  | inOp
  /-- In log_write() after the test, with what it has put into the buffer. -/
  | logging (b : Word) (data : Block)

structure Kernel (P : Type) where
  disk : Word → Block
  buf : Word → Option Buf
  /-- `log.lh`: the block numbers up to `n`. -/
  lh : List Word
  outstanding : Nat
  phase : Phase
  thread : P → Thread
  panic : Bool

namespace Kernel

variable {P : Type}

/-- What bread() returns: the buffer, or the block on disk. -/
def view (k : Kernel P) (b : Word) : Block :=
  match k.buf b with
  | some x => x.data
  | none => k.disk b

def bread (k : Kernel P) (b : Word) : Kernel P :=
  match k.buf b with
  | some _ => k
  | none => { k with buf := Function.update k.buf b (some { data := k.disk b, dirty := false }) }

def bwrite (k : Kernel P) (b : Word) (data : Block) : Kernel P :=
  { k with
    disk := Function.update k.disk b data
    buf := Function.update k.buf b (some { data := data, dirty := false }) }

/-- bget() takes the buffer of a block for another one. -/
def recycle (k : Kernel P) (b : Word) : Option (Kernel P) :=
  match k.buf b with
  | some x => if x.dirty = true then none else some { k with buf := Function.update k.buf b none }
  | none => none

/-! ## Operations -/

variable [DecidableEq P]

def setThread (k : Kernel P) (p : P) (thread : Thread) : Kernel P :=
  { k with thread := Function.update k.thread p thread }

/-- begin_op() when it does not sleep. -/
def begin_op (k : Kernel P) (p : P) : Option (Kernel P) :=
  match k.thread p, k.phase with
  | .out, .running =>
      if k.lh.length + (k.outstanding + 1) * MAXOPBLOCKS > LOGSIZE then none
      else some ({ k with outstanding := k.outstanding + 1 }.setThread p .inOp)
  | _, _ => none

/-- log_write() to acquire(&log.lock). -/
def logTest (k : Kernel P) (p : P) (b : Word) (data : Block) : Option (Kernel P) :=
  match k.thread p with
  | .inOp =>
      if k.lh.length ≥ LOGSIZE ∨ k.lh.length ≥ nlog - 1 then some { k with panic := true }
      else if k.outstanding < 1 then some { k with panic := true }
      else some (k.setThread p (.logging b data))
  | _ => none

/-- log_write() under log.lock. -/
def logAppend (k : Kernel P) (p : P) : Option (Kernel P) :=
  match k.thread p with
  | .logging b data =>
      some ({ k with
        lh := if b ∈ k.lh then k.lh else k.lh ++ [b]
        buf := Function.update k.buf b (some { data := data, dirty := true }) }.setThread p .inOp)
  | _ => none

/-- end_op() to commit(). -/
def end_op (k : Kernel P) (p : P) : Option (Kernel P) :=
  match k.thread p with
  | .inOp =>
      let k := { k with outstanding := k.outstanding - 1 }.setThread p .out
      some (if k.outstanding = 0 ∧ k.lh ≠ [] then { k with phase := .writeLog 0 } else k)
  | _ => none

/-! ## commit() and recover_from_log() -/

/-- One round of install_trans(). -/
def installRound (k : Kernel P) (tail : Nat) : Kernel P :=
  k.bwrite (k.lh.getD tail 0) (k.view (logBlock tail))

def write_head (k : Kernel P) : Kernel P := k.bwrite head (encode (k.view head) k.lh)

def read_head (k : Kernel P) : Kernel P := { k with lh := decode (k.view head) }

/-- `log.lh.n = 0; write_head();` -/
def clearHead (k : Kernel P) : Kernel P := { k with lh := [] }.write_head

/-- The next write. -/
def advance (k : Kernel P) : Option (Kernel P) :=
  match k.phase with
  | .running => none
  | .writeLog tail =>
      let k' := k.bwrite (logBlock tail) (k.view (k.lh.getD tail 0))
      some { k' with
        phase := if tail + 1 < k.lh.length then .writeLog (tail + 1) else .writeHead }
  | .writeHead => some { k.write_head with phase := .install 0 }
  | .install tail =>
      some { k.installRound tail with
        phase := if tail + 1 < k.lh.length then .install (tail + 1) else .clear }
  | .clear => some { k.clearHead with phase := .running }
  | .readHead =>
      some { k.read_head with phase := if k.read_head.lh = [] then .reclear else .reinstall 0 }
  | .reinstall tail =>
      some { k.installRound tail with
        phase := if tail + 1 < k.lh.length then .reinstall (tail + 1) else .reclear }
  | .reclear => some { k.clearHead with phase := .running }

/-- The machine goes down and is started again. -/
def crash (k : Kernel P) : Kernel P where
  disk := k.disk
  buf := fun _ => none
  lh := []
  outstanding := 0
  phase := .readHead
  thread := fun _ => .out
  panic := false

end Kernel

/-! ## Steps -/

inductive Event (P : Type) where
  | bread (b : Word)
  | recycle (b : Word)
  | begin_op (p : P)
  | logTest (p : P) (b : Word) (data : Block)
  | logAppend (p : P)
  | end_op (p : P)
  | advance
  | crash

variable {P : Type} [DecidableEq P]

def act (k : Kernel P) : Event P → Option (Kernel P)
  | .bread b => some (k.bread b)
  | .recycle b => k.recycle b
  | .begin_op p => k.begin_op p
  | .logTest p b data => k.logTest p b data
  | .logAppend p => k.logAppend p
  | .end_op p => k.end_op p
  | .advance => k.advance
  | .crash => some k.crash

/-- After a panic only a restart is left. -/
def step (k : Kernel P) (e : Event P) : Option (Kernel P) :=
  match k.panic, e with
  | true, .crash => some k.crash
  | true, _ => none
  | false, e => act k e

/-- The kernel on an image whose log is empty. -/
def boot (disk : Word → Block) : Kernel P where
  disk := disk
  buf := fun _ => none
  lh := []
  outstanding := 0
  phase := .running
  thread := fun _ => .out
  panic := false

/-! ## The observer -/

/-- What the operations since the last commit or recovery have done. -/
structure Group (P : Type) where
  /-- The disk before them. -/
  old : Word → Block
  /-- What they have logged last for each block. -/
  logged : Word → Option Block
  /-- The blocks that they have logged. -/
  blocks : Finset Word
  /-- The header has been written with them. -/
  committed : Bool
  /-- The blocks that each running operation logs. -/
  used : P → Finset Word

/-- The contents after the group. -/
def Group.new (g : Group P) (b : Word) : Block := (g.logged b).getD (g.old b)

def Group.start (disk : Word → Block) : Group P where
  old := disk
  logged := fun _ => none
  blocks := ∅
  committed := false
  used := fun _ => ∅

def record (k next : Kernel P) (g : Group P) : Event P → Group P
  | .begin_op p => { g with used := Function.update g.used p ∅ }
  | .logTest p b _ => { g with used := Function.update g.used p (insert b (g.used p)) }
  | .logAppend p =>
      match k.thread p with
      | .logging b data =>
          { g with
            logged := Function.update g.logged b (some data)
            blocks := insert b g.blocks }
      | _ => g
  | .advance =>
      match k.phase with
      | .writeHead => { g with committed := true }
      | .clear | .reclear => Group.start next.disk
      | _ => g
  | _ => g

/-- A step of the machine with its observer. -/
def tracked (s : Kernel P × Group P) (e : Event P) : Option (Kernel P × Group P) :=
  (step s.1 e).map fun next => (next, record s.1 next s.2 e)

end Xv6.Common.Log
