import Xv6.Lib.Links
import Xv6.Lib.Runs
import Xv6.Public1.Blocks

/-!
# The buffer cache (bio.c of xv6-public_1)

The list of the buffers, what bread(), bwrite(), brelse() and log_write() do to it and to
the buffers, and the disk.  A step is what is done under bcache.lock, or by the process
that has the lock of a buffer: bget() is two steps, bread() one more, brelse() two.  A
variable of type `struct buf *` says how far its process has come.
-/

set_option autoImplicit false

namespace Xv6.Public1.BufCache

open Xv6.Lib
open Xv6.Lib.Words
open Xv6.Lib.Links
open Xv6.Public1.Blocks (Block)

abbrev NBUF : Nat := 30

abbrev LOGSIZE : Nat := 30

abbrev FSSIZE : Nat := 1000

abbrev Slot := Fin NBUF

/-- A buffer, or `bcache.head`. -/
abbrev Node := Option Slot

abbrev head : Node := none

/-- `struct buf`; its links and its lock are in `State`. -/
structure Buf where
  dev : Word
  blockno : Word
  refcnt : Int
  /-- `B_VALID` -/
  valid : Bool
  /-- `B_DIRTY` -/
  dirty : Bool
  data : Block

/-- The part of `log` that log_write() uses. -/
structure Log where
  outstanding : Int
  size : Int
  /-- `lh.block[0..lh.n]` -/
  lh : List Word

/-- Where the process is that uses a buffer. -/
inductive Stage where
  /-- bget() has counted it. -/
  | waiting
  /-- bget() has returned. -/
  | locked
  /-- bread() has returned, and what has been stored has been passed on. -/
  | inside
  /-- There are stores that neither log_write() nor bwrite() has seen. -/
  | changed
  /-- In brelse(), before `b->refcnt--`. -/
  | leaving
  deriving DecidableEq

/-- The process has `b->lock`. -/
def Stage.locks : Stage → Bool
  | .waiting | .leaving => false
  | .locked | .inside | .changed => true

/-- bread() has returned. -/
def Stage.reads : Stage → Bool
  | .inside | .changed => true
  | _ => false

structure State (V : Type) where
  buf : Slot → Buf
  next : Node → Node
  prev : Node → Node
  /-- The variable through which `b->lock` is held. -/
  lock : Slot → Option V
  var : V → Option (Slot × Stage)
  log : Log
  /-- The blocks of the disks by device and number. -/
  disk : Word → Word → Block

variable {V : Type}

namespace State

def setBuf (s : State V) (b : Slot) (x : Buf) : State V :=
  { s with buf := Function.update s.buf b x }

def setNext (s : State V) (p q : Node) : State V := { s with next := Function.update s.next p q }

def setPrev (s : State V) (p q : Node) : State V := { s with prev := Function.update s.prev p q }

/-- A buffer is taken out of the list. -/
def unlink (s : State V) (b : Slot) : State V :=
  -- b->next->prev = b->prev;
  let s := s.setPrev (s.next b) (s.prev b)
  -- b->prev->next = b->next;
  s.setNext (s.prev b) (s.next b)

/-- A buffer is put behind bcache.head, in brelse() and in binit(). -/
def link (s : State V) (b : Slot) : State V :=
  -- b->next = bcache.head.next;
  let s := s.setNext b (s.next head)
  -- b->prev = &bcache.head;
  let s := s.setPrev b head
  -- bcache.head.next->prev = b;
  let s := s.setPrev (s.next head) b
  -- bcache.head.next = b;
  s.setNext head b

/-- `b == &bcache.head || test` -/
def stops (test : Slot → Bool) : Node → Bool
  | none => true
  | some b => test b

/-- `for(b = follow(head); b != &bcache.head; b = follow(b)) if(test) break;` -/
def find (follow : Node → Node) (test : Slot → Bool) : Option Node :=
  walk follow (stops test) (NBUF + 1) (follow head)

/-- `b->dev == dev && b->blockno == blockno` -/
def caches (s : State V) (dev blockno : Word) (b : Slot) : Bool :=
  decide ((s.buf b).dev = dev ∧ (s.buf b).blockno = blockno)

def unused (s : State V) (b : Slot) : Bool :=
  decide ((s.buf b).refcnt = 0 ∧ (s.buf b).dirty = false)

variable [DecidableEq V]

def point (s : State V) (v : V) (p : Option (Slot × Stage)) : State V :=
  { s with var := Function.update s.var v p }

/-- bget() to the release of bcache.lock. -/
def bget (s : State V) (v : V) (dev blockno : Word) : Option (State V) :=
  if s.var v = none then
    match find s.next (s.caches dev blockno) with
    | some (some b) =>
        some ((s.setBuf b { s.buf b with refcnt := (s.buf b).refcnt + 1 }).point v
          (some (b, .waiting)))
    | some none =>
        match find s.prev s.unused with
        | some (some b) =>
            some ((s.setBuf b
              { s.buf b with
                dev := dev, blockno := blockno, valid := false, dirty := false,
                refcnt := 1 }).point v (some (b, .waiting)))
        -- panic("bget: no buffers")
        | _ => none
    | none => none
  else none

/-- acquiresleep() in bget(). -/
def acquiresleep (s : State V) (v : V) : Option (State V) :=
  match s.var v with
  | some (b, .waiting) =>
      if s.lock b = none then
        some ({ s with lock := Function.update s.lock b (some v) }.point v (some (b, .locked)))
      else none
  | _ => none

/-- What iderw() leaves behind when it returns; there are the disks 0 and 1. -/
def iderw (s : State V) (b : Slot) : Option (State V) :=
  let x := s.buf b
  if FSSIZE ≤ x.blockno.toNat ∨ 1 < x.dev.toNat then none
  else if x.dirty = true then
    let disk := Function.update s.disk x.dev (Function.update (s.disk x.dev) x.blockno x.data)
    some ({ s with disk := disk }.setBuf b { x with dirty := false, valid := true })
  else some (s.setBuf b { x with data := s.disk x.dev x.blockno, valid := true })

/-- The rest of bread(). -/
def bread (s : State V) (v : V) : Option (State V) :=
  match s.var v with
  | some (b, .locked) =>
      if (s.buf b).valid = false then (s.iderw b).map fun s => s.point v (some (b, .inside))
      else some (s.point v (some (b, .inside)))
  | _ => none

/-- `memmove(b->data, ...)` -/
def store (s : State V) (v : V) (data : Block) : Option (State V) :=
  match s.var v with
  | some (b, stage) =>
      if stage.reads = true then
        some ((s.setBuf b { s.buf b with data := data }).point v (some (b, .changed)))
      else none
  | none => none

def bwrite (s : State V) (v : V) : Option (State V) :=
  match s.var v with
  | some (b, stage) =>
      if stage.reads = true then
        ((s.setBuf b { s.buf b with dirty := true }).iderw b).map fun s =>
          s.point v (some (b, .inside))
      else none
  | none => none

def log_write (s : State V) (v : V) : Option (State V) :=
  match s.var v with
  | some (b, stage) =>
      if stage.reads = true then
        -- panic("too big a transaction")
        if LOGSIZE ≤ s.log.lh.length ∨ s.log.size - 1 ≤ s.log.lh.length then none
        -- panic("log_write outside of trans")
        else if s.log.outstanding < 1 then none
        else
          let blockno := (s.buf b).blockno
          let lh := if s.log.lh.contains blockno then s.log.lh else s.log.lh ++ [blockno]
          some (({ s with log := { s.log with lh := lh } }.setBuf b
            { s.buf b with dirty := true }).point v (some (b, .inside)))
      else none
  | none => none

/-- brelse() to releasesleep(). -/
def brelse (s : State V) (v : V) : Option (State V) :=
  match s.var v with
  | some (b, stage) =>
      if stage.reads = true then
        some ({ s with lock := Function.update s.lock b none }.point v (some (b, .leaving)))
      else none
  | none => none

/-- The rest of brelse(), under bcache.lock. -/
def release (s : State V) (v : V) : Option (State V) :=
  match s.var v with
  | some (b, .leaving) =>
      let s := (s.setBuf b { s.buf b with refcnt := (s.buf b).refcnt - 1 }).point v none
      if (s.buf b).refcnt = 0 then some ((s.unlink b).link b) else some s
  | _ => none

end State

/-! ## Steps -/

inductive Event (V : Type) where
  | bget (v : V) (dev blockno : Word)
  | acquiresleep (v : V)
  | bread (v : V)
  | store (v : V) (data : Block)
  | bwrite (v : V)
  | log_write (v : V)
  | brelse (v : V)
  | release (v : V)
  /-- begin_op(), end_op() and commit() change the log. -/
  | log (log : Log)

/-- A panic stops the machine, and a lock that is held makes its caller wait. -/
def step [DecidableEq V] (s : State V) : Event V → Option (State V)
  | .bget v dev blockno => s.bget v dev blockno
  | .acquiresleep v => s.acquiresleep v
  | .bread v => s.bread v
  | .store v data => s.store v data
  | .bwrite v => s.bwrite v
  | .log_write v => s.log_write v
  | .brelse v => s.brelse v
  | .release v => s.release v
  | .log log => some { s with log := log }

/-- The list with no buffer in it, and the buffers as the image of the kernel has them. -/
def empty (log : Log) (disk : Word → Word → Block) : State V where
  buf := fun _ =>
    { dev := 0, blockno := 0, refcnt := 0, valid := false, dirty := false, data := fun _ => 0 }
  next := fun _ => head
  prev := fun _ => head
  lock := fun _ => none
  var := fun _ => none
  log := log
  disk := disk

/-- The buffers after binit(). -/
def binit (log : Log) (disk : Word → Word → Block) : State V :=
  (List.finRange NBUF).foldl State.link (empty log disk)

/-! ## What has been written -/

/-- For each block the data that were last stored into a buffer for it. -/
abbrev Written := Word → Word → Block

def record (s : State V) (written : Written) : Event V → Written
  | .store v data =>
      match s.var v with
      | some (b, _) =>
          Function.update written (s.buf b).dev
            (Function.update (written (s.buf b).dev) (s.buf b).blockno data)
      | none => written
  | _ => written

/-- A step of the cache with its observer. -/
def tracked [DecidableEq V] (s : State V × Written) (e : Event V) : Option (State V × Written) :=
  (step s.1 e).map fun next => (next, record s.1 s.2 e)

/-- The caller has followed each modification by log_write() or bwrite() before brelse(). -/
def Careful (s : State V × Written) : Event V → Prop
  | .brelse v => ∀ b, s.1.var v ≠ some (b, .changed)
  | _ => True

instance [DecidableEq V] (s : State V × Written) : DecidablePred (Careful s)
  | .brelse v => inferInstanceAs (Decidable (∀ b, s.1.var v ≠ some (b, .changed)))
  | .bget _ _ _ | .acquiresleep _ | .bread _ | .store _ _ | .bwrite _ | .log_write _ | .release _
  | .log _ => isTrue trivial

/-- The list from bcache.head on, which has every buffer once, in both directions. -/
structure State.Lists (s : State V) (bufs : List Slot) : Prop where
  once : bufs.Nodup
  all : ∀ b, b ∈ bufs
  forth : Ring s.next (head :: bufs.map some)
  back : Ring s.prev (head :: bufs.reverse.map some)

/-- Two buffers for one block. -/
def State.SameBlock (s : State V) (b c : Slot) : Prop :=
  (s.buf b).dev = (s.buf c).dev ∧ (s.buf b).blockno = (s.buf c).blockno

/-- A buffer that is in use, or that is dirty, is not recycled by the step. -/
def Pinned (s : State V × Written) (_e : Event V) (t : State V × Written) : Prop :=
  ∀ b, 0 < (s.1.buf b).refcnt ∨ (s.1.buf b).dirty = true →
    (t.1.buf b).dev = (s.1.buf b).dev ∧ (t.1.buf b).blockno = (s.1.buf b).blockno

end Xv6.Public1.BufCache
