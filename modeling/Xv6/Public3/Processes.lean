import Xv6.Common.FileTable
import Xv6.Lib.Runs
import Xv6.Public3.Vm

/-!
# Processes and physical pages (proc.c, kalloc.c, pipe.c of xv6-public_3)

The kernel as a step relation on everything that has pages of the allocator: the
free list, kernel stacks, page directories and pipes.  sbrk(), exec(), fork() and
wait() take a step at every kalloc() and kfree(), between which any other
process may take steps; pipe(), close() and exit() are a step each.
-/

set_option autoImplicit false

namespace Xv6.Public3

open Xv6.Lib
open Xv6.Lib.Words
open Xv6.Lib.Allocation (Prog)
open Xv6.Common

inductive ProcState where
  | UNUSED | EMBRYO
  /-- SLEEPING, RUNNABLE or RUNNING. -/
  | LIVE
  | ZOMBIE
  deriving DecidableEq

structure Proc (P : Type) where
  state : ProcState := .UNUSED
  kstack : Option Page := none
  /-- `pgdir` and `sz`; none while growproc() or exec() is working on them. -/
  image : Option Image := none
  parent : Option P := none
  ofile : Descriptors := fun _ => none

/-- What a process is doing in the kernel. -/
inductive Call (P : Type) where
  /-- growproc() or exec(), with the image that it leaves. -/
  | image (prog : Vm Image)
  /-- fork(), with the slot that allocproc() has found. -/
  | fork (c : P) (prog : Vm (Option (Page × Image)))
  /-- wait(), with the child that it has found. -/
  | wait (c : P) (prog : Vm Unit)

/-- `readopen` and `writeopen` of the pipe in a page. -/
structure Ends where
  readopen : Bool
  writeopen : Bool

structure Kernel (P : Type) where
  freelist : List Page
  proc : P → Proc P
  call : P → Option (Call P)
  file : FileTable
  pipe : Page → Ends
  panicked : Option Panic

/-- How a program goes on. -/
inductive Progress (α : Type) where
  | returns (a : α)
  | goes (prog : Vm α) (freelist : List Page)
  | panics (e : Panic)

/-- kalloc() takes the first page of the free list, kfree() puts a page there. -/
def progress {α : Type} (freelist : List Page) : Vm α → Progress α
  | .ret a => .returns a
  | .alloc next =>
      match freelist with
      | [] => .goes (next none) []
      | r :: rest => .goes (next (some r)) rest
  | .free r next => .goes next (r :: freelist)
  | .fail e => .panics e

namespace Kernel

/-! ## Files and pipes -/

section Files
variable {P : Type}

def pipeclose (k : Kernel P) (page : Page) (writable : Bool) : Kernel P :=
  let ends := if writable = true then { k.pipe page with writeopen := false }
    else { k.pipe page with readopen := false }
  let k := { k with pipe := Function.update k.pipe page ends }
  if ends.readopen = false ∧ ends.writeopen = false then { k with freelist := page :: k.freelist }
  else k

/-- None is the panic. -/
def fileclose (k : Kernel P) (f : FileSlot) : Option (Kernel P) :=
  match k.file.drop f with
  | none => none
  | some (file, none) => some { k with file := file }
  | some (file, some ff) =>
      let k := { k with file := file }
      some (if ff.type = .FD_PIPE then k.pipeclose ff.pipe ff.writable else k)

/-- The two files of pipealloc(), or none and what `bad:` leaves. -/
def pipealloc (k : Kernel P) : Kernel P × Option (FileSlot × FileSlot) :=
  match k.file.filealloc with
  | none => (k, none)
  | some (f0, file) =>
      match file.filealloc with
      | none => (k, none)
      | some (f1, file) =>
          match k.freelist with
          | [] => (k, none)
          | page :: rest =>
              let rf := { file f0 with
                type := .FD_PIPE, readable := true, writable := false, pipe := page }
              let wf := { file f1 with
                type := .FD_PIPE, readable := false, writable := true, pipe := page }
              ({ k with
                  freelist := rest
                  file := (file.set f0 rf).set f1 wf
                  pipe := Function.update k.pipe page { readopen := true, writeopen := true } },
                some (f0, f1))

end Files

variable {P : Type} [DecidableEq P]

def setProc (k : Kernel P) (p : P) (value : Proc P) : Kernel P :=
  { k with proc := Function.update k.proc p value }

def setCall (k : Kernel P) (p : P) (call : Option (Call P)) : Kernel P :=
  { k with call := Function.update k.call p call }

/-- sys_pipe(): with a descriptor for each end, or both ends closed again. -/
def sys_pipe (k : Kernel P) (p : P) : Option (Kernel P) :=
  match k.pipealloc with
  | (k, none) => some k
  | (k, some (f0, f1)) =>
      match fdalloc (k.proc p).ofile f0 with
      | none => (k.fileclose f0).bind fun k => k.fileclose f1
      | some (_, ofile) =>
          match fdalloc ofile f1 with
          | none => (k.fileclose f0).bind fun k => k.fileclose f1
          | some (_, ofile) => some (k.setProc p { k.proc p with ofile := ofile })

def sys_close (k : Kernel P) (p : P) (fd : Fin NOFILE) : Option (Kernel P) :=
  match (k.proc p).ofile fd with
  | none => some k
  | some f =>
      (k.setProc p { k.proc p with ofile := Function.update (k.proc p).ofile fd none }).fileclose f

/-! ## exit() -/

/-- The loops of exit() over the open files and of fork() over them. -/
def closeAll (k : Kernel P) (ofile : Descriptors) : Option (Kernel P) :=
  (List.finRange NOFILE).foldlM (fun k fd =>
    match ofile fd with
    | none => some k
    | some f => k.fileclose f) k

def dupAll (file : FileTable) (ofile : Descriptors) : Option FileTable :=
  (List.finRange NOFILE).foldlM (fun file fd =>
    match ofile fd with
    | none => some file
    | some f => file.filedup f) file

/-- `Pass abandoned children to init.` -/
def abandon (init p : P) (q : Proc P) : Proc P :=
  if q.parent = some p then { q with parent := some init } else q

def exit (init : P) (k : Kernel P) (p : P) : Option (Kernel P) :=
  (k.closeAll (k.proc p).ofile).map fun k =>
    let k := k.setProc p { k.proc p with state := .ZOMBIE, ofile := fun _ => none }
    { k with proc := fun q => abandon init p (k.proc q) }

/-! ## Calls that take pages one by one -/

variable (l : Layout)

/-- growproc() and exec(). -/
def startImage (k : Kernel P) (p : P) (prog : Image → Vm (Image × Bool)) : Option (Kernel P) :=
  match (k.proc p).image with
  | none => none
  | some im =>
      let call := Call.image (do
        let done ← prog im
        pure done.1)
      some ((k.setProc p { k.proc p with image := none }).setCall p (some call))

/-- fork() with a slot that is UNUSED. -/
def startFork (k : Kernel P) (p c : P) : Option (Kernel P) :=
  match (k.proc p).image with
  | none => none
  | some im =>
      if (k.proc c).state = .UNUSED then
        some ((k.setProc c { k.proc c with state := .EMBRYO }).setCall p
          (some (.fork c (forkMemory l im))))
      else none

/-- wait() that finds a zombie. -/
def startWait (k : Kernel P) (p c : P) : Option (Kernel P) :=
  match (k.proc c).kstack, (k.proc c).image with
  | some kstack, some im =>
      if (k.proc c).parent = some p ∧ (k.proc c).state = .ZOMBIE then
        some ((k.setProc c { k.proc c with kstack := none, image := none }).setCall p
          (some (.wait c (waitMemory l kstack im))))
      else none
  | _, _ => none

/-- The end of fork() in the parent. -/
def endFork (k : Kernel P) (p c : P) : Option (Page × Image) → Option (Kernel P)
  | none => some (k.setProc c { k.proc c with state := .UNUSED })
  | some (kstack, im) =>
      (dupAll k.file (k.proc p).ofile).map fun file =>
        { k with file := file }.setProc c
          { state := .LIVE, kstack := some kstack, image := some im, parent := some p,
            ofile := (k.proc p).ofile }

/-- The next kalloc() or kfree() of a process, or the return of its call. -/
def advance (k : Kernel P) (p : P) : Option (Kernel P) :=
  match k.call p with
  | none => none
  | some (.image prog) =>
      match progress k.freelist prog with
      | .returns im => some ((k.setProc p { k.proc p with image := some im }).setCall p none)
      | .goes prog freelist => some ({ k with freelist := freelist }.setCall p (some (.image prog)))
      | .panics e => some { k with panicked := some e }
  | some (.fork c prog) =>
      match progress k.freelist prog with
      | .returns child => (k.endFork p c child).map fun k => k.setCall p none
      | .goes prog freelist => some ({ k with freelist := freelist }.setCall p (some (.fork c prog)))
      | .panics e => some { k with panicked := some e }
  | some (.wait c prog) =>
      match progress k.freelist prog with
      | .returns _ =>
          some ((k.setProc c { k.proc c with state := .UNUSED, parent := none }).setCall p none)
      | .goes prog freelist => some ({ k with freelist := freelist }.setCall p (some (.wait c prog)))
      | .panics e => some { k with panicked := some e }

end Kernel

/-! ## Steps -/

inductive Event (P : Type) where
  | sbrk (p : P) (n : Word)
  | exec (p : P) (path : Option Program)
  | fork (p c : P)
  | wait (p c : P)
  | advance (p : P)
  | pipe (p : P)
  | close (p : P) (fd : Fin NOFILE)
  | exit (p : P)

variable {P : Type} [DecidableEq P] (l : Layout) (init : P)

/-- A process that can call the kernel. -/
def Kernel.ready (k : Kernel P) (p : P) : Prop := (k.proc p).state = .LIVE ∧ (k.call p).isNone = true

instance (k : Kernel P) (p : P) : Decidable (k.ready p) := inferInstanceAs (Decidable (_ ∧ _))

def act (k : Kernel P) : Event P → Option (Kernel P)
  | .sbrk p n => if k.ready p then k.startImage p (growproc l · n) else none
  | .exec p path => if k.ready p then k.startImage p (exec l · path) else none
  | .fork p c => if k.ready p then k.startFork l p c else none
  | .wait p c => if k.ready p then k.startWait l p c else none
  | .advance p => k.advance p
  | .pipe p => if k.ready p then k.sys_pipe p else none
  | .close p fd => if k.ready p then k.sys_close p fd else none
  | .exit p => if k.ready p ∧ p ≠ init then k.exit init p else none

/-- Nothing happens after a panic. -/
def step (k : Kernel P) (e : Event P) : Option (Kernel P) :=
  match k.panicked with
  | some _ => none
  | none => act l init k e

end Xv6.Public3
