import Xv6.Common.FileTable
import Xv6.Public2.ProcTable

/-!
# Open files (file.c, sysfile.c, pipe.c and proc.c of xv6-public_2)

The system calls that make and drop references to open files, one call after the
other, by any processes: open, dup, pipe, close, fork, custom_fork and exit, with
every way in which they fail.  What namei(), create(), kalloc() and copyuvm() find
is part of the call.  `history` records each new count of an entry of `ftable`, when
the entry gets its inode or its end of a pipe, and when iput() or pipeclose() drops it.
-/

set_option autoImplicit false

namespace Xv6.Public2.OpenFiles

open Xv6.Lib.Words
open Xv6.Common (Descriptors File FileSlot FileTable FileType InodeSlot NOFILE fdalloc)
open Xv6.Public2.ProcTable (NPROC ProcState Slot)

structure Proc where
  state : ProcState := .UNUSED
  ofile : Descriptors := fun _ => none
  cwd : Option InodeSlot := none

/-- What an entry of `ftable` holds on to. -/
inductive Obj where
  | inode (ip : InodeSlot)
  | pipe (page : Word) (writable : Bool)
  deriving DecidableEq

inductive Event where
  /-- `f->ref` is now `ref`. -/
  | counted (f : FileSlot) (ref : Int)
  | opened (f : FileSlot) (obj : Obj)
  /-- iput() or pipeclose() in fileclose(). -/
  | closed (f : FileSlot) (obj : Obj)
  deriving DecidableEq

structure State where
  file : FileTable
  proc : Slot → Proc
  /-- `ip->ref` -/
  iref : InodeSlot → Int
  history : List Event

inductive Panic where
  | filedup | fileclose
  /-- An entry of type FD_INODE without an inode. -/
  | noInode
  | initExiting
  deriving DecidableEq

namespace State

def setProc (s : State) (p : Slot) (proc : Proc) : State :=
  { s with proc := Function.update s.proc p proc }

def setOfile (s : State) (p : Slot) (ofile : Descriptors) : State :=
  s.setProc p { s.proc p with ofile := ofile }

def note (s : State) (e : Event) : State := { s with history := s.history ++ [e] }

/-- The reference that namei(), create() or idup() counts. -/
def iget (s : State) (ip : InodeSlot) : State :=
  { s with iref := Function.update s.iref ip (s.iref ip + 1) }

def iput (s : State) (ip : InodeSlot) : State :=
  { s with iref := Function.update s.iref ip (s.iref ip - 1) }

end State

/-! ## file.c and pipe.c -/

/-- Another table, in which the count of `f` is new. -/
def State.recount (s : State) (f : FileSlot) (file : FileTable) : State :=
  { s with file := file }.note (.counted f (file f).ref)

def filealloc (s : State) : Option (FileSlot × State) :=
  match s.file.filealloc with
  | none => none
  | some (f, file) => some (f, s.recount f file)

def filedup (s : State) (f : FileSlot) : Except Panic State :=
  match s.file.filedup f with
  | none => .error .filedup
  | some file => .ok (s.recount f file)

def fileclose (s : State) (f : FileSlot) : Except Panic State :=
  match s.file.drop f with
  | none => .error .fileclose
  | some (file, none) => .ok (s.recount f file)
  | some (file, some ff) =>
      let s := s.recount f file
      match ff.type with
      | .FD_PIPE => .ok (s.note (.closed f (.pipe ff.pipe ff.writable)))
      | .FD_INODE =>
          match ff.ip with
          | none => .error .noInode
          | some ip => .ok ((s.iput ip).note (.closed f (.inode ip)))
      | .FD_NONE => .ok s

/-- One end of a pipe becomes an entry. -/
def setPipe (s : State) (f : FileSlot) (page : Word) (writable : Bool) : State :=
  { s with
    file := s.file.set f { s.file f with
      type := .FD_PIPE, readable := !writable, writable := writable, pipe := page } }.note
    (.opened f (.pipe page writable))

/-- `bad:` of pipealloc(). -/
def pipeallocBad (s : State) (f0 f1 : Option FileSlot) : Except Panic State := do
  let s ← match f0 with
    | none => pure s
    | some f => fileclose s f
  match f1 with
  | none => pure s
  | some f => fileclose s f

/-- The two entries, none for -1; `p` is what kalloc() returns. -/
def pipealloc (s : State) (p : Option Word) :
    Except Panic (Option (FileSlot × FileSlot) × State) :=
  match filealloc s with
  | none => do
      let s ← pipeallocBad s none none
      pure (none, s)
  | some (f0, s) =>
      match filealloc s with
      | none => do
          let s ← pipeallocBad s (some f0) none
          pure (none, s)
      | some (f1, s) =>
          match p with
          | none => do
              let s ← pipeallocBad s (some f0) (some f1)
              pure (none, s)
          | some page => pure (some (f0, f1), setPipe (setPipe s f0 page false) f1 page true)

/-! ## sysfile.c -/

def argfd (s : State) (p : Slot) (fd : Int) : Option (Fin NOFILE × FileSlot) :=
  if inside : 0 ≤ fd ∧ fd < NOFILE then
    let fd : Fin NOFILE := ⟨fd.toNat, by omega⟩
    ((s.proc p).ofile fd).map fun f => (fd, f)
  else none

def sys_dup (s : State) (p : Slot) (fd : Int) : Except Panic (Int × State) :=
  match argfd s p fd with
  | none => pure (-1, s)
  | some (_, f) =>
      match fdalloc (s.proc p).ofile f with
      | none => pure (-1, s)
      | some (fd, ofile) => do
          let s ← filedup (s.setOfile p ofile) f
          pure (fd.val, s)

def sys_close (s : State) (p : Slot) (fd : Int) : Except Panic (Int × State) :=
  match argfd s p fd with
  | none => pure (-1, s)
  | some (fd, f) => do
      let s ← fileclose (s.setOfile p (Function.update (s.proc p).ofile fd none)) f
      pure (0, s)

def O_WRONLY : Word := 0x001

def O_RDWR : Word := 0x002

/-- What open() sets of the entry when it has a descriptor. -/
def setInode (s : State) (f : FileSlot) (ip : InodeSlot) (omode : Word) : State :=
  { s with
    file := s.file.set f { s.file f with
      type := .FD_INODE, ip := some ip, off := 0,
      readable := decide (omode &&& O_WRONLY = 0),
      writable := decide (omode &&& O_WRONLY ≠ 0 ∨ omode &&& O_RDWR ≠ 0) } }.note
    (.opened f (.inode ip))

/-- The inode is the one of create() or namei(), none if there is none; `refused` is a directory
that is not opened with O_RDONLY. -/
def sys_open (s : State) (p : Slot) (found : Option InodeSlot) (refused : Bool) (omode : Word) :
    Except Panic (Int × State) :=
  match found with
  | none => pure (-1, s)
  | some ip =>
      let s := s.iget ip
      if refused = true then pure (-1, s.iput ip)
      else
        match filealloc s with
        | none => pure (-1, s.iput ip)
        | some (f, s) =>
            match fdalloc (s.proc p).ofile f with
            | none => do
                let s ← fileclose s f
                pure (-1, s.iput ip)
            | some (fd, ofile) => pure (fd.val, setInode (s.setOfile p ofile) f ip omode)

/-- With a pointer that argptr() takes, and what kalloc() returns. -/
def sys_pipe (s : State) (p : Slot) (pointer : Bool) (page : Option Word) :
    Except Panic (Int × State) :=
  if pointer = false then pure (-1, s)
  else do
    let (files, s) ← pipealloc s page
    match files with
    | none => pure (-1, s)
    | some (rf, wf) =>
        match fdalloc (s.proc p).ofile rf with
        | none => do
            let s ← fileclose s rf
            let s ← fileclose s wf
            pure (-1, s)
        | some (fd0, ofile) =>
            let s := s.setOfile p ofile
            match fdalloc (s.proc p).ofile wf with
            | none => do
                let s := s.setOfile p (Function.update (s.proc p).ofile fd0 none)
                let s ← fileclose s rf
                let s ← fileclose s wf
                pure (-1, s)
            | some (_, ofile) => pure (0, s.setOfile p ofile)

/-! ## proc.c -/

def findUnused (s : State) : Option Slot :=
  (List.finRange NPROC).find? fun p => decide ((s.proc p).state = .UNUSED)

/-- One round of the loop over the descriptors of the parent. -/
def dupFile (p np : Slot) (s : State) (fd : Fin NOFILE) : Except Panic State :=
  match (s.proc p).ofile fd with
  | none => pure s
  | some f => do
      let s ← filedup s f
      pure (s.setOfile np (Function.update (s.proc np).ofile fd (some f)))

/-- What fork() and custom_fork() have in common, with the state of the child; `memory` says
whether kalloc() and copyuvm() find the pages. -/
def forkAs (state : ProcState) (s : State) (p : Slot) (memory : Bool) :
    Except Panic (Int × State) :=
  match findUnused s with
  | none => pure (-1, s)
  | some np =>
      if memory = false then pure (-1, s)
      else do
        let s ← (List.finRange NOFILE).foldlM (dupFile p np) s
        let cwd := (s.proc p).cwd
        let s := match cwd with
          | none => s
          | some ip => s.iget ip
        pure (np.val, s.setProc np { s.proc np with cwd := cwd, state := state })

def fork (s : State) (p : Slot) (memory : Bool) : Except Panic (Int × State) :=
  forkAs .RUNNABLE s p memory

def custom_fork (start_later : Bool) (s : State) (p : Slot) (memory : Bool) :
    Except Panic (Int × State) :=
  forkAs (if start_later = true then .CUSTOM_WAIT else .RUNNABLE) s p memory

/-- The first process. -/
def initproc : Slot := 0

/-- One round of the loop of exit(). -/
def closeFile (p : Slot) (s : State) (fd : Fin NOFILE) : Except Panic State :=
  match (s.proc p).ofile fd with
  | none => pure s
  | some f => do
      let s ← fileclose s f
      pure (s.setOfile p (Function.update (s.proc p).ofile fd none))

def exit (s : State) (p : Slot) : Except Panic (Int × State) :=
  if p = initproc then .error .initExiting
  else do
    let s ← (List.finRange NOFILE).foldlM (closeFile p) s
    let s := match (s.proc p).cwd with
      | none => s
      | some ip => s.iput ip
    pure (0, s.setProc p { s.proc p with cwd := none, state := .ZOMBIE })

/-! ## Runs -/

inductive Call where
  | sys_open (found : Option InodeSlot) (refused : Bool) (omode : Word)
  | sys_dup (fd : Int)
  | sys_pipe (pointer : Bool) (page : Option Word)
  | sys_close (fd : Int)
  | fork (memory : Bool)
  | custom_fork (start_later : Bool) (memory : Bool)
  | exit

/-- A call that a process makes, the end of wait() for a child, or scheduler_start(). -/
inductive Action where
  | call (p : Slot) (c : Call)
  | reap (p : Slot)
  | start

def Call.run (s : State) (p : Slot) : Call → Except Panic (Int × State)
  | .sys_open found refused omode => OpenFiles.sys_open s p found refused omode
  | .sys_dup fd => OpenFiles.sys_dup s p fd
  | .sys_pipe pointer page => OpenFiles.sys_pipe s p pointer page
  | .sys_close fd => OpenFiles.sys_close s p fd
  | .fork memory => OpenFiles.fork s p memory
  | .custom_fork start_later memory => OpenFiles.custom_fork start_later s p memory
  | .exit => OpenFiles.exit s p

/-- The process runs in its turn. -/
def runs (state : ProcState) : Bool :=
  match state with
  | .RUNNABLE | .RUNNING | .SLEEPING => true
  | .UNUSED | .EMBRYO | .ZOMBIE | .CUSTOM_WAIT => false

/-- None: the action cannot happen, or the kernel has stopped in a panic. -/
def step (s : State) : Action → Option State
  | .call p c =>
      if runs (s.proc p).state = false then none
      else
        match c.run s p with
        | .error _ => none
        | .ok (_, s) => some s
  | .reap p =>
      if (s.proc p).state = .ZOMBIE then some (s.setProc p { s.proc p with state := .UNUSED })
      else none
  | .start =>
      some { s with
        proc := fun p =>
          if (s.proc p).state = .CUSTOM_WAIT then { s.proc p with state := .RUNNABLE }
          else s.proc p }

/-- After userinit(). -/
def boot (root : InodeSlot) : State where
  file _ := {}
  proc := Function.update (fun _ => {}) initproc { state := .RUNNABLE, cwd := some root }
  iref := Function.update (fun _ => 0) root 1
  history := []

end Xv6.Public2.OpenFiles
