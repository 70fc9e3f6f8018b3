import Xv6.Common.Pipe
import Xv6.Lib.Runs
import Xv6.Public1.Inodes
import Xv6.Public1.Process

/-!
# Open files, pipes and the mode check (xv6-public_1)

sysfile.c and chmod_actual() over `ftable`, the inode cache and the pipes, as a
step relation in which any process may be the next to move.  A step is a
stretch between two points where others can come in; what the path walk has
found, what a disk read brings and what kalloc() gives comes with the event.
Every use of `f->ip` as a pointer is recorded.
-/

set_option autoImplicit false

namespace Xv6.Public1.Files

open Xv6.Lib
open Xv6.Lib.Words
open Xv6.Machine
open Xv6.Common
open Xv6.Public1.Syscall (Caller Call argint argstr setEax)
open Xv6.Public1.Process (Slot argptr)
open Xv6.Public1.Inodes

/-- A sleeping piperead() or pipewrite(). -/
structure PipeCall where
  writes : Bool
  page : Word
  addr : Word
  n : Int
  i : Nat

inductive Thread where
  | user
  /-- In sys_pipe() with the first file allocated. -/
  | piping (fd : Word) (rf : FileSlot)
  | inPipe (call : PipeCall)
  /-- In the loop of exit() that closes the files. -/
  | exiting (fd : Nat)
  | gone

structure Proc extends Caller where
  /-- The page that starts at an address is present. -/
  present : Word → Bool
  killed : Bool
  ofile : Descriptors
  thread : Thread

structure Kernel where
  file : FileTable
  icache : Icache
  /-- By the address of the page. -/
  pipe : Word → Pipe
  proc : Slot → Proc
  panic : Bool

namespace Kernel

def setProc (k : Kernel) (i : Slot) (p : Proc) : Kernel :=
  { k with proc := Function.update k.proc i p }

def setPipe (k : Kernel) (page : Word) (p : Pipe) : Kernel :=
  { k with pipe := Function.update k.pipe page p }

def setFile (k : Kernel) (f : FileSlot) (file : File) : Kernel :=
  { k with file := k.file.set f file }

def iput (k : Kernel) (ip : InodeSlot) : Kernel := { k with icache := k.icache.iput ip }

def panics (k : Kernel) : Kernel := { k with panic := true }

/-- The result of a system call, back in user mode. -/
def result (k : Kernel) (i : Slot) (eax : Word) : Kernel :=
  k.setProc i { k.proc i with toCaller := setEax eax (k.proc i).toCaller, thread := .user }

def setOfile (k : Kernel) (i : Slot) (ofile : Descriptors) : Kernel :=
  k.setProc i { k.proc i with ofile := ofile }

/-- fileclose(). -/
def fileclose (k : Kernel) (f : FileSlot) : Kernel :=
  match k.file.drop f with
  | none => k.panics
  | some (file, none) => { k with file := file }
  | some (file, some ff) =>
      let k := { k with file := file }
      match ff.type, ff.ip with
      | .FD_PIPE, _ => k.setPipe ff.pipe ((k.pipe ff.pipe).pipeclose ff.writable)
      | .FD_INODE, some ip => k.iput ip
      | .FD_INODE, none => k.panics
      | .FD_NONE, _ => k

end Kernel

/-! ## Arguments -/

def argfd (p : Proc) (n : Word) : Option (Fin NOFILE × FileSlot) :=
  (argint p.toCaller n).bind fun fd =>
    if inside : 0 ≤ fd.toInt ∧ fd.toInt.toNat < NOFILE then
      (p.ofile ⟨fd.toInt.toNat, inside.2⟩).map fun f => (⟨fd.toInt.toNat, inside.2⟩, f)
    else none

/-- The buffer of read() and write(): `argint(2, &n)` and `argptr(1, &p, n)`. -/
def argbuf (p : Caller) : Option (Word × Int) :=
  (argint p 2).bind fun n =>
    if n.toInt < 0 then none
    else (argptr p 1 n.toInt.toNat).map fun addr => (addr, n.toInt)

/-! ## fileread() and filewrite() -/

/-- What a stretch of read() or write() does and which pointers `f->ip` it
follows. -/
structure Taken where
  flow : Flow
  kernel : Kernel
  derefs : List (Option InodeSlot)

/-- What readi() brings and what the calls of writei() return. -/
structure Answers where
  readi : Int × Memory
  writei : Nat → Int

/-- A stretch of a pipe call, in the state of its pipe and its caller. -/
def pipeTaken (k : Kernel) (i : Slot) (call : PipeCall) (flow : Flow) (p : Pipe) (mem : Memory) :
    Taken where
  flow := flow
  kernel := (k.setPipe call.page p).setProc i
    { k.proc i with
      mem := mem
      thread := match flow with
        | .sleeps done => .inPipe { call with i := done }
        | .returned _ | .panics => (k.proc i).thread }
  derefs := []

def PipeCall.go (call : PipeCall) (k : Kernel) (i : Slot) : Taken :=
  let p := k.proc i
  if call.writes then
    let moved := (k.pipe call.page).pipewrite p.killed p.mem call.addr call.n call.i
    pipeTaken k i call moved.1 moved.2 p.mem
  else
    let moved := (k.pipe call.page).piperead p.killed call.addr call.n p.mem
    pipeTaken k i call moved.1 moved.2.1 moved.2.2

/-- `f->off += r` after a transfer. -/
def advance (off : Word) (r : Int) : Word := if r > 0 then off + BitVec.ofInt 32 r else off

def fileread (answers : Answers) (k : Kernel) (i : Slot) (f : FileSlot) (addr : Word) (n : Int) :
    Taken :=
  let file := k.file f
  if file.readable = false then ⟨.returned (-1), k, []⟩
  else
    match file.type with
    | .FD_PIPE => PipeCall.go ⟨false, file.pipe, addr, n, 0⟩ k i
    | .FD_INODE =>
        let r := answers.readi.1
        ⟨.returned (BitVec.ofInt 32 r),
          (k.setFile f { file with off := advance file.off r }).setProc i
            { k.proc i with mem := answers.readi.2 },
          [file.ip]⟩
    | .FD_NONE => ⟨.panics, k, []⟩

/-- The bytes of one transaction of filewrite(): `((MAXOPBLOCKS-1-1-2) / 2) * 512`. -/
def maxChunk : Int := 1536

/-- The loop of filewrite() over the rounds of writei(): what it returns, and
the offset. -/
def filewriteLoop (writei : Nat → Int) (n : Int) : Nat → Nat → Int → Word → Flow × Word
  | 0, _, i, off => (.returned (if i = n then BitVec.ofInt 32 n else -1), off)
  | left + 1, round, i, off =>
      if i < n then
        let r := writei round
        let off := advance off r
        if r < 0 then (.returned (if i = n then BitVec.ofInt 32 n else -1), off)
        else if r ≠ min (n - i) maxChunk then (.panics, off)
        else filewriteLoop writei n left (round + 1) (i + r) off
      else (.returned (if i = n then BitVec.ofInt 32 n else -1), off)

def filewrite (answers : Answers) (k : Kernel) (i : Slot) (f : FileSlot) (addr : Word) (n : Int) :
    Taken :=
  let file := k.file f
  if file.writable = false then ⟨.returned (-1), k, []⟩
  else
    match file.type with
    | .FD_PIPE => PipeCall.go ⟨true, file.pipe, addr, n, 0⟩ k i
    | .FD_INODE =>
        let written := filewriteLoop answers.writei n n.toNat 0 0 file.off
        ⟨written.1, k.setFile f { file with off := written.2 }, [file.ip]⟩
    | .FD_NONE => ⟨.panics, k, []⟩

/-! ## sys_read() and sys_write() -/

/-- The offset of `mode` in `struct inode`. -/
def modeOffset : Word := 140

/-- `f->ip->mode`.  A null pointer leads into the first page of the running
process, and none is a page fault in the kernel. -/
def ipMode (k : Kernel) (i : Slot) : Option InodeSlot → Option Word
  | some ip => some (k.icache.inode ip).mode
  | none =>
      if (k.proc i).present (PGROUNDDOWN modeOffset) then
        some (loadWord (k.proc i).mem modeOffset)
      else none

/-- read() and write() up to the arguments: what is done with the file. -/
def onFile (k : Kernel) (i : Slot) (act : FileSlot → Word → Int → Taken) : Taken :=
  match argfd (k.proc i) 0, argbuf (k.proc i).toCaller with
  | some (_, f), some (addr, n) => act f addr n
  | _, _ => ⟨.returned (-1), k, []⟩

/-- The check of the mode in front of a call. -/
def checked (bit : Word) (k : Kernel) (i : Slot) (call : FileSlot → Word → Int → Taken)
    (f : FileSlot) (addr : Word) (n : Int) : Taken :=
  let ip := (k.file f).ip
  match ipMode k i ip with
  | none => ⟨.panics, k, [ip]⟩
  | some mode =>
      if mode &&& bit = 0 then ⟨.returned (-1), k, [ip]⟩
      else
        let taken := call f addr n
        { taken with derefs := ip :: taken.derefs }

def sys_read (answers : Answers) (k : Kernel) (i : Slot) : Taken :=
  onFile k i (checked 1 k i (fileread answers k i))

def sys_write (answers : Answers) (k : Kernel) (i : Slot) : Taken :=
  onFile k i (checked 2 k i (filewrite answers k i))

/-- The kernel after the stretch. -/
def Taken.settle (taken : Taken) (i : Slot) : Kernel :=
  match taken.flow with
  | .returned eax => taken.kernel.result i eax
  | .sleeps _ => taken.kernel
  | .panics => taken.kernel.panics

/-! ## The other calls on files -/

/-- What an observer of `ftable` sees of a step: an inode file put into a slot. -/
abbrev Note := Option (FileSlot × InodeSlot)

def O_WRONLY : Word := 0x001

def O_RDWR : Word := 0x002

def O_CREATE : Word := 0x200

def T_DIR : Int := 1

/-- sys_open() from the locked inode that create() or namei() has found, if any. -/
def sys_open (ip : Option InodeSlot) (k : Kernel) (i : Slot) : Note × Kernel :=
  let p := k.proc i
  match argstr p.toCaller 0, argint p.toCaller 1, ip with
  | some _, some omode, some ip =>
      let bad := fun (k : Kernel) => (none, (k.iput ip).result i (-1))
      if omode &&& O_CREATE = 0 ∧ (k.icache.inode ip).type = T_DIR ∧ omode ≠ 0 then bad k
      else
        match k.file.filealloc with
        | none => bad k
        | some (f, file) =>
            let k := { k with file := file }
            match fdalloc p.ofile f with
            | none => bad (k.fileclose f)
            | some (fd, ofile) =>
                let opened :=
                  { file f with
                    type := .FD_INODE
                    ip := some ip
                    off := 0
                    readable := decide (omode &&& O_WRONLY = 0)
                    writable := decide (omode &&& O_WRONLY ≠ 0 ∨ omode &&& O_RDWR ≠ 0) }
                (some (f, ip),
                  ((k.setFile f opened).setOfile i ofile).result i (BitVec.ofNat 32 fd.val))
  | _, _, _ => (none, k.result i (-1))

def sys_close (k : Kernel) (i : Slot) : Kernel :=
  match argfd (k.proc i) 0 with
  | none => k.result i (-1)
  | some (fd, f) =>
      ((k.setOfile i (Function.update (k.proc i).ofile fd none)).fileclose f).result i 0

def sys_dup (k : Kernel) (i : Slot) : Kernel :=
  match argfd (k.proc i) 0 with
  | none => k.result i (-1)
  | some (_, f) =>
      match fdalloc (k.proc i).ofile f with
      | none => k.result i (-1)
      | some (fd, ofile) =>
          match k.file.filedup f with
          | none => k.panics
          | some file =>
              (({ k with file := file }).setOfile i ofile).result i (BitVec.ofNat 32 fd.val)

/-- sys_pipe() to the end of the first filealloc(). -/
def pipeBegin (k : Kernel) (i : Slot) : Kernel :=
  match argptr (k.proc i).toCaller 0 8 with
  | none => k.result i (-1)
  | some fd =>
      match k.file.filealloc with
      | none => k.result i (-1)
      | some (rf, file) =>
          ({ k with file := file }).setProc i { k.proc i with thread := .piping fd rf }

/-- One end of a pipe as pipealloc() makes it of a claimed file. -/
def pipeEnd (file : File) (writable : Bool) (page : Word) : File :=
  { file with type := .FD_PIPE, readable := !writable, writable := writable, pipe := page }

/-- The rest of sys_pipe(), with the page of kalloc(), if any, and what is in it. -/
def pipeFinish (page : Option (Word × Pipe)) (fd : Word) (rf : FileSlot) (k : Kernel) (i : Slot) :
    Kernel :=
  match k.file.filealloc, page with
  | none, _ => (k.fileclose rf).result i (-1)
  | some (wf, file), none => ((({ k with file := file }).fileclose rf).fileclose wf).result i (-1)
  | some (wf, file), some (page, content) =>
      let ends := (file.set rf (pipeEnd (file rf) false page)).set wf (pipeEnd (file wf) true page)
      let k := ({ k with file := ends }).setPipe page content.init
      match fdalloc (k.proc i).ofile rf with
      | none => ((k.fileclose rf).fileclose wf).result i (-1)
      | some (fd0, ofile) =>
          match fdalloc ofile wf with
          | none => ((k.fileclose rf).fileclose wf).result i (-1)
          | some (fd1, ofile) =>
              let p := k.proc i
              (k.setProc i
                { p with
                  ofile := ofile
                  mem := overlay p.mem fd
                    (wordBytes (BitVec.ofNat 32 fd0.val) ++ wordBytes (BitVec.ofNat 32 fd1.val)) }
                ).result i 0

/-- sys_chmod() and chmod_actual(), with the inode that namei() has found. -/
def sys_chmod (ip : Option InodeSlot) (k : Kernel) (i : Slot) : Kernel :=
  let p := k.proc i
  match argstr p.toCaller 0, argint p.toCaller 1 with
  | some file, some mode =>
      if file = CString.bytes "chmod" ∨ mode > 7 then k.result i (-1)
      else
        match ip with
        | none => k.result i (-1)
        | some ip =>
            match k.icache.ilock ip with
            | none => k.panics
            | some icache => (({ k with icache := icache.setMode ip mode }).iput ip).result i 0
  | _, _ => k.result i (-1)

/-! ## fork() and exit() -/

/-- The filedup() of every open file of the parent. -/
def dupAll (ofile : Descriptors) (file : FileTable) : Option FileTable :=
  (List.finRange NOFILE).foldlM (fun file fd =>
    match ofile fd with
    | none => some file
    | some f => file.filedup f) file

def fork (pid : Word) (np : Slot) (k : Kernel) (i : Slot) : Kernel :=
  let p := k.proc i
  match dupAll p.ofile k.file with
  | none => k.panics
  | some file =>
      let child : Proc :=
        { p with
          toCaller := setEax 0 p.toCaller
          killed := false
          ofile := fun fd => (p.ofile fd).orElse fun _ => (k.proc np).ofile fd }
      (({ k with file := file }).setProc np child).result i pid

/-- One round of the loop of exit(). -/
def exitStep (fd : Nat) (k : Kernel) (i : Slot) : Kernel :=
  let p := k.proc i
  if inside : fd < NOFILE then
    let next := { p with
      thread := .exiting (fd + 1)
      ofile := Function.update p.ofile ⟨fd, inside⟩ none }
    match p.ofile ⟨fd, inside⟩ with
    | none => k.setProc i next
    | some f => (k.fileclose f).setProc i next
  else k.setProc i { p with thread := .gone }

/-! ## Steps -/

inductive FileCall where
  | read (answers : Answers)
  | write (answers : Answers)
  | open (ip : Option InodeSlot)
  | close
  | dup
  | pipe
  | chmod (ip : Option InodeSlot)

def FileCall.act (k : Kernel) (i : Slot) : FileCall → Note × Kernel
  | .read answers => (none, (sys_read answers k i).settle i)
  | .write answers => (none, (sys_write answers k i).settle i)
  | .open ip => sys_open ip k i
  | .close => (none, sys_close k i)
  | .dup => (none, sys_dup k i)
  | .pipe => (none, pipeBegin k i)
  | .chmod ip => (none, sys_chmod ip k i)

inductive Event where
  /-- User code runs. -/
  | user (i : Slot) (tf : TrapFrame) (mem : Memory)
  /-- exec() or sbrk(). -/
  | space (i : Slot) (tf : TrapFrame) (mem : Memory) (sz : Word) (present : Word → Bool)
  | call (i : Slot) (call : FileCall)
  | pipeFinish (i : Slot) (page : Option (Word × Pipe))
  /-- A sleeping pipe call is woken. -/
  | resume (i : Slot)
  | fork (i np : Slot) (pid : Word)
  | exit (i : Slot)
  | exitStep (i : Slot)
  | kill (i : Slot)
  | inode (op : InodeOp)

/-- kalloc() gives no page that a pipe is in. -/
def fresh (k : Kernel) (page : Word) : Bool :=
  (List.finRange NFILE).all fun f =>
    !(decide ((k.file f).type = .FD_PIPE) && decide ((k.file f).pipe = page))

/-- The action of a process in user mode. -/
def inUser (k : Kernel) (i : Slot) (taken : Note × Kernel) : Option (Note × Kernel) :=
  match (k.proc i).thread with
  | .user => some taken
  | _ => none

def act (k : Kernel) : Event → Option (Note × Kernel)
  | .user i tf mem =>
      inUser k i (none, k.setProc i { k.proc i with tf := tf, mem := mem })
  | .space i tf mem sz present =>
      inUser k i (none, k.setProc i
        { k.proc i with tf := tf, mem := mem, sz := sz, present := present })
  | .call i call => inUser k i (call.act k i)
  | .pipeFinish i page =>
      match (k.proc i).thread with
      | .piping fd rf =>
          if page.all fun page => fresh k page.1 then some (none, pipeFinish page fd rf k i)
          else none
      | _ => none
  | .resume i =>
      match (k.proc i).thread with
      | .inPipe call => some (none, (call.go k i).settle i)
      | _ => none
  | .fork i np pid =>
      match (k.proc np).thread with
      | .gone => inUser k i (none, fork pid np k i)
      | _ => none
  | .exit i => inUser k i (none, k.setProc i { k.proc i with thread := .exiting 0 })
  | .exitStep i =>
      match (k.proc i).thread with
      | .exiting fd => some (none, exitStep fd k i)
      | _ => none
  | .kill i => some (none, k.setProc i { k.proc i with killed := true })
  | .inode op => (op.apply k.icache).map fun icache => (none, { k with icache := icache })

/-- A panic stops the machine. -/
def step (k : Kernel) (e : Event) : Option (Note × Kernel) :=
  if k.panic then none else act k e

/-- The kernel when init is in its first page, over an image of the disk. -/
def boot (disk : Word → Word → Dinode) : Kernel where
  file := fun _ => {}
  icache :=
    { inode := fun _ =>
        { dev := 0, inum := 0, ref := 0, valid := false, type := 0, nlink := 0, mode := 0 }
      disk := disk }
  pipe := fun _ =>
    { data := fun _ => 0, nread := 0, nwrite := 0, readopen := false, writeopen := false }
  proc := fun i =>
    { sz := if i = 0 then 4096 else 0
      tf := {}
      mem := fun _ => 0
      blocked_syscalls := fun _ => 0
      present := fun page => decide (i = 0 ∧ page = 0)
      killed := false
      ofile := fun _ => none
      thread := if i = 0 then .user else .gone }
  panic := false

/-- For each slot of `ftable` the inode of the last file that sys_open() has put
there. -/
abbrev Opened := FileSlot → Option InodeSlot

def record (note : Note) (last : Opened) : Opened :=
  match note with
  | none => last
  | some (f, ip) => Function.update last f (some ip)

/-- A step of the kernel with its observer. -/
def tracked (s : Kernel × Opened) (e : Event) : Option (Kernel × Opened) :=
  (step s.1 e).map fun taken => (taken.2, record taken.1 s.2)

end Xv6.Public1.Files
