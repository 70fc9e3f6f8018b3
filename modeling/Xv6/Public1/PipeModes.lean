import Xv6.Public1.Files

/-!
# Pipes behind the mode check (xv6-public_1)

sys_read() and sys_write() follow `f->ip` before they look at the type of the
file.  filealloc() and pipealloc() leave that pointer as it is, so on a pipe it
is the inode of the last file that was open in the same slot of `ftable`, or
null.
-/

set_option autoImplicit false

namespace Xv6.Public1.PipeModes

open Xv6.Lib
open Xv6.Lib.Runs
open Xv6.Lib.Words
open Xv6.Machine
open Xv6.Common
open Xv6.Public1.Syscall (Caller Call argint argstr setEax)
open Xv6.Public1.Process (Slot argptr)
open Xv6.Public1.Inodes
open Xv6.Public1.Files

/-! ## Whose inode a file points to -/

/-- No pointer to an inode changes. -/
def Keeps (k next : Kernel) : Prop := ∀ f, (next.file f).ip = (k.file f).ip

theorem Keeps.trans {k middle next : Kernel} (first : Keeps k middle) (second : Keeps middle next) :
    Keeps k next := fun f => (second f).trans (first f)

theorem keeps_same {k next : Kernel} (same : next.file = k.file) : Keeps k next := fun f => by
  rw [same]

theorem keeps_setFile (k : Kernel) (f : FileSlot) (file : File) (same : file.ip = (k.file f).ip) :
    Keeps k (k.setFile f file) :=
  FileTable.set_ip k.file f file same

theorem keeps_alloc {k : Kernel} {f : FileSlot} {file : FileTable}
    (allocated : k.file.filealloc = some (f, file)) : Keeps k { k with file := file } :=
  FileTable.filealloc_ip allocated

theorem keeps_fileclose (k : Kernel) (f : FileSlot) : Keeps k (k.fileclose f) := by
  unfold Kernel.fileclose
  split
  · exact keeps_same rfl
  · rename_i file dropped
    exact FileTable.drop_ip dropped
  · rename_i file ff dropped
    have kept : Keeps k { k with file := file } := FileTable.drop_ip dropped
    dsimp only
    split
    · exact kept.trans (keeps_same rfl)
    · exact kept.trans (keeps_same rfl)
    · exact kept.trans (keeps_same rfl)
    · exact kept

theorem keeps_go (call : PipeCall) (k : Kernel) (i : Slot) : Keeps k (call.go k i).kernel := by
  unfold PipeCall.go
  dsimp only
  split <;> exact keeps_same rfl

theorem keeps_fileread (answers : Answers) (k : Kernel) (i : Slot) (f : FileSlot) (addr : Word)
    (n : Int) : Keeps k (fileread answers k i f addr n).kernel := by
  unfold fileread
  dsimp only
  split
  · exact keeps_same rfl
  · split
    · exact keeps_go _ k i
    · refine (keeps_setFile k f _ ?_).trans (keeps_same rfl)
      rfl
    · exact keeps_same rfl

theorem keeps_filewrite (answers : Answers) (k : Kernel) (i : Slot) (f : FileSlot) (addr : Word)
    (n : Int) : Keeps k (filewrite answers k i f addr n).kernel := by
  unfold filewrite
  dsimp only
  split
  · exact keeps_same rfl
  · split
    · exact keeps_go _ k i
    · refine keeps_setFile k f _ ?_
      rfl
    · exact keeps_same rfl

theorem keeps_settle {k : Kernel} {taken : Taken} (kept : Keeps k taken.kernel) (i : Slot) :
    Keeps k (taken.settle i) := by
  unfold Taken.settle
  split
  · exact kept.trans (keeps_same rfl)
  · exact kept
  · exact kept.trans (keeps_same rfl)

/-- read() and write() with any call behind the check that keeps the pointers. -/
theorem keeps_checked (bit : Word) (k : Kernel) (i : Slot) (call : FileSlot → Word → Int → Taken)
    (kept : ∀ f addr n, Keeps k (call f addr n).kernel) :
    Keeps k (onFile k i (checked bit k i call)).kernel := by
  unfold onFile
  split
  · unfold checked
    dsimp only
    split
    · exact keeps_same rfl
    · split
      · exact keeps_same rfl
      · exact kept _ _ _
  · exact keeps_same rfl

theorem keeps_sys_close (k : Kernel) (i : Slot) : Keeps k (sys_close k i) := by
  unfold sys_close
  split
  · exact keeps_same rfl
  · rename_i fd f asked
    have closed := keeps_fileclose (k.setOfile i (Function.update (k.proc i).ofile fd none)) f
    exact closed.trans (keeps_same rfl)

theorem keeps_sys_dup (k : Kernel) (i : Slot) : Keeps k (sys_dup k i) := by
  unfold sys_dup
  split
  · exact keeps_same rfl
  · split
    · exact keeps_same rfl
    · split
      · exact keeps_same rfl
      · rename_i file dup
        have kept : Keeps k { k with file := file } := FileTable.filedup_ip dup
        exact kept.trans (keeps_same rfl)

theorem keeps_pipeBegin (k : Kernel) (i : Slot) : Keeps k (pipeBegin k i) := by
  unfold pipeBegin
  split
  · exact keeps_same rfl
  · split
    · exact keeps_same rfl
    · rename_i allocated
      exact (keeps_alloc allocated).trans (keeps_same rfl)

theorem keeps_closeBoth (k : Kernel) (rf wf : FileSlot) (i : Slot) (eax : Word) :
    Keeps k (((k.fileclose rf).fileclose wf).result i eax) :=
  ((keeps_fileclose k rf).trans (keeps_fileclose _ wf)).trans (keeps_same rfl)

theorem keeps_pipeFinish (page : Option (Word × Pipe)) (fd : Word) (rf : FileSlot) (k : Kernel)
    (i : Slot) : Keeps k (pipeFinish page fd rf k i) := by
  unfold pipeFinish
  split
  · exact (keeps_fileclose k rf).trans (keeps_same rfl)
  · rename_i wf file allocated
    exact (keeps_alloc allocated).trans (keeps_closeBoth _ rf wf i _)
  · rename_i wf file page content allocated
    have made : Keeps k
        (({ k with
          file := (file.set rf (pipeEnd (file rf) false page)).set wf (pipeEnd (file wf) true page)
          } : Kernel).setPipe page content.init) := by
      intro f
      refine (FileTable.set_ip _ wf _ ?_ f).trans ((FileTable.set_ip file rf _ ?_ f).trans
        (FileTable.filealloc_ip allocated f))
      · by_cases same : wf = rf
        · subst same
          simp [FileTable.set, pipeEnd]
        · simp [FileTable.set, pipeEnd, same]
      · rfl
    dsimp only
    split
    · exact made.trans (keeps_closeBoth _ rf wf i _)
    · split
      · exact made.trans (keeps_closeBoth _ rf wf i _)
      · exact made.trans (keeps_same rfl)

theorem keeps_sys_chmod (ip : Option InodeSlot) (k : Kernel) (i : Slot) :
    Keeps k (sys_chmod ip k i) := by
  unfold sys_chmod
  dsimp only
  split
  · split
    · exact keeps_same rfl
    · split
      · exact keeps_same rfl
      · split <;> exact keeps_same rfl
  · exact keeps_same rfl

theorem dupAll_ip (ofile : Descriptors) (file next : FileTable)
    (dup : dupAll ofile file = some next) (f : FileSlot) : (next f).ip = (file f).ip := by
  unfold dupAll at dup
  generalize List.finRange NOFILE = fds at dup
  induction fds generalizing file with
  | nil =>
      cases dup
      rfl
  | cons fd fds ih =>
      rw [List.foldlM_cons] at dup
      obtain ⟨middle, first, rest⟩ := Option.bind_eq_some_iff.mp dup
      refine (ih middle rest).trans ?_
      cases open_ : ofile fd with
      | none =>
          rw [open_] at first
          cases first
          rfl
      | some held =>
          rw [open_] at first
          exact FileTable.filedup_ip first f

theorem keeps_fork (pid : Word) (np : Slot) (k : Kernel) (i : Slot) :
    Keeps k (fork pid np k i) := by
  unfold fork
  dsimp only
  split
  · exact keeps_same rfl
  · rename_i file dup
    have kept : Keeps k { k with file := file } := dupAll_ip _ _ _ dup
    exact kept.trans (keeps_same rfl)

theorem keeps_exitStep (fd : Nat) (k : Kernel) (i : Slot) : Keeps k (exitStep fd k i) := by
  unfold exitStep
  dsimp only
  split
  · split
    · exact keeps_same rfl
    · exact (keeps_fileclose k _).trans (keeps_same rfl)
  · exact keeps_same rfl

/-- The pointer that a step leaves in a file. -/
def Points (k : Kernel) (taken : Note × Kernel) : Prop :=
  ∀ f, (taken.2.file f).ip = record taken.1 (fun f => (k.file f).ip) f

theorem Keeps.points {k next : Kernel} (kept : Keeps k next) : Points k (none, next) := kept

theorem sys_open_points (ip : Option InodeSlot) (k : Kernel) (i : Slot) :
    Points k (sys_open ip k i) := by
  unfold sys_open
  dsimp only
  split
  · rename_i path omode ip _ _
    have bad : ∀ k', Keeps k k' → Points k (none, (k'.iput ip).result i (-1)) := by
      intro k' kept
      exact (kept.trans (keeps_same rfl)).points
    split
    · exact bad k (keeps_same rfl)
    · split
      · exact bad k (keeps_same rfl)
      · rename_i f file allocated
        have kept := keeps_alloc allocated
        split
        · exact bad _ (kept.trans (keeps_fileclose _ f))
        · intro j
          by_cases here : j = f
          · subst here
            simp [record, Kernel.result, Kernel.setOfile, Kernel.setProc, Kernel.setFile,
              FileTable.set]
          · simpa [record, Kernel.result, Kernel.setOfile, Kernel.setProc, Kernel.setFile,
              FileTable.set, here] using kept j
  · exact (keeps_same rfl : Keeps k _).points

theorem call_points (k : Kernel) (i : Slot) (call : FileCall) : Points k (call.act k i) := by
  cases call with
  | read answers =>
      refine (keeps_settle (keeps_checked 1 k i _ ?_) i).points
      exact keeps_fileread answers k i
  | write answers =>
      refine (keeps_settle (keeps_checked 2 k i _ ?_) i).points
      exact keeps_filewrite answers k i
  | «open» ip => exact sys_open_points ip k i
  | close => exact (keeps_sys_close k i).points
  | dup => exact (keeps_sys_dup k i).points
  | pipe => exact (keeps_pipeBegin k i).points
  | chmod ip => exact (keeps_sys_chmod ip k i).points

theorem inUser_some {k : Kernel} {i : Slot} {done taken : Note × Kernel}
    (step : inUser k i done = some taken) : (k.proc i).thread = .user ∧ done = taken := by
  unfold inUser at step
  split at step
  · rename_i user
    exact ⟨user, Option.some.inj step⟩
  · cases step

theorem act_points (k : Kernel) (e : Event) (taken : Note × Kernel)
    (stepped : act k e = some taken) : Points k taken := by
  cases e with
  | user i tf mem =>
      obtain ⟨_, rfl⟩ := inUser_some stepped
      exact (keeps_same rfl : Keeps k _).points
  | space i tf mem sz present =>
      obtain ⟨_, rfl⟩ := inUser_some stepped
      exact (keeps_same rfl : Keeps k _).points
  | call i call =>
      obtain ⟨_, rfl⟩ := inUser_some stepped
      exact call_points k i call
  | pipeFinish i page =>
      simp only [act] at stepped
      split at stepped
      · split at stepped
        · cases stepped
          exact (keeps_pipeFinish page _ _ k i).points
        · cases stepped
      · cases stepped
  | resume i =>
      simp only [act] at stepped
      split at stepped
      · cases stepped
        exact (keeps_settle (keeps_go _ k i) i).points
      · cases stepped
  | fork i np pid =>
      simp only [act] at stepped
      split at stepped
      · obtain ⟨_, rfl⟩ := inUser_some stepped
        exact (keeps_fork pid np k i).points
      · cases stepped
  | exit i =>
      obtain ⟨_, rfl⟩ := inUser_some stepped
      exact (keeps_same rfl : Keeps k _).points
  | exitStep i =>
      simp only [act] at stepped
      split at stepped
      · cases stepped
        exact (keeps_exitStep _ k i).points
      · cases stepped
  | kill i =>
      cases Option.some.inj stepped
      exact (keeps_same rfl : Keeps k _).points
  | inode op =>
      obtain ⟨icache, _, rfl⟩ := Option.map_eq_some_iff.mp stepped
      exact (keeps_same rfl : Keeps k _).points

theorem step_some {k : Kernel} {e : Event} {taken : Note × Kernel}
    (stepped : step k e = some taken) : act k e = some taken := by
  unfold step at stepped
  split at stepped
  · cases stepped
  · exact stepped

/-- `f->ip` is the inode of the last file that was opened in the slot. -/
def Recycled (s : Kernel × Opened) : Prop := ∀ f, (s.1.file f).ip = s.2 f

theorem tracked_recycled (s : Kernel × Opened) (e : Event) (next : Kernel × Opened)
    (recycled : Recycled s) (stepped : tracked s e = some next) : Recycled next := by
  obtain ⟨taken, step, rfl⟩ := Option.map_eq_some_iff.mp stepped
  intro f
  refine (act_points s.1 e taken (step_some step) f).trans ?_
  have same : (fun f => (s.1.file f).ip) = s.2 := funext recycled
  rw [same]

/-! ## A call on a pipe -/

inductive Way where
  | read | write
  deriving DecidableEq

/-- The bit of the mode that the check wants. -/
def Way.bit : Way → Word
  | .read => 1
  | .write => 2

def Way.sys (answers : Answers) : Way → Kernel → Slot → Taken
  | .read => sys_read answers
  | .write => sys_write answers

def Way.file (answers : Answers) : Way → Kernel → Slot → FileSlot → Word → Int → Taken
  | .read => fileread answers
  | .write => filewrite answers

/-- fileread() or filewrite() with the arguments of the call and no check of the
mode. -/
def direct (answers : Answers) (way : Way) (k : Kernel) (i : Slot) : Taken :=
  onFile k i (way.file answers k i)

/-- The result, the pipes and the processes with their memory. -/
def view (taken : Taken) : Flow × (Word → Pipe) × (Slot → Proc) :=
  (taken.flow, taken.kernel.pipe, taken.kernel.proc)

/-- The same kernel with another inode in one file, and other modes. -/
def repoint (k : Kernel) (f : FileSlot) (ip : Option InodeSlot) (mode : InodeSlot → Word) :
    Kernel :=
  { k with
    file := k.file.set f { k.file f with ip := ip }
    icache := { k.icache with inode := fun s => { k.icache.inode s with mode := mode s } } }

/-- fileread() or filewrite() itself returns -1 and does nothing. -/
def Refuses (killed : Bool) (file : File) (p : Pipe) (n : Int) : Way → Prop
  | .read => file.readable = false ∨ p.empty ∧ p.writeopen = true ∧ killed = true
  | .write =>
      file.writable = false ∨ 0 < n ∧ p.full ∧ (p.readopen = false ∨ killed = true)

section Pipes
variable {k : Kernel} {i : Slot} {f : FileSlot} (answers : Answers) (way : Way)

theorem sys_eq : way.sys answers k i = onFile k i (checked way.bit k i (way.file answers k i)) := by
  cases way <;> rfl

theorem argbuf_bounds {p : Caller} {addr : Word} {n : Int} (asked : argbuf p = some (addr, n)) :
    0 ≤ n ∧ n < 2 ^ 31 := by
  obtain ⟨w, _, kept⟩ := Option.bind_eq_some_iff.mp asked
  split at kept
  · cases kept
  · rename_i low
    obtain ⟨_, _, same⟩ := Option.map_eq_some_iff.mp kept
    cases same
    have high := BitVec.toInt_lt (x := w)
    exact ⟨by omega, by omega⟩

/-- A stretch on a pipe that changes nothing. -/
theorem pipeTaken_still (call : PipeCall) (eax : Word) :
    view (pipeTaken k i call (.returned eax) (k.pipe call.page) (k.proc i).mem) =
      (.returned eax, k.pipe, k.proc) := by
  simp only [view, pipeTaken, Kernel.setProc, Kernel.setPipe]
  rw [Function.update_eq_self, Function.update_eq_self]

theorem pipeTaken_view (call : PipeCall) (flow : Flow) (p : Pipe) (mem : Memory) (eax : Word)
    (same : view (pipeTaken k i call flow p mem) = (.returned eax, k.pipe, k.proc)) :
    flow = .returned eax ∧ p = k.pipe call.page := by
  simp only [view, pipeTaken, Kernel.setProc, Kernel.setPipe, Prod.mk.injEq] at same
  obtain ⟨flow, pipes, _⟩ := same
  have here := congrFun pipes call.page
  rw [Function.update_self] at here
  exact ⟨flow, here⟩

theorem fileread_pipe (pipe : (k.file f).type = .FD_PIPE) (addr : Word) (n : Int) :
    fileread answers k i f addr n =
      if (k.file f).readable = false then ⟨.returned (-1), k, []⟩
      else PipeCall.go ⟨false, (k.file f).pipe, addr, n, 0⟩ k i := by
  simp only [fileread, pipe]

theorem filewrite_pipe (pipe : (k.file f).type = .FD_PIPE) (addr : Word) (n : Int) :
    filewrite answers k i f addr n =
      if (k.file f).writable = false then ⟨.returned (-1), k, []⟩
      else PipeCall.go ⟨true, (k.file f).pipe, addr, n, 0⟩ k i := by
  simp only [filewrite, pipe]

theorem go_read (page addr : Word) (n : Int) (small : n < 2 ^ 31) :
    view (PipeCall.go ⟨false, page, addr, n, 0⟩ k i) = (.returned (-1), k.pipe, k.proc) ↔
      (k.pipe page).empty ∧ (k.pipe page).writeopen = true ∧ (k.proc i).killed = true := by
  have fails := Pipe.piperead_fails_iff (k.proc i).killed addr n (k.pipe page) (k.proc i).mem small
  simp only [PipeCall.go, Bool.false_eq_true, if_false]
  constructor
  · intro same
    exact fails.mp (pipeTaken_view _ _ _ _ _ same).1
  · intro refuses
    have still := Pipe.piperead_failed (k.proc i).killed addr n (k.pipe page) (k.proc i).mem
      ⟨refuses.1, refuses.2.1⟩
    rw [fails.mpr refuses, still]
    exact pipeTaken_still _ _

theorem go_write (page addr : Word) (n : Int) (low : 0 ≤ n) (small : n < 2 ^ 31) :
    view (PipeCall.go ⟨true, page, addr, n, 0⟩ k i) = (.returned (-1), k.pipe, k.proc) ↔
      0 < n ∧ (k.pipe page).full ∧
        ((k.pipe page).readopen = false ∨ (k.proc i).killed = true) := by
  rw [← Pipe.pipewrite_fails_iff (k.proc i).killed (k.proc i).mem addr n (k.pipe page) low small]
  simp only [PipeCall.go, if_true]
  constructor
  · intro same
    obtain ⟨flow, pipe⟩ := pipeTaken_view _ _ _ _ _ same
    exact Prod.ext flow pipe
  · intro same
    rw [same]
    exact pipeTaken_still _ _

theorem file_refuses (pipe : (k.file f).type = .FD_PIPE) (addr : Word) (n : Int) (low : 0 ≤ n)
    (high : n < 2 ^ 31) :
    view (way.file answers k i f addr n) = (.returned (-1), k.pipe, k.proc) ↔
      Refuses (k.proc i).killed (k.file f) (k.pipe (k.file f).pipe) n way := by
  cases way with
  | read =>
      rw [Way.file, fileread_pipe answers pipe, Refuses]
      split
      · rename_i off
        simp [view, off]
      · rename_i on
        rw [go_read _ _ _ high]
        simp [on]
  | write =>
      rw [Way.file, filewrite_pipe answers pipe, Refuses]
      split
      · rename_i off
        simp [view, off]
      · rename_i on
        rw [go_write _ _ _ low high]
        simp [on]

theorem go_ends (call : PipeCall) : (call.go k i).flow ≠ .panics := by
  unfold PipeCall.go
  dsimp only
  split
  · exact Pipe.pipewrite_ends _ _ _ _ _ _
  · exact Pipe.piperead_ends _ _ _ _ _

theorem file_ends (pipe : (k.file f).type = .FD_PIPE) (addr : Word) (n : Int) :
    (way.file answers k i f addr n).flow ≠ .panics := by
  cases way with
  | read =>
      rw [Way.file, fileread_pipe answers pipe]
      split
      · simp
      · exact go_ends _
  | write =>
      rw [Way.file, filewrite_pipe answers pipe]
      split
      · simp
      · exact go_ends _

theorem repoint_file (ip : Option InodeSlot) (mode : InodeSlot → Word) :
    (repoint k f ip mode).file f = { k.file f with ip := ip } :=
  Function.update_self f _ _

theorem go_repoint (call : PipeCall) (ip : Option InodeSlot) (mode : InodeSlot → Word) :
    view (call.go (repoint k f ip mode) i) = view (call.go k i) := by
  unfold PipeCall.go
  dsimp only [repoint]
  split <;> rfl

theorem file_repoint (pipe : (k.file f).type = .FD_PIPE) (addr : Word) (n : Int)
    (ip : Option InodeSlot) (mode : InodeSlot → Word) :
    view (way.file answers (repoint k f ip mode) i f addr n) =
      view (way.file answers k i f addr n) := by
  have same := repoint_file (k := k) (f := f) ip mode
  have still : ((repoint k f ip mode).file f).type = .FD_PIPE := by rw [same]; exact pipe
  cases way with
  | read =>
      rw [Way.file, fileread_pipe answers still, fileread_pipe answers pipe, same]
      dsimp only
      split
      · rfl
      · exact go_repoint _ ip mode
  | write =>
      rw [Way.file, filewrite_pipe answers still, filewrite_pipe answers pipe, same]
      dsimp only
      split
      · rfl
      · exact go_repoint _ ip mode

/-! ## The check in front of it -/

theorem sys_unasked (unasked : argbuf (k.proc i).toCaller = none) :
    way.sys answers k i = ⟨.returned (-1), k, []⟩ ∧
      direct answers way k i = ⟨.returned (-1), k, []⟩ := by
  have neither : ∀ act, onFile k i act = ⟨.returned (-1), k, []⟩ := by
    intro act
    rw [onFile, unasked]
    cases argfd (k.proc i) 0 <;> rfl
  rw [sys_eq]
  exact ⟨neither _, neither _⟩

theorem sys_asked {d : Fin NOFILE} {addr : Word} {n : Int} (fd : argfd (k.proc i) 0 = some (d, f))
    (asked : argbuf (k.proc i).toCaller = some (addr, n)) :
    way.sys answers k i = checked way.bit k i (way.file answers k i) f addr n ∧
      direct answers way k i = way.file answers k i f addr n := by
  rw [sys_eq, direct, onFile, onFile, fd, asked]
  exact ⟨rfl, rfl⟩

theorem checked_fault (bit : Word) (call : FileSlot → Word → Int → Taken) (addr : Word) (n : Int)
    (fault : ipMode k i (k.file f).ip = none) :
    view (checked bit k i call f addr n) = (.panics, k.pipe, k.proc) := by
  rw [checked, fault]
  rfl

theorem checked_mode (bit : Word) (call : FileSlot → Word → Int → Taken) (addr : Word) (n : Int)
    {mode : Word} (found : ipMode k i (k.file f).ip = some mode) :
    view (checked bit k i call f addr n) =
      if mode &&& bit = 0 then (.returned (-1), k.pipe, k.proc) else view (call f addr n) := by
  rw [checked, found]
  dsimp only
  split <;> rfl

theorem checked_derefs (bit : Word) (call : FileSlot → Word → Int → Taken) (addr : Word)
    (n : Int) : (k.file f).ip ∈ (checked bit k i call f addr n).derefs := by
  rw [checked]
  cases ipMode k i (k.file f).ip with
  | none => exact List.mem_singleton_self _
  | some mode =>
      dsimp only
      split
      · exact List.mem_singleton_self _
      · exact List.mem_cons_self

/-- What the call does when a pointer `ip` is followed to this mode. -/
theorem checked_eq_file (pipe : (k.file f).type = .FD_PIPE) (addr : Word) (n : Int) (low : 0 ≤ n)
    (high : n < 2 ^ 31) :
    view (checked way.bit k i (way.file answers k i) f addr n) =
        view (way.file answers k i f addr n) ↔
      ∃ mode, ipMode k i (k.file f).ip = some mode ∧
        (mode &&& way.bit ≠ 0 ∨
          Refuses (k.proc i).killed (k.file f) (k.pipe (k.file f).pipe) n way) := by
  cases found : ipMode k i (k.file f).ip with
  | none =>
      rw [checked_fault _ _ _ _ found]
      constructor
      · intro same
        exact absurd (congrArg Prod.fst same).symm (file_ends answers way pipe addr n)
      · rintro ⟨mode, impossible, _⟩
        cases impossible
  | some mode =>
      rw [checked_mode _ _ _ _ found, ← file_refuses answers way pipe addr n low high]
      constructor
      · intro same
        refine ⟨mode, rfl, ?_⟩
        by_cases denied : mode &&& way.bit = 0
        · rw [if_pos denied] at same
          exact Or.inr same.symm
        · exact Or.inl denied
      · rintro ⟨mode', same, granted⟩
        cases same
        split
        · rename_i denied
          exact (granted.resolve_left (fun on => on denied)).symm
        · rfl

/-- A slot of the inode cache with a mode that lets nothing through. -/
theorem ipMode_repoint (slot : InodeSlot) (mode : InodeSlot → Word) :
    ipMode (repoint k f (some slot) mode) i ((repoint k f (some slot) mode).file f).ip =
      some (mode slot) := by
  rw [repoint_file]
  rfl

theorem ipMode_null (mode : InodeSlot → Word) :
    ipMode (repoint k f none mode) i ((repoint k f none mode).file f).ip =
      if (k.proc i).present (PGROUNDDOWN modeOffset) then
        some (loadWord (k.proc i).mem modeOffset)
      else none := by
  rw [repoint_file]
  rfl

theorem ipMode_present (present : (k.proc i).present (PGROUNDDOWN modeOffset) = true)
    (ip : Option InodeSlot) : ∃ mode, ipMode k i ip = some mode := by
  cases ip with
  | some slot => exact ⟨_, rfl⟩
  | none => exact ⟨_, if_pos present⟩

theorem checked_blind (pipe : (k.file f).type = .FD_PIPE) (addr : Word) (n : Int) (low : 0 ≤ n)
    (high : n < 2 ^ 31) :
    (∀ ip mode,
      view (checked way.bit (repoint k f ip mode) i
          (way.file answers (repoint k f ip mode) i) f addr n) =
        view (checked way.bit k i (way.file answers k i) f addr n)) ↔
      (k.proc i).present (PGROUNDDOWN modeOffset) = true ∧
        Refuses (k.proc i).killed (k.file f) (k.pipe (k.file f).pipe) n way := by
  rw [← file_refuses answers way pipe addr n low high]
  constructor
  · intro blind
    have on : (7 : Word) &&& way.bit ≠ 0 := by cases way <;> decide
    have off : (0 : Word) &&& way.bit = 0 := by cases way <;> decide
    have granted := blind (some 0) fun _ => 7
    rw [checked_mode _ _ _ _ (ipMode_repoint 0 _), if_neg on,
      file_repoint answers way pipe] at granted
    have denied := blind (some 0) fun _ => 0
    rw [checked_mode _ _ _ _ (ipMode_repoint 0 _), if_pos off, ← granted] at denied
    refine ⟨?_, denied.symm⟩
    by_contra absent
    have fault := blind none fun _ => 0
    rw [checked_fault _ _ _ _ ((ipMode_null _).trans (if_neg absent)), ← granted] at fault
    exact file_ends answers way pipe addr n (congrArg Prod.fst fault).symm
  · rintro ⟨present, refuses⟩ ip mode
    have first := file_repoint (i := i) answers way pipe addr n ip mode
    obtain ⟨before, found⟩ := ipMode_present present (k.file f).ip
    obtain ⟨after, other⟩ := ipMode_present (k := repoint k f ip mode) present
      ((repoint k f ip mode).file f).ip
    rw [checked_mode _ _ _ _ found, checked_mode _ _ _ _ other, first, refuses]
    split <;> split <;> rfl

end Pipes

/-! ## Every run -/

/-- What is promised of read() and write() on a pipe, the file `f`: they do what
fileread() and filewrite() do, whatever `f->ip` and the modes are, and leave that
pointer alone. -/
structure Promised (answers : Answers) (way : Way) (k : Kernel) (i : Slot) (f : FileSlot) :
    Prop where
  same : view (way.sys answers k i) = view (direct answers way k i)
  blind : ∀ ip mode,
    view (way.sys answers (repoint k f ip mode) i) = view (way.sys answers k i)
  untouched : (way.sys answers k i).derefs = []

theorem boot_recycled (disk : Word → Word → Dinode) : Recycled (boot disk, fun _ => none) :=
  fun _ => rfl

/-- In every run a call on a pipe is what is promised exactly when its arguments
are refused.  It does what fileread() and filewrite() do exactly when, besides
that, the mode of the inode last opened in the slot, or the word that a null
pointer leads to, has the bit, or can be read and the pipe refuses the call as
well; and only the refusal of the pipe makes it independent of that mode. -/
theorem pipe_call_iff (disk : Word → Word → Dinode) (es : List Event) (k : Kernel)
    (last : Opened) (ran : run tracked (boot disk, fun _ => none) es = some (k, last))
    (answers : Answers) (way : Way) (i : Slot) (d : Fin NOFILE) (f : FileSlot)
    (fd : argfd (k.proc i) 0 = some (d, f)) (pipe : (k.file f).type = .FD_PIPE) :
    (Promised answers way k i f ↔ argbuf (k.proc i).toCaller = none) ∧
    (view (way.sys answers k i) = view (direct answers way k i) ↔
      argbuf (k.proc i).toCaller = none ∨
      ∃ addr n mode, argbuf (k.proc i).toCaller = some (addr, n) ∧
        ipMode k i (last f) = some mode ∧
        (mode &&& way.bit ≠ 0 ∨
          Refuses (k.proc i).killed (k.file f) (k.pipe (k.file f).pipe) n way)) ∧
    ((∀ ip mode, view (way.sys answers (repoint k f ip mode) i) = view (way.sys answers k i)) ↔
      argbuf (k.proc i).toCaller = none ∨
      ∃ addr n, argbuf (k.proc i).toCaller = some (addr, n) ∧
        (k.proc i).present (PGROUNDDOWN modeOffset) = true ∧
        Refuses (k.proc i).killed (k.file f) (k.pipe (k.file f).pipe) n way) := by
  have recycled : Recycled (k, last) :=
    reachable_invariant tracked (boot_recycled disk) tracked_recycled ⟨es, ran⟩
  have ip : (k.file f).ip = last f := recycled f
  cases asked : argbuf (k.proc i).toCaller with
  | none =>
      have here := sys_unasked answers way asked
      have there : ∀ ip mode, view (way.sys answers (repoint k f ip mode) i) =
          view (way.sys answers k i) := by
        intro ip mode
        rw [here.1, (sys_unasked (k := repoint k f ip mode) (i := i) answers way asked).1]
        rfl
      have same : view (way.sys answers k i) = view (direct answers way k i) := by
        rw [here.1, here.2]
      refine ⟨⟨fun _ => rfl, fun _ => ⟨same, there, by rw [here.1]⟩⟩, ?_, ?_⟩
      · simp [same]
      · simp [there]
  | some buf =>
      obtain ⟨addr, n⟩ := buf
      obtain ⟨low, high⟩ := argbuf_bounds asked
      obtain ⟨sys, file⟩ := sys_asked answers way fd asked
      have moved : ∀ ip mode, way.sys answers (repoint k f ip mode) i =
          checked way.bit (repoint k f ip mode) i
            (way.file answers (repoint k f ip mode) i) f addr n :=
        fun ip mode => (sys_asked (k := repoint k f ip mode) answers way fd asked).1
      have followed : (way.sys answers k i).derefs ≠ [] := by
        rw [sys]
        exact List.ne_nil_of_mem (checked_derefs _ _ addr n)
      refine ⟨⟨fun promised => absurd promised.untouched followed, fun none => ?_⟩, ?_, ?_⟩
      · cases none
      · rw [sys, file, checked_eq_file answers way pipe addr n low high, ip]
        simp
      · simp only [moved, sys]
        rw [checked_blind answers way pipe addr n low high]
        simp

/-! ## A file of mode 0 under a pipe -/

/-- init makes a call with these arguments, the string "f" being at 100. -/
def calls (args : List Word) (call : FileCall) : List Event :=
  [.user 0 { esp := 4 }
      (overlay (overlay (fun _ => 0) 8 (args.flatMap wordBytes)) 100 (CString.bytes "f")),
    .call 0 call]

/-- init opens a file twice, gives it a mode, closes it twice and makes a pipe;
it is about to write one byte to the pipe. -/
def recycledRun (mode : Word) : List Event :=
  [.inode (.iget 1 5), .inode (.ilock 0)] ++ calls [100, O_RDWR] (.open (some 0)) ++
    [.inode (.iget 1 5), .inode (.ilock 0)] ++ calls [100, O_RDWR] (.open (some 0)) ++
    [.inode (.iget 1 5)] ++ calls [100, mode] (.chmod (some 0)) ++
    calls [0] .close ++ calls [1] .close ++ calls [200] .pipe ++
    [.pipeFinish 0 (some (4096, (boot fun _ _ => ⟨0, 0, 0⟩).pipe 4096))] ++
    (calls [1, 300, 1] .close).take 1

/-- An image in which the inode 5 is a file. -/
def smallDisk : Word → Word → Dinode := fun _ inum => if inum = 5 then ⟨2, 1, 7⟩ else ⟨0, 0, 0⟩

def noAnswers : Answers := ⟨(0, fun _ => 0), fun _ => 0⟩

theorem recycledRun_completes :
    (run tracked (boot smallDisk, fun _ => none) (recycledRun 0)).isSome = true := by
  decide +kernel

def recycled : Kernel × Opened :=
  (run tracked (boot smallDisk, fun _ => none) (recycledRun 0)).get recycledRun_completes

/-- Descriptor 1 is the write end of the pipe, in slot 1 of `ftable`. -/
theorem recycled_fd : argfd (recycled.1.proc 0) 0 = some (1, 1) := by decide +kernel

theorem recycled_pipe : (recycled.1.file 1).type = .FD_PIPE := by decide +kernel

theorem recycled_flows :
    (sys_write noAnswers recycled.1 0).flow = .returned (-1) ∧
      (direct noAnswers .write recycled.1 0).flow = .returned 1 ∧
      (sys_write noAnswers recycled.1 0).derefs = [some 0] := by
  decide +kernel

theorem pipe_call_iff_recycledRun :
    (Promised noAnswers .write recycled.1 0 1 ↔ argbuf (recycled.1.proc 0).toCaller = none) ∧
    (view (Way.write.sys noAnswers recycled.1 0) = view (direct noAnswers .write recycled.1 0) ↔
      argbuf (recycled.1.proc 0).toCaller = none ∨
      ∃ addr n mode, argbuf (recycled.1.proc 0).toCaller = some (addr, n) ∧
        ipMode recycled.1 0 (recycled.2 1) = some mode ∧
        (mode &&& Way.write.bit ≠ 0 ∨
          Refuses (recycled.1.proc 0).killed (recycled.1.file 1)
            (recycled.1.pipe (recycled.1.file 1).pipe) n .write)) ∧
    ((∀ ip mode, view (Way.write.sys noAnswers (repoint recycled.1 1 ip mode) 0) =
        view (Way.write.sys noAnswers recycled.1 0)) ↔
      argbuf (recycled.1.proc 0).toCaller = none ∨
      ∃ addr n, argbuf (recycled.1.proc 0).toCaller = some (addr, n) ∧
        (recycled.1.proc 0).present (PGROUNDDOWN modeOffset) = true ∧
        Refuses (recycled.1.proc 0).killed (recycled.1.file 1)
          (recycled.1.pipe (recycled.1.file 1).pipe) n .write) :=
  pipe_call_iff smallDisk (recycledRun 0) recycled.1 recycled.2
    (Option.some_get recycledRun_completes).symm noAnswers .write 0 1 1 recycled_fd recycled_pipe

/-- The write of one byte to the pipe is denied for the mode 0 of a file that
nobody has open any more, and goes through after the same run with the mode 7. -/
theorem pipe_write_denied :
    run tracked (boot smallDisk, fun _ => none) (recycledRun 0) = some recycled ∧
    argfd (recycled.1.proc 0) 0 = some (1, 1) ∧ (recycled.1.file 1).type = .FD_PIPE ∧
    (Way.write.sys noAnswers recycled.1 0).flow = .returned (-1) ∧
    (direct noAnswers .write recycled.1 0).flow = .returned 1 ∧
    (Way.write.sys noAnswers recycled.1 0).derefs = [some 0] ∧
    ¬ Promised noAnswers .write recycled.1 0 1 ∧
    (run tracked (boot smallDisk, fun _ => none) (recycledRun 7)).map
      (fun s => (sys_write noAnswers s.1 0).flow) = some (.returned 1) := by
  obtain ⟨denied, through, followed⟩ := recycled_flows
  refine ⟨(Option.some_get recycledRun_completes).symm, recycled_fd, recycled_pipe, denied,
    through, followed, fun promised => ?_, by decide +kernel⟩
  have same : (Way.write.sys noAnswers recycled.1 0).flow =
      (direct noAnswers .write recycled.1 0).flow := congrArg Prod.fst promised.same
  have one : Flow.returned (-1) = .returned 1 := denied.symm.trans (same.trans through)
  exact absurd one (by decide)

end Xv6.Public1.PipeModes
