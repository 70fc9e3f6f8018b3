import Mathlib.Data.List.FinRange
import Xv6.Lib.Slots
import Xv6.Lib.Words

/-!
# The table of open files (file.c, the same in the three kernels)

`struct file`, and what filealloc(), filedup() and the part of fileclose() under
ftable.lock do to `ftable`.  Pointers into `ftable` and `icache` are slots.
-/

set_option autoImplicit false

namespace Xv6.Common

open Xv6.Lib
open Xv6.Lib.Words

abbrev NFILE : Nat := 100

abbrev NOFILE : Nat := 16

abbrev NINODE : Nat := 50

abbrev FileSlot := Fin NFILE

abbrev InodeSlot := Fin NINODE

-- Numerals for the slots of the two tables and the descriptors.
instance fileNeZero : @NeZero Nat Zero.ofOfNat0 NFILE := ⟨Nat.succ_ne_zero 99⟩

instance descriptorNeZero : @NeZero Nat Zero.ofOfNat0 NOFILE := ⟨Nat.succ_ne_zero 15⟩

instance inodeNeZero : @NeZero Nat Zero.ofOfNat0 NINODE := ⟨Nat.succ_ne_zero 49⟩

inductive FileType where
  | FD_NONE | FD_PIPE | FD_INODE
  deriving DecidableEq

structure File where
  type : FileType := .FD_NONE
  ref : Int := 0
  readable : Bool := false
  writable : Bool := false
  /-- The page of the pipe. -/
  pipe : Word := 0
  ip : Option InodeSlot := none
  off : Word := 0

abbrev FileTable := FileSlot → File

abbrev Descriptors := Fin NOFILE → Option FileSlot

namespace FileTable

def set (file : FileTable) (f : FileSlot) (value : File) : FileTable :=
  Function.update file f value

def findFree (file : FileTable) : Option FileSlot :=
  (List.finRange NFILE).find? fun f => decide ((file f).ref = 0)

/-- filealloc() once it has found the slot. -/
def claim (file : FileTable) (f : FileSlot) : FileTable := file.set f { file f with ref := 1 }

def filealloc (file : FileTable) : Option (FileSlot × FileTable) :=
  file.findFree.map fun f => (f, file.claim f)

/-- None is the panic. -/
def filedup (file : FileTable) (f : FileSlot) : Option FileTable :=
  if (file f).ref < 1 then none else some (file.set f { file f with ref := (file f).ref + 1 })

/-- fileclose() under ftable.lock: the table, and the copy `ff` when that was the
last reference.  None is the panic. -/
def drop (file : FileTable) (f : FileSlot) : Option (FileTable × Option File) :=
  if (file f).ref < 1 then none
  else
    let ref := (file f).ref - 1
    if ref > 0 then some (file.set f { file f with ref := ref }, none)
    else
      some (file.set f { file f with ref := 0, type := .FD_NONE },
        some { file f with ref := ref })

/-! The pointer to the inode outlives every one of these. -/

theorem set_ip (file : FileTable) (f : FileSlot) (value : File) (same : value.ip = (file f).ip)
    (j : FileSlot) : (file.set f value j).ip = (file j).ip :=
  Slots.update_observed File.ip file f value same j

theorem claim_ip (file : FileTable) (f j : FileSlot) : (file.claim f j).ip = (file j).ip := by
  refine set_ip file f _ ?_ j
  rfl

theorem filealloc_ip {file next : FileTable} {f : FileSlot}
    (allocated : file.filealloc = some (f, next)) (j : FileSlot) : (next j).ip = (file j).ip := by
  obtain ⟨found, _, same⟩ := Option.map_eq_some_iff.mp allocated
  cases same
  exact claim_ip file f j

theorem filedup_ip {file next : FileTable} {f : FileSlot} (dup : file.filedup f = some next)
    (j : FileSlot) : (next j).ip = (file j).ip := by
  unfold filedup at dup
  split at dup
  · cases dup
  · cases dup
    refine set_ip file f _ ?_ j
    rfl

theorem drop_ip {file next : FileTable} {f : FileSlot} {ff : Option File}
    (dropped : file.drop f = some (next, ff)) (j : FileSlot) : (next j).ip = (file j).ip := by
  unfold drop at dropped
  dsimp only at dropped
  split at dropped
  · cases dropped
  · split at dropped
    · cases dropped
      refine set_ip file f _ ?_ j
      rfl
    · cases dropped
      refine set_ip file f _ ?_ j
      rfl

end FileTable

def fdalloc (ofile : Descriptors) (f : FileSlot) : Option (Fin NOFILE × Descriptors) :=
  ((List.finRange NOFILE).find? fun fd => decide (ofile fd = none)).map fun fd =>
    (fd, Function.update ofile fd (some f))

end Xv6.Common
