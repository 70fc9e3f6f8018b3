import Mathlib.Algebra.Group.Int.Defs
import Mathlib.Logic.Function.Basic
import Xv6.Lib.Words

/-!
# Pipes (pipe.c, the same in the three kernels)

The ring of a pipe and the stretches of piperead() and pipewrite() that hold
its lock: from the entry, or from the return of sleep(), to the next sleep() or
the return.  What a sleeping call has still to do is in its `Flow`.
-/

set_option autoImplicit false

namespace Xv6.Common

open Xv6.Lib.Words

def PIPESIZE : Nat := 512

structure Pipe where
  data : Fin PIPESIZE → Byte
  nread : Word
  nwrite : Word
  readopen : Bool
  writeopen : Bool

/-- How a stretch of a system call ends. -/
inductive Flow where
  | returned (eax : Word)
  /-- sleep() with so many bytes moved. -/
  | sleeps (i : Nat)
  | panics
  deriving DecidableEq

namespace Pipe

/-- `n % PIPESIZE` -/
def index (n : Word) : Fin PIPESIZE := ⟨n.toNat % PIPESIZE, Nat.mod_lt _ (by decide)⟩

/-- The part of the page that pipealloc() sets. -/
def init (p : Pipe) : Pipe :=
  { p with nread := 0, nwrite := 0, readopen := true, writeopen := true }

/-- pipeclose() but for the release of the page after both ends are closed. -/
def pipeclose (p : Pipe) (writable : Bool) : Pipe :=
  if writable then { p with writeopen := false } else { p with readopen := false }

def empty (p : Pipe) : Prop := p.nread = p.nwrite

def full (p : Pipe) : Prop := p.nwrite = p.nread + BitVec.ofNat 32 PIPESIZE

instance (p : Pipe) : Decidable p.empty := inferInstanceAs (Decidable (_ = _))

instance (p : Pipe) : Decidable p.full := inferInstanceAs (Decidable (_ = _))

/-! ## pipewrite() -/

def put (p : Pipe) (c : Byte) : Pipe :=
  { p with data := Function.update p.data (index p.nwrite) c, nwrite := p.nwrite + 1 }

/-- The loop of pipewrite() for the `left` bytes from `i` on. -/
def pipewriteLoop (killed : Bool) (mem : Memory) (addr : Word) (n : Int) :
    Nat → Nat → Pipe → Flow × Pipe
  | 0, _, p => (.returned (BitVec.ofInt 32 n), p)
  | left + 1, i, p =>
      if p.full then
        if p.readopen = false ∨ killed = true then (.returned (-1), p) else (.sleeps i, p)
      else pipewriteLoop killed mem addr n left (i + 1) (p.put (mem (addr + BitVec.ofNat 32 i)))

/-- pipewrite() from the byte `i` on. -/
def pipewrite (killed : Bool) (mem : Memory) (addr : Word) (n : Int) (i : Nat) (p : Pipe) :
    Flow × Pipe :=
  pipewriteLoop killed mem addr n (n.toNat - i) i p

/-- The loop ends with a number of bytes more in the pipe: all of them, or fewer
and then it sleeps or fails. -/
theorem pipewriteLoop_moved (killed : Bool) (mem : Memory) (addr : Word) (n : Int)
    (left i : Nat) (p : Pipe) :
    ∃ moved ≤ left,
      (pipewriteLoop killed mem addr n left i p).2.nwrite = p.nwrite + BitVec.ofNat 32 moved ∧
        ((pipewriteLoop killed mem addr n left i p).1 = .returned (BitVec.ofInt 32 n) ∧
            moved = left ∨
          (pipewriteLoop killed mem addr n left i p).1 = .returned (-1) ∨
          (pipewriteLoop killed mem addr n left i p).1 = .sleeps (i + moved)) := by
  induction left generalizing i p with
  | zero => exact ⟨0, Nat.le_refl 0, (BitVec.add_zero _).symm, Or.inl ⟨rfl, rfl⟩⟩
  | succ left ih =>
      unfold pipewriteLoop
      by_cases full : p.full
      · rw [if_pos full]
        have stays : p.nwrite = p.nwrite + BitVec.ofNat 32 0 := (BitVec.add_zero _).symm
        split
        · exact ⟨0, by omega, stays, Or.inr (Or.inl rfl)⟩
        · exact ⟨0, by omega, stays, Or.inr (Or.inr rfl)⟩
      · rw [if_neg full]
        obtain ⟨moved, few, nwrite, ends⟩ := ih (i + 1) (p.put (mem (addr + BitVec.ofNat 32 i)))
        refine ⟨moved + 1, by omega, ?_, ?_⟩
        · rw [nwrite, put, Nat.add_comm moved 1, BitVec.ofNat_add, BitVec.add_assoc]
          rfl
        · rw [show i + (moved + 1) = i + 1 + moved by omega]
          rcases ends with ⟨all, same⟩ | ends
          · exact Or.inl ⟨all, by omega⟩
          · exact Or.inr ends

/-! ## piperead() -/

/-- The copying loop of piperead(): the bytes moved, and what they are moved
from and to. -/
def pipereadLoop (addr : Word) : Nat → Nat → Pipe → Memory → Nat × Pipe × Memory
  | 0, i, p, mem => (i, p, mem)
  | left + 1, i, p, mem =>
      if p.empty then (i, p, mem)
      else
        pipereadLoop addr left (i + 1) { p with nread := p.nread + 1 }
          (Function.update mem (addr + BitVec.ofNat 32 i) (p.data (index p.nread)))

def piperead (killed : Bool) (addr : Word) (n : Int) (p : Pipe) (mem : Memory) :
    Flow × Pipe × Memory :=
  if p.empty ∧ p.writeopen = true then
    if killed then (.returned (-1), p, mem) else (.sleeps 0, p, mem)
  else
    let moved := pipereadLoop addr n.toNat 0 p mem
    (.returned (BitVec.ofNat 32 moved.1), moved.2)

theorem pipereadLoop_moved (addr : Word) (left i : Nat) (p : Pipe) (mem : Memory) :
    i ≤ (pipereadLoop addr left i p mem).1 ∧ (pipereadLoop addr left i p mem).1 ≤ i + left := by
  induction left generalizing i p mem with
  | zero => exact ⟨Nat.le_refl i, Nat.le_refl i⟩
  | succ left ih =>
      unfold pipereadLoop
      split
      · exact ⟨Nat.le_refl i, Nat.le_add_right i _⟩
      · obtain ⟨low, high⟩ := ih (i + 1) { p with nread := p.nread + 1 }
          (Function.update mem (addr + BitVec.ofNat 32 i) (p.data (index p.nread)))
        omega

/-! ## How a call ends -/

theorem pipewrite_ends (killed : Bool) (mem : Memory) (addr : Word) (n : Int) (i : Nat)
    (p : Pipe) : (pipewrite killed mem addr n i p).1 ≠ .panics := by
  obtain ⟨moved, _, _, ends⟩ := pipewriteLoop_moved killed mem addr n (n.toNat - i) i p
  rcases ends with ⟨all, _⟩ | failed | sleeps
  · simp [pipewrite, all]
  · simp [pipewrite, failed]
  · simp [pipewrite, sleeps]

theorem piperead_ends (killed : Bool) (addr : Word) (n : Int) (p : Pipe) (mem : Memory) :
    (piperead killed addr n p mem).1 ≠ .panics := by
  unfold piperead
  split
  · split <;> simp
  · simp

/-- piperead() returns -1, and then it has moved nothing. -/
theorem piperead_fails_iff (killed : Bool) (addr : Word) (n : Int) (p : Pipe) (mem : Memory)
    (small : n < 2 ^ 31) :
    (piperead killed addr n p mem).1 = .returned (-1) ↔
      p.empty ∧ p.writeopen = true ∧ killed = true := by
  unfold piperead
  split
  · rename_i waits
    cases killed with
    | true => simp [waits]
    | false => simp
  · rename_i waits
    obtain ⟨_, high⟩ := pipereadLoop_moved addr n.toNat 0 p mem
    have notFailed : BitVec.ofNat 32 (pipereadLoop addr n.toNat 0 p mem).1 ≠ -1 := by
      intro failed
      have value := congrArg BitVec.toNat failed
      rw [BitVec.toNat_ofNat, Nat.mod_eq_of_lt (by omega)] at value
      have top : (-1 : Word).toNat = 4294967295 := by decide
      omega
    constructor
    · intro failed
      exact absurd (Flow.returned.inj failed) notFailed
    · rintro ⟨empty, open_, _⟩
      exact absurd ⟨empty, open_⟩ waits

theorem piperead_failed (killed : Bool) (addr : Word) (n : Int) (p : Pipe) (mem : Memory)
    (waits : p.empty ∧ p.writeopen = true) :
    (piperead killed addr n p mem).2 = (p, mem) := by
  rw [piperead, if_pos waits]
  split <;> rfl

/-- pipewrite() returns -1 and has moved nothing. -/
theorem pipewrite_fails_iff (killed : Bool) (mem : Memory) (addr : Word) (n : Int) (p : Pipe)
    (low : 0 ≤ n) (small : n < 2 ^ 31) :
    pipewrite killed mem addr n 0 p = (.returned (-1), p) ↔
      0 < n ∧ p.full ∧ (p.readopen = false ∨ killed = true) := by
  have whole : BitVec.ofInt 32 n ≠ -1 := by
    intro failed
    have value := congrArg BitVec.toInt failed
    have top : (-1 : Word).toInt = -1 := by decide
    rw [BitVec.toInt_ofInt, top] at value
    have same := Int.bmod_eq_of_le (n := n) (m := 2 ^ 32) (by omega) (by omega)
    omega
  unfold pipewrite
  cases count : n.toNat - 0 with
  | zero =>
      constructor
      · intro failed
        exact absurd (Flow.returned.inj (congrArg Prod.fst failed)) whole
      · rintro ⟨positive, _⟩
        omega
  | succ left =>
      have positive : 0 < n := by omega
      unfold pipewriteLoop
      by_cases full : p.full
      · rw [if_pos full]
        split
        · rename_i stop
          simp [positive, full, stop]
        · rename_i stop
          simp [stop]
      · rw [if_neg full]
        constructor
        · intro failed
          obtain ⟨moved, few, nwrite, _⟩ := pipewriteLoop_moved killed mem addr n left 1
            (p.put (mem (addr + BitVec.ofNat 32 0)))
          rw [failed, put] at nwrite
          have value := congrArg BitVec.toNat nwrite
          have one : (1 : Word).toNat = 1 := rfl
          simp only [BitVec.toNat_add, BitVec.toNat_ofNat, one] at value
          have bound := p.nwrite.isLt
          omega
        · rintro ⟨_, is, _⟩
          exact absurd is full

end Pipe

end Xv6.Common
