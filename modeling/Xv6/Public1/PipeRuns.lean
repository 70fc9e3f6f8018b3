import Mathlib.Data.Fintype.Basic
import Xv6.Common.Pipe
import Xv6.Lib.Ring
import Xv6.Lib.Runs

/-!
# Pipes shared by many processes (xv6-public_1)

The calls of any number of processes on one pipe, in stretches that hold its lock.  A call
begins while its own end is open, and that end is closed when no call on it is going on: the
caller has a descriptor for it.  `accepted` and `delivered` are the history of what went
into the ring and came out of it.
-/

set_option autoImplicit false

namespace Xv6.Public1.PipeRuns

open Xv6.Common
open Xv6.Lib.Words

theorem pipesize_pos : 0 < PIPESIZE := Nat.succ_pos 511

/-! ## The code -/

/-- Whether pipewrite() comes to a wakeup of the readers before it sleeps or returns. -/
def pipewriteWakes (killed : Bool) (mem : Memory) (addr : Word) : Nat → Nat → Pipe → Bool
  | 0, _, _ => true
  | left + 1, i, p =>
      if p.full then
        if p.readopen = false ∨ killed = true then false else true
      else pipewriteWakes killed mem addr left (i + 1) (p.put (mem (addr + BitVec.ofNat 32 i)))

/-- Whether piperead() comes to its wakeup of the writers. -/
def pipereadWakes (p : Pipe) : Bool :=
  if p.empty ∧ p.writeopen = true then false else true

/-- The arguments of a call, with the memory of the caller. -/
structure Args where
  mem : Memory
  addr : Word
  n : Word

/-- `n` bytes, none if it is negative. -/
def Args.count (args : Args) : Nat := args.n.toInt.toNat

/-- A call that waits for the lock again; `asleep` until it is woken. -/
structure Call where
  write : Bool
  args : Args
  i : Nat
  asleep : Bool
  /-- What it has put into the pipe. -/
  sent : List Byte

section System
variable {P : Type}

structure Piece (P : Type) where
  owner : P
  bytes : List Byte

/-- A pipewrite() that has returned. -/
structure Written (P : Type) where
  owner : P
  args : Args
  ret : Word
  sent : List Byte

/-- A piperead() that has returned, with the memory and the pipe then. -/
structure Received (P : Type) where
  owner : P
  args : Args
  ret : Word
  mem : Memory
  bytes : List Byte
  pipe : Pipe

structure State (P : Type) where
  pipe : Pipe
  calls : P → Option Call
  killed : P → Bool
  accepted : List (Piece P)
  delivered : List (Piece P)
  written : List (Written P)
  received : List (Received P)
  /-- How often the page has been freed. -/
  freed : Nat

inductive Event (P : Type) where
  | call (p : P) (write : Bool) (args : Args)
  /-- A call that has been woken goes on. -/
  | resume (p : P)
  | kill (p : P)
  | close (writable : Bool)

def stream (pieces : List (Piece P)) : List Byte := pieces.flatMap Piece.bytes

/-- The bytes between two values of `nwrite`. -/
def putIn (before after : Pipe) : List Byte :=
  Lib.Ring.slice (pipesize_pos) after.data before.nwrite (after.nwrite - before.nwrite).toNat

/-- The bytes between two values of `nread`. -/
def takenOut (before after : Pipe) : List Byte :=
  Lib.Ring.slice (pipesize_pos) before.data before.nread (after.nread - before.nread).toNat

/-- wakeup() of the writers or of the readers. -/
def wakeup (write : Bool) (calls : P → Option Call) : P → Option Call := fun p =>
  (calls p).map fun call => if call.write = write then { call with asleep := false } else call

/-- `p->readopen` or `p->writeopen` -/
def isOpen (pipe : Pipe) (writable : Bool) : Bool :=
  if writable then pipe.writeopen else pipe.readopen

variable [DecidableEq P]

/-- A stretch of pipewrite() from byte `i` on. -/
def writeTurn (s : State P) (p : P) (args : Args) (i : Nat) (sent : List Byte) : State P :=
  let killed := s.killed p
  let (flow, pipe) := Pipe.pipewrite killed args.mem args.addr args.n.toInt i s.pipe
  let bytes := putIn s.pipe pipe
  let calls :=
    if pipewriteWakes killed args.mem args.addr (args.count - i) i s.pipe then
      wakeup false s.calls
    else s.calls
  let s := { s with pipe := pipe, accepted := s.accepted ++ [⟨p, bytes⟩] }
  match flow with
  | .returned eax =>
      { s with
        calls := Function.update calls p none
        written := s.written ++ [⟨p, args, eax, sent ++ bytes⟩] }
  | .sleeps i =>
      { s with calls := Function.update calls p (some ⟨true, args, i, true, sent ++ bytes⟩) }
  | .panics => s

/-- A stretch of piperead(). -/
def readTurn (s : State P) (p : P) (args : Args) : State P :=
  let (flow, pipe, mem) := Pipe.piperead (s.killed p) args.addr args.n.toInt s.pipe args.mem
  let bytes := takenOut s.pipe pipe
  let calls := if pipereadWakes s.pipe then wakeup true s.calls else s.calls
  let s := { s with pipe := pipe, delivered := s.delivered ++ [⟨p, bytes⟩] }
  match flow with
  | .returned eax =>
      { s with
        calls := Function.update calls p none
        received := s.received ++ [⟨p, args, eax, mem, bytes, pipe⟩] }
  | .sleeps i => { s with calls := Function.update calls p (some ⟨false, args, i, true, []⟩) }
  | .panics => s

def turn (s : State P) (p : P) (write : Bool) (args : Args) (i : Nat) (sent : List Byte) :
    State P :=
  if write then writeTurn s p args i sent else readTurn s p args

/-- kill() -/
def kill (s : State P) (p : P) : State P :=
  { s with
    killed := Function.update s.killed p true
    calls := Function.update s.calls p
      ((s.calls p).map fun call => { call with asleep := false }) }

/-- pipeclose(): the page goes back when both ends are closed. -/
def close (s : State P) (writable : Bool) : State P :=
  let pipe := s.pipe.pipeclose writable
  { s with
    pipe := pipe
    calls := wakeup (!writable) s.calls
    freed := if pipe.readopen = false ∧ pipe.writeopen = false then s.freed + 1 else s.freed }

/-- No call is going on at the end. -/
def idle [Fintype P] (s : State P) (writable : Bool) : Prop :=
  ∀ p, ∀ call ∈ s.calls p, call.write ≠ writable

instance [Fintype P] (s : State P) (writable : Bool) : Decidable (idle s writable) :=
  inferInstanceAs (Decidable (∀ _, ∀ _ ∈ _, _))

def step [Fintype P] (s : State P) : Event P → Option (State P)
  | .call p write args =>
      match s.calls p with
      | some _ => none
      | none => if isOpen s.pipe write then some (turn s p write args 0 []) else none
  | .resume p =>
      match s.calls p with
      | none => none
      | some call =>
          if call.asleep then none else some (turn s p call.write call.args call.i call.sent)
  | .kill p => some (kill s p)
  | .close writable =>
      if isOpen s.pipe writable = true ∧ idle s writable then some (close s writable) else none

/-- The pipe as pipealloc() makes it. -/
def start (p : Pipe) : State P where
  pipe := p.init
  calls := fun _ => none
  killed := fun _ => false
  accepted := []
  delivered := []
  written := []
  received := []
  freed := 0

end System

/-! ## The ring -/

theorem divides : PIPESIZE ∣ 2 ^ 32 := ⟨2 ^ 23, rfl⟩

abbrev slice (p : Pipe) (from_ : Word) (len : Nat) : List Byte :=
  Lib.Ring.slice (pipesize_pos) p.data from_ len

/-- The ring holds these bytes. -/
structure Holds (p : Pipe) (bytes : List Byte) : Prop where
  fits : bytes.length ≤ PIPESIZE
  nwrite : p.nwrite = p.nread + BitVec.ofNat 32 bytes.length
  cells : slice p p.nread bytes.length = bytes

/-- Nothing but the ring changes. -/
structure SameEnds (p p' : Pipe) : Prop where
  readopen : p'.readopen = p.readopen
  writeopen : p'.writeopen = p.writeopen

section Ring
variable {p p' : Pipe} {bytes : List Byte}

theorem Holds.small (holds : Holds p bytes) : bytes.length < 2 ^ 32 :=
  Nat.lt_of_le_of_lt holds.fits (by decide)

theorem Holds.size (holds : Holds p bytes) : (p.nwrite - p.nread).toNat = bytes.length := by
  rw [holds.nwrite, Lib.Ring.sub_start p.nread holds.small]

theorem Holds.empty_iff (holds : Holds p bytes) : p.empty ↔ bytes = [] := by
  rw [Pipe.empty, eq_comm, holds.nwrite, Lib.Ring.add_eq_self_iff p.nread holds.small,
    List.length_eq_zero_iff]

theorem Holds.full_iff (holds : Holds p bytes) : p.full ↔ bytes.length = PIPESIZE := by
  rw [Pipe.full, holds.nwrite, Lib.Ring.add_inj p.nread holds.small (by decide)]

theorem Holds.put (holds : Holds p bytes) (room : bytes.length < PIPESIZE) (c : Byte) :
    Holds (p.put c) (bytes ++ [c]) where
  fits := by
    rw [List.length_append]
    exact room
  nwrite := by
    rw [List.length_append, List.length_singleton, BitVec.ofNat_add, ← BitVec.add_assoc]
    exact congrArg (· + 1) holds.nwrite
  cells := by
    have stored : (p.put c).data = Function.update p.data
        (Lib.Ring.cell (pipesize_pos) (p.nread + BitVec.ofNat 32 bytes.length)) c := by
      rw [← holds.nwrite]
      rfl
    have nread : (p.put c).nread = p.nread := rfl
    rw [List.length_append, List.length_singleton, slice, stored, nread, Lib.Ring.slice_succ,
      Function.update_self, Lib.Ring.slice_update _ _ _ divides (Nat.le_refl _) room]
    exact congrArg (· ++ [c]) holds.cells

theorem Holds.take {c : Byte} (holds : Holds p (c :: bytes)) :
    Holds { p with nread := p.nread + 1 } bytes ∧ p.data (Pipe.index p.nread) = c := by
  obtain ⟨first, rest⟩ := List.cons.inj holds.cells
  refine ⟨⟨?_, ?_, rest⟩, first⟩
  · exact Nat.le_of_succ_le holds.fits
  · rw [holds.nwrite, List.length_cons, Lib.Ring.add_ofNat_succ]

theorem Holds.empty_slice (holds : Holds p []) : p.nwrite = p.nread :=
  holds.nwrite.trans (BitVec.add_zero _)

/-- What is in the ring behind the old bytes has been put in. -/
theorem putIn_eq {more : List Byte} (holds : Holds p bytes) (after : Holds p' (bytes ++ more))
    (nread : p'.nread = p.nread) : putIn p p' = more := by
  have small := after.small
  have cells := after.cells
  have nwrite := after.nwrite
  rw [List.length_append] at small cells nwrite
  rw [nread] at cells nwrite
  rw [BitVec.ofNat_add, ← BitVec.add_assoc, ← holds.nwrite] at nwrite
  rw [slice, Lib.Ring.slice_add, ← holds.nwrite] at cells
  rw [putIn, nwrite, Lib.Ring.sub_start p.nwrite (by omega)]
  exact (List.append_inj' cells (by simp)).2

/-- What is no longer in the ring in front of the new bytes has been taken out. -/
theorem takenOut_eq {first : List Byte} (holds : Holds p (first ++ bytes))
    (nread : p'.nread = p.nread + BitVec.ofNat 32 first.length) : takenOut p p' = first := by
  have small := holds.small
  have cells := holds.cells
  rw [List.length_append] at small cells
  rw [slice, Lib.Ring.slice_add] at cells
  rw [takenOut, nread, Lib.Ring.sub_start p.nread (by omega)]
  exact (List.append_inj cells (by simp)).1

theorem putIn_nil (holds : Holds p bytes) (nread : p'.nread = p.nread)
    (after : Holds p' bytes) : putIn p p' = [] :=
  putIn_eq holds (by rwa [List.append_nil]) nread

theorem load_cons (mem : Memory) (addr : Word) (i k : Nat) :
    mem (addr + BitVec.ofNat 32 i) :: load mem (addr + BitVec.ofNat 32 (i + 1)) k =
      load mem (addr + BitVec.ofNat 32 i) (k + 1) := by
  rw [Nat.add_comm k 1, load_append, BitVec.add_assoc, ← BitVec.ofNat_add]
  simp [load]

/-- How the loop of pipewrite() ends, with `k` of `left` bytes stored and `room` for them. -/
inductive WriteEnd (p : Pipe) (killed : Bool) (ret : Word) (left i room k : Nat) :
    Flow → Bool → Prop where
  | done (all : k = left) : WriteEnd p killed ret left i room k (.returned ret) true
  | fails (few : k < left) (full : k = room) (stop : p.readopen = false ∨ killed = true) :
      WriteEnd p killed ret left i room k (.returned (-1)) false
  | sleeps (few : k < left) (full : k = room) (goes : ¬ (p.readopen = false ∨ killed = true)) :
      WriteEnd p killed ret left i room k (.sleeps (i + k)) true

theorem WriteEnd.succ {killed : Bool} {ret : Word} {left i room k : Nat} {flow : Flow}
    {wakes : Bool} (same : p'.readopen = p.readopen)
    (ended : WriteEnd p' killed ret left (i + 1) room k flow wakes) :
    WriteEnd p killed ret (left + 1) i (room + 1) (k + 1) flow wakes := by
  cases ended with
  | done all => exact .done (by omega)
  | fails few full stop => exact .fails (by omega) (by omega) (same ▸ stop)
  | sleeps few full goes =>
      rw [Nat.add_assoc, Nat.add_comm 1 k]
      exact .sleeps (by omega) (by omega) (same ▸ goes)

theorem writeLoop_ends (killed : Bool) (mem : Memory) (addr : Word) (n : Int) (left i : Nat)
    (holds : Holds p bytes) :
    ∃ k, k ≤ left ∧
      Holds (Pipe.pipewriteLoop killed mem addr n left i p).2
        (bytes ++ load mem (addr + BitVec.ofNat 32 i) k) ∧
      (Pipe.pipewriteLoop killed mem addr n left i p).2.nread = p.nread ∧
      SameEnds p (Pipe.pipewriteLoop killed mem addr n left i p).2 ∧
      WriteEnd p killed (BitVec.ofInt 32 n) left i (PIPESIZE - bytes.length) k
        (Pipe.pipewriteLoop killed mem addr n left i p).1
        (pipewriteWakes killed mem addr left i p) := by
  have still : Holds p (bytes ++ load mem (addr + BitVec.ofNat 32 i) 0) := by
    rw [show load mem (addr + BitVec.ofNat 32 i) 0 = [] from rfl, List.append_nil]
    exact holds
  induction left generalizing i p bytes with
  | zero => exact ⟨0, Nat.le_refl 0, still, rfl, ⟨rfl, rfl⟩, .done rfl⟩
  | succ left ih =>
      unfold Pipe.pipewriteLoop pipewriteWakes
      by_cases full : p.full
      · have noRoom : 0 = PIPESIZE - bytes.length := by
          rw [holds.full_iff.mp full, Nat.sub_self]
        rw [if_pos full, if_pos full]
        refine ⟨0, Nat.zero_le _, ?_⟩
        by_cases stop : p.readopen = false ∨ killed = true
        · rw [if_pos stop, if_pos stop]
          exact ⟨still, rfl, ⟨rfl, rfl⟩, .fails (Nat.succ_pos _) noRoom stop⟩
        · rw [if_neg stop, if_neg stop]
          exact ⟨still, rfl, ⟨rfl, rfl⟩, .sleeps (Nat.succ_pos _) noRoom stop⟩
      · have fits := holds.fits
        have room : bytes.length < PIPESIZE :=
          Nat.lt_of_le_of_ne fits fun same => full (holds.full_iff.mpr same)
        rw [if_neg full, if_neg full]
        have stored := holds.put room (mem (addr + BitVec.ofNat 32 i))
        have again : Holds (p.put (mem (addr + BitVec.ofNat 32 i)))
            (bytes ++ [mem (addr + BitVec.ofNat 32 i)] ++
              load mem (addr + BitVec.ofNat 32 (i + 1)) 0) := by
          rw [show load mem (addr + BitVec.ofNat 32 (i + 1)) 0 = [] from rfl, List.append_nil]
          exact stored
        obtain ⟨k, few, after, nread, ends, ended⟩ := ih (i + 1) stored again
        refine ⟨k + 1, Nat.succ_le_succ few, ?_, nread, ⟨ends.readopen, ends.writeopen⟩, ?_⟩
        · rwa [List.append_assoc, List.singleton_append, load_cons] at after
        · have one : PIPESIZE - bytes.length =
              PIPESIZE - (bytes ++ [mem (addr + BitVec.ofNat 32 i)]).length + 1 := by
            rw [List.length_append, List.length_singleton]
            omega
          have readopen : (p.put (mem (addr + BitVec.ofNat 32 i))).readopen = p.readopen := rfl
          rw [one]
          exact ended.succ readopen

theorem overlay_cons (mem : Memory) (addr : Word) (c : Byte) (rest : List Byte)
    (small : rest.length < 2 ^ 32) :
    overlay (Function.update mem addr c) (addr + 1) rest = overlay mem addr (c :: rest) := by
  have one : Function.update mem addr c = overlay mem addr [c] := by
    funext x
    by_cases here : x = addr
    · subst here
      simp [overlay]
    · have far : (x - addr).toNat ≠ 0 := by
        intro zero
        exact here (by bv_omega)
      rw [Function.update_of_ne here, overlay,
        List.getD_eq_default _ _ (by simpa using Nat.one_le_iff_ne_zero.mpr far)]
  have joined := overlay_append mem addr [c] rest (by simp; omega)
  rw [one]
  exact joined

/-- The copying loop takes as many bytes as there are, up to `left`. -/
theorem readLoop_ends (addr : Word) (left i : Nat) (mem : Memory) (holds : Holds p bytes) :
    Pipe.pipereadLoop addr left i p mem =
      (i + (bytes.take left).length,
        { p with nread := p.nread + BitVec.ofNat 32 (bytes.take left).length },
        overlay mem (addr + BitVec.ofNat 32 i) (bytes.take left)) ∧
      Holds { p with nread := p.nread + BitVec.ofNat 32 (bytes.take left).length }
        (bytes.drop left) := by
  have none : { p with nread := p.nread + BitVec.ofNat 32 0 } = p := by
    rw [show p.nread + BitVec.ofNat 32 0 = p.nread from BitVec.add_zero _]
  induction left generalizing i p mem bytes with
  | zero =>
      rw [List.take_zero, List.drop_zero, List.length_nil, none, overlay_nil]
      exact ⟨rfl, holds⟩
  | succ left ih =>
      unfold Pipe.pipereadLoop
      cases bytes with
      | nil =>
          rw [if_pos (holds.empty_iff.mpr rfl), List.take_nil, List.drop_nil, List.length_nil,
            none, overlay_nil]
          exact ⟨rfl, holds⟩
      | cons c rest =>
          obtain ⟨after, first⟩ := holds.take
          have some : ¬ p.empty := fun empty => by cases holds.empty_iff.mp empty
          have small : (rest.take left).length < 2 ^ 32 :=
            Nat.lt_of_le_of_lt (List.length_take_le' left rest) after.small
          have still : { p with nread := p.nread + 1 + BitVec.ofNat 32 0 } =
              { p with nread := p.nread + 1 } := by
            rw [show p.nread + 1 + BitVec.ofNat 32 0 = p.nread + 1 from BitVec.add_zero _]
          obtain ⟨loop, left_⟩ := ih (i + 1)
            (Function.update mem (addr + BitVec.ofNat 32 i) (p.data (Pipe.index p.nread))) after
            still
          have next : addr + BitVec.ofNat 32 (i + 1) = addr + BitVec.ofNat 32 i + 1 := by
            rw [BitVec.ofNat_add, ← BitVec.add_assoc]
            rfl
          rw [if_neg some, loop, List.take_succ_cons, List.drop_succ_cons, List.length_cons,
            Lib.Ring.add_ofNat_succ p.nread, next, overlay_cons _ _ _ _ small, first]
          refine ⟨?_, left_⟩
          rw [Nat.add_assoc, Nat.add_comm 1]

end Ring

/-! ## What a stretch does -/

section Turns
variable {P : Type} [DecidableEq P] {s : State P} {bytes : List Byte}

/-- A stretch of pipewrite() that has put in `k` bytes. -/
structure Stored (s : State P) (p : P) (args : Args) (i k : Nat) (sent : List Byte) (pipe : Pipe)
    (calls : P → Option Call) (call : Option Call) (written : List (Written P)) (s' : State P) :
    Prop where
  pipe : s'.pipe = pipe
  calls : s'.calls = Function.update calls p call
  killed : s'.killed = s.killed
  accepted : s'.accepted =
    s.accepted ++ [⟨p, load args.mem (args.addr + BitVec.ofNat 32 i) k⟩]
  delivered : s'.delivered = s.delivered
  written : s'.written = s.written ++ written
  received : s'.received = s.received
  freed : s'.freed = s.freed

theorem writeTurn_ends (p : P) (args : Args) (i : Nat) (sent : List Byte)
    (holds : Holds s.pipe bytes) :
    ∃ k pipe, k ≤ args.count - i ∧
      Holds pipe (bytes ++ load args.mem (args.addr + BitVec.ofNat 32 i) k) ∧
      SameEnds s.pipe pipe ∧
      (k = args.count - i ∧
          Stored s p args i k sent pipe (wakeup false s.calls) none
            [⟨p, args, args.n, sent ++ load args.mem (args.addr + BitVec.ofNat 32 i) k⟩]
            (writeTurn s p args i sent) ∨
        k < args.count - i ∧ k = PIPESIZE - bytes.length ∧
            (s.pipe.readopen = false ∨ s.killed p = true) ∧
          Stored s p args i k sent pipe s.calls none
            [⟨p, args, -1, sent ++ load args.mem (args.addr + BitVec.ofNat 32 i) k⟩]
            (writeTurn s p args i sent) ∨
        k < args.count - i ∧ k = PIPESIZE - bytes.length ∧
            ¬ (s.pipe.readopen = false ∨ s.killed p = true) ∧
          Stored s p args i k sent pipe (wakeup false s.calls)
            (some ⟨true, args, i + k, true,
              sent ++ load args.mem (args.addr + BitVec.ofNat 32 i) k⟩) []
            (writeTurn s p args i sent)) := by
  obtain ⟨k, few, after, nread, ends, ended⟩ := writeLoop_ends (s.killed p) args.mem args.addr
    args.n.toInt (args.count - i) i holds
  have bytesIn := putIn_eq holds after nread
  have call : Pipe.pipewrite (s.killed p) args.mem args.addr args.n.toInt i s.pipe =
    Pipe.pipewriteLoop (s.killed p) args.mem args.addr args.n.toInt (args.count - i) i s.pipe := rfl
  refine ⟨k, _, few, after, ends, ?_⟩
  have ret : BitVec.ofInt 32 args.n.toInt = args.n := BitVec.ofInt_toInt
  rw [ret] at ended
  unfold writeTurn
  dsimp only
  rw [call, bytesIn]
  generalize (Pipe.pipewriteLoop _ _ _ _ _ _ _).1 = flow at ended ⊢
  generalize pipewriteWakes _ _ _ _ _ _ = wakes at ended ⊢
  cases ended with
  | done all => exact Or.inl ⟨all, ⟨rfl, rfl, rfl, rfl, rfl, rfl, rfl, rfl⟩⟩
  | fails few full stop =>
      exact Or.inr (Or.inl ⟨few, full, stop, ⟨rfl, rfl, rfl, rfl, rfl, rfl, rfl, rfl⟩⟩)
  | sleeps few full goes =>
      exact Or.inr (Or.inr ⟨few, full, goes,
        ⟨rfl, rfl, rfl, rfl, rfl, (List.append_nil _).symm, rfl, rfl⟩⟩)

/-- A stretch of piperead() that has taken these bytes. -/
structure Taken (s : State P) (p : P) (bytes : List Byte) (pipe : Pipe)
    (calls : P → Option Call) (call : Option Call) (received : List (Received P)) (s' : State P) :
    Prop where
  pipe : s'.pipe = pipe
  calls : s'.calls = Function.update calls p call
  killed : s'.killed = s.killed
  accepted : s'.accepted = s.accepted
  delivered : s'.delivered = s.delivered ++ [⟨p, bytes⟩]
  written : s'.written = s.written
  received : s'.received = s.received ++ received
  freed : s'.freed = s.freed

theorem readTurn_ends (p : P) (args : Args) (holds : Holds s.pipe bytes) :
    (bytes = [] ∧ s.pipe.writeopen = true ∧ s.killed p = true ∧
        Taken s p [] s.pipe s.calls none [⟨p, args, -1, args.mem, [], s.pipe⟩]
          (readTurn s p args) ∨
      bytes = [] ∧ s.pipe.writeopen = true ∧ s.killed p = false ∧
        Taken s p [] s.pipe s.calls (some ⟨false, args, 0, true, []⟩) [] (readTurn s p args) ∨
      ¬ (bytes = [] ∧ s.pipe.writeopen = true) ∧ ∃ pipe, Holds pipe (bytes.drop args.count) ∧
        SameEnds s.pipe pipe ∧
        Taken s p (bytes.take args.count) pipe (wakeup true s.calls) none
          [⟨p, args, BitVec.ofNat 32 (bytes.take args.count).length,
            overlay args.mem args.addr (bytes.take args.count), bytes.take args.count, pipe⟩]
          (readTurn s p args)) := by
  have empty := holds.empty_iff
  by_cases waits : s.pipe.empty ∧ s.pipe.writeopen = true
  · have nothing : takenOut s.pipe s.pipe = [] :=
      takenOut_eq holds (BitVec.add_zero _).symm
    have still : pipereadWakes s.pipe = false := if_pos waits
    cases killed : s.killed p with
    | true =>
        have call : Pipe.piperead true args.addr args.n.toInt s.pipe args.mem =
          (.returned (-1), s.pipe, args.mem) := if_pos waits
        unfold readTurn
        rw [killed, call]
        dsimp only
        rw [nothing, still]
        exact Or.inl ⟨empty.mp waits.1, waits.2, rfl,
          ⟨rfl, rfl, rfl, rfl, rfl, rfl, rfl, rfl⟩⟩
    | false =>
        have call : Pipe.piperead false args.addr args.n.toInt s.pipe args.mem =
          (.sleeps 0, s.pipe, args.mem) := if_pos waits
        unfold readTurn
        rw [killed, call]
        dsimp only
        rw [nothing, still]
        exact Or.inr (Or.inl ⟨empty.mp waits.1, waits.2, rfl,
          ⟨rfl, rfl, rfl, rfl, rfl, rfl, (List.append_nil _).symm, rfl⟩⟩)
  · obtain ⟨loop, after⟩ := readLoop_ends args.addr args.count 0 args.mem holds
    have wakes : pipereadWakes s.pipe = true := if_neg waits
    have addr : args.addr + BitVec.ofNat 32 0 = args.addr := BitVec.add_zero _
    rw [Nat.zero_add, addr] at loop
    have call : Pipe.piperead (s.killed p) args.addr args.n.toInt s.pipe args.mem =
        (.returned (BitVec.ofNat 32 (bytes.take args.count).length),
          { s.pipe with
            nread := s.pipe.nread + BitVec.ofNat 32 (bytes.take args.count).length },
          overlay args.mem args.addr (bytes.take args.count)) := by
      have body : Pipe.pipereadLoop args.addr args.n.toInt.toNat 0 s.pipe args.mem = _ := loop
      rw [Pipe.piperead, if_neg waits, body]
    have whole : Holds s.pipe (bytes.take args.count ++ bytes.drop args.count) := by
      rwa [List.take_append_drop]
    have out : takenOut s.pipe { s.pipe with
        nread := s.pipe.nread + BitVec.ofNat 32 (bytes.take args.count).length } =
        bytes.take args.count := takenOut_eq whole rfl
    refine Or.inr (Or.inr ⟨fun both => waits ⟨empty.mpr both.1, both.2⟩, _, after,
      ⟨rfl, rfl⟩, ?_⟩)
    unfold readTurn
    rw [call]
    dsimp only
    rw [out, wakes]
    exact ⟨rfl, rfl, rfl, rfl, rfl, rfl, rfl, rfl⟩

end Turns

end Xv6.Public1.PipeRuns
