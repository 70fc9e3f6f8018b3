import Xv6.Common.Console
import Xv6.Lib.LockOrder
import Xv6.Lib.Runs
import Xv6.Public2.ProcTable

/-!
# ptable.lock and cons.lock (xv6-public_2)

The paths of exit(), wakeup(), cprintf() and consoleintr() as the operations they
do on the two locks.  exit() prints under ptable.lock, and consoleintr() takes
ptable.lock under cons.lock, in the Ctrl-C branch and in the wakeup() of a
completed line.
-/

set_option autoImplicit false

namespace Xv6.Public2.ConsoleLocks

open Xv6.Common
open Xv6.Lib.LockOrder
open Xv6.Lib.Runs
open Xv6.Lib.Words
open Xv6.Public2.ProcTable

inductive Lock where
  | ptable | cons
  deriving DecidableEq

/-- The local variables of consoleintr() that outlive a character. -/
structure Flags where
  doprocdump : Bool := false
  ctrlB : Bool := false
  ctrlF : Bool := false
  deriving DecidableEq

/-- A path; its code is the while loop of consoleintr() before a getc(). -/
abbrev Path := List (Op Lock Flags)

/-- The loop runs inside of cons.lock. -/
def inside : Flags → Lock → Prop := fun _ l => l = .cons

structure Machine where
  /-- The CPU that has the lock. -/
  holder : Lock → Option Cpu
  path : Cpu → Path
  input : Input
  /-- `cons.locking` -/
  locking : Bool

inductive Call where
  | exit | wakeup | cprintf | consoleintr
  deriving DecidableEq

def wakeup : Path := [.acquire .ptable, .release .ptable]

def cprintf (locking : Bool) : Path :=
  if locking then [.acquire .cons, .release .cons] else []

/-- exit() from the lock to the release by scheduler(); closing the files before
that makes calls of wakeup() only. -/
def exit (locking : Bool) : Path := .acquire .ptable :: cprintf locking ++ [.release .ptable]

def consoleintr : Path := [.acquire .cons, .code {}]

def Call.path (locking : Bool) : Call → Path
  | .exit => ConsoleLocks.exit locking
  | .wakeup => ConsoleLocks.wakeup
  | .cprintf => ConsoleLocks.cprintf locking
  | .consoleintr => ConsoleLocks.consoleintr

/-- The characters with a branch of their own that takes no lock. -/
def quietKeys : List Byte := [C 'P', C 'U', C 'H', delete, C 'B', C 'F', C 'G']

/-- The character makes consoleintr() take ptable.lock. -/
def takesPtable (input : Input) (c : Byte) : Prop :=
  c = C 'C' ∨ c ∉ quietKeys ∧ input.commits c

instance (input : Input) (c : Byte) : Decidable (takesPtable input c) :=
  inferInstanceAs (Decidable (_ ∨ _))

/-- The switch of consoleintr(): the ring and the flags after a character, and
the operations before the next getc(). -/
def consoleKey (input : Input) (flags : Flags) (c : Byte) : Input × Flags × Path :=
  if c = C 'P' then (input, { flags with doprocdump := true }, [])
  else if c = C 'U' then (input.killLine, flags, [])
  else if c = C 'H' ∨ c = delete then (input.backspace, flags, [])
  else if c = C 'C' then (input, flags, [.acquire .ptable, .release .ptable])
  else if c = C 'B' then (input, { flags with ctrlB := true }, [])
  else if c = C 'F' then (input, { flags with ctrlF := true }, [])
  else if c = C 'G' then (input, flags, [])
  else (input.typed c, flags, if input.commits c then wakeup else [])

/-- consoleintr() after the loop: procdump() makes `lines` calls of cprintf(), and
`shell` tells whether the Ctrl-B branch finds pid 2. -/
def consoleEnd (locking : Bool) (lines : Nat) (shell : Bool) (flags : Flags) : Path :=
  .release .cons ::
    ((if flags.doprocdump then (List.replicate lines (cprintf locking)).flatten else []) ++
      if flags.ctrlB then cprintf locking ++ wakeup ++ if shell then wakeup else []
      else if flags.ctrlF then cprintf locking ++ wakeup
      else [])

inductive Event where
  /-- A call by the process on the CPU or, but for exit(), by an interrupt. -/
  | call (c : Cpu) (call : Call)
  /-- The acquisition or release that the CPU has come to. -/
  | lock (c : Cpu)
  /-- getc() yields a character. -/
  | key (c : Cpu) (ch : Byte)
  /-- getc() yields -1. -/
  | noKey (c : Cpu) (lines : Nat) (shell : Bool)
  /-- consoleread() has taken characters. -/
  | consoleread (taken : Nat)

/-- The CPU has the lock. -/
def Machine.holds (m : Machine) (c : Cpu) (l : Lock) : Prop := m.holder l = some c

instance (m : Machine) (c : Cpu) (l : Lock) : Decidable (m.holds c l) :=
  inferInstanceAs (Decidable (_ = _))

def Machine.setPath (m : Machine) (c : Cpu) (path : Path) : Machine :=
  { m with path := Function.update m.path c path }

def step (m : Machine) : Event → Option Machine
  -- Interrupts are off while a lock is held.
  | .call c call =>
      if ¬ m.holds c .ptable ∧ ¬ m.holds c .cons ∧ (call = .exit → m.path c = []) then
        some (m.setPath c (call.path m.locking ++ m.path c))
      else none
  | .lock c =>
      match m.path c with
      | .acquire l :: rest =>
          if m.holder l = none then
            some { m.setPath c rest with holder := Function.update m.holder l (some c) }
          else none
      | .release l :: rest =>
          some { m.setPath c rest with holder := Function.update m.holder l none }
      | _ => none
  | .key c ch =>
      match m.path c with
      | .code flags :: rest =>
          let (input, flags, path) := consoleKey m.input flags ch
          some { m.setPath c (path ++ .code flags :: rest) with input := input }
      | _ => none
  | .noKey c lines shell =>
      match m.path c with
      | .code flags :: rest => some (m.setPath c (consoleEnd m.locking lines shell flags ++ rest))
      | _ => none
  | .consoleread taken =>
      if m.holder .cons = none ∧ taken ≤ (m.input.w - m.input.r).toNat then
        some { m with input := { m.input with r := m.input.r + BitVec.ofNat 32 taken } }
      else none

/-- No CPU is in one of the calls. -/
def start (locking : Bool) (input : Input) : Machine where
  holder := fun _ => none
  path := fun _ => []
  input := input
  locking := locking

/-! ## The claims about a run -/

/-- Every CPU is on a path that respects the order. -/
def Orderly (before : Lock → Lock → Prop) (m : Machine) : Prop :=
  ∀ c, Respects inside before (m.holds c) (m.path c)

/-- One CPU has ptable.lock and spins on cons.lock, another has cons.lock and
spins on ptable.lock. -/
def Deadlock (m : Machine) : Prop :=
  ∃ a b, m.holds a .ptable ∧ wants (m.path a) = some .cons ∧
    m.holds b .cons ∧ wants (m.path b) = some .ptable

/-- The step is a call of exit() that will print under ptable.lock. -/
def PrintsInExit (m : Machine) (e : Event) : Prop :=
  ∃ c, e = .call c .exit ∧ m.locking = true

/-- The step is a character for consoleintr() that makes it take ptable.lock. -/
def KeyTakesPtable (m : Machine) (e : Event) : Prop :=
  ∃ c ch, e = .key c ch ∧ takesPtable m.input ch

instance (m : Machine) (e : Event) : Decidable (KeyTakesPtable m e) :=
  match e with
  | .key c ch =>
      decidable_of_iff (takesPtable m.input ch)
        ⟨fun takes => ⟨c, ch, rfl, takes⟩, fun ⟨_, _, same, takes⟩ => by cases same; exact takes⟩
  | .call _ _ => isFalse fun ⟨_, _, same, _⟩ => nomatch same
  | .lock _ => isFalse fun ⟨_, _, same, _⟩ => nomatch same
  | .noKey _ _ _ => isFalse fun ⟨_, _, same, _⟩ => nomatch same
  | .consoleread _ => isFalse fun ⟨_, _, same, _⟩ => nomatch same

/-- What the order must say for the step to keep every path orderly. -/
def Needs (before : Lock → Lock → Prop) (m : Machine) (e : Event) : Prop :=
  (PrintsInExit m e → before .ptable .cons) ∧ (KeyTakesPtable m e → before .cons .ptable)

/-! ## Paths -/

section Paths
variable {before : Lock → Lock → Prop}

theorem wakeup_respects : Respects inside before (fun _ => False) wakeup := by
  simp [wakeup, Respects]

theorem cprintf_respects (locking : Bool) :
    Respects inside before (fun _ => False) (cprintf locking) := by
  cases locking with
  | false => simp [cprintf, Respects]
  | true => simp [cprintf, Respects]

/-- The path of exit(), whatever the CPU does after it. -/
theorem exit_respects_iff (locking : Bool) {rest : Path}
    (later : Respects inside before (fun _ => False) rest) :
    Respects inside before (fun _ => False) (exit locking ++ rest) ↔
      (locking = true → before .ptable .cons) := by
  cases locking with
  | false =>
      refine iff_of_true (Respects.append later ?_) fun on => by cases on
      simp [exit, cprintf, Respects]
  | true =>
      constructor
      · intro respects _
        exact respects.2.2.2.1 .ptable (Or.inl rfl)
      · intro ordered
        have first : before .ptable .cons := ordered rfl
        refine ⟨id, fun _ held => held.elim, ?_, fun l held => ?_, Or.inl rfl, ?_, ?_⟩
        · simp
        · rcases held with rfl | held
          · exact first
          · exact held.elim
        · simp
        · refine later.congr fun l => ?_
          cases l with
          | ptable => simp
          | cons => simp

theorem call_respects_iff (locking : Bool) (call : Call) {rest : Path}
    (later : Respects inside before (fun _ => False) rest) :
    Respects inside before (fun _ => False) (call.path locking ++ rest) ↔
      (call = .exit ∧ locking = true → before .ptable .cons) := by
  cases call with
  | exit =>
      rw [Call.path, exit_respects_iff locking later]
      simp
  | wakeup => exact iff_of_true (Respects.append later wakeup_respects) (by simp)
  | cprintf => exact iff_of_true (Respects.append later (cprintf_respects locking)) (by simp)
  | consoleintr =>
      refine iff_of_true (Respects.append later ?_) (by simp)
      simp [Call.path, consoleintr, Respects, inside]

theorem replicate_respects (locking : Bool) (lines : Nat) :
    Respects inside before (fun _ => False) (List.replicate lines (cprintf locking)).flatten := by
  induction lines with
  | zero => simp [Respects]
  | succ lines ih =>
      rw [List.replicate_succ, List.flatten_cons]
      exact ih.append (cprintf_respects locking)

theorem consoleEnd_respects (locking : Bool) (lines : Nat) (shell : Bool) (flags : Flags) :
    Respects inside before (fun l => l = .cons) (consoleEnd locking lines shell flags) := by
  have nothing : ∀ {path : Path}, Respects inside before (fun _ => False) path →
      Respects inside before (fun l => l = .cons) (.release .cons :: path) := by
    intro path respects
    exact ⟨rfl, respects.congr fun l => by simp⟩
  have empty : Respects inside before (fun _ => False) ([] : Path) := fun _ => id
  refine nothing (Respects.append ?_ ?_)
  · split
    · refine Respects.append ?_ ((wakeup_respects).append (cprintf_respects locking))
      split
      · exact wakeup_respects
      · exact empty
    · split
      · exact (wakeup_respects).append (cprintf_respects locking)
      · exact empty
  · split
    · exact replicate_respects locking lines
    · exact empty

theorem nested_respects_iff {flags : Flags} {rest : Path}
    (later : Respects inside before (fun _ => False) rest) :
    Respects inside before (fun l => l = .cons)
        (.acquire .ptable :: .release .ptable :: .code flags :: rest) ↔ before .cons .ptable := by
  constructor
  · intro respects
    exact respects.2.1 .cons rfl
  · intro ordered
    refine ⟨by simp, fun l held => held ▸ ordered, Or.inl rfl, fun l => ?_, later⟩
    cases l with
    | ptable => simp [inside]
    | cons => simp [inside]

theorem consoleKey_quiet {c : Byte} (quiet : c ∈ quietKeys) (input : Input) (flags : Flags) :
    (consoleKey input flags c).2.2 = [] := by
  simp only [quietKeys, List.mem_cons, List.not_mem_nil, or_false] at quiet
  rcases quiet with rfl | rfl | rfl | rfl | rfl | rfl | rfl <;> rfl

theorem consoleKey_typed {c : Byte} (other : c ∉ quietKeys) (notC : c ≠ C 'C') (input : Input)
    (flags : Flags) :
    consoleKey input flags c =
      (input.typed c, flags, if input.commits c then wakeup else []) := by
  simp only [quietKeys, List.mem_cons, List.not_mem_nil, or_false, not_or] at other
  obtain ⟨notP, notU, notH, notDelete, notB, notF, notG⟩ := other
  simp [consoleKey, notP, notU, notH, notDelete, notC, notB, notF, notG]

/-- Before the next character the path is as before, after the operations that
this one calls for. -/
theorem consoleKey_respects_iff (input : Input) (flags : Flags) (c : Byte) {rest : Path}
    (later : Respects inside before (fun _ => False) rest) :
    Respects inside before (fun l => l = .cons)
        ((consoleKey input flags c).2.2 ++ .code (consoleKey input flags c).2.1 :: rest) ↔
      (takesPtable input c → before .cons .ptable) := by
  have silent : ∀ {flags : Flags}, ¬ takesPtable input c →
      (Respects inside before (fun l => l = .cons) ([] ++ .code flags :: rest) ↔
        (takesPtable input c → before .cons .ptable)) :=
    fun none => iff_of_true ⟨fun _ => Iff.rfl, later⟩ fun takes => absurd takes none
  have nested : ∀ {flags : Flags}, takesPtable input c →
      (Respects inside before (fun l => l = .cons) (wakeup ++ .code flags :: rest) ↔
        (takesPtable input c → before .cons .ptable)) := by
    intro flags takes
    rw [forall_prop_of_true takes]
    exact nested_respects_iff later
  by_cases ctrlC : c = C 'C'
  · subst ctrlC
    exact nested (Or.inl rfl)
  · by_cases quiet : c ∈ quietKeys
    · rw [consoleKey_quiet quiet]
      exact silent fun takes => takes.elim ctrlC fun ⟨other, _⟩ => other quiet
    · rw [consoleKey_typed quiet ctrlC]
      by_cases commits : input.commits c
      · rw [if_pos commits]
        exact nested (Or.inr ⟨quiet, commits⟩)
      · rw [if_neg commits]
        exact silent fun takes => takes.elim ctrlC fun ⟨_, does⟩ => commits does

end Paths

/-! ## Steps -/

section Steps
variable {before : Lock → Lock → Prop} {m next : Machine} {e : Event}

/-- A step that moves no lock. -/
theorem moved_orderly_iff (orderly : Orderly before m) {c : Cpu} {path : Path}
    (holder : next.holder = m.holder) (paths : next.path = Function.update m.path c path) :
    Orderly before next ↔ Respects inside before (m.holds c) path := by
  have holds : ∀ d, next.holds d = m.holds d := fun d => by
    simp only [funext_iff, Machine.holds, holder, implies_true]
  constructor
  · intro after
    have own := after c
    rwa [holds, paths, Function.update_self] at own
  · intro own d
    rw [holds, paths]
    by_cases here : d = c
    · subst here
      rwa [Function.update_self]
    · rw [Function.update_of_ne here]
      exact orderly d

/-- The CPU takes a lock that is free, or gives one back. -/
theorem lock_orderly (orderly : Orderly before m) {c : Cpu}
    (taken : step m (.lock c) = some next) : Orderly before next := by
  have own := orderly c
  unfold step at taken
  dsimp only at taken
  split at taken
  case h_1 l rest path =>
    rw [path] at own
    obtain ⟨_, _, later⟩ := own
    rw [Option.ite_none_right_eq_some, Option.some.injEq] at taken
    obtain ⟨free, rfl⟩ := taken
    intro d
    by_cases here : d = c
    · subst here
      show Respects inside before _ (Function.update m.path d rest d)
      rw [Function.update_self]
      refine later.congr fun l' => ?_
      by_cases same : l' = l
      · subst same
        simp [Machine.holds]
      · simp [Machine.holds, same]
    · show Respects inside before _ (Function.update m.path c rest d)
      rw [Function.update_of_ne here]
      refine (orderly d).congr fun l' => ?_
      by_cases same : l' = l
      · subst same
        simp [Machine.holds, free, Ne.symm here]
      · simp [Machine.holds, same]
  case h_2 l rest path =>
    rw [path] at own
    obtain ⟨held, later⟩ := own
    cases Option.some.inj taken
    intro d
    by_cases here : d = c
    · subst here
      show Respects inside before _ (Function.update m.path d rest d)
      rw [Function.update_self]
      refine later.congr fun l' => ?_
      by_cases same : l' = l
      · subst same
        simp [Machine.holds]
      · simp [Machine.holds, same]
    · show Respects inside before _ (Function.update m.path c rest d)
      rw [Function.update_of_ne here]
      refine (orderly d).congr fun l' => ?_
      by_cases same : l' = l
      · subst same
        have owner : m.holder l' = some c := held
        simp [Machine.holds, owner, Ne.symm here]
      · simp [Machine.holds, same]
  case h_3 => cases taken

/-- What a step needs of the order is exactly what keeps the paths orderly. -/
theorem step_orderly_iff (orderly : Orderly before m) (taken : step m e = some next) :
    Orderly before next ↔ Needs before m e := by
  cases e with
  | call c call =>
      simp only [step, Option.ite_none_right_eq_some, Option.some.injEq] at taken
      obtain ⟨⟨noPtable, noCons, _⟩, rfl⟩ := taken
      have nothing : m.holds c = fun _ => False := by
        funext l
        cases l with
        | ptable => exact eq_false noPtable
        | cons => exact eq_false noCons
      have later := orderly c
      rw [nothing] at later
      refine Iff.trans (moved_orderly_iff orderly rfl rfl) ?_
      rw [nothing, call_respects_iff _ _ later]
      constructor
      · intro ordered
        refine ⟨?_, ?_⟩
        · rintro ⟨_, called, locking⟩
          cases called
          exact ordered ⟨rfl, locking⟩
        · rintro ⟨_, _, ⟨⟩, _⟩
      · rintro ⟨ordered, _⟩ ⟨rfl, locking⟩
        exact ordered ⟨c, rfl, locking⟩
  | lock c =>
      refine iff_of_true (lock_orderly orderly taken) ⟨?_, ?_⟩
      · rintro ⟨_, ⟨⟩, _⟩
      · rintro ⟨_, _, ⟨⟩, _⟩
  | key c ch =>
      unfold step at taken
      dsimp only at taken
      split at taken
      case h_2 => cases taken
      case h_1 flags rest path =>
        cases Option.some.inj taken
        have own := orderly c
        rw [path] at own
        have only : m.holds c = fun l => l = .cons := funext fun l => propext (own.1 l)
        refine Iff.trans (moved_orderly_iff orderly rfl rfl) ?_
        rw [only, consoleKey_respects_iff _ _ _ own.2]
        constructor
        · intro ordered
          refine ⟨?_, ?_⟩
          · rintro ⟨_, ⟨⟩, _⟩
          · rintro ⟨_, _, ⟨⟩, takes⟩
            exact ordered takes
        · exact fun needs takes => needs.2 ⟨c, ch, rfl, takes⟩
  | noKey c lines shell =>
      unfold step at taken
      dsimp only at taken
      split at taken
      case h_2 => cases taken
      case h_1 flags rest path =>
        cases Option.some.inj taken
        have own := orderly c
        rw [path] at own
        have only : m.holds c = fun l => l = .cons := funext fun l => propext (own.1 l)
        refine Iff.trans (moved_orderly_iff orderly rfl rfl) ?_
        rw [only]
        refine iff_of_true (Respects.append own.2 (consoleEnd_respects _ _ _ _)) ⟨?_, ?_⟩
        · rintro ⟨_, ⟨⟩, _⟩
        · rintro ⟨_, _, ⟨⟩, _⟩
  | consoleread count =>
      simp only [step, Option.ite_none_right_eq_some, Option.some.injEq] at taken
      obtain ⟨_, rfl⟩ := taken
      refine iff_of_true orderly ⟨?_, ?_⟩
      · rintro ⟨_, ⟨⟩, _⟩
      · rintro ⟨_, _, ⟨⟩, _⟩

end Steps

/-! ## Runs -/

theorem start_orderly (before : Lock → Lock → Prop) (locking : Bool) (input : Input) :
    Orderly before (start locking input) :=
  fun _ _ held => nomatch held

theorem run_orderly_iff (before : Lock → Lock → Prop) {locking : Bool} {input : Input}
    {es : List Event} {m : Machine} (ran : run step (start locking input) es = some m) :
    Always step (Orderly before) (start locking input) es ↔
      Guarded step (Needs before) (start locking input) es :=
  always_iff_guarded step (fun _ orderly => orderly)
    (fun _ _ _ orderly needs taken => (step_orderly_iff orderly taken).mpr needs)
    (fun _ _ _ orderly taken after => (step_orderly_iff orderly taken).mp after)
    es _ m (start_orderly before locking input) ran

theorem orderly_no_deadlock {before : Lock → Lock → Prop} [IsStrictOrder Lock before]
    {m : Machine} (orderly : Orderly before m) : ¬ Deadlock m := by
  rintro ⟨a, b, aHolds, aWants, bHolds, bWants⟩
  have first : WaitsFor m.holds m.path a b := ⟨.cons, aWants, bHolds⟩
  have second : WaitsFor m.holds m.path b a := ⟨.ptable, bWants, aHolds⟩
  exact waitsFor_acyclic orderly a (.tail (.single first) second)

/-- The order in which only one pair of locks is related. -/
def oneBefore (first second : Lock) : Lock → Lock → Prop := fun l l' => l = first ∧ l' = second

theorem oneBefore_strict {first second : Lock} (differ : first ≠ second) :
    IsStrictOrder Lock (oneBefore first second) where
  irrefl := fun _ ⟨isFirst, isSecond⟩ => differ (isFirst.symm.trans isSecond)
  trans := fun _ _ _ ⟨_, isSecond⟩ ⟨isFirst, _⟩ => absurd (isFirst.symm.trans isSecond) differ

def emptyRing : Input where
  buf := fun _ => 0
  r := 0
  w := 0
  e := 0

def cpu0 : Cpu := 0

def cpu1 : Cpu := 1

/-- A process exits on CPU 0 while letters are typed on CPU 1. -/
def lettersRun : List Event :=
  [.call cpu0 .exit, .lock cpu0, .call cpu1 .consoleintr, .lock cpu1, .key cpu1 97,
    .noKey cpu1 0 false, .lock cpu1, .lock cpu0, .lock cpu0, .lock cpu0]

theorem lettersRun_completes : (run step (start true emptyRing) lettersRun).isSome = true := by
  decide

/-- Ctrl-C is typed on CPU 1 when the process on CPU 0 is about to print. -/
def ctrlCRun : List Event :=
  [.call cpu0 .exit, .lock cpu0, .call cpu1 .consoleintr, .lock cpu1, .key cpu1 (C 'C')]

end Xv6.Public2.ConsoleLocks
