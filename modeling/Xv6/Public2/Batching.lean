import Mathlib.Tactic.Common
import Xv6.Public2.ConsoleLocks

/-!
# Batches of characters (xv6-public_2)

consoleintr() on the ring and the process table.  Ctrl-C, Ctrl-G and completed
lines act at once, Ctrl-B and Ctrl-F after the loop, and then Ctrl-B hides Ctrl-F.
So it can matter whether two characters come in one interrupt or in two.
-/

set_option autoImplicit false

namespace Xv6.Public2.Batching

open Xv6.Common
open Xv6.Lib.Words
open Xv6.Public2.Signals
open Xv6.Public2.ProcTable
open Xv6.Public2.ConsoleLocks

/-- `&input.r` -/
def inputChan : Chan := .addr 1

structure Console where
  input : Input
  proc : Slot → Proc

/-- The character completes a line, so that consoleintr() calls wakeup(). -/
def completesLine (input : Input) (c : Byte) : Bool :=
  decide (c ≠ C 'C') && quietKeys.all (fun key => decide (c ≠ key)) && decide (input.commits c)

/-- send_sigcustom() when `cur` is myproc(). -/
def sigcustom (cur : Option Slot) (proc : Slot → Proc) : Slot → Proc :=
  match cur with
  | none => proc
  | some i => Function.update proc i
      { proc i with toSigState := send_sigcustom (proc i).toSigState }

/-- What a character does to the table inside the loop. -/
def keyProc (cur : Option Slot) (input : Input) (proc : Slot → Proc) (c : Byte) : Slot → Proc :=
  if c = C 'C' then ctrlC proc
  else if c = C 'G' then sigcustom cur proc
  else if completesLine input c then wakeup1 (some inputChan) proc
  else proc

/-- The while loop. -/
def loop (cur : Option Slot) : List Byte → Flags → Console → Flags × Console
  | [], flags, s => (flags, s)
  | c :: rest, flags, s =>
      let (input, flags, _) := consoleKey s.input flags c
      loop cur rest flags { input := input, proc := keyProc cur s.input s.proc c }

/-- The Ctrl-B branch after the loop, with the wakeup of what the shell sleeps on. -/
def pressB (proc : Slot → Proc) : Slot → Proc :=
  let marked := ctrlBMark proc
  match shellSlot marked with
  | none => marked
  | some sh =>
      let shell := { marked sh with state := .RUNNABLE }
      wakeup1 shell.chan (Function.update marked sh shell)

/-- consoleintr() when getc() yields these characters and then -1. -/
def consoleintr (cur : Option Slot) (chars : List Byte) (s : Console) : Console :=
  let (flags, s) := loop cur chars {} s
  if flags.ctrlB then { s with proc := pressB s.proc }
  else if flags.ctrlF then { s with proc := ctrlF s.proc }
  else s

/-- The same ring, and the same fields of all processes. -/
structure Same (s t : Console) : Prop where
  input : s.input = t.input
  killed : ∀ i, (s.proc i).killed = (t.proc i).killed
  b : ∀ i, (s.proc i).b = (t.proc i).b
  state : ∀ i, (s.proc i).state = (t.proc i).state
  pending_signal : ∀ i, (s.proc i).pending_signal = (t.proc i).pending_signal

/-! ## What one process sees of it -/

/-- The fields that consoleintr() changes, and the two that it goes by. -/
structure View where
  pid : Int
  chan : Option Chan
  killed : Int
  b : Int
  state : ProcState
  pending_signal : Int

def view (p : Proc) : View where
  pid := p.pid
  chan := p.chan
  killed := p.killed
  b := p.b
  state := p.state
  pending_signal := p.pending_signal

/-- The loop: Ctrl-C was typed, Ctrl-G was typed for the process, a line was completed. -/
def touched (kill sig wake : Bool) (v : View) : View :=
  { v with
    killed := if kill = true ∧ v.pid ≥ 3 then 1 else v.killed
    pending_signal := if sig = true then 1 else v.pending_signal
    state :=
      if wake = true ∧ v.state = .SLEEPING ∧ v.chan = some inputChan then .RUNNABLE
      else v.state }

/-- The Ctrl-B branch: the process is the shell, or sleeps where the shell does. -/
def marked (shell beside : Bool) (v : View) : View :=
  { v with
    b := if v.pid > 2 ∧ v.state ≠ .ZOMBIE then 1 else v.b
    state :=
      if shell = true then .RUNNABLE
      else if beside = true ∧ v.state = .SLEEPING then .RUNNABLE
      else v.state }

/-- The Ctrl-F branch. -/
def resumed (v : View) : View :=
  { v with
    b := if v.pid > 2 ∧ v.b = 1 then 0 else v.b
    state :=
      if v.pid > 2 ∧ v.b = 1 then .RUNNABLE else if v.pid = 2 then .SLEEPING else v.state }

/-- The process is woken by a completed line, or with the shell. -/
def Roused (wake beside : Bool) (v : View) : Prop :=
  wake = true ∧ v.chan = some inputChan ∨ beside = true

section Views
variable (kill sig wake kill' sig' wake' : Bool) {shell beside : Bool} {v : View}

theorem touched_touched (v : View) :
    touched kill' sig' wake' (touched kill sig wake v) =
      touched (kill || kill') (sig || sig') (wake || wake') v := by
  simp only [touched, View.mk.injEq, true_and, Bool.or_eq_true]
  grind

theorem touched_none (v : View) : touched false false false v = v := by
  simp [touched]

theorem touched_marked :
    touched kill sig wake (marked shell beside v) =
      marked shell beside (touched kill sig wake v) := by
  simp only [touched, marked, View.mk.injEq, true_and]
  grind

theorem marked_marked (first : shell = true → v.pid = 2) :
    marked shell beside (marked shell beside v) = marked shell beside v := by
  simp only [marked, View.mk.injEq, true_and]
  grind

theorem resumed_touched_resumed :
    resumed (touched kill sig wake (resumed v)) = resumed (touched kill sig wake v) := by
  simp only [touched, resumed, View.mk.injEq, true_and]
  grind

/-- Ctrl-F after Ctrl-B has been handled: only a zombie that is not marked stays as it is. -/
theorem resumed_marked_iff (other : v.pid ≠ 2) (first : shell = true → v.pid = 2) :
    resumed (marked shell beside v) = marked shell beside v ↔
      (v.pid > 2 → v.state = .ZOMBIE ∧ v.b ≠ 1) := by
  simp only [marked, resumed, View.mk.injEq, true_and]
  grind

theorem resumed_shell (isShell : shell = true) (first : shell = true → v.pid = 2) :
    resumed (marked shell beside v) ≠ marked shell beside v := by
  simp only [marked, resumed, ne_eq, View.mk.injEq, true_and]
  grind

/-- A line completed after Ctrl-F has been handled: it wakes a pid-2 process that reads. -/
theorem resumed_touched_iff :
    resumed (touched kill sig wake v) = touched kill sig wake (resumed v) ↔
      (v.pid = 2 → ¬ (wake = true ∧ v.chan = some inputChan)) := by
  simp only [touched, resumed, View.mk.injEq, true_and]
  grind

/-- Ctrl-B after Ctrl-F has been handled. -/
theorem marked_resumed_iff (first : shell = true → v.pid = 2) :
    marked shell beside (touched kill sig wake v) =
        marked shell beside (touched kill sig wake (resumed v)) ↔
      (v.pid > 2 → v.b = 1 → v.state = .RUNNABLE ∨ v.state = .SLEEPING ∧ Roused wake beside v) ∧
        (v.pid = 2 → shell = false →
          v.state = .SLEEPING ∨ v.state = .RUNNABLE ∧ Roused wake beside v) := by
  by_cases isShell : v.pid = 2
  · have notHigh : ¬ v.pid > 2 := by omega
    simp only [touched, marked, resumed, Roused, View.mk.injEq, true_and, isShell]
    cases shell
    all_goals grind
  · have notFirst : shell = false := by
      cases shell
      · rfl
      · exact absurd (first rfl) isShell
    by_cases job : v.pid > 2 ∧ v.b = 1
    · simp only [touched, marked, resumed, Roused, View.mk.injEq, true_and, notFirst, job]
      grind
    · simp only [touched, marked, resumed, Roused, View.mk.injEq, true_and, notFirst, job]
      grind

end Views

/-! ## The loop -/

def ringKey (input : Input) (c : Byte) : Input := (consoleKey input {} c).1

def ringAfter (input : Input) (chars : List Byte) : Input := chars.foldl ringKey input

/-- The key is one of the characters. -/
def typedIn (key : Byte) (chars : List Byte) : Bool := chars.any fun c => decide (c = key)

theorem typedIn_iff (key : Byte) (chars : List Byte) : typedIn key chars = true ↔ key ∈ chars := by
  simp [typedIn]

theorem typedIn_cons (key c : Byte) (rest : List Byte) :
    typedIn key (c :: rest) = (decide (c = key) || typedIn key rest) := rfl

theorem typedIn_append (key : Byte) (first second : List Byte) :
    typedIn key (first ++ second) = (typedIn key first || typedIn key second) :=
  List.any_append

/-- Some character completes a line. -/
def commitsIn : Input → List Byte → Bool
  | _, [] => false
  | input, c :: rest => completesLine input c || commitsIn (ringKey input c) rest

theorem commitsIn_append (input : Input) (first second : List Byte) :
    commitsIn input (first ++ second) =
      (commitsIn input first || commitsIn (ringAfter input first) second) := by
  induction first generalizing input with
  | nil => rfl
  | cons c rest ih =>
      rw [List.cons_append, commitsIn, ih, commitsIn, Bool.or_assoc]
      rfl

theorem consoleKey_input (input : Input) (flags : Flags) (c : Byte) :
    (consoleKey input flags c).1 = ringKey input c := by
  unfold ringKey consoleKey
  split_ifs
  all_goals rfl

theorem consoleKey_flags (input : Input) (flags : Flags) (c : Byte) :
    (consoleKey input flags c).2.1.ctrlB = (flags.ctrlB || decide (c = C 'B')) ∧
      (consoleKey input flags c).2.1.ctrlF = (flags.ctrlF || decide (c = C 'F')) := by
  by_cases ctrlB : c = C 'B'
  · subst ctrlB
    simp [consoleKey, C, delete]
  · by_cases ctrlF : c = C 'F'
    · subst ctrlF
      simp [consoleKey, C, delete]
    · unfold consoleKey
      simp only [ctrlB, ctrlF, if_false, decide_false, Bool.or_false]
      split_ifs
      all_goals exact ⟨rfl, rfl⟩

theorem completesLine_quiet {c : Byte} (input : Input) (other : c = C 'C' ∨ c = C 'G') :
    completesLine input c = false := by
  rcases other with rfl | rfl
  · simp [completesLine]
  · simp [completesLine, quietKeys]

theorem keyProc_view (cur : Option Slot) (input : Input) (proc : Slot → Proc) (c : Byte)
    (i : Slot) :
    view (keyProc cur input proc c i) =
      touched (decide (c = C 'C')) (decide (c = C 'G' ∧ cur = some i)) (completesLine input c)
        (view (proc i)) := by
  have apart : C 'C' ≠ C 'G' := by decide
  unfold keyProc
  by_cases isC : c = C 'C'
  · rw [if_pos isC, completesLine_quiet input (Or.inl isC)]
    unfold ctrlC
    split
    case isTrue high => simp [view, touched, isC, apart, high]
    case isFalse low => simp [view, touched, isC, apart, low]
  · rw [if_neg isC]
    by_cases isG : c = C 'G'
    · rw [if_pos isG, completesLine_quiet input (Or.inr isG)]
      unfold sigcustom
      cases cur with
      | none => simp [isC, touched_none]
      | some j =>
          dsimp only
          by_cases here : i = j
          · subst here
            simp [view, touched, isG, apart.symm, send_sigcustom]
          · simp [here, Ne.symm here, isC, touched_none]
    · rw [if_neg isG]
      cases completesLine input c with
      | false => simp [isC, isG, touched_none]
      | true =>
          simp only [if_true, wakeup1]
          split
          case isTrue woken => simp [view, touched, isC, isG, woken]
          case isFalse notWoken =>
            simp only [view, touched, isC, isG, View.mk.injEq, true_and, decide_false,
              false_and, Bool.false_eq_true, if_false, and_true]
            rw [if_neg notWoken]

/-- What the loop leaves. -/
structure Looped (cur : Option Slot) (chars : List Byte) (flags : Flags) (s : Console)
    (result : Flags × Console) : Prop where
  input : result.2.input = ringAfter s.input chars
  ctrlB : result.1.ctrlB = (flags.ctrlB || typedIn (C 'B') chars)
  ctrlF : result.1.ctrlF = (flags.ctrlF || typedIn (C 'F') chars)
  view : ∀ i, view (result.2.proc i) =
    touched (typedIn (C 'C') chars) (typedIn (C 'G') chars && decide (cur = some i))
      (commitsIn s.input chars) (view (s.proc i))

theorem loop_looped (cur : Option Slot) (chars : List Byte) (flags : Flags) (s : Console) :
    Looped cur chars flags s (loop cur chars flags s) := by
  induction chars generalizing flags s with
  | nil =>
      constructor
      case input => rfl
      case ctrlB => simp [loop, typedIn]
      case ctrlF => simp [loop, typedIn]
      case view =>
        intro i
        simp [loop, commitsIn, typedIn, touched_none]
  | cons c rest ih =>
      obtain ⟨flags', entry⟩ : ∃ flags', flags' = (consoleKey s.input flags c).2.1 := ⟨_, rfl⟩
      have unfolded : loop cur (c :: rest) flags s =
          loop cur rest flags' ⟨ringKey s.input c, keyProc cur s.input s.proc c⟩ := by
        rw [entry, ← consoleKey_input s.input flags c]
        rfl
      obtain ⟨flagB, flagF⟩ := consoleKey_flags s.input flags c
      rw [← entry] at flagB flagF
      have later := ih flags' ⟨ringKey s.input c, keyProc cur s.input s.proc c⟩
      rw [unfolded]
      constructor
      case input => exact later.input
      case ctrlB => rw [later.ctrlB, flagB, Bool.or_assoc, typedIn_cons]
      case ctrlF => rw [later.ctrlF, flagF, Bool.or_assoc, typedIn_cons]
      case view =>
        intro i
        rw [later.view i]
        dsimp only
        rw [keyProc_view, touched_touched, commitsIn]
        congr 1
        by_cases own : cur = some i
        · simp [own, typedIn_cons]
        · simp [own]

/-! ## The call -/

/-- The slot is the one that the Ctrl-B branch makes RUNNABLE. -/
def isShell (proc : Slot → Proc) (i : Slot) : Bool := decide (shellSlot proc = some i)

/-- The process sleeps, if it does, on what the shell sleeps on. -/
def besideShell (proc : Slot → Proc) (i : Slot) : Bool :=
  match shellSlot proc with
  | none => false
  | some sh => decide ((proc i).chan = (proc sh).chan)

theorem isShell_pid {proc : Slot → Proc} {i : Slot} (shell : isShell proc i = true) :
    (proc i).pid = 2 := by
  have found := List.find?_some (of_decide_eq_true shell)
  exact of_decide_eq_true found

/-- The views of two tables agree in what is never changed. -/
def SameKeys (proc proc' : Slot → Proc) : Prop :=
  ∀ i, (proc' i).pid = (proc i).pid ∧ (proc' i).chan = (proc i).chan

section Keys
variable {proc proc' : Slot → Proc}

theorem SameKeys.shellSlot (same : SameKeys proc proc') :
    ProcTable.shellSlot proc' = ProcTable.shellSlot proc := by
  simp only [ProcTable.shellSlot, fun i => (same i).1]

theorem SameKeys.isShell (same : SameKeys proc proc') (i : Slot) :
    Batching.isShell proc' i = Batching.isShell proc i := by
  rw [Batching.isShell, same.shellSlot, Batching.isShell]

theorem SameKeys.besideShell (same : SameKeys proc proc') (i : Slot) :
    Batching.besideShell proc' i = Batching.besideShell proc i := by
  unfold Batching.besideShell
  rw [same.shellSlot]
  cases ProcTable.shellSlot proc with
  | none => rfl
  | some sh =>
      dsimp only
      rw [(same i).2, (same sh).2]

end Keys

theorem ctrlF_view (proc : Slot → Proc) (i : Slot) :
    view (ctrlF proc i) = resumed (view (proc i)) := by
  unfold ctrlF
  split
  case isTrue job => simp [view, resumed, job]
  case isFalse other =>
    split
    case isTrue shell => simp [view, resumed, shell]
    case isFalse notShell =>
      simp only [view, resumed, View.mk.injEq, true_and, and_true]
      grind

theorem ctrlBMark_view (proc : Slot → Proc) (i : Slot) :
    view (ctrlBMark proc i) = marked false false (view (proc i)) := by
  unfold ctrlBMark
  split
  case isTrue job => simp [view, marked, job]
  case isFalse other =>
    simp only [view, marked, View.mk.injEq, true_and, and_true]
    grind

theorem pressB_view (proc : Slot → Proc) (i : Slot) :
    view (pressB proc i) = marked (isShell proc i) (besideShell proc i) (view (proc i)) := by
  have keys : SameKeys proc (ctrlBMark proc) := fun j => by
    have same := ctrlBMark_view proc j
    exact ⟨congrArg View.pid same, congrArg View.chan same⟩
  have here := ctrlBMark_view proc i
  obtain ⟨table, entry⟩ : ∃ table, table = ctrlBMark proc := ⟨_, rfl⟩
  unfold pressB
  rw [keys.shellSlot]
  rw [← entry] at keys here ⊢
  unfold isShell besideShell
  cases found : shellSlot proc with
  | none => simpa using here
  | some sh =>
      simp only
      by_cases shell : i = sh
      · subst shell
        have awake : ∀ chan, wakeup1 chan (Function.update table i
            { table i with state := .RUNNABLE }) i = { table i with state := .RUNNABLE } := by
          intro chan
          simp [wakeup1]
        have raised : view { table i with state := .RUNNABLE } =
            { view (table i) with state := .RUNNABLE } := rfl
        rw [awake, raised, here]
        simp [marked]
      · have other : ¬ some sh = some i := fun same => shell (Option.some.inj same).symm
        simp only [wakeup1, Function.update_of_ne shell]
        have asleep : (table i).state = (proc i).state := by
          have same := congrArg View.state here
          simpa [view, marked] using same
        rw [decide_eq_false other]
        split
        case isTrue woken =>
          rw [asleep, (keys i).2, (keys sh).2] at woken
          have raised : view { table i with state := .RUNNABLE } =
              { view (table i) with state := .RUNNABLE } := rfl
          rw [raised, here]
          simp [marked, view, woken]
        case isFalse notWoken =>
          rw [asleep, (keys i).2, (keys sh).2] at notWoken
          rw [here]
          simp only [marked, view, View.mk.injEq, true_and, and_true]
          grind

/-- What the call leaves in a slot. -/
def called (proc : Slot → Proc) (ctrlB ctrlF : Bool) (i : Slot) (v : View) : View :=
  if ctrlB then marked (isShell proc i) (besideShell proc i) v
  else if ctrlF then resumed v
  else v

theorem called_keys (proc : Slot → Proc) (ctrlB ctrlF : Bool) (i : Slot) (v : View) :
    (called proc ctrlB ctrlF i v).pid = v.pid ∧ (called proc ctrlB ctrlF i v).chan = v.chan := by
  unfold called
  split_ifs
  all_goals exact ⟨rfl, rfl⟩

/-- The loop over the characters, as slot `i` sees it. -/
def typedInto (cur : Option Slot) (input : Input) (chars : List Byte) (i : Slot) (v : View) :
    View :=
  touched (typedIn (C 'C') chars) (typedIn (C 'G') chars && decide (cur = some i))
    (commitsIn input chars) v

theorem consoleintr_input (cur : Option Slot) (chars : List Byte) (s : Console) :
    (consoleintr cur chars s).input = ringAfter s.input chars := by
  have looped := (loop_looped cur chars {} s).input
  unfold consoleintr
  dsimp only
  split_ifs
  all_goals exact looped

theorem consoleintr_view (cur : Option Slot) (chars : List Byte) (s : Console) (i : Slot) :
    view ((consoleintr cur chars s).proc i) =
      called s.proc (typedIn (C 'B') chars) (typedIn (C 'F') chars) i
        (typedInto cur s.input chars i (view (s.proc i))) := by
  have looped := loop_looped cur chars {} s
  have keys : SameKeys s.proc (loop cur chars {} s).2.proc := fun j =>
    ⟨congrArg View.pid (looped.view j), congrArg View.chan (looped.view j)⟩
  unfold consoleintr called typedInto
  rw [← looped.view i, ← keys.isShell i, ← keys.besideShell i]
  dsimp only
  rw [looped.ctrlB, looped.ctrlF, Bool.false_or, Bool.false_or]
  split_ifs
  · exact pressB_view _ i
  · exact ctrlF_view _ i
  · rfl

theorem consoleintr_keys (cur : Option Slot) (chars : List Byte) (s : Console) :
    SameKeys s.proc (consoleintr cur chars s).proc := fun i => by
  have here := consoleintr_view cur chars s i
  obtain ⟨pid, chan⟩ := called_keys s.proc (typedIn (C 'B') chars) (typedIn (C 'F') chars) i
    (typedInto cur s.input chars i (view (s.proc i)))
  exact ⟨(congrArg View.pid here).trans pid, (congrArg View.chan here).trans chan⟩

/-! ## Two calls -/

theorem typedInto_append (cur : Option Slot) (input : Input) (first second : List Byte) (i : Slot)
    (v : View) :
    typedInto cur (ringAfter input first) second i (typedInto cur input first i v) =
      typedInto cur input (first ++ second) i v := by
  unfold typedInto
  rw [touched_touched, commitsIn_append]
  congr 1
  · exact (typedIn_append _ _ _).symm
  · by_cases own : cur = some i
    · simp [own, typedIn_append]
    · simp [own]

/-- The second of two calls, in terms of the table before the first. -/
theorem consoleintr_twice (cur : Option Slot) (first second : List Byte) (s : Console) (i : Slot) :
    view ((consoleintr cur second (consoleintr cur first s)).proc i) =
      called s.proc (typedIn (C 'B') second) (typedIn (C 'F') second) i
        (typedInto cur (ringAfter s.input first) second i
          (called s.proc (typedIn (C 'B') first) (typedIn (C 'F') first) i
            (typedInto cur s.input first i (view (s.proc i))))) := by
  have keys := consoleintr_keys cur first s
  rw [consoleintr_view, consoleintr_view, consoleintr_input]
  unfold called
  rw [keys.isShell, keys.besideShell]

theorem same_iff (cur : Option Slot) (first second : List Byte) (s : Console) :
    Same (consoleintr cur (first ++ second) s)
        (consoleintr cur second (consoleintr cur first s)) ↔
      ∀ i, view ((consoleintr cur (first ++ second) s).proc i) =
        view ((consoleintr cur second (consoleintr cur first s)).proc i) := by
  constructor
  · intro same i
    obtain ⟨pid, chan⟩ := consoleintr_keys cur (first ++ second) s i
    obtain ⟨pid₁, chan₁⟩ := consoleintr_keys cur first s i
    obtain ⟨pid₂, chan₂⟩ := consoleintr_keys cur second (consoleintr cur first s) i
    have pids := pid.trans (pid₂.trans pid₁).symm
    have chans := chan.trans (chan₂.trans chan₁).symm
    simp only [view, View.mk.injEq]
    exact ⟨pids, chans, same.killed i, same.b i, same.state i, same.pending_signal i⟩
  · intro views
    constructor
    case input => simp only [consoleintr_input, ringAfter, List.foldl_append]
    case killed => exact fun i => congrArg View.killed (views i)
    case b => exact fun i => congrArg View.b (views i)
    case state => exact fun i => congrArg View.state (views i)
    case pending_signal => exact fun i => congrArg View.pending_signal (views i)

/-! ## When the batches do not matter -/

/-- Ctrl-B in the first batch and only Ctrl-F in the second: there is no shell, and no
job that Ctrl-B or Ctrl-F would touch. -/
def NoJobs (proc : Slot → Proc) : Prop :=
  ∀ i, (proc i).pid ≠ 2 ∧ ((proc i).pid > 2 → (proc i).state = .ZOMBIE ∧ (proc i).b ≠ 1)

/-- Only Ctrl-F in the first batch, neither key in the second: no line completed there
wakes a pid-2 process. -/
def NoReader (proc : Slot → Proc) : Prop :=
  ∀ i, (proc i).pid = 2 → (proc i).chan ≠ some inputChan

/-- Only Ctrl-F in the first batch and Ctrl-B in the second: the marked jobs end up
RUNNABLE anyway, and so do the pid-2 processes other than the shell, unless they sleep
on. `wake` and `wake'` tell whether a line is completed in the batches. -/
def Restored (wake wake' : Bool) (proc : Slot → Proc) : Prop :=
  ∀ i,
    ((proc i).pid > 2 → (proc i).b = 1 →
      (proc i).state = .RUNNABLE ∨
        (proc i).state = .SLEEPING ∧
          Roused (wake || wake') (besideShell proc i) (view (proc i))) ∧
    ((proc i).pid = 2 → isShell proc i = false →
      (proc i).state = .SLEEPING ∧
          (wake = true ∧ (proc i).chan = some inputChan →
            Roused wake' (besideShell proc i) (view (proc i))) ∨
        (proc i).state = .RUNNABLE ∧ Roused wake' (besideShell proc i) (view (proc i)))

def Unsplit (s : Console) (first second : List Byte) : Prop :=
  (C 'B' ∈ first → C 'B' ∉ second → C 'F' ∈ second → NoJobs s.proc) ∧
    (C 'F' ∈ first → C 'B' ∉ first → C 'B' ∉ second → C 'F' ∉ second →
      commitsIn (ringAfter s.input first) second = true → NoReader s.proc) ∧
    (C 'F' ∈ first → C 'B' ∉ first → C 'B' ∈ second →
      Restored (commitsIn s.input first) (commitsIn (ringAfter s.input first) second) s.proc)

theorem noJobs_iff {proc : Slot → Proc} {f : Slot → View}
    (same : ∀ i, (f i).pid = (proc i).pid ∧ ((f i).state = .ZOMBIE ↔ (proc i).state = .ZOMBIE) ∧
      (f i).b = (proc i).b) :
    (∀ i, marked (isShell proc i) (besideShell proc i) (f i) =
        resumed (marked (isShell proc i) (besideShell proc i) (f i))) ↔ NoJobs proc := by
  have first : ∀ i, isShell proc i = true → (f i).pid = 2 := fun i shell =>
    (same i).1.trans (isShell_pid shell)
  constructor
  · intro equal i
    -- With any pid-2 process there is a shell, and that one differs.
    have other : ∀ j, (proc j).pid ≠ 2 := by
      intro j isTwo
      have found : (shellSlot proc).isSome = true := by
        rw [shellSlot, List.find?_isSome]
        exact ⟨j, by simp [slots], by simp [isTwo]⟩
      obtain ⟨sh, found⟩ := Option.isSome_iff_exists.mp found
      have shell : isShell proc sh = true := by simp [isShell, found]
      exact resumed_shell shell (first sh) (equal sh).symm
    refine ⟨other i, fun job => ?_⟩
    have notTwo : (f i).pid ≠ 2 := by
      rw [(same i).1]
      exact other i
    obtain ⟨zombie, unmarked⟩ := (resumed_marked_iff notTwo (first i)).mp (equal i).symm
      ((same i).1 ▸ job)
    exact ⟨(same i).2.1.mp zombie, (same i).2.2 ▸ unmarked⟩
  · intro none i
    have notTwo : (f i).pid ≠ 2 := by
      rw [(same i).1]
      exact (none i).1
    refine ((resumed_marked_iff notTwo (first i)).mpr fun job => ?_).symm
    obtain ⟨zombie, unmarked⟩ := (none i).2 ((same i).1 ▸ job)
    exact ⟨(same i).2.1.mpr zombie, (same i).2.2 ▸ unmarked⟩

theorem touched_zombie (kill sig wake : Bool) (v : View) :
    (touched kill sig wake v).state = .ZOMBIE ↔ v.state = .ZOMBIE := by
  simp only [touched]
  split
  case isTrue woken => simp [woken.2.1]
  case isFalse => exact Iff.rfl

theorem noReader_iff {proc : Slot → Proc} (kill sig : Slot → Bool) (wake : Bool) {f : Slot → View}
    (same : ∀ i, (f i).pid = (proc i).pid ∧ (f i).chan = (proc i).chan) :
    (∀ i, resumed (touched (kill i) (sig i) wake (f i)) =
        touched (kill i) (sig i) wake (resumed (f i))) ↔ (wake = true → NoReader proc) := by
  simp only [resumed_touched_iff, same]
  constructor
  · exact fun equal woken i isTwo reads => equal i isTwo ⟨woken, reads⟩
  · exact fun none i isTwo ⟨woken, reads⟩ => none woken i isTwo reads

theorem restored_iff {proc : Slot → Proc} (kill sig kill' sig' : Slot → Bool) (wake wake' : Bool) :
    (∀ i, marked (isShell proc i) (besideShell proc i)
          (touched (kill' i) (sig' i) wake' (touched (kill i) (sig i) wake (view (proc i)))) =
        marked (isShell proc i) (besideShell proc i)
          (touched (kill' i) (sig' i) wake'
            (resumed (touched (kill i) (sig i) wake (view (proc i)))))) ↔
      Restored wake wake' proc := by
  refine forall_congr' fun i => ?_
  have first : isShell proc i = true →
      (touched (kill i) (sig i) wake (view (proc i))).pid = 2 := isShell_pid
  rw [marked_resumed_iff _ _ _ first]
  simp only [touched, view, Roused]
  refine and_congr ?_ ?_
  · refine imp_congr_right fun _ => imp_congr_right fun _ => ?_
    by_cases reads : (proc i).chan = some inputChan
    · cases wake
      all_goals grind
    · simp [reads]
  · refine imp_congr_right fun _ => imp_congr_right fun _ => ?_
    by_cases reads : (proc i).chan = some inputChan
    · cases wake
      all_goals grind
    · simp [reads]

/-- One call of consoleintr() for a sequence and two calls for its parts leave the same
exactly when the keys of the parts are no unlucky pair. -/
theorem batching_iff (cur : Option Slot) (s : Console) (first second : List Byte) :
    Same (consoleintr cur (first ++ second) s)
        (consoleintr cur second (consoleintr cur first s)) ↔
      Unsplit s first second := by
  obtain ⟨early, earlyEq⟩ : ∃ early : Slot → View, early = fun i =>
    typedInto cur s.input first i (view (s.proc i)) := ⟨_, rfl⟩
  obtain ⟨later, laterEq⟩ : ∃ later : Slot → View → View, later = fun i =>
    typedInto cur (ringAfter s.input first) second i := ⟨_, rfl⟩
  have shell : ∀ i, isShell s.proc i = true → (later i (early i)).pid = 2 := by
    intro i is
    rw [laterEq, earlyEq]
    exact isShell_pid is
  have calls : ∀ i, (view ((consoleintr cur (first ++ second) s).proc i) =
        view ((consoleintr cur second (consoleintr cur first s)).proc i)) ↔
      called s.proc (typedIn (C 'B') first || typedIn (C 'B') second)
          (typedIn (C 'F') first || typedIn (C 'F') second) i (later i (early i)) =
        called s.proc (typedIn (C 'B') second) (typedIn (C 'F') second) i
          (later i (called s.proc (typedIn (C 'B') first) (typedIn (C 'F') first) i
            (early i))) := by
    intro i
    rw [consoleintr_twice, consoleintr_view, ← typedInto_append, laterEq, earlyEq]
    simp only [typedIn_append]
  rw [same_iff, forall_congr' calls]
  unfold Unsplit
  simp only [← typedIn_iff]
  by_cases firstB : typedIn (C 'B') first = true
  · -- The first call marks, and the marks commute with the loop of the second.
    have commute : ∀ i, later i (marked (isShell s.proc i) (besideShell s.proc i) (early i)) =
        marked (isShell s.proc i) (besideShell s.proc i) (later i (early i)) := by
      intro i
      rw [laterEq]
      exact touched_marked _ _ _
    simp only [called, firstB, Bool.true_or, if_true, commute, true_imp_iff,
      not_true, false_imp_iff, imp_true_iff, and_true]
    by_cases secondB : typedIn (C 'B') second = true
    · simp only [secondB, if_true, not_true, false_imp_iff, iff_true]
      exact fun i => (marked_marked (shell i)).symm
    · by_cases secondF : typedIn (C 'F') second = true
      · simp only [secondB, secondF, Bool.false_eq_true, if_true,
          if_false, not_false_iff, true_imp_iff]
        refine noJobs_iff fun i => ⟨?_, ?_, ?_⟩
        · rw [laterEq, earlyEq]
          rfl
        · rw [laterEq, earlyEq]
          exact (touched_zombie _ _ _ _).trans (touched_zombie _ _ _ _)
        · rw [laterEq, earlyEq]
          rfl
      · simp [secondB, secondF]
  · by_cases firstF : typedIn (C 'F') first = true
    · simp only [called, firstB, firstF, Bool.true_or, Bool.false_or,
        Bool.false_eq_true, if_true, if_false, false_imp_iff, true_and, true_imp_iff,
        not_false_iff]
      by_cases secondB : typedIn (C 'B') second = true
      · simp only [secondB, if_true, not_true, false_imp_iff, true_and,
          true_imp_iff]
        rw [laterEq, earlyEq]
        exact restored_iff _ _ _ _ _ _
      · by_cases secondF : typedIn (C 'F') second = true
        · simp only [secondB, secondF, Bool.false_eq_true, if_true,
            if_false, not_true, not_false_iff, false_imp_iff, true_imp_iff, and_true, iff_true]
          intro i
          rw [laterEq]
          exact (resumed_touched_resumed _ _ _).symm
        · simp only [secondB, secondF, Bool.false_eq_true, if_false,
            not_false_iff, true_imp_iff, false_imp_iff, and_true]
          rw [laterEq]
          refine noReader_iff _ _ _ fun i => ?_
          rw [earlyEq]
          exact ⟨rfl, rfl⟩
    · simp [called, firstB, firstF]

/-- A shell that waits, and a job. -/
def oneJob : Slot → Proc := fun i =>
  if i = 0 then { state := .SLEEPING, pid := 1, chan := some (.proc 0) }
  else if i = 1 then { state := .SLEEPING, pid := 2, chan := some (.proc 1), parent := some 0 }
  else if i = 2 then { state := .RUNNABLE, pid := 3, parent := some 1 }
  else {}

/-- Ctrl-B and Ctrl-F in one batch: the Ctrl-F is lost. -/
theorem oneJob_splits :
    ¬ ∀ (cur : Option Slot) (s : Console) (first second : List Byte),
      Same (consoleintr cur (first ++ second) s)
        (consoleintr cur second (consoleintr cur first s)) := by
  intro same
  have differs := (same none ⟨emptyRing, oneJob⟩ [C 'B'] [C 'F']).b 2
  exact absurd differs (by decide)

end Xv6.Public2.Batching
