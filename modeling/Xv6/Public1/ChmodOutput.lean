import Xv6.Common.Cprintf
import Xv6.Public1.Syscall

/-!
# What the chmod system call prints (sysproc.c and exec.c of xv6-public_1)

sys_chmod() gives the user's path to cprintf() as its format, and chmod_actual() the
address 2.
-/

set_option autoImplicit false

namespace Xv6.Public1.ChmodOutput

open Xv6.Common.Cprintf
open Xv6.Lib.CString
open Xv6.Lib.Words
open Xv6.Public1.Syscall

/-- The first argument of cprintf(). -/
inductive Format where
  /-- A string literal of the kernel. -/
  | literal (s : List Byte)
  | pointer (a : Word)

def Format.bytes (mem : Memory) : Format → List Byte
  | .literal s => s
  | .pointer a => memoryFrom mem a

inductive Panic where
  /-- panic("null fmt") -/
  | nullFmt
  deriving DecidableEq

/-- One call of cprintf(): its format, the number of arguments after it, how many of them
have been taken, and what is on the console. -/
structure Printed where
  format : Format
  given : Nat
  taken : Nat
  output : List Byte

/-- cprintf() with its arguments, where `above` are the words of the stack after them. -/
def cprintf (mem : Memory) (fmt : Format) (args : List Word) (above : Nat → Word) :
    Except Panic Printed :=
  let argp := fun i => args.getD i (above (i - args.length))
  let printed := cprintfLoop mem argp (fmt.bytes mem)
  let call : Printed := ⟨fmt, args.length, printed.2, printed.1⟩
  match fmt with
  | .literal _ => pure call
  | .pointer a => if a = 0 then .error .nullFmt else pure call

/-- What the system call finds, apart from its own arguments. -/
structure State where
  caller : Caller
  /-- The kernel stack above the arguments that sys_chmod() passes. -/
  above : Nat → Word
  /-- The kernel stack above the arguments that chmod_actual() passes. -/
  above' : Nat → Word
  /-- Where "Operation chmod failed: cannot modify chmod itself.\n" is. -/
  message : Word
  /-- namei() finds the file. -/
  found : Bool

def State.mem (s : State) : Memory := s.caller.mem

/-- argstr(), with the pointer that it stores. -/
def argstrAt (p : Caller) (n : Word) : Option Word :=
  (argint p n).bind fun addr => (fetchstr p addr).map fun _ => addr

def invalidMinor : List Byte :=
  bytes "\nOperation chmod failed: invalid minor %d. Allowed range is 0-7.\n"

def valueIs : List Byte := bytes "Value is %d\n"

def chmod_actual (s : State) (file mode : Word) : Except Panic (Int × List Printed) :=
  if strcmp (memoryFrom s.mem file) (bytes "chmod") = 0 then do
    let call ← cprintf s.mem (.pointer 2) [s.message] s.above'
    pure (-1, [call])
  else if mode > 7 then do
    let call ← cprintf s.mem (.literal invalidMinor) [mode] s.above'
    pure (-1, [call])
  else if !s.found then pure (-1, [])
  else do
    let call ← cprintf s.mem (.literal valueIs) [mode] s.above'
    pure (0, [call])

/-- What sys_chmod() returns, and its calls of cprintf(). -/
def sys_chmod (s : State) : Except Panic (Int × List Printed) :=
  match argstrAt s.caller 0 with
  | none => pure (-1, [])
  | some file =>
      match argint s.caller 1 with
      | none => pure (-1, [])
      | some mode => do
          let call ← cprintf s.mem (.pointer file) [] s.above
          let rest ← chmod_actual s file mode
          pure (rest.1, call :: rest.2)

/-! ## What is to be printed -/

/-- What chmod_actual() is to print, from the path, the mode and the result. -/
def outcome (path : List Byte) (mode : Word) (result : Int) : List Byte :=
  if path = bytes "chmod" then bytes "Operation chmod failed: cannot modify chmod itself.\n"
  else if mode > 7 then
    bytes "\nOperation chmod failed: invalid minor " ++ printint mode 10 true ++
      bytes ". Allowed range is 0-7.\n"
  else if result = 0 then bytes "Value is " ++ printint mode 10 true ++ bytes "\n"
  else []

/-- sys_chmod() accepts the path at `file` and the mode. -/
structure Accepts (s : State) (file mode : Word) : Prop where
  path : argstrAt s.caller 0 = some file
  mode : argint s.caller 1 = some mode

/-- No call takes more than it is given, and the path is printed as it is, with what the
mode and the result call for. -/
def Verbatim (s : State) (path : List Byte) (mode : Word) : Prop :=
  ∃ result calls, sys_chmod s = .ok (result, calls) ∧ (∀ call ∈ calls, call.taken ≤ call.given) ∧
    calls.flatMap Printed.output = path ++ outcome path mode result

/-- So it is whatever the stack and the rest of memory are. (At address 0 a path is no
format at all.) -/
def Independent (s : State) (file mode : Word) : Prop :=
  ∀ (s' : State) (file' : Word), Accepts s' file' mode → (file' = 0 ↔ file = 0) →
    stringAt s'.mem file' = stringAt s.mem file → Verbatim s' (stringAt s.mem file) mode

/-- Every format is a string literal of the kernel. -/
def Constant (s : State) : Prop :=
  ∀ result calls, sys_chmod s = .ok (result, calls) → ∀ call ∈ calls, ∃ t, call.format = .literal t

/-! ## The calls of chmod_actual() -/

/-- A literal with one `%d`. -/
theorem cprintfLoop_oneInt {mem : Memory} {argp : Nat → Word} {front back : List Byte}
    (literal : ∀ c ∈ front, c ≠ 0 ∧ c ≠ percent) (literal' : ∀ c ∈ back, c ≠ 0 ∧ c ≠ percent) :
    cprintfLoop mem argp (front ++ percent :: 100 :: back) =
      (front ++ printint (argp 0) 10 true ++ back, 1) := by
  have last : cprintfLoop mem (fun i => argp (i + 1)) back = (back, 0) := by
    have printed := @cprintfLoop_literal mem (fun i => argp (i + 1)) back [] literal'
    rwa [cprintfLoop, List.append_nil] at printed
  rw [cprintfLoop_literal literal, cprintfLoop_int, last, List.append_assoc]

theorem cprintf_oneInt {mem : Memory} {above : Nat → Word} {fmt front back : List Byte}
    (mode : Word) (split : fmt = front ++ percent :: 100 :: back)
    (literal : ∀ c ∈ front, c ≠ 0 ∧ c ≠ percent) (literal' : ∀ c ∈ back, c ≠ 0 ∧ c ≠ percent) :
    cprintf mem (.literal fmt) [mode] above =
      .ok ⟨.literal fmt, 1, 1, front ++ printint mode 10 true ++ back⟩ := by
  have printed := @cprintfLoop_oneInt mem (fun i => [mode].getD i (above (i - 1))) front back
    literal literal'
  rw [← split] at printed
  show Except.ok (⟨_, _, (cprintfLoop mem (fun i => [mode].getD i (above (i - 1))) fmt).2,
    (cprintfLoop mem (fun i => [mode].getD i (above (i - 1))) fmt).1⟩ : Printed) = _
  rw [printed]
  rfl

theorem strcmp_chmod (s : State) (file : Word) :
    strcmp (memoryFrom s.mem file) (bytes "chmod") = 0 ↔ stringAt s.mem file = bytes "chmod" := by
  rw [strcmp_eq_zero_iff]
  have itself : text (bytes "chmod") = bytes "chmod" := by decide
  rw [itself, stringAt]

/-- Unless the path is `chmod`, the calls of chmod_actual() are as they should be. -/
theorem chmod_actual_spec {s : State} {file : Word} (mode : Word)
    (other : stringAt s.mem file ≠ bytes "chmod") :
    ∃ result calls, chmod_actual s file mode = .ok (result, calls) ∧
      (∀ call ∈ calls, call.taken ≤ call.given) ∧
      calls.flatMap Printed.output = outcome (stringAt s.mem file) mode result := by
  have value (result : Int) : outcome (stringAt s.mem file) mode result =
      if mode > 7 then
        bytes "\nOperation chmod failed: invalid minor " ++ printint mode 10 true ++
          bytes ". Allowed range is 0-7.\n"
      else if result = 0 then bytes "Value is " ++ printint mode 10 true ++ bytes "\n"
      else [] := if_neg other
  unfold chmod_actual
  rw [if_neg fun same => other ((strcmp_chmod s file).mp same)]
  by_cases large : mode > 7
  · rw [if_pos large, @cprintf_oneInt s.mem s.above' invalidMinor
      (bytes "\nOperation chmod failed: invalid minor ") (bytes ". Allowed range is 0-7.\n") mode
      (by decide +kernel) (by decide +kernel) (by decide +kernel)]
    refine ⟨-1, _, rfl, ?_, ?_⟩
    · intro call listed
      obtain rfl := List.mem_singleton.mp listed
      exact Nat.le_refl 1
    · rw [value, if_pos large]
      exact List.append_nil _
  · rw [if_neg large]
    cases found : s.found with
    | false => exact ⟨-1, [], rfl, fun _ listed => absurd listed List.not_mem_nil, by
        rw [value, if_neg large]
        rfl⟩
    | true =>
        rw [@cprintf_oneInt s.mem s.above' valueIs (bytes "Value is ") (bytes "\n") mode
          (by decide +kernel) (by decide +kernel) (by decide +kernel)]
        refine ⟨0, _, rfl, ?_, ?_⟩
        · intro call listed
          obtain rfl := List.mem_singleton.mp listed
          exact Nat.le_refl 1
        · rw [value, if_neg large, if_pos rfl]
          exact List.append_nil _

/-! ## The call of sys_chmod() -/

section Calls

variable {s : State} {file mode : Word}

/-- The call of cprintf() with the path as its format. -/
def pathCall (s : State) (file : Word) : Printed :=
  ⟨.pointer file, 0, (cprintfLoop s.mem s.above (memoryFrom s.mem file)).2,
    (cprintfLoop s.mem s.above (memoryFrom s.mem file)).1⟩

theorem sys_chmod_eq (accepts : Accepts s file mode) (nonnull : file ≠ 0) :
    sys_chmod s =
      (chmod_actual s file mode).map fun rest => (rest.1, pathCall s file :: rest.2) := by
  have first : cprintf s.mem (.pointer file) [] s.above = .ok (pathCall s file) := if_neg nonnull
  unfold sys_chmod
  rw [accepts.path, accepts.mode]
  simp only
  rw [first]
  cases chmod_actual s file mode <;> rfl

theorem sys_chmod_null (accepts : Accepts s 0 mode) : sys_chmod s = .error .nullFmt := by
  have first : cprintf s.mem (.pointer 0) [] s.above = .error .nullFmt := by
    unfold cprintf
    exact if_pos rfl
  unfold sys_chmod
  rw [accepts.path, accepts.mode]
  simp only
  rw [first]
  rfl

/-- A path without directives, other than `chmod`, is printed as it is. -/
theorem verbatim_of_plain (accepts : Accepts s file mode) (nonnull : file ≠ 0)
    (plain : Plain (stringAt s.mem file)) (other : stringAt s.mem file ≠ bytes "chmod") :
    Verbatim s (stringAt s.mem file) mode := by
  obtain ⟨result, calls, ran, enough, printed⟩ := chmod_actual_spec mode other
  have first := @cprintfLoop_plain s.mem s.above (memoryFrom s.mem file) plain
  refine ⟨result, pathCall s file :: calls, ?_, ?_, ?_⟩
  · rw [sys_chmod_eq accepts nonnull, ran]
    rfl
  · intro call listed
    rcases List.mem_cons.mp listed with rfl | later
    · exact Nat.le_of_eq (congrArg Prod.snd first)
    · exact enough call later
  · rw [List.flatMap_cons, printed, pathCall, first]
    rfl

/-- Under the name `chmod`, the format is what is in memory from address 2 on. -/
theorem chmod_actual_chmod (mode : Word) (name : stringAt s.mem file = bytes "chmod") :
    ∃ taken, chmod_actual s file mode = .ok (-1, [⟨.pointer 2, 1, taken,
      (cprintfLoop s.mem (fun i => [s.message].getD i (s.above' (i - 1)))
        (memoryFrom s.mem 2)).1⟩]) := by
  have nonnull : (2 : Word) ≠ 0 := by decide
  refine ⟨(cprintfLoop s.mem (fun i => [s.message].getD i (s.above' (i - 1)))
    (memoryFrom s.mem 2)).2, ?_⟩
  unfold chmod_actual
  rw [if_pos ((strcmp_chmod s file).mpr name), cprintf, if_neg nonnull]
  rfl

/-- The format of the first call is the user's. -/
theorem not_constant (accepts : Accepts s file mode) (nonnull : file ≠ 0) : ¬ Constant s := by
  intro constant
  obtain ⟨result, calls, ran⟩ : ∃ result calls, chmod_actual s file mode = .ok (result, calls) := by
    by_cases name : stringAt s.mem file = bytes "chmod"
    · obtain ⟨taken, ran⟩ := chmod_actual_chmod mode name
      exact ⟨_, _, ran⟩
    · obtain ⟨result, calls, ran, -⟩ := chmod_actual_spec mode name
      exact ⟨result, calls, ran⟩
  have whole : sys_chmod s = .ok (result, pathCall s file :: calls) := by
    rw [sys_chmod_eq accepts nonnull, ran]
    rfl
  obtain ⟨t, literal⟩ := constant _ _ whole (pathCall s file) (.head _)
  cases literal

/-! ## Where the output depends on the stack or on other memory -/

theorem fetchstrLoop_nul {mem : Memory} {a : Word} {left n : Nat}
    (found : fetchstrLoop mem a left = some n) : mem (a + BitVec.ofNat 32 n) = 0 ∧ n < left := by
  induction left generalizing a n with
  | zero => cases found
  | succ left ih =>
      rw [fetchstrLoop] at found
      split at found
      · rename_i nul
        cases found
        exact ⟨by rw [BitVec.add_zero]; exact nul, Nat.succ_pos left⟩
      · obtain ⟨m, later, rfl⟩ := Option.map_eq_some_iff.mp found
        obtain ⟨nul, low⟩ := ih later
        rw [address_succ]
        exact ⟨nul, Nat.succ_lt_succ low⟩

/-- The NUL of an accepted path is not at address 0. -/
theorem Accepts.nul (accepts : Accepts s file mode) (nonnull : file ≠ 0) :
    ∃ z, z ≠ 0 ∧ s.mem z = 0 := by
  obtain ⟨addr, -, fetched⟩ := Option.bind_eq_some_iff.mp accepts.path
  obtain ⟨n, found, rfl⟩ := Option.map_eq_some_iff.mp fetched
  rw [fetchstr] at found
  split at found
  · cases found
  · obtain ⟨nul, low⟩ := fetchstrLoop_nul found
    refine ⟨_, ?_, nul⟩
    have place : addr.toNat ≠ 0 := fun zero => nonnull (BitVec.eq_of_toNat_eq zero)
    have limit := s.caller.sz.isLt
    bv_omega

/-- With other words on the stack, a directive in the path shows. -/
theorem plain_of_independent (accepts : Accepts s file mode) (nonnull : file ≠ 0)
    (other : stringAt s.mem file ≠ bytes "chmod") (independent : Independent s file mode) :
    Plain (stringAt s.mem file) := by
  obtain ⟨z, place, nul⟩ := accepts.nul nonnull
  obtain ⟨argp, -, shorter⟩ := cprintfLoop_short place nul (memoryFrom s.mem file)
  by_contra special
  have less := shorter special
  have accepts' : Accepts { s with above := argp } file mode := ⟨accepts.path, accepts.mode⟩
  obtain ⟨result, calls, ran, -, printed⟩ := independent _ file accepts' Iff.rfl rfl
  obtain ⟨result', calls', ran', -, printed'⟩ :=
    @chmod_actual_spec { s with above := argp } file mode other
  rw [sys_chmod_eq accepts' nonnull, ran'] at ran
  cases ran
  have lengths := congrArg List.length printed
  rw [List.flatMap_cons, printed', List.length_append, List.length_append] at lengths
  exact absurd (Nat.add_right_cancel lengths) (Nat.ne_of_lt less)

/-- With nothing at address 2, nothing is printed after the name `chmod`. -/
theorem chmod_not_verbatim (accepts : Accepts s file mode) (nonnull : file ≠ 0)
    (name : stringAt s.mem file = bytes "chmod") (nul : s.mem 2 = 0) :
    ¬ Verbatim s (bytes "chmod") mode := by
  rintro ⟨result, calls, ran, -, printed⟩
  obtain ⟨taken, actual⟩ := chmod_actual_chmod mode name
  rw [sys_chmod_eq accepts nonnull, actual] at ran
  cases ran
  have plain : Plain (text (memoryFrom s.mem file)) := by
    show Plain (stringAt s.mem file)
    rw [name]
    intro before after split
    have listed : percent ∈ bytes "chmod" := by
      rw [split]
      exact List.mem_append_right _ (.head _)
    exact absurd listed (by decide)
  have nothing : text (memoryFrom s.mem 2) = [] := stringAt_nul nul
  have silent : Plain (text (memoryFrom s.mem 2)) := by
    rw [nothing]
    exact plain_nil
  have first : (pathCall s file).output = bytes "chmod" :=
    (congrArg Prod.fst (cprintfLoop_plain plain)).trans name
  have second := @cprintfLoop_plain s.mem (fun i => [s.message].getD i (s.above' (i - 1))) _ silent
  have due : outcome (bytes "chmod") mode (-1) =
      bytes "Operation chmod failed: cannot modify chmod itself.\n" := if_pos rfl
  have some_text : bytes "Operation chmod failed: cannot modify chmod itself.\n" ≠ [] := by
    decide
  rw [List.flatMap_cons, first, List.flatMap_cons, second, nothing, due] at printed
  exact some_text (List.append_cancel_left printed).symm

end Calls

theorem stringAt_cons {mem : Memory} {a : Word} (some_char : mem a ≠ 0)
    (inside : a.toNat + 1 < 2 ^ 32) :
    stringAt mem a = mem a :: stringAt mem (a + 1) := by
  have size : 2 ^ 32 - a.toNat = 2 ^ 32 - (a + 1).toNat + 1 := by bv_omega
  rw [stringAt, memoryFrom, size, load, List.range_succ_eq_map, List.map_cons, text_cons,
    BitVec.add_zero, if_neg some_char, List.map_map, stringAt, memoryFrom, load]
  congr 2
  apply List.map_congr_left
  intro i _
  exact congrArg mem (address_succ a i)

/-- A string that is stored at an address, with its NUL. -/
theorem stringAt_eq {mem : Memory} {a : Word} {path : List Byte}
    (stored : ∀ i, i ≤ path.length → mem (a + BitVec.ofNat 32 i) = path.getD i 0) (clean : 0 ∉ path)
    (inside : a.toNat + path.length < 2 ^ 32) : stringAt mem a = path := by
  induction path generalizing a with
  | nil =>
      have nul := stored 0 (Nat.zero_le _)
      rw [BitVec.add_zero] at nul
      exact stringAt_nul nul
  | cons c path ih =>
      rw [List.length_cons] at inside
      have first : mem a = c := by
        have value := stored 0 (Nat.zero_le _)
        rwa [BitVec.add_zero] at value
      have nonzero : mem a ≠ 0 := by
        rw [first]
        exact fun zero => clean (zero ▸ .head _)
      rw [stringAt_cons nonzero (by omega), first]
      congr 1
      refine ih (fun i low => ?_) (fun listed => clean (.tail _ listed)) ?_
      · rw [← address_succ]
        exact stored (i + 1) (Nat.succ_le_succ low)
      · have next : (a + 1).toNat = a.toNat + 1 := by bv_omega
        omega

theorem fetchstrLoop_eq {mem : Memory} {a : Word} {path : List Byte} {left : Nat}
    (stored : ∀ i, i ≤ path.length → mem (a + BitVec.ofNat 32 i) = path.getD i 0) (clean : 0 ∉ path)
    (inside : path.length < left) : fetchstrLoop mem a left = some path.length := by
  induction path generalizing a left with
  | nil =>
      obtain ⟨left, rfl⟩ : ∃ n, left = n + 1 := ⟨left - 1, by
        rw [List.length_nil] at inside
        omega⟩
      have nul : mem a = 0 := by
        have value := stored 0 (Nat.zero_le _)
        rwa [BitVec.add_zero] at value
      rw [fetchstrLoop, if_pos nul]
      rfl
  | cons c path ih =>
      rw [List.length_cons] at inside
      obtain ⟨left, rfl⟩ : ∃ n, left = n + 1 := ⟨left - 1, by omega⟩
      have first : mem a = c := by
        have value := stored 0 (Nat.zero_le _)
        rwa [BitVec.add_zero] at value
      have nonzero : mem a ≠ 0 := by
        rw [first]
        exact fun zero => clean (zero ▸ .head _)
      rw [fetchstrLoop, if_neg nonzero, @ih (a + 1) left (fun i low => ?_)
        (fun listed => clean (.tail _ listed)) (by omega)]
      · rfl
      · rw [← address_succ]
        exact stored (i + 1) (Nat.succ_le_succ low)

/-- A process whose memory begins with a return address, its two arguments and the path;
everything else is 0. -/
def pathMemory (path : List Byte) (mode : Word) : Memory := fun a =>
  ([0, 0, 0, 0] ++ wordBytes 12 ++ wordBytes mode ++ path).getD a.toNat 0

def pathState (path : List Byte) (mode : Word) : State where
  caller := { sz := 4096, tf := {}, mem := pathMemory path mode, blocked_syscalls := fun _ => 0 }
  above := fun _ => 0
  above' := fun _ => 0
  message := 0x80108000
  found := false

section PathState

variable {path : List Byte} (mode : Word) (clean : 0 ∉ path) (short : path.length < 4000)

include short in
theorem pathState_stored (i : Nat) (low : i ≤ path.length) :
    (pathState path mode).mem (12 + BitVec.ofNat 32 i) = path.getD i 0 := by
  have place : (12 + BitVec.ofNat 32 i : Word).toNat = 12 + i := by bv_omega
  have front : ([0, 0, 0, 0] ++ wordBytes 12 ++ wordBytes mode).length = 12 := rfl
  show ([0, 0, 0, 0] ++ wordBytes 12 ++ wordBytes mode ++ path).getD
    (12 + BitVec.ofNat 32 i : Word).toNat 0 = _
  rw [place, List.getD_append_right _ _ _ _ (by rw [front]; omega), front,
    Nat.add_sub_cancel_left]

include clean short

theorem pathState_path : stringAt (pathState path mode).mem 12 = path :=
  stringAt_eq (pathState_stored mode short) clean (by
    show 12 + path.length < 2 ^ 32
    omega)

theorem pathState_accepts : Accepts (pathState path mode) 12 mode := by
  have word (a : Word) {w : Word} (low : ¬ (a ≥ (4096 : Word) ∨ a + 4 > 4096))
      (stored : loadWord (pathMemory path mode) a = w) :
      fetchint (pathState path mode).caller a = some w := by
    unfold fetchint
    exact (if_neg low).trans (congrArg some stored)
  have first : argint (pathState path mode).caller 0 = some 12 :=
    word 4 (by decide) (wordBytes_joined 12)
  have second : argint (pathState path mode).caller 1 = some mode :=
    word 8 (by decide) (wordBytes_joined mode)
  have below : ¬ (12 : Word) ≥ 4096 := by decide
  have length : fetchstr (pathState path mode).caller 12 = some path.length := by
    unfold fetchstr
    refine (if_neg below).trans (fetchstrLoop_eq (pathState_stored mode short) clean ?_)
    show path.length < 4084
    omega
  refine ⟨?_, second⟩
  rw [argstrAt, first, Option.bind_some, length]
  rfl

end PathState

/-- There may be nothing at address 2. -/
theorem exists_silent (mode : Word) : ∃ (s : State) (file : Word), Accepts s file mode ∧
    file ≠ 0 ∧ stringAt s.mem file = bytes "chmod" ∧ s.mem 2 = 0 := by
  have clean : 0 ∉ bytes "chmod" := by decide
  have short : (bytes "chmod").length < 4000 := by decide
  exact ⟨_, 12, pathState_accepts mode clean short, by decide,
    pathState_path mode clean short, rfl⟩

/-- The claim on the output fails for every path: the first format is the path itself. Its
output is independent of all but the path, the mode and the result if and only if the path
is not at address 0, has no directive, and is not `chmod`. -/
theorem sys_chmod_prints {s : State} {file mode : Word} (accepts : Accepts s file mode) :
    ¬ (Constant s ∧ Independent s file mode) ∧
      (Independent s file mode ↔
        file ≠ 0 ∧ Plain (stringAt s.mem file) ∧ stringAt s.mem file ≠ bytes "chmod") := by
  have exact_when : Independent s file mode ↔
      file ≠ 0 ∧ Plain (stringAt s.mem file) ∧ stringAt s.mem file ≠ bytes "chmod" := by
    constructor
    · intro independent
      have nonnull : file ≠ 0 := by
        rintro rfl
        obtain ⟨result, calls, ran, -⟩ := independent s 0 accepts Iff.rfl rfl
        rw [sys_chmod_null accepts] at ran
        cases ran
      have other : stringAt s.mem file ≠ bytes "chmod" := by
        intro name
        obtain ⟨s', file', accepts', nonnull', name', nul⟩ := exists_silent mode
        have verbatim := independent s' file' accepts' (iff_of_false nonnull' nonnull)
          (name'.trans name.symm)
        rw [name] at verbatim
        exact chmod_not_verbatim accepts' nonnull' name' nul verbatim
      exact ⟨nonnull, plain_of_independent accepts nonnull other independent, other⟩
    · rintro ⟨nonnull, plain, other⟩ s' file' accepts' placed same
      rw [← same] at plain other ⊢
      exact verbatim_of_plain accepts' (fun null => nonnull (placed.mp null)) plain other
  refine ⟨?_, exact_when⟩
  rintro ⟨constant, independent⟩
  exact not_constant accepts (exact_when.mp independent).1 constant

theorem sys_chmod_prints_init :
    let s := pathState (bytes "init") 5
    Accepts s 12 5 ∧ ¬ (Constant s ∧ Independent s 12 5) ∧
      (Independent s 12 5 ↔
        (12 : Word) ≠ 0 ∧ Plain (stringAt s.mem 12) ∧ stringAt s.mem 12 ≠ bytes "chmod") :=
  ⟨pathState_accepts 5 (by decide) (by decide),
    sys_chmod_prints (pathState_accepts 5 (by decide) (by decide))⟩

/-- `chmod %x 5` -/
theorem sys_chmod_percent :
    ¬ ∀ (s : State) (file mode : Word), Accepts s file mode →
      Constant s ∧ Independent s file mode := by
  intro claim
  have accepts := @pathState_accepts (bytes "%x") 5 (by decide) (by decide)
  have path := @pathState_path (bytes "%x") 5 (by decide) (by decide)
  have nonnull : (12 : Word) ≠ 0 := by decide
  have plain := plain_of_independent accepts nonnull (by rw [path]; decide)
    (claim _ 12 5 accepts).2
  rw [path] at plain
  exact plain [] [120] (by decide) (by decide)

end Xv6.Public1.ChmodOutput
