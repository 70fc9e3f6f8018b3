import Xv6.Public2.Runcmd
import Xv6.Public2.ShellGrammar

/-!
# Pipelines (xv6-public_2)

The descriptors with which the commands of a pipeline are run, and who holds the write ends
of its pipes.
-/

set_option autoImplicit false

namespace Xv6.Public2.Runcmd

open Xv6.Lib.Runs
open Xv6.Lib.Words
open Xv6.Public2.Shell

/-! ## Pipelines -/

/-- An EXEC node in REDIR nodes, from the innermost. -/
structure Command where
  argv : List (List Byte)
  redirs : List (Redirection (List Byte))

def Command.cmd (c : Command) : Cmd (List Byte) := wrap (.exec c.argv) c.redirs

/-- The tree of `c1 | ... | cn`. -/
def pipeline : List Command → Cmd (List Byte)
  | [] => .exec []
  | [c] => c.cmd
  | c :: d :: rest => .pipe c.cmd (pipeline (d :: rest))

/-- The shell that runs the commands from number `k` on. -/
def shell (k : Nat) : Pid := List.replicate k 1

/-- The process of command `k`, if it is not the last. -/
def left (k : Nat) : Pid := 0 :: shell k

/-- The process that runs command `k` of `n`. -/
def runner (n k : Nat) : Pid := if k + 1 < n then left k else shell k

def input (k : Nat) : Obj := if k = 0 then .given 0 else .readEnd (shell (k - 1))

def output (n k : Nat) : Obj := if k + 1 < n then .writeEnd (shell k) else .given 1

def Obj.IsEnd (obj : Obj) : Prop := ∃ maker, obj = .readEnd maker ∨ obj = .writeEnd maker

/-! ## The property -/

/-- The descriptors of a command after these redirections: `input` and `output`, unless they
have been replaced, and no other end of a pipe. -/
structure Wires (input output : Obj) (redirs : List (Redirection (List Byte))) (fds : Fds) :
    Prop where
  stdin : (∀ r ∈ redirs, r.fd ≠ 0) → fds 0 = some input
  stdout : (∀ r ∈ redirs, r.fd ≠ 1) → fds 1 = some output
  ends : ∀ fd obj, fds fd = some obj → obj.IsEnd →
    (fd = 0 ∧ obj = input ∧ ∀ r ∈ redirs, r.fd ≠ 0) ∨
      (fd = 1 ∧ obj = output ∧ ∀ r ∈ redirs, r.fd ≠ 1)

/-- The command is still to be set up, or the shell to go on. -/
def Action.isSetup : Action → Bool
  | .run _ => true
  | .call _ => true
  | .openFile _ _ => true
  | .pipe _ _ => true
  | .fork _ _ => true
  | .exec _ => true
  | _ => false

/-- It has come to a wait(). -/
def Waits (proc : Proc) : Prop := ∃ rest, proc.todo = .wait :: rest

/-- It has still to make calls that its parent has given it. -/
def Calls (proc : Proc) : Prop := ∃ call rest, proc.todo = .call call :: rest

def Setup (proc : Proc) : Prop := ∃ action rest, proc.todo = action :: rest ∧ action.isSetup = true

structure Wired (cs : List Command) (s : State) : Prop where
  /-- A command is exec'd with its ends of the pipes beside it. -/
  execs : ∀ e ∈ s.execs, ∃ k c, cs[k]? = some c ∧ e.pid = runner cs.length k ∧
    e.argv = c.argv ∧ Wires (input k) (output cs.length k) c.redirs e.fds
  /-- Who holds the write end of a pipe. -/
  writers : ∀ pid proc fd maker, s.procs pid = some proc →
    proc.fds fd = some (.writeEnd maker) → ∃ k, maker = shell k ∧
      (pid = left k ∨ (pid = shell k ∧ ¬ Waits proc) ∨ (pid = shell (k + 1) ∧ Calls proc))
  /-- When the shell waits and the process on the right has made its calls, the writer alone
  has the write end, until it exits. -/
  closed : ∀ k parent, s.procs (shell k) = some parent → Waits parent →
    (∀ right, s.procs (shell (k + 1)) = some right → ¬ Calls right) →
    ∀ pid proc fd, s.procs pid = some proc → proc.fds fd = some (.writeEnd (shell k)) →
      pid = left k ∧ proc.todo ≠ []
  /-- Nothing but open() can hold a process up before its exec() or wait(). -/
  moves : ∀ pid proc action rest, s.procs pid = some proc → proc.todo = action :: rest →
    action.isSetup = true → (∀ path mode, action ≠ .openFile path mode) →
    (step s (.turn pid)).isSome = true
  /-- When all are there every command has been exec'd. -/
  reached : (∀ pid proc, s.procs pid = some proc → ¬ Setup proc) →
    ∀ k c, cs[k]? = some c → c.argv ≠ [] → ∃ e ∈ s.execs, e.pid = runner cs.length k

/-! ## Descriptors -/

section Descriptors
variable {fds : Fds} {fd : Nat} {input output : Obj}

theorem fdalloc_eq_some :
    fdalloc fds = some fd ↔ fd < NOFILE ∧ fds fd = none ∧ ∀ j, j < fd → fds j ≠ none := by
  unfold fdalloc
  rw [List.find?_range_eq_some]
  simp only [List.mem_range, Option.isNone_iff_eq_none]
  constructor
  · intro found
    refine ⟨found.2.1, found.1, fun j low none => ?_⟩
    have some := found.2.2 j low
    rw [none] at some
    exact absurd some (by decide)
  · intro found
    refine ⟨found.2.1, found.1, fun j low => ?_⟩
    have some := found.2.2 j low
    cases here : fds j with
    | none => exact absurd here some
    | some obj => rfl

@[simp] theorem standard_zero : standard input output 0 = some input := rfl
@[simp] theorem standard_one : standard input output 1 = some output := rfl
@[simp] theorem standard_two : standard input output 2 = some (.given 2) := rfl
@[simp] theorem standard_more (fd : Nat) : standard input output (fd + 3) = none := rfl

/-- The calls in turn. -/
def applyAll : List Call → Fds → Option Fds
  | [], fds => some fds
  | call :: calls, fds => (call.apply fds).bind (applyAll calls)

/-- The descriptors behind pipe(p). -/
def piping (maker : Pid) (input : Obj) : Fds :=
  Function.update (Function.update (standard input (.given 1)) 3 (some (.readEnd maker))) 4
    (some (.writeEnd maker))

theorem pipe_fds (input : Obj) (maker : Pid) :
    fdalloc (standard input (.given 1)) = some 3 ∧
      fdalloc (Function.update (standard input (.given 1)) 3 (some (.readEnd maker))) = some 4 := by
  constructor
  · rfl
  · rfl

/-- The calls of the child on the left. -/
theorem left_calls (maker : Pid) (input : Obj) :
    applyAll [.close 1, .dup 4, .close 3, .close 4] (piping maker input) =
      some (standard input (.writeEnd maker)) := by
  refine congrArg some (funext fun fd => ?_)
  rcases fd with _ | _ | _ | _ | _ | fd
  all_goals rfl

theorem right_calls (maker : Pid) (input : Obj) :
    applyAll [.close 0, .dup 3, .close 3, .close 4] (piping maker input) =
      some (standard (.readEnd maker) (.given 1)) := by
  refine congrArg some (funext fun fd => ?_)
  rcases fd with _ | _ | _ | _ | _ | fd
  all_goals rfl

end Descriptors

/-! ## Commands -/

/-- A process that has still to make its calls before it runs `cmd` with the standard
descriptors.  It has write ends of `maker` only. -/
structure Start (maker : Pid) (input output : Obj) (cmd : Cmd (List Byte)) (calls : List Call)
    (proc : Proc) : Prop where
  todo : proc.todo = calls.map .call ++ [.run cmd]
  forks : proc.forks = 0
  leads : applyAll calls proc.fds = some (standard input output)
  ends : ∀ fd q, proc.fds fd = some (.writeEnd q) → q = maker

/-- A command, from its redirections to its exit. -/
inductive CommandPhase (input output : Obj) (c : Command) : Proc → Prop where
  | running {fds : Fds} (rest done : List (Redirection (List Byte)))
      (parts : c.redirs = rest ++ done) (wires : Wires input output done fds)
      (full : ∀ fd, fd < 3 → fds fd ≠ none) :
      CommandPhase input output c ⟨[.run (wrap (.exec c.argv) rest)], fds, 0⟩
  | closes {fds : Fds} (rest done : List (Redirection (List Byte)))
      (r : Redirection (List Byte)) (parts : c.redirs = rest ++ r :: done)
      (wires : Wires input output done fds) (full : ∀ fd, fd < 3 → fds fd ≠ none) :
      CommandPhase input output c ⟨[.call (.close r.fd), .openFile r.file r.mode,
        .run (wrap (.exec c.argv) rest)], fds, 0⟩
  | opens {fds : Fds} (rest done : List (Redirection (List Byte)))
      (r : Redirection (List Byte)) (parts : c.redirs = rest ++ r :: done)
      (wires : Wires input output (r :: done) fds)
      (full : ∀ fd, fd < 3 → fd ≠ r.fd → fds fd ≠ none) (hole : fds r.fd = none) :
      CommandPhase input output c
        ⟨[.openFile r.file r.mode, .run (wrap (.exec c.argv) rest)], fds, 0⟩
  | execs {fds : Fds} (some : c.argv ≠ []) (wires : Wires input output c.redirs fds) :
      CommandPhase input output c ⟨[.exec c.argv, .exit], fds, 0⟩
  | program {fds : Fds} (wires : Wires input output c.redirs fds) :
      CommandPhase input output c ⟨[.program c.argv, .exit], fds, 0⟩
  | exits {fds : Fds} (wires : Wires input output c.redirs fds) :
      CommandPhase input output c ⟨[.exit], fds, 0⟩
  | gone : CommandPhase input output c ⟨[], fun _ => none, 0⟩

section Commands
variable {input output : Obj} {c : Command} {fds : Fds}
  {redirs : List (Redirection (List Byte))} {r : Redirection (List Byte)}

theorem wires_standard : Wires input output [] (standard input output) where
  stdin := fun _ => rfl
  stdout := fun _ => rfl
  ends := by
    intro fd obj here isEnd
    rcases fd with _ | _ | _ | fd
    · exact Or.inl ⟨rfl, (Option.some.inj here).symm, nofun⟩
    · exact Or.inr ⟨rfl, (Option.some.inj here).symm, nofun⟩
    · obtain rfl := Option.some.inj here
      obtain ⟨maker, same | same⟩ := isEnd
      · cases same
      · cases same
    · cases here

theorem standard_full (fd : Nat) (low : fd < 3) : standard input output fd ≠ none := by
  rcases fd with _ | _ | _ | fd
  · exact nofun
  · exact nofun
  · exact nofun
  · omega

theorem Wires.close (wires : Wires input output redirs fds) :
    Wires input output (r :: redirs) (Function.update fds r.fd none) where
  stdin := by
    intro others
    have other := others r List.mem_cons_self
    rw [Function.update_of_ne other.symm]
    exact wires.stdin fun r' member => others r' (List.mem_cons_of_mem r member)
  stdout := by
    intro others
    have other := others r List.mem_cons_self
    rw [Function.update_of_ne other.symm]
    exact wires.stdout fun r' member => others r' (List.mem_cons_of_mem r member)
  ends := by
    intro fd obj here isEnd
    by_cases same : fd = r.fd
    · rw [same, Function.update_self] at here
      cases here
    rw [Function.update_of_ne same] at here
    have more : ∀ fd', fd = fd' → (∀ r' ∈ redirs, r'.fd ≠ fd') →
        ∀ r' ∈ r :: redirs, r'.fd ≠ fd' := by
      intro fd' here others r' member
      rcases List.mem_cons.mp member with rfl | member
      · exact here ▸ Ne.symm same
      · exact others r' member
    rcases wires.ends fd obj here isEnd with ⟨first, obj_, others⟩ | ⟨first, obj_, others⟩
    · exact Or.inl ⟨first, obj_, more 0 first others⟩
    · exact Or.inr ⟨first, obj_, more 1 first others⟩

/-- A file in a descriptor that was free. -/
theorem Wires.openFile {fd mode : Nat} {path : List Byte} (wires : Wires input output redirs fds)
    (free : fds fd = none) :
    Wires input output redirs (Function.update fds fd (some (.file path mode))) where
  stdin := by
    intro others
    have here := wires.stdin others
    have other : (0 : Nat) ≠ fd := by
      intro same
      rw [same, free] at here
      cases here
    rw [Function.update_of_ne other]
    exact here
  stdout := by
    intro others
    have here := wires.stdout others
    have other : (1 : Nat) ≠ fd := by
      intro same
      rw [same, free] at here
      cases here
    rw [Function.update_of_ne other]
    exact here
  ends := by
    intro fd' obj here isEnd
    by_cases same : fd' = fd
    · rw [same, Function.update_self] at here
      obtain rfl := Option.some.inj here
      obtain ⟨maker, same | same⟩ := isEnd
      · cases same
      · cases same
    · rw [Function.update_of_ne same] at here
      exact wires.ends fd' obj here isEnd

/-- The file is put where the redirection says, below 3. -/
theorem openFile_full {fd mode : Nat} {path : List Byte}
    (full : ∀ fd, fd < 3 → fd ≠ r.fd → fds fd ≠ none) (hole : fds r.fd = none)
    (found : fdalloc fds = some fd) (x : Nat) (low : x < 3) :
    Function.update fds fd (some (.file path mode)) x ≠ none := by
  obtain ⟨_, free, lowest⟩ := fdalloc_eq_some.mp found
  by_cases same : x = fd
  · rw [same, Function.update_self]
    exact nofun
  rw [Function.update_of_ne same]
  by_cases here : x = r.fd
  · intro _
    have above : ¬ r.fd < fd := fun less => lowest r.fd less hole
    have other : fd = r.fd := by
      by_contra other
      exact full fd (by omega) other free
    exact same (here.trans other.symm)
  · exact full x low here

end Commands

/-! ## Processes of a pipeline -/

/-- Shell `k`, from its command to its exit. -/
inductive ShellPhase (k : Nat) (c : Command) (more : List Command) : Proc → Prop where
  | pipes : ShellPhase k c more
      ⟨[.pipe c.cmd (pipeline more)], standard (input k) (.given 1), 0⟩
  | forksLeft : ShellPhase k c more
      ⟨piped 3 4 c.cmd (pipeline more), piping (shell k) (input k), 0⟩
  | forksRight : ShellPhase k c more
      ⟨(piped 3 4 c.cmd (pipeline more)).drop 1, piping (shell k) (input k), 1⟩
  | closes : ShellPhase k c more
      ⟨[.call (.close 3), .call (.close 4), .wait, .wait, .exit], piping (shell k) (input k), 2⟩
  | closes' : ShellPhase k c more
      ⟨[.call (.close 4), .wait, .wait, .exit],
        Function.update (piping (shell k) (input k)) 3 none, 2⟩
  | waits : ShellPhase k c more ⟨[.wait, .wait, .exit], standard (input k) (.given 1), 2⟩
  | waits' : ShellPhase k c more ⟨[.wait, .exit], standard (input k) (.given 1), 2⟩
  | exits : ShellPhase k c more ⟨[.exit], standard (input k) (.given 1), 2⟩
  | gone : ShellPhase k c more ⟨[], fun _ => none, 2⟩

/-- What a process of the pipeline can be doing. -/
inductive Local (cs : List Command) : Pid → Proc → Prop where
  | shellStart {k : Nat} {c : Command} {more : List Command} {calls : List Call} {proc : Proc}
      (place : cs.drop k = c :: more)
      (start : Start (shell (k - 1)) (input k) (.given 1) (pipeline (c :: more)) calls proc) :
      Local cs (shell k) proc
  | leftStart {k : Nat} {c d : Command} {more : List Command} {calls : List Call} {proc : Proc}
      (place : cs.drop k = c :: d :: more)
      (start : Start (shell k) (input k) (.writeEnd (shell k)) c.cmd calls proc) :
      Local cs (left k) proc
  | shell {k : Nat} {c d : Command} {more : List Command} {proc : Proc}
      (place : cs.drop k = c :: d :: more) (phase : ShellPhase k c (d :: more) proc) :
      Local cs (shell k) proc
  | last {k : Nat} {c : Command} {proc : Proc} (place : cs.drop k = [c])
      (phase : CommandPhase (input k) (.given 1) c proc) : Local cs (shell k) proc
  | left {k : Nat} {c d : Command} {more : List Command} {proc : Proc}
      (place : cs.drop k = c :: d :: more)
      (phase : CommandPhase (input k) (.writeEnd (shell k)) c proc) : Local cs (left k) proc

/-- What a turn of a process does. -/
inductive Turn (cs : List Command) (s : State) (pid : Pid) (proc : Proc) : State → Prop where
  | own (proc' : Proc) (next : Local cs pid proc') (forks : proc'.forks = proc.forks)
      (setup : ∀ k c, pid = runner cs.length k → cs[k]? = some c → c.argv ≠ [] → Setup proc →
        Setup proc') : Turn cs s pid proc (s.put pid proc')
  | execs (k : Nat) (c : Command) (proc' : Proc) (place : cs[k]? = some c)
      (pid_ : pid = runner cs.length k)
      (wires : Wires (input k) (output cs.length k) c.redirs proc.fds)
      (next : Local cs pid proc') (forks : proc'.forks = proc.forks) :
      Turn cs s pid proc { s.put pid proc' with execs := ⟨pid, c.argv, proc.fds⟩ :: s.execs }
  | forks (k : Nat) (proc' child : Proc) (next : Local cs pid proc') (pid_ : pid = shell k)
      (less : k + 1 < cs.length) (forks : proc'.forks = proc.forks + 1)
      (born : Local cs (proc.forks :: pid) child) (setup : Setup child)
      (first : child.forks = 0) (few : proc.forks < 2) :
      Turn cs s pid proc ((s.put pid proc').put (proc.forks :: pid) child)
  | waits (i : Nat) (proc' : Proc) (gone : exited (s.procs (i :: pid)) = true)
      (next : Local cs pid proc') (forks : proc'.forks = proc.forks) (notSetup : ¬ Setup proc) :
      Turn cs s pid proc
        ({ s with procs := Function.update s.procs (i :: pid) none }.put pid proc')

/-! ## Turns -/

section Places
variable {cs more : List Command} {c d : Command} {k : Nat}

theorem place_get (place : cs.drop k = c :: more) : cs[k]? = some c := by
  have first := congrArg (fun l : List Command => l[0]?) place
  rw [List.getElem?_drop, Nat.add_zero] at first
  exact first

theorem place_next (place : cs.drop k = c :: more) : cs.drop (k + 1) = more := by
  rw [← List.drop_drop, place]
  rfl

theorem place_length (place : cs.drop k = c :: more) : cs.length = k + 1 + more.length := by
  have total := congrArg List.length place
  rw [List.length_drop, List.length_cons] at total
  omega

theorem place_left (place : cs.drop k = c :: d :: more) :
    runner cs.length k = left k ∧ output cs.length k = .writeEnd (shell k) ∧
      k + 1 < cs.length := by
  have length := place_length place
  rw [List.length_cons] at length
  have less : k + 1 < cs.length := by omega
  exact ⟨if_pos less, if_pos less, less⟩

theorem place_last (place : cs.drop k = [c]) :
    runner cs.length k = shell k ∧ output cs.length k = .given 1 := by
  have length := place_length place
  rw [List.length_nil] at length
  have last : ¬ k + 1 < cs.length := by omega
  exact ⟨if_neg last, if_neg last⟩

theorem shell_inj {j : Nat} (same : shell j = shell k) : j = k := by
  have lengths := congrArg List.length same
  simpa [shell] using lengths

theorem left_ne_shell {j : Nat} : left j ≠ shell k := by
  intro same
  cases k with
  | zero => cases same
  | succ k =>
      have first : (0 : Nat) = 1 := (List.cons.inj same).1
      omega

theorem shell_succ : shell (k + 1) = 1 :: shell k := rfl

theorem runner_inj {n j : Nat} (same : runner n j = runner n k) : j = k := by
  unfold runner at same
  split at same
  · split at same
    · exact shell_inj (List.cons.inj same).2
    · exact absurd same left_ne_shell
  · split at same
    · exact absurd same.symm left_ne_shell
    · exact shell_inj same

end Places

theorem setup_of {todo : List Action} {fds : Fds} {forks : Nat} {action : Action}
    {rest : List Action} (head : todo = action :: rest) (setup : action.isSetup = true) :
    Setup ⟨todo, fds, forks⟩ := ⟨action, rest, head, setup⟩

theorem not_setup {fds : Fds} {forks : Nat} {action : Action} {rest : List Action}
    (other : action.isSetup = false) : ¬ Setup ⟨action :: rest, fds, forks⟩ := by
  intro setup
  obtain ⟨_, _, head, is⟩ := setup
  rw [← (List.cons.inj head).1, other] at is
  cases is

section Turns
variable {cs : List Command} {s s' : State} {pid : Pid} {proc : Proc} {action : Action}
  {rest : List Action} {k : Nat} {c : Command}

/-- A command's own turn. -/
theorem command_turn {out : Obj} (phase : CommandPhase (input k) out c proc)
    (place : cs[k]? = some c) (pid_ : pid = runner cs.length k)
    (out_ : out = output cs.length k)
    (next : ∀ proc', CommandPhase (input k) out c proc' → Local cs pid proc')
    (todo : proc.todo = action :: rest) (acts : act s pid proc rest action = some s') :
    Turn cs s pid proc s' := by
  have own : ∀ proc', CommandPhase (input k) out c proc' → proc'.forks = proc.forks →
      (c.argv ≠ [] → Setup proc → Setup proc') → Turn cs s pid proc (s.put pid proc') := by
    intro proc' phase forks setup
    refine .own proc' (next proc' phase) forks fun k' c' there here some before => ?_
    obtain rfl := runner_inj (there.symm.trans pid_)
    obtain rfl := Option.some.inj (here.symm.trans place)
    exact setup some before
  cases phase with
  | @running fds left done parts wires full =>
      obtain ⟨rfl, rfl⟩ := List.cons.inj todo
      obtain rfl := Option.some.inj acts
      rcases List.eq_nil_or_concat left with rfl | ⟨left, r, rfl⟩
      · have all : c.redirs = done := parts
        show Turn cs s pid _ (s.put pid ⟨if c.argv = [] then [.exit] else [.exec c.argv, .exit],
          fds, 0⟩)
        by_cases none : c.argv = []
        · rw [if_pos none]
          exact own _ (.exits (all ▸ wires)) rfl fun some => absurd none some
        · rw [if_neg none]
          exact own _ (.execs none (all ▸ wires)) rfl fun _ _ => setup_of rfl rfl
      · have shape : runcmd (wrap (.exec c.argv) (left.concat r)) =
            [.call (.close r.fd), .openFile r.file r.mode, .run (wrap (.exec c.argv) left)] := by
          rw [List.concat_eq_append, wrap, List.foldl_append]
          rfl
        have parts' : c.redirs = left ++ r :: done := by
          rw [parts, List.concat_eq_append, List.append_assoc]
          rfl
        show Turn cs s pid _ (s.put pid ⟨runcmd _, fds, 0⟩)
        rw [shape]
        exact own _ (.closes left done r parts' wires full) rfl fun _ _ => setup_of rfl rfl
  | @closes fds left done r parts wires full =>
      obtain ⟨rfl, rfl⟩ := List.cons.inj todo
      obtain rfl := Option.some.inj acts
      refine own _ (.opens left done r parts wires.close (fun fd low other => ?_) ?_) rfl
        fun _ _ => setup_of rfl rfl
      · rw [Function.update_of_ne other]
        exact full fd low
      · exact Function.update_self ..
  | @opens fds left done r parts wires full hole =>
      obtain ⟨rfl, rfl⟩ := List.cons.inj todo
      obtain ⟨fd, found, rfl⟩ := Option.map_eq_some_iff.mp acts
      have free := (fdalloc_eq_some.mp found).2.1
      exact own _ (.running left (r :: done) parts (wires.openFile free)
        (openFile_full full hole found)) rfl fun _ _ => setup_of rfl rfl
  | @execs fds some wires =>
      obtain ⟨rfl, rfl⟩ := List.cons.inj todo
      obtain rfl := Option.some.inj acts
      exact .execs k c _ place pid_ (out_ ▸ wires) (next _ (.program wires)) rfl
  | @program fds wires =>
      obtain ⟨rfl, rfl⟩ := List.cons.inj todo
      obtain rfl := Option.some.inj acts
      exact own _ (.exits wires) rfl fun _ setup => absurd setup (not_setup rfl)
  | @exits fds wires =>
      obtain ⟨rfl, rfl⟩ := List.cons.inj todo
      obtain rfl := Option.some.inj acts
      exact own _ .gone rfl fun _ setup => absurd setup (not_setup rfl)
  | gone => cases todo

theorem shell_not_runner {n j : Nat} (less : k + 1 < n) : shell k ≠ runner n j := by
  intro same
  unfold runner at same
  split at same
  · exact left_ne_shell same.symm
  · have here := shell_inj same
    omega

theorem piping_ends {maker q : Pid} {input : Obj} {fd : Nat}
    (other : ∀ q, input ≠ .writeEnd q) (here : piping maker input fd = some (.writeEnd q)) :
    q = maker := by
  rcases fd with _ | _ | _ | _ | _ | fd
  · exact absurd (Option.some.inj here) (other q)
  · cases here
  · cases here
  · cases here
  · exact (Obj.writeEnd.inj (Option.some.inj here)).symm
  · cases here

theorem input_ne_writeEnd (k : Nat) (q : Pid) : input k ≠ .writeEnd q := by
  unfold input
  split
  all_goals nofun

/-- The turn of a shell that waits. -/
theorem waits_turn {proc' : Proc} (acts : waits s pid proc rest = some s')
    (same : { proc with todo := rest } = proc') (next : Local cs pid proc')
    (notSetup : ¬ Setup proc) : Turn cs s pid proc s' := by
  have forks : proc'.forks = proc.forks := by rw [← same]
  unfold waits at acts
  dsimp only at acts
  split at acts
  case h_1 i found =>
    have gone := List.find?_some found
    obtain rfl := Option.some.inj acts
    rw [same]
    exact .waits i proc' gone next forks notSetup
  case h_2 =>
    split at acts
    · cases acts
    · obtain rfl := Option.some.inj acts
      rw [same]
      exact .own proc' next forks
        fun _ _ _ _ _ setup => absurd setup notSetup

theorem shell_turn {d : Command} {more : List Command} (place : cs.drop k = c :: d :: more)
    (phase : ShellPhase k c (d :: more) proc) (todo : proc.todo = action :: rest)
    (acts : act s (shell k) proc rest action = some s') : Turn cs s (shell k) proc s' := by
  obtain ⟨_, _, less⟩ := place_left place
  have own : ∀ proc', ShellPhase k c (d :: more) proc' → proc'.forks = proc.forks →
      Turn cs s (shell k) proc (s.put (shell k) proc') := fun proc' phase forks =>
    .own proc' (.shell place phase) forks fun _ _ there => absurd there (shell_not_runner less)
  cases phase with
  | pipes =>
      obtain ⟨rfl, rfl⟩ := List.cons.inj todo
      obtain ⟨first, second⟩ := pipe_fds (input k) (shell k)
      simp only [act, first, second, Option.bind_some, Option.map_some] at acts
      obtain rfl := Option.some.inj acts
      exact own _ .forksLeft rfl
  | forksLeft =>
      obtain ⟨rfl, rfl⟩ := List.cons.inj todo
      obtain rfl := Option.some.inj acts
      have child : Local cs (left k) ⟨[Call.close 1, .dup 4, .close 3, .close 4].map .call ++
          [.run c.cmd], piping (shell k) (input k), 0⟩ :=
        .leftStart place ⟨rfl, rfl, left_calls _ _, fun _ _ here =>
          piping_ends (input_ne_writeEnd k) here⟩
      exact .forks k _ _ (.shell place .forksRight) rfl less rfl child (setup_of rfl rfl) rfl
        Nat.zero_lt_two
  | forksRight =>
      obtain ⟨rfl, rfl⟩ := List.cons.inj todo
      obtain rfl := Option.some.inj acts
      have child : Local cs (shell (k + 1)) ⟨[Call.close 0, .dup 3, .close 3, .close 4].map .call ++
          [.run (pipeline (d :: more))], piping (shell k) (input k), 0⟩ :=
        .shellStart (place_next place) ⟨rfl, rfl, right_calls _ _, fun _ _ here =>
          piping_ends (input_ne_writeEnd k) here⟩
      exact .forks k _ _ (.shell place .closes) rfl less rfl child (setup_of rfl rfl) rfl
        Nat.one_lt_two
  | closes =>
      obtain ⟨rfl, rfl⟩ := List.cons.inj todo
      obtain rfl := Option.some.inj acts
      exact own _ .closes' rfl
  | closes' =>
      obtain ⟨rfl, rfl⟩ := List.cons.inj todo
      obtain rfl := Option.some.inj acts
      have closed : Function.update (Function.update (piping (shell k) (input k)) 3 none) 4 none =
          standard (input k) (.given 1) := by
        funext fd
        rcases fd with _ | _ | _ | _ | _ | fd
        all_goals rfl
      have waits := own ⟨[.wait, .wait, .exit], standard (input k) (.given 1), 2⟩ .waits rfl
      rw [← closed] at waits
      exact waits
  | waits =>
      obtain ⟨rfl, rfl⟩ := List.cons.inj todo
      exact waits_turn acts rfl (.shell place .waits') (not_setup rfl)
  | waits' =>
      obtain ⟨rfl, rfl⟩ := List.cons.inj todo
      exact waits_turn acts rfl (.shell place .exits) (not_setup rfl)
  | exits =>
      obtain ⟨rfl, rfl⟩ := List.cons.inj todo
      obtain rfl := Option.some.inj acts
      exact own _ .gone rfl
  | gone => cases todo

/-- A call of a process that its parent has just made. -/
theorem Call.apply_ends {call : Call} {fds fds' : Fds} {maker : Pid}
    (ends : ∀ fd q, fds fd = some (.writeEnd q) → q = maker)
    (applied : call.apply fds = some fds') (fd : Nat) (q : Pid)
    (here : fds' fd = some (.writeEnd q)) : q = maker := by
  cases call with
  | close old =>
      obtain rfl := Option.some.inj applied
      by_cases same : fd = old
      · rw [same, Function.update_self] at here
        cases here
      · rw [Function.update_of_ne same] at here
        exact ends fd q here
  | dup old =>
      unfold Call.apply at applied
      dsimp only at applied
      split at applied
      · cases applied
      case h_2 obj copied =>
        obtain ⟨new, _, rfl⟩ := Option.map_eq_some_iff.mp applied
        by_cases same : fd = new
        · rw [same, Function.update_self] at here
          exact ends old q (copied.trans here)
        · rw [Function.update_of_ne same] at here
          exact ends fd q here

theorem start_call {maker : Pid} {input output : Obj} {cmd : Cmd (List Byte)} {call : Call}
    {calls : List Call} (start : Start maker input output cmd (call :: calls) proc)
    (todo : proc.todo = action :: rest) (acts : act s pid proc rest action = some s') :
    ∃ proc', s' = s.put pid proc' ∧ Start maker input output cmd calls proc' ∧
      proc'.forks = proc.forks ∧ Setup proc' := by
  have whole : Action.call call :: (calls.map .call ++ [.run cmd]) = action :: rest :=
    start.todo.symm.trans todo
  obtain ⟨rfl, rfl⟩ := List.cons.inj whole
  obtain ⟨fds', applied, rfl⟩ := Option.map_eq_some_iff.mp acts
  have leads := start.leads
  rw [applyAll, applied, Option.bind_some] at leads
  refine ⟨_, rfl, ⟨rfl, start.forks, leads, Call.apply_ends start.ends applied⟩, rfl, ?_⟩
  cases calls with
  | nil => exact setup_of rfl rfl
  | cons call calls => exact setup_of rfl rfl

/-- A process that has made its calls. -/
theorem start_done {maker : Pid} {input output : Obj} {cmd : Cmd (List Byte)}
    (start : Start maker input output cmd [] proc) :
    proc = ⟨[.run cmd], standard input output, 0⟩ := by
  obtain ⟨todo, fds, forks⟩ := proc
  obtain rfl := start.todo
  obtain rfl := start.forks
  obtain rfl := Option.some.inj start.leads
  rfl

theorem start_command (input output : Obj) (c : Command) :
    CommandPhase input output c ⟨[.run c.cmd], standard input output, 0⟩ :=
  .running c.redirs [] (List.append_nil _).symm wires_standard standard_full

/-- Every turn of a process is one of these. -/
theorem turn_cases (local_ : Local cs pid proc) (todo : proc.todo = action :: rest)
    (acts : act s pid proc rest action = some s') : Turn cs s pid proc s' := by
  cases local_ with
  | @shellStart k c more calls proc place start =>
      cases calls with
      | cons call calls =>
          obtain ⟨proc', rfl, started, forks, setup⟩ := start_call start todo acts
          exact .own proc' (.shellStart place started) forks fun _ _ _ _ _ _ => setup
      | nil =>
          obtain rfl := start_done start
          cases more with
          | nil =>
              obtain ⟨pid_, out⟩ := place_last place
              exact command_turn (start_command _ _ c) (place_get place) pid_.symm out.symm
                (fun _ phase => .last place phase) todo acts
          | cons d more =>
              obtain ⟨_, _, less⟩ := place_left place
              obtain ⟨rfl, rfl⟩ := List.cons.inj todo
              obtain rfl := Option.some.inj acts
              exact .own _ (.shell place .pipes) rfl fun _ _ _ _ _ _ => setup_of rfl rfl
  | @leftStart k c d more calls proc place start =>
      cases calls with
      | cons call calls =>
          obtain ⟨proc', rfl, started, forks, setup⟩ := start_call start todo acts
          exact .own proc' (.leftStart place started) forks fun _ _ _ _ _ _ => setup
      | nil =>
          obtain rfl := start_done start
          obtain ⟨pid_, out, _⟩ := place_left place
          exact command_turn (start_command _ _ c) (place_get place) pid_.symm out.symm
            (fun _ phase => .left place phase) todo acts
  | @shell k c d more proc place phase => exact shell_turn place phase todo acts
  | @last k c proc place phase =>
      obtain ⟨pid_, out⟩ := place_last place
      exact command_turn phase (place_get place) pid_.symm out.symm
        (fun _ phase => .last place phase) todo acts
  | @left k c d more proc place phase =>
      obtain ⟨pid_, out, _⟩ := place_left place
      exact command_turn phase (place_get place) pid_.symm out.symm
        (fun _ phase => .left place phase) todo acts

theorem start_todo {maker : Pid} {input output : Obj} {cmd : Cmd (List Byte)}
    {calls : List Call} (start : Start maker input output cmd calls proc)
    (todo : proc.todo = action :: rest) :
    (∃ call, action = .call call) ∨ (calls = [] ∧ action = .run cmd) := by
  have whole := start.todo.symm.trans todo
  cases calls with
  | nil => exact Or.inr ⟨rfl, (List.cons.inj whole).1.symm⟩
  | cons call calls => exact Or.inl ⟨call, (List.cons.inj whole).1.symm⟩

theorem command_exec {input output : Obj} {argv : List (List Byte)}
    (phase : CommandPhase input output c proc) (todo : proc.todo = .exec argv :: rest) :
    argv = c.argv ∧ Wires input output c.redirs proc.fds ∧
      CommandPhase input output c { proc with todo := rest } := by
  cases phase with
  | execs some wires =>
      obtain ⟨same, rfl⟩ := List.cons.inj todo
      exact ⟨(Action.exec.inj same).symm, wires, .exits wires⟩
  | running | closes | opens | program | exits | gone => cases todo

/-- A call of exec(). -/
theorem exec_local {argv : List (List Byte)} (local_ : Local cs pid proc)
    (todo : proc.todo = .exec argv :: rest) :
    ∃ k c, cs[k]? = some c ∧ pid = runner cs.length k ∧ argv = c.argv ∧
      Wires (input k) (output cs.length k) c.redirs proc.fds ∧
      Local cs pid { proc with todo := rest } := by
  cases local_ with
  | shellStart place start =>
      rcases start_todo start todo with ⟨_, same⟩ | ⟨_, same⟩
      · cases same
      · cases same
  | leftStart place start =>
      rcases start_todo start todo with ⟨_, same⟩ | ⟨_, same⟩
      · cases same
      · cases same
  | shell place phase =>
      cases phase
      all_goals cases todo
  | @last k c proc place phase =>
      obtain ⟨pid_, out⟩ := place_last place
      obtain ⟨same, wires, next⟩ := command_exec phase todo
      exact ⟨k, c, place_get place, pid_.symm, same, out.symm ▸ wires, .last place next⟩
  | @left k c d more proc place phase =>
      obtain ⟨pid_, out, _⟩ := place_left place
      obtain ⟨same, wires, next⟩ := command_exec phase todo
      exact ⟨k, c, place_get place, pid_.symm, same, out.symm ▸ wires, .left place next⟩

end Turns

end Xv6.Public2.Runcmd
