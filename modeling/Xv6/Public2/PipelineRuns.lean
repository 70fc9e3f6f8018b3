import Xv6.Public2.Pipelines

/-!
# Runs of a pipeline (xv6-public_2)

However the processes of a pipeline take turns, its commands are exec'd with the right ends
of its pipes and nothing else keeps a pipe open.
-/

set_option autoImplicit false

namespace Xv6.Public2.Runcmd

open Xv6.Lib.Runs
open Xv6.Lib.Words
open Xv6.Public2.Shell

/-! ## Runs -/

/-- Command `i` has still to be reached. -/
inductive Pending (cs : List Command) (s : State) (i : Nat) : Prop where
  | runs (proc : Proc) (here : s.procs (runner cs.length i) = some proc) (setup : Setup proc)
  | right (k : Nat) (proc : Proc) (less : k < i) (here : s.procs (shell k) = some proc)
      (few : proc.forks < 2) (setup : Setup proc)
  | left (proc : Proc) (less : i + 1 < cs.length) (here : s.procs (shell i) = some proc)
      (few : proc.forks < 1) (setup : Setup proc)

def Logged (cs : List Command) (s : State) (i : Nat) : Prop :=
  ∃ e ∈ s.execs, e.pid = runner cs.length i

structure Inv (cs : List Command) (s : State) : Prop where
  procs : ∀ pid proc, s.procs pid = some proc → Local cs pid proc
  execs : ∀ e ∈ s.execs, ∃ k c, cs[k]? = some c ∧ e.pid = runner cs.length k ∧
    e.argv = c.argv ∧ Wires (input k) (output cs.length k) c.redirs e.fds
  reached : ∀ k c, cs[k]? = some c → c.argv ≠ [] → Pending cs s k ∨ Logged cs s k

section Runs
variable {cs : List Command} {s s' : State} {pid : Pid} {proc : Proc}

theorem State.put_self (s : State) (pid : Pid) (proc : Proc) :
    (s.put pid proc).procs pid = some proc := Function.update_self ..

theorem State.put_of_ne (s : State) (proc : Proc) {q : Pid} (other : q ≠ pid) :
    (s.put pid proc).procs q = s.procs q := Function.update_of_ne other ..

/-- A shell with children to come is still being set up. -/
theorem shell_setup {k : Nat} (local_ : Local cs (shell k) proc) (less : k + 1 < cs.length)
    (few : proc.forks < 2) : Setup proc := by
  obtain ⟨pid, same⟩ : ∃ pid, pid = shell k := ⟨_, rfl⟩
  rw [← same] at local_
  cases local_ with
  | shellStart place start =>
      obtain ⟨todo, fds, forks⟩ := proc
      obtain rfl := start.todo
      rename_i calls
      cases calls with
      | nil => exact setup_of rfl rfl
      | cons call calls => exact setup_of rfl rfl
  | leftStart => exact absurd same left_ne_shell
  | shell place phase =>
      cases phase with
      | pipes | forksLeft | forksRight => exact setup_of rfl rfl
      | closes | closes' | waits | waits' | exits | gone => exact absurd few (Nat.lt_irrefl 2)
  | last place phase =>
      have length := place_length place
      have here := shell_inj same
      rw [List.length_nil] at length
      omega
  | left => exact absurd same left_ne_shell

theorem put_procs {proc' : Proc} {P : Pid → Proc → Prop} (next : P pid proc')
    (others : ∀ q p, s.procs q = some p → P q p) (q : Pid) (p : Proc)
    (here : (s.put pid proc').procs q = some p) : P q p := by
  by_cases same : q = pid
  · rw [same, State.put_self] at here
    exact same ▸ Option.some.inj here ▸ next
  · rw [State.put_of_ne s proc' same] at here
    exact others q p here

theorem gone_procs {child : Pid} {P : Pid → Proc → Prop}
    (others : ∀ q p, s.procs q = some p → P q p) (q : Pid) (p : Proc)
    (here : Function.update s.procs child none q = some p) : P q p := by
  by_cases same : q = child
  · rw [same, Function.update_self] at here
    cases here
  · rw [Function.update_of_ne same] at here
    exact others q p here

theorem turn_procs (inv : Inv cs s) (turn : Turn cs s pid proc s') :
    ∀ q p, s'.procs q = some p → Local cs q p := by
  cases turn with
  | own proc' next => exact put_procs next inv.procs
  | execs k c proc' place pid_ wires next => exact put_procs next inv.procs
  | forks k proc' child next pid_ less forks born =>
      exact put_procs born (put_procs next inv.procs)
  | waits i proc' gone next => exact put_procs next (gone_procs inv.procs)

theorem turn_execs (inv : Inv cs s) (turn : Turn cs s pid proc s') :
    ∀ e ∈ s'.execs, ∃ k c, cs[k]? = some c ∧ e.pid = runner cs.length k ∧
      e.argv = c.argv ∧ Wires (input k) (output cs.length k) c.redirs e.fds := by
  cases turn with
  | own | forks | waits => exact inv.execs
  | execs k c proc' place pid_ wires =>
      intro e member
      rcases List.mem_cons.mp member with rfl | member
      · exact ⟨k, c, place, pid_, rfl, wires⟩
      · exact inv.execs e member

/-- The others go on as before. -/
theorem Pending.keep {i : Nat} (pending : Pending cs s i)
    (same : ∀ q p, s.procs q = some p → Setup p → s'.procs q = some p) : Pending cs s' i := by
  cases pending with
  | runs p here setup => exact .runs p (same _ p here setup) setup
  | right k p less here few setup => exact .right k p less (same _ p here setup) few setup
  | left p less here few setup => exact .left p less (same _ p here setup) few setup

/-- A process whose turn it is not, or that goes on with its setup. -/
theorem Pending.put {i : Nat} {proc' : Proc} (pending : Pending cs s i)
    (own : s.procs pid = some proc) (forks : proc'.forks = proc.forks)
    (runs : pid = runner cs.length i → Setup proc → Setup proc')
    (shells : ∀ k, pid = shell k → k + 1 < cs.length → proc.forks < 2 → Setup proc')
    (less : i < cs.length) : Pending cs (s.put pid proc') i := by
  cases pending with
  | runs p here setup =>
      by_cases same : runner cs.length i = pid
      · rw [same, own] at here
        obtain rfl := Option.some.inj here
        exact .runs proc' (same ▸ State.put_self s pid proc') (runs same.symm setup)
      · exact .runs p ((State.put_of_ne s proc' same).trans here) setup
  | right k p low here few setup =>
      by_cases same : shell k = pid
      · rw [same, own] at here
        obtain rfl := Option.some.inj here
        exact .right k proc' low (same ▸ State.put_self s pid proc') (forks ▸ few)
          (shells k same.symm (by omega) few)
      · exact .right k p low ((State.put_of_ne s proc' same).trans here) few setup
  | left p more here few setup =>
      by_cases same : shell i = pid
      · rw [same, own] at here
        obtain rfl := Option.some.inj here
        exact .left proc' more (same ▸ State.put_self s pid proc') (forks ▸ few)
          (shells i same.symm more (by omega))
      · exact .left p more ((State.put_of_ne s proc' same).trans here) few setup

/-- A shell forks: the child takes over what it is there for. -/
theorem fork_pending {i k : Nat} {proc' child : Proc}
    (own : s.procs (shell k) = some proc) (next : Local cs (shell k) proc')
    (less : k + 1 < cs.length) (forks : proc'.forks = proc.forks + 1) (setup : Setup child)
    (first : child.forks = 0) (few : proc.forks < 2) (inside : i < cs.length)
    (pending : Pending cs s i) :
    Pending cs ((s.put (shell k) proc').put (proc.forks :: shell k) child) i := by
  obtain ⟨born, born_⟩ : ∃ born, born = proc.forks :: shell k := ⟨_, rfl⟩
  have apart : shell k ≠ born := by
    intro same
    have lengths := congrArg List.length (same.trans born_)
    rw [List.length_cons] at lengths
    omega
  rw [← born_]
  have there := State.put_self (s.put (shell k) proc') born child
  have parent : ((s.put (shell k) proc').put born child).procs (shell k) = some proc' :=
    (State.put_of_ne _ child apart).trans (State.put_self ..)
  have others : ∀ q p, q ≠ shell k → q ≠ born → s.procs q = some p →
      ((s.put (shell k) proc').put born child).procs q = some p := fun q p notK notBorn here =>
    ((State.put_of_ne _ child notBorn).trans (State.put_of_ne s proc' notK)).trans here
  cases pending with
  | runs p here old =>
      by_cases same : runner cs.length i = born
      · exact .runs child (same ▸ there) setup
      · exact .runs p (others _ p (shell_not_runner less).symm same here) old
  | right j p low here few_ old =>
      by_cases same : shell j = born
      · exact .right j child low (same ▸ there) (first ▸ Nat.zero_lt_two) setup
      by_cases mine : j = k
      · subst mine
        by_cases one : proc.forks = 1
        · -- the child is the shell on the right
          have right : born = shell (j + 1) := by rw [born_, one, shell_succ]
          rw [right] at there ⊢
          by_cases last : j + 1 = i
          · subst last
            by_cases more : j + 1 + 1 < cs.length
            · exact .left child more there (first ▸ Nat.zero_lt_one) setup
            · exact .runs child ((if_neg more : runner cs.length (j + 1) = _) ▸ there) setup
          · exact .right (j + 1) child (by omega) there (first ▸ Nat.zero_lt_two) setup
        · have room : proc'.forks < 2 := by omega
          exact .right j proc' low parent room (shell_setup next less room)
      · exact .right j p low (others _ p (fun h => mine (shell_inj h)) same here) few_ old
  | left p more here few_ old =>
      by_cases same : shell i = born
      · exact .left child more (same ▸ there) (first ▸ Nat.zero_lt_one) setup
      by_cases mine : i = k
      · subst mine
        rw [own] at here
        obtain rfl := Option.some.inj here
        have zero : proc.forks = 0 := by omega
        have leftmost : runner cs.length i = born := by
          rw [born_, zero]
          exact if_pos more
        exact .runs child (leftmost ▸ there) setup
      · exact .left p more (others _ p (fun h => mine (shell_inj h)) same here) few_ old

theorem turn_reached (inv : Inv cs s) (own : s.procs pid = some proc)
    (turn : Turn cs s pid proc s') :
    ∀ k c, cs[k]? = some c → c.argv ≠ [] → Pending cs s' k ∨ Logged cs s' k := by
  intro k c place some
  have inside : k < cs.length := (List.getElem?_eq_some_iff.mp place).1
  cases turn with
  | own proc' next forks setup =>
      refine (inv.reached k c place some).imp_left fun pending => ?_
      exact pending.put own forks (fun pid_ => setup k c pid_ place some)
        (fun _ pid_ less few => shell_setup (pid_ ▸ next) less (forks ▸ few)) inside
  | execs j d proc' place' pid_ wires next forks =>
      by_cases same : k = j
      · exact Or.inr ⟨_, List.mem_cons_self, same ▸ pid_⟩
      refine (inv.reached k c place some).imp (fun pending => ?_) fun logged => ?_
      · have kept := pending.put own forks
          (fun here => absurd (runner_inj (here.symm.trans pid_)) same)
          (fun _ pid_ less few => shell_setup (pid_ ▸ next) less (forks ▸ few)) inside
        exact kept.keep fun _ _ here _ => here
      · obtain ⟨e, member, here⟩ := logged
        exact ⟨e, List.mem_cons_of_mem _ member, here⟩
  | forks j proc' child next pid_ less forks born setup first few =>
      subst pid_
      refine (inv.reached k c place some).imp_left fun pending => ?_
      exact fork_pending own next less forks setup first few inside pending
  | waits i proc' gone next forks notSetup =>
      refine (inv.reached k c place some).imp_left fun pending => ?_
      refine pending.keep fun q p here setup => ?_
      have notHere : q ≠ pid := by
        intro same
        rw [same, own] at here
        exact notSetup (Option.some.inj here ▸ setup)
      have notChild : q ≠ i :: pid := by
        intro same
        rw [← same, here] at gone
        obtain ⟨action, rest, todo, _⟩ := setup
        have empty : p.todo.isEmpty = true := gone
        rw [todo] at empty
        cases empty
      exact (State.put_of_ne _ proc' notHere).trans
        ((Function.update_of_ne notChild ..).trans here)

theorem step_inv (s : State) (e : Event) (s' : State) (inv : Inv cs s)
    (taken : step s e = some s') : Inv cs s' := by
  have done : ∀ pid proc, s.procs pid = some proc → Turn cs s pid proc s' → Inv cs s' :=
    fun pid proc own turn => ⟨turn_procs inv turn, turn_execs inv turn, turn_reached inv own turn⟩
  cases e with
  | turn pid =>
      unfold step at taken
      dsimp only at taken
      split at taken
      · cases taken
      case h_2 proc own =>
        split at taken
        · cases taken
        case h_2 action rest todo =>
          exact done pid proc own (turn_cases (inv.procs pid proc own) todo taken)
  | execFails pid =>
      unfold step at taken
      dsimp only at taken
      split at taken
      · cases taken
      case h_2 proc own =>
        split at taken
        case h_1 argv rest todo =>
          obtain rfl := Option.some.inj taken
          obtain ⟨k, c, place, pid_, rfl, wires, next⟩ := exec_local (inv.procs pid proc own) todo
          exact done pid proc own (.execs k c _ place pid_ wires next rfl)
        case h_2 => cases taken

/-- A command holds a write end only if it is its output. -/
theorem command_ends {input output : Obj} {c : Command} {fd : Nat} {maker : Pid}
    (phase : CommandPhase input output c proc) (other : ∀ q, input ≠ .writeEnd q)
    (here : proc.fds fd = some (.writeEnd maker)) : output = .writeEnd maker := by
  have only : ∀ {redirs fds}, Wires input output redirs fds →
      fds fd = some (.writeEnd maker) → output = .writeEnd maker := by
    intro redirs fds wires here
    rcases wires.ends fd _ here ⟨maker, Or.inr rfl⟩ with ⟨_, same, _⟩ | ⟨_, same, _⟩
    · exact absurd same.symm (other maker)
    · exact same.symm
  cases phase with
  | running rest done parts wires => exact only wires here
  | closes rest done r parts wires => exact only wires here
  | opens rest done r parts wires => exact only wires here
  | execs some wires => exact only wires here
  | program wires => exact only wires here
  | exits wires => exact only wires here
  | gone => cases here

theorem standard_ends {input output : Obj} {fd : Nat} {maker : Pid}
    (other : ∀ q, input ≠ .writeEnd q)
    (here : standard input output fd = some (.writeEnd maker)) : output = .writeEnd maker :=
  command_ends (start_command input output ⟨[], []⟩) other here

theorem piping_writer {k : Nat} {fd : Nat} {maker : Pid} {fds : Fds}
    (less : ∀ fd, fds fd = piping (shell k) (input k) fd ∨ fds fd = none)
    (here : fds fd = some (.writeEnd maker)) : maker = shell k := by
  rcases less fd with same | none
  · exact piping_ends (input_ne_writeEnd k) (same.symm.trans here)
  · rw [none] at here
    cases here

theorem not_waits {todo : List Action} {fds : Fds} {forks : Nat} {action : Action}
    {rest : List Action} (head : todo = action :: rest) (other : action.isSetup = true) :
    ¬ Waits ⟨todo, fds, forks⟩ := by
  intro waits
  obtain ⟨more, same⟩ := waits
  rw [← (List.cons.inj (same.symm.trans head)).1] at other
  cases other

theorem local_writers {fd : Nat} {maker : Pid} (local_ : Local cs pid proc)
    (here : proc.fds fd = some (.writeEnd maker)) :
    ∃ k, maker = shell k ∧
      (pid = left k ∨ (pid = shell k ∧ ¬ Waits proc) ∨ (pid = shell (k + 1) ∧ Calls proc)) := by
  cases local_ with
  | @shellStart k c more calls proc place start =>
      have maker_ := start.ends fd maker here
      cases calls with
      | nil =>
          obtain rfl := start_done start
          cases standard_ends (input_ne_writeEnd k) here
      | cons call calls =>
          cases k with
          | zero =>
              refine ⟨0, maker_, Or.inr (Or.inl ⟨rfl, fun waits => ?_⟩)⟩
              obtain ⟨rest, todo⟩ := waits
              cases start.todo.symm.trans todo
          | succ k => exact ⟨k, maker_, Or.inr (Or.inr ⟨rfl, call, _, start.todo⟩)⟩
  | @leftStart k c d more calls proc place start =>
      exact ⟨k, start.ends fd maker here, Or.inl rfl⟩
  | @shell k c d more proc place phase =>
      have holds : ∀ {todo fds forks}, (∀ fd, fds fd = piping (shell k) (input k) fd ∨
          fds fd = none) → fds fd = some (.writeEnd maker) → ¬ Waits ⟨todo, fds, forks⟩ →
          ∃ j, maker = shell j ∧ (shell k = left j ∨ (shell k = shell j ∧
            ¬ Waits ⟨todo, fds, forks⟩) ∨ (shell k = shell (j + 1) ∧
            Calls ⟨todo, fds, forks⟩)) := fun less here waits =>
        ⟨k, piping_writer less here, Or.inr (Or.inl ⟨rfl, waits⟩)⟩
      have none : ∀ fd', standard (input k) (.given 1) fd' ≠ some (.writeEnd maker) :=
        fun fd' here => by cases standard_ends (input_ne_writeEnd k) here
      cases phase with
      | pipes => exact absurd here (none fd)
      | forksLeft => exact holds (fun _ => Or.inl rfl) here (not_waits rfl rfl)
      | forksRight => exact holds (fun _ => Or.inl rfl) here (not_waits rfl rfl)
      | closes => exact holds (fun _ => Or.inl rfl) here (not_waits rfl rfl)
      | closes' =>
          refine holds (fun fd' => ?_) here (not_waits rfl rfl)
          by_cases same : fd' = 3
          · rw [same]
            exact Or.inr (Function.update_self ..)
          · exact Or.inl (Function.update_of_ne same ..)
      | waits => exact absurd here (none fd)
      | waits' => exact absurd here (none fd)
      | exits => exact absurd here (none fd)
      | gone => cases here
  | @last k c proc place phase => cases command_ends phase (input_ne_writeEnd k) here
  | @left k c d more proc place phase =>
      have same := command_ends phase (input_ne_writeEnd k) here
      exact ⟨k, (Obj.writeEnd.inj same).symm, Or.inl rfl⟩

theorem local_alive {fd : Nat} {obj : Obj} (local_ : Local cs pid proc)
    (here : proc.fds fd = some obj) : proc.todo ≠ [] := by
  have started : ∀ {maker input output cmd calls}, Start maker input output cmd calls proc →
      proc.todo ≠ [] := by
    intro maker input output cmd calls start
    rw [start.todo]
    exact List.append_ne_nil_of_right_ne_nil _ nofun
  have command : ∀ {input output c}, CommandPhase input output c proc → proc.todo ≠ [] := by
    intro input output c phase
    cases phase with
    | running | closes | opens | execs | program | exits => nofun
    | gone => cases here
  cases local_ with
  | shellStart place start => exact started start
  | leftStart place start => exact started start
  | shell place phase =>
      cases phase with
      | pipes | forksLeft | forksRight | closes | closes' | waits | waits' | exits => nofun
      | gone => cases here
  | last place phase => exact command phase
  | left place phase => exact command phase

/-- A process makes its calls. -/
theorem local_calls {call : Call} {rest : List Action} (local_ : Local cs pid proc)
    (todo : proc.todo = .call call :: rest) : (call.apply proc.fds).isSome = true := by
  have started : ∀ {maker input output cmd calls}, Start maker input output cmd calls proc →
      (call.apply proc.fds).isSome = true := by
    intro maker input output cmd calls start
    have whole := start.todo.symm.trans todo
    have leads := start.leads
    cases calls with
    | nil => cases whole
    | cons first calls =>
        obtain ⟨same, _⟩ := List.cons.inj whole
        cases same
        obtain ⟨fds, applied, _⟩ := Option.bind_eq_some_iff.mp leads
        rw [applied]
        rfl
  have command : ∀ {input output c}, CommandPhase input output c proc →
      (call.apply proc.fds).isSome = true := by
    intro input output c phase
    cases phase with
    | closes =>
        obtain ⟨same, _⟩ := List.cons.inj todo
        cases same
        rfl
    | running | opens | execs | program | exits | gone => cases todo
  cases local_ with
  | shellStart place start => exact started start
  | leftStart place start => exact started start
  | shell place phase =>
      cases phase with
      | closes | closes' =>
          obtain ⟨same, _⟩ := List.cons.inj todo
          cases same
          rfl
      | pipes | forksLeft | forksRight | waits | waits' | exits | gone => cases todo
  | last place phase => exact command phase
  | left place phase => exact command phase

theorem local_pipes {first second : Cmd (List Byte)} {rest : List Action}
    (local_ : Local cs pid proc) (todo : proc.todo = .pipe first second :: rest) :
    (act s pid proc rest (.pipe first second)).isSome = true := by
  cases local_ with
  | shellStart place start =>
      rcases start_todo start todo with ⟨_, same⟩ | ⟨_, same⟩
      · cases same
      · cases same
  | leftStart place start =>
      rcases start_todo start todo with ⟨_, same⟩ | ⟨_, same⟩
      · cases same
      · cases same
  | @shell k c d more proc place phase =>
      cases phase with
      | pipes =>
          obtain ⟨low, high⟩ := pipe_fds (input k) (shell k)
          simp only [act, low, high, Option.bind_some, Option.map_some, Option.isSome_some]
      | forksLeft | forksRight | closes | closes' | waits | waits' | exits | gone => cases todo
  | last place phase =>
      cases phase
      all_goals cases todo
  | left place phase =>
      cases phase
      all_goals cases todo

/-- Only open() can fail for a process that is being set up. -/
theorem local_moves {action : Action} {rest : List Action} (local_ : Local cs pid proc)
    (todo : proc.todo = action :: rest) (setup : action.isSetup = true)
    (other : ∀ path mode, action ≠ .openFile path mode) :
    (act s pid proc rest action).isSome = true := by
  cases action with
  | run | fork | exec => rfl
  | openFile path mode => exact absurd rfl (other path mode)
  | wait | program | exit => cases setup
  | call call =>
      unfold act
      dsimp only
      rw [Option.isSome_map]
      exact local_calls local_ todo
  | pipe first second => exact local_pipes local_ todo

theorem Inv.wired (inv : Inv cs s) : Wired cs s where
  execs := inv.execs
  writers := fun pid proc fd maker here holds => local_writers (inv.procs pid proc here) holds
  closed := by
    intro k parent own waits quiet pid proc fd here holds
    have alive := local_alive (inv.procs pid proc here) holds
    obtain ⟨j, same, who⟩ := local_writers (inv.procs pid proc here) holds
    obtain rfl := shell_inj same
    rcases who with left | ⟨shell_, notWaits⟩ | ⟨right, calls⟩
    · exact ⟨left, alive⟩
    · rw [shell_, own] at here
      exact absurd (Option.some.inj here ▸ waits) notWaits
    · exact absurd calls (quiet proc (right ▸ here))
  moves := by
    intro pid proc action rest here todo setup other
    have moves := local_moves (s := s) (inv.procs pid proc here) todo setup other
    unfold step
    dsimp only
    rw [here]
    dsimp only
    rw [todo]
    exact moves
  reached := by
    intro none k c place some
    rcases inv.reached k c place some with pending | logged
    · cases pending with
      | runs p here setup => exact absurd setup (none _ p here)
      | right j p low here few setup => exact absurd setup (none _ p here)
      | left p more here few setup => exact absurd setup (none _ p here)
    · exact logged

end Runs

theorem start_procs {cmd : Cmd (List Byte)} {q : Pid} {p : Proc}
    (here : (start cmd).procs q = some p) :
    q = [] ∧ p = ⟨[.run cmd], standard (.given 0) (.given 1), 0⟩ := by
  by_cases same : q = []
  · subst same
    exact ⟨rfl, (Option.some.inj here).symm⟩
  · have none : (start cmd).procs q = none := State.put_of_ne _ _ same
    rw [none] at here
    cases here

theorem start_inv (c : Command) (more : List Command) :
    Inv (c :: more) (start (pipeline (c :: more))) where
  procs := by
    intro q p here
    obtain ⟨rfl, rfl⟩ := start_procs here
    refine @Local.shellStart (c :: more) 0 c more [] _ rfl ⟨rfl, rfl, rfl, ?_⟩
    intro fd maker here
    cases standard_ends (input_ne_writeEnd 0) here
  execs := nofun
  reached := by
    intro k d place _
    have own : (start (pipeline (c :: more))).procs (shell 0) =
        some ⟨[.run (pipeline (c :: more))], standard (.given 0) (.given 1), 0⟩ := rfl
    have inside := (List.getElem?_eq_some_iff.mp place).1
    refine Or.inl ?_
    cases k with
    | zero =>
        by_cases more_ : 0 + 1 < (c :: more).length
        · exact .left _ more_ own Nat.zero_lt_one (setup_of rfl rfl)
        · exact .runs _ ((if_neg more_ : runner (c :: more).length 0 = _) ▸ own) (setup_of rfl rfl)
    | succ k => exact .right 0 _ (Nat.succ_pos k) own Nat.zero_lt_two (setup_of rfl rfl)

/-- `a | b` until the shell waits, while the child on the right has done nothing yet. -/
def early : List Event := List.replicate 6 (.turn [])

def ab : List Command := [⟨[[0x61]], []⟩, ⟨[[0x62]], []⟩]

theorem early_completes : (run step (start (pipeline ab)) early).isSome = true := rfl

end Xv6.Public2.Runcmd
