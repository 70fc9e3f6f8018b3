import Xv6.Public2.ShellGrammar

/-!
# What the shell's parser returns (xv6-public_2)

With enough fuel the parser returns or panics, and what it returns is derived from the
grammar.
-/

set_option autoImplicit false

namespace Xv6.Public2.Shell

open Xv6.Lib.Outcome
open Xv6.Lib.Words

/-! ## Commands -/

def Redirection.map {α β : Type} (f : α → β) (r : Redirection α) : Redirection β :=
  ⟨f r.file, r.mode, r.fd⟩

def Cmd.All {α : Type} (p : α → Prop) : Cmd α → Prop
  | .exec argv => ∀ w ∈ argv, p w
  | .redir cmd file _ _ => cmd.All p ∧ p file
  | .pipe left right => left.All p ∧ right.All p
  | .list left right => left.All p ∧ right.All p
  | .back cmd => cmd.All p

section Commands
variable {α β : Type}

theorem wrap_append (cmd : Cmd α) (first second : List (Redirection α)) :
    wrap (wrap cmd first) second = wrap cmd (first ++ second) :=
  List.foldl_append.symm

theorem wrap_push (cmd : Cmd α) (rs : List (Redirection α)) (w : α) :
    (wrap cmd rs).push w = wrap (cmd.push w) rs := by
  induction rs generalizing cmd with
  | nil => rfl
  | cons r rs ih => exact ih _

theorem wrap_map (f : α → β) (cmd : Cmd α) (rs : List (Redirection α)) :
    (wrap cmd rs).map f = wrap (cmd.map f) (rs.map (Redirection.map f)) := by
  induction rs generalizing cmd with
  | nil => rfl
  | cons r rs ih => exact ih _

theorem Cmd.All.mono {p q : α → Prop} (weaker : ∀ w, p w → q w) {cmd : Cmd α}
    (all : cmd.All p) : cmd.All q := by
  induction cmd with
  | exec argv => exact fun w member => weaker w (all w member)
  | redir cmd file mode fd ih => exact ⟨ih all.1, weaker file all.2⟩
  | pipe left right first second => exact ⟨first all.1, second all.2⟩
  | list left right first second => exact ⟨first all.1, second all.2⟩
  | back cmd ih => exact ih all

theorem all_wrap {p : α → Prop} {cmd : Cmd α} {rs : List (Redirection α)} (all : cmd.All p)
    (files : ∀ r ∈ rs, p r.file) : (wrap cmd rs).All p := by
  induction rs generalizing cmd with
  | nil => exact all
  | cons r rs ih =>
      refine ih ?_ fun r' member => files r' (List.mem_cons_of_mem r member)
      exact ⟨all, files r List.mem_cons_self⟩

end Commands

/-! ## What is left of the line -/

section Suffix
variable {s rest : List Byte}

theorem Redirs.suffix {rs : List (Redirection (List Byte))} (redirs : Redirs s rs rest) :
    rest <:+ s := by
  induction redirs with
  | done blank => exact blank_suffix blank
  | more first _ ih =>
      cases first with
      | input symbol word => exact (ih.trans word.suffix).trans symbol.suffix
      | output symbol word => exact (ih.trans word.suffix).trans symbol.suffix
      | append symbol word => exact (ih.trans word.suffix).trans symbol.suffix

theorem Args.suffix {ws : List (List Byte)} {rs : List (Redirection (List Byte))}
    (args : Args s ws rs rest) : rest <:+ s := by
  induction args with
  | done blank => exact blank_suffix blank
  | more word redirs _ ih => exact (ih.trans redirs.suffix).trans word.suffix

theorem Backs.suffix {cmd all : Cmd (List Byte)} (backs : Backs s cmd all rest) :
    rest <:+ s := by
  induction backs with
  | done blank => exact blank_suffix blank
  | more symbol _ ih => exact ih.trans symbol.suffix

theorem Derives.suffix {n : Nonterminal} {cmd : Cmd (List Byte)}
    (derives : Derives n s cmd rest) : rest <:+ s := by
  induction derives with
  | line _ backs ih => exact backs.suffix.trans ih
  | list _ backs symbol _ pipe more =>
      exact ((more.trans symbol.suffix).trans backs.suffix).trans pipe
  | last _ ih => exact ih
  | pipe _ symbol _ exec more => exact (more.trans symbol.suffix).trans exec
  | block opens _ closes redirs ih =>
      exact ((redirs.suffix.trans closes.suffix).trans ih).trans opens.suffix
  | exec redirs args => exact args.suffix.trans redirs.suffix

/-! More whitespace may be left out. -/

theorem blank_trans {a : List Byte} (first : Blank s a) (second : Blank a rest) :
    Blank s rest := by
  obtain ⟨blanks, all, rfl⟩ := first
  obtain ⟨more, others, rfl⟩ := second
  refine ⟨blanks ++ more, fun c member => ?_, (List.append_assoc ..).symm⟩
  rcases List.mem_append.mp member with member | member
  · exact all c member
  · exact others c member

theorem Word.blank {a w : List Byte} (word : Word w s a) (blank : Blank a rest) :
    Word w s rest := by
  obtain ⟨b, before, stops, behind⟩ := word.spelled
  exact ⟨word.some, word.letters, b, before, stops, blank_trans behind blank⟩

theorem Redirs.blank {a : List Byte} {rs : List (Redirection (List Byte))}
    (redirs : Redirs s rs a) (blank : Blank a rest) : Redirs s rs rest := by
  induction redirs with
  | done before => exact .done (blank_trans before blank)
  | more first _ ih => exact .more first (ih blank)

theorem Args.blank {a : List Byte} {ws : List (List Byte)}
    {rs : List (Redirection (List Byte))} (args : Args s ws rs a) (blank : Blank a rest) :
    Args s ws rs rest := by
  induction args with
  | done before => exact .done (blank_trans before blank)
  | more word redirs _ ih => exact .more word redirs (ih blank)

theorem Backs.blank {a : List Byte} {cmd all : Cmd (List Byte)} (backs : Backs s cmd all a)
    (blank : Blank a rest) : Backs s cmd all rest := by
  induction backs with
  | done before => exact .done (blank_trans before blank)
  | more symbol _ ih => exact .more symbol (ih blank)

theorem Derives.blank {n : Nonterminal} {a : List Byte} {cmd : Cmd (List Byte)}
    (derives : Derives n s cmd a) (blank : Blank a rest) : Derives n s cmd rest := by
  induction derives with
  | line pipe backs _ => exact .line pipe (backs.blank blank)
  | list pipe backs symbol _ _ more => exact .list pipe backs symbol (more blank)
  | last _ ih => exact .last (ih blank)
  | pipe exec symbol _ _ more => exact .pipe exec symbol (more blank)
  | block opens line closes redirs _ => exact .block opens line closes (redirs.blank blank)
  | exec redirs args few => exact .exec redirs (args.blank blank) few

theorem Span.Inside.longer {w : Span} (inside : w.Inside rest) (suffix : rest <:+ s) :
    w.Inside s := ⟨inside.inside.trans suffix, inside.spelled, inside.letters, inside.stops⟩

end Suffix

/-! ## What the loops return -/

/-- A run that gives up has had less than `least` fuel. -/
def Tired (fuel least : Nat) (stop : Stop) : Prop := stop = .fuel → fuel < least

section Sound
variable {s : List Byte} {c : Byte}

theorem tired_less {fuel less least least' : Nat} (enough : least ≤ fuel → least' ≤ less)
    (stop : Stop) (tired : Tired less least' stop) : Tired fuel least stop := by
  intro same
  have low := tired same
  by_contra high
  have more := enough (Nat.not_lt.mp high)
  omega

theorem tired_panic {fuel least : Nat} {msg : String} : Tired fuel least (.panic msg) := nofun

/-- What peek() has seen is the next token. -/
theorem peek_single (seen : peek s [c] = true) (single : c ∈ singles) :
    (gettoken s).ret = c ∧ Symbol [c] s (gettoken s).rest := by
  have nul : (0 : Byte) ∉ [c] := fun member =>
    (single_symbol single).2.1 (List.mem_singleton.mp member).symm
  obtain ⟨d, member, head⟩ := (peek_eq_true nul).mp seen
  obtain rfl := List.mem_singleton.mp member
  obtain ⟨a, whole⟩ := List.head?_eq_some_iff.mp head
  rw [gettoken_single whole single]
  exact ⟨rfl, symbol_here whole⟩

/-- The redirection that parseredirs() adds. -/
def redirection (tok : Byte) (file : Span) : Redirection Span :=
  if tok = 0x3c then ⟨file, O_RDONLY, 0⟩ else ⟨file, O_WRONLY ||| O_CREATE, 1⟩

theorem redirection_file (tok : Byte) (file : Span) : (redirection tok file).file = file := by
  unfold redirection
  split
  all_goals rfl

theorem gettoken_suffix (s : List Byte) : (gettoken s).rest <:+ s := by
  have left : ∀ q, q <:+ skip s → skip q <:+ s := fun q part =>
    ((blank_suffix (blank_skip q)).trans part).trans (blank_suffix (blank_skip s))
  unfold gettoken
  dsimp only
  split
  · exact left _ (List.suffix_refl _)
  split
  · exact left _ (List.tail_suffix _)
  split
  · split
    · exact left _ ((List.tail_suffix _).trans (List.tail_suffix _))
    · exact left _ (List.tail_suffix _)
  · exact left _ (List.dropWhile_suffix _)

/-- The next token is the end, a word or a symbol. -/
theorem gettoken_cases (s : List Byte) :
    ((gettoken s).ret = 0 ∧ (gettoken s).rest = skip s) ∨
      ((gettoken s).ret = 0x61 ∧
        Word (Span.text ⟨(gettoken s).q, (gettoken s).eq⟩) s (gettoken s).rest ∧
        Span.Inside s ⟨(gettoken s).q, (gettoken s).eq⟩) ∨
      ((gettoken s).ret ≠ 0 ∧ (gettoken s).ret ≠ 0x61) := by
  by_cases nul : (skip s).headD 0 = 0
  · rw [gettoken_nul nul]
    exact Or.inl ⟨rfl, rfl⟩
  obtain ⟨c, a, head⟩ : ∃ c a, skip s = c :: a := by
    cases whole : skip s with
    | nil => exact absurd (by rw [whole]; rfl) nul
    | cons c a => exact ⟨c, a, rfl⟩
  rw [head] at nul
  have visible := head_visible (congrArg List.head? head)
  rcases letter_cases visible with single | greater | letter
  · obtain ⟨symbol, notNul, _⟩ := single_symbol single
    rw [gettoken_single head single]
    refine Or.inr (Or.inr ⟨notNul, fun same => ?_⟩)
    have symbol : (0x61 : Byte) ∈ symbols := same ▸ symbol
    exact absurd symbol (by decide)
  · rw [greater] at head
    rw [gettoken_greater head]
    refine Or.inr (Or.inr ?_)
    have more : (0x2b : Byte) ≠ 0 ∧ (0x2b : Byte) ≠ 0x61 := by decide
    have one : (0x3e : Byte) ≠ 0 ∧ (0x3e : Byte) ≠ 0x61 := by decide
    split
    · exact more
    · exact one
  · exact Or.inr (Or.inl (gettoken_spells head letter nul))

theorem gettoken_word_of (found : (gettoken s).ret = 0x61) :
    Word (Span.text ⟨(gettoken s).q, (gettoken s).eq⟩) s (gettoken s).rest ∧
      Span.Inside s ⟨(gettoken s).q, (gettoken s).eq⟩ := by
  rcases gettoken_cases s with ⟨nul, _⟩ | ⟨_, word⟩ | ⟨_, other⟩
  · rw [nul] at found
    exact absurd found (by decide)
  · exact word
  · exact absurd found other

theorem gettoken_blank (found : (gettoken s).ret = 0) : Blank s (gettoken s).rest := by
  rcases gettoken_cases s with ⟨_, rest⟩ | ⟨word, _⟩ | ⟨other, _⟩
  · rw [rest]
    exact blank_skip s
  · rw [word] at found
    exact absurd found (by decide)
  · exact absurd found other

/-- What is seen of a redirection. -/
theorem peek_redir (seen : peek s [0x3c, 0x3e] = true) (file : Span)
    (word : Word file.text (gettoken s).rest (gettoken (gettoken s).rest).rest) (cmd : Cmd Span) :
    redirect (gettoken s).ret cmd file = wrap cmd [redirection (gettoken s).ret file] ∧
      Redir s ((redirection (gettoken s).ret file).map Span.text)
        (gettoken (gettoken s).rest).rest := by
  obtain ⟨d, member, head⟩ := (peek_eq_true (by decide)).mp seen
  obtain ⟨a, whole⟩ := List.head?_eq_some_iff.mp head
  rcases List.mem_cons.mp member with rfl | member
  · have found := gettoken_single whole (by decide)
    have symbol : Symbol [0x3c] s (gettoken s).rest := by
      rw [found]
      exact symbol_here whole
    have ret : (gettoken s).ret = 0x3c := by rw [found]
    rw [ret]
    exact ⟨rfl, .input symbol word⟩
  · obtain rfl := List.mem_singleton.mp member
    have found := gettoken_greater whole
    by_cases second : a.headD 0 = 0x3e
    · rw [if_pos second] at found
      have again : a = 0x3e :: a.tail := by
        cases a with
        | nil => exact absurd second (by decide)
        | cons e a => exact congrArg (· :: a) second
      have symbol : Symbol [0x3e, 0x3e] s (gettoken s).rest := by
        rw [found]
        exact symbol_here (whole.trans (congrArg _ again))
      have ret : (gettoken s).ret = 0x2b := by rw [found]
      rw [ret]
      exact ⟨rfl, .append symbol word⟩
    · rw [if_neg second] at found
      have symbol : Symbol [0x3e] s (gettoken s).rest := by
        rw [found]
        exact symbol_here whole
      have ret : (gettoken s).ret = 0x3e := by rw [found]
      rw [ret]
      exact ⟨rfl, .output symbol word⟩

theorem Redir.shorter {r : Redirection (List Byte)} {rest : List Byte} (redir : Redir s r rest) :
    rest.length < s.length := by
  cases redir with
  | input symbol word => exact word.shorter.trans symbol.shorter
  | output symbol word => exact word.shorter.trans symbol.shorter
  | append symbol word => exact word.shorter.trans symbol.shorter

theorem parseredirs_sound (fuel : Nat) (cmd : Cmd Span) (s : List Byte) :
    Ends (parseredirs fuel cmd s) (Tired fuel (s.length + 1)) fun r =>
      ∃ rs, r.1 = wrap cmd rs ∧ Redirs s (rs.map (Redirection.map Span.text)) r.2 ∧
        ∀ x ∈ rs, x.file.Inside s := by
  induction fuel generalizing cmd s with
  | zero => exact ends_error fun _ => Nat.succ_pos _
  | succ fuel ih =>
      rw [parseredirs]
      split
      case isFalse => exact ⟨[], rfl, .done (blank_skip s), nofun⟩
      case isTrue seen =>
        dsimp only
        rw [gettoken_skip]
        split
        case isTrue => exact ends_error tired_panic
        case isFalse found =>
          obtain ⟨word, inside⟩ := gettoken_word_of (not_not.mp found)
          obtain ⟨wrapped, redir⟩ := peek_redir seen ⟨_, _⟩ word cmd
          have suffix : (gettoken (gettoken s).rest).rest <:+ s :=
            Redirs.suffix (.more redir (.done (blank_refl _)))
          have less := redir.shorter
          rw [wrapped]
          refine ends_mono (ih _ _) (tired_less fun _ => by omega) ?_
          intro r returned
          obtain ⟨rs, same, later, files⟩ := returned
          refine ⟨_ :: rs, same, .more redir later, fun x member => ?_⟩
          rcases List.mem_cons.mp member with rfl | member
          · rw [redirection_file]
            exact inside.longer (gettoken_suffix s)
          · exact (files x member).longer suffix

/-- What the loop of parseexec() adds to the command. -/
def Added (argc : Nat) (argv : List Span) (rs : List (Redirection Span)) (s : List Byte)
    (r : Cmd Span × List Byte) : Prop :=
  ∃ ws rs', r.1 = wrap (.exec (argv ++ ws)) (rs ++ rs') ∧
    Args s (ws.map Span.text) (rs'.map (Redirection.map Span.text)) r.2 ∧
    argc + ws.length ≤ 9 ∧ (∀ w ∈ ws, w.Inside s) ∧ ∀ x ∈ rs', x.file.Inside s

theorem parseargs_sound (fuel argc : Nat) (argv : List Span) (rs : List (Redirection Span))
    (s : List Byte) (few : argc ≤ 9) :
    Ends (parseargs fuel argc (wrap (.exec argv) rs) s) (Tired fuel (s.length + 1))
      (Added argc argv rs s) := by
  induction fuel generalizing argc argv rs s with
  | zero => exact ends_error fun _ => Nat.succ_pos _
  | succ fuel ih =>
      have none : ∀ rest, Blank s rest → Ends (.ok (wrap (.exec argv) rs, rest) : Parse)
          (Tired (fuel + 1) (s.length + 1)) (Added argc argv rs s) := by
        intro rest blank
        refine ⟨[], [], ?_, .done blank, few, nofun, nofun⟩
        rw [List.append_nil, List.append_nil]
      rw [parseargs]
      split
      case isTrue => exact none _ (blank_skip s)
      case isFalse =>
        dsimp only
        rw [gettoken_skip]
        split
        case isTrue nul => exact none _ (gettoken_blank nul)
        case isFalse =>
          split
          case isTrue => exact ends_error tired_panic
          case isFalse found =>
            split
            case isTrue => exact ends_error tired_panic
            case isFalse more =>
              obtain ⟨word, inside⟩ := gettoken_word_of (not_not.mp found)
              have less := word.shorter
              rw [wrap_push]
              refine ends_bind (ends_mono (parseredirs_sound fuel _ _)
                (tired_less fun _ => by omega) ?_)
              intro r returned
              obtain ⟨rs₁, same, redirs, files₁⟩ := returned
              have shorter := redirs.suffix.length_le
              rw [same, wrap_append]
              have later := ih (argc + 1) (argv ++ [⟨(gettoken s).q, (gettoken s).eq⟩])
                (rs ++ rs₁) r.2 (by unfold MAXARGS at more; omega)
              refine ends_mono later (tired_less fun _ => by omega) ?_
              intro r' returned
              obtain ⟨ws, rs₂, same', args, count, words, files₂⟩ := returned
              have suffix := redirs.suffix.trans (gettoken_suffix s)
              refine ⟨⟨(gettoken s).q, (gettoken s).eq⟩ :: ws, rs₁ ++ rs₂, ?_, ?_, ?_, ?_, ?_⟩
              · rw [same', List.append_assoc, List.append_assoc]
                rfl
              · rw [List.map_append]
                exact .more word redirs args
              · rw [List.length_cons]
                omega
              · intro w member
                rcases List.mem_cons.mp member with rfl | member
                · exact inside
                · exact (words w member).longer suffix
              · intro x member
                rcases List.mem_append.mp member with member | member
                · exact (files₁ x member).longer (gettoken_suffix s)
                · exact (files₂ x member).longer suffix

theorem parsebacks_sound (fuel : Nat) (cmd : Cmd Span) (s : List Byte) :
    Ends (parsebacks fuel cmd s) (Tired fuel (s.length + 1)) fun r =>
      Backs s (cmd.map Span.text) (r.1.map Span.text) r.2 ∧
        ∀ p : Span → Prop, cmd.All p → r.1.All p := by
  induction fuel generalizing cmd s with
  | zero => exact ends_error fun _ => Nat.succ_pos _
  | succ fuel ih =>
      rw [parsebacks]
      split
      case isFalse => exact ⟨.done (blank_skip s), fun _ all => all⟩
      case isTrue seen =>
        obtain ⟨_, symbol⟩ := peek_single seen (by decide)
        have less := symbol.shorter
        rw [gettoken_skip]
        refine ends_mono (ih _ _) (tired_less fun _ => by omega) ?_
        intro r returned
        obtain ⟨later, all⟩ := returned
        exact ⟨.more symbol later, all⟩

/-! ## What the parser returns -/

@[simp] theorem parseblock_skip (fuel : Nat) (s : List Byte) :
    parseblock fuel (skip s) = parseblock fuel s := by
  cases fuel with
  | zero => rfl
  | succ fuel => rw [parseblock, parseblock, peek_skip, skip_skip]

@[simp] theorem parseredirs_skip (fuel : Nat) (cmd : Cmd Span) (s : List Byte) :
    parseredirs fuel cmd (skip s) = parseredirs fuel cmd s := by
  cases fuel with
  | zero => rfl
  | succ fuel => rw [parseredirs, parseredirs, peek_skip, skip_skip]

/-- What is derived from a stretch of the line that the parser has been through. -/
def Returned (n : Nonterminal) (s : List Byte) (r : Cmd Span × List Byte) : Prop :=
  Derives n s (r.1.map Span.text) r.2 ∧ r.1.All (Span.Inside s)

theorem all_longer {rest : List Byte} {cmd : Cmd Span} (all : cmd.All (Span.Inside rest))
    (suffix : rest <:+ s) : cmd.All (Span.Inside s) :=
  all.mono fun _ inside => inside.longer suffix

/-- Each of the four functions, by the length of what is left of the line. -/
structure Sound (fuel : Nat) : Prop where
  line : ∀ s : List Byte,
    Ends (parseline fuel s) (Tired fuel (4 * s.length + 4)) (Returned .line s)
  pipe : ∀ s : List Byte,
    Ends (parsepipe fuel s) (Tired fuel (4 * s.length + 3)) (Returned .pipe s)
  exec : ∀ s : List Byte,
    Ends (parseexec fuel s) (Tired fuel (4 * s.length + 2)) (Returned .exec s)
  block : ∀ s : List Byte,
    Ends (parseblock fuel s) (Tired fuel (4 * s.length + 1)) (Returned .exec s)

theorem parseline_sound {fuel : Nat} (sound : Sound fuel) (s : List Byte) :
    Ends (parseline (fuel + 1) s) (Tired (fuel + 1) (4 * s.length + 4)) (Returned .line s) := by
  rw [parseline]
  refine ends_bind (ends_mono (sound.pipe s) (tired_less fun _ => by omega) ?_)
  intro first returned
  obtain ⟨pipe, allPipe⟩ := returned
  have left := pipe.suffix.length_le
  refine ends_bind (ends_mono (parsebacks_sound fuel first.1 first.2)
    (tired_less fun _ => by omega) ?_)
  intro r returned
  obtain ⟨backs, all⟩ := returned
  have less := backs.suffix.length_le
  have suffix := backs.suffix.trans pipe.suffix
  split
  case isFalse => exact ⟨.line pipe (backs.blank (blank_skip r.2)), all _ allPipe⟩
  case isTrue seen =>
    obtain ⟨_, symbol⟩ := peek_single seen (by decide)
    have shorter := symbol.shorter
    rw [gettoken_skip]
    refine ends_bind (ends_mono (sound.line _) (tired_less fun _ => by omega) ?_)
    intro more returned
    obtain ⟨line, allLine⟩ := returned
    refine ⟨.list pipe backs symbol line, all _ allPipe, ?_⟩
    exact all_longer allLine (symbol.suffix.trans suffix)

theorem parsepipe_sound {fuel : Nat} (sound : Sound fuel) (s : List Byte) :
    Ends (parsepipe (fuel + 1) s) (Tired (fuel + 1) (4 * s.length + 3)) (Returned .pipe s) := by
  rw [parsepipe]
  refine ends_bind (ends_mono (sound.exec s) (tired_less fun _ => by omega) ?_)
  intro r returned
  obtain ⟨exec, all⟩ := returned
  have left := exec.suffix.length_le
  split
  case isFalse => exact ⟨.last (exec.blank (blank_skip r.2)), all⟩
  case isTrue seen =>
    obtain ⟨_, symbol⟩ := peek_single seen (by decide)
    have shorter := symbol.shorter
    rw [gettoken_skip]
    refine ends_bind (ends_mono (sound.pipe _) (tired_less fun _ => by omega) ?_)
    intro more returned
    obtain ⟨pipe, allPipe⟩ := returned
    exact ⟨.pipe exec symbol pipe, all, all_longer allPipe (symbol.suffix.trans exec.suffix)⟩

theorem parseblock_sound {fuel : Nat} (sound : Sound fuel) (s : List Byte) :
    Ends (parseblock (fuel + 1) s) (Tired (fuel + 1) (4 * s.length + 1)) (Returned .exec s) := by
  rw [parseblock]
  split
  case isTrue => exact ends_error tired_panic
  case isFalse seen =>
    obtain ⟨_, opens⟩ := peek_single (not_not.mp seen) (by decide)
    have shorter := opens.shorter
    rw [gettoken_skip]
    refine ends_bind (ends_mono (sound.line _) (tired_less fun _ => by omega) ?_)
    intro r returned
    obtain ⟨line, all⟩ := returned
    have left := line.suffix.length_le
    split
    case isTrue => exact ends_error tired_panic
    case isFalse seen =>
      obtain ⟨_, closes⟩ := peek_single (not_not.mp seen) (by decide)
      have less := closes.shorter
      rw [gettoken_skip]
      refine ends_mono (parseredirs_sound fuel r.1 _) (tired_less fun _ => by omega) ?_
      intro last returned
      obtain ⟨rs, same, redirs, files⟩ := returned
      have suffix := line.suffix.trans opens.suffix
      constructor
      case left =>
        rw [same, wrap_map]
        exact .block opens line closes redirs
      case right =>
        rw [same]
        refine all_wrap (all_longer all opens.suffix) fun x member => ?_
        exact (files x member).longer (closes.suffix.trans suffix)

theorem parseexec_sound {fuel : Nat} (sound : Sound fuel) (s : List Byte) :
    Ends (parseexec (fuel + 1) s) (Tired (fuel + 1) (4 * s.length + 2)) (Returned .exec s) := by
  rw [parseexec]
  split
  case isTrue =>
    rw [parseblock_skip]
    exact ends_mono (sound.block s) (tired_less fun _ => by omega) fun _ returned => returned
  case isFalse =>
    rw [parseredirs_skip]
    refine ends_bind (ends_mono (parseredirs_sound fuel _ s) (tired_less fun _ => by omega) ?_)
    intro r returned
    obtain ⟨rs, same, redirs, files⟩ := returned
    have left := redirs.suffix.length_le
    rw [same]
    refine ends_mono (parseargs_sound fuel 0 [] rs r.2 (Nat.zero_le 9))
      (tired_less fun _ => by omega) ?_
    intro last returned
    obtain ⟨ws, rs', same', args, few, words, files'⟩ := returned
    rw [Nat.zero_add] at few
    constructor
    case left =>
      rw [same', wrap_map, List.map_append]
      exact .exec redirs args (List.length_map Span.text ▸ few)
    case right =>
      rw [same']
      refine all_wrap (fun w member => (words w member).longer redirs.suffix) fun x member => ?_
      rcases List.mem_append.mp member with member | member
      · exact files x member
      · exact (files' x member).longer redirs.suffix

theorem parser_sound (fuel : Nat) : Sound fuel := by
  induction fuel with
  | zero =>
      constructor
      all_goals exact fun _ => ends_error fun _ => Nat.succ_pos _
  | succ fuel ih =>
      constructor
      case line => exact parseline_sound ih
      case pipe => exact parsepipe_sound ih
      case exec => exact parseexec_sound ih
      case block => exact parseblock_sound ih

end Sound

end Xv6.Public2.Shell
