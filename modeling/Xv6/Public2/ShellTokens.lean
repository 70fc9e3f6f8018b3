import Xv6.Public2.ShellParser

/-!
# The strings of the shell's commands (sh.c of xv6-public_2)

All strings of a command are in the line that it was parsed from.  After nulterminate() each
of them is a word of the line, as gettoken() went through it, and no word has been cut.
-/

set_option autoImplicit false

namespace Xv6.Public2.Shell

open Xv6.Lib.CString
open Xv6.Lib.Outcome
open Xv6.Lib.Words

/-! ## Tokens of a line -/

/-- What is left of the line before each call of gettoken(). -/
inductive Reached (line : List Byte) : List Byte → Prop where
  | start : Reached line line
  | next {s : List Byte} (before : Reached line s) : Reached line (gettoken s).rest

/-- `q` and `eq` after gettoken(). -/
def found (s : List Byte) : Span := ⟨(gettoken s).q, (gettoken s).eq⟩

/-- A word among the tokens of the line. -/
def Lexed (line : List Byte) (w : Span) : Prop :=
  ∃ s, Reached line s ∧ (gettoken s).ret = 0x61 ∧ w = found s

/-- A run of letters that is not part of a longer one. -/
structure Maximal (line : List Byte) (w : Span) : Prop where
  inside : w.Inside line
  some : w.text ≠ []
  starts : ∃ before, line = before ++ w.q ∧ ∀ c ∈ before.getLast?, ¬ IsWord c

/-! ## Nodes of a command -/

section Nodes
variable {α : Type}

def Cmd.nodes : Cmd α → List (Cmd α)
  | .exec argv => [.exec argv]
  | .redir cmd file mode fd => .redir cmd file mode fd :: cmd.nodes
  | .pipe left right => .pipe left right :: (left.nodes ++ right.nodes)
  | .list left right => .list left right :: (left.nodes ++ right.nodes)
  | .back cmd => .back cmd :: cmd.nodes

/-- The words in the node itself: `argv`, or `file`. -/
def Cmd.own : Cmd α → List α
  | .exec argv => argv
  | .redir _ file _ _ => [file]
  | _ => []

theorem all_iff_nodes {p : α → Prop} {cmd : Cmd α} :
    cmd.All p ↔ ∀ node ∈ cmd.nodes, ∀ w ∈ node.own, p w := by
  induction cmd with
  | exec argv =>
      have one := @List.forall_mem_singleton _ (fun node => ∀ w ∈ Cmd.own node, p w) (.exec argv)
      exact one.symm
  | redir cmd file mode fd ih =>
      rw [Cmd.All, Cmd.nodes, List.forall_mem_cons, ih, and_comm]
      exact and_congr_left fun _ => List.forall_mem_singleton.symm
  | pipe left right ih ih' =>
      rw [Cmd.All, Cmd.nodes, List.forall_mem_cons, List.forall_mem_append, ih, ih']
      exact (and_iff_right nofun).symm
  | list left right ih ih' =>
      rw [Cmd.All, Cmd.nodes, List.forall_mem_cons, List.forall_mem_append, ih, ih']
      exact (and_iff_right nofun).symm
  | back cmd ih =>
      rw [Cmd.All, Cmd.nodes, List.forall_mem_cons, ih]
      exact (and_iff_right nofun).symm

end Nodes

/-- Each string of the command reads as its token, and the NULs are nowhere else than
behind the words of the nodes. -/
structure Isolated (line : List Byte) (cmd : Cmd Span) : Prop where
  reads : ∀ node ∈ cmd.nodes, ∀ w ∈ node.own,
    Lexed line w ∧ Maximal line w ∧ string (nulterminate cmd line) w = w.text
  ends : ∀ node ∈ cmd.nodes, ∀ w ∈ node.own,
    (nulterminate cmd line)[place line w.eq]?.getD 0 = 0
  others : ∀ i : Nat, (∀ node ∈ cmd.nodes, ∀ w ∈ node.own, place line w.eq ≠ i) →
    (nulterminate cmd line)[i]? = (line)[i]?
  apart : ∀ node ∈ cmd.nodes, ∀ w ∈ node.own, ∀ t, Lexed line t →
    ¬ (place line t.q ≤ place line w.eq ∧ place line w.eq < place line t.eq)

/-! ## Tokens are maximal runs -/

section Maximal
variable {line s : List Byte}

/-- A word that comes next does not continue one before it. -/
def Fresh (line s : List Byte) : Prop :=
  ∃ before, line = before ++ skip s ∧
    ((∃ c ∈ before.getLast?, IsWord c) → ∀ c ∈ (skip s).head?, ¬ IsWord c)

theorem blank_getLast {blanks : List Byte} (blank : ∀ c ∈ blanks, c ∈ whitespace)
    (some : blanks ≠ []) (before : List Byte) :
    ¬ ∃ c ∈ (before ++ blanks).getLast?, IsWord c := by
  rintro ⟨c, last, letter⟩
  have here : blanks.getLast? = .some (blanks.getLast some) := List.getLast?_eq_some_getLast some
  rw [List.getLast?_append, here] at last
  have same : blanks.getLast some = c := Option.some.inj last
  exact letter.1 (blank c (same ▸ List.getLast_mem some))

/-- Past a token, and the whitespace behind it. -/
theorem fresh_skip {before eq : List Byte}
    (stops : (∃ c ∈ before.getLast?, IsWord c) → ∀ c ∈ eq.head?, ¬ IsWord c) :
    Fresh (before ++ eq) (skip eq) := by
  obtain ⟨blanks, blank, parts⟩ := blank_skip eq
  refine ⟨before ++ blanks, ?_, ?_⟩
  · rw [skip_skip, List.append_assoc, ← parts]
  · rw [skip_skip]
    by_cases none : blanks = []
    · rw [none, List.nil_append] at parts
      rw [none, List.append_nil, ← parts]
      exact stops
    · exact fun last => absurd last (blank_getLast blank none before)

theorem not_word_last {c : Byte} (other : ¬ IsWord c) (before : List Byte) :
    ¬ ∃ d ∈ (before ++ [c]).getLast?, IsWord d := by
  rintro ⟨d, last, letter⟩
  rw [List.getLast?_concat] at last
  exact other (Option.some.inj last ▸ letter)

theorem fresh_next (fresh : Fresh line s) : Fresh line (gettoken s).rest := by
  obtain ⟨before, whole, stops⟩ := fresh
  by_cases nul : (skip s).headD 0 = 0
  · rw [gettoken_nul nul]
    refine ⟨before, ?_, ?_⟩
    · rwa [skip_skip]
    · rwa [skip_skip]
  obtain ⟨c, a, head⟩ : ∃ c a, skip s = c :: a := by
    cases left : skip s with
    | nil => exact absurd (by rw [left]; rfl) nul
    | cons c a => exact ⟨c, a, rfl⟩
  rw [head] at nul whole stops
  have one : line = before ++ [c] ++ a := by rw [whole, List.append_assoc]; rfl
  rcases letter_cases (head_visible (congrArg List.head? head)) with single | greater | letter
  · have other : ¬ IsWord c := fun letter => letter.2 (single_symbol single).1
    rw [gettoken_single head single, one]
    exact fresh_skip fun last => absurd last (not_word_last other before)
  · have other : ¬ IsWord 0x3e := by decide
    subst greater
    rw [gettoken_greater head]
    split
    · rename_i second
      have again : a = 0x3e :: a.tail := by
        cases a with
        | nil => exact absurd second (by decide)
        | cons e a => exact congrArg (· :: a) second
      have two : line = before ++ [0x3e] ++ [0x3e] ++ a.tail := by
        rw [List.append_assoc _ [0x3e] a.tail, List.singleton_append, ← again]
        exact one
      rw [two]
      exact fresh_skip fun last => absurd last (not_word_last other _)
    · rw [one]
      exact fresh_skip fun last => absurd last (not_word_last other before)
  · have spelled := (gettoken_spells head letter nul).2.2
    rw [gettoken_word head letter nul] at spelled ⊢
    obtain ⟨eq, left⟩ : ∃ eq, eq = (c :: a).dropWhile fun c => decide (IsWord c) := ⟨_, rfl⟩
    rw [← left] at spelled ⊢
    have parts : line = before ++ Span.text ⟨c :: a, eq⟩ ++ eq := by
      rw [List.append_assoc, ← spelled.spelled]
      exact whole
    rw [parts]
    exact fresh_skip fun _ => spelled.stops

theorem Reached.fresh (reached : Reached line s) : Fresh line s := by
  induction reached with
  | start =>
      obtain ⟨blanks, blank, parts⟩ := blank_skip line
      refine ⟨blanks, parts, fun last => ?_⟩
      by_cases none : blanks = []
      · rw [none] at last
        exact absurd last nofun
      · exact absurd last (blank_getLast blank none [])
  | next before ih => exact fresh_next ih

theorem Reached.suffix (reached : Reached line s) : s <:+ line := by
  induction reached with
  | start => exact List.suffix_refl line
  | next before ih => exact (gettoken_suffix _).trans ih

theorem gettoken_q (s : List Byte) : (gettoken s).q = skip s := by
  unfold gettoken
  dsimp only
  split
  · rfl
  split
  · rfl
  split
  · split
    · rfl
    · rfl
  · rfl

theorem Lexed.maximal {w : Span} (lexed : Lexed line w) : Maximal line w := by
  obtain ⟨s, reached, ret, rfl⟩ := lexed
  obtain ⟨word, inside⟩ := gettoken_word_of ret
  obtain ⟨before, whole, stops⟩ := reached.fresh
  refine ⟨inside.longer reached.suffix, word.some, before, ?_, ?_⟩
  · exact whole.trans (congrArg (before ++ ·) (gettoken_q s).symm)
  · intro c last letter
    obtain ⟨d, rest, text⟩ := List.exists_cons_of_ne_nil word.some
    have first : d ∈ (skip s).head? := by
      rw [← gettoken_q s]
      have spelled := inside.spelled
      rw [text] at spelled
      exact congrArg List.head? spelled
    have member : d ∈ Span.text ⟨(gettoken s).q, (gettoken s).eq⟩ := text ▸ List.mem_cons_self
    exact stops ⟨c, last, letter⟩ d first (inside.letters d member)

end Maximal

/-! ## The parser takes its words from gettoken() -/

section Parser
variable {line s : List Byte}

/-- The parser is at a token of the line, or in the whitespace in front of it. -/
def At (line s : List Byte) : Prop := ∃ t, Reached line t ∧ skip t = skip s

theorem At.skip (at_ : At line s) : At line (skip s) := by
  obtain ⟨t, reached, same⟩ := at_
  exact ⟨t, reached, same.trans (skip_skip s).symm⟩

theorem gettoken_congr {t : List Byte} (same : Shell.skip t = Shell.skip s) :
    gettoken t = gettoken s := by
  rw [← gettoken_skip t, same, gettoken_skip]

theorem At.next (at_ : At line s) : At line (gettoken s).rest := by
  obtain ⟨t, reached, same⟩ := at_
  exact ⟨_, reached.next, by rw [gettoken_congr same]⟩

theorem At.lexed (at_ : At line s) (word : (gettoken s).ret = 0x61) : Lexed line (found s) := by
  obtain ⟨t, reached, same⟩ := at_
  have token := gettoken_congr same
  exact ⟨t, reached, token ▸ word, by rw [found, found, token]⟩

/-- What a function of the parser returns. -/
def Taken (line : List Byte) (r : Cmd Span × List Byte) : Prop :=
  r.1.All (Lexed line) ∧ At line r.2

def Takes (line : List Byte) (x : Parse) : Prop := Ends x (fun _ => True) (Taken line)

theorem takes_error (stop : Stop) : Takes line (.error stop) := trivial

theorem takes_ok {cmd : Cmd Span} (all : cmd.All (Lexed line)) (at_ : At line s) :
    Takes line (.ok (cmd, s)) := ⟨all, at_⟩

theorem takes_bind {x : Parse} {f : Cmd Span × List Byte → Parse} (first : Takes line x)
    (later : ∀ r, Taken line r → Takes line (f r)) : Takes line (x >>= f) :=
  ends_bind (ends_mono first (fun _ allowed => allowed) later)

theorem all_redirect {tok : Byte} {cmd : Cmd Span} {file : Span} {p : Span → Prop}
    (all : cmd.All p) (here : p file) : (redirect tok cmd file).All p := by
  unfold redirect
  split
  · exact ⟨all, here⟩
  split
  · exact ⟨all, here⟩
  split
  · exact ⟨all, here⟩
  · exact all

theorem all_push {cmd : Cmd Span} {w : Span} {p : Span → Prop} (all : cmd.All p) (here : p w) :
    (cmd.push w).All p := by
  induction cmd with
  | exec argv => exact List.forall_mem_append.mpr ⟨all, List.forall_mem_singleton.mpr here⟩
  | redir cmd file mode fd ih => exact ⟨ih all.1, all.2⟩
  | pipe left right => exact all
  | list left right => exact all
  | back cmd => exact all

theorem parseredirs_takes (fuel : Nat) {cmd : Cmd Span} (at_ : At line s)
    (all : cmd.All (Lexed line)) : Takes line (parseredirs fuel cmd s) := by
  induction fuel generalizing cmd s with
  | zero => exact takes_error _
  | succ fuel ih =>
      rw [parseredirs]
      split
      case isFalse => exact takes_ok all at_.skip
      case isTrue =>
        dsimp only
        rw [gettoken_skip]
        split
        case isTrue => exact takes_error _
        case isFalse word =>
          exact ih at_.next.next (all_redirect all (at_.next.lexed (not_not.mp word)))

theorem parseargs_takes (fuel argc : Nat) {cmd : Cmd Span} (at_ : At line s)
    (all : cmd.All (Lexed line)) : Takes line (parseargs fuel argc cmd s) := by
  induction fuel generalizing argc cmd s with
  | zero => exact takes_error _
  | succ fuel ih =>
      rw [parseargs]
      split
      case isTrue => exact takes_ok all at_.skip
      case isFalse =>
        dsimp only
        rw [gettoken_skip]
        split
        case isTrue => exact takes_ok all at_.next
        case isFalse =>
          split
          case isTrue => exact takes_error _
          case isFalse word =>
            split
            case isTrue => exact takes_error _
            case isFalse =>
              have pushed := all_push all (at_.lexed (not_not.mp word))
              refine takes_bind (parseredirs_takes fuel at_.next pushed) fun r taken => ?_
              exact ih _ taken.2 taken.1

theorem parsebacks_takes (fuel : Nat) {cmd : Cmd Span} (at_ : At line s)
    (all : cmd.All (Lexed line)) : Takes line (parsebacks fuel cmd s) := by
  induction fuel generalizing cmd s with
  | zero => exact takes_error _
  | succ fuel ih =>
      rw [parsebacks]
      split
      case isFalse => exact takes_ok all at_.skip
      case isTrue =>
        rw [gettoken_skip]
        exact ih at_.next all

/-- Each of the four functions. -/
structure Lexes (text : List Byte) (fuel : Nat) : Prop where
  line : ∀ s, At text s → Takes text (parseline fuel s)
  pipe : ∀ s, At text s → Takes text (parsepipe fuel s)
  exec : ∀ s, At text s → Takes text (parseexec fuel s)
  block : ∀ s, At text s → Takes text (parseblock fuel s)

theorem parser_lexes (line : List Byte) (fuel : Nat) : Lexes line fuel := by
  induction fuel with
  | zero =>
      constructor
      all_goals exact fun _ _ => takes_error _
  | succ fuel ih =>
      constructor
      case line =>
        intro s at_
        rw [parseline]
        refine takes_bind (ih.pipe s at_) fun first taken => ?_
        refine takes_bind (parsebacks_takes fuel taken.2 taken.1) fun r taken => ?_
        split
        case isFalse => exact takes_ok taken.1 taken.2.skip
        case isTrue =>
          rw [gettoken_skip]
          refine takes_bind (ih.line _ taken.2.next) fun more later => ?_
          exact takes_ok ⟨taken.1, later.1⟩ later.2
      case pipe =>
        intro s at_
        rw [parsepipe]
        refine takes_bind (ih.exec s at_) fun r taken => ?_
        split
        case isFalse => exact takes_ok taken.1 taken.2.skip
        case isTrue =>
          rw [gettoken_skip]
          refine takes_bind (ih.pipe _ taken.2.next) fun more later => ?_
          exact takes_ok ⟨taken.1, later.1⟩ later.2
      case exec =>
        intro s at_
        rw [parseexec]
        split
        case isTrue => exact ih.block _ at_.skip
        case isFalse =>
          refine takes_bind (parseredirs_takes fuel at_.skip (List.forall_mem_nil _)) fun r taken => ?_
          exact parseargs_takes fuel 0 taken.2 taken.1
      case block =>
        intro s at_
        rw [parseblock]
        split
        case isTrue => exact takes_error _
        case isFalse =>
          rw [gettoken_skip]
          refine takes_bind (ih.line _ at_.next) fun r taken => ?_
          split
          case isTrue => exact takes_error _
          case isFalse =>
            rw [gettoken_skip]
            exact parseredirs_takes fuel taken.2.next taken.1

end Parser

/-! ## nulterminate() -/

section Ends
variable {line : List Byte}

/-- Away from the ends of the words the line stays as it is. -/
theorem nulterminate_others (cmd : Cmd Span) {cut : List Byte} (length : cut.length = line.length)
    {i : Nat} (other : cmd.All fun w => place line w.eq ≠ i) :
    (nulterminate cmd cut)[i]? = (cut)[i]? ∧ (nulterminate cmd cut).length = line.length := by
  have one (cut eq : List Byte) (length : cut.length = line.length) (other : place line eq ≠ i) :
      (terminate cut eq)[i]? = (cut)[i]? ∧ (terminate cut eq).length = line.length := by
    refine ⟨?_, List.length_set.trans length⟩
    rw [terminate_get, if_neg]
    rwa [place, length]
  induction cmd generalizing cut with
  | exec argv =>
      rw [nulterminate]
      induction argv generalizing cut with
      | nil => exact ⟨rfl, length⟩
      | cons w argv ih =>
          obtain ⟨here, size⟩ := one cut w.eq length (other w List.mem_cons_self)
          obtain ⟨same, whole⟩ := ih size fun v member => other v (List.mem_cons_of_mem w member)
          exact ⟨same.trans here, whole⟩
  | redir cmd file mode fd ih =>
      obtain ⟨inner, size⟩ := ih length other.1
      obtain ⟨same, whole⟩ := one _ file.eq size other.2
      exact ⟨same.trans inner, whole⟩
  | pipe left right ih ih' =>
      obtain ⟨first, size⟩ := ih length other.1
      obtain ⟨second, whole⟩ := ih' size other.2
      exact ⟨second.trans first, whole⟩
  | list left right ih ih' =>
      obtain ⟨first, size⟩ := ih length other.1
      obtain ⟨second, whole⟩ := ih' size other.2
      exact ⟨second.trans first, whole⟩
  | back cmd ih => exact ih length other

end Ends

/-! ## The strings of a command -/

section Isolated
variable {line : List Byte}

/-- The end of a word is in no other word. -/
theorem apart_of_inside {w t : Span} (ends : w.Inside line) (run : t.Inside line) :
    ¬ (place line t.q ≤ place line w.eq ∧ place line w.eq < place line t.eq) := by
  rintro ⟨low, high⟩
  obtain ⟨i, sum⟩ := Nat.exists_eq_add_of_le low
  have whole := congrArg List.length run.spelled
  have long := run.inside.length_le
  have short := run.eq.length_le
  rw [List.length_append] at whole
  have inner : i < t.text.length := by
    unfold place at low high sum
    omega
  have letter := List.getElem?_eq_getElem inner
  have here : (line)[place line w.eq]? = some t.text[i] := by
    rw [sum, place_get run.inside, run.spelled, List.getElem?_append_left inner]
    exact letter
  have first := place_get ends.eq 0
  rw [Nat.add_zero, here, ← List.head?_eq_getElem?] at first
  exact ends.stops _ first.symm (run.letters _ (List.getElem_mem inner))

theorem isolated {cmd : Cmd Span} (nulFree : (0 : Byte) ∉ line) (all : cmd.All (Lexed line)) :
    cmd.map (string (nulterminate cmd line)) = cmd.map Span.text ∧ Isolated line cmd := by
  have inside : cmd.All (Span.Inside line) := all.mono fun w lexed => lexed.maximal.inside
  have strings := strings_all nulFree inside
  obtain ⟨_, ends⟩ := nulterminate_cuts cmd ⟨rfl, fun _ _ here _ => here⟩ inside
  have lexed := all_iff_nodes.mp all
  refine ⟨Cmd.map_congr strings, ?_⟩
  constructor
  case reads =>
    intro node listed w own
    exact ⟨lexed node listed w own, (lexed node listed w own).maximal,
      all_iff_nodes.mp strings node listed w own⟩
  case ends => exact all_iff_nodes.mp ends
  case others =>
    intro i other
    exact (nulterminate_others cmd rfl (all_iff_nodes.mpr other)).1
  case apart =>
    intro node listed w own t run
    exact apart_of_inside (lexed node listed w own).maximal.inside run.maximal.inside

/-- For every line that parsecmd() takes, the strings of the command that it returns are the
words of the line that they were parsed from. -/
theorem parsecmd_isolates (nulFree : (0 : Byte) ∉ line) {fuel : Nat} {cmd : Cmd Span}
    {rest : List Byte} (parsed : parseline fuel line = .ok (cmd, rest)) (taken : skip rest = []) :
    parsecmd fuel line = .ok (cmd.map Span.text) ∧ Isolated line cmd := by
  have takes := (parser_lexes line fuel).line line ⟨line, .start, rfl⟩
  obtain ⟨all, _⟩ := takes.ok parsed
  obtain ⟨strings, isolated⟩ := isolated nulFree all
  refine ⟨?_, isolated⟩
  rw [parsecmd, parsed]
  show (if skip rest ≠ [] then Except.error (Stop.panic "syntax")
    else .ok (cmd.map (string (nulterminate cmd line)))) = _
  rw [if_neg (not_not.mpr taken), strings]

end Isolated

/-- `a>b`: the NUL behind the first word is where the symbol was. -/
theorem parsecmd_isolates_redir : Isolated [0x61, 0x3e, 0x62]
    (.redir (.exec [⟨[0x61, 0x3e, 0x62], [0x3e, 0x62]⟩]) ⟨[0x62], []⟩ 0x201 1) :=
  (@parsecmd_isolates [0x61, 0x3e, 0x62] (by decide) 16 _ [] rfl rfl).2

end Xv6.Public2.Shell
