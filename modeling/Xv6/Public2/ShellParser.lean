import Xv6.Public2.ShellSound

/-!
# The shell's parser and its grammar (xv6-public_2)

The parser returns on the lines of the grammar and on no others, and the strings that it
leaves in the line are the words.
-/

set_option autoImplicit false

namespace Xv6.Public2.Shell

open Xv6.Lib.CString
open Xv6.Lib.Outcome
open Xv6.Lib.Words

/-! ## Strings -/

/-- The line, with NULs in it that are in no word. -/
structure Cut (line cut : List Byte) : Prop where
  length : cut.length = line.length
  letters : ∀ (i : Nat) (c : Byte), (line)[i]? = some c → IsWord c → cut[i]? = some c

section Strings
variable {line cut : List Byte} {w : Span} {α β : Type}

/-- Where the pointer `q` is in the line. -/
def place (line q : List Byte) : Nat := line.length - q.length

theorem place_get {q : List Byte} (inside : q <:+ line) (i : Nat) :
    (line)[place line q + i]? = q[i]? := by
  obtain ⟨before, rfl⟩ := inside
  unfold place
  rw [List.length_append, Nat.add_sub_cancel, List.getElem?_append_right (Nat.le_add_right _ i),
    Nat.add_sub_cancel_left]

theorem Span.Inside.eq (inside : w.Inside line) : w.eq <:+ line :=
  (inside.spelled ▸ List.suffix_append w.text w.eq : w.eq <:+ w.q).trans inside.inside

theorem terminate_get (cut eq : List Byte) (i : Nat) :
    (terminate cut eq)[i]? =
      if place cut eq = i then if place cut eq < cut.length then some 0 else none else cut[i]? :=
  List.getElem?_set

theorem cut_terminate (cuts : Cut line cut) (inside : w.Inside line) :
    Cut line (terminate cut w.eq) := by
  refine ⟨List.length_set.trans cuts.length, fun i c here letter => ?_⟩
  rw [terminate_get, place, cuts.length]
  by_cases same : place line w.eq = i
  · -- a word ends there
    subst same
    have first := place_get inside.eq 0
    rw [Nat.add_zero, here] at first
    have head : c ∈ w.eq.head? := by
      rw [List.head?_eq_getElem?]
      exact first.symm
    exact absurd letter (inside.stops c head)
  · exact (if_neg same).trans (cuts.letters i c here letter)

/-- What is NUL stays so. -/
theorem terminate_nul {i : Nat} {eq : List Byte} (nul : cut[i]?.getD 0 = 0) :
    (terminate cut eq)[i]?.getD 0 = 0 := by
  rw [terminate_get]
  split
  · split
    all_goals rfl
  · exact nul

theorem terminate_here (cut eq : List Byte) :
    (terminate cut eq)[place cut eq]?.getD 0 = 0 := by
  rw [terminate_get, if_pos rfl]
  split
  all_goals rfl

/-- What cutting at the ends of some words makes of the line. -/
structure Cuts (line cut cut' : List Byte) : Prop where
  still : Cut line cut'
  kept : ∀ i : Nat, cut[i]?.getD 0 = 0 → cut'[i]?.getD 0 = 0

theorem Cuts.trans {cut' cut'' : List Byte} (first : Cuts line cut cut')
    (second : Cuts line cut' cut'') : Cuts line cut cut'' :=
  ⟨second.still, fun i nul => second.kept i (first.kept i nul)⟩

def EndsAt (line cut : List Byte) (w : Span) : Prop := cut[place line w.eq]?.getD 0 = 0

theorem terminate_cuts (before : Cut line cut) (inside : w.Inside line) :
    Cuts line cut (terminate cut w.eq) ∧ EndsAt line (terminate cut w.eq) w := by
  refine ⟨⟨cut_terminate before inside, fun i nul => terminate_nul nul⟩, ?_⟩
  have here := terminate_here cut w.eq
  rw [place, before.length] at here
  exact here

theorem argv_cuts (argv : List Span) {cut : List Byte} (before : Cut line cut)
    (inside : ∀ w ∈ argv, w.Inside line) :
    Cuts line cut (argv.foldl (fun cut w => terminate cut w.eq) cut) ∧
      ∀ w ∈ argv, EndsAt line (argv.foldl (fun cut w => terminate cut w.eq) cut) w := by
  induction argv generalizing cut with
  | nil => exact ⟨⟨before, fun _ nul => nul⟩, nofun⟩
  | cons w argv ih =>
      obtain ⟨first, ends⟩ := terminate_cuts before (inside w List.mem_cons_self)
      obtain ⟨later, others⟩ := ih first.still fun v member =>
        inside v (List.mem_cons_of_mem w member)
      refine ⟨first.trans later, fun v member => ?_⟩
      rcases List.mem_cons.mp member with rfl | member
      · exact later.kept _ ends
      · exact others v member

/-- nulterminate() cuts the line at the end of each word of the command. -/
theorem nulterminate_cuts (cmd : Cmd Span) {cut : List Byte} (before : Cut line cut)
    (inside : cmd.All (Span.Inside line)) :
    Cuts line cut (nulterminate cmd cut) ∧ cmd.All (EndsAt line (nulterminate cmd cut)) := by
  induction cmd generalizing cut with
  | exec argv => exact argv_cuts argv before inside
  | redir cmd file mode fd ih =>
      obtain ⟨first, words⟩ := ih before inside.1
      obtain ⟨last, ends⟩ := terminate_cuts first.still inside.2
      exact ⟨first.trans last, words.mono fun w nul => last.kept _ nul, ends⟩
  | pipe left right ih ih' =>
      obtain ⟨first, words⟩ := ih before inside.1
      obtain ⟨last, others⟩ := ih' first.still inside.2
      exact ⟨first.trans last, words.mono fun w nul => last.kept _ nul, others⟩
  | list left right ih ih' =>
      obtain ⟨first, words⟩ := ih before inside.1
      obtain ⟨last, others⟩ := ih' first.still inside.2
      exact ⟨first.trans last, words.mono fun w nul => last.kept _ nul, others⟩
  | back cmd ih => exact ih before inside

/-- A string that ends behind the word. -/
theorem text_word {s w : List Byte} (nulFree : (0 : Byte) ∉ w)
    (same : ∀ (i : Nat) (c : Byte), w[i]? = some c → s[i]? = some c)
    (ends : s[w.length]?.getD 0 = 0) : text s = w := by
  induction w generalizing s with
  | nil =>
      cases s with
      | nil => rfl
      | cons c s =>
          have nul : c = 0 := ends
          rw [text_cons, if_pos nul]
  | cons c w ih =>
      cases s with
      | nil => exact absurd (same 0 c rfl) nofun
      | cons d s =>
          obtain rfl : d = c := Option.some.inj (same 0 c rfl)
          have notNul : d ≠ 0 := fun zero => nulFree (zero ▸ List.mem_cons_self)
          have later : text s = w := ih (fun member => nulFree (List.mem_cons_of_mem d member))
            (fun i e here => same (i + 1) e here) ends
          rw [text_cons, if_neg notNul, later]

theorem Cmd.map_congr {f g : α → β} {cmd : Cmd α} (same : cmd.All fun w => f w = g w) :
    cmd.map f = cmd.map g := by
  induction cmd with
  | exec argv => exact congrArg Cmd.exec (List.map_congr_left same)
  | redir cmd file mode fd ih => rw [Cmd.map, Cmd.map, ih same.1, same.2]
  | pipe left right first second => rw [Cmd.map, Cmd.map, first same.1, second same.2]
  | list left right first second => rw [Cmd.map, Cmd.map, first same.1, second same.2]
  | back cmd ih => rw [Cmd.map, Cmd.map, ih same]

theorem Cmd.All.and {p q : α → Prop} {cmd : Cmd α} (first : cmd.All p) (second : cmd.All q) :
    cmd.All fun w => p w ∧ q w := by
  induction cmd with
  | exec argv => exact fun w member => ⟨first w member, second w member⟩
  | redir cmd file mode fd ih => exact ⟨ih first.1 second.1, first.2, second.2⟩
  | pipe left right ih ih' => exact ⟨ih first.1 second.1, ih' first.2 second.2⟩
  | list left right ih ih' => exact ⟨ih first.1 second.1, ih' first.2 second.2⟩
  | back cmd ih => exact ih first second

/-- Each string of the command is the word that it was parsed from. -/
theorem strings_all (nulFree : (0 : Byte) ∉ line) {cmd : Cmd Span}
    (inside : cmd.All (Span.Inside line)) :
    cmd.All fun w => string (nulterminate cmd line) w = w.text := by
  obtain ⟨cuts, ends⟩ := nulterminate_cuts cmd ⟨rfl, fun _ _ here _ => here⟩ inside
  refine (inside.and ends).mono fun w both => ?_
  obtain ⟨inside, nul⟩ := both
  have whole : w.q = w.text ++ w.eq := inside.spelled
  have start : (nulterminate cmd line).length - w.q.length = place line w.q := by
    rw [cuts.still.length]
    rfl
  unfold string
  rw [start]
  refine text_word (fun member => ?_) (fun i c here => ?_) ?_
  · have there : (0 : Byte) ∈ w.q := whole ▸ List.mem_append_left w.eq member
    exact nulFree (inside.inside.mem there)
  · have letter := inside.letters c (List.mem_of_getElem? here)
    have first : w.q[i]? = some c := by
      rw [whole, List.getElem?_append_left (List.getElem?_eq_some_iff.mp here).1]
      exact here
    rw [List.getElem?_drop]
    exact cuts.still.letters _ c ((place_get inside.inside i).trans first) letter
  · have end_ : place line w.q + w.text.length = place line w.eq := by
      have total := inside.inside.length_le
      have parts := congrArg List.length whole
      rw [List.length_append] at parts
      unfold place
      omega
    rw [List.getElem?_drop, end_]
    exact nul

theorem strings_eq (nulFree : (0 : Byte) ∉ line) {cmd : Cmd Span}
    (inside : cmd.All (Span.Inside line)) :
    cmd.map (string (nulterminate cmd line)) = cmd.map Span.text :=
  Cmd.map_congr (strings_all nulFree inside)

end Strings

/-! ## What follows -/

/-- The next token is one of these, or there is none. -/
def Stops (toks s : List Byte) : Prop := ∀ c ∈ (skip s).head?, c ∈ toks

/-- What follows a sentence. -/
def Nonterminal.stops : Nonterminal → List Byte
  | .line => [0x29]
  | .pipe => [0x29, 0x26, 0x3b]
  | .exec => [0x29, 0x26, 0x3b, 0x7c]

section Follow
variable {s a rest toks toks' t w : List Byte} {c : Byte}

theorem Stops.mono (stops : Stops toks s) (more : ∀ c ∈ toks, c ∈ toks') : Stops toks' s :=
  fun c here => more c (stops c here)

theorem Stops.blank (stops : Stops toks rest) (blank : Blank s rest) : Stops toks s := by
  unfold Stops
  rw [skip_blank blank]
  exact stops

theorem Symbol.stops (symbol : Symbol (c :: t) s rest) (visible : c ∉ whitespace)
    (there : c ∈ toks) : Stops toks s := by
  obtain ⟨a, head, _⟩ := symbol.head visible
  intro d here
  rw [head] at here
  exact Option.some.inj here ▸ there

theorem peek_none (stops : Stops toks' s) (apart : ∀ c ∈ toks', c ∉ toks) :
    peek s toks = false := by
  rw [Bool.eq_false_iff, ne_eq, peek_iff]
  intro both
  cases head : skip s with
  | nil =>
      rw [head] at both
      exact both.1 rfl
  | cons c a =>
      rw [head] at both
      exact apart c (stops c (by rw [head]; rfl)) both.2

/-- peek() and gettoken() at a symbol that is there. -/
theorem Symbol.seen (symbol : Symbol [c] s rest) (single : c ∈ singles) (there : c ∈ toks) :
    peek s toks = true ∧ (gettoken s).ret = c ∧ (gettoken s).rest = skip rest := by
  obtain ⟨_, notNul, _, visible⟩ := single_symbol single
  obtain ⟨a, head, behind⟩ := symbol.head visible
  have head : skip s = c :: a := head
  refine ⟨?_, ?_, ?_⟩
  · rw [peek_iff, head]
    exact ⟨notNul, there⟩
  · rw [gettoken_single head single]
  · rw [gettoken_single head single]
    exact behind

theorem Word.unseen (word : Word w s rest) (symbols_ : ∀ c ∈ toks, c ∈ symbols) :
    peek s toks = false := by
  obtain ⟨c, w', a, rfl, letter, head, _⟩ := word.head
  rw [Bool.eq_false_iff, ne_eq, peek_iff, head]
  exact fun both => letter.2 (symbols_ c both.2)

/-- No '>' stands in front of a word. -/
theorem Word.head_ne (word : Word w a rest) {b : List Byte} (same : skip b = skip a) :
    b.headD 0 ≠ 0x3e := by
  obtain ⟨c, w', d, rfl, letter, head, _⟩ := word.head
  intro greater
  cases b with
  | nil => exact absurd greater (by decide)
  | cons e b =>
      obtain rfl : e = 0x3e := greater
      rw [skip_cons (by decide), head] at same
      have there : (0x3e : Byte) = c := (List.cons.inj same).1
      exact letter.2 (there ▸ by decide)

theorem Redir.seen {r : Redirection (List Byte)} (redir : Redir s r rest)
    (nulFree : (0 : Byte) ∉ s) :
    peek s [0x3c, 0x3e] = true ∧ (gettoken (gettoken s).rest).ret = 0x61 ∧
      (redirection (gettoken s).ret ⟨(gettoken (gettoken s).rest).q,
        (gettoken (gettoken s).rest).eq⟩).map Span.text = r ∧
      (gettoken (gettoken s).rest).rest = skip rest := by
  have tail : ∀ {a : List Byte}, a <:+ s → (0 : Byte) ∉ a := fun part member =>
    nulFree (part.mem member)
  cases redir with
  | input symbol word =>
      have there : (0x3c : Byte) ∈ [0x3c, 0x3e] := by decide
      obtain ⟨seen, ret, left⟩ := symbol.seen (by decide) there
      obtain ⟨letters, same, behind⟩ := word.gettoken (tail symbol.suffix)
      rw [left, gettoken_skip, ret]
      exact ⟨seen, letters, congrArg (Redirection.mk · O_RDONLY 0) same, behind⟩
  | output symbol word =>
      obtain ⟨a, head, left⟩ := symbol.head (by decide)
      have head : skip s = 0x3e :: a := head
      have found := gettoken_greater head
      rw [if_neg (word.head_ne left)] at found
      obtain ⟨letters, same, behind⟩ := word.gettoken (tail symbol.suffix)
      have seen : peek s [0x3c, 0x3e] = true :=
        (peek_eq_true (by decide)).mpr ⟨0x3e, by decide, congrArg List.head? head⟩
      have ret : (gettoken s).ret = 0x3e := congrArg Token.ret found
      have rest_ : (gettoken s).rest = skip _ := (congrArg Token.rest found).trans left
      rw [rest_, gettoken_skip, ret]
      exact ⟨seen, letters, congrArg (Redirection.mk · (O_WRONLY ||| O_CREATE) 1) same, behind⟩
  | append symbol word =>
      obtain ⟨a, head, left⟩ := symbol.head (by decide)
      have head : skip s = 0x3e :: 0x3e :: a := head
      have found := gettoken_greater head
      have second : (0x3e :: a : List Byte).headD 0 = 0x3e := rfl
      rw [if_pos second] at found
      obtain ⟨letters, same, behind⟩ := word.gettoken (tail symbol.suffix)
      have seen : peek s [0x3c, 0x3e] = true :=
        (peek_eq_true (by decide)).mpr ⟨0x3e, by decide, congrArg List.head? head⟩
      have ret : (gettoken s).ret = 0x2b := congrArg Token.ret found
      have rest_ : (gettoken s).rest = skip _ := (congrArg Token.rest found).trans left
      rw [rest_, gettoken_skip, ret]
      exact ⟨seen, letters, congrArg (Redirection.mk · (O_WRONLY ||| O_CREATE) 1) same, behind⟩

theorem Backs.stops {cmd all : Cmd (List Byte)} (backs : Backs s cmd all rest)
    (stops : Stops toks rest) (there : 0x26 ∈ toks) : Stops toks s := by
  cases backs with
  | done blank => exact stops.blank blank
  | more symbol => exact symbol.stops (by decide) there

theorem Args.unseen {ws : List (List Byte)} {rs : List (Redirection (List Byte))}
    (args : Args s ws rs rest) (stops : Stops Nonterminal.exec.stops rest) :
    peek s [0x3c, 0x3e] = false := by
  cases args with
  | done blank => exact peek_none (stops.blank blank) (by decide)
  | more word => exact word.unseen (by decide)

theorem Redirs.unseen {a : List Byte} {ws : List (List Byte)}
    {rs rs' : List (Redirection (List Byte))} (redirs : Redirs s rs a)
    (args : Args a ws rs' rest) (stops : Stops Nonterminal.exec.stops rest)
    (nulFree : (0 : Byte) ∉ s) : peek s [0x28] = false := by
  cases redirs with
  | done blank =>
      rw [← peek_skip, skip_blank blank, peek_skip]
      cases args with
      | done blank => exact peek_none (stops.blank blank) (by decide)
      | more word => exact word.unseen (by decide)
  | more first =>
      obtain ⟨c, there, head⟩ := (peek_eq_true (by decide)).mp (first.seen nulFree).1
      have stops : Stops [0x3c, 0x3e] s := by
        intro d here
        rw [head] at here
        exact Option.some.inj here ▸ there
      exact peek_none stops (by decide)

end Follow

/-! ## What the parser accepts -/

/-- It gives up for lack of fuel only. -/
def OutOfFuel (stop : Stop) : Prop := stop = .fuel

section Complete
variable {s rest : List Byte}

theorem parseredirs_complete {rs : List (Redirection (List Byte))} (redirs : Redirs s rs rest)
    (unseen : peek rest [0x3c, 0x3e] = false) (nulFree : (0 : Byte) ∉ s) (fuel : Nat)
    (cmd : Cmd Span) :
    Ends (parseredirs fuel cmd s) OutOfFuel fun r =>
      r.2 = skip rest ∧ ∃ rs', r.1 = wrap cmd rs' ∧ rs'.map (Redirection.map Span.text) = rs := by
  induction redirs generalizing fuel cmd with
  | done blank =>
      cases fuel with
      | zero => exact ends_error rfl
      | succ fuel =>
          have same := skip_blank blank
          rw [← peek_skip, ← same, peek_skip] at unseen
          rw [parseredirs, if_neg (Bool.not_eq_true _ ▸ unseen)]
          exact ⟨same, [], rfl, rfl⟩
  | more first later ih =>
      cases fuel with
      | zero => exact ends_error rfl
      | succ fuel =>
          obtain ⟨seen, letters, same, left⟩ := first.seen nulFree
          have suffix := Redirs.suffix (.more first (.done (blank_refl _)))
          have tail := fun member => nulFree (suffix.mem member)
          obtain ⟨word, _⟩ := gettoken_word_of letters
          obtain ⟨wrapped, _⟩ := peek_redir seen ⟨_, _⟩ word cmd
          rw [parseredirs, if_pos seen]
          dsimp only
          rw [gettoken_skip, if_neg (not_not.mpr letters), wrapped, left, parseredirs_skip]
          refine ends_mono (ih unseen tail fuel _) (fun _ tired => tired) fun r returned => ?_
          obtain ⟨rest_, rs', wraps, others⟩ := returned
          refine ⟨rest_, _ :: rs', wraps, ?_⟩
          rw [List.map_cons, same, others]

@[simp] theorem parseargs_skip (fuel argc : Nat) (cmd : Cmd Span) (s : List Byte) :
    parseargs fuel argc cmd (skip s) = parseargs fuel argc cmd s := by
  cases fuel with
  | zero => rfl
  | succ fuel => rw [parseargs, parseargs, peek_skip, skip_skip]

theorem parseargs_complete {ws : List (List Byte)} {rs' : List (Redirection (List Byte))}
    (args : Args s ws rs' rest) (stops : Stops Nonterminal.exec.stops rest)
    (nulFree : (0 : Byte) ∉ s) (fuel argc : Nat) (argv : List Span)
    (rs : List (Redirection Span)) (few : argc + ws.length ≤ 9) :
    Ends (parseargs fuel argc (wrap (.exec argv) rs) s) OutOfFuel fun r =>
      r.2 = skip rest ∧ r.1.map Span.text = wrap (.exec (argv.map Span.text ++ ws))
        (rs.map (Redirection.map Span.text) ++ rs') := by
  induction args generalizing fuel argc argv rs with
  | @done s rest blank =>
      cases fuel with
      | zero => exact ends_error rfl
      | succ fuel =>
          have same := skip_blank blank
          have result : (wrap (.exec argv) rs).map Span.text =
              wrap (.exec (argv.map Span.text ++ []))
                (rs.map (Redirection.map Span.text) ++ []) := by
            rw [wrap_map, List.append_nil, List.append_nil]
            rfl
          rw [parseargs]
          split
          case isTrue => exact ⟨same, result⟩
          case isFalse unseen =>
            have none : (skip s).headD 0 = 0 := by
              cases head : skip s with
              | nil => rfl
              | cons c a =>
                  have stop := stops.blank blank c (by rw [head]; rfl)
                  by_contra notNul
                  refine unseen (peek_iff.mpr ⟨?_, ?_⟩)
                  · rw [head]
                    exact notNul
                  · rw [head]
                    have both : ∀ d ∈ Nonterminal.exec.stops,
                        d ∈ ([0x7c, 0x29, 0x26, 0x3b] : List Byte) := by decide
                    exact both c stop
            dsimp only
            rw [gettoken_skip, gettoken_nul none, if_pos rfl]
            exact ⟨same, result⟩
  | @more s a b rest w ws rs₁ rs₂ word redirs later ih =>
      cases fuel with
      | zero => exact ends_error rfl
      | succ fuel =>
          obtain ⟨letters, same, left⟩ := word.gettoken nulFree
          have tail := fun member => nulFree (word.suffix.mem member)
          have tail' := fun member => tail (redirs.suffix.mem member)
          rw [List.length_cons] at few
          have room : ¬ argc + 1 ≥ MAXARGS := by
            unfold MAXARGS
            omega
          have unseen : peek s [0x7c, 0x29, 0x26, 0x3b] = false := word.unseen (by decide)
          have notNul : ¬ (gettoken s).ret = 0 := by
            rw [letters]
            decide
          rw [parseargs, if_neg (Bool.not_eq_true _ ▸ unseen)]
          dsimp only
          rw [gettoken_skip, if_neg notNul, if_neg (not_not.mpr letters), if_neg room, left,
            parseredirs_skip, wrap_push]
          have redirected := parseredirs_complete redirs (later.unseen stops) tail fuel
            (wrap ((Cmd.exec argv).push ⟨(gettoken s).q, (gettoken s).eq⟩) rs)
          refine ends_bind (ends_mono redirected (fun _ tired => tired) fun r returned => ?_)
          obtain ⟨rest_, rs', wraps, others⟩ := returned
          rw [rest_, wraps, parseargs_skip, wrap_append]
          have all := ih stops tail' fuel (argc + 1) (argv ++ [⟨(gettoken s).q, (gettoken s).eq⟩])
            (rs ++ rs') (by omega)
          refine ends_mono all (fun _ tired => tired) fun r returned => ?_
          refine ⟨returned.1, returned.2.trans ?_⟩
          rw [List.map_append, List.map_append, others, List.append_assoc, List.append_assoc]
          rw [List.map_cons, same]
          rfl

@[simp] theorem parsebacks_skip (fuel : Nat) (cmd : Cmd Span) (s : List Byte) :
    parsebacks fuel cmd (skip s) = parsebacks fuel cmd s := by
  cases fuel with
  | zero => rfl
  | succ fuel => rw [parsebacks, parsebacks, peek_skip, skip_skip]

theorem parsebacks_complete {cmd all : Cmd (List Byte)} (backs : Backs s cmd all rest)
    (unseen : peek rest [0x26] = false) (fuel : Nat) (tree : Cmd Span)
    (same : tree.map Span.text = cmd) :
    Ends (parsebacks fuel tree s) OutOfFuel fun r =>
      r.2 = skip rest ∧ r.1.map Span.text = all := by
  induction backs generalizing fuel tree with
  | @done s rest cmd blank =>
      cases fuel with
      | zero => exact ends_error rfl
      | succ fuel =>
          have left := skip_blank blank
          rw [← peek_skip, ← left, peek_skip] at unseen
          rw [parsebacks, if_neg (Bool.not_eq_true _ ▸ unseen)]
          exact ⟨left, same⟩
  | @more s a rest cmd all symbol later ih =>
      cases fuel with
      | zero => exact ends_error rfl
      | succ fuel =>
          have there : (0x26 : Byte) ∈ [0x26] := List.mem_cons_self
          obtain ⟨seen, _, left⟩ := symbol.seen (by decide) there
          rw [parsebacks, if_pos seen, gettoken_skip, left, parsebacks_skip]
          exact ih unseen fuel (.back tree) (congrArg Cmd.back same)

/-! The four functions skip whitespace first. -/

@[simp] theorem parseexec_skip (fuel : Nat) (s : List Byte) :
    parseexec fuel (skip s) = parseexec fuel s := by
  cases fuel with
  | zero => rfl
  | succ fuel => rw [parseexec, parseexec, peek_skip, skip_skip]

@[simp] theorem parsepipe_skip (fuel : Nat) (s : List Byte) :
    parsepipe fuel (skip s) = parsepipe fuel s := by
  cases fuel with
  | zero => rfl
  | succ fuel => rw [parsepipe, parsepipe, parseexec_skip]

@[simp] theorem parseline_skip (fuel : Nat) (s : List Byte) :
    parseline fuel (skip s) = parseline fuel s := by
  cases fuel with
  | zero => rfl
  | succ fuel => rw [parseline, parseline, parsepipe_skip]

def parse : Nonterminal → Nat → List Byte → Parse
  | .line => parseline
  | .pipe => parsepipe
  | .exec => parseexec

theorem parser_complete {n : Nonterminal} {cmd : Cmd (List Byte)}
    (derives : Derives n s cmd rest) (stops : Stops n.stops rest) (nulFree : (0 : Byte) ∉ s)
    (fuel : Nat) :
    Ends (parse n fuel s) OutOfFuel fun r => r.2 = skip rest ∧ r.1.map Span.text = cmd := by
  induction derives generalizing fuel with
  | @line s a rest cmd all pipe backs ih =>
      cases fuel with
      | zero => exact ends_error rfl
      | succ fuel =>
          have behind : Stops Nonterminal.pipe.stops a :=
            backs.stops (stops.mono (by decide)) (by decide)
          show Ends (parseline (fuel + 1) s) _ _
          rw [parseline]
          refine ends_bind (ends_mono (ih behind nulFree fuel) (fun _ tired => tired) ?_)
          intro r returned
          obtain ⟨left, same⟩ := returned
          rw [left, parsebacks_skip]
          have wrapped := parsebacks_complete backs (peek_none stops (by decide)) fuel r.1 same
          refine ends_bind (ends_mono wrapped (fun _ tired => tired) fun r returned => ?_)
          obtain ⟨left, same⟩ := returned
          have unseen : peek rest [0x3b] = false := peek_none stops (by decide)
          rw [left, peek_skip, if_neg (Bool.not_eq_true _ ▸ unseen), skip_skip]
          exact ⟨rfl, same⟩
  | @list s a b c rest cmd left right pipe backs symbol more ih ih' =>
      cases fuel with
      | zero => exact ends_error rfl
      | succ fuel =>
          have semicolon : Stops [0x3b] b := symbol.stops (by decide) List.mem_cons_self
          have behind : Stops Nonterminal.pipe.stops a :=
            backs.stops (semicolon.mono (by decide)) (by decide)
          have tail := fun member =>
            nulFree (((symbol.suffix.trans backs.suffix).trans pipe.suffix).mem member)
          show Ends (parseline (fuel + 1) s) _ _
          rw [parseline]
          refine ends_bind (ends_mono (ih behind nulFree fuel) (fun _ tired => tired) ?_)
          intro r returned
          obtain ⟨left_, same⟩ := returned
          rw [left_, parsebacks_skip]
          have wrapped :=
            parsebacks_complete backs (peek_none semicolon (by decide)) fuel r.1 same
          refine ends_bind (ends_mono wrapped (fun _ tired => tired) fun r returned => ?_)
          obtain ⟨left_, same⟩ := returned
          have there : (0x3b : Byte) ∈ [0x3b] := List.mem_cons_self
          obtain ⟨seen, _, next⟩ := symbol.seen (by decide) there
          rw [left_, peek_skip, if_pos seen, skip_skip, gettoken_skip, next, parseline_skip]
          refine ends_bind (ends_mono (ih' stops tail fuel) (fun _ tired => tired) ?_)
          intro last returned
          refine ⟨returned.1, ?_⟩
          rw [Cmd.map, same, returned.2]
  | @last s rest cmd exec ih =>
      cases fuel with
      | zero => exact ends_error rfl
      | succ fuel =>
          show Ends (parsepipe (fuel + 1) s) _ _
          rw [parsepipe]
          refine ends_bind (ends_mono (ih (stops.mono (by decide)) nulFree fuel)
            (fun _ tired => tired) ?_)
          intro r returned
          have unseen : peek rest [0x7c] = false := peek_none stops (by decide)
          rw [returned.1, peek_skip, if_neg (Bool.not_eq_true _ ▸ unseen), skip_skip]
          exact ⟨rfl, returned.2⟩
  | @pipe s a b rest left right exec symbol more ih ih' =>
      cases fuel with
      | zero => exact ends_error rfl
      | succ fuel =>
          have behind : Stops Nonterminal.exec.stops a := symbol.stops (by decide) (by decide)
          have tail := fun member => nulFree ((symbol.suffix.trans exec.suffix).mem member)
          show Ends (parsepipe (fuel + 1) s) _ _
          rw [parsepipe]
          refine ends_bind (ends_mono (ih behind nulFree fuel) (fun _ tired => tired) ?_)
          intro r returned
          have there : (0x7c : Byte) ∈ [0x7c] := List.mem_cons_self
          obtain ⟨seen, _, next⟩ := symbol.seen (by decide) there
          rw [returned.1, peek_skip, if_pos seen, skip_skip, gettoken_skip, next, parsepipe_skip]
          refine ends_bind (ends_mono (ih' stops tail fuel) (fun _ tired => tired) ?_)
          intro last more
          refine ⟨more.1, ?_⟩
          rw [Cmd.map, returned.2, more.2]
  | @block s a b c rest cmd rs opens line closes redirs ih =>
      cases fuel with
      | zero => exact ends_error rfl
      | succ fuel =>
          have there : (0x28 : Byte) ∈ [0x28] := List.mem_cons_self
          obtain ⟨seen, _, next⟩ := opens.seen (by decide) there
          show Ends (parseexec (fuel + 1) s) _ _
          rw [parseexec, if_pos seen, parseblock_skip]
          cases fuel with
          | zero => exact ends_error rfl
          | succ fuel =>
              have behind : Stops Nonterminal.line.stops b :=
                closes.stops (by decide) (by decide)
              have tail := fun member => nulFree (opens.suffix.mem member)
              have tail' := fun member =>
                tail ((closes.suffix.trans line.suffix).mem member)
              rw [parseblock, if_neg (not_not.mpr seen), gettoken_skip, next, parseline_skip]
              refine ends_bind (ends_mono (ih behind tail fuel) (fun _ tired => tired) ?_)
              intro r returned
              obtain ⟨left, same⟩ := returned
              have there : (0x29 : Byte) ∈ [0x29] := List.mem_cons_self
              obtain ⟨seen, _, next⟩ := closes.seen (by decide) there
              rw [left, peek_skip, if_neg (not_not.mpr seen), skip_skip, gettoken_skip, next,
                parseredirs_skip]
              have redirected := parseredirs_complete redirs (peek_none stops (by decide)) tail'
                fuel r.1
              refine ends_mono redirected (fun _ tired => tired) fun last returned => ?_
              obtain ⟨left, rs', wraps, others⟩ := returned
              refine ⟨left, ?_⟩
              rw [wraps, wrap_map, same, others]
  | @exec s a rest ws rs rs' redirs args few =>
      cases fuel with
      | zero => exact ends_error rfl
      | succ fuel =>
          have tail := fun member => nulFree (redirs.suffix.mem member)
          have unseen := redirs.unseen args stops nulFree
          show Ends (parseexec (fuel + 1) s) _ _
          rw [parseexec, if_neg (Bool.not_eq_true _ ▸ unseen), parseredirs_skip]
          have redirected := parseredirs_complete redirs (args.unseen stops) nulFree fuel
            (.exec [])
          refine ends_bind (ends_mono redirected (fun _ tired => tired) fun r returned => ?_)
          obtain ⟨left, rs₁, wraps, others⟩ := returned
          rw [left, wraps, parseargs_skip, ← others]
          have all := parseargs_complete args stops tail fuel 0 [] rs₁ (by omega)
          exact ends_mono all (fun _ tired => tired) fun last returned => returned

end Complete

/-! ## The parser -/

/-- The fuel for a line. -/
def rounds (line : List Byte) : Nat := 4 * line.length + 4

theorem parseline_ends {fuel : Nat} {line : List Byte} (enough : rounds line ≤ fuel) :
    parseline fuel line ≠ .error .fuel := by
  intro tired
  have low := ((parser_sound fuel).line line).error tired rfl
  exact absurd low (Nat.not_lt.mpr enough)

/-- On a line without NULs parsecmd() ends, and what it returns is what the grammar derives
from the line. -/
theorem parsecmd_iff (line : List Byte) (nulFree : (0 : Byte) ∉ line) (fuel : Nat)
    (enough : rounds line ≤ fuel) :
    parsecmd fuel line ≠ .error .fuel ∧
      ∀ cmd, parsecmd fuel line = .ok cmd ↔ Derivable line cmd := by
  unfold parsecmd
  cases parsed : parseline fuel line with
  | error stop =>
      have notFuel : stop ≠ .fuel := fun same =>
        parseline_ends enough (parsed.trans (congrArg _ same))
      refine ⟨fun same => notFuel (Except.error.inj same), fun cmd => ?_⟩
      refine iff_of_false nofun fun derives => notFuel ?_
      exact (parser_complete derives nofun nulFree fuel).error parsed
  | ok r =>
      obtain ⟨derives, inside⟩ := ((parser_sound fuel).line line).ok parsed
      have words := strings_eq nulFree inside
      have complete := fun cmd (sentence : Derivable line cmd) =>
        (parser_complete sentence nofun nulFree fuel).ok parsed
      show (if skip r.2 ≠ [] then Except.error (Stop.panic "syntax")
          else .ok (r.1.map (string (nulterminate r.1 line)))) ≠ .error Stop.fuel ∧
        ∀ cmd, (if skip r.2 ≠ [] then Except.error (Stop.panic "syntax")
          else .ok (r.1.map (string (nulterminate r.1 line)))) = .ok cmd ↔ Derivable line cmd
      split
      case isTrue more =>
        refine ⟨nofun, fun cmd => iff_of_false nofun fun sentence => more ?_⟩
        rw [(complete cmd sentence).1]
        rfl
      case isFalse none =>
        have sentence : Derivable line (r.1.map Span.text) :=
          derives.blank (not_not.mp none ▸ blank_skip r.2)
        rw [words]
        refine ⟨nofun, fun cmd => ⟨fun same => ?_, fun sentence => ?_⟩⟩
        · exact Except.ok.inj same ▸ sentence
        · exact congrArg Except.ok (complete cmd sentence).2

/-- `a>b` -/
theorem parsecmd_iff_redir :
    Derivable [0x61, 0x3e, 0x62] (.redir (.exec [[0x61]]) [0x62] 0x201 1) :=
  ((parsecmd_iff [0x61, 0x3e, 0x62] (by decide) 16 (by decide)).2 _).mp rfl

end Xv6.Public2.Shell
