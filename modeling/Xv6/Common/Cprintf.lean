import Xv6.Lib.CString

/-!
# cprintf() (console.c)

The format is the list of bytes from a pointer on, whose end reads as the NUL.  The
arguments are the words of the stack from `argp` on: cprintf() takes as many as the format
asks for, whether its caller has passed them or not.
-/

set_option autoImplicit false

namespace Xv6.Common.Cprintf

open Xv6.Lib.CString
open Xv6.Lib.Words

/-- `'%'` -/
def percent : Byte := 37

/-- `'-'` -/
def minus : Byte := 45

/-- `digits[d]` -/
def digit (d : Nat) : Byte := (bytes "0123456789abcdef").getD d 0

/-- The `do` loop of printint(), with the last digit first; `left` is the room in `buf`. -/
def printDigits (base : Nat) : Nat → Nat → List Byte
  | 0, _ => []
  | left + 1, x =>
      digit (x % base) :: if x / base = 0 then [] else printDigits base left (x / base)

/-- `sizeof(buf)` -/
abbrev bufSize : Nat := 16

def printint (xx : Word) (base : Nat) (sign : Bool) : List Byte :=
  if sign ∧ xx.toInt < 0 then
    (printDigits base bufSize (-xx).toNat ++ [minus]).reverse
  else (printDigits base bufSize xx.toNat).reverse

/-- The bytes from a pointer to the end of memory. -/
@[irreducible] def memoryFrom (mem : Memory) (a : Word) : List Byte := load mem a (2 ^ 32 - a.toNat)

/-- The C string at a pointer. -/
def stringAt (mem : Memory) (a : Word) : List Byte := text (memoryFrom mem a)

/-- What is printed for `%c` when `*argp` is `arg`, and whether the argument is taken. -/
def directive (mem : Memory) (arg : Word) (c : Byte) : List Byte × Bool :=
  if c = 100 then (printint arg 10 true, true)
  else if c = 120 ∨ c = 112 then (printint arg 16 false, true)
  else if c = 115 then (if arg = 0 then bytes "(null)" else stringAt mem arg, true)
  else if c = percent then ([percent], false)
  else ([percent, c], false)

/-- The loop of cprintf(): what it prints, and the number of arguments it takes. -/
def cprintfLoop (mem : Memory) (argp : Nat → Word) : List Byte → List Byte × Nat
  | [] => ([], 0)
  | c :: fmt =>
      if c = 0 then ([], 0)
      else if c ≠ percent then
        let rest := cprintfLoop mem argp fmt
        (c :: rest.1, rest.2)
      else if fmt.headD 0 = 0 then ([], 0)
      else
        let shown := directive mem (argp 0) (fmt.headD 0)
        if shown.2 then
          let rest := cprintfLoop mem (fun i => argp (i + 1)) fmt.tail
          (shown.1 ++ rest.1, rest.2 + 1)
        else
          let rest := cprintfLoop mem argp fmt.tail
          (shown.1 ++ rest.1, rest.2)
  termination_by fmt => fmt.length
  decreasing_by
    · exact Nat.lt_succ_self _
    · rw [List.length_tail, List.length_cons]
      omega
    · rw [List.length_tail, List.length_cons]
      omega

/-! ## Formats without directives -/

/-- A character after `%` for which something else than the two of them is printed; the
end of the format reads as 0. -/
def Special (c : Byte) : Prop :=
  c = 0 ∨ c = 100 ∨ c = 120 ∨ c = 112 ∨ c = 115 ∨ c = percent

instance : DecidablePred Special := fun c =>
  inferInstanceAs (Decidable (c = 0 ∨ c = 100 ∨ c = 120 ∨ c = 112 ∨ c = 115 ∨ c = percent))

/-- No `%` is followed by a special character. -/
def Plain (s : List Byte) : Prop :=
  ∀ before after, s = before ++ percent :: after → ¬ Special (after.headD 0)

theorem plain_nil : Plain [] := by
  intro before after split
  cases before <;> cases split

theorem plain_cons {c : Byte} {s : List Byte} :
    Plain (c :: s) ↔ (c = percent → ¬ Special (s.headD 0)) ∧ Plain s := by
  constructor
  · intro plain
    refine ⟨fun here => plain [] s (by rw [here]; rfl), fun before after split => ?_⟩
    exact plain (c :: before) after (by rw [split]; rfl)
  · rintro ⟨first, others⟩ before after split
    cases before with
    | nil =>
        cases split
        exact first rfl
    | cons d before =>
        exact others before after (List.cons.inj split).2

theorem text_headD (s : List Byte) :
    text s = if s.headD 0 = 0 then [] else s.headD 0 :: text s.tail := by
  cases s with
  | nil => rfl
  | cons c s => exact text_cons c s

theorem headD_text (s : List Byte) : (text s).headD 0 = s.headD 0 := by
  rw [text_headD]
  split
  · rename_i ends
    exact ends.symm
  · rfl

theorem directive_plain {mem : Memory} {arg : Word} {c : Byte} (plain : ¬ Special c) :
    directive mem arg c = ([percent, c], false) := by
  simp only [Special, not_or] at plain
  obtain ⟨-, d, x, p, s, again⟩ := plain
  rw [directive, if_neg d, if_neg fun either => either.elim x p, if_neg s, if_neg again]

/-- A format without directives is printed as it is, and takes nothing. -/
theorem cprintfLoop_plain {mem : Memory} {argp : Nat → Word} {fmt : List Byte}
    (plain : Plain (text fmt)) : cprintfLoop mem argp fmt = (text fmt, 0) := by
  fun_induction cprintfLoop mem argp fmt with
  | case1 => rfl
  | case2 argp fmt => rw [text_cons, if_pos rfl]
  | case3 argp c fmt some_char other rest ih =>
      rw [text_cons, if_neg some_char] at plain ⊢
      rw [show rest = _ from ih (plain_cons.mp plain).2]
  | case4 argp c fmt some_char here ends =>
      have here : c = percent := not_not.mp here
      rw [text_cons, if_neg some_char] at plain
      have special := (plain_cons.mp plain).1 here
      rw [headD_text] at special
      exact absurd (.inl ends) special
  | case5 argp c fmt some_char here more shown taken rest ih =>
      have here : c = percent := not_not.mp here
      rw [text_cons, if_neg some_char] at plain
      have special := (plain_cons.mp plain).1 here
      rw [headD_text] at special
      have both : shown = ([percent, fmt.headD 0], false) := directive_plain special
      rw [both] at taken
      cases taken
  | case6 argp c fmt some_char here more shown kept rest ih =>
      have here : c = percent := not_not.mp here
      rw [text_cons, if_neg some_char] at plain ⊢
      have special := (plain_cons.mp plain).1 here
      rw [headD_text] at special
      have both : shown = ([percent, fmt.headD 0], false) := directive_plain special
      have later := (plain_cons.mp plain).2
      rw [text_headD, if_neg more] at later ⊢
      rw [show rest = _ from ih (plain_cons.mp later).2, both, here]
      rfl

/-- Characters other than `%` at the front of a format are printed as they are. -/
theorem cprintfLoop_literal {mem : Memory} {argp : Nat → Word} {s fmt : List Byte}
    (literal : ∀ c ∈ s, c ≠ 0 ∧ c ≠ percent) :
    cprintfLoop mem argp (s ++ fmt) =
      (s ++ (cprintfLoop mem argp fmt).1, (cprintfLoop mem argp fmt).2) := by
  induction s with
  | nil => rfl
  | cons c s ih =>
      obtain ⟨some_char, other⟩ := literal c (.head _)
      rw [List.cons_append, cprintfLoop, if_neg some_char, if_pos other,
        ih fun d listed => literal d (.tail _ listed)]
      rfl

theorem cprintfLoop_int {mem : Memory} {argp : Nat → Word} {fmt : List Byte} :
    cprintfLoop mem argp (percent :: 100 :: fmt) =
      (printint (argp 0) 10 true ++ (cprintfLoop mem (fun i => argp (i + 1)) fmt).1,
        (cprintfLoop mem (fun i => argp (i + 1)) fmt).2 + 1) := by
  have more : ¬ (100 :: fmt).headD 0 = 0 := by
    show ¬ (100 : Byte) = 0
    decide
  rw [cprintfLoop, if_neg (by decide), if_neg (by decide), if_neg more]
  rfl

/-! ## Formats with directives -/

theorem address_succ (a : Word) (i : Nat) :
    a + BitVec.ofNat 32 (i + 1) = a + 1 + BitVec.ofNat 32 i := by
  rw [Nat.add_comm, BitVec.ofNat_add, BitVec.add_assoc]
  rfl

theorem stringAt_nul {mem : Memory} {z : Word} (nul : mem z = 0) : stringAt mem z = [] := by
  obtain ⟨n, size⟩ : ∃ n, 2 ^ 32 - z.toNat = n + 1 := ⟨2 ^ 32 - z.toNat - 1, by omega⟩
  rw [stringAt, memoryFrom, size, load, List.range_succ_eq_map, List.map_cons, text_cons,
    BitVec.add_zero, if_pos nul]

/-- A directive that takes an argument can print less than its two characters. -/
theorem directive_short {mem : Memory} {z : Word} (nonnull : z ≠ 0) (nul : mem z = 0) {c : Byte}
    (taken : c = 100 ∨ c = 120 ∨ c = 112 ∨ c = 115) :
    ∃ arg, (directive mem arg c).1.length < 2 ∧ (directive mem arg c).2 = true := by
  have zero_short (base : Nat) (sign : Bool) : (printint 0 base sign).length < 2 := by
    have value : printint 0 base sign = [digit (0 % base)] := by
      cases sign <;> simp [printint, printDigits]
    rw [value]
    exact Nat.lt_succ_self 1
  rcases taken with rfl | rfl | rfl | rfl
  · exact ⟨0, zero_short 10 true, rfl⟩
  · exact ⟨0, zero_short 16 false, rfl⟩
  · exact ⟨0, zero_short 16 false, rfl⟩
  · refine ⟨z, ?_, rfl⟩
    show (if z = 0 then bytes "(null)" else stringAt mem z).length < 2
    rw [if_neg nonnull, stringAt_nul nul]
    exact Nat.succ_pos 1

/-- The arguments with one more in front. -/
def pushed (arg : Word) (argp : Nat → Word) : Nat → Word
  | 0 => arg
  | i + 1 => argp i

/-- Whatever the format, the stack can be such that no more is printed than the format's
own length, and less if it is not plain. -/
theorem cprintfLoop_short {mem : Memory} {z : Word} (nonnull : z ≠ 0) (nul : mem z = 0)
    (fmt : List Byte) : ∃ argp, (cprintfLoop mem argp fmt).1.length ≤ (text fmt).length ∧
      (¬ Plain (text fmt) → (cprintfLoop mem argp fmt).1.length < (text fmt).length) := by
  match fmt with
  | [] =>
      refine ⟨fun _ => 0, ?_, fun special => absurd plain_nil special⟩
      simp [cprintfLoop]
  | c :: fmt =>
      by_cases ends : c = 0
      · refine ⟨fun _ => 0, ?_, fun special => ?_⟩
        · rw [cprintfLoop, if_pos ends]
          exact Nat.zero_le _
        · rw [text_cons, if_pos ends] at special
          exact absurd plain_nil special
      by_cases other : c ≠ percent
      · obtain ⟨argp, short, shorter⟩ := cprintfLoop_short nonnull nul fmt
        refine ⟨argp, ?_, fun special => ?_⟩
        · rw [cprintfLoop, if_neg ends, if_pos other, text_cons, if_neg ends]
          exact Nat.succ_le_succ short
        · rw [text_cons, if_neg ends] at special ⊢
          rw [cprintfLoop, if_neg ends, if_pos other]
          exact Nat.succ_lt_succ (shorter fun plain =>
            special (plain_cons.mpr ⟨fun here => absurd here other, plain⟩))
      by_cases last : fmt.headD 0 = 0
      · have printed : cprintfLoop mem (fun _ => 0) (c :: fmt) = ([], 0) := by
          rw [cprintfLoop, if_neg ends, if_neg other, if_pos last]
        refine ⟨fun _ => 0, ?_, fun _ => ?_⟩ <;> rw [printed, text_cons, if_neg ends]
        · exact Nat.zero_le _
        · exact Nat.succ_pos _
      -- the two characters of a directive, and then the rest
      have read : text (c :: fmt) = c :: fmt.headD 0 :: text fmt.tail := by
        rw [text_cons, if_neg ends, text_headD, if_neg last]
      obtain ⟨argp, short, shorter⟩ := cprintfLoop_short nonnull nul fmt.tail
      by_cases takes : fmt.headD 0 = 100 ∨ fmt.headD 0 = 120 ∨ fmt.headD 0 = 112 ∨
          fmt.headD 0 = 115
      · obtain ⟨arg, brief, taken⟩ := directive_short nonnull nul takes
        have printed : cprintfLoop mem (pushed arg argp) (c :: fmt) =
            ((directive mem arg (fmt.headD 0)).1 ++ (cprintfLoop mem argp fmt.tail).1,
              (cprintfLoop mem argp fmt.tail).2 + 1) := by
          rw [cprintfLoop, if_neg ends, if_neg other, if_neg last]
          exact if_pos taken
        have strict : (cprintfLoop mem (pushed arg argp) (c :: fmt)).1.length <
            (text (c :: fmt)).length := by
          rw [printed, read]
          simp only [List.length_append, List.length_cons]
          exact Nat.lt_of_lt_of_le (Nat.add_lt_add_of_lt_of_le brief short) (by omega)
        exact ⟨pushed arg argp, Nat.le_of_lt strict, fun _ => strict⟩
      by_cases again : fmt.headD 0 = percent
      · have shown : directive mem (argp 0) (fmt.headD 0) = ([percent], false) := by
          rw [again]
          rfl
        have strict : (cprintfLoop mem argp (c :: fmt)).1.length <
            (text (c :: fmt)).length := by
          rw [cprintfLoop, if_neg ends, if_neg other, if_neg last, shown,
            if_neg Bool.false_ne_true, read]
          simp only [List.length_append, List.length_cons]
          exact Nat.lt_of_le_of_lt (Nat.add_le_add_left short _) (by simp; omega)
        exact ⟨argp, Nat.le_of_lt strict, fun _ => strict⟩
      · have plain : ¬ Special (fmt.headD 0) := by
          rintro (zero | d | x | p | s | twice)
          · exact last zero
          · exact takes (.inl d)
          · exact takes (.inr (.inl x))
          · exact takes (.inr (.inr (.inl p)))
          · exact takes (.inr (.inr (.inr s)))
          · exact again twice
        have printed : (cprintfLoop mem argp (c :: fmt)).1 =
            percent :: fmt.headD 0 :: (cprintfLoop mem argp fmt.tail).1 := by
          rw [cprintfLoop, if_neg ends, if_neg other, if_neg last, directive_plain plain,
            if_neg Bool.false_ne_true]
          rfl
        refine ⟨argp, ?_, fun special => ?_⟩ <;> rw [printed, read] <;>
          simp only [List.length_cons]
        · omega
        · have tail_special : ¬ Plain (text fmt.tail) := fun rest => special (by
            rw [read]
            exact plain_cons.mpr ⟨fun _ => plain, plain_cons.mpr
              ⟨fun same => absurd same again, rest⟩⟩)
          have less := shorter tail_special
          omega
  termination_by fmt.length
  decreasing_by
    · exact Nat.lt_succ_self _
    · rw [List.length_tail, List.length_cons]
      omega

end Xv6.Common.Cprintf
