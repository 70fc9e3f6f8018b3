import Mathlib.Algebra.Group.Nat.Defs
import Xv6.Public1.Login

/-!
# The chmod command of the shell (sh.c of xv6-public_1)

The part of the loop of main() that reads a line and scans it for a file name and a mode.
The name is copied into 64 bytes and the mode into 10, and the scanner goes on from where
the copy stopped.
-/

set_option autoImplicit false

namespace Xv6.Public1.ChmodCommand

open Xv6.Lib.CString
open Xv6.Lib.Words
open Xv6.Public1.Login

def space : Byte := 32

/-- `while(*p==' ') p++;` -/
def skipSpaces : List Byte → List Byte
  | [] => []
  | c :: p => if c = space then skipSpaces p else c :: p

/-- `while(*p && *p != ' ' && i < room) s[i++] = *p++;`: the bytes copied, and `p`. -/
def copyWord : Nat → List Byte → List Byte × List Byte
  | 0, p => ([], p)
  | _ + 1, [] => ([], [])
  | room + 1, c :: p =>
      if c ≠ 0 ∧ c ≠ space then (c :: (copyWord room p).1, (copyWord room p).2)
      else ([], c :: p)

/-- The loop of atoi(). -/
def atoiLoop : Word → List Byte → Word
  | n, [] => n
  | n, c :: s => if 48 ≤ c ∧ c ≤ 57 then atoiLoop (n * 10 + c.setWidth 32 - 48) s else n

def atoi (s : List Byte) : Word := atoiLoop 0 s

/-- What the shell does with a line. -/
inductive Command where
  | chdir (path : List Byte)
  | chmod (fileName : List Byte) (mode : Word)
  /-- Another built-in, or a command for runcmd(). -/
  | other
  deriving DecidableEq

/-- `buf[strlen(buf)-1] = 0;` -/
def chop (buf : List Byte) : List Byte := buf.set (strlen buf - 1) 0

/-- The arguments of chmod(), from the line without its newline. -/
def chmodArgs (buf : List Byte) : List Byte × Word :=
  let named := copyWord 63 (skipSpaces (buf.drop 6))
  let moded := copyWord 9 (skipSpaces named.2)
  (named.1, atoi moded.1)

/-- The tests of the first characters. -/
def command (buf : List Byte) : Command :=
  if buf.getD 0 0 = 99 ∧ buf.getD 1 0 = 100 ∧ buf.getD 2 0 = space then
    .chdir ((chop buf).drop 3)
  else if buf.getD 0 0 = 99 ∧ buf.getD 1 0 = 104 ∧ buf.getD 2 0 = 109 ∧ buf.getD 3 0 = 111 ∧
      buf.getD 4 0 = 100 ∧ buf.getD 5 0 = space then
    .chmod (chmodArgs (chop buf)).1 (chmodArgs (chop buf)).2
  else .other

/-- One round of the loop of main(): getcmd(), and the command; `none` inside is the end of
the input. The outer `none` is a read that waits. -/
def round (input : Input) : Option (Option Command × Input) :=
  (gets 100 input).map fun read =>
    (if read.1.headD 0 = 0 then none else some (command read.1), read.2)

/-! ## Lines -/

/-- A character of a file name in a line. -/
def NameChar (c : Byte) : Prop := c ≠ 0 ∧ c ≠ space ∧ c ≠ newline ∧ c ≠ carriageReturn

instance (c : Byte) : Decidable (NameChar c) := inferInstanceAs (Decidable (_ ∧ _ ∧ _ ∧ _))

def Digit (c : Byte) : Prop := 48 ≤ c ∧ c ≤ 57

instance (c : Byte) : Decidable (Digit c) := inferInstanceAs (Decidable (_ ∧ _))

/-- The number that digits say, after `n`. -/
def valueFrom (n : Nat) (digits : List Byte) : Nat :=
  digits.foldl (fun n c => n * 10 + (c.toNat - 48)) n

def value (digits : List Byte) : Nat := valueFrom 0 digits

/-- `chmod`, `gap + 1` spaces, the name, `gap' + 1` spaces and the mode. -/
def body (gap gap' : Nat) (name digits : List Byte) : List Byte :=
  bytes "chmod" ++ List.replicate (gap + 1) space ++ name ++ List.replicate (gap' + 1) space ++
    digits

/-- The line and its newline, and what follows it. -/
def typed (body : List Byte) (rest : Input) : Input := (body ++ [newline]).map some ++ rest

/-- The shell does with the line what it says: if the line fits in `buf`, it calls chmod()
with the name and the mode; and if the name does not fit in `fileName`, it calls chmod()
with no other name. -/
def Obeyed (gap gap' : Nat) (name digits : List Byte) (rest : Input) : Prop :=
  ((body gap gap' name digits).length + 1 ≤ 99 →
    ∃ mode, round (typed (body gap gap' name digits) rest) = some (some (.chmod name mode), rest) ∧
      mode.toNat = value digits) ∧
  (63 < name.length → ∀ fileName mode rest',
    round (typed (body gap gap' name digits) rest) = some (some (.chmod fileName mode), rest') →
      fileName = name)

/-! ## The functions -/

theorem skipSpaces_spaces (n : Nat) {p : List Byte} (next : p.headD 0 ≠ space) :
    skipSpaces (List.replicate n space ++ p) = p := by
  induction n with
  | zero =>
      cases p with
      | nil => rfl
      | cons c p => exact if_neg next
  | succ n ih =>
      rw [List.replicate_succ, List.cons_append, skipSpaces, if_pos rfl, ih]

theorem copyWord_length (room : Nat) (p : List Byte) : (copyWord room p).1.length ≤ room := by
  induction room generalizing p with
  | zero => exact Nat.le_refl 0
  | succ room ih =>
      cases p with
      | nil => exact Nat.zero_le _
      | cons c p =>
          rw [copyWord]
          split
          · exact Nat.succ_le_succ (ih p)
          · exact Nat.zero_le _

/-- A word that ends within the room, or goes on. -/
theorem copyWord_word {word : List Byte} (plain : ∀ c ∈ word, c ≠ 0 ∧ c ≠ space) {rest : List Byte}
    (ends : rest.headD 0 = 0 ∨ rest.headD 0 = space) (room : Nat) :
    copyWord room (word ++ rest) = (word.take room, word.drop room ++ rest) := by
  induction room generalizing word with
  | zero => rfl
  | succ room ih =>
      cases word with
      | nil =>
          cases rest with
          | nil => rfl
          | cons c rest =>
              exact if_neg fun both => ends.elim both.1 both.2
      | cons c word =>
          rw [List.cons_append, copyWord, if_pos (plain c (.head _)),
            ih fun d listed => plain d (.tail _ listed)]
          rfl

/-! ## Numbers -/

theorem digit_bounds {c : Byte} (digit : Digit c) : 48 ≤ c.toNat ∧ c.toNat ≤ 57 := digit

theorem valueFrom_lt {digits : List Byte} (all : ∀ c ∈ digits, Digit c) (n : Nat) :
    valueFrom n digits < (n + 1) * 10 ^ digits.length := by
  induction digits generalizing n with
  | nil =>
      show n < (n + 1) * 10 ^ 0
      omega
  | cons c digits ih =>
      obtain ⟨low, high⟩ := digit_bounds (all c (.head _))
      have rest := ih (fun d listed => all d (.tail _ listed)) (n * 10 + (c.toNat - 48))
      have step : (n * 10 + (c.toNat - 48) + 1) * 10 ^ digits.length ≤
          (n * 10 + 10) * 10 ^ digits.length := Nat.mul_le_mul_right _ (by omega)
      have shift : (n * 10 + 10) * 10 ^ digits.length = (n + 1) * 10 ^ (digits.length + 1) := by
        rw [Nat.pow_succ, Nat.mul_comm (10 ^ digits.length) 10, ← Nat.mul_assoc, Nat.add_mul n 1 10]
      exact Nat.lt_of_lt_of_le rest (Nat.le_trans step (Nat.le_of_eq shift))

theorem le_valueFrom (digits : List Byte) (n : Nat) :
    n * 10 ^ digits.length ≤ valueFrom n digits := by
  induction digits generalizing n with
  | nil =>
      show n * 10 ^ 0 ≤ n
      omega
  | cons c digits ih =>
      have step : n * 10 * 10 ^ digits.length ≤
          (n * 10 + (c.toNat - 48)) * 10 ^ digits.length :=
        Nat.mul_le_mul_right _ (Nat.le_add_right _ _)
      have shift : n * 10 ^ (digits.length + 1) = n * 10 * 10 ^ digits.length := by
        rw [Nat.pow_succ, Nat.mul_comm (10 ^ digits.length) 10, ← Nat.mul_assoc]
      exact Nat.le_trans (Nat.le_of_eq shift) (Nat.le_trans step (ih _))

theorem valueFrom_append (n : Nat) (first second : List Byte) :
    valueFrom n (first ++ second) = valueFrom (valueFrom n first) second :=
  List.foldl_append

/-- The first digits say as much as all of them, only if there are no more or all are 0. -/
theorem value_take_iff (digits : List Byte) (n : Nat) :
    value (digits.take n) = value digits ↔ digits.length ≤ n ∨ value digits = 0 := by
  have split : value digits = valueFrom (value (digits.take n)) (digits.drop n) := by
    rw [value, value, ← valueFrom_append, List.take_append_drop]
  have bound := le_valueFrom (digits.drop n) (value (digits.take n))
  rw [← split] at bound
  constructor
  · intro same
    by_cases whole : digits.length ≤ n
    · exact .inl whole
    · right
      have more : (digits.drop n).length ≠ 0 := by
        rw [List.length_drop]
        omega
      obtain ⟨k, size⟩ := Nat.exists_eq_succ_of_ne_zero more
      rw [size, same, Nat.pow_succ] at bound
      have positive : 0 < 10 ^ k := Nat.pow_pos (by decide)
      have tenfold : value digits * 10 ≤ value digits * (10 ^ k * 10) :=
        Nat.mul_le_mul_left _ (Nat.le_mul_of_pos_left 10 positive)
      omega
  · rintro (whole | zero)
    · rw [List.take_of_length_le whole]
    · have positive : 0 < 10 ^ (digits.drop n).length := Nat.pow_pos (by decide)
      rw [zero] at bound ⊢
      exact (Nat.mul_eq_zero.mp (Nat.le_zero.mp bound)).resolve_right (Nat.ne_of_gt positive)

theorem digit_step (n : Nat) {c : Byte} (digit : Digit c) :
    BitVec.ofNat 32 n * 10 + c.setWidth 32 - 48 = BitVec.ofNat 32 (n * 10 + (c.toNat - 48)) := by
  obtain ⟨low, high⟩ := digit_bounds digit
  have ten : (10 : Word).toNat = 10 := rfl
  have zero : (48 : Word).toNat = 48 := rfl
  apply BitVec.eq_of_toNat_eq
  simp only [ten, zero, BitVec.toNat_sub, BitVec.toNat_add, BitVec.toNat_mul, BitVec.toNat_ofNat,
    BitVec.toNat_setWidth]
  omega

theorem atoiLoop_digits {digits : List Byte} (all : ∀ c ∈ digits, Digit c) (n : Nat) :
    atoiLoop (BitVec.ofNat 32 n) digits = BitVec.ofNat 32 (valueFrom n digits) := by
  induction digits generalizing n with
  | nil => rfl
  | cons c digits ih =>
      have digit : 48 ≤ c ∧ c ≤ 57 := all c (.head _)
      rw [atoiLoop, if_pos digit, digit_step n digit, ih fun d listed => all d (.tail _ listed)]
      rfl

/-- Nine digits are far from the range of an int. -/
theorem atoi_digits {digits : List Byte} (all : ∀ c ∈ digits, Digit c) :
    (atoi (digits.take 9)).toNat = value (digits.take 9) := by
  have small : value (digits.take 9) < 2 ^ 32 := by
    have bound := @valueFrom_lt (digits.take 9)
      (fun c listed => all c (List.mem_of_mem_take listed)) 0
    have nine : 10 ^ (digits.take 9).length ≤ 10 ^ 9 :=
      Nat.pow_le_pow_right (by decide) (List.length_take_le 9 digits)
    have whole : value (digits.take 9) = valueFrom 0 (digits.take 9) := rfl
    omega
  show (atoiLoop (BitVec.ofNat 32 0) (digits.take 9)).toNat = _
  rw [atoiLoop_digits fun c listed => all c (List.mem_of_mem_take listed), BitVec.toNat_ofNat]
  exact Nat.mod_eq_of_lt small

/-! ## Reading a line -/

theorem getsLoop_typed {line : List Byte} (plain : ∀ c ∈ line, c ≠ newline ∧ c ≠ carriageReturn)
    (rest : Input) (room : Nat) :
    getsLoop room (typed line rest) =
      some ((line ++ [newline]).take room, ((line ++ [newline]).drop room).map some ++ rest) := by
  induction room generalizing line with
  | zero => rfl
  | succ room ih =>
      cases line with
      | nil =>
          show (if newline = newline ∨ newline = carriageReturn then some ([newline], rest)
            else (getsLoop room rest).map fun read => (newline :: read.1, read.2)) = _
          rw [if_pos (.inl rfl)]
          show _ = some (newline :: List.take room [], (List.drop room []).map some ++ rest)
          rw [List.take_nil, List.drop_nil]
          rfl
      | cons c line =>
          have inner : ¬ (c = newline ∨ c = carriageReturn) :=
            not_or.mpr (plain c (.head _))
          show (if c = newline ∨ c = carriageReturn then some ([c], typed line rest)
            else (getsLoop room (typed line rest)).map fun read => (c :: read.1, read.2)) = _
          rw [if_neg inner, ih fun d listed => plain d (.tail _ listed)]
          rfl

theorem strlen_append_nul {s : List Byte} (clean : 0 ∉ s) (t : List Byte) :
    strlen (s ++ 0 :: t) = s.length := by
  induction s with
  | nil => rfl
  | cons c s ih =>
      have nonzero : c ≠ 0 := fun zero => clean (zero ▸ .head _)
      rw [List.cons_append, strlen, if_neg nonzero, ih fun listed => clean (.tail _ listed)]
      rfl

/-- Cutting off the last character of a string. -/
theorem chop_last {s : List Byte} (clean : 0 ∉ s) {c : Byte} (last : c ≠ 0) :
    chop (s ++ [c] ++ [0]) = s ++ [0, 0] := by
  have whole : strlen (s ++ [c] ++ [0]) = s.length + 1 := by
    rw [strlen_append_nul (by simpa [not_or] using ⟨clean, last.symm⟩), List.length_append]
    rfl
  rw [chop, whole, List.append_assoc, Nat.add_sub_cancel,
    List.set_append_right _ _ (Nat.le_refl _), Nat.sub_self]
  rfl

/-- What is in `buf` after the last character has been cut off. -/
theorem chop_typed {line : List Byte} (clean : 0 ∉ line) :
    chop ((line ++ [newline]).take 99 ++ [0]) = line.take 98 ++ [0, 0] := by
  by_cases short : line.length ≤ 98
  · rw [List.take_of_length_le (by rw [List.length_append]; exact Nat.succ_le_succ short),
      chop_last clean (by decide), List.take_of_length_le short]
  · have long : 98 < line.length := Nat.lt_of_not_le short
    have more : line.drop 98 ≠ [] := fun none =>
      Nat.not_le_of_lt long (List.drop_eq_nil_iff.mp none)
    obtain ⟨c, rest, there⟩ := List.exists_cons_of_ne_nil more
    have member : c ∈ line.drop 98 := there ▸ List.mem_cons_self
    have start : (line ++ [newline]).take 99 = line.take 98 ++ [c] := by
      rw [List.take_append_of_le_length long, @List.take_add _ line 98 1, there]
      rfl
    rw [start, chop_last fun listed => clean (List.mem_of_mem_take listed)]
    exact fun zero => clean (zero ▸ List.mem_of_mem_drop member)

/-! ## The command -/

/-- The line after its first six characters. -/
def arguments (gap gap' : Nat) (name digits : List Byte) : List Byte :=
  List.replicate gap space ++ (name ++ (List.replicate (gap' + 1) space ++ digits))

theorem body_eq (gap gap' : Nat) (name digits : List Byte) :
    body gap gap' name digits =
      [99, 104, 109, 111, 100, space] ++ arguments gap gap' name digits := by
  have word : bytes "chmod" = [99, 104, 109, 111, 100] := by decide
  rw [body, arguments, word, List.replicate_succ]
  simp only [List.append_assoc, List.cons_append, List.nil_append]

theorem body_plain {gap gap' : Nat} {name digits : List Byte} (named : ∀ c ∈ name, NameChar c)
    (numbered : ∀ c ∈ digits, Digit c) :
    ∀ c ∈ body gap gap' name digits, c ≠ 0 ∧ c ≠ newline ∧ c ≠ carriageReturn := by
  have spaces : ∀ n, ∀ c ∈ List.replicate n space, c ≠ 0 ∧ c ≠ newline ∧ c ≠ carriageReturn := by
    intro n c listed
    rw [List.eq_of_mem_replicate listed]
    decide
  have word : ∀ c ∈ [99, 104, 109, 111, 100, space], c ≠ 0 ∧ c ≠ newline ∧ c ≠ carriageReturn := by
    decide
  have digit (c : Byte) (listed : c ∈ digits) : c ≠ 0 ∧ c ≠ newline ∧ c ≠ carriageReturn := by
    obtain ⟨low, high⟩ := digit_bounds (numbered c listed)
    refine ⟨?_, ?_, ?_⟩ <;> rintro rfl <;> exact absurd low (by decide)
  intro c listed
  rw [body_eq, arguments] at listed
  simp only [List.mem_append] at listed
  rcases listed with listed | listed | listed | listed | listed
  · exact word c listed
  · exact spaces gap c listed
  · exact ⟨(named c listed).1, (named c listed).2.2⟩
  · exact spaces (gap' + 1) c listed
  · exact digit c listed

theorem skipSpaces_word (n : Nat) {word : List Byte} (given : word ≠ [])
    (plain : ∀ c ∈ word, c ≠ space) (rest : List Byte) :
    skipSpaces (List.replicate n space ++ (word ++ rest)) = word ++ rest := by
  obtain ⟨c, word, rfl⟩ := List.exists_cons_of_ne_nil given
  exact skipSpaces_spaces n (plain c (.head _))

/-- The arguments of a line that fits, if the name does. -/
theorem chmodArgs_fits (gap gap' : Nat) {name digits : List Byte}
    (named : ∀ c ∈ name, NameChar c) (given : name ≠ []) (numbered : ∀ c ∈ digits, Digit c)
    (moded : digits ≠ []) (fits : name.length ≤ 63) :
    chmodArgs (body gap gap' name digits ++ [0, 0]) = (name, atoi (digits.take 9)) := by
  have plain (c : Byte) (listed : c ∈ digits) : c ≠ 0 ∧ c ≠ space := by
    obtain ⟨low, high⟩ := digit_bounds (numbered c listed)
    refine ⟨?_, ?_⟩ <;> rintro rfl <;> exact absurd low (by decide)
  have first : skipSpaces ((body gap gap' name digits ++ [0, 0]).drop 6) =
      name ++ (List.replicate (gap' + 1) space ++ (digits ++ [0, 0])) := by
    rw [body_eq]
    show skipSpaces (arguments gap gap' name digits ++ [0, 0]) = _
    rw [arguments, List.append_assoc, List.append_assoc, List.append_assoc]
    exact skipSpaces_word gap given (fun c listed => (named c listed).2.1) _
  have copied : copyWord 63 (name ++ (List.replicate (gap' + 1) space ++ (digits ++ [0, 0]))) =
      (name, List.replicate (gap' + 1) space ++ (digits ++ [0, 0])) := by
    rw [copyWord_word (fun c listed => ⟨(named c listed).1, (named c listed).2.1⟩) (.inr rfl),
      List.take_of_length_le fits, List.drop_of_length_le fits]
    rfl
  have second : skipSpaces (List.replicate (gap' + 1) space ++ (digits ++ [0, 0])) =
      digits ++ [0, 0] :=
    skipSpaces_word (gap' + 1) moded (fun c listed => (plain c listed).2) _
  simp only [chmodArgs, first, copied, second, @copyWord_word digits plain [0, 0] (.inl rfl)]

/-- One round on such a line: chmod() is called on what the scanner copied. -/
theorem round_typed (gap gap' : Nat) {name digits : List Byte} (named : ∀ c ∈ name, NameChar c)
    (numbered : ∀ c ∈ digits, Digit c) (rest : Input) :
    round (typed (body gap gap' name digits) rest) =
      some (some (.chmod (chmodArgs ((body gap gap' name digits).take 98 ++ [0, 0])).1
          (chmodArgs ((body gap gap' name digits).take 98 ++ [0, 0])).2),
        ((body gap gap' name digits ++ [newline]).drop 99).map some ++ rest) := by
  have plain := @body_plain gap gap' name digits named numbered
  have chopped : chop ((body gap gap' name digits ++ [newline]).take 99 ++ [0]) =
      (body gap gap' name digits).take 98 ++ [0, 0] :=
    chop_typed fun listed => (plain 0 listed).1 rfl
  have isChmod : command ((body gap gap' name digits ++ [newline]).take 99 ++ [0]) =
      .chmod (chmodArgs ((body gap gap' name digits).take 98 ++ [0, 0])).1
        (chmodArgs ((body gap gap' name digits).take 98 ++ [0, 0])).2 := by
    rw [← chopped, body_eq]
    rfl
  have begins : ((body gap gap' name digits ++ [newline]).take 99 ++ [0]).headD 0 ≠ 0 := by
    rw [body_eq]
    exact (by decide : (99 : Byte) ≠ 0)
  rw [round, gets, getsLoop_typed fun c listed => (plain c listed).2, Option.map_some,
    Option.map_some, if_neg begins, isChmod]

/-- On a line that fits, with a name that does, the mode may be cut. -/
theorem round_fits (gap gap' : Nat) {name digits : List Byte} (named : ∀ c ∈ name, NameChar c)
    (given : name ≠ []) (numbered : ∀ c ∈ digits, Digit c) (moded : digits ≠ [])
    (fits : name.length ≤ 63) (line : (body gap gap' name digits).length + 1 ≤ 99)
    (rest : Input) :
    round (typed (body gap gap' name digits) rest) =
      some (some (.chmod name (atoi (digits.take 9))), rest) := by
  rw [round_typed gap gap' named numbered,
    List.take_of_length_le (Nat.le_of_succ_le_succ line),
    chmodArgs_fits gap gap' named given numbered moded fits,
    List.drop_of_length_le (by rw [List.length_append]; exact line)]
  rfl

/-- The shell obeys the command exactly if the name fits in `fileName` and, in a line that
fits in `buf`, the mode fits in `modeStr` or is zero. -/
theorem command_obeyed (gap gap' : Nat) {name digits : List Byte}
    (named : ∀ c ∈ name, NameChar c) (given : name ≠ []) (numbered : ∀ c ∈ digits, Digit c)
    (moded : digits ≠ []) (rest : Input) :
    Obeyed gap gap' name digits rest ↔
      name.length ≤ 63 ∧ ((body gap gap' name digits).length + 1 ≤ 99 →
        digits.length ≤ 9 ∨ value digits = 0) := by
  constructor
  · intro obeyed
    have fits : name.length ≤ 63 := by
      by_contra long
      have same := obeyed.2 (Nat.lt_of_not_le long) _ _ _ (round_typed gap gap' named numbered rest)
      exact long (same ▸ copyWord_length 63 _)
    refine ⟨fits, fun line => ?_⟩
    obtain ⟨mode, called, right⟩ := obeyed.1 line
    rw [round_fits gap gap' named given numbered moded fits line rest] at called
    have same : mode = atoi (digits.take 9) := by
      injection called with pair
      injection pair with first
      injection first with command
      injection command with _ same
      exact same.symm
    rw [same, atoi_digits numbered] at right
    exact (value_take_iff digits 9).mp right
  · rintro ⟨fits, short⟩
    refine ⟨fun line => ?_, fun long => absurd fits (Nat.not_le_of_lt long)⟩
    refine ⟨_, round_fits gap gap' named given numbered moded fits line rest, ?_⟩
    rw [atoi_digits numbered]
    exact (value_take_iff digits 9).mpr (short line)

theorem command_obeyed_readme : Obeyed 0 0 (bytes "README") (bytes "5") [] ↔
    (bytes "README").length ≤ 63 ∧ ((body 0 0 (bytes "README") (bytes "5")).length + 1 ≤ 99 →
      (bytes "5").length ≤ 9 ∨ value (bytes "5") = 0) :=
  command_obeyed 0 0 (by decide +kernel) (by decide +kernel) (by decide +kernel)
    (by decide +kernel) []

/-- A name of 64 letters: chmod() is called on the first 63, and the last letter is the mode. -/
theorem command_long_name :
    round (typed (body 0 0 (List.replicate 64 97) (bytes "5")) []) =
      some (some (.chmod (List.replicate 63 97) 0), []) ∧
    ¬ Obeyed 0 0 (List.replicate 64 97) (bytes "5") [] := by
  have called : round (typed (body 0 0 (List.replicate 64 97) (bytes "5")) []) =
      some (some (.chmod (List.replicate 63 97) 0), []) := by
    decide +kernel
  refine ⟨called, fun obeyed => ?_⟩
  have same := obeyed.2 (by decide) _ _ _ called
  exact absurd (congrArg List.length same) (by decide)

end Xv6.Public1.ChmodCommand
