import Mathlib.Logic.Function.Basic
import Xv6.Lib.Words

/-!
# The input ring of the console (console.c, the same in the three kernels)

`input` with its three indices, which wrap at `2 ^ 32`, and what consoleintr()
does to it for one character: the editing keys and the default branch.
-/

set_option autoImplicit false

namespace Xv6.Common

open Xv6.Lib.Words

abbrev INPUT_BUF : Nat := 128

/-- `input` of console.c. -/
structure Input where
  buf : Fin INPUT_BUF → Byte
  r : Word
  w : Word
  e : Word

/-- Control-x. -/
def C (x : Char) : Byte := BitVec.ofNat 8 (x.toNat - '@'.toNat)

/-- `'\n'`, `'\r'` and `'\x7f'`. -/
def newline : Byte := 10

def carriageReturn : Byte := 13

def delete : Byte := 0x7f

namespace Input

/-- `n % INPUT_BUF` -/
def index (n : Word) : Fin INPUT_BUF :=
  ⟨n.toNat % INPUT_BUF, Nat.mod_lt _ (Nat.succ_pos 127)⟩

/-- Characters that no consoleread() has taken yet, committed or not. -/
def unread (input : Input) : Nat := (input.e - input.r).toNat

/-- The branch for Backspace. -/
def backspace (input : Input) : Input :=
  if input.e ≠ input.w then { input with e := input.e - 1 } else input

/-- The loop for Ctrl-U with at most so many rounds left. -/
def killLineLoop : Nat → Input → Input
  | 0, input => input
  | left + 1, input =>
      if input.e ≠ input.w ∧ input.buf (index (input.e - 1)) ≠ newline then
        killLineLoop left { input with e := input.e - 1 }
      else input

/-- The branch for Ctrl-U; the loop stops at `w` at the latest. -/
def killLine (input : Input) : Input := killLineLoop (input.e - input.w).toNat input

/-- `c != 0 && input.e-input.r < INPUT_BUF` -/
def accepts (input : Input) (c : Byte) : Prop := c ≠ 0 ∧ input.unread < INPUT_BUF

instance (input : Input) (c : Byte) : Decidable (input.accepts c) :=
  inferInstanceAs (Decidable (_ ∧ _))

/-- `(c == '\r') ? '\n' : c` -/
def translate (c : Byte) : Byte := if c = carriageReturn then newline else c

/-- `input.buf[input.e++ % INPUT_BUF] = c` -/
def store (input : Input) (c : Byte) : Input :=
  { input with buf := Function.update input.buf (index input.e) c, e := input.e + 1 }

/-- `c == '\n' || c == C('D') || input.e == input.r+INPUT_BUF` -/
def completes (input : Input) (c : Byte) : Prop :=
  c = newline ∨ c = C 'D' ∨ input.e = input.r + BitVec.ofNat 32 INPUT_BUF

instance (input : Input) (c : Byte) : Decidable (input.completes c) :=
  inferInstanceAs (Decidable (_ ∨ _))

/-- The character is stored and completes a line, so that `w` moves up to `e` and
the processes that sleep on `&input.r` are woken. -/
def commits (input : Input) (c : Byte) : Prop :=
  input.accepts c ∧ (input.store (translate c)).completes (translate c)

instance (input : Input) (c : Byte) : Decidable (input.commits c) :=
  inferInstanceAs (Decidable (_ ∧ _))

/-- The default branch of the switch, but for the wakeup. -/
def typed (input : Input) (c : Byte) : Input :=
  if input.accepts c then
    let input := input.store (translate c)
    if input.completes (translate c) then { input with w := input.e } else input
  else input

/-- What the character does to the ring when it is none that the switch of the
kernel treats apart from the editing keys. -/
def edit (input : Input) (c : Byte) : Input :=
  if c = C 'U' then input.killLine
  else if c = C 'H' ∨ c = delete then input.backspace
  else input.typed c

end Input

end Xv6.Common
