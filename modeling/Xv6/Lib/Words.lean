import Mathlib.Algebra.Group.Nat.Defs
import Mathlib.Data.List.GetD

/-!
# Bytes, 32-bit words and byte memory

Words are little endian.  `overlay` writes a block of bytes into a memory and
`load` reads one back; addresses wrap at `2 ^ 32` in both, so the facts below
need a bound only on the length of the block.
-/

set_option autoImplicit false

namespace Xv6.Lib.Words

abbrev Byte := BitVec 8

abbrev Word := BitVec 32

abbrev Memory := Word → Byte

/-- The four bytes of a word, lowest first. -/
def wordBytes (w : Word) : List Byte :=
  [w.extractLsb' 0 8, w.extractLsb' 8 8, w.extractLsb' 16 8, w.extractLsb' 24 8]

@[simp] theorem wordBytes_length (w : Word) : (wordBytes w).length = 4 := rfl

theorem wordBytes_joined (w : Word) :
    w.extractLsb' 24 8 ++ w.extractLsb' 16 8 ++ w.extractLsb' 8 8 ++ w.extractLsb' 0 8 = w := by
  rw [BitVec.extractLsb'_append_extractLsb'_eq_extractLsb' (by rfl),
    BitVec.extractLsb'_append_extractLsb'_eq_extractLsb' (by rfl),
    BitVec.extractLsb'_append_extractLsb'_eq_extractLsb' (by rfl)]
  exact BitVec.extractLsb'_eq_self

/-- The word at an address. -/
def loadWord (mem : Memory) (addr : Word) : Word :=
  mem (addr + 3) ++ mem (addr + 2) ++ mem (addr + 1) ++ mem addr

/-- `count` bytes from an address on. -/
def load (mem : Memory) (addr : Word) (count : Nat) : List Byte :=
  (List.range count).map fun i => mem (addr + BitVec.ofNat 32 i)

@[simp] theorem load_length (mem : Memory) (addr : Word) (count : Nat) :
    (load mem addr count).length = count := by
  simp [load]

/-- Memory after a block has been written at an address. -/
def overlay (mem : Memory) (addr : Word) (block : List Byte) : Memory := fun x =>
  block.getD (x - addr).toNat (mem x)

@[simp] theorem overlay_nil (mem : Memory) (addr : Word) : overlay mem addr [] = mem := by
  funext x
  simp [overlay]

theorem overlay_inside (mem : Memory) (addr : Word) (block : List Byte) (i : Nat)
    (inside : i < block.length) (small : block.length ≤ 2 ^ 32) :
    overlay mem addr block (addr + BitVec.ofNat 32 i) = block[i] := by
  have offset : (addr + BitVec.ofNat 32 i - addr).toNat = i := by
    rw [BitVec.add_comm, BitVec.add_sub_cancel, BitVec.toNat_ofNat]
    exact Nat.mod_eq_of_lt (by omega)
  rw [overlay, offset, List.getD_eq_getElem _ _ inside]

theorem overlay_outside {mem : Memory} {addr x : Word} {block : List Byte}
    (far : block.length ≤ (x - addr).toNat) : overlay mem addr block x = mem x :=
  List.getD_eq_default _ _ far

theorem load_overlay (mem : Memory) (addr : Word) (block : List Byte)
    (small : block.length ≤ 2 ^ 32) :
    load (overlay mem addr block) addr block.length = block := by
  apply List.ext_getElem (by simp)
  intro i left right
  simp only [load, List.getElem_map, List.getElem_range]
  exact overlay_inside mem addr block i right small

theorem load_append (mem : Memory) (addr : Word) (first second : Nat) :
    load mem addr (first + second) =
      load mem addr first ++ load mem (addr + BitVec.ofNat 32 first) second := by
  simp [load, List.range_add, Function.comp_def, BitVec.ofNat_add, BitVec.add_assoc]

/-- Two adjacent blocks are one block. -/
theorem overlay_append (mem : Memory) (addr : Word) (first second : List Byte)
    (small : first.length + second.length ≤ 2 ^ 32) :
    overlay (overlay mem addr first) (addr + BitVec.ofNat 32 first.length) second =
      overlay mem addr (first ++ second) := by
  funext x
  have wrap : (x - (addr + BitVec.ofNat 32 first.length)).toNat =
      ((x - addr).toNat + (2 ^ 32 - first.length)) % 2 ^ 32 := by
    bv_omega
  simp only [overlay]
  by_cases before : (x - addr).toNat < first.length
  · have late : second.length ≤ (x - (addr + BitVec.ofNat 32 first.length)).toNat := by
      rw [wrap, Nat.mod_eq_of_lt (by omega)]
      omega
    rw [List.getD_eq_default _ _ late, List.getD_append _ _ _ _ before]
  · have past : first.length ≤ (x - addr).toNat := Nat.le_of_not_lt before
    have shift : (x - (addr + BitVec.ofNat 32 first.length)).toNat =
        (x - addr).toNat - first.length := by
      have := (x - addr).isLt
      rw [wrap]
      omega
    rw [shift, List.getD_eq_default first _ past, List.getD_append_right _ _ _ _ past]

/-! ## Stores of words -/

/-- Memory after a word has been written. -/
def storeWord (mem : Memory) (addr w : Word) : Memory := overlay mem addr (wordBytes w)

theorem storeWord_inside (mem : Memory) (addr w : Word) (i : Nat) (inside : i < 4) :
    storeWord mem addr w (addr + BitVec.ofNat 32 i) = (wordBytes w)[i] :=
  overlay_inside mem addr (wordBytes w) i inside (by simp)

theorem storeWord_outside {mem : Memory} {addr w x : Word} (far : 4 ≤ (x - addr).toNat) :
    storeWord mem addr w x = mem x := overlay_outside far

theorem loadWord_storeWord (mem : Memory) (addr w : Word) :
    loadWord (storeWord mem addr w) addr = w := by
  have first : storeWord mem addr w addr = (wordBytes w)[0] := by
    have inside := storeWord_inside mem addr w 0 (by decide)
    rwa [BitVec.add_zero] at inside
  have second := storeWord_inside mem addr w 1 (by decide)
  have third := storeWord_inside mem addr w 2 (by decide)
  have last := storeWord_inside mem addr w 3 (by decide)
  calc loadWord (storeWord mem addr w) addr
      = (wordBytes w)[3] ++ (wordBytes w)[2] ++ (wordBytes w)[1] ++ (wordBytes w)[0] := by
        rw [← first, ← second, ← third, ← last]
        rfl
    _ = w := wordBytes_joined w

end Xv6.Lib.Words
