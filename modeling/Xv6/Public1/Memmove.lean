import Xv6.Lib.Moves
import Xv6.Lib.Words

/-!
# The two memmove()

memmove() of string.c, which the kernel is linked with, and memmove() of ulib.c, which
the programs are linked with, over one memory of bytes.
-/

set_option autoImplicit false

namespace Xv6.Public1.Memmove

open Xv6.Lib.Moves
open Xv6.Lib.Words

/-- `while(n-- > 0) *d++ = *s++;` -/
def copyUp : Nat → Memory → Word → Word → Memory
  | 0, mem, _, _ => mem
  | n + 1, mem, d, s => copyUp n (Function.update mem d (mem s)) (d + 1) (s + 1)

/-- `while(n-- > 0) *--d = *--s;` -/
def copyDown : Nat → Memory → Word → Word → Memory
  | 0, mem, _, _ => mem
  | n + 1, mem, d, s =>
      copyDown n (Function.update mem (d - 1) (mem (s - 1))) (d - 1) (s - 1)

/-- memmove() of string.c, where `n` is a `uint`: the pointer it returns, and the memory
then. -/
def Kernel.memmove (mem : Memory) (dst src n : Word) : Word × Memory :=
  if src < dst ∧ src + n > dst then (dst, copyDown n.toNat mem (dst + n) (src + n))
  else (dst, copyUp n.toNat mem dst src)

/-- memmove() of ulib.c, where `n` is an `int`. -/
def User.memmove (mem : Memory) (vdst vsrc n : Word) : Word × Memory :=
  (vdst, copyUp n.toInt.toNat mem vdst vsrc)

/-! ## What memmove() is for -/

/-- `dst[0..n)` holds what `src[0..n)` held, and no other byte is changed. -/
structure Copied (mem : Memory) (dst src : Word) (n : Nat) (mem' : Memory) : Prop where
  copied : ∀ i, i < n → mem' (dst + BitVec.ofNat 32 i) = mem (src + BitVec.ofNat 32 i)
  kept : ∀ a, (∀ i, i < n → dst + BitVec.ofNat 32 i ≠ a) → mem' a = mem a

/-- Where `dst` is inside `src[0..n)`, the bytes from there on repeat those of `src`. -/
def Repeats (mem : Memory) (dst src : Word) (n : Nat) : Prop :=
  src < dst → ∀ i, dst.toNat + i < src.toNat + n →
    mem (dst + BitVec.ofNat 32 i) = mem (src + BitVec.ofNat 32 i)

/-! ## The loops as lists of moves -/

/-- The moves of `n` bytes, lowest first. -/
def upward (dst src : Word) (n : Nat) : List (Move Word) :=
  (List.range n).map fun i => ⟨dst + BitVec.ofNat 32 i, src + BitVec.ofNat 32 i⟩

theorem upward_cons (dst src : Word) (n : Nat) :
    upward dst src (n + 1) = ⟨dst, src⟩ :: upward (dst + 1) (src + 1) n := by
  have step (w : Word) (i : Nat) : w + BitVec.ofNat 32 (i + 1) = w + 1 + BitVec.ofNat 32 i := by
    rw [Nat.add_comm, BitVec.ofNat_add, BitVec.add_assoc]
    rfl
  have first (w : Word) : w + BitVec.ofNat 32 0 = w := BitVec.add_zero w
  rw [upward, List.range_succ_eq_map, List.map_cons, List.map_map, first, first]
  congr 1
  apply List.map_congr_left
  intro i _
  simp only [Function.comp_apply]
  rw [step, step]

theorem upward_snoc (dst src : Word) (n : Nat) :
    upward dst src (n + 1) =
      upward dst src n ++ [⟨dst + BitVec.ofNat 32 n, src + BitVec.ofNat 32 n⟩] := by
  simp [upward, List.range_succ]

theorem copyUp_eq (mem : Memory) (d s : Word) (n : Nat) :
    copyUp n mem d s = carryAll mem (upward d s n) := by
  induction n generalizing mem d s with
  | zero => rfl
  | succ n ih =>
      rw [copyUp, ih, upward_cons, carryAll_cons]
      rfl

theorem copyDown_eq (mem : Memory) (d s : Word) (n : Nat) :
    copyDown n mem (d + BitVec.ofNat 32 n) (s + BitVec.ofNat 32 n) =
      carryAll mem (upward d s n).reverse := by
  induction n generalizing mem with
  | zero => rfl
  | succ n ih =>
      have step (w : Word) : w + BitVec.ofNat 32 (n + 1) - 1 = w + BitVec.ofNat 32 n := by
        bv_omega
      rw [copyDown, step, step, ih, upward_snoc, List.reverse_append]
      rfl

theorem mem_upward {dst src : Word} {n : Nat} {move : Move Word} :
    move ∈ upward dst src n ↔
      ∃ i, i < n ∧ (⟨dst + BitVec.ofNat 32 i, src + BitVec.ofNat 32 i⟩ : Move Word) = move := by
  simp [upward]

/-- The moves of a block, made at once, copy it. -/
theorem moved_upward {mem mem' : Memory} {dst src : Word} {n : Nat} :
    Moved mem (upward dst src n) mem' ↔ Copied mem dst src n mem' := by
  constructor
  · intro moved
    refine ⟨fun i low => moved.copied _ (mem_upward.mpr ⟨i, low, rfl⟩), fun a away => ?_⟩
    apply moved.kept
    intro move listed
    obtain ⟨i, low, rfl⟩ := mem_upward.mp listed
    exact away i low
  · intro copied
    constructor
    · intro move listed
      obtain ⟨i, low, rfl⟩ := mem_upward.mp listed
      exact copied.copied i low
    · intro a away
      exact copied.kept a fun i low => away _ (mem_upward.mpr ⟨i, low, rfl⟩)

theorem offset_toNat {w : Word} {n i : Nat} (fits : w.toNat + n ≤ 2 ^ 32) (low : i < n) :
    (w + BitVec.ofNat 32 i).toNat = w.toNat + i := by
  bv_omega

theorem upward_apart {dst : Word} {n : Nat} (src : Word) (fits : dst.toNat + n ≤ 2 ^ 32) :
    ((upward dst src n).map Move.dst).Nodup := by
  rw [upward, List.map_map]
  refine List.Nodup.map_on ?_ List.nodup_range
  intro i low j low' same
  have places := congrArg BitVec.toNat same
  simp only [Function.comp_def] at places
  rw [offset_toNat fits (List.mem_range.mp low),
    offset_toNat fits (List.mem_range.mp low')] at places
  omega

theorem upward_pairwise {R : Move Word → Move Word → Prop} {dst src : Word} {n : Nat} :
    (upward dst src n).Pairwise R ↔ ∀ i j, i < j → j < n →
      R ⟨dst + BitVec.ofNat 32 i, src + BitVec.ofNat 32 i⟩
        ⟨dst + BitVec.ofNat 32 j, src + BitVec.ofNat 32 j⟩ := by
  rw [List.pairwise_iff_getElem]
  constructor
  · intro pairs i j before low
    have listed : j < (upward dst src n).length := by simpa [upward] using low
    have pair := pairs i j (by omega) listed before
    simpa [upward] using pair
  · intro pairs i j listed listed' before
    have low : j < n := by simpa [upward] using listed'
    simpa [upward] using pairs i j before low

/-! ## The two orders -/

section Orders

variable {mem : Memory} {dst src : Word} {n : Nat} (dstFits : dst.toNat + n ≤ 2 ^ 32)
  (srcFits : src.toNat + n ≤ 2 ^ 32)

include dstFits srcFits

/-- The order of ulib.c is right if and only if the block repeats. -/
theorem copyUp_copied : Copied mem dst src n (copyUp n mem dst src) ↔ Repeats mem dst src n := by
  rw [copyUp_eq, ← moved_upward, moved_iff mem _ (upward_apart src dstFits), upward_pairwise]
  constructor
  · intro agree above i inside
    have low : src.toNat < dst.toNat := above
    have place : dst + BitVec.ofNat 32 i =
        src + BitVec.ofNat 32 (dst.toNat - src.toNat + i) := by
      apply BitVec.eq_of_toNat_eq
      rw [offset_toNat dstFits (by omega), offset_toNat srcFits (by omega)]
      omega
    rw [place]
    exact (agree i _ (by omega) (by omega) place).symm
  · intro repeats i j before low wrote
    have places := congrArg BitVec.toNat wrote
    simp only at places wrote
    rw [offset_toNat dstFits (by omega), offset_toNat srcFits low] at places
    have above : src < dst := by
      show src.toNat < dst.toNat
      omega
    show mem (src + BitVec.ofNat 32 i) = mem (src + BitVec.ofNat 32 j)
    rw [← wrote]
    exact (repeats above i (by omega)).symm

/-- The order of a `dst` above `src`. -/
theorem copyDown_copied (above : src < dst) :
    Copied mem dst src n
      (copyDown n mem (dst + BitVec.ofNat 32 n) (src + BitVec.ofNat 32 n)) := by
  have both : ∀ move, move ∈ upward dst src n ↔ move ∈ (upward dst src n).reverse := fun move =>
    List.mem_reverse.symm
  rw [copyDown_eq, ← moved_upward]
  refine Moved.perm both ((moved_iff mem _ ?_).mpr ?_)
  · rw [List.map_reverse]
    exact List.nodup_reverse.mpr (upward_apart src dstFits)
  · rw [List.pairwise_reverse, upward_pairwise]
    intro i j before low wrote
    -- a byte is written above where it is read, and the later moves read lower
    have places := congrArg BitVec.toNat wrote
    simp only at places
    rw [offset_toNat dstFits low, offset_toNat srcFits (by omega)] at places
    have lower : src.toNat < dst.toNat := above
    omega

end Orders

/-- memmove() of the kernel copies whatever the overlap. -/
theorem kernel_copied {mem : Memory} {dst src n : Word}
    (dstFits : dst.toNat + n.toNat ≤ 2 ^ 32) (srcFits : src.toNat + n.toNat ≤ 2 ^ 32) :
    Copied mem dst src n.toNat (Kernel.memmove mem dst src n).2 := by
  have whole : BitVec.ofNat 32 n.toNat = n := BitVec.ofNat_toNat 32 n
  unfold Kernel.memmove
  split
  · rename_i overlap
    have down := @copyDown_copied mem dst src n.toNat dstFits srcFits overlap.1
    rwa [whole] at down
  · rename_i apart
    apply (copyUp_copied dstFits srcFits).mpr
    intro above i inside
    refine absurd ⟨above, ?_⟩ apart
    -- the end of `src` is not 0, since `dst` is below it
    have low : src.toNat < dst.toNat := above
    show dst.toNat < (src + n).toNat
    rw [BitVec.toNat_add, Nat.mod_eq_of_lt (by omega)]
    omega

theorem user_copied {mem : Memory} {dst src n : Word} (count : 0 ≤ n.toInt)
    (dstFits : dst.toNat + n.toNat ≤ 2 ^ 32) (srcFits : src.toNat + n.toNat ≤ 2 ^ 32) :
    Copied mem dst src n.toNat (User.memmove mem dst src n).2 ↔
      Repeats mem dst src n.toNat := by
  have rounds : n.toInt.toNat = n.toNat := by
    rw [BitVec.toInt_eq_toNat_cond] at count ⊢
    split at count <;> omega
  rw [User.memmove, rounds]
  exact copyUp_copied dstFits srcFits

/-- The two agree on the blocks that ulib.c does not read after it has written them, or
finds unchanged there. -/
theorem memmove_agree (mem : Memory) (dst src n : Word) (count : 0 ≤ n.toInt)
    (dstFits : dst.toNat + n.toNat ≤ 2 ^ 32) (srcFits : src.toNat + n.toNat ≤ 2 ^ 32) :
    (Copied mem dst src n.toNat (Kernel.memmove mem dst src n).2 ∧
      Copied mem dst src n.toNat (User.memmove mem dst src n).2) ↔
    Repeats mem dst src n.toNat := by
  rw [user_copied count dstFits srcFits]
  exact ⟨And.right, fun repeats => ⟨kernel_copied dstFits srcFits, repeats⟩⟩

/-- Bytes 7, 7, 7, 9 from 0 on, where `src` is 0 and `dst` 1. -/
theorem memmove_agree_sevens :
    let mem : Memory := fun a => if a = 3 then 9 else 7
    (0 : Int) ≤ (2 : Word).toInt ∧ (1 : Word).toNat + (2 : Word).toNat ≤ 2 ^ 32 ∧
    (0 : Word).toNat + (2 : Word).toNat ≤ 2 ^ 32 ∧
    ((Copied mem 1 0 (2 : Word).toNat (Kernel.memmove mem 1 0 2).2 ∧
      Copied mem 1 0 (2 : Word).toNat (User.memmove mem 1 0 2).2) ↔
    Repeats mem 1 0 (2 : Word).toNat) :=
  ⟨by decide, by decide, by decide,
    memmove_agree _ 1 0 2 (by decide) (by decide) (by decide)⟩

/-- Bytes 0, 1, 2 moved up by one place. -/
theorem memmove_overlap_lost :
    ¬ ∀ (mem : Memory) (dst src n : Word), 0 ≤ n.toInt → dst.toNat + n.toNat ≤ 2 ^ 32 →
      src.toNat + n.toNat ≤ 2 ^ 32 →
      Copied mem dst src n.toNat (Kernel.memmove mem dst src n).2 ∧
        Copied mem dst src n.toNat (User.memmove mem dst src n).2 := by
  intro claim
  have moved := (claim (fun a => a.setWidth 8) 1 0 2 (by decide) (by decide) (by decide)).2
  have second := moved.copied 1 (by decide)
  revert second
  decide

end Xv6.Public1.Memmove
