import Mathlib.Data.List.TakeWhile
import Xv6.Lib.CString
import Xv6.Lib.Outcome
import Xv6.Lib.Splice

/-!
# Directories are finite maps (xv6-public_1)

dirlookup() and dirlink() of fs.c and the removal of an entry in sys_unlink(), on
the entries of one directory, against a map from names to inode numbers.
-/

set_option autoImplicit false

namespace Xv6.Public1.Directory

open Xv6.Lib.Words
open Xv6.Lib.CString
open Xv6.Lib.Splice
open Xv6.Lib.Outcome

abbrev DIRSIZ : Nat := 14

/-- `ushort` -/
abbrev Inum := BitVec 16

/-- `sizeof(struct dirent)` -/
abbrev direntSize : Nat := 16

/-- `MAXFILE*BSIZE` -/
abbrev maxSize : Nat := (11 + 128) * 512

structure Dirent where
  inum : Inum
  name : List Byte
  sized : name.length = DIRSIZ
  deriving DecidableEq

/-- The entries below the size. -/
abbrev Dir := List Dirent

inductive Panic where
  /-- dirlink: writei() has failed. -/
  | dirlink
  deriving DecidableEq

def namecmp (s t : List Byte) : Int := strncmp DIRSIZ s t

/-- The loop of dirlookup() from `off` on: the inode number and the offset of the entry. -/
def lookupLoop (name : List Byte) : Dir → Nat → Option (Inum × Nat)
  | [], _ => none
  | de :: rest, off =>
      if de.inum = 0 then lookupLoop name rest (off + direntSize)
      else if namecmp name de.name = 0 then some (de.inum, off)
      else lookupLoop name rest (off + direntSize)

def dirlookup (d : Dir) (name : List Byte) : Option (Inum × Nat) := lookupLoop name d 0

/-- The loop of dirlink() for an empty entry. -/
def holeLoop : Dir → Nat → Nat
  | [], off => off
  | de :: rest, off => if de.inum = 0 then off else holeLoop rest (off + direntSize)

/-- writei() of an entry at a multiple of its size, which is within the directory or at
its end. -/
def writeEntry (d : Dir) (off : Nat) (de : Dirent) : Dir := splice d (off / direntSize) [de]

def entry (name : List Byte) (inum : Inum) : Dirent :=
  { inum := inum, name := strncpy DIRSIZ name, sized := strncpy_length DIRSIZ name }

/-- Whether dirlink() returns -1, and the directory after it. -/
def dirlink (d : Dir) (name : List Byte) (inum : Inum) : Except Panic (Dir × Int) :=
  match dirlookup d name with
  | some _ => pure (d, -1)
  | none =>
      let off := holeLoop d 0
      if maxSize < off + direntSize then .error .dirlink
      else pure (writeEntry d off (entry name inum), 0)

/-- `memset(&de, 0, sizeof(de))` -/
def noEntry : Dirent :=
  { inum := 0, name := List.replicate DIRSIZ 0, sized := List.length_replicate }

/-- What sys_unlink() does to the directory. -/
def remove (d : Dir) (name : List Byte) : Dir × Int :=
  match dirlookup d name with
  | none => (d, -1)
  | some (_, off) => (writeEntry d off noEntry, 0)

/-! ## The bytes of a directory -/

/-- A `struct dirent` in memory. -/
def direntBytes (de : Dirent) : List Byte :=
  [de.inum.extractLsb' 0 8, de.inum.extractLsb' 8 8] ++ de.name

theorem direntBytes_length (de : Dirent) : (direntBytes de).length = direntSize := by
  simp [direntBytes, de.sized]

def dirBytes (d : Dir) : List Byte := d.flatMap direntBytes

theorem dirBytes_length (d : Dir) : (dirBytes d).length = direntSize * d.length := by
  induction d with
  | nil => rfl
  | cons de rest ih =>
      have split : dirBytes (de :: rest) = direntBytes de ++ dirBytes rest := List.flatMap_cons
      rw [split, List.length_append, direntBytes_length, ih, List.length_cons, Nat.mul_succ]
      exact Nat.add_comm _ _

theorem dirBytes_append (d d' : Dir) : dirBytes (d ++ d') = dirBytes d ++ dirBytes d' :=
  List.flatMap_append

theorem dirBytes_drop (d : Dir) (k : Nat) :
    dirBytes (d.drop k) = (dirBytes d).drop (direntSize * k) := by
  by_cases inside : k ≤ d.length
  · have whole := dirBytes_append (d.take k) (d.drop k)
    have length := dirBytes_length (d.take k)
    rw [List.length_take_of_le inside] at length
    rw [List.take_append_drop] at whole
    rw [whole, ← length, List.drop_left]
  · rw [List.drop_eq_nil_of_le (by omega), List.drop_eq_nil_of_le]
    · rfl
    · rw [dirBytes_length]
      simp only [direntSize]
      omega

theorem dirBytes_take (d : Dir) (k : Nat) :
    dirBytes (d.take k) = (dirBytes d).take (direntSize * k) := by
  by_cases inside : k ≤ d.length
  · have whole := dirBytes_append (d.take k) (d.drop k)
    have length := dirBytes_length (d.take k)
    rw [List.length_take_of_le inside] at length
    rw [List.take_append_drop] at whole
    rw [whole, ← length, List.take_left]
  · rw [List.take_of_length_le (by omega), List.take_of_length_le]
    rw [dirBytes_length]
    simp only [direntSize]
    omega

/-- What readi() finds of an entry. -/
theorem dirBytes_read {d : Dir} {k : Nat} {de : Dirent} (there : d[k]? = some de) :
    ((dirBytes d).drop (direntSize * k)).take direntSize = direntBytes de := by
  obtain ⟨inside, here⟩ := List.getElem?_eq_some_iff.mp there
  rw [← dirBytes_drop, List.drop_eq_getElem_cons inside, here]
  have split : dirBytes (de :: d.drop (k + 1)) = direntBytes de ++ dirBytes (d.drop (k + 1)) :=
    List.flatMap_cons
  rw [split, ← direntBytes_length de, List.take_left]

/-- What writei() makes of the bytes. -/
theorem dirBytes_write (d : Dir) (k : Nat) (de : Dirent) :
    dirBytes (writeEntry d (direntSize * k) de) =
      splice (dirBytes d) (direntSize * k) (direntBytes de) := by
  have index : direntSize * k / direntSize = k := Nat.mul_div_cancel_left k (by decide)
  have one : dirBytes [de] = direntBytes de := List.append_nil _
  unfold writeEntry splice
  rw [index, dirBytes_append, dirBytes_append, dirBytes_take, dirBytes_drop, one,
    direntBytes_length]
  rfl

/-! ## The map -/

/-- What two names that namecmp() identifies have in common. -/
def key (name : List Byte) : List Byte := (text name).take DIRSIZ

theorem namecmp_eq_zero_iff (s t : List Byte) : namecmp s t = 0 ↔ key s = key t :=
  strncmp_eq_zero_iff DIRSIZ s t

theorem key_entry (name : List Byte) (inum : Inum) : key (entry name inum).name = key name := by
  unfold key entry
  rw [strncpy_text, List.take_take, Nat.min_self]

/-- A live entry with this name. -/
def Names (de : Dirent) (n : List Byte) : Prop := de.inum ≠ 0 ∧ key de.name = n

instance (de : Dirent) (n : List Byte) : Decidable (Names de n) :=
  inferInstanceAs (Decidable (_ ∧ _))

/-- No two live entries compare equal. -/
def Unique (d : Dir) : Prop :=
  d.Pairwise fun a b => a.inum ≠ 0 → b.inum ≠ 0 → namecmp a.name b.name ≠ 0

/-- Finite maps from names to inode numbers. -/
abbrev NameMap := List Byte → Option Inum

/-- The names of a directory, as far as namecmp() tells them apart. -/
def binding : Dir → NameMap
  | [], _ => none
  | de :: rest, n => if Names de n then some de.inum else binding rest n

theorem lookupLoop_cons (name : List Byte) (de : Dirent) (rest : Dir) (off : Nat) :
    lookupLoop name (de :: rest) off =
      if Names de (key name) then some (de.inum, off)
      else lookupLoop name rest (off + direntSize) := by
  rw [lookupLoop]
  by_cases free : de.inum = 0
  · rw [if_pos free, if_neg fun names => names.1 free]
  · rw [if_neg free]
    by_cases same : namecmp name de.name = 0
    · rw [if_pos same, if_pos ⟨free, ((namecmp_eq_zero_iff _ _).mp same).symm⟩]
    · rw [if_neg same, if_neg]
      intro names
      exact same ((namecmp_eq_zero_iff _ _).mpr names.2.symm)

/-- dirlookup() finds what the name is bound to. -/
theorem lookupLoop_binding (name : List Byte) (d : Dir) (off : Nat) :
    (lookupLoop name d off).map Prod.fst = binding d (key name) := by
  induction d generalizing off with
  | nil => rfl
  | cons de rest ih =>
      rw [lookupLoop_cons, binding]
      split
      · rfl
      · exact ih _

/-- The offset is that of the entry. -/
theorem lookupLoop_some {name : List Byte} {d : Dir} {off o : Nat} {i : Inum}
    (found : lookupLoop name d off = some (i, o)) :
    ∃ k de, o = off + direntSize * k ∧ d[k]? = some de ∧ Names de (key name) ∧ de.inum = i ∧
      ∀ j e, j < k → d[j]? = some e → ¬ Names e (key name) := by
  induction d generalizing off with
  | nil => cases found
  | cons de rest ih =>
      rw [lookupLoop_cons] at found
      by_cases names : Names de (key name)
      · rw [if_pos names] at found
        cases found
        exact ⟨0, de, rfl, rfl, names, rfl, fun j e before => absurd before (Nat.not_lt_zero j)⟩
      · rw [if_neg names] at found
        obtain ⟨k, e, rfl, there, here, rfl, first⟩ := ih found
        refine ⟨k + 1, e, ?_, there, here, rfl, ?_⟩
        · rw [Nat.mul_succ]
          omega
        · intro j a before at_j
          cases j with
          | zero =>
              cases Option.some.inj at_j
              exact names
          | succ j => exact first j a (Nat.lt_of_succ_lt_succ before) at_j

/-- The place of the first empty entry, or the end. -/
theorem holeLoop_eq (d : Dir) (off : Nat) :
    holeLoop d off = off + direntSize * (d.takeWhile fun de => decide (de.inum ≠ 0)).length := by
  induction d generalizing off with
  | nil => rfl
  | cons de rest ih =>
      rw [holeLoop, List.takeWhile_cons]
      by_cases free : de.inum = 0
      · rw [if_pos free, if_neg (by simp [free])]
        rfl
      · rw [if_neg free, if_pos (decide_eq_true free), ih, List.length_cons, Nat.mul_succ]
        omega

/-- An entry in the place of the first empty one. -/
def fill (e : Dirent) : Dir → Dir
  | [] => [e]
  | de :: rest => if de.inum = 0 then e :: rest else de :: fill e rest

theorem writeEntry_hole (d : Dir) (e : Dirent) : writeEntry d (holeLoop d 0) e = fill e d := by
  have index : holeLoop d 0 / direntSize =
      (d.takeWhile fun de => decide (de.inum ≠ 0)).length := by
    rw [holeLoop_eq, Nat.zero_add, Nat.mul_div_cancel_left _ (by decide)]
  unfold writeEntry
  rw [index]
  clear index
  induction d with
  | nil => rfl
  | cons de rest ih =>
      rw [List.takeWhile_cons, fill]
      by_cases free : de.inum = 0
      · rw [if_neg (by simp [free]), if_pos free]
        rfl
      · rw [if_pos (decide_eq_true free), if_neg free, ← ih]
        simp only [splice, List.length_cons, List.take_succ_cons, List.cons_append,
          Nat.succ_add, List.drop_succ_cons]

/-- The first entry with a name is emptied. -/
def clearFirst (n : List Byte) : Dir → Dir
  | [] => []
  | de :: rest => if Names de n then noEntry :: rest else de :: clearFirst n rest

theorem writeEntry_found {name : List Byte} {d : Dir} {i : Inum} {off o : Nat}
    (found : lookupLoop name d off = some (i, off + o)) :
    writeEntry d o noEntry = clearFirst (key name) d := by
  induction d generalizing off o with
  | nil => cases found
  | cons de rest ih =>
      rw [lookupLoop_cons] at found
      rw [clearFirst]
      by_cases names : Names de (key name)
      · rw [if_pos names] at found
        have zero : o = 0 := by
          have same := congrArg Prod.snd (Option.some.inj found)
          dsimp only at same
          omega
        subst zero
        rw [if_pos names]
        rfl
      · rw [if_neg names] at found
        obtain ⟨k, e, same, _⟩ := lookupLoop_some found
        have more : o = direntSize * k + direntSize := by omega
        have later : lookupLoop name rest (off + direntSize) =
            some (i, off + direntSize + direntSize * k) := by
          rw [found, same]
        rw [if_neg names, ← ih later]
        unfold writeEntry
        have index : o / direntSize = direntSize * k / direntSize + 1 := by
          rw [more, Nat.add_div_right _ (by decide)]
        rw [index]
        simp only [splice, List.length_cons, List.take_succ_cons, List.cons_append,
          Nat.succ_add, List.drop_succ_cons]

/-! ## What the map becomes -/

theorem binding_none {d : Dir} {n : List Byte} :
    binding d n = none ↔ ∀ de ∈ d, ¬ Names de n := by
  induction d with
  | nil => simp [binding]
  | cons de rest ih =>
      rw [binding]
      by_cases names : Names de n
      · simp [names]
      · simp [names, ih]

theorem binding_fill {d : Dir} {e : Dirent} (live : e.inum ≠ 0)
    (unbound : binding d (key e.name) = none) :
    binding (fill e d) = Function.update (binding d) (key e.name) (some e.inum) := by
  funext n
  induction d with
  | nil =>
      by_cases here : n = key e.name
      · subst here
        rw [Function.update_self, fill, binding, if_pos ⟨live, rfl⟩]
      · rw [Function.update_of_ne here, fill]
        exact if_neg fun names => here names.2.symm
  | cons de rest ih =>
      rw [binding_none] at unbound
      have mine := unbound de List.mem_cons_self
      have others := binding_none.mpr fun a member => unbound a (List.mem_cons_of_mem _ member)
      have step := ih others
      rw [fill]
      by_cases free : de.inum = 0
      · have dead : ¬ Names de n := fun names => names.1 free
        rw [if_pos free, binding]
        by_cases here : n = key e.name
        · subst here
          rw [Function.update_self, if_pos ⟨live, rfl⟩]
        · rw [Function.update_of_ne here, if_neg fun names => here names.2.symm, binding,
            if_neg dead]
      · rw [if_neg free, binding]
        by_cases here : n = key e.name
        · subst here
          rw [if_neg mine, step, Function.update_self, Function.update_self]
        · rw [step, Function.update_of_ne here, Function.update_of_ne here, binding]

theorem noEntry_dead (n : List Byte) : ¬ Names noEntry n := fun names => names.1 rfl

theorem Unique.rest_unbound {de : Dirent} {rest : Dir} (unique : Unique (de :: rest))
    {n : List Byte} (names : Names de n) : binding rest n = none := by
  rw [binding_none]
  intro a member also
  have apart := (List.pairwise_cons.mp unique).1 a member names.1 also.1
  exact apart ((namecmp_eq_zero_iff _ _).mpr (names.2.trans also.2.symm))

theorem binding_clearFirst {d : Dir} (unique : Unique d) (n : List Byte) :
    binding (clearFirst n d) = Function.update (binding d) n none := by
  funext m
  induction d with
  | nil =>
      rw [clearFirst]
      by_cases here : m = n
      · subst here
        rw [Function.update_self]
        rfl
      · rw [Function.update_of_ne here]
  | cons de rest ih =>
      have step := ih (List.pairwise_cons.mp unique).2
      rw [clearFirst]
      by_cases names : Names de n
      · rw [if_pos names, binding, if_neg (noEntry_dead m)]
        by_cases here : m = n
        · subst here
          rw [Function.update_self]
          exact unique.rest_unbound names
        · rw [Function.update_of_ne here, binding, if_neg]
          exact fun also => here (also.2.symm.trans names.2)
      · rw [if_neg names, binding]
        by_cases here : m = n
        · subst here
          rw [if_neg names, step, Function.update_self, Function.update_self]
        · rw [step, Function.update_of_ne here, Function.update_of_ne here, binding]

theorem fill_mem {d : Dir} {e a : Dirent} (member : a ∈ fill e d) : a = e ∨ a ∈ d := by
  induction d with
  | nil => exact Or.inl (List.mem_singleton.mp member)
  | cons de rest ih =>
      rw [fill] at member
      split at member
      · rcases List.mem_cons.mp member with same | later
        · exact Or.inl same
        · exact Or.inr (List.mem_cons_of_mem _ later)
      · rcases List.mem_cons.mp member with same | later
        · exact Or.inr (same ▸ List.mem_cons_self)
        · exact (ih later).imp_right (List.mem_cons_of_mem _)

theorem unique_fill {d : Dir} {e : Dirent} (unique : Unique d)
    (unbound : binding d (key e.name) = none) : Unique (fill e d) := by
  have apart : ∀ a ∈ d, a.inum ≠ 0 → namecmp a.name e.name ≠ 0 := by
    intro a member live same
    exact binding_none.mp unbound a member ⟨live, (namecmp_eq_zero_iff _ _).mp same⟩
  clear unbound
  induction d with
  | nil => exact List.pairwise_singleton _ _
  | cons de rest ih =>
      obtain ⟨first, unique⟩ := List.pairwise_cons.mp unique
      rw [fill]
      split
      · refine List.pairwise_cons.mpr ⟨?_, unique⟩
        intro a member _ live same
        refine apart a (List.mem_cons_of_mem _ member) live ?_
        rw [namecmp_eq_zero_iff] at same ⊢
        exact same.symm
      · refine List.pairwise_cons.mpr ⟨?_, ?_⟩
        · intro a member live other
          rcases fill_mem member with rfl | old
          · exact apart de List.mem_cons_self live
          · exact first a old live other
        · exact ih unique fun a member => apart a (List.mem_cons_of_mem _ member)

theorem clearFirst_mem {d : Dir} {n : List Byte} {a : Dirent} (member : a ∈ clearFirst n d) :
    a = noEntry ∨ a ∈ d := by
  induction d with
  | nil => cases member
  | cons de rest ih =>
      rw [clearFirst] at member
      split at member
      · rcases List.mem_cons.mp member with same | later
        · exact Or.inl same
        · exact Or.inr (List.mem_cons_of_mem _ later)
      · rcases List.mem_cons.mp member with same | later
        · exact Or.inr (same ▸ List.mem_cons_self)
        · exact (ih later).imp_right (List.mem_cons_of_mem _)

theorem unique_clearFirst {d : Dir} (unique : Unique d) (n : List Byte) :
    Unique (clearFirst n d) := by
  induction d with
  | nil => exact List.Pairwise.nil
  | cons de rest ih =>
      obtain ⟨first, unique⟩ := List.pairwise_cons.mp unique
      rw [clearFirst]
      split
      · exact List.pairwise_cons.mpr ⟨fun _ _ live => absurd rfl live, unique⟩
      · refine List.pairwise_cons.mpr ⟨?_, ih unique⟩
        intro a member live other
        rcases clearFirst_mem member with rfl | old
        · exact absurd rfl other
        · exact first a old live other

/-! ## Operations -/

inductive Op where
  | dirlookup (name : List Byte)
  | dirlink (name : List Byte) (inum : Inum)
  | remove (name : List Byte)

/-- An inode number that dirlink() is called with is not 0. -/
def Op.Valid : Op → Prop
  | .dirlink _ inum => inum ≠ 0
  | .dirlookup _ | .remove _ => True

inductive Answer where
  | absent
  | found (inum : Inum)
  | returned (r : Int)
  deriving DecidableEq

def act (d : Dir) : Op → Except Panic (Dir × Answer)
  | .dirlookup name =>
      pure (d, match dirlookup d name with | none => .absent | some (inum, _) => .found inum)
  | .dirlink name inum => do
      let (d, r) ← dirlink d name inum
      pure (d, .returned r)
  | .remove name =>
      let (d, r) := remove d name
      pure (d, .returned r)

def runOps (d : Dir) : List Op → Except Panic (Dir × List Answer)
  | [] => pure (d, [])
  | op :: rest => do
      let (d, answer) ← act d op
      let (d, answers) ← runOps d rest
      pure (d, answer :: answers)

/-- What the operations do to a finite map. -/
def NameMap.act (m : NameMap) : Op → NameMap × Answer
  | .dirlookup name => (m, match m (key name) with | none => .absent | some inum => .found inum)
  | .dirlink name inum =>
      if (m (key name)).isSome = true then (m, .returned (-1))
      else (Function.update m (key name) (some inum), .returned 0)
  | .remove name =>
      if (m (key name)).isSome = true then (Function.update m (key name) none, .returned 0)
      else (m, .returned (-1))

def NameMap.runOps (m : NameMap) : List Op → NameMap × List Answer
  | [] => (m, [])
  | op :: rest =>
      let (m, answer) := m.act op
      let (m, answers) := NameMap.runOps m rest
      (m, answer :: answers)

/-- A directory of the greatest size without an empty entry, and a name that is not in it. -/
def Full (d : Dir) : Op → Prop
  | .dirlink name _ => binding d (key name) = none ∧ (∀ de ∈ d, de.inum ≠ 0) ∧
      maxSize < direntSize * (d.length + 1)
  | .dirlookup _ | .remove _ => False

section Ops
variable {d : Dir} {name : List Byte} {inum : Inum}

theorem dirlookup_binding (d : Dir) (name : List Byte) :
    (dirlookup d name).map Prod.fst = binding d (key name) := lookupLoop_binding name d 0

theorem binding_of_found {i : Inum} {off : Nat} (found : dirlookup d name = some (i, off)) :
    binding d (key name) = some i := by
  rw [← dirlookup_binding, found]
  rfl

theorem binding_of_absent (absent : dirlookup d name = none) : binding d (key name) = none := by
  rw [← dirlookup_binding, absent]
  rfl

theorem dirlink_bound (bound : binding d (key name) ≠ none) (inum : Inum) :
    dirlink d name inum = .ok (d, -1) := by
  unfold dirlink
  cases found : dirlookup d name with
  | none => exact absurd (binding_of_absent found) bound
  | some at_off => rfl

theorem holeLoop_small {d : Dir} {de : Dirent} (member : de ∈ d) (free : de.inum = 0) :
    holeLoop d 0 + direntSize ≤ direntSize * d.length := by
  rw [holeLoop_eq, Nat.zero_add]
  have shorter : (d.takeWhile fun de => decide (de.inum ≠ 0)).length < d.length := by
    induction d with
    | nil => cases member
    | cons a rest ih =>
        rw [List.takeWhile_cons]
        split
        · rename_i live
          rcases List.mem_cons.mp member with rfl | later
          · exact absurd free (of_decide_eq_true live)
          · exact Nat.succ_lt_succ (ih later)
        · exact Nat.succ_pos _
  simp only [direntSize]
  omega

theorem holeLoop_le (d : Dir) : holeLoop d 0 ≤ direntSize * d.length := by
  rw [holeLoop_eq, Nat.zero_add]
  have shorter := (List.takeWhile_prefix (l := d) fun de => decide (de.inum ≠ 0)).length_le
  exact Nat.mul_le_mul_left direntSize shorter

theorem fill_length (e : Dirent) (d : Dir) : (fill e d).length ≤ d.length + 1 ∧
    ((∃ de ∈ d, de.inum = 0) → (fill e d).length = d.length) := by
  induction d with
  | nil => exact ⟨Nat.le_refl 1, fun ⟨_, member, _⟩ => absurd member List.not_mem_nil⟩
  | cons de rest ih =>
      rw [fill]
      split
      · exact ⟨Nat.le_succ _, fun _ => rfl⟩
      · rename_i live
        refine ⟨Nat.succ_le_succ ih.1, ?_⟩
        rintro ⟨a, member, free⟩
        rcases List.mem_cons.mp member with rfl | later
        · exact absurd free live
        · exact congrArg Nat.succ (ih.2 ⟨a, later, free⟩)

theorem clearFirst_length (n : List Byte) (d : Dir) : (clearFirst n d).length = d.length := by
  induction d with
  | nil => rfl
  | cons de rest ih =>
      rw [clearFirst]
      split
      · rfl
      · rw [List.length_cons, List.length_cons, ih]

/-- dirlink() of a name that is not bound. -/
theorem dirlink_ends (small : direntSize * d.length ≤ maxSize)
    (unbound : binding d (key name) = none) :
    Ends (dirlink d name inum) (fun _ => Full d (.dirlink name inum)) fun r =>
      r = (fill (entry name inum) d, 0) ∧
        direntSize * (fill (entry name inum) d).length ≤ maxSize := by
  unfold dirlink
  cases found : dirlookup d name with
  | some at_off =>
      have bound := binding_of_found found
      rw [unbound] at bound
      cases bound
  | none =>
      dsimp only
      split
      · rename_i large
        refine ends_error ⟨unbound, ?_, ?_⟩
        · intro de member free
          have bound := holeLoop_small member free
          omega
        · have bound := holeLoop_le d
          rw [Nat.mul_succ]
          omega
      · rename_i fits
        rw [writeEntry_hole]
        refine ends_pure ⟨rfl, ?_⟩
        obtain ⟨longer, same⟩ := fill_length (entry name inum) d
        by_cases room : ∃ de ∈ d, de.inum = 0
        · rw [same room]
          exact small
        · have live : d.takeWhile (fun de => decide (de.inum ≠ 0)) = d := by
            apply List.takeWhile_eq_self_iff.mpr
            intro de member
            exact decide_eq_true fun free => room ⟨de, member, free⟩
          rw [holeLoop_eq, Nat.zero_add, live] at fits
          have bound := Nat.mul_le_mul_left direntSize longer
          rw [Nat.mul_succ] at bound
          omega

theorem remove_eq (d : Dir) (name : List Byte) :
    remove d name =
      if (binding d (key name)).isSome = true then (clearFirst (key name) d, 0) else (d, -1) := by
  unfold remove
  cases found : dirlookup d name with
  | none =>
      rw [binding_of_absent found]
      rfl
  | some at_off =>
      obtain ⟨i, off⟩ := at_off
      have place : lookupLoop name d 0 = some (i, 0 + off) := by
        rw [Nat.zero_add]
        exact found
      rw [binding_of_found found]
      dsimp only
      rw [writeEntry_found place]
      rfl

/-- What is kept: no two live entries compare equal, and the directory is no larger than a
file can be. -/
structure Ordered (d : Dir) : Prop where
  unique : Unique d
  small : direntSize * d.length ≤ maxSize

theorem act_ends (h : Ordered d) {op : Op} (valid : op.Valid) :
    Ends (act d op) (fun _ => Full d op) fun r =>
      Ordered r.1 ∧ binding r.1 = ((binding d).act op).1 ∧ r.2 = ((binding d).act op).2 := by
  cases op with
  | dirlookup name =>
      refine ends_pure ⟨h, rfl, ?_⟩
      dsimp only [NameMap.act]
      rw [← dirlookup_binding]
      cases dirlookup d name with
      | none => rfl
      | some at_off => rfl
  | dirlink name inum =>
      have live : inum ≠ 0 := valid
      simp only [NameMap.act]
      by_cases bound : (binding d (key name)).isSome = true
      · have present : binding d (key name) ≠ none := Option.isSome_iff_ne_none.mp bound
        simp only [act, if_pos bound]
        rw [dirlink_bound present]
        exact ends_pure ⟨h, rfl, rfl⟩
      · have unbound : binding d (key name) = none := Option.not_isSome_iff_eq_none.mp bound
        simp only [if_neg bound]
        apply ends_bind
        refine ends_mono (dirlink_ends h.small unbound) (fun e full => full) ?_
        rintro r ⟨rfl, small⟩
        have unbound' : binding d (key (entry name inum).name) = none := by
          rw [key_entry]
          exact unbound
        refine ends_pure ⟨⟨unique_fill h.unique unbound', small⟩, ?_, rfl⟩
        have filled := binding_fill (e := entry name inum) live unbound'
        rw [key_entry] at filled
        exact filled
  | remove name =>
      simp only [act, NameMap.act]
      rw [remove_eq]
      by_cases bound : (binding d (key name)).isSome = true
      · simp only [if_pos bound]
        refine ends_pure ⟨⟨unique_clearFirst h.unique _, ?_⟩, ?_, rfl⟩
        · rw [clearFirst_length]
          exact h.small
        · exact binding_clearFirst h.unique (key name)
      · simp only [if_neg bound]
        exact ends_pure ⟨h, rfl, rfl⟩

theorem runOps_ends (h : Ordered d) (ops : List Op) (valid : ∀ op ∈ ops, op.Valid) :
    Ends (runOps d ops)
      (fun _ => ∃ before op after d' answers, ops = before ++ op :: after ∧
        runOps d before = .ok (d', answers) ∧ Full d' op)
      fun r => Ordered r.1 ∧ binding r.1 = ((binding d).runOps ops).1 ∧
        r.2 = ((binding d).runOps ops).2 := by
  induction ops generalizing d with
  | nil => exact ends_pure ⟨h, rfl, rfl⟩
  | cons op rest ih =>
      have first := act_ends h (valid op List.mem_cons_self)
      rw [runOps]
      cases done : act d op with
      | error e => exact ends_error ⟨[], op, rest, d, [], rfl, rfl, first.error done⟩
      | ok r =>
          obtain ⟨d', answer⟩ := r
          obtain ⟨ordered, same, answered⟩ := first.ok done
          dsimp only at same answered
          change Ends (runOps d' rest >>= _) _ _
          apply ends_bind
          refine ends_mono (ih ordered fun op later => valid op (List.mem_cons_of_mem _ later)) ?_ ?_
          · rintro e ⟨before, op', after, d'', answers, rfl, reached, full⟩
            refine ⟨op :: before, op', after, d'', answer :: answers, rfl, ?_, full⟩
            rw [runOps, done]
            change (runOps d' before >>= _) = _
            rw [reached]
            rfl
          · rintro ⟨d'', answers⟩ ⟨ordered', same', answered'⟩
            refine ends_pure ⟨ordered', ?_, ?_⟩
            · simp only [NameMap.runOps]
              rw [← same]
              exact same'
            · simp only [NameMap.runOps]
              rw [← same, answered]
              exact congrArg _ answered'

/-- Every list of operations does to a directory what it does to a finite map from names cut
to 14 bytes; a full directory stops it. -/
theorem directories_are_maps (unique : Unique d) (small : direntSize * d.length ≤ maxSize)
    (ops : List Op) (valid : ∀ op ∈ ops, op.Valid) :
    Ends (runOps d ops)
      (fun _ => ∃ before op after d' answers, ops = before ++ op :: after ∧
        runOps d before = .ok (d', answers) ∧ Full d' op)
      fun r => Unique r.1 ∧ binding r.1 = ((binding d).runOps ops).1 ∧
        r.2 = ((binding d).runOps ops).2 ∧
        (∀ name inum, binding r.1 (key name) ≠ none → dirlink r.1 name inum = .ok (r.1, -1)) ∧
        ∀ name, match dirlookup r.1 name with
          | none => binding r.1 (key name) = none
          | some (inum, off) => binding r.1 (key name) = some inum ∧ inum ≠ 0 ∧
              ∃ k de, off = direntSize * k ∧ r.1[k]? = some de ∧ de.inum = inum ∧
                namecmp name de.name = 0 := by
  refine ends_mono (runOps_ends ⟨unique, small⟩ ops valid) (fun e full => full) ?_
  rintro ⟨d', answers⟩ ⟨ordered, same, answered⟩
  refine ⟨ordered.unique, same, answered, fun name inum bound => dirlink_bound bound inum, ?_⟩
  intro name
  cases found : dirlookup d' name with
  | none => exact binding_of_absent found
  | some at_off =>
      obtain ⟨i, off⟩ := at_off
      obtain ⟨k, de, place, there, names, here, _⟩ := lookupLoop_some found
      refine ⟨binding_of_found found, here ▸ names.1, k, de, ?_, there, here, ?_⟩
      · rw [place, Nat.zero_add]
      · exact (namecmp_eq_zero_iff _ _).mpr names.2.symm

end Ops

/-! ## A full directory -/

/-- The names of the entries of a directory of the greatest size. -/
def nth (k : Nat) : List Byte := [BitVec.ofNat 8 (k % 255 + 1), BitVec.ofNat 8 (k / 255 + 1)]

def fullDir : Dir := (List.range (maxSize / direntSize)).map fun k => entry (nth k) 1

theorem key_nth {k : Nat} (small : k < maxSize / direntSize) : key (nth k) = nth k := by
  have bound : k < 4448 := small
  have first : BitVec.ofNat 8 (k % 255 + 1) ≠ 0 := by
    intro zero
    have value := congrArg BitVec.toNat zero
    rw [BitVec.toNat_ofNat] at value
    change _ = 0 at value
    omega
  have second : BitVec.ofNat 8 (k / 255 + 1) ≠ 0 := by
    intro zero
    have value := congrArg BitVec.toNat zero
    rw [BitVec.toNat_ofNat] at value
    change _ = 0 at value
    omega
  unfold key nth
  rw [text_cons, if_neg first, text_cons, if_neg second]
  rfl

theorem nth_inj {k l : Nat} (first : k < maxSize / direntSize) (second : l < maxSize / direntSize)
    (same : nth k = nth l) : k = l := by
  have bound : k < 4448 := first
  have bound' : l < 4448 := second
  obtain ⟨low, high⟩ := List.cons.inj same
  have low := congrArg BitVec.toNat low
  have high := congrArg BitVec.toNat (List.cons.inj high).1
  simp only [BitVec.toNat_ofNat] at low high
  omega

theorem fullDir_unique : Unique fullDir := by
  unfold fullDir Unique
  rw [List.pairwise_map]
  refine List.Pairwise.imp_of_mem ?_ List.pairwise_lt_range
  intro k l first second less _ _ same
  rw [namecmp_eq_zero_iff, key_entry, key_entry, key_nth (List.mem_range.mp first),
    key_nth (List.mem_range.mp second)] at same
  have equal := nth_inj (List.mem_range.mp first) (List.mem_range.mp second) same
  omega

theorem directories_are_maps_short :
    Ends (runOps [] [.dirlink (nth 3) 7, .dirlink (nth 3) 8, .remove (nth 3), .dirlookup (nth 3)])
      (fun _ => ∃ before op after d' answers,
        [.dirlink (nth 3) 7, .dirlink (nth 3) 8, .remove (nth 3), .dirlookup (nth 3)] =
            before ++ op :: after ∧
          runOps [] before = .ok (d', answers) ∧ Full d' op)
      fun r => Unique r.1 ∧
        binding r.1 = ((binding []).runOps
          [.dirlink (nth 3) 7, .dirlink (nth 3) 8, .remove (nth 3), .dirlookup (nth 3)]).1 ∧
        r.2 = ((binding []).runOps
          [.dirlink (nth 3) 7, .dirlink (nth 3) 8, .remove (nth 3), .dirlookup (nth 3)]).2 ∧
        (∀ name inum, binding r.1 (key name) ≠ none → dirlink r.1 name inum = .ok (r.1, -1)) ∧
        ∀ name, match dirlookup r.1 name with
          | none => binding r.1 (key name) = none
          | some (inum, off) => binding r.1 (key name) = some inum ∧ inum ≠ 0 ∧
              ∃ k de, off = direntSize * k ∧ r.1[k]? = some de ∧ de.inum = inum ∧
                namecmp name de.name = 0 :=
  directories_are_maps List.Pairwise.nil (Nat.zero_le _) _ (by simp [Op.Valid])

/-- dirlink() panics when the directory cannot grow. -/
theorem dirlink_panics : ¬ ∀ d name (inum : Inum), Unique d →
    direntSize * d.length ≤ maxSize → inum ≠ 0 → binding d (key name) = none →
    ∃ d', dirlink d name inum = .ok (d', 0) ∧
      binding d' = Function.update (binding d) (key name) (some inum) := by
  intro every
  have length : fullDir.length = maxSize / direntSize := by simp [fullDir]
  have exact_size : direntSize * (maxSize / direntSize) = maxSize := by decide
  have unbound : binding fullDir (key []) = none := by
    rw [binding_none]
    intro de member names
    obtain ⟨k, inside, rfl⟩ := List.mem_map.mp member
    have same := names.2
    rw [key_entry, key_nth (List.mem_range.mp inside)] at same
    cases same
  obtain ⟨d', linked, _⟩ := every fullDir [] 1 fullDir_unique
    (Nat.le_of_eq (length ▸ exact_size)) (by decide) unbound
  have absent : dirlookup fullDir [] = none := by
    have mapped := dirlookup_binding fullDir []
    rw [unbound] at mapped
    exact Option.map_eq_none_iff.mp mapped
  have live : fullDir.takeWhile (fun de => decide (de.inum ≠ 0)) = fullDir := by
    apply List.takeWhile_eq_self_iff.mpr
    intro de member
    obtain ⟨k, _, rfl⟩ := List.mem_map.mp member
    rfl
  unfold dirlink at linked
  rw [absent] at linked
  dsimp only at linked
  rw [holeLoop_eq, live, length, Nat.zero_add, exact_size, if_pos (by decide)] at linked
  cases linked

end Xv6.Public1.Directory
