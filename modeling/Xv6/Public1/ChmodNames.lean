import Xv6.Public1.Paths

/-!
# Other names of chmod (exec.c of xv6-public_1)

chmod_actual() refuses one spelling of a path, and stores the mode into whatever
inode the path leads to.
-/

set_option autoImplicit false

namespace Xv6.Public1.Paths

open Xv6.Lib.Words
open Xv6.Lib.CString
open Xv6.Public1.Directory hiding Panic
open Xv6.Public1.Tree

/-- `modes` are the modes of the inodes; a `uint` is not below 0. -/
def chmod_actual (s : Sys) (modes : Inum → Word) (cwd : Inum) (file junk : List Byte)
    (mode : Word) : Except Panic (Int × Sys × (Inum → Word)) :=
  if strcmp file (bytes "chmod") = 0 then pure (-1, s, modes)
  else if mode > 7 then pure (-1, s, modes)
  else do
    let (ip, s) ← namei s cwd file junk
    match ip with
    | none => pure (-1, s, modes)
    | some ip =>
        let s ← s.ilock ip
        pure (0, s.iput ip, Function.update modes ip mode)

/-- namei() finds the inode under that name. -/
def Names (s : Sys) (cwd : Inum) (junk path : List Byte) (i : Inum) : Prop :=
  ∃ t, namei s cwd path junk = .ok (some i, t)

/-- If the path is a name of the inode of `chmod` in that directory, then the call fails
and the mode stays. -/
def Protected (s : Sys) (modes : Inum → Word) (cwd : Inum) (junk path : List Byte)
    (mode : Word) : Prop :=
  ∀ i, Names s cwd junk (bytes "chmod") i → Names s cwd junk path i →
    ∃ t modes', chmod_actual s modes cwd path junk mode = .ok (-1, t, modes') ∧
      modes' i = modes i

section Chmod
variable {s : Sys} {cwd i : Inum} {path junk : List Byte} {modes : Inum → Word} {mode : Word}

theorem names_iff (tree : FileTree s cwd) (sized : junk.length = DIRSIZ) :
    Names s cwd junk path i ↔ lookup s.node (start cwd path) (components path) = some i := by
  obtain ⟨t, ran, -⟩ := namei_finds tree path sized
  unfold Names
  rw [ran]
  constructor
  · rintro ⟨t, same⟩
    exact congrArg Prod.fst (Except.ok.inj same)
  · intro found
    exact ⟨t, by rw [found]⟩

theorem chmod_refuses (spelled : text path = bytes "chmod" ∨ 7 < mode) :
    chmod_actual s modes cwd path junk mode = .ok (-1, s, modes) := by
  unfold chmod_actual
  split
  · rfl
  · rename_i other
    rcases spelled with same | large
    · exact absurd ((strcmp_eq_zero_iff path (bytes "chmod")).mpr same) other
    · exact if_pos large

/-- Under every other name the inode gets the mode. -/
theorem chmod_stores (modes : Inum → Word) (tree : FileTree s cwd)
    (sized : junk.length = DIRSIZ) (other : ¬ (text path = bytes "chmod" ∨ 7 < mode))
    (named : Names s cwd junk path i) :
    ∃ t, chmod_actual s modes cwd path junk mode = .ok (0, t, Function.update modes i mode) := by
  have found := (names_iff tree sized).mp named
  obtain ⟨t, ran, holding⟩ := namei_finds tree path sized
  rw [found] at ran holding
  obtain ⟨u, locked, -⟩ := holding.ilock tree.counts (tree.used found)
  have spelled : ¬ strcmp path (bytes "chmod") = 0 := fun same =>
    other (Or.inl ((strcmp_eq_zero_iff path (bytes "chmod")).mp same))
  have small : ¬ mode > 7 := fun large => other (Or.inr large)
  refine ⟨u.iput i, ?_⟩
  unfold chmod_actual
  rw [if_neg spelled, if_neg small, ran]
  change (t.ilock i >>= _) = _
  rw [locked]
  rfl

/-- The inode is protected under the one name, and for the modes that are refused. -/
theorem chmod_protects_iff (tree : FileTree s cwd) (sized : junk.length = DIRSIZ) :
    Protected s modes cwd junk path mode ↔
      text path = bytes "chmod" ∨ 7 < mode ∨
        ∀ i, ¬ (Names s cwd junk (bytes "chmod") i ∧ Names s cwd junk path i) := by
  constructor
  · intro safe
    by_cases spelled : text path = bytes "chmod" ∨ 7 < mode
    · exact spelled.imp_right Or.inl
    · refine Or.inr (Or.inr ?_)
      rintro i ⟨itself, named⟩
      obtain ⟨t, ran⟩ := chmod_stores modes tree sized spelled named
      obtain ⟨t', modes', ran', -⟩ := safe i itself named
      rw [ran] at ran'
      cases ran'
  · rintro (same | large | apart) i itself named
    · exact ⟨s, modes, chmod_refuses (Or.inl same), rfl⟩
    · exact ⟨s, modes, chmod_refuses (Or.inr large), rfl⟩
    · exact absurd ⟨itself, named⟩ (apart i)

end Chmod

/-- The mode of `chmod` can be taken away by its absolute name. -/
theorem chmod_not_protected :
    ¬ Protected image (fun _ => 7) ROOTINO (List.replicate DIRSIZ 0) (bytes "/chmod") 0 := by
  have sized : (List.replicate DIRSIZ (0 : Byte)).length = DIRSIZ := List.length_replicate
  have itself : Names image ROOTINO (List.replicate DIRSIZ 0) (bytes "chmod") 2 :=
    (names_iff image_tree sized).mpr (by decide)
  have named : Names image ROOTINO (List.replicate DIRSIZ 0) (bytes "/chmod") 2 :=
    (names_iff image_tree sized).mpr (by decide)
  have other : ¬ (text (bytes "/chmod") = bytes "chmod" ∨ (7 : Word) < 0) := by decide
  obtain ⟨t, ran⟩ := chmod_stores (fun _ => 7) image_tree sized other named
  intro safe
  obtain ⟨t', modes', ran', -⟩ := safe 2 itself named
  rw [ran] at ran'
  cases ran'

theorem chmod_protects_iff_image :
    Protected image (fun _ => 7) ROOTINO (List.replicate DIRSIZ 0) (bytes "chmod") 0 :=
  (chmod_protects_iff image_tree List.length_replicate).mpr (Or.inl (by decide))

end Xv6.Public1.Paths
