import Mathlib.Algebra.BigOperators.Group.Finset.Piecewise
import Xv6.Lib.Runs
import Xv6.Public1.TreeSteps

/-!
# Runs of the tree (xv6-public_1)

From the image that mkfs writes, by any system calls of any processes: when the
entries that a lookup can meet name allocated inodes, and when no inode is left
without a name and nlink is the number of names.
-/

set_option autoImplicit false

namespace Xv6.Public1.Tree

open Xv6.Lib.Words
open Xv6.Lib.CString
open Xv6.Lib.Outcome
open Xv6.Lib.References
open Xv6.Lib.Runs
open Xv6.Public1.Directory

/-! ## The image -/

/-- The entries of mkfs for the files from the inode `k` on. -/
def fileEntries : Nat → List (List Byte) → Dir
  | _, [] => []
  | k, name :: names => entry name (BitVec.ofNat 16 k) :: fileEntries (k + 1) names

/-- What main() of mkfs.c writes for files with these names, the root directory up to the
end of its last block. -/
def image (names : List (List Byte)) : Nodes := fun i =>
  if i = ROOTINO then
    ⟨T_DIR, 1, entry dot ROOTINO :: entry dotdot ROOTINO :: (fileEntries 2 names ++
      List.replicate (32 - (names.length + 2) % 32) noEntry)⟩
  else if 2 ≤ i.toNat ∧ i.toNat < 2 + names.length then ⟨T_FILE, 1, []⟩
  else ⟨0, 0, []⟩

/-- The image, and processes that have not made a call yet. -/
def boot (names : List (List Byte)) (running : Pid → Bool) : Sys where
  node := image names
  ref := fun i => if i = ROOTINO then ((Finset.univ.filter fun p => running p = true).card : Nat)
    else 0
  valid := fun _ => false
  proc := fun p => if running p = true then some ⟨ROOTINO, fun _ => none⟩ else none

theorem boot_ref (names : List (List Byte)) (running : Pid → Bool) :
    (boot names running).ref ROOTINO =
      ((Finset.univ.filter fun p => running p = true).card : Nat) := by
  dsimp only [boot]
  rw [if_pos rfl]

section Image
variable {names : List (List Byte)}

theorem image_root (names : List (List Byte)) : image names ROOTINO =
    ⟨T_DIR, 1, entry dot ROOTINO :: entry dotdot ROOTINO :: (fileEntries 2 names ++
      List.replicate (32 - (names.length + 2) % 32) noEntry)⟩ := if_pos rfl

theorem image_other {i : Inum} (other : i ≠ ROOTINO) : image names i =
    if 2 ≤ i.toNat ∧ i.toNat < 2 + names.length then ⟨T_FILE, 1, []⟩ else ⟨0, 0, []⟩ :=
  if_neg other

theorem image_dir {i : Inum} (dir : Nodes.dir (image names) i) : i = ROOTINO := by
  by_contra other
  unfold Nodes.dir at dir
  rw [image_other other] at dir
  split at dir
  · exact absurd dir (by decide)
  · exact absurd dir (by decide)

/-- Each of the files has one entry. -/
theorem fileEntries_count (names : List (List Byte)) (i : Inum) :
    ∀ k, k + names.length ≤ 2 ^ 16 →
      (fileEntries k names).countP (fun de => decide (de.inum = i)) =
        if k ≤ i.toNat ∧ i.toNat < k + names.length then 1 else 0 := by
  induction names with
  | nil =>
      intro k _
      rw [fileEntries, List.countP_nil, if_neg (by simp only [List.length_nil]; omega)]
  | cons name names ih =>
      intro k small
      rw [List.length_cons] at small ⊢
      have value : (BitVec.ofNat 16 k).toNat = k := by
        rw [BitVec.toNat_ofNat]
        exact Nat.mod_eq_of_lt (by omega)
      have here : BitVec.ofNat 16 k = i ↔ i.toNat = k := by
        rw [← BitVec.toNat_inj, value]
        exact eq_comm
      rw [fileEntries, List.countP_cons, ih (k + 1) (by omega)]
      change _ + (if decide (BitVec.ofNat 16 k = i) = true then 1 else 0) = _
      simp only [decide_eq_true_eq, here]
      by_cases first : i.toNat = k
      · rw [if_pos first, if_neg (by omega), if_pos (by omega)]
      · rw [if_neg first, Nat.add_zero]
        by_cases later : k + 1 ≤ i.toNat ∧ i.toNat < k + 1 + names.length
        · rw [if_pos later, if_pos (by omega)]
        · rw [if_neg later, if_neg (by omega)]

theorem image_named {i : Inum} (fits : names.length + 2 ≤ ninodes) (live : i ≠ 0) :
    Nodes.links (image names) i =
      if 2 ≤ i.toNat ∧ i.toNat < 2 + names.length then 1 else 0 := by
  have others : ∀ d, d ≠ ROOTINO → Nodes.named (image names) d i = 0 := by
    intro d other
    unfold Nodes.named
    exact if_neg fun dir => other (image_dir dir)
  have root : Nodes.named (image names) ROOTINO i =
      if 2 ≤ i.toNat ∧ i.toNat < 2 + names.length then 1 else 0 := by
    unfold Nodes.named Nodes.rest
    rw [image_root]
    dsimp only
    rw [if_pos rfl]
    change List.countP _ (fileEntries 2 names ++ _) = _
    have small : 2 + names.length ≤ 2 ^ 16 := by
      have bound : ninodes ≤ 2 ^ 16 := by decide
      omega
    have padding : (List.replicate (32 - (names.length + 2) % 32) noEntry).countP
        (fun de => decide (de.inum = i)) = 0 := by
      apply List.countP_eq_zero.mpr
      intro de member
      rw [List.eq_of_mem_replicate member]
      exact fun same => live (of_decide_eq_true same).symm
    rw [List.countP_append, padding, fileEntries_count names i 2 small, Nat.add_zero]
  unfold Nodes.links
  rw [Finset.sum_eq_single ROOTINO (fun d _ other => others d other)
    (fun absent => absurd (Finset.mem_univ _) absent), root]

theorem fileEntries_member {de : Dirent} : ∀ {names : List (List Byte)} {k : Nat},
    de ∈ fileEntries k names → k + names.length ≤ 2 ^ 16 →
      k ≤ de.inum.toNat ∧ de.inum.toNat < k + names.length := by
  intro names
  induction names with
  | nil => exact fun member => absurd member List.not_mem_nil
  | cons name names ih =>
      intro k member small
      rw [List.length_cons] at small ⊢
      rcases List.mem_cons.mp member with rfl | later
      · have value : (BitVec.ofNat 16 k).toNat = k := by
          rw [BitVec.toNat_ofNat]
          exact Nat.mod_eq_of_lt (by omega)
        change k ≤ (BitVec.ofNat 16 k).toNat ∧ (BitVec.ofNat 16 k).toNat < _
        omega
      · have bounds := ih later (by omega)
        omega

theorem image_shape (tidy : Prop) (fits : names.length + 2 ≤ ninodes) :
    Shape tidy [] (image names) := by
  have small : 2 + names.length ≤ 2 ^ 16 := by
    have bound : ninodes ≤ 2 ^ 16 := by decide
    omega
  have rest : Nodes.rest (image names) ROOTINO = fileEntries 2 names ++
      List.replicate (32 - (names.length + 2) % 32) noEntry := by
    unfold Nodes.rest
    rw [image_root]
    rfl
  have member_file : ∀ de ∈ Nodes.rest (image names) ROOTINO, de.inum ≠ 0 →
      de.inum ≠ ROOTINO ∧ image names de.inum = ⟨T_FILE, 1, []⟩ := by
    intro de member live
    rw [rest] at member
    rcases List.mem_append.mp member with file | pad
    · have bounds := fileEntries_member file small
      have other : de.inum ≠ ROOTINO := by
        intro root
        rw [root] at bounds
        exact absurd bounds.1 (by decide)
      rw [image_other other, if_pos bounds]
      exact ⟨other, rfl⟩
    · rw [List.eq_of_mem_replicate pad] at live
      exact absurd rfl live
  have root : Nodes.dir (image names) ROOTINO := by
    unfold Nodes.dir
    rw [image_root]
  have childless : ∀ i, Nodes.subs (image names) i = 0 := by
    intro i
    unfold Nodes.subs
    split
    · rename_i dir
      rw [image_dir dir]
      apply List.countP_eq_zero.mpr
      intro de member child
      have type : (image names de.inum).type = T_DIR := of_decide_eq_true child
      have child : Nodes.dir (image names) de.inum := type
      by_cases live : de.inum = 0
      · rw [live] at child
        exact absurd (image_dir child) (by decide)
      · exact (member_file de member live).1 (image_dir child)
    · rfl
  have exact : ∀ i, (image names i).type ≠ 0 →
      (image names i).nlink = ((Nodes.count (image names) i + ([] : List Inum).count i : Nat) : Int) := by
    intro i allocated
    have live : i ≠ 0 := by
      rintro rfl
      rw [image_other (by decide)] at allocated
      exact allocated rfl
    unfold Nodes.count
    rw [childless, image_named fits live]
    by_cases here : i = ROOTINO
    · subst here
      rw [image_root, if_neg (fun file => absurd file.1 (by decide)), if_pos rfl]
      rfl
    · rw [image_other here] at allocated ⊢
      split at allocated
      · rename_i file
        rw [if_pos file, if_pos file, if_neg here]
        rfl
      · exact absurd rfl allocated
  constructor
  case zero =>
    rw [image_other (by decide), if_neg (by simp)]
  case root => exact root
  case rootUp =>
    unfold Nodes.parent
    rw [image_root]
    rfl
  case dots =>
    intro d dir
    rw [image_dir dir, image_root]
    exact ⟨ROOTINO, _, by decide, rfl⟩
  case named =>
    intro d de dir member live
    rw [image_dir dir] at member ⊢
    obtain ⟨other, file⟩ := member_file de member live
    constructor
    case allocated =>
      rw [file]
      decide
    case not_root => exact other
    case apart => exact other
    case up => exact fun child => absurd (image_dir child) other
  case once =>
    intro c dir
    rw [image_named fits (by rw [image_dir dir]; decide)]
    split
    · exact Nat.le_refl 1
    · exact Nat.zero_le 1
  case bound => exact fun i allocated => (exact i allocated).ge
  case exact => exact fun _ => exact
  case empty =>
    intro _ d dir detached
    exact absurd (Or.inl (image_dir dir)) detached
  case reach =>
    intro _ d dir _
    rw [image_dir dir]
    exact .root

theorem boot_inv (tidy : Prop) (fits : names.length + 2 ≤ ninodes) (running : Pid → Bool) :
    Inv tidy [] [] (boot names running) := by
  have var : ∀ v i, (boot names running).var v = some i ↔
      v.2 = none ∧ running v.1 = true ∧ i = ROOTINO := by
    rintro ⟨p, fd⟩ i
    by_cases on : running p = true
    · cases fd with
      | none =>
          simp only [Sys.var, boot, on, if_true, Option.map_some, Option.some.injEq, true_and]
          exact eq_comm
      | some fd => simp [Sys.var, boot, on]
    · cases fd with
      | none => simp [Sys.var, boot, on]
      | some fd => simp [Sys.var, boot, on]
  have root : Nodes.dir (image names) ROOTINO := by
    unfold Nodes.dir
    rw [image_root]
  refine ⟨image_shape tidy fits, ?_⟩
  constructor
  case typed => exact fun _ never => by cases never
  case kept =>
    intro i allocated unlinked
    change (image names i).type ≠ 0 at allocated
    change (image names i).nlink = 0 at unlinked
    by_cases here : i = ROOTINO
    · rw [here, image_root] at unlinked
      cases unlinked
    · rw [image_other here] at allocated unlinked
      split at unlinked
      · cases unlinked
      · rename_i free
        rw [if_neg free] at allocated
        exact absurd rfl allocated
  case count =>
    intro i
    rw [List.count_nil, Nat.add_zero]
    by_cases here : i = ROOTINO
    · subst here
      have same : (Finset.univ.filter fun v => (boot names running).var v = some ROOTINO) =
          (Finset.univ.filter fun p => running p = true).image
            (fun p => ((p, none) : Pid × Option Fd)) := by
        ext ⟨p, fd⟩
        simp only [Finset.mem_filter, Finset.mem_univ, true_and, var, Finset.mem_image,
          Prod.mk.injEq, and_true]
        constructor
        · rintro ⟨rfl, on⟩
          exact ⟨p, on, rfl, rfl⟩
        · rintro ⟨q, on, rfl, rfl⟩
          exact ⟨rfl, on⟩
      unfold refs
      rw [same, Finset.card_image_of_injective _ fun p q same => (Prod.mk.inj same).1]
      exact boot_ref names running
    · have unheld : refs (boot names running).var i = 0 := by
        by_contra held
        obtain ⟨v, points⟩ := exists_of_refs held
        exact here ((var v i).mp points).2.2
      rw [unheld]
      exact if_neg here
  case vars =>
    intro v i points
    rw [((var v i).mp points).2.2]
    exact allocated_of_dir root
  case cwds =>
    intro p proc here
    have points : (boot names running).var (p, none) = some proc.cwd := by
      simp only [Sys.var, here, Option.map_some]
    rw [((var _ _).mp points).2.2]
    exact root

end Image

/-! ## Entries that name nothing -/

/-- The call frees no directory above the current directory of a process that still runs. -/
def Spares (s : Sys) (e : Event) : Prop :=
  ∀ proc, s.proc e.pid = some proc → ∀ i, GivesUp s e.pid proc e.call i →
    ∀ q c, cwdAfter s e.pid proc e.call q = some c → ∀ k, (Nodes.parent s.node)^[k] c ≠ i

/-- A lookup from the root or from a current directory can come here. -/
inductive Met (s : Sys) : Inum → Prop where
  | root : Met s ROOTINO
  | cwd {p : Pid} {proc : Proc} (running : s.proc p = some proc) : Met s proc.cwd
  | entry {d : Inum} {de : Dirent} (above : Met s d) (dir : Nodes.dir s.node d)
      (member : de ∈ (s.node d).entries) (live : de.inum ≠ 0) : Met s de.inum

section Dangling
variable {tidy : Prop} {s t : Sys} {n : Nodes} {credit : List Inum} {d : Inum} {e : Event}

theorem step_cases (taken : s.step e = some t) : ∃ proc r,
    s.proc e.pid = some proc ∧ s.perform e.pid proc e.call = .ok (r, t) := by
  unfold Sys.step at taken
  cases running : s.proc e.pid with
  | none =>
      rw [running] at taken
      cases taken
  | some proc =>
      rw [running] at taken
      dsimp only at taken
      cases called : s.perform e.pid proc e.call with
      | error panic =>
          rw [called] at taken
          cases taken
      | ok r =>
          rw [called] at taken
          cases taken
          exact ⟨proc, r.1, rfl, called⟩

/-- Any entry of a directory where lookups are safe is safe. -/
theorem sure_of_entry (h : Shape tidy credit n) (rooted : Rooted n d) {de : Dirent}
    (member : de ∈ (n d).entries) (live : de.inum ≠ 0) : Sure n de.inum := by
  obtain ⟨up, _, entries, _, above⟩ := entries_eq h rooted.dir []
  rw [entries] at member
  rcases List.mem_cons.mp member with rfl | later
  · exact rooted.sure
  · rcases List.mem_cons.mp later with rfl | rest
    · have up_sure := rooted.parent.sure
      rw [above] at up_sure
      exact up_sure
    · have placed := h.named d de rooted.dir rest live
      refine ⟨placed.allocated, fun child => rooted_of_parent child ?_⟩
      rw [placed.up child]
      exact rooted

theorem Met.sure (h : Shape tidy credit s.node) (lofty : Lofty s) (met : Met s d) :
    Sure s.node d := by
  induction met with
  | root => exact h.rootedRoot.sure
  | cwd running => exact (lofty _ _ running).sure
  | entry _ dir member live ih => exact sure_of_entry h (ih.rooted dir) member live

/-- What a call that `Spares` allows keeps. -/
structure Safe (s : Sys) : Prop where
  inv : Inv False [] [] s
  lofty : Lofty s

theorem step_safe (h : Safe s) (spares : Spares s e) (taken : s.step e = some t) : Safe t := by
  obtain ⟨proc, r, running, called⟩ := step_cases taken
  have done := (perform_ends h.inv running e.call False.elim).ok called
  refine ⟨done.inv, ?_⟩
  intro q proc' running'
  have after := done.cwds q
  rw [running', Option.map_some] at after
  exact done.keeps.rooted (done.rooted h.lofty q _ after.symm) fun k given =>
    spares proc running _ given q _ after.symm k rfl

theorem boot_safe {names : List (List Byte)} (fits : names.length + 2 ≤ ninodes)
    (running : Pid → Bool) : Safe (boot names running) := by
  have inv := boot_inv False fits running
  refine ⟨inv, ?_⟩
  intro p proc here
  have cwd : proc.cwd = ROOTINO := by
    unfold boot at here
    dsimp only at here
    split at here
    · cases here
      rfl
    · cases here
  rw [cwd]
  exact inv.shape.rootedRoot

/-- Where no call frees a directory above a current directory, every entry that a lookup can
meet names an allocated inode, and no call comes to a free one. -/
theorem no_dangling_entries {names : List (List Byte)} (fits : names.length + 2 ≤ ninodes)
    (running : Pid → Bool) (calls : List Event)
    (spared : Guarded Sys.step Spares (boot names running) calls)
    (ran : run Sys.step (boot names running) calls = some t) :
    (∀ d de, Met t d → Nodes.dir t.node d → de ∈ (t.node d).entries → de.inum ≠ 0 →
      (t.node de.inum).type ≠ 0) ∧
    ∀ p proc call, t.proc p = some proc → t.perform p proc call ≠ .error .noType := by
  have safe : Safe t :=
    run_invariant Sys.step (fun _ _ _ holds spares taken => step_safe holds spares taken) calls _ t
      (boot_safe fits running) spared ran
  constructor
  · intro d de met dir member live
    have sure := met.sure safe.inv.shape safe.lofty
    exact (sure_of_entry safe.inv.shape (sure.rooted dir) member live).allocated
  · intro p proc call here failed
    exact (perform_ends safe.inv here call False.elim).error failed rfl safe.lofty

end Dangling

/-- Only the first process runs. -/
def alone (p : Pid) : Bool := decide (p.val = 0)

def call (call : Call) : Event := ⟨⟨0, Nat.zero_lt_succ 63⟩, call⟩

def stateAfter {calls : List Event}
    (completes : (run Sys.step (boot [] alone) calls).isSome = true) : Sys :=
  (run Sys.step (boot [] alone) calls).get completes

/-- A directory and another one in it. -/
def twoDirs : List Event := [call (.mkdir (bytes "a")), call (.mkdir (bytes "a/b"))]

theorem twoDirs_completes : (run Sys.step (boot [] alone) twoDirs).isSome = true := by
  decide +kernel

theorem twoDirs_spared :
    (∀ d de, Met (stateAfter twoDirs_completes) d →
      Nodes.dir (stateAfter twoDirs_completes).node d →
      de ∈ ((stateAfter twoDirs_completes).node d).entries → de.inum ≠ 0 →
      ((stateAfter twoDirs_completes).node de.inum).type ≠ 0) ∧
    ∀ p proc call, (stateAfter twoDirs_completes).proc p = some proc →
      (stateAfter twoDirs_completes).perform p proc call ≠ .error .noType := by
  have spared : Guarded Sys.step Spares (boot [] alone) twoDirs := by
    have mkdir : ∀ s path, Spares s (call (.mkdir path)) :=
      fun s path proc _ i given => given.unlinks.elim
    refine ⟨mkdir _ _, ?_⟩
    split
    · trivial
    · refine ⟨mkdir _ _, ?_⟩
      split
      · trivial
      · trivial
  exact no_dangling_entries (by decide) alone twoDirs spared (Option.some_get _).symm

/-- A process removes its current directory, and then the directory above. -/
def removeAbove : List Event :=
  twoDirs ++ [call (.chdir (bytes "a/b")), call (.unlink (bytes "/a/b")),
    call (.unlink (bytes "/a"))]

theorem removeAbove_completes : (run Sys.step (boot [] alone) removeAbove).isSome = true := by
  decide +kernel

/-- After `removeAbove` the entry `..` of the current directory names a free inode, and a
lookup of it panics. -/
theorem dotdot_dangles : ¬ ∀ (names : List (List Byte)) (running : Pid → Bool)
    (calls : List Event) (t : Sys), names.length + 2 ≤ ninodes →
    run Sys.step (boot names running) calls = some t →
    (∀ d de, Met t d → Nodes.dir t.node d → de ∈ (t.node d).entries → de.inum ≠ 0 →
      (t.node de.inum).type ≠ 0) ∧
    ∀ p proc call, t.proc p = some proc → t.perform p proc call ≠ .error .noType := by
  intro every
  have claim := (every [] alone removeAbove (stateAfter removeAbove_completes) (by decide)
    (Option.some_get _).symm).1
  have cwd : ((stateAfter removeAbove_completes).proc (call .exit).pid).map Proc.cwd = some 3 := by
    decide +kernel
  have dir : ((stateAfter removeAbove_completes).node 3).type = T_DIR := by decide +kernel
  have dotdot : (2 : Inum) ∈ (((stateAfter removeAbove_completes).node 3).entries.map
      Dirent.inum) := by decide +kernel
  have free : ((stateAfter removeAbove_completes).node 2).type = 0 := by decide +kernel
  obtain ⟨proc, running, here⟩ := Option.map_eq_some_iff.mp cwd
  obtain ⟨de, member, up⟩ := List.mem_map.mp dotdot
  have met := Met.cwd running
  rw [here] at met
  have allocated := claim 3 de met dir member (by rw [up]; decide)
  rw [up] at allocated
  exact allocated free

example : (run Sys.step (boot [] alone) (removeAbove ++ [call (.chdir dotdot)])).isNone = true := by
  decide +kernel

/-! ## Links and orphans -/

/-- By any entries from the root. -/
inductive FromRoot (n : Nodes) : Inum → Prop where
  | root : FromRoot n ROOTINO
  | entry {d : Inum} {de : Dirent} (above : FromRoot n d) (dir : n.dir d)
      (member : de ∈ (n d).entries) (live : de.inum ≠ 0) : FromRoot n de.inum

open Classical in
/-- The entries that name `i` in directories reachable from the root, without `.`, which is
the first entry of each. -/
noncomputable def naming (n : Nodes) (i : Inum) : Nat :=
  ∑ d, if FromRoot n d ∧ n.dir d then
    ((n d).entries.drop 1).countP fun de => decide (de.inum = i) else 0

/-- The call writes no new entry to a directory without links. -/
def Roomy (s : Sys) (e : Event) : Prop :=
  ∀ proc, s.proc e.pid = some proc → ∀ dp, addsTo s proc e.call = some dp → (s.node dp).nlink ≠ 0

section Links
variable {n : Nodes} {i d c : Inum} {s t : Sys} {e : Event}

theorem from_root_path (h : Shape True [] n) (reached : FromRoot n d) : n.Path d := by
  induction reached with
  | root => exact .root
  | entry above dir member live ih =>
      rename_i d de
      obtain ⟨up, _, entries, _, parent⟩ := entries_eq h dir []
      rw [entries] at member
      rcases List.mem_cons.mp member with rfl | later
      · exact ih
      · rcases List.mem_cons.mp later with rfl | rest
        · change n.Path up
          rw [← parent]
          cases ih with
          | root =>
              rw [h.rootUp]
              exact .root
          | entry above' dir' member' live' =>
              rw [(h.named _ _ dir' member' live').up dir]
              exact above'
        · exact .entry ih dir rest live

theorem path_from_root (path : n.Path d) : FromRoot n d := by
  induction path with
  | root => exact .root
  | entry _ dir member live ih => exact .entry ih dir (List.mem_of_mem_drop member) live

theorem from_root_iff (h : Shape True [] n) : FromRoot n d ↔ n.Path d :=
  ⟨from_root_path h, path_from_root⟩

/-- A directory with a live entry is reachable. -/
theorem path_of_entry (h : Shape True [] n) (dir : n.dir d) {de : Dirent} (member : de ∈ n.rest d)
    (live : de.inum ≠ 0) : n.Path d := by
  apply h.reach trivial d dir
  by_contra detached
  exact live (h.empty trivial d dir detached de member)

theorem path_of_named (h : Shape True [] n) (live : i ≠ 0) (named : 0 < n.named d i) :
    n.Path d := by
  obtain ⟨dir, de, member, same⟩ := named_of_pos named
  exact path_of_entry h dir member (same ▸ live)

/-- A count by the values of a function. -/
theorem countP_sum (l : Dir) (P : Inum → Bool) :
    l.countP (fun de => P de.inum) =
      ∑ c, if P c = true then l.countP (fun de => decide (de.inum = c)) else 0 := by
  induction l with
  | nil => simp
  | cons de rest ih =>
      simp only [List.countP_cons, ih, decide_eq_true_eq]
      have split : ∀ c, (if P c = true then rest.countP (fun de => decide (de.inum = c)) +
          (if de.inum = c then 1 else 0) else 0) =
          (if P c = true then rest.countP (fun de => decide (de.inum = c)) else 0) +
            if de.inum = c then (if P c = true then 1 else 0) else 0 := by
        intro c
        split
        · rfl
        · simp
      simp only [split, Finset.sum_add_distrib, Finset.sum_ite_eq, Finset.mem_univ, if_true]

/-- `..` of a directory names the one that has it, and `..` of the root the root. -/
theorem parent_count (h : Shape True [] n) (path : n.Path d) (dir : n.dir d) (i : Inum) :
    (if n.parent d = i then 1 else 0) =
      (if d = ROOTINO then (if i = ROOTINO then 1 else 0) else 0) + n.named i d := by
  have live : d ≠ 0 := h.nonzero (allocated_of_dir dir)
  have from_above : ∀ {e}, 0 < n.named e d → n.Placed e d := by
    intro e named
    obtain ⟨dir', de, member, rfl⟩ := named_of_pos named
    exact h.named e de dir' member live
  by_cases root : d = ROOTINO
  · have unnamed : n.named i d = 0 := by
      by_contra named
      exact (from_above (Nat.pos_of_ne_zero named)).not_root root
    rw [unnamed, if_pos root, root, h.rootUp, Nat.add_zero]
    by_cases here : i = ROOTINO
    · rw [if_pos here.symm, if_pos here]
    · rw [if_neg (fun same => here same.symm), if_neg here]
  · rw [if_neg root, Nat.zero_add]
    have above : 0 < n.named (n.parent d) d := by
      cases path with
      | root => exact absurd rfl root
      | entry _ dir' member _ =>
          rw [(h.named _ _ dir' member live).up dir]
          exact named_pos dir' member
    by_cases here : n.parent d = i
    · rw [here] at above
      have once := h.once d dir
      have bound := named_le_links n i d
      rw [if_pos here]
      omega
    · rw [if_neg here]
      by_contra named
      exact here ((from_above (Nat.pos_of_ne_zero fun zero => named zero.symm)).up dir)

open Classical in
/-- What one directory adds to `naming`. -/
theorem naming_term (h : Shape True [] n) (path : n.Path i) (live : i ≠ 0) (d : Inum) :
    (if FromRoot n d ∧ n.dir d then
      ((n d).entries.drop 1).countP fun de => decide (de.inum = i) else 0) =
    n.named d i + ((if d = ROOTINO then (if i = ROOTINO then 1 else 0) else 0) +
      if (n d).type = T_DIR then n.named i d else 0) := by
  by_cases reached : FromRoot n d ∧ n.dir d
  · obtain ⟨from_root, dir⟩ := reached
    have type : (n d).type = T_DIR := dir
    obtain ⟨up, _, entries, _, parent⟩ := entries_eq h dir []
    rw [if_pos ⟨from_root, dir⟩, if_pos type, ← parent_count h (from_root_path h from_root) dir i,
      entries]
    have mine : n.named d i = (n.rest d).countP fun de => decide (de.inum = i) := if_pos type
    rw [mine, parent, List.drop_one, List.tail_cons, List.countP_cons]
    change _ + (if decide (up = i) = true then 1 else 0) = _
    simp only [decide_eq_true_eq]
  · have unnamed : n.named d i = 0 := by
      by_contra named
      have positive := Nat.pos_of_ne_zero named
      exact reached ⟨path_from_root (path_of_named h live positive), (named_of_pos positive).1⟩
    have not_root : d ≠ ROOTINO := by
      rintro rfl
      exact reached ⟨.root, h.root⟩
    rw [if_neg reached, unnamed, if_neg not_root]
    split
    · rename_i dir
      by_contra named
      have positive : 0 < n.named i d := by omega
      obtain ⟨dir', de, member, rfl⟩ := named_of_pos positive
      exact reached ⟨path_from_root (.entry path dir' member
        (h.nonzero (allocated_of_dir dir))), dir⟩
    · rfl

/-- nlink is the number of names of a reachable inode. -/
theorem nlink_naming (h : Shape True [] n) (reached : FromRoot n i) (allocated : (n i).type ≠ 0) :
    (n i).nlink = (naming n i : Int) := by
  classical
  have path := from_root_path h reached
  have live := h.nonzero allocated
  have subs : n.subs i = ∑ c, if (n c).type = T_DIR then n.named i c else 0 := by
    unfold Nodes.subs Nodes.named
    by_cases dir : (n i).type = T_DIR
    · simp only [if_pos dir]
      have sum := countP_sum (n.rest i) fun c => decide ((n c).type = T_DIR)
      simp only [decide_eq_true_eq] at sum
      exact sum
    · simp only [if_neg dir, ite_self, Finset.sum_const_zero]
  have root : (∑ d, if d = ROOTINO then (if i = ROOTINO then 1 else 0) else 0) =
      if i = ROOTINO then 1 else 0 := by
    rw [Finset.sum_ite_eq']
    exact if_pos (Finset.mem_univ _)
  have exact := h.exact trivial i allocated
  have total : naming n i = n.count i := by
    unfold naming Nodes.count Nodes.links
    rw [Finset.sum_congr rfl fun d _ => naming_term h path live d, Finset.sum_add_distrib,
      Finset.sum_add_distrib, root, subs]
    omega
  rw [exact, total, List.count_nil, Nat.add_zero]

/-- An inode with links is reachable. -/
theorem from_root_of_nlink (h : Shape True [] n) (allocated : (n i).type ≠ 0)
    (linked : (n i).nlink ≠ 0) : FromRoot n i := by
  have live := h.nonzero allocated
  have exact := h.exact trivial i allocated
  rw [List.count_nil, Nat.add_zero] at exact
  unfold Nodes.count at exact
  by_cases root : i = ROOTINO
  · rw [root]
    exact .root
  · rw [if_neg root, Nat.add_zero] at exact
    apply path_from_root
    by_cases named : n.links i = 0
    · have positive : 0 < n.subs i := by omega
      unfold Nodes.subs at positive
      split at positive
      · rename_i dir
        obtain ⟨de, member, child⟩ := List.countP_pos_iff.mp positive
        have type : (n de.inum).type = T_DIR := of_decide_eq_true child
        have typed : n.dir de.inum := type
        exact path_of_entry h dir member (h.nonzero (allocated_of_dir typed))
      · exact absurd positive (Nat.lt_irrefl 0)
    · obtain ⟨d, dir, de, member, rfl⟩ := links_of_pos (Nat.pos_of_ne_zero named)
      exact .entry (path_of_entry h dir member live) dir member live

theorem step_tidy (h : Inv True [] [] s) (roomy : Roomy s e) (taken : s.step e = some t) :
    Inv True [] [] t := by
  obtain ⟨proc, r, running, called⟩ := step_cases taken
  exact ((perform_ends h running e.call fun _ => roomy proc running).ok called).inv

/-- Where no call writes an entry to a directory without links, every allocated inode that is
not in use is reachable, and nlink is the number of names. -/
theorem links_are_names {names : List (List Byte)} (fits : names.length + 2 ≤ ninodes)
    (running : Pid → Bool) (calls : List Event)
    (roomy : Guarded Sys.step Roomy (boot names running) calls)
    (ran : run Sys.step (boot names running) calls = some t) :
    (∀ i, (t.node i).type ≠ 0 → t.ref i = 0 → FromRoot t.node i) ∧
    ∀ i, FromRoot t.node i → (t.node i).nlink = (naming t.node i : Int) := by
  have inv : Inv True [] [] t :=
    run_invariant Sys.step (fun _ _ _ holds roomy taken => step_tidy holds roomy taken) calls _ t
      (boot_inv True fits running) roomy ran
  constructor
  · intro i allocated unused
    apply from_root_of_nlink inv.shape allocated
    intro unlinked
    have count := inv.held.count i
    obtain ⟨_, held⟩ := inv.held.kept i allocated unlinked
    omega
  · intro i reached
    apply nlink_naming inv.shape reached
    cases from_root_path inv.shape reached with
    | root => exact allocated_of_dir inv.shape.root
    | entry _ dir member live => exact (inv.shape.named _ _ dir member live).allocated

end Links

theorem roomy_iff (s : Sys) (e : Event) : ((s.proc e.pid).all fun proc =>
    (addsTo s proc e.call).all fun dp => decide ((s.node dp).nlink ≠ 0)) = true ↔ Roomy s e := by
  simp only [Option.all_eq_true, decide_eq_true_eq]
  exact Iff.rfl

instance (s : Sys) (e : Event) : Decidable (Roomy s e) := decidable_of_iff _ (roomy_iff s e)

theorem twoDirs_links :
    (∀ i, ((stateAfter twoDirs_completes).node i).type ≠ 0 →
      (stateAfter twoDirs_completes).ref i = 0 → FromRoot (stateAfter twoDirs_completes).node i) ∧
    ∀ i, FromRoot (stateAfter twoDirs_completes).node i →
      ((stateAfter twoDirs_completes).node i).nlink =
        (naming (stateAfter twoDirs_completes).node i : Int) := by
  have roomy : Guarded Sys.step Roomy (boot [] alone) twoDirs := by decide +kernel
  exact links_are_names (by decide) alone twoDirs roomy (Option.some_get _).symm

/-- A file made in a directory that is removed, and left then. -/
def leaveFile : List Event :=
  [call (.mkdir (bytes "d")), call (.chdir (bytes "d")), call (.unlink (bytes "/d")),
    call (.openFile (bytes "x") true 2 false), call (.close ⟨0, Nat.zero_lt_succ 15⟩),
    call (.chdir (bytes "/"))]

theorem leaveFile_completes : (run Sys.step (boot [] alone) leaveFile).isSome = true := by
  decide +kernel

/-- After `leaveFile` the file is allocated, not in use, and not reachable. -/
theorem file_is_orphan : ¬ ∀ (names : List (List Byte)) (running : Pid → Bool)
    (calls : List Event) (t : Sys), names.length + 2 ≤ ninodes →
    run Sys.step (boot names running) calls = some t →
    (∀ i, (t.node i).type ≠ 0 → t.ref i = 0 → FromRoot t.node i) ∧
    ∀ i, FromRoot t.node i → (t.node i).nlink = (naming t.node i : Int) := by
  intro every
  have claim := (every [] alone leaveFile (stateAfter leaveFile_completes) (by decide)
    (Option.some_get _).symm).1
  have allocated : ((stateAfter leaveFile_completes).node 3).type ≠ 0 := by decide +kernel
  have unused : (stateAfter leaveFile_completes).ref 3 = 0 := by decide +kernel
  have root : (((stateAfter leaveFile_completes).node ROOTINO).entries.all fun de =>
      decide (de.inum = 0 ∨ de.inum = ROOTINO)) = true := by decide +kernel
  have only : ∀ i, FromRoot (stateAfter leaveFile_completes).node i → i = ROOTINO := by
    intro i reached
    induction reached with
    | root => rfl
    | entry _ _ member live above =>
        rw [above] at member
        have either := List.all_eq_true.mp root _ member
        exact (of_decide_eq_true either).resolve_left live
  exact absurd (only 3 (claim 3 allocated unused)) (by decide)

end Xv6.Public1.Tree
