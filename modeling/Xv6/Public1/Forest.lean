import Mathlib.Algebra.BigOperators.Group.Finset.Basic
import Mathlib.Algebra.Order.BigOperators.Group.Finset
import Mathlib.Data.FinEnum
import Xv6.Public1.Tree

/-!
# Links and entries (xv6-public_1)

What the directories say about the inodes: which entries name an inode, which of
these nlink counts, and what a new entry, a removed one, a new inode and a freed one
change.
-/

set_option autoImplicit false

namespace Xv6.Public1.Tree

open Xv6.Lib.Words
open Xv6.Lib.CString
open Xv6.Public1.Directory

abbrev Nodes := Inum → Node

/-! ## Names -/

theorem dot_key : key dot = dot := by decide

theorem dotdot_key : key dotdot = dotdot := by decide

theorem dot_ne_dotdot : key dot ≠ key dotdot := by decide

namespace Nodes

def dir (n : Nodes) (d : Inum) : Prop := (n d).type = T_DIR

/-- The entries after `.` and `..`. -/
def rest (n : Nodes) (d : Inum) : Dir := (n d).entries.drop 2

/-- What `..` names. -/
def parent (n : Nodes) (d : Inum) : Inum := (((n d).entries.drop 1).head?.map Dirent.inum).getD 0

/-- The entries of `d` other than `.` and `..` that name `i`. -/
def named (n : Nodes) (d i : Inum) : Nat :=
  if (n d).type = T_DIR then (n.rest d).countP fun de => decide (de.inum = i) else 0

def links (n : Nodes) (i : Inum) : Nat := ∑ d, n.named d i

/-- The entries of `i` that name directories, whose `..` is `i`. -/
def subs (n : Nodes) (i : Inum) : Nat :=
  if (n i).type = T_DIR then (n.rest i).countP fun de => decide ((n de.inum).type = T_DIR) else 0

/-- What nlink counts. -/
def count (n : Nodes) (i : Inum) : Nat := n.links i + n.subs i + if i = ROOTINO then 1 else 0

/-- The root, or a directory that has a name. -/
def attached (n : Nodes) (d : Inum) : Prop := d = ROOTINO ∨ 0 < n.links d

/-- By entries other than `.` and `..` from the root. -/
inductive Path (n : Nodes) : Inum → Prop where
  | root : Path n ROOTINO
  | entry {d : Inum} {de : Dirent} (above : Path n d) (dir : n.dir d) (member : de ∈ n.rest d)
      (live : de.inum ≠ 0) : Path n de.inum

/-- An entry of `d` may name `i`. -/
structure Placed (n : Nodes) (d i : Inum) : Prop where
  allocated : (n i).type ≠ 0
  not_root : i ≠ ROOTINO
  apart : i ≠ d
  up : n.dir i → n.parent i = d

end Nodes

open Nodes

/-- What holds of the directories; `credit` has the links that nlink counts and that no entry
shows yet, or any more.  With `tidy`, nlink is exact and no removed directory has entries. -/
structure Shape (tidy : Prop) (credit : List Inum) (n : Nodes) : Prop where
  zero : (n 0).type = 0
  root : n.dir ROOTINO
  rootUp : n.parent ROOTINO = ROOTINO
  dots : ∀ d, n.dir d → ∃ up rest, up ≠ 0 ∧
    (n d).entries = entry dot d :: entry dotdot up :: rest
  named : ∀ d de, n.dir d → de ∈ n.rest d → de.inum ≠ 0 → n.Placed d de.inum
  once : ∀ c, n.dir c → n.links c ≤ 1
  bound : ∀ i, (n i).type ≠ 0 → ((n.count i + credit.count i : Nat) : Int) ≤ (n i).nlink
  exact : tidy → ∀ i, (n i).type ≠ 0 → (n i).nlink = ((n.count i + credit.count i : Nat) : Int)
  empty : tidy → ∀ d, n.dir d → ¬ n.attached d → ∀ de ∈ n.rest d, de.inum = 0
  reach : tidy → ∀ d, n.dir d → n.attached d → n.Path d

/-! ## Counting -/

section Counting
variable {n n' : Nodes} {d i : Inum}

theorem not_dir_of_free (free : (n d).type = 0) : ¬ n.dir d := by
  intro dir
  have both : T_DIR = 0 := dir.symm.trans free
  exact absurd both (by decide)

/-- One directory changes. -/
theorem links_update (same : ∀ e, e ≠ d → n'.named e i = n.named e i) :
    n'.links i + n.named d i = n.links i + n'.named d i := by
  have split : ∀ m : Nodes, m.links i = m.named d i + ∑ e ∈ Finset.univ.erase d, m.named e i := by
    intro m
    exact (Finset.add_sum_erase _ _ (Finset.mem_univ d)).symm
  have others : ∑ e ∈ Finset.univ.erase d, n'.named e i =
      ∑ e ∈ Finset.univ.erase d, n.named e i :=
    Finset.sum_congr rfl fun e member => same e (Finset.ne_of_mem_erase member)
  rw [split n, split n', others]
  omega

theorem named_le_links (n : Nodes) (d i : Inum) : n.named d i ≤ n.links i :=
  Finset.single_le_sum (f := fun d => n.named d i) (fun _ _ => Nat.zero_le _) (Finset.mem_univ d)

theorem named_pos (dir : n.dir d) {de : Dirent} (member : de ∈ n.rest d) :
    0 < n.named d de.inum := by
  have type : (n d).type = T_DIR := dir
  unfold named
  rw [if_pos type]
  exact List.countP_pos_iff.mpr ⟨de, member, decide_eq_true rfl⟩

theorem links_pos (dir : n.dir d) {de : Dirent} (member : de ∈ n.rest d) : 0 < n.links de.inum :=
  Nat.lt_of_lt_of_le (named_pos dir member) (named_le_links n d _)

theorem named_of_pos (named : 0 < n.named d i) : n.dir d ∧ ∃ de ∈ n.rest d, de.inum = i := by
  unfold Nodes.named at named
  split at named
  · rename_i dir
    obtain ⟨de, member, same⟩ := List.countP_pos_iff.mp named
    exact ⟨dir, de, member, of_decide_eq_true same⟩
  · exact absurd named (Nat.lt_irrefl 0)

theorem links_of_pos (named : 0 < n.links i) : ∃ d, n.dir d ∧ ∃ de ∈ n.rest d, de.inum = i := by
  obtain ⟨d, _, positive⟩ := Finset.exists_ne_zero_of_sum_ne_zero (Nat.pos_iff_ne_zero.mp named)
  exact ⟨d, named_of_pos (Nat.pos_of_ne_zero positive)⟩

/-- The same types and entries give the same counts. -/
theorem links_congr (type : ∀ e, (n' e).type = (n e).type)
    (entries : ∀ e, (n' e).entries = (n e).entries) (i : Inum) : n'.links i = n.links i := by
  unfold links named rest
  simp only [type, entries]

theorem count_congr (type : ∀ e, (n' e).type = (n e).type)
    (entries : ∀ e, (n' e).entries = (n e).entries) (i : Inum) : n'.count i = n.count i := by
  unfold count subs rest
  rw [links_congr type entries]
  simp only [type, entries]

theorem path_mono (kept : ∀ e, n.dir e → n'.dir e ∧ ∀ de ∈ n.rest e, de.inum ≠ 0 →
      ∃ de' ∈ n'.rest e, de'.inum = de.inum) (path : n.Path d) : n'.Path d := by
  induction path with
  | root => exact .root
  | entry above dir member live ih =>
      obtain ⟨dir', every⟩ := kept _ dir
      obtain ⟨de', member', same⟩ := every _ member live
      rw [← same] at live ⊢
      exact .entry ih dir' member' live

end Counting

/-! ## nlink -/

section Nlink
variable {tidy : Prop} {credit credit' : List Inum} {n : Nodes} {i : Inum}

/-- Only nlink of one inode changes, together with the credit. -/
theorem Shape.nlink (h : Shape tidy credit n) (nlink : Int)
    (others : ∀ j, j ≠ i → credit'.count j = credit.count j)
    (mine : nlink + credit.count i = (n i).nlink + credit'.count i) :
    Shape tidy credit' (Function.update n i { n i with nlink := nlink }) := by
  have type : ∀ e, (Function.update n i { n i with nlink := nlink } e).type = (n e).type := by
    intro e
    by_cases here : e = i
    · subst here
      rw [Function.update_self]
    · rw [Function.update_of_ne here]
  have entries : ∀ e,
      (Function.update n i { n i with nlink := nlink } e).entries = (n e).entries := by
    intro e
    by_cases here : e = i
    · subst here
      rw [Function.update_self]
    · rw [Function.update_of_ne here]
  have rest : ∀ e, Nodes.rest (Function.update n i { n i with nlink := nlink }) e = n.rest e := by
    intro e
    unfold Nodes.rest
    rw [entries]
  have parent : ∀ e,
      Nodes.parent (Function.update n i { n i with nlink := nlink }) e = n.parent e := by
    intro e
    unfold Nodes.parent
    rw [entries]
  have dir : ∀ e, Nodes.dir (Function.update n i { n i with nlink := nlink }) e ↔ n.dir e := by
    intro e
    unfold Nodes.dir
    rw [type]
  have links := links_congr type entries
  have count := count_congr type entries
  have attached : ∀ e,
      Nodes.attached (Function.update n i { n i with nlink := nlink }) e ↔ n.attached e := by
    intro e
    unfold Nodes.attached
    rw [links]
  constructor
  case zero => rw [type]; exact h.zero
  case root => exact (dir _).mpr h.root
  case rootUp => rw [parent]; exact h.rootUp
  case dots =>
    intro d directory
    rw [entries]
    exact h.dots d ((dir d).mp directory)
  case named =>
    intro d de directory member live
    rw [rest] at member
    have placed := h.named d de ((dir d).mp directory) member live
    constructor
    case allocated => rw [type]; exact placed.allocated
    case not_root => exact placed.not_root
    case apart => exact placed.apart
    case up =>
      intro child
      rw [parent]
      exact placed.up ((dir _).mp child)
  case once =>
    intro c directory
    rw [links]
    exact h.once c ((dir c).mp directory)
  case bound =>
    intro j allocated
    rw [type] at allocated
    have before := h.bound j allocated
    rw [count]
    by_cases here : j = i
    · subst here
      rw [Function.update_self]
      dsimp only
      omega
    · rw [Function.update_of_ne here, others j here]
      exact before
  case exact =>
    intro neat j allocated
    rw [type] at allocated
    have before := h.exact neat j allocated
    rw [count]
    by_cases here : j = i
    · subst here
      rw [Function.update_self]
      dsimp only
      omega
    · rw [Function.update_of_ne here, others j here]
      exact before
  case empty =>
    intro neat d directory detached
    rw [rest]
    exact h.empty neat d ((dir d).mp directory) fun yes => detached ((attached d).mpr yes)
  case reach =>
    intro neat d directory yes
    refine path_mono ?_ (h.reach neat d ((dir d).mp directory) ((attached d).mp yes))
    intro e above
    refine ⟨(dir e).mpr above, fun de member _ => ⟨de, ?_, rfl⟩⟩
    rw [rest]
    exact member

end Nlink

/-! ## Entries of one directory -/

section Entries
variable {P : Dirent → Bool} {e found : Dirent} {d : Dir} {key : List Byte}

theorem countP_fill (dead : ∀ de : Dirent, de.inum = 0 → P de = false) :
    (fill e d).countP P = d.countP P + if P e = true then 1 else 0 := by
  induction d with
  | nil => simp [fill, List.countP_cons]
  | cons de rest ih =>
      rw [fill]
      split
      · rename_i free
        simp only [List.countP_cons, dead de free]
        simp
      · simp only [List.countP_cons, ih]
        omega

theorem fill_live {de : Dirent} (member : de ∈ d) (live : de.inum ≠ 0) : de ∈ fill e d := by
  induction d with
  | nil => cases member
  | cons a rest ih =>
      rw [fill]
      rcases List.mem_cons.mp member with rfl | later
      · rw [if_neg live]
        exact List.mem_cons_self
      · split
        · exact List.mem_cons_of_mem _ later
        · exact List.mem_cons_of_mem _ (ih later)

theorem fill_new : e ∈ fill e d := by
  induction d with
  | nil => exact List.mem_cons_self
  | cons a rest ih =>
      rw [fill]
      split
      · exact List.mem_cons_self
      · exact List.mem_cons_of_mem _ ih

/-- The first entry with a name. -/
def firstNamed (key : List Byte) (d : Dir) : Option Dirent :=
  d.find? fun de => decide (Names de key)

theorem countP_clearFirst (dead : ∀ de : Dirent, de.inum = 0 → P de = false)
    (first : firstNamed key d = some found) :
    d.countP P = (clearFirst key d).countP P + if P found = true then 1 else 0 := by
  induction d with
  | nil => cases first
  | cons de rest ih =>
      unfold firstNamed at first
      rw [List.find?_cons] at first
      rw [clearFirst]
      by_cases names : Names de key
      · rw [decide_eq_true names] at first
        cases Option.some.inj first
        rw [if_pos names]
        simp only [List.countP_cons, dead noEntry rfl]
        simp
      · rw [decide_eq_false names] at first
        rw [if_neg names]
        simp only [List.countP_cons]
        have later := ih first
        omega

/-- An entry that is not cleared stays. -/
theorem clearFirst_live {de : Dirent} (first : firstNamed key d = some found) (member : de ∈ d) :
    de.inum = found.inum ∨ de ∈ clearFirst key d := by
  induction d with
  | nil => cases member
  | cons a rest ih =>
      unfold firstNamed at first
      rw [List.find?_cons] at first
      rw [clearFirst]
      by_cases names : Names a key
      · rw [decide_eq_true names] at first
        cases Option.some.inj first
        rw [if_pos names]
        rcases List.mem_cons.mp member with rfl | later
        · exact Or.inl rfl
        · exact Or.inr (List.mem_cons_of_mem _ later)
      · rw [decide_eq_false names] at first
        rw [if_neg names]
        rcases List.mem_cons.mp member with rfl | later
        · exact Or.inr List.mem_cons_self
        · exact (ih first later).imp_right (List.mem_cons_of_mem _)

end Entries

/-- The entries of a directory after `.` and `..` are replaced. -/
def Nodes.setRest (n : Nodes) (d : Inum) (rest : Dir) : Nodes :=
  Function.update n d { n d with entries := (n d).entries.take 2 ++ rest }

/-- The links that an entry of `d` for `i` stands for. -/
def Nodes.shown (n : Nodes) (d i : Inum) : List Inum := if (n i).type = T_DIR then [i, d] else [i]

section SetRest
variable {tidy : Prop} {credit : List Inum} {n : Nodes} {d : Inum} {rest : Dir}

theorem type_setRest (n : Nodes) (d : Inum) (rest : Dir) (e : Inum) :
    (n.setRest d rest e).type = (n e).type := by
  unfold Nodes.setRest
  by_cases here : e = d
  · subst here
    rw [Function.update_self]
  · rw [Function.update_of_ne here]

theorem nlink_setRest (n : Nodes) (d : Inum) (rest : Dir) (e : Inum) :
    (n.setRest d rest e).nlink = (n e).nlink := by
  unfold Nodes.setRest
  by_cases here : e = d
  · subst here
    rw [Function.update_self]
  · rw [Function.update_of_ne here]

theorem dir_setRest {e : Inum} : (n.setRest d rest).dir e ↔ n.dir e := by
  unfold Nodes.dir
  rw [type_setRest]

theorem entries_other {e : Inum} (other : e ≠ d) : n.setRest d rest e = n e :=
  Function.update_of_ne other _ _

theorem rest_other {e : Inum} (other : e ≠ d) : (n.setRest d rest).rest e = n.rest e := by
  unfold Nodes.rest
  rw [entries_other other]

section Dots
variable (h : Shape tidy credit n) (dir : n.dir d)
include h dir

theorem entries_eq (rest : Dir) : ∃ up, up ≠ 0 ∧ (n d).entries = entry dot d :: entry dotdot up :: n.rest d ∧
    (n.setRest d rest d).entries = entry dot d :: entry dotdot up :: rest ∧ n.parent d = up := by
  obtain ⟨up, tail, live, same⟩ := h.dots d dir
  refine ⟨up, live, ?_, ?_, ?_⟩
  · unfold Nodes.rest
    rw [same]
    rfl
  · unfold Nodes.setRest
    rw [Function.update_self, same]
    rfl
  · unfold Nodes.parent
    rw [same]
    rfl

theorem rest_setRest : (n.setRest d rest).rest d = rest := by
  obtain ⟨up, _, _, after, _⟩ := entries_eq h dir rest
  unfold Nodes.rest
  rw [after]
  rfl

theorem parent_setRest (e : Inum) : (n.setRest d rest).parent e = n.parent e := by
  by_cases here : e = d
  · subst here
    obtain ⟨up, _, _, after, up_eq⟩ := entries_eq h dir rest
    rw [up_eq]
    unfold Nodes.parent
    rw [after]
    rfl
  · unfold Nodes.parent
    rw [entries_other here]

theorem links_setRest (rest : Dir) (i : Inum) :
    (n.setRest d rest).links i + (n.rest d).countP (fun de => decide (de.inum = i)) =
      n.links i + rest.countP fun de => decide (de.inum = i) := by
  have type : (n d).type = T_DIR := dir
  have before : n.named d i = (n.rest d).countP fun de => decide (de.inum = i) := if_pos type
  have after : (n.setRest d rest).named d i = rest.countP fun de => decide (de.inum = i) := by
    unfold Nodes.named
    rw [type_setRest, if_pos type, rest_setRest h dir]
  rw [← before, ← after]
  apply links_update
  intro e other
  unfold Nodes.named
  rw [type_setRest, rest_other other]

theorem subs_setRest (rest : Dir) (i : Inum) : (n.setRest d rest).subs i =
    if i = d then rest.countP fun de => decide ((n de.inum).type = T_DIR) else n.subs i := by
  unfold Nodes.subs
  simp only [type_setRest]
  by_cases here : i = d
  · subst here
    have type : (n i).type = T_DIR := dir
    rw [if_pos rfl, if_pos type, rest_setRest h dir]
  · rw [if_neg here, rest_other here]

end Dots

end SetRest

/-! ## An entry is written -/

section Enter
variable {tidy : Prop} {credit : List Inum} {n : Nodes} {d i j : Inum}

theorem Shape.nonzero (h : Shape tidy credit n) (allocated : (n j).type ≠ 0) : j ≠ 0 := by
  intro zero
  rw [zero] at allocated
  exact allocated h.zero

theorem count_shown (n : Nodes) (d i j : Inum) (credit : List Inum) :
    (n.shown d i ++ credit).count j = credit.count j + (if i = j then 1 else 0) +
      if (n i).type = T_DIR ∧ d = j then 1 else 0 := by
  unfold Nodes.shown
  by_cases dir : (n i).type = T_DIR
  · rw [if_pos dir]
    simp only [List.cons_append, List.nil_append, List.count_cons, beq_iff_eq, dir, true_and]
    omega
  · rw [if_neg dir]
    simp [List.count_cons, dir]

/-- The counts when the live entries of `d` have changed by one for `i`. -/
theorem count_setRest (h : Shape tidy credit n) (dir : n.dir d) (i : Inum) (rest : Dir) {k l : Nat}
    (entries : ∀ P : Dirent → Bool, (∀ de : Dirent, de.inum = 0 → P de = false) →
      (∀ de de' : Dirent, de.inum = de'.inum → P de = P de') →
        rest.countP P + (if P (entry [] i) = true then k else 0) =
          (n.rest d).countP P + if P (entry [] i) = true then l else 0)
    (nonzero : j ≠ 0) :
    (n.setRest d rest).count j + (if i = j then k else 0) +
        (if (n i).type = T_DIR ∧ d = j then k else 0) =
      n.count j + (if i = j then l else 0) + if (n i).type = T_DIR ∧ d = j then l else 0 := by
  have links := links_setRest h dir rest j
  have subs := subs_setRest h dir rest j
  have named := entries (fun de => decide (de.inum = j))
    (fun de free => decide_eq_false (by rw [free]; exact nonzero.symm))
    (fun de de' same => by rw [same])
  have typed := entries (fun de => decide ((n de.inum).type = T_DIR))
    (fun de free => decide_eq_false (by rw [free]; exact not_dir_of_free h.zero))
    (fun de de' same => by rw [same])
  simp only [decide_eq_true_eq] at named typed
  change _ + (if i = j then k else 0) = _ + (if i = j then l else 0) at named
  change _ + (if (n i).type = T_DIR then k else 0) =
    _ + (if (n i).type = T_DIR then l else 0) at typed
  unfold Nodes.count
  rw [subs]
  by_cases here : j = d
  · subst here
    have type : (n j).type = T_DIR := dir
    have before : n.subs j = (n.rest j).countP fun de => decide ((n de.inum).type = T_DIR) :=
      if_pos type
    rw [if_pos rfl, before]
    simp only [and_true]
    omega
  · have other : d ≠ j := fun same => here same.symm
    rw [if_neg here]
    simp only [other, and_false, if_false]
    omega

/-- dirlink() of a new entry. -/
theorem Shape.enter {name : List Byte} (h : Shape tidy (n.shown d i ++ credit) n) (dir : n.dir d)
    (placed : n.Placed d i) (nameless : n.dir i → n.links i = 0) (proper : tidy → n.attached d) :
    Shape tidy credit (n.setRest d (fill (entry name i) (n.rest d))) := by
  have live : i ≠ 0 := h.nonzero placed.allocated
  have count : ∀ j, j ≠ 0 →
      (n.setRest d (fill (entry name i) (n.rest d))).count j + credit.count j =
        n.count j + (n.shown d i ++ credit).count j := by
    intro j nonzero
    have changed := count_setRest (j := j) (k := 0) (l := 1) h dir i
      (fill (entry name i) (n.rest d)) (fun P dead same => ?_) nonzero
    · rw [count_shown]
      simp only [ite_self, Nat.add_zero] at changed
      omega
    · have filled := countP_fill (e := entry name i) (d := n.rest d) dead
      rw [same (entry name i) (entry [] i) rfl] at filled
      rw [filled, ite_self, Nat.add_zero]
  have links : ∀ j, j ≠ 0 → (n.setRest d (fill (entry name i) (n.rest d))).links j =
      n.links j + if i = j then 1 else 0 := by
    intro j nonzero
    have changed := links_setRest h dir (fill (entry name i) (n.rest d)) j
    have filled := countP_fill (P := fun de => decide (de.inum = j)) (e := entry name i)
      (d := n.rest d) fun de free => decide_eq_false (by rw [free]; exact nonzero.symm)
    simp only [decide_eq_true_eq] at filled
    change _ = _ + (if i = j then 1 else 0) at filled
    omega
  have kept : ∀ e, n.dir e → (n.setRest d (fill (entry name i) (n.rest d))).dir e ∧
      ∀ de ∈ n.rest e, de.inum ≠ 0 →
        ∃ de' ∈ (n.setRest d (fill (entry name i) (n.rest d))).rest e, de'.inum = de.inum := by
    intro e directory
    refine ⟨dir_setRest.mpr directory, fun de member alive => ⟨de, ?_, rfl⟩⟩
    by_cases here : e = d
    · subst here
      rw [rest_setRest h dir]
      exact fill_live member alive
    · rw [rest_other here]
      exact member
  constructor
  case zero => rw [type_setRest]; exact h.zero
  case root => exact dir_setRest.mpr h.root
  case rootUp => rw [parent_setRest h dir]; exact h.rootUp
  case dots =>
    intro e directory
    by_cases here : e = d
    · subst here
      obtain ⟨up, alive, _, after, _⟩ := entries_eq h dir (fill (entry name i) (n.rest e))
      exact ⟨up, _, alive, after⟩
    · rw [entries_other here]
      exact h.dots e (dir_setRest.mp directory)
  case named =>
    intro e de directory member alive
    have old : n.Placed e de.inum := by
      by_cases here : e = d
      · subst here
        rw [rest_setRest h dir] at member
        rcases fill_mem member with rfl | before
        · exact placed
        · exact h.named e de dir before alive
      · rw [rest_other here] at member
        exact h.named e de (dir_setRest.mp directory) member alive
    constructor
    case allocated => rw [type_setRest]; exact old.allocated
    case not_root => exact old.not_root
    case apart => exact old.apart
    case up =>
      intro child
      rw [parent_setRest h dir]
      exact old.up (dir_setRest.mp child)
  case once =>
    intro c directory
    have child := dir_setRest.mp directory
    have nonzero : c ≠ 0 := h.nonzero fun free => not_dir_of_free free child
    rw [links c nonzero]
    have before := h.once c child
    split
    · rename_i here
      subst here
      rw [nameless child]
    · rw [Nat.add_zero]
      exact before
  case bound =>
    intro j allocated
    rw [type_setRest] at allocated
    have before := h.bound j allocated
    rw [nlink_setRest, count j (h.nonzero allocated)]
    exact before
  case exact =>
    intro neat j allocated
    rw [type_setRest] at allocated
    have before := h.exact neat j allocated
    rw [nlink_setRest, count j (h.nonzero allocated)]
    exact before
  case empty =>
    intro neat e directory detached de member
    have child := dir_setRest.mp directory
    have nonzero : e ≠ 0 := h.nonzero fun free => not_dir_of_free free child
    have more := links e nonzero
    have before : ¬ n.attached e := by
      rintro (root | positive)
      · exact detached (Or.inl root)
      · exact detached (Or.inr (by omega))
    have other : e ≠ d := by
      rintro rfl
      exact before (proper neat)
    rw [rest_other other] at member
    exact h.empty neat e child before de member
  case reach =>
    intro neat e directory yes
    have child := dir_setRest.mp directory
    have nonzero : e ≠ 0 := h.nonzero fun free => not_dir_of_free free child
    have above := path_mono kept (h.reach neat d dir (proper neat))
    by_cases here : e = i
    · subst here
      have member : entry name e ∈
          (n.setRest d (fill (entry name e) (n.rest d))).rest d := by
        rw [rest_setRest h dir]
        exact fill_new
      exact .entry above (dir_setRest.mpr dir) member live
    · have same := links e nonzero
      rw [if_neg (fun eq => here eq.symm), Nat.add_zero] at same
      have before : n.attached e := by
        rcases yes with root | positive
        · exact Or.inl root
        · exact Or.inr (by omega)
      exact path_mono kept (h.reach neat e child before)

end Enter

/-! ## An entry is removed -/

section Clear
variable {tidy : Prop} {credit : List Inum} {n : Nodes} {d j : Inum} {key : List Byte}
  {found : Dirent}

theorem firstNamed_mem {entries : Dir} (first : firstNamed key entries = some found) :
    found ∈ entries ∧ found.inum ≠ 0 := by
  have names := List.find?_some first
  exact ⟨List.mem_of_find?_eq_some first, (of_decide_eq_true names).1⟩

/-- sys_unlink() of an entry, which is not that of a directory with entries. -/
theorem Shape.clear (h : Shape tidy credit n) (dir : n.dir d)
    (first : firstNamed key (n.rest d) = some found)
    (hollow : n.dir found.inum → ∀ de ∈ n.rest found.inum, de.inum = 0) :
    Shape tidy (n.shown d found.inum ++ credit)
      (n.setRest d (clearFirst key (n.rest d))) := by
  obtain ⟨there, live⟩ := firstNamed_mem first
  have placed := h.named d found dir there live
  have count : ∀ j, j ≠ 0 →
      (n.setRest d (clearFirst key (n.rest d))).count j +
        (n.shown d found.inum ++ credit).count j = n.count j + credit.count j := by
    intro j nonzero
    have changed := count_setRest (j := j) (k := 1) (l := 0) h dir found.inum
      (clearFirst key (n.rest d)) (fun P dead same => ?_) nonzero
    · rw [count_shown]
      simp only [ite_self, Nat.add_zero] at changed
      omega
    · have cleared := countP_clearFirst (d := n.rest d) dead first
      rw [same found (entry [] found.inum) rfl] at cleared
      rw [cleared, ite_self, Nat.add_zero]
  have links : ∀ j, j ≠ 0 → (n.setRest d (clearFirst key (n.rest d))).links j +
      (if found.inum = j then 1 else 0) = n.links j := by
    intro j nonzero
    have changed := links_setRest h dir (clearFirst key (n.rest d)) j
    have cleared := countP_clearFirst (P := fun de => decide (de.inum = j))
      (fun de free => decide_eq_false (by rw [free]; exact nonzero.symm)) first
    simp only [decide_eq_true_eq] at cleared
    omega
  have old_entry : ∀ e de, de ∈ (n.setRest d (clearFirst key (n.rest d))).rest e →
      de.inum ≠ 0 → de ∈ n.rest e := by
    intro e de member alive
    by_cases here : e = d
    · subst here
      rw [rest_setRest h dir] at member
      rcases clearFirst_mem member with rfl | before
      · exact absurd rfl alive
      · exact before
    · rw [rest_other here] at member
      exact member
  constructor
  case zero => rw [type_setRest]; exact h.zero
  case root => exact dir_setRest.mpr h.root
  case rootUp => rw [parent_setRest h dir]; exact h.rootUp
  case dots =>
    intro e directory
    by_cases here : e = d
    · subst here
      obtain ⟨up, alive, _, after, _⟩ := entries_eq h dir (clearFirst key (n.rest e))
      exact ⟨up, _, alive, after⟩
    · rw [entries_other here]
      exact h.dots e (dir_setRest.mp directory)
  case named =>
    intro e de directory member alive
    have old := h.named e de (dir_setRest.mp directory) (old_entry e de member alive) alive
    constructor
    case allocated => rw [type_setRest]; exact old.allocated
    case not_root => exact old.not_root
    case apart => exact old.apart
    case up =>
      intro child
      rw [parent_setRest h dir]
      exact old.up (dir_setRest.mp child)
  case once =>
    intro c directory
    have child := dir_setRest.mp directory
    have fewer := links c (h.nonzero fun free => not_dir_of_free free child)
    have before := h.once c child
    omega
  case bound =>
    intro j allocated
    rw [type_setRest] at allocated
    have before := h.bound j allocated
    rw [nlink_setRest, count j (h.nonzero allocated)]
    exact before
  case exact =>
    intro neat j allocated
    rw [type_setRest] at allocated
    have before := h.exact neat j allocated
    rw [nlink_setRest, count j (h.nonzero allocated)]
    exact before
  case empty =>
    intro neat e directory detached de member
    have child := dir_setRest.mp directory
    have fewer := links e (h.nonzero fun free => not_dir_of_free free child)
    by_contra alive
    have before := old_entry e de member alive
    by_cases here : found.inum = e
    · subst here
      exact alive (hollow child de before)
    · rw [if_neg here, Nat.add_zero] at fewer
      have away : ¬ n.attached e := by
        rintro (root | positive)
        · exact detached (Or.inl root)
        · exact detached (Or.inr (by omega))
      exact alive (h.empty neat e child away de before)
  case reach =>
    intro neat e directory yes
    have child := dir_setRest.mp directory
    have fewer := links e (h.nonzero fun free => not_dir_of_free free child)
    have before : n.attached e := by
      rcases yes with root | positive
      · exact Or.inl root
      · exact Or.inr (by omega)
    have other : e ≠ found.inum := by
      rintro rfl
      have once := h.once _ child
      rw [if_pos rfl] at fewer
      rcases yes with root | positive
      · exact placed.not_root root
      · omega
    -- what has lost its entry is no directory, or one without entries
    have stays : ∀ {x}, n.Path x →
        x = found.inum ∨ (n.setRest d (clearFirst key (n.rest d))).Path x := by
      intro x path
      induction path with
      | root => exact Or.inr .root
      | entry above directory' member alive ih =>
          rename_i e' de
          rcases ih with rfl | above'
          · exact absurd (hollow directory' de member) alive
          · by_cases here : e' = d
            · subst here
              rcases clearFirst_live first member with same | stays
              · exact Or.inl same
              · refine Or.inr (.entry above' (dir_setRest.mpr directory') ?_ alive)
                rw [rest_setRest h dir]
                exact stays
            · refine Or.inr (.entry above' (dir_setRest.mpr directory') ?_ alive)
              rw [rest_other here]
              exact member
    exact (stays (h.reach neat e child before)).resolve_left other

end Clear

/-! ## Inodes come and go -/

section Inodes
variable {tidy : Prop} {credit : List Inum} {n : Nodes} {i : Inum}

theorem links_free (h : Shape tidy credit n) (free : (n i).type = 0) (live : i ≠ 0) :
    n.links i = 0 := by
  by_contra named
  obtain ⟨d, dir, de, member, same⟩ := links_of_pos (Nat.pos_of_ne_zero named)
  subst same
  exact (h.named d de dir member live).allocated free

/-- What one inode stands for does not change when no entry names it. -/
theorem subs_congr (node : Node) (nameless : n.links i = 0) {j : Inum}
    (other : j ≠ i) : Nodes.subs (Function.update n i node) j = n.subs j := by
  unfold Nodes.subs Nodes.rest
  rw [Function.update_of_ne other]
  split
  · rename_i dir
    apply List.countP_congr
    intro de member
    have away : de.inum ≠ i := by
      rintro rfl
      exact absurd (links_pos dir member) (by omega)
    rw [Function.update_of_ne away]
  · rfl

theorem named_congr {node : Node} {d j : Inum} (other : d ≠ i) :
    Nodes.named (Function.update n i node) d j = n.named d j := by
  unfold Nodes.named Nodes.rest
  rw [Function.update_of_ne other]

/-- A free inode gets a type and one link, before any entry names it. -/
theorem Shape.new (h : Shape tidy credit n) (free : (n i).type = 0) (live : i ≠ 0)
    (uncounted : i ∉ credit) (node : Node) (one : node.nlink = 1)
    (dots : node.type = T_DIR → ∃ up, up ≠ 0 ∧ node.entries = [entry dot i, entry dotdot up]) :
    Shape tidy (i :: credit) (Function.update n i node) := by
  have nameless := links_free h free live
  have not_root : i ≠ ROOTINO := by
    rintro rfl
    exact not_dir_of_free free h.root
  have mine : Function.update n i node i = node := Function.update_self i node n
  have hollow : node.type = T_DIR → Nodes.rest (Function.update n i node) i = [] := by
    intro dir
    obtain ⟨up, _, same⟩ := dots dir
    unfold Nodes.rest
    rw [mine, same]
    rfl
  have links : ∀ j, Nodes.links (Function.update n i node) j = n.links j := by
    intro j
    have before : n.named i j = 0 := if_neg fun dir => not_dir_of_free free dir
    have after : Nodes.named (Function.update n i node) i j = 0 := by
      unfold Nodes.named
      rw [mine]
      split
      · rename_i dir
        rw [hollow dir]
        rfl
      · rfl
    have changed : Nodes.links (Function.update n i node) j + n.named i j =
        n.links j + Nodes.named (Function.update n i node) i j :=
      links_update fun e other => named_congr other
    omega
  have dir_other : ∀ e, e ≠ i → (Nodes.dir (Function.update n i node) e ↔ n.dir e) := by
    intro e other
    unfold Nodes.dir
    rw [Function.update_of_ne other]
  have rest_other : ∀ e, e ≠ i → Nodes.rest (Function.update n i node) e = n.rest e := by
    intro e other
    unfold Nodes.rest
    rw [Function.update_of_ne other]
  have parent_other : ∀ e, e ≠ i → Nodes.parent (Function.update n i node) e = n.parent e := by
    intro e other
    unfold Nodes.parent
    rw [Function.update_of_ne other]
  have count_other : ∀ j, j ≠ i → Nodes.count (Function.update n i node) j = n.count j := by
    intro j other
    unfold Nodes.count
    rw [links, subs_congr node nameless other]
  have count_mine : Nodes.count (Function.update n i node) i = 0 := by
    have subs : Nodes.subs (Function.update n i node) i = 0 := by
      unfold Nodes.subs
      split
      · rename_i dir
        rw [mine] at dir
        rw [hollow dir]
        rfl
      · rfl
    unfold Nodes.count
    rw [links, nameless, subs, if_neg not_root]
  have credit_other : ∀ j, j ≠ i → (i :: credit).count j = credit.count j := by
    intro j other
    exact List.count_cons_of_ne fun same => other same.symm
  have credit_mine : (i :: credit).count i = 1 := by
    rw [List.count_cons_self, List.count_eq_zero.mpr uncounted]
  have kept : ∀ e, n.dir e → Nodes.dir (Function.update n i node) e ∧
      ∀ de ∈ n.rest e, de.inum ≠ 0 →
        ∃ de' ∈ Nodes.rest (Function.update n i node) e, de'.inum = de.inum := by
    intro e directory
    have other : e ≠ i := by
      rintro rfl
      exact not_dir_of_free free directory
    refine ⟨(dir_other e other).mpr directory, fun de member _ => ⟨de, ?_, rfl⟩⟩
    rw [rest_other e other]
    exact member
  constructor
  case zero =>
    rw [Function.update_of_ne live.symm]
    exact h.zero
  case root => exact (dir_other _ not_root.symm).mpr h.root
  case rootUp =>
    rw [parent_other _ not_root.symm]
    exact h.rootUp
  case dots =>
    intro d directory
    by_cases here : d = i
    · subst here
      unfold Nodes.dir at directory
      rw [mine] at directory ⊢
      obtain ⟨up, alive, same⟩ := dots directory
      exact ⟨up, [], alive, same⟩
    · rw [Function.update_of_ne here]
      exact h.dots d ((dir_other d here).mp directory)
  case named =>
    intro d de directory member alive
    by_cases here : d = i
    · subst here
      unfold Nodes.dir at directory
      rw [mine] at directory
      rw [hollow directory] at member
      cases member
    · rw [rest_other d here] at member
      have before := (dir_other d here).mp directory
      have placed := h.named d de before member alive
      have away : de.inum ≠ i := by
        intro same
        exact placed.allocated (same ▸ free)
      constructor
      case allocated =>
        rw [Function.update_of_ne away]
        exact placed.allocated
      case not_root => exact placed.not_root
      case apart => exact placed.apart
      case up =>
        intro child
        rw [parent_other _ away]
        exact placed.up ((dir_other _ away).mp child)
  case once =>
    intro c directory
    rw [links]
    by_cases here : c = i
    · rw [here, nameless]
      exact Nat.zero_le 1
    · exact h.once c ((dir_other c here).mp directory)
  case bound =>
    intro j typed
    by_cases here : j = i
    · subst here
      rw [mine, one, count_mine, credit_mine]
      exact Int.le_refl 1
    · rw [Function.update_of_ne here] at typed ⊢
      rw [count_other j here, credit_other j here]
      exact h.bound j typed
  case exact =>
    intro neat j typed
    by_cases here : j = i
    · subst here
      rw [mine, one, count_mine, credit_mine]
      rfl
    · rw [Function.update_of_ne here] at typed ⊢
      rw [count_other j here, credit_other j here]
      exact h.exact neat j typed
  case empty =>
    intro neat d directory detached de member
    by_cases here : d = i
    · subst here
      unfold Nodes.dir at directory
      rw [mine] at directory
      rw [hollow directory] at member
      cases member
    · rw [rest_other d here] at member
      refine h.empty neat d ((dir_other d here).mp directory) ?_ de member
      rintro (root | positive)
      · exact detached (Or.inl root)
      · refine detached (Or.inr ?_)
        rw [links]
        exact positive
  case reach =>
    intro neat d directory yes
    have before : n.attached d := by
      rcases yes with root | positive
      · exact Or.inl root
      · rw [links] at positive
        exact Or.inr positive
    have other : d ≠ i := by
      rintro rfl
      rcases before with root | positive
      · exact not_root root
      · omega
    exact path_mono kept (h.reach neat d ((dir_other d other).mp directory) before)

/-- An inode without links is freed. -/
theorem Shape.free (h : Shape tidy credit n) (allocated : (n i).type ≠ 0)
    (unlinked : (n i).nlink = 0) (node : Node) (freed : node.type = 0) :
    Shape tidy credit (Function.update n i node) := by
  have live := h.nonzero allocated
  have none_left := h.bound i allocated
  rw [unlinked] at none_left
  have nothing : n.count i = 0 ∧ credit.count i = 0 := by omega
  have parts : n.links i = 0 ∧ n.subs i = 0 ∧ i ≠ ROOTINO := by
    have zero := nothing.1
    unfold Nodes.count at zero
    refine ⟨by omega, by omega, ?_⟩
    intro root
    rw [if_pos root] at zero
    omega
  obtain ⟨nameless, childless, not_root⟩ := parts
  have mine : Function.update n i node i = node := Function.update_self i node n
  have gone : ¬ Nodes.dir (Function.update n i node) i := not_dir_of_free (by rw [mine, freed])
  have other_of_dir : ∀ e, Nodes.dir (Function.update n i node) e → e ≠ i := by
    rintro e directory rfl
    exact gone directory
  have dir_other : ∀ e, e ≠ i → (Nodes.dir (Function.update n i node) e ↔ n.dir e) := by
    intro e other
    unfold Nodes.dir
    rw [Function.update_of_ne other]
  have rest_other : ∀ e, e ≠ i → Nodes.rest (Function.update n i node) e = n.rest e := by
    intro e other
    unfold Nodes.rest
    rw [Function.update_of_ne other]
  have parent_other : ∀ e, e ≠ i → Nodes.parent (Function.update n i node) e = n.parent e := by
    intro e other
    unfold Nodes.parent
    rw [Function.update_of_ne other]
  have links : ∀ j, Nodes.links (Function.update n i node) j + n.named i j = n.links j := by
    intro j
    have after : Nodes.named (Function.update n i node) i j = 0 := if_neg gone
    have changed : Nodes.links (Function.update n i node) j + n.named i j =
        n.links j + Nodes.named (Function.update n i node) i j :=
      links_update fun e other => named_congr other
    omega
  have detached : ¬ n.attached i := by
    rintro (root | positive)
    · exact not_root root
    · omega
  have hollow : tidy → ∀ j, j ≠ 0 → n.named i j = 0 := by
    intro neat j nonzero
    by_contra some_entry
    obtain ⟨dir, de, member, same⟩ := named_of_pos (Nat.pos_of_ne_zero some_entry)
    exact nonzero (same ▸ h.empty neat i dir detached de member)
  have unnamed : ∀ {d de}, n.dir d → de ∈ n.rest d → de.inum ≠ i := by
    rintro d de dir member rfl
    exact absurd (links_pos dir member) (by omega)
  have stays : ∀ {x}, n.Path x → x ≠ i ∧ Nodes.Path (Function.update n i node) x := by
    intro x path
    induction path with
    | root => exact ⟨not_root.symm, .root⟩
    | entry above dir member alive ih =>
        rename_i e de
        refine ⟨unnamed dir member, .entry ih.2 ((dir_other e ih.1).mpr dir) ?_ alive⟩
        rw [rest_other e ih.1]
        exact member
  have count : ∀ j, (n j).type ≠ 0 → j ≠ i →
      Nodes.count (Function.update n i node) j + n.named i j = n.count j := by
    intro j typed other
    have fewer := links j
    have same := subs_congr node nameless other
    unfold Nodes.count
    omega
  constructor
  case zero =>
    rw [Function.update_of_ne live.symm]
    exact h.zero
  case root => exact (dir_other _ not_root.symm).mpr h.root
  case rootUp =>
    rw [parent_other _ not_root.symm]
    exact h.rootUp
  case dots =>
    intro d directory
    have other := other_of_dir d directory
    rw [Function.update_of_ne other]
    exact h.dots d ((dir_other d other).mp directory)
  case named =>
    intro d de directory member alive
    have other := other_of_dir d directory
    rw [rest_other d other] at member
    have before := (dir_other d other).mp directory
    have placed := h.named d de before member alive
    have away := unnamed before member
    constructor
    case allocated =>
      rw [Function.update_of_ne away]
      exact placed.allocated
    case not_root => exact placed.not_root
    case apart => exact placed.apart
    case up =>
      intro child
      rw [parent_other _ away]
      exact placed.up ((dir_other _ away).mp child)
  case once =>
    intro c directory
    have other := other_of_dir c directory
    have before := h.once c ((dir_other c other).mp directory)
    have fewer := links c
    omega
  case bound =>
    intro j typed
    by_cases here : j = i
    · subst here
      rw [mine] at typed
      exact absurd freed typed
    · rw [Function.update_of_ne here] at typed ⊢
      have before := h.bound j typed
      have fewer := count j typed here
      omega
  case exact =>
    intro neat j typed
    by_cases here : j = i
    · subst here
      rw [mine] at typed
      exact absurd freed typed
    · rw [Function.update_of_ne here] at typed ⊢
      have before := h.exact neat j typed
      have fewer := count j typed here
      have empty := hollow neat j (h.nonzero typed)
      omega
  case empty =>
    intro neat d directory away de member
    have other := other_of_dir d directory
    have before := (dir_other d other).mp directory
    rw [rest_other d other] at member
    refine h.empty neat d before ?_ de member
    rintro (root | positive)
    · exact away (Or.inl root)
    · refine away (Or.inr ?_)
      have same := links d
      rw [hollow neat d (h.nonzero fun free => not_dir_of_free free before)] at same
      omega
  case reach =>
    intro neat d directory yes
    have other := other_of_dir d directory
    have before : n.attached d := by
      rcases yes with root | positive
      · exact Or.inl root
      · have more := links d
        exact Or.inr (by omega)
    exact (stays (h.reach neat d ((dir_other d other).mp directory) before)).2

end Inodes

end Xv6.Public1.Tree
