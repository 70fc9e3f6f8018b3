import Xv6.Public1.TreeLookup

/-!
# System calls on the tree (xv6-public_1)

What each system call keeps: the counts of links and references, and every directory
but those that the call gives up.
-/

set_option autoImplicit false

namespace Xv6.Public1.Tree

open Xv6.Lib.Words
open Xv6.Lib.CString
open Xv6.Lib.Outcome
open Xv6.Lib.References
open Xv6.Public1.Directory

/-! ## Directories that a call gives up -/

/-- The references that a process gives up in a call. -/
def drops (p : Pid) : Call → Pid × Option Fd → Prop
  | .chdir _, v => v = (p, none)
  | .close fd, v => v = (p, some fd)
  | .exit, v => v.1 = p
  | .mkdir _, _ | .mknod _, _ | .openFile .., _ | .link .., _ | .unlink _, _ => False

/-- The call leaves `i` without links, or gives up a reference to it when it has none. -/
def Unlinks (s : Sys) (proc : Proc) (i : Inum) : Call → Prop
  | .unlink path => (s.node i).nlink = 1 ∧ ∃ dp name ip off,
      Nodes.resolve s.node proc.cwd path true = some (dp, name) ∧
      namecmp name dot ≠ 0 ∧ namecmp name dotdot ≠ 0 ∧
      Directory.dirlookup (s.node dp).entries name = some (ip, off) ∧ Nodes.dir s.node ip ∧
      Sys.isdirempty (s.node ip).entries = true ∧ (i = ip ∨ i = dp)
  | .chdir path => (s.node i).nlink = 0 ∧ ∃ d name,
      Nodes.resolve s.node proc.cwd path false = some (d, name) ∧ Nodes.dir s.node d ∧ d ≠ i
  | .close _ | .exit => (s.node i).nlink = 0
  | .mkdir _ | .mknod _ | .openFile .. | .link .. => False

/-- The call frees the directory `i`. -/
structure GivesUp (s : Sys) (p : Pid) (proc : Proc) (call : Call) (i : Inum) : Prop where
  dir : Nodes.dir s.node i
  unheld : ∀ v, s.var v = some i → drops p call v
  unlinks : Unlinks s proc i call

/-- The current directory of a process after a call of `p`. -/
def cwdAfter (s : Sys) (p : Pid) (proc : Proc) (call : Call) (q : Pid) : Option Inum :=
  match call with
  | .exit => if q = p then none else (s.proc q).map Proc.cwd
  | .chdir path =>
      match Nodes.resolve s.node proc.cwd path false with
      | some (d, _) =>
          if q = p ∧ (s.node d).type = T_DIR then some d else (s.proc q).map Proc.cwd
      | none => (s.proc q).map Proc.cwd
  | .mkdir _ | .mknod _ | .openFile .. | .link .. | .unlink _ | .close _ =>
      (s.proc q).map Proc.cwd

/-- The directory that a call writes a new entry to. -/
def addsTo (s : Sys) (proc : Proc) : Call → Option Inum
  | .mkdir path | .mknod path | .openFile path true _ _ => unbound path
  | .link old new =>
      match Nodes.resolve s.node proc.cwd old false with
      | some (ip, _) => if (s.node ip).type = T_DIR then none else unbound new
      | none => none
  | .openFile _ false _ _ | .unlink _ | .chdir _ | .close _ | .exit => none
where
  /-- The parent, if the last element is not in it. -/
  unbound (path : List Byte) : Option Inum :=
    match Nodes.resolve s.node proc.cwd path true with
    | some (dp, name) =>
        match Directory.dirlookup (s.node dp).entries name with
        | some _ => none
        | none => some dp
    | none => none

/-! ## Facts about the parts of a call -/

section Parts
variable {tidy : Prop} {hand credit : List Inum} {s t : Sys} {n n' : Nodes} {i d dp : Inum}
  {name : List Byte} {G G' : Inum → Prop}

theorem Keeps.mono (h : Keeps G n n') (weaker : ∀ d, G d → G' d) : Keeps G' n n' :=
  fun d dir away => h d dir fun given => away (weaker d given)

theorem Steady.cons (h : Steady hand s) (i : Inum) : Steady (i :: hand) s := by
  intro j allocated unlinked
  have before := h j allocated unlinked
  have more : hand.count j ≤ (i :: hand).count j := List.count_le_count_cons
  omega

/-- A reference is given up; what is freed then is no directory, or one of `G`. -/
theorem Inv.release (h : Inv tidy (i :: hand) credit s)
    (given : Last hand s i → Nodes.dir s.node i → G i) :
    Inv tidy hand credit (s.iput i) ∧ Keeps G s.node (s.iput i).node := by
  obtain ⟨inv, ⟨_, same⟩ | ⟨last, same⟩⟩ := h.iput
  · refine ⟨inv, ?_⟩
    rw [same]
    exact Keeps.refl _
  · refine ⟨inv, ?_⟩
    rw [same]
    exact keeps_update fun dir away => absurd (given last dir) away

/-- What the counts say of a directory that has more links than are still to be shown. -/
theorem attached_of_nlink (h : Shape tidy credit n) (neat : tidy) (dir : n.dir d)
    (more : (credit.count d : Int) < (n d).nlink) : n.attached d := by
  by_contra detached
  have exact := h.exact neat d (allocated_of_dir dir)
  have hollow := h.empty neat d dir detached
  have childless : n.subs d = 0 := by
    unfold Nodes.subs
    rw [if_pos (show (n d).type = T_DIR from dir)]
    apply List.countP_eq_zero.mpr
    intro de member
    rw [hollow de member]
    intro child
    have typed : (n 0).type = T_DIR := of_decide_eq_true child
    exact not_dir_of_free h.zero typed
  have nameless : n.links d = 0 := by
    by_contra named
    exact detached (Or.inr (Nat.pos_of_ne_zero named))
  have not_root : d ≠ ROOTINO := fun root => detached (Or.inl root)
  unfold Nodes.count at exact
  rw [childless, nameless, if_neg not_root] at exact
  omega

/-- The inode and the state that ialloc() returns. -/
theorem ialloc_ends (s : Sys) (type : Int) :
    Ends (s.ialloc type) (fun e => e = .noInodes) fun r =>
      r.1 ≠ 0 ∧ (s.node r.1).type = 0 ∧
        r.2 = (s.setNode r.1 { type := type, nlink := 0, entries := [] }).iget r.1 := by
  unfold Sys.ialloc
  split
  · exact ends_error rfl
  · rename_i inum found
    have test := List.find?_some found
    have free : inum ≠ 0 ∧ (s.node (BitVec.ofNat 16 inum)).type = 0 := of_decide_eq_true test
    have small : inum < ninodes := List.mem_range.mp (List.mem_of_find?_eq_some found)
    refine ⟨?_, free.2, rfl⟩
    intro zero
    have value := congrArg BitVec.toNat zero
    rw [BitVec.toNat_ofNat] at value
    have bound : inum < 2 ^ 16 := Nat.lt_trans small (by decide)
    rw [Nat.mod_eq_of_lt bound] at value
    exact free.1 value

/-- dirlink() of a name that is not in the directory. -/
theorem dirlink_absent (dir : Nodes.dir s.node dp)
    (absent : Directory.dirlookup (s.node dp).entries name = none) (inum : Inum) :
    Ends (s.dirlink dp name inum) (fun e => e = .dirlink) fun r =>
      r = (0, s.setEntries dp (fill (entry name inum) (s.node dp).entries)) := by
  have type : (s.node dp).type = T_DIR := dir
  have looked : s.dirlookup dp name = pure (none, s) := by
    unfold Sys.dirlookup
    rw [if_neg (not_not.mpr type), absent]
  unfold Sys.dirlink
  rw [looked, pure_bind]
  dsimp only
  unfold Directory.dirlink
  rw [absent]
  dsimp only
  split
  · exact ends_error rfl
  · rename_i entries result written
    split at written
    · cases written
    · cases written
      rw [writeEntry_hole]
      exact ends_pure rfl

/-- dirlink() of a name that is in the directory. -/
theorem dirlink_present {off : Nat} (dir : Nodes.dir s.node dp)
    (found : Directory.dirlookup (s.node dp).entries name = some (i, off)) (inum : Inum) :
    s.dirlink dp name inum = pure (-1, (s.iget i).iput i) := by
  have type : (s.node dp).type = T_DIR := dir
  have looked : s.dirlookup dp name = pure (some (i, off), s.iget i) := by
    unfold Sys.dirlookup
    rw [if_neg (not_not.mpr type), found]
  unfold Sys.dirlink
  rw [looked]
  rfl

theorem setEntries_node (s : Sys) (i : Inum) (entries : Dir) :
    (s.setEntries i entries).node = Function.update s.node i { s.node i with entries := entries } :=
  rfl

theorem setEntries_setEntries (s : Sys) (i : Inum) (entries entries' : Dir) :
    (s.setEntries i entries).setEntries i entries' = s.setEntries i entries' := by
  unfold Sys.setEntries Sys.setNode
  simp only [Function.update_self, Function.update_idem]

theorem createDots_ends (dir : Nodes.dir s.node i) (empty : (s.node i).entries = []) (live : i ≠ 0)
    (dp : Inum) :
    Ends (s.createDots i dp) (fun e => e = .dirlink) fun t =>
      t = s.setEntries i [entry dot i, entry dotdot dp] := by
  have none_yet : Directory.dirlookup (s.node i).entries dot = none := by
    rw [empty]
    rfl
  have first : ((s.setEntries i [entry dot i]).node i).entries = [entry dot i] := by
    rw [setEntries_node, Function.update_self]
  have one_yet : Directory.dirlookup ((s.setEntries i [entry dot i]).node i).entries dotdot =
      none := by
    rw [first]
    unfold Directory.dirlookup
    rw [lookupLoop_cons, if_neg]
    · rfl
    · intro names
      exact dot_ne_dotdot ((key_entry dot i).symm.trans names.2)
  have dir' : Nodes.dir (s.setEntries i [entry dot i]).node i := by
    unfold Nodes.dir
    rw [setEntries_node, Function.update_self]
    exact dir
  unfold Sys.createDots
  apply ends_bind
  refine ends_mono (dirlink_absent dir none_yet i) (fun e failed => failed) ?_
  rintro r rfl
  rw [empty]
  dsimp only
  rw [if_neg (by decide)]
  apply ends_bind
  refine ends_mono (dirlink_absent dir' one_yet dp) (fun e failed => failed) ?_
  rintro r rfl
  rw [first]
  dsimp only
  rw [if_neg (by decide)]
  refine ends_pure ?_
  rw [setEntries_setEntries]
  rw [fill, if_neg (show (entry dot i).inum ≠ 0 from live)]
  rfl

/-- Entries are written after `.` and `..`. -/
theorem fill_rest (h : Shape tidy credit n) (dir : n.dir d) (name : List Byte) (i : Inum) :
    fill (entry name i) (n d).entries =
      (n d).entries.take 2 ++ fill (entry name i) (n.rest d) := by
  obtain ⟨up, live, same, _, _⟩ := entries_eq h dir []
  have nonzero : d ≠ 0 := h.nonzero (allocated_of_dir dir)
  rw [same, fill, if_neg (show (entry dot d).inum ≠ 0 from nonzero), fill,
    if_neg (show (entry dotdot up).inum ≠ 0 from live)]
  rfl

/-- Without `.` and `..`, dirlookup() finds the first of the other entries. -/
theorem found_rest {off : Nat} (h : Shape tidy credit n) (dir : n.dir d)
    (not_dot : namecmp name dot ≠ 0) (not_dotdot : namecmp name dotdot ≠ 0)
    (found : Directory.dirlookup (n d).entries name = some (i, off)) :
    (∃ de, firstNamed (key name) (n.rest d) = some de ∧ de.inum = i) ∧
      writeEntry (n d).entries off noEntry =
        (n d).entries.take 2 ++ clearFirst (key name) (n.rest d) := by
  obtain ⟨up, _, same, _, _⟩ := entries_eq h dir []
  have not_first : ¬ Names (entry dot d) (key name) := fun names =>
    not_dot ((namecmp_eq_zero_iff name dot).mpr (names.2.symm.trans (key_entry dot d)))
  have not_second : ¬ Names (entry dotdot up) (key name) := fun names =>
    not_dotdot ((namecmp_eq_zero_iff name dotdot).mpr (names.2.symm.trans (key_entry dotdot up)))
  constructor
  · rw [same] at found
    unfold Directory.dirlookup at found
    rw [lookupLoop_cons, if_neg not_first, lookupLoop_cons, if_neg not_second] at found
    have first : ∀ (l : Dir) (o : Nat), lookupLoop name l o = some (i, off) →
        ∃ de, firstNamed (key name) l = some de ∧ de.inum = i := by
      intro l
      induction l with
      | nil =>
          intro o never
          cases never
      | cons de rest ih =>
          intro o here
          rw [lookupLoop_cons] at here
          unfold firstNamed
          rw [List.find?_cons]
          by_cases names : Names de (key name)
          · rw [if_pos names] at here
            rw [decide_eq_true names]
            cases here
            exact ⟨de, rfl, rfl⟩
          · rw [if_neg names] at here
            rw [decide_eq_false names]
            exact ih _ here
    exact first _ _ found
  · have place : lookupLoop name (n d).entries 0 = some (i, 0 + off) := by
      rw [Nat.zero_add]
      exact found
    rw [writeEntry_found place, same, clearFirst, if_neg not_first, clearFirst, if_neg not_second]
    rfl

end Parts

/-! ## A new entry -/

section Enter
variable {tidy : Prop} {hand credit : List Inum} {s t : Sys} {n : Nodes} {i dp : Inum}
  {name : List Byte}

theorem Steady.mono (h : Steady hand s) (proc : t.proc = s.proc)
    (links : ∀ j, (t.node j).type ≠ 0 → (t.node j).nlink = 0 →
      (s.node j).type ≠ 0 ∧ (s.node j).nlink = 0) : Steady hand t := by
  intro j allocated unlinked
  obtain ⟨before, none_left⟩ := links j allocated unlinked
  rw [var_congr proc]
  exact h j before none_left

/-- dirlink() of an inode whose link is counted already. -/
theorem Inv.enter (h : Inv tidy hand (Nodes.shown s.node dp i ++ credit) s)
    (dir : Nodes.dir s.node dp) (placed : Nodes.Placed s.node dp i)
    (nameless : Nodes.dir s.node i → Nodes.links s.node i = 0)
    (proper : tidy → Nodes.attached s.node dp)
    (absent : Directory.dirlookup (s.node dp).entries name = none) :
    Ends (s.dirlink dp name i) (fun e => e = .dirlink) fun r =>
      r.1 = 0 ∧ Inv tidy hand credit r.2 ∧
        r.2.node = Nodes.setRest s.node dp (fill (entry name i) (Nodes.rest s.node dp)) ∧
        r.2.proc = s.proc := by
  refine ends_mono (dirlink_absent dir absent i) (fun e failed => failed) ?_
  rintro r rfl
  have same := fill_rest h.shape dir name i
  refine ⟨rfl, ?_, ?_, rfl⟩
  · exact h.setEntries same (h.shape.enter dir placed nameless proper)
  · rw [same]
    rfl

theorem keeps_setRest {G : Inum → Prop} (h : Shape tidy credit n) (dir : n.dir dp) (rest : Dir) :
    Keeps G n (n.setRest dp rest) := by
  obtain ⟨up, _, before, after, _⟩ := entries_eq h dir rest
  unfold Nodes.setRest at after ⊢
  refine keeps_update fun _ _ => ⟨rfl, ?_⟩
  rw [Function.update_self] at after
  rw [after, before]
  rfl

end Enter

/-! ## create() -/

section Create
variable {tidy : Prop} {hand credit : List Inum} {s t : Sys} {n : Nodes} {i dp : Inum}
  {type : Int} {name : List Byte}

/-- A new inode with its `.` and `..`, counted by its parent, before it has a name. -/
def Nodes.made (n : Nodes) (dp i : Inum) (type : Int) : Nodes :=
  if type = T_DIR then
    Function.update (Function.update n i ⟨type, 1, [entry dot i, entry dotdot dp]⟩) dp
      { n dp with nlink := (n dp).nlink + 1 }
  else Function.update n i ⟨type, 1, []⟩

theorem apart_of_free (dir : n.dir dp) (free : (n i).type = 0) : i ≠ dp := by
  rintro rfl
  exact not_dir_of_free free dir

theorem made_new (dir : n.dir dp) (free : (n i).type = 0) :
    n.made dp i type i =
      ⟨type, 1, if type = T_DIR then [entry dot i, entry dotdot dp] else []⟩ := by
  unfold Nodes.made
  split
  · rw [Function.update_of_ne (apart_of_free dir free), Function.update_self]
  · rw [Function.update_self]

theorem made_parent (dir : n.dir dp) (free : (n i).type = 0) :
    n.made dp i type dp =
      { n dp with nlink := (n dp).nlink + if type = T_DIR then 1 else 0 } := by
  unfold Nodes.made
  split
  · rw [Function.update_self]
  · rw [Function.update_of_ne (apart_of_free dir free).symm, Int.add_zero]

theorem made_other {j : Inum} (new : j ≠ i) (parent : j ≠ dp) : n.made dp i type j = n j := by
  unfold Nodes.made
  split
  · rw [Function.update_of_ne parent, Function.update_of_ne new]
  · rw [Function.update_of_ne new]

theorem made_type (dir : n.dir dp) (free : (n i).type = 0) {j : Inum} (new : j ≠ i) :
    (n.made dp i type j).type = (n j).type := by
  by_cases parent : j = dp
  · subst parent
    rw [made_parent dir free]
  · rw [made_other new parent]

theorem made_entries (dir : n.dir dp) (free : (n i).type = 0) {j : Inum} (new : j ≠ i) :
    (n.made dp i type j).entries = (n j).entries := by
  by_cases parent : j = dp
  · subst parent
    rw [made_parent dir free]
  · rw [made_other new parent]

theorem keeps_made {G : Inum → Prop} (dir : n.dir dp) (free : (n i).type = 0) :
    Keeps G n (n.made dp i type) := by
  intro d directory _
  have new : d ≠ i := fun same => not_dir_of_free (same ▸ free) directory
  unfold Nodes.dir Nodes.parent
  rw [made_type dir free new, made_entries dir free new]
  exact ⟨directory, rfl⟩

theorem Shape.made (h : Shape tidy [] n) (dir : n.dir dp) (free : (n i).type = 0) (live : i ≠ 0) :
    Shape tidy ((n.made dp i type).shown dp i) (n.made dp i type) := by
  have up : dp ≠ 0 := h.nonzero (allocated_of_dir dir)
  have apart := apart_of_free dir free
  unfold Nodes.shown
  rw [made_new dir free]
  by_cases directory : type = T_DIR
  · have new := h.new free live List.not_mem_nil ⟨type, 1, [entry dot i, entry dotdot dp]⟩ rfl
      fun _ => ⟨dp, up, rfl⟩
    have same : Function.update n i ⟨type, 1, [entry dot i, entry dotdot dp]⟩ dp = n dp :=
      Function.update_of_ne apart.symm _ _
    have others : ∀ j, j ≠ dp → [i, dp].count j = [i].count j := by
      intro j other
      have away : dp ≠ j := fun eq => other eq.symm
      simp [List.count_cons, away]
    have mine : (n dp).nlink + 1 + ([i].count dp : Int) = (n dp).nlink + ([i, dp].count dp : Int) := by
      simp [apart]
    have linked := new.nlink (i := dp) ((n dp).nlink + 1) others (by rw [same]; exact mine)
    unfold Nodes.made
    rw [if_pos directory, if_pos directory]
    rw [same] at linked
    exact linked
  · have new := h.new free live List.not_mem_nil ⟨type, 1, []⟩ rfl
      fun given => absurd given directory
    unfold Nodes.made
    rw [if_neg directory, if_neg directory]
    exact new

theorem placed_made (h : Shape tidy [] n) (dir : n.dir dp) (free : (n i).type = 0)
    (typed : type ≠ 0) : (n.made dp i type).Placed dp i := by
  have new : n.made dp i type i = _ := made_new dir free
  constructor
  case allocated =>
    rw [new]
    exact typed
  case not_root =>
    rintro rfl
    exact not_dir_of_free free h.root
  case apart => exact apart_of_free dir free
  case up =>
    intro directory
    unfold Nodes.dir at directory
    unfold Nodes.parent
    rw [new] at directory ⊢
    rw [if_pos directory]
    rfl

/-- The references when the new inode is in hand as well. -/
theorem Inv.made (h : Inv tidy [dp] [] s) (dir : Nodes.dir s.node dp) (locked : s.valid dp = true)
    (free : (s.node i).type = 0) (live : i ≠ 0) (typed : type ≠ 0)
    (node : t.node = Nodes.made s.node dp i type) (proc : t.proc = s.proc)
    (ref : t.ref = Function.update s.ref i (s.ref i + 1))
    (valid : t.valid = Function.update s.valid i true) :
    Inv tidy [i, dp] (Nodes.shown t.node dp i) t := by
  constructor
  case shape =>
    rw [node]
    exact h.shape.made dir free live
  case held =>
    refine h.held.fresh free ?_ ?_ ?_ ?_ proc ref valid
    · rw [node, made_new dir free]
      exact typed
    · rw [node, made_new dir free]
    · intro j other
      rw [node, made_type dir free other]
    · intro j other unlinked
      rw [node] at unlinked
      by_cases parent : j = dp
      · subst parent
        exact Or.inr ⟨locked, List.count_pos_iff.mpr List.mem_cons_self⟩
      · rw [made_other other parent] at unlinked
        exact Or.inl unlinked

theorem Steady.made (h : Steady hand s) (shape : Shape tidy [] s.node) (dir : Nodes.dir s.node dp)
    (free : (s.node i).type = 0) (node : t.node = Nodes.made s.node dp i type)
    (proc : t.proc = s.proc) : Steady hand t := by
  refine h.mono proc ?_
  intro j allocated unlinked
  rw [node] at allocated unlinked
  by_cases new : j = i
  · subst new
    rw [made_new dir free] at unlinked
    cases unlinked
  · by_cases parent : j = dp
    · subst parent
      have positive := shape.bound j (allocated_of_dir dir)
      rw [made_parent dir free] at unlinked
      dsimp only at unlinked
      refine ⟨allocated_of_dir dir, ?_⟩
      split at unlinked
      · omega
      · omega
    · rw [made_other new parent] at allocated unlinked
      exact ⟨allocated, unlinked⟩

/-- ilock() of what ialloc() has returned, and the store to nlink. -/
theorem ilock_fresh (unused : s.ref i = 0) (typed : type ≠ 0) :
    ∃ t, ((s.setNode i ⟨type, 0, []⟩).iget i).ilock i = pure t ∧
      (t.setNlink i 1).node = Function.update s.node i ⟨type, 1, []⟩ ∧ t.proc = s.proc ∧
      t.ref = Function.update s.ref i (s.ref i + 1) ∧
      t.valid = Function.update s.valid i true := by
  have taken : (s.setNode i ⟨type, 0, []⟩).iget i =
      ((s.setNode i ⟨type, 0, []⟩).setRef i 1).setValid i false := by
    unfold Sys.iget
    exact if_neg (by simp [Sys.setNode, unused])
  refine ⟨(((s.setNode i ⟨type, 0, []⟩).setRef i 1).setValid i false).setValid i true, ?_, ?_,
    rfl, ?_, ?_⟩
  · rw [taken]
    unfold Sys.ilock
    rw [if_neg, if_neg, if_neg]
    · simpa [Sys.setNode, Sys.setRef, Sys.setValid] using typed
    · simp [Sys.setValid]
    · simp [Sys.setRef, Sys.setValid]
  · simp [Sys.setNlink, Sys.setNode, Sys.setRef, Sys.setValid]
  · simp [Sys.setNode, Sys.setRef, Sys.setValid, unused]
  · simp [Sys.setNode, Sys.setRef, Sys.setValid]

/-- What a call has done that gives up no directory; it still has the references of `hand`. -/
structure Quiet (tidy : Prop) (hand : List Inum) (s t : Sys) : Prop where
  inv : Inv tidy hand [] t
  steady : Steady [] t
  keeps : Keeps (fun _ => False) s.node t.node
  proc : t.proc = s.proc

theorem Quiet.of_same (start : Inv tidy [] [] s) (inv : Inv tidy hand [] t)
    (node : t.node = s.node) (proc : t.proc = s.proc) : Quiet tidy hand s t := by
  refine ⟨inv, start.held.steady.congr node proc, ?_, proc⟩
  rw [node]
  exact Keeps.refl _

theorem Quiet.put (h : Quiet tidy (i :: hand) s t) (steady : Steady hand t) :
    Quiet tidy hand s (t.iput i) := by
  obtain ⟨inv, same⟩ := h.inv.put steady
  have proc := iput_proc t i
  refine ⟨inv, h.steady.congr same proc, ?_, proc.trans h.proc⟩
  rw [same]
  exact h.keeps

theorem Quiet.perm {hand' : List Inum} (h : Quiet tidy hand s t) (same : hand'.Perm hand) :
    Quiet tidy hand' s t :=
  ⟨⟨h.inv.shape, h.inv.held.perm same⟩, h.steady, h.keeps, h.proc⟩

/-- What was done before changes nothing. -/
theorem Quiet.after {r : Sys} (h : Quiet tidy hand s t) (node : s.node = r.node)
    (proc : s.proc = r.proc) : Quiet tidy hand r t := by
  refine ⟨h.inv, h.steady, ?_, h.proc.trans proc⟩
  rw [← node]
  exact h.keeps

/-- The end of create(): the parent gets its new entry and is put. -/
theorem create_enter_ends (start : Inv tidy [dp] [] s) (steady : Steady [] s)
    (dir : Nodes.dir s.node dp) (locked : s.valid dp = true) (free : (s.node i).type = 0)
    (live : i ≠ 0) (typed : type ≠ 0)
    (absent : Directory.dirlookup (s.node dp).entries name = none)
    (sound : tidy → (s.node dp).nlink ≠ 0) (node : t.node = Nodes.made s.node dp i type)
    (proc : t.proc = s.proc) (ref : t.ref = Function.update s.ref i (s.ref i + 1))
    (valid : t.valid = Function.update s.valid i true) :
    Ends (t.dirlink dp name i) (fun e => e = .dirlink) fun r =>
      r.1 = 0 ∧ Quiet tidy [i] s (r.2.iput dp) ∧ ((r.2.iput dp).node i).type ≠ 0 := by
  have apart := apart_of_free dir free
  have inv := start.made dir locked free live typed node proc ref valid
  have dir' : Nodes.dir t.node dp := by
    unfold Nodes.dir
    rw [node, made_type dir free apart.symm]
    exact dir
  have placed : Nodes.Placed t.node dp i := by
    rw [node]
    exact placed_made start.shape dir free typed
  have new : t.node i = ⟨type, 1, if type = T_DIR then [entry dot i, entry dotdot dp] else []⟩ := by
    rw [node]
    exact made_new dir free
  have entries : Directory.dirlookup (t.node dp).entries name = none := by
    rw [node, made_entries dir free apart.symm]
    exact absent
  have nameless : Nodes.links t.node i = 0 := by
    have bound := inv.shape.bound i placed.allocated
    have credit := count_shown t.node dp i i []
    rw [List.append_nil, if_pos rfl] at credit
    unfold Nodes.count at bound
    rw [new] at bound
    dsimp only at bound
    omega
  have proper : tidy → Nodes.attached t.node dp := by
    intro neat
    apply attached_of_nlink inv.shape neat dir'
    have credit := count_shown t.node dp i dp []
    have positive := start.shape.bound dp (allocated_of_dir dir)
    have linked := sound neat
    rw [List.append_nil, if_neg apart, new] at credit
    rw [credit, node, made_parent dir free]
    simp only [List.count_nil, and_true]
    split
    · simp only [Nat.zero_add]
      omega
    · simp only [Nat.zero_add]
      omega
  rw [← List.append_nil (Nodes.shown t.node dp i)] at inv
  refine ends_mono (inv.enter dir' placed (fun _ => nameless) proper entries) (fun _ e => e) ?_
  rintro ⟨r, u⟩ ⟨zero, inv', node', proc'⟩
  have steady' : Steady [] u := by
    refine (steady.made start.shape dir free node proc).mono proc' ?_
    intro j allocated unlinked
    rw [node', type_setRest] at allocated
    rw [node', nlink_setRest] at unlinked
    exact ⟨allocated, unlinked⟩
  have keeps : Keeps (fun _ => False) s.node u.node := by
    rw [node']
    refine Keeps.trans ?_ (keeps_setRest inv.shape dir' _)
    rw [node]
    exact keeps_made dir free
  have quiet : Quiet tidy [dp, i] s u :=
    ⟨⟨inv'.shape, inv'.held.perm (List.Perm.swap i dp [])⟩, steady', keeps, proc'.trans proc⟩
  have last := quiet.put (steady'.cons i)
  refine ⟨zero, last, ?_⟩
  obtain ⟨_, same⟩ := quiet.inv.put (steady'.cons i)
  rw [same, node', type_setRest]
  exact placed.allocated

/-- create() of an inode whose name is not in the parent. -/
theorem create_new_ends (start : Inv tidy [dp] [] s) (steady : Steady [] s)
    (dir : Nodes.dir s.node dp) (locked : s.valid dp = true) (typed : type ≠ 0)
    (absent : Directory.dirlookup (s.node dp).entries name = none)
    (sound : tidy → (s.node dp).nlink ≠ 0) :
    Ends (do
        let (ip, t) ← s.ialloc type
        let t ← t.ilock ip
        let t := t.setNlink ip 1
        let t ←
          if type = T_DIR then Sys.createDots (t.setNlink dp ((t.node dp).nlink + 1)) ip dp
          else pure t
        let (r, t) ← t.dirlink dp name ip
        if r < 0 then .error .createDirlink else pure (some ip, t.iput dp))
      (fun e => e ≠ .noType) fun r =>
        match r.1 with
        | none => False
        | some ip => Quiet tidy [ip] s r.2 ∧ (r.2.node ip).type ≠ 0 := by
  apply ends_bind
  refine ends_mono (ialloc_ends s type) (fun e full => by rw [full]; decide) ?_
  rintro ⟨ip, x⟩ got
  dsimp only at got ⊢
  obtain ⟨live, free, rfl⟩ := got
  have apart := apart_of_free dir free
  have unused : s.ref ip = 0 := by
    have count := start.held.count ip
    have unheld : refs s.var ip = 0 := by
      by_contra held
      obtain ⟨v, points⟩ := exists_of_refs held
      exact start.held.vars v ip points free
    rw [unheld, List.count_cons_of_ne apart.symm] at count
    exact count
  obtain ⟨y, lock, fresh, kept, ref, valid⟩ := ilock_fresh unused typed
  rw [lock, pure_bind]
  have finish : ∀ t : Sys, t.node = Nodes.made s.node dp ip type → t.proc = s.proc →
      t.ref = Function.update s.ref ip (s.ref ip + 1) →
      t.valid = Function.update s.valid ip true →
      Ends (do
        let (r, t) ← t.dirlink dp name ip
        if r < 0 then .error .createDirlink else pure (some ip, t.iput dp))
        (fun e => e ≠ .noType) fun r =>
          match r.1 with
          | none => False
          | some ip => Quiet tidy [ip] s r.2 ∧ (r.2.node ip).type ≠ 0 := by
    intro t node proc ref valid
    apply ends_bind
    refine ends_mono (create_enter_ends start steady dir locked free live typed absent sound node
      proc ref valid) (fun e failed => by rw [failed]; decide) ?_
    rintro ⟨r, u⟩ ⟨zero, quiet, allocated⟩
    dsimp only at zero ⊢
    rw [zero, if_neg (by decide)]
    exact ends_pure ⟨quiet, allocated⟩
  by_cases directory : type = T_DIR
  · rw [if_pos directory]
    apply ends_bind
    have new : ((y.setNlink ip 1).setNlink dp (((y.setNlink ip 1).node dp).nlink + 1)).node =
        Function.update (Function.update s.node ip ⟨type, 1, []⟩) dp
          { s.node dp with nlink := (s.node dp).nlink + 1 } := by
      change Function.update (y.setNlink ip 1).node dp _ = _
      rw [fresh, Function.update_of_ne apart.symm]
    have mine : ((y.setNlink ip 1).setNlink dp (((y.setNlink ip 1).node dp).nlink + 1)).node ip =
        ⟨type, 1, []⟩ := by
      rw [new, Function.update_of_ne apart, Function.update_self]
    refine ends_mono (createDots_ends ?_ ?_ live dp) (fun e failed => by rw [failed]; decide) ?_
    · unfold Nodes.dir
      rw [mine]
      exact directory
    · rw [mine]
    · rintro t rfl
      refine finish _ ?_ kept ref valid
      rw [setEntries_node, mine, new]
      unfold Nodes.made
      rw [if_pos directory, Function.update_comm apart.symm, Function.update_idem]
  · rw [if_neg directory, pure_bind]
    refine finish _ ?_ kept ref valid
    rw [fresh]
    unfold Nodes.made
    rw [if_neg directory]

theorem create_ends (h : Inv tidy [] [] s) {proc : Proc} {sure : Prop}
    (safe : sure → Rooted s.node proc.cwd) (path : List Byte) (typed : type ≠ 0)
    (sound : tidy → ∀ dp, addsTo.unbound s proc path = some dp → (s.node dp).nlink ≠ 0) :
    Ends (s.create proc.cwd path type) (fun e => e = .noType → ¬ sure) fun r =>
      match r.1 with
      | none => Quiet tidy [] s r.2
      | some ip => Quiet tidy [ip] s r.2 ∧ (r.2.node ip).type ≠ 0 := by
  unfold Sys.create Sys.nameiparent
  apply ends_bind
  refine ends_mono (namex_ends h safe path true) (fun _ failed _ => failed.2) ?_
  rintro ⟨parent, u⟩ ⟨resolved, found⟩
  cases parent with
  | none => exact ends_pure (Quiet.of_same h found.1 found.2.1 found.2.2)
  | some parent =>
      obtain ⟨dp, name⟩ := parent
      obtain ⟨inv, node, running, dir, surely⟩ := found
      have dir := dir rfl
      dsimp only at resolved ⊢
      apply ends_bind
      refine ends_mono (inv.ilock List.mem_cons_self) ?_ ?_
      · rintro e ⟨_, free⟩
        rw [node] at free
        exact absurd dir (not_dir_of_free free)
      · rintro v ⟨inv, same, others, locked, _⟩
        have node := same.trans node
        have running := others.trans running
        have steady : Steady [] v := h.held.steady.congr node running
        have dir' : Nodes.dir v.node dp := by
          rw [node]
          exact dir
        apply ends_bind
        refine ends_mono (dirlookup_ends dir' name) (fun _ never => never.elim) ?_
        rintro ⟨next, w⟩ looked
        cases next with
        | some found =>
            obtain ⟨ip, off⟩ := found
            obtain ⟨rfl, entry⟩ := looked
            dsimp only
            have taken := inv.iget ip
            have quiet : Quiet tidy [dp, ip] s (v.iget ip) := by
              refine Quiet.of_same h ⟨taken.shape, taken.held.perm (List.Perm.swap ip dp [])⟩ ?_ ?_
              · exact (iget_node v ip).trans node
              · exact (iget_proc v ip).trans running
            have put := quiet.put (quiet.steady.cons ip)
            obtain ⟨_, unchanged⟩ := quiet.inv.put (quiet.steady.cons ip)
            have node_put : ((v.iget ip).iput dp).node = s.node :=
              unchanged.trans ((iget_node v ip).trans node)
            apply ends_bind
            refine ends_mono (put.inv.ilock List.mem_cons_self) ?_ ?_
            · rintro e ⟨_, free⟩ _ yes
              rw [node_put] at free
              rw [node] at entry
              exact (sure_of_found h.shape ((surely yes).rooted dir) entry).allocated free
            · rintro x ⟨inv_x, same_x, proc_x, _, allocated⟩
              have quiet' : Quiet tidy [ip] s x :=
                Quiet.of_same h inv_x (same_x.trans node_put) (proc_x.trans put.proc)
              split
              · refine ends_pure ⟨quiet', ?_⟩
                rw [same_x]
                exact allocated
              · exact ends_pure (quiet'.put quiet'.steady)
        | none =>
            obtain ⟨rfl, absent⟩ := looked
            have linked : tidy → (w.node dp).nlink ≠ 0 := by
              intro neat
              rw [node] at absent ⊢
              refine sound neat dp ?_
              unfold addsTo.unbound
              rw [← resolved]
              dsimp only
              rw [absent]
            dsimp only at inv same locked dir' steady running node
            refine ends_mono (create_new_ends inv steady dir' locked typed absent linked) ?_ ?_
            · intro e other none_left
              exact absurd none_left other
            · rintro ⟨made, x⟩ done
              cases made with
              | none => exact done.elim
              | some ip => exact ⟨done.1.after node running, done.2⟩

end Create

end Xv6.Public1.Tree
