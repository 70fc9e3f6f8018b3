import Xv6.Public1.TreeInv

/-!
# Path lookup (xv6-public_1)

What dirlookup() and namex() find in a tree of directories, and when a lookup cannot
come to an inode that is free.
-/

set_option autoImplicit false

namespace Xv6.Public1.Tree

open Xv6.Lib.Words
open Xv6.Lib.CString
open Xv6.Lib.Outcome
open Xv6.Lib.References
open Xv6.Public1.Directory

/-! ## Directories above -/

/-- Every directory that the `..` entries lead to is one. -/
def Rooted (n : Nodes) (d : Inum) : Prop := ∀ k, n.dir (n.parent^[k] d)

/-- Allocated, and if it is a directory then lookups from it are safe. -/
structure Sure (n : Nodes) (i : Inum) : Prop where
  allocated : (n i).type ≠ 0
  rooted : n.dir i → Rooted n i

/-- Lookups are safe from every current directory. -/
def Lofty (s : Sys) : Prop := ∀ p proc, s.proc p = some proc → Rooted s.node proc.cwd

/-- No directory is freed but those of `G`. -/
def Keeps (G : Inum → Prop) (n n' : Nodes) : Prop :=
  ∀ d, n.dir d → ¬ G d → n'.dir d ∧ n'.parent d = n.parent d

section Above
variable {tidy : Prop} {credit : List Inum} {n n' n'' : Nodes} {d i : Inum} {G : Inum → Prop}

theorem Rooted.dir (h : Rooted n d) : n.dir d := h 0

theorem Rooted.parent (h : Rooted n d) : Rooted n (n.parent d) := fun k => h (k + 1)

theorem allocated_of_dir (dir : n.dir d) : (n d).type ≠ 0 := fun free => not_dir_of_free free dir

theorem Rooted.sure (h : Rooted n d) : Sure n d := ⟨allocated_of_dir h.dir, fun _ => h⟩

theorem Shape.rootedRoot (h : Shape tidy credit n) : Rooted n ROOTINO := by
  intro k
  have fixed : n.parent^[k] ROOTINO = ROOTINO := by
    induction k with
    | zero => rfl
    | succ k ih => rw [Function.iterate_succ_apply, h.rootUp, ih]
  rw [fixed]
  exact h.root

theorem rooted_of_parent (dir : n.dir i) (above : Rooted n (n.parent i)) : Rooted n i := by
  intro k
  cases k with
  | zero => exact dir
  | succ k =>
      rw [Function.iterate_succ_apply]
      exact above k

theorem Keeps.refl (n : Nodes) : Keeps G n n := fun _ dir _ => ⟨dir, rfl⟩

theorem Keeps.trans (first : Keeps G n n') (second : Keeps G n' n'') : Keeps G n n'' := by
  intro d dir away
  obtain ⟨dir', same⟩ := first d dir away
  obtain ⟨dir'', same'⟩ := second d dir' away
  exact ⟨dir'', same'.trans same⟩

/-- Lookups stay safe where no directory above is freed. -/
theorem Keeps.rooted (h : Keeps G n n') (rooted : Rooted n d)
    (away : ∀ k, ¬ G (n.parent^[k] d)) : Rooted n' d := by
  have same : ∀ k, n'.parent^[k] d = n.parent^[k] d := by
    intro k
    induction k with
    | zero => rfl
    | succ k ih =>
        rw [Function.iterate_succ_apply', Function.iterate_succ_apply', ih]
        exact (h _ (rooted k) (away k)).2
  intro k
  rw [same]
  exact (h _ (rooted k) (away k)).1

theorem keeps_update {node : Node} (same : n.dir i → ¬ G i →
    node.type = (n i).type ∧ node.entries.take 2 = (n i).entries.take 2) :
    Keeps G n (Function.update n i node) := by
  intro d dir away
  by_cases here : d = i
  · subst here
    obtain ⟨type, entries⟩ := same dir away
    unfold Nodes.dir Nodes.parent
    rw [Function.update_self, type]
    refine ⟨dir, ?_⟩
    have second : ∀ l : Dir, (l.drop 1).head? = ((l.take 2).drop 1).head? := by
      intro l
      cases l with
      | nil => rfl
      | cons a l =>
          cases l with
          | nil => rfl
          | cons b l => rfl
    rw [second node.entries, second (n d).entries, entries]
  · unfold Nodes.dir Nodes.parent
    rw [Function.update_of_ne here]
    exact ⟨dir, rfl⟩

end Above

/-! ## dirlookup() -/

section Lookup
variable {tidy : Prop} {hand credit : List Inum} {s : Sys} {n : Nodes} {dp i : Inum}
  {name : List Byte} {off : Nat}

/-- What dirlookup() finds is `.`, `..` or one of the other entries. -/
theorem found_entry (h : Shape tidy credit n) (dir : n.dir dp)
    (found : Directory.dirlookup (n dp).entries name = some (i, off)) :
    i = dp ∨ i = n.parent dp ∨ ∃ de ∈ n.rest dp, de.inum = i ∧ i ≠ 0 := by
  obtain ⟨k, de, _, there, names, here, _⟩ := lookupLoop_some found
  obtain ⟨up, _, entries, _, above⟩ := entries_eq h dir []
  rw [entries] at there
  cases k with
  | zero =>
      cases Option.some.inj there
      exact Or.inl here.symm
  | succ k =>
      cases k with
      | zero =>
          cases Option.some.inj there
          exact Or.inr (Or.inl (here.symm.trans above.symm))
      | succ k =>
          have member : de ∈ n.rest dp := List.mem_of_getElem? there
          exact Or.inr (Or.inr ⟨de, member, here, here ▸ names.1⟩)

/-- From a directory where lookups are safe, nothing free is found. -/
theorem sure_of_found (h : Shape tidy credit n) (rooted : Rooted n dp)
    (found : Directory.dirlookup (n dp).entries name = some (i, off)) : Sure n i := by
  rcases found_entry h rooted.dir found with rfl | rfl | ⟨de, member, rfl, live⟩
  · exact rooted.sure
  · exact rooted.parent.sure
  · have placed := h.named dp de rooted.dir member live
    refine ⟨placed.allocated, fun child => rooted_of_parent child ?_⟩
    rw [placed.up child]
    exact rooted

theorem dirlookup_ends (dir : Nodes.dir s.node dp) (name : List Byte) :
    Ends (s.dirlookup dp name) (fun _ => False) fun r =>
      match r.1 with
      | none => r.2 = s ∧ Directory.dirlookup (s.node dp).entries name = none
      | some (i, off) => r.2 = s.iget i ∧
          Directory.dirlookup (s.node dp).entries name = some (i, off) := by
  have type : (s.node dp).type = T_DIR := dir
  unfold Sys.dirlookup
  rw [if_neg (not_not.mpr type)]
  cases found : Directory.dirlookup (s.node dp).entries name with
  | none => exact ends_pure ⟨rfl, rfl⟩
  | some at_off => exact ends_pure ⟨rfl, rfl⟩

end Lookup

/-! ## namex() -/

namespace Nodes

/-- What the entries say that namex() finds. -/
def walk (n : Nodes) (nameiparent : Bool) (ip : Inum) :
    List (List Byte) → Option (Inum × List Byte)
  | [] => if nameiparent = true then none else some (ip, [])
  | name :: rest =>
      if (n ip).type ≠ T_DIR then none
      else if nameiparent = true ∧ rest = [] then some (ip, name)
      else
        match Directory.dirlookup (n ip).entries name with
        | none => none
        | some (next, _) => walk n nameiparent next rest

def resolve (n : Nodes) (cwd : Inum) (path : List Byte) (nameiparent : Bool) :
    Option (Inum × List Byte) :=
  let path := text path
  let names := elements path.length path
  n.walk nameiparent (if path.head? = some slash then ROOTINO else cwd) names

end Nodes

theorem walk_congr {n n' : Nodes} (type : ∀ i, (n' i).type = (n i).type)
    (entries : ∀ i, (n' i).entries = (n i).entries) (nameiparent : Bool)
    (names : List (List Byte)) : ∀ ip, n'.walk nameiparent ip names = n.walk nameiparent ip names := by
  induction names with
  | nil => exact fun _ => rfl
  | cons name rest ih =>
      intro ip
      simp only [Nodes.walk, type, entries, ih]

/-- Every inode without links is held by others than the last reference in `hand`. -/
def Steady (hand : List Inum) (s : Sys) : Prop :=
  ∀ i, (s.node i).type ≠ 0 → (s.node i).nlink = 0 → 0 < refs s.var i + hand.count i

section Namex
variable {tidy : Prop} {hand credit : List Inum} {s t : Sys} {i ip : Inum}

theorem Held.steady (h : Held hand s) : Steady hand s :=
  fun i allocated unlinked => (h.kept i allocated unlinked).2

theorem Steady.congr (h : Steady hand s) (node : t.node = s.node) (proc : t.proc = s.proc) :
    Steady hand t := by
  intro i allocated unlinked
  rw [node] at allocated unlinked
  rw [var_congr proc]
  exact h i allocated unlinked

theorem Steady.not_last (h : Steady hand s) (i : Inum) : ¬ Last hand s i := by
  rintro ⟨allocated, unlinked, none_left⟩
  exact absurd (h i allocated unlinked) (by omega)

/-- iput() of an inode that others hold. -/
theorem Inv.put (h : Inv tidy (i :: hand) credit s) (steady : Steady hand s) :
    Inv tidy hand credit (s.iput i) ∧ (s.iput i).node = s.node := by
  obtain ⟨inv, ⟨_, same⟩ | ⟨last, _⟩⟩ := h.iput
  · exact ⟨inv, same⟩
  · exact absurd last (steady.not_last i)

/-- What namex() has found: a reference for the call, and nothing else is different. -/
def Found (tidy : Prop) (hand credit : List Inum) (s : Sys) (sure parent : Prop) :
    Option (Inum × List Byte) × Sys → Prop
  | (none, t) => Inv tidy hand credit t ∧ t.node = s.node ∧ t.proc = s.proc
  | (some (ip, _), t) => Inv tidy (ip :: hand) credit t ∧ t.node = s.node ∧ t.proc = s.proc ∧
      (parent → Nodes.dir s.node ip) ∧ (sure → Sure s.node ip)

theorem namexLoop_ends {sure : Prop} (nameiparent : Bool) (names : List (List Byte)) :
    ∀ (t : Sys) (ip : Inum), Inv tidy (ip :: hand) credit t → Steady hand t →
      t.node = s.node → t.proc = s.proc → (sure → Sure s.node ip) →
      Ends (t.namexLoop nameiparent ip names) (fun e => e = .noType ∧ ¬ sure) fun r =>
        r.1 = Nodes.walk s.node nameiparent ip names ∧
          Found tidy hand credit s sure (nameiparent = true) r := by
  induction names with
  | nil =>
      intro t ip inv steady node proc safe
      rw [Sys.namexLoop, Nodes.walk]
      split
      · obtain ⟨inv', same⟩ := inv.put steady
        exact ends_pure ⟨rfl, inv', same.trans node, (iput_proc t ip).trans proc⟩
      · rename_i whole
        exact ends_pure ⟨rfl, inv, node, proc, fun parent => absurd parent whole, safe⟩
  | cons name rest ih =>
      intro t ip inv steady node proc safe
      rw [Sys.namexLoop, Nodes.walk]
      apply ends_bind
      refine ends_mono (inv.ilock List.mem_cons_self) ?_ ?_
      · rintro e ⟨no_type, free⟩
        refine ⟨no_type, fun yes => ?_⟩
        rw [node] at free
        exact (safe yes).allocated free
      · rintro u ⟨inv', node', proc', _, _⟩
        have node := node'.trans node
        have proc := proc'.trans proc
        have steady := steady.congr node' proc'
        dsimp only
        rw [node]
        split
        · obtain ⟨inv'', same⟩ := inv'.put steady
          exact ends_pure ⟨rfl, inv'', same.trans node, (iput_proc u ip).trans proc⟩
        · rename_i other
          have dir : Nodes.dir u.node ip := by
            rw [node]
            exact not_not.mp other
          split
          · refine ends_pure ⟨rfl, inv', node, proc, fun _ => ?_, safe⟩
            rw [← node]
            exact dir
          · apply ends_bind
            refine ends_mono (dirlookup_ends dir name) (fun _ never => never.elim) ?_
            rintro ⟨next, v⟩ looked
            cases next with
            | none =>
                obtain ⟨rfl, absent⟩ := looked
                rw [node] at absent
                obtain ⟨inv'', same⟩ := inv'.put steady
                rw [absent]
                exact ends_pure ⟨rfl, inv'', same.trans node, (iput_proc v ip).trans proc⟩
            | some found =>
                obtain ⟨next, off⟩ := found
                obtain ⟨rfl, entry⟩ := looked
                rw [node] at entry
                rw [entry]
                have both : Inv tidy (ip :: next :: hand) credit (u.iget next) := by
                  have taken := inv'.iget next
                  exact ⟨taken.shape, taken.held.perm (List.Perm.swap next ip hand)⟩
                have steady' : Steady (next :: hand) (u.iget next) := by
                  intro j allocated unlinked
                  rw [iget_node] at allocated unlinked
                  have before := steady j allocated unlinked
                  have more : hand.count j ≤ (next :: hand).count j := List.count_le_count_cons
                  rw [var_congr (iget_proc u next)]
                  omega
                obtain ⟨inv'', same⟩ := both.put steady'
                have node'' : ((u.iget next).iput ip).node = s.node :=
                  same.trans ((iget_node u next).trans node)
                have proc'' : ((u.iget next).iput ip).proc = s.proc :=
                  (iput_proc _ ip).trans ((iget_proc u next).trans proc)
                refine ih _ next inv'' ?_ node'' proc'' ?_
                · exact steady.congr (node''.trans node.symm) (proc''.trans proc.symm)
                · intro yes
                  rw [node] at dir
                  have shape := inv'.shape
                  rw [node] at shape
                  exact sure_of_found shape ((safe yes).rooted dir) entry

/-- namex() from the current directory of a process, where `hand` is in use already. -/
theorem namex_ends (h : Inv tidy hand credit s) {cwd : Inum} {sure : Prop}
    (safe : sure → Rooted s.node cwd) (path : List Byte) (nameiparent : Bool) :
    Ends (s.namex cwd path nameiparent) (fun e => e = .noType ∧ ¬ sure) fun r =>
      r.1 = Nodes.resolve s.node cwd path nameiparent ∧
        Found tidy hand credit s sure (nameiparent = true) r := by
  unfold Sys.namex Nodes.resolve
  dsimp only
  split
  · refine namexLoop_ends _ _ _ _ (h.iget ROOTINO) ?_ (iget_node s _) (iget_proc s _) ?_
    · exact h.held.steady.congr (iget_node s _) (iget_proc s _)
    · exact fun _ => h.shape.rootedRoot.sure
  · refine namexLoop_ends _ _ _ _ (h.idup cwd) ?_ rfl rfl fun yes => (safe yes).sure
    exact h.held.steady.congr rfl rfl

theorem namei_ends (h : Inv tidy hand credit s) {cwd : Inum} {sure : Prop}
    (safe : sure → Rooted s.node cwd) (path : List Byte) :
    Ends (s.namei cwd path) (fun e => e = .noType ∧ ¬ sure) fun r =>
      r.1 = (Nodes.resolve s.node cwd path false).map Prod.fst ∧
      match r.1 with
      | none => Inv tidy hand credit r.2 ∧ r.2.node = s.node ∧ r.2.proc = s.proc
      | some ip => Inv tidy (ip :: hand) credit r.2 ∧ r.2.node = s.node ∧ r.2.proc = s.proc ∧
          (sure → Sure s.node ip) := by
  unfold Sys.namei
  apply ends_bind
  refine ends_mono (namex_ends h safe path false) (fun e failed => failed) ?_
  rintro ⟨found, t⟩ ⟨resolved, done⟩
  dsimp only at resolved
  rw [← resolved]
  cases found with
  | none => exact ends_pure ⟨rfl, done⟩
  | some found => exact ends_pure ⟨rfl, done.1, done.2.1, done.2.2.1, done.2.2.2.2⟩

end Namex

end Xv6.Public1.Tree
