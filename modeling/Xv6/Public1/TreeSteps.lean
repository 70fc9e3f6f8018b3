import Xv6.Public1.TreeCalls

/-!
# Steps of the tree (xv6-public_1)

The system calls one after the other, and then any of them: what is counted stays
counted, and only what `GivesUp` names is freed among the directories.
-/

set_option autoImplicit false

namespace Xv6.Public1.Tree

open Xv6.Lib.Words
open Xv6.Lib.CString
open Xv6.Lib.Outcome
open Xv6.Lib.References
open Xv6.Public1.Directory

/-- What a call of `p` has done. -/
structure Done (tidy : Prop) (s : Sys) (p : Pid) (proc : Proc) (call : Call) (t : Sys) : Prop where
  inv : Inv tidy [] [] t
  keeps : Keeps (GivesUp s p proc call) s.node t.node
  cwds : ∀ q, (t.proc q).map Proc.cwd = cwdAfter s p proc call q
  rooted : Lofty s → ∀ q c, cwdAfter s p proc call q = some c → Rooted s.node c

section Steps
variable {tidy : Prop} {hand credit : List Inum} {s t : Sys} {n n' : Nodes} {i dp ip : Inum}
  {p : Pid} {proc : Proc} {name : List Byte}

theorem Lofty.rooted (h : Lofty s) {q : Pid} {c : Inum}
    (running : (s.proc q).map Proc.cwd = some c) : Rooted s.node c := by
  obtain ⟨proc, there, rfl⟩ := Option.map_eq_some_iff.mp running
  exact h q proc there

/-- A call that gives up no directory and leaves the current directories as they are. -/
theorem Quiet.done {call : Call} (h : Quiet tidy [] s t)
    (stays : ∀ q, cwdAfter s p proc call q = (s.proc q).map Proc.cwd) :
    Done tidy s p proc call t := by
  constructor
  case inv => exact h.inv
  case keeps => exact h.keeps.mono fun _ never => never.elim
  case cwds =>
    intro q
    rw [stays, h.proc]
  case rooted =>
    intro lofty q c after
    rw [stays] at after
    exact lofty.rooted after

/-! ## mkdir() and mknod() -/

theorem sys_create_ends (h : Inv tidy [] [] s) {sure : Prop} (safe : sure → Rooted s.node proc.cwd)
    (path : List Byte) {type : Int} (typed : type ≠ 0)
    (sound : tidy → ∀ dp, addsTo.unbound s proc path = some dp → (s.node dp).nlink ≠ 0) :
    Ends (s.sys_create proc.cwd path type) (fun e => e = .noType → ¬ sure) fun r =>
      Quiet tidy [] s r.2 := by
  unfold Sys.sys_create
  apply ends_bind
  refine ends_mono (create_ends h safe path typed sound) (fun _ failed => failed) ?_
  rintro ⟨made, t⟩ done
  cases made with
  | none => exact ends_pure done
  | some ip => exact ends_pure (done.1.put done.1.steady)

/-! ## link() -/

theorem resolve_congr (type : ∀ i, (n' i).type = (n i).type)
    (entries : ∀ i, (n' i).entries = (n i).entries) (cwd : Inum) (path : List Byte)
    (nameiparent : Bool) : n'.resolve cwd path nameiparent = n.resolve cwd path nameiparent :=
  walk_congr type entries nameiparent _ _

theorem keeps_congr {G : Inum → Prop} (type : ∀ i, (n' i).type = (n i).type)
    (entries : ∀ i, (n' i).entries = (n i).entries) : Keeps G n n' := by
  intro d dir _
  unfold Nodes.dir Nodes.parent
  rw [type, entries]
  exact ⟨dir, rfl⟩

theorem setNlink_type (s : Sys) (i j : Inum) (nlink : Int) :
    ((s.setNlink i nlink).node j).type = (s.node j).type := by
  change (Function.update s.node i _ j).type = _
  by_cases here : j = i
  · subst here
    rw [Function.update_self]
  · rw [Function.update_of_ne here]

theorem setNlink_entries (s : Sys) (i j : Inum) (nlink : Int) :
    ((s.setNlink i nlink).node j).entries = (s.node j).entries := by
  change (Function.update s.node i _ j).entries = _
  by_cases here : j = i
  · subst here
    rw [Function.update_self]
  · rw [Function.update_of_ne here]

theorem setNlink_self (s : Sys) (i : Inum) (nlink : Int) :
    ((s.setNlink i nlink).node i).nlink = nlink := by
  change (Function.update s.node i _ i).nlink = _
  rw [Function.update_self]

theorem setNlink_other (s : Sys) {i j : Inum} (nlink : Int) (other : j ≠ i) :
    (s.setNlink i nlink).node j = s.node j := Function.update_of_ne other _ _

/-- The link that sys_link() has counted is taken back. -/
theorem sys_linkBad_ends (h : Inv tidy [ip] [ip] t) (allocated : (t.node ip).type ≠ 0)
    (file : ¬ Nodes.dir t.node ip) :
    Ends (t.sys_linkBad ip) (fun _ => False) fun r =>
      Inv tidy [] [] r.2 ∧ Keeps (fun _ => False) t.node r.2.node ∧ r.2.proc = t.proc := by
  unfold Sys.sys_linkBad
  apply ends_bind
  refine ends_mono (h.ilock List.mem_cons_self) ?_ ?_
  · rintro e ⟨_, free⟩
    exact allocated free
  · rintro u ⟨inv, node, same, locked, _⟩
    have less := inv.setNlink (i := ip) List.mem_cons_self locked ((u.node ip).nlink - 1)
      (fun j other => (List.count_cons_of_ne fun eq => other eq.symm).symm)
      (by rw [List.count_cons_self]; simp)
    obtain ⟨last, keeps⟩ := less.release (G := fun _ => False) fun _ dir => by
      unfold Nodes.dir at dir
      rw [setNlink_type, node] at dir
      exact file dir
    refine ends_pure ⟨last, ?_, (iput_proc _ ip).trans same⟩
    refine Keeps.trans ?_ keeps
    rw [← node]
    exact keeps_congr (setNlink_type u ip · _) (setNlink_entries u ip · _)

theorem addsTo_link {old : List Byte}
    (resolved : (Nodes.resolve s.node proc.cwd old false).map Prod.fst = some ip)
    (file : (s.node ip).type ≠ T_DIR) (new : List Byte) :
    addsTo s proc (.link old new) = addsTo.unbound s proc new := by
  obtain ⟨⟨d, rest⟩, there, same⟩ := Option.map_eq_some_iff.mp resolved
  dsimp only at same
  subst same
  simp only [addsTo, there, if_neg file]

/-- The end of sys_link(), with the parent locked. -/
theorem link_enter_ends (h : Inv tidy [dp, ip] [ip] t) (steady : Steady [] t)
    (dir : Nodes.dir t.node dp) (allocated : (t.node ip).type ≠ 0) (file : ¬ Nodes.dir t.node ip)
    (proper : tidy → Directory.dirlookup (t.node dp).entries name = none →
      Nodes.attached t.node dp) :
    Ends (do
        let (r, t) ← t.dirlink dp name ip
        if r < 0 then (t.iput dp).sys_linkBad ip else pure (0, (t.iput dp).iput ip))
      (fun e => e ≠ .noType) fun r =>
        Inv tidy [] [] r.2 ∧ Keeps (fun _ => False) t.node r.2.node ∧ r.2.proc = t.proc := by
  cases looked : Directory.dirlookup (t.node dp).entries name with
  | some found =>
      obtain ⟨j, off⟩ := found
      rw [dirlink_present dir looked, pure_bind]
      dsimp only
      rw [if_pos (by decide)]
      have node := iget_node t j
      have proc := iget_proc t j
      obtain ⟨taken, same⟩ := (h.iget j).put (((steady.cons ip).cons dp).congr node proc)
      have node := same.trans node
      have proc := (iput_proc (t.iget j) j).trans proc
      obtain ⟨put, same⟩ := taken.put ((steady.cons ip).congr node proc)
      have node := same.trans node
      have proc := (iput_proc _ dp).trans proc
      refine ends_mono (sys_linkBad_ends put ?_ ?_) (fun _ never => never.elim) ?_
      · rw [node]
        exact allocated
      · rw [node]
        exact file
      · rintro r ⟨last, kept, others⟩
        rw [node] at kept
        exact ⟨last, kept, others.trans proc⟩
  | none =>
      have shown : Nodes.shown t.node dp ip ++ [] = [ip] := by
        unfold Nodes.shown
        rw [if_neg (show ¬ (t.node ip).type = T_DIR from file)]
        rfl
      have placed : Nodes.Placed t.node dp ip := by
        constructor
        case allocated => exact allocated
        case not_root =>
          rintro rfl
          exact file h.shape.root
        case apart =>
          rintro rfl
          exact file dir
        case up => exact fun child => absurd child file
      have counted : Inv tidy [dp, ip] (Nodes.shown t.node dp ip ++ []) t := by
        rw [shown]
        exact h
      apply ends_bind
      refine ends_mono (counted.enter dir placed (fun child => absurd child file)
        (fun neat => proper neat looked) looked) (fun e failed => by rw [failed]; decide) ?_
      rintro ⟨r, u⟩ ⟨zero, inv, node, proc⟩
      dsimp only at zero node ⊢
      rw [zero, if_neg (by decide)]
      have still : Steady [] u := by
        refine steady.mono proc ?_
        intro j typed unlinked
        rw [node, type_setRest] at typed
        rw [node, nlink_setRest] at unlinked
        exact ⟨typed, unlinked⟩
      obtain ⟨put, same⟩ := inv.put (still.cons ip)
      obtain ⟨last, same'⟩ := put.put (still.congr same (iput_proc u dp))
      refine ends_pure ⟨last, ?_, (iput_proc _ ip).trans ((iput_proc u dp).trans proc)⟩
      rw [same', same, node]
      exact keeps_setRest h.shape dir _

/-- sys_link() when the inode has been found and is no directory; its link is counted. -/
theorem link_parent_ends (h : Inv tidy [ip] [ip] t) (steady : Steady [] t) {sure : Prop}
    (safe : sure → Rooted t.node proc.cwd) (allocated : (t.node ip).type ≠ 0)
    (file : ¬ Nodes.dir t.node ip) (new : List Byte)
    (sound : tidy → ∀ dp, addsTo.unbound t proc new = some dp → (t.node dp).nlink ≠ 0) :
    Ends (do
        let (parent, t) ← t.nameiparent proc.cwd new
        match parent with
        | none => t.sys_linkBad ip
        | some (dp, name) =>
            let t ← t.ilock dp
            let (r, t) ← t.dirlink dp name ip
            if r < 0 then (t.iput dp).sys_linkBad ip else pure (0, (t.iput dp).iput ip))
      (fun e => e = .noType → ¬ sure) fun r =>
        Inv tidy [] [] r.2 ∧ Keeps (fun _ => False) t.node r.2.node ∧ r.2.proc = t.proc := by
  unfold Sys.nameiparent
  apply ends_bind
  refine ends_mono (namex_ends h safe new true) (fun _ failed _ => failed.2) ?_
  rintro ⟨parent, u⟩ ⟨resolved, found⟩
  cases parent with
  | none =>
      obtain ⟨inv, node, running⟩ := found
      refine ends_mono (sys_linkBad_ends inv ?_ ?_) (fun _ never => never.elim) ?_
      · rw [node]
        exact allocated
      · rw [node]
        exact file
      · rintro r ⟨last, kept, others⟩
        rw [node] at kept
        exact ⟨last, kept, others.trans running⟩
  | some parent =>
      obtain ⟨dp, name⟩ := parent
      obtain ⟨inv, node, running, dir, _⟩ := found
      have dir := dir rfl
      dsimp only at resolved inv node running ⊢
      apply ends_bind
      refine ends_mono (inv.ilock List.mem_cons_self) ?_ ?_
      · rintro e ⟨_, free⟩
        rw [node] at free
        exact absurd dir (not_dir_of_free free)
      · rintro v ⟨inv, same, others, _, _⟩
        have node := same.trans node
        have running := others.trans running
        have proper : tidy → Directory.dirlookup (t.node dp).entries name = none →
            Nodes.attached t.node dp := by
          intro neat absent
          apply attached_of_nlink h.shape neat dir
          have apart : ip ≠ dp := by
            rintro rfl
            exact file dir
          have positive := h.shape.bound dp (allocated_of_dir dir)
          have linked := sound neat dp (by
            unfold addsTo.unbound
            rw [← resolved]
            dsimp only
            rw [absent])
          rw [List.count_cons_of_ne apart]
          simp only [List.count_nil]
          omega
        rw [← node] at dir allocated file proper
        refine ends_mono (link_enter_ends inv (steady.congr node running) dir allocated file
          proper) (fun e other failed => absurd failed other) ?_
        · rintro r ⟨last, kept, unchanged⟩
          rw [node] at kept
          exact ⟨last, kept, unchanged.trans running⟩

theorem sys_link_ends (h : Inv tidy [] [] s) {sure : Prop} (safe : sure → Rooted s.node proc.cwd)
    (old new : List Byte)
    (sound : tidy → ∀ dp, addsTo s proc (.link old new) = some dp → (s.node dp).nlink ≠ 0) :
    Ends (s.sys_link proc.cwd old new) (fun e => e = .noType → ¬ sure) fun r =>
      Quiet tidy [] s r.2 := by
  unfold Sys.sys_link
  apply ends_bind
  refine ends_mono (namei_ends h safe old) (fun _ failed _ => failed.2) ?_
  rintro ⟨found, u⟩ ⟨resolved, named⟩
  cases found with
  | none => exact ends_pure (Quiet.of_same h named.1 named.2.1 named.2.2)
  | some ip =>
      obtain ⟨inv, node, running, surely⟩ := named
      dsimp only at resolved inv node running ⊢
      apply ends_bind
      refine ends_mono (inv.ilock List.mem_cons_self) ?_ ?_
      · rintro e ⟨_, free⟩ _ yes
        rw [node] at free
        exact (surely yes).allocated free
      · rintro v ⟨inv, same, others, locked, allocated⟩
        have quiet : Quiet tidy [ip] s v :=
          Quiet.of_same h inv (same.trans node) (others.trans running)
        have node := same.trans node
        have running := others.trans running
        split
        · exact ends_pure (quiet.put quiet.steady)
        · rename_i file
          have more : Inv tidy [ip] [ip] (v.setNlink ip ((v.node ip).nlink + 1)) :=
            inv.setNlink List.mem_cons_self locked _
              (fun j other => List.count_cons_of_ne fun eq => other eq.symm)
              (by rw [List.count_cons_self]; simp)
          have type : ∀ j, ((v.setNlink ip ((v.node ip).nlink + 1)).node j).type =
              (s.node j).type := by
            intro j
            rw [setNlink_type, node]
          have entries : ∀ j, ((v.setNlink ip ((v.node ip).nlink + 1)).node j).entries =
              (s.node j).entries := by
            intro j
            rw [setNlink_entries, node]
          have keeps : Keeps (fun _ => False) s.node (v.setNlink ip ((v.node ip).nlink + 1)).node :=
            keeps_congr type entries
          have positive := inv.shape.bound ip (by rw [same]; exact allocated)
          have steady : Steady [] (v.setNlink ip ((v.node ip).nlink + 1)) := by
            refine quiet.steady.mono rfl ?_
            intro j typed unlinked
            by_cases here : j = ip
            · subst here
              rw [setNlink_self] at unlinked
              omega
            · rw [setNlink_other v _ here] at typed unlinked
              exact ⟨typed, unlinked⟩
          have file' : ¬ Nodes.dir (v.setNlink ip ((v.node ip).nlink + 1)).node ip := by
            unfold Nodes.dir
            rw [setNlink_type]
            exact file
          have still_safe : sure → Rooted (v.setNlink ip ((v.node ip).nlink + 1)).node proc.cwd :=
            fun yes => keeps.rooted (safe yes) fun _ never => never
          refine ends_mono (link_parent_ends more steady still_safe ?_ file' new ?_)
            (fun e failed => failed) ?_
          · rw [setNlink_type, same]
            exact allocated
          · intro neat dp adds
            have here := addsTo_link resolved.symm (by rw [← node]; exact file) new
            have same_adds : addsTo.unbound (v.setNlink ip ((v.node ip).nlink + 1)) proc new =
                addsTo.unbound s proc new := by
              unfold addsTo.unbound
              rw [resolve_congr type entries]
              simp only [entries]
            rw [same_adds, ← here] at adds
            by_cases mine : dp = ip
            · subst mine
              rw [setNlink_self]
              omega
            · rw [setNlink_other v _ mine, node]
              exact sound neat dp adds
          · rintro r ⟨last, kept, unchanged⟩
            exact ⟨last, last.held.steady, keeps.trans kept, unchanged.trans running⟩

/-! ## unlink() -/

theorem iput_valid {j : Inum} (s : Sys) (other : j ≠ i) : (s.iput i).valid j = s.valid j := by
  unfold Sys.iput
  dsimp only
  split
  · exact Function.update_of_ne other _ _
  · rfl

theorem iput_node {j : Inum} (s : Sys) (other : j ≠ i) : (s.iput i).node j = s.node j := by
  unfold Sys.iput
  dsimp only
  split
  · exact Function.update_of_ne other _ _
  · rfl

/-- The end of sys_unlink(): the parent is put, the inode loses its link and is put. -/
theorem Inv.unlinkPut {G : Inum → Prop} (h : Inv tidy [ip, dp] [ip] s) (apart : ip ≠ dp)
    (locked : s.valid ip = true)
    (given_dp : (s.node dp).nlink = 0 → (∀ v, s.var v ≠ some dp) → Nodes.dir s.node dp → G dp)
    (given_ip : (s.node ip).nlink = 1 → (∀ v, s.var v ≠ some ip) → Nodes.dir s.node ip → G ip) :
    Inv tidy [] [] (((s.iput dp).setNlink ip (((s.iput dp).node ip).nlink - 1)).iput ip) ∧
      Keeps G s.node
        (((s.iput dp).setNlink ip (((s.iput dp).node ip).nlink - 1)).iput ip).node ∧
      (((s.iput dp).setNlink ip (((s.iput dp).node ip).nlink - 1)).iput ip).proc = s.proc := by
  have unheld : ∀ {t : Sys} {i : Inum}, refs t.var i = 0 → ∀ v, t.var v ≠ some i := by
    intro t i none_left v points
    exact absurd (refs_pos points) (by omega)
  have swapped : Inv tidy [dp, ip] [ip] s :=
    ⟨h.shape, h.held.perm (List.Perm.swap ip dp [])⟩
  obtain ⟨put, keeps⟩ := swapped.release (G := G) fun last dir =>
    given_dp last.2.1 (unheld (by have none_left := last.2.2; omega)) dir
  have node := iput_node s apart
  have proc := iput_proc s dp
  have valid : (s.iput dp).valid ip = true := (iput_valid s apart).trans locked
  generalize s.iput dp = t at *
  have less := put.setNlink (i := ip) List.mem_cons_self valid ((t.node ip).nlink - 1)
    (fun j other => (List.count_cons_of_ne fun eq => other eq.symm).symm)
    (by rw [List.count_cons_self]; simp)
  have type := setNlink_type t ip ip ((t.node ip).nlink - 1)
  have nlink := setNlink_self t ip ((t.node ip).nlink - 1)
  have var : (t.setNlink ip ((t.node ip).nlink - 1)).var = s.var := var_congr proc
  obtain ⟨last, kept⟩ := less.release (G := G) fun last dir => by
    have none_left := last.2.2
    have unlinked := last.2.1
    rw [var] at none_left
    rw [nlink, node] at unlinked
    unfold Nodes.dir at dir
    rw [type, node] at dir
    exact given_ip (by omega) (unheld (by omega)) dir
  refine ⟨last, ?_, (iput_proc _ ip).trans proc⟩
  refine keeps.trans (Keeps.trans ?_ kept)
  exact keeps_congr (setNlink_type t ip · _) (setNlink_entries t ip · _)

/-- sys_unlink() from the place where the entry is emptied. -/
theorem Inv.unlink {G : Inum → Prop} (h : Inv tidy [ip, dp] [] s) (steady : Steady [] s)
    (dir : Nodes.dir s.node dp) (locked : s.valid ip = true ∧ s.valid dp = true)
    {key : List Byte} {de : Dirent} {entries : Dir}
    (first : firstNamed key (Nodes.rest s.node dp) = some de) (there : de.inum = ip)
    (hollow : Nodes.dir s.node ip → ∀ de ∈ Nodes.rest s.node ip, de.inum = 0)
    (written : entries = (s.node dp).entries.take 2 ++ clearFirst key (Nodes.rest s.node dp))
    (given : ∀ i, i = ip ∨ i = dp → Nodes.dir s.node ip → (s.node i).nlink = 1 →
      (∀ v, s.var v ≠ some i) → G i) (t : Sys)
    (same : t = if ((s.setEntries dp entries).node ip).type = T_DIR then
      (s.setEntries dp entries).setNlink dp (((s.setEntries dp entries).node dp).nlink - 1)
      else s.setEntries dp entries) :
    Inv tidy [] [] (((t.iput dp).setNlink ip (((t.iput dp).node ip).nlink - 1)).iput ip) ∧
      Keeps G s.node
        (((t.iput dp).setNlink ip (((t.iput dp).node ip).nlink - 1)).iput ip).node ∧
      (((t.iput dp).setNlink ip (((t.iput dp).node ip).nlink - 1)).iput ip).proc = s.proc := by
  subst there
  obtain ⟨member, live⟩ := firstNamed_mem first
  have placed := h.shape.named dp de dir member live
  have inv := h.setEntries written (h.shape.clear dir first hollow)
  have node : (s.setEntries dp entries).node =
      Nodes.setRest s.node dp (clearFirst key (Nodes.rest s.node dp)) := by
    rw [written]
    rfl
  have type : ∀ j, ((s.setEntries dp entries).node j).type = (s.node j).type := by
    intro j
    rw [node, type_setRest]
  have nlink : ∀ j, ((s.setEntries dp entries).node j).nlink = (s.node j).nlink := by
    intro j
    rw [node, nlink_setRest]
  have keeps : Keeps G s.node (s.setEntries dp entries).node := by
    rw [node]
    exact keeps_setRest h.shape dir _
  have var : (s.setEntries dp entries).var = s.var := var_congr rfl
  rw [type] at same
  by_cases child : (s.node de.inum).type = T_DIR
  · rw [if_pos child] at same
    have shown : Nodes.shown s.node dp de.inum ++ [] = [de.inum, dp] := by
      unfold Nodes.shown
      rw [if_pos child]
      rfl
    rw [shown] at inv
    have less : Inv tidy [de.inum, dp] [de.inum] t := by
      rw [same]
      refine inv.setNlink (List.mem_cons_of_mem _ List.mem_cons_self) locked.2 _ ?_ ?_
      · intro j other
        have away : dp ≠ j := fun eq => other eq.symm
        simp [List.count_cons, away]
      · simp [placed.apart]
    have var_t : t.var = s.var := by
      rw [same]
      exact var
    have type_t : ∀ j, (t.node j).type = (s.node j).type := by
      intro j
      rw [same, setNlink_type, type]
    have keeps_t : Keeps G s.node t.node := by
      refine keeps.trans ?_
      rw [same]
      exact keeps_congr (setNlink_type _ dp · _) (setNlink_entries _ dp · _)
    have given_dp : (t.node dp).nlink = 0 → (∀ v, t.var v ≠ some dp) → Nodes.dir t.node dp →
        G dp := by
      intro none_left unheld _
      rw [var_t] at unheld
      rw [same, setNlink_self, nlink] at none_left
      exact given dp (Or.inr rfl) child (by omega) unheld
    have given_ip : (t.node de.inum).nlink = 1 → (∀ v, t.var v ≠ some de.inum) →
        Nodes.dir t.node de.inum → G de.inum := by
      intro one_left unheld _
      rw [var_t] at unheld
      rw [same, setNlink_other _ _ placed.apart, nlink] at one_left
      exact given _ (Or.inl rfl) child one_left unheld
    have valid : t.valid de.inum = true := by
      rw [same]
      exact locked.1
    obtain ⟨last, kept, proc⟩ := less.unlinkPut placed.apart valid given_dp given_ip
    refine ⟨last, keeps_t.trans kept, proc.trans ?_⟩
    rw [same]
    rfl
  · rw [if_neg child] at same
    have shown : Nodes.shown s.node dp de.inum ++ [] = [de.inum] := by
      unfold Nodes.shown
      rw [if_neg child]
      rfl
    rw [shown, ← same] at inv
    have node_t : ∀ j, (t.node j).type = (s.node j).type ∧ (t.node j).nlink = (s.node j).nlink := by
      intro j
      rw [same]
      exact ⟨type j, nlink j⟩
    have var_t : t.var = s.var := by
      rw [same]
      exact var
    have given_dp : (t.node dp).nlink = 0 → (∀ v, t.var v ≠ some dp) → Nodes.dir t.node dp →
        G dp := by
      intro none_left unheld _
      rw [(node_t dp).2] at none_left
      have held := steady dp (allocated_of_dir dir) none_left
      rw [List.count_nil, Nat.add_zero] at held
      obtain ⟨v, points⟩ := exists_of_refs (Nat.pos_iff_ne_zero.mp held)
      rw [var_t] at unheld
      exact absurd points (unheld v)
    have given_ip : (t.node de.inum).nlink = 1 → (∀ v, t.var v ≠ some de.inum) →
        Nodes.dir t.node de.inum → G de.inum := by
      intro _ _ directory
      unfold Nodes.dir at directory
      rw [(node_t de.inum).1] at directory
      exact absurd directory child
    have valid : t.valid de.inum = true := by
      rw [same]
      exact locked.1
    obtain ⟨last, kept, proc⟩ := inv.unlinkPut placed.apart valid given_dp given_ip
    refine ⟨last, Keeps.trans ?_ kept, proc.trans ?_⟩
    · rw [same]
      exact keeps
    · rw [same]
      rfl

theorem iget_valid {j : Inum} (s : Sys) (other : j ≠ i) : (s.iget i).valid j = s.valid j := by
  unfold Sys.iget
  split
  · rfl
  · exact Function.update_of_ne other _ _

theorem ilock_valid (s : Sys) (i : Inum) :
    Ends (s.ilock i) (fun _ => True) fun t => ∀ j, s.valid j = true → t.valid j = true := by
  unfold Sys.ilock
  split
  · exact ends_error trivial
  · split
    · exact ends_pure fun _ loaded => loaded
    · split
      · exact ends_error trivial
      · refine ends_pure fun j loaded => ?_
        by_cases here : j = i
        · subst here
          exact Function.update_self _ _ _
        · exact (Function.update_of_ne here _ _).trans loaded

theorem sys_unlink_ends (h : Inv tidy [] [] s) {sure : Prop} (safe : sure → Rooted s.node proc.cwd)
    (path : List Byte) :
    Ends (s.sys_unlink proc.cwd path) (fun e => e = .noType → ¬ sure) fun r =>
      Inv tidy [] [] r.2 ∧ Keeps (GivesUp s p proc (.unlink path)) s.node r.2.node ∧
        r.2.proc = s.proc := by
  have unchanged : ∀ {t : Sys}, Quiet tidy [] s t → Inv tidy [] [] t ∧
      Keeps (GivesUp s p proc (.unlink path)) s.node t.node ∧ t.proc = s.proc :=
    fun quiet => ⟨quiet.inv, quiet.keeps.mono fun _ never => never.elim, quiet.proc⟩
  unfold Sys.sys_unlink Sys.nameiparent
  apply ends_bind
  refine ends_mono (namex_ends h safe path true) (fun _ failed _ => failed.2) ?_
  rintro ⟨parent, u⟩ ⟨resolved, found⟩
  cases parent with
  | none => exact ends_pure (unchanged (Quiet.of_same h found.1 found.2.1 found.2.2))
  | some parent =>
      obtain ⟨dp, name⟩ := parent
      obtain ⟨inv, node, running, dir, _⟩ := found
      have dir := dir rfl
      dsimp only at resolved inv node running ⊢
      apply ends_bind
      refine ends_mono (inv.ilock List.mem_cons_self) ?_ ?_
      · rintro e ⟨_, free⟩
        rw [node] at free
        exact absurd dir (not_dir_of_free free)
      · rintro v ⟨inv, same, others, locked, _⟩
        have quiet : Quiet tidy [dp] s v :=
          Quiet.of_same h inv (same.trans node) (others.trans running)
        have node := same.trans node
        have running := others.trans running
        split
        · exact ends_pure (unchanged (quiet.put quiet.steady))
        · rename_i plain
          obtain ⟨not_dot, not_dotdot⟩ := not_or.mp plain
          apply ends_bind
          refine ends_mono (dirlookup_ends (by rw [node]; exact dir) name)
            (fun _ never => never.elim) ?_
          rintro ⟨next, w⟩ looked
          cases next with
          | none =>
              obtain ⟨rfl, _⟩ := looked
              exact ends_pure (unchanged (quiet.put quiet.steady))
          | some found =>
              obtain ⟨ip, off⟩ := found
              obtain ⟨rfl, entry⟩ := looked
              rw [node] at entry
              dsimp only
              obtain ⟨⟨de, first, there⟩, written⟩ :=
                found_rest h.shape dir not_dot not_dotdot entry
              obtain ⟨member, live⟩ := firstNamed_mem first
              have placed := h.shape.named dp de dir member live
              rw [there] at placed
              have taken := inv.iget ip
              have node_ip := (iget_node v ip).trans node
              apply ends_bind
              refine ends_mono ((taken.ilock List.mem_cons_self).and (ilock_valid _ ip)) ?_ ?_
              · rintro e ⟨_, free⟩
                rw [node_ip] at free
                exact absurd free placed.allocated
              · rintro x ⟨⟨inv_x, same_x, others_x, locked_x, _⟩, still⟩
                have node_x := same_x.trans node_ip
                have proc_x := others_x.trans ((iget_proc v ip).trans running)
                have quiet_x : Quiet tidy [ip, dp] s x := Quiet.of_same h inv_x node_x proc_x
                have locked_dp : x.valid dp = true :=
                  still dp ((iget_valid v placed.apart.symm).trans locked)
                split
                · exact ends_error fun same_e => by cases same_e
                · split
                  · have put := quiet_x.put (quiet_x.steady.cons dp)
                    exact ends_pure (unchanged (put.put put.steady))
                  · rename_i removable
                    have empty : Nodes.dir s.node ip →
                        Sys.isdirempty (s.node ip).entries = true := by
                      intro child
                      rw [node_x] at removable
                      by_contra full
                      exact removable ⟨child, Bool.eq_false_iff.mpr full⟩
                    have hollow : Nodes.dir s.node ip → ∀ de ∈ Nodes.rest s.node ip, de.inum = 0 :=
                      fun child de member =>
                        of_decide_eq_true (List.all_eq_true.mp (empty child) de member)
                    have given : ∀ i, i = ip ∨ i = dp → Nodes.dir s.node ip →
                        (s.node i).nlink = 1 → (∀ v, x.var v ≠ some i) →
                        GivesUp s p proc (.unlink path) i := by
                      intro i either child one_left unheld
                      rw [var_congr proc_x] at unheld
                      refine ⟨?_, fun v points => absurd points (unheld v), one_left, dp, name, ip,
                        off, resolved.symm, not_dot, not_dotdot, entry, child, empty child, either⟩
                      rcases either with rfl | rfl
                      · exact child
                      · exact dir
                    rw [← node_x] at first written dir hollow given
                    obtain ⟨last, keeps, unmoved⟩ := inv_x.unlink quiet_x.steady dir
                      ⟨locked_x, locked_dp⟩ first there hollow written given _ rfl
                    refine ends_pure ⟨last, ?_, unmoved.trans proc_x⟩
                    rw [← node_x]
                    exact keeps

/-! ## open() -/

theorem openInode_ends (quiet : Quiet tidy [ip] s t) (allocated : (t.node ip).type ≠ 0)
    (running : s.proc p = some proc) (full : Bool) :
    Inv tidy [] [] (t.openInode p proc ip full).2 ∧
      Keeps (fun _ => False) s.node (t.openInode p proc ip full).2.node ∧
      ∀ q, ((t.openInode p proc ip full).2.proc q).map Proc.cwd = (s.proc q).map Proc.cwd := by
  have put := quiet.put quiet.steady
  have unchanged : ∀ q, ((t.iput ip).proc q).map Proc.cwd = (s.proc q).map Proc.cwd :=
    fun q => congrArg (fun proc => (proc q).map Proc.cwd) put.proc
  unfold Sys.openInode
  split
  · exact ⟨put.inv, put.keeps, unchanged⟩
  · rename_i fd found
    split
    · exact ⟨put.inv, put.keeps, unchanged⟩
    · have test := List.find?_some found
      have unused : proc.ofile fd = none := Option.isNone_iff_eq_none.mp test
      have here : t.proc p = some proc := by
        rw [quiet.proc]
        exact running
      refine ⟨⟨quiet.inv.shape, ?_⟩, quiet.keeps, ?_⟩
      · refine quiet.inv.held.store rfl rfl rfl (var_ofile here fd (some ip)) ?_ ?_ ?_
        · intro j
          have empty : t.var (p, some fd) = none := by
            simp only [Sys.var, here, Option.bind_some, unused]
          rw [empty, List.count_cons, List.count_nil]
          simp
        · intro j same
          cases Option.some.inj same
          exact allocated
        · intro q proc' running'
          by_cases mine : q = p
          · subst mine
            simp only [Sys.setProc, Function.update_self, Option.some.injEq] at running'
            subst running'
            exact quiet.inv.held.cwds q proc here
          · exact quiet.inv.held.cwds q proc'
              ((Function.update_of_ne mine _ _).symm.trans running')
      · intro q
        by_cases mine : q = p
        · subst mine
          simp [Sys.setProc, running]
        · simp [Sys.setProc, mine, quiet.proc]

theorem sys_open_ends (h : Inv tidy [] [] s) (running : s.proc p = some proc) {sure : Prop}
    (safe : sure → Rooted s.node proc.cwd) (path : List Byte) (o_create : Bool) (omode : Int)
    (full : Bool)
    (sound : tidy → ∀ dp, addsTo s proc (.openFile path o_create omode full) = some dp →
      (s.node dp).nlink ≠ 0) :
    Ends (s.sys_open p proc path o_create omode full) (fun e => e = .noType → ¬ sure) fun r =>
      Inv tidy [] [] r.2 ∧ Keeps (fun _ => False) s.node r.2.node ∧
        ∀ q, (r.2.proc q).map Proc.cwd = (s.proc q).map Proc.cwd := by
  have unchanged : ∀ {t : Sys}, Quiet tidy [] s t → Inv tidy [] [] t ∧
      Keeps (fun _ => False) s.node t.node ∧
        ∀ q, (t.proc q).map Proc.cwd = (s.proc q).map Proc.cwd :=
    fun quiet => ⟨quiet.inv, quiet.keeps, fun q => congrArg (fun proc => (proc q).map Proc.cwd)
      quiet.proc⟩
  unfold Sys.sys_open
  cases o_create with
  | true =>
      rw [if_pos rfl]
      apply ends_bind
      refine ends_mono (create_ends h safe path (by decide) sound) (fun _ failed => failed) ?_
      rintro ⟨made, t⟩ done
      cases made with
      | none => exact ends_pure (unchanged done)
      | some ip => exact ends_pure (openInode_ends done.1 done.2 running full)
  | false =>
      rw [if_neg (by decide)]
      apply ends_bind
      refine ends_mono (namei_ends h safe path) (fun _ failed _ => failed.2) ?_
      rintro ⟨found, u⟩ ⟨_, named⟩
      cases found with
      | none => exact ends_pure (unchanged (Quiet.of_same h named.1 named.2.1 named.2.2))
      | some ip =>
          obtain ⟨inv, node, same, surely⟩ := named
          dsimp only at inv node same ⊢
          apply ends_bind
          refine ends_mono (inv.ilock List.mem_cons_self) ?_ ?_
          · rintro e ⟨_, free⟩ _ yes
            rw [node] at free
            exact (surely yes).allocated free
          · rintro v ⟨inv, same_v, others, _, allocated⟩
            have quiet : Quiet tidy [ip] s v :=
              Quiet.of_same h inv (same_v.trans node) (others.trans same)
            split
            · exact ends_pure (unchanged (quiet.put quiet.steady))
            · rw [← same_v] at allocated
              exact ends_pure (openInode_ends quiet allocated running full)

/-! ## chdir() -/

theorem iput_setProc (s : Sys) (i : Inum) (p : Pid) (x : Option Proc) :
    (s.iput i).setProc p x = (s.setProc p x).iput i := by
  unfold Sys.iput
  by_cases frees : s.valid i = true ∧ (s.node i).nlink = 0 ∧ s.ref i = 1
  · rw [if_pos frees, if_pos (show (s.setProc p x).valid i = true ∧
      ((s.setProc p x).node i).nlink = 0 ∧ (s.setProc p x).ref i = 1 from frees)]
    rfl
  · rw [if_neg frees, if_neg (show ¬ ((s.setProc p x).valid i = true ∧
      ((s.setProc p x).node i).nlink = 0 ∧ (s.setProc p x).ref i = 1) from frees)]
    rfl

theorem unheld_of_refs {i : Inum} (none_left : refs t.var i = 0) (v : Pid × Option Fd) :
    t.var v ≠ some i := by
  intro points
  exact absurd (refs_pos points) (by omega)

theorem cwdAfter_chdir (s : Sys) (p : Pid) (proc : Proc) (path : List Byte) (q : Pid) :
    cwdAfter s p proc (.chdir path) q =
      match Nodes.resolve s.node proc.cwd path false with
      | some (d, _) =>
          if q = p ∧ (s.node d).type = T_DIR then some d else (s.proc q).map Proc.cwd
      | none => (s.proc q).map Proc.cwd := rfl

theorem sys_chdir_ends (h : Inv tidy [] [] s) (running : s.proc p = some proc)
    (path : List Byte) :
    Ends (s.sys_chdir p proc path) (fun e => e = .noType → ¬ Lofty s) fun r =>
      Done tidy s p proc (.chdir path) r.2 := by
  have safe : Lofty s → Rooted s.node proc.cwd := fun lofty => lofty p proc running
  have stays : ∀ {t : Sys}, Quiet tidy [] s t → (∀ d name,
      Nodes.resolve s.node proc.cwd path false = some (d, name) → ¬ Nodes.dir s.node d) →
      Done tidy s p proc (.chdir path) t := by
    intro t quiet other
    refine quiet.done fun q => ?_
    rw [cwdAfter_chdir]
    cases resolved : Nodes.resolve s.node proc.cwd path false with
    | none => rfl
    | some found => exact if_neg fun both => other found.1 found.2 resolved both.2
  unfold Sys.sys_chdir
  apply ends_bind
  refine ends_mono (namei_ends h safe path) (fun _ failed _ => failed.2) ?_
  rintro ⟨found, u⟩ ⟨resolved, named⟩
  cases found with
  | none =>
      refine ends_pure (stays (Quiet.of_same h named.1 named.2.1 named.2.2) ?_)
      intro d name there
      rw [there] at resolved
      cases resolved
  | some ip =>
      obtain ⟨inv, node, same, surely⟩ := named
      obtain ⟨⟨d, name⟩, there, rfl⟩ := Option.map_eq_some_iff.mp resolved.symm
      dsimp only at inv node same surely ⊢
      apply ends_bind
      refine ends_mono (inv.ilock List.mem_cons_self) ?_ ?_
      · rintro e ⟨_, free⟩ _ lofty
        rw [node] at free
        exact (surely lofty).allocated free
      · rintro v ⟨inv, same_v, others, _, allocated⟩
        rw [node] at allocated
        have node := same_v.trans node
        have running_v := others.trans same
        rw [node]
        split
        · rename_i file
          have quiet : Quiet tidy [d] s v := Quiet.of_same h inv node running_v
          refine ends_pure (stays (quiet.put quiet.steady) ?_)
          intro d' name' there' dir
          rw [there] at there'
          cases there'
          exact file dir
        · rename_i dir
          have dir : Nodes.dir s.node d := not_not.mp dir
          have here : v.proc p = some proc := by
            rw [running_v]
            exact running
          have var_v : v.var = s.var := var_congr running_v
          have var := var_cwd here d
          have moved : Inv tidy [proc.cwd] [] (v.setProc p (some { proc with cwd := d })) := by
            refine ⟨inv.shape, inv.held.store rfl rfl rfl var ?_ ?_ ?_⟩
            · intro j
              have before : v.var (p, none) = some proc.cwd := by
                simp only [Sys.var, here, Option.map_some]
              rw [before]
              simp only [List.count_cons, List.count_nil, beq_iff_eq, Option.some.injEq]
              omega
            · intro j same_j
              cases Option.some.inj same_j
              rw [node]
              exact allocated
            · intro q proc' running'
              by_cases mine : q = p
              · subst mine
                simp only [Sys.setProc, Function.update_self, Option.some.injEq] at running'
                subst running'
                rw [node]
                exact dir
              · exact inv.held.cwds q proc'
                  ((Function.update_of_ne mine _ _).symm.trans running')
          rw [iput_setProc]
          obtain ⟨last, keeps⟩ := moved.release (G := GivesUp s p proc (.chdir path)) (by
            intro last child
            have total := last.2.2
            rw [List.count_nil, Nat.add_zero] at total
            have none_left := unheld_of_refs total
            have unlinked := last.2.1
            rw [var, var_v] at none_left
            change (v.node proc.cwd).nlink = 0 at unlinked
            change Nodes.dir v.node proc.cwd at child
            rw [node] at unlinked child
            refine ⟨child, ?_, unlinked, d, name, there, dir, ?_⟩
            · intro w points
              by_contra away
              have still := none_left w
              rw [Function.update_of_ne away] at still
              exact still points
            · rintro rfl
              have still := none_left (p, none)
              rw [Function.update_self] at still
              exact still rfl)
          have after : ∀ q, cwdAfter s p proc (.chdir path) q =
              if q = p then some d else (s.proc q).map Proc.cwd := by
            intro q
            rw [cwdAfter_chdir, there]
            by_cases mine : q = p
            · rw [if_pos mine]
              exact if_pos ⟨mine, dir⟩
            · rw [if_neg mine]
              exact if_neg fun both => mine both.1
          refine ends_pure ⟨last, ?_, ?_, ?_⟩
          · rw [← node]
            exact keeps
          · intro q
            rw [after, iput_proc]
            by_cases mine : q = p
            · subst mine
              simp [Sys.setProc]
            · simp [Sys.setProc, mine, running_v]
          · intro lofty q c given
            rw [after] at given
            split at given
            · cases Option.some.inj given
              exact (surely lofty).rooted dir
            · exact lofty.rooted given

/-! ## close() and exit() -/

/-- A variable is emptied and its reference given up. -/
theorem Inv.giveUp {v : Pid × Option Fd} {i : Inum} (h : Inv tidy [] [] s)
    (points : s.var v = some i) (node : t.node = s.node) (ref : t.ref = s.ref)
    (valid : t.valid = s.valid) (var : t.var = Function.update s.var v none)
    (cwds : ∀ q proc, t.proc q = some proc → Nodes.dir s.node proc.cwd) :
    Inv tidy [] [] (t.iput i) ∧ ((t.iput i).node = s.node ∨
      (s.node i).nlink = 0 ∧ (s.node i).type ≠ 0 ∧ (∀ w, s.var w = some i → w = v) ∧
        (t.iput i).node = Function.update s.node i (freed (s.node i))) := by
  have moved : Inv tidy [i] [] t := by
    constructor
    case shape =>
      rw [node]
      exact h.shape
    case held =>
      refine h.held.store node ref valid var ?_ (fun j never => by cases never) cwds
      intro j
      rw [points]
      simp only [List.count_cons, List.count_nil, beq_iff_eq, Option.some.injEq, reduceCtorEq,
        if_false]
      omega
  obtain ⟨last, ⟨_, same⟩ | ⟨gone, same⟩⟩ := moved.iput
  · exact ⟨last, Or.inl (same.trans node)⟩
  · refine ⟨last, Or.inr ?_⟩
    have total := gone.2.2
    rw [List.count_nil, Nat.add_zero] at total
    have none_left := unheld_of_refs total
    rw [node] at same
    have allocated := gone.1
    have unlinked := gone.2.1
    rw [node] at allocated unlinked
    refine ⟨unlinked, allocated, ?_, same⟩
    intro w here
    by_contra away
    have still := none_left w
    rw [var, Function.update_of_ne away] at still
    exact still here

/-- Some inodes are freed, and the directories among them are of `G`. -/
def Emptied (s : Sys) (G : Inum → Prop) (n : Nodes) : Prop :=
  ∀ i, n i = s.node i ∨ (n i).type = 0 ∧ (Nodes.dir s.node i → G i)

theorem Emptied.keeps {G : Inum → Prop} (h : Emptied s G n) : Keeps G s.node n := by
  intro d dir away
  rcases h d with same | ⟨_, given⟩
  · unfold Nodes.dir Nodes.parent
    rw [same]
    exact ⟨dir, rfl⟩
  · exact absurd (given dir) away

/-- What exit() has done to the process, with the files of `rest` still open. -/
structure Leaving (tidy : Prop) (s : Sys) (p : Pid) (proc : Proc) (rest : List Fd) (t : Sys) :
    Prop where
  inv : Inv tidy [] [] t
  emptied : Emptied s (GivesUp s p proc .exit) t.node
  others : ∀ q, q ≠ p → t.proc q = s.proc q
  mine : ∃ now : Proc, t.proc p = some now ∧ now.cwd = proc.cwd ∧
    ∀ fd, now.ofile fd = if fd ∈ rest then proc.ofile fd else none

theorem Leaving.vars {rest : List Fd} (h : Leaving tidy s p proc rest t)
    {v : Pid × Option Fd} (away : v.1 ≠ p) : t.var v = s.var v := by
  obtain ⟨q, fd⟩ := v
  cases fd with
  | none => simp only [Sys.var, h.others q away]
  | some fd => simp only [Sys.var, h.others q away]

/-- What the process gives up next, if that frees an inode. -/
theorem Leaving.emptied_next {rest : List Fd} {u : Sys} {v : Pid × Option Fd} {i : Inum}
    (h : Leaving tidy s p proc rest t) (mine : v.1 = p)
    (after : u.node = t.node ∨ (t.node i).nlink = 0 ∧ (t.node i).type ≠ 0 ∧
      (∀ w, t.var w = some i → w = v) ∧ u.node = Function.update t.node i (freed (t.node i))) :
    Emptied s (GivesUp s p proc .exit) u.node := by
  intro j
  rcases after with same | ⟨unlinked, allocated, unheld, same⟩
  · rw [same]
    exact h.emptied j
  · rw [same]
    by_cases here : j = i
    · subst here
      rw [Function.update_self]
      refine Or.inr ⟨rfl, fun dir => ?_⟩
      rcases h.emptied j with before | ⟨free, _⟩
      · rw [before] at unlinked
        refine ⟨dir, ?_, unlinked⟩
        intro w points
        by_contra away
        have elsewhere : w.1 ≠ p := away
        have still := unheld w ((h.vars elsewhere).trans points)
        rw [still] at elsewhere
        exact elsewhere mine
      · exact absurd free allocated
    · rw [Function.update_of_ne here]
      exact h.emptied j

/-- A round of the loop of exit(). -/
theorem Leaving.round {fd : Fd} {rest : List Fd} (h : Leaving tidy s p proc (fd :: rest) t)
    (fresh : fd ∉ rest) : Leaving tidy s p proc rest (t.closeFile p fd) := by
  obtain ⟨now, running, cwd, ofile⟩ := h.mine
  have mine := ofile fd
  rw [if_pos List.mem_cons_self] at mine
  have later : ∀ fd', fd' ≠ fd → now.ofile fd' = if fd' ∈ rest then proc.ofile fd' else none := by
    intro fd' other
    rw [ofile]
    simp only [List.mem_cons, other, false_or]
  unfold Sys.closeFile
  rw [running]
  dsimp only
  cases open_file : now.ofile fd with
  | none =>
      refine ⟨h.inv, h.emptied, h.others, now, running, cwd, ?_⟩
      intro fd'
      by_cases same : fd' = fd
      · subst same
        rw [if_neg fresh]
        exact open_file
      · exact later fd' same
  | some i =>
      have points : t.var (p, some fd) = some i := by
        simp only [Sys.var, running, Option.bind_some, open_file]
      obtain ⟨inv, after⟩ := h.inv.giveUp (t := t.setProc p
        (some { now with ofile := Function.update now.ofile fd none })) points rfl rfl rfl
        (var_ofile running fd none) (by
          intro q proc' running'
          by_cases here : q = p
          · subst here
            simp only [Sys.setProc, Function.update_self, Option.some.injEq] at running'
            subst running'
            exact h.inv.held.cwds q now running
          · exact h.inv.held.cwds q proc'
              ((Function.update_of_ne here _ _).symm.trans running'))
      refine ⟨inv, h.emptied_next rfl after, ?_,
        { now with ofile := Function.update now.ofile fd none }, ?_, cwd, ?_⟩
      · intro q away
        rw [iput_proc]
        exact (Function.update_of_ne away _ _).trans (h.others q away)
      · rw [iput_proc]
        exact Function.update_self _ _ _
      · intro fd'
        by_cases same : fd' = fd
        · subst same
          rw [if_neg fresh]
          exact Function.update_self _ _ _
        · rw [← later fd' same]
          exact Function.update_of_ne same _ _

theorem Leaving.loop (fds : List Fd) : ∀ {t : Sys}, fds.Nodup → Leaving tidy s p proc fds t →
    Leaving tidy s p proc [] (fds.foldl (fun s fd => s.closeFile p fd) t) := by
  induction fds with
  | nil => exact fun _ holds => holds
  | cons fd rest ih =>
      intro t distinct holds
      rw [List.foldl_cons]
      exact ih (List.nodup_cons.mp distinct).2 (holds.round (List.nodup_cons.mp distinct).1)

theorem exit_done (h : Inv tidy [] [] s) (running : s.proc p = some proc) :
    Done tidy s p proc .exit (s.exit p) := by
  have start : Leaving tidy s p proc (List.finRange NOFILE) s := by
    refine ⟨h, fun i => Or.inl rfl, fun _ _ => rfl, proc, running, rfl, ?_⟩
    intro fd
    rw [if_pos (List.mem_finRange fd)]
  have closed := Leaving.loop _ (List.nodup_finRange NOFILE) start
  unfold Sys.exit
  dsimp only
  generalize (List.finRange NOFILE).foldl (fun s fd => s.closeFile p fd) s = t at *
  obtain ⟨now, here, cwd, ofile⟩ := closed.mine
  have none_open : ∀ fd, now.ofile fd = none := by
    intro fd
    rw [ofile, if_neg List.not_mem_nil]
  have points : t.var (p, none) = some now.cwd := by
    simp only [Sys.var, here, Option.map_some]
  have gone : ∀ q, q ≠ p → (t.setProc p none).proc q = s.proc q := fun q away =>
    (Function.update_of_ne away _ _).trans (closed.others q away)
  have exited : (t.setProc p none).proc p = none := Function.update_self _ _ _
  rw [here]
  dsimp only
  rw [iput_setProc]
  obtain ⟨inv, after⟩ := closed.inv.giveUp (t := t.setProc p none) points rfl rfl rfl
    (var_exit here none_open) (by
      intro q proc' running'
      have away : q ≠ p := by
        rintro rfl
        rw [exited] at running'
        cases running'
      exact closed.inv.held.cwds q proc' ((closed.others q away).trans
        ((gone q away).symm.trans running')))
  have after_exit : ∀ q, cwdAfter s p proc .exit q =
      if q = p then none else (s.proc q).map Proc.cwd := fun _ => rfl
  refine ⟨inv, (closed.emptied_next rfl after).keeps, ?_, ?_⟩
  · intro q
    rw [iput_proc, after_exit]
    by_cases same : q = p
    · subst same
      rw [exited, if_pos rfl]
      rfl
    · rw [gone q same, if_neg same]
  · intro lofty q c given
    rw [after_exit] at given
    split at given
    · cases given
    · exact lofty.rooted given

theorem closeFile_done (h : Inv tidy [] [] s) (running : s.proc p = some proc) (fd : Fd) :
    Done tidy s p proc (.close fd) (s.closeFile p fd) := by
  have unchanged : Done tidy s p proc (.close fd) s :=
    (Quiet.of_same h h rfl rfl).done fun _ => rfl
  unfold Sys.closeFile
  rw [running]
  dsimp only
  cases open_file : proc.ofile fd with
  | none => exact unchanged
  | some i =>
      have points : s.var (p, some fd) = some i := by
        simp only [Sys.var, running, Option.bind_some, open_file]
      obtain ⟨inv, after⟩ := h.giveUp (t := s.setProc p
        (some { proc with ofile := Function.update proc.ofile fd none })) points rfl rfl rfl
        (var_ofile running fd none) (by
          intro q proc' running'
          by_cases here : q = p
          · subst here
            simp only [Sys.setProc, Function.update_self, Option.some.injEq] at running'
            subst running'
            exact h.held.cwds q proc running
          · exact h.held.cwds q proc'
              ((Function.update_of_ne here _ _).symm.trans running'))
      refine ⟨inv, ?_, ?_, unchanged.rooted⟩
      · rcases after with same | ⟨unlinked, _, unheld, same⟩
        · rw [same]
          exact Keeps.refl _
        · rw [same]
          exact keeps_update fun dir away => absurd ⟨dir, unheld, unlinked⟩ away
      · intro q
        rw [iput_proc]
        by_cases here : q = p
        · subst here
          simp [Sys.setProc, cwdAfter, running]
        · simp [Sys.setProc, cwdAfter, here]

/-! ## Any call -/

theorem perform_ends (h : Inv tidy [] [] s) (running : s.proc p = some proc) (call : Call)
    (sound : tidy → ∀ dp, addsTo s proc call = some dp → (s.node dp).nlink ≠ 0) :
    Ends (s.perform p proc call) (fun e => e = .noType → ¬ Lofty s) fun r =>
      Done tidy s p proc call r.2 := by
  have safe : Lofty s → Rooted s.node proc.cwd := fun lofty => lofty p proc running
  cases call with
  | mkdir path =>
      refine ends_mono (sys_create_ends h safe path (by decide) sound) (fun _ e => e) ?_
      exact fun r quiet => quiet.done fun _ => rfl
  | mknod path =>
      refine ends_mono (sys_create_ends h safe path (by decide) sound) (fun _ e => e) ?_
      exact fun r quiet => quiet.done fun _ => rfl
  | openFile path o_create omode full =>
      refine ends_mono (sys_open_ends h running safe path o_create omode full sound)
        (fun _ e => e) ?_
      rintro r ⟨inv, keeps, cwds⟩
      exact ⟨inv, keeps.mono fun _ never => never.elim, cwds, fun lofty _ _ => lofty.rooted⟩
  | link old new =>
      refine ends_mono (sys_link_ends h safe old new sound) (fun _ e => e) ?_
      exact fun r quiet => quiet.done fun _ => rfl
  | unlink path =>
      refine ends_mono (sys_unlink_ends (p := p) h safe path) (fun _ e => e) ?_
      rintro r ⟨inv, keeps, same⟩
      exact ⟨inv, keeps, fun q => congrArg (fun proc => (proc q).map Proc.cwd) same,
        fun lofty _ _ => lofty.rooted⟩
  | chdir path => exact sys_chdir_ends h running path
  | close fd => exact ends_pure (closeFile_done h running fd)
  | exit => exact ends_pure (exit_done h running)

end Steps

end Xv6.Public1.Tree
