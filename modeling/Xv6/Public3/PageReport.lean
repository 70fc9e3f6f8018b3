import Xv6.Public3.PageOwnership

/-!
# The memory report of Ctrl-I (vm.c, proc.c of xv6-public_3)

countphysicalpages() walks the page table of a process; in a run in which no process
gives back all that it has, it finds the pages that `sz` says.
-/

set_option autoImplicit false

namespace Xv6.Public3

open Xv6.Lib.Words
open Xv6.Lib.Allocation
open Xv6.Lib.Runs
open Xv6.Common

/-! ## countphysicalpages() -/

/-- The inner loop, after so many entries. -/
def countEntries (pgtab : PageTable) (count : Nat) : Nat → Nat
  | 0 => count
  | n + 1 =>
      let count := countEntries pgtab count n
      if (pgtab.pte ⟨n % NPTENTRIES, Nat.mod_lt n nptentries_pos⟩).isSome = true then count + 1
      else count

/-- The outer loop, after so many page tables. -/
def countTables (d : Pgdir) : Nat → Nat
  | 0 => 0
  | n + 1 =>
      let count := countTables d n
      match d.pde ⟨n % NPDENTRIES, Nat.mod_lt n npdentries_pos⟩ with
      | none => count
      | some pgtab => countEntries pgtab count NPTENTRIES

def countphysicalpages (pgdir : Pgdir) : Nat := countTables pgdir 512

/-- The entries of a page table are those of the addresses of its block. -/
theorem pte_address {d : Pgdir} {i j : Nat} (entry : j < NPTENTRIES) :
    d.pte ((i * NPTENTRIES + j) * PGSIZE) =
      (d.pde ⟨i % NPDENTRIES, Nat.mod_lt i npdentries_pos⟩).bind fun pgtab =>
        pgtab.pte ⟨j % NPTENTRIES, Nat.mod_lt j nptentries_pos⟩ := by
  have pdx : PDX ((i * NPTENTRIES + j) * PGSIZE) =
      ⟨i % NPDENTRIES, Nat.mod_lt i npdentries_pos⟩ := by
    simp only [PDX, PGSIZE, NPDENTRIES, NPTENTRIES, Fin.mk.injEq] at *
    omega
  have ptx : PTX ((i * NPTENTRIES + j) * PGSIZE) =
      ⟨j % NPTENTRIES, Nat.mod_lt j nptentries_pos⟩ := by
    simp only [PTX, PGSIZE, NPTENTRIES, Fin.mk.injEq] at *
    omega
  rw [Pgdir.pte, pdx, ptx]

/-- The first `pages` pages are there, and no others: the loop counts up to them. -/
theorem countTables_eq {d : Pgdir} {pages : Nat}
    (present : ∀ k, k < 512 * NPTENTRIES → ((d.pte (k * PGSIZE)).isSome = true ↔ k < pages))
    (n : Nat) (inside : n ≤ 512) : countTables d n = min pages (n * NPTENTRIES) := by
  have thousand : NPTENTRIES = 1024 := rfl
  induction n with
  | zero => simp [countTables]
  | succ n ih =>
      rw [countTables, ih (by omega)]
      have rows : n * NPTENTRIES + NPTENTRIES ≤ 512 * NPTENTRIES := by
        rw [← Nat.succ_mul]
        exact Nat.mul_le_mul_right _ inside
      have entries := fun j (entry : j < NPTENTRIES) =>
        present (n * NPTENTRIES + j) (by omega)
      have grown : (n + 1) * NPTENTRIES = n * NPTENTRIES + NPTENTRIES := Nat.succ_mul _ _
      cases found : d.pde ⟨n % NPDENTRIES, Nat.mod_lt n npdentries_pos⟩ with
      | none =>
          have first := entries 0 (by omega)
          rw [pte_address (by omega), found] at first
          simp only [Option.bind_none, Option.isSome_none, Bool.false_eq_true, false_iff] at first
          dsimp only
          omega
      | some pgtab =>
          have loop : ∀ j, j ≤ NPTENTRIES →
              countEntries pgtab (min pages (n * NPTENTRIES)) j =
                min pages (n * NPTENTRIES + j) := by
            intro j
            induction j with
            | zero =>
                intro _
                rw [countEntries, Nat.add_zero]
            | succ j later =>
                intro bound
                have here := entries j (by omega)
                rw [pte_address (by omega), found, Option.bind_some] at here
                rw [countEntries, later (by omega)]
                simp only [here]
                split <;> omega
          dsimp only
          rw [loop NPTENTRIES (Nat.le_refl _)]
          rw [grown]

theorem countphysicalpages_eq {d : Pgdir} {a : Nat} (filled : d.Filled a)
    (aligned : a % PGSIZE = 0) (top : a ≤ KERNBASE) : countphysicalpages d = a / PGSIZE := by
  have thousand : NPTENTRIES = 1024 := rfl
  have present : ∀ k, k < 512 * NPTENTRIES →
      ((d.pte (k * PGSIZE)).isSome = true ↔ k < a / PGSIZE) := by
    intro k inside
    have below : k * PGSIZE < KERNBASE := by
      simp only [PGSIZE, KERNBASE]
      omega
    have order : k < a / PGSIZE ↔ k * PGSIZE < a := by
      simp only [PGSIZE] at *
      omega
    rw [order]
    constructor
    · intro there
      by_contra above
      rw [filled.above _ (Nat.le_of_not_lt above) below] at there
      cases there
    · exact filled.below _
  rw [countphysicalpages, countTables_eq present 512 (Nat.le_refl _)]
  apply Nat.min_eq_left
  simp only [PGSIZE, KERNBASE, NPTENTRIES] at *
  omega

/-! ## Process numbers -/

/-- The kernel with what allocproc() and wait() do to `p->pid` and `nextpid`. -/
structure Table where
  kernel : Kernel (Fin NPROC)
  pid : Fin NPROC → Int
  nextpid : Int

/-- `nextpid++` -/
def nextPid (n : Int) : Int := (BitVec.ofInt 32 (n + 1)).toInt

/-- The child of a wait() that returns in this step. -/
def reaped (k k' : Kernel (Fin NPROC)) : Event (Fin NPROC) → Option (Fin NPROC)
  | .advance p =>
      match k.call p with
      | some (.wait c _) => if (k'.call p).isNone = true then some c else none
      | _ => none
  | _ => none

/-- The slot that allocproc() takes in this step. -/
def allocated : Event (Fin NPROC) → Option (Fin NPROC)
  | .fork _ c => some c
  | _ => none

def Table.step (l : Layout) (init : Fin NPROC) (t : Table) (e : Event (Fin NPROC)) :
    Option Table :=
  (Public3.step l init t.kernel e).map fun k =>
    match allocated e with
    | some c =>
        { kernel := k, pid := Function.update t.pid c t.nextpid, nextpid := nextPid t.nextpid }
    | none =>
        match reaped t.kernel k e with
        | some c => { t with kernel := k, pid := Function.update t.pid c 0 }
        | none => { t with kernel := k }

/-- After userinit(). -/
def Table.boot (init : Fin NPROC) (k : Kernel (Fin NPROC)) : Table where
  kernel := k
  pid := fun p => if p = init then 1 else 0
  nextpid := 2

/-! ## collect_proc_pages() -/

/-- `struct proc_page_info` -/
structure ProcPageInfo where
  pid : Int
  pages : Nat
  deriving DecidableEq

/-- `pp_info`, with its first `pp_count` entries. -/
def collect_proc_pages (t : Table) : List ProcPageInfo :=
  (List.finRange NPROC).filterMap fun p =>
    if (t.kernel.proc p).state = .LIVE ∧ 1 ≤ t.pid p then
      (t.kernel.proc p).image.map fun im =>
        { pid := t.pid p, pages := countphysicalpages im.pgdir }
    else none

/-- One entry for each process that is not on its way in or out, with the pages of its size. -/
def report (t : Table) : List ProcPageInfo :=
  (List.finRange NPROC).filterMap fun p =>
    if (t.kernel.proc p).state = .LIVE then
      (t.kernel.proc p).image.map fun im =>
        { pid := t.pid p, pages := PGROUNDUP im.sz / PGSIZE }
    else none

/-- No process is inside growproc(), exec() or fork(). -/
def Table.Quiet (t : Table) : Prop :=
  ∀ p call, t.kernel.call p = some call → ∃ c prog, call = .wait c prog

/-- No process gives back as many bytes as it has, and the process numbers have not wrapped
around. -/
def Table.Meets (t : Table) (e : Event (Fin NPROC)) : Prop :=
  e.Spares t.kernel ∧ (∀ c, allocated e = some c → 1 ≤ t.nextpid)

instance (t : Table) (e : Event (Fin NPROC)) : Decidable (t.Meets e) :=
  inferInstanceAs (Decidable (_ ∧ _))

section Steps
variable {l : Layout} {init : Fin NPROC} {strict : Prop} {k k' : Kernel (Fin NPROC)}
  {owner : Page → Owner (Fin NPROC)}

theorem startImage_state {p : Fin NPROC} {prog : Image → Vm (Image × Bool)}
    (taken : k.startImage p prog = some k') (q : Fin NPROC) :
    (k'.proc q).state = (k.proc q).state := by
  unfold Kernel.startImage at taken
  split at taken
  · cases taken
  · cases taken
    change (((k.setProc p _).proc q).state) = _
    rw [setProc_proc]
    split
    · rename_i here
      rw [here]
    · rfl

/-- A slot that is in use was so before, or is the one that fork() has taken. -/
theorem in_use_before (h : Inv l strict k owner) {e : Event (Fin NPROC)}
    (taken : Public3.act l init k e = some k') (q : Fin NPROC)
    (used : (k'.proc q).state ≠ .UNUSED) :
    (k.proc q).state ≠ .UNUSED ∨ allocated e = some q := by
  cases e with
  | sbrk p n =>
      obtain ⟨_, taken⟩ := Option.ite_none_right_eq_some.mp taken
      rw [startImage_state taken] at used
      exact .inl used
  | exec p path =>
      obtain ⟨_, taken⟩ := Option.ite_none_right_eq_some.mp taken
      rw [startImage_state taken] at used
      exact .inl used
  | fork p c =>
      obtain ⟨_, taken⟩ := Option.ite_none_right_eq_some.mp taken
      unfold Kernel.startFork at taken
      split at taken
      · cases taken
      · split at taken
        · cases taken
          by_cases here : q = c
          · exact .inr (by rw [here]; rfl)
          · change ((k.setProc c _).proc q).state ≠ _ at used
            rw [setProc_proc, if_neg here] at used
            exact .inl used
        · cases taken
  | wait p c =>
      obtain ⟨_, taken⟩ := Option.ite_none_right_eq_some.mp taken
      unfold Kernel.startWait at taken
      split at taken
      · split at taken
        · cases taken
          change ((k.setProc c _).proc q).state ≠ _ at used
          rw [setProc_proc] at used
          split at used
          · rename_i here
            rw [← here] at used
            exact .inl used
          · exact .inl used
        · cases taken
      · cases taken
  | advance p =>
      change k.advance p = some k' at taken
      unfold Kernel.advance at taken
      split at taken
      case h_1 => cases taken
      case h_2 prog found =>
        split at taken
        · cases taken
          change ((k.setProc p _).proc q).state ≠ _ at used
          rw [setProc_proc] at used
          split at used
          · rename_i here
            rw [← here] at used
            exact .inl used
          · exact .inl used
        · cases taken
          exact .inl used
        · cases taken
          exact .inl used
      case h_3 c prog found =>
        have embryo := h.slots.forking p c prog found
        by_cases here : q = c
        · rw [here, embryo]
          exact .inl (by simp)
        have same : (k'.proc q).state = (k.proc q).state := by
          split at taken
          · obtain ⟨mid, ended, rfl⟩ := Option.map_eq_some_iff.mp taken
            rename_i child _
            cases child with
            | none =>
                cases ended
                change ((k.setProc c _).proc q).state = _
                rw [setProc_proc, if_neg here]
            | some both =>
                obtain ⟨file, _, rfl⟩ := Option.map_eq_some_iff.mp ended
                change ((Kernel.setProc _ c _).proc q).state = _
                rw [setProc_proc, if_neg here]
          · cases taken
            rfl
          · cases taken
            rfl
        rw [same] at used
        exact .inl used
      case h_4 c prog found =>
        split at taken
        · cases taken
          change ((k.setProc c _).proc q).state ≠ _ at used
          rw [setProc_proc] at used
          split at used
          · exact absurd rfl used
          · exact .inl used
        · cases taken
          exact .inl used
        · cases taken
          exact .inl used
  | pipe p =>
      obtain ⟨_, taken⟩ := Option.ite_none_right_eq_some.mp taken
      rw [(Keeps.sys_pipe h.supply taken).2.state] at used
      exact .inl used
  | close p fd =>
      obtain ⟨_, taken⟩ := Option.ite_none_right_eq_some.mp taken
      rw [(Keeps.sys_close h.supply taken).2.state] at used
      exact .inl used
  | exit p =>
      obtain ⟨ready, taken⟩ := Option.ite_none_right_eq_some.mp taken
      obtain ⟨mid, closed, _, _, _, _, _, proc⟩ := exit_proc taken
      rw [proc q, (abandon_same init p _).1, (h.supply.closeAll closed).2.1] at used
      split at used
      · rename_i here
        rw [here, ready.1.1]
        exact .inl (by simp)
      · exact .inl used

/-- wait() gives the slot of the child back. -/
theorem reaped_unused {e : Event (Fin NPROC)} {c : Fin NPROC}
    (taken : Public3.act l init k e = some k') (gone : reaped k k' e = some c) :
    (k'.proc c).state = .UNUSED := by
  cases e with
  | advance p =>
      cases busy : k.call p with
      | none => simp [reaped, busy] at gone
      | some call =>
          cases call with
          | image prog => simp [reaped, busy] at gone
          | fork c' prog => simp [reaped, busy] at gone
          | wait c' prog =>
              simp only [reaped, busy] at gone
              obtain ⟨returned, same⟩ := Option.ite_none_right_eq_some.mp gone
              cases same
              simp only [Public3.act, Kernel.advance, busy] at taken
              split at taken
              · cases taken
                change ((k.setProc c _).proc c).state = _
                rw [setProc_proc, if_pos rfl]
              · cases taken
                rw [setCall_call, if_pos rfl] at returned
                cases returned
              · cases taken
                change (k.call p).isNone = true at returned
                rw [busy] at returned
                cases returned
  | sbrk | exec | fork | wait | pipe | close | exit => cases gone

/-- Every slot in use has a process number. -/
def Table.Numbered (t : Table) : Prop :=
  ∀ p, (t.kernel.proc p).state ≠ .UNUSED → 1 ≤ t.pid p

theorem Table.numbered_step {t t' : Table} {e : Event (Fin NPROC)}
    (h : Inv l strict t.kernel owner) (numbered : t.Numbered) (meets : t.Meets e)
    (moved : t.step l init e = some t') :
    Public3.step l init t.kernel e = some t'.kernel ∧ t'.Numbered := by
  obtain ⟨k, taken, same⟩ := Option.map_eq_some_iff.mp moved
  have acted : Public3.act l init t.kernel e = some k := by
    unfold Public3.step at taken
    split at taken
    · cases taken
    · exact taken
  have before := fun q used => in_use_before h acted q used
  cases slot : allocated e with
  | some c =>
      simp only [slot] at same
      subst same
      refine ⟨taken, ?_⟩
      intro p used
      change 1 ≤ Function.update t.pid c t.nextpid p
      by_cases here : p = c
      · subst here
        rw [Function.update_self]
        exact meets.2 p slot
      · rw [Function.update_of_ne here]
        obtain earlier | taken_here := before p used
        · exact numbered p earlier
        · rw [slot] at taken_here
          exact absurd (Option.some.inj taken_here).symm here
  | none =>
      have earlier : ∀ p, (k.proc p).state ≠ .UNUSED → 1 ≤ t.pid p := by
        intro p used
        obtain earlier | taken_here := before p used
        · exact numbered p earlier
        · rw [slot] at taken_here
          cases taken_here
      simp only [slot] at same
      cases gone : reaped t.kernel k e with
      | none =>
          simp only [gone] at same
          subst same
          exact ⟨taken, earlier⟩
      | some c =>
          simp only [gone] at same
          subst same
          refine ⟨taken, ?_⟩
          intro p used
          change 1 ≤ Function.update t.pid c 0 p
          by_cases here : p = c
          · subst here
            exact absurd (reaped_unused acted gone) used
          · rw [Function.update_of_ne here]
            exact earlier p used

end Steps

/-! ## Runs -/

section Results
variable {l : Layout} {init : Fin NPROC} {kstack : Page} {im : Image} {k : Kernel (Fin NPROC)}

/-- What holds in every state of a run that meets the condition. -/
structure Table.Sound (l : Layout) (t : Table) : Prop where
  inv : ∃ owner, Inv l True t.kernel owner
  numbered : t.Numbered

theorem Table.boot_sound (boot : Booted l init kstack im k) :
    (Table.boot init k).Sound l := by
  refine ⟨⟨_, boot.inv⟩, ?_⟩
  intro p used
  change 1 ≤ if p = init then (1 : Int) else 0
  by_cases here : p = init
  · rw [if_pos here]
  · change (k.proc p).state ≠ _ at used
    rw [boot.others p here] at used
    exact absurd rfl used

theorem Table.sound_step {t t' : Table} {e : Event (Fin NPROC)} (sound : t.Sound l)
    (meets : t.Meets e) (moved : t.step l init e = some t') : t'.Sound l := by
  obtain ⟨⟨owner, inv⟩, numbered⟩ := sound
  obtain ⟨taken, numbered'⟩ := numbered_step inv numbered meets moved
  obtain ⟨owner', inv', _⟩ := inv.step (fun _ => meets.1) taken
  exact ⟨⟨owner', inv'⟩, numbered'⟩

/-- The report of a state between growproc(), exec() and fork(). -/
theorem Table.reports {t : Table} (sound : t.Sound l) (quiet : t.Quiet) :
    collect_proc_pages t = report t ∧
      ∀ p, (t.kernel.proc p).state = .LIVE → (t.kernel.proc p).image.isSome = true := by
  obtain ⟨⟨owner, inv⟩, numbered⟩ := sound
  have outside : ∀ p prog, t.kernel.call p ≠ some (.image prog) := by
    intro p prog busy
    obtain ⟨c, prog', same⟩ := quiet p _ busy
    cases same
  refine ⟨?_, fun p live => inv.slots.image p live (outside p)⟩
  unfold collect_proc_pages report
  apply List.filterMap_congr
  intro p _
  by_cases live : (t.kernel.proc p).state = .LIVE
  · have number : 1 ≤ t.pid p := numbered p (by rw [live]; simp)
    rw [if_pos ⟨live, number⟩, if_pos live]
    obtain ⟨im, found, small, filled⟩ := inv.sized p live (outside p)
    rw [found, Option.map_some, Option.map_some, countphysicalpages_eq filled
      (pgroundup_aligned im.sz) (pgroundup_top (Nat.le_of_lt small))]
  · rw [if_neg (fun both => live both.1), if_neg live]

end Results

def afterRegrow : Option Table :=
  run (Table.step machine initproc) (Table.boot initproc userinit) regrow

theorem afterRegrow_completes : afterRegrow.isSome = true := by decide

theorem regrow_meets : Guarded (Table.step machine initproc) Table.Meets
    (Table.boot initproc userinit) regrow := by decide

theorem afterRegrow_idle :
    ∀ p, ((afterRegrow.get afterRegrow_completes).kernel.call p).isNone = true := by
  decide

def afterShrink : Option Table :=
  run (Table.step machine initproc) (Table.boot initproc userinit) shrink

theorem afterShrink_completes : afterShrink.isSome = true := by decide

theorem afterShrink_idle :
    ∀ p, ((afterShrink.get afterShrink_completes).kernel.call p).isNone = true := by
  decide

theorem afterShrink_image :
    ((afterShrink.get afterShrink_completes).kernel.proc initproc).image =
      some { pgdir := initImage.pgdir.setPte 0 none, sz := PGSIZE } := by
  rfl

theorem afterShrink_others (p : Fin NPROC) :
    p = initproc ∨
      ((afterShrink.get afterShrink_completes).kernel.proc p).state = .UNUSED := by
  revert p
  decide

theorem afterShrink_live :
    ((afterShrink.get afterShrink_completes).kernel.proc initproc).state = .LIVE ∧
      (afterShrink.get afterShrink_completes).pid initproc = 1 := by
  decide

/-- The page is gone, and with it the only one. -/
theorem afterShrink_counts : countphysicalpages (initImage.pgdir.setPte 0 none) = 0 := by
  have table : (initImage.pgdir.pde (PDX 0)).isSome = true := rfl
  have nothing : (initImage.pgdir.setPte 0 none).Filled 0 := by
    have wide : KERNBASE < 2 ^ 32 := by decide
    refine ⟨fun va impossible => absurd impossible (Nat.not_lt_zero va), ?_⟩
    intro va _ low
    rw [Pgdir.setPte_pte table none (by decide) (by omega)]
    split
    · rfl
    · rename_i away
      apply initImage_filled.above va ?_ low
      simp only [PGSIZE] at *
      omega
  exact countphysicalpages_eq nothing rfl (Nat.zero_le _)

end Xv6.Public3
