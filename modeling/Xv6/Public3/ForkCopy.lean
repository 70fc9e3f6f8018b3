import Xv6.Public3.Contents
import Xv6.Public3.PageOwnership

/-!
# The copy that fork() makes (vm.c)

copyuvm() returns pages of its own with the bytes and the flags of the parent's, or
has given back all that it took.
-/

set_option autoImplicit false

namespace Xv6.Public3.Contents

open Xv6.Lib.Words
open Xv6.Lib.Allocation

variable {l : Layout} {strict : Prop} {d pgdir : Pgdir} {frame held : Set Page}
  {m : Page → Frame}

/-! ## What takes pages and what gives them back -/

theorem walkpgdir_takes (d : Pgdir) (va : Nat) (alloc : Bool) : Takes (walkpgdir d va alloc) := by
  unfold walkpgdir
  split
  · exact takes_pure _
  · split
    · exact takes_pure _
    · exact takes_bind takes_alloc fun _ => takes_pure _

theorem mapPage_takes (perm : Perm) (d : Pgdir) (a : Nat) (pa : Page) :
    Takes (mapPage perm d a pa) := by
  unfold mapPage
  apply takes_bind (walkpgdir_takes _ _ _)
  intro walked
  cases walked with
  | none => exact takes_pure _
  | some d =>
      dsimp only
      split
      · exact takes_fail _
      · exact takes_pure _

theorem mappagesLoop_takes (perm : Perm) (left : Nat) (d : Pgdir) (a : Nat) (pa : Page) :
    Takes (mappagesLoop perm left d a pa) := by
  induction left generalizing d a pa with
  | zero =>
      unfold mappagesLoop
      apply takes_bind (mapPage_takes _ _ _ _)
      intro mapped
      cases mapped with
      | none => exact takes_pure _
      | some d => exact takes_pure _
  | succ left ih =>
      unfold mappagesLoop
      apply takes_bind (mapPage_takes _ _ _ _)
      intro mapped
      cases mapped with
      | none => exact takes_pure _
      | some d => exact ih d _ _

theorem mappages_takes (d : Pgdir) (va size : Nat) (pa : Page) (perm : Perm) :
    Takes (mappages d va size pa perm) := mappagesLoop_takes _ _ _ _ _

theorem kfree_gives (page : Page) : GivesBack (kfree l page) := by
  unfold kfree
  split
  · exact givesBack_fail _
  · exact givesBack_free _

theorem deallocuvmLoop_gives (oldsz fuel : Nat) (d : Pgdir) (a : Nat) :
    GivesBack (deallocuvmLoop l oldsz fuel d a) := by
  induction fuel generalizing d a with
  | zero => exact givesBack_pure _
  | succ fuel ih =>
      unfold deallocuvmLoop
      split
      · rw [walkpgdir_read, pure_bind]
        split
        · exact ih _ _
        · split
          · exact ih _ _
          · split
            · exact givesBack_fail _
            · exact givesBack_bind (kfree_gives _) fun _ => ih _ _
      · exact givesBack_pure _

theorem deallocuvm_gives (d : Pgdir) (oldsz newsz : Nat) :
    GivesBack (deallocuvm l d oldsz newsz) := by
  unfold deallocuvm
  split
  · exact givesBack_pure _
  · exact givesBack_bind (deallocuvmLoop_gives _ _ _ _) fun _ => givesBack_pure _

theorem freevmLoop_gives (d : Pgdir) (is : List (Fin NPDENTRIES)) :
    GivesBack (freevmLoop l d is) := by
  induction is with
  | nil => exact givesBack_pure _
  | cons i rest ih =>
      unfold freevmLoop
      split
      · exact ih
      · exact givesBack_bind (kfree_gives _) fun _ => ih

theorem freevm_gives (d : Pgdir) : GivesBack (freevm l d) := by
  unfold freevm
  apply givesBack_bind (deallocuvm_gives _ _ _)
  intro emptied
  exact givesBack_bind (freevmLoop_gives _ _) fun _ => kfree_gives _

/-! ## The copy -/

/-- The pages below `i` are copied, and nothing else is mapped. -/
structure Copied (pgdir d : Pgdir) (m : Page → Frame) (i : Nat) : Prop where
  below : ∀ va, va < i → ∃ e e', pgdir.pte va = some e ∧ d.pte va = some e' ∧
    e'.perm = e.perm ∧ m e'.page = m e.page
  above : ∀ va, i ≤ va → va < KERNBASE → d.pte va = none

/-- One more page. -/
theorem Copied.map {i : Nat} {e : Pte} {mem : Page} {d' : Pgdir} (copied : Copied pgdir d m i)
    (aligned : i % PGSIZE = 0) (low : i < KERNBASE) (source : pgdir.pte i = some e)
    (apart : e.page ≠ mem)
    (fresh : ∀ va e', va < i → d.pte va = some e' → e'.page ≠ mem)
    (parent : ∀ va e', va < i → pgdir.pte va = some e' → e'.page ≠ mem)
    (mapped : ∀ va, va < 2 ^ 32 →
      d'.pte va = if va / PGSIZE = i / PGSIZE then some ⟨mem, e.perm⟩ else d.pte va) :
    Copied pgdir d' (memmove mem e.page m) (i + PGSIZE) := by
  have wide : KERNBASE + PGSIZE < 2 ^ 32 := by decide
  constructor
  case below =>
    intro va inside
    by_cases here : va / PGSIZE = i / PGSIZE
    · refine ⟨e, ⟨mem, e.perm⟩, ?_, ?_, rfl, ?_⟩
      · rw [Pgdir.pte_eq here (by omega) (by omega), source]
      · rw [mapped va (by omega), if_pos here]
      · simp only [memmove, Function.update_self, Function.update_of_ne apart]
    · have before : va < i := by
        have outside : ¬ (i ≤ va ∧ va < i + PGSIZE) :=
          fun both => here ((page_iff aligned).mpr both)
        omega
      obtain ⟨e₁, e₂, first, second, perm, same⟩ := copied.below va before
      refine ⟨e₁, e₂, first, ?_, perm, ?_⟩
      · rw [mapped va (by omega), if_neg here, second]
      · simp only [memmove, Function.update_of_ne (fresh va e₂ before second),
          Function.update_of_ne (parent va e₁ before first), same]
  case above =>
    intro va high low
    have away : ¬ va / PGSIZE = i / PGSIZE := by
      rw [page_iff aligned]
      omega
    rw [mapped va (by omega), if_neg away]
    exact copied.above va (by omega) low

/-- What copyuvm() leaves: the pages that were taken before have their bytes. -/
def Leaves (l : Layout) (pgdir : Pgdir) (sz : Nat) (m : Page → Frame) (frame : Set Page)
    (s : Set Page) (r : Option Pgdir × (Page → Frame)) : Prop :=
  (∀ p ∈ frame, r.2 p = m p) ∧
    ((r.1 = none ∧ s = frame) ∨
      ∃ d, r.1 = some d ∧ Owns l d frame s ∧ Copied pgdir d r.2 (PGROUNDUP sz))

theorem freevm_leaves {sz : Nat} {m' : Page → Frame} (h : Owns l d frame held)
    (kept : ∀ p ∈ frame, m p = m' p) :
    Does l strict ((do lift (freevm l d); pure none : VmC (Option Pgdir)) m) held
      (Leaves l pgdir sz m' frame) := by
  apply wp_then
  refine wp_mono (wp_givesBack (freevm_wp h) (freevm_gives d)) ?_
  rintro s ⟨_, m₁⟩ ⟨rfl, -, same⟩
  refine wp_pure ⟨fun p member => ?_, Or.inl ⟨rfl, rfl⟩⟩
  exact (same p member).trans (kept p member)

theorem copyuvmLoop_leaves {sz left i : Nat} {m' : Page → Frame} (h : Owns l d frame held)
    (small : sz < KERNBASE) (source : pgdir.Filled (PGROUNDUP sz))
    (parent : ∀ va e, va < PGROUNDUP sz → pgdir.pte va = some e → e.page ∈ frame)
    (aligned : i % PGSIZE = 0) (last : i + left * PGSIZE = PGROUNDUP sz)
    (kept : ∀ p ∈ frame, m p = m' p) (copied : Copied pgdir d m i) :
    Does l True (copyuvmLoop l pgdir left d i m) held (Leaves l pgdir sz m' frame) := by
  induction left generalizing d held i m with
  | zero =>
      rw [Nat.zero_mul, Nat.add_zero] at last
      exact wp_pure ⟨kept, Or.inr ⟨d, rfl, h, last ▸ copied⟩⟩
  | succ left ih =>
      have grown : (left + 1) * PGSIZE = left * PGSIZE + PGSIZE := Nat.succ_mul _ _
      have on : (i + PGSIZE) % PGSIZE = 0 := (Nat.add_mod_right i PGSIZE).trans aligned
      have inside : i < PGROUNDUP sz ∧ i < KERNBASE := by
        have rounded := pgroundup_eq (Nat.le_of_lt small)
        simp only [PGSIZE] at *
        omega
      have present := source.below i inside.1
      obtain ⟨e, entry⟩ := Option.isSome_iff_exists.mp present
      have table := Pgdir.pde_of_pte present
      unfold copyuvmLoop
      rw [walkpgdir_read, if_pos table]
      apply wp_then
      refine wp_pure ?_
      dsimp only
      rw [entry]
      apply wp_then
      apply wp_request
      case empty => exact freevm_leaves h kept
      case taken =>
        intro mem member fresh
        have aside : mem ∉ frame := fun framed => fresh (h.frame_mem framed)
        have away : ∀ p ∈ frame, p ≠ mem := by
          rintro p framed rfl
          exact aside framed
        have kept' : ∀ p ∈ frame, memmove mem e.page m p = m' p := by
          intro p framed
          rw [memmove, Function.update_of_ne (away p framed), kept p framed]
        apply wp_modify
        apply wp_then
        have maps := @mappages_wp l True _ _ _ _ (h.aside member fresh) aside _ aligned inside.2
          (fun _ => copied.above i (Nat.le_refl i) inside.2) e.perm
        refine wp_mono (wp_takes maps (mappages_takes _ _ _ _ _)) ?_
        rintro s ⟨r, m₁⟩ ⟨⟨rfl, rfl⟩ | ⟨d', rfl, owns, mapped⟩, rfl⟩
        · have owns := h.aside member fresh
          apply wp_then
          have frees := @kfree_wp l True _ _ (fun s _ => s = insert mem held \ {mem})
            owns.inside (owns.frame_mem (Set.mem_insert mem frame)) rfl
          refine wp_mono (wp_givesBack frees (kfree_gives _)) ?_
          rintro s ⟨_, m₂⟩ ⟨rfl, -, same⟩
          have rest := owns.unaside aside
          refine freevm_leaves rest fun p framed => ?_
          exact (same p (rest.frame_mem framed)).trans (kept' p framed)
        · refine ih owns on (by omega) kept' ?_
          refine copied.map aligned inside.2 entry ?_ ?_ ?_ mapped
          · exact away _ (parent i e inside.1 entry)
          · rintro va e' before found rfl
            have mine := h.mem (Pgdir.owned_user (d := d) (a := va) (by omega) |>.trans
              (by rw [found]; rfl))
            exact fresh mine
          · intro va e' before found
            exact away _ (parent va e' (by omega) found)

/-- The tables of the kernel are others' pages too. -/
theorem setupkvm_leaves (inside : held ⊆ l.pool) :
    Does l strict (lift (setupkvm l) m) held fun s r =>
      (∀ p ∈ held, r.2 p = m p) ∧
        ((r.1 = none ∧ s = held) ∨ ∃ d, r.1 = some d ∧ Owns l d held s ∧ d.NoUser) := by
  have alone : Does l strict (setupkvm l) ∅ _ := setupkvm_wp (Set.empty_subset l.pool)
  have framed := wp_frame (fun _ => 1) m alone (Set.empty_disjoint held)
  rw [Set.empty_union] at framed
  refine wp_mono framed ?_
  rintro s ⟨r, m₁⟩ ⟨mine, rfl, apart, made, kept⟩
  refine ⟨kept, ?_⟩
  obtain ⟨rfl, rfl⟩ | ⟨d, rfl, owns, empty⟩ := made
  · exact Or.inl ⟨rfl, Set.empty_union held⟩
  · refine Or.inr ⟨d, rfl, ⟨?_, owns.once, ?_, ?_⟩, empty⟩
    · exact Set.union_subset owns.inside inside
    · exact fun here => Set.disjoint_left.mp apart (owns.mem here)
    · intro p
      rw [Set.mem_union, owns.all p, Set.mem_empty_iff_false, false_or, or_comm]

theorem copyuvm_leaves {sz : Nat} {others : Set Page} (h : Owns l pgdir others held)
    (small : sz < KERNBASE) (source : pgdir.Filled (PGROUNDUP sz)) :
    Does l True (copyuvm l pgdir sz m) held (Leaves l pgdir sz m held) := by
  have top := pgroundup_top (Nat.le_of_lt small)
  have last : 0 + (sz + PGSIZE - 1) / PGSIZE * PGSIZE = PGROUNDUP sz := by
    rw [pgroundup_eq (Nat.le_of_lt small)]
    simp only [PGSIZE]
    omega
  have parent : ∀ va e, va < PGROUNDUP sz → pgdir.pte va = some e → e.page ∈ held := by
    intro va e inside entry
    apply h.mem (i := .user (PDX va) (PTX va))
    rw [Pgdir.owned_user (by omega), entry]
    rfl
  unfold copyuvm
  apply wp_then
  refine wp_mono (setupkvm_leaves h.inside) ?_
  rintro s ⟨r, m₁⟩ ⟨kept, ⟨rfl, rfl⟩ | ⟨d, rfl, owns, empty⟩⟩
  · exact wp_pure ⟨kept, Or.inl ⟨rfl, rfl⟩⟩
  · refine copyuvmLoop_leaves owns small source parent rfl last kept ?_
    exact ⟨fun va impossible => absurd impossible (Nat.not_lt_zero va), empty.filled.above⟩

/-! ## When kalloc() has failed -/

theorem refused_last {α β : Type} {x : Vm α} {c b : β}
    (h : Refused (do let _ ← x; pure c) b) : b = c := by
  obtain ⟨_, ⟨_, last⟩ | ⟨_, impossible⟩⟩ := refused_bind h
  · exact (returns_pure.mp last).symm
  · exact absurd impossible refused_pure

theorem returns_last {α β : Type} {x : Vm α} {c b : β}
    (h : Returns (do let _ ← x; pure c) b) : b = c := by
  obtain ⟨_, _, last⟩ := returns_bind.mp h
  exact (returns_pure.mp last).symm

theorem walkpgdir_refused {va : Nat} {alloc : Bool} {r : Option Pgdir}
    (h : Refused (walkpgdir d va alloc) r) : r = none := by
  unfold walkpgdir at h
  split at h
  · exact absurd h refused_pure
  · split at h
    · exact absurd h refused_pure
    · obtain ⟨pgtab, ⟨first, last⟩ | ⟨_, impossible⟩⟩ := refused_bind h
      · rw [refused_alloc first] at last
        exact (returns_pure.mp last).symm
      · exact absurd impossible refused_pure

theorem mapPage_refused {perm : Perm} {a : Nat} {pa : Page} {r : Option Pgdir}
    (h : Refused (mapPage perm d a pa) r) : r = none := by
  unfold mapPage at h
  obtain ⟨walked, ⟨first, last⟩ | ⟨_, later⟩⟩ := refused_bind h
  · rw [walkpgdir_refused first] at last
    exact (returns_pure.mp last).symm
  · cases walked with
    | none => exact absurd later refused_pure
    | some d =>
        dsimp only at later
        split at later
        · exact absurd later refused_fail
        · exact absurd later refused_pure

theorem mappagesLoop_refused {perm : Perm} {left a : Nat} {pa : Page} {r : Pgdir × Bool}
    (h : Refused (mappagesLoop perm left d a pa) r) : r.2 = false := by
  induction left generalizing d a pa with
  | zero =>
      unfold mappagesLoop at h
      obtain ⟨mapped, ⟨first, last⟩ | ⟨_, later⟩⟩ := refused_bind h
      · rw [mapPage_refused first] at last
        rw [← returns_pure.mp last]
      · cases mapped with
        | none => exact absurd later refused_pure
        | some d => exact absurd later refused_pure
  | succ left ih =>
      unfold mappagesLoop at h
      obtain ⟨mapped, ⟨first, last⟩ | ⟨_, later⟩⟩ := refused_bind h
      · rw [mapPage_refused first] at last
        rw [← returns_pure.mp last]
      · cases mapped with
        | none => exact absurd later refused_pure
        | some d => exact ih later

theorem mappages_refused {va size : Nat} {pa : Page} {perm : Perm} {r : Pgdir × Bool}
    (h : Refused (mappages d va size pa perm) r) : r.2 = false := mappagesLoop_refused h

theorem setupkvmLoop_refused {ks : List Kmap} {r : Option Pgdir}
    (h : Refused (setupkvmLoop l ks d) r) : r = none := by
  induction ks generalizing d with
  | nil => exact absurd h refused_pure
  | cons k rest ih =>
      unfold setupkvmLoop at h
      obtain ⟨⟨d', mapped⟩, ⟨first, last⟩ | ⟨_, later⟩⟩ := refused_bind h
      · rw [show mapped = false from mappages_refused first] at last
        exact returns_last last
      · cases mapped with
        | true => exact ih later
        | false => exact refused_last later

theorem setupkvm_refused {r : Option Pgdir} (h : Refused (setupkvm l) r) : r = none := by
  unfold setupkvm at h
  obtain ⟨pgdir, ⟨first, last⟩ | ⟨_, later⟩⟩ := refused_bind h
  · rw [refused_alloc first] at last
    exact (returns_pure.mp last).symm
  · cases pgdir with
    | none => exact absurd later refused_pure
    | some pgdir =>
        dsimp only at later
        split at later
        · exact absurd later refused_fail
        · exact setupkvmLoop_refused later

theorem copyuvmLoop_refused {left i : Nat} {r : Option Pgdir}
    (h : Refused (Public3.copyuvmLoop l pgdir left d i) r) : r = none := by
  induction left generalizing d i with
  | zero => exact absurd h refused_pure
  | succ left ih =>
      unfold Public3.copyuvmLoop at h
      rw [walkpgdir_read, pure_bind] at h
      split at h
      · exact absurd h refused_fail
      · split at h
        · exact absurd h refused_fail
        · obtain ⟨mem, ⟨first, last⟩ | ⟨_, later⟩⟩ := refused_bind h
          · rw [refused_alloc first] at last
            exact returns_last last
          · cases mem with
            | none => exact refused_last later
            | some mem =>
                obtain ⟨⟨d', mapped⟩, ⟨first, last⟩ | ⟨_, later⟩⟩ := refused_bind later
                · rw [show mapped = false from mappages_refused first] at last
                  obtain ⟨_, _, last⟩ := returns_bind.mp last
                  exact returns_last last
                · cases mapped with
                  | true => exact ih later
                  | false =>
                      obtain ⟨_, ⟨_, last⟩ | ⟨_, later⟩⟩ := refused_bind later
                      · exact returns_last last
                      · exact refused_last later

theorem copyuvm_refused {sz : Nat} {r : Option Pgdir}
    (h : Refused (Public3.copyuvm l pgdir sz) r) : r = none := by
  unfold Public3.copyuvm at h
  obtain ⟨d, ⟨first, last⟩ | ⟨_, later⟩⟩ := refused_bind h
  · rw [setupkvm_refused first] at last
    exact (returns_pure.mp last).symm
  · cases d with
    | none => exact absurd later refused_pure
    | some d => exact copyuvmLoop_refused later

/-! ## fork() copies faithfully -/

/-- A copy of the user memory below `sz`: the same bytes and flags, in pages that nobody had
before, and nothing else. -/
structure Faithful (l : Layout) (pgdir : Pgdir) (sz : Nat) (before after : Set Page) (d : Pgdir)
    (m : Page → Frame) : Prop where
  same : ∀ va, va < sz → ∃ e e', pgdir.pte va = some e ∧ d.pte va = some e' ∧
    e'.perm = e.perm ∧ m e'.page = m e.page
  only : ∀ va, PGROUNDUP sz ≤ va → va < KERNBASE → d.pte va = none
  fresh : ∀ slot p, d.owned slot = some p → p ∉ before
  distinct : ∀ slot slot' p, d.owned slot = some p → d.owned slot' = some p → slot = slot'
  taken : ∀ p, p ∈ after ↔ p ∈ before ∨ ∃ slot, d.owned slot = some p

/-- `held` are the pages that are not free. -/
theorem copyuvm_faithful (l : Layout) (pgdir : Pgdir) (sz : Nat) {others held : Set Page}
    (m : Page → Frame) (owns : Owns l pgdir others held) (small : sz < KERNBASE)
    (filled : pgdir.Filled (PGROUNDUP sz)) :
    Wp l.pool (fun _ => False) (copyuvm l pgdir sz m) held (fun s r =>
      (∀ p ∈ held, r.2 p = m p) ∧
        match r.1 with
        | none => s = held
        | some d => Faithful l pgdir sz held s d r.2) ∧
      (∀ r, Refused (Public3.copyuvm l pgdir sz) r → r = none) ∧
      Forgets (copyuvm l pgdir sz) (Public3.copyuvm l pgdir sz) := by
  refine ⟨?_, fun r => copyuvm_refused, copyuvm_forgets pgdir sz⟩
  have never : (fun _ : Panic => ¬ True) = fun _ => False := by simp
  have runs := copyuvm_leaves (m := m) owns small filled
  unfold Does at runs
  rw [never] at runs
  refine wp_mono runs ?_
  rintro s ⟨r, m'⟩ ⟨kept, ⟨rfl, rfl⟩ | ⟨d, rfl, taken, copied⟩⟩
  · exact ⟨kept, rfl⟩
  · refine ⟨kept, ?_, copied.above, ?_, ?_, ?_⟩
    · intro va inside
      exact copied.below va (Nat.lt_of_lt_of_le inside (le_pgroundup (Nat.le_of_lt small)))
    · exact fun slot p here => taken.apart here
    · exact fun slot slot' p here there => taken.once here there
    · exact taken.all

theorem copyuvm_faithful_initcode :
    Wp machine.pool (fun _ => False) (copyuvm machine initImage.pgdir PGSIZE fun _ _ => 0)
      initImage.pgdir.pages fun s r => match r.1 with
        | none => s = initImage.pgdir.pages
        | some d => Faithful machine initImage.pgdir PGSIZE initImage.pgdir.pages s d r.2 :=
  wp_mono (copyuvm_faithful machine initImage.pgdir PGSIZE (fun _ _ => 0) initImage_owns
    (by decide) initImage_filled).1 fun _ _ copied => copied.2

end Xv6.Public3.Contents
