import Mathlib.Logic.Equiv.Basic
import Xv6.Public3.Vm

/-!
# What the page-table code takes and gives back (vm.c)

A rule for each function of vm.c: which pages the process holds when the function
returns, wherever kalloc() may have failed, and which addresses are then mapped.
The panics of the source are excluded by what is `strict`ly known of the page
directory before; without that, the rules say where the pages are unless the
kernel panics.
-/

set_option autoImplicit false

namespace Xv6.Public3

open Xv6.Lib.Words
open Xv6.Lib.Allocation

/-! ## Addresses and entries -/

theorem index_eq {a b : Nat} (first : a < 2 ^ 32) (second : b < 2 ^ 32) :
    PDX a = PDX b ∧ PTX a = PTX b ↔ a / PGSIZE = b / PGSIZE := by
  simp only [PDX, PTX, PGSIZE, NPDENTRIES, NPTENTRIES, Fin.mk.injEq]
  omega

theorem kernbase_pos : 0 < KERNBASE := Nat.succ_pos 0x7fffffff

/-- The user half of the page directory. -/
theorem pdx_user {a : Nat} (below : a < KERNBASE) : (PDX a).val < 512 := by
  simp only [PDX, NPDENTRIES, KERNBASE] at *
  omega

theorem pdx_kernel {a : Nat} (above : KERNBASE ≤ a) (small : a < 2 ^ 32) :
    512 ≤ (PDX a).val := by
  simp only [PDX, NPDENTRIES, KERNBASE] at *
  omega

namespace Pgdir

variable {d : Pgdir}

theorem pde_of_pte {va : Nat} (present : (d.pte va).isSome = true) :
    (d.pde (PDX va)).isSome = true := by
  unfold pte at present
  cases found : d.pde (PDX va) with
  | none =>
      rw [found] at present
      cases present
  | some pgtab => rfl

theorem pte_none {va : Nat} (absent : d.pde (PDX va) = none) : d.pte va = none := by
  unfold pte
  rw [absent]
  rfl

/-- The addresses of a page have one entry. -/
theorem pte_eq {a va : Nat} (same : va / PGSIZE = a / PGSIZE) (first : va < 2 ^ 32)
    (second : a < 2 ^ 32) : d.pte va = d.pte a := by
  obtain ⟨pdx, ptx⟩ := (index_eq first second).mpr same
  simp only [pte, pdx, ptx]

theorem setPte_of_some {a : Nat} {pgtab : PageTable} (found : d.pde (PDX a) = some pgtab)
    (e : Option Pte) :
    d.setPte a e = { d with
      pde := Function.update d.pde (PDX a)
        (some { pgtab with pte := Function.update pgtab.pte (PTX a) e }) } := by
  unfold setPte
  rw [found]

theorem setPte_page (d : Pgdir) (a : Nat) (e : Option Pte) : (d.setPte a e).page = d.page := by
  unfold setPte
  split
  · rfl
  · rfl

theorem setPte_pde_ne {a : Nat} {i : Fin NPDENTRIES} (elsewhere : i ≠ PDX a) (e : Option Pte) :
    (d.setPte a e).pde i = d.pde i := by
  cases found : d.pde (PDX a) with
  | none => simp [setPte, found]
  | some pgtab => simp [setPte, found, Function.update_of_ne elsewhere]

theorem setPte_pte {a va : Nat} (exists_pgtab : (d.pde (PDX a)).isSome = true) (e : Option Pte)
    (first : a < 2 ^ 32) (second : va < 2 ^ 32) :
    (d.setPte a e).pte va = if va / PGSIZE = a / PGSIZE then e else d.pte va := by
  obtain ⟨pgtab, found⟩ := Option.isSome_iff_exists.mp exists_pgtab
  rw [setPte_of_some found]
  by_cases same : PDX va = PDX a
  · have entry : va / PGSIZE = a / PGSIZE ↔ PTX va = PTX a := by
      rw [← index_eq second first]
      exact and_iff_right same
    simp only [pte, same, found, Function.update_self, Option.bind_some, entry]
    exact Function.update_apply pgtab.pte (PTX a) e (PTX va)
  · have away : ¬ va / PGSIZE = a / PGSIZE := by
      rw [← index_eq second first]
      exact fun both => same both.1
    simp only [pte, Function.update_of_ne same]
    exact (if_neg away).symm

theorem setPde_pte {a : Nat} (absent : d.pde (PDX a) = none) (pgtab : Page) (va : Nat) :
    (d.setPde a pgtab).pte va = d.pte va := by
  by_cases same : PDX va = PDX a
  · have before : d.pte va = none := pte_none (same ▸ absent)
    rw [before]
    simp [pte, setPde, same]
  · simp [pte, setPde, Function.update_of_ne same]

/-! ## The pages of a page directory -/

/-- What a page can be to a page directory. -/
inductive Slot where
  | pgdir
  | pgtab (i : Fin NPDENTRIES)
  | user (i : Fin NPDENTRIES) (j : Fin NPTENTRIES)
  deriving DecidableEq

/-- The kernel half maps pages that are not the process's. -/
def owned (d : Pgdir) : Slot → Option Page
  | .pgdir => some d.page
  | .pgtab i => (d.pde i).map PageTable.page
  | .user i j =>
      if i.val < 512 then (d.pde i).bind fun pgtab => (pgtab.pte j).map Pte.page else none

theorem owned_setPde {a : Nat} (absent : d.pde (PDX a) = none) (pgtab : Page) :
    (d.setPde a pgtab).owned = Function.update d.owned (.pgtab (PDX a)) (some pgtab) := by
  funext slot
  cases slot with
  | pgdir => simp [Pgdir.owned, setPde]
  | pgtab i =>
      by_cases same : i = PDX a
      · subst same
        simp [Pgdir.owned, setPde]
      · have elsewhere : Slot.pgtab i ≠ .pgtab (PDX a) := fun eq => same (Slot.pgtab.inj eq)
        simp [Pgdir.owned, setPde, Function.update_of_ne same, Function.update_of_ne elsewhere]
  | user i j =>
      have elsewhere : Slot.user i j ≠ .pgtab (PDX a) := fun eq => by cases eq
      rw [Function.update_of_ne elsewhere]
      by_cases same : i = PDX a
      · subst same
        simp [Pgdir.owned, setPde, absent]
      · simp [Pgdir.owned, setPde, Function.update_of_ne same]

theorem owned_setPte {a : Nat} (exists_pgtab : (d.pde (PDX a)).isSome = true) (below : a < KERNBASE)
    (e : Option Pte) :
    (d.setPte a e).owned = Function.update d.owned (.user (PDX a) (PTX a)) (e.map Pte.page) := by
  obtain ⟨pgtab, found⟩ := Option.isSome_iff_exists.mp exists_pgtab
  have half := pdx_user below
  rw [setPte_of_some found]
  funext slot
  cases slot with
  | pgdir => simp [Pgdir.owned]
  | pgtab i =>
      by_cases same : i = PDX a
      · subst same
        simp [Pgdir.owned, found]
      · simp [Pgdir.owned, Function.update_of_ne same]
  | user i j =>
      by_cases same : i = PDX a
      · subst same
        by_cases entry : j = PTX a
        · subst entry
          simp [Pgdir.owned, half]
        · have elsewhere : Slot.user (PDX a) j ≠ .user (PDX a) (PTX a) :=
            fun eq => entry (Slot.user.inj eq).2
          rw [Function.update_of_ne elsewhere]
          simp [Pgdir.owned, found, Function.update_of_ne entry]
      · have elsewhere : Slot.user i j ≠ .user (PDX a) (PTX a) :=
          fun eq => same (Slot.user.inj eq).1
        rw [Function.update_of_ne elsewhere]
        simp [Pgdir.owned, Function.update_of_ne same]

theorem owned_setPte_kernel {a : Nat} (above : 512 ≤ (PDX a).val) (e : Option Pte) :
    (d.setPte a e).owned = d.owned := by
  cases found : d.pde (PDX a) with
  | none => simp [setPte, found]
  | some pgtab =>
      rw [setPte_of_some found]
      funext slot
      cases slot with
      | pgdir => rfl
      | pgtab i =>
          by_cases same : i = PDX a
          · subst same
            simp [Pgdir.owned, found]
          · simp [Pgdir.owned, Function.update_of_ne same]
      | user i j =>
          by_cases half : i.val < 512
          · have same : i ≠ PDX a := by
              rintro rfl
              omega
            simp [Pgdir.owned, Function.update_of_ne same]
          · simp [Pgdir.owned, half]

/-- The page of an address below KERNBASE. -/
theorem owned_user {a : Nat} (below : a < KERNBASE) :
    d.owned (.user (PDX a) (PTX a)) = (d.pte a).map Pte.page := by
  simp only [Pgdir.owned, pdx_user below, if_true, pte]
  cases d.pde (PDX a) with
  | none => rfl
  | some pgtab => rfl

end Pgdir

/-! ## kalloc(), kfree() and walkpgdir() -/

/-- The pages of the allocator. -/
def Layout.pool (l : Layout) : Set Page :=
  {page | page.toNat % PGSIZE = 0 ∧ l.kend ≤ KERNBASE + page.toNat ∧ page.toNat < PHYSTOP}

/-- The rule of a function that panics only if not everything is `strict`ly known. -/
abbrev Does {α : Type} (l : Layout) (strict : Prop) (x : Vm α) (held : Set Page)
    (post : Set Page → α → Prop) : Prop :=
  Wp l.pool (fun _ => ¬ strict) x held post

/-- The process has the pages of a page directory, and those of `frame`. -/
abbrev Owns (l : Layout) (d : Pgdir) (frame held : Set Page) : Prop :=
  Holds l.pool d.owned frame held

variable {l : Layout} {strict : Prop} {d : Pgdir} {frame held : Set Page}

theorem pool_ne_zero {page : Page} (member : page ∈ l.pool) : page ≠ 0 := by
  rintro rfl
  have first : l.kend ≤ KERNBASE + 0 := member.2.1
  have after : KERNBASE + EXTMEM < l.kend := l.kend_after
  omega

theorem kfree_wp {page : Page} {post : Set Page → Unit → Prop} (inside : held ⊆ l.pool)
    (mine : page ∈ held) (rest : post (held \ {page}) ()) :
    Does l strict (kfree l page) held post := by
  obtain ⟨aligned, first, last⟩ := inside mine
  have passes : ¬ (page.toNat % PGSIZE ≠ 0 ∨ KERNBASE + page.toNat < l.kend ∨
      PHYSTOP ≤ page.toNat) := by
    omega
  unfold kfree
  rw [if_neg passes]
  exact wp_free mine rest

theorem walkpgdir_read (d : Pgdir) (va : Nat) :
    walkpgdir d va false = pure (if (d.pde (PDX va)).isSome = true then some d else none) := by
  unfold walkpgdir
  cases d.pde (PDX va) with
  | none => rfl
  | some pgtab => rfl

/-- At most a page table is new. -/
structure Walked (d : Pgdir) (va : Nat) (d' : Pgdir) : Prop where
  pte : ∀ a, d'.pte a = d.pte a
  pde : (d'.pde (PDX va)).isSome = true
  rest : ∀ i, i ≠ PDX va → d'.pde i = d.pde i

theorem walkpgdir_wp (h : Owns l d frame held) (va : Nat) :
    Does l strict (walkpgdir d va true) held fun s r =>
      (r = none ∧ s = held) ∨ ∃ d', r = some d' ∧ Walked d va d' ∧ Owns l d' frame s := by
  unfold walkpgdir
  split
  · rename_i pgtab found
    exact wp_pure (Or.inr ⟨d, rfl, ⟨fun _ => rfl, found ▸ rfl, fun _ _ => rfl⟩, h⟩)
  · rename_i absent
    rw [if_neg (by simp)]
    apply wp_bind
    apply wp_alloc
    case empty => exact wp_pure (Or.inl ⟨rfl, rfl⟩)
    case taken =>
      intro pgtab member fresh
      refine wp_pure (Or.inr ⟨d.setPde va pgtab, rfl, ?_, ?_⟩)
      · constructor
        case pte => exact Pgdir.setPde_pte absent pgtab
        case pde => simp [Pgdir.setPde]
        case rest => exact fun i elsewhere => Function.update_of_ne elsewhere _ _
      · unfold Owns
        rw [Pgdir.owned_setPde absent]
        exact h.insert member fresh (by simp [Pgdir.owned, absent])

/-! ## mappages() -/

theorem mapPage_wp (h : Owns l d frame held) {a : Nat} (absent : strict → d.pte a = none)
    (pa : Page) (perm : Perm) :
    Does l strict (mapPage perm d a pa) held fun s r =>
      (r = none ∧ s = held) ∨ ∃ d', r = some (d'.setPte a (some ⟨pa, perm⟩)) ∧
        Walked d a d' ∧ Owns l d' frame s ∧ d.pte a = none := by
  unfold mapPage
  apply wp_bind
  refine wp_mono (walkpgdir_wp h a) ?_
  rintro s r (⟨rfl, rfl⟩ | ⟨d', rfl, walked, owns⟩)
  · exact wp_pure (Or.inl ⟨rfl, rfl⟩)
  · cases entry : d'.pte a with
    | none =>
        have before := (walked.pte a).symm.trans entry
        dsimp only
        rw [entry]
        exact wp_pure (Or.inr ⟨d', rfl, walked, owns, before⟩)
    | some e =>
        dsimp only
        rw [entry]
        apply wp_fail
        intro known
        have before := (walked.pte a).symm.trans entry
        rw [absent known] at before
        cases before

theorem mappages_one {a : Nat} (aligned : a % PGSIZE = 0) (small : a < 2 ^ 32) (d : Pgdir)
    (pa : Page) (perm : Perm) :
    mappages d a PGSIZE pa perm = mappagesLoop perm 0 d a pa := by
  have rounds : (PGROUNDDOWN ((a + PGSIZE + 2 ^ 32 - 1) % 2 ^ 32) + 2 ^ 32 - PGROUNDDOWN a) %
      2 ^ 32 / PGSIZE = 0 := by
    simp only [PGROUNDDOWN, PGSIZE] at *
    omega
  have start : PGROUNDDOWN a = a := by
    simp only [PGROUNDDOWN, PGSIZE] at *
    omega
  unfold mappages
  dsimp only
  rw [rounds, start]

/-- A page that has been put aside is mapped, or nothing is changed. -/
theorem mappages_wp {mem : Page} (h : Owns l d (insert mem frame) held) (fresh : mem ∉ frame)
    {a : Nat} (aligned : a % PGSIZE = 0) (below : a < KERNBASE) (absent : strict → d.pte a = none)
    (perm : Perm) :
    Does l strict (mappages d a PGSIZE mem perm) held fun s r =>
      (r = (d, false) ∧ s = held) ∨ ∃ d', r = (d', true) ∧ Owns l d' frame s ∧
        ∀ va, va < 2 ^ 32 →
          d'.pte va = if va / PGSIZE = a / PGSIZE then some ⟨mem, perm⟩ else d.pte va := by
  have small : a < 2 ^ 32 := by
    simp only [KERNBASE] at below
    omega
  rw [mappages_one aligned small]
  unfold mappagesLoop
  apply wp_bind
  refine wp_mono (mapPage_wp h absent mem perm) ?_
  rintro s r (⟨rfl, rfl⟩ | ⟨d', rfl, walked, owns, before⟩)
  · exact wp_pure (Or.inl ⟨rfl, rfl⟩)
  · refine wp_pure (Or.inr ⟨_, rfl, ?_, ?_⟩)
    · unfold Owns
      rw [Pgdir.owned_setPte walked.pde below]
      apply owns.place fresh
      rw [Pgdir.owned_user below, walked.pte a, before]
      rfl
    · intro va inside
      rw [Pgdir.setPte_pte walked.pde _ small inside, walked.pte va]

/-- No address from `a` on is mapped. -/
def Pgdir.ClearFrom (d : Pgdir) (a : Nat) : Prop := ∀ va, a ≤ va → va < 2 ^ 32 → d.pte va = none

/-- What a round of mappages() above KERNBASE makes of the page directory. -/
structure Kernel.Mapped (d : Pgdir) (a : Nat) (d' : Pgdir) : Prop where
  user : ∀ i : Fin NPDENTRIES, i.val < 512 → d'.pde i = d.pde i
  clear : d'.ClearFrom a

theorem mapPage_kernel {a : Nat} (h : Owns l d frame held) (aligned : a % PGSIZE = 0)
    (above : KERNBASE ≤ a) (small : a < 2 ^ 32) (clear : d.ClearFrom a) (pa : Page) (perm : Perm) :
    Does l strict (mapPage perm d a pa) held fun s r =>
      (r = none ∧ s = held) ∨ ∃ d', r = some d' ∧ Owns l d' frame s ∧
        Kernel.Mapped d (a + PGSIZE) d' := by
  have page : PGSIZE = 4096 := rfl
  have absent : strict → d.pte a = none := fun _ => clear a (Nat.le_refl a) small
  have half := pdx_kernel above small
  refine wp_mono (mapPage_wp h absent pa perm) ?_
  rintro s r (⟨rfl, rfl⟩ | ⟨d', rfl, walked, owns, _⟩)
  · exact Or.inl ⟨rfl, rfl⟩
  · refine Or.inr ⟨_, rfl, ?_, ?_, ?_⟩
    · unfold Owns
      rw [Pgdir.owned_setPte_kernel half]
      exact owns
    · intro i low
      have elsewhere : i ≠ PDX a := by
        rintro rfl
        omega
      rw [Pgdir.setPte_pde_ne elsewhere, walked.rest i elsewhere]
    · intro va after inside
      have away : ¬ va / PGSIZE = a / PGSIZE := by
        simp only [PGSIZE] at *
        omega
      rw [Pgdir.setPte_pte walked.pde _ small inside, if_neg away, walked.pte va]
      exact clear va (by omega) inside

theorem mappagesLoop_wp {left a : Nat} (h : Owns l d frame held) (aligned : a % PGSIZE = 0)
    (above : KERNBASE ≤ a) (inside : a + (left + 1) * PGSIZE ≤ 2 ^ 32) (clear : d.ClearFrom a)
    (pa : Page) (perm : Perm) :
    Does l strict (mappagesLoop perm left d a pa) held fun s r =>
      Owns l r.1 frame s ∧ (∀ i : Fin NPDENTRIES, i.val < 512 → r.1.pde i = d.pde i) ∧
        (r.2 = true → r.1.ClearFrom (a + (left + 1) * PGSIZE)) := by
  have page : PGSIZE = 4096 := rfl
  induction left generalizing d held a pa with
  | zero =>
      unfold mappagesLoop
      apply wp_bind
      refine wp_mono (mapPage_kernel h aligned above (by omega) clear pa perm) ?_
      rintro s r (⟨rfl, rfl⟩ | ⟨d', rfl, owns, mapped⟩)
      · exact wp_pure ⟨h, fun _ _ => rfl, fun impossible => by cases impossible⟩
      · refine wp_pure ⟨owns, mapped.user, fun _ => ?_⟩
        rw [Nat.zero_add, Nat.one_mul]
        exact mapped.clear
  | succ left ih =>
      have grown : (left + 1 + 1) * PGSIZE = (left + 1) * PGSIZE + PGSIZE := Nat.succ_mul _ _
      have on : (a + PGSIZE) % PGSIZE = 0 := (Nat.add_mod_right a PGSIZE).trans aligned
      unfold mappagesLoop
      apply wp_bind
      refine wp_mono (mapPage_kernel h aligned above (by omega) clear pa perm) ?_
      rintro s r (⟨rfl, rfl⟩ | ⟨d', rfl, owns, mapped⟩)
      · exact wp_pure ⟨h, fun _ _ => rfl, fun impossible => by cases impossible⟩
      · have next := ih owns (a := a + PGSIZE) on (by omega) (by omega) mapped.clear
          (pa + BitVec.ofNat 32 PGSIZE)
        refine wp_mono next ?_
        rintro s r ⟨owns, user, clear⟩
        refine ⟨owns, fun i low => (user i low).trans (mapped.user i low), ?_⟩
        intro done
        have same : a + PGSIZE + (left + 1) * PGSIZE = a + (left + 1 + 1) * PGSIZE := by omega
        exact same ▸ clear done

/-! ## deallocuvm() -/

theorem pgroundup_eq {sz : Nat} (small : sz ≤ KERNBASE) :
    PGROUNDUP sz = (sz + 4095) / 4096 * 4096 := by
  simp only [PGROUNDUP, PGSIZE, KERNBASE] at *
  omega

theorem pgroundup_aligned (sz : Nat) : PGROUNDUP sz % PGSIZE = 0 := Nat.mul_mod_left _ _

theorem page_iff {a va : Nat} (aligned : a % PGSIZE = 0) :
    va / PGSIZE = a / PGSIZE ↔ a ≤ va ∧ va < a + PGSIZE := by
  simp only [PGSIZE] at *
  omega

/-- The pages from `a` to `b` are not mapped any more. -/
structure Pgdir.Cleared (d : Pgdir) (a b : Nat) (d' : Pgdir) : Prop where
  pte : ∀ va, va < 2 ^ 32 → d'.pte va = if a ≤ va ∧ va < b then none else d.pte va
  page : d'.page = d.page

/-- The next address after a page table that does not exist. -/
theorem skip_eq {a : Nat} (below : a < KERNBASE) :
    PGADDR ((PDX a).val + 1) - PGSIZE + PGSIZE = (a / 2 ^ 22 + 1) * 2 ^ 22 := by
  simp only [PGADDR, PDX, PGSIZE, NPDENTRIES, KERNBASE] at *
  omega

theorem skip_none {a va : Nat} (absent : d.pde (PDX a) = none)
    (first : a ≤ va) (last : va < (a / 2 ^ 22 + 1) * 2 ^ 22) : d.pte va = none := by
  have same : PDX va = PDX a := by
    simp only [PDX, NPDENTRIES, Fin.mk.injEq]
    omega
  exact Pgdir.pte_none (same ▸ absent)

/-- The rest of the loop clears what comes after a page that is not mapped now. -/
theorem Pgdir.Cleared.from {a a' b : Nat} {d' : Pgdir} (rest : d.Cleared a' b d') (later : a ≤ a')
    (absent : ∀ va, va < 2 ^ 32 → a ≤ va → va < a' → d.pte va = none) : d.Cleared a b d' := by
  refine ⟨?_, rest.page⟩
  intro va inside
  rw [rest.pte va inside]
  by_cases before : a ≤ va ∧ va < a'
  · rw [if_neg (by omega), absent va inside before.1 before.2, ite_self]
  · have same : (a' ≤ va ∧ va < b) ↔ (a ≤ va ∧ va < b) := by omega
    simp only [same]

theorem Pgdir.Cleared.done {a oldsz : Nat} (aligned : a % PGSIZE = 0) (top : oldsz ≤ KERNBASE)
    (past : oldsz ≤ a) : d.Cleared a (PGROUNDUP oldsz) d := by
  have rounded := pgroundup_eq top
  refine ⟨?_, rfl⟩
  intro va _
  simp only [PGSIZE] at aligned
  rw [if_neg (by omega)]

/-- The rest of the loop clears what comes after a page that is unmapped now. -/
theorem Pgdir.Cleared.cons {a b : Nat} {d' : Pgdir} (small : a < 2 ^ 32)
    (aligned : a % PGSIZE = 0) (fits : a + PGSIZE ≤ b)
    (exists_pgtab : (d.pde (PDX a)).isSome = true)
    (rest : (d.setPte a none).Cleared (a + PGSIZE) b d') : d.Cleared a b d' := by
  have page : 0 < PGSIZE := by decide
  refine ⟨?_, rest.page.trans (Pgdir.setPte_page d a none)⟩
  intro va inside
  rw [rest.pte va inside, Pgdir.setPte_pte exists_pgtab none small inside]
  by_cases here : va / PGSIZE = a / PGSIZE
  · have whole := (page_iff aligned).mp here
    rw [if_pos here, ite_self, if_pos (by omega)]
  · have outside : ¬ (a ≤ va ∧ va < a + PGSIZE) := fun both => here ((page_iff aligned).mpr both)
    have same : (a + PGSIZE ≤ va ∧ va < b) ↔ (a ≤ va ∧ va < b) := by omega
    rw [if_neg here]
    simp only [same]

/-- The entry of a page of the process is cleared. -/
theorem Owns.unmap (h : Owns l d frame held) {a : Nat} (below : a < KERNBASE) {e : Pte}
    (entry : d.pte a = some e) : Owns l (d.setPte a none) frame (held \ {e.page}) := by
  unfold Owns
  rw [Pgdir.owned_setPte (Pgdir.pde_of_pte (entry ▸ rfl)) below]
  apply h.remove
  rw [Pgdir.owned_user below, entry]
  rfl

theorem deallocuvmLoop_wp {oldsz fuel a : Nat} (h : Owns l d frame held)
    (aligned : a % PGSIZE = 0) (top : oldsz ≤ KERNBASE) (enough : oldsz ≤ a + fuel * PGSIZE) :
    Does l strict (deallocuvmLoop l oldsz fuel d a) held fun s d' =>
      Owns l d' frame s ∧ d.Cleared a (PGROUNDUP oldsz) d' := by
  induction fuel generalizing d held a with
  | zero => exact wp_pure ⟨h, .done aligned top (by omega)⟩
  | succ fuel ih =>
      have page : PGSIZE = 4096 := rfl
      have on : (a + PGSIZE) % PGSIZE = 0 := (Nat.add_mod_right a PGSIZE).trans aligned
      have grown : (fuel + 1) * PGSIZE = fuel * PGSIZE + PGSIZE := Nat.succ_mul _ _
      unfold deallocuvmLoop
      split
      · rename_i more
        have below : a < KERNBASE := by omega
        have small : a < 2 ^ 32 := by
          simp only [KERNBASE] at below
          omega
        have whole : ∀ {va}, va / PGSIZE = a / PGSIZE ↔ a ≤ va ∧ va < a + PGSIZE :=
          page_iff aligned
        have fits : a + PGSIZE ≤ PGROUNDUP oldsz := by
          rw [pgroundup_eq top]
          simp only [PGSIZE] at *
          omega
        apply wp_bind
        rw [walkpgdir_read]
        apply wp_pure
        cases walked : d.pde (PDX a) with
        | none =>
            have skipped := skip_eq below
            have aligned' : (a / 2 ^ 22 + 1) * 2 ^ 22 % PGSIZE = 0 := by
              simp only [PGSIZE]
              omega
            have further : a + PGSIZE ≤ (a / 2 ^ 22 + 1) * 2 ^ 22 := by
              simp only [PGSIZE] at *
              omega
            simp only [Option.isSome_none, Bool.false_eq_true, if_false, skipped]
            refine wp_mono (ih h aligned' (by omega)) ?_
            rintro s d' ⟨owns, cleared⟩
            refine ⟨owns, cleared.from (by omega) ?_⟩
            exact fun va _ first last => skip_none walked first last
        | some pgtab =>
            simp only [Option.isSome_some, if_true]
            cases entry : d.pte a with
            | none =>
                dsimp only
                refine wp_mono (ih h on (by omega)) ?_
                rintro s d' ⟨owns, cleared⟩
                refine ⟨owns, cleared.from (by omega) ?_⟩
                intro va inside first last
                exact (Pgdir.pte_eq (whole.mpr ⟨first, last⟩) inside small).trans entry
            | some e =>
                have exists_pgtab := Pgdir.pde_of_pte (entry ▸ rfl : (d.pte a).isSome = true)
                have mine : d.owned (.user (PDX a) (PTX a)) = some e.page := by
                  rw [Pgdir.owned_user below, entry]
                  rfl
                dsimp only
                rw [if_neg (pool_ne_zero (h.member mine))]
                apply wp_bind
                apply kfree_wp h.inside (h.mem mine)
                refine wp_mono (ih (h.unmap below entry) on (by omega)) ?_
                rintro s d' ⟨owns, cleared⟩
                exact ⟨owns, cleared.cons small aligned fits exists_pgtab⟩
      · rename_i done
        exact wp_pure ⟨h, .done aligned top (by omega)⟩

theorem deallocuvm_wp {oldsz newsz : Nat} (h : Owns l d frame held) (top : oldsz ≤ KERNBASE) :
    Does l strict (deallocuvm l d oldsz newsz) held fun s r =>
      (oldsz ≤ newsz ∧ r = (d, oldsz) ∧ s = held) ∨
        (newsz < oldsz ∧ r.2 = newsz ∧ Owns l r.1 frame s ∧
          d.Cleared (PGROUNDUP newsz) (PGROUNDUP oldsz) r.1) := by
  unfold deallocuvm
  split
  · rename_i larger
    exact wp_pure (Or.inl ⟨larger, rfl, rfl⟩)
  · rename_i smaller
    have enough : oldsz ≤ PGROUNDUP newsz + NPDENTRIES * NPTENTRIES * PGSIZE := by
      simp only [PGSIZE, NPDENTRIES, NPTENTRIES, KERNBASE] at *
      omega
    apply wp_bind
    refine wp_mono (deallocuvmLoop_wp h (pgroundup_aligned newsz) top enough) ?_
    rintro s d' ⟨owns, cleared⟩
    exact wp_pure (Or.inr ⟨Nat.lt_of_not_ge smaller, rfl, owns, cleared⟩)

/-! ## freevm() -/

/-- What is left when the page tables of a list have been freed. -/
def without (f : Pgdir.Slot → Option Page) (gone : List (Fin NPDENTRIES)) :
    Pgdir.Slot → Option Page
  | .pgtab i => if i ∈ gone then none else f (.pgtab i)
  | slot => f slot

theorem without_cons (f : Pgdir.Slot → Option Page) (i : Fin NPDENTRIES)
    (rest : List (Fin NPDENTRIES)) :
    without f (i :: rest) = without (Function.update f (.pgtab i) none) rest := by
  funext slot
  cases slot with
  | pgdir => rfl
  | user j k => rfl
  | pgtab j =>
      by_cases same : j = i
      · subst same
        simp [without]
      · simp [without, same]

theorem freevmLoop_wp {f : Pgdir.Slot → Option Page} (is : List (Fin NPDENTRIES))
    (h : Holds l.pool f frame held) (once : is.Nodup)
    (tables : ∀ i ∈ is, f (.pgtab i) = (d.pde i).map PageTable.page) :
    Does l strict (freevmLoop l d is) held fun s _ => Holds l.pool (without f is) frame s := by
  induction is generalizing f held with
  | nil =>
      have same : without f [] = f := by
        funext slot
        cases slot <;> simp [without]
      unfold freevmLoop
      exact wp_pure (same.symm ▸ h)
  | cons i rest ih =>
      obtain ⟨absent, once⟩ := List.nodup_cons.mp once
      have here := tables i List.mem_cons_self
      have others : ∀ j ∈ rest,
          Function.update f (.pgtab i) none (.pgtab j) = (d.pde j).map PageTable.page := by
        intro j member
        have elsewhere : Pgdir.Slot.pgtab j ≠ .pgtab i := by
          rintro ⟨⟩
          exact absent member
        rw [Function.update_of_ne elsewhere]
        exact tables j (List.mem_cons_of_mem i member)
      rw [without_cons]
      unfold freevmLoop
      cases found : d.pde i with
      | none =>
          have empty : f (.pgtab i) = none := here.trans (by rw [found, Option.map_none])
          have same : Function.update f (.pgtab i) none = f := by
            rw [← empty]
            exact Function.update_eq_self _ f
          dsimp only
          rw [same] at others ⊢
          exact ih h once others
      | some pgtab =>
          rw [found] at here
          dsimp only
          apply wp_bind
          apply kfree_wp h.inside (h.mem here)
          exact ih (h.remove here) once others

theorem user_address (i : Fin NPDENTRIES) (j : Fin NPTENTRIES) (half : i.val < 512) :
    ∃ va, va < KERNBASE ∧ PDX va = i ∧ PTX va = j := by
  have entry : j.val < 1024 := j.isLt
  refine ⟨i.val * 2 ^ 22 + j.val * 2 ^ 12, ?_, ?_, ?_⟩
  · simp only [KERNBASE]
    omega
  · apply Fin.ext
    simp only [PDX, NPDENTRIES]
    omega
  · apply Fin.ext
    simp only [PTX, NPTENTRIES]
    omega

/-- After deallocuvm() of everything no user page is left. -/
theorem Pgdir.Cleared.user {d' : Pgdir} (cleared : d.Cleared (PGROUNDUP 0) (PGROUNDUP KERNBASE) d')
    (i : Fin NPDENTRIES) (j : Fin NPTENTRIES) : d'.owned (.user i j) = none := by
  by_cases half : i.val < 512
  · obtain ⟨va, below, rfl, rfl⟩ := user_address i j half
    have bounds : PGROUNDUP 0 ≤ va ∧ va < PGROUNDUP KERNBASE := ⟨Nat.zero_le va, below⟩
    have small : va < 2 ^ 32 := by
      simp only [KERNBASE] at below
      omega
    rw [Pgdir.owned_user below, cleared.pte va small, if_pos bounds]
    rfl
  · exact if_neg half

theorem deallocuvm_all (h : Owns l d frame held) :
    Does l strict (deallocuvm l d KERNBASE 0) held fun s r =>
      Owns l r.1 frame s ∧ d.Cleared (PGROUNDUP 0) (PGROUNDUP KERNBASE) r.1 := by
  have enough : KERNBASE ≤ PGROUNDUP 0 + NPDENTRIES * NPTENTRIES * PGSIZE := by
    simp only [KERNBASE, NPDENTRIES, NPTENTRIES, PGSIZE]
    omega
  unfold deallocuvm
  rw [if_neg (Nat.not_le_of_gt kernbase_pos)]
  apply wp_bind
  refine wp_mono (deallocuvmLoop_wp h (pgroundup_aligned 0) (Nat.le_refl _) enough) ?_
  intro s d' emptied
  exact wp_pure emptied

theorem freevm_wp (h : Owns l d frame held) :
    Does l strict (freevm l d) held fun s _ => s = frame := by
  unfold freevm
  apply wp_bind
  refine wp_mono (deallocuvm_all h) ?_
  rintro s r ⟨owns, cleared⟩
  have every : ∀ i ∈ List.finRange NPDENTRIES,
      r.1.owned (.pgtab i) = (r.1.pde i).map PageTable.page := fun i _ => rfl
  apply wp_bind
  refine wp_mono (freevmLoop_wp _ owns (List.nodup_finRange _) every) ?_
  intro s _ left
  have directory : without r.1.owned (List.finRange NPDENTRIES) .pgdir = some d.page :=
    congrArg some cleared.page
  apply kfree_wp left.inside (left.mem directory)
  apply (left.remove directory).emptied
  intro slot
  cases slot with
  | pgdir => simp
  | pgtab i => simp [without]
  | user i j => simp [without, cleared.user i j]

/-! ## setupkvm() -/

/-- The mappings come one after the other, from an address on. -/
def Ascending : Nat → List Kmap → Prop
  | _, [] => True
  | x, k :: rest =>
      x ≤ k.virt ∧ k.virt % PGSIZE = 0 ∧ 0 < k.size ∧ k.size % PGSIZE = 0 ∧
        k.virt + k.size ≤ 2 ^ 32 ∧ Ascending (k.virt + k.size) rest

theorem kmap_ascending (l : Layout) : Ascending KERNBASE (kmap l) := by
  have aligned := l.data_aligned
  have after := l.data_after
  have before := l.data_before
  simp only [kmap, Ascending, Kmap.size, V2P, KERNLINK, KERNBASE, EXTMEM, PHYSTOP, DEVSPACE,
    PGSIZE, true_and, and_true] at *
  omega

theorem mappages_whole {va size : Nat} (aligned : va % PGSIZE = 0) (pages : size % PGSIZE = 0)
    (some_page : 0 < size) (inside : va + size ≤ 2 ^ 32) (d : Pgdir) (pa : Page) (perm : Perm) :
    mappages d va size pa perm = mappagesLoop perm (size / PGSIZE - 1) d va pa := by
  have rounds : (PGROUNDDOWN ((va + size + 2 ^ 32 - 1) % 2 ^ 32) + 2 ^ 32 - PGROUNDDOWN va) %
      2 ^ 32 / PGSIZE = size / PGSIZE - 1 := by
    simp only [PGROUNDDOWN, PGSIZE] at *
    omega
  have start : PGROUNDDOWN va = va := by
    simp only [PGROUNDDOWN, PGSIZE] at *
    omega
  unfold mappages
  dsimp only
  rw [rounds, start]

/-- No page table of the user half. -/
def Pgdir.NoUser (d : Pgdir) : Prop := ∀ i : Fin NPDENTRIES, i.val < 512 → d.pde i = none

theorem setupkvmLoop_wp {x : Nat} (ks : List Kmap) (h : Owns l d frame held)
    (ascending : Ascending x ks) (above : KERNBASE ≤ x) (clear : d.ClearFrom x)
    (empty : d.NoUser) :
    Does l strict (setupkvmLoop l ks d) held fun s r =>
      (r = none ∧ s = frame) ∨ ∃ d', r = some d' ∧ Owns l d' frame s ∧ d'.NoUser := by
  induction ks generalizing x d held with
  | nil => exact wp_pure (Or.inr ⟨d, rfl, h, empty⟩)
  | cons k rest ih =>
      obtain ⟨later, aligned, some_page, pages, inside, ascending⟩ := ascending
      have whole : k.virt + (k.size / PGSIZE - 1 + 1) * PGSIZE = k.virt + k.size := by
        simp only [PGSIZE] at *
        omega
      unfold setupkvmLoop
      rw [mappages_whole aligned pages some_page inside]
      apply wp_bind
      refine wp_mono (mappagesLoop_wp h aligned (by omega) (by omega)
        (fun va first last => clear va (by omega) last) _ _) ?_
      rintro s ⟨d', done⟩ ⟨owns, user, cleared⟩
      cases done with
      | true =>
          have further := cleared rfl
          rw [whole] at further
          refine ih owns ascending (by omega) further ?_
          exact fun i low => (user i low).trans (empty i low)
      | false =>
          apply wp_bind
          refine wp_mono (freevm_wp owns) ?_
          rintro s _ rfl
          exact wp_pure (Or.inl ⟨rfl, rfl⟩)

theorem setupkvm_wp (inside : held ⊆ l.pool) :
    Does l strict (setupkvm l) held fun s r =>
      (r = none ∧ s = held) ∨ ∃ d, r = some d ∧ Owns l d held s ∧ d.NoUser := by
  unfold setupkvm
  apply wp_bind
  apply wp_alloc
  case empty => exact wp_pure (Or.inl ⟨rfl, rfl⟩)
  case taken =>
    intro page member fresh
    have low : ¬ KERNBASE + PHYSTOP > DEVSPACE := by decide
    dsimp only
    rw [if_neg low]
    have first : Owns l ⟨page, fun _ => none⟩ held (insert page held) := by
      have placed := (Holds.empty (f := fun _ : Pgdir.Slot => none) (fun _ => rfl) inside).insert
        member fresh (i := .pgdir) rfl
      refine cast (congrArg (fun f => Holds l.pool f held _) ?_) placed
      funext slot
      cases slot <;> simp [Pgdir.owned]
    refine setupkvmLoop_wp (kmap l) first (kmap_ascending l) (Nat.le_refl _) ?_ fun _ _ => rfl
    exact fun va _ _ => rfl

end Xv6.Public3
