import Mathlib.Order.Interval.Finset.Nat
import Xv6.Lib.Supply
import Xv6.Public3.AddressSpace

/-!
# The page tables of a new process (vm.c)

Which addresses setupkvm() and allocuvm() map, in which of the two halves, and with
how many pages from kalloc(): page tables exist for the blocks of 4 megabytes that
have a page, and for no others.
-/

set_option autoImplicit false

namespace Xv6.Public3

open Xv6.Lib.Words
open Xv6.Lib.Allocation

variable {l : Layout} {d d' : Pgdir}

/-! ## A part of the address space -/

/-- What one page table maps. -/
def BLOCK : Nat := 2 ^ 22

/-- The page tables for the addresses below `a`. -/
def tables (a : Nat) : Nat := (a + BLOCK - 1) / BLOCK

/-- Of the addresses from `lo` up to `hi` those below `a` are mapped, with this `PTE_U`. -/
structure Pgdir.Upto (d : Pgdir) (lo hi : Nat) (u : Bool) (a : Nat) : Prop where
  pte : ∀ va, lo ≤ va → va < hi →
    (d.pte va).map (fun e => e.perm.u) = if va < a then some u else none
  pde : ∀ va, lo ≤ va → va < hi →
    ((d.pde (PDX va)).isSome = true ↔ va / BLOCK * BLOCK < a)

/-- Nothing is changed in the page tables of other addresses. -/
def Pgdir.Elsewhere (lo hi : Nat) (d d' : Pgdir) : Prop :=
  ∀ va, va < 2 ^ 32 → va < lo ∨ hi ≤ va → d'.pde (PDX va) = d.pde (PDX va)

theorem Pgdir.Elsewhere.refl {lo hi : Nat} : Pgdir.Elsewhere lo hi d d := fun _ _ _ => rfl

theorem Pgdir.Elsewhere.trans {lo hi : Nat} {d'' : Pgdir} (first : Pgdir.Elsewhere lo hi d d')
    (second : Pgdir.Elsewhere lo hi d' d'') : Pgdir.Elsewhere lo hi d d'' :=
  fun va small outside => (second va small outside).trans (first va small outside)

theorem Pgdir.Upto.elsewhere {lo hi lo' hi' a : Nat} {u : Bool} (h : d.Upto lo hi u a)
    (same : Pgdir.Elsewhere lo' hi' d d') (apart : hi ≤ lo' ∨ hi' ≤ lo) (small : hi ≤ 2 ^ 32) :
    d'.Upto lo hi u a := by
  have table : ∀ va, lo ≤ va → va < hi → d'.pde (PDX va) = d.pde (PDX va) :=
    fun va first last => same va (by omega) (by omega)
  constructor
  case pte =>
    intro va first last
    rw [← h.pte va first last]
    unfold Pgdir.pte
    rw [table va first last]
  case pde =>
    intro va first last
    rw [table va first last]
    exact h.pde va first last

theorem pdx_ne {a va lo hi : Nat} (first : lo ≤ a) (last : a < hi) (low : lo % BLOCK = 0)
    (high : hi % BLOCK = 0) (small : va < 2 ^ 32) (top : hi ≤ 2 ^ 32)
    (outside : va < lo ∨ hi ≤ va) : PDX va ≠ PDX a := by
  simp only [PDX, NPDENTRIES, BLOCK, ne_eq, Fin.mk.injEq] at *
  omega

/-- One more page is mapped. -/
theorem Pgdir.Upto.map {lo hi a : Nat} {perm : Perm} (h : d.Upto lo hi perm.u a)
    (walked : Walked d a d') (aligned : a % PGSIZE = 0) (first : lo ≤ a) (last : a < hi)
    (low : lo % BLOCK = 0) (high : hi % BLOCK = 0) (top : hi ≤ 2 ^ 32) (pa : Page) :
    (d'.setPte a (some ⟨pa, perm⟩)).Upto lo hi perm.u (a + PGSIZE) ∧
      Pgdir.Elsewhere lo hi d (d'.setPte a (some ⟨pa, perm⟩)) := by
  have page : PGSIZE = 4096 := rfl
  refine ⟨?_, ?_⟩
  · constructor
    case pte =>
      intro va after before
      rw [Pgdir.setPte_pte walked.pde _ (by omega) (by omega), walked.pte va]
      by_cases here : va / PGSIZE = a / PGSIZE
      · have inside := (page_iff aligned).mp here
        rw [if_pos here, if_pos (by omega)]
        rfl
      · have outside : ¬ (a ≤ va ∧ va < a + PGSIZE) :=
          fun both => here ((page_iff aligned).mpr both)
        have same : va < a + PGSIZE ↔ va < a := by omega
        rw [if_neg here, h.pte va after before]
        simp only [same]
    case pde =>
      intro va after before
      by_cases same : PDX va = PDX a
      · have block : va / BLOCK = a / BLOCK := by
          simp only [PDX, NPDENTRIES, BLOCK, Fin.mk.injEq] at *
          omega
        have table : ((d'.setPte a (some ⟨pa, perm⟩)).pde (PDX a)).isSome = true := by
          obtain ⟨pgtab, found⟩ := Option.isSome_iff_exists.mp walked.pde
          rw [Pgdir.setPte_of_some found]
          simp
        rw [same, iff_true_left table, block]
        have below : a / BLOCK * BLOCK ≤ a := Nat.div_mul_le_self a BLOCK
        omega
      · have block : va / BLOCK ≠ a / BLOCK := by
          intro eq
          apply same
          simp only [PDX, NPDENTRIES, BLOCK, Fin.mk.injEq] at *
          omega
        rw [Pgdir.setPte_pde_ne same, walked.rest _ same, h.pde va after before]
        simp only [BLOCK, PGSIZE] at *
        omega
  · intro va small outside
    have away := pdx_ne first last low high small top outside
    rw [Pgdir.setPte_pde_ne away, walked.rest _ away]

/-! ## mappages() -/

theorem mapPage_returns {a : Nat} {pa : Page} {perm : Perm}
    (h : Returns (mapPage perm d a pa) (some d')) :
    ∃ mid, Walked d a mid ∧ d' = mid.setPte a (some ⟨pa, perm⟩) := by
  unfold mapPage at h
  obtain ⟨walked, first, second⟩ := returns_bind.mp h
  have table : ∀ {mid}, walked = some mid → Walked d a mid := by
    rintro mid rfl
    unfold walkpgdir at first
    cases found : d.pde (PDX a) with
    | some pgtab =>
        rw [found] at first
        cases returns_pure.mp first
        exact ⟨fun _ => rfl, found ▸ rfl, fun _ _ => rfl⟩
    | none =>
        rw [found] at first
        obtain ⟨pgtab, _, last⟩ := returns_bind.mp first
        cases pgtab with
        | none => cases returns_pure.mp last
        | some pgtab =>
            cases returns_pure.mp last
            constructor
            case pte => exact Pgdir.setPde_pte found pgtab
            case pde => simp [Pgdir.setPde]
            case rest => exact fun i elsewhere => Function.update_of_ne elsewhere _ _
  cases walked with
  | none => cases returns_pure.mp second
  | some mid =>
      refine ⟨mid, table rfl, ?_⟩
      dsimp only at second
      split at second
      · exact absurd second returns_fail
      · exact (Option.some.inj (returns_pure.mp second)).symm

/-- The page that a new page table takes. -/
theorem mapPage_given {lo hi a n : Nat} {perm : Perm} (h : d.Upto lo hi perm.u a)
    (aligned : a % PGSIZE = 0) (first : lo ≤ a) (last : a < hi) (pa : Page) :
    Given (mapPage perm d a pa) (n + (tables (a + PGSIZE) - tables a)) fun m r =>
      m = n ∧ ∃ d', r = some d' := by
  have absent : ∀ mid, Walked d a mid → (mid.pte a).isSome = false := by
    intro mid walked
    have here := h.pte a first last
    rw [if_neg (Nat.lt_irrefl a), Option.map_eq_none_iff] at here
    rw [walked.pte a, here]
    rfl
  have table := h.pde a first last
  unfold mapPage
  apply given_bind
  unfold walkpgdir
  cases found : d.pde (PDX a) with
  | some pgtab =>
      rw [found, Option.isSome_some, eq_self_iff_true, true_iff] at table
      have same : tables (a + PGSIZE) - tables a = 0 := by
        simp only [tables, BLOCK, PGSIZE] at *
        omega
      rw [same]
      apply given_pure
      have none_there := absent d ⟨fun _ => rfl, found ▸ rfl, fun _ _ => rfl⟩
      dsimp only
      rw [none_there]
      exact given_pure ⟨rfl, _, rfl⟩
  | none =>
      rw [found, Option.isSome_none] at table
      have one : tables (a + PGSIZE) - tables a = 1 := by
        have start : ¬ a / BLOCK * BLOCK < a := fun before => by cases table.mpr before
        simp only [tables, BLOCK, PGSIZE] at *
        omega
      rw [one, if_neg (by simp)]
      apply given_bind
      apply given_alloc
      intro pgtab
      apply given_pure
      have none_there := absent (d.setPde a pgtab) ⟨Pgdir.setPde_pte found pgtab,
        by simp [Pgdir.setPde], fun i elsewhere => Function.update_of_ne elsewhere _ _⟩
      dsimp only [Option.map_some]
      rw [none_there]
      exact given_pure ⟨rfl, _, rfl⟩

section Part
variable {lo hi : Nat} (perm : Perm) (low : lo % BLOCK = 0) (high : hi % BLOCK = 0)
  (top : hi ≤ 2 ^ 32)
include low high top

theorem mappagesLoop_returns {left a : Nat} {pa : Page} (h : d.Upto lo hi perm.u a)
    (aligned : a % PGSIZE = 0) (first : lo ≤ a) (last : a + (left + 1) * PGSIZE ≤ hi)
    (done : Returns (mappagesLoop perm left d a pa) (d', true)) :
    d'.Upto lo hi perm.u (a + (left + 1) * PGSIZE) ∧ Pgdir.Elsewhere lo hi d d' := by
  have page : PGSIZE = 4096 := rfl
  induction left generalizing d a pa with
  | zero =>
      unfold mappagesLoop at done
      obtain ⟨mapped, step, rest⟩ := returns_bind.mp done
      cases mapped with
      | none => cases returns_pure.mp rest
      | some mid =>
          cases returns_pure.mp rest
          obtain ⟨mid, walked, rfl⟩ := mapPage_returns step
          rw [Nat.zero_add, Nat.one_mul]
          exact h.map walked aligned first (by omega) low high top pa
  | succ left ih =>
      have grown : (left + 1 + 1) * PGSIZE = (left + 1) * PGSIZE + PGSIZE := Nat.succ_mul _ _
      have on : (a + PGSIZE) % PGSIZE = 0 := (Nat.add_mod_right a PGSIZE).trans aligned
      unfold mappagesLoop at done
      obtain ⟨mapped, step, rest⟩ := returns_bind.mp done
      cases mapped with
      | none => cases returns_pure.mp rest
      | some mid =>
          obtain ⟨mid, walked, rfl⟩ := mapPage_returns step
          obtain ⟨here, same⟩ := h.map walked aligned first (by omega) low high top pa
          obtain ⟨there, after⟩ := ih here on (by omega) (by omega) rest
          have bound : a + PGSIZE + (left + 1) * PGSIZE = a + (left + 1 + 1) * PGSIZE := by omega
          exact ⟨bound ▸ there, same.trans after⟩

theorem mappagesLoop_given (left n : Nat) {a : Nat} (h : d.Upto lo hi perm.u a)
    (aligned : a % PGSIZE = 0) (first : lo ≤ a) (last : a + (left + 1) * PGSIZE ≤ hi) (pa : Page) :
    Given (mappagesLoop perm left d a pa) (n + (tables (a + (left + 1) * PGSIZE) - tables a))
      fun m r => m = n ∧ r.2 = true := by
  have page : PGSIZE = 4096 := rfl
  induction left generalizing d a pa with
  | zero =>
      rw [Nat.zero_add, Nat.one_mul]
      unfold mappagesLoop
      apply given_bind
      refine given_mono (mapPage_given h aligned first (by omega) pa) ?_
      rintro m r ⟨rfl, mid, rfl⟩
      exact given_pure ⟨rfl, rfl⟩
  | succ left ih =>
      have grown : (left + 1 + 1) * PGSIZE = (left + 1) * PGSIZE + PGSIZE := Nat.succ_mul _ _
      have on : (a + PGSIZE) % PGSIZE = 0 := (Nat.add_mod_right a PGSIZE).trans aligned
      have bound : a + PGSIZE + (left + 1) * PGSIZE = a + (left + 1 + 1) * PGSIZE := by omega
      have split : n + (tables (a + (left + 1 + 1) * PGSIZE) - tables a) =
          n + (tables (a + (left + 1 + 1) * PGSIZE) - tables (a + PGSIZE)) +
            (tables (a + PGSIZE) - tables a) := by
        simp only [tables, BLOCK] at *
        omega
      unfold mappagesLoop
      apply given_bind
      rw [split]
      refine given_mono (given_returns (mapPage_given h aligned first (by omega) pa)) ?_
      rintro m r ⟨⟨rfl, mid, rfl⟩, step⟩
      obtain ⟨mid, walked, rfl⟩ := mapPage_returns step
      obtain ⟨here, _⟩ := h.map walked aligned first (by omega) low high top pa
      have rest := ih here on (by omega) (by omega) (pa + BitVec.ofNat 32 PGSIZE)
      rw [bound] at rest
      exact rest

end Part

/-! ## setupkvm() -/

/-- How far the user half, the memory above KERNBASE and the devices are mapped. -/
structure Pgdir.Space (d : Pgdir) (sz ram dev : Nat) : Prop where
  users : d.Upto 0 KERNBASE true sz
  ram : d.Upto KERNBASE (KERNBASE + PHYSTOP) false ram
  hole : d.Upto (KERNBASE + PHYSTOP) DEVSPACE false (KERNBASE + PHYSTOP)
  dev : d.Upto DEVSPACE (2 ^ 32) false dev

theorem Pgdir.Space.empty (page : Page) :
    (Pgdir.mk page fun _ => none).Space 0 KERNBASE DEVSPACE := by
  have nothing : ∀ {lo hi : Nat} {u : Bool}, lo % BLOCK = 0 →
      (Pgdir.mk page fun _ => none).Upto lo hi u lo := by
    intro lo hi u block
    constructor
    case pte =>
      intro va first _
      rw [if_neg (by omega)]
      rfl
    case pde =>
      intro va first _
      have start : lo ≤ va / BLOCK * BLOCK := by
        simp only [BLOCK] at *
        omega
      exact iff_of_false (by simp) (by omega)
  exact ⟨nothing rfl, nothing rfl, nothing rfl, nothing rfl⟩

/-- A mapping of the kernel's memory. -/
theorem Pgdir.Space.mapRam {va size : Nat} {pa : Page} {w : Bool} {dev sz : Nat}
    (h : d.Space sz va dev) (aligned : va % PGSIZE = 0) (pages : size % PGSIZE = 0)
    (some_page : 0 < size) (first : KERNBASE ≤ va) (last : va + size ≤ KERNBASE + PHYSTOP)
    (done : Returns (mappages d va size pa ⟨w, false⟩) (d', true)) :
    d'.Space sz (va + size) dev := by
  have wide : KERNBASE + PHYSTOP ≤ 2 ^ 32 := by decide
  have whole : va + (size / PGSIZE - 1 + 1) * PGSIZE = va + size := by
    simp only [PGSIZE] at *
    omega
  rw [mappages_whole aligned pages some_page (by omega)] at done
  have mapped := mappagesLoop_returns _ rfl rfl wide h.ram aligned first (by omega) done
  rw [whole] at mapped
  obtain ⟨here, same⟩ := mapped
  exact ⟨h.users.elsewhere same (Or.inl (Nat.le_refl _)) (by decide), here,
    h.hole.elsewhere same (Or.inr (Nat.le_refl _)) (by decide),
    h.dev.elsewhere same (Or.inr (by decide)) (Nat.le_refl _)⟩

theorem Pgdir.Space.mapDevices {pa : Page} {w : Bool} {ram sz : Nat} (h : d.Space sz ram DEVSPACE)
    (done : Returns (mappages d DEVSPACE (2 ^ 32 - DEVSPACE) pa ⟨w, false⟩) (d', true)) :
    d'.Space sz ram (2 ^ 32) := by
  have last : DEVSPACE + ((2 ^ 32 - DEVSPACE) / PGSIZE - 1 + 1) * PGSIZE = 2 ^ 32 := rfl
  rw [mappages_whole rfl rfl (by decide) (by decide)] at done
  have mapped := mappagesLoop_returns _ rfl rfl (Nat.le_refl _) h.dev rfl (Nat.le_refl _)
    (by decide) done
  rw [last] at mapped
  obtain ⟨here, same⟩ := mapped
  exact ⟨h.users.elsewhere same (Or.inl (by decide)) (by decide),
    h.ram.elsewhere same (Or.inl (by decide)) (by decide),
    h.hole.elsewhere same (Or.inl (Nat.le_refl _)) (by decide), here⟩

theorem Pgdir.Space.mapRam_given (size n : Nat) (w : Bool) {va dev sz : Nat}
    (h : d.Space sz va dev) (aligned : va % PGSIZE = 0) (pages : size % PGSIZE = 0)
    (some_page : 0 < size) (first : KERNBASE ≤ va) (last : va + size ≤ KERNBASE + PHYSTOP)
    (pa : Page) :
    Given (mappages d va size pa ⟨w, false⟩) (n + (tables (va + size) - tables va))
      fun m r => m = n ∧ r.2 = true := by
  have wide : KERNBASE + PHYSTOP ≤ 2 ^ 32 := by decide
  have whole : va + (size / PGSIZE - 1 + 1) * PGSIZE = va + size := by
    simp only [PGSIZE] at *
    omega
  rw [mappages_whole aligned pages some_page (by omega), ← whole]
  exact mappagesLoop_given _ rfl rfl wide _ n h.ram aligned first (by omega) pa

theorem Pgdir.Space.mapDevices_given {n : Nat} {w : Bool} {ram sz : Nat}
    (h : d.Space sz ram DEVSPACE) (pa : Page) :
    Given (mappages d DEVSPACE (2 ^ 32 - DEVSPACE) pa ⟨w, false⟩) (n + 8)
      fun m r => m = n ∧ r.2 = true := by
  rw [mappages_whole rfl rfl (by decide) (by decide)]
  exact mappagesLoop_given _ rfl rfl (Nat.le_refl _) _ n h.dev rfl (Nat.le_refl _) (by decide) pa

theorem setupkvmLoop_returns {k : Kmap} {rest : List Kmap}
    (h : Returns (setupkvmLoop l (k :: rest) d) (some d')) :
    ∃ mid, Returns (mappages d k.virt k.size (BitVec.ofNat 32 k.phys_start) k.perm) (mid, true) ∧
      Returns (setupkvmLoop l rest mid) (some d') := by
  unfold setupkvmLoop at h
  obtain ⟨⟨mid, done⟩, first, second⟩ := returns_bind.mp h
  cases done with
  | true => exact ⟨mid, first, second⟩
  | false =>
      obtain ⟨_, _, last⟩ := returns_bind.mp second
      cases returns_pure.mp last

theorem setupkvmLoop_given {k : Kmap} {rest : List Kmap} {n m : Nat}
    (first : Given (mappages d k.virt k.size (BitVec.ofNat 32 k.phys_start) k.perm) m
      fun m' r => m' = n ∧ r.2 = true)
    {post : Nat → Option Pgdir → Prop}
    (second : ∀ mid,
      Returns (mappages d k.virt k.size (BitVec.ofNat 32 k.phys_start) k.perm) (mid, true) →
      Given (setupkvmLoop l rest mid) n post) :
    Given (setupkvmLoop l (k :: rest) d) m post := by
  unfold setupkvmLoop
  apply given_bind
  refine given_mono (given_returns first) ?_
  rintro m' ⟨mid, done⟩ ⟨⟨rfl, rfl⟩, step⟩
  exact second mid step

theorem kmap_eq (l : Layout) : kmap l =
    [⟨KERNBASE, 0, EXTMEM, ⟨true, false⟩⟩,
      ⟨KERNLINK, V2P KERNLINK, V2P l.data, ⟨false, false⟩⟩,
      ⟨l.data, V2P l.data, PHYSTOP, ⟨true, false⟩⟩,
      ⟨DEVSPACE, DEVSPACE, 0, ⟨true, false⟩⟩] := rfl

/-- The sizes of the rows of kmap[]: the first three follow each other. -/
theorem kmap_sizes (l : Layout) :
    KERNLINK + (Kmap.mk KERNLINK (V2P KERNLINK) (V2P l.data) ⟨false, false⟩).size = l.data ∧
      l.data + (Kmap.mk l.data (V2P l.data) PHYSTOP ⟨true, false⟩).size = KERNBASE + PHYSTOP := by
  have after := l.data_after
  have before := l.data_before
  simp only [Kmap.size, V2P, KERNLINK, KERNBASE, EXTMEM, PHYSTOP] at *
  omega

theorem setupkvm_returns (h : Returns (setupkvm l) (some d)) :
    d.Space 0 (KERNBASE + PHYSTOP) (2 ^ 32) := by
  have aligned := l.data_aligned
  have after := l.data_after
  have before := l.data_before
  obtain ⟨text, data⟩ := kmap_sizes l
  have link : KERNLINK = KERNBASE + EXTMEM := rfl
  have page : KERNLINK % PGSIZE = 0 := rfl
  have top : (KERNBASE + PHYSTOP) % PGSIZE = 0 := rfl
  unfold setupkvm at h
  obtain ⟨pgdir, _, rest⟩ := returns_bind.mp h
  cases pgdir with
  | none => cases returns_pure.mp rest
  | some pgdir =>
      dsimp only at rest
      rw [if_neg (by decide), kmap_eq] at rest
      obtain ⟨d₁, io, rest⟩ := setupkvmLoop_returns rest
      obtain ⟨d₂, kernel, rest⟩ := setupkvmLoop_returns rest
      obtain ⟨d₃, memory, rest⟩ := setupkvmLoop_returns rest
      obtain ⟨d₄, devices, rest⟩ := setupkvmLoop_returns rest
      cases returns_pure.mp rest
      have s₁ : d₁.Space 0 KERNLINK DEVSPACE := (Pgdir.Space.empty pgdir).mapRam rfl rfl
        (by decide) (Nat.le_refl _) (by decide) io
      have s₂ := s₁.mapRam page
        (by simp only [PGSIZE] at *; omega) (by omega) (by omega) (by omega) kernel
      rw [text] at s₂
      have s₃ := s₂.mapRam aligned (by simp only [PGSIZE] at *; omega) (by omega) (by omega)
        (by omega) memory
      rw [data] at s₃
      exact s₃.mapDevices devices

/-- The page directory and 64 page tables. -/
theorem setupkvm_given (l : Layout) (n : Nat) :
    Given (setupkvm l) (n + 65) fun m r => m = n ∧ ∃ d, r = some d := by
  have aligned := l.data_aligned
  have after := l.data_after
  have before := l.data_before
  obtain ⟨text, data⟩ := kmap_sizes l
  have link : KERNLINK = KERNBASE + EXTMEM := rfl
  have page : KERNLINK % PGSIZE = 0 := rfl
  have top : (KERNBASE + PHYSTOP) % PGSIZE = 0 := rfl
  have whole : n + 64 = n + 8 + (tables (KERNBASE + PHYSTOP) - tables l.data) +
      (tables l.data - tables KERNLINK) + (tables KERNLINK - tables KERNBASE) := by
    simp only [tables, BLOCK, KERNLINK, KERNBASE, EXTMEM, PHYSTOP] at *
    omega
  unfold setupkvm
  apply given_bind
  apply given_alloc
  intro pgdir
  dsimp only
  rw [if_neg (by decide), kmap_eq, whole]
  have s₀ := Pgdir.Space.empty pgdir
  refine setupkvmLoop_given
    (s₀.mapRam_given _ _ _ rfl rfl (by decide) (Nat.le_refl _) (by decide) _) ?_
  intro d₁ io
  have s₁ : d₁.Space 0 KERNLINK DEVSPACE :=
    s₀.mapRam rfl rfl (by decide) (Nat.le_refl _) (by decide) io
  have second := s₁.mapRam_given
    (Kmap.mk KERNLINK (V2P KERNLINK) (V2P l.data) ⟨false, false⟩).size
    (n + 8 + (tables (KERNBASE + PHYSTOP) - tables l.data)) false page
    (by simp only [PGSIZE] at *; omega) (by omega) (by omega) (by omega)
    (BitVec.ofNat 32 (V2P KERNLINK))
  rw [text] at second
  refine setupkvmLoop_given second ?_
  intro d₂ kernel
  have s₂ := s₁.mapRam page
    (by simp only [PGSIZE] at *; omega) (by omega) (by omega) (by omega) kernel
  rw [text] at s₂
  have third := s₂.mapRam_given (Kmap.mk l.data (V2P l.data) PHYSTOP ⟨true, false⟩).size (n + 8)
    true aligned (by simp only [PGSIZE] at *; omega) (by omega) (by omega) (by omega)
    (BitVec.ofNat 32 (V2P l.data))
  rw [data] at third
  refine setupkvmLoop_given third ?_
  intro d₃ memory
  have s₃ := s₂.mapRam aligned (by simp only [PGSIZE] at *; omega) (by omega) (by omega)
    (by omega) memory
  rw [data] at s₃
  refine setupkvmLoop_given (s₃.mapDevices_given _) ?_
  intro d₄ devices
  exact given_pure ⟨rfl, d₄, rfl⟩

/-! ## allocuvm() -/

/-- The pages for the user memory up to a size, and their page tables. -/
def cost (sz : Nat) : Nat := PGROUNDUP sz / PGSIZE + tables (PGROUNDUP sz)

section User
variable {ram dev : Nat}

theorem Pgdir.Space.mapUser {a : Nat} {mem : Page} (h : d.Space a ram dev)
    (aligned : a % PGSIZE = 0) (below : a < KERNBASE)
    (done : Returns (mappages d a PGSIZE mem user) (d', true)) : d'.Space (a + PGSIZE) ram dev := by
  have page : PGSIZE = 4096 := rfl
  have wide : KERNBASE < 2 ^ 32 := by decide
  have last : a + (0 + 1) * PGSIZE ≤ KERNBASE := by
    simp only [KERNBASE, PGSIZE] at *
    omega
  rw [mappages_one aligned (by omega)] at done
  have mapped := mappagesLoop_returns user rfl rfl (Nat.le_of_lt wide) h.users aligned
    (Nat.zero_le a) last done
  rw [Nat.zero_add, Nat.one_mul] at mapped
  obtain ⟨here, same⟩ := mapped
  exact ⟨here, h.ram.elsewhere same (Or.inr (Nat.le_refl _)) (by decide),
    h.hole.elsewhere same (Or.inr (by decide)) (by decide),
    h.dev.elsewhere same (Or.inr (by decide)) (Nat.le_refl _)⟩

theorem Pgdir.Space.mapUser_given {a : Nat} (n : Nat) (h : d.Space a ram dev)
    (aligned : a % PGSIZE = 0) (below : a < KERNBASE) (mem : Page) :
    Given (mappages d a PGSIZE mem user) (n + (tables (a + PGSIZE) - tables a))
      fun m r => m = n ∧ r.2 = true := by
  have page : PGSIZE = 4096 := rfl
  have wide : KERNBASE < 2 ^ 32 := by decide
  have last : a + (0 + 1) * PGSIZE ≤ KERNBASE := by
    simp only [KERNBASE, PGSIZE] at *
    omega
  have mapped := mappagesLoop_given user rfl rfl (Nat.le_of_lt wide) 0 n h.users aligned
    (Nat.zero_le a) last mem
  rw [Nat.zero_add, Nat.one_mul] at mapped
  rw [mappages_one aligned (by omega)]
  exact mapped

theorem allocuvmLoop_returns {oldsz newsz left a sz : Nat} (h : d.Space a ram dev)
    (aligned : a % PGSIZE = 0) (last : a + left * PGSIZE ≤ KERNBASE) (some_page : sz ≠ 0)
    (done : Returns (allocuvmLoop l oldsz newsz left d a) (d', sz)) :
    sz = newsz ∧ d'.Space (a + left * PGSIZE) ram dev := by
  induction left generalizing d a with
  | zero =>
      cases returns_pure.mp done
      rw [Nat.zero_mul, Nat.add_zero]
      exact ⟨rfl, h⟩
  | succ left ih =>
      have grown : (left + 1) * PGSIZE = left * PGSIZE + PGSIZE := Nat.succ_mul _ _
      have page : PGSIZE = 4096 := rfl
      have on : (a + PGSIZE) % PGSIZE = 0 := (Nat.add_mod_right a PGSIZE).trans aligned
      unfold allocuvmLoop at done
      obtain ⟨mem, _, rest⟩ := returns_bind.mp done
      cases mem with
      | none =>
          obtain ⟨emptied, _, rest⟩ := returns_bind.mp rest
          cases returns_pure.mp rest
          exact absurd rfl some_page
      | some mem =>
          obtain ⟨⟨mid, mapped⟩, step, rest⟩ := returns_bind.mp rest
          cases mapped with
          | true =>
              have here := ih (h.mapUser aligned (by omega) step) on (by omega) rest
              have bound : a + PGSIZE + left * PGSIZE = a + (left + 1) * PGSIZE := by omega
              rw [bound] at here
              exact here
          | false =>
              obtain ⟨emptied, _, rest⟩ := returns_bind.mp rest
              obtain ⟨_, _, rest⟩ := returns_bind.mp rest
              cases returns_pure.mp rest
              exact absurd rfl some_page

theorem allocuvmLoop_given (l : Layout) (oldsz newsz left n : Nat) {a : Nat} (h : d.Space a ram dev)
    (aligned : a % PGSIZE = 0) (last : a + left * PGSIZE ≤ KERNBASE) :
    Given (allocuvmLoop l oldsz newsz left d a)
      (n + left + (tables (a + left * PGSIZE) - tables a)) fun m r => m = n ∧ r.2 = newsz := by
  induction left generalizing d a with
  | zero =>
      have nothing : n + 0 + (tables (a + 0 * PGSIZE) - tables a) = n := by
        rw [Nat.zero_mul, Nat.add_zero, Nat.add_zero, Nat.sub_self, Nat.add_zero]
      rw [nothing]
      exact given_pure ⟨rfl, rfl⟩
  | succ left ih =>
      have grown : (left + 1) * PGSIZE = left * PGSIZE + PGSIZE := Nat.succ_mul _ _
      have page : PGSIZE = 4096 := rfl
      have on : (a + PGSIZE) % PGSIZE = 0 := (Nat.add_mod_right a PGSIZE).trans aligned
      have bound : a + PGSIZE + left * PGSIZE = a + (left + 1) * PGSIZE := by omega
      have split : n + (left + 1) + (tables (a + (left + 1) * PGSIZE) - tables a) =
          n + left + (tables (a + (left + 1) * PGSIZE) - tables (a + PGSIZE)) +
            (tables (a + PGSIZE) - tables a) + 1 := by
        simp only [tables, BLOCK] at *
        omega
      rw [split]
      unfold allocuvmLoop
      apply given_bind
      apply given_alloc
      intro mem
      dsimp only
      apply given_bind
      refine given_mono (given_returns (h.mapUser_given _ aligned (by omega) mem)) ?_
      rintro m ⟨mid, done⟩ ⟨⟨rfl, rfl⟩, step⟩
      have rest := ih (h.mapUser aligned (by omega) step) on (by omega)
      rw [bound] at rest
      exact rest

/-- The rounds of allocuvm(). -/
theorem allocuvm_rounds {oldsz newsz : Nat} (larger : oldsz ≤ newsz) (small : newsz ≤ KERNBASE) :
    PGROUNDUP oldsz + (newsz + PGSIZE - 1 - PGROUNDUP oldsz) / PGSIZE * PGSIZE =
      PGROUNDUP newsz := by
  have old : PGROUNDUP oldsz = (oldsz + PGSIZE - 1) / PGSIZE * PGSIZE := pgroundup_eq (by omega)
  rw [old, pgroundup_eq small]
  simp only [PGSIZE]
  omega

theorem allocuvm_returns {oldsz newsz sz : Nat} (h : d.Space (PGROUNDUP oldsz) ram dev)
    (some_byte : sz ≠ 0) (done : Returns (allocuvm l d oldsz newsz) (d', sz)) :
    newsz < KERNBASE ∧ sz = max oldsz newsz ∧ d'.Space (PGROUNDUP sz) ram dev := by
  unfold allocuvm at done
  split at done
  · cases returns_pure.mp done
    exact absurd rfl some_byte
  · rename_i low
    have small : newsz < KERNBASE := Nat.lt_of_not_ge low
    split at done
    · cases returns_pure.mp done
      exact ⟨small, by omega, h⟩
    · have larger : oldsz ≤ newsz := by omega
      have last := allocuvm_rounds larger (Nat.le_of_lt small)
      have top := pgroundup_top (Nat.le_of_lt small)
      obtain ⟨rfl, mapped⟩ := allocuvmLoop_returns h (pgroundup_aligned oldsz) (by omega) some_byte
        done
      rw [last] at mapped
      exact ⟨small, by omega, mapped⟩

theorem allocuvm_given {oldsz newsz n : Nat} (h : d.Space (PGROUNDUP oldsz) ram dev)
    (small : newsz < KERNBASE) :
    Given (allocuvm l d oldsz newsz) (n + (cost (max oldsz newsz) - cost oldsz))
      fun m r => m = n ∧ r.2 = max oldsz newsz := by
  unfold allocuvm
  rw [if_neg (Nat.not_le_of_lt small)]
  split
  · rename_i smaller
    have same : max oldsz newsz = oldsz := Nat.max_eq_left (Nat.le_of_lt smaller)
    rw [same, Nat.sub_self]
    exact given_pure ⟨rfl, rfl⟩
  · have larger : oldsz ≤ newsz := by omega
    have last := allocuvm_rounds larger (Nat.le_of_lt small)
    have top := pgroundup_top (Nat.le_of_lt small)
    have rest := allocuvmLoop_given l oldsz newsz
      ((newsz + PGSIZE - 1 - PGROUNDUP oldsz) / PGSIZE) n h (pgroundup_aligned oldsz) (by omega)
    have pages : n + (newsz + PGSIZE - 1 - PGROUNDUP oldsz) / PGSIZE +
        (tables (PGROUNDUP newsz) - tables (PGROUNDUP oldsz)) = n + (cost newsz - cost oldsz) := by
      have aligned := pgroundup_aligned oldsz
      have grown : tables (PGROUNDUP oldsz) ≤ tables (PGROUNDUP newsz) := by
        simp only [tables, BLOCK]
        omega
      simp only [cost, PGSIZE] at *
      omega
    rw [last, pages] at rest
    rw [Nat.max_eq_right larger]
    exact rest

/-! ## clearpteu() -/

/-- The guard page is left to the kernel, and nothing else is changed. -/
structure Pgdir.Guarded (d : Pgdir) (uva : Nat) (d' : Pgdir) : Prop where
  guard : ∀ e, d.pte uva = some e → ∃ e', d'.pte uva = some e' ∧ e'.perm.u = false
  pte : ∀ va, va < 2 ^ 32 → va / PGSIZE ≠ uva / PGSIZE → d'.pte va = d.pte va
  pde : ∀ va, va < 2 ^ 32 → (d'.pde (PDX va)).isSome = (d.pde (PDX va)).isSome

theorem clearpteu_returns {uva : Nat} (small : uva < 2 ^ 32)
    (done : Returns (clearpteu d uva) d') : d.Guarded uva d' := by
  unfold clearpteu at done
  rw [walkpgdir_read] at done
  obtain ⟨walked, first, second⟩ := returns_bind.mp done
  cases returns_pure.mp first
  cases found : d.pde (PDX uva) with
  | none =>
      rw [found] at second
      exact absurd second returns_fail
  | some pgtab =>
      have table : (d.pde (PDX uva)).isSome = true := found ▸ rfl
      rw [if_pos table] at second
      cases returns_pure.mp second
      constructor
      case guard =>
        intro e entry
        rw [Pgdir.setPte_pte table _ small small, if_pos rfl, entry]
        exact ⟨_, rfl, rfl⟩
      case pte =>
        intro va inside elsewhere
        rw [Pgdir.setPte_pte table _ small inside, if_neg elsewhere]
      case pde =>
        intro va inside
        by_cases same : PDX va = PDX uva
        · rw [same, Pgdir.setPte_of_some found, found]
          simp
        · rw [Pgdir.setPte_pde_ne same]

theorem clearpteu_given {uva n : Nat} (table : (d.pde (PDX uva)).isSome = true) :
    Given (clearpteu d uva) n fun m _ => m = n := by
  unfold clearpteu
  rw [walkpgdir_read, if_pos table]
  exact given_pure rfl

end User

/-! ## The pages of a new address space -/

/-- The places of a page directory, numbered: the page tables, the page directory and then the
pages of the user half. -/
def slot (k : Nat) : Pgdir.Slot :=
  if k < NPDENTRIES then .pgtab ⟨k % NPDENTRIES, Nat.mod_lt k npdentries_pos⟩
  else if k = NPDENTRIES then .pgdir
  else .user (PDX ((k - NPDENTRIES - 1) * PGSIZE)) (PTX ((k - NPDENTRIES - 1) * PGSIZE))

theorem slot_inj {j k : Nat} (first : j ≤ NPDENTRIES + 2 ^ 19) (second : k ≤ NPDENTRIES + 2 ^ 19)
    (same : slot j = slot k) : j = k := by
  unfold slot at same
  simp only [PDX, PTX, PGSIZE, NPDENTRIES, NPTENTRIES] at *
  split_ifs at same with table table' pgdir pgdir'
  · simp only [Pgdir.Slot.pgtab.injEq, Fin.mk.injEq] at same
    omega
  · omega
  · simp only [Pgdir.Slot.user.injEq, Fin.mk.injEq] at same
    omega

/-- The places that setupkvm() and allocuvm() have filled. -/
def filledSlots (sz : Nat) : Finset Nat :=
  Finset.range (tables (PGROUNDUP sz)) ∪
    (Finset.Ico 512 568 ∪ Finset.Ico 1016 (NPDENTRIES + 1 + PGROUNDUP sz / PGSIZE))

theorem filledSlots_card {sz : Nat} (small : sz ≤ KERNBASE) :
    (filledSlots sz).card = 65 + cost sz := by
  have top := pgroundup_top small
  have half : tables (PGROUNDUP sz) ≤ 512 := by
    simp only [tables, BLOCK, KERNBASE] at *
    omega
  have apart : Disjoint (Finset.Ico 512 568)
      (Finset.Ico 1016 (NPDENTRIES + 1 + PGROUNDUP sz / PGSIZE)) := by
    rw [Finset.disjoint_left]
    intro k first second
    rw [Finset.mem_Ico] at first second
    omega
  have below : Disjoint (Finset.range (tables (PGROUNDUP sz)))
      (Finset.Ico 512 568 ∪ Finset.Ico 1016 (NPDENTRIES + 1 + PGROUNDUP sz / PGSIZE)) := by
    rw [Finset.disjoint_left]
    intro k first second
    rw [Finset.mem_union, Finset.mem_Ico, Finset.mem_Ico] at second
    rw [Finset.mem_range] at first
    omega
  unfold filledSlots
  rw [Finset.card_union_of_disjoint below, Finset.card_union_of_disjoint apart, Finset.card_range,
    Nat.card_Ico, Nat.card_Ico]
  simp only [cost, NPDENTRIES]
  generalize PGROUNDUP sz / PGSIZE = pages
  omega

theorem Pgdir.Space.filled_slot {sz k : Nat}
    (h : d.Space (PGROUNDUP sz) (KERNBASE + PHYSTOP) (2 ^ 32)) (small : sz ≤ KERNBASE)
    (member : k ∈ filledSlots sz) : ∃ page, d.owned (slot k) = some page := by
  have top := pgroundup_top small
  have table : ∀ va, PDX va = ⟨k % NPDENTRIES, Nat.mod_lt k npdentries_pos⟩ → k < NPDENTRIES →
      (d.pde (PDX va)).isSome = true → ∃ page, d.owned (slot k) = some page := by
    intro va here below present
    obtain ⟨pgtab, found⟩ := Option.isSome_iff_exists.mp present
    refine ⟨pgtab.page, ?_⟩
    rw [slot, if_pos below, Pgdir.owned, ← here, found]
    rfl
  have pdx : k < NPDENTRIES → PDX (k * BLOCK) = ⟨k % NPDENTRIES, Nat.mod_lt k npdentries_pos⟩ := by
    intro below
    apply Fin.ext
    simp only [PDX, BLOCK, NPDENTRIES] at *
    omega
  unfold filledSlots at member
  rw [Finset.mem_union, Finset.mem_union, Finset.mem_range, Finset.mem_Ico, Finset.mem_Ico]
    at member
  by_cases directory : k < NPDENTRIES
  · refine table (k * BLOCK) (pdx directory) directory ?_
    simp only [tables, BLOCK, NPDENTRIES, KERNBASE, PHYSTOP] at *
    obtain low | ram | dev := member
    · exact (h.users.pde _ (by omega) (by simp only [KERNBASE]; omega)).mpr
        (by simp only [BLOCK]; omega)
    · exact (h.ram.pde _ (by simp only [KERNBASE]; omega)
        (by simp only [KERNBASE, PHYSTOP]; omega)).mpr
        (by simp only [BLOCK]; omega)
    · exact (h.dev.pde _ (by simp only [DEVSPACE]; omega) (by omega)).mpr
        (by simp only [BLOCK]; omega)
  · by_cases own : k = NPDENTRIES
    · exact ⟨d.page, by rw [slot, if_neg directory, if_pos own, Pgdir.owned]⟩
    · have below : (k - NPDENTRIES - 1) * PGSIZE < PGROUNDUP sz := by
        have half : tables (PGROUNDUP sz) ≤ 512 := by
          simp only [tables, BLOCK, KERNBASE] at *
          omega
        simp only [PGSIZE, NPDENTRIES] at *
        omega
      have entry := h.users.pte _ (Nat.zero_le _) (Nat.lt_of_lt_of_le below top)
      rw [if_pos below, Option.map_eq_some_iff] at entry
      obtain ⟨e, found, _⟩ := entry
      refine ⟨e.page, ?_⟩
      rw [slot, if_neg directory, if_neg own,
        Pgdir.owned_user (Nat.lt_of_lt_of_le below top), found]
      rfl

theorem pool_finite (l : Layout) : l.pool.Finite := by
  have numbered : Function.Injective fun page : Page => page.toFin :=
    fun _ _ same => BitVec.toFin_inj.mp same
  have words : Finite Page := Finite.of_injective _ numbered
  exact Set.toFinite l.pool

/-- So many pages have been taken for a new address space. -/
theorem Pgdir.Space.count {sz : Nat} {frame held : Set Page} (owns : Owns l d frame held)
    (h : d.Space (PGROUNDUP sz) (KERNBASE + PHYSTOP) (2 ^ 32)) (small : sz ≤ KERNBASE) :
    65 + cost sz ≤ (l.pool \ frame).ncard := by
  have top := pgroundup_top small
  have bound : ∀ k ∈ filledSlots sz, k ≤ NPDENTRIES + 2 ^ 19 := by
    intro k member
    unfold filledSlots at member
    rw [Finset.mem_union, Finset.mem_union, Finset.mem_range, Finset.mem_Ico, Finset.mem_Ico]
      at member
    simp only [tables, BLOCK, KERNBASE, PGSIZE, NPDENTRIES] at *
    omega
  have inside : Set.MapsTo (fun k => (d.owned (slot k)).getD 0) (filledSlots sz : Set Nat)
      (l.pool \ frame) := by
    intro k member
    obtain ⟨page, here⟩ := h.filled_slot small member
    dsimp only
    rw [here]
    exact ⟨owns.member here, owns.apart here⟩
  have once : Set.InjOn (fun k => (d.owned (slot k)).getD 0) (filledSlots sz : Set Nat) := by
    intro j first k second same
    obtain ⟨page, here⟩ := h.filled_slot small first
    obtain ⟨page', there⟩ := h.filled_slot small second
    dsimp only at same
    rw [here, there] at same
    have same : page = page' := same
    rw [← same] at there
    exact slot_inj (bound j first) (bound k second) (owns.once here there)
  rw [← filledSlots_card small, ← Set.ncard_coe_finset]
  exact Set.ncard_le_ncard_of_injOn _ inside once ((pool_finite l).subset Set.sdiff_subset)

end Xv6.Public3
