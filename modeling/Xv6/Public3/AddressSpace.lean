import Xv6.Public3.VmRules

/-!
# User memory (vm.c, exec.c, proc.c)

The pages below KERNBASE are filled from address 0 on: the rules of the functions
that make a process larger or smaller, copy it or replace it.
-/

set_option autoImplicit false

namespace Xv6.Public3

open Xv6.Lib.Words
open Xv6.Lib.Allocation

variable {l : Layout} {strict : Prop} {d : Pgdir} {frame held : Set Page}

/-! ## Filled page directories -/

/-- What is mapped below KERNBASE are the pages up to an address. -/
structure Pgdir.Filled (d : Pgdir) (a : Nat) : Prop where
  below : ∀ va, va < a → (d.pte va).isSome = true
  above : ∀ va, a ≤ va → va < KERNBASE → d.pte va = none

theorem Pgdir.NoUser.filled (empty : d.NoUser) : d.Filled 0 := by
  constructor
  case below => exact fun va impossible => absurd impossible (Nat.not_lt_zero va)
  case above => exact fun va _ low => Pgdir.pte_none (empty _ (pdx_user low))

theorem Pgdir.Filled.cleared {a lo hi : Nat} {d' : Pgdir} (filled : d.Filled a)
    (cleared : d.Cleared lo hi d') (first : lo ≤ a) (last : a ≤ hi) (top : a ≤ KERNBASE) :
    d'.Filled lo := by
  have wide : KERNBASE < 2 ^ 32 := by decide
  constructor
  case below =>
    intro va low
    rw [cleared.pte va (by omega), if_neg (by omega)]
    exact filled.below va (by omega)
  case above =>
    intro va high low
    rw [cleared.pte va (by omega)]
    by_cases gone : va < hi
    · rw [if_pos ⟨high, gone⟩]
    · rw [if_neg (by omega)]
      exact filled.above va (by omega) low

theorem Pgdir.Filled.map {a : Nat} {d' : Pgdir} {e : Pte} (filled : d.Filled a)
    (aligned : a % PGSIZE = 0) (below : a < KERNBASE)
    (mapped : ∀ va, va < 2 ^ 32 → d'.pte va = if va / PGSIZE = a / PGSIZE then some e else d.pte va) :
    d'.Filled (a + PGSIZE) := by
  have wide : KERNBASE + PGSIZE < 2 ^ 32 := by decide
  constructor
  case below =>
    intro va low
    rw [mapped va (by omega)]
    by_cases here : va / PGSIZE = a / PGSIZE
    · rw [if_pos here]
      rfl
    · have before : ¬ (a ≤ va ∧ va < a + PGSIZE) := fun both => here ((page_iff aligned).mpr both)
      rw [if_neg here]
      exact filled.below va (by omega)
  case above =>
    intro va high low
    have away : ¬ va / PGSIZE = a / PGSIZE := by
      rw [page_iff aligned]
      omega
    rw [mapped va (by omega), if_neg away]
    exact filled.above va (by omega) low

/-! ## allocuvm() -/

theorem le_pgroundup {sz : Nat} (small : sz ≤ KERNBASE) : sz ≤ PGROUNDUP sz := by
  rw [pgroundup_eq small]
  omega

theorem pgroundup_top {sz : Nat} (small : sz ≤ KERNBASE) : PGROUNDUP sz ≤ KERNBASE := by
  rw [pgroundup_eq small]
  simp only [KERNBASE] at *
  omega

theorem pgroundup_pgroundup {sz : Nat} (small : sz ≤ KERNBASE) :
    PGROUNDUP (PGROUNDUP sz) = PGROUNDUP sz := by
  rw [pgroundup_eq (pgroundup_top small), pgroundup_eq small]
  omega

/-- What allocuvm() leaves when it gives up. -/
theorem allocuvm_gives_up {oldsz newsz a : Nat} (h : Owns l d frame held) (larger : oldsz ≤ newsz)
    (first : PGROUNDUP oldsz ≤ a) (more : a < newsz) (small : newsz < KERNBASE)
    (filled : strict → d.Filled a) :
    Does l strict (deallocuvm l d newsz oldsz) held fun s r =>
      Owns l r.1 frame s ∧ (strict → r.1.Filled (PGROUNDUP oldsz)) := by
  have old : oldsz ≤ PGROUNDUP oldsz := le_pgroundup (by omega)
  have new := le_pgroundup (Nat.le_of_lt small)
  refine wp_mono (deallocuvm_wp h (Nat.le_of_lt small)) ?_
  rintro s r (⟨impossible, _⟩ | ⟨_, _, owns, cleared⟩)
  · omega
  · refine ⟨owns, fun known => ?_⟩
    exact (filled known).cleared cleared first (by omega) (by omega)

theorem allocuvmLoop_wp {oldsz newsz left a : Nat} (h : Owns l d frame held)
    (larger : oldsz ≤ newsz) (small : newsz < KERNBASE) (first : PGROUNDUP oldsz ≤ a)
    (aligned : a % PGSIZE = 0) (last : a + left * PGSIZE = PGROUNDUP newsz)
    (filled : strict → d.Filled a) :
    Does l strict (allocuvmLoop l oldsz newsz left d a) held fun s r =>
      Owns l r.1 frame s ∧
        (r.2 = newsz ∧ (strict → r.1.Filled (PGROUNDUP newsz)) ∨
          r.2 = 0 ∧ (strict → r.1.Filled (PGROUNDUP oldsz))) := by
  induction left generalizing d held a with
  | zero =>
      rw [Nat.zero_mul, Nat.add_zero] at last
      exact wp_pure ⟨h, Or.inl ⟨rfl, last ▸ filled⟩⟩
  | succ left ih =>
      have grown : (left + 1) * PGSIZE = left * PGSIZE + PGSIZE := Nat.succ_mul _ _
      have on : (a + PGSIZE) % PGSIZE = 0 := (Nat.add_mod_right a PGSIZE).trans aligned
      have more : a < newsz := by
        have rounded := pgroundup_eq (Nat.le_of_lt small)
        simp only [PGSIZE] at *
        omega
      unfold allocuvmLoop
      apply wp_bind
      apply wp_alloc
      case empty =>
        apply wp_bind
        refine wp_mono (allocuvm_gives_up h larger first more small filled) ?_
        rintro s r ⟨owns, filled⟩
        exact wp_pure ⟨owns, Or.inr ⟨rfl, filled⟩⟩
      case taken =>
        intro mem member fresh
        have aside : mem ∉ frame := fun framed => fresh (h.frame_mem framed)
        have below : a < KERNBASE := by omega
        have absent : strict → d.pte a = none :=
          fun known => (filled known).above a (Nat.le_refl a) below
        apply wp_bind
        refine wp_mono (mappages_wp (h.aside member fresh) aside aligned below absent user) ?_
        rintro s r (⟨rfl, rfl⟩ | ⟨d', rfl, owns, mapped⟩)
        · apply wp_bind
          refine wp_mono (allocuvm_gives_up (h.aside member fresh) larger first more small filled) ?_
          rintro s r ⟨owns, filled⟩
          apply wp_bind
          apply kfree_wp owns.inside (owns.frame_mem (Set.mem_insert mem frame))
          exact wp_pure ⟨owns.unaside aside, Or.inr ⟨rfl, filled⟩⟩
        · exact ih owns (by omega) on (by omega)
            fun known => (filled known).map aligned below mapped

/-- The new size is the larger one, or 0 and the pages are those of the old one. -/
theorem allocuvm_wp {oldsz newsz : Nat} (h : Owns l d frame held)
    (filled : strict → d.Filled (PGROUNDUP oldsz)) :
    Does l strict (allocuvm l d oldsz newsz) held fun s r =>
      Owns l r.1 frame s ∧
        (r.2 = 0 ∧ (strict → r.1.Filled (PGROUNDUP oldsz)) ∨
          newsz < KERNBASE ∧ r.2 = max oldsz newsz ∧ (strict → r.1.Filled (PGROUNDUP r.2))) := by
  unfold allocuvm
  split
  · exact wp_pure ⟨h, Or.inl ⟨rfl, filled⟩⟩
  · rename_i low
    have small : newsz < KERNBASE := Nat.lt_of_not_ge low
    split
    · rename_i smaller
      have same : oldsz = max oldsz newsz := (Nat.max_eq_left (Nat.le_of_lt smaller)).symm
      exact wp_pure ⟨h, Or.inr ⟨small, same, filled⟩⟩
    · rename_i larger
      have last : PGROUNDUP oldsz +
          (newsz + PGSIZE - 1 - PGROUNDUP oldsz) / PGSIZE * PGSIZE = PGROUNDUP newsz := by
        have rounded : PGROUNDUP oldsz = (oldsz + PGSIZE - 1) / PGSIZE * PGSIZE :=
          pgroundup_eq (by omega)
        rw [rounded, pgroundup_eq (Nat.le_of_lt small)]
        simp only [PGSIZE]
        omega
      refine wp_mono (allocuvmLoop_wp h (Nat.le_of_not_lt larger) small (Nat.le_refl _)
        (pgroundup_aligned oldsz) last filled) ?_
      rintro s ⟨d', sz⟩ ⟨owns, ⟨rfl, filled⟩ | ⟨rfl, filled⟩⟩
      · exact ⟨owns, Or.inr ⟨small, by omega, filled⟩⟩
      · exact ⟨owns, Or.inl ⟨rfl, filled⟩⟩

/-! ## copyuvm() -/

theorem copyuvmLoop_wp {pgdir : Pgdir} {sz left i : Nat} (h : Owns l d frame held)
    (small : sz < KERNBASE) (source : strict → pgdir.Filled (PGROUNDUP sz))
    (aligned : i % PGSIZE = 0) (last : i + left * PGSIZE = PGROUNDUP sz)
    (filled : strict → d.Filled i) :
    Does l strict (copyuvmLoop l pgdir left d i) held fun s r =>
      (r = none ∧ s = frame) ∨
        ∃ d', r = some d' ∧ Owns l d' frame s ∧ (strict → d'.Filled (PGROUNDUP sz)) := by
  induction left generalizing d held i with
  | zero =>
      rw [Nat.zero_mul, Nat.add_zero] at last
      exact wp_pure (Or.inr ⟨d, rfl, h, last ▸ filled⟩)
  | succ left ih =>
      have grown : (left + 1) * PGSIZE = left * PGSIZE + PGSIZE := Nat.succ_mul _ _
      have on : (i + PGSIZE) % PGSIZE = 0 := (Nat.add_mod_right i PGSIZE).trans aligned
      have inside : i < PGROUNDUP sz ∧ i < KERNBASE := by
        have rounded := pgroundup_eq (Nat.le_of_lt small)
        simp only [PGSIZE] at *
        omega
      have present : strict → (pgdir.pte i).isSome = true :=
        fun known => (source known).below i inside.1
      unfold copyuvmLoop
      apply wp_bind
      rw [walkpgdir_read]
      apply wp_pure
      cases walked : pgdir.pde (PDX i) with
      | none =>
          apply wp_fail
          intro known
          have entry := Pgdir.pde_of_pte (present known)
          rw [walked] at entry
          cases entry
      | some pgtab =>
          simp only [Option.isSome_some, if_true]
          cases entry : pgdir.pte i with
          | none =>
              apply wp_fail
              intro known
              have found := present known
              rw [entry] at found
              cases found
          | some e =>
              dsimp only
              apply wp_bind
              apply wp_alloc
              case empty =>
                apply wp_bind
                refine wp_mono (freevm_wp h) ?_
                rintro s _ rfl
                exact wp_pure (Or.inl ⟨rfl, rfl⟩)
              case taken =>
                intro mem member fresh
                have aside : mem ∉ frame := fun framed => fresh (h.frame_mem framed)
                have absent : strict → d.pte i = none :=
                  fun known => (filled known).above i (Nat.le_refl i) inside.2
                apply wp_bind
                refine wp_mono (mappages_wp (h.aside member fresh) aside aligned inside.2 absent
                  e.perm) ?_
                rintro s r (⟨rfl, rfl⟩ | ⟨d', rfl, owns, mapped⟩)
                · have owns := h.aside member fresh
                  apply wp_bind
                  apply kfree_wp owns.inside (owns.frame_mem (Set.mem_insert mem frame))
                  apply wp_bind
                  refine wp_mono (freevm_wp (owns.unaside aside)) ?_
                  rintro s _ rfl
                  exact wp_pure (Or.inl ⟨rfl, rfl⟩)
                · exact ih owns on (by omega)
                    fun known => (filled known).map aligned inside.2 mapped

theorem copyuvm_wp {pgdir : Pgdir} {sz : Nat} (inside : held ⊆ l.pool) (small : sz < KERNBASE)
    (source : strict → pgdir.Filled (PGROUNDUP sz)) :
    Does l strict (copyuvm l pgdir sz) held fun s r =>
      (r = none ∧ s = held) ∨
        ∃ d, r = some d ∧ Owns l d held s ∧ (strict → d.Filled (PGROUNDUP sz)) := by
  have last : 0 + (sz + PGSIZE - 1) / PGSIZE * PGSIZE = PGROUNDUP sz := by
    rw [pgroundup_eq (Nat.le_of_lt small)]
    simp only [PGSIZE]
    omega
  unfold copyuvm
  apply wp_bind
  refine wp_mono (setupkvm_wp inside) ?_
  rintro s r (⟨rfl, rfl⟩ | ⟨d, rfl, owns, empty⟩)
  · exact wp_pure (Or.inl ⟨rfl, rfl⟩)
  · exact copyuvmLoop_wp owns small source rfl last fun _ => empty.filled

/-! ## exec() -/

theorem clearpteu_wp {uva : Nat} (h : Owns l d frame held) (below : uva < KERNBASE)
    (present : strict → (d.pte uva).isSome = true) :
    Does l strict (clearpteu d uva) held fun s d' =>
      Owns l d' frame s ∧ ∀ a, a ≤ KERNBASE → d.Filled a → d'.Filled a := by
  have wide : KERNBASE < 2 ^ 32 := by decide
  unfold clearpteu
  apply wp_bind
  rw [walkpgdir_read]
  apply wp_pure
  cases walked : d.pde (PDX uva) with
  | none =>
      apply wp_fail
      intro known
      have entry := Pgdir.pde_of_pte (present known)
      rw [walked] at entry
      cases entry
  | some pgtab =>
      have exists_pgtab : (d.pde (PDX uva)).isSome = true := walked ▸ rfl
      simp only [Option.isSome_some, if_true]
      apply wp_pure
      constructor
      · have same := Pgdir.owned_user (d := d) below
        unfold Owns
        rw [Pgdir.owned_setPte exists_pgtab below, Option.map_map]
        have page : (Pte.page ∘ fun e : Pte => { e with perm := { e.perm with u := false } }) =
            Pte.page := rfl
        rw [page, ← same, Function.update_eq_self]
        exact h
      · have entry : ∀ va, va < 2 ^ 32 → ∀ e : Pte → Pte,
            ((d.setPte uva ((d.pte uva).map e)).pte va).isSome = (d.pte va).isSome := by
          intro va inside e
          rw [Pgdir.setPte_pte exists_pgtab _ (by omega) inside]
          split
          · rename_i here
            rw [Pgdir.pte_eq here inside (by omega), Option.isSome_map]
          · rfl
        intro a top filled
        constructor
        case below =>
          intro va low
          rw [entry va (by omega)]
          exact filled.below va low
        case above =>
          intro va high low
          have before := entry va (by omega) fun e => { e with perm := { e.perm with u := false } }
          rw [filled.above va high low] at before
          exact Option.isSome_eq_false_iff.mp before |> Option.isNone_iff_eq_none.mp

/-- A segment whose bytes do not wrap around ends below the size that allocuvm() has made. -/
theorem segment_inside {ph : Proghdr} {sz : Nat} (covers : ¬ ph.memsz < ph.filesz)
    (no_wrap : ¬ ph.vaddr + ph.memsz < ph.vaddr) (aligned : ph.vaddr.toNat % PGSIZE = 0)
    (grown : (ph.vaddr + ph.memsz).toNat ≤ sz) (small : sz ≤ KERNBASE) :
    ph.vaddr.toNat + (ph.filesz.toNat + PGSIZE - 1) / PGSIZE * PGSIZE ≤ PGROUNDUP sz := by
  have vaddr := ph.vaddr.isLt
  have memsz := ph.memsz.isLt
  rw [BitVec.lt_def, BitVec.toNat_add] at no_wrap
  rw [BitVec.lt_def] at covers
  rw [BitVec.toNat_add] at grown
  rw [pgroundup_eq small]
  simp only [PGSIZE] at *
  omega

/-- The pages of a segment exist. -/
theorem loaduvmLoop_wp {left reads a top : Nat} (filled : strict → d.Filled top)
    (inside : a + left * PGSIZE ≤ top) {post : Set Page → Bool → Prop}
    (loaded : ∀ done, post held done) : Does l strict (loaduvmLoop d left reads a) held post := by
  induction left generalizing reads a with
  | zero => exact wp_pure (loaded true)
  | succ left ih =>
      have grown : (left + 1) * PGSIZE = left * PGSIZE + PGSIZE := Nat.succ_mul _ _
      have page : 0 < PGSIZE := by decide
      unfold loaduvmLoop
      apply wp_bind
      rw [walkpgdir_read]
      apply wp_pure
      cases walked : d.pde (PDX a) with
      | none =>
          apply wp_fail
          intro known
          have entry := Pgdir.pde_of_pte ((filled known).below a (by omega))
          rw [walked] at entry
          cases entry
      | some pgtab =>
          simp only [Option.isSome_some, if_true]
          cases reads with
          | zero => exact wp_pure (loaded false)
          | succ reads => exact ih (by omega)

theorem loadLoop_wp {sz : Nat} (ph : List (Option Proghdr)) (h : Owns l d frame held)
    (small : sz < KERNBASE) (filled : strict → d.Filled (PGROUNDUP sz)) :
    Does l strict (loadLoop l ph d sz) held fun s r =>
      Owns l r.1 frame s ∧
        ∀ sz', r.2 = some sz' → sz' < KERNBASE ∧ (strict → r.1.Filled (PGROUNDUP sz')) := by
  induction ph generalizing d held sz with
  | nil =>
      refine wp_pure ⟨h, ?_⟩
      rintro _ ⟨⟩
      exact ⟨small, filled⟩
  | cons first rest ih =>
      cases first with
      | none => exact wp_pure ⟨h, fun _ impossible => by cases impossible⟩
      | some ph =>
          unfold loadLoop
          split
          · exact ih h small filled
          · split
            · exact wp_pure ⟨h, fun _ impossible => by cases impossible⟩
            · rename_i covers
              split
              · exact wp_pure ⟨h, fun _ impossible => by cases impossible⟩
              · rename_i no_wrap
                apply wp_bind
                refine wp_mono (allocuvm_wp h filled) ?_
                rintro s ⟨d', new⟩ ⟨owns, grown⟩
                dsimp only at grown owns ⊢
                split
                · exact wp_pure ⟨owns, fun _ impossible => by cases impossible⟩
                · rename_i nonzero
                  obtain ⟨zero, _⟩ | ⟨low, larger, filled⟩ := grown
                  · exact absurd zero nonzero
                  · split
                    · exact wp_pure ⟨owns, fun _ impossible => by cases impossible⟩
                    · rename_i aligned
                      apply wp_bind
                      unfold loaduvm
                      have whole := Decidable.not_not.mp aligned
                      have inside := segment_inside covers no_wrap whole
                        (larger ▸ Nat.le_max_right _ _) (by omega)
                      apply loaduvmLoop_wp filled inside
                      intro done
                      split
                      · exact ih owns (by omega) filled
                      · exact wp_pure ⟨owns, fun _ impossible => by cases impossible⟩

/-! ## The memory of a process -/

/-- What is known of the memory of a process between its system calls; that the
pages are the ones that `sz` says only if the `strict` condition holds. -/
structure Image.Sound (strict : Prop) (im : Image) : Prop where
  small : im.sz < KERNBASE
  some_byte : 0 < im.sz
  filled : strict → im.pgdir.Filled (PGROUNDUP im.sz)

theorem execBad_wp {old : Image} (h : Owns l d held frame) :
    Does l strict (execBad l old d) frame fun s r => r = (old, false) ∧ s = held := by
  unfold execBad
  apply wp_bind
  refine wp_mono (freevm_wp h) ?_
  rintro s _ rfl
  exact wp_pure ⟨rfl, rfl⟩

/-- exec() leaves the process as it was, or with the pages of a new image only. -/
theorem exec_wp {old : Image} (h : Owns l old.pgdir ∅ held) (path : Option Program) :
    Does l strict (exec l old path) held fun s r =>
      (r = (old, false) ∧ s = held) ∨
        ∃ im, r = (im, true) ∧ Owns l im.pgdir ∅ s ∧ im.Sound strict := by
  have stays : ∀ {s : Set Page} {r : Image × Bool}, r = (old, false) ∧ s = held →
      (r = (old, false) ∧ s = held) ∨
        ∃ im, r = (im, true) ∧ Owns l im.pgdir ∅ s ∧ im.Sound strict := Or.inl
  cases path with
  | none => exact wp_pure (stays ⟨rfl, rfl⟩)
  | some file =>
      unfold exec
      dsimp only
      split
      · exact wp_pure (stays ⟨rfl, rfl⟩)
      · apply wp_bind
        refine wp_mono (setupkvm_wp h.inside) ?_
        rintro s r (⟨rfl, rfl⟩ | ⟨d, rfl, owns, empty⟩)
        · exact wp_pure (stays ⟨rfl, rfl⟩)
        · apply wp_bind
          refine wp_mono (loadLoop_wp file.ph owns kernbase_pos fun _ => empty.filled) ?_
          rintro s ⟨d, _ | sz⟩ ⟨owns, loaded⟩
          · exact wp_mono (execBad_wp owns) fun _ _ => stays
          · obtain ⟨small, filled⟩ := loaded sz rfl
            have top := pgroundup_top (Nat.le_of_lt small)
            have whole := pgroundup_pgroundup (Nat.le_of_lt small)
            have wide : KERNBASE + 2 * PGSIZE < 2 ^ 32 := by decide
            have stack : 0 < 2 * PGSIZE := by decide
            dsimp only
            rw [Nat.mod_eq_of_lt (by omega)]
            apply wp_bind
            refine wp_mono (allocuvm_wp owns (whole.symm ▸ filled)) ?_
            rintro s ⟨d, new⟩ ⟨owns, grown⟩
            dsimp only at owns grown ⊢
            split
            · exact wp_mono (execBad_wp owns) fun _ _ => stays
            · rename_i nonzero
              obtain ⟨zero, _⟩ | ⟨low, larger, filled⟩ := grown
              · exact absurd zero nonzero
              · rw [Nat.max_eq_right (Nat.le_add_right _ _)] at larger
                have above : new ≤ PGROUNDUP new := le_pgroundup (by omega)
                have guard : strict → (d.pte (new - 2 * PGSIZE)).isSome = true :=
                  fun known => (filled known).below _ (by omega)
                apply wp_bind
                refine wp_mono (clearpteu_wp owns (by omega) guard) ?_
                rintro s d' ⟨owns, kept⟩
                split
                · exact wp_mono (execBad_wp owns) fun _ _ => stays
                · obtain ⟨rest, before, after⟩ := owns.swap h
                  apply wp_bind
                  refine wp_mono (freevm_wp before) ?_
                  rintro s _ rfl
                  have fits : new < KERNBASE := by omega
                  have positive : 0 < new := by omega
                  refine wp_pure (Or.inr ⟨_, rfl, after, fits, positive, fun known => ?_⟩)
                  exact kept _ (pgroundup_top (Nat.le_of_lt fits)) (filled known)

/-! ## growproc(), fork() and wait() -/

/-- sbrk(-sz), which frees every page of the process and is taken for a failure. -/
def Image.Emptied (im : Image) (n : Word) : Prop := n.toInt = -(im.sz : Int)

instance (im : Image) (n : Word) : Decidable (im.Emptied n) := inferInstanceAs (Decidable (_ = _))

theorem Image.emptied {im : Image} {n : Word} (small : im.sz < KERNBASE) (some_byte : 0 < im.sz)
    (zero : (im.sz + n.toNat) % 2 ^ 32 = 0) : im.Emptied n := by
  have bound := n.isLt
  unfold Image.Emptied
  simp only [KERNBASE] at small
  rw [BitVec.toInt_eq_toNat_cond, if_neg (by omega)]
  omega

theorem growproc_wp {im : Image} {n : Word} (h : Owns l im.pgdir frame held)
    (sound : im.Sound strict) (keeps : strict → ¬ im.Emptied n) :
    Does l strict (growproc l im n) held fun s r =>
      Owns l r.1.pgdir frame s ∧ r.1.Sound strict := by
  have positive := sound.some_byte
  have top := Nat.le_of_lt sound.small
  unfold growproc
  dsimp only
  split
  · apply wp_bind
    refine wp_mono (allocuvm_wp h sound.filled) ?_
    rintro s ⟨d, sz⟩ ⟨owns, ⟨rfl, filled⟩ | ⟨low, larger, filled⟩⟩
    · exact wp_pure ⟨owns, sound.small, positive, filled⟩
    · dsimp only at larger filled owns ⊢
      have nonzero : ¬ sz = 0 := by omega
      rw [if_neg nonzero]
      have small := sound.small
      exact wp_pure ⟨owns, by dsimp only; omega, Nat.pos_of_ne_zero nonzero, filled⟩
  · split
    · apply wp_bind
      refine wp_mono (deallocuvm_wp h top) ?_
      rintro s ⟨d, sz⟩ (⟨_, same, rfl⟩ | ⟨smaller, rfl, owns, cleared⟩)
      · obtain ⟨rfl, rfl⟩ := Prod.mk.inj same
        dsimp only
        rw [if_neg (Nat.ne_of_gt positive)]
        exact wp_pure ⟨h, sound⟩
      · dsimp only at owns cleared smaller ⊢
        split
        · rename_i zero
          refine wp_pure ⟨owns, sound.small, positive, fun known => ?_⟩
          exact absurd (Image.emptied sound.small positive zero) (keeps known)
        · rename_i nonzero
          have order : PGROUNDUP ((im.sz + n.toNat) % 2 ^ 32) ≤ PGROUNDUP im.sz := by
            rw [pgroundup_eq top, pgroundup_eq (by omega)]
            omega
          refine wp_pure ⟨owns, by dsimp only; omega, Nat.pos_of_ne_zero nonzero, fun known => ?_⟩
          exact (sound.filled known).cleared cleared order (Nat.le_refl _) (pgroundup_top top)
    · exact wp_pure ⟨h, sound⟩

/-- The kernel stack is put aside, and what copyuvm() has made is the child's. -/
theorem forkMemory_wp {im : Image} (inside : held ⊆ l.pool) (sound : im.Sound strict) :
    Does l strict (forkMemory l im) held fun s r =>
      (r = none ∧ s = held) ∨
        ∃ kstack child, r = some (kstack, child) ∧ kstack ∉ held ∧
          Owns l child.pgdir (insert kstack held) s ∧ child.Sound strict := by
  unfold forkMemory
  apply wp_bind
  apply wp_alloc
  case empty => exact wp_pure (Or.inl ⟨rfl, rfl⟩)
  case taken =>
    intro kstack member fresh
    have within : insert kstack held ⊆ l.pool := Set.insert_subset member inside
    apply wp_bind
    refine wp_mono (copyuvm_wp within sound.small sound.filled) ?_
    rintro s r (⟨rfl, rfl⟩ | ⟨d, rfl, owns, filled⟩)
    · have gone : insert kstack held \ {kstack} = held := Set.insert_sdiff_self_of_notMem fresh
      apply wp_bind
      apply kfree_wp within (Set.mem_insert kstack held)
      exact wp_pure (Or.inl ⟨rfl, gone⟩)
    · exact wp_pure (Or.inr ⟨kstack, _, rfl, fresh, owns, sound.small, sound.some_byte, filled⟩)

theorem waitMemory_wp {kstack : Page} {im : Image} (fresh : kstack ∉ frame)
    (h : Owns l im.pgdir (insert kstack frame) held) :
    Does l strict (waitMemory l kstack im) held fun s _ => s = frame := by
  unfold waitMemory
  apply wp_bind
  apply kfree_wp h.inside (h.frame_mem (Set.mem_insert kstack frame))
  exact freevm_wp (h.unaside fresh)

end Xv6.Public3
