import Xv6.Public3.PageOwnership

/-!
# The walk of deallocuvm() (vm.c)

deallocuvm() goes on at the next 4 megabytes where a page table does not exist.  It is
the same program as the loop that visits one page after the other.
-/

set_option autoImplicit false

namespace Xv6.Public3

open Xv6.Lib.Words
open Xv6.Lib.Allocation

variable (l : Layout)

/-! ## One page after the other -/

/-- What deallocuvm() does with the entry of a page. -/
def visit (d : Pgdir) (a : Nat) : Vm Pgdir :=
  match d.pte a with
  | none => pure d
  | some e =>
      if e.page = 0 then .fail .kfree
      else do
        kfree l e.page
        pure (d.setPte a none)

/-- So many pages from `a` on. -/
def visitLoop : Nat → Pgdir → Nat → Vm Pgdir
  | 0, d, _ => pure d
  | left + 1, d, a => do
      let d ← visit l d a
      visitLoop left d (a + PGSIZE)

/-- The pages from `PGROUNDUP(newsz)` on that begin below `oldsz`. -/
def pagesBetween (newsz oldsz : Nat) : Nat := (oldsz + PGSIZE - 1 - PGROUNDUP newsz) / PGSIZE

/-- deallocuvm() without the jumps. -/
def deallocuvmPages (d : Pgdir) (oldsz newsz : Nat) : Vm (Pgdir × Nat) := do
  let d ← visitLoop l (pagesBetween newsz oldsz) d (PGROUNDUP newsz)
  pure (d, newsz)

variable {l} {d : Pgdir}

theorem visit_none {a : Nat} (absent : d.pte a = none) : visit l d a = pure d := by
  unfold visit
  rw [absent]

/-- Pages that are not mapped. -/
theorem visitLoop_skip (k left a : Nat)
    (absent : ∀ va, a ≤ va → va < a + k * PGSIZE → d.pte va = none) :
    visitLoop l (k + left) d a = visitLoop l left d (a + k * PGSIZE) := by
  induction k generalizing a with
  | zero => rw [Nat.zero_add, Nat.zero_mul, Nat.add_zero]
  | succ k ih =>
      have page : PGSIZE = 4096 := rfl
      have grown : (k + 1) * PGSIZE = k * PGSIZE + PGSIZE := Nat.succ_mul _ _
      have here : d.pte a = none := absent a (Nat.le_refl a) (by omega)
      have later := ih (a + PGSIZE) fun va first last => absent va (by omega) (by omega)
      have more : k + 1 + left = (k + left) + 1 := by omega
      rw [more, visitLoop, visit_none here, pure_bind, later]
      congr 1
      omega

theorem visitLoop_none (k a : Nat)
    (absent : ∀ va, a ≤ va → va < a + k * PGSIZE → d.pte va = none) :
    visitLoop l k d a = pure d := by
  have all := visitLoop_skip (l := l) k 0 a absent
  exact all

/-- With a round for each page left, the walk visits them all. -/
theorem deallocuvmLoop_visits {oldsz fuel left a : Nat} (top : oldsz ≤ KERNBASE)
    (aligned : a % PGSIZE = 0) (rounds : left = (oldsz + PGSIZE - 1 - a) / PGSIZE)
    (enough : left ≤ fuel) :
    deallocuvmLoop l oldsz fuel d a = visitLoop l left d a := by
  have page : PGSIZE = 4096 := rfl
  induction fuel generalizing left a d with
  | zero =>
      have none_left : left = 0 := by omega
      rw [none_left]
      rfl
  | succ fuel ih =>
      have on : (a + PGSIZE) % PGSIZE = 0 := (Nat.add_mod_right a PGSIZE).trans aligned
      unfold deallocuvmLoop
      split
      case isFalse done =>
        have none_left : left = 0 := by
          simp only [PGSIZE] at *
          omega
        rw [none_left]
        rfl
      case isTrue more =>
        have below : a < KERNBASE := by omega
        obtain ⟨rest, one⟩ : ∃ rest, left = rest + 1 := by
          refine ⟨left - 1, ?_⟩
          simp only [PGSIZE] at *
          omega
        have after : rest = (oldsz + PGSIZE - 1 - (a + PGSIZE)) / PGSIZE := by
          simp only [PGSIZE] at *
          omega
        rw [walkpgdir_read, pure_bind]
        cases table : d.pde (PDX a) with
        | none =>
            simp only [Option.isSome_none, Bool.false_eq_true, if_false, skip_eq below]
            -- The pages before the next page table, as far as `oldsz`.
            obtain ⟨next, same⟩ : ∃ next, next = (a / 2 ^ 22 + 1) * 2 ^ 22 := ⟨_, rfl⟩
            obtain ⟨k, steps⟩ : ∃ k, a + k * PGSIZE = next := by
              refine ⟨(next - a) / PGSIZE, ?_⟩
              simp only [PGSIZE] at *
              omega
            have absent : ∀ va, a ≤ va → va < a + k * PGSIZE → d.pte va = none := by
              intro va first last
              exact skip_none table first (by omega)
            have whole : next % PGSIZE = 0 := by
              simp only [PGSIZE]
              omega
            rw [← same]
            by_cases reaches : k ≤ left
            · obtain ⟨later, split⟩ : ∃ later, left = k + later := ⟨left - k, by omega⟩
              rw [split, visitLoop_skip k later a absent, steps]
              apply ih whole
              · simp only [PGSIZE] at *
                omega
              · simp only [PGSIZE] at *
                omega
            · have past : (oldsz + PGSIZE - 1 - next) / PGSIZE = 0 := by
                simp only [PGSIZE] at *
                omega
              rw [@ih _ 0 _ whole past.symm (Nat.zero_le _)]
              symm
              apply visitLoop_none
              intro va first last
              apply absent va first
              have fewer : left * PGSIZE ≤ k * PGSIZE := Nat.mul_le_mul_right _ (by omega)
              omega
        | some pgtab =>
            simp only [Option.isSome_some, if_true]
            rw [one, visitLoop, visit]
            cases entry : d.pte a with
            | none =>
                simp only [pure_bind]
                exact ih on after (by omega)
            | some e =>
                simp only
                split
                case isTrue => rfl
                case isFalse =>
                  simp only [LawfulMonad.bind_assoc, pure_bind]
                  exact bind_congr fun _ => ih on after (by omega)

/-- The jumps leave nothing out. -/
theorem deallocuvm_pages {oldsz newsz : Nat} (smaller : newsz < oldsz) (top : oldsz ≤ KERNBASE) :
    deallocuvm l d oldsz newsz = deallocuvmPages l d oldsz newsz := by
  unfold deallocuvm deallocuvmPages
  rw [if_neg (Nat.not_le_of_lt smaller)]
  congr 1
  apply deallocuvmLoop_visits top (pgroundup_aligned newsz) rfl
  simp only [PGSIZE, NPDENTRIES, NPTENTRIES, KERNBASE] at *
  omega

/-! ## What is freed and what is cleared -/

namespace Pgdir

/-- The address of an entry. -/
def address (i : Fin NPDENTRIES) (j : Fin NPTENTRIES) : Nat := i.val * 2 ^ 22 + j.val * 2 ^ 12

/-- The entries of the pages from `lo` up to `hi` are cleared. -/
def unmap (d : Pgdir) (lo hi : Nat) : Pgdir :=
  { d with pde := fun i => (d.pde i).map fun pgtab =>
      { pgtab with pte := fun j =>
          if lo ≤ address i j ∧ address i j < hi then none else pgtab.pte j } }

theorem ext_pde {d d' : Pgdir} (page : d.page = d'.page) (pde : ∀ i, d.pde i = d'.pde i) :
    d = d' := by
  cases d
  cases d'
  cases page
  congr
  exact funext pde

theorem address_eq {a : Nat} {i : Fin NPDENTRIES} {j : Fin NPTENTRIES} (aligned : a % PGSIZE = 0)
    (small : a < 2 ^ 32) : address i j = a ↔ i = PDX a ∧ j = PTX a := by
  have row := i.isLt
  have entry := j.isLt
  simp only [address, PDX, PTX, PGSIZE, NPDENTRIES, NPTENTRIES, Fin.ext_iff] at *
  omega

theorem unmap_empty (d : Pgdir) {lo hi : Nat} (empty : hi ≤ lo) : d.unmap lo hi = d := by
  apply ext_pde
  case page => rfl
  case pde =>
    intro i
    have nothing : ∀ j, ¬ (lo ≤ address i j ∧ address i j < hi) := fun j => by omega
    cases found : d.pde i with
    | none => simp [unmap, found]
    | some pgtab => simp [unmap, found, nothing]

/-- The addresses from a page on are its own and those from the next page on. -/
theorem address_from {a hi : Nat} (aligned : a % PGSIZE = 0) (more : a < hi)
    (i : Fin NPDENTRIES) (j : Fin NPTENTRIES) :
    address i j = a ∨ (a + PGSIZE ≤ address i j ∧ address i j < hi) ↔
      a ≤ address i j ∧ address i j < hi := by
  have entry : address i j % PGSIZE = 0 := by
    simp only [address, PGSIZE]
    omega
  simp only [PGSIZE] at *
  omega

/-- One entry, and then the rest. -/
theorem unmap_cons {a hi : Nat} (aligned : a % PGSIZE = 0) (small : a < 2 ^ 32) (more : a < hi) :
    (d.setPte a none).unmap (a + PGSIZE) hi = d.unmap a hi := by
  have others : ∀ {i j}, address i j ≠ a →
      ((a + PGSIZE ≤ address i j ∧ address i j < hi) ↔ (a ≤ address i j ∧ address i j < hi)) := by
    intro i j elsewhere
    rw [← address_from aligned more i j, or_iff_right elsewhere]
  have row : ∀ i, i ≠ PDX a → ((d.setPte a none).unmap (a + PGSIZE) hi).pde i =
      (d.unmap a hi).pde i := by
    intro i elsewhere
    have apart : ∀ j, address i j ≠ a :=
      fun j eq => elsewhere ((address_eq aligned small).mp eq).1
    simp only [unmap, setPte_pde_ne elsewhere, others (apart _)]
  apply ext_pde
  case page => exact setPte_page d a none
  case pde =>
    intro i
    by_cases here : i = PDX a
    · subst here
      cases table : d.pde (PDX a) with
      | none => simp [unmap, setPte, table]
      | some pgtab =>
          rw [setPte_of_some table]
          simp only [unmap, table, Function.update_self, Option.map_some, Option.some.injEq,
            PageTable.mk.injEq, true_and]
          funext j
          by_cases entry : j = PTX a
          · have inside : address (PDX a) j = a := (address_eq aligned small).mpr ⟨rfl, entry⟩
            have whole := (address_from aligned more (PDX a) j).mp (.inl inside)
            rw [if_pos whole, entry, Function.update_self, ite_self]
          · have outside : address (PDX a) j ≠ a :=
              fun eq => entry ((address_eq aligned small).mp eq).2
            rw [Function.update_of_ne entry]
            simp only [others outside]
    · exact row i here

end Pgdir

/-- The page addresses that the naive loop visits. -/
def pageAddresses (newsz oldsz : Nat) : List Nat :=
  (List.range (pagesBetween newsz oldsz)).map fun k => PGROUNDUP newsz + k * PGSIZE

/-- The frames that are mapped at the pages between the sizes, in order. -/
def framesBetween (d : Pgdir) (newsz oldsz : Nat) : List Page :=
  (pageAddresses newsz oldsz).filterMap fun a => (d.pte a).map Pte.page

variable (l) in
/-- kfree() of each frame of a list, once. -/
def freeAll : List Page → Vm Unit
  | [] => pure ()
  | page :: rest =>
      if page = 0 then .fail .kfree
      else do
        kfree l page
        freeAll rest

theorem visitLoop_frees {left a hi : Nat} (aligned : a % PGSIZE = 0)
    (last : hi ≤ a + left * PGSIZE) (first : a + left * PGSIZE < hi + PGSIZE)
    (small : a + left * PGSIZE ≤ 2 ^ 32) :
    visitLoop l left d a = (do
      freeAll l ((List.range left).filterMap fun k => (d.pte (a + k * PGSIZE)).map Pte.page)
      pure (d.unmap a hi)) := by
  have page : PGSIZE = 4096 := rfl
  induction left generalizing a d with
  | zero =>
      rw [Pgdir.unmap_empty d (by omega)]
      rfl
  | succ left ih =>
      have grown : (left + 1) * PGSIZE = left * PGSIZE + PGSIZE := Nat.succ_mul _ _
      have on : (a + PGSIZE) % PGSIZE = 0 := (Nat.add_mod_right a PGSIZE).trans aligned
      have step : ∀ k, a + (k + 1) * PGSIZE = a + PGSIZE + k * PGSIZE := by
        intro k
        rw [Nat.succ_mul]
        omega
      rw [visitLoop, visit, List.range_succ_eq_map, List.filterMap_cons, List.filterMap_map]
      simp only [Nat.zero_mul, Nat.add_zero, Function.comp_def, Nat.succ_eq_add_one, step]
      have more : a < hi := by omega
      cases entry : d.pte a with
      | none =>
          have same : d.setPte a none = d := by
            cases table : d.pde (PDX a) with
            | none =>
                unfold Pgdir.setPte
                rw [table]
            | some pgtab =>
                have absent : pgtab.pte (PTX a) = none := by
                  simpa [Pgdir.pte, table] using entry
                rw [Pgdir.setPte_of_some table, ← absent, Function.update_eq_self,
                  ← table, Function.update_eq_self]
          have rest := ih (d := d) on (by omega) (by omega) (by omega)
          rw [← Pgdir.unmap_cons aligned (by omega) more, same]
          simpa using rest
      | some e =>
          simp only [Option.map_some]
          unfold freeAll
          split
          case isTrue => rfl
          case isFalse =>
            have table := Pgdir.pde_of_pte (entry ▸ rfl : (d.pte a).isSome = true)
            have rest := ih (d := d.setPte a none) on (by omega) (by omega) (by omega)
            have others : ∀ k, k < left →
                (d.setPte a none).pte (a + PGSIZE + k * PGSIZE) =
                  d.pte (a + PGSIZE + k * PGSIZE) := by
              intro k inside
              have fewer : (k + 1) * PGSIZE ≤ left * PGSIZE := Nat.mul_le_mul_right _ inside
              have one : (k + 1) * PGSIZE = k * PGSIZE + PGSIZE := Nat.succ_mul _ _
              have away : ¬ (a + PGSIZE + k * PGSIZE) / PGSIZE = a / PGSIZE := by
                rw [page_iff aligned]
                omega
              rw [Pgdir.setPte_pte table none (by omega) (by omega), if_neg away]
            have frames : (List.range left).filterMap (fun k =>
                ((d.setPte a none).pte (a + PGSIZE + k * PGSIZE)).map Pte.page) =
                (List.range left).filterMap fun k =>
                  (d.pte (a + PGSIZE + k * PGSIZE)).map Pte.page := by
              apply List.filterMap_congr
              intro k member
              rw [others k (List.mem_range.mp member)]
            rw [Pgdir.unmap_cons aligned (by omega) more, frames] at rest
            simp only [LawfulMonad.bind_assoc, pure_bind]
            exact bind_congr fun _ => rest

theorem mem_pageAddresses (newsz oldsz : Nat) (a : Nat) :
    a ∈ pageAddresses newsz oldsz ↔ a % PGSIZE = 0 ∧ PGROUNDUP newsz ≤ a ∧ a < oldsz := by
  have aligned := pgroundup_aligned newsz
  simp only [pageAddresses, List.mem_map, List.mem_range, pagesBetween]
  constructor
  · rintro ⟨k, inside, rfl⟩
    have bound : (k + 1) * PGSIZE ≤ oldsz + PGSIZE - 1 - PGROUNDUP newsz :=
      (Nat.mul_le_mul_right PGSIZE inside).trans (Nat.div_mul_le_self _ _)
    simp only [PGSIZE] at *
    omega
  · rintro ⟨on, first, last⟩
    refine ⟨(a - PGROUNDUP newsz) / PGSIZE, ?_, ?_⟩
    · simp only [PGSIZE] at *
      omega
    · simp only [PGSIZE] at *
      omega

theorem pageAddresses_nodup (newsz oldsz : Nat) : (pageAddresses newsz oldsz).Nodup := by
  apply List.nodup_range.map
  intro j k same
  simp only [PGSIZE] at same
  omega

/-- For any page directory: the walk is the loop over all pages, which gives each frame that is
mapped between the sizes to kfree(), clears these entries and no others, and returns `newsz`. -/
theorem deallocuvm_walk (l : Layout) (d : Pgdir) {oldsz newsz : Nat} (smaller : newsz < oldsz)
    (top : oldsz ≤ KERNBASE) :
    deallocuvm l d oldsz newsz = deallocuvmPages l d oldsz newsz ∧
      (deallocuvm l d oldsz newsz = do
        freeAll l (framesBetween d newsz oldsz)
        pure (d.unmap (PGROUNDUP newsz) oldsz, newsz)) ∧
      (∀ a, a ∈ pageAddresses newsz oldsz ↔
        a % PGSIZE = 0 ∧ PGROUNDUP newsz ≤ a ∧ a < oldsz) ∧
      (pageAddresses newsz oldsz).Nodup ∧
      ((∀ a ∈ pageAddresses newsz oldsz, ∀ b ∈ pageAddresses newsz oldsz, ∀ r,
          (d.pte a).map Pte.page = some r → (d.pte b).map Pte.page = some r → a = b) →
        (framesBetween d newsz oldsz).Nodup) := by
  have pages : deallocuvm l d oldsz newsz = deallocuvmPages l d oldsz newsz :=
    deallocuvm_pages smaller top
  refine ⟨pages, ?_, mem_pageAddresses newsz oldsz, pageAddresses_nodup newsz oldsz, ?_⟩
  · have aligned := pgroundup_aligned newsz
    have low : PGROUNDUP newsz ≤ oldsz + PGSIZE - 1 := by
      rw [pgroundup_eq (Nat.le_of_lt (Nat.lt_of_lt_of_le smaller top))]
      simp only [PGSIZE]
      omega
    have frees := @visitLoop_frees l d (pagesBetween newsz oldsz) _ oldsz aligned
      (by simp only [pagesBetween, PGSIZE] at *; omega)
      (by simp only [pagesBetween, PGSIZE] at *; omega)
      (by simp only [pagesBetween, PGSIZE, KERNBASE] at *; omega)
    rw [pages, deallocuvmPages, frees, framesBetween, pageAddresses, List.filterMap_map]
    simp only [LawfulMonad.bind_assoc, pure_bind, Function.comp_def]
  · intro apart
    refine List.pairwise_filterMap.mpr ?_
    refine (pageAddresses_nodup newsz oldsz).imp_of_mem ?_
    rintro a b memberA memberB differ r first _ second rfl
    exact differ (apart a memberA b memberB r first second)

theorem deallocuvm_walk_initcode :
    deallocuvm machine initImage.pgdir PGSIZE 0 =
      deallocuvmPages machine initImage.pgdir PGSIZE 0 :=
  (deallocuvm_walk machine initImage.pgdir (by decide) (by decide)).1

end Xv6.Public3
