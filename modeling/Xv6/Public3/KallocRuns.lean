import Xv6.Lib.Runs
import Xv6.Public3.KallocSteps

/-!
# Runs of the page allocator (kalloc.c)

From the first kfree() of kinit1() on, whatever the threads do next: nobody is given a
page that another one has, nothing panics, and no byte of a page that is in use changes.
-/

set_option autoImplicit false

namespace Xv6.Public3.Kalloc

open Xv6.Lib.Words
open Xv6.Lib.Runs
open Xv6.Lib.Links (Chain)
open Xv6.Lib.Allocation (Holds)

variable {l : Placed} {m m' : Machine} {t : Thread} {v r : Word} {p : Point} {free : List Word}

theorem Ranging.goto {q : Point} {first last : Nat} {page : Word}
    (ranging : Ranging q first last page) (before : q ≠ .freerange)
    (inside : q.freeing = true → p.freeing = true) : Ranging p first last page where
  aligned := ranging.aligned
  start := ranging.start
  inside := ranging.inside
  at_point := Or.inr ((ranging.at_point.resolve_left before).imp_left inside)

theorem Staged.goto (staged : Staged l m) (before : m.point t ≠ .freerange)
    (after : p ≠ .freerange) (inside : (m.point t).freeing = true → p.freeing = true) :
    Staged l (m.goto t p) := by
  show m.stage.Allows l ((m.goto t p).point main)
  unfold Staged at staged
  by_cases mine : main = t
  · subst mine
    rw [goto_point]
    cases stage : m.stage with
    | kinit1 page =>
        rw [stage] at staged
        exact Ranging.goto staged before inside
    | kinit2 page =>
        rw [stage] at staged
        exact Ranging.goto staged before inside
    | _ => exact after
  · rw [goto_point_other mine]
    exact staged

/-! ## Steps -/

/-- A thread that takes the lock, or finds that locks are not used. -/
theorem Inv.acquire (inv : Inv l m free) (away : m.point t ≠ .away)
    (outside : (m.point t).locked = false) (locked : p.locked = true)
    (same : p.page = (m.point t).page) (knows : Knows m.mem m.kmem.freelist p)
    (before : m.point t ≠ .freerange) (after : p ≠ .freerange)
    (inside : (m.point t).freeing = true → p.freeing = true)
    (taken : Kalloc.acquire m t p = some m') : Inv l m' free := by
  obtain ⟨lock, rfl, locks⟩ :=
    acquire_spec inv.locks (inv.locks.here away) outside locked taken
  exact ⟨inv.data.goto same knows rfl (limit_goto before after), locks,
    inv.staged.goto before after inside⟩

/-- A thread that goes on in its call. -/
theorem Inv.goto (inv : Inv l m free) (here : t = main ∨ m.stage = .running)
    (locked : p.locked = (m.point t).locked)
    (same : p.page = (m.point t).page) (knows : Knows m.mem m.kmem.freelist p)
    (before : m.point t ≠ .freerange) (after : p ≠ .freerange)
    (inside : (m.point t).freeing = true → p.freeing = true) : Inv l (m.goto t p) free :=
  ⟨inv.data.goto same knows rfl (limit_goto before after), inv.locks.goto here locked,
    inv.staged.goto before after inside⟩

theorem Inv.unlink (inv : Inv l m free) (here : m.point t = .unlink r) :
    ∃ free', Inv l ((if r = 0 then m else m.setList (loadWord m.mem r)).goto t (.taken r)) free' := by
  have before : m.point t ≠ .freerange := by
    rw [here]
    exact Point.noConfusion
  have away : m.point t ≠ .away := by
    rw [here]
    exact Point.noConfusion
  have locks : Locks (m.goto t (.taken r)) :=
    inv.locks.goto (inv.locks.here away) (by rw [here]; rfl)
  have staged : Staged l (m.goto t (.taken r)) := by
    refine inv.staged.goto before Point.noConfusion fun inside => ?_
    rw [here] at inside
    cases inside
  split
  case isTrue null =>
    subst null
    refine ⟨free, inv.data.goto ?_ (fun nonzero => absurd rfl nonzero) rfl
      (limit_goto before Point.noConfusion), locks, staged⟩
    rw [here]
    rfl
  case isFalse nonzero =>
    obtain ⟨rest, rfl, data⟩ := inv.data.unlinked inv.locks here nonzero
    exact ⟨rest, data, ⟨locks.running, locks.alone, locks.unlocked, locks.locked⟩, staged⟩

theorem Inv.taken (inv : Inv l m free) (here : m.point t = .taken r) :
    Inv l { release m t .away with held := if r = 0 then m.held else r :: m.held } free := by
  have before : m.point t ≠ .freerange := by
    rw [here]
    exact Point.noConfusion
  have away : m.point t ≠ .away := by
    rw [here]
    exact Point.noConfusion
  obtain ⟨lock, eq, locks⟩ :=
    release_spec (p := .away) inv.locks (inv.locks.here away) (by rw [here]; rfl) rfl
  have staged : Staged l (m.goto t .away) := by
    refine inv.staged.goto before Point.noConfusion fun inside => ?_
    rw [here] at inside
    cases inside
  rw [eq]
  split
  case isTrue null =>
    subst null
    refine ⟨inv.data.goto ?_ trivial rfl (limit_goto before Point.noConfusion), locks, staged⟩
    rw [here]
    rfl
  case isFalse nonzero =>
    exact ⟨inv.data.returned here nonzero rfl,
      ⟨locks.running, locks.alone, locks.unlocked, locks.locked⟩, staged⟩

/-- memset() writes the next word. -/
theorem Filled.next {mem : Memory} {n : Nat} (aligned : v.toNat % PGSIZE = 0)
    (filled : ∀ i, i < 4 * n → mem (v + BitVec.ofNat 32 i) = 1) (inside : n < PGSIZE / 4) :
    ∀ i, i < 4 * (n + 1) →
      storeWord mem (v + BitVec.ofNat 32 (4 * n)) 0x01010101 (v + BitVec.ofNat 32 i) = 1 := by
  intro i before
  have last : 4 * n + 4 ≤ PGSIZE := by
    unfold PGSIZE at inside ⊢
    omega
  by_cases old : i < 4 * n
  · rw [storeWord_outside]
    · exact filled i old
    · have there := address_toNat aligned (i := i) (by omega)
      have here := address_toNat aligned (i := 4 * n) (by omega)
      generalize v + BitVec.ofNat 32 i = x at there
      generalize v + BitVec.ofNat 32 (4 * n) = y at here
      unfold PGSIZE at last
      bv_omega
  · obtain ⟨k, rfl⟩ : ∃ k, i = 4 * n + k := ⟨i - 4 * n, by omega⟩
    have small : k < 4 := by omega
    rw [BitVec.ofNat_add, ← BitVec.add_assoc, storeWord_inside _ _ _ k small]
    have ones : ∀ k : Fin (wordBytes 0x01010101).length, (wordBytes 0x01010101).get k = 1 := by
      decide
    exact ones ⟨k, small⟩

theorem Inv.memset (inv : Inv l m free) {n : Nat} (here : m.point t = .memset v n) :
    Inv l (if n < PGSIZE / 4 then
      (m.store (v + BitVec.ofNat 32 (4 * n)) 0x01010101).goto t (.memset v (n + 1))
      else m.goto t (.kfree v)) free := by
  have before : m.point t ≠ .freerange := by
    rw [here]
    exact Point.noConfusion
  have away : m.point t ≠ .away := by
    rw [here]
    exact Point.noConfusion
  have page : (m.point t).page = some v := congrArg Point.page here
  have knows := inv.data.knows t
  rw [here] at knows
  split
  case isTrue inside =>
    have last : 4 * n + 4 ≤ PGSIZE := by
      unfold PGSIZE at inside ⊢
      omega
    have locks : Locks (m.goto t (.memset v (n + 1))) :=
      inv.locks.goto (inv.locks.here away) (by rw [here]; rfl)
    exact ⟨inv.data.stored page rfl last
      ⟨inside, Filled.next (inv.data.placed page).1 knows.2 inside⟩
      (limit_goto before Point.noConfusion),
      ⟨locks.running, locks.alone, locks.unlocked, locks.locked⟩,
      inv.staged.goto before Point.noConfusion fun _ => rfl⟩
  case isFalse done =>
    refine inv.goto (inv.locks.here away) (by rw [here]; rfl) page.symm ?_ before
      Point.noConfusion fun _ => rfl
    intro i _ inside
    refine knows.2 i ?_
    unfold PGSIZE at done inside
    omega

theorem Inv.link (inv : Inv l m free) (here : m.point t = .link v) :
    Inv l ((m.store v m.kmem.freelist).goto t (.push v)) free := by
  have before : m.point t ≠ .freerange := by
    rw [here]
    exact Point.noConfusion
  have away : m.point t ≠ .away := by
    rw [here]
    exact Point.noConfusion
  have page : (m.point t).page = some v := congrArg Point.page here
  have junk := inv.data.knows t
  rw [here] at junk
  have locks : Locks (m.goto t (.push v)) :=
    inv.locks.goto (inv.locks.here away) (by rw [here]; rfl)
  have aligned := (inv.data.placed page).1
  have first : v + BitVec.ofNat 32 0 = v := BitVec.add_zero v
  have data := inv.data.stored (i := 0) (w := m.kmem.freelist) (p := .push v) page rfl
    (by decide) (by
      rw [first]
      refine ⟨fun i behind inside => ?_, loadWord_storeWord ..⟩
      rw [storeWord_outside]
      · exact junk i behind inside
      · have there := address_toNat aligned inside
        generalize v + BitVec.ofNat 32 i = x at there
        unfold PGSIZE at inside
        bv_omega) (limit_goto before Point.noConfusion)
  rw [first] at data
  exact ⟨data, ⟨locks.running, locks.alone, locks.unlocked, locks.locked⟩,
    inv.staged.goto before Point.noConfusion fun _ => rfl⟩

theorem Inv.push (inv : Inv l m free) (here : m.point t = .push v) :
    Inv l ((m.setList v).goto t .freed) (v :: free) := by
  have before : m.point t ≠ .freerange := by
    rw [here]
    exact Point.noConfusion
  have away : m.point t ≠ .away := by
    rw [here]
    exact Point.noConfusion
  have locks : Locks (m.goto t .freed) :=
    inv.locks.goto (inv.locks.here away) (by rw [here]; rfl)
  exact ⟨inv.data.pushed inv.locks here,
    ⟨locks.running, locks.alone, locks.unlocked, locks.locked⟩,
    inv.staged.goto before Point.noConfusion fun _ => rfl⟩

/-! ## freerange() -/

theorem goto_goto {q : Point} : (m.goto t p).goto t q = m.goto t q := by
  show ({ m with point := _ } : Machine) = _
  rw [Machine.goto, Function.update_idem]
  rfl

theorem Locks.early (locks : Locks m) (early : m.stage ≠ .running) : m.kmem.use_lock = false :=
  Bool.eq_false_of_not_eq_true fun used => early (locks.running.mp used)

theorem Locks.first (locks : Locks m) (early : m.stage ≠ .running) (there : m.point t ≠ .away) :
    t = main := (locks.here there).resolve_right early

/-- main() goes on to another stage, still alone. -/
theorem Locks.stage (locks : Locks m) {stage : Stage} (early : m.stage ≠ .running)
    (still : stage ≠ .running) : Locks { m.goto main p with stage := stage } := by
  have unused := locks.early early
  have moved := locks.unused (p := p) (Or.inl rfl) unused
  constructor
  case running => exact iff_of_false (fun used => early (locks.running.mp used)) still
  case alone => exact fun _ => moved.alone early
  case unlocked => exact moved.unlocked
  case locked => exact moved.locked

theorem next_toNat {page : Word} {last : Nat} (small : last + PGSIZE < 2 ^ 32)
    (inside : page.toNat ≤ last) : (next page).toNat = page.toNat + PGSIZE := by
  unfold next
  unfold PGSIZE at small ⊢
  bv_omega

/-- kfree() has returned, and freerange() takes the next page. -/
theorem Ranging.again {first last : Nat} {page : Word} (small : last + PGSIZE < 2 ^ 32)
    (ranging : Ranging p first last page) (inside : p ≠ .freerange) :
    Ranging .freerange first last (Kalloc.next page) := by
  have room := (ranging.at_point.resolve_left inside).2
  have to_nat := next_toNat small ranging.inside
  have aligned := ranging.aligned
  have start := ranging.start
  constructor
  case aligned =>
    rw [to_nat]
    unfold PGSIZE at aligned ⊢
    omega
  case start => omega
  case inside => omega
  case at_point => exact Or.inl rfl

theorem first_fits : KERNBASE + 4 * 1024 * 1024 + PGSIZE < 2 ^ 32 := by decide

theorem last_fits : KERNBASE + PHYSTOP + PGSIZE < 2 ^ 32 := by decide

theorem Stage.limit_kinit1 {page : Word} (inside : p ≠ .freerange) :
    (Stage.kinit1 page).limit p = page.toNat + PGSIZE := if_neg inside

theorem Stage.limit_kinit2 {page : Word} (inside : p ≠ .freerange) :
    (Stage.kinit2 page).limit p = page.toNat + PGSIZE := if_neg inside

theorem Stage.testing_kinit1 {page : Word} : (Stage.kinit1 page).limit .freerange = page.toNat := by
  simp [Stage.limit]

theorem Stage.testing_kinit2 {page : Word} : (Stage.kinit2 page).limit .freerange = page.toNat := by
  simp [Stage.limit]

/-- The end of kfree() in main(), when freerange() has called it. -/
theorem Inv.again (inv : Inv l m free) (here : m.point main = .freed) {page : Word}
    {stage : Stage} (early : m.stage ≠ .running) (still : stage ≠ .running)
    (limit : m.limit = page.toNat + PGSIZE) (to_nat : (next page).toNat = page.toNat + PGSIZE)
    (limit' : stage.limit .freerange = (next page).toNat) (allows : stage.Allows l .freerange) :
    Inv l { m.goto main .freerange with stage := stage } free := by
  refine ⟨inv.data.goto ?_ trivial rfl ?_, inv.locks.stage early still, ?_⟩
  · rw [here]
    rfl
  · show stage.limit ((m.goto main .freerange).point main) = m.limit
    rw [goto_point, limit', limit, to_nat]
  · show stage.Allows l ((m.goto main .freerange).point main)
    rw [goto_point]
    exact allows

theorem caller_kinit1 {page : Word} (stage : m.stage = .kinit1 page) :
    caller m main = { m.goto main .freerange with stage := .kinit1 (next page) } := by
  rw [caller, if_pos rfl, stage]

theorem caller_kinit2 {page : Word} (stage : m.stage = .kinit2 page) :
    caller m main = { m.goto main .freerange with stage := .kinit2 (next page) } := by
  rw [caller, if_pos rfl, stage]

theorem Inv.freed (inv : Inv l m free) (here : m.point t = .freed) :
    Inv l (caller (release m t .away) t) free := by
  have before : m.point t ≠ .freerange := by
    rw [here]
    exact Point.noConfusion
  have away : m.point t ≠ .away := by
    rw [here]
    exact Point.noConfusion
  -- Another call than that of freerange().
  have other : (t = main → ∀ page, m.stage ≠ .kinit1 page ∧ m.stage ≠ .kinit2 page) →
      Inv l (caller (release m t .away) t) free := by
    intro ends
    obtain ⟨lock, eq, locks⟩ :=
      release_spec (p := .away) inv.locks (inv.locks.here away) (by rw [here]; rfl) rfl
    have back : caller (release m t .away) t = (m.setLock lock).goto t .away := by
      rw [eq]
      unfold caller
      split
      case isTrue first =>
        split
        case h_1 page stage => exact absurd stage (ends first page).1
        case h_2 page stage => exact absurd stage (ends first page).2
        case h_3 => exact goto_goto
      case isFalse => exact goto_goto
    rw [back]
    refine ⟨inv.data.goto ?_ trivial rfl (limit_goto before Point.noConfusion), locks, ?_⟩
    · rw [here]
      rfl
    · show m.stage.Allows l ((m.goto t .away).point main)
      by_cases mine : main = t
      · subst mine
        rw [goto_point]
        cases stage : m.stage with
        | kinit1 page => exact absurd stage (ends rfl page).1
        | kinit2 page => exact absurd stage (ends rfl page).2
        | _ => exact Point.noConfusion
      · rw [goto_point_other mine]
        exact inv.staged
  have staged := inv.staged
  unfold Staged at staged
  cases stage : m.stage with
  | kinit1 page =>
      have early : m.stage ≠ .running := by
        rw [stage]
        exact Stage.noConfusion
      obtain rfl := inv.locks.first early away
      have unused := inv.locks.early early
      have back : caller (release m main .away) main =
          { m.goto main .freerange with stage := .kinit1 (next page) } := by
        rw [release, if_pos unused, caller_kinit1 (m := m.goto main .away) stage, goto_goto]
      rw [stage, here] at staged
      rw [back]
      have to_nat := next_toNat first_fits staged.inside
      refine inv.again here early Stage.noConfusion ?_ to_nat Stage.testing_kinit1
        (Ranging.again first_fits staged Point.noConfusion)
      rw [Machine.limit, stage, here]
      exact Stage.limit_kinit1 Point.noConfusion
  | kinit2 page =>
      have early : m.stage ≠ .running := by
        rw [stage]
        exact Stage.noConfusion
      obtain rfl := inv.locks.first early away
      have unused := inv.locks.early early
      have back : caller (release m main .away) main =
          { m.goto main .freerange with stage := .kinit2 (next page) } := by
        rw [release, if_pos unused, caller_kinit2 (m := m.goto main .away) stage, goto_goto]
      rw [stage, here] at staged
      rw [back]
      have to_nat := next_toNat last_fits staged.inside
      refine inv.again here early Stage.noConfusion ?_ to_nat Stage.testing_kinit2
        (Ranging.again last_fits staged Point.noConfusion)
      rw [Machine.limit, stage, here]
      exact Stage.limit_kinit2 Point.noConfusion
  | early => exact other fun _ page => ⟨by rw [stage]; exact Stage.noConfusion,
      by rw [stage]; exact Stage.noConfusion⟩
  | running => exact other fun _ page => ⟨by rw [stage]; exact Stage.noConfusion,
      by rw [stage]; exact Stage.noConfusion⟩

/-- kfree() passes its checks. -/
theorem kfree_eq (member : v ∈ pool l) : kfree l m t v = m.goto t (.memset v 0) := by
  obtain ⟨aligned, first, last⟩ := member
  have base : KERNBASE < KERNLINK := by decide
  have after : KERNLINK < l.kend := l.kend_after
  have physical : (V2P v).toNat = v.toNat - KERNBASE := by
    have high : KERNBASE ≤ v.toNat := by omega
    unfold V2P
    unfold KERNBASE at high ⊢
    bv_omega
  refine if_neg ?_
  rw [physical]
  rintro (wrong | wrong | wrong)
  · exact wrong aligned
  · omega
  · omega

/-- main() gives a page of freerange() to kfree(). -/
theorem Inv.enter (inv : Inv l m free) (here : m.point main = .freerange) {page : Word}
    {first last : Nat} (at_page : m.stage = .kinit1 page ∨ m.stage = .kinit2 page)
    (ranging : Ranging .freerange first last page) (fits : last + PGSIZE < 2 ^ 32)
    (kernel : l.kend ≤ first) (room : (next page).toNat ≤ last)
    (limit : last ≤ KERNBASE + PHYSTOP)
    (allows : ∀ p, Ranging p first last page → m.stage.Allows l p) :
    Inv l (kfree l m main page) free := by
  rw [next_toNat fits ranging.inside] at room
  have member : page ∈ pool l := by
    refine ⟨ranging.aligned, Nat.le_trans kernel ranging.start, ?_⟩
    unfold PGSIZE at room
    omega
  rw [kfree_eq member]
  refine ⟨inv.data.entered here at_page member, inv.locks.goto (Or.inl rfl) (by rw [here]; rfl), ?_⟩
  show m.stage.Allows l ((m.goto main _).point main)
  rw [goto_point]
  exact allows _ ⟨ranging.aligned, ranging.start, ranging.inside, Or.inr ⟨rfl, room⟩⟩

/-- The end of the range. -/
theorem Ranging.ended {first last : Nat} {page : Word} (ranging : Ranging p first last page)
    (aligned : last % PGSIZE = 0) (fits : last + PGSIZE < 2 ^ 32)
    (full : ¬ (next page).toNat ≤ last) : page.toNat = last := by
  rw [next_toNat fits ranging.inside] at full
  have start := ranging.aligned
  have inside := ranging.inside
  unfold PGSIZE at aligned full start
  omega

theorem Inv.freerange (inv : Inv l m free) (here : m.point t = .freerange)
    (taken : Kalloc.freerange l m t = some m') : Inv l m' free := by
  have away : m.point t ≠ .away := by
    rw [here]
    exact Point.noConfusion
  have staged := inv.staged
  unfold Staged at staged
  unfold Kalloc.freerange at taken
  cases stage : m.stage with
  | kinit1 page =>
      have early : m.stage ≠ .running := by
        rw [stage]
        exact Stage.noConfusion
      obtain rfl := inv.locks.first early away
      rw [stage, here] at staged
      simp only [stage] at taken
      have last : (P2V (4 * 1024 * 1024)).toNat = KERNBASE + 4 * 1024 * 1024 := by decide
      rw [last] at taken
      split at taken
      case isTrue room =>
        cases taken
        refine inv.enter here (Or.inl stage) staged first_fits (Nat.le_refl _) room (by decide) ?_
        intro p ranging
        rw [stage]
        exact ranging
      case isFalse full =>
        cases taken
        have ended := staged.ended (by decide) first_fits full
        refine ⟨inv.data.goto (by rw [here]; rfl) trivial rfl ?_,
          inv.locks.stage early Stage.noConfusion, ?_⟩
        · rw [Machine.limit, Machine.limit, stage, here]
          exact ended.symm
        · show (m.goto main .away).point main ≠ .freerange
          rw [goto_point]
          exact Point.noConfusion
  | kinit2 page =>
      have early : m.stage ≠ .running := by
        rw [stage]
        exact Stage.noConfusion
      obtain rfl := inv.locks.first early away
      rw [stage, here] at staged
      simp only [stage] at taken
      have last : (P2V PHYSTOP).toNat = KERNBASE + PHYSTOP := by decide
      rw [last] at taken
      split at taken
      case isTrue room =>
        cases taken
        refine inv.enter here (Or.inr stage) staged last_fits l.kend_before room (Nat.le_refl _) ?_
        intro p ranging
        rw [stage]
        exact ranging
      case isFalse full =>
        cases taken
        have ended := staged.ended (by decide) last_fits full
        have idle : ∀ s, (m.goto main .away).point s = .away := by
          intro s
          by_cases mine : s = main
          · subst mine
            exact goto_point
          · rw [goto_point_other mine]
            exact inv.locks.alone early s mine
        refine ⟨inv.data.goto (by rw [here]; rfl) trivial rfl ?_, ?_, ?_⟩
        · rw [Machine.limit, Machine.limit, stage, here]
          exact ended.symm
        · constructor
          case running => exact iff_of_true rfl rfl
          case alone => exact fun started => absurd rfl started
          case unlocked => exact fun unused => absurd unused Bool.false_ne_true.symm
          case locked =>
            intro _ s
            show m.kmem.lock = some s ↔ ((m.goto main .away).point s).locked = true
            rw [idle s, inv.locks.unlocked (inv.locks.early early)]
            exact iff_of_false (Option.some_ne_none s).symm Bool.false_ne_true
        · show (m.goto main .away).point main ≠ .freerange
          rw [goto_point]
          exact Point.noConfusion
  | early =>
      simp only [stage] at taken
      cases taken
  | running =>
      simp only [stage] at taken
      cases taken

/-! ## Runs -/

theorem go_inv (inv : Inv l m free) (taken : go l m t = some m') : ∃ free', Inv l m' free' := by
  unfold go at taken
  cases here : m.point t with
  | away =>
      simp only [here] at taken
      cases taken
  | kalloc =>
      simp only [here] at taken
      refine ⟨free, inv.acquire (p := .first) ?_ ?_ rfl ?_ trivial ?_ Point.noConfusion ?_ taken⟩ <;>
        rw [here]
      · exact Point.noConfusion
      · rfl
      · rfl
      · exact Point.noConfusion
      · exact fun inside => absurd inside Bool.false_ne_true
  | first =>
      simp only [here] at taken
      cases taken
      have away : m.point t ≠ .away := by
        rw [here]
        exact Point.noConfusion
      refine ⟨free, inv.goto (inv.locks.here away) ?_ ?_ rfl ?_ Point.noConfusion ?_⟩ <;> rw [here]
      · rfl
      · rfl
      · exact Point.noConfusion
      · exact fun inside => absurd inside Bool.false_ne_true
  | unlink r =>
      simp only [here] at taken
      cases taken
      exact inv.unlink here
  | taken r =>
      simp only [here] at taken
      cases taken
      exact ⟨free, inv.taken here⟩
  | memset v n =>
      simp only [here] at taken
      have next := inv.memset here
      split at taken <;> rename_i inside <;> cases taken
      · rw [if_pos inside] at next
        exact ⟨free, next⟩
      · rw [if_neg inside] at next
        exact ⟨free, next⟩
  | kfree v =>
      simp only [here] at taken
      have junk := inv.data.knows t
      rw [here] at junk
      refine ⟨free, inv.acquire (p := .link v) ?_ ?_ rfl ?_ junk ?_ Point.noConfusion ?_ taken⟩ <;>
        rw [here]
      · exact Point.noConfusion
      · rfl
      · rfl
      · exact Point.noConfusion
      · exact fun _ => rfl
  | link v =>
      simp only [here] at taken
      cases taken
      exact ⟨free, inv.link here⟩
  | push v =>
      simp only [here] at taken
      cases taken
      exact ⟨v :: free, inv.push here⟩
  | freed =>
      simp only [here] at taken
      cases taken
      exact ⟨free, inv.freed here⟩
  | freerange =>
      simp only [here] at taken
      exact ⟨free, inv.freerange here taken⟩

theorem Inv.kalloc (inv : Inv l m free) (calls : m.calls t) : Inv l (m.goto t .kalloc) free := by
  obtain ⟨here, allowed⟩ := calls
  refine inv.goto allowed ?_ ?_ trivial ?_ Point.noConfusion ?_ <;> rw [here]
  · rfl
  · rfl
  · exact Point.noConfusion
  · exact fun inside => absurd inside Bool.false_ne_true

theorem Inv.kfree (inv : Inv l m free) (calls : m.calls t) (member : v ∈ m.held) :
    Inv l (kfree l { m with held := m.held.erase v } t v) free := by
  obtain ⟨here, allowed⟩ := calls
  have before : m.point t ≠ .freerange := by
    rw [here]
    exact Point.noConfusion
  have locks : Locks (m.goto t (.memset v 0)) := inv.locks.goto allowed (by rw [here]; rfl)
  rw [kfree_eq (inv.data.listed (List.mem_append_right free member))]
  refine ⟨inv.data.called here member, ⟨locks.running, locks.alone, locks.unlocked, locks.locked⟩,
    inv.staged.goto before Point.noConfusion fun inside => ?_⟩
  rw [here] at inside
  cases inside

theorem Inv.kinit2 (inv : Inv l m free) (here : m.point main = .away) (stage : m.stage = .early) :
    Inv l { m.goto main .freerange with
      stage := .kinit2 (BitVec.ofNat 32 (PGROUNDUP (P2V (4 * 1024 * 1024)).toNat)) } free := by
  have early : m.stage ≠ .running := by
    rw [stage]
    exact Stage.noConfusion
  have start : (BitVec.ofNat 32 (PGROUNDUP (P2V (4 * 1024 * 1024)).toNat) : Word).toNat =
      KERNBASE + 4 * 1024 * 1024 := by decide
  refine ⟨inv.data.goto (by rw [here]; rfl) trivial rfl ?_,
    inv.locks.stage early Stage.noConfusion, ?_⟩
  · show Stage.limit _ ((m.goto main .freerange).point main) = m.limit
    rw [goto_point, Machine.limit, stage]
    exact Stage.testing_kinit2.trans start
  · show Stage.Allows l _ ((m.goto main .freerange).point main)
    rw [goto_point]
    refine ⟨by decide, Nat.le_of_eq start.symm, ?_, Or.inl rfl⟩
    rw [start]
    decide

/-- A page of the pool is not where the kernel is. -/
theorem not_outside {addr : Word} (member : v ∈ pool l)
    (there : addr.toNat / PGSIZE = v.toNat / PGSIZE) : ¬ Outside l addr := by
  obtain ⟨aligned, first, last⟩ := member
  have placed := l.kend_before
  have stop : (KERNBASE + PHYSTOP) % PGSIZE = 0 := by decide
  have small : KERNBASE + 4 * 1024 * 1024 + PGSIZE < 2 ^ 32 := first_fits
  unfold Outside PGROUNDUP
  unfold PGSIZE at aligned there stop small ⊢
  omega

/-- What other code may write is in no page of the allocator that it does not have. -/
theorem same_store {addr : Word} {b : Byte} (allowed : Within m.held addr ∨ Outside l addr)
    (held : ∀ u ∈ m.held, u ∈ pool l) (member : v ∈ pool l) (away : v ∉ m.held) :
    Same m.mem (Function.update m.mem addr b) v := by
  intro a there
  refine Function.update_of_ne ?_ _ _
  rintro rfl
  rcases allowed with ⟨u, mine, same⟩ | outside
  · have eq := page_eq (held u mine).1 member.1 (same.symm.trans there)
    exact away (eq ▸ mine)
  · exact not_outside member there outside

theorem step_inv {e : Event} (inv : Inv l m free) (taken : step l m e = some m') :
    ∃ free', Inv l m' free' := by
  rw [step, if_pos inv.data.fine] at taken
  cases e with
  | kalloc t =>
      rw [act] at taken
      split at taken
      case isTrue calls =>
        cases taken
        exact ⟨free, inv.kalloc calls⟩
      case isFalse => cases taken
  | kfree t v =>
      rw [act] at taken
      split at taken
      case isTrue both =>
        cases taken
        exact ⟨free, inv.kfree both.1 both.2⟩
      case isFalse => cases taken
  | kinit2 =>
      rw [act] at taken
      split at taken
      case isTrue both =>
        cases taken
        exact ⟨free, inv.kinit2 both.1 both.2⟩
      case isFalse => cases taken
  | go t => exact go_inv inv taken
  | store addr b =>
      rw [act] at taken
      split at taken
      case isTrue allowed =>
        cases taken
        have held : ∀ u ∈ m.held, u ∈ pool l := fun u mine =>
          inv.data.listed (List.mem_append_right free mine)
        have data := inv.data.written fun u member away =>
          same_store (b := b) allowed held member away
        have locks := inv.locks
        exact ⟨free, data, ⟨locks.running, locks.alone, locks.unlocked, locks.locked⟩, inv.staged⟩
      case isFalse => cases taken

theorem pgroundup_kend (l : Placed) :
    (BitVec.ofNat 32 (PGROUNDUP l.kend) : Word).toNat = PGROUNDUP l.kend ∧
      PGROUNDUP l.kend % PGSIZE = 0 ∧ l.kend ≤ PGROUNDUP l.kend ∧
      PGROUNDUP l.kend ≤ KERNBASE + 4 * 1024 * 1024 ∧ PGROUNDUP l.kend < l.kend + PGSIZE := by
  have placed := l.kend_before
  have small : KERNBASE + 4 * 1024 * 1024 + PGSIZE < 2 ^ 32 := first_fits
  have aligned : (KERNBASE + 4 * 1024 * 1024) % PGSIZE = 0 := by decide
  rw [BitVec.toNat_ofNat]
  unfold PGROUNDUP
  unfold PGSIZE at small aligned ⊢
  omega

theorem boot_inv (l : Placed) (mem : Memory) : Inv l (boot l mem) [] := by
  obtain ⟨to_nat, aligned, above, below, near⟩ := pgroundup_kend l
  have points : ∀ t, t ≠ main → (boot l mem).point t = .away := by
    intro t other
    show Function.update (fun _ => Point.away) main .freerange t = .away
    exact Function.update_of_ne other _ _
  have first : (boot l mem).point main = .freerange := by
    show Function.update (fun _ => Point.away) main .freerange main = .freerange
    exact Function.update_self ..
  have pages : ∀ t, (boot l mem).pages t = none := by
    intro t
    by_cases mine : t = main
    · subst mine
      exact congrArg Point.page first
    · exact congrArg Point.page (points t mine)
  have limit : (boot l mem).limit = PGROUNDUP l.kend := by
    rw [Machine.limit, first]
    exact Stage.testing_kinit1.trans to_nat
  refine ⟨?_, ?_, ?_⟩
  · constructor
    case fine => rfl
    case chain => exact if_pos rfl
    case once => exact List.nodup_nil
    case places =>
      have nothing : {v | Managed l (boot l mem) v} = {v | v ∈ [] ++ (boot l mem).held} := by
        ext v
        rw [Set.mem_ofPred_eq, Managed, limit]
        refine iff_of_false ?_ List.not_mem_nil
        rintro ⟨whole, start, before⟩
        unfold PGSIZE at whole aligned near
        omega
      rw [nothing]
      exact Holds.empty pages fun v impossible => absurd impossible List.not_mem_nil
    case junk => exact fun v impossible => absurd impossible List.not_mem_nil
    case knows =>
      intro t
      by_cases mine : t = main
      · subst mine
        rw [first]
        trivial
      · rw [points t mine]
        trivial
  · constructor
    case running => exact iff_of_false Bool.false_ne_true Stage.noConfusion
    case alone => exact fun _ => points
    case unlocked => exact fun _ => rfl
    case locked => exact fun used => absurd used Bool.false_ne_true
  · show Stage.Allows l _ ((boot l mem).point main)
    rw [first]
    refine ⟨?_, ?_, ?_, Or.inl rfl⟩ <;> rw [to_nat]
    · exact aligned
    · exact above
    · exact below

/-! ## What the callers see -/

/-- Each page that freerange() has got is in one place: in the list that starts at
`kmem.freelist`, with a caller, or in the hands of one thread in kalloc.c. -/
structure Shared (l : Placed) (m : Machine) (free : List Word) : Prop where
  list : Chain (following m.mem) (pointer m.kmem.freelist) free
  once : (free ++ m.held).Nodup
  all : ∀ v, Managed l m v ↔ v ∈ free ++ m.held ∨ ∃ t, (m.point t).page = some v
  hands : ∀ t v, (m.point t).page = some v →
    v ∉ free ++ m.held ∧ ∀ s, (m.point s).page = some v → s = t

structure Sound (l : Placed) (m : Machine) : Prop where
  fine : m.panicked = none
  shared : ∃ free, Shared l m free

/-- What a step does to the callers. -/
structure Kept (l : Placed) (m : Machine) (e : Event) (m' : Machine) : Prop where
  /-- No byte changes that is the kernel's or a caller's, unless it is stored to. -/
  frame : ∀ addr, (∀ b, e ≠ .store addr b) → Within m.held addr ∨ Outside l addr →
    m'.mem addr = m.mem addr
  /-- A page that kalloc() returns is in no other hands, and has the bytes of memset(). -/
  given : ∀ t r, e = .go t → m.point t = .taken r → r ≠ 0 →
    r ∈ pool l ∧ r ∉ m.held ∧ Junk m.mem r ∧ m'.held = r :: m.held
  /-- kalloc() finds no page only if there is none in the list. -/
  refused : ∀ t, e = .go t → m.point t = .unlink 0 → Chain (following m.mem)
    (pointer m.kmem.freelist) []

theorem Inv.sound (inv : Inv l m free) : Sound l m := by
  refine ⟨inv.data.fine, free, inv.data.chain, inv.data.once, inv.data.places.all, ?_⟩
  intro t v here
  refine ⟨fun member => inv.data.apart here member rfl, fun s there => ?_⟩
  exact inv.data.places.once (i := s) there here

theorem acquire_mem {m m' : Machine} (taken : acquire m t p = some m') : m'.mem = m.mem := by
  unfold acquire at taken
  split at taken
  · cases taken
    rfl
  · split at taken
    · cases taken
      rfl
    · split at taken <;> cases taken
      rfl

theorem release_mem (m : Machine) : (release m t p).mem = m.mem := by
  unfold release
  split_ifs <;> rfl

theorem caller_mem (m : Machine) : (caller m t).mem = m.mem := by
  unfold caller
  split_ifs
  · cases m.stage <;> rfl
  · rfl

theorem kfree_mem (m : Machine) : (kfree l m t v).mem = m.mem := by
  unfold kfree
  split_ifs <;> rfl

theorem freerange_mem (taken : Kalloc.freerange l m t = some m') : m'.mem = m.mem := by
  unfold Kalloc.freerange at taken
  cases stage : m.stage <;> simp only [stage] at taken
  case kinit1 page =>
    split_ifs at taken <;> cases taken
    · exact kfree_mem m
    · rfl
  case kinit2 page =>
    split_ifs at taken <;> cases taken
    · exact kfree_mem m
    · rfl
  all_goals cases taken

/-- A page in the hands of a thread is nobody's else. -/
theorem Data.frame (data : Data l m free) (here : (m.point t).page = some v) {addr w : Word}
    {i : Nat} (inside : i + 4 ≤ PGSIZE) (mine : Within m.held addr ∨ Outside l addr) :
    storeWord m.mem (v + BitVec.ofNat 32 i) w addr = m.mem addr := by
  have placed := data.placed here
  refine same_storeWord (u := addr) placed.1 inside (fun same => ?_) addr rfl
  rcases mine with ⟨u, member, there⟩ | outside
  · have listed : u ∈ free ++ m.held := List.mem_append_right free member
    refine data.apart here listed ?_
    exact page_eq (data.listed listed).1 placed.1 (there.symm.trans same)
  · exact not_outside placed same outside

theorem go_frame (inv : Inv l m free) (taken : go l m t = some m') {addr : Word}
    (mine : Within m.held addr ∨ Outside l addr) : m'.mem addr = m.mem addr := by
  unfold go at taken
  cases here : m.point t <;> simp only [here] at taken
  case away => cases taken
  case kalloc => rw [acquire_mem taken]
  case kfree v => rw [acquire_mem taken]
  case first =>
    cases taken
    rfl
  case unlink r =>
    cases taken
    split <;> rfl
  case taken r =>
    cases taken
    exact congrFun (release_mem m) addr
  case memset v n =>
    split_ifs at taken with inside <;> cases taken
    · refine inv.data.frame (congrArg Point.page here) ?_ mine
      unfold PGSIZE at inside ⊢
      omega
    · rfl
  case link v =>
    cases taken
    have frame := inv.data.frame (i := 0) (w := m.kmem.freelist) (congrArg Point.page here)
      (by decide) mine
    rwa [BitVec.add_zero] at frame
  case push v =>
    cases taken
    rfl
  case freed =>
    cases taken
    rw [caller_mem, release_mem]
  case freerange => rw [freerange_mem taken]

theorem step_kept {e : Event} (inv : Inv l m free) (taken : step l m e = some m') :
    Kept l m e m' := by
  rw [step, if_pos inv.data.fine] at taken
  constructor
  case frame =>
    intro addr other mine
    cases e with
    | kalloc t =>
        rw [act] at taken
        split_ifs at taken
        cases taken
        rfl
    | kfree t v =>
        rw [act] at taken
        split_ifs at taken
        cases taken
        rw [kfree_mem]
    | kinit2 =>
        rw [act] at taken
        split_ifs at taken
        cases taken
        rfl
    | go t => exact go_frame inv taken mine
    | store addr' b =>
        rw [act] at taken
        split_ifs at taken
        cases taken
        refine Function.update_of_ne ?_ _ _
        rintro rfl
        exact other b rfl
  case given =>
    rintro t r rfl here nonzero
    have page : (m.point t).page = some r := (congrArg Point.page here).trans (pointer_some nonzero)
    have junk := inv.data.knows t
    rw [here] at junk
    refine ⟨inv.data.placed page, fun held => ?_, junk nonzero, ?_⟩
    · exact inv.data.apart page (List.mem_append_right free held) rfl
    · simp only [act, go, here, if_neg nonzero] at taken
      cases taken
      rfl
  case refused =>
    rintro t rfl here
    have knows := inv.data.knows t
    rw [here] at knows
    have null : 0 = m.kmem.freelist := knows
    rw [← null]
    exact if_pos rfl

/-- From the first kfree() of kinit1() on, in whatever order the threads take their steps:
nothing panics, every page is in one place, kalloc() gives each page to one caller and
fails only on an empty list, and the bytes that callers have stored stay. -/
theorem kmem_sound (l : Placed) (mem : Memory) (es : List Event) :
    Always (step l) (Sound l) (boot l mem) es ∧ Stepwise (step l) (Kept l) (boot l mem) es := by
  have start : ∃ free, Inv l (boot l mem) free := ⟨[], boot_inv l mem⟩
  have sound : ∀ m, (∃ free, Inv l m free) → Sound l m := by
    rintro m ⟨free, inv⟩
    exact inv.sound
  have kept : ∀ m e m', (∃ free, Inv l m free) → step l m e = some m' → ∃ free, Inv l m' free := by
    rintro m e m' ⟨free, inv⟩ taken
    exact step_inv inv taken
  have allowed : ∀ m e m', (∃ free, Inv l m free) → step l m e = some m' → Kept l m e m' := by
    rintro m e m' ⟨free, inv⟩ taken
    exact step_kept inv taken
  exact ⟨always_of_invariant (step l) sound kept es _ start,
    stepwise_of_invariant (step l) kept allowed es _ start⟩

end Xv6.Public3.Kalloc
