import Xv6.Public3.OwnerSteps

/-!
# Calls that take pages one by one

sbrk(), exec(), fork() and wait() keep the owners: where they begin, at every
kalloc() and kfree() of them, and where they return.
-/

set_option autoImplicit false

namespace Xv6.Public3

open Xv6.Lib.Words
open Xv6.Lib.Allocation
open Xv6.Common

variable {P : Type} {l : Layout} {strict : Prop} {owner owner' : Page → Owner P}

/-! ## One call -/

/-- No call of another process has reserved the slot. -/
theorem Slots.reserved {k : Kernel P} (h : Slots k) {p x : P} {value : Proc P}
    (unused : value.state = .UNUSED ∨ value.state = .EMBRYO →
      value.kstack = none ∧ value.image = none)
    (idle : x ≠ p → (k.proc x).state ≠ .LIVE)
    (forking : (k.proc x).state ≠ .EMBRYO)
    (waiting : (k.proc x).state ≠ .ZOMBIE ∨ (k.proc x).image ≠ none) : Reserved k p x value := by
  constructor
  case unused => exact unused
  case idle =>
    intro other
    cases found : k.call x with
    | none => rfl
    | some call => exact absurd (h.busy x call found) (idle other)
  case forking => exact fun q prog _ found => absurd (h.forking q x prog found) forking
  case waiting =>
    intro q prog _ found
    obtain ⟨dead, _, _, gone⟩ := h.waiting q x prog found
    exact (waiting.elim (absurd dead) (absurd gone))

/-- A kalloc() or a kfree() of a process, with the pages in its hands before and after. -/
theorem Supply.goes {α : Type} {k : Kernel P} (h : Supply l k owner) {p : P} {prog prog' : Vm α}
    {freelist : List Page} {post : Set Page → α → Prop}
    (fine : Does l strict prog (held l owner (.call p)) post)
    (next : progress k.freelist prog = .goes prog' freelist) :
    ∃ owner', Supply l { k with freelist := freelist } owner' ∧
      Does l strict prog' (held l owner' (.call p)) post ∧
      (∀ o, o ≠ .call p → o ≠ .freelist → held l owner' o = held l owner o) ∧
      ∀ r ∈ held l owner (.call p), r ∈ held l owner' (.call p) ∨ r ∈ freelist := by
  cases prog with
  | ret a => cases next
  | fail e => cases next
  | alloc after =>
      obtain ⟨empty, taken⟩ := Wp.of_alloc fine
      cases free : k.freelist with
      | nil =>
          rw [free] at next
          cases next
          refine ⟨owner, ?_, empty, fun _ _ _ => rfl, fun r mine => Or.inl mine⟩
          exact h.of_same free.symm rfl rfl
      | cons r rest =>
          rw [free] at next
          cases next
          have mine := (h.free r).mp (free ▸ List.mem_cons_self)
          have fresh : r ∉ held l owner (.call p) := by
            intro both
            have same := mine.2.symm.trans both.2
            cases same
          refine ⟨_, h.take free (o := .call p) (by simp) (by simp), ?_, ?_, ?_⟩
          · rw [held_update_new owner mine.1]
            exact taken r mine.1 fresh
          · intro o call other
            exact held_update_other call.symm (mine.2 ▸ other.symm)
          · intro s both
            rw [held_update_new owner mine.1]
            exact Or.inl (Set.mem_insert_of_mem r both)
  | free r after =>
      obtain ⟨mine, rest⟩ := Wp.of_free fine
      cases next
      refine ⟨_, h.give mine (by simp) (by simp), ?_, ?_, ?_⟩
      · rw [held_update_old owner r (by simp)]
        exact rest
      · intro o call other
        exact held_update_other other.symm (mine.2 ▸ call.symm)
      · intro s both
        rw [held_update_old owner r (by simp)]
        by_cases here : s = r
        · exact Or.inr (here ▸ List.mem_cons_self)
        · exact Or.inl ⟨both, here⟩

/-! ## What the others have -/

/-- What wait() has in its hands it keeps, until it is on the free list. -/
structure Stays (l : Layout) (k k' : Kernel P) (owner owner' : Page → Owner P) : Prop where
  boot : held l owner' .boot = held l owner .boot
  wait : ∀ p c prog, k.call p = some (.wait c prog) → ∀ r ∈ held l owner (.call p),
    r ∈ k'.freelist ∨
      r ∈ held l owner' (.call p) ∧ ∃ prog', k'.call p = some (.wait c prog')

theorem Stays.agree {k k' : Kernel P} (agree : Agree owner owner') (call : k'.call = k.call) :
    Stays l k k' owner owner' := by
  constructor
  case boot => exact agree.held (by simp) (by simp)
  case wait =>
    intro p c prog found r mine
    rw [agree.held (by simp) (by simp), call]
    exact Or.inr ⟨mine, prog, found⟩

/-- Owners that a call of the process has nothing to do with. -/
def Apart (p : P) (o : Owner P) : Prop := o = .boot ∨ ∃ q, q ≠ p ∧ o = .call q

theorem Apart.image {p q : P} {o : Owner P} (apart : Apart p o) : o ≠ .image q := by
  obtain rfl | ⟨_, _, rfl⟩ := apart
  · simp
  · simp

theorem Apart.kstack {p q : P} {o : Owner P} (apart : Apart p o) : o ≠ .kstack q := by
  obtain rfl | ⟨_, _, rfl⟩ := apart
  · simp
  · simp

theorem Apart.free {p : P} {o : Owner P} (apart : Apart p o) : o ≠ .freelist := by
  obtain rfl | ⟨_, _, rfl⟩ := apart
  · simp
  · simp

theorem Apart.call {p : P} {o : Owner P} (apart : Apart p o) : o ≠ .call p := by
  obtain rfl | ⟨q, other, rfl⟩ := apart
  · simp
  · simpa using other

/-! ## Calls begin -/

theorem Kernel.ready.idle {k : Kernel P} {p : P} (ready : k.ready p) : k.call p = none :=
  Option.isNone_iff_eq_none.mp ready.2

theorem ready_image {k : Kernel P} (h : Slots k) {p : P} (ready : k.ready p) :
    (k.proc p).image.isSome = true := by
  refine h.image p ready.1 ?_
  intro prog busy
  rw [ready.idle] at busy
  cases busy

variable [DecidableEq P]

/-- growproc() or exec() begins with the pages of the image. -/
theorem Inv.startImage {k k' : Kernel P} (h : Inv l strict k owner) {p : P} (ready : k.ready p)
    {prog : Image → Vm (Image × Bool)}
    (fine : ∀ im, (k.proc p).image = some im → ∀ hands, Owns l im.pgdir ∅ hands →
      im.Sound strict → Does l strict (prog im) hands fun s r =>
        Owns l r.1.pgdir ∅ s ∧ r.1.Sound strict)
    (taken : k.startImage p prog = some k') :
    Inv l strict k' (hand owner (.image p) (.call p)) := by
  have idle : k.call p = none := Option.isNone_iff_eq_none.mp ready.2
  have apart : Owner.image p ≠ .call p := by simp
  unfold Kernel.startImage at taken
  split at taken
  · cases taken
  · rename_i im found
    cases taken
    obtain ⟨owns, sound⟩ := h.memory.image p im found
    have supply := h.supply.hand apart (by simp) (by simp) (by simp) (by simp)
    refine ⟨supply.of_same rfl rfl rfl, ?_, ?_, h.calm⟩
    · apply h.memory.move ⟨rfl, rfl⟩
      case kstack =>
        intro r
        rw [held_hand owner apart, if_neg (by simp), if_neg (by simp)]
        exact h.memory.kstack p r
      case image => exact fun im impossible => by cases impossible
      case no_image => exact fun _ => (held_hand owner apart _).trans (if_pos rfl)
      case fine =>
        rintro c ⟨⟩
        rw [held_hand owner apart, if_neg (by simp), if_pos rfl, h.memory.no_call p idle,
          Set.empty_union]
        apply wp_bind
        refine wp_mono (fine im found _ owns sound) ?_
        exact fun s r done => wp_pure done
      case no_call => exact fun impossible => by cases impossible
      case others =>
        intro o _ image call _ _
        rw [held_hand owner apart, if_neg image, if_neg call]
    · have live : (({ k.proc p with image := none } : Proc P)).state = .LIVE := ready.1
      have here : ((k.setProc p { k.proc p with image := none }).proc p) =
          { k.proc p with image := none } := (setProc_proc k p p _).trans (if_pos rfl)
      apply h.slots.move ⟨rfl, rfl⟩
      case slot =>
        refine h.slots.reserved ?_ (fun other => absurd rfl other) ?_ (Or.inl ?_)
        · rw [live]
          simp
        · rw [ready.1]
          simp
        · rw [ready.1]
          simp
      case reserves => exact congrArg Proc.image here
      case live => exact (congrArg Proc.state here).trans live
      case image_x => exact fun _ other => absurd rfl (other rfl _)
      case image_p => exact fun other => absurd rfl other

/-- fork() begins with nothing. -/
theorem Inv.startFork {k k' : Kernel P} (h : Inv l strict k owner) {p c : P} (ready : k.ready p)
    (taken : k.startFork l p c = some k') : Inv l strict k' owner := by
  unfold Kernel.startFork at taken
  split at taken
  · cases taken
  · rename_i im found
    split at taken
    · rename_i unused
      cases taken
      have apart : p ≠ c := by
        rintro rfl
        rw [ready.1] at unused
        cases unused
      obtain ⟨stack, image⟩ := h.slots.unused c (Or.inl unused)
      refine ⟨h.supply.of_same rfl rfl rfl, ?_, ?_, h.calm⟩
      · apply h.memory.move ⟨rfl, rfl⟩
        case kstack => exact h.memory.kstack c
        case image => exact h.memory.image c
        case no_image => exact h.memory.no_image c
        case fine =>
          rintro call ⟨⟩
          rw [h.memory.no_call p ready.idle]
          obtain ⟨_, sound⟩ := h.memory.image p im found
          refine wp_mono (forkMemory_wp (Set.empty_subset _) sound) ?_
          rintro s r (same | ⟨kstack, child, rfl, _, owns, sound⟩)
          · exact Or.inl same
          · exact Or.inr ⟨kstack, child, rfl, owns, sound⟩
        case no_call => exact fun impossible => by cases impossible
        case others => exact fun o _ _ _ _ _ => rfl
      · apply h.slots.move ⟨rfl, rfl⟩
        case slot =>
          refine h.slots.reserved (fun _ => ⟨stack, image⟩) ?_ ?_ (Or.inl ?_)
          · rw [unused]
            simp
          · rw [unused]
            simp
          · rw [unused]
            simp
        case reserves =>
          constructor
          · change ((k.setProc c _).proc c).state = .EMBRYO
            rw [setProc_proc, if_pos rfl]
          · intro q prog _ forking
            have embryo := h.slots.forking q c prog forking
            rw [unused] at embryo
            cases embryo
        case live =>
          change ((k.setProc c _).proc p).state = .LIVE
          rw [setProc_proc, if_neg apart]
          exact ready.1
        case image_x => exact fun impossible => by cases impossible
        case image_p => exact fun _ _ => ready_image h.slots ready
    · cases taken

/-- wait() begins with the kernel stack and the image of the child. -/
theorem Inv.startWait {k k' : Kernel P} (h : Inv l strict k owner) {p c : P} (ready : k.ready p)
    (taken : k.startWait l p c = some k') :
    Inv l strict k' (hand (hand owner (.image c) (.call p)) (.kstack c) (.call p)) := by
  have apart : Owner.image c ≠ .call p := by simp
  have apart' : Owner.kstack c ≠ .call p := by simp
  unfold Kernel.startWait at taken
  split at taken
  · rename_i kstack im stack image
    split at taken
    · rename_i zombie
      cases taken
      have away : p ≠ c := by
        rintro rfl
        have live := ready.1
        rw [zombie.2] at live
        cases live
      obtain ⟨owns, sound⟩ := h.memory.image c im image
      have mine := (h.memory.kstack c kstack).mp stack
      have supply := (h.supply.hand apart (by simp) (by simp) (by simp) (by simp)).hand apart'
        (by simp) (by simp) (by simp) (by simp)
      have hands : held l (hand (hand owner (.image c) (.call p)) (.kstack c) (.call p)) (.call p) =
          insert kstack (held l owner (.image c)) := by
        have one : held l owner (.kstack c) = {kstack} := by
          ext r
          rw [← h.memory.kstack c r, stack, Option.some.injEq, eq_comm]
          rfl
        rw [held_hand _ apart', if_neg (by simp), if_pos rfl, held_hand owner apart,
          held_hand owner apart, if_neg (by simp), if_pos rfl, if_neg (by simp), if_neg (by simp),
          h.memory.no_call p ready.idle, one, Set.empty_union, Set.union_comm]
        rfl
      refine ⟨supply.of_same rfl rfl rfl, ?_, ?_, h.calm⟩
      · apply h.memory.move ⟨rfl, rfl⟩
        case kstack =>
          intro r
          rw [held_hand _ apart', if_pos rfl]
          exact iff_of_false (by simp) (Set.notMem_empty r)
        case image => exact fun im impossible => by cases impossible
        case no_image =>
          intro _
          rw [held_hand _ apart', if_neg (by simp), if_neg (by simp), held_hand owner apart,
            if_pos rfl]
        case fine =>
          rintro call ⟨⟩
          rw [hands]
          have fresh : kstack ∉ held l owner (.image c) := by
            intro both
            have same := mine.2.symm.trans both.2
            cases same
          exact waitMemory_wp (Set.notMem_empty kstack) (owns.aside mine.1 fresh)
        case no_call => exact fun impossible => by cases impossible
        case others =>
          intro o stack image call _ _
          rw [held_hand _ apart', if_neg stack, if_neg call, held_hand owner apart, if_neg image,
            if_neg call]
      · apply h.slots.move ⟨rfl, rfl⟩
        case slot =>
          refine h.slots.reserved (fun _ => ⟨rfl, rfl⟩) ?_ ?_ (Or.inr ?_)
          · rw [zombie.2]
            simp
          · rw [zombie.2]
            simp
          · rw [image]
            simp
        case reserves =>
          change ((k.setProc c _).proc c).state = .ZOMBIE ∧
            ((k.setProc c _).proc c).parent = some p ∧ ((k.setProc c _).proc c).kstack = none ∧
            ((k.setProc c _).proc c).image = none
          rw [setProc_proc, if_pos rfl]
          exact ⟨zombie.2, zombie.1, rfl, rfl⟩
        case live =>
          change ((k.setProc c _).proc p).state = .LIVE
          rw [setProc_proc, if_neg away]
          exact ready.1
        case image_x =>
          intro live
          have dead := zombie.2
          rw [live] at dead
          cases dead
        case image_p => exact fun _ _ => ready_image h.slots ready
    · cases taken
  · cases taken

/-! ## Calls go on -/

theorem progress_returns {α : Type} {freelist : List Page} {prog : Vm α} {a : α}
    (next : progress freelist prog = .returns a) : prog = .ret a := by
  cases prog with
  | ret b =>
      cases next
      rfl
  | alloc after => cases freelist <;> cases next
  | free r after => cases next
  | fail e => cases next

theorem not_of_fail {α : Type} {e : Panic} {hands : Set Page} {post : Set Page → α → Prop}
    (fine : Does l strict (.fail e) hands post) : ¬ strict := by
  have allowed := Wp.of_fail fine
  exact allowed

theorem not_strict {α : Type} {freelist : List Page} {prog : Vm α} {e : Panic} {hands : Set Page}
    {post : Set Page → α → Prop} (fine : Does l strict prog hands post)
    (next : progress freelist prog = .panics e) : ¬ strict := by
  cases prog with
  | ret b => cases next
  | alloc after => cases freelist <;> cases next
  | free r after => cases next
  | fail e => exact not_of_fail fine

/-- A kalloc() or a kfree() of a call keeps the owners, and each page that the process
has in its hands stays there or goes to the free list. -/
theorem Inv.goes {α : Type} {k : Kernel P} (h : Inv l strict k owner) {p : P}
    {prog prog' : Vm α} {freelist : List Page} (wrap : Vm α → Call P)
    {post : Set Page → α → Prop}
    (fine : ∀ hands prog, (wrap prog).Fine l strict hands ↔ Does l strict prog hands post)
    (reserves : ∀ prog', Reserves k p k.proc (some (wrap prog')))
    (kind : ∀ prog', (∀ other, wrap prog' ≠ .image other) → (k.proc p).image.isSome = true)
    (found : k.call p = some (wrap prog))
    (next : progress k.freelist prog = .goes prog' freelist) :
    ∃ owner', Inv l strict ({ k with freelist := freelist }.setCall p (some (wrap prog'))) owner' ∧
      (∀ o, o ≠ .call p → o ≠ .freelist → held l owner' o = held l owner o) ∧
      ∀ r ∈ held l owner (.call p), r ∈ held l owner' (.call p) ∨ r ∈ freelist := by
  have before := (fine _ _).mp (h.memory.call p _ found)
  obtain ⟨owner', supply, after, others, stays⟩ := h.supply.goes before next
  have same : ({ k with freelist := freelist }.setCall p (some (wrap prog'))).proc =
      Function.update k.proc p (k.proc p) := (Function.update_eq_self p k.proc).symm
  have busy := h.slots.busy p _ found
  refine ⟨owner', ⟨supply.of_same rfl rfl rfl, ?_, ?_, h.calm⟩, others, stays⟩
  · apply h.memory.move ⟨same, rfl⟩
    case kstack =>
      intro r
      rw [others _ (by simp) (by simp)]
      exact h.memory.kstack p r
    case image =>
      rw [others _ (by simp) (by simp)]
      exact h.memory.image p
    case no_image =>
      rw [others _ (by simp) (by simp)]
      exact h.memory.no_image p
    case fine =>
      rintro call ⟨⟩
      exact (fine _ _).mpr after
    case no_call => exact fun impossible => by cases impossible
    case others => exact fun o _ _ call free _ => others o call free
  · apply h.slots.move ⟨same, rfl⟩
    case slot =>
      constructor
      case unused => exact h.slots.unused p
      case idle => exact fun other => absurd rfl other
      case forking => exact fun q prog _ => h.slots.forking q p prog
      case waiting => exact fun q prog _ => h.slots.waiting q p prog
    case reserves => exact reserves prog'
    case live => exact busy
    case image_x => exact fun _ other => kind prog' fun call same => other rfl call (same ▸ rfl)
    case image_p => exact fun other => absurd rfl other

/-! ## Calls return -/

/-- growproc() and exec() leave an image. -/
theorem Inv.returnImage {k : Kernel P} (h : Inv l strict k owner) {p : P} {im : Image}
    (found : k.call p = some (.image (.ret im))) :
    Inv l strict ((k.setProc p { k.proc p with image := some im }).setCall p none)
      (hand owner (.call p) (.image p)) := by
  have apart : Owner.call p ≠ .image p := by simp
  obtain ⟨owns, sound⟩ := Wp.of_ret (h.memory.call p _ found)
  have live := h.slots.busy p _ found
  have gone := h.memory.no_image p (h.slots.taken p _ found)
  have supply := h.supply.hand apart (by simp) (by simp) (by simp) (by simp)
  refine ⟨supply.of_same rfl rfl rfl, ?_, ?_, h.calm⟩
  · apply h.memory.move ⟨rfl, rfl⟩
    case kstack =>
      intro r
      rw [held_hand owner apart, if_neg (by simp), if_neg (by simp)]
      exact h.memory.kstack p r
    case image =>
      rintro im' ⟨⟩
      rw [held_hand owner apart, if_neg (by simp), if_pos rfl, gone, Set.empty_union]
      exact ⟨owns, sound⟩
    case no_image => exact fun impossible => by cases impossible
    case fine => exact fun _ impossible => by cases impossible
    case no_call => exact fun _ => (held_hand owner apart _).trans (if_pos rfl)
    case others =>
      intro o _ image call _ _
      rw [held_hand owner apart, if_neg call, if_neg image]
  · apply h.slots.move ⟨rfl, rfl⟩
    case slot =>
      refine h.slots.reserved ?_ (fun other => absurd rfl other) ?_ (Or.inl ?_)
      · intro impossible
        rw [live] at impossible
        simp at impossible
      · rw [live]
        simp
      · rw [live]
        simp
    case reserves => trivial
    case live => exact (congrArg Proc.state ((setProc_proc k p p _).trans (if_pos rfl))).trans live
    case image_x => exact fun _ _ => rfl
    case image_p => exact fun other => absurd rfl other

/-- The slot that fork() or wait() leaves to nobody, or to the child. -/
theorem Slots.leave {k k' : Kernel P} (h : Slots k) {p c : P} {value : Proc P} {call : Call P}
    (found : k.call p = some call) (moves : Moves k k' p c value none)
    (reserved : (∃ prog, call = .fork c prog) ∨ ∃ prog, call = .wait c prog)
    (unused : value.state = .UNUSED ∨ value.state = .EMBRYO →
      value.kstack = none ∧ value.image = none)
    (image : value.state = .LIVE → value.image.isSome = true) : Slots k' := by
  have live := h.busy p call found
  have state : (k.proc c).state = .EMBRYO ∨ (k.proc c).state = .ZOMBIE := by
    obtain ⟨prog, rfl⟩ | ⟨prog, rfl⟩ := reserved
    · exact Or.inl (h.forking p c prog found)
    · exact Or.inr (h.waiting p c prog found).1
  have dead : (k.proc c).state ≠ .LIVE := by
    intro same
    rw [same] at state
    simp at state
  have apart : p ≠ c := by
    rintro rfl
    exact dead live
  have own : ∀ prog, call ≠ .image prog := by
    rintro prog rfl
    simp at reserved
  apply h.move moves
  case slot =>
    constructor
    case unused => exact unused
    case idle =>
      intro _
      cases busy : k.call c with
      | none => rfl
      | some call => exact absurd (h.busy c call busy) dead
    case forking =>
      intro q prog other forking
      obtain ⟨prog', rfl⟩ | ⟨prog', rfl⟩ := reserved
      · exact absurd (h.one_parent q p c prog prog' forking found) other
      · have zombie := (h.waiting p c prog' found).1
        rw [h.forking q c prog forking] at zombie
        cases zombie
    case waiting =>
      intro q prog other waiting
      obtain ⟨zombie, parent, _⟩ := h.waiting q c prog waiting
      obtain ⟨prog', rfl⟩ | ⟨prog', rfl⟩ := reserved
      · rw [h.forking p c prog' found] at zombie
        cases zombie
      · have same := (h.waiting p c prog' found).2.1
        rw [parent, Option.some.injEq] at same
        exact absurd same other
  case reserves => trivial
  case live =>
    rw [moves.proc_apply, if_neg apart]
    exact live
  case image_x => exact fun live _ => image live
  case image_p =>
    intro _ _
    refine h.image p live ?_
    intro prog same
    rw [found, Option.some.injEq] at same
    exact own prog same

/-- A failed fork() has given back what it took. -/
theorem Inv.failFork {k : Kernel P} (h : Inv l strict k owner) {p c : P}
    (found : k.call p = some (.fork c (.ret none))) :
    Inv l strict ((k.setProc c { k.proc c with state := .UNUSED }).setCall p none) owner := by
  have empty : held l owner (.call p) = ∅ := by
    obtain ⟨_, empty⟩ | ⟨_, _, impossible, _⟩ := Wp.of_ret (h.memory.call p _ found)
    · exact empty
    · cases impossible
  obtain ⟨stack, image⟩ := h.slots.unused c (Or.inr (h.slots.forking p c _ found))
  refine ⟨h.supply.of_same rfl rfl rfl, ?_, ?_, h.calm⟩
  · apply h.memory.move ⟨rfl, rfl⟩
    case kstack => exact h.memory.kstack c
    case image => exact h.memory.image c
    case no_image => exact h.memory.no_image c
    case fine => exact fun _ impossible => by cases impossible
    case no_call => exact fun _ => empty
    case others => exact fun o _ _ _ _ _ => rfl
  · refine h.slots.leave found ⟨rfl, rfl⟩ (Or.inl ⟨_, rfl⟩) (fun _ => ⟨stack, image⟩) ?_
    exact fun impossible => by cases impossible

/-- The kernel stack and the image that fork() has made are the child's. -/
theorem Inv.returnFork {k : Kernel P} (h : Inv l strict k owner) {p c : P} {kstack : Page}
    {im : Image} {file : FileTable} {ofile : Descriptors}
    (found : k.call p = some (.fork c (.ret (some (kstack, im)))))
    (dup : Kernel.dupAll k.file ofile = some file) :
    Inv l strict (({ k with file := file }.setProc c
        { state := .LIVE, kstack := some kstack, image := some im, parent := some p,
          ofile := ofile }).setCall p none)
        (Function.update (hand owner (.call p) (.image c)) kstack (.kstack c)) ∧
      ∀ o, Apart p o → held l (Function.update (hand owner (.call p) (.image c)) kstack
        (.kstack c)) o = held l owner o := by
  have apart : Owner.call p ≠ .image c := by simp
  obtain ⟨stack, image⟩ := h.slots.unused c (Or.inr (h.slots.forking p c _ found))
  obtain ⟨owns, sound⟩ : Owns l im.pgdir (insert kstack ∅) (held l owner (.call p)) ∧
      im.Sound strict := by
    obtain ⟨impossible, _⟩ | ⟨_, _, same, rest⟩ := Wp.of_ret (h.memory.call p _ found)
    · cases impossible
    · cases same
      exact rest
  have mine : kstack ∈ held l owner (.call p) := owns.frame_mem (Set.mem_insert kstack ∅)
  have no_stack : held l owner (.kstack c) = ∅ := by
    ext r
    rw [← h.memory.kstack c r, stack]
    simp
  have given : hand owner (.call p) (.image c) kstack = .image c := if_pos mine.2
  have held_after : ∀ o, o ≠ .kstack c → o ≠ .image c →
      held l (Function.update (hand owner (.call p) (.image c)) kstack (.kstack c)) o =
        if o = .call p then ∅ else held l owner o := by
    intro o stack image
    rw [held_update_other stack.symm (by rw [given]; exact image.symm), held_hand owner apart,
      if_neg image]
  have supply : Supply l { k with file := file }
      (Function.update (hand owner (.call p) (.image c)) kstack (.kstack c)) := by
    refine (h.supply.dupAll dup).owners ?_ ?_
    · rw [held_after _ (by simp) (by simp), if_neg (by simp)]
    · rw [held_after _ (by simp) (by simp), if_neg (by simp)]
  refine ⟨⟨supply.of_same rfl rfl rfl, ?_, ?_, h.calm⟩, ?_⟩
  · apply h.memory.move ⟨rfl, rfl⟩
    case kstack =>
      intro r
      rw [held_update_new _ mine.1, held_hand owner apart, if_neg (by simp), if_neg (by simp),
        no_stack, Option.some.injEq, eq_comm]
      simp
    case image =>
      rintro im' ⟨⟩
      rw [held_update_old _ _ (by simp), held_hand owner apart, if_neg (by simp), if_pos rfl,
        h.memory.no_image c image, Set.empty_union]
      exact ⟨owns.unaside (Set.notMem_empty kstack), sound⟩
    case no_image => exact fun impossible => by cases impossible
    case fine => exact fun _ impossible => by cases impossible
    case no_call => exact fun _ => (held_after _ (by simp) (by simp)).trans (if_pos rfl)
    case others =>
      intro o stack image call _ _
      rw [held_after o stack image, if_neg call]
  · refine h.slots.leave found ⟨rfl, rfl⟩ (Or.inl ⟨_, rfl⟩) ?_ (fun _ => rfl)
    exact fun impossible => by simp at impossible
  · exact fun o apart => (held_after o apart.kstack apart.image).trans (if_neg apart.call)

/-- Nothing of the child is left when wait() returns. -/
theorem Inv.returnWait {k : Kernel P} (h : Inv l strict k owner) {p c : P}
    (found : k.call p = some (.wait c (.ret ()))) :
    Inv l strict ((k.setProc c { k.proc c with state := .UNUSED, parent := none }).setCall p none)
      owner := by
  have fine : Does l strict (.ret ()) (held l owner (.call p)) fun s _ => s = ∅ :=
    h.memory.call p _ found
  have empty := Wp.of_ret fine
  obtain ⟨_, _, stack, image⟩ := h.slots.waiting p c _ found
  refine ⟨h.supply.of_same rfl rfl rfl, ?_, ?_, h.calm⟩
  · apply h.memory.move ⟨rfl, rfl⟩
    case kstack => exact h.memory.kstack c
    case image => exact h.memory.image c
    case no_image => exact h.memory.no_image c
    case fine => exact fun _ impossible => by cases impossible
    case no_call => exact fun _ => empty
    case others => exact fun o _ _ _ _ _ => rfl
  · refine h.slots.leave found ⟨rfl, rfl⟩ (Or.inr ⟨_, rfl⟩) (fun _ => ⟨stack, image⟩) ?_
    exact fun impossible => by cases impossible

/-! ## Every step -/

/-- The step of another process. -/
theorem Stays.other {k k' : Kernel P} {p : P} {call : Option (Call P)}
    (calls : k'.call = Function.update k.call p call)
    (others : ∀ o, Apart p o → held l owner' o = held l owner o)
    (own : ∀ c prog, k.call p = some (.wait c prog) → ∀ r ∈ held l owner (.call p),
      r ∈ k'.freelist ∨
        r ∈ held l owner' (.call p) ∧ ∃ prog', k'.call p = some (.wait c prog')) :
    Stays l k k' owner owner' := by
  constructor
  case boot => exact others _ (Or.inl rfl)
  case wait =>
    intro q c prog found r mine
    by_cases here : q = p
    · subst here
      exact own c prog found r mine
    · rw [others _ (Or.inr ⟨q, here, rfl⟩), calls, Function.update_of_ne here]
      exact Or.inr ⟨mine, prog, found⟩

omit [DecidableEq P] in
/-- A panic, which no rule allows when `strict` holds. -/
theorem Inv.panics {k : Kernel P} (h : Inv l strict k owner) {e : Panic} (allowed : ¬ strict) :
    Inv l strict { k with panicked := some e } owner := by
  have slots : Slots { k with panicked := some e } :=
    ⟨h.slots.busy, h.slots.unused, h.slots.forking, h.slots.one_parent, h.slots.waiting,
      h.slots.taken, h.slots.image⟩
  refine ⟨h.supply.of_same rfl rfl rfl, ?_, slots, fun known => absurd known allowed⟩
  exact h.memory.of_same ⟨fun _ => rfl, fun _ => rfl, rfl⟩ (.refl owner)

theorem Inv.advanceImage {k k' : Kernel P} (h : Inv l strict k owner) {p : P} {prog : Vm Image}
    (found : k.call p = some (.image prog)) (taken : k.advance p = some k') :
    ∃ owner', Inv l strict k' owner' ∧ Stays l k k' owner owner' := by
  have own : ∀ c prog, k.call p ≠ some (.wait c prog) := by
    rw [found]
    simp
  simp only [Kernel.advance, found] at taken
  cases next : progress k.freelist prog with
  | returns im =>
      simp only [next, Option.some.injEq] at taken
      subst taken
      obtain rfl := progress_returns next
      refine ⟨_, h.returnImage found, .other rfl ?_ fun c prog impossible => ?_⟩
      · intro o apart
        rw [held_hand owner (by simp), if_neg apart.call, if_neg apart.image]
      · exact absurd impossible (own c prog)
  | goes prog' freelist =>
      simp only [next, Option.some.injEq] at taken
      subst taken
      obtain ⟨owner', inv, others, _⟩ := h.goes .image (fun _ _ => Iff.rfl)
        (fun _ => h.slots.taken p prog found) (fun _ other => absurd rfl (other _)) found next
      refine ⟨owner', inv, .other rfl ?_ fun c prog impossible => ?_⟩
      · exact fun o apart => others o apart.call apart.free
      · exact absurd impossible (own c prog)
  | panics e =>
      simp only [next, Option.some.injEq] at taken
      subst taken
      have allowed := not_strict (h.memory.call p _ found) next
      exact ⟨owner, h.panics allowed, .agree (.refl owner) rfl⟩

theorem Inv.advanceFork {k k' : Kernel P} (h : Inv l strict k owner) {p c : P}
    {prog : Vm (Option (Page × Image))} (found : k.call p = some (.fork c prog))
    (taken : k.advance p = some k') :
    ∃ owner', Inv l strict k' owner' ∧ Stays l k k' owner owner' := by
  have own : ∀ c prog, k.call p ≠ some (.wait c prog) := by
    rw [found]
    simp
  have live := h.slots.busy p _ found
  simp only [Kernel.advance, found] at taken
  cases next : progress k.freelist prog with
  | returns child =>
      simp only [next] at taken
      obtain rfl := progress_returns next
      obtain ⟨mid, ended, rfl⟩ := Option.map_eq_some_iff.mp taken
      cases child with
      | none =>
          cases ended
          refine ⟨owner, h.failFork found, .other rfl (fun _ _ => rfl) ?_⟩
          exact fun c prog impossible => absurd impossible (own c prog)
      | some child =>
          obtain ⟨file, dup, rfl⟩ := Option.map_eq_some_iff.mp ended
          obtain ⟨inv, others⟩ := h.returnFork found dup
          refine ⟨_, inv, .other rfl others ?_⟩
          exact fun c prog impossible => absurd impossible (own c prog)
  | goes prog' freelist =>
      simp only [next, Option.some.injEq] at taken
      subst taken
      have image : (k.proc p).image.isSome = true := by
        refine h.slots.image p live ?_
        rw [found]
        simp
      obtain ⟨owner', inv, others, _⟩ := h.goes (.fork c) (fun _ _ => Iff.rfl)
        (fun _ => ⟨h.slots.forking p c prog found, fun q prog' other same =>
          other (h.slots.one_parent q p c prog' prog same found)⟩) (fun _ _ => image) found next
      refine ⟨owner', inv, .other rfl ?_ fun c prog impossible => ?_⟩
      · exact fun o apart => others o apart.call apart.free
      · exact absurd impossible (own c prog)
  | panics e =>
      simp only [next, Option.some.injEq] at taken
      subst taken
      have allowed := not_strict (h.memory.call p _ found) next
      exact ⟨owner, h.panics allowed, .agree (.refl owner) rfl⟩

theorem Inv.advanceWait {k k' : Kernel P} (h : Inv l strict k owner) {p c : P} {prog : Vm Unit}
    (found : k.call p = some (.wait c prog)) (taken : k.advance p = some k') :
    ∃ owner', Inv l strict k' owner' ∧ Stays l k k' owner owner' := by
  have live := h.slots.busy p _ found
  have fine : Does l strict prog (held l owner (.call p)) fun s _ => s = ∅ := h.memory.call p _ found
  simp only [Kernel.advance, found] at taken
  cases next : progress k.freelist prog with
  | returns done =>
      simp only [next, Option.some.injEq] at taken
      subst taken
      obtain rfl := progress_returns next
      have empty := Wp.of_ret fine
      refine ⟨owner, h.returnWait found, .other rfl (fun _ _ => rfl) ?_⟩
      intro c prog _ r mine
      rw [empty] at mine
      exact absurd mine (Set.notMem_empty r)
  | goes prog' freelist =>
      simp only [next, Option.some.injEq] at taken
      subst taken
      have image : (k.proc p).image.isSome = true := by
        refine h.slots.image p live ?_
        rw [found]
        simp
      obtain ⟨owner', inv, others, stays⟩ := h.goes (.wait c) (fun _ _ => Iff.rfl)
        (fun _ => h.slots.waiting p c prog found) (fun _ _ => image) found next
      refine ⟨owner', inv, .other rfl ?_ ?_⟩
      · exact fun o apart => others o apart.call apart.free
      · intro c' prog'' same r mine
        rw [found] at same
        cases same
        refine (stays r mine).symm.imp id fun kept => ⟨kept, prog', ?_⟩
        exact Function.update_self p _ k.call
  | panics e =>
      simp only [next, Option.some.injEq] at taken
      subst taken
      exact ⟨owner, h.panics (not_strict fine next), .agree (.refl owner) rfl⟩

theorem Inv.advance {k k' : Kernel P} (h : Inv l strict k owner) {p : P}
    (taken : k.advance p = some k') :
    ∃ owner', Inv l strict k' owner' ∧ Stays l k k' owner owner' := by
  cases found : k.call p with
  | none =>
      simp only [Kernel.advance, found] at taken
      cases taken
  | some call =>
      cases call with
      | image prog => exact h.advanceImage found taken
      | fork c prog => exact h.advanceFork found taken
      | wait c prog => exact h.advanceWait found taken

/-- A process that calls the kernel has nothing in its hands. -/
theorem Stays.begins {k k' : Kernel P} {p : P} {call : Option (Call P)} (idle : k.call p = none)
    (calls : k'.call = Function.update k.call p call)
    (others : ∀ o, Apart p o → held l owner' o = held l owner o) :
    Stays l k k' owner owner' := by
  refine .other calls others ?_
  intro c prog impossible
  rw [idle] at impossible
  cases impossible

theorem startImage_call {k k' : Kernel P} {p : P} {prog : Image → Vm (Image × Bool)}
    (taken : k.startImage p prog = some k') : ∃ call, k'.call = Function.update k.call p call := by
  unfold Kernel.startImage at taken
  split at taken
  · cases taken
  · cases taken
    exact ⟨_, rfl⟩

theorem startFork_call {k k' : Kernel P} {p c : P} (taken : k.startFork l p c = some k') :
    ∃ call, k'.call = Function.update k.call p call := by
  unfold Kernel.startFork at taken
  split at taken
  · cases taken
  · split at taken
    · cases taken
      exact ⟨_, rfl⟩
    · cases taken

theorem startWait_call {k k' : Kernel P} {p c : P} (taken : k.startWait l p c = some k') :
    ∃ call, k'.call = Function.update k.call p call := by
  unfold Kernel.startWait at taken
  split at taken
  · split at taken
    · cases taken
      exact ⟨_, rfl⟩
    · cases taken
  · cases taken

theorem exit_call {init p : P} {k k' : Kernel P} (h : Supply l k owner)
    (taken : k.exit init p = some k') : k'.call = k.call := by
  obtain ⟨mid, closed, _, _, _, call, _⟩ := exit_proc taken
  exact call.trans (h.closeAll closed).2.2.1

/-- No process gives back as many bytes as it has. -/
def Event.Spares (k : Kernel P) : Event P → Prop
  | .sbrk p n => ∀ im ∈ (k.proc p).image, ¬ im.Emptied n
  | _ => True

instance (k : Kernel P) : (e : Event P) → Decidable (e.Spares k)
  | .sbrk p n => inferInstanceAs (Decidable (∀ im ∈ (k.proc p).image, ¬ im.Emptied n))
  | .exec _ _ | .fork _ _ | .wait _ _ | .advance _ | .pipe _ | .close _ _ | .exit _ =>
      inferInstanceAs (Decidable True)

theorem Inv.act {init : P} {k k' : Kernel P} (h : Inv l strict k owner) {e : Event P}
    (guard : strict → e.Spares k) (taken : act l init k e = some k') :
    ∃ owner', Inv l strict k' owner' ∧ Stays l k k' owner owner' := by
  cases e with
  | sbrk p n =>
      obtain ⟨ready, taken⟩ := Option.ite_none_right_eq_some.mp taken
      obtain ⟨_, calls⟩ := startImage_call taken
      refine ⟨_, h.startImage ready ?_ taken, .begins ready.idle calls ?_⟩
      · intro im found hands owns sound
        exact growproc_wp owns sound fun known => guard known im found
      · intro o apart
        rw [held_hand owner (by simp), if_neg apart.image, if_neg apart.call]
  | exec p path =>
      obtain ⟨ready, taken⟩ := Option.ite_none_right_eq_some.mp taken
      obtain ⟨_, calls⟩ := startImage_call taken
      refine ⟨_, h.startImage ready ?_ taken, .begins ready.idle calls ?_⟩
      · intro im found hands owns sound
        refine wp_mono (exec_wp owns path) ?_
        rintro s r (⟨rfl, rfl⟩ | ⟨im', rfl, owns, sound⟩)
        · exact ⟨owns, sound⟩
        · exact ⟨owns, sound⟩
      · intro o apart
        rw [held_hand owner (by simp), if_neg apart.image, if_neg apart.call]
  | fork p c =>
      obtain ⟨ready, taken⟩ := Option.ite_none_right_eq_some.mp taken
      obtain ⟨_, calls⟩ := startFork_call taken
      exact ⟨owner, h.startFork ready taken, .begins ready.idle calls fun _ _ => rfl⟩
  | wait p c =>
      obtain ⟨ready, taken⟩ := Option.ite_none_right_eq_some.mp taken
      obtain ⟨_, calls⟩ := startWait_call taken
      refine ⟨_, h.startWait ready taken, .begins ready.idle calls ?_⟩
      intro o apart
      rw [held_hand _ (by simp), if_neg apart.kstack, if_neg apart.call,
        held_hand owner (by simp), if_neg apart.image, if_neg apart.call]
  | advance p => exact h.advance taken
  | pipe p =>
      obtain ⟨ready, taken⟩ := Option.ite_none_right_eq_some.mp taken
      have keeps := Keeps.sys_pipe h.supply taken
      obtain ⟨owner', inv, agree⟩ := h.files keeps
      exact ⟨owner', inv, .agree agree keeps.2.call⟩
  | close p fd =>
      obtain ⟨ready, taken⟩ := Option.ite_none_right_eq_some.mp taken
      have keeps := Keeps.sys_close h.supply taken
      obtain ⟨owner', inv, agree⟩ := h.files keeps
      exact ⟨owner', inv, .agree agree keeps.2.call⟩
  | exit p =>
      obtain ⟨ready, taken⟩ := Option.ite_none_right_eq_some.mp taken
      obtain ⟨owner', inv, agree⟩ := h.exit ready.1 taken
      exact ⟨owner', inv, .agree agree (exit_call h.supply taken)⟩

theorem Inv.step {init : P} {k k' : Kernel P} (h : Inv l strict k owner) {e : Event P}
    (guard : strict → e.Spares k) (taken : step l init k e = some k') :
    ∃ owner', Inv l strict k' owner' ∧ Stays l k k' owner owner' := by
  unfold Public3.step at taken
  split at taken
  · cases taken
  · exact h.act guard taken

end Xv6.Public3
