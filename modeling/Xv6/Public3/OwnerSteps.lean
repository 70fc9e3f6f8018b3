import Xv6.Public3.PageOwners

/-!
# Every step keeps the owners

The invariant of the kernel: every owner has exactly its pages, each call that is
under way meets its rule with the pages in its hands, and a slot of the process
table that a call has reserved stays as it was.
-/

set_option autoImplicit false

namespace Xv6.Public3

open Xv6.Lib.Words
open Xv6.Lib.Allocation
open Xv6.Common

variable {P : Type} {l : Layout} {strict : Prop} {owner owner' : Page → Owner P}

/-- What a call that is under way will leave, with the pages in its hands. -/
def Call.Fine (l : Layout) (strict : Prop) (hands : Set Page) : Call P → Prop
  | .image prog =>
      Does l strict prog hands fun s im => Owns l im.pgdir ∅ s ∧ im.Sound strict
  | .fork _ prog =>
      Does l strict prog hands fun s r =>
        (r = none ∧ s = ∅) ∨
          ∃ kstack im, r = some (kstack, im) ∧ Owns l im.pgdir (insert kstack ∅) s ∧
            im.Sound strict
  | .wait _ prog => Does l strict prog hands fun s _ => s = ∅

/-- The pages of processes. -/
structure Memory (l : Layout) (strict : Prop) (k : Kernel P) (owner : Page → Owner P) : Prop where
  kstack : ∀ p r, (k.proc p).kstack = some r ↔ r ∈ held l owner (.kstack p)
  image : ∀ p im, (k.proc p).image = some im →
    Owns l im.pgdir ∅ (held l owner (.image p)) ∧ im.Sound strict
  no_image : ∀ p, (k.proc p).image = none → held l owner (.image p) = ∅
  call : ∀ p call, k.call p = some call → call.Fine l strict (held l owner (.call p))
  no_call : ∀ p, k.call p = none → held l owner (.call p) = ∅

/-- The slots that the calls have reserved. -/
structure Slots (k : Kernel P) : Prop where
  busy : ∀ p call, k.call p = some call → (k.proc p).state = .LIVE
  unused : ∀ p, (k.proc p).state = .UNUSED ∨ (k.proc p).state = .EMBRYO →
    (k.proc p).kstack = none ∧ (k.proc p).image = none
  forking : ∀ p c prog, k.call p = some (.fork c prog) → (k.proc c).state = .EMBRYO
  one_parent : ∀ p q c prog prog', k.call p = some (.fork c prog) →
    k.call q = some (.fork c prog') → p = q
  waiting : ∀ p c prog, k.call p = some (.wait c prog) →
    (k.proc c).state = .ZOMBIE ∧ (k.proc c).parent = some p ∧
      (k.proc c).kstack = none ∧ (k.proc c).image = none
  taken : ∀ p prog, k.call p = some (.image prog) → (k.proc p).image = none
  image : ∀ p, (k.proc p).state = .LIVE → (∀ prog, k.call p ≠ some (.image prog)) →
    (k.proc p).image.isSome = true

structure Inv (l : Layout) (strict : Prop) (k : Kernel P) (owner : Page → Owner P) : Prop where
  supply : Supply l k owner
  memory : Memory l strict k owner
  slots : Slots k
  calm : strict → k.panicked = none

/-! ## Steps of the files -/

/-- No process has gained or lost a page. -/
structure SameMemory (k k' : Kernel P) : Prop where
  kstack : ∀ p, (k'.proc p).kstack = (k.proc p).kstack
  image : ∀ p, (k'.proc p).image = (k.proc p).image
  call : k'.call = k.call

theorem Memory.of_same {k k' : Kernel P} (h : Memory l strict k owner) (same : SameMemory k k')
    (agree : Agree owner owner') : Memory l strict k' owner' := by
  have kstack : ∀ p, held l owner' (.kstack p) = held l owner (.kstack p) :=
    fun p => agree.held (by simp) (by simp)
  have image : ∀ p, held l owner' (.image p) = held l owner (.image p) :=
    fun p => agree.held (by simp) (by simp)
  have call : ∀ p, held l owner' (.call p) = held l owner (.call p) :=
    fun p => agree.held (by simp) (by simp)
  constructor
  case kstack =>
    intro p r
    rw [same.kstack, kstack]
    exact h.kstack p r
  case image =>
    intro p im found
    rw [same.image] at found
    rw [image]
    exact h.image p im found
  case no_image =>
    intro p absent
    rw [same.image] at absent
    rw [image]
    exact h.no_image p absent
  case call =>
    intro p c found
    rw [same.call] at found
    rw [call]
    exact h.call p c found
  case no_call =>
    intro p absent
    rw [same.call] at absent
    rw [call]
    exact h.no_call p absent

/-- Only open files, and what they stand for, have changed. -/
structure FilesOnly (k k' : Kernel P) : Prop extends SameMemory k k' where
  state : ∀ p, (k'.proc p).state = (k.proc p).state
  parent : ∀ p, (k'.proc p).parent = (k.proc p).parent
  panicked : k'.panicked = k.panicked

theorem FilesOnly.of_proc {k k' : Kernel P} (proc : k'.proc = k.proc) (call : k'.call = k.call)
    (panicked : k'.panicked = k.panicked) : FilesOnly k k' := by
  constructor
  case toSameMemory =>
    exact ⟨fun p => by rw [proc], fun p => by rw [proc], call⟩
  case state => exact fun p => by rw [proc]
  case parent => exact fun p => by rw [proc]
  case panicked => exact panicked

theorem FilesOnly.trans {k k' k'' : Kernel P} (first : FilesOnly k k') (second : FilesOnly k' k'') :
    FilesOnly k k'' := by
  constructor
  case toSameMemory =>
    constructor
    case kstack => exact fun p => (second.kstack p).trans (first.kstack p)
    case image => exact fun p => (second.image p).trans (first.image p)
    case call => exact second.call.trans first.call
  case state => exact fun p => (second.state p).trans (first.state p)
  case parent => exact fun p => (second.parent p).trans (first.parent p)
  case panicked => exact second.panicked.trans first.panicked

theorem Slots.files {k k' : Kernel P} (h : Slots k) (same : FilesOnly k k') : Slots k' := by
  constructor
  case busy =>
    intro p c found
    rw [same.call] at found
    exact (same.state p).trans (h.busy p c found)
  case unused =>
    intro p idle
    rw [same.state] at idle
    rw [same.kstack, same.image]
    exact h.unused p idle
  case forking =>
    intro p c prog found
    rw [same.call] at found
    exact (same.state c).trans (h.forking p c prog found)
  case one_parent =>
    intro p q c prog prog' first second
    rw [same.call] at first second
    exact h.one_parent p q c prog prog' first second
  case waiting =>
    intro p c prog found
    rw [same.call] at found
    rw [same.state, same.parent, same.kstack, same.image]
    exact h.waiting p c prog found
  case taken =>
    intro p prog found
    rw [same.call] at found
    exact (same.image p).trans (h.taken p prog found)
  case image =>
    intro p live other
    rw [same.state] at live
    rw [same.call] at other
    rw [same.image]
    exact h.image p live other

theorem set_self (file : FileTable) (f : FileSlot) (value : File) : file.set f value f = value := by
  unfold FileTable.set
  exact Function.update_self f value file

theorem set_of_ne {file : FileTable} {f g : FileSlot} {value : File} (elsewhere : g ≠ f) :
    file.set f value g = file g := by
  unfold FileTable.set
  exact Function.update_of_ne elsewhere value file

/-- What filealloc() has stored into two entries is stored over. -/
theorem set_twice {file : FileTable} {f0 f1 : FileSlot} (apart : f1 ≠ f0) {a b c d : File} :
    (((file.set f0 a).set f1 b).set f0 c).set f1 d = (file.set f0 c).set f1 d := by
  funext g
  by_cases here1 : g = f1
  · subst here1
    rw [set_self, set_self]
  · rw [set_of_ne here1, set_of_ne here1]
    by_cases here0 : g = f0
    · subst here0
      rw [set_self, set_self]
    · rw [set_of_ne here0, set_of_ne here1, set_of_ne here0, set_of_ne here0]

/-- A step that leaves the processes their pages. -/
def Keeps (l : Layout) (owner : Page → Owner P) (k k' : Kernel P) : Prop :=
  (∃ owner', Supply l k' owner' ∧ Agree owner owner') ∧ FilesOnly k k'

theorem Keeps.fileclose {k k' : Kernel P} (h : Supply l k owner) {f : FileSlot}
    (closed : k.fileclose f = some k') : Keeps l owner k k' := by
  obtain ⟨proc, call, panicked⟩ := fileclose_same closed
  exact ⟨h.fileclose closed, .of_proc proc call panicked⟩

theorem Keeps.both {k k' : Kernel P} (h : Supply l k owner) {f0 f1 : FileSlot}
    (closed : ((k.fileclose f0).bind fun k => k.fileclose f1) = some k') : Keeps l owner k k' := by
  obtain ⟨mid, first, second⟩ := Option.bind_eq_some_iff.mp closed
  obtain ⟨⟨owner', h', agree⟩, files⟩ := Keeps.fileclose h first
  obtain ⟨⟨last, h'', agree'⟩, files'⟩ := Keeps.fileclose h' second
  exact ⟨⟨last, h'', agree.trans agree'⟩, files.trans files'⟩

theorem Keeps.pipealloc {k k' : Kernel P} (h : Supply l k owner)
    {files : Option (FileSlot × FileSlot)} (taken : k.pipealloc = (k', files)) :
    Keeps l owner k k' := by
  have stays : Keeps l owner k k := ⟨⟨owner, h, .refl owner⟩, .of_proc rfl rfl rfl⟩
  unfold Kernel.pipealloc at taken
  split at taken
  · cases taken
    exact stays
  · rename_i f0 file0 first
    split at taken
    · cases taken
      exact stays
    · rename_i f1 file1 second
      split at taken
      · cases taken
        exact stays
      · rename_i page rest free
        cases taken
        obtain ⟨unused0, rfl⟩ := filealloc_some first
        obtain ⟨unused1, rfl⟩ := filealloc_some second
        have apart : f1 ≠ f0 := by
          rintro rfl
          rw [set_self] at unused1
          exact absurd unused1 (by simp)
        rw [set_of_ne apart] at unused1
        rw [set_twice apart]
        have mine := ((h.free page).mp (free ▸ List.mem_cons_self)).2
        refine ⟨⟨_, h.pipealloc free apart unused0 unused1 ?_ ?_, ?_⟩, .of_proc rfl rfl rfl⟩
        · refine ⟨?_, rfl, rfl, rfl⟩
          dsimp only
          rw [set_of_ne apart.symm, set_self]
          exact Int.one_pos
        · refine ⟨?_, rfl, rfl, rfl⟩
          dsimp only
          rw [set_self]
          exact Int.one_pos
        · exact .update (Or.inl mine) (Or.inr rfl)

theorem Inv.files {k k' : Kernel P} (h : Inv l strict k owner) (keeps : Keeps l owner k k') :
    ∃ owner', Inv l strict k' owner' ∧ Agree owner owner' := by
  obtain ⟨⟨owner', supply, agree⟩, files⟩ := keeps
  exact ⟨owner', ⟨supply, h.memory.of_same files.toSameMemory agree, h.slots.files files,
    fun known => files.panicked.trans (h.calm known)⟩, agree⟩


variable [DecidableEq P]

theorem setProc_proc (k : Kernel P) (p q : P) (value : Proc P) :
    (k.setProc p value).proc q = if q = p then value else k.proc q :=
  Function.update_apply k.proc p value q

theorem setCall_call (k : Kernel P) (p q : P) (call : Option (Call P)) :
    (k.setCall p call).call q = if q = p then call else k.call q :=
  Function.update_apply k.call p call q

theorem FilesOnly.ofile (k : Kernel P) (p : P) (ofile : Descriptors) :
    FilesOnly k (k.setProc p { k.proc p with ofile := ofile }) := by
  have each : ∀ q, ((k.setProc p { k.proc p with ofile := ofile }).proc q).state =
        (k.proc q).state ∧
      ((k.setProc p { k.proc p with ofile := ofile }).proc q).kstack = (k.proc q).kstack ∧
      ((k.setProc p { k.proc p with ofile := ofile }).proc q).image = (k.proc q).image ∧
      ((k.setProc p { k.proc p with ofile := ofile }).proc q).parent = (k.proc q).parent := by
    intro q
    rw [setProc_proc]
    split
    · rename_i here
      subst here
      exact ⟨rfl, rfl, rfl, rfl⟩
    · exact ⟨rfl, rfl, rfl, rfl⟩
  constructor
  case toSameMemory => exact ⟨fun q => (each q).2.1, fun q => (each q).2.2.1, rfl⟩
  case state => exact fun q => (each q).1
  case parent => exact fun q => (each q).2.2.2
  case panicked => rfl

theorem Keeps.sys_pipe {k k' : Kernel P} (h : Supply l k owner) {p : P}
    (taken : k.sys_pipe p = some k') : Keeps l owner k k' := by
  unfold Kernel.sys_pipe at taken
  split at taken
  · rename_i mid made
    cases taken
    exact .pipealloc h made
  · rename_i mid f0 f1 made
    obtain ⟨⟨owner', h', agree⟩, files⟩ := Keeps.pipealloc h made
    have rest : Keeps l owner' mid k' := by
      split at taken
      · exact .both h' taken
      · split at taken
        · exact .both h' taken
        · cases taken
          exact ⟨⟨owner', h'.of_same rfl rfl rfl, .refl owner'⟩, .ofile mid p _⟩
    obtain ⟨⟨last, h'', agree'⟩, files'⟩ := rest
    exact ⟨⟨last, h'', agree.trans agree'⟩, files.trans files'⟩

theorem Keeps.sys_close {k k' : Kernel P} (h : Supply l k owner) {p : P} {fd : Fin NOFILE}
    (taken : k.sys_close p fd = some k') : Keeps l owner k k' := by
  unfold Kernel.sys_close at taken
  split at taken
  · cases taken
    exact ⟨⟨owner, h, .refl owner⟩, .of_proc rfl rfl rfl⟩
  · rename_i f _
    have files := FilesOnly.ofile k p (Function.update (k.proc p).ofile fd none)
    have supply : Supply l (k.setProc p { k.proc p with
        ofile := Function.update (k.proc p).ofile fd none }) owner := h.of_same rfl rfl rfl
    obtain ⟨owners, files'⟩ := Keeps.fileclose supply taken
    exact ⟨owners, files.trans files'⟩

/-! ## exit() -/

theorem abandon_same (init p : P) (q : Proc P) :
    (Kernel.abandon init p q).state = q.state ∧ (Kernel.abandon init p q).kstack = q.kstack ∧
      (Kernel.abandon init p q).image = q.image := by
  unfold Kernel.abandon
  split
  · exact ⟨rfl, rfl, rfl⟩
  · exact ⟨rfl, rfl, rfl⟩

/-- The process table after exit(). -/
theorem exit_proc {init p : P} {k k' : Kernel P} (taken : k.exit init p = some k') :
    ∃ mid, k.closeAll (k.proc p).ofile = some mid ∧ k'.freelist = mid.freelist ∧
      k'.file = mid.file ∧ k'.pipe = mid.pipe ∧ k'.call = mid.call ∧
      k'.panicked = mid.panicked ∧ ∀ q, k'.proc q = Kernel.abandon init p
        (if q = p then { mid.proc p with state := .ZOMBIE, ofile := fun _ => none }
          else mid.proc q) := by
  obtain ⟨mid, closed, same⟩ := Option.map_eq_some_iff.mp taken
  subst same
  refine ⟨mid, closed, rfl, rfl, rfl, rfl, rfl, ?_⟩
  intro q
  exact congrArg (Kernel.abandon init p) (setProc_proc mid p q _)

theorem Inv.exit {init p : P} {k k' : Kernel P} (h : Inv l strict k owner)
    (ready : k.ready p) (taken : k.exit init p = some k') :
    ∃ owner', Inv l strict k' owner' ∧ Agree owner owner' := by
  obtain ⟨mid, closed, freelist, file, pipe, call, panicked, proc⟩ := exit_proc taken
  obtain ⟨⟨owner', supply, agree⟩, same, calls, still⟩ := h.supply.closeAll closed
  have idle : k.call p = none := Option.isNone_iff_eq_none.mp ready.2
  have calls : k'.call = k.call := call.trans calls
  have away : ∀ q, q ≠ p → k'.proc q = Kernel.abandon init p (k.proc q) := by
    intro q elsewhere
    rw [proc q, if_neg elsewhere, same]
  have memory : SameMemory k k' := by
    constructor
    case kstack =>
      intro q
      rw [proc q, (abandon_same init p _).2.1]
      split
      · rename_i here
        rw [here, same]
      · rw [same]
    case image =>
      intro q
      rw [proc q, (abandon_same init p _).2.2]
      split
      · rename_i here
        rw [here, same]
      · rw [same]
    case call => exact calls
  have zombie : (k'.proc p).state = .ZOMBIE := by
    rw [proc p, (abandon_same init p _).1, if_pos rfl]
  have state : ∀ q, q ≠ p → (k'.proc q).state = (k.proc q).state := by
    intro q elsewhere
    rw [away q elsewhere, (abandon_same init p _).1]
  have calm : strict → k'.panicked = none :=
    fun known => (panicked.trans still).trans (h.calm known)
  refine ⟨owner', ⟨supply.of_same freelist file pipe, h.memory.of_same memory agree, ?_, calm⟩,
    agree⟩
  constructor
  case busy =>
    intro q c found
    rw [calls] at found
    have elsewhere : q ≠ p := by
      rintro rfl
      rw [idle] at found
      cases found
    rw [state q elsewhere]
    exact h.slots.busy q c found
  case unused =>
    intro q unused
    have elsewhere : q ≠ p := by
      rintro rfl
      rw [zombie] at unused
      simp at unused
    rw [state q elsewhere] at unused
    rw [memory.kstack, memory.image]
    exact h.slots.unused q unused
  case forking =>
    intro q c prog found
    rw [calls] at found
    have embryo := h.slots.forking q c prog found
    have elsewhere : c ≠ p := by
      rintro rfl
      rw [ready.1] at embryo
      cases embryo
    rw [state c elsewhere]
    exact embryo
  case one_parent =>
    intro q q' c prog prog' first second
    rw [calls] at first second
    exact h.slots.one_parent q q' c prog prog' first second
  case waiting =>
    intro q c prog found
    rw [calls] at found
    obtain ⟨dead, parent, stack, image⟩ := h.slots.waiting q c prog found
    have elsewhere : c ≠ p := by
      rintro rfl
      rw [ready.1] at dead
      cases dead
    have waiter : q ≠ p := by
      rintro rfl
      rw [idle] at found
      cases found
    refine ⟨(state c elsewhere).trans dead, ?_, ?_, ?_⟩
    · rw [away c elsewhere, Kernel.abandon, if_neg]
      · exact parent
      · rw [parent]
        exact fun same => waiter (Option.some.inj same)
    · rw [memory.kstack]
      exact stack
    · rw [memory.image]
      exact image
  case taken =>
    intro q prog found
    rw [calls] at found
    rw [memory.image]
    exact h.slots.taken q prog found
  case image =>
    intro q live other
    have elsewhere : q ≠ p := by
      rintro rfl
      rw [zombie] at live
      cases live
    rw [state q elsewhere] at live
    rw [calls] at other
    rw [memory.image]
    exact h.slots.image q live other

/-! ## Pages that change hands -/

/-- All pages of one owner are another's. -/
def hand (owner : Page → Owner P) (a b : Owner P) : Page → Owner P :=
  fun r => if owner r = a then b else owner r

theorem held_hand (owner : Page → Owner P) {a b : Owner P} (apart : a ≠ b) (o : Owner P) :
    held l (hand owner a b) o =
      if o = a then ∅ else if o = b then held l owner b ∪ held l owner a else held l owner o := by
  ext r
  simp only [held, hand, Set.mem_ofPred_eq]
  by_cases here : o = a
  · subst here
    simp only [if_true, Set.mem_empty_iff_false, iff_false, not_and]
    intro _
    split
    · exact fun same => apart same.symm
    · rename_i other
      exact other
  · rw [if_neg here]
    by_cases there : o = b
    · subst there
      by_cases given : owner r = a
      · simp [given, apart]
      · simp [given]
    · rw [if_neg there]
      by_cases given : owner r = a
      · simp [given, Ne.symm there, Ne.symm here]
      · simp [given]

theorem Supply.hand {k : Kernel P} (h : Supply l k owner) {a b : Owner P} (apart : a ≠ b)
    (a_free : a ≠ .freelist) (a_pipe : a ≠ .pipe) (b_free : b ≠ .freelist) (b_pipe : b ≠ .pipe) :
    Supply l k (hand owner a b) := by
  apply h.owners
  · rw [held_hand owner apart, if_neg a_free.symm, if_neg b_free.symm]
  · rw [held_hand owner apart, if_neg a_pipe.symm, if_neg b_pipe.symm]

/-! ## One slot and one call -/

/-- What a slot must look like for the calls that have reserved it. -/
structure Reserved (k : Kernel P) (p x : P) (value : Proc P) : Prop where
  unused : value.state = .UNUSED ∨ value.state = .EMBRYO → value.kstack = none ∧ value.image = none
  idle : x ≠ p → k.call x = none
  forking : ∀ q prog, q ≠ p → k.call q = some (.fork x prog) → value.state = .EMBRYO
  waiting : ∀ q prog, q ≠ p → k.call q = some (.wait x prog) →
    value.state = .ZOMBIE ∧ value.parent = some q ∧ value.kstack = none ∧ value.image = none

/-- What the slots must look like for a call that begins or goes on. -/
def Reserves (k : Kernel P) (p : P) (proc : P → Proc P) : Option (Call P) → Prop
  | some (.fork c _) =>
      (proc c).state = .EMBRYO ∧ ∀ q prog, q ≠ p → k.call q ≠ some (.fork c prog)
  | some (.wait c _) =>
      (proc c).state = .ZOMBIE ∧ (proc c).parent = some p ∧
        (proc c).kstack = none ∧ (proc c).image = none
  | some (.image _) => (proc p).image = none
  | none => True

/-- A step stores one slot of the process table and the call of one process. -/
structure Moves (k k' : Kernel P) (p x : P) (value : Proc P) (call : Option (Call P)) : Prop where
  proc : k'.proc = Function.update k.proc x value
  call : k'.call = Function.update k.call p call

section Moves
variable {k k' : Kernel P} {p x : P} {value : Proc P} {call : Option (Call P)}

theorem Moves.proc_apply (moves : Moves k k' p x value call) (q : P) :
    k'.proc q = if q = x then value else k.proc q := by
  rw [moves.proc]
  exact Function.update_apply k.proc x value q

theorem Moves.call_apply (moves : Moves k k' p x value call) (q : P) :
    k'.call q = if q = p then call else k.call q := by
  rw [moves.call]
  exact Function.update_apply k.call p call q

theorem Slots.move (h : Slots k) (moves : Moves k k' p x value call) (slot : Reserved k p x value)
    (reserves : Reserves k p k'.proc call) (live : (k'.proc p).state = .LIVE)
    (image_x : value.state = .LIVE → (x = p → ∀ prog, call ≠ some (.image prog)) →
      value.image.isSome = true)
    (image_p : p ≠ x → (∀ prog, call ≠ some (.image prog)) → (k.proc p).image.isSome = true) :
    Slots k' := by
  have here := (moves.proc_apply x).trans (if_pos rfl)
  have away : ∀ {q}, q ≠ x → k'.proc q = k.proc q :=
    fun elsewhere => (moves.proc_apply _).trans (if_neg elsewhere)
  constructor
  case busy =>
    intro q c found
    rw [moves.call_apply] at found
    split at found
    · rename_i same
      rw [same]
      exact live
    · rename_i other
      by_cases at_x : q = x
      · subst at_x
        rw [slot.idle other] at found
        cases found
      · rw [away at_x]
        exact h.busy q c found
  case unused =>
    intro q
    by_cases at_x : q = x
    · subst at_x
      rw [here]
      exact slot.unused
    · rw [away at_x]
      exact h.unused q
  case forking =>
    intro q c prog found
    rw [moves.call_apply] at found
    split at found
    · rw [found] at reserves
      exact reserves.1
    · rename_i other
      by_cases at_x : c = x
      · subst at_x
        rw [here]
        exact slot.forking q prog other found
      · rw [away at_x]
        exact h.forking q c prog found
  case one_parent =>
    intro q q' c prog prog' first second
    rw [moves.call_apply] at first second
    split at first
    · rename_i same
      split at second
      · rename_i same'
        exact same.trans same'.symm
      · rename_i other
        rw [first] at reserves
        exact absurd second (reserves.2 q' prog' other)
    · rename_i other
      split at second
      · rw [second] at reserves
        exact absurd first (reserves.2 q prog other)
      · exact h.one_parent q q' c prog prog' first second
  case waiting =>
    intro q c prog found
    rw [moves.call_apply] at found
    split at found
    · rename_i same
      rw [found] at reserves
      rw [same]
      exact reserves
    · rename_i other
      by_cases at_x : c = x
      · subst at_x
        rw [here]
        exact slot.waiting q prog other found
      · rw [away at_x]
        exact h.waiting q c prog found
  case taken =>
    intro q prog found
    rw [moves.call_apply] at found
    split at found
    · rename_i same
      rw [found] at reserves
      rw [same]
      exact reserves
    · rename_i other
      by_cases at_x : q = x
      · subst at_x
        rw [slot.idle other] at found
        cases found
      · rw [away at_x]
        exact h.taken q prog found
  case image =>
    intro q live other
    rw [moves.call_apply] at other
    by_cases at_x : q = x
    · subst at_x
      rw [here] at live ⊢
      refine image_x live fun same => ?_
      rw [if_pos same] at other
      exact other
    · rw [away at_x] at live ⊢
      by_cases at_p : q = p
      · subst at_p
        rw [if_pos rfl] at other
        exact image_p at_x other
      · rw [if_neg at_p] at other
        exact h.image q live other

/-- The owners that the step is about have their pages, and the others have theirs. -/
theorem Memory.move (h : Memory l strict k owner) (moves : Moves k k' p x value call)
    (kstack : ∀ r, value.kstack = some r ↔ r ∈ held l owner' (.kstack x))
    (image : ∀ im, value.image = some im →
      Owns l im.pgdir ∅ (held l owner' (.image x)) ∧ im.Sound strict)
    (no_image : value.image = none → held l owner' (.image x) = ∅)
    (fine : ∀ c, call = some c → c.Fine l strict (held l owner' (.call p)))
    (no_call : call = none → held l owner' (.call p) = ∅)
    (others : ∀ o, o ≠ .kstack x → o ≠ .image x → o ≠ .call p → o ≠ .freelist → o ≠ .pipe →
      held l owner' o = held l owner o) : Memory l strict k' owner' := by
  have here := (moves.proc_apply x).trans (if_pos rfl)
  have away : ∀ {q}, q ≠ x → k'.proc q = k.proc q :=
    fun elsewhere => (moves.proc_apply _).trans (if_neg elsewhere)
  constructor
  case kstack =>
    intro q r
    by_cases at_x : q = x
    · subst at_x
      rw [here]
      exact kstack r
    · rw [away at_x, others (.kstack q) (by simpa) (by simp) (by simp) (by simp) (by simp)]
      exact h.kstack q r
  case image =>
    intro q im found
    by_cases at_x : q = x
    · subst at_x
      rw [here] at found
      exact image im found
    · rw [away at_x] at found
      rw [others (.image q) (by simp) (by simpa) (by simp) (by simp) (by simp)]
      exact h.image q im found
  case no_image =>
    intro q absent
    by_cases at_x : q = x
    · subst at_x
      rw [here] at absent
      exact no_image absent
    · rw [away at_x] at absent
      rw [others (.image q) (by simp) (by simpa) (by simp) (by simp) (by simp)]
      exact h.no_image q absent
  case call =>
    intro q c found
    rw [moves.call_apply] at found
    split at found
    · rename_i same
      rw [same]
      exact fine c found
    · rename_i other
      rw [others (.call q) (by simp) (by simp) (by simpa) (by simp) (by simp)]
      exact h.call q c found
  case no_call =>
    intro q absent
    rw [moves.call_apply] at absent
    split at absent
    · rename_i same
      rw [same]
      exact no_call absent
    · rename_i other
      rw [others (.call q) (by simp) (by simp) (by simpa) (by simp) (by simp)]
      exact h.no_call q absent

end Moves

end Xv6.Public3
