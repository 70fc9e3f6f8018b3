import Xv6.Public3.AddressSpace
import Xv6.Public3.Processes

/-!
# The owner of every page

Each page of the allocator has one owner.  What the kernel has in its free list,
in `kstack`, in the page directories, in its pipes and in the hands of the calls
that are under way is what the owner says.
-/

set_option autoImplicit false

namespace Xv6.Public3

open Xv6.Lib.Words
open Xv6.Lib.Allocation
open Xv6.Common

variable {P : Type}

inductive Owner (P : Type) where
  | freelist
  | kstack (p : P)
  | image (p : P)
  /-- A call of the process that is under way. -/
  | call (p : P)
  | pipe
  | boot
  deriving DecidableEq

/-- The pages of an owner. -/
def held (l : Layout) (owner : Page → Owner P) (o : Owner P) : Set Page :=
  {r | r ∈ l.pool ∧ owner r = o}

variable {l : Layout} {strict : Prop} {owner owner' : Page → Owner P}

theorem held_pool (o : Owner P) : held l owner o ⊆ l.pool := fun _ member => member.1

theorem held_update_new (owner : Page → Owner P) {r : Page} (member : r ∈ l.pool) (o : Owner P) :
    held l (Function.update owner r o) o = insert r (held l owner o) := by
  ext s
  by_cases here : s = r
  · subst here
    simp [held, member]
  · simp [held, here]

theorem held_update_old (owner : Page → Owner P) (r : Page) {o o' : Owner P} (apart : o' ≠ o) :
    held l (Function.update owner r o') o = held l owner o \ {r} := by
  ext s
  by_cases here : s = r
  · subst here
    simp [held, apart]
  · simp [held, here]

theorem held_update_other {owner : Page → Owner P} {r : Page} {o o' : Owner P} (apart : o' ≠ o)
    (before : owner r ≠ o) : held l (Function.update owner r o') o = held l owner o := by
  rw [held_update_old owner r apart]
  exact Set.sdiff_singleton_eq_self fun member => before member.2

/-- Pages move between the free list and the pipes only. -/
def Agree (owner owner' : Page → Owner P) : Prop :=
  ∀ o, o ≠ .freelist → o ≠ .pipe → ∀ r, owner' r = o ↔ owner r = o

theorem Agree.refl (owner : Page → Owner P) : Agree owner owner := fun _ _ _ _ => Iff.rfl

theorem Agree.trans {last : Page → Owner P} (first : Agree owner owner')
    (second : Agree owner' last) : Agree owner last :=
  fun o free pipe r => (second o free pipe r).trans (first o free pipe r)

theorem Agree.held (agree : Agree owner owner') {o : Owner P} (free : o ≠ .freelist)
    (pipe : o ≠ .pipe) : held l owner' o = held l owner o := by
  ext r
  exact and_congr_right fun _ => agree o free pipe r

/-- A page that is in one of the two goes to the other. -/
theorem Agree.update {r : Page} {o : Owner P} (before : owner r = .freelist ∨ owner r = .pipe)
    (after : o = .freelist ∨ o = .pipe) : Agree owner (Function.update owner r o) := by
  intro other free pipe s
  by_cases here : s = r
  · subst here
    rw [Function.update_self]
    constructor
    · rintro rfl
      exact absurd after (not_or.mpr ⟨free, pipe⟩)
    · intro same
      rw [same] at before
      exact absurd before (not_or.mpr ⟨free, pipe⟩)
  · rw [Function.update_of_ne here]

/-! ## The free list and the pipes -/

/-- `f` is the file of one end of the pipe in a page. -/
def OpenEnd (file : FileTable) (f : FileSlot) (r : Page) (writable : Bool) : Prop :=
  0 < (file f).ref ∧ (file f).type = .FD_PIPE ∧ (file f).pipe = r ∧ (file f).writable = writable

def Ends.isOpen (e : Ends) (writable : Bool) : Bool :=
  if writable = true then e.writeopen else e.readopen

structure Supply (l : Layout) (k : Kernel P) (owner : Page → Owner P) : Prop where
  once : k.freelist.Nodup
  free : ∀ r, r ∈ k.freelist ↔ r ∈ held l owner .freelist
  pipes : ∀ r, r ∈ held l owner .pipe ↔ ∃ f w, OpenEnd k.file f r w
  ends : ∀ f r w, OpenEnd k.file f r w → (k.pipe r).isOpen w = true
  still : ∀ r ∈ held l owner .pipe, ∀ w, (k.pipe r).isOpen w = true → ∃ f, OpenEnd k.file f r w
  one : ∀ f g r w, OpenEnd k.file f r w → OpenEnd k.file g r w → f = g
  unused : ∀ f, (k.file f).ref ≤ 0 → (k.file f).type = .FD_NONE

/-- Another kernel with the same files and pages. -/
theorem Supply.of_same {k k' : Kernel P} (h : Supply l k owner) (freelist : k'.freelist = k.freelist)
    (file : k'.file = k.file) (pipe : k'.pipe = k.pipe) : Supply l k' owner := by
  constructor
  case once => exact freelist ▸ h.once
  case free => exact freelist ▸ h.free
  case pipes => exact file ▸ h.pipes
  case ends => exact file ▸ pipe ▸ h.ends
  case still => exact file ▸ pipe ▸ h.still
  case one => exact file ▸ h.one
  case unused => exact file ▸ h.unused

/-- A change of the files after which the same ends are open. -/
theorem Supply.files {k : Kernel P} (h : Supply l k owner) {file : FileTable}
    (same : ∀ f r w, OpenEnd file f r w ↔ OpenEnd k.file f r w)
    (unused : ∀ f, (file f).ref ≤ 0 → (file f).type = .FD_NONE) :
    Supply l { k with file := file } owner := by
  constructor
  case once => exact h.once
  case free => exact h.free
  case pipes =>
    intro r
    simp only [same]
    exact h.pipes r
  case ends => exact fun f r w opened => h.ends f r w ((same f r w).mp opened)
  case still =>
    intro r member w isOpen
    obtain ⟨f, opened⟩ := h.still r member w isOpen
    exact ⟨f, (same f r w).mpr opened⟩
  case one =>
    intro f g r w first second
    exact h.one f g r w ((same f r w).mp first) ((same g r w).mp second)
  case unused => exact unused

/-- Pages move between owners that are no pipe and not the free list. -/
theorem Supply.owners {k : Kernel P} (h : Supply l k owner)
    (free : held l owner' .freelist = held l owner .freelist)
    (pipe : held l owner' .pipe = held l owner .pipe) : Supply l k owner' := by
  constructor
  case once => exact h.once
  case free => exact free ▸ h.free
  case pipes => exact pipe ▸ h.pipes
  case ends => exact h.ends
  case still => exact pipe ▸ h.still
  case one => exact h.one
  case unused => exact h.unused

/-- A page of the free list is taken by somebody who is no pipe. -/
theorem Supply.take {k : Kernel P} (h : Supply l k owner) {r : Page} {rest : List Page}
    (first : k.freelist = r :: rest) {o : Owner P} (free : o ≠ .freelist) (pipe : o ≠ .pipe) :
    Supply l { k with freelist := rest } (Function.update owner r o) := by
  have once := h.once
  rw [first] at once
  obtain ⟨away, once⟩ := List.nodup_cons.mp once
  have mine : owner r = .freelist := ((h.free r).mp (first ▸ List.mem_cons_self)).2
  have pipes : ∀ s, s ∈ held l (Function.update owner r o) .pipe ↔ s ∈ held l owner .pipe := by
    intro s
    by_cases here : s = r
    · subst here
      simp [held, mine, pipe]
    · simp [held, Function.update_of_ne here]
  constructor
  case once => exact once
  case free =>
    intro s
    have before := h.free s
    rw [first, List.mem_cons] at before
    by_cases here : s = r
    · subst here
      simp [held, free, away]
    · simp only [held, Set.mem_ofPred_eq, Function.update_of_ne here]
      exact (or_iff_right here).symm.trans before
  case pipes => exact fun s => (pipes s).trans (h.pipes s)
  case ends => exact h.ends
  case still => exact fun s member => h.still s ((pipes s).mp member)
  case one => exact h.one
  case unused => exact h.unused

/-- A page of somebody who is no pipe is freed. -/
theorem Supply.give {k : Kernel P} (h : Supply l k owner) {r : Page} {o : Owner P}
    (mine : r ∈ held l owner o) (free : o ≠ .freelist) (pipe : o ≠ .pipe) :
    Supply l { k with freelist := r :: k.freelist } (Function.update owner r .freelist) := by
  have away : r ∉ k.freelist := fun member => free (mine.2.symm.trans ((h.free r).mp member).2)
  have pipes : ∀ s, s ∈ held l (Function.update owner r .freelist) .pipe ↔
      s ∈ held l owner .pipe := by
    intro s
    by_cases here : s = r
    · subst here
      simp [held, mine.2, pipe]
    · simp [held, Function.update_of_ne here]
  constructor
  case once => exact List.nodup_cons.mpr ⟨away, h.once⟩
  case free =>
    intro s
    rw [List.mem_cons]
    by_cases here : s = r
    · subst here
      simp [held, mine.1]
    · simp only [held, Set.mem_ofPred_eq, Function.update_of_ne here]
      exact (or_iff_right here).trans (h.free s)
  case pipes => exact fun s => (pipes s).trans (h.pipes s)
  case ends => exact h.ends
  case still => exact fun s member => h.still s ((pipes s).mp member)
  case one => exact h.one
  case unused => exact h.unused

/-! ## fileclose() -/

theorem drop_some {file next : FileTable} {f : FileSlot} {ff : Option File}
    (dropped : file.drop f = some (next, ff)) :
    (1 < (file f).ref ∧ ff = none ∧ next = file.set f { file f with ref := (file f).ref - 1 }) ∨
      ((file f).ref = 1 ∧ ff = some { file f with ref := (file f).ref - 1 } ∧
        next = file.set f { file f with ref := 0, type := .FD_NONE }) := by
  unfold FileTable.drop at dropped
  dsimp only at dropped
  split at dropped
  · cases dropped
  · rename_i referenced
    split at dropped
    · cases dropped
      exact Or.inl ⟨by omega, rfl, rfl⟩
    · cases dropped
      exact Or.inr ⟨by omega, rfl, rfl⟩

/-- One reference more or less of a file that stays open. -/
theorem OpenEnd.recount {file : FileTable} {f : FileSlot} {ref : Int} (before : 0 < (file f).ref)
    (after : 0 < ref) (g : FileSlot) (r : Page) (w : Bool) :
    OpenEnd (file.set f { file f with ref := ref }) g r w ↔ OpenEnd file g r w := by
  unfold OpenEnd FileTable.set
  by_cases here : g = f
  · subst here
    simp only [Function.update_self, before, after]
  · simp only [Function.update_of_ne here]

theorem OpenEnd.closed {file : FileTable} {f : FileSlot} (g : FileSlot) (r : Page) (w : Bool) :
    OpenEnd (file.set f { file f with ref := 0, type := .FD_NONE }) g r w ↔
      g ≠ f ∧ OpenEnd file g r w := by
  unfold OpenEnd FileTable.set
  by_cases here : g = f
  · subst here
    simp
  · simp [here]

theorem set_unused {file : FileTable} {f : FileSlot} {value : File}
    (unused : ∀ f, (file f).ref ≤ 0 → (file f).type = .FD_NONE)
    (here : value.ref ≤ 0 → value.type = .FD_NONE) (g : FileSlot) :
    (file.set f value g).ref ≤ 0 → (file.set f value g).type = .FD_NONE := by
  unfold FileTable.set
  by_cases same : g = f
  · subst same
    rw [Function.update_self]
    exact here
  · rw [Function.update_of_ne same]
    exact unused g

/-- The ends of a pipe after one has been closed. -/
def Ends.close (e : Ends) (writable : Bool) : Ends :=
  if writable = true then { e with writeopen := false } else { e with readopen := false }

theorem Ends.isOpen_close (e : Ends) (w v : Bool) :
    (e.close w).isOpen v = true ↔ v ≠ w ∧ e.isOpen v = true := by
  cases w <;> cases v <;> simp [Ends.close, Ends.isOpen]

theorem Ends.both_closed (e : Ends) :
    (e.readopen = false ∧ e.writeopen = false) ↔ ∀ w, e.isOpen w = false := by
  simp [Ends.isOpen]

section Pipeclose
variable {k : Kernel P} {r : Page} {w : Bool} {file : FileTable}

/-- The pipe has another open end. -/
theorem Supply.close_one (h : Supply l k owner)
    (closed : ∀ g s v, OpenEnd file g s v ↔ OpenEnd k.file g s v ∧ ¬ (s = r ∧ v = w))
    (unused : ∀ f, (file f).ref ≤ 0 → (file f).type = .FD_NONE)
    {v : Bool} (other : ((k.pipe r).close w).isOpen v = true) :
    Supply l { k with file := file, pipe := Function.update k.pipe r ((k.pipe r).close w) }
      owner := by
  obtain ⟨apart, before⟩ := (Ends.isOpen_close _ w v).mp other
  constructor
  case once => exact h.once
  case free => exact h.free
  case pipes =>
    intro s
    rw [h.pipes s]
    constructor
    · rintro ⟨g, u, opened⟩
      by_cases gone : s = r ∧ u = w
      · obtain ⟨rfl, rfl⟩ := gone
        obtain ⟨f, opened⟩ := h.still s ((h.pipes s).mpr ⟨g, u, opened⟩) v before
        exact ⟨f, v, (closed f s v).mpr ⟨opened, fun both => apart both.2⟩⟩
      · exact ⟨g, u, (closed g s u).mpr ⟨opened, gone⟩⟩
    · rintro ⟨g, u, opened⟩
      exact ⟨g, u, ((closed g s u).mp opened).1⟩
  case ends =>
    intro g s u opened
    obtain ⟨opened, left⟩ := (closed g s u).mp opened
    have isOpen := h.ends g s u opened
    by_cases here : s = r
    · subst here
      simp only [Function.update_self]
      exact (Ends.isOpen_close _ w u).mpr ⟨fun same => left ⟨rfl, same⟩, isOpen⟩
    · simp only [Function.update_of_ne here]
      exact isOpen
  case still =>
    intro s member u isOpen
    by_cases here : s = r
    · subst here
      simp only [Function.update_self] at isOpen
      obtain ⟨apart, before⟩ := (Ends.isOpen_close _ w u).mp isOpen
      obtain ⟨g, opened⟩ := h.still s member u before
      exact ⟨g, (closed g s u).mpr ⟨opened, fun both => apart both.2⟩⟩
    · simp only [Function.update_of_ne here] at isOpen
      obtain ⟨g, opened⟩ := h.still s member u isOpen
      exact ⟨g, (closed g s u).mpr ⟨opened, fun both => here both.1⟩⟩
  case one =>
    intro f g s u first second
    exact h.one f g s u ((closed f s u).mp first).1 ((closed g s u).mp second).1
  case unused => exact unused

/-- The last end of the pipe: its page is freed. -/
theorem Supply.close_last (h : Supply l k owner) (mine : r ∈ held l owner .pipe)
    (closed : ∀ g s v, OpenEnd file g s v ↔ OpenEnd k.file g s v ∧ ¬ (s = r ∧ v = w))
    (unused : ∀ f, (file f).ref ≤ 0 → (file f).type = .FD_NONE)
    (none_open : ∀ v, ((k.pipe r).close w).isOpen v = false) :
    Supply l { k with
        file := file
        pipe := Function.update k.pipe r ((k.pipe r).close w)
        freelist := r :: k.freelist } (Function.update owner r .freelist) := by
  have away : r ∉ k.freelist := fun member =>
    absurd (mine.2.symm.trans ((h.free r).mp member).2) (by simp)
  have elsewhere : ∀ g s v, OpenEnd file g s v → s ≠ r := by
    rintro g s v opened rfl
    obtain ⟨opened, left⟩ := (closed g s v).mp opened
    have isOpen := (Ends.isOpen_close _ w v).mpr ⟨fun same => left ⟨rfl, same⟩, h.ends g s v opened⟩
    rw [none_open v] at isOpen
    cases isOpen
  constructor
  case once => exact List.nodup_cons.mpr ⟨away, h.once⟩
  case free =>
    intro s
    rw [List.mem_cons]
    by_cases here : s = r
    · subst here
      simp [held, mine.1]
    · simp only [held, Set.mem_ofPred_eq, Function.update_of_ne here]
      exact (or_iff_right here).trans (h.free s)
  case pipes =>
    intro s
    by_cases here : s = r
    · subst here
      constructor
      · intro member
        have owned := member.2
        rw [Function.update_self] at owned
        cases owned
      · rintro ⟨g, v, opened⟩
        exact absurd rfl (elsewhere g s v opened)
    · have same : s ∈ held l (Function.update owner r .freelist) .pipe ↔ s ∈ held l owner .pipe := by
        simp [held, Function.update_of_ne here]
      rw [same, h.pipes s]
      constructor
      · rintro ⟨g, v, opened⟩
        exact ⟨g, v, (closed g s v).mpr ⟨opened, fun both => here both.1⟩⟩
      · rintro ⟨g, v, opened⟩
        exact ⟨g, v, ((closed g s v).mp opened).1⟩
  case ends =>
    intro g s v opened
    simp only [Function.update_of_ne (elsewhere g s v opened)]
    exact h.ends g s v ((closed g s v).mp opened).1
  case still =>
    intro s member v isOpen
    by_cases here : s = r
    · subst here
      simp only [Function.update_self, none_open v, Bool.false_eq_true] at isOpen
    · simp only [Function.update_of_ne here] at isOpen
      have before : s ∈ held l owner .pipe := by
        simpa [held, Function.update_of_ne here] using member
      obtain ⟨g, opened⟩ := h.still s before v isOpen
      exact ⟨g, (closed g s v).mpr ⟨opened, fun both => here both.1⟩⟩
  case one =>
    intro f g s v first second
    exact h.one f g s v ((closed f s v).mp first).1 ((closed g s v).mp second).1
  case unused => exact unused

theorem Supply.pipeclose (h : Supply l k owner) (mine : r ∈ held l owner .pipe)
    (closed : ∀ g s v, OpenEnd file g s v ↔ OpenEnd k.file g s v ∧ ¬ (s = r ∧ v = w))
    (unused : ∀ f, (file f).ref ≤ 0 → (file f).type = .FD_NONE) :
    ∃ owner', Supply l ({ k with file := file }.pipeclose r w) owner' ∧ Agree owner owner' := by
  have ends : (if w = true then { k.pipe r with writeopen := false }
      else { k.pipe r with readopen := false } : Ends) = (k.pipe r).close w := rfl
  unfold Kernel.pipeclose
  simp only [ends]
  split
  · rename_i both
    have none_open := (Ends.both_closed _).mp both
    refine ⟨_, h.close_last mine closed unused none_open, ?_⟩
    exact .update (Or.inr mine.2) (Or.inl rfl)
  · rename_i other
    rw [Ends.both_closed, not_forall] at other
    obtain ⟨v, isOpen⟩ := other
    exact ⟨owner, h.close_one closed unused (Bool.eq_true_of_not_eq_false isOpen), .refl owner⟩

end Pipeclose

/-- fileclose() moves at most the page of a pipe, to the free list. -/
theorem Supply.fileclose {k k' : Kernel P} (h : Supply l k owner) {f : FileSlot}
    (closed : k.fileclose f = some k') :
    ∃ owner', Supply l k' owner' ∧ Agree owner owner' := by
  unfold Kernel.fileclose at closed
  split at closed
  · cases closed
  · rename_i file dropped
    cases closed
    obtain ⟨more, _, rfl⟩ | ⟨_, impossible, _⟩ := drop_some dropped
    · refine ⟨owner, h.files (OpenEnd.recount (by omega) (by omega)) ?_, .refl owner⟩
      exact set_unused h.unused fun none_left => absurd none_left (by simp only; omega)
    · cases impossible
  · rename_i file ff dropped
    obtain ⟨_, impossible, _⟩ | ⟨last, same, rfl⟩ := drop_some dropped
    · cases impossible
    · cases same
      have unused : ∀ g, (k.file.set f { k.file f with ref := 0, type := .FD_NONE } g).ref ≤ 0 →
          (k.file.set f { k.file f with ref := 0, type := .FD_NONE } g).type = .FD_NONE :=
        set_unused h.unused fun _ => rfl
      dsimp only at closed
      split at closed
      · rename_i pipe
        cases closed
        have opened : OpenEnd k.file f (k.file f).pipe (k.file f).writable :=
          ⟨by omega, pipe, rfl, rfl⟩
        refine h.pipeclose ((h.pipes _).mpr ⟨f, _, opened⟩) ?_ unused
        intro g s v
        rw [OpenEnd.closed, and_comm]
        refine and_congr_right fun other => not_congr ?_
        constructor
        · rintro rfl
          exact ⟨other.2.2.1.symm, other.2.2.2.symm⟩
        · rintro ⟨rfl, rfl⟩
          exact h.one g f _ _ other opened
      · rename_i pipe
        cases closed
        refine ⟨owner, h.files ?_ unused, .refl owner⟩
        intro g s v
        rw [OpenEnd.closed]
        refine and_iff_right_of_imp fun other => ?_
        rintro rfl
        exact pipe other.2.1

theorem pipeclose_same (k : Kernel P) (page : Page) (w : Bool) :
    (k.pipeclose page w).proc = k.proc ∧ (k.pipeclose page w).call = k.call ∧
      (k.pipeclose page w).panicked = k.panicked := by
  unfold Kernel.pipeclose
  dsimp only
  generalize (if w = true then { k.pipe page with writeopen := false }
    else { k.pipe page with readopen := false } : Ends) = ends
  split
  · exact ⟨rfl, rfl, rfl⟩
  · exact ⟨rfl, rfl, rfl⟩

theorem fileclose_same {k k' : Kernel P} {f : FileSlot} (closed : k.fileclose f = some k') :
    k'.proc = k.proc ∧ k'.call = k.call ∧ k'.panicked = k.panicked := by
  unfold Kernel.fileclose at closed
  split at closed
  · cases closed
  · cases closed
    exact ⟨rfl, rfl, rfl⟩
  · cases closed
    split
    · exact pipeclose_same _ _ _
    · exact ⟨rfl, rfl, rfl⟩

/-! ## pipealloc(), exit() and fork() -/

theorem filealloc_some {file next : FileTable} {f : FileSlot}
    (allocated : file.filealloc = some (f, next)) :
    (file f).ref = 0 ∧ next = file.set f { file f with ref := 1 } := by
  obtain ⟨g, found, same⟩ := Option.map_eq_some_iff.mp allocated
  cases same
  have free := List.find?_some found
  exact ⟨of_decide_eq_true free, rfl⟩

/-- Both ends of a new pipe are open, and the page is the pipe's. -/
theorem Supply.pipealloc {k : Kernel P} (h : Supply l k owner) {page : Page} {rest : List Page}
    (first : k.freelist = page :: rest) {f0 f1 : FileSlot} (apart : f1 ≠ f0)
    (unused0 : (k.file f0).ref = 0) (unused1 : (k.file f1).ref = 0) {rf wf : File}
    (read : 0 < rf.ref ∧ rf.type = .FD_PIPE ∧ rf.pipe = page ∧ rf.writable = false)
    (write : 0 < wf.ref ∧ wf.type = .FD_PIPE ∧ wf.pipe = page ∧ wf.writable = true) :
    Supply l { k with
        freelist := rest
        file := (k.file.set f0 rf).set f1 wf
        pipe := Function.update k.pipe page { readopen := true, writeopen := true } }
      (Function.update owner page .pipe) := by
  have mine := (h.free page).mp (first ▸ List.mem_cons_self)
  have once := h.once
  rw [first] at once
  obtain ⟨away, once⟩ := List.nodup_cons.mp once
  have shut : ∀ f s v, (k.file f).ref = 0 → ¬ OpenEnd k.file f s v := by
    intro f s v zero opened
    have positive := opened.1
    omega
  have elsewhere : ∀ g s v, OpenEnd k.file g s v → s ≠ page := by
    rintro g s v opened rfl
    have other := ((h.pipes s).mpr ⟨g, v, opened⟩).2
    rw [mine.2] at other
    cases other
  have same : ∀ g s v, OpenEnd ((k.file.set f0 rf).set f1 wf) g s v ↔
      (g = f0 ∧ s = page ∧ v = false) ∨ (g = f1 ∧ s = page ∧ v = true) ∨ OpenEnd k.file g s v := by
    intro g s v
    by_cases here1 : g = f1
    · subst here1
      have now : OpenEnd ((k.file.set f0 rf).set g wf) g s v ↔ page = s ∧ true = v := by
        simp only [OpenEnd, FileTable.set, Function.update_self, write, true_and]
      rw [now]
      constructor
      · rintro ⟨rfl, rfl⟩
        exact Or.inr (Or.inl ⟨rfl, rfl, rfl⟩)
      · rintro (⟨impossible, _⟩ | ⟨_, rfl, rfl⟩ | opened)
        · exact absurd impossible apart
        · exact ⟨rfl, rfl⟩
        · exact absurd opened (shut g s v unused1)
    · by_cases here0 : g = f0
      · subst here0
        have now : OpenEnd ((k.file.set g rf).set f1 wf) g s v ↔ page = s ∧ false = v := by
          simp only [OpenEnd, FileTable.set, Function.update_of_ne here1, Function.update_self, read,
            true_and]
        rw [now]
        constructor
        · rintro ⟨rfl, rfl⟩
          exact Or.inl ⟨rfl, rfl, rfl⟩
        · rintro (⟨_, rfl, rfl⟩ | ⟨impossible, _⟩ | opened)
          · exact ⟨rfl, rfl⟩
          · exact absurd impossible here1
          · exact absurd opened (shut g s v unused0)
      · simp only [OpenEnd, FileTable.set, Function.update_of_ne here1, Function.update_of_ne here0,
          here0, here1, false_and, false_or]
  constructor
  case once => exact once
  case free =>
    intro s
    have before := h.free s
    rw [first, List.mem_cons] at before
    by_cases here : s = page
    · subst here
      simp [held, away]
    · simp only [held, Set.mem_ofPred_eq, Function.update_of_ne here]
      exact (or_iff_right here).symm.trans before
  case pipes =>
    intro s
    simp only [same]
    by_cases here : s = page
    · subst here
      exact iff_of_true ⟨mine.1, Function.update_self _ _ _⟩ ⟨f0, false, Or.inl ⟨rfl, rfl, rfl⟩⟩
    · simp only [held, Set.mem_ofPred_eq, Function.update_of_ne here, here, false_and, and_false,
        false_or]
      exact h.pipes s
  case ends =>
    intro g s v opened
    obtain ⟨_, rfl, rfl⟩ | ⟨_, rfl, rfl⟩ | opened := (same g s v).mp opened
    · simp [Ends.isOpen]
    · simp [Ends.isOpen]
    · simp only [Function.update_of_ne (elsewhere g s v opened)]
      exact h.ends g s v opened
  case still =>
    intro s member v isOpen
    simp only [same]
    by_cases here : s = page
    · subst here
      cases v with
      | false => exact ⟨f0, Or.inl ⟨rfl, rfl, rfl⟩⟩
      | true => exact ⟨f1, Or.inr (Or.inl ⟨rfl, rfl, rfl⟩)⟩
    · have before : s ∈ held l owner .pipe := by
        simpa [held, Function.update_of_ne here] using member
      simp only [Function.update_of_ne here] at isOpen
      obtain ⟨g, opened⟩ := h.still s before v isOpen
      exact ⟨g, Or.inr (Or.inr opened)⟩
  case one =>
    intro f g s v first second
    obtain ⟨rfl, hs, hv⟩ | ⟨rfl, hs, hv⟩ | opened := (same f s v).mp first
    · obtain ⟨rfl, _⟩ | ⟨_, _, impossible⟩ | opened := (same g s v).mp second
      · rfl
      · rw [hv] at impossible
        cases impossible
      · exact absurd hs (elsewhere g s v opened)
    · obtain ⟨_, _, impossible⟩ | ⟨rfl, _⟩ | opened := (same g s v).mp second
      · rw [hv] at impossible
        cases impossible
      · rfl
      · exact absurd hs (elsewhere g s v opened)
    · obtain ⟨_, hs, _⟩ | ⟨_, hs, _⟩ | opened' := (same g s v).mp second
      · exact absurd hs (elsewhere f s v opened)
      · exact absurd hs (elsewhere f s v opened)
      · exact h.one f g s v opened opened'
  case unused =>
    refine set_unused (set_unused h.unused ?_) ?_
    · exact fun none_left => absurd none_left (not_le.mpr read.1)
    · exact fun none_left => absurd none_left (not_le.mpr write.1)

theorem Supply.closeAll {k k' : Kernel P} (h : Supply l k owner) {ofile : Descriptors}
    (closed : k.closeAll ofile = some k') :
    (∃ owner', Supply l k' owner' ∧ Agree owner owner') ∧
      k'.proc = k.proc ∧ k'.call = k.call ∧ k'.panicked = k.panicked := by
  unfold Kernel.closeAll at closed
  generalize List.finRange NOFILE = fds at closed
  induction fds generalizing k owner with
  | nil =>
      cases closed
      exact ⟨⟨owner, h, .refl owner⟩, rfl, rfl, rfl⟩
  | cons fd rest ih =>
      obtain ⟨next, one, more⟩ := Option.bind_eq_some_iff.mp closed
      have first : (∃ owner', Supply l next owner' ∧ Agree owner owner') ∧
          next.proc = k.proc ∧ next.call = k.call ∧ next.panicked = k.panicked := by
        cases here : ofile fd with
        | none =>
            simp only [here, Option.some.injEq] at one
            subst one
            exact ⟨⟨owner, h, .refl owner⟩, rfl, rfl, rfl⟩
        | some f =>
            simp only [here] at one
            exact ⟨h.fileclose one, fileclose_same one⟩
      obtain ⟨⟨owner', h', agree⟩, proc, call, panicked⟩ := first
      obtain ⟨⟨last, h'', agree'⟩, proc', call', panicked'⟩ := ih h' more
      exact ⟨⟨last, h'', agree.trans agree'⟩, proc'.trans proc, call'.trans call,
        panicked'.trans panicked⟩

theorem Supply.dupAll {k : Kernel P} (h : Supply l k owner) {file : FileTable} {ofile : Descriptors}
    (dup : Kernel.dupAll k.file ofile = some file) : Supply l { k with file := file } owner := by
  unfold Kernel.dupAll at dup
  generalize List.finRange NOFILE = fds at dup
  induction fds generalizing k with
  | nil =>
      cases dup
      exact h
  | cons fd rest ih =>
      obtain ⟨next, one, more⟩ := Option.bind_eq_some_iff.mp dup
      have first : Supply l { k with file := next } owner := by
        cases here : ofile fd with
        | none =>
            simp only [here, Option.some.injEq] at one
            subst one
            exact h
        | some f =>
            simp only [here, FileTable.filedup] at one
            split at one
            · cases one
            · cases one
              refine h.files (OpenEnd.recount (by omega) (by omega)) ?_
              exact set_unused h.unused fun none_left => absurd none_left (by simp only; omega)
      exact ih (k := { k with file := next }) first more

end Xv6.Public3
