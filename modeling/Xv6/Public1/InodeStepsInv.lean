import Xv6.Lib.References
import Xv6.Public1.InodeSteps

/-!
# The invariant of the inode cache (xv6-public_1)

What holds whatever the order of the steps: the counters count, an inode has one entry
at most, a lock has one holder, and what is loaded has all that is on disk.
-/

set_option autoImplicit false

namespace Xv6.Public1.InodeSteps

open Xv6.Lib
open Xv6.Lib.Words
open Xv6.Lib.References
open Xv6.Common
open Xv6.Public1.Blocks (Dinode)

variable {V : Type}

/-! ## Fields after a store -/

section Fields
variable (s : State V) (v w : V) (p : Option (InodeSlot × Stage)) (ip j : InodeSlot) (x : Inode)
  (d n dev inum : Word) (y : Dinode)

@[simp] theorem setInode_inode : (s.setInode ip x).inode j = if j = ip then x else s.inode j :=
  Function.update_apply s.inode ip x j

@[simp] theorem setInode_var : (s.setInode ip x).var = s.var := rfl

@[simp] theorem setInode_lock : (s.setInode ip x).lock = s.lock := rfl

@[simp] theorem setInode_disk : (s.setInode ip x).disk = s.disk := rfl

@[simp] theorem write_inode : (s.write dev inum y).inode = s.inode := rfl

@[simp] theorem write_var : (s.write dev inum y).var = s.var := rfl

@[simp] theorem write_lock : (s.write dev inum y).lock = s.lock := rfl

theorem write_disk : (s.write dev inum y).disk d n =
    if d = dev ∧ n = inum then y else s.disk d n := by
  simp only [State.write, Function.update_apply]
  by_cases same : d = dev
  · subst same
    by_cases number : n = inum <;> simp [number]
  · simp [same]

@[simp] theorem iupdate_var : (s.iupdate ip).var = s.var := rfl

@[simp] theorem setCopy_var (copy : Dinode) : (s.setCopy ip copy).var = s.var := rfl

@[simp] theorem itrunc_var : (s.itrunc ip).var = s.var := rfl

@[simp] theorem releasesleep_inode : (s.releasesleep ip).inode = s.inode := rfl

@[simp] theorem releasesleep_var : (s.releasesleep ip).var = s.var := rfl

@[simp] theorem releasesleep_lock :
    (s.releasesleep ip).lock j = if j = ip then none else s.lock j :=
  Function.update_apply s.lock ip none j

@[simp] theorem releasesleep_disk : (s.releasesleep ip).disk = s.disk := rfl

variable [DecidableEq V]

@[simp] theorem point_var : (s.point v p).var w = if w = v then p else s.var w :=
  Function.update_apply s.var v p w

@[simp] theorem point_inode : (s.point v p).inode = s.inode := rfl

@[simp] theorem point_lock : (s.point v p).lock = s.lock := rfl

@[simp] theorem point_disk : (s.point v p).disk = s.disk := rfl

end Fields

theorem acquiresleep_some [DecidableEq V] {s t : State V} {v : V} {ip : InodeSlot}
    (acquired : s.acquiresleep v ip = some t) :
    s.lock ip = none ∧ t = { s with lock := Function.update s.lock ip (some v) } := by
  unfold State.acquiresleep at acquired
  split at acquired
  · rename_i free
    cases acquired
    exact ⟨free, rfl⟩
  · cases acquired

/-! ## The invariant -/

theorem Keeps.refl (a : Dinode) : Keeps a a := ⟨rfl, Nat.le_refl _, fun _ _ => rfl⟩

theorem Keeps.trans {a b c : Dinode} (first : Keeps a b) (second : Keeps b c) : Keeps a c where
  type := second.type.trans first.type
  size := BitVec.le_trans first.size second.size
  addrs := by
    intro k used
    have kept := first.addrs k used
    rw [second.addrs k (by rwa [kept]), kept]

/-- The stages in which the entry has been loaded and not been cleared. -/
def Stage.loaded : Stage → Bool
  | .inside | .freeing | .truncated | .cleared => true
  | _ => false

namespace State

def Live (s : State V) (ip : InodeSlot) : Prop := 0 < (s.inode ip).ref

/-- Two entries for one inode. -/
def SameInode (s : State V) (i j : InodeSlot) : Prop :=
  (s.inode i).dev = (s.inode j).dev ∧ (s.inode i).inum = (s.inode j).inum

/-- The entry that a variable refers to. -/
def slot (s : State V) (v : V) : Option InodeSlot := (s.var v).map Prod.fst

structure Inv [Fintype V] (s : State V) : Prop where
  counted : ∀ ip, (s.inode ip).ref = (refs s.slot ip : Int)
  unique : ∀ i j, s.Live i → s.Live j → s.SameInode i j → i = j
  owned : ∀ ip v, s.lock ip = some v ↔ ∃ stage, s.var v = some (ip, stage) ∧ stage.locks = true
  loaded : ∀ v ip stage, s.var v = some (ip, stage) → stage.loaded = true →
    (s.inode ip).valid = true ∧ (stage.doomed = true → (s.inode ip).copy.nlink = 0)
  agrees : ∀ ip, s.Live ip → (s.inode ip).valid = true →
    (∀ v, s.var v ≠ some (ip, .cleared)) →
    (s.inode ip).copy.type ≠ 0 ∧ Keeps (s.dinode ip) (s.inode ip).copy

end State

section Kept
variable [Fintype V]

theorem boot_inv (disk : Word → Word → Dinode) : (boot disk : State V).Inv where
  counted := by
    intro ip
    have none_yet : (boot disk : State V).slot = fun _ => none := rfl
    rw [none_yet, refs_none]
    rfl
  unique := fun i _ used _ _ => absurd used (Int.lt_irrefl 0)
  owned := by
    intro ip v
    constructor
    · intro taken
      cases taken
    · rintro ⟨stage, points, -⟩
      cases points
  loaded := by
    intro v ip stage points
    cases points
  agrees := fun i used => absurd used (Int.lt_irrefl 0)

namespace State.Inv

variable {s t : State V} {v w : V} {ip : InodeSlot} {stage : Stage}

theorem live (h : s.Inv) (points : s.var v = some (ip, stage)) : s.Live ip := by
  have slot : s.slot v = some ip := by
    unfold State.slot
    rw [points]
    rfl
  have positive : 0 < refs s.slot ip := refs_pos slot
  have counted := h.counted ip
  unfold State.Live
  omega

/-- A lock has one holder. -/
theorem holder (h : s.Inv) {stage' : Stage} (first : s.var v = some (ip, stage))
    (locks : stage.locks = true) (second : s.var w = some (ip, stage'))
    (locks' : stage'.locks = true) : w = v := by
  have one := (h.owned ip v).mpr ⟨stage, first, locks⟩
  have other := (h.owned ip w).mpr ⟨stage', second, locks'⟩
  rw [one] at other
  exact (Option.some.inj other).symm

/-- A step that changes one entry, what variables refer to it, and on disk no inode of
another loaded entry. -/
theorem change (h : s.Inv) (ip : InodeSlot)
    (elsewhere : ∀ j, j ≠ ip → t.inode j = s.inode j ∧ t.lock j = s.lock j)
    (vars : ∀ w j stage, j ≠ ip → (t.var w = some (j, stage) ↔ s.var w = some (j, stage)))
    (counted : ∀ j, (t.inode j).ref = (refs t.slot j : Int))
    (alone : t.Live ip → ∀ j, j ≠ ip → s.Live j →
      ¬((t.inode ip).dev = (s.inode j).dev ∧ (t.inode ip).inum = (s.inode j).inum))
    (disk : ∀ j, j ≠ ip → s.Live j → t.disk (s.inode j).dev (s.inode j).inum = s.dinode j)
    (owned : ∀ w, t.lock ip = some w ↔ ∃ stage, t.var w = some (ip, stage) ∧ stage.locks = true)
    (loaded : ∀ w stage, t.var w = some (ip, stage) → stage.loaded = true →
      (t.inode ip).valid = true ∧ (stage.doomed = true → (t.inode ip).copy.nlink = 0))
    (agrees : t.Live ip → (t.inode ip).valid = true → (∀ w, t.var w ≠ some (ip, .cleared)) →
      (t.inode ip).copy.type ≠ 0 ∧ Keeps (t.dinode ip) (t.inode ip).copy) : t.Inv := by
  have alive : ∀ j, j ≠ ip → t.Live j → s.Live j := by
    intro j there used
    unfold State.Live at used ⊢
    rwa [(elsewhere j there).1] at used
  constructor
  case counted => exact counted
  case unique =>
    intro i j first second same
    unfold State.SameInode at same
    by_cases left : i = ip
    · by_cases right : j = ip
      · rw [left, right]
      · subst left
        rw [(elsewhere j right).1] at same
        exact absurd same (alone first j right (alive j right second))
    · by_cases right : j = ip
      · subst right
        rw [(elsewhere i left).1] at same
        exact absurd ⟨same.1.symm, same.2.symm⟩ (alone second i left (alive i left first))
      · rw [(elsewhere i left).1, (elsewhere j right).1] at same
        exact h.unique i j (alive i left first) (alive j right second) same
  case owned =>
    intro j w
    by_cases here : j = ip
    · subst here
      exact owned w
    · rw [(elsewhere j here).2, h.owned j w]
      exact exists_congr fun stage => and_congr_left fun _ => (vars w j stage here).symm
  case loaded =>
    intro w j stage points
    by_cases here : j = ip
    · subst here
      exact loaded w stage points
    · rw [(elsewhere j here).1]
      exact h.loaded w j stage ((vars w j stage here).mp points)
  case agrees =>
    intro j used valid unclear
    by_cases here : j = ip
    · subst here
      exact agrees used valid unclear
    · have inode := (elsewhere j here).1
      have dinode : t.dinode j = s.dinode j := by
        unfold State.dinode
        rw [inode]
        exact disk j here (alive j here used)
      rw [inode] at valid
      rw [dinode, inode]
      exact h.agrees j (alive j here used) valid fun w cleared =>
        unclear w ((vars w j .cleared here).mpr cleared)

end State.Inv

/-! ## The next stage of a process -/

/-- A step of the process that uses `v`, from one stage to another, with what it makes of the
entry. -/
structure Turns (s t : State V) (v : V) (ip : InodeSlot) (stage stage' : Stage) (x : Inode) :
    Prop where
  before : s.var v = some (ip, stage)
  after : t.var v = some (ip, stage')
  vars : ∀ w, w ≠ v → t.var w = s.var w
  here : t.inode ip = x
  inode : ∀ j, j ≠ ip → t.inode j = s.inode j
  dev : x.dev = (s.inode ip).dev
  inum : x.inum = (s.inode ip).inum
  ref : x.ref = (s.inode ip).ref
  disk : ∀ d n, ¬(d = (s.inode ip).dev ∧ n = (s.inode ip).inum) → t.disk d n = s.disk d n
  free : s.lock ip = none ∨ s.lock ip = some v
  taken : t.lock ip = if stage'.locks then some v else none
  lock : ∀ j, j ≠ ip → t.lock j = s.lock j

namespace Turns

variable {s t : State V} {v w : V} {ip : InodeSlot} {stage stage' : Stage} {x : Inode}

omit [Fintype V] in
theorem slot (turn : Turns s t v ip stage stage' x) : t.slot = s.slot := by
  funext w
  unfold State.slot
  by_cases same : w = v
  · rw [same, turn.after, turn.before]
    rfl
  · rw [turn.vars w same]

/-- Nobody else has the lock. -/
theorem alone (turn : Turns s t v ip stage stage' x) (h : s.Inv) {stage₂ : Stage}
    (other : w ≠ v) (points : s.var w = some (ip, stage₂)) : stage₂.locks = false := by
  cases locks : stage₂.locks with
  | false => rfl
  | true =>
      have taken := (h.owned ip w).mpr ⟨stage₂, points, locks⟩
      rcases turn.free with free | free
      · rw [free] at taken
        cases taken
      · rw [free] at taken
        exact absurd (Option.some.inj taken).symm other


/-- The invariant after a turn, from what the entry is now. -/
theorem inv (turn : Turns s t v ip stage stage' x) (h : s.Inv)
    (loaded : stage'.loaded = true → x.valid = true ∧ (stage'.doomed = true → x.copy.nlink = 0))
    (agrees : x.valid = true → stage' ≠ .cleared →
      x.copy.type ≠ 0 ∧ Keeps (t.dinode ip) x.copy) : t.Inv := by
  have used : s.Live ip := h.live turn.before
  have point : ∀ w stage₂, t.var w = some (ip, stage₂) →
      w = v ∧ stage₂ = stage' ∨ w ≠ v ∧ s.var w = some (ip, stage₂) := by
    intro w stage₂ points
    by_cases same : w = v
    · rw [same, turn.after] at points
      cases points
      exact Or.inl ⟨same, rfl⟩
    · exact Or.inr ⟨same, (turn.vars w same) ▸ points⟩
  apply h.change ip
  case elsewhere => exact fun j there => ⟨turn.inode j there, turn.lock j there⟩
  case vars =>
    intro w j stage₂ there
    by_cases same : w = v
    · rw [same, turn.after, turn.before]
      constructor
      · intro points
        cases points
        exact absurd rfl there
      · intro points
        cases points
        exact absurd rfl there
    · rw [turn.vars w same]
  case counted =>
    intro j
    rw [turn.slot, ← h.counted j]
    by_cases here : j = ip
    · rw [here, turn.here, turn.ref]
    · rw [turn.inode j here]
  case alone =>
    intro _ j there live same
    rw [turn.here, turn.dev, turn.inum] at same
    exact there (h.unique ip j used live same).symm
  case disk =>
    intro j there live
    refine turn.disk _ _ fun same => there ?_
    exact h.unique j ip live used same
  case owned =>
    intro w
    rw [turn.taken]
    constructor
    · intro taken
      split at taken
      · rename_i locks
        cases taken
        exact ⟨stage', turn.after, locks⟩
      · cases taken
    · rintro ⟨stage₂, points, locks⟩
      obtain ⟨same, now⟩ | ⟨other, before⟩ := point w stage₂ points
      · rw [if_pos (now ▸ locks), same]
      · rw [turn.alone h other before] at locks
        cases locks
  case loaded =>
    intro w stage₂ points loaded₂
    rw [turn.here]
    obtain ⟨same, now⟩ | ⟨other, before⟩ := point w stage₂ points
    · subst now
      exact loaded loaded₂
    · have unlocked := turn.alone h other before
      cases stage₂ <;> cases loaded₂ <;> cases unlocked
  case agrees =>
    intro _ valid unclear
    rw [turn.here] at valid ⊢
    refine agrees valid fun cleared => unclear v ?_
    rw [turn.after, cleared]

end Turns

/-! ## Steps of the process that has the entry -/

section Turning
variable [DecidableEq V] {s t : State V} {v : V}

omit [Fintype V] in
/-- acquiresleep() of a process that goes on to another stage. -/
theorem turns_of_acquire {u : State V} {ip : InodeSlot} (before : s.var v = some (ip, .held))
    (acquired : s.acquiresleep v ip = some u) (stage' : Stage) (locks : stage'.locks = true) :
    Turns s (u.point v (some (ip, stage'))) v ip .held stage' (s.inode ip) ∧ u.disk = s.disk := by
  obtain ⟨free, got⟩ := acquiresleep_some acquired
  subst got
  refine ⟨?_, rfl⟩
  constructor
  case before => exact before
  case after => simp
  case vars => exact fun w other => by simp [other]
  case here => rfl
  case inode => exact fun j _ => rfl
  case dev => rfl
  case inum => rfl
  case ref => rfl
  case disk => exact fun _ _ _ => rfl
  case free => exact Or.inl free
  case taken => simp [locks]
  case lock => exact fun j there => by simp [there]

omit [Fintype V] in
theorem ilock_turns (locked : s.ilock v = some t) :
    ∃ ip, Turns s t v ip .held .entering (s.inode ip) ∧ t.disk = s.disk := by
  unfold State.ilock at locked
  split at locked
  · rename_i ip before
    split at locked
    · cases locked
    · obtain ⟨u, acquired, same⟩ := Option.map_eq_some_iff.mp locked
      subst same
      exact ⟨ip, turns_of_acquire before acquired .entering rfl⟩
  · cases locked

omit [Fintype V] in
theorem iput_turns (put : s.iput v = some t) :
    ∃ ip, Turns s t v ip .held .putting (s.inode ip) ∧ t.disk = s.disk := by
  unfold State.iput at put
  split at put
  · rename_i ip before
    obtain ⟨u, acquired, same⟩ := Option.map_eq_some_iff.mp put
    subst same
    exact ⟨ip, turns_of_acquire before acquired .putting rfl⟩
  · cases put

/-- A step of the process that has the lock, and keeps it or lets it go. -/
theorem turns_of_holder (h : s.Inv) {ip : InodeSlot} {stage stage' : Stage} {x : Inode}
    (before : s.var v = some (ip, stage)) (locks : stage.locks = true)
    (var : ∀ w, t.var w = if w = v then some (ip, stage') else s.var w)
    (inode : ∀ j, t.inode j = if j = ip then x else s.inode j)
    (dev : x.dev = (s.inode ip).dev) (inum : x.inum = (s.inode ip).inum)
    (ref : x.ref = (s.inode ip).ref)
    (disk : ∀ d n, ¬(d = (s.inode ip).dev ∧ n = (s.inode ip).inum) → t.disk d n = s.disk d n)
    (lock : stage'.locks = true ∧ t.lock = s.lock ∨
      stage'.locks = false ∧ ∀ j, t.lock j = if j = ip then none else s.lock j) :
    Turns s t v ip stage stage' x := by
  have held : s.lock ip = some v := (h.owned ip v).mpr ⟨stage, before, locks⟩
  constructor
  case before => exact before
  case after => rw [var, if_pos rfl]
  case vars => exact fun w other => by rw [var, if_neg other]
  case here => rw [inode, if_pos rfl]
  case inode => exact fun j there => by rw [inode, if_neg there]
  case dev => exact dev
  case inum => exact inum
  case ref => exact ref
  case disk => exact disk
  case free => exact Or.inr held
  case taken =>
    rcases lock with ⟨still, lock⟩ | ⟨gone, lock⟩
    · rw [lock, still, held]
      rfl
    · rw [lock, gone, if_pos rfl]
      rfl
  case lock =>
    intro j there
    rcases lock with ⟨-, lock⟩ | ⟨-, lock⟩
    · rw [lock]
    · rw [lock, if_neg there]

theorem load_turns (h : s.Inv) (loaded : s.load v = some t) :
    ∃ ip x, Turns s t v ip .entering .inside x ∧ t.disk = s.disk ∧
      ((s.inode ip).valid = true ∧ x = s.inode ip ∨
        (s.inode ip).valid = false ∧ (s.dinode ip).type ≠ 0 ∧
          x = { s.inode ip with copy := s.dinode ip, valid := true }) := by
  unfold State.load at loaded
  split at loaded
  · rename_i ip before
    split at loaded
    · rename_i valid
      cases loaded
      refine ⟨ip, s.inode ip, turns_of_holder h before rfl (by simp) ?_ rfl rfl rfl
        (fun _ _ _ => rfl) (Or.inl ⟨rfl, rfl⟩), rfl, Or.inl ⟨valid, rfl⟩⟩
      intro j
      split
      · rename_i here
        rw [here]
        rfl
      · rfl
    · rename_i unloaded
      split at loaded
      · cases loaded
      · rename_i allocated
        cases loaded
        refine ⟨ip, { s.inode ip with copy := s.dinode ip, valid := true },
          turns_of_holder h before rfl (by simp) (by simp) rfl rfl rfl (fun _ _ _ => rfl)
            (Or.inl ⟨rfl, rfl⟩), rfl, Or.inr ⟨Bool.eq_false_iff.mpr unloaded, allocated, rfl⟩⟩
  · cases loaded

theorem store_turns (h : s.Inv) {copy : Dinode} (stored : s.store v copy = some t) :
    ∃ ip, Turns s t v ip .inside .inside { s.inode ip with copy := copy } ∧ t.disk = s.disk ∧
      Keeps (s.inode ip).copy copy := by
  unfold State.store at stored
  split at stored
  · rename_i ip before
    split at stored
    · rename_i kept
      cases stored
      refine ⟨ip, turns_of_holder h before rfl ?_ (by simp [State.setCopy]) rfl rfl rfl
        (fun _ _ _ => rfl) (Or.inl ⟨rfl, rfl⟩), rfl, kept⟩
      intro w
      split
      · rename_i same
        rw [same]
        exact before
      · rfl
    · cases stored
  · cases stored

theorem update_turns (h : s.Inv) (updated : s.update v = some t) :
    ∃ ip, Turns s t v ip .inside .inside (s.inode ip) ∧ t = s.iupdate ip := by
  unfold State.update at updated
  split at updated
  · rename_i ip before
    cases updated
    refine ⟨ip, turns_of_holder h before rfl ?_ ?_ rfl rfl rfl ?_ (Or.inl ⟨rfl, rfl⟩), rfl⟩
    · intro w
      split
      · rename_i same
        rw [same]
        exact before
      · rfl
    · intro j
      split
      · rename_i here
        rw [here]
        rfl
      · rfl
    · intro d n other
      rw [State.iupdate, write_disk, if_neg other]
  · cases updated

theorem iunlock_turns (h : s.Inv) (unlocked : s.iunlock v = some t) :
    ∃ ip, Turns s t v ip .inside .held (s.inode ip) ∧ t.disk = s.disk := by
  unfold State.iunlock at unlocked
  split at unlocked
  · rename_i ip before
    cases unlocked
    refine ⟨ip, turns_of_holder h before rfl (by simp) ?_ rfl rfl rfl (fun _ _ _ => rfl)
      (Or.inr ⟨rfl, by simp⟩), rfl⟩
    intro j
    split
    · rename_i here
      rw [here]
      rfl
    · rfl
  · cases unlocked

/-- What the next step of iput() does, up to `ip->ref--`. -/
inductive Next (s t : State V) (ip : InodeSlot) (x : Inode) : Stage → Stage → Prop where
  | last (links : (s.inode ip).valid = true ∧ (s.inode ip).copy.nlink = 0)
      (only : (s.inode ip).ref = 1) (same : x = s.inode ip) (disk : t.disk = s.disk) :
      Next s t ip x .putting .freeing
  | shared (same : x = s.inode ip) (disk : t.disk = s.disk) : Next s t ip x .putting .done
  | itrunc (copy : x = { s.inode ip with
        copy := { (s.inode ip).copy with size := 0, addrs := fun _ => 0 } })
      (disk : t.dinode ip = x.copy) : Next s t ip x .freeing .truncated
  | clear (copy : x = { s.inode ip with copy := { (s.inode ip).copy with type := 0 } }) :
      Next s t ip x .truncated .cleared
  | invalid (same : x = { s.inode ip with valid := false }) (disk : t.disk = s.disk) :
      Next s t ip x .cleared .done
  | release (same : x = s.inode ip) (disk : t.disk = s.disk) : Next s t ip x .done .leaving

/-- The end of iput(): the reference is gone. -/
structure Drops (s t : State V) (v : V) (ip : InodeSlot) : Prop where
  before : s.var v = some (ip, .leaving)
  var : ∀ w, t.var w = if w = v then none else s.var w
  inode : ∀ j, t.inode j =
    if j = ip then { s.inode ip with ref := (s.inode ip).ref - 1 } else s.inode j
  disk : t.disk = s.disk
  lock : t.lock = s.lock

theorem next_cases (h : s.Inv) (went : s.next v = some t) :
    (∃ ip stage stage' x, Turns s t v ip stage stage' x ∧ Next s t ip x stage stage') ∨
      ∃ ip, Drops s t v ip := by
  have inside : ∀ (ip j : InodeSlot), s.inode j = if j = ip then s.inode ip else s.inode j := by
    intro ip j
    split
    · rename_i here
      rw [here]
    · rfl
  unfold State.next at went
  split at went
  · rename_i ip before
    split at went
    · rename_i last
      cases went
      exact Or.inl ⟨ip, _, _, s.inode ip, turns_of_holder h before rfl (by simp) (inside ip) rfl
        rfl rfl (fun _ _ _ => rfl) (Or.inl ⟨rfl, rfl⟩), .last ⟨last.1, last.2.1⟩ last.2.2 rfl rfl⟩
    · cases went
      exact Or.inl ⟨ip, _, _, s.inode ip, turns_of_holder h before rfl (by simp) (inside ip) rfl
        rfl rfl (fun _ _ _ => rfl) (Or.inl ⟨rfl, rfl⟩), .shared rfl rfl⟩
  · rename_i ip before
    cases went
    refine Or.inl ⟨ip, .freeing, .truncated, _, turns_of_holder h before rfl (by simp)
      (fun j => setInode_inode s ip j _) rfl rfl rfl ?_ (Or.inl ⟨rfl, rfl⟩), .itrunc rfl ?_⟩
    · intro d n other
      simp only [State.itrunc, State.iupdate, State.setCopy, point_disk, write_disk,
        setInode_inode, if_pos, if_neg other, setInode_disk]
    · simp [State.dinode, State.itrunc, State.iupdate, State.setCopy, write_disk]
  · rename_i ip before
    cases went
    refine Or.inl ⟨ip, .truncated, .cleared, _, turns_of_holder h before rfl (by simp)
      (fun j => setInode_inode s ip j _) rfl rfl rfl ?_ (Or.inl ⟨rfl, rfl⟩), .clear rfl⟩
    intro d n other
    simp only [State.iupdate, State.setCopy, point_disk, write_disk, setInode_inode, if_pos,
      if_neg other, setInode_disk]
  · rename_i ip before
    cases went
    exact Or.inl ⟨ip, .cleared, .done, _, turns_of_holder h before rfl (by simp)
      (fun j => setInode_inode s ip j _) rfl rfl rfl (fun _ _ _ => rfl) (Or.inl ⟨rfl, rfl⟩),
      .invalid rfl rfl⟩
  · rename_i ip before
    cases went
    exact Or.inl ⟨ip, .done, .leaving, s.inode ip, turns_of_holder h before rfl (by simp)
      (inside ip) rfl rfl rfl (fun _ _ _ => rfl) (Or.inr ⟨rfl, by simp⟩), .release rfl rfl⟩
  · rename_i ip before
    cases went
    exact Or.inr ⟨ip, before, by simp, fun j => setInode_inode s ip j _, rfl, rfl⟩
  · cases went

end Turning

/-! ## Steps that take a reference and give it up -/

section References
variable [DecidableEq V] {s t : State V} {v w : V} {ip : InodeSlot}

omit [Fintype V] in
theorem slot_point (p : Option (InodeSlot × Stage)) :
    (s.point v p).slot = Function.update s.slot v (p.map Prod.fst) := by
  funext w
  unfold State.slot
  rw [point_var, Function.update_apply]
  split <;> rfl

theorem refs_point (p : Option (InodeSlot × Stage)) (j : InodeSlot) :
    refs (s.point v p).slot j + (if s.slot v = some j then 1 else 0) =
      refs s.slot j + (if p.map Prod.fst = some j then 1 else 0) := by
  rw [slot_point]
  exact refs_update s.slot v (p.map Prod.fst) j

/-- A variable that gets a reference, to an entry in use or to one that is not. -/
theorem gain_inv (h : s.Inv) (x : Inode) (unset : s.var v = none)
    (ref : x.ref = (s.inode ip).ref + 1)
    (used : s.Live ip → x = { s.inode ip with ref := x.ref })
    (unused : ¬s.Live ip → x.valid = false)
    (alone : ∀ j, j ≠ ip → s.Live j →
      ¬((s.inode j).dev = x.dev ∧ (s.inode j).inum = x.inum)) :
    ((s.setInode ip x).point v (some (ip, .held))).Inv := by
  have var : ∀ w, ((s.setInode ip x).point v (some (ip, .held))).var w =
      if w = v then some (ip, .held) else s.var w := fun w => by simp
  have inode : ∀ j, ((s.setInode ip x).point v (some (ip, .held))).inode j =
      if j = ip then x else s.inode j := fun j => by simp
  have before : s.slot v = none := by
    unfold State.slot
    rw [unset]
    rfl
  apply h.change ip
  case elsewhere => exact fun j there => ⟨by rw [inode, if_neg there], rfl⟩
  case vars =>
    intro w j stage there
    rw [var]
    split
    · rename_i same
      rw [same, unset]
      constructor
      · intro points
        cases points
        exact absurd rfl there
      · intro points
        cases points
    · exact Iff.rfl
  case counted =>
    intro j
    have moved := @refs_point V _ _ (s.setInode ip x) v (some (ip, .held)) j
    have counted := h.counted j
    have slot : (s.setInode ip x).slot = s.slot := rfl
    rw [slot, before] at moved
    rw [inode]
    by_cases here : j = ip
    · subst here
      simp only [Option.map_some, reduceCtorEq, if_false, if_true] at moved ⊢
      omega
    · rw [if_neg here]
      simp only [Option.map_some, Option.some.injEq, reduceCtorEq, if_false,
        if_neg (Ne.symm here)] at moved
      omega
  case alone =>
    intro _ j there live same
    rw [inode, if_pos rfl] at same
    exact alone j there live ⟨same.1.symm, same.2.symm⟩
  case disk => exact fun j _ _ => rfl
  case owned =>
    intro w
    have lock : ((s.setInode ip x).point v (some (ip, .held))).lock = s.lock := rfl
    rw [lock, h.owned ip w, var]
    split
    · rename_i same
      rw [same, unset]
      constructor
      · rintro ⟨stage, points, -⟩
        cases points
      · rintro ⟨stage, points, locks⟩
        cases points
        cases locks
    · exact Iff.rfl
  case loaded =>
    intro w stage points loaded
    rw [var] at points
    split at points
    · cases points
      cases loaded
    · have same := used (h.live points)
      rw [inode, if_pos rfl, same]
      exact h.loaded w ip stage points loaded
  case agrees =>
    intro _ valid unclear
    rw [inode, if_pos rfl] at valid
    by_cases live : s.Live ip
    · have same := used live
      have dinode : ((s.setInode ip x).point v (some (ip, .held))).dinode ip = s.dinode ip := by
        unfold State.dinode
        rw [inode, if_pos rfl, same]
        rfl
      rw [dinode, inode, if_pos rfl]
      rw [same] at valid ⊢
      refine h.agrees ip live valid fun w cleared => unclear w ?_
      rw [var]
      split
      · rename_i here
        rw [here, unset] at cleared
        cases cleared
      · exact cleared
    · rw [unused live] at valid
      cases valid

theorem take_inv (h : s.Inv) (used : s.Live ip) (unset : s.var v = none) : (s.take v ip).Inv := by
  refine gain_inv h _ unset rfl (fun _ => rfl) (fun unused => absurd used unused) ?_
  exact fun j there live same => there (h.unique j ip live used same)

omit [Fintype V] in
/-- iget() finds the entry of the inode, or takes one that is not in use. -/
theorem iget_cases {dev inum : Word} (got : s.iget v dev inum = some t) :
    s.var v = none ∧ ∃ ip,
      ((s.inode ip).ref > 0 ∧ (s.inode ip).dev = dev ∧ (s.inode ip).inum = inum ∧
          t = s.take v ip ∨
        (∀ j, (s.inode j).ref > 0 → ¬((s.inode j).dev = dev ∧ (s.inode j).inum = inum)) ∧
          (s.inode ip).ref = 0 ∧
          ∃ copy, t = (s.setInode ip
            { dev := dev, inum := inum, ref := 1, valid := false, copy := copy }).point v
              (some (ip, .held))) := by
  unfold State.iget at got
  split at got
  · rename_i unset
    refine ⟨unset, ?_⟩
    split at got
    · rename_i ip hit
      cases got
      have found := List.find?_some hit
      have here := of_decide_eq_true found
      exact ⟨ip, Or.inl ⟨here.1, here.2.1, here.2.2, rfl⟩⟩
    · rename_i miss
      obtain ⟨ip, vacant, same⟩ := Option.map_eq_some_iff.mp got
      have found := List.find?_some vacant
      have unused := of_decide_eq_true found
      refine ⟨ip, Or.inr ⟨?_, unused, _, same.symm⟩⟩
      intro j used here
      have absent := List.find?_eq_none.mp miss j (List.mem_finRange j)
      exact absent (decide_eq_true ⟨used, here.1, here.2⟩)
  · cases got

omit [Fintype V] in
theorem idup_cases (dup : s.idup v w = some t) :
    ∃ ip, s.var v = some (ip, .held) ∧ s.var w = none ∧ t = s.take w ip := by
  unfold State.idup at dup
  split at dup
  · rename_i ip points unset
    cases dup
    exact ⟨ip, points, unset, rfl⟩
  · cases dup

omit [Fintype V] in
theorem move_cases (moved : s.move v w = some t) :
    ∃ ip, s.var v = some (ip, .held) ∧ s.var w = none ∧
      t = (s.point v none).point w (some (ip, .held)) := by
  unfold State.move at moved
  split at moved
  · rename_i ip points unset
    cases moved
    exact ⟨ip, points, unset, rfl⟩
  · cases moved

theorem move_inv (h : s.Inv) (points : s.var v = some (ip, .held)) (unset : s.var w = none) :
    ((s.point v none).point w (some (ip, .held))).Inv := by
  have apart : w ≠ v := by
    rintro rfl
    rw [points] at unset
    cases unset
  have var : ∀ u, ((s.point v none).point w (some (ip, .held))).var u =
      if u = w then some (ip, .held) else if u = v then none else s.var u := fun u => by simp
  have used : s.Live ip := h.live points
  apply h.change ip
  case elsewhere => exact fun j _ => ⟨rfl, rfl⟩
  case vars =>
    intro u j stage there
    have other : ∀ stage₂, (ip, stage₂) ≠ (j, stage) :=
      fun _ same => there (congrArg Prod.fst same).symm
    rw [var]
    split
    · rename_i same
      rw [same, unset]
      simp [other]
    · split
      · rename_i same
        rw [same, points]
        simp [other]
      · exact Iff.rfl
  case counted =>
    intro j
    have first := @refs_point V _ _ s v none j
    have second := @refs_point V _ _ (s.point v none) w (some (ip, .held)) j
    have gone : (s.point v none).slot w = none := by
      unfold State.slot
      rw [point_var, if_neg apart, unset]
      rfl
    have there : s.slot v = some ip := by
      unfold State.slot
      rw [points]
      rfl
    have before := h.counted j
    rw [gone] at second
    rw [there] at first
    simp only [Option.map_none, Option.map_some, reduceCtorEq, if_false] at first second
    simp only [point_inode]
    omega
  case alone =>
    intro _ j there live same
    exact there (h.unique ip j used live same).symm
  case disk => exact fun j _ _ => rfl
  case owned =>
    intro u
    simp only [point_lock, h.owned ip u, var]
    split
    · rename_i same
      rw [same, unset]
      simp [Stage.locks]
    · split
      · rename_i same
        rw [same, points]
        simp [Stage.locks]
      · exact Iff.rfl
  case loaded =>
    intro u stage pointed loaded
    rw [var] at pointed
    split at pointed
    · cases pointed
      cases loaded
    · split at pointed
      · cases pointed
      · exact h.loaded u ip stage pointed loaded
  case agrees =>
    intro _ valid unclear
    refine h.agrees ip used valid fun u cleared => unclear u ?_
    rw [var]
    split
    · rename_i same
      rw [same, unset] at cleared
      cases cleared
    · split
      · rename_i same
        rw [same, points] at cleared
        cases cleared
      · exact cleared

omit [DecidableEq V] in
theorem Drops.inv [DecidableEq V] (drops : Drops s t v ip) (h : s.Inv) : t.Inv := by
  have used : s.Live ip := h.live drops.before
  have slot : t.slot = (s.point v none).slot := by
    funext w
    unfold State.slot
    rw [drops.var, point_var]
  apply h.change ip
  case elsewhere => exact fun j there => ⟨by rw [drops.inode, if_neg there], by rw [drops.lock]⟩
  case vars =>
    intro w j stage there
    have other : (ip, Stage.leaving) ≠ (j, stage) := fun same => there (congrArg Prod.fst same).symm
    rw [drops.var]
    split
    · rename_i same
      rw [same, drops.before]
      simp [other]
    · exact Iff.rfl
  case counted =>
    intro j
    have moved := @refs_point V _ _ s v none j
    have there : s.slot v = some ip := by
      unfold State.slot
      rw [drops.before]
      rfl
    have before := h.counted j
    rw [there] at moved
    simp only [Option.map_none, Option.some.injEq, reduceCtorEq, if_false] at moved
    rw [slot, drops.inode]
    by_cases here : j = ip
    · subst here
      simp only [if_true] at moved ⊢
      omega
    · rw [if_neg here]
      rw [if_neg (Ne.symm here)] at moved
      omega
  case alone =>
    intro _ j there live same
    rw [drops.inode, if_pos rfl] at same
    exact there (h.unique ip j used live same).symm
  case disk => exact fun j _ _ => by rw [drops.disk]; rfl
  case owned =>
    intro w
    rw [drops.lock, h.owned ip w, drops.var]
    split
    · rename_i same
      rw [same, drops.before]
      simp [Stage.locks]
    · exact Iff.rfl
  case loaded =>
    intro w stage points loaded
    rw [drops.var] at points
    split at points
    · cases points
    · rw [drops.inode, if_pos rfl]
      exact h.loaded w ip stage points loaded
  case agrees =>
    intro _ valid unclear
    have dinode : t.dinode ip = s.dinode ip := by
      unfold State.dinode
      rw [drops.inode, if_pos rfl, drops.disk]
    rw [dinode]
    rw [drops.inode, if_pos rfl] at valid ⊢
    refine h.agrees ip used valid fun w cleared => unclear w ?_
    rw [drops.var]
    split
    · rename_i same
      rw [same, drops.before] at cleared
      cases cleared
    · exact cleared

omit [DecidableEq V] in
/-- ialloc() writes an inode that no loaded entry stands for. -/
theorem ialloc_inv {dev inum : Word} {type : Int} (h : s.Inv)
    (allocated : s.ialloc dev inum type = some t) : t.Inv := by
  unfold State.ialloc at allocated
  split at allocated
  · rename_i free
    cases allocated
    constructor
    case counted => exact h.counted
    case unique => exact h.unique
    case owned => exact h.owned
    case loaded => exact h.loaded
    case agrees =>
      intro ip used valid unclear
      obtain ⟨typed, kept⟩ := h.agrees ip used valid unclear
      have dinode (dip : Dinode) : (s.write dev inum dip).dinode ip = s.dinode ip := by
        unfold State.dinode
        rw [write_disk, write_inode, if_neg]
        rintro ⟨same, number⟩
        apply typed
        rw [kept.type]
        unfold State.dinode
        rw [same, number]
        exact free.1
      rw [dinode]
      exact ⟨typed, kept⟩
  · cases allocated

/-! ## Every step keeps the invariant -/

theorem iget_inv {dev inum : Word} (h : s.Inv) (got : s.iget v dev inum = some t) : t.Inv := by
  obtain ⟨unset, ip, ⟨used, -, -, same⟩ | ⟨absent, unused, copy, same⟩⟩ := iget_cases got
  · rw [same]
    exact take_inv h used unset
  · rw [same]
    refine gain_inv h _ unset ?_ ?_ (fun _ => rfl) (fun j _ live => absent j live)
    · rw [unused]
      rfl
    · intro used
      unfold State.Live at used
      omega

theorem next_inv (h : s.Inv) (went : s.next v = some t) : t.Inv := by
  obtain ⟨ip, stage, stage', x, turn, next⟩ | ⟨ip, drops⟩ := next_cases h went
  · have used : s.Live ip := h.live turn.before
    have here : t.dinode ip = t.disk (s.inode ip).dev (s.inode ip).inum := by
      unfold State.dinode
      rw [turn.here, turn.dev, turn.inum]
    -- Nobody but `v` can have written the type 0.
    have clear : stage ≠ .cleared → stage.locks = true → ∀ w, s.var w ≠ some (ip, .cleared) := by
      intro unclear locks w cleared
      have same := h.holder turn.before locks cleared rfl
      rw [same, turn.before] at cleared
      cases cleared
      exact unclear rfl
    cases next with
    | last links only same disk =>
        subst same
        refine turn.inv h (fun _ => ⟨links.1, fun _ => links.2⟩) fun valid _ => ?_
        rw [here, disk]
        exact h.agrees ip used valid (clear Stage.noConfusion rfl)
    | shared same disk =>
        subst same
        refine turn.inv h (fun loaded => by cases loaded) fun valid _ => ?_
        rw [here, disk]
        exact h.agrees ip used valid (clear Stage.noConfusion rfl)
    | itrunc copy disk =>
        have before := h.loaded v ip .freeing turn.before rfl
        subst copy
        refine turn.inv h (fun _ => ⟨before.1, fun _ => before.2 rfl⟩) fun valid _ => ?_
        rw [disk]
        exact ⟨(h.agrees ip used valid (clear Stage.noConfusion rfl)).1, Keeps.refl _⟩
    | clear copy =>
        have before := h.loaded v ip .truncated turn.before rfl
        subst copy
        exact turn.inv h (fun _ => ⟨before.1, fun _ => before.2 rfl⟩)
          fun _ unclear => absurd rfl unclear
    | invalid same disk =>
        subst same
        exact turn.inv h (fun loaded => by cases loaded) fun valid _ => by cases valid
    | release same disk =>
        subst same
        refine turn.inv h (fun loaded => by cases loaded) fun valid _ => ?_
        rw [here, disk]
        exact h.agrees ip used valid (clear Stage.noConfusion rfl)
  · exact drops.inv h

/-- The turns of a process that has not called iput(), and the start of an iput(). -/
theorem turn_inv {stage stage' : Stage} {x : Inode} (h : s.Inv)
    (turn : Turns s t v ip stage stage' x) (loaded : stage'.loaded = true → x.valid = true)
    (sound : stage'.doomed = false) (clear : stage ≠ .cleared)
    (agrees : x.valid = true → (s.inode ip).valid = true ∧ Keeps (s.inode ip).copy x.copy ∧
        (t.dinode ip = s.dinode ip ∨ t.dinode ip = x.copy) ∨
      x.copy.type ≠ 0 ∧ t.dinode ip = x.copy) : t.Inv := by
  refine turn.inv h (fun is_loaded => ⟨loaded is_loaded, fun doomed => ?_⟩) fun valid _ => ?_
  · rw [sound] at doomed
    cases doomed
  · obtain ⟨before, kept, disk⟩ | ⟨typed, disk⟩ := agrees valid
    · have unclear : ∀ w, s.var w ≠ some (ip, .cleared) := by
        intro w cleared
        by_cases same : w = v
        · rw [same, turn.before] at cleared
          cases cleared
          exact clear rfl
        · cases turn.alone h same cleared
      obtain ⟨typed, agrees⟩ := h.agrees ip (h.live turn.before) before unclear
      refine ⟨?_, ?_⟩
      · rw [kept.type]
        exact typed
      · rcases disk with disk | disk
        · rw [disk]
          exact agrees.trans kept
        · rw [disk]
          exact Keeps.refl _
    · rw [disk]
      exact ⟨typed, Keeps.refl _⟩

omit [Fintype V] [DecidableEq V] in
/-- What an entry stands for on disk, after a turn that writes nothing there. -/
theorem Turns.dinode {stage stage' : Stage} {x : Inode} (turn : Turns s t v ip stage stage' x)
    (disk : t.disk = s.disk) : t.dinode ip = s.dinode ip := by
  unfold State.dinode
  rw [turn.here, turn.dev, turn.inum, disk]

theorem step_inv (e : Event V) (h : s.Inv) (taken : step s e = some t) : t.Inv := by
  cases e with
  | iget v dev inum => exact iget_inv h taken
  | idup v w =>
      obtain ⟨ip, points, unset, same⟩ := idup_cases taken
      rw [same]
      exact take_inv h (h.live points) unset
  | move v w =>
      obtain ⟨ip, points, unset, same⟩ := move_cases taken
      rw [same]
      exact move_inv h points unset
  | ialloc dev inum type => exact ialloc_inv h taken
  | ilock v =>
      obtain ⟨ip, turn, disk⟩ := ilock_turns taken
      exact turn_inv h turn (fun loaded => by cases loaded) rfl Stage.noConfusion
        fun valid => Or.inl ⟨valid, Keeps.refl _, Or.inl (turn.dinode disk)⟩
  | load v =>
      obtain ⟨ip, x, turn, disk, ⟨valid, same⟩ | ⟨unloaded, typed, same⟩⟩ := load_turns h taken
      · subst same
        exact turn_inv h turn (fun _ => valid) rfl Stage.noConfusion
          fun valid => Or.inl ⟨valid, Keeps.refl _, Or.inl (turn.dinode disk)⟩
      · subst same
        exact turn_inv h turn (fun _ => rfl) rfl Stage.noConfusion
          fun _ => Or.inr ⟨typed, turn.dinode disk⟩
  | store v copy =>
      obtain ⟨ip, turn, disk, kept⟩ := store_turns h taken
      exact turn_inv h turn (fun _ => (h.loaded v ip .inside turn.before rfl).1) rfl
        Stage.noConfusion fun valid => Or.inl ⟨valid, kept, Or.inl (turn.dinode disk)⟩
  | update v =>
      obtain ⟨ip, turn, same⟩ := update_turns h taken
      refine turn_inv h turn (fun _ => (h.loaded v ip .inside turn.before rfl).1) rfl
        Stage.noConfusion fun valid => Or.inl ⟨valid, Keeps.refl _, Or.inr ?_⟩
      rw [same]
      simp [State.dinode, State.iupdate, write_disk]
  | iunlock v =>
      obtain ⟨ip, turn, disk⟩ := iunlock_turns h taken
      exact turn_inv h turn (fun loaded => by cases loaded) rfl Stage.noConfusion
        fun valid => Or.inl ⟨valid, Keeps.refl _, Or.inl (turn.dinode disk)⟩
  | iput v =>
      obtain ⟨ip, turn, disk⟩ := iput_turns taken
      exact turn_inv h turn (fun loaded => by cases loaded) rfl Stage.noConfusion
        fun valid => Or.inl ⟨valid, Keeps.refl _, Or.inl (turn.dinode disk)⟩
  | next v => exact next_inv h taken

end References

end Kept

end Xv6.Public1.InodeSteps
