import Xv6.Public1.InodeCache

/-!
# The inode cache agrees with the disk (xv6-public_1)

The invariant of the inode cache: the counters count, an inode has one entry at
most, and an entry that is in use and loaded agrees with the disk except between
a store and its iupdate().
-/

set_option autoImplicit false

namespace Xv6.Public1.InodeCache

open Xv6.Lib
open Xv6.Lib.Words
open Xv6.Lib.References (refs refs_update refs_none refs_pos)
open Xv6.Common
open Xv6.Public1.Inodes

variable {V : Type}

/-! ## Who locks an entry -/

theorem locked_some [DecidableEq V] {s : Cache V} {v : V} {ip : InodeSlot} {phase : Phase} :
    s.locked v = some (ip, phase) ↔ s.var v = .to ip ∧ s.lock ip = some (v, phase) := by
  unfold Cache.locked
  constructor
  · intro found
    split at found
    · rename_i j points
      split at found
      · rename_i w other owner
        split at found
        · rename_i same
          cases found
          exact ⟨points, same ▸ owner⟩
        · cases found
      · cases found
    · cases found
  · intro ⟨points, owner⟩
    simp [points, owner]

theorem free_some [DecidableEq V] {s : Cache V} {v : V} {ip : InodeSlot} (found : s.free v = some ip) :
    s.var v = .to ip ∧ ∀ phase, s.lock ip ≠ some (v, phase) := by
  unfold Cache.free at found
  split at found
  · rename_i j points unlocked
    cases found
    refine ⟨points, ?_⟩
    intro phase owner
    rw [locked_some.mpr ⟨points, owner⟩] at unlocked
    cases unlocked
  · cases found

/-! ## Entries in use -/

namespace Cache

def Live (s : Cache V) (ip : InodeSlot) : Prop := 0 < (s.inode ip).ref

/-- Two entries for one inode. -/
def SameInode (s : Cache V) (i j : InodeSlot) : Prop :=
  (s.inode i).dev = (s.inode j).dev ∧ (s.inode i).inum = (s.inode j).inum

/-- The entry has been stored to since the last iupdate(), in the field `mode`. -/
def ModeStored (s : Cache V) (ip : InodeSlot) : Prop := ∃ v, s.lock ip = some (v, .mode)

/-- A loaded entry agrees with the disk. -/
structure Agrees (s : Cache V) (ip : InodeSlot) : Prop where
  allocated : (s.inode ip).type ≠ 0
  type : (s.dinode ip).type = (s.inode ip).type
  mode : ¬ s.ModeStored ip → (s.dinode ip).mode = (s.inode ip).mode

structure Coherent [Fintype V] (s : Cache V) : Prop where
  counted : ∀ ip, (s.inode ip).ref = (refs (fun v => (s.var v).slot) ip : Int)
  unique : ∀ i j, s.Live i → s.Live j → s.SameInode i j → i = j
  owned : ∀ ip v phase, s.lock ip = some (v, phase) →
    s.var v = .to ip ∧ (s.inode ip).valid = true
  agrees : ∀ ip, s.Live ip → (s.inode ip).valid = true → s.Agrees ip

end Cache

/-! ## iget() -/

/-- iget() finds the entry of the inode, or takes one that is not in use. -/
theorem iget_cases {c next : Icache} {dev inum : Word} {ip : InodeSlot}
    (got : c.iget dev inum = some (ip, next)) :
    ((c.inode ip).ref > 0 ∧ (c.inode ip).dev = dev ∧ (c.inode ip).inum = inum ∧
        next = c.idup ip) ∨
      ((∀ j, (c.inode j).ref > 0 → ¬((c.inode j).dev = dev ∧ (c.inode j).inum = inum)) ∧
        (c.inode ip).ref = 0 ∧
        next = c.set ip
          { c.inode ip with dev := dev, inum := inum, ref := 1, valid := false, mode := 7 }) := by
  unfold Icache.iget at got
  split at got
  · rename_i j hit
    cases got
    have found := List.find?_some hit
    have here := of_decide_eq_true found
    exact Or.inl ⟨here.1, here.2.1, here.2.2, rfl⟩
  · rename_i miss
    obtain ⟨j, vacant, same⟩ := Option.map_eq_some_iff.mp got
    cases same
    have unused : (c.inode ip).ref = 0 := by
      simpa using List.find?_some vacant
    refine Or.inr ⟨?_, unused, rfl⟩
    intro j used here
    have absent := List.find?_eq_none.mp miss j (List.mem_finRange j)
    exact absent (decide_eq_true ⟨used, here.1, here.2⟩)

/-- ilock() uses what is loaded, or loads an allocated inode. -/
theorem ilock_cases {c next : Icache} {ip : InodeSlot} (locked : c.ilock ip = some next) :
    ((c.inode ip).valid = true ∧ next = c) ∨
      ((c.inode ip).valid = false ∧ (c.disk (c.inode ip).dev (c.inode ip).inum).type ≠ 0 ∧
        next = c.set ip
          { c.inode ip with
            type := (c.disk (c.inode ip).dev (c.inode ip).inum).type
            nlink := (c.disk (c.inode ip).dev (c.inode ip).inum).nlink
            mode := (c.disk (c.inode ip).dev (c.inode ip).inum).mode
            valid := true }) := by
  unfold Icache.ilock at locked
  dsimp only at locked
  split at locked
  · cases locked
  · split at locked
    · rename_i valid
      cases locked
      exact Or.inl ⟨valid, rfl⟩
    · rename_i unloaded
      split at locked
      · cases locked
      · rename_i allocated
        cases locked
        exact Or.inr ⟨Bool.eq_false_iff.mpr unloaded, allocated, rfl⟩

/-- What ialloc() writes, and the iget() that it ends with. -/
theorem ialloc_some [DecidableEq V] {s next : Cache V} {v : V} {dev : Word} {type : Int}
    (allocated : s.ialloc v dev type = some next) :
    ∃ inum, (s.icache.disk dev inum).type = 0 ∧ type ≠ 0 ∧
      { s with icache := s.icache.write dev inum { type := type, nlink := 0, mode := 7 } }.iget
        v dev inum = some next := by
  unfold Cache.ialloc at allocated
  split at allocated
  · rename_i ready
    obtain ⟨got, found, same⟩ := Option.map_eq_some_iff.mp allocated
    unfold Icache.ialloc at found
    split at found
    · cases found
    · rename_i inum hit
      refine ⟨BitVec.ofNat 32 inum, ?_, ready.2, ?_⟩
      · simpa using List.find?_some hit
      · unfold Cache.iget
        rw [if_pos ready.1]
        dsimp only at found ⊢
        rw [found, Option.map_some, same]
  · cases allocated

/-- The part of iput() that frees an inode, in one store and one write. -/
theorem free_eq (c : Icache) (ip : InodeSlot) :
    c.free ip =
      (c.set ip { c.inode ip with type := 0, valid := false }).write (c.inode ip).dev
        (c.inode ip).inum
        { type := 0, nlink := (c.inode ip).nlink, mode := (c.inode ip).mode } := by
  simp [Icache.free, Icache.iupdate, Icache.set, Icache.write]

section Kept
variable [Fintype V]

namespace Cache.Coherent

/-- An entry that a variable points to is in use. -/
theorem live {s : Cache V} (h : s.Coherent) {v : V} {ip : InodeSlot}
    (points : (s.var v).slot = some ip) : s.Live ip := by
  have positive : 0 < refs (fun v => (s.var v).slot) ip := refs_pos points
  have counted := h.counted ip
  unfold Cache.Live
  omega

/-- A step that changes one entry, what variables point to it, and on disk no
inode of another loaded entry. -/
theorem change {s next : Cache V} (h : s.Coherent) (ip : InodeSlot)
    (elsewhere : ∀ j, j ≠ ip → next.inode j = s.inode j ∧ next.lock j = s.lock j)
    (counted : ∀ j, (next.inode j).ref = (refs (fun v => (next.var v).slot) j : Int))
    (alone : next.Live ip → ∀ j, j ≠ ip → s.Live j →
      ¬((next.inode ip).dev = (s.inode j).dev ∧ (next.inode ip).inum = (s.inode j).inum))
    (disk : ∀ j, j ≠ ip → s.Live j → (s.inode j).valid = true →
      next.icache.disk (s.inode j).dev (s.inode j).inum = s.dinode j)
    (vars : ∀ v j, j ≠ ip → s.var v = .to j → next.var v = .to j)
    (owned : ∀ v phase, next.lock ip = some (v, phase) →
      next.var v = .to ip ∧ (next.inode ip).valid = true)
    (agrees : next.Live ip → (next.inode ip).valid = true → next.Agrees ip) :
    next.Coherent := by
  have alive : ∀ j, j ≠ ip → next.Live j → s.Live j := by
    intro j there used
    unfold Cache.Live at used ⊢
    rwa [(elsewhere j there).1] at used
  constructor
  case counted => exact counted
  case unique =>
    intro i j first second same
    by_cases left : i = ip
    · by_cases right : j = ip
      · rw [left, right]
      · subst left
        unfold Cache.SameInode at same
        rw [(elsewhere j right).1] at same
        exact absurd same (alone first j right (alive j right second))
    · by_cases right : j = ip
      · subst right
        unfold Cache.SameInode at same
        rw [(elsewhere i left).1] at same
        exact absurd ⟨same.1.symm, same.2.symm⟩ (alone second i left (alive i left first))
      · apply h.unique i j (alive i left first) (alive j right second)
        unfold Cache.SameInode at same ⊢
        rwa [(elsewhere i left).1, (elsewhere j right).1] at same
  case owned =>
    intro j v phase owner
    by_cases here : j = ip
    · subst here
      exact owned v phase owner
    · rw [(elsewhere j here).2] at owner
      obtain ⟨points, valid⟩ := h.owned j v phase owner
      rw [(elsewhere j here).1]
      exact ⟨vars v j here points, valid⟩
  case agrees =>
    intro j used valid
    by_cases here : j = ip
    · subst here
      exact agrees used valid
    · have inode := (elsewhere j here).1
      rw [inode] at valid
      have before := h.agrees j (alive j here used) valid
      have dinode : next.dinode j = s.dinode j := by
        unfold Cache.dinode
        rw [inode]
        exact disk j here (alive j here used) valid
      refine ⟨inode ▸ before.allocated, ?_, ?_⟩
      · rw [dinode, inode]
        exact before.type
      · intro clean
        rw [dinode, inode]
        apply before.mode
        unfold Cache.ModeStored at clean ⊢
        rwa [(elsewhere j here).2] at clean

/-- A step that keeps every reference and changes one entry in use. -/
theorem onSlot {s next : Cache V} (h : s.Coherent) (ip : InodeSlot) (used : s.Live ip)
    (elsewhere : ∀ j, j ≠ ip → next.inode j = s.inode j ∧ next.lock j = s.lock j)
    (dev : (next.inode ip).dev = (s.inode ip).dev)
    (inum : (next.inode ip).inum = (s.inode ip).inum)
    (ref : (next.inode ip).ref = (s.inode ip).ref)
    (disk : ∀ d n, ¬(d = (s.inode ip).dev ∧ n = (s.inode ip).inum) →
      next.icache.disk d n = s.icache.disk d n)
    (slots : ∀ v, (next.var v).slot = (s.var v).slot)
    (vars : ∀ v j, j ≠ ip → s.var v = .to j → next.var v = .to j)
    (owned : ∀ v phase, next.lock ip = some (v, phase) →
      next.var v = .to ip ∧ (next.inode ip).valid = true)
    (agrees : (next.inode ip).valid = true → next.Agrees ip) : next.Coherent := by
  have apart : ∀ j, j ≠ ip → s.Live j →
      ¬((s.inode ip).dev = (s.inode j).dev ∧ (s.inode ip).inum = (s.inode j).inum) :=
    fun j there live same => there (h.unique ip j used live same).symm
  apply h.change ip elsewhere
  case counted =>
    intro j
    simp only [slots]
    rw [← h.counted j]
    by_cases here : j = ip
    · subst here
      exact ref
    · rw [(elsewhere j here).1]
  case alone =>
    intro _ j there live
    rw [dev, inum]
    exact apart j there live
  case disk =>
    intro j there live _
    apply disk
    intro same
    exact apart j there live ⟨same.1.symm, same.2.symm⟩
  case vars => exact vars
  case owned => exact owned
  case agrees => exact fun _ => agrees

/-- A store to the entry that a variable points to, and to its lock. -/
theorem store {s : Cache V} (h : s.Coherent) {v : V} {ip : InodeSlot} (points : s.var v = .to ip)
    (x : Inode) (owner : Option (V × Phase)) (dev : x.dev = (s.inode ip).dev)
    (inum : x.inum = (s.inode ip).inum) (ref : x.ref = (s.inode ip).ref)
    (owned : ∀ w phase, owner = some (w, phase) → w = v ∧ x.valid = true)
    (agrees : x.valid = true → x.type ≠ 0 ∧ (s.dinode ip).type = x.type ∧
      ((∀ w, owner ≠ some (w, .mode)) → (s.dinode ip).mode = x.mode)) :
    ({ s with icache := s.icache.set ip x }.setLock ip owner).Coherent := by
  have inode : ∀ j, ({ s with icache := s.icache.set ip x }.setLock ip owner).inode j =
      if j = ip then x else s.inode j :=
    fun j => set_inode s.icache ip j x
  have lock : ∀ j, ({ s with icache := s.icache.set ip x }.setLock ip owner).lock j =
      if j = ip then owner else s.lock j :=
    fun j => setLock_lock _ ip j owner
  apply h.onSlot ip (h.live (by rw [points, to_slot]))
  case elsewhere =>
    intro j there
    rw [inode, lock, if_neg there, if_neg there]
    exact ⟨rfl, rfl⟩
  case dev => rwa [inode, if_pos rfl]
  case inum => rwa [inode, if_pos rfl]
  case ref => rwa [inode, if_pos rfl]
  case disk => exact fun d n _ => rfl
  case slots => exact fun w => rfl
  case vars => exact fun w j _ pointed => pointed
  case owned =>
    intro w phase taken
    rw [lock, if_pos rfl] at taken
    obtain ⟨same, valid⟩ := owned w phase taken
    rw [inode, if_pos rfl, same]
    exact ⟨points, valid⟩
  case agrees =>
    intro valid
    rw [inode, if_pos rfl] at valid
    obtain ⟨allocated, type, mode⟩ := agrees valid
    have dinode : ({ s with icache := s.icache.set ip x }.setLock ip owner).dinode ip =
        s.dinode ip := by
      unfold Cache.dinode
      rw [inode, if_pos rfl, dev, inum]
      rfl
    refine ⟨?_, ?_, ?_⟩
    · rwa [inode, if_pos rfl]
    · rwa [dinode, inode, if_pos rfl]
    · intro clean
      rw [dinode, inode, if_pos rfl]
      apply mode
      intro w taken
      apply clean
      refine ⟨w, ?_⟩
      rwa [lock, if_pos rfl]

theorem ilock {s next : Cache V} (h : s.Coherent) {v : V} (locked : s.ilock v = some next) :
    next.Coherent := by
  unfold Cache.ilock at locked
  split at locked
  · rename_i ip points
    split at locked
    · cases locked
    · rename_i unlocked
      obtain ⟨icache, loaded, same⟩ := Option.map_eq_some_iff.mp locked
      subst same
      have used : s.Live ip := h.live (by rw [points, to_slot])
      obtain ⟨valid, same⟩ | ⟨valid, allocated, same⟩ := ilock_cases loaded
      · subst same
        have agrees := h.agrees ip used valid
        have kept : s.icache.set ip (s.inode ip) = s.icache := by
          unfold Icache.set Cache.inode
          rw [Function.update_eq_self]
        rw [← kept]
        apply h.store points (s.inode ip) (some (v, .clean)) rfl rfl rfl
        case owned =>
          intro w phase same
          cases same
          exact ⟨rfl, valid⟩
        case agrees =>
          intro _
          refine ⟨agrees.allocated, agrees.type, ?_⟩
          intro _
          apply agrees.mode
          rintro ⟨w, owner⟩
          rw [unlocked] at owner
          cases owner
      · subst same
        refine h.store points _ (some (v, .clean)) ?dev ?inum ?ref ?owned ?agrees
        case dev => rfl
        case inum => rfl
        case ref => rfl
        case owned =>
          intro w phase same
          cases same
          exact ⟨rfl, rfl⟩
        case agrees => exact fun _ => ⟨allocated, rfl, fun _ => rfl⟩
  · cases locked

end Cache.Coherent

/-! ## The counts after a change of one variable -/

variable [DecidableEq V]

omit [Fintype V] in
theorem slots_point (s : Cache V) (v : V) (p : Pointer) :
    (fun w => ((s.point v p).var w).slot) =
      Function.update (fun w => (s.var w).slot) v p.slot := by
  funext w
  rw [point_var, Function.update_apply]
  split <;> rfl

theorem refs_point (s : Cache V) (v : V) (p : Pointer) (j : InodeSlot) :
    refs (fun w => ((s.point v p).var w).slot) j + (if (s.var v).slot = some j then 1 else 0) =
      refs (fun w => (s.var w).slot) j + (if p.slot = some j then 1 else 0) := by
  rw [slots_point]
  exact refs_update (fun w => (s.var w).slot) v p.slot j

/-! ## The operations keep the invariant -/

namespace Cache.Coherent

/-- One more reference to an entry in use. -/
theorem take {s : Cache V} (h : s.Coherent) {v : V} {ip : InodeSlot} (used : s.Live ip)
    (unset : s.var v = .null) :
    ({ s with icache := s.icache.idup ip }.point v (.to ip)).Coherent := by
  have inode : ∀ j, ({ s with icache := s.icache.idup ip }.point v (.to ip)).inode j =
      if j = ip then { s.inode ip with ref := (s.inode ip).ref + 1 } else s.inode j :=
    fun j => set_inode s.icache ip j _
  apply h.change ip
  case elsewhere =>
    intro j there
    rw [inode, if_neg there]
    exact ⟨rfl, rfl⟩
  case counted =>
    intro j
    have moved := refs_point { s with icache := s.icache.idup ip } v (.to ip) j
    have before := h.counted j
    rw [inode]
    simp only [unset, null_slot, to_slot, Option.some.injEq, reduceCtorEq, if_false] at moved
    by_cases here : j = ip
    · subst here
      simp only [if_true] at moved ⊢
      omega
    · rw [if_neg here]
      rw [if_neg (fun same => here same.symm)] at moved
      omega
  case alone =>
    intro _ j there live same
    rw [inode, if_pos rfl] at same
    exact there (h.unique ip j used live same).symm
  case disk => exact fun j _ _ _ => rfl
  case vars =>
    intro w j there points
    rw [point_var]
    split
    · rename_i here
      rw [here, unset] at points
      cases points
    · exact points
  case owned =>
    intro w phase owner
    obtain ⟨points, valid⟩ := h.owned ip w phase owner
    rw [inode, if_pos rfl, point_var]
    refine ⟨?_, valid⟩
    split
    · rfl
    · exact points
  case agrees =>
    intro _ valid
    rw [inode, if_pos rfl] at valid
    obtain ⟨allocated, type, mode⟩ := h.agrees ip used valid
    constructor
    all_goals
      simp only [Cache.dinode, inode, if_true]
      assumption

/-- An entry that is not in use becomes that of another inode. -/
theorem recycle {s : Cache V} (h : s.Coherent) {v : V} {ip : InodeSlot} (x : Inode)
    (unused : (s.inode ip).ref = 0) (unset : s.var v = .null)
    (ref : x.ref = 1) (unloaded : x.valid = false)
    (absent : ∀ j, s.Live j → ¬((s.inode j).dev = x.dev ∧ (s.inode j).inum = x.inum)) :
    ({ s with icache := s.icache.set ip x }.point v (.to ip)).Coherent := by
  have inode : ∀ j, ({ s with icache := s.icache.set ip x }.point v (.to ip)).inode j =
      if j = ip then x else s.inode j :=
    fun j => set_inode s.icache ip j x
  have unpointed : ∀ w, s.var w ≠ .to ip := by
    intro w points
    have used : s.Live ip := h.live (v := w) (by rw [points, to_slot])
    unfold Cache.Live at used
    omega
  apply h.change ip
  case elsewhere =>
    intro j there
    rw [inode, if_neg there]
    exact ⟨rfl, rfl⟩
  case counted =>
    intro j
    have moved := refs_point { s with icache := s.icache.set ip x } v (.to ip) j
    have before := h.counted j
    rw [inode]
    simp only [unset, null_slot, to_slot, Option.some.injEq, reduceCtorEq, if_false] at moved
    by_cases here : j = ip
    · subst here
      simp only [if_true] at moved ⊢
      omega
    · rw [if_neg here]
      rw [if_neg (fun same => here same.symm)] at moved
      omega
  case alone =>
    intro _ j there live same
    rw [inode, if_pos rfl] at same
    exact absent j live ⟨same.1.symm, same.2.symm⟩
  case disk => exact fun j _ _ _ => rfl
  case vars =>
    intro w j there points
    rw [point_var]
    split
    · rename_i here
      rw [here, unset] at points
      cases points
    · exact points
  case owned =>
    intro w phase owner
    exact absurd (h.owned ip w phase owner).1 (unpointed w)
  case agrees =>
    intro _ valid
    rw [inode, if_pos rfl, unloaded] at valid
    cases valid

theorem iget {s next : Cache V} (h : s.Coherent) {v : V} {dev inum : Word}
    (got : s.iget v dev inum = some next) : next.Coherent := by
  unfold Cache.iget at got
  split at got
  · rename_i unset
    obtain ⟨⟨ip, icache⟩, found, same⟩ := Option.map_eq_some_iff.mp got
    subst same
    obtain ⟨used, _, _, same⟩ | ⟨absent, unused, same⟩ := iget_cases found
    · subst same
      exact h.take used unset
    · subst same
      exact h.recycle _ unused unset rfl rfl absent
  · cases got

theorem idup {s next : Cache V} (h : s.Coherent) {v w : V} (dup : s.idup v w = some next) :
    next.Coherent := by
  unfold Cache.idup at dup
  split at dup
  · rename_i ip points unset
    cases dup
    exact h.take (h.live (by rw [points, to_slot])) unset
  · cases dup

theorem move {s next : Cache V} (h : s.Coherent) {v w : V} (moved : s.move v w = some next) :
    next.Coherent := by
  unfold Cache.move at moved
  split at moved
  · rename_i ip found unset
    cases moved
    obtain ⟨points, unowned⟩ := free_some found
    have apart : w ≠ v := by
      rintro rfl
      rw [points] at unset
      cases unset
    apply h.change ip
    case elsewhere => exact fun j _ => ⟨rfl, rfl⟩
    case counted =>
      intro j
      have first := refs_point s v .null j
      have second := refs_point (s.point v .null) w (.to ip) j
      have unset' : (s.point v .null).var w = .null := by
        rw [point_var, if_neg apart, unset]
      have before := h.counted j
      simp only [points, unset', null_slot, to_slot, Option.some.injEq, reduceCtorEq, if_false]
        at first second
      rw [point_inode, point_inode]
      omega
    case alone =>
      intro used j there live same
      exact there (h.unique ip j used live same).symm
    case disk => exact fun j _ _ _ => rfl
    case vars =>
      intro u j there pointed
      rw [point_var, point_var]
      split
      · rename_i here
        rw [here, unset] at pointed
        cases pointed
      · split
        · rename_i here
          rw [here, points] at pointed
          cases pointed
          exact absurd rfl there
        · exact pointed
    case owned =>
      intro u phase owner
      obtain ⟨pointed, valid⟩ := h.owned ip u phase owner
      refine ⟨?_, valid⟩
      rw [point_var, point_var]
      split
      · rfl
      · split
        · rename_i here
          subst here
          exact absurd owner (unowned phase)
        · exact pointed
    case agrees =>
      intro used valid
      obtain ⟨allocated, type, mode⟩ := h.agrees ip used valid
      exact ⟨allocated, type, mode⟩
  · cases moved

theorem storeLinks {s next : Cache V} (h : s.Coherent) {v : V} {nlink : Int}
    (stored : s.storeLinks v nlink = some next) : next.Coherent := by
  unfold Cache.storeLinks at stored
  split at stored
  · rename_i ip found
    cases stored
    obtain ⟨points, owner⟩ := locked_some.mp found
    obtain ⟨_, valid⟩ := h.owned ip v .clean owner
    have agrees := h.agrees ip (h.live (by rw [points, to_slot])) valid
    refine h.store points _ (some (v, .links)) ?dev ?inum ?ref ?owned ?agrees
    case dev => rfl
    case inum => rfl
    case ref => rfl
    case owned =>
      intro w phase same
      cases same
      exact ⟨rfl, valid⟩
    case agrees =>
      intro _
      refine ⟨agrees.allocated, agrees.type, ?_⟩
      intro _
      apply agrees.mode
      rintro ⟨w, other⟩
      rw [owner] at other
      cases other
  · cases stored

theorem storeMode {s next : Cache V} (h : s.Coherent) {v : V} {mode : Word}
    (stored : s.storeMode v mode = some next) : next.Coherent := by
  unfold Cache.storeMode at stored
  split at stored
  · rename_i ip found
    cases stored
    obtain ⟨points, owner⟩ := locked_some.mp found
    obtain ⟨_, valid⟩ := h.owned ip v .clean owner
    have agrees := h.agrees ip (h.live (by rw [points, to_slot])) valid
    refine h.store points _ (some (v, .mode)) ?dev ?inum ?ref ?owned ?agrees
    case dev => rfl
    case inum => rfl
    case ref => rfl
    case owned =>
      intro w phase same
      cases same
      exact ⟨rfl, valid⟩
    case agrees =>
      intro _
      refine ⟨agrees.allocated, agrees.type, ?_⟩
      intro clean
      exact absurd rfl (clean v)
  · cases stored

theorem iunlock {s next : Cache V} (h : s.Coherent) {v : V}
    (unlocked : s.iunlock v = some next) : next.Coherent := by
  unfold Cache.iunlock at unlocked
  split at unlocked
  · rename_i ip found
    cases unlocked
    obtain ⟨points, owner⟩ := locked_some.mp found
    have agrees := h.agrees ip (h.live (by rw [points, to_slot]))
    have kept : s.icache.set ip (s.inode ip) = s.icache := by
      unfold Icache.set Cache.inode
      rw [Function.update_eq_self]
    have same : s.setLock ip none =
        { s with icache := s.icache.set ip (s.inode ip) }.setLock ip none := by
      rw [kept]
    rw [same]
    apply h.store points (s.inode ip) none rfl rfl rfl
    case owned =>
      intro w phase taken
      cases taken
    case agrees =>
      intro valid
      refine ⟨(agrees valid).allocated, (agrees valid).type, ?_⟩
      intro _
      apply (agrees valid).mode
      rintro ⟨w, other⟩
      rw [owner] at other
      cases other
  · cases unlocked

theorem iupdate {s next : Cache V} (h : s.Coherent) {v : V}
    (updated : s.iupdate v = some next) : next.Coherent := by
  unfold Cache.iupdate at updated
  obtain ⟨⟨ip, phase⟩, found, same⟩ := Option.map_eq_some_iff.mp updated
  subst same
  obtain ⟨points, owner⟩ := locked_some.mp found
  obtain ⟨_, valid⟩ := h.owned ip v phase owner
  have used : s.Live ip := h.live (by rw [points, to_slot])
  apply h.onSlot ip used
  case elsewhere =>
    intro j there
    rw [setLock_lock, if_neg there]
    exact ⟨rfl, rfl⟩
  case dev => rfl
  case inum => rfl
  case ref => rfl
  case disk =>
    intro d n other
    exact (write_disk s.icache d n _ _ _).trans (if_neg other)
  case slots => exact fun w => rfl
  case vars => exact fun w j _ pointed => pointed
  case owned =>
    intro w phase taken
    rw [setLock_lock, if_pos rfl] at taken
    cases taken
    exact ⟨points, valid⟩
  case agrees =>
    intro _
    have written : ({ s with icache := s.icache.iupdate ip }.setLock ip
        (some (v, .clean))).dinode ip =
        { type := (s.inode ip).type, nlink := (s.inode ip).nlink, mode := (s.inode ip).mode } :=
      (write_disk s.icache _ _ _ _ _).trans (if_pos ⟨rfl, rfl⟩)
    refine ⟨(h.agrees ip used valid).allocated, ?_, ?_⟩
    · rw [written]
      rfl
    · intro _
      rw [written]
      rfl

theorem iput {s next : Cache V} (h : s.Coherent) {v : V} (put : s.iput v = some next) :
    next.Coherent := by
  unfold Cache.iput at put
  split at put
  · rename_i ip points
    split at put
    · cases put
    · rename_i unlocked
      cases put
      have used : s.Live ip := h.live (by rw [points, to_slot])
      have inode : ∀ j, ((if s.Last ip then s.icache.free ip else s.icache).inode j) =
          if j = ip ∧ s.Last ip then { s.inode ip with type := 0, valid := false }
          else s.inode j := by
        intro j
        split
        · rename_i last
          rw [free_eq, write_inode, set_inode]
          simp [last]
        · rename_i more
          simp [more]
      apply h.onSlot ip used
      case elsewhere =>
        intro j there
        refine ⟨?_, rfl⟩
        rw [point_inode, mk_inode, inode]
        simp [there]
      case dev =>
        rw [point_inode, mk_inode, inode]
        split <;> rfl
      case inum =>
        rw [point_inode, mk_inode, inode]
        split <;> rfl
      case ref =>
        rw [point_inode, mk_inode, inode]
        split <;> rfl
      case disk =>
        intro d n other
        rw [point_icache]
        dsimp only
        split
        · rw [free_eq]
          exact (write_disk _ d n _ _ _).trans (if_neg other)
        · rfl
      case slots =>
        intro w
        rw [point_var]
        split
        · rename_i here
          rw [here, points]
          rfl
        · rfl
      case vars =>
        intro w j there pointed
        rw [point_var]
        split
        · rename_i here
          rw [here, points] at pointed
          cases pointed
          exact absurd rfl there
        · exact pointed
      case owned =>
        intro w phase owner
        rw [point_lock, unlocked] at owner
        cases owner
      case agrees =>
        intro valid
        rw [point_inode, mk_inode, inode] at valid
        by_cases last : s.Last ip
        · rw [if_pos ⟨rfl, last⟩] at valid
          cases valid
        · rw [if_neg (fun both => last both.2)] at valid
          obtain ⟨allocated, type, mode⟩ := h.agrees ip used valid
          simp only [last, if_false]
          exact ⟨allocated, type, mode⟩
  · cases put

/-- One reference fewer to an entry. -/
theorem release {s : Cache V} (h : s.Coherent) {v : V} {ip : InodeSlot}
    (points : s.var v = .putting ip) (x : Inode) (dev : x.dev = (s.inode ip).dev)
    (inum : x.inum = (s.inode ip).inum) (ref : x.ref = (s.inode ip).ref - 1)
    (loaded : x.valid = (s.inode ip).valid) (type : x.type = (s.inode ip).type)
    (mode : x.mode = (s.inode ip).mode) :
    ({ s with icache := s.icache.set ip x }.point v .null).Coherent := by
  have used : s.Live ip := h.live (by rw [points, putting_slot])
  have inode : ∀ j, ({ s with icache := s.icache.set ip x }.point v .null).inode j =
      if j = ip then x else s.inode j :=
    fun j => set_inode s.icache ip j x
  have pointers : ∀ w j, s.var w = .to j →
      ({ s with icache := s.icache.set ip x }.point v .null).var w = .to j := by
    intro w j pointed
    rw [point_var]
    split
    · rename_i here
      rw [here, points] at pointed
      cases pointed
    · exact pointed
  apply h.change ip
  case elsewhere =>
    intro j there
    rw [inode, if_neg there]
    exact ⟨rfl, rfl⟩
  case counted =>
    intro j
    have moved := refs_point { s with icache := s.icache.set ip x } v .null j
    have before := h.counted j
    rw [inode]
    simp only [points, null_slot, putting_slot, Option.some.injEq, reduceCtorEq, if_false]
      at moved
    by_cases here : j = ip
    · subst here
      simp only [if_true] at moved ⊢
      omega
    · rw [if_neg here]
      rw [if_neg (fun same => here same.symm)] at moved
      omega
  case alone =>
    intro _ j there live same
    rw [inode, if_pos rfl, dev, inum] at same
    exact there (h.unique ip j used live same).symm
  case disk => exact fun j _ _ _ => rfl
  case vars => exact fun w j _ => pointers w j
  case owned =>
    intro w phase owner
    obtain ⟨pointed, valid⟩ := h.owned ip w phase owner
    rw [inode, if_pos rfl, loaded]
    exact ⟨pointers w ip pointed, valid⟩
  case agrees =>
    intro _ valid
    rw [inode, if_pos rfl, loaded] at valid
    have agrees := h.agrees ip used valid
    have dinode : ({ s with icache := s.icache.set ip x }.point v .null).dinode ip =
        s.dinode ip := by
      unfold Cache.dinode
      rw [inode, if_pos rfl, dev, inum]
      rfl
    refine ⟨?_, ?_, ?_⟩
    · rw [inode, if_pos rfl, type]
      exact agrees.allocated
    · rw [dinode, inode, if_pos rfl, type]
      exact agrees.type
    · rw [dinode, inode, if_pos rfl, mode]
      exact agrees.mode

theorem putEnd {s next : Cache V} (h : s.Coherent) {v : V} (put : s.putEnd v = some next) :
    next.Coherent := by
  unfold Cache.putEnd at put
  split at put
  · rename_i ip points
    cases put
    refine h.release points _ ?_ ?_ ?_ ?_ ?_ ?_
    all_goals rfl
  · cases put

omit [DecidableEq V] in
/-- A write to an inode on disk that no loaded entry is for. -/
theorem write {s : Cache V} (h : s.Coherent) {dev inum : Word} (y : Dinode)
    (unallocated : (s.icache.disk dev inum).type = 0) :
    { s with icache := s.icache.write dev inum y }.Coherent := by
  constructor
  case counted => exact h.counted
  case unique => exact h.unique
  case owned => exact h.owned
  case agrees =>
    intro ip used valid
    have agrees := h.agrees ip used valid
    have other : ¬((s.inode ip).dev = dev ∧ (s.inode ip).inum = inum) := by
      rintro ⟨rfl, rfl⟩
      exact agrees.allocated (agrees.type.symm.trans unallocated)
    have dinode : { s with icache := s.icache.write dev inum y }.dinode ip = s.dinode ip :=
      (write_disk s.icache _ _ dev inum y).trans (if_neg other)
    refine ⟨agrees.allocated, ?_, ?_⟩
    · rw [dinode]
      exact agrees.type
    · rw [dinode]
      exact agrees.mode

theorem ialloc {s next : Cache V} (h : s.Coherent) {v : V} {dev : Word} {type : Int}
    (allocated : s.ialloc v dev type = some next) : next.Coherent := by
  obtain ⟨inum, unallocated, _, got⟩ := ialloc_some allocated
  exact (h.write _ unallocated).iget got

theorem create {s next : Cache V} (h : s.Coherent) {v : V} {dev : Word} {type : Int}
    (created : s.create v dev type = some next) : next.Coherent := by
  unfold Cache.create at created
  obtain ⟨s₁, allocated, created⟩ := Option.bind_eq_some_iff.mp created
  obtain ⟨s₂, locked, created⟩ := Option.bind_eq_some_iff.mp created
  obtain ⟨s₃, stored, updated⟩ := Option.bind_eq_some_iff.mp created
  exact (((h.ialloc allocated).ilock locked).storeLinks stored).iupdate updated

/-- Every step keeps the invariant. -/
theorem step {s next : Cache V} (h : s.Coherent) (e : Event V)
    (taken : InodeCache.step s e = some next) : next.Coherent := by
  cases e with
  | iget v dev inum => exact h.iget taken
  | idup v w => exact h.idup taken
  | move v w => exact h.move taken
  | ilock v => exact h.ilock taken
  | storeLinks v nlink => exact h.storeLinks taken
  | storeMode v mode => exact h.storeMode taken
  | iupdate v => exact h.iupdate taken
  | iunlock v => exact h.iunlock taken
  | iput v => exact h.iput taken
  | putEnd v => exact h.putEnd taken
  | create v dev type => exact h.create taken

end Cache.Coherent

omit [DecidableEq V] in
theorem boot_coherent (disk : Word → Word → Dinode) : (boot disk : Cache V).Coherent := by
  constructor
  case counted =>
    intro ip
    exact congrArg Int.ofNat (refs_none ip).symm
  case unique =>
    intro i j used
    exact absurd used (Int.lt_irrefl 0)
  case owned =>
    intro ip v phase owner
    cases owner
  case agrees =>
    intro ip used
    exact absurd used (Int.lt_irrefl 0)

end Kept

end Xv6.Public1.InodeCache
