import Xv6.Public1.CacheCoherence

/-!
# What a step of the inode cache leaves alone (xv6-public_1)

An entry that a variable refers to stays loaded, keeps its mode and its lock
while other variables are used, whatever is done with them, unless a mode is
stored.
-/

set_option autoImplicit false

namespace Xv6.Public1.InodeCache

open Xv6.Lib
open Xv6.Lib.Words
open Xv6.Lib.References (refs two_le_refs)
open Xv6.Common
open Xv6.Public1.Inodes

variable {V : Type}

/-- What a variable says and the entry that it points to are left alone. -/
structure Keep (s next : Cache V) (v : V) : Prop where
  var : next.var v = s.var v
  valid : ∀ ip, s.var v = .to ip → (s.inode ip).valid = true → (next.inode ip).valid = true
  mode : ∀ ip, s.var v = .to ip → (s.inode ip).valid = true →
    (next.inode ip).mode = (s.inode ip).mode

/-- And so is a lock that is held through it. -/
structure Frame (s next : Cache V) (v : V) : Prop extends Keep s next v where
  lock : ∀ ip phase, s.lock ip = some (v, phase) → next.lock ip = some (v, phase)

theorem Keep.of_same {s next : Cache V} {v : V} (var : next.var v = s.var v)
    (inode : next.inode = s.inode) : Keep s next v := by
  constructor
  case var => exact var
  case valid =>
    intro ip _ valid
    rw [inode, valid]
  case mode =>
    intro ip _ _
    rw [inode]

theorem Keep.trans {s t u : Cache V} {v : V} (first : Keep s t v) (second : Keep t u v) :
    Keep s u v := by
  constructor
  case var => exact second.var.trans first.var
  case valid =>
    intro ip points valid
    exact second.valid ip (first.var.trans points) (first.valid ip points valid)
  case mode =>
    intro ip points valid
    rw [second.mode ip (first.var.trans points) (first.valid ip points valid),
      first.mode ip points valid]

theorem Frame.trans {s t u : Cache V} {v : V} (first : Frame s t v) (second : Frame t u v) :
    Frame s u v := by
  refine ⟨first.toKeep.trans second.toKeep, ?_⟩
  exact fun ip phase owner => second.lock ip phase (first.lock ip phase owner)

/-- A step that changes no lock and no field that matters here. -/
theorem Frame.of_same {s next : Cache V} {v : V} (var : next.var v = s.var v)
    (inode : ∀ ip, s.var v = .to ip → (next.inode ip).valid = (s.inode ip).valid ∧
      (next.inode ip).mode = (s.inode ip).mode)
    (lock : ∀ ip phase, s.lock ip = some (v, phase) → next.lock ip = some (v, phase)) :
    Frame s next v := by
  refine ⟨⟨var, ?_, ?_⟩, lock⟩
  · intro ip points valid
    rw [(inode ip points).1, valid]
  · exact fun ip points _ => (inode ip points).2

variable [DecidableEq V]

theorem iunlock_same {s next : Cache V} {v : V} (unlocked : s.iunlock v = some next) :
    next.inode = s.inode ∧ next.var = s.var := by
  unfold Cache.iunlock at unlocked
  split at unlocked
  · cases unlocked
    exact ⟨rfl, rfl⟩
  · cases unlocked

theorem iunlock_owner {s next : Cache V} {v : V} {ip : InodeSlot}
    (unlocked : s.iunlock v = some next) (points : next.var v = .to ip) :
    ∃ phase, s.lock ip = some (v, phase) := by
  unfold Cache.iunlock at unlocked
  split at unlocked
  · rename_i j found
    cases unlocked
    obtain ⟨pointed, owner⟩ := locked_some.mp found
    rw [setLock_var, pointed] at points
    cases points
    exact ⟨.clean, owner⟩
  · cases unlocked

theorem iupdate_same {s next : Cache V} {v : V} (updated : s.iupdate v = some next) :
    next.inode = s.inode ∧ next.var = s.var := by
  unfold Cache.iupdate at updated
  obtain ⟨_, _, same⟩ := Option.map_eq_some_iff.mp updated
  subst same
  exact ⟨rfl, rfl⟩

theorem move_some {s next : Cache V} {v w : V} (moved : s.move v w = some next) :
    ∃ ip, s.var v = .to ip ∧ next.var v = .null ∧ next.var w = .to ip ∧
      next.inode = s.inode := by
  unfold Cache.move at moved
  split at moved
  · rename_i ip found unset
    cases moved
    obtain ⟨points, _⟩ := free_some found
    refine ⟨ip, points, ?_, ?_, rfl⟩
    · rw [point_var, point_var, if_pos rfl, if_neg]
      rintro rfl
      rw [points] at unset
      cases unset
    · rw [point_var, if_pos rfl]
  · cases moved

/-- What a stored mode changes. -/
theorem storeMode_some {s next : Cache V} {v : V} {mode : Word}
    (stored : s.storeMode v mode = some next) :
    ∃ ip, s.locked v = some (ip, .clean) ∧ next.var = s.var ∧
      next.inode ip = { s.inode ip with mode := mode } ∧
      ∀ j, j ≠ ip → next.inode j = s.inode j ∧ next.lock j = s.lock j := by
  unfold Cache.storeMode at stored
  split at stored
  · rename_i ip found
    cases stored
    refine ⟨ip, found, rfl, ?_, ?_⟩
    · rw [setLock_inode, mk_inode, set_inode, if_pos rfl]
    · intro j there
      rw [setLock_inode, mk_inode, set_inode, setLock_lock, if_neg there, if_neg there]
      exact ⟨rfl, rfl⟩
  · cases stored

namespace Frame

theorem idup {s next : Cache V} {u v w : V} (dup : s.idup v w = some next) (other : u ≠ w) :
    Frame s next u := by
  unfold Cache.idup at dup
  split at dup
  · rename_i ip points unset
    cases dup
    apply Frame.of_same
    case var => rw [point_var, if_neg other]
    case inode =>
      intro j _
      rw [point_inode, mk_inode, Icache.idup, set_inode]
      split
      · rename_i here
        subst here
        exact ⟨rfl, rfl⟩
      · exact ⟨rfl, rfl⟩
    case lock => exact fun _ _ owner => owner
  · cases dup

theorem move {s next : Cache V} {u v w : V} (moved : s.move v w = some next)
    (first : u ≠ v) (second : u ≠ w) : Frame s next u := by
  unfold Cache.move at moved
  split at moved
  · cases moved
    apply Frame.of_same
    case var => rw [point_var, if_neg second, point_var, if_neg first]
    case inode => exact fun _ _ => ⟨rfl, rfl⟩
    case lock => exact fun _ _ owner => owner
  · cases moved

/-- A step under the lock of another variable that stores to `nlink` alone. -/
theorem relock {s : Cache V} {u v : V} {ip : InodeSlot} {phase : Phase}
    (found : s.locked v = some (ip, phase)) (other : u ≠ v) (x : Inode)
    (valid : x.valid = (s.inode ip).valid) (mode : x.mode = (s.inode ip).mode)
    (owner : Option (V × Phase)) :
    Frame s ({ s with icache := s.icache.set ip x }.setLock ip owner) u := by
  apply Frame.of_same
  case var => rfl
  case inode =>
    intro j _
    rw [setLock_inode, mk_inode, set_inode]
    split
    · rename_i here
      subst here
      exact ⟨valid, mode⟩
    · exact ⟨rfl, rfl⟩
  case lock =>
    intro j taken held
    rw [setLock_lock]
    split
    · rename_i here
      subst here
      rw [(locked_some.mp found).2] at held
      cases held
      exact absurd rfl other
    · exact held

theorem storeLinks {s next : Cache V} {u v : V} {nlink : Int}
    (stored : s.storeLinks v nlink = some next) (other : u ≠ v) : Frame s next u := by
  unfold Cache.storeLinks at stored
  split at stored
  · rename_i ip found
    cases stored
    refine relock found other _ ?_ ?_ _
    · rfl
    · rfl
  · cases stored

theorem iupdate {s next : Cache V} {u v : V} (updated : s.iupdate v = some next)
    (other : u ≠ v) : Frame s next u := by
  unfold Cache.iupdate at updated
  obtain ⟨⟨ip, phase⟩, found, same⟩ := Option.map_eq_some_iff.mp updated
  subst same
  apply Frame.of_same
  case var => rfl
  case inode => exact fun _ _ => ⟨rfl, rfl⟩
  case lock =>
    intro j taken held
    rw [setLock_lock]
    split
    · rename_i here
      subst here
      rw [(locked_some.mp found).2] at held
      cases held
      exact absurd rfl other
    · exact held

theorem iunlock {s next : Cache V} {u v : V} (unlocked : s.iunlock v = some next)
    (other : u ≠ v) : Frame s next u := by
  unfold Cache.iunlock at unlocked
  split at unlocked
  · rename_i ip found
    cases unlocked
    apply Frame.of_same
    case var => rfl
    case inode => exact fun _ _ => ⟨rfl, rfl⟩
    case lock =>
      intro j taken held
      rw [setLock_lock]
      split
      · rename_i here
        subst here
        rw [(locked_some.mp found).2] at held
        cases held
        exact absurd rfl other
      · exact held
  · cases unlocked

theorem putEnd {s next : Cache V} {u v : V} (put : s.putEnd v = some next) (other : u ≠ v) :
    Frame s next u := by
  unfold Cache.putEnd at put
  split at put
  · rename_i ip points
    cases put
    apply Frame.of_same
    case var => rw [point_var, if_neg other]
    case inode =>
      intro j _
      rw [point_inode, mk_inode, set_inode]
      split
      · rename_i here
        subst here
        exact ⟨rfl, rfl⟩
      · exact ⟨rfl, rfl⟩
    case lock => exact fun _ _ owner => owner
  · cases put

omit [DecidableEq V] in
theorem ilock {s next : Cache V} {u v : V} (locked : s.ilock v = some next) :
    Frame s next u := by
  unfold Cache.ilock at locked
  split at locked
  · rename_i ip points
    split at locked
    · cases locked
    · rename_i unlocked
      obtain ⟨icache, loaded, same⟩ := Option.map_eq_some_iff.mp locked
      subst same
      have inode : ∀ j, (s.inode j).valid = true → icache.inode j = s.inode j := by
        intro j valid
        obtain ⟨_, same⟩ | ⟨unloaded, _, same⟩ := ilock_cases loaded
        · subst same
          rfl
        · subst same
          rw [set_inode]
          split
          · rename_i here
            subst here
            rw [icache_inode, valid] at unloaded
            cases unloaded
          · rfl
      refine ⟨⟨rfl, ?_, ?_⟩, ?_⟩
      · intro j _ valid
        rw [setLock_inode, mk_inode, inode j valid, valid]
      · intro j _ valid
        rw [setLock_inode, mk_inode, inode j valid]
      · intro j taken held
        rw [setLock_lock]
        split
        · rename_i here
          subst here
          rw [unlocked] at held
          cases held
        · exact held
  · cases locked

variable [Fintype V]

theorem iget {s next : Cache V} (h : s.Coherent) {u v : V} {dev inum : Word}
    (got : s.iget v dev inum = some next) (other : u ≠ v) : Frame s next u := by
  unfold Cache.iget at got
  split at got
  · obtain ⟨⟨ip, icache⟩, found, same⟩ := Option.map_eq_some_iff.mp got
    subst same
    apply Frame.of_same
    case var => rw [point_var, if_neg other]
    case inode =>
      intro j points
      have used : s.Live j := h.live (by rw [points, to_slot])
      obtain ⟨_, _, _, same⟩ | ⟨_, unused, same⟩ := iget_cases found
      · subst same
        rw [point_inode, mk_inode, Icache.idup, set_inode]
        split
        · rename_i here
          subst here
          exact ⟨rfl, rfl⟩
        · exact ⟨rfl, rfl⟩
      · subst same
        rw [point_inode, mk_inode, set_inode]
        split
        · rename_i here
          subst here
          unfold Cache.Live at used
          rw [icache_inode] at unused
          omega
        · exact ⟨rfl, rfl⟩
    case lock => exact fun _ _ owner => owner
  · cases got

theorem iput {s next : Cache V} (h : s.Coherent) {u v : V} (put : s.iput v = some next)
    (other : u ≠ v) : Frame s next u := by
  unfold Cache.iput at put
  split at put
  · rename_i ip points
    split at put
    · cases put
    · cases put
      apply Frame.of_same
      case var => rw [point_var, if_neg other]
      case inode =>
        intro j pointed
        rw [point_inode, mk_inode]
        split
        · rename_i last
          rw [free_eq, write_inode, set_inode]
          split
          · rename_i here
            subst here
            -- Two variables refer to the entry, so its counter is not 1.
            have two : 2 ≤ refs (fun w => (s.var w).slot) j :=
              two_le_refs other (by rw [pointed, to_slot]) (by rw [points, to_slot])
            have counted := h.counted j
            have one := last.2.2
            omega
          · exact ⟨rfl, rfl⟩
        · exact ⟨rfl, rfl⟩
      case lock => exact fun _ _ owner => owner
  · cases put

theorem ialloc {s next : Cache V} (h : s.Coherent) {u v : V} {dev : Word} {type : Int}
    (allocated : s.ialloc v dev type = some next) (other : u ≠ v) : Frame s next u := by
  obtain ⟨inum, unallocated, _, got⟩ := ialloc_some allocated
  have written : Frame s
      { s with icache := s.icache.write dev inum { type := type, nlink := 0, mode := 7 } } u := by
    apply Frame.of_same
    case var => rfl
    case inode => exact fun _ _ => ⟨rfl, rfl⟩
    case lock => exact fun _ _ owner => owner
  exact written.trans (Frame.iget (h.write _ unallocated) got other)

theorem create {s next : Cache V} (h : s.Coherent) {u v : V} {dev : Word} {type : Int}
    (created : s.create v dev type = some next) (other : u ≠ v) : Frame s next u := by
  unfold Cache.create at created
  obtain ⟨s₁, allocated, created⟩ := Option.bind_eq_some_iff.mp created
  obtain ⟨s₂, locked, created⟩ := Option.bind_eq_some_iff.mp created
  obtain ⟨s₃, stored, updated⟩ := Option.bind_eq_some_iff.mp created
  exact (((Frame.ialloc h allocated other).trans (Frame.ilock locked)).trans
    (Frame.storeLinks stored other)).trans (Frame.iupdate updated other)

/-- The frame of a step that stores no mode, for a variable that it does not use. -/
theorem step {s next : Cache V} (h : s.Coherent) (e : Event V) (unstored : e.storesMode = false)
    {u : V} (other : u ∉ e.vars) (taken : InodeCache.step s e = some next) :
    Frame s next u := by
  cases e with
  | iget v dev inum => exact Frame.iget h taken (List.ne_of_not_mem_cons other)
  | idup v w =>
      have apart := List.not_mem_of_not_mem_cons other
      exact Frame.idup taken (List.ne_of_not_mem_cons apart)
  | move v w =>
      have apart := List.not_mem_of_not_mem_cons other
      exact Frame.move taken (List.ne_of_not_mem_cons other) (List.ne_of_not_mem_cons apart)
  | ilock v => exact Frame.ilock taken
  | storeLinks v nlink => exact Frame.storeLinks taken (List.ne_of_not_mem_cons other)
  | storeMode v mode => cases unstored
  | iupdate v => exact Frame.iupdate taken (List.ne_of_not_mem_cons other)
  | iunlock v => exact Frame.iunlock taken (List.ne_of_not_mem_cons other)
  | iput v => exact Frame.iput h taken (List.ne_of_not_mem_cons other)
  | putEnd v => exact Frame.putEnd taken (List.ne_of_not_mem_cons other)
  | create v dev type => exact Frame.create h taken (List.ne_of_not_mem_cons other)

end Frame

end Xv6.Public1.InodeCache
