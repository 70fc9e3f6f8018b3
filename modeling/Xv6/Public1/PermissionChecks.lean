import Mathlib.Data.Fintype.Prod
import Mathlib.Data.Fintype.Sum
import Xv6.Public1.CacheFrame
import Xv6.Public1.ModeDurability
import Xv6.Public1.Permissions

/-!
# What the check of the mode is worth (xv6-public_1)

A descriptor keeps its file, the file its inode, and a loaded inode its mode
until a chmod().  So a call that has passed its check uses an inode that still
has the mode, in every run in which no chmod() takes the right away from an
inode that a call is being made on.  Without that condition read() and write()
go on after the chmod(); exec() needs none, because it holds the lock.
-/

set_option autoImplicit false

namespace Xv6.Public1.Permissions

open Xv6.Lib
open Xv6.Lib.Words
open Xv6.Lib.References (refs refs_none refs_update refs_pos two_le_refs)
open Xv6.Common
open Xv6.Public1.Inodes
open Xv6.Public1.InodeCache
open Xv6.Public1.Files (O_RDWR)

variable {P : Type} [DecidableEq P]

/-! ## Files and their inodes -/

/-- The descriptors of all processes. -/
def descriptors (k : Kernel P) : P × Fin NOFILE → Option FileSlot := fun d => k.ofile d.1 d.2

theorem descriptors_update (k next : Kernel P) (p : P) (fd : Fin NOFILE) (f : Option FileSlot)
    (ofile : next.ofile = Function.update k.ofile p (Function.update (k.ofile p) fd f)) :
    descriptors next = Function.update (descriptors k) (p, fd) f := by
  funext d
  obtain ⟨q, e⟩ := d
  simp only [descriptors, ofile, Function.update_apply, Prod.mk.injEq]
  by_cases same : q = p
  · subst same
    by_cases slot : e = fd <;> simp [slot]
  · simp [same]

/-- An open file and the inode that it holds. -/
structure Opened (k : Kernel P) (f : FileSlot) : Prop where
  type : (k.file f).type = .FD_INODE
  loaded : ∃ ip, k.cache.var (.inl f) = .to ip ∧ (k.cache.inode ip).valid = true

structure Files [Fintype P] (k : Kernel P) : Prop where
  coherent : k.cache.Coherent
  counted : ∀ f, (k.file f).ref = (refs (descriptors k) f : Int)
  opened : ∀ f, (k.file f).ref ≠ 0 → Opened k f
  closed : ∀ f, (k.file f).ref = 0 → k.cache.var (.inl f) = .null

def Held (k : Kernel P) (p : P) (f : FileSlot) : Prop := ∃ fd, k.ofile p fd = some f

omit [DecidableEq P] in
theorem Files.used [Fintype P] {k : Kernel P} (h : Files k) {p : P} {f : FileSlot}
    (held : Held k p f) : (k.file f).ref ≠ 0 := by
  obtain ⟨fd, holds⟩ := held
  have positive : 0 < refs (descriptors k) f := refs_pos (v := (p, fd)) holds
  have counted := h.counted f
  omega

/-! ## The calls that are past their check -/

/-- The inode of a file has a bit of its mode. -/
def Has (k : Kernel P) (f : FileSlot) (bit : Word) : Prop :=
  ∀ ip, k.cache.var (.inl f) = .to ip → (k.cache.inode ip).mode &&& bit ≠ 0

/-- What a thread past its check relies on. -/
def Ready (k : Kernel P) (p : P) : Thread → Prop
  | .user => True
  | .reading f _ => Held k p f ∧ Has k f 1
  | .writing f _ _ => Held k p f ∧ Has k f 2
  | .loading => ∃ ip phase, k.cache.lock ip = some (.inr (p, .ip), phase) ∧
      (k.cache.inode ip).mode &&& 4 ≠ 0

structure Inv [Fintype P] (k : Kernel P) : Prop where
  files : Files k
  ready : ∀ p, Ready k p (k.thread p)

omit [DecidableEq P] in
theorem Has.keep {k next : Kernel P} {f : FileSlot} {bit : Word} (has : Has k f bit)
    (opened : Opened k f) (keep : Keep k.cache next.cache (.inl f)) : Has next f bit := by
  intro ip points
  obtain ⟨j, pointed, valid⟩ := opened.loaded
  rw [keep.var, pointed] at points
  cases points
  rw [keep.mode ip pointed valid]
  exact has ip pointed

omit [DecidableEq P] in
/-- A thread may rely on what it did if its own descriptors, the inodes of its
files and its own lock are left alone. -/
theorem Ready.keep [Fintype P] {k next : Kernel P} {p : P} {t : Thread} (h : Files k)
    (ready : Ready k p t) (held : ∀ f, Held k p f → Held next p f)
    (keep : ∀ f, Held k p f → Keep k.cache next.cache (.inl f))
    (own : Frame k.cache next.cache (.inr (p, .ip))) : Ready next p t := by
  cases t with
  | user => trivial
  | reading f n =>
      obtain ⟨holds, has⟩ := ready
      exact ⟨held f holds, has.keep (h.opened f (h.used holds)) (keep f holds)⟩
  | writing f n i =>
      obtain ⟨holds, has⟩ := ready
      exact ⟨held f holds, has.keep (h.opened f (h.used holds)) (keep f holds)⟩
  | loading =>
      obtain ⟨ip, phase, owner, has⟩ := ready
      obtain ⟨points, valid⟩ := h.coherent.owned ip _ phase owner
      refine ⟨ip, phase, own.lock ip phase owner, ?_⟩
      rw [own.mode ip points valid]
      exact has

omit [DecidableEq P] in
theorem Opened.keep {k next : Kernel P} {f : FileSlot} (opened : Opened k f)
    (type : (next.file f).type = (k.file f).type) (keep : Keep k.cache next.cache (.inl f)) :
    Opened next f := by
  obtain ⟨ip, points, valid⟩ := opened.loaded
  refine ⟨?_, ip, ?_, keep.valid ip points valid⟩
  · rw [type]
    exact opened.type
  · rw [keep.var, points]

omit [DecidableEq P] in
/-- A step of one process that keeps all descriptors and the inodes of all files. -/
theorem Inv.change [Fintype P] {k next : Kernel P} (h : Inv k) (p : P)
    (coherent : next.cache.Coherent)
    (file : ∀ f, (next.file f).ref = (k.file f).ref ∧ (next.file f).type = (k.file f).type)
    (ofile : next.ofile = k.ofile) (others : ∀ q, q ≠ p → next.thread q = k.thread q)
    (keep : ∀ f, Keep k.cache next.cache (.inl f))
    (own : ∀ q, q ≠ p → Frame k.cache next.cache (.inr (q, .ip)))
    (ready : Ready next p (next.thread p)) : Inv next := by
  constructor
  case files =>
    constructor
    case coherent => exact coherent
    case counted =>
      intro f
      have same : descriptors next = descriptors k := by
        unfold descriptors
        rw [ofile]
      rw [(file f).1, same]
      exact h.files.counted f
    case opened =>
      intro f used
      rw [(file f).1] at used
      exact (h.files.opened f used).keep (file f).2 (keep f)
    case closed =>
      intro f unused
      rw [(file f).1] at unused
      rw [(keep f).var]
      exact h.files.closed f unused
  case ready =>
    intro q
    by_cases here : q = p
    · subst here
      exact ready
    · rw [others q here]
      refine (h.ready q).keep h.files ?_ (fun f _ => keep f) (own q here)
      intro f held
      unfold Held
      rw [ofile]
      exact held

/-! ## Steps that keep the descriptors -/

theorem setThread_self (k : Kernel P) (p : P) (t : Thread) : (k.setThread p t).thread p = t := by
  simp [Kernel.setThread]

theorem setThread_other (k : Kernel P) {p q : P} (t : Thread) (other : q ≠ p) :
    (k.setThread p t).thread q = k.thread q := by
  simp [Kernel.setThread, other]

/-- Only the thread of one process moves on. -/
theorem Inv.setThread [Fintype P] {k : Kernel P} (h : Inv k) (p : P) (t : Thread)
    (ready : Ready k p t) : Inv (k.setThread p t) := by
  apply h.change p
  case coherent => exact h.files.coherent
  case file => exact fun f => ⟨rfl, rfl⟩
  case ofile => rfl
  case others => exact fun q other => setThread_other k t other
  case keep => exact fun f => Keep.of_same rfl rfl
  case own => exact fun q _ => ⟨Keep.of_same rfl rfl, fun _ _ owner => owner⟩
  case ready =>
    rw [setThread_self]
    exact ready

omit [DecidableEq P] in
theorem ready_user (k : Kernel P) (p : P) (user : k.thread p = .user) :
    Ready k p (k.thread p) := by
  rw [user]
  trivial

theorem own_vars {p : P} {e : InodeCache.Event (Var P)} (mine : own p e = true) :
    e.storesMode = false ∧ ∀ v ∈ e.vars, ∃ l, v = .inr (p, l) := by
  unfold own at mine
  obtain ⟨unstored, all⟩ := Bool.and_eq_true_iff.mp mine
  refine ⟨by simpa using unstored, ?_⟩
  intro v used
  have here := List.all_eq_true.mp all v used
  cases v with
  | inl f => cases here
  | inr w =>
      obtain ⟨q, l⟩ := w
      have same : q = p := of_decide_eq_true here
      exact ⟨l, by rw [same]⟩

theorem Inv.inode [Fintype P] {k : Kernel P} (h : Inv k) {p : P} (user : k.thread p = .user)
    {e : InodeCache.Event (Var P)} (mine : own p e = true) {cache : Cache (Var P)}
    (taken : InodeCache.step k.cache e = some cache) : Inv { k with cache := cache } := by
  obtain ⟨unstored, vars⟩ := own_vars mine
  have frame : ∀ v : Var P, (∀ l, v ≠ .inr (p, l)) → Frame k.cache cache v := by
    intro v other
    apply Frame.step h.files.coherent e unstored ?_ taken
    intro used
    obtain ⟨l, same⟩ := vars v used
    exact other l same
  apply h.change p (h.files.coherent.step e taken)
  case file => exact fun f => ⟨rfl, rfl⟩
  case ofile => rfl
  case others => exact fun q _ => rfl
  case keep =>
    intro f
    exact (frame (.inl f) (fun l same => by cases same)).toKeep
  case own =>
    intro q other
    apply frame
    intro l same
    cases same
    exact other rfl
  case ready => exact ready_user _ p user

/-- The check of read() or write() passes: the thread may rely on the bit. -/
theorem Inv.checked [Fintype P] {k next : Kernel P} (h : Inv k) {bit : Word} {p : P}
    {fd : Fin NOFILE} {allowed : FileSlot → Thread}
    (relies : ∀ f, Held k p f → Has k f bit → Ready k p (allowed f))
    (passed : Permissions.checked bit k p fd allowed = some next) : Inv next := by
  unfold Permissions.checked at passed
  obtain ⟨f, holds, passed⟩ := Option.bind_eq_some_iff.mp passed
  obtain ⟨mode, found, same⟩ := Option.map_eq_some_iff.mp passed
  subst same
  split
  · exact h
  · rename_i granted
    apply h.setThread
    apply relies f ⟨fd, holds⟩
    intro ip points
    obtain ⟨j, pointed, rfl⟩ := Option.map_eq_some_iff.mp found
    unfold Kernel.fileInode at pointed
    rw [points, to_slot] at pointed
    cases pointed
    exact granted

theorem Inv.read [Fintype P] {k next : Kernel P} (h : Inv k) {p : P} {fd : Fin NOFILE} {n : Nat}
    (taken : sys_read k p fd n = some next) : Inv next := by
  refine h.checked ?_ taken
  intro f held has
  split
  · exact ⟨held, has⟩
  · trivial

theorem Inv.write [Fintype P] {k next : Kernel P} (h : Inv k) {p : P} {fd : Fin NOFILE} {n : Nat}
    (taken : sys_write k p fd n = some next) : Inv next := by
  refine h.checked ?_ taken
  intro f held has
  split
  · exact ⟨held, has⟩
  · trivial

/-! ## The uses -/

/-- The lock of `f->ip` is taken and given back around a use of the inode. -/
theorem Inv.use [Fintype P] {k : Kernel P} (h : Inv k) {p : P} {f : FileSlot} {t : Thread}
    {locked written cache : Cache (Var P)} {off : Word}
    (taken : k.cache.ilock (.inl f) = some locked)
    (wrote : locked.iupdate (.inl f) = some written ∨ written = locked)
    (unlocked : written.iunlock (.inl f) = some cache)
    (ready : ∀ next : Kernel P, next.ofile = k.ofile →
      (∀ g, Keep k.cache next.cache (.inl g)) → Ready next p t) :
    Inv ({ k with
      cache := cache
      file := k.file.set f { k.file f with off := off } }.setThread p t) := by
  have other : ∀ q, (Sum.inr (q, Local.ip) : Var P) ≠ .inl f := by
    intro q same
    cases same
  have coherent : written.Coherent := by
    obtain updated | rfl := wrote
    · exact (h.files.coherent.ilock taken).iupdate updated
    · exact h.files.coherent.ilock taken
  have kept : ∀ g, Keep locked written (.inl g) := by
    intro g
    obtain updated | rfl := wrote
    · obtain ⟨inode, var⟩ := iupdate_same updated
      exact Keep.of_same (by rw [var]) inode
    · exact Keep.of_same rfl rfl
  have framed : ∀ q, Frame locked written (.inr (q, .ip)) := by
    intro q
    obtain updated | rfl := wrote
    · exact Frame.iupdate updated (other q)
    · exact ⟨Keep.of_same rfl rfl, fun _ _ owner => owner⟩
  have keep : ∀ g, Keep k.cache cache (.inl g) := by
    intro g
    obtain ⟨inode, var⟩ := iunlock_same unlocked
    exact ((Frame.ilock taken).toKeep.trans (kept g)).trans (Keep.of_same (by rw [var]) inode)
  apply h.change p
  case coherent => exact coherent.iunlock unlocked
  case file =>
    intro g
    refine ⟨Slots.update_observed File.ref k.file f _ ?_ g,
      Slots.update_observed File.type k.file f _ ?_ g⟩
    · rfl
    · rfl
  case ofile => rfl
  case others => exact fun q there => setThread_other _ t there
  case keep => exact keep
  case own =>
    intro q _
    exact ((Frame.ilock taken).trans (framed q)).trans (Frame.iunlock unlocked (other q))
  case ready =>
    rw [setThread_self]
    exact ready _ rfl keep

omit [DecidableEq P] in
/-- An inode that is used under its lock has the mode that the check relied on. -/
theorem used_mode [Fintype P] {k : Kernel P} (h : Inv k) {p : P} {f : FileSlot} {bit : Word}
    {ip : InodeSlot} {locked : Cache (Var P)} (held : Held k p f) (has : Has k f bit)
    (found : k.fileInode f = some ip) (taken : k.cache.ilock (.inl f) = some locked) :
    (locked.inode ip).mode &&& bit ≠ 0 := by
  obtain ⟨j, points, valid⟩ := (h.files.opened f (h.files.used held)).loaded
  unfold Kernel.fileInode at found
  rw [points, to_slot] at found
  cases found
  have keep : Keep k.cache locked (.inl f) := (Frame.ilock taken).toKeep
  rw [keep.mode ip points valid]
  exact has ip points

theorem Inv.fileread [Fintype P] {k next : Kernel P} (h : Inv k) {p : P} {f : FileSlot} {n : Nat}
    {r : Int} {notes : List Note} (thread : k.thread p = .reading f n)
    (taken : Permissions.fileread k p f r = some (notes, next)) :
    Inv next ∧ ∀ note ∈ notes, note.Allowed := by
  have ready := h.ready p
  rw [thread] at ready
  unfold Permissions.fileread at taken
  split at taken
  · cases taken
  · rename_i ip found
    obtain ⟨locked, lock, taken⟩ := Option.bind_eq_some_iff.mp taken
    obtain ⟨cache, unlocked, same⟩ := Option.map_eq_some_iff.mp taken
    cases same
    refine ⟨h.use lock (Or.inr rfl) unlocked (fun _ _ _ => trivial), ?_⟩
    intro note noted
    split at noted
    · rw [List.mem_singleton.mp noted]
      exact used_mode h ready.1 ready.2 found lock
    · cases noted

theorem Inv.filewrite [Fintype P] {k next : Kernel P} (h : Inv k) {p : P} {f : FileSlot}
    {n i : Nat} {r : Int} {grows : Bool} {notes : List Note}
    (thread : k.thread p = .writing f n i)
    (taken : filewriteRound k p f n i r grows = some (notes, next)) :
    Inv next ∧ ∀ note ∈ notes, note.Allowed := by
  have ready := h.ready p
  rw [thread] at ready
  unfold filewriteRound at taken
  split at taken
  · cases taken
  · rename_i ip found
    obtain ⟨locked, lock, taken⟩ := Option.bind_eq_some_iff.mp taken
    obtain ⟨written, wrote, taken⟩ := Option.bind_eq_some_iff.mp taken
    obtain ⟨cache, unlocked, taken⟩ := Option.bind_eq_some_iff.mp taken
    have wrote : locked.iupdate (.inl f) = some written ∨ written = locked := by
      split at wrote
      · exact Or.inl wrote
      · exact Or.inr (Option.some.inj wrote).symm
    dsimp only at taken
    split at taken
    · cases taken
      exact ⟨h.use lock wrote unlocked (fun _ _ _ => trivial), fun _ noted => by cases noted⟩
    · split at taken
      · cases taken
      · cases taken
        refine ⟨h.use lock wrote unlocked ?_, ?_⟩
        · intro next ofile keep
          split
          · obtain ⟨⟨fd, holds⟩, has⟩ := ready
            refine ⟨⟨fd, by rw [ofile, holds]⟩, ?_⟩
            exact has.keep (h.files.opened f (h.files.used ⟨fd, holds⟩)) (keep f)
          · trivial
        · intro note noted
          rw [List.mem_singleton.mp noted]
          exact used_mode h ready.1 ready.2 found lock

theorem Inv.exec [Fintype P] {k next : Kernel P} (h : Inv k) {p : P}
    (taken : execCheck k p = some next) : Inv next := by
  unfold execCheck at taken
  obtain ⟨⟨ip, phase⟩, found, same⟩ := Option.map_eq_some_iff.mp taken
  subst same
  split
  · exact h
  · rename_i granted
    exact h.setThread p .loading ⟨ip, phase, (locked_some.mp found).2, granted⟩

theorem Inv.execLoad [Fintype P] {k next : Kernel P} (h : Inv k) {p : P} {notes : List Note}
    (thread : k.thread p = .loading)
    (taken : Permissions.execLoad k p = some (notes, next)) :
    Inv next ∧ ∀ note ∈ notes, note.Allowed := by
  have ready := h.ready p
  rw [thread] at ready
  obtain ⟨ip, phase, owner, has⟩ := ready
  unfold Permissions.execLoad at taken
  obtain ⟨⟨j, other⟩, found, same⟩ := Option.map_eq_some_iff.mp taken
  cases same
  refine ⟨h, ?_⟩
  intro note noted
  rw [List.mem_singleton.mp noted]
  have points := (locked_some.mp found).1
  rw [(h.files.coherent.owned ip _ phase owner).1] at points
  cases points
  exact has

/-! ## The descriptors change -/

theorem fdalloc_some {ofile next : Descriptors} {f : FileSlot} {fd : Fin NOFILE}
    (found : fdalloc ofile f = some (fd, next)) :
    ofile fd = none ∧ next = Function.update ofile fd (some f) := by
  obtain ⟨e, hit, same⟩ := Option.map_eq_some_iff.mp found
  cases same
  exact ⟨by simpa using List.find?_some hit, rfl⟩

theorem filealloc_some {file next : FileTable} {f : FileSlot}
    (found : file.filealloc = some (f, next)) : (file f).ref = 0 ∧ next = file.claim f := by
  obtain ⟨g, hit, same⟩ := Option.map_eq_some_iff.mp found
  cases same
  exact ⟨by simpa using List.find?_some hit, rfl⟩

/-- fileclose() leaves an open file to others, or takes the last reference. -/
theorem drop_cases {file next : FileTable} {f : FileSlot} {ff : Option File}
    (dropped : file.drop f = some (next, ff)) :
    ((file f).ref ≠ 1 ∧ next = file.set f { file f with ref := (file f).ref - 1 } ∧ ff = none) ∨
      ((file f).ref = 1 ∧ next = file.set f { file f with ref := 0, type := .FD_NONE } ∧
        ff = some { file f with ref := (file f).ref - 1 }) := by
  unfold FileTable.drop at dropped
  dsimp only at dropped
  split at dropped
  · cases dropped
  · split at dropped
    · cases dropped
      exact Or.inl ⟨by omega, rfl, rfl⟩
    · cases dropped
      exact Or.inr ⟨by omega, rfl, rfl⟩

/-- A step of one process in user mode that stores to one of its descriptors
and to one file, and leaves the inodes of all others alone. -/
theorem Inv.store [Fintype P] {k next : Kernel P} (h : Inv k) (p : P) (f : FileSlot)
    (fd : Fin NOFILE) (entry : Option FileSlot)
    (coherent : next.cache.Coherent)
    (ofile : next.ofile = Function.update k.ofile p (Function.update (k.ofile p) fd entry))
    (counted : ((next.file f).ref : Int) + (if k.ofile p fd = some f then 1 else 0) =
      (k.file f).ref + (if entry = some f then 1 else 0))
    (single : ∀ g, g ≠ f → k.ofile p fd ≠ some g ∧ entry ≠ some g)
    (file : ∀ g, g ≠ f → next.file g = k.file g)
    (keep : ∀ g, g ≠ f → Keep k.cache next.cache (.inl g))
    (opened : (next.file f).ref ≠ 0 → Opened next f)
    (closed : (next.file f).ref = 0 → next.cache.var (.inl f) = .null)
    (shared : ∀ q, q ≠ p → Held k q f → Keep k.cache next.cache (.inl f))
    (own : ∀ q, q ≠ p → Frame k.cache next.cache (.inr (q, .ip)))
    (thread : next.thread = k.thread) (user : k.thread p = .user) : Inv next := by
  have moved := descriptors_update k next p fd entry ofile
  constructor
  case files =>
    constructor
    case coherent => exact coherent
    case counted =>
      intro g
      have count := refs_update (descriptors k) (p, fd) entry g
      rw [← moved] at count
      have before := h.files.counted g
      have here : descriptors k (p, fd) = k.ofile p fd := rfl
      rw [here] at count
      by_cases same : g = f
      · subst same
        split at count
        all_goals
          split at count
          all_goals simp_all
          all_goals omega
      · obtain ⟨notOld, notNew⟩ := single g same
        rw [if_neg notOld, if_neg notNew] at count
        rw [file g same]
        omega
    case opened =>
      intro g used
      by_cases same : g = f
      · subst same
        exact opened used
      · rw [file g same] at used
        exact (h.files.opened g used).keep (by rw [file g same]) (keep g same)
    case closed =>
      intro g unused
      by_cases same : g = f
      · subst same
        exact closed unused
      · rw [file g same] at unused
        rw [(keep g same).var]
        exact h.files.closed g unused
  case ready =>
    intro q
    rw [thread]
    by_cases here : q = p
    · subst here
      rw [user]
      trivial
    · refine (h.ready q).keep h.files ?_ ?_ (own q here)
      · intro g held
        unfold Held
        rw [ofile, Function.update_of_ne here]
        exact held
      · intro g held
        by_cases same : g = f
        · subst same
          exact shared q here held
        · exact keep g same

theorem Inv.dup [Fintype P] {k next : Kernel P} (h : Inv k) {p : P} {fd : Fin NOFILE}
    (user : k.thread p = .user) (taken : sys_dup k p fd = some next) : Inv next := by
  unfold sys_dup at taken
  obtain ⟨f, holds, taken⟩ := Option.bind_eq_some_iff.mp taken
  obtain ⟨⟨slot, ofile⟩, found, taken⟩ := Option.bind_eq_some_iff.mp taken
  obtain ⟨file, dup, same⟩ := Option.map_eq_some_iff.mp taken
  subst same
  obtain ⟨empty, rfl⟩ := fdalloc_some found
  have used := h.files.used ⟨fd, holds⟩
  unfold FileTable.filedup at dup
  split at dup
  · cases dup
  · cases dup
    apply h.store p f slot (some f)
    case coherent => exact h.files.coherent
    case ofile => rfl
    case counted => simp [FileTable.set, empty]
    case single =>
      intro g there
      rw [empty]
      exact ⟨by simp, fun same => there (Option.some.inj same).symm⟩
    case file =>
      intro g there
      simp [FileTable.set, there]
    case keep => exact fun g _ => Keep.of_same rfl rfl
    case opened =>
      intro _
      refine (h.files.opened f used).keep ?_ (Keep.of_same rfl rfl)
      simp [FileTable.set]
    case closed =>
      intro unused
      have counted := h.files.counted f
      have now : (k.file f).ref + 1 = 0 := by
        simpa [FileTable.set] using unused
      omega
    case shared => exact fun q _ _ => Keep.of_same rfl rfl
    case own => exact fun q _ => ⟨Keep.of_same rfl rfl, fun _ _ owner => owner⟩
    case thread => rfl
    case user => exact user

/-- `f->ip = ip` of an open(), or the copy of it in fileclose(). -/
theorem move_frames {s next : Cache (Var P)} {p : P} {f : FileSlot} {v w : Var P}
    (moved : s.move v w = some next)
    (ends : v = .inl f ∧ w = .inr (p, .ip) ∨ v = .inr (p, .ip) ∧ w = .inl f) :
    (∀ g, g ≠ f → Keep s next (.inl g)) ∧
      ∀ q, q ≠ p → Frame s next (.inr (q, .ip)) := by
  constructor
  · intro g there
    have apart : ∀ l, (Sum.inl g : Var P) ≠ .inr (p, l) := by
      intro l same
      cases same
    have elsewhere : (Sum.inl g : Var P) ≠ .inl f := by
      intro same
      cases same
      exact there rfl
    obtain ⟨rfl, rfl⟩ | ⟨rfl, rfl⟩ := ends
    · exact (Frame.move moved elsewhere (apart .ip)).toKeep
    · exact (Frame.move moved (apart .ip) elsewhere).toKeep
  · intro q there
    have apart : (Sum.inr (q, Local.ip) : Var P) ≠ .inl f := by
      intro same
      cases same
    have elsewhere : (Sum.inr (q, Local.ip) : Var P) ≠ .inr (p, .ip) := by
      intro same
      cases same
      exact there rfl
    obtain ⟨rfl, rfl⟩ | ⟨rfl, rfl⟩ := ends
    · exact Frame.move moved apart elsewhere
    · exact Frame.move moved elsewhere apart

theorem Inv.open [Fintype P] {k next : Kernel P} (h : Inv k) {p : P} {omode : Word}
    (user : k.thread p = .user) (taken : sys_open k p omode = some next) : Inv next := by
  unfold sys_open at taken
  obtain ⟨⟨f, file⟩, claimed, taken⟩ := Option.bind_eq_some_iff.mp taken
  obtain ⟨⟨slot, ofile⟩, found, taken⟩ := Option.bind_eq_some_iff.mp taken
  obtain ⟨unlocked, unlock, taken⟩ := Option.bind_eq_some_iff.mp taken
  obtain ⟨cache, moved, same⟩ := Option.map_eq_some_iff.mp taken
  subst same
  obtain ⟨empty, rfl⟩ := fdalloc_some found
  obtain ⟨unused, rfl⟩ := filealloc_some claimed
  obtain ⟨inode, var⟩ := iunlock_same unlock
  obtain ⟨keeps, frames⟩ := move_frames moved (Or.inr ⟨rfl, rfl⟩)
  have unheld : ∀ q, ¬ Held k q f := fun q held => h.files.used held unused
  apply h.store p f slot (some f)
  case coherent => exact (h.files.coherent.iunlock unlock).move moved
  case ofile => rfl
  case counted =>
    rw [empty, unused]
    simp [FileTable.set, FileTable.claim]
  case single =>
    intro g there
    rw [empty]
    exact ⟨by simp, fun same => there (Option.some.inj same).symm⟩
  case file =>
    intro g there
    simp [FileTable.set, FileTable.claim, there]
  case keep =>
    intro g there
    exact (Keep.of_same (by rw [var]) inode).trans (keeps g there)
  case opened =>
    intro _
    obtain ⟨ip, points, _, stored, same⟩ := move_some moved
    obtain ⟨phase, owner⟩ := iunlock_owner unlock points
    refine ⟨?_, ip, stored, ?_⟩
    · simp [FileTable.set]
    · rw [same, inode]
      exact (h.files.coherent.owned ip _ phase owner).2
  case closed =>
    intro closed
    simp [FileTable.set, FileTable.claim] at closed
  case shared => exact fun q _ held => absurd held (unheld q)
  case own =>
    intro q there
    refine (Frame.iunlock unlock ?_).trans (frames q there)
    intro same
    cases same
    exact there rfl
  case thread => rfl
  case user => exact user

theorem Inv.close [Fintype P] {k next : Kernel P} (h : Inv k) {p : P} {fd : Fin NOFILE}
    (user : k.thread p = .user) (taken : sys_close k p fd = some next) : Inv next := by
  unfold sys_close at taken
  obtain ⟨f, holds, taken⟩ := Option.bind_eq_some_iff.mp taken
  unfold fileclose at taken
  obtain ⟨⟨file, ff⟩, dropped, taken⟩ := Option.bind_eq_some_iff.mp taken
  have opened := h.files.opened f (h.files.used ⟨fd, holds⟩)
  have single : ∀ g, g ≠ f → k.ofile p fd ≠ some g ∧ (none : Option FileSlot) ≠ some g := by
    intro g there
    rw [holds]
    exact ⟨fun same => there (Option.some.inj same).symm, by simp⟩
  obtain ⟨shared, rfl, rfl⟩ | ⟨last, rfl, rfl⟩ := drop_cases dropped
  · cases taken
    apply h.store p f fd none
    case coherent => exact h.files.coherent
    case ofile => rfl
    case counted => simp [FileTable.set, Kernel.setOfile, holds]
    case single => exact single
    case file =>
      intro g there
      exact Function.update_of_ne there _ k.file
    case keep => exact fun g _ => Keep.of_same rfl rfl
    case opened =>
      intro _
      refine opened.keep ?_ (Keep.of_same rfl rfl)
      simp [FileTable.set, Kernel.setOfile]
    case closed =>
      intro unused
      have one : (k.file f).ref = 1 := by
        have left : (k.file f).ref - 1 = 0 := by
          simpa [FileTable.set, Kernel.setOfile] using unused
        omega
      exact absurd one shared
    case shared => exact fun q _ _ => Keep.of_same rfl rfl
    case own => exact fun q _ => ⟨Keep.of_same rfl rfl, fun _ _ owner => owner⟩
    case thread => rfl
    case user => exact user
  · have type : (k.file f).type = .FD_INODE := opened.type
    simp only [Kernel.setOfile, type] at taken
    obtain ⟨cache, moved, same⟩ := Option.map_eq_some_iff.mp taken
    subst same
    obtain ⟨keeps, frames⟩ := move_frames moved (Or.inl ⟨rfl, rfl⟩)
    apply h.store p f fd none
    case coherent => exact h.files.coherent.move moved
    case ofile => rfl
    case counted =>
      have one : (k.file f).ref = 1 := last
      simp [FileTable.set, holds, one]
    case single => exact single
    case file =>
      intro g there
      exact Function.update_of_ne there _ k.file
    case keep => exact keeps
    case opened =>
      intro used
      simp [FileTable.set] at used
    case closed =>
      intro _
      obtain ⟨_, _, null, _, _⟩ := move_some moved
      exact null
    case shared =>
      intro q there held
      -- Another process with the file would have been counted too.
      obtain ⟨e, other⟩ := held
      have apart : (p, fd) ≠ (q, e) := by
        intro same
        cases same
        exact there rfl
      have two : 2 ≤ refs (descriptors k) f := two_le_refs apart holds other
      have counted := h.files.counted f
      have one : (k.file f).ref = 1 := last
      omega
    case own => exact frames
    case thread => rfl
    case user => exact user

/-! ## chmod() and the condition -/

theorem Inv.chmod [Fintype P] {k next : Kernel P} (h : Inv k) {p : P} {mode : Word}
    (user : k.thread p = .user) (undisturbed : Undisturbed k (.chmod p mode))
    (taken : chmodStore k p mode = some next) : Inv next := by
  unfold chmodStore at taken
  split at taken
  · cases taken
  · obtain ⟨cache, stored, same⟩ := Option.map_eq_some_iff.mp taken
    subst same
    obtain ⟨ip, found, var, changed, others⟩ := storeMode_some stored
    have respects : ∀ q, Respects k ip mode (k.thread q) := by
      simp only [Undisturbed, found] at undisturbed
      exact undisturbed
    have valid : ∀ j, (cache.inode j).valid = (k.cache.inode j).valid := by
      intro j
      by_cases here : j = ip
      · rw [here, changed]
      · rw [(others j here).1]
    have has : ∀ f bit, Has k f bit → (k.fileInode f = some ip → mode &&& bit ≠ 0) →
        Has { k with cache := cache } f bit := by
      intro f bit before kept j points
      rw [var] at points
      by_cases here : j = ip
      · subst here
        rw [changed]
        apply kept
        unfold Kernel.fileInode
        rw [points, to_slot]
      · rw [(others j here).1]
        exact before j points
    constructor
    case files =>
      constructor
      case coherent => exact h.files.coherent.storeMode stored
      case counted => exact h.files.counted
      case opened =>
        intro f used
        obtain ⟨j, points, loaded⟩ := (h.files.opened f used).loaded
        refine ⟨(h.files.opened f used).type, j, ?_, ?_⟩
        · rw [var, points]
        · rw [valid, loaded]
      case closed =>
        intro f unused
        rw [var]
        exact h.files.closed f unused
    case ready =>
      intro q
      have ready := h.ready q
      have respect := respects q
      cases thread : k.thread q with
      | user => trivial
      | reading f n =>
          rw [thread] at ready respect
          exact ⟨ready.1, has f 1 ready.2 respect⟩
      | writing f n i =>
          rw [thread] at ready respect
          exact ⟨ready.1, has f 2 ready.2 respect⟩
      | loading =>
          rw [thread] at ready
          obtain ⟨j, phase, owner, granted⟩ := ready
          -- The lock of exec() keeps the chmod() off its inode.
          have there : j ≠ ip := by
            rintro rfl
            rw [(locked_some.mp found).2] at owner
            cases owner
            rw [user] at thread
            cases thread
          refine ⟨j, phase, ?_, ?_⟩
          · rw [(others j there).2, owner]
          · rw [(others j there).1]
            exact granted

/-! ## Every run -/

omit [DecidableEq P] in
theorem inCall_some {α : Type} {k : Kernel P} {p : P} {next : Option α} {x : α}
    (taken : inCall k p next = some x) : k.thread p = .user ∧ next = some x := by
  unfold inCall at taken
  split at taken
  · rename_i user
    exact ⟨user, taken⟩
  · cases taken

omit [DecidableEq P] in
/-- A call that makes no use of an inode. -/
theorem quiet_some {k : Kernel P} {p : P} {taken : Option (Kernel P)} {notes : List Note}
    {next : Kernel P}
    (stepped : inCall k p (taken.map fun k => ([], k)) = some (notes, next)) :
    k.thread p = .user ∧ notes = [] ∧ taken = some next := by
  obtain ⟨user, stepped⟩ := inCall_some stepped
  obtain ⟨k', taken, same⟩ := Option.map_eq_some_iff.mp stepped
  cases same
  exact ⟨user, rfl, taken⟩

theorem none_noted (note : Note) (noted : note ∈ ([] : List Note)) : note.Allowed := by
  cases noted

/-- An undisturbed step keeps the invariant, and uses only what the mode allows. -/
theorem Inv.step [Fintype P] {k next : Kernel P} (h : Inv k) {e : Event P} {notes : List Note}
    (undisturbed : Undisturbed k e)
    (stepped : Permissions.step k e = some (notes, next)) :
    Inv next ∧ ∀ note ∈ notes, note.Allowed := by
  cases e with
  | inode p e =>
      obtain ⟨user, stepped⟩ := inCall_some stepped
      split at stepped
      · rename_i mine
        obtain ⟨cache, taken, same⟩ := Option.map_eq_some_iff.mp stepped
        cases same
        exact ⟨h.inode user mine taken, none_noted⟩
      · cases stepped
  | «open» p omode =>
      obtain ⟨user, rfl, taken⟩ := quiet_some stepped
      exact ⟨h.open user taken, none_noted⟩
  | dup p fd =>
      obtain ⟨user, rfl, taken⟩ := quiet_some stepped
      exact ⟨h.dup user taken, none_noted⟩
  | close p fd =>
      obtain ⟨user, rfl, taken⟩ := quiet_some stepped
      exact ⟨h.close user taken, none_noted⟩
  | read p fd n =>
      obtain ⟨user, rfl, taken⟩ := quiet_some stepped
      exact ⟨h.read taken, none_noted⟩
  | fileread p r =>
      simp only [Permissions.step] at stepped
      split at stepped
      · rename_i f n thread
        split at stepped
        · exact h.fileread thread stepped
        · cases stepped
      · cases stepped
  | write p fd n =>
      obtain ⟨user, rfl, taken⟩ := quiet_some stepped
      exact ⟨h.write taken, none_noted⟩
  | filewrite p r grows =>
      simp only [Permissions.step] at stepped
      split at stepped
      · rename_i f n i thread
        exact h.filewrite thread stepped
      · cases stepped
  | exec p =>
      obtain ⟨user, rfl, taken⟩ := quiet_some stepped
      exact ⟨h.exec taken, none_noted⟩
  | execLoad p =>
      simp only [Permissions.step] at stepped
      split at stepped
      · rename_i thread
        exact h.execLoad thread stepped
      · cases stepped
  | execEnd p =>
      simp only [Permissions.step] at stepped
      split at stepped
      · cases stepped
        exact ⟨h.setThread p .user trivial, none_noted⟩
      · cases stepped
  | chmod p mode =>
      obtain ⟨user, rfl, taken⟩ := quiet_some stepped
      exact ⟨h.chmod user undisturbed taken, none_noted⟩

/-- A kernel with any descriptors, in which no call is being made. -/
structure Idle [Fintype P] (k : Kernel P) : Prop where
  files : Files k
  user : ∀ p, k.thread p = .user

def Sound [Fintype P] (s : Kernel P × List Note) : Prop :=
  Inv s.1 ∧ ∀ note ∈ s.2, note.Allowed

/-- From any descriptors on: in a run in which no chmod() takes a right away
under a call, nothing is written, returned or loaded without the right. -/
theorem mode_enforced_undisturbed [Fintype P] (start : Kernel P) (idle : Idle start)
    (es : List (Event P)) (k : Kernel P) (notes : List Note)
    (undisturbed : Runs.Guarded tracked (fun s e => Undisturbed s.1 e) (start, []) es)
    (ran : Runs.run tracked (start, []) es = some (k, notes)) :
    ∀ note ∈ notes, note.Allowed := by
  have first : Sound (start, ([] : List Note)) := by
    refine ⟨⟨idle.files, ?_⟩, none_noted⟩
    intro p
    exact ready_user start p (idle.user p)
  have kept : ∀ (s : Kernel P × List Note) e t, Sound s → Undisturbed s.1 e →
      tracked s e = some t → Sound t := by
    intro s e t sound guard taken
    obtain ⟨⟨notes, next⟩, stepped, same⟩ := Option.map_eq_some_iff.mp taken
    subst same
    obtain ⟨inv, allowed⟩ := sound.1.step guard stepped
    refine ⟨inv, ?_⟩
    intro note noted
    obtain before | now := List.mem_append.mp noted
    · exact sound.2 note before
    · exact allowed note now
  have sound : Sound (k, notes) :=
    Runs.run_invariant tracked kept es (start, []) (k, notes) first undisturbed ran
  exact sound.2

omit [DecidableEq P] in
theorem boot_idle [Fintype P] (disk : Word → Word → Dinode) : Idle (boot disk : Kernel P) := by
  constructor
  case files =>
    constructor
    case coherent => exact boot_coherent disk
    case counted =>
      intro f
      exact congrArg Int.ofNat (refs_none f).symm
    case opened => exact fun f used => absurd rfl used
    case closed => exact fun f _ => rfl
  case user => exact fun p => rfl

/-- A file is open for writing in process 0, which has passed the check. -/
def granted : List (Event (Fin 2)) :=
  [.inode 0 (.iget (.inr (0, .ip)) 1 2), .inode 0 (.ilock (.inr (0, .ip))), .open 0 O_RDWR,
    .write 0 0 10]

/-- Process 1 changes the mode of the same file. -/
def changed (mode : Word) : List (Event (Fin 2)) :=
  [.inode 1 (.iget (.inr (1, .ip)) 1 2), .inode 1 (.ilock (.inr (1, .ip))), .chmod 1 mode,
    .inode 1 (.iupdate (.inr (1, .ip))), .inode 1 (.iunlock (.inr (1, .ip)))]

def chmodRun (mode : Word) : List (Event (Fin 2)) :=
  granted ++ changed mode ++ [.filewrite 0 10 false]

theorem chmodRun_completes :
    (Runs.run tracked (boot image, []) (chmodRun 0)).isSome = true := by
  decide +kernel

theorem chmod_during_write :
    ¬ ∀ (es : List (Event (Fin 2))) (k : Kernel (Fin 2)) (notes : List Note),
      Runs.run tracked (boot image, []) es = some (k, notes) → ∀ note ∈ notes, note.Allowed := by
  intro claimed
  have allowed := claimed (chmodRun 0) _ _ (Option.some_get chmodRun_completes).symm
  revert allowed
  decide +kernel

theorem keptRun_completes :
    (Runs.run tracked (boot image, []) (chmodRun 3)).isSome = true := by
  decide +kernel

theorem keptRun_undisturbed :
    Runs.Guarded tracked (fun s e => Undisturbed s.1 e) (boot image, []) (chmodRun 3) := by
  decide +kernel

theorem mode_enforced_keptRun :
    ∃ notes : List Note, notes.length = 1 ∧ ∀ note ∈ notes, note.Allowed := by
  have allowed := mode_enforced_undisturbed (boot image) (boot_idle image) (chmodRun 3) _ _
    keptRun_undisturbed (Option.some_get keptRun_completes).symm
  exact ⟨(Option.get _ keptRun_completes).2, by decide +kernel, allowed⟩

end Xv6.Public1.Permissions
