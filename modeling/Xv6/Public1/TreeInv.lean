import Mathlib.Data.Fintype.Option
import Mathlib.Data.Fintype.Prod
import Xv6.Lib.References
import Xv6.Public1.Forest

/-!
# References to inodes (xv6-public_1)

Every reference to an inode in memory belongs to a current directory, an open file or
the call that is under way; an inode that has no links is kept by one of them.  The
steps of the system calls keep that, and what `Shape` says of the directories.
-/

set_option autoImplicit false

namespace Xv6.Public1.Tree

open Xv6.Lib.Words
open Xv6.Lib.Outcome
open Xv6.Lib.References
open Xv6.Public1.Directory

namespace Sys

/-- What the current directory and the open files of the processes point to. -/
def var (s : Sys) : Pid × Option Fd → Option Inum
  | (p, none) => (s.proc p).map Proc.cwd
  | (p, some fd) => (s.proc p).bind fun proc => proc.ofile fd

end Sys

/-- The references in `hand` are those of the call under way. -/
structure Held (hand : List Inum) (s : Sys) : Prop where
  typed : ∀ i, s.valid i = true → (s.node i).type ≠ 0
  kept : ∀ i, (s.node i).type ≠ 0 → (s.node i).nlink = 0 →
    s.valid i = true ∧ 0 < refs s.var i + hand.count i
  count : ∀ i, s.ref i = ((refs s.var i + hand.count i : Nat) : Int)
  vars : ∀ v i, s.var v = some i → (s.node i).type ≠ 0
  cwds : ∀ p proc, s.proc p = some proc → Nodes.dir s.node proc.cwd

structure Inv (tidy : Prop) (hand credit : List Inum) (s : Sys) : Prop where
  shape : Shape tidy credit s.node
  held : Held hand s

/-! ## iget() and idup() -/

section Refs
variable {tidy : Prop} {hand credit : List Inum} {s : Sys} {i : Inum}

@[simp] theorem iget_node (s : Sys) (i : Inum) : (s.iget i).node = s.node := by
  unfold Sys.iget
  split
  · rfl
  · rfl

@[simp] theorem iget_proc (s : Sys) (i : Inum) : (s.iget i).proc = s.proc := by
  unfold Sys.iget
  split
  · rfl
  · rfl

theorem var_congr {s' : Sys} (proc : s'.proc = s.proc) : s'.var = s.var := by
  funext v
  obtain ⟨p, fd⟩ := v
  cases fd with
  | none => simp only [Sys.var, proc]
  | some fd => simp only [Sys.var, proc]

/-- One more reference for the call. -/
theorem Held.take {s' : Sys} (h : Held hand s) (node : s'.node = s.node) (proc : s'.proc = s.proc)
    (ref : s'.ref = Function.update s.ref i (s.ref i + 1))
    (valid : ∀ j, s'.valid j = true → s.valid j = true)
    (still : ∀ j, 0 < s.ref j → s.valid j = true → s'.valid j = true) :
    Held (i :: hand) s' := by
  have var := var_congr proc
  have more : ∀ j, hand.count j ≤ (i :: hand).count j := fun j => List.count_le_count_cons
  constructor
  case typed =>
    intro j loaded
    rw [node]
    exact h.typed j (valid j loaded)
  case kept =>
    intro j allocated unlinked
    rw [node] at allocated unlinked
    obtain ⟨loaded, positive⟩ := h.kept j allocated unlinked
    have count := h.count j
    have some_more := more j
    rw [var]
    exact ⟨still j (by omega) loaded, by omega⟩
  case count =>
    intro j
    have count := h.count j
    rw [var, ref]
    by_cases here : j = i
    · subst here
      rw [Function.update_self, List.count_cons_self]
      omega
    · rw [Function.update_of_ne here, List.count_cons_of_ne fun same => here same.symm]
      exact count
  case vars =>
    intro v j points
    rw [var] at points
    rw [node]
    exact h.vars v j points
  case cwds =>
    intro p proc' running
    rw [proc] at running
    rw [node]
    exact h.cwds p proc' running

theorem Inv.iget (h : Inv tidy hand credit s) (i : Inum) : Inv tidy (i :: hand) credit (s.iget i) := by
  constructor
  case shape =>
    rw [iget_node]
    exact h.shape
  case held =>
    have count := h.held.count i
    unfold Sys.iget
    split
    · refine h.held.take rfl rfl rfl ?_ ?_
      · exact fun _ loaded => loaded
      · exact fun _ _ loaded => loaded
    · rename_i unused
      have zero : s.ref i = 0 := by omega
      refine h.held.take rfl rfl ?_ ?_ ?_
      · change Function.update s.ref i 1 = _
        rw [zero]
        rfl
      · intro j loaded
        by_cases here : j = i
        · subst here
          simp [Sys.setValid] at loaded
        · simpa [Sys.setValid, Sys.setRef, here] using loaded
      · intro j used loaded
        have here : j ≠ i := by
          rintro rfl
          omega
        simpa [Sys.setValid, Sys.setRef, here] using loaded

theorem Inv.idup (h : Inv tidy hand credit s) (i : Inum) : Inv tidy (i :: hand) credit (s.idup i) := by
  constructor
  case shape => exact h.shape
  case held =>
    refine h.held.take rfl rfl rfl ?_ ?_
    · exact fun _ loaded => loaded
    · exact fun _ _ loaded => loaded

/-- The order of the references in hand is of no account. -/
theorem Held.perm {hand' : List Inum} (h : Held hand s) (same : hand'.Perm hand) :
    Held hand' s := by
  have count : ∀ j, hand'.count j = hand.count j := fun j => same.count_eq j
  constructor
  case typed => exact h.typed
  case kept =>
    intro j allocated unlinked
    rw [count]
    exact h.kept j allocated unlinked
  case count =>
    intro j
    rw [count]
    exact h.count j
  case vars => exact h.vars
  case cwds => exact h.cwds

/-! ## ilock() -/

/-- An inode that the call has a reference to is locked, or is free. -/
theorem Inv.ilock (h : Inv tidy hand credit s) (mine : i ∈ hand) :
    Ends (s.ilock i) (fun e => e = .noType ∧ (s.node i).type = 0) fun t =>
      Inv tidy hand credit t ∧ t.node = s.node ∧ t.proc = s.proc ∧ t.valid i = true ∧
        (s.node i).type ≠ 0 := by
  have count := h.held.count i
  have positive : 0 < hand.count i := List.count_pos_iff.mpr mine
  unfold Sys.ilock
  rw [if_neg (by omega)]
  split
  · rename_i loaded
    exact ends_pure ⟨h, rfl, rfl, loaded, h.held.typed i loaded⟩
  · split
    · rename_i free
      exact ends_error ⟨rfl, free⟩
    · rename_i allocated
      have locked : (s.setValid i true).valid i = true := Function.update_self i _ _
      refine ends_pure ⟨⟨h.shape, ?_⟩, rfl, rfl, locked, allocated⟩
      have var : (s.setValid i true).var = s.var := var_congr rfl
      constructor
      case typed =>
        intro j loaded
        by_cases here : j = i
        · subst here
          exact allocated
        · exact h.held.typed j (by simpa [Sys.setValid, here] using loaded)
      case kept =>
        intro j typed unlinked
        obtain ⟨loaded, used⟩ := h.held.kept j typed unlinked
        rw [var]
        refine ⟨?_, used⟩
        by_cases here : j = i
        · subst here
          exact Function.update_self _ _ _
        · simpa [Sys.setValid, here] using loaded
      case count =>
        intro j
        rw [var]
        exact h.held.count j
      case vars =>
        intro v j points
        rw [var] at points
        exact h.held.vars v j points
      case cwds => exact h.held.cwds

/-! ## iput() -/

/-- The call has no reference to `i` any more, and nobody else has. -/
def Last (hand : List Inum) (s : Sys) (i : Inum) : Prop :=
  (s.node i).type ≠ 0 ∧ (s.node i).nlink = 0 ∧ refs s.var i + hand.count i = 0

/-- An inode after iput() has freed it. -/
def freed (node : Node) : Node := { node with type := 0, entries := [] }

/-- A reference is given up, and the inode stays. -/
theorem Held.drop {s' : Sys} (h : Held (i :: hand) s) (node : s'.node = s.node)
    (proc : s'.proc = s.proc) (valid : s'.valid = s.valid)
    (ref : s'.ref = Function.update s.ref i (s.ref i - 1)) (wanted : ¬ Last hand s i) :
    Held hand s' := by
  have var := var_congr proc
  constructor
  case typed =>
    intro j loaded
    rw [valid] at loaded
    rw [node]
    exact h.typed j loaded
  case kept =>
    intro j allocated unlinked
    rw [node] at allocated unlinked
    obtain ⟨loaded, positive⟩ := h.kept j allocated unlinked
    rw [var, valid]
    refine ⟨loaded, ?_⟩
    by_cases here : j = i
    · subst here
      by_contra none_left
      exact wanted ⟨allocated, unlinked, by omega⟩
    · rw [List.count_cons_of_ne fun same => here same.symm] at positive
      exact positive
  case count =>
    intro j
    have count := h.count j
    rw [var, ref]
    by_cases here : j = i
    · subst here
      rw [List.count_cons_self] at count
      rw [Function.update_self]
      omega
    · rw [List.count_cons_of_ne fun same => here same.symm] at count
      rw [Function.update_of_ne here]
      exact count
  case vars =>
    intro v j points
    rw [var] at points
    rw [node]
    exact h.vars v j points
  case cwds =>
    intro p proc' running
    rw [proc] at running
    rw [node]
    exact h.cwds p proc' running

/-- The last reference is given up, and the inode is freed. -/
theorem Held.last {s' : Sys} (h : Held (i :: hand) s)
    (node : s'.node = Function.update s.node i (freed (s.node i)))
    (proc : s'.proc = s.proc) (valid : s'.valid = Function.update s.valid i false)
    (ref : s'.ref = Function.update s.ref i (s.ref i - 1)) (last : Last hand s i) :
    Held hand s' := by
  have var := var_congr proc
  have unused : refs s.var i = 0 := by
    have none_left := last.2.2
    omega
  have others : ∀ j, j ≠ i → s'.node j = s.node j := by
    intro j here
    rw [node, Function.update_of_ne here]
  have away : ∀ v j, s.var v = some j → j ≠ i := by
    rintro v j points rfl
    exact absurd (refs_pos points) (by omega)
  constructor
  case typed =>
    intro j loaded
    have here : j ≠ i := by
      rintro rfl
      rw [valid, Function.update_self] at loaded
      cases loaded
    rw [valid, Function.update_of_ne here] at loaded
    rw [others j here]
    exact h.typed j loaded
  case kept =>
    intro j allocated unlinked
    have here : j ≠ i := by
      rintro rfl
      rw [node, Function.update_self] at allocated
      exact allocated rfl
    rw [others j here] at allocated unlinked
    obtain ⟨loaded, positive⟩ := h.kept j allocated unlinked
    rw [List.count_cons_of_ne fun same => here same.symm] at positive
    rw [var, valid, Function.update_of_ne here]
    exact ⟨loaded, positive⟩
  case count =>
    intro j
    have count := h.count j
    rw [var, ref]
    by_cases here : j = i
    · subst here
      rw [List.count_cons_self] at count
      rw [Function.update_self]
      omega
    · rw [List.count_cons_of_ne fun same => here same.symm] at count
      rw [Function.update_of_ne here]
      exact count
  case vars =>
    intro v j points
    rw [var] at points
    rw [others j (away v j points)]
    exact h.vars v j points
  case cwds =>
    intro p proc' running
    rw [proc] at running
    have points : s.var (p, none) = some proc'.cwd := by
      simp only [Sys.var, running, Option.map_some]
    unfold Nodes.dir
    rw [others _ (away _ _ points)]
    exact h.cwds p proc' running

theorem iput_proc (s : Sys) (i : Inum) : (s.iput i).proc = s.proc := by
  unfold Sys.iput
  split
  · rfl
  · rfl

/-- iput() frees the inode if nobody else has it and it has no links. -/
theorem Inv.iput (h : Inv tidy (i :: hand) credit s) :
    Inv tidy hand credit (s.iput i) ∧
      (¬ Last hand s i ∧ (s.iput i).node = s.node ∨
        Last hand s i ∧ (s.iput i).node = Function.update s.node i (freed (s.node i))) := by
  have count := h.held.count i
  rw [List.count_cons_self] at count
  by_cases frees : s.valid i = true ∧ (s.node i).nlink = 0 ∧ s.ref i = 1
  · have last : Last hand s i := ⟨h.held.typed i frees.1, frees.2.1, by omega⟩
    have same : s.iput i = ((s.setNode i (freed (s.node i))).setValid i false).setRef i
        (s.ref i - 1) := by
      unfold Sys.iput
      rw [if_pos frees]
      rfl
    rw [same]
    refine ⟨⟨?_, ?_⟩, Or.inr ⟨last, rfl⟩⟩
    · exact h.shape.free last.1 last.2.1 _ rfl
    · exact h.held.last rfl rfl rfl rfl last
  · have wanted : ¬ Last hand s i := by
      rintro ⟨allocated, unlinked, none_left⟩
      exact frees ⟨(h.held.kept i allocated unlinked).1, unlinked, by omega⟩
    have same : s.iput i = s.setRef i (s.ref i - 1) := by
      unfold Sys.iput
      rw [if_neg frees]
    rw [same]
    refine ⟨⟨h.shape, ?_⟩, Or.inl ⟨wanted, rfl⟩⟩
    exact h.held.drop rfl rfl rfl rfl wanted

end Refs

/-! ## Stores to inodes -/

section Stores
variable {tidy : Prop} {hand credit credit' : List Inum} {s s' : Sys} {i d : Inum}

/-- Entries are written. -/
theorem Held.nodes (h : Held hand s) (type : ∀ j, (s'.node j).type = (s.node j).type)
    (nlink : ∀ j, (s'.node j).nlink = 0 → (s.node j).nlink = 0 ∨
      s.valid j = true ∧ 0 < hand.count j)
    (proc : s'.proc = s.proc) (ref : s'.ref = s.ref) (valid : s'.valid = s.valid) :
    Held hand s' := by
  have var := var_congr proc
  constructor
  case typed =>
    intro j loaded
    rw [valid] at loaded
    rw [type]
    exact h.typed j loaded
  case kept =>
    intro j allocated unlinked
    rw [type] at allocated
    rw [var, valid]
    rcases nlink j unlinked with before | ⟨loaded, mine⟩
    · exact h.kept j allocated before
    · exact ⟨loaded, by omega⟩
  case count =>
    intro j
    rw [var, ref]
    exact h.count j
  case vars =>
    intro v j points
    rw [var] at points
    rw [type]
    exact h.vars v j points
  case cwds =>
    intro p proc' running
    rw [proc] at running
    unfold Nodes.dir
    rw [type]
    exact h.cwds p proc' running

theorem Inv.setNlink (h : Inv tidy hand credit s) (mine : i ∈ hand) (locked : s.valid i = true)
    (nlink : Int) (others : ∀ j, j ≠ i → credit'.count j = credit.count j)
    (same : nlink + credit.count i = (s.node i).nlink + credit'.count i) :
    Inv tidy hand credit' (s.setNlink i nlink) := by
  constructor
  case shape => exact h.shape.nlink nlink others same
  case held =>
    refine h.held.nodes ?_ ?_ rfl rfl rfl
    · intro j
      change (Function.update s.node i _ j).type = _
      by_cases here : j = i
      · subst here
        rw [Function.update_self]
      · rw [Function.update_of_ne here]
    · intro j unlinked
      change (Function.update s.node i _ j).nlink = 0 at unlinked
      by_cases here : j = i
      · subst here
        exact Or.inr ⟨locked, List.count_pos_iff.mpr mine⟩
      · rw [Function.update_of_ne here] at unlinked
        exact Or.inl unlinked

theorem Inv.setEntries (h : Inv tidy hand credit s) {rest : Dir} {entries : Dir}
    (same : entries = (s.node d).entries.take 2 ++ rest)
    (shape : Shape tidy credit' (Nodes.setRest s.node d rest)) :
    Inv tidy hand credit' (s.setEntries d entries) := by
  have node : (s.setEntries d entries).node = Nodes.setRest s.node d rest := by
    subst same
    rfl
  constructor
  case shape =>
    rw [node]
    exact shape
  case held =>
    refine h.held.nodes ?_ ?_ rfl rfl rfl
    · intro j
      rw [node]
      exact type_setRest s.node d rest j
    · intro j unlinked
      rw [node, nlink_setRest] at unlinked
      exact Or.inl unlinked

/-- A free inode gets a type and one link. -/
theorem Held.fresh (h : Held hand s) (free : (s.node i).type = 0) (allocated : (s'.node i).type ≠ 0)
    (one : (s'.node i).nlink = 1) (type : ∀ j, j ≠ i → (s'.node j).type = (s.node j).type)
    (nlink : ∀ j, j ≠ i → (s'.node j).nlink = 0 → (s.node j).nlink = 0 ∨
      s.valid j = true ∧ 0 < hand.count j)
    (proc : s'.proc = s.proc) (ref : s'.ref = Function.update s.ref i (s.ref i + 1))
    (valid : s'.valid = Function.update s.valid i true) : Held (i :: hand) s' := by
  have var := var_congr proc
  have away : ∀ v j, s.var v = some j → j ≠ i := by
    rintro v j points rfl
    exact h.vars v j points free
  constructor
  case typed =>
    intro j loaded
    by_cases here : j = i
    · rw [here]
      exact allocated
    · rw [valid, Function.update_of_ne here] at loaded
      rw [type j here]
      exact h.typed j loaded
  case kept =>
    intro j typed unlinked
    have here : j ≠ i := by
      rintro rfl
      rw [one] at unlinked
      cases unlinked
    rw [type j here] at typed
    rw [var, valid, Function.update_of_ne here, List.count_cons_of_ne fun same => here same.symm]
    rcases nlink j here unlinked with before | ⟨loaded, mine⟩
    · exact h.kept j typed before
    · exact ⟨loaded, by omega⟩
  case count =>
    intro j
    have count := h.count j
    rw [var, ref]
    by_cases here : j = i
    · subst here
      rw [Function.update_self, List.count_cons_self]
      omega
    · rw [Function.update_of_ne here, List.count_cons_of_ne fun same => here same.symm]
      exact count
  case vars =>
    intro v j points
    rw [var] at points
    rw [type j (away v j points)]
    exact h.vars v j points
  case cwds =>
    intro p proc' running
    rw [proc] at running
    have points : s.var (p, none) = some proc'.cwd := by
      simp only [Sys.var, running, Option.map_some]
    unfold Nodes.dir
    rw [type _ (away _ _ points)]
    exact h.cwds p proc' running

/-! ## Stores to current directories and files -/

/-- A reference moves between the call and a process. -/
theorem Held.store {hand' : List Inum} (h : Held hand s) {v : Pid × Option Fd} {x : Option Inum}
    (node : s'.node = s.node) (ref : s'.ref = s.ref) (valid : s'.valid = s.valid)
    (var : s'.var = Function.update s.var v x)
    (moved : ∀ j, hand'.count j + (if x = some j then 1 else 0) =
      hand.count j + if s.var v = some j then 1 else 0)
    (stored : ∀ j, x = some j → (s.node j).type ≠ 0)
    (cwds : ∀ p proc, s'.proc p = some proc → Nodes.dir s.node proc.cwd) : Held hand' s' := by
  have total : ∀ j, refs s'.var j + hand'.count j = refs s.var j + hand.count j := by
    intro j
    have changed := refs_update s.var v x j
    have same := moved j
    rw [var]
    omega
  constructor
  case typed =>
    intro j loaded
    rw [valid] at loaded
    rw [node]
    exact h.typed j loaded
  case kept =>
    intro j allocated unlinked
    rw [node] at allocated unlinked
    rw [total, valid]
    exact h.kept j allocated unlinked
  case count =>
    intro j
    rw [total, ref]
    exact h.count j
  case vars =>
    intro w j points
    rw [node]
    rw [var] at points
    by_cases here : w = v
    · subst here
      rw [Function.update_self] at points
      exact stored j points
    · rw [Function.update_of_ne here] at points
      exact h.vars w j points
  case cwds =>
    intro p proc running
    rw [node]
    exact cwds p proc running

/-- What the variables are after a store to the entry of a process. -/
theorem var_setProc {p : Pid} {x : Option Proc} {fd : Option Fd} {y : Option Inum}
    (mine : ∀ fd', fd' ≠ fd → (s.setProc p x).var (p, fd') = s.var (p, fd'))
    (here : (s.setProc p x).var (p, fd) = y) :
    (s.setProc p x).var = Function.update s.var (p, fd) y := by
  funext w
  obtain ⟨q, fd'⟩ := w
  by_cases same : q = p
  · subst same
    by_cases same' : fd' = fd
    · subst same'
      rw [Function.update_self]
      exact here
    · rw [Function.update_of_ne (by simp [same'])]
      exact mine fd' same'
  · rw [Function.update_of_ne (by simp [same])]
    cases fd' with
    | none => simp [Sys.var, Sys.setProc, same]
    | some fd' => simp [Sys.var, Sys.setProc, same]

theorem var_cwd {p : Pid} {proc : Proc} (running : s.proc p = some proc) (cwd : Inum) :
    (s.setProc p (some { proc with cwd := cwd })).var =
      Function.update s.var (p, none) (some cwd) := by
  apply var_setProc
  · intro fd' other
    cases fd' with
    | none => exact absurd rfl other
    | some fd' => simp [Sys.var, Sys.setProc, running]
  · simp [Sys.var, Sys.setProc]

theorem var_ofile {p : Pid} {proc : Proc} (running : s.proc p = some proc) (fd : Fd)
    (x : Option Inum) :
    (s.setProc p (some { proc with ofile := Function.update proc.ofile fd x })).var =
      Function.update s.var (p, some fd) x := by
  apply var_setProc
  · intro fd' other
    cases fd' with
    | none => simp [Sys.var, Sys.setProc, running]
    | some fd' =>
        have away : fd' ≠ fd := fun same => other (congrArg some same)
        simp [Sys.var, Sys.setProc, running, away]
  · simp [Sys.var, Sys.setProc]

theorem var_exit {p : Pid} {proc : Proc} (running : s.proc p = some proc)
    (closed : ∀ fd, proc.ofile fd = none) :
    (s.setProc p none).var = Function.update s.var (p, none) none := by
  apply var_setProc
  · intro fd' other
    cases fd' with
    | none => exact absurd rfl other
    | some fd' => simp [Sys.var, Sys.setProc, running, closed]
  · simp [Sys.var, Sys.setProc]

end Stores

end Xv6.Public1.Tree
