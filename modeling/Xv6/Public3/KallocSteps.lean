import Xv6.Public3.KallocInv

/-!
# The steps of kalloc() and kfree()
-/

set_option autoImplicit false

namespace Xv6.Public3.Kalloc

open Xv6.Lib.Words
open Xv6.Lib.Links (Chain)
open Xv6.Lib.Allocation (Holds)

variable {l : Placed} {m m' : Machine} {mem mem' : Memory} {t s : Thread} {u v r w : Word}
variable {p q : Point} {free : List Word} {kmem : Kmem} {stage : Stage}

/-! ## The pages of the points -/

theorem pages_goto : (m.goto t p).pages = Function.update m.pages t p.page := by
  funext s
  by_cases mine : s = t
  · subst mine
    rw [Machine.pages, goto_point, Function.update_self]
  · rw [Machine.pages, goto_point_other mine, Function.update_of_ne mine]
    rfl

theorem pages_kept (same : p.page = (m.point t).page) : (m.goto t p).pages = m.pages := by
  rw [pages_goto, same]
  exact Function.update_eq_self t m.pages

theorem pointer_some (nonzero : w ≠ 0) : pointer w = some w := if_neg nonzero

theorem pool_ne_zero (member : v ∈ pool l) : v ≠ 0 := by
  rintro rfl
  have first : l.kend ≤ (0 : Word).toNat := member.2.1
  have after : KERNLINK < l.kend := l.kend_after
  exact absurd (Nat.lt_of_lt_of_le after first) (Nat.not_lt_zero _)

/-! ## What the threads know -/

theorem Knows.unlocked (knows : Knows mem w p) (outside : p.locked = false) : Knows mem r p := by
  cases p with
  | unlink _ => cases outside
  | push _ => cases outside
  | _ => exact knows

theorem Knows.congr (knows : Knows mem w p) (aligned : ∀ u, p.page = some u → u.toNat % PGSIZE = 0)
    (same : ∀ u, p.page = some u → Same mem mem' u) : Knows mem' w p := by
  cases p with
  | taken r =>
      intro nonzero
      have here : (Point.taken r).page = some r := pointer_some nonzero
      exact (same r here).junk (aligned r here) (knows nonzero)
  | memset v n =>
      refine ⟨knows.1, fun i before => ?_⟩
      have inside : i < PGSIZE := by
        have last := knows.1
        unfold PGSIZE at last ⊢
        omega
      rw [(same v rfl).byte (aligned v rfl) inside]
      exact knows.2 i before
  | kfree v => exact (same v rfl).junk (aligned v rfl) knows
  | link v => exact (same v rfl).junk (aligned v rfl) knows
  | push v =>
      refine ⟨(same v rfl).junk (aligned v rfl) knows.1, ?_⟩
      rw [(same v rfl).loadWord (aligned v rfl)]
      exact knows.2
  | _ => exact knows

/-! ## Facts of a state -/

theorem Data.placed (data : Data l m free) (here : (m.point t).page = some v) : v ∈ pool l :=
  data.places.member (i := t) here

theorem Data.listed (data : Data l m free) (member : v ∈ free ++ m.held) : v ∈ pool l :=
  data.places.inside (data.places.frame_mem member)

theorem Data.apart (data : Data l m free) (here : (m.point t).page = some v)
    (member : u ∈ free ++ m.held) : u ≠ v := by
  rintro rfl
  exact data.places.apart (i := t) here member

theorem Data.other (data : Data l m free) (here : (m.point t).page = some v)
    (there : (m.point s).page = some u) (other : s ≠ t) : u ≠ v := by
  rintro rfl
  exact other (data.places.once (i := s) there here)

/-- A chain that starts somewhere has its first page there. -/
theorem Data.first (data : Data l m free) (nonzero : m.kmem.freelist ≠ 0) :
    ∃ rest, free = m.kmem.freelist :: rest := by
  have chain := data.chain
  rw [pointer_some nonzero] at chain
  cases free with
  | nil => cases chain
  | cons a rest => exact ⟨rest, by rw [Option.some.inj chain.1]⟩

/-- The list is empty when `freelist` is null. -/
theorem Data.empty_iff (data : Data l m free) : m.kmem.freelist = 0 ↔ free = [] := by
  constructor
  · intro null
    have chain := data.chain
    rw [null] at chain
    cases free with
    | nil => rfl
    | cons a rest => cases chain.1
  · rintro rfl
    by_contra nonzero
    obtain ⟨rest, impossible⟩ := data.first nonzero
    cases impossible

/-! ## Steps of the data -/

/-- A thread goes on, and no page changes hands. -/
theorem Data.goto (data : Data l m free) (same : p.page = (m.point t).page)
    (knows : Knows m.mem m.kmem.freelist p) (list : kmem.freelist = m.kmem.freelist)
    (limit : Machine.limit { m.goto t p with kmem := kmem, stage := stage } = m.limit) :
    Data l { m.goto t p with kmem := kmem, stage := stage } free := by
  constructor
  case fine => exact data.fine
  case chain =>
    show Chain (following m.mem) (pointer kmem.freelist) free
    rw [list]
    exact data.chain
  case once => exact data.once
  case places =>
    have pages : (m.goto t p).pages = m.pages := pages_kept same
    have managed : {v | Managed l { m.goto t p with kmem := kmem, stage := stage } v} =
        {v | Managed l m v} := by
      unfold Managed
      rw [limit]
    show Holds (pool l) (m.goto t p).pages _ _
    rw [pages, managed]
    exact data.places
  case junk => exact data.junk
  case knows =>
    intro s
    show Knows m.mem kmem.freelist ((m.goto t p).point s)
    rw [list]
    by_cases mine : s = t
    · subst mine
      rw [goto_point]
      exact knows
    · rw [goto_point_other mine]
      exact data.knows s

theorem Stage.limit_inside (before : p ≠ .freerange) (after : q ≠ .freerange) :
    stage.limit q = stage.limit p := by
  cases stage with
  | kinit1 page => exact (if_neg after).trans (if_neg before).symm
  | kinit2 page => exact (if_neg after).trans (if_neg before).symm
  | _ => rfl

theorem limit_goto (before : m.point t ≠ .freerange) (after : p ≠ .freerange) :
    (m.goto t p).limit = m.limit := by
  show m.stage.limit ((m.goto t p).point main) = m.stage.limit (m.point main)
  by_cases mine : main = t
  · subst mine
    rw [goto_point]
    exact Stage.limit_inside before after
  · rw [goto_point_other mine]

/-- A thread writes to the page in its hands. -/
theorem Data.stored (data : Data l m free) {i : Nat} (here : (m.point t).page = some v)
    (after : p.page = some v) (inside : i + 4 ≤ PGSIZE)
    (knows : Knows (storeWord m.mem (v + BitVec.ofNat 32 i) w) m.kmem.freelist p)
    (limit : (m.goto t p).limit = m.limit) :
    Data l ((m.store (v + BitVec.ofNat 32 i) w).goto t p) free := by
  have aligned : v.toNat % PGSIZE = 0 := (data.placed here).1
  have same : ∀ u, u ∈ pool l → u ≠ v →
      Same m.mem (storeWord m.mem (v + BitVec.ofNat 32 i) w) u := by
    intro u member other
    refine same_storeWord aligned inside fun page => other ?_
    exact page_eq member.1 aligned page
  constructor
  case fine => exact data.fine
  case chain =>
    refine data.chain.congr fun u member => ?_
    have listed : u ∈ free ++ m.held := List.mem_append_left _ member
    have there := data.listed listed
    exact congrArg pointer ((same u there (data.apart here listed)).loadWord there.1)
  case once => exact data.once
  case places =>
    have pages : (m.goto t p).pages = m.pages := pages_kept (after.trans here.symm)
    have managed : {v | Managed l (m.goto t p) v} = {v | Managed l m v} := by
      unfold Managed
      rw [limit]
    show Holds (pool l) (m.goto t p).pages _ {v | Managed l (m.goto t p) v}
    rw [pages, managed]
    exact data.places
  case junk =>
    intro u member
    have listed : u ∈ free ++ m.held := List.mem_append_left _ member
    have there := data.listed listed
    exact (same u there (data.apart here listed)).junk there.1 (data.junk u member)
  case knows =>
    intro s
    show Knows (storeWord m.mem _ w) m.kmem.freelist ((m.goto t p).point s)
    by_cases mine : s = t
    · subst mine
      rw [goto_point]
      exact knows
    · rw [goto_point_other mine]
      refine (data.knows s).congr (fun u there => (data.placed there).1) fun u there => ?_
      exact same u (data.placed there) (data.other here there mine)

/-- The list is changed by the thread that has the lock. -/
theorem Data.relisted (data : Data l m free) (locks : Locks m) {free' : List Word}
    (locked : (m.point t).locked = true)
    (chain : Chain (following m.mem) (pointer w) free') (once : (free' ++ m.held).Nodup)
    (places : Holds (pool l) (Function.update m.pages t p.page) {v | v ∈ free' ++ m.held}
      {v | Managed l m v})
    (junk : ∀ v ∈ free', Junk m.mem v) (knows : Knows m.mem w p)
    (limit : (m.goto t p).limit = m.limit) :
    Data l ((m.setList w).goto t p) free' := by
  constructor
  case fine => exact data.fine
  case chain => exact chain
  case once => exact once
  case places =>
    have managed : {v | Managed l (m.goto t p) v} = {v | Managed l m v} := by
      unfold Managed
      rw [limit]
    show Holds (pool l) (m.goto t p).pages _ {v | Managed l (m.goto t p) v}
    rw [pages_goto, managed]
    exact places
  case junk => exact junk
  case knows =>
    intro s
    show Knows m.mem w ((m.goto t p).point s)
    by_cases mine : s = t
    · subst mine
      rw [goto_point]
      exact knows
    · rw [goto_point_other mine]
      refine (data.knows s).unlocked (Bool.eq_false_of_not_eq_true fun inside => mine ?_)
      exact locks.exclusive locked inside

/-- `kmem.freelist = r->next` -/
theorem Data.unlinked (data : Data l m free) (locks : Locks m) (here : m.point t = .unlink r)
    (nonzero : r ≠ 0) :
    ∃ rest, free = r :: rest ∧ Data l ((m.setList (loadWord m.mem r)).goto t (.taken r)) rest := by
  have first : r = m.kmem.freelist := by
    have knows := data.knows t
    rw [here] at knows
    exact knows
  obtain ⟨rest, list⟩ := data.first (first ▸ nonzero)
  rw [← first] at list
  subst list
  refine ⟨rest, rfl, ?_⟩
  have fresh : r ∉ rest ++ m.held := (List.nodup_cons.mp data.once).1
  have empty : m.pages t = none := by
    rw [Machine.pages, here]
    rfl
  have frame : {v | v ∈ r :: rest ++ m.held} = insert r {v | v ∈ rest ++ m.held} := by
    ext v
    exact List.mem_cons
  have places := data.places
  rw [frame] at places
  refine data.relisted locks (by rw [here]; rfl) data.chain.2 (List.nodup_cons.mp data.once).2
    ?_ (fun v member => data.junk v (List.mem_cons_of_mem r member))
    (fun _ => data.junk r List.mem_cons_self) ?_
  · have page : (Point.taken r).page = some r := pointer_some nonzero
    rw [page]
    exact places.place fresh empty
  · exact limit_goto (by rw [here]; exact Point.noConfusion) Point.noConfusion

/-- `kmem.freelist = r` -/
theorem Data.pushed (data : Data l m free) (locks : Locks m) (here : m.point t = .push v) :
    Data l ((m.setList v).goto t .freed) (v :: free) := by
  have knows := data.knows t
  have page : (m.point t).page = some v := congrArg Point.page here
  rw [here] at knows
  have fresh : v ∉ free ++ m.held := fun member => data.apart page member rfl
  refine data.relisted locks (by rw [here]; rfl) ?_ (List.nodup_cons.mpr ⟨fresh, data.once⟩) ?_
    ?_ trivial ?_
  · refine ⟨pointer_some (pool_ne_zero (data.placed page)), ?_⟩
    have link : following m.mem v = pointer m.kmem.freelist := congrArg pointer knows.2
    rw [link]
    exact data.chain
  · have frame : {u | u ∈ v :: free ++ m.held} = insert v {u | u ∈ free ++ m.held} := by
      ext u
      exact List.mem_cons
    rw [frame]
    exact data.places.unplace (i := t) page
  · intro u member
    rcases List.mem_cons.mp member with rfl | member
    · exact knows.1
    · exact data.junk u member
  · exact limit_goto (by rw [here]; exact Point.noConfusion) Point.noConfusion

/-- kalloc() returns a page. -/
theorem Data.returned (data : Data l m free) (here : m.point t = .taken r) (nonzero : r ≠ 0)
    (list : kmem.freelist = m.kmem.freelist) :
    Data l { m.goto t .away with kmem := kmem, held := r :: m.held } free := by
  have page : (m.point t).page = some r := (congrArg Point.page here).trans (pointer_some nonzero)
  have fresh : r ∉ free ++ m.held := fun member => data.apart page member rfl
  have limit : (m.goto t .away).limit = m.limit :=
    limit_goto (by rw [here]; exact Point.noConfusion) Point.noConfusion
  have chain : Chain (following m.mem) (pointer kmem.freelist) free := by
    rw [list]
    exact data.chain
  constructor
  case fine => exact data.fine
  case chain => exact chain
  case once => exact List.nodup_middle.mpr (List.nodup_cons.mpr ⟨fresh, data.once⟩)
  case places =>
    have managed : {v | Managed l (m.goto t .away) v} = {v | Managed l m v} := by
      unfold Managed
      rw [limit]
    have frame : {u | u ∈ free ++ r :: m.held} = insert r {u | u ∈ free ++ m.held} := by
      ext u
      exact List.mem_cons.symm.trans List.perm_middle.mem_iff.symm |>.symm
    show Holds (pool l) (m.goto t .away).pages {u | u ∈ free ++ r :: m.held}
      {v | Managed l (m.goto t .away) v}
    rw [pages_goto, managed, frame]
    exact data.places.unplace (i := t) page
  case junk => exact data.junk
  case knows =>
    intro s
    show Knows m.mem kmem.freelist ((m.goto t .away).point s)
    rw [list]
    by_cases mine : s = t
    · subst mine
      rw [goto_point]
      trivial
    · rw [goto_point_other mine]
      exact data.knows s

/-- kfree() is called. -/
theorem Data.called (data : Data l m free) (here : m.point t = .away) (member : v ∈ m.held) :
    Data l { m.goto t (.memset v 0) with held := m.held.erase v } free := by
  have parts := List.nodup_append.mp data.once
  have away : v ∉ m.held.erase v := fun left => (parts.2.1.mem_erase_iff.mp left).1 rfl
  have fresh : v ∉ free ++ m.held.erase v := by
    intro there
    rcases List.mem_append.mp there with listed | left
    · exact parts.2.2 v listed v member rfl
    · exact away left
  have empty : m.pages t = none := by
    rw [Machine.pages, here]
    rfl
  have limit : (m.goto t (.memset v 0)).limit = m.limit :=
    limit_goto (by rw [here]; exact Point.noConfusion) Point.noConfusion
  constructor
  case fine => exact data.fine
  case chain => exact data.chain
  case once => exact data.once.sublist ((List.erase_sublist ..).append_left free)
  case places =>
    have managed : {u | Managed l (m.goto t (.memset v 0)) u} = {u | Managed l m u} := by
      unfold Managed
      rw [limit]
    have frame : {u | u ∈ free ++ m.held} = insert v {u | u ∈ free ++ m.held.erase v} := by
      ext u
      rw [Set.mem_insert_iff, Set.mem_ofPred_eq, Set.mem_ofPred_eq, List.mem_append,
        List.mem_append, parts.2.1.mem_erase_iff]
      by_cases same : u = v
      · subst same
        exact iff_of_true (Or.inr member) (Or.inl rfl)
      · simp [same]
    have places := data.places
    rw [frame] at places
    show Holds (pool l) (m.goto t _).pages {u | u ∈ free ++ m.held.erase v}
      {u | Managed l (m.goto t _) u}
    rw [pages_goto, managed]
    exact places.place fresh empty
  case junk => exact data.junk
  case knows =>
    intro s
    show Knows m.mem m.kmem.freelist ((m.goto t _).point s)
    by_cases mine : s = t
    · subst mine
      rw [goto_point]
      exact ⟨Nat.zero_le _, fun i before => absurd before (Nat.not_lt_zero i)⟩
    · rw [goto_point_other mine]
      exact data.knows s

/-- freerange() gives its next page to kfree(). -/
theorem Data.entered (data : Data l m free) {page : Word} (here : m.point main = .freerange)
    (at_page : m.stage = .kinit1 page ∨ m.stage = .kinit2 page) (member : page ∈ pool l) :
    Data l (m.goto main (.memset page 0)) free := by
  have before : m.limit = page.toNat := by
    rcases at_page with stage | stage <;> simp [Machine.limit, Stage.limit, here, stage]
  have after : (m.goto main (.memset page 0)).limit = page.toNat + PGSIZE := by
    show m.stage.limit ((m.goto main _).point main) = _
    rcases at_page with stage | stage <;> simp [Stage.limit, stage]
  have fresh : page ∉ {v | Managed l m v} := by
    intro inside
    have below : page.toNat < m.limit := inside.2.2
    rw [before] at below
    exact Nat.lt_irrefl _ below
  have empty : m.pages main = none := by
    rw [Machine.pages, here]
    rfl
  have managed : {v | Managed l (m.goto main (.memset page 0)) v} =
      insert page {v | Managed l m v} := by
    ext v
    rw [Set.mem_insert_iff, Set.mem_ofPred_eq, Set.mem_ofPred_eq, Managed, Managed, before, after]
    constructor
    · rintro ⟨aligned, first, last⟩
      by_cases same : v = page
      · exact Or.inl same
      · refine Or.inr ⟨aligned, first, ?_⟩
        have other : v.toNat ≠ page.toNat := fun eq => same (BitVec.eq_of_toNat_eq eq)
        have start := member.1
        unfold PGSIZE at aligned start last
        omega
    · rintro (rfl | ⟨aligned, first, last⟩)
      · exact ⟨member.1, member.2.1, Nat.lt_add_of_pos_right (by decide)⟩
      · exact ⟨aligned, first, Nat.lt_add_right PGSIZE last⟩
  constructor
  case fine => exact data.fine
  case chain => exact data.chain
  case once => exact data.once
  case places =>
    rw [pages_goto, managed]
    have framed : page ∉ {v | v ∈ free ++ m.held} := fun listed =>
      fresh (data.places.frame_mem listed)
    exact (data.places.aside member fresh).place framed empty
  case junk => exact data.junk
  case knows =>
    intro s
    show Knows m.mem m.kmem.freelist ((m.goto main _).point s)
    by_cases mine : s = main
    · subst mine
      rw [goto_point]
      exact ⟨Nat.zero_le _, fun i before => absurd before (Nat.not_lt_zero i)⟩
    · rw [goto_point_other mine]
      exact data.knows s

/-- Other code has written to memory, but not to the pages of the allocator. -/
theorem Data.written (data : Data l m free)
    (same : ∀ u ∈ pool l, u ∉ m.held → Same m.mem mem' u) : Data l { m with mem := mem' } free := by
  have listed : ∀ u ∈ free, u ∈ pool l ∧ u ∉ m.held := by
    intro u member
    refine ⟨data.listed (List.mem_append_left _ member), fun held => ?_⟩
    exact (List.nodup_append.mp data.once).2.2 u member u held rfl
  constructor
  case fine => exact data.fine
  case chain =>
    refine data.chain.congr fun u member => ?_
    obtain ⟨there, away⟩ := listed u member
    exact congrArg pointer ((same u there away).loadWord there.1)
  case once => exact data.once
  case places => exact data.places
  case junk =>
    intro u member
    obtain ⟨there, away⟩ := listed u member
    exact (same u there away).junk there.1 (data.junk u member)
  case knows =>
    intro s
    refine (data.knows s).congr (fun u there => (data.placed there).1) fun u there => ?_
    refine same u (data.placed there) fun held => ?_
    exact data.apart there (List.mem_append_right free held) rfl

end Xv6.Public3.Kalloc
