import Xv6.Lib.Handles
import Xv6.Public1.BufCache

/-!
# The invariant of the buffer cache (xv6-public_1)

The list has every buffer once, the counters count, the lock of a buffer has one holder
and a block has one buffer, whatever the order of the steps.
-/

set_option autoImplicit false

namespace Xv6.Public1.BufCache

open Xv6.Lib
open Xv6.Lib.Words
open Xv6.Lib.Links
open Xv6.Lib.Handles
open Xv6.Public1.Blocks (Block)

variable {V : Type}

/-! ## Fields after a store -/

section Fields
variable (s : State V) (v w : V) (p q : Option (Slot × Stage)) (b c : Slot) (x : Buf)

@[simp] theorem setBuf_buf : (s.setBuf b x).buf c = if c = b then x else s.buf c :=
  Function.update_apply s.buf b x c

@[simp] theorem setBuf_var : (s.setBuf b x).var = s.var := rfl

@[simp] theorem setBuf_lock : (s.setBuf b x).lock = s.lock := rfl

@[simp] theorem setBuf_next : (s.setBuf b x).next = s.next := rfl

@[simp] theorem setBuf_prev : (s.setBuf b x).prev = s.prev := rfl

@[simp] theorem setBuf_disk : (s.setBuf b x).disk = s.disk := rfl

@[simp] theorem unlink_buf : (s.unlink b).buf = s.buf := rfl

@[simp] theorem link_buf : (s.link b).buf = s.buf := rfl

@[simp] theorem unlink_var : (s.unlink b).var = s.var := rfl

@[simp] theorem link_var : (s.link b).var = s.var := rfl

@[simp] theorem unlink_lock : (s.unlink b).lock = s.lock := rfl

@[simp] theorem link_lock : (s.link b).lock = s.lock := rfl

@[simp] theorem unlink_disk : (s.unlink b).disk = s.disk := rfl

@[simp] theorem link_disk : (s.link b).disk = s.disk := rfl

variable [DecidableEq V]

@[simp] theorem point_var : (s.point v p).var w = if w = v then p else s.var w :=
  Function.update_apply s.var v p w

@[simp] theorem point_buf : (s.point v p).buf = s.buf := rfl

@[simp] theorem point_lock : (s.point v p).lock = s.lock := rfl

@[simp] theorem point_next : (s.point v p).next = s.next := rfl

@[simp] theorem point_prev : (s.point v p).prev = s.prev := rfl

@[simp] theorem point_disk : (s.point v p).disk = s.disk := rfl

end Fields

/-! ## The list -/

theorem nodes_nodup {bufs : List Slot} (once : bufs.Nodup) :
    ((head :: bufs.map some : List Node)).Nodup := by
  refine List.nodup_cons.mpr ⟨?_, once.map (Option.some_injective Slot)⟩
  intro member
  obtain ⟨b, -, same⟩ := List.mem_map.mp member
  cases same

theorem twin_iff {next prev : Node → Node} {bufs : List Slot} :
    Twin next prev (head :: bufs.map some) ↔
      Ring next (head :: bufs.map some) ∧ Ring prev (head :: bufs.reverse.map some) := by
  have reversed : (head :: bufs.map some : List Node).reverse =
      bufs.reverse.map some ++ [head] := by simp
  constructor
  · rintro ⟨forth, back⟩
    rw [reversed] at back
    exact ⟨forth, back.rotate⟩
  · rintro ⟨forth, back⟩
    refine ⟨forth, ?_⟩
    rw [reversed]
    exact @Ring.rotate Node prev [head] (bufs.reverse.map some) back

/-- What the loops of bget() come to. -/
theorem find_ring {follow : Node → Node} {bufs : List Slot} {test : Slot → Bool}
    (ring : Ring follow (head :: bufs.map some)) (once : bufs.Nodup) (all : ∀ b, b ∈ bufs) :
    State.find follow test = some (bufs.find? test) := by
  have count : bufs.length = NBUF := by
    have perm : bufs.Perm (List.finRange NBUF) := by
      refine (List.perm_ext_iff_of_nodup once (List.nodup_finRange NBUF)).mpr fun b => ?_
      exact iff_of_true (all b) (List.mem_finRange b)
    rw [perm.length_eq, List.length_finRange]
  unfold State.find
  have around := @walk_around Node follow (State.stops test) head (bufs.map some) ring rfl
  rw [List.length_map, count] at around
  have same : State.stops test ∘ some = test := rfl
  rw [around, List.find?_map, same]
  cases bufs.find? test with
  | none => rfl
  | some b => rfl

/-- The buffer at the front of the list. -/
theorem moved_lists {s : State V} {before after : List Slot} {b : Slot}
    (lists : s.Lists (before ++ b :: after)) :
    ((s.unlink b).link b).Lists (b :: (before ++ after)) := by
  obtain ⟨once, all, forth, back⟩ := lists
  have twin := twin_iff.mpr ⟨forth, back⟩
  -- The node in front of `b`.
  obtain ⟨front, a, nodes⟩ : ∃ front a,
      (head :: before.map some : List Node) = front ++ [a] := by
    obtain nil | ⟨front, a, same⟩ := List.eq_nil_or_concat (head :: before.map some : List Node)
    · cases nil
    · exact ⟨front, a, by rw [same, List.concat_eq_append]⟩
  have whole : (head :: (before ++ b :: after).map some : List Node) =
      front ++ a :: some b :: after.map some := by
    rw [List.map_append, ← List.cons_append, nodes, List.map_cons, List.append_assoc]
    rfl
  have fresh := nodes_nodup once
  rw [whole] at twin fresh
  obtain ⟨apart, behind, removed⟩ := twin.unlink fresh
  have rest : front ++ a :: after.map some = (head :: (before ++ after).map some : List Node) := by
    rw [List.map_append, ← List.cons_append, nodes, List.append_assoc]
    rfl
  rw [rest] at removed
  have turned : (b :: (before ++ after)).Nodup := List.nodup_middle.mp once
  obtain ⟨notIn, others⟩ := List.nodup_cons.mp turned
  have unlinked : Twin (s.unlink b).next (s.unlink b).prev
      (head :: (before ++ after).map some) := by
    have next : (s.unlink b).next = Function.update s.next (s.prev b) (s.next b) := by
      simp only [State.unlink, State.setNext, State.setPrev, Function.update_of_ne (Ne.symm apart)]
    have prev : (s.unlink b).prev = Function.update s.prev (s.next b) (s.prev b) := rfl
    rw [next, prev]
    exact removed
  have absent : (some b : Node) ∉ (head :: (before ++ after).map some : List Node) := by
    intro member
    rcases List.mem_cons.mp member with same | inside
    · cases same
    · obtain ⟨c, there, same⟩ := List.mem_map.mp inside
      cases same
      exact notIn there
  obtain ⟨other, linked⟩ := unlinked.link (nodes_nodup others) absent
  have rings : Twin ((s.unlink b).link b).next ((s.unlink b).link b).prev
      (head :: (b :: (before ++ after)).map some) := by
    have notHead : (some b : Node) ≠ head := by
      intro same
      cases same
    have next : ((s.unlink b).link b).next = Function.update (Function.update (s.unlink b).next b
        ((s.unlink b).next head)) head b := rfl
    have prev : ((s.unlink b).link b).prev = Function.update (Function.update (s.unlink b).prev b
        head) ((s.unlink b).next head) b := by
      simp only [State.link, State.setNext, State.setPrev,
        Function.update_of_ne (Ne.symm notHead)]
    rw [next, prev]
    exact linked
  obtain ⟨forth, back⟩ := twin_iff.mp rings
  exact ⟨turned, fun c => List.perm_middle.mem_iff.mp (all c), forth, back⟩

/-! ## The invariant -/

/-- A buffer that has not been used since binit(), for block 0 of device 0. -/
structure State.Fresh (s : State V) (b : Slot) : Prop where
  dev : (s.buf b).dev = 0
  blockno : (s.buf b).blockno = 0
  refcnt : (s.buf b).refcnt = 0
  valid : (s.buf b).valid = false

/-- Of the buffers for one block, all but the first in the list are fresh. -/
def State.Single (s : State V) (bufs : List Slot) : Prop :=
  bufs.Pairwise fun b c => s.SameBlock b c → s.Fresh c

theorem single_iff {s : State V} {before after : List Slot} {b : Slot} :
    s.Single (before ++ b :: after) ↔ s.Single (before ++ after) ∧
      (∀ c ∈ before, s.SameBlock c b → s.Fresh b) ∧ ∀ c ∈ after, s.SameBlock b c → s.Fresh c := by
  unfold State.Single
  rw [List.pairwise_append, List.pairwise_append, List.pairwise_cons]
  constructor
  · rintro ⟨front, ⟨later, back⟩, across⟩
    refine ⟨⟨front, back, fun c first d second => ?_⟩, fun c member => ?_, later⟩
    · exact across c first d (List.mem_cons_of_mem b second)
    · exact across c member b List.mem_cons_self
  · rintro ⟨⟨front, back, across⟩, earlier, later⟩
    refine ⟨front, ⟨later, back⟩, fun c first d second => ?_⟩
    rcases List.mem_cons.mp second with here | there
    · rw [here]
      exact earlier c first
    · exact across c first d there

structure State.Inv [Fintype V] (s : State V) : Prop where
  listed : ∃ bufs, s.Lists bufs ∧ s.Single bufs
  counted : Counted s.var fun b => (s.buf b).refcnt
  owned : Owned Stage.locks s.var s.lock
  loaded : ∀ v b stage, s.var v = some (b, stage) → stage.reads = true → (s.buf b).valid = true
  pinned : ∀ b, (s.buf b).dirty = true → (s.buf b).valid = true

theorem locks_of_reads {stage : Stage} (reads : stage.reads = true) : stage.locks = true := by
  cases stage with
  | inside | changed => rfl
  | waiting | locked | leaving => cases reads

/-- A block has one buffer that is not fresh. -/
theorem State.Inv.single [Fintype V] {s : State V} (h : s.Inv) {b c : Slot} (used : ¬s.Fresh b)
    (used' : ¬s.Fresh c) (same : s.SameBlock b c) : b = c := by
  obtain ⟨bufs, lists, single⟩ := h.listed
  obtain ⟨before, after, split⟩ := List.append_of_mem (lists.all b)
  rw [split] at single
  obtain ⟨-, earlier, later⟩ := single_iff.mp single
  have member := lists.all c
  rw [split] at member
  rcases List.mem_append.mp member with first | rest
  · exact absurd (earlier c first ⟨same.1.symm, same.2.symm⟩) used
  · rcases List.mem_cons.mp rest with here | second
    · exact here.symm
    · exact absurd (later c second same) used'

theorem State.Inv.not_fresh [Fintype V] {s : State V} (h : s.Inv) {v : V} {b : Slot}
    {stage : Stage} (points : s.var v = some (b, stage)) : ¬s.Fresh b := by
  intro fresh
  have counted := h.counted.pos points
  rw [fresh.refcnt] at counted
  exact Int.lt_irrefl 0 counted

/-- A step of the process that uses a buffer, from one stage to another, with what it makes of
the buffer. -/
structure Turns [DecidableEq V] (s t : State V) (v : V) (b : Slot) (stage stage' : Stage)
    (x : Buf) : Prop where
  before : s.var v = some (b, stage)
  free : s.lock b = none ∨ s.lock b = some v
  var : ∀ w, t.var w = if w = v then some (b, stage') else s.var w
  buf : ∀ c, t.buf c = if c = b then x else s.buf c
  dev : x.dev = (s.buf b).dev
  blockno : x.blockno = (s.buf b).blockno
  refcnt : x.refcnt = (s.buf b).refcnt
  disk : ∀ d n, ¬(d = (s.buf b).dev ∧ n = (s.buf b).blockno) → t.disk d n = s.disk d n
  taken : t.lock b = if stage'.locks = true then some v else none
  lock : ∀ c, c ≠ b → t.lock c = s.lock c
  next : t.next = s.next
  prev : t.prev = s.prev
  loaded : stage'.reads = true → x.valid = true
  valid : (s.buf b).valid = true → x.valid = true
  dirty : x.dirty = true → x.valid = true

/-- bget() counts one more user of a buffer, which it has perhaps recycled. -/
structure Gains [DecidableEq V] (s t : State V) (v : V) (b : Slot) (x : Buf)
    (bufs : List Slot) : Prop where
  before : s.var v = none
  var : ∀ w, t.var w = if w = v then some (b, .waiting) else s.var w
  buf : ∀ c, t.buf c = if c = b then x else s.buf c
  refcnt : x.refcnt = (s.buf b).refcnt + 1
  disk : t.disk = s.disk
  lock : t.lock = s.lock
  next : t.next = s.next
  prev : t.prev = s.prev
  kept : x = { s.buf b with refcnt := x.refcnt } ∧
      (∃ before after, bufs = before ++ b :: after ∧ ∀ c ∈ before, ¬s.SameBlock c b) ∨
    (s.buf b).refcnt = 0 ∧ (s.buf b).dirty = false ∧ x.valid = false ∧ x.dirty = false ∧
      ∀ c, ¬((s.buf c).dev = x.dev ∧ (s.buf c).blockno = x.blockno)

/-- The end of brelse(). -/
structure Drops [DecidableEq V] (s t : State V) (v : V) (b : Slot) : Prop where
  before : s.var v = some (b, .leaving)
  var : ∀ w, t.var w = if w = v then none else s.var w
  buf : ∀ c, t.buf c = if c = b then { s.buf b with refcnt := (s.buf b).refcnt - 1 } else s.buf c
  disk : t.disk = s.disk
  lock : t.lock = s.lock
  lists : ∀ before after, s.Lists (before ++ b :: after) →
    t.Lists (before ++ b :: after) ∨ t.Lists (b :: (before ++ after))

section Kept
variable [Fintype V] [DecidableEq V] {s t : State V} {v : V} {b : Slot}

theorem Turns.inv {stage stage' : Stage} {x : Buf} (turn : Turns s t v b stage stage' x)
    (h : s.Inv) : t.Inv := by
  have place : ∀ c, (t.buf c).dev = (s.buf c).dev ∧ (t.buf c).blockno = (s.buf c).blockno := by
    intro c
    rw [turn.buf]
    split
    · rename_i here
      rw [here]
      exact ⟨turn.dev, turn.blockno⟩
    · exact ⟨rfl, rfl⟩
  constructor
  case listed =>
    obtain ⟨bufs, ⟨once, all, forth, back⟩, single⟩ := h.listed
    refine ⟨bufs, ⟨once, all, turn.next ▸ forth, turn.prev ▸ back⟩, single.imp ?_⟩
    intro c d fresh same
    unfold State.SameBlock at same
    rw [(place c).1, (place c).2, (place d).1, (place d).2] at same
    have before := fresh same
    have other : d ≠ b := by
      rintro rfl
      exact h.not_fresh turn.before before
    have kept : t.buf d = s.buf d := by rw [turn.buf, if_neg other]
    exact ⟨kept ▸ before.dev, kept ▸ before.blockno, kept ▸ before.refcnt, kept ▸ before.valid⟩
  case counted =>
    refine h.counted.congr (slot_turn turn.before turn.var) fun c => ?_
    rw [turn.buf]
    split
    · rename_i here
      rw [here, turn.refcnt]
    · rfl
  case owned => exact h.owned.turn turn.before turn.free turn.var turn.taken turn.lock
  case loaded =>
    intro w c stage₂ points reads
    rw [turn.var] at points
    split at points
    · cases points
      rw [turn.buf, if_pos rfl]
      exact turn.loaded reads
    · have valid := h.loaded w c stage₂ points reads
      rw [turn.buf]
      split
      · rename_i here
        exact turn.valid (here ▸ valid)
      · exact valid
  case pinned =>
    intro c dirty
    rw [turn.buf] at dirty ⊢
    split
    · rename_i here
      rw [if_pos here] at dirty
      exact turn.dirty dirty
    · rename_i there
      rw [if_neg there] at dirty
      exact h.pinned c dirty

omit [Fintype V] in
/-- The buffers that bget() does not touch are in the order that they were in. -/
theorem Gains.single {x : Buf} {bufs before after : List Slot} (gain : Gains s t v b x bufs)
    (once : (before ++ b :: after).Nodup) (single : s.Single (before ++ b :: after))
    (missed : ∀ c ∈ before, ¬((s.buf c).dev = x.dev ∧ (s.buf c).blockno = x.blockno))
    (later : ∀ c ∈ after, (s.buf c).dev = x.dev → (s.buf c).blockno = x.blockno → s.Fresh c) :
    t.Single (before ++ b :: after) := by
  have notIn : b ∉ before ++ after := (List.nodup_cons.mp (List.nodup_middle.mp once)).1
  have others : ∀ c ∈ before ++ after, t.buf c = s.buf c := by
    intro c member
    rw [gain.buf, if_neg]
    rintro rfl
    exact notIn member
  have fresh : ∀ c ∈ before ++ after, s.Fresh c → t.Fresh c := by
    intro c member before
    have kept := others c member
    exact ⟨kept ▸ before.dev, kept ▸ before.blockno, kept ▸ before.refcnt, kept ▸ before.valid⟩
  have here : t.buf b = x := by rw [gain.buf, if_pos rfl]
  refine single_iff.mpr ⟨?_, ?_, ?_⟩
  · refine List.Pairwise.imp_of_mem ?_ (single_iff.mp single).1
    intro c d first second before same
    unfold State.SameBlock at same
    rw [others c first, others d second] at same
    exact fresh d second (before same)
  · intro c member same
    unfold State.SameBlock at same
    rw [others c (List.mem_append_left after member), here] at same
    exact absurd same (missed c member)
  · intro c member same
    have inside : c ∈ before ++ after := List.mem_append_right before member
    unfold State.SameBlock at same
    rw [others c inside, here] at same
    exact fresh c inside (later c member same.1.symm same.2.symm)

theorem Gains.inv {x : Buf} {bufs : List Slot} (gain : Gains s t v b x bufs) (h : s.Inv)
    (lists : s.Lists bufs) (single : s.Single bufs) : t.Inv := by
  constructor
  case listed =>
    refine ⟨bufs, ⟨lists.once, lists.all, gain.next ▸ lists.forth, gain.prev ▸ lists.back⟩, ?_⟩
    have once := lists.once
    rcases gain.kept with ⟨kept, before, after, split, missed⟩ | ⟨-, -, -, -, absent⟩
    · subst split
      have dev : x.dev = (s.buf b).dev := by rw [kept]
      have blockno : x.blockno = (s.buf b).blockno := by rw [kept]
      refine gain.single once single ?_ ?_
      · intro c member same
        rw [dev, blockno] at same
        exact missed c member same
      · intro c member first second
        rw [dev] at first
        rw [blockno] at second
        exact (single_iff.mp single).2.2 c member ⟨first.symm, second.symm⟩
    · obtain ⟨before, after, split⟩ := List.append_of_mem (lists.all b)
      subst split
      exact gain.single once single (fun c _ => absent c)
        fun c _ first second => absurd ⟨first, second⟩ (absent c)
  case counted =>
    refine h.counted.gain gain.before gain.var fun c => ?_
    rw [gain.buf]
    split
    · exact gain.refcnt
    · rfl
  case owned =>
    refine h.owned.congr gain.lock fun w => ?_
    rw [gain.var]
    split
    · rename_i mine
      refine Or.inr ⟨fun j stage points => ?_, fun j stage points => ?_⟩
      · rw [mine, gain.before] at points
        cases points
      · cases points
        rfl
    · exact Or.inl rfl
  case loaded =>
    intro w c stage points reads
    rw [gain.var] at points
    split at points
    · cases points
      cases reads
    · have valid := h.loaded w c stage points reads
      rw [gain.buf]
      split
      · rename_i here
        rcases gain.kept with ⟨kept, -⟩ | ⟨unused, -⟩
        · rw [kept]
          exact here ▸ valid
        · have used := h.counted.pos points
          rw [here] at used
          omega
      · exact valid
  case pinned =>
    intro c dirty
    rw [gain.buf] at dirty ⊢
    split
    · rename_i here
      rw [if_pos here] at dirty
      rcases gain.kept with ⟨kept, -⟩ | ⟨-, -, -, clean, -⟩
      · rw [kept] at dirty ⊢
        exact h.pinned b dirty
      · rw [clean] at dirty
        cases dirty
    · rename_i there
      rw [if_neg there] at dirty
      exact h.pinned c dirty

theorem Drops.inv (drops : Drops s t v b) (h : s.Inv) : t.Inv := by
  have same : ∀ c, (t.buf c).dev = (s.buf c).dev ∧ (t.buf c).blockno = (s.buf c).blockno ∧
      (t.buf c).valid = (s.buf c).valid ∧ (t.buf c).dirty = (s.buf c).dirty := by
    intro c
    rw [drops.buf]
    split
    · rename_i here
      rw [here]
      exact ⟨rfl, rfl, rfl, rfl⟩
    · exact ⟨rfl, rfl, rfl, rfl⟩
  constructor
  case listed =>
    obtain ⟨bufs, lists, single⟩ := h.listed
    obtain ⟨before, after, split⟩ := List.append_of_mem (lists.all b)
    subst split
    obtain ⟨rest, earlier, later⟩ := single_iff.mp single
    have used := h.not_fresh drops.before
    have place : ∀ {c d}, t.SameBlock c d → s.SameBlock c d := by
      intro c d together
      unfold State.SameBlock at together
      rwa [(same c).1, (same d).1, (same c).2.1, (same d).2.1] at together
    have fresh : ∀ {c}, s.Fresh c → t.Fresh c := by
      intro c before
      have other : c ≠ b := by
        rintro rfl
        exact used before
      have kept : t.buf c = s.buf c := by rw [drops.buf, if_neg other]
      exact ⟨kept ▸ before.dev, kept ▸ before.blockno, kept ▸ before.refcnt, kept ▸ before.valid⟩
    rcases drops.lists before after lists with still | moved
    · exact ⟨_, still, single.imp fun before together => fresh (before (place together))⟩
    · refine ⟨_, moved, ?_⟩
      have front : s.Single ([] ++ b :: (before ++ after)) := by
        refine single_iff.mpr ⟨rest, fun c member => absurd member (List.not_mem_nil), ?_⟩
        intro c member together
        rcases List.mem_append.mp member with first | second
        · exact absurd (earlier c first ⟨together.1.symm, together.2.symm⟩) used
        · exact later c second together
      exact List.Pairwise.imp (fun before together => fresh (before (place together))) front
  case counted =>
    refine h.counted.drop drops.before drops.var fun c => ?_
    rw [drops.buf]
    split <;> rfl
  case owned =>
    refine h.owned.congr drops.lock fun w => ?_
    rw [drops.var]
    split
    · rename_i mine
      refine Or.inr ⟨fun j stage points => ?_, fun j stage points => ?_⟩
      · rw [mine, drops.before] at points
        cases points
        rfl
      · cases points
    · exact Or.inl rfl
  case loaded =>
    intro w c stage points reads
    rw [drops.var] at points
    split at points
    · cases points
    · rw [(same c).2.2.1]
      exact h.loaded w c stage points reads
  case pinned =>
    intro c dirty
    rw [(same c).2.2.1]
    rw [(same c).2.2.2] at dirty
    exact h.pinned c dirty

/-! ## What the steps are -/

/-- A step of the process that has the lock, and keeps it or lets it go. -/
theorem turns_of_holder (h : s.Inv) {stage stage' : Stage} {x : Buf}
    (before : s.var v = some (b, stage)) (locks : stage.locks = true)
    (var : ∀ w, t.var w = if w = v then some (b, stage') else s.var w)
    (buf : ∀ c, t.buf c = if c = b then x else s.buf c)
    (dev : x.dev = (s.buf b).dev) (blockno : x.blockno = (s.buf b).blockno)
    (refcnt : x.refcnt = (s.buf b).refcnt)
    (disk : ∀ d n, ¬(d = (s.buf b).dev ∧ n = (s.buf b).blockno) → t.disk d n = s.disk d n)
    (lock : stage'.locks = true ∧ t.lock = s.lock ∨
      stage'.locks = false ∧ ∀ c, t.lock c = if c = b then none else s.lock c)
    (next : t.next = s.next) (prev : t.prev = s.prev)
    (loaded : stage'.reads = true → x.valid = true)
    (valid : (s.buf b).valid = true → x.valid = true)
    (dirty : x.dirty = true → x.valid = true) : Turns s t v b stage stage' x := by
  have held : s.lock b = some v := (h.owned b v).mpr ⟨stage, before, locks⟩
  refine ⟨before, Or.inr held, var, buf, dev, blockno, refcnt, disk, ?_, ?_, next, prev, loaded,
    valid, dirty⟩
  · rcases lock with ⟨still, lock⟩ | ⟨gone, lock⟩
    · rw [lock, still, held, if_pos rfl]
    · rw [lock, gone, if_pos rfl]
      rfl
  · intro c there
    rcases lock with ⟨-, lock⟩ | ⟨-, lock⟩
    · rw [lock]
    · rw [lock, if_neg there]

omit [Fintype V] [DecidableEq V] in
/-- The buffer is as it was. -/
theorem buf_same (s : State V) (b c : Slot) :
    s.buf c = if c = b then s.buf b else s.buf c := by
  split
  · rename_i here
    rw [here]
  · rfl

theorem acquiresleep_turns (h : s.Inv) (acquired : s.acquiresleep v = some t) :
    ∃ b, Turns s t v b .waiting .locked (s.buf b) ∧ t.disk = s.disk := by
  unfold State.acquiresleep at acquired
  split at acquired
  · rename_i b before
    split at acquired
    · rename_i free
      cases acquired
      refine ⟨b, ?_, rfl⟩
      constructor
      case before => exact before
      case free => exact Or.inl free
      case var => simp
      case buf => exact buf_same s b
      case taken => simp [Stage.locks]
      case lock => exact fun c there => by simp [there]
      case loaded => exact fun reads => by cases reads
      case valid => exact id
      case dirty => exact h.pinned b
      all_goals first | rfl | exact fun _ _ _ => rfl
    · cases acquired
  · cases acquired

/-- What iderw() does to a buffer. -/
inductive Synced (s t : State V) (b : Slot) : Buf → Prop where
  | wrote (dirty : (s.buf b).dirty = true)
      (disk : ∀ d n, t.disk d n = if d = (s.buf b).dev ∧ n = (s.buf b).blockno then (s.buf b).data
        else s.disk d n) : Synced s t b { s.buf b with dirty := false, valid := true }
  | read (clean : (s.buf b).dirty = false) (disk : t.disk = s.disk) : Synced s t b
      { s.buf b with data := s.disk (s.buf b).dev (s.buf b).blockno, valid := true }

omit [Fintype V] [DecidableEq V] in
theorem iderw_cases (synced : s.iderw b = some t) :
    ∃ x, Synced s t b x ∧ (∀ c, t.buf c = if c = b then x else s.buf c) ∧ t.var = s.var ∧
      t.lock = s.lock ∧ t.next = s.next ∧ t.prev = s.prev := by
  unfold State.iderw at synced
  dsimp only at synced
  split at synced
  · cases synced
  · split at synced
    · rename_i dirty
      cases synced
      refine ⟨_, .wrote dirty fun d n => ?_, fun c => setBuf_buf _ b c _, rfl, rfl, rfl, rfl⟩
      simp only [setBuf_disk, Function.update_apply]
      by_cases dev : d = (s.buf b).dev
      · subst dev
        by_cases number : n = (s.buf b).blockno <;> simp [number]
      · simp [dev]
    · rename_i clean
      cases synced
      exact ⟨_, .read (Bool.eq_false_iff.mpr clean) rfl, fun c => setBuf_buf _ b c _, rfl, rfl, rfl,
        rfl⟩

/-- bread() has found the data, or has read them. -/
theorem bread_turns (h : s.Inv) (returned : s.bread v = some t) :
    ∃ b x, Turns s t v b .locked .inside x ∧ t.disk = s.disk ∧
      ((s.buf b).valid = true ∧ x = s.buf b ∨
        (s.buf b).valid = false ∧ x =
          { s.buf b with data := s.disk (s.buf b).dev (s.buf b).blockno, valid := true }) := by
  unfold State.bread at returned
  split at returned
  · rename_i b before
    split at returned
    · rename_i absent
      obtain ⟨u, synced, same⟩ := Option.map_eq_some_iff.mp returned
      subst same
      obtain ⟨x, synced, buf, var, lock, next, prev⟩ := iderw_cases synced
      cases synced with
      | wrote dirty disk =>
          have valid := h.pinned b dirty
          rw [absent] at valid
          cases valid
      | read clean disk =>
          refine ⟨b, _, turns_of_holder h before rfl (by simp [var]) buf rfl rfl rfl ?_
            (Or.inl ⟨rfl, lock⟩) next prev (fun _ => rfl) (fun _ => rfl) (fun _ => rfl), disk,
            Or.inr ⟨absent, rfl⟩⟩
          exact fun d n _ => by rw [point_disk, disk]
    · rename_i present
      cases returned
      have valid : (s.buf b).valid = true := Bool.not_eq_false _ |>.mp present
      exact ⟨b, s.buf b, turns_of_holder h before rfl (by simp) (buf_same s b) rfl rfl rfl
        (fun _ _ _ => rfl) (Or.inl ⟨rfl, rfl⟩) rfl rfl (fun _ => valid) id (fun _ => valid), rfl,
        Or.inl ⟨valid, rfl⟩⟩
  · cases returned

theorem store_turns (h : s.Inv) {data : Block} (stored : s.store v data = some t) :
    ∃ b stage, Turns s t v b stage .changed { s.buf b with data := data } ∧ stage.reads = true ∧
      t.disk = s.disk := by
  unfold State.store at stored
  split at stored
  · rename_i b stage before
    split at stored
    · rename_i reads
      cases stored
      have valid := h.loaded v b stage before reads
      exact ⟨b, stage, turns_of_holder h before (locks_of_reads reads) (by simp) (by simp) rfl rfl
        rfl (fun _ _ _ => rfl) (Or.inl ⟨rfl, rfl⟩) rfl rfl (fun _ => valid) id (fun _ => valid),
        reads, rfl⟩
    · cases stored
  · cases stored

theorem bwrite_turns (h : s.Inv) (written : s.bwrite v = some t) :
    ∃ b stage, Turns s t v b stage .inside { s.buf b with dirty := false, valid := true } ∧
      stage.reads = true ∧ t.disk (s.buf b).dev (s.buf b).blockno = (s.buf b).data := by
  unfold State.bwrite at written
  split at written
  · rename_i b stage before
    split at written
    · rename_i reads
      obtain ⟨u, synced, same⟩ := Option.map_eq_some_iff.mp written
      subst same
      obtain ⟨x, synced, buf, var, lock, next, prev⟩ := iderw_cases synced
      cases synced with
      | wrote dirty disk =>
          simp only [setBuf_buf, if_true, setBuf_disk] at disk buf
          refine ⟨b, stage, turns_of_holder h before (locks_of_reads reads) (by simp [var]) ?_ rfl
            rfl rfl ?_ (Or.inl ⟨rfl, lock⟩) next prev (fun _ => rfl) (fun _ => rfl)
            (fun dirty => by cases dirty), reads, ?_⟩
          · intro c
            rw [point_buf, buf]
            split <;> rfl
          · intro d n other
            rw [point_disk, disk, if_neg other]
          · rw [point_disk, disk, if_pos ⟨rfl, rfl⟩]
      | read clean disk => simp at clean
    · cases written
  · cases written

theorem log_write_turns (h : s.Inv) (logged : s.log_write v = some t) :
    ∃ b stage, Turns s t v b stage .inside { s.buf b with dirty := true } ∧
      stage.reads = true ∧ t.disk = s.disk := by
  unfold State.log_write at logged
  split at logged
  · rename_i b stage before
    split at logged
    · rename_i reads
      split at logged
      · cases logged
      · split at logged
        · cases logged
        · cases logged
          have valid := h.loaded v b stage before reads
          exact ⟨b, stage, turns_of_holder h before (locks_of_reads reads) (by simp)
            (fun c => setBuf_buf _ b c _) rfl rfl rfl (fun _ _ _ => rfl) (Or.inl ⟨rfl, rfl⟩) rfl
            rfl (fun _ => valid) id (fun _ => valid), reads, rfl⟩
    · cases logged
  · cases logged

theorem brelse_turns (h : s.Inv) (released : s.brelse v = some t) :
    ∃ b stage, Turns s t v b stage .leaving (s.buf b) ∧ stage.reads = true ∧ t.disk = s.disk := by
  unfold State.brelse at released
  split at released
  · rename_i b stage before
    split at released
    · rename_i reads
      cases released
      have valid := h.loaded v b stage before reads
      exact ⟨b, stage, turns_of_holder h before (locks_of_reads reads) (by simp) (buf_same s b) rfl
        rfl rfl (fun _ _ _ => rfl) (Or.inr ⟨rfl, by simp [Function.update_apply]⟩) rfl rfl
        (fun reads => by cases reads) id (fun _ => valid), reads, rfl⟩
    · cases released
  · cases released

omit [Fintype V] in
/-- What bget() finds, or recycles. -/
theorem bget_gains {dev blockno : Word} {bufs : List Slot} (lists : s.Lists bufs)
    (got : s.bget v dev blockno = some t) : ∃ b x, Gains s t v b x bufs := by
  unfold State.bget at got
  obtain ⟨once, all, forth, back⟩ := lists
  have reversed : bufs.reverse.Nodup := List.nodup_reverse.mpr once
  rw [find_ring forth once all,
    find_ring back reversed fun b => List.mem_reverse.mpr (all b)] at got
  split at got
  · rename_i unset
    split at got
    · rename_i b found
      cases got
      obtain ⟨hit, before, after, split, missed⟩ :=
        List.find?_eq_some_iff_append.mp (Option.some.inj found)
      have here := of_decide_eq_true hit
      refine ⟨b, { s.buf b with refcnt := (s.buf b).refcnt + 1 }, unset, by simp, by simp, rfl, rfl,
        rfl, rfl, rfl, Or.inl ⟨rfl, before, after, split, fun c member same => ?_⟩⟩
      have other := missed c member
      unfold State.caches at other
      rw [decide_eq_true ⟨same.1.trans here.1, same.2.trans here.2⟩] at other
      cases other
    · rename_i missed
      split at got
      · rename_i b found
        cases got
        have found := List.find?_some (Option.some.inj found)
        have unused := of_decide_eq_true found
        refine ⟨b,
          { s.buf b with
            dev := dev, blockno := blockno, valid := false, dirty := false, refcnt := 1 }, unset,
          by simp, by simp, ?_, rfl, rfl, rfl, rfl,
          Or.inr ⟨unused.1, unused.2, rfl, rfl, ?_⟩⟩
        · rw [unused.1]
          rfl
        · intro c here
          have absent := List.find?_eq_none.mp (Option.some.inj missed) c (all c)
          exact absent (decide_eq_true here)
      · cases got
    · cases got
  · cases got

omit [Fintype V] in
theorem release_drops (released : s.release v = some t) : ∃ b, Drops s t v b := by
  unfold State.release at released
  split at released
  · rename_i b before
    refine ⟨b, ?_⟩
    dsimp only at released
    split at released
    · cases released
      refine ⟨before, by simp, by simp, rfl, rfl, fun before after lists => Or.inr ?_⟩
      exact moved_lists ⟨lists.once, lists.all, lists.forth, lists.back⟩
    · cases released
      exact ⟨before, by simp, by simp, rfl, rfl,
        fun _ _ lists => Or.inl ⟨lists.once, lists.all, lists.forth, lists.back⟩⟩
  · cases released

theorem step_inv (e : Event V) (h : s.Inv) (taken : step s e = some t) : t.Inv := by
  cases e with
  | bget v dev blockno =>
      obtain ⟨bufs, lists, single⟩ := h.listed
      obtain ⟨b, x, gain⟩ := bget_gains lists taken
      exact gain.inv h lists single
  | acquiresleep v =>
      obtain ⟨b, turn, -⟩ := acquiresleep_turns h taken
      exact turn.inv h
  | bread v =>
      obtain ⟨b, x, turn, -⟩ := bread_turns h taken
      exact turn.inv h
  | store v data =>
      obtain ⟨b, stage, turn, -⟩ := store_turns h taken
      exact turn.inv h
  | bwrite v =>
      obtain ⟨b, stage, turn, -⟩ := bwrite_turns h taken
      exact turn.inv h
  | log_write v =>
      obtain ⟨b, stage, turn, -⟩ := log_write_turns h taken
      exact turn.inv h
  | brelse v =>
      obtain ⟨b, stage, turn, -⟩ := brelse_turns h taken
      exact turn.inv h
  | release v =>
      obtain ⟨b, drops⟩ := release_drops taken
      exact drops.inv h
  | log log =>
      cases taken
      obtain ⟨bufs, ⟨once, all, forth, back⟩, single⟩ := h.listed
      refine ⟨⟨bufs, ⟨once, all, forth, back⟩, single.imp fun fresh same => ?_⟩, h.counted, h.owned,
        h.loaded, h.pinned⟩
      have before := fresh same
      exact ⟨before.dev, before.blockno, before.refcnt, before.valid⟩

end Kept

end Xv6.Public1.BufCache
