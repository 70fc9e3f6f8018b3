import Xv6.Public1.BufCacheInv

/-!
# The buffer cache shows what was last written (xv6-public_1)

In every run the list, the buffers and their locks are in order; and where each
modification is followed by log_write() or bwrite(), bread() returns the data that were
stored last, whether or not they are on disk.
-/

set_option autoImplicit false

namespace Xv6.Public1.BufCache

open Xv6.Lib
open Xv6.Lib.Words
open Xv6.Lib.Links
open Xv6.Lib.Handles
open Xv6.Lib.References (refs refs_none)
open Xv6.Public1.Blocks (Block)

variable {V : Type}

/-! ## The buffers after binit() -/

theorem link_twin {s : State V} {bufs : List Slot} {b : Slot}
    (twin : Twin s.next s.prev (head :: bufs.map some)) (once : bufs.Nodup) (new : b ∉ bufs) :
    Twin (s.link b).next (s.link b).prev (head :: (b :: bufs).map some) := by
  have absent : (some b : Node) ∉ (head :: bufs.map some : List Node) := by
    intro member
    rcases List.mem_cons.mp member with same | inside
    · cases same
    · obtain ⟨c, there, same⟩ := List.mem_map.mp inside
      cases same
      exact new there
  have notHead : (some b : Node) ≠ head := by
    intro same
    cases same
  have next : (s.link b).next = Function.update (Function.update s.next b (s.next head)) head b :=
    rfl
  have prev : (s.link b).prev =
      Function.update (Function.update s.prev b head) (s.next head) b := by
    simp only [State.link, State.setNext, State.setPrev, Function.update_of_ne (Ne.symm notHead)]
  rw [next, prev]
  exact (twin.link (nodes_nodup once) absent).2

theorem binit_twin (more : List Slot) : ∀ (s : State V) (bufs : List Slot),
    Twin s.next s.prev (head :: bufs.map some) → (more.reverse ++ bufs).Nodup →
    Twin (more.foldl State.link s).next (more.foldl State.link s).prev
      (head :: (more.reverse ++ bufs).map some) := by
  induction more with
  | nil => exact fun s bufs twin _ => twin
  | cons b more ih =>
      intro s bufs twin once
      have flat : (b :: more).reverse ++ bufs = more.reverse ++ b :: bufs := by simp
      rw [flat] at once ⊢
      have rest : (b :: bufs).Nodup := (List.nodup_append.mp once).2.1
      obtain ⟨new, others⟩ := List.nodup_cons.mp rest
      exact ih (s.link b) (b :: bufs) (link_twin twin others new) once

/-- binit() only makes the list. -/
theorem binit_fields (more : List Slot) : ∀ s : State V,
    (more.foldl State.link s).buf = s.buf ∧ (more.foldl State.link s).var = s.var ∧
      (more.foldl State.link s).lock = s.lock ∧ (more.foldl State.link s).disk = s.disk := by
  induction more with
  | nil => exact fun s => ⟨rfl, rfl, rfl, rfl⟩
  | cons b more ih => exact fun s => ih (s.link b)

theorem binit_lists (log : Log) (disk : Word → Word → Block) :
    (binit log disk : State V).Lists (List.finRange NBUF).reverse := by
  have once : (List.finRange NBUF).reverse.Nodup :=
    List.nodup_reverse.mpr (List.nodup_finRange NBUF)
  have alone : Twin (empty log disk : State V).next (empty log disk : State V).prev
      (head :: ([] : List Slot).map some) :=
    ⟨List.isChain_cons_cons.mpr ⟨rfl, List.isChain_singleton head⟩,
      List.isChain_cons_cons.mpr ⟨rfl, List.isChain_singleton head⟩⟩
  have twin := binit_twin (List.finRange NBUF) (empty log disk : State V) [] alone
    (by rwa [List.append_nil])
  rw [List.append_nil] at twin
  obtain ⟨forth, back⟩ := twin_iff.mp twin
  exact ⟨once, fun b => List.mem_reverse.mpr (List.mem_finRange b), forth, back⟩

theorem binit_inv [Fintype V] (log : Log) (disk : Word → Word → Block) :
    (binit log disk : State V).Inv := by
  obtain ⟨buf, var, lock, -⟩ := binit_fields (List.finRange NBUF) (empty log disk : State V)
  have no_var : ∀ w, (binit log disk : State V).var w = none := fun w => by
    unfold binit
    rw [var]
    rfl
  have unset : slot (binit log disk : State V).var = fun _ => none := by
    funext w
    exact slot_none (no_var w)
  have plain : ∀ b, (binit log disk : State V).buf b = (empty log disk : State V).buf b := by
    intro b
    unfold binit
    rw [buf]
  constructor
  case listed =>
    refine ⟨_, binit_lists log disk, List.pairwise_of_forall fun b c _ => ?_⟩
    have fresh := plain c
    exact ⟨by rw [fresh]; rfl, by rw [fresh]; rfl, by rw [fresh]; rfl, by rw [fresh]; rfl⟩
  case counted =>
    intro b
    dsimp only
    rw [unset, refs_none, plain]
    rfl
  case owned =>
    intro b w
    constructor
    · intro taken
      unfold binit at taken
      rw [lock] at taken
      cases taken
    · rintro ⟨stage, points, -⟩
      rw [no_var] at points
      cases points
  case loaded =>
    intro w b stage points
    rw [no_var] at points
    cases points
  case pinned =>
    intro b dirty
    rw [plain] at dirty
    cases dirty

/-! ## The disk and the buffers -/

/-- Where to find the data that were stored last. -/
structure Coherent (s : State V) (written : Written) : Prop where
  cached : ∀ b, (s.buf b).valid = true →
    (s.buf b).data = written (s.buf b).dev (s.buf b).blockno
  clean : ∀ b, (s.buf b).valid = true → (s.buf b).dirty = false →
    (∀ w, s.var w ≠ some (b, .changed)) →
    s.disk (s.buf b).dev (s.buf b).blockno = (s.buf b).data
  absent : ∀ d n,
    (∀ b, (s.buf b).valid = true → ¬((s.buf b).dev = d ∧ (s.buf b).blockno = n)) →
    s.disk d n = written d n

theorem not_fresh_of_valid {s : State V} {b : Slot} (valid : (s.buf b).valid = true) :
    ¬s.Fresh b := by
  intro fresh
  rw [fresh.valid] at valid
  cases valid

section Kept
variable [Fintype V] [DecidableEq V] {s t : State V} {v : V} {b : Slot} {written written' : Written}

/-- What a turn has to keep. -/
theorem Turns.coherent {stage stage' : Stage} {x : Buf} (turn : Turns s t v b stage stage' x)
    (h : s.Inv) (c : Coherent s written)
    (elsewhere : ∀ d n, ¬(d = (s.buf b).dev ∧ n = (s.buf b).blockno) → written' d n = written d n)
    (cached : x.valid = true → x.data = written' (s.buf b).dev (s.buf b).blockno)
    (clean : x.valid = true → x.dirty = false → stage' ≠ .changed →
      t.disk (s.buf b).dev (s.buf b).blockno = x.data)
    (absent : x.valid = false →
      t.disk (s.buf b).dev (s.buf b).blockno = written' (s.buf b).dev (s.buf b).blockno) :
    Coherent t written' := by
  have other : ∀ j, j ≠ b → (s.buf j).valid = true →
      ¬((s.buf j).dev = (s.buf b).dev ∧ (s.buf j).blockno = (s.buf b).blockno) :=
    fun j there valid same =>
      there (h.single (not_fresh_of_valid valid) (h.not_fresh turn.before) same)
  constructor
  case cached =>
    intro j valid
    rw [turn.buf] at valid ⊢
    split
    · rename_i here
      rw [if_pos here] at valid
      rw [turn.dev, turn.blockno]
      exact cached valid
    · rename_i there
      rw [if_neg there] at valid
      rw [elsewhere _ _ (other j there valid)]
      exact c.cached j valid
  case clean =>
    intro j valid undirty unchanged
    rw [turn.buf] at valid undirty ⊢
    split
    · rename_i here
      rw [if_pos here] at valid undirty
      rw [turn.dev, turn.blockno]
      refine clean valid undirty fun changed => unchanged v ?_
      rw [turn.var, if_pos rfl, changed, here]
    · rename_i there
      rw [if_neg there] at valid undirty
      rw [turn.disk _ _ (other j there valid)]
      refine c.clean j valid undirty fun w changed => unchanged w ?_
      rw [turn.var]
      split
      · rename_i mine
        rw [mine, turn.before] at changed
        cases changed
        exact absurd rfl there
      · exact changed
  case absent =>
    intro d n uncached
    by_cases here : d = (s.buf b).dev ∧ n = (s.buf b).blockno
    · obtain ⟨dev, blockno⟩ := here
      subst dev
      subst blockno
      refine absent (Bool.eq_false_iff.mpr fun valid => ?_)
      refine uncached b ?_ ?_
      · rw [turn.buf, if_pos rfl, valid]
      · rw [turn.buf, if_pos rfl, turn.dev, turn.blockno]
        exact ⟨rfl, rfl⟩
    · rw [turn.disk d n here, elsewhere d n here]
      refine c.absent d n fun j valid same => ?_
      by_cases there : j = b
      · subst there
        exact here ⟨same.1.symm, same.2.symm⟩
      · refine uncached j ?_ ?_
        · rw [turn.buf, if_neg there, valid]
        · rw [turn.buf, if_neg there]
          exact same

theorem Gains.coherent {x : Buf} {bufs : List Slot} (gain : Gains s t v b x bufs) (h : s.Inv)
    (c : Coherent s written) : Coherent t written := by
  have changed : ∀ {j w}, s.var w = some (j, .changed) → t.var w = some (j, .changed) := by
    intro j w changed
    rw [gain.var]
    split
    · rename_i mine
      rw [mine, gain.before] at changed
      cases changed
    · exact changed
  have kept : ∀ j, t.buf j = s.buf j ∨ j = b ∧ t.buf j = x := by
    intro j
    rw [gain.buf]
    split
    · rename_i here
      exact Or.inr ⟨here, rfl⟩
    · exact Or.inl rfl
  constructor
  case cached =>
    intro j valid
    rcases kept j with same | ⟨here, same⟩
    · rw [same] at valid ⊢
      exact c.cached j valid
    · rw [same] at valid ⊢
      rcases gain.kept with ⟨same, -⟩ | ⟨-, -, invalid, -⟩
      · rw [same] at valid ⊢
        exact c.cached b valid
      · rw [invalid] at valid
        cases valid
  case clean =>
    intro j valid undirty unchanged
    rw [gain.disk]
    have before : ∀ w, s.var w ≠ some (j, .changed) := fun w now => unchanged w (changed now)
    rcases kept j with same | ⟨here, same⟩
    · rw [same] at valid undirty ⊢
      exact c.clean j valid undirty before
    · rw [same] at valid undirty ⊢
      rcases gain.kept with ⟨same, -⟩ | ⟨-, -, invalid, -⟩
      · rw [same] at valid undirty ⊢
        exact c.clean b valid undirty (here ▸ before)
      · rw [invalid] at valid
        cases valid
  case absent =>
    intro d n uncached
    rw [gain.disk]
    by_cases there : (s.buf b).valid = true ∧ (s.buf b).dev = d ∧ (s.buf b).blockno = n
    · obtain ⟨valid, dev, blockno⟩ := there
      rcases gain.kept with ⟨same, -⟩ | ⟨free, undirty, -⟩
      · have still : (t.buf b).valid = true := by
          rw [gain.buf, if_pos rfl, same]
          exact valid
        refine absurd ?_ (uncached b still)
        rw [gain.buf, if_pos rfl, same]
        exact ⟨dev, blockno⟩
      -- The buffer that is recycled has gone to disk.
      · have unchanged : ∀ w, s.var w ≠ some (b, .changed) := by
          intro w changed
          have counted := h.counted.pos changed
          rw [free] at counted
          exact absurd counted (Int.lt_irrefl 0)
        have disk := c.clean b valid undirty unchanged
        rw [c.cached b valid, dev, blockno] at disk
        exact disk
    · refine c.absent d n fun j valid same => ?_
      by_cases here : j = b
      · subst here
        exact there ⟨valid, same⟩
      · refine uncached j ?_ ?_
        · rw [gain.buf, if_neg here, valid]
        · rw [gain.buf, if_neg here]
          exact same

omit [Fintype V] in
theorem Drops.coherent (drops : Drops s t v b) (c : Coherent s written) : Coherent t written := by
  have same : ∀ j, (t.buf j).dev = (s.buf j).dev ∧ (t.buf j).blockno = (s.buf j).blockno ∧
      (t.buf j).valid = (s.buf j).valid ∧ (t.buf j).dirty = (s.buf j).dirty ∧
      (t.buf j).data = (s.buf j).data := by
    intro j
    rw [drops.buf]
    split
    · rename_i here
      rw [here]
      exact ⟨rfl, rfl, rfl, rfl, rfl⟩
    · exact ⟨rfl, rfl, rfl, rfl, rfl⟩
  constructor
  case cached =>
    intro j valid
    obtain ⟨dev, blockno, valid', -, data⟩ := same j
    rw [valid'] at valid
    rw [dev, blockno, data]
    exact c.cached j valid
  case clean =>
    intro j valid undirty unchanged
    obtain ⟨dev, blockno, valid', dirty, data⟩ := same j
    rw [valid'] at valid
    rw [dirty] at undirty
    rw [dev, blockno, data, drops.disk]
    refine c.clean j valid undirty fun w changed => unchanged w ?_
    rw [drops.var]
    split
    · rename_i mine
      rw [mine, drops.before] at changed
      cases changed
    · exact changed
  case absent =>
    intro d n uncached
    rw [drops.disk]
    refine c.absent d n fun j valid place => uncached j ?_ ?_
    · rw [(same j).2.2.1, valid]
    · rw [(same j).1, (same j).2.1]
      exact place

omit [DecidableEq V] in
/-- The process that has the lock has not changed the buffer, nor has another. -/
theorem nobody_changed (h : s.Inv) {stage : Stage} (before : s.var v = some (b, stage))
    (locks : stage.locks = true) (calm : stage ≠ .changed) :
    ∀ w, s.var w ≠ some (b, .changed) := by
  intro w changed
  have same := h.owned.holder before locks changed rfl
  rw [same, before] at changed
  cases changed
  exact calm rfl

theorem step_coherent (e : Event V) (h : s.Inv) (c : Coherent s written)
    (careful : Careful (s, written) e) (taken : step s e = some t) :
    Coherent t (record s written e) := by
  -- A buffer in use that is not loaded is the only one for its block.
  have unread : ∀ {v b stage}, s.var v = some (b, stage) → (s.buf b).valid = false →
      s.disk (s.buf b).dev (s.buf b).blockno = written (s.buf b).dev (s.buf b).blockno := by
    intro v b stage points invalid
    refine c.absent _ _ fun j valid same => ?_
    have here := h.single (not_fresh_of_valid valid) (h.not_fresh points) same
    rw [here, invalid] at valid
    cases valid
  cases e with
  | bget v dev blockno =>
      obtain ⟨bufs, lists, -⟩ := h.listed
      obtain ⟨b, x, gain⟩ := bget_gains lists taken
      exact gain.coherent h c
  | acquiresleep v =>
      obtain ⟨b, turn, disk⟩ := acquiresleep_turns h taken
      refine turn.coherent h c (fun _ _ _ => rfl) (c.cached b) ?_ ?_
      · intro valid undirty _
        rw [disk]
        refine c.clean b valid undirty fun w changed => ?_
        have mine : w ≠ v := by
          rintro rfl
          rw [turn.before] at changed
          cases changed
        cases h.owned.alone turn.free mine changed
      · intro invalid
        rw [disk]
        exact unread turn.before invalid
  | bread v =>
      obtain ⟨b, x, turn, disk, ⟨valid, same⟩ | ⟨invalid, same⟩⟩ := bread_turns h taken
      · subst same
        refine turn.coherent h c (fun _ _ _ => rfl) (c.cached b) ?_ ?_
        · intro valid undirty _
          rw [disk]
          exact c.clean b valid undirty (nobody_changed h turn.before rfl Stage.noConfusion)
        · intro invalid
          rw [valid] at invalid
          cases invalid
      · subst same
        refine turn.coherent h c (fun _ _ _ => rfl) ?_ ?_ ?_
        · exact fun _ => unread turn.before invalid
        · intro _ _ _
          rw [disk]
        · intro absurdity
          cases absurdity
  | store v data =>
      obtain ⟨b, stage, turn, reads, disk⟩ := store_turns h taken
      have stored : record s written (.store v data) = Function.update written (s.buf b).dev
          (Function.update (written (s.buf b).dev) (s.buf b).blockno data) := by
        simp only [record, turn.before]
      rw [stored]
      refine turn.coherent h c ?_ ?_ ?_ ?_
      · intro d n other
        simp only [Function.update_apply]
        split
        · rename_i same
          subst same
          rw [Function.update_apply, if_neg fun number => other ⟨rfl, number⟩]
        · rfl
      · intro _
        simp only [Function.update_self]
      · exact fun _ _ unchanged => absurd rfl unchanged
      · intro invalid
        have valid := h.loaded v b stage turn.before reads
        rw [valid] at invalid
        cases invalid
  | bwrite v =>
      obtain ⟨b, stage, turn, reads, disk⟩ := bwrite_turns h taken
      have valid := h.loaded v b stage turn.before reads
      refine turn.coherent h c (fun _ _ _ => rfl) (fun _ => c.cached b valid)
        (fun _ _ _ => disk) ?_
      intro invalid
      cases invalid
  | log_write v =>
      obtain ⟨b, stage, turn, reads, disk⟩ := log_write_turns h taken
      have valid := h.loaded v b stage turn.before reads
      refine turn.coherent h c (fun _ _ _ => rfl) (c.cached b) ?_ ?_
      · intro _ undirty
        cases undirty
      · intro invalid
        rw [valid] at invalid
        cases invalid
  | brelse v =>
      obtain ⟨b, stage, turn, reads, disk⟩ := brelse_turns h taken
      have valid := h.loaded v b stage turn.before reads
      have calm : stage ≠ .changed := by
        rintro rfl
        exact careful b turn.before
      refine turn.coherent h c (fun _ _ _ => rfl) (c.cached b) ?_ ?_
      · intro valid undirty _
        rw [disk]
        exact c.clean b valid undirty
          (nobody_changed h turn.before (locks_of_reads reads) calm)
      · intro invalid
        rw [valid] at invalid
        cases invalid
  | release v =>
      obtain ⟨b, drops⟩ := release_drops taken
      exact drops.coherent c
  | log log =>
      cases taken
      exact ⟨c.cached, c.clean, c.absent⟩

/-! ## Buffers in use -/

/-- A buffer that is in use or dirty stays the buffer of its block. -/
theorem step_pinned (e : Event V) (h : s.Inv) (taken : step s e = some t) :
    ∀ b, 0 < (s.buf b).refcnt ∨ (s.buf b).dirty = true →
      (t.buf b).dev = (s.buf b).dev ∧ (t.buf b).blockno = (s.buf b).blockno := by
  have turned : ∀ {v b stage stage' x}, Turns s t v b stage stage' x → ∀ c,
      (t.buf c).dev = (s.buf c).dev ∧ (t.buf c).blockno = (s.buf c).blockno := by
    intro v b stage stage' x turn c
    rw [turn.buf]
    split
    · rename_i here
      rw [here]
      exact ⟨turn.dev, turn.blockno⟩
    · exact ⟨rfl, rfl⟩
  intro c busy
  cases e with
  | bget v dev blockno =>
      obtain ⟨bufs, lists, -⟩ := h.listed
      obtain ⟨b, x, gain⟩ := bget_gains lists taken
      rw [gain.buf]
      split
      · rename_i here
        subst here
        rcases gain.kept with ⟨same, -⟩ | ⟨unused, undirty, -⟩
        · rw [same]
          exact ⟨rfl, rfl⟩
        · rcases busy with counted | dirty
          · omega
          · rw [undirty] at dirty
            cases dirty
      · exact ⟨rfl, rfl⟩
  | acquiresleep v =>
      obtain ⟨b, turn, -⟩ := acquiresleep_turns h taken
      exact turned turn c
  | bread v =>
      obtain ⟨b, x, turn, -⟩ := bread_turns h taken
      exact turned turn c
  | store v data =>
      obtain ⟨b, stage, turn, -⟩ := store_turns h taken
      exact turned turn c
  | bwrite v =>
      obtain ⟨b, stage, turn, -⟩ := bwrite_turns h taken
      exact turned turn c
  | log_write v =>
      obtain ⟨b, stage, turn, -⟩ := log_write_turns h taken
      exact turned turn c
  | brelse v =>
      obtain ⟨b, stage, turn, -⟩ := brelse_turns h taken
      exact turned turn c
  | release v =>
      obtain ⟨b, drops⟩ := release_drops taken
      rw [drops.buf]
      split
      · rename_i here
        rw [here]
        exact ⟨rfl, rfl⟩
      · exact ⟨rfl, rfl⟩
  | log log =>
      cases taken
      exact ⟨rfl, rfl⟩

/-! ## Every run -/

/-- What holds of the buffers in a state. -/
structure Ordered (s : State V) : Prop where
  listed : ∃ bufs, s.Lists bufs
  /-- A block has one buffer at most. -/
  unique : ∀ b c, (s.buf b).dev ≠ 0 → s.SameBlock b c → b = c
  counted : Counted s.var fun b => (s.buf b).refcnt
  /-- One process at a time has the locked buffer of a block. -/
  exclusive : ∀ v w b c stage stage', s.var v = some (b, stage) → stage.locks = true →
    s.var w = some (c, stage') → stage'.locks = true → s.SameBlock b c → v = w

omit [DecidableEq V] in
theorem State.Inv.ordered (h : s.Inv) : Ordered s where
  listed := by
    obtain ⟨bufs, lists, -⟩ := h.listed
    exact ⟨bufs, lists⟩
  unique := by
    intro b c used same
    have other : (s.buf c).dev ≠ 0 := same.1 ▸ used
    exact h.single (fun fresh => used fresh.dev) (fun fresh => other fresh.dev) same
  counted := h.counted
  exclusive := by
    intro v w b c stage stage' first locks second locks' same
    have one := h.single (h.not_fresh first) (h.not_fresh second) same
    subst one
    exact h.owned.holder second locks' first locks

/-- Whatever the order of the steps of however many processes, the list has every buffer once,
a block has one buffer and the buffer one holder, and what is in use or dirty is not recycled;
and where every modification is followed by log_write() or bwrite(), a buffer that bread()
has returned has what was stored last. -/
theorem buffer_cache (log : Log) (disk : Word → Word → Block) (es : List (Event V)) (s : State V)
    (written : Written) (ran : Runs.run tracked (binit log disk, disk) es = some (s, written)) :
    Runs.Always tracked (fun s => Ordered s.1) ((binit log disk : State V), disk) es ∧
      Runs.Stepwise tracked Pinned ((binit log disk : State V), disk) es ∧
      (Runs.Guarded tracked Careful (binit log disk, disk) es → ∀ v b stage,
        s.var v = some (b, stage) → stage.reads = true →
        (s.buf b).data = written (s.buf b).dev (s.buf b).blockno) := by
  have kept : ∀ (s : State V × Written) e t, s.1.Inv → tracked s e = some t → t.1.Inv := by
    intro s e t h taken
    obtain ⟨u, went, same⟩ := Option.map_eq_some_iff.mp taken
    subst same
    exact step_inv e h went
  refine ⟨?_, ?_, fun careful v b stage points reads => ?_⟩
  · exact Runs.always_of_invariant tracked (fun s h => h.ordered) kept es _ (binit_inv log disk)
  · refine Runs.stepwise_of_invariant tracked kept ?_ es _ (binit_inv log disk)
    intro s e t h taken
    obtain ⟨u, went, same⟩ := Option.map_eq_some_iff.mp taken
    subst same
    exact step_pinned e h went
  · have both : s.Inv ∧ Coherent s written := by
      have start : (binit log disk : State V).Inv ∧ Coherent (binit log disk : State V) disk := by
        refine ⟨binit_inv log disk, ?_⟩
        obtain ⟨buf, -, -, same⟩ := binit_fields (List.finRange NBUF) (empty log disk : State V)
        have invalid : ∀ b, ((binit log disk : State V).buf b).valid = false := fun b => by
          unfold binit
          rw [buf]
          rfl
        constructor
        case cached => exact fun b valid => Bool.noConfusion ((invalid b).symm.trans valid)
        case clean => exact fun b valid => Bool.noConfusion ((invalid b).symm.trans valid)
        case absent =>
          intro d n _
          unfold binit
          rw [same]
          rfl
      have coherent : ∀ (s : State V × Written) e t, s.1.Inv ∧ Coherent s.1 s.2 → Careful s e →
          tracked s e = some t → t.1.Inv ∧ Coherent t.1 t.2 := by
        intro s e t h careful taken
        obtain ⟨u, went, same⟩ := Option.map_eq_some_iff.mp taken
        subst same
        exact ⟨step_inv e h.1 went, step_coherent e h.1 h.2 careful went⟩
      exact Runs.run_invariant tracked coherent es _ (s, written) start careful ran
    exact both.2.cached b (both.1.loaded v b stage points reads)

end Kept

/-- Block 5 is changed and logged through one variable, and then read through the other. -/
def loggedRead : List (Event Bool) :=
  [.bget false 1 5, .acquiresleep false, .bread false, .store false fun _ => 7, .log_write false,
    .bget true 1 5, .brelse false, .release false, .acquiresleep true, .bread true]

def openLog : Log := { outstanding := 1, size := 30, lh := [] }

def firstBuf : Slot := ⟨0, Nat.succ_pos 29⟩

def firstByte : Fin Blocks.BSIZE := ⟨0, Nat.succ_pos 511⟩

/-- The image is of zeros. -/
def loggedStart : State Bool × Written := (binit openLog fun _ _ _ => 0, fun _ _ _ => 0)

theorem loggedRead_completes : (Runs.run tracked loggedStart loggedRead).isSome = true := by
  decide +kernel

theorem loggedRead_careful : Runs.Guarded tracked Careful loggedStart loggedRead := by
  decide +kernel

theorem loggedRead_reads : (Runs.run tracked loggedStart loggedRead).map (fun s =>
    (s.1.var true, s.1.disk 1 5 firstByte, s.2 1 5 firstByte)) =
      some (some (firstBuf, .inside), 0, 7) := by
  decide +kernel

/-- The block is not on disk yet. -/
theorem buffer_cache_loggedRead : ∃ s written,
    Runs.run tracked loggedStart loggedRead = some (s, written) ∧ s.disk 1 5 ≠ written 1 5 ∧
      (s.buf firstBuf).data = written (s.buf firstBuf).dev (s.buf firstBuf).blockno := by
  obtain ⟨⟨s, written⟩, ran⟩ := Option.isSome_iff_exists.mp loggedRead_completes
  have reads := loggedRead_reads
  rw [ran] at reads
  have points : s.var true = some (firstBuf, .inside) := congrArg Prod.fst (Option.some.inj reads)
  have values := congrArg Prod.snd (Option.some.inj reads)
  have onDisk : s.disk 1 5 firstByte = 0 := congrArg Prod.fst values
  have last : written 1 5 firstByte = 7 := congrArg Prod.snd values
  obtain ⟨-, -, coherent⟩ := buffer_cache openLog _ loggedRead s written ran
  refine ⟨s, written, ran, fun same => ?_,
    coherent loggedRead_careful true firstBuf .inside points rfl⟩
  rw [same, last] at onDisk
  cases onDisk

end Xv6.Public1.BufCache
