import Mathlib.Data.Fintype.Card
import Xv6.Public2.DiskQueue

/-!
# Runs of the disk queue (xv6-public_2)

What one step does to the queue, the requests and the processes that wait, and from it
what holds in every state of a run.
-/

set_option autoImplicit false

namespace Xv6.Public2.DiskQueue

open Xv6.Lib.Words
open Xv6.Lib.Runs
open Xv6.Lib.Links

universe u v

variable {P : Type u} {D : Type v}

/-! ## What the functions do -/

section Functions
variable {s t : State P D} {b : BufSlot} {q : List BufSlot}

theorem tailLoop_last (fuel : Nat) (pp : Option BufSlot) (nodes : List BufSlot)
    (chain : Chain s.qnext (s.deref pp) nodes) (enough : nodes.length < fuel) :
    s.tailLoop fuel pp = some (nodes.getLast?.or pp) := by
  induction fuel generalizing pp nodes with
  | zero => exact absurd enough (Nat.not_lt_zero _)
  | succ fuel ih =>
      rw [State.tailLoop]
      cases nodes with
      | nil =>
          have ends : s.deref pp = none := chain
          rw [ends]
          rfl
      | cons c nodes =>
          rw [chain.1]
          dsimp only
          rw [ih (some c) nodes chain.2 (Nat.lt_of_succ_lt_succ enough)]
          cases nodes with
          | nil => rfl
          | cons d nodes =>
              rw [List.getLast?_cons_cons, List.getLast?_cons]
              rfl

/-- The new buffer is the last of the queue. -/
theorem append_last (chain : Chain s.qnext s.idequeue q) (once : q.Nodup) (fresh : b ∉ q) :
    ∃ pp next, ({ s with qnext := Function.update s.qnext b none } : State P D).tailLoop
        (NBUF + 1) none = some pp ∧
      ({ s with qnext := Function.update s.qnext b none } : State P D).store pp b =
        { s with qnext := next, idequeue := (q ++ [b]).head? } ∧
      Chain next (q ++ [b]).head? (q ++ [b]) := by
  have kept : Chain (Function.update s.qnext b none) s.idequeue q := by
    refine chain.congr fun c member => Function.update_of_ne ?_ _ _
    rintro rfl
    exact fresh member
  have ends : Function.update s.qnext b none b = none := Function.update_self ..
  have short : q.length < NBUF + 1 := by
    have bound := List.Nodup.length_le_card once
    rw [Fintype.card_fin] at bound
    exact Nat.lt_succ_of_le bound
  generalize Function.update s.qnext b none = next at kept ends
  have last := @tailLoop_last P D { s with qnext := next } (NBUF + 1) none q kept short
  rcases List.eq_nil_or_concat q with rfl | ⟨nodes, a, rfl⟩
  · exact ⟨none, next, last, rfl, rfl, ends⟩
  · rw [List.concat_eq_append] at *
    have chained := kept.append once fresh ends
    have whole : nodes ++ [a] ++ [b] = nodes ++ [a, b] := List.append_assoc ..
    rw [whole]
    have first : (nodes ++ [a, b]).head? = s.idequeue := by
      rw [kept.head]
      cases nodes <;> rfl
    rw [first]
    refine ⟨some a, Function.update next a (some b), ?_, rfl, chained⟩
    rw [last, List.getLast?_concat]
    rfl

theorem idestart_some (started : s.idestart b = some t) :
    t = { s with device := some (s.request b) } := by
  unfold State.idestart at started
  split at started
  · cases started
  · exact (Option.some.inj started).symm

/-- What ideintr() does to the first buffer. -/
def completes (s : State P D) (b : BufSlot) (r : Byte) (sector : D) : Completion D where
  buf := b
  write := (s.buf b).B_DIRTY
  moved := if (s.buf b).B_DIRTY = false ∧ idewait true r ≥ 0 then some sector else none

/-- ideintr() takes the first buffer out, and starts the device for the next one. -/
theorem ideintr_some {r : Byte} {sector : D} (called : s.ideintr r sector = some t)
    (chain : Chain s.qnext s.idequeue q) (once : q.Nodup) :
    (q = [] ∧ t = s) ∨ ∃ b rest, q = b :: rest ∧
      t = { s with
        buf := Function.update s.buf b { s.buf b with
          data := (completes s b r sector).moved.getD (s.buf b).data
          B_VALID := true
          B_DIRTY := false }
        idequeue := s.qnext b
        device := (s.qnext b).map s.request
        completed := s.completed ++ [completes s b r sector]
        calls := fun p => (s.calls p).map fun call =>
          if call.buf = b then { call with asleep := false } else call } := by
  unfold State.ideintr at called
  cases q with
  | nil =>
      have empty : s.idequeue = none := chain
      rw [empty] at called
      exact Or.inl ⟨rfl, (Option.some.inj called).symm⟩
  | cons b rest =>
      refine Or.inr ⟨b, rest, rfl, ?_⟩
      rw [chain.1] at called
      dsimp only at called
      split at called
      · cases called
      · obtain ⟨out, once⟩ := List.nodup_cons.mp once
        cases rest with
        | nil =>
            have last : s.qnext b = none := chain.2
            dsimp only [State.setBuf, State.wakeup] at called
            rw [last] at called ⊢
            exact (Option.some.inj called).symm
        | cons c rest =>
            have next : s.qnext b = some c := chain.2.1
            have other : c ≠ b := by
              rintro rfl
              exact out List.mem_cons_self
            dsimp only [State.setBuf, State.wakeup] at called
            rw [next] at called ⊢
            rw [idestart_some called]
            simp only [State.request, Function.update_of_ne other, Option.map_some]
            rfl

variable [DecidableEq P] {p : P}

/-- iderw() queues the buffer, starts the device if there is nothing else, and sleeps. -/
theorem iderw_some (called : s.iderw p b = some t) (chain : Chain s.qnext s.idequeue q)
    (once : q.Nodup) (fresh : (s.buf b).holder = some p → b ∉ q) :
    (s.buf b).holder = some p ∧ ¬ s.finished b ∧ ∃ next,
      Chain next (q ++ [b]).head? (q ++ [b]) ∧
      t = { s with
        qnext := next
        idequeue := (q ++ [b]).head?
        device := if q = [] then some (s.request b) else s.device
        queued := s.queued ++ [(b, (s.buf b).B_DIRTY)]
        calls := Function.update s.calls p
          (some { buf := b, asleep := true, turn := s.queued.length }) } := by
  unfold State.iderw at called
  split at called
  · cases called
  · rename_i holds
    have holds : (s.buf b).holder = some p := not_not.mp holds
    split at called
    · cases called
    · rename_i busy
      split at called
      · cases called
      · obtain ⟨pp, next, found, stored, chained⟩ := append_last chain once (fresh holds)
        dsimp only at called
        rw [found, Option.bind_some, stored, Option.map_eq_some_iff] at called
        obtain ⟨u, started, rfl⟩ := called
        refine ⟨holds, busy, next, chained, ?_⟩
        have first : (q ++ [b]).head? = some b ↔ q = [] := by
          cases q with
          | nil => simp
          | cons c q =>
              have other : c ≠ b := by
                rintro rfl
                exact fresh holds List.mem_cons_self
              simp [other]
        change (if (q ++ [b]).head? = some b then _ else _) = _ at started
        by_cases empty : q = []
        · rw [if_pos (first.mpr empty)] at started
          rw [idestart_some started, if_pos empty, State.waitLoop, if_neg (by exact busy)]
          simp [State.enqueued, State.setCall, State.request]
        · rw [if_neg fun same => empty (first.mp same)] at started
          cases started
          rw [if_neg empty, State.waitLoop, if_neg (by exact busy)]
          simp [State.enqueued, State.setCall]

end Functions

/-! ## The invariant -/

def Completion.key (c : Completion D) : BufSlot × Bool := (c.buf, c.write)

/-- `q` is the queue. -/
structure Inv (s : State P D) (q : List BufSlot) : Prop where
  chain : Chain s.qnext s.idequeue q
  once : q.Nodup
  device : s.device = s.idequeue.map s.request
  order : s.queued = s.completed.map Completion.key ++ q.map fun b => (b, (s.buf b).B_DIRTY)
  caller : ∀ b ∈ q, ∃ p call, s.calls p = some call ∧ call.buf = b ∧
    s.completed.length ≤ call.turn
  holds : ∀ p call, s.calls p = some call → (s.buf call.buf).holder = some p
  waits : ∀ p call, s.calls p = some call → s.completed.length ≤ call.turn →
    q[call.turn - s.completed.length]? = some call.buf ∧ ¬ s.finished call.buf
  done : ∀ p call, s.calls p = some call → call.turn < s.completed.length →
    s.finished call.buf ∧ call.asleep = false ∧ ∃ c, s.completed[call.turn]? = some c ∧
      c.buf = call.buf ∧ ∀ d, c.moved = some d → (s.buf call.buf).data = d
  returned : ∀ call ∈ s.returned, ∃ c, s.completed[call.turn]? = some c ∧ c.buf = call.buf

section Invariant
variable {s t : State P D} {b : BufSlot} {q : List BufSlot} {p : P}

theorem boot_inv (data : BufSlot → D) (havedisk1 : Bool) :
    Inv (boot data havedisk1 : State P D) [] where
  chain := rfl
  once := List.nodup_nil
  device := rfl
  order := rfl
  caller := nofun
  holds := nofun
  waits := nofun
  done := nofun
  returned := nofun

theorem Inv.apart (inv : Inv s q) (idle : s.calls p = none)
    (mine : (s.buf b).holder = some p) : ∀ p' call, s.calls p' = some call → call.buf ≠ b := by
  rintro p' call inside rfl
  have other := inv.holds p' call inside
  rw [mine] at other
  cases other
  rw [idle] at inside
  cases inside

theorem Inv.fresh (inv : Inv s q) (idle : s.calls p = none)
    (mine : (s.buf b).holder = some p) : b ∉ q := by
  intro member
  obtain ⟨p', call, inside, here, -⟩ := inv.caller b member
  exact inv.apart idle mine p' call inside here

theorem Inv.unlocked (inv : Inv s q) (free : (s.buf b).holder = none) :
    ∀ p call, s.calls p = some call → call.buf ≠ b := by
  rintro p call inside rfl
  have mine := inv.holds p call inside
  rw [free] at mine
  cases mine

/-- A buffer that no call is about can change. -/
theorem Inv.setBuf (inv : Inv s q) (apart : ∀ p call, s.calls p = some call → call.buf ≠ b)
    (x : Buf P D) : Inv (s.setBuf b x) q := by
  have same : ∀ p call, s.calls p = some call → (s.setBuf b x).buf call.buf = s.buf call.buf :=
    fun p call inside => Function.update_of_ne (apart p call inside) _ _
  have queued : ∀ c ∈ q, (s.setBuf b x).buf c = s.buf c := by
    intro c member
    obtain ⟨p, call, inside, rfl, -⟩ := inv.caller c member
    exact same p call inside
  have flags : ∀ p call, s.calls p = some call →
      ((s.setBuf b x).finished call.buf ↔ s.finished call.buf) := by
    intro p call inside
    unfold State.finished
    rw [same p call inside]
  constructor
  case chain => exact inv.chain
  case once => exact inv.once
  case device =>
    change s.device = s.idequeue.map _
    rw [inv.device]
    cases q with
    | nil =>
        rw [show s.idequeue = none from inv.chain]
        rfl
    | cons c q =>
        rw [inv.chain.1]
        simp only [Option.map_some, State.request, queued c List.mem_cons_self]
  case order =>
    change s.queued = _
    rw [inv.order]
    congr 1
    exact (List.map_congr_left fun c member => by rw [queued c member]).symm
  case caller => exact inv.caller
  case holds =>
    intro p call inside
    rw [same p call inside]
    exact inv.holds p call inside
  case waits =>
    intro p call inside later
    rw [flags p call inside]
    exact inv.waits p call inside later
  case done =>
    intro p call inside earlier
    rw [flags p call inside, same p call inside]
    exact inv.done p call inside earlier
  case returned => exact inv.returned

/-- The waking of processes, which changes nothing but who is asleep. -/
theorem Inv.calls (inv : Inv s q) {calls : P → Option Call}
    (same : ∀ p call', calls p = some call' → ∃ call, s.calls p = some call ∧
      call'.buf = call.buf ∧ call'.turn = call.turn ∧
      (call.turn < s.completed.length → call'.asleep = false))
    (kept : ∀ p call, s.calls p = some call → ∃ call', calls p = some call' ∧
      call'.buf = call.buf ∧ call'.turn = call.turn) : Inv { s with calls := calls } q := by
  constructor
  case chain => exact inv.chain
  case once => exact inv.once
  case device => exact inv.device
  case order => exact inv.order
  case caller =>
    intro b member
    obtain ⟨p, call, inside, rfl, later⟩ := inv.caller b member
    obtain ⟨call', inside', buf, turn⟩ := kept p call inside
    exact ⟨p, call', inside', buf, turn ▸ later⟩
  case holds =>
    intro p call' inside'
    obtain ⟨call, inside, buf, -⟩ := same p call' inside'
    rw [buf]
    exact inv.holds p call inside
  case waits =>
    intro p call' inside' later
    obtain ⟨call, inside, buf, turn, -⟩ := same p call' inside'
    rw [buf, turn]
    exact inv.waits p call inside (turn ▸ later)
  case done =>
    intro p call' inside' earlier
    obtain ⟨call, inside, buf, turn, awake⟩ := same p call' inside'
    obtain ⟨finished, -, completed⟩ := inv.done p call inside (turn ▸ earlier)
    rw [buf, turn]
    exact ⟨finished, awake (turn ▸ earlier), completed⟩
  case returned => exact inv.returned

theorem Inv.finished_done (inv : Inv s q) {call : Call} (inside : s.calls p = some call)
    (finished : s.finished call.buf) : call.turn < s.completed.length := by
  by_contra later
  exact (inv.waits p call inside (Nat.le_of_not_lt later)).2 finished

/-- A new request goes to the end. -/
theorem Inv.iderw [DecidableEq P] (inv : Inv s q) (idle : s.calls p = none)
    (called : s.iderw p b = some t) : Inv t (q ++ [b]) := by
  have fresh : (s.buf b).holder = some p → b ∉ q := inv.fresh idle
  obtain ⟨mine, busy, next, chain, rfl⟩ := iderw_some called inv.chain inv.once fresh
  have fresh := fresh mine
  have place : s.queued.length = s.completed.length + q.length := by
    rw [inv.order, List.length_append, List.length_map, List.length_map]
  have calls : ∀ p' call, Function.update s.calls p
      (some { buf := b, asleep := true, turn := s.queued.length }) p' = some call →
      (p' = p ∧ call = { buf := b, asleep := true, turn := s.queued.length }) ∨
        s.calls p' = some call := by
    intro p' call inside
    by_cases here : p' = p
    · subst here
      rw [Function.update_self] at inside
      exact Or.inl ⟨rfl, (Option.some.inj inside).symm⟩
    · rw [Function.update_of_ne here] at inside
      exact Or.inr inside
  constructor
  case chain => exact chain
  case once =>
    refine List.nodup_append.mpr ⟨inv.once, List.nodup_singleton b, ?_⟩
    rintro c member d single rfl
    exact fresh (List.mem_singleton.mp single ▸ member)
  case device =>
    change (if q = [] then _ else _) = _
    cases q with
    | nil => rfl
    | cons c q =>
        rw [if_neg (List.cons_ne_nil c q), inv.device, inv.chain.1]
        rfl
  case order =>
    change s.queued ++ _ = _
    rw [inv.order, List.map_append, List.append_assoc]
    rfl
  case caller =>
    intro c member
    rcases List.mem_append.mp member with old | new
    · obtain ⟨p', call, inside, rfl, later⟩ := inv.caller c old
      refine ⟨p', call, ?_, rfl, later⟩
      have other : p' ≠ p := by
        rintro rfl
        rw [idle] at inside
        cases inside
      exact (Function.update_of_ne other _ _).trans inside
    · obtain rfl := List.mem_singleton.mp new
      refine ⟨p, _, Function.update_self .., rfl, ?_⟩
      change s.completed.length ≤ s.queued.length
      omega
  case holds =>
    intro p' call inside
    rcases calls p' call inside with ⟨rfl, rfl⟩ | inside
    · exact mine
    · exact inv.holds p' call inside
  case waits =>
    intro p' call inside later
    rcases calls p' call inside with ⟨rfl, rfl⟩ | inside
    · refine ⟨?_, busy⟩
      have last : s.queued.length - s.completed.length = q.length := by omega
      change (q ++ [b])[s.queued.length - s.completed.length]? = some b
      rw [last, List.getElem?_concat_length]
    · obtain ⟨there, waiting⟩ := inv.waits p' call inside later
      refine ⟨?_, waiting⟩
      obtain ⟨bound, -⟩ := List.getElem?_eq_some_iff.mp there
      exact (List.getElem?_append_left bound).trans there
  case done =>
    intro p' call inside earlier
    rcases calls p' call inside with ⟨rfl, rfl⟩ | inside
    · change s.queued.length < s.completed.length at earlier
      omega
    · exact inv.done p' call inside earlier
  case returned => exact inv.returned

/-- One process falls asleep or wakes up. -/
theorem Inv.asleep [DecidableEq P] (inv : Inv s q) {call : Call}
    (inside : s.calls p = some call) {asleep : Bool}
    (awake : call.turn < s.completed.length → asleep = false) :
    Inv (s.setCall p (some { call with asleep := asleep })) q := by
  refine inv.calls ?_ ?_
  · intro p' call' inside'
    by_cases here : p' = p
    · subst here
      rw [Function.update_self] at inside'
      obtain rfl := Option.some.inj inside'
      exact ⟨call, inside, rfl, rfl, awake⟩
    · rw [Function.update_of_ne here] at inside'
      exact ⟨call', inside', rfl, rfl, fun early => (inv.done p' call' inside' early).2.1⟩
  · intro p' call' inside'
    by_cases here : p' = p
    · subst here
      rw [inside] at inside'
      obtain rfl := Option.some.inj inside'
      exact ⟨_, Function.update_self .., rfl, rfl⟩
    · exact ⟨call', (Function.update_of_ne here _ _).trans inside', rfl, rfl⟩

theorem woken_buf (call : Call) : (if call.buf = b then { call with asleep := false }
    else call).buf = call.buf := by
  split <;> rfl

theorem woken_turn (call : Call) : (if call.buf = b then { call with asleep := false }
    else call).turn = call.turn := by
  split <;> rfl

theorem updated_holder (x : Buf P D) (same : x.holder = (s.buf b).holder) (c : BufSlot) :
    (Function.update s.buf b x c).holder = (s.buf c).holder := by
  by_cases here : c = b
  · subst here
    rw [Function.update_self, same]
  · rw [Function.update_of_ne here]

/-- The call for the first buffer is the one whose turn it is. -/
theorem Inv.turn (inv : Inv s (b :: q)) {call : Call} (inside : s.calls p = some call) :
    call.buf = b ↔ call.turn = s.completed.length := by
  constructor
  · intro here
    obtain ⟨p', call', inside', here', later⟩ := inv.caller b List.mem_cons_self
    have same : p' = p := by
      have mine := inv.holds p call inside
      have other := inv.holds p' call' inside'
      rw [here] at mine
      rw [here', mine] at other
      exact (Option.some.inj other).symm
    subst same
    rw [inside] at inside'
    obtain rfl := Option.some.inj inside'
    obtain ⟨there, -⟩ := inv.waits p' call inside later
    obtain ⟨bound, there⟩ := List.getElem?_eq_some_iff.mp there
    have same : (b :: q)[call.turn - s.completed.length] = (b :: q)[0] := there.trans here
    have zero := inv.once.getElem_inj_iff.mp same
    omega
  · intro now
    obtain ⟨there, -⟩ := inv.waits p call inside (Nat.le_of_eq now.symm)
    rw [now, Nat.sub_self] at there
    exact (Option.some.inj there).symm

/-- The first request is completed. -/
theorem Inv.ideintr {r : Byte} {sector : D} (inv : Inv s q)
    (called : s.ideintr r sector = some t) : ∃ q', Inv t q' := by
  rcases ideintr_some called inv.chain inv.once with ⟨-, rfl⟩ | ⟨b, rest, rfl, rfl⟩
  · exact ⟨q, inv⟩
  refine ⟨rest, ?_⟩
  obtain ⟨out, once⟩ := List.nodup_cons.mp inv.once
  have turn : ∀ {p call}, s.calls p = some call →
      (call.buf = b ↔ call.turn = s.completed.length) := fun inside => inv.turn inside
  have apart : ∀ c ∈ rest, c ≠ b := by
    rintro c member rfl
    exact out member
  constructor
  case chain => exact inv.chain.2
  case once => exact once
  case device =>
    change (s.qnext b).map _ = (s.qnext b).map _
    cases rest with
    | nil =>
        rw [show s.qnext b = none from inv.chain.2]
        rfl
    | cons c rest =>
        rw [inv.chain.2.1]
        simp [State.request, Function.update_of_ne (apart c List.mem_cons_self)]
  case order =>
    change s.queued = (s.completed ++ [_]).map _ ++ _
    rw [inv.order, List.map_append, List.append_assoc, List.map_cons]
    congr 2
    refine List.map_congr_left fun c member => ?_
    dsimp only
    rw [Function.update_of_ne (apart c member)]
  case caller =>
    intro c member
    obtain ⟨p, call, inside, rfl, later⟩ := inv.caller c (List.mem_cons_of_mem b member)
    have other := apart call.buf member
    refine ⟨p, call, ?_, rfl, ?_⟩
    · change (s.calls p).map _ = _
      rw [inside, Option.map_some, if_neg other]
    · have past : call.turn ≠ s.completed.length := fun now => other ((turn inside).mpr now)
      change (s.completed ++ [_]).length ≤ _
      rw [List.length_append, List.length_singleton]
      omega
  case holds =>
    intro p call' inside'
    obtain ⟨call, inside, rfl⟩ := Option.map_eq_some_iff.mp inside'
    rw [woken_buf]
    refine Eq.trans (updated_holder _ ?_ _) (inv.holds p call inside)
    rfl
  case waits =>
    intro p call' inside' later
    obtain ⟨call, inside, rfl⟩ := Option.map_eq_some_iff.mp inside'
    rw [woken_turn, List.length_append, List.length_singleton] at later
    rw [woken_buf, woken_turn, List.length_append, List.length_singleton]
    have other : call.buf ≠ b := fun here => by
      have now := (turn inside).mp here
      omega
    obtain ⟨there, waiting⟩ := inv.waits p call inside (by omega)
    have index : call.turn - s.completed.length = call.turn - (s.completed.length + 1) + 1 := by
      omega
    rw [index, List.getElem?_cons_succ] at there
    refine ⟨there, ?_⟩
    unfold State.finished at waiting ⊢
    dsimp only
    rwa [Function.update_of_ne other]
  case done =>
    intro p call' inside' earlier
    obtain ⟨call, inside, rfl⟩ := Option.map_eq_some_iff.mp inside'
    rw [woken_turn, List.length_append, List.length_singleton] at earlier
    rw [woken_buf, woken_turn]
    by_cases here : call.buf = b
    · have now := (turn inside).mp here
      rw [here, now]
      refine ⟨?_, ?_, completes s b r sector, List.getElem?_concat_length, rfl, ?_⟩
      · unfold State.finished
        dsimp only
        rw [Function.update_self]
        exact ⟨rfl, rfl⟩
      · rw [if_pos rfl]
      · intro d moved
        dsimp only
        rw [Function.update_self, moved]
        rfl
    · have past : call.turn ≠ s.completed.length := fun now => here ((turn inside).mpr now)
      obtain ⟨finished, awake, c, there, same, filled⟩ := inv.done p call inside (by omega)
      unfold State.finished at finished ⊢
      dsimp only
      rw [Function.update_of_ne here, if_neg here]
      refine ⟨finished, awake, c, ?_, same, filled⟩
      exact (List.getElem?_append_left (by omega)).trans there
  case returned =>
    intro call member
    obtain ⟨c, there, same⟩ := inv.returned call member
    obtain ⟨bound, -⟩ := List.getElem?_eq_some_iff.mp there
    exact ⟨c, (List.getElem?_append_left bound).trans there, same⟩

/-- A process that is back from sleep() returns, or sleeps again. -/
theorem Inv.waitLoop [DecidableEq P] (inv : Inv s q) {call : Call}
    (inside : s.calls p = some call) : Inv (s.waitLoop p call) q := by
  unfold State.waitLoop
  split
  · rename_i finished
    have early := inv.finished_done inside finished
    obtain ⟨-, -, c, there, same, -⟩ := inv.done p call inside early
    have calls : ∀ p' call', Function.update s.calls p none p' = some call' →
        s.calls p' = some call' := by
      intro p' call' inside'
      by_cases here : p' = p
      · subst here
        rw [Function.update_self] at inside'
        cases inside'
      · rwa [Function.update_of_ne here] at inside'
    constructor
    case chain => exact inv.chain
    case once => exact inv.once
    case device => exact inv.device
    case order => exact inv.order
    case caller =>
      intro b member
      obtain ⟨p', call', inside', here, later⟩ := inv.caller b member
      have other : p' ≠ p := by
        rintro rfl
        rw [inside] at inside'
        obtain rfl := Option.some.inj inside'
        omega
      exact ⟨p', call', (Function.update_of_ne other _ _).trans inside', here, later⟩
    case holds => exact fun p' call' inside' => inv.holds p' call' (calls p' call' inside')
    case waits => exact fun p' call' inside' => inv.waits p' call' (calls p' call' inside')
    case done => exact fun p' call' inside' => inv.done p' call' (calls p' call' inside')
    case returned =>
      intro call' member
      rcases List.mem_append.mp member with old | new
      · exact inv.returned call' old
      · obtain rfl := List.mem_singleton.mp new
        exact ⟨c, there, same⟩
  · rename_i busy
    exact inv.asleep inside fun early => absurd (inv.done p call inside early).1 busy

theorem step_inv [DecidableEq P] (inv : Inv s q) {e : Event P D} (taken : step s e = some t) :
    ∃ q', Inv t q' := by
  cases e with
  | acquiresleep p b =>
      obtain ⟨⟨-, free⟩, same⟩ := Option.ite_none_right_eq_some.mp taken
      cases same
      exact ⟨q, inv.setBuf (inv.unlocked free) _⟩
  | releasesleep p b =>
      obtain ⟨⟨idle, mine⟩, same⟩ := Option.ite_none_right_eq_some.mp taken
      cases same
      exact ⟨q, inv.setBuf (inv.apart idle mine) _⟩
  | modify p b valid dirty data =>
      obtain ⟨⟨idle, mine⟩, same⟩ := Option.ite_none_right_eq_some.mp taken
      cases same
      exact ⟨q, inv.setBuf (inv.apart idle mine) _⟩
  | recycle b dev blockno =>
      obtain ⟨free, same⟩ := Option.ite_none_right_eq_some.mp taken
      cases same
      exact ⟨q, inv.setBuf (inv.unlocked free) _⟩
  | iderw p b =>
      obtain ⟨idle, called⟩ := Option.ite_none_right_eq_some.mp taken
      exact ⟨q ++ [b], inv.iderw idle called⟩
  | ideintr r sector => exact inv.ideintr taken
  | kill p =>
      simp only [step] at taken
      split at taken
      · cases taken
        exact ⟨q, inv⟩
      · rename_i call inside
        cases taken
        exact ⟨q, inv.asleep inside fun _ => rfl⟩
  | resume p =>
      simp only [step] at taken
      split at taken
      · cases taken
      · rename_i call inside
        obtain ⟨-, same⟩ := Option.ite_none_left_eq_some.mp taken
        cases same
        exact ⟨q, inv.waitLoop inside⟩

end Invariant

/-! ## What holds of the queue -/

/-- The device works on the first buffer of the queue, requests are completed once each in
the order of the queue, a call returns after its own was, a write leaves the buffer clean
and valid, and a read has put the sector into it. -/
structure Good (s : State P D) : Prop where
  device : s.device = s.idequeue.map s.request
  order : ∃ q, Chain s.qnext s.idequeue q ∧
    s.queued = s.completed.map Completion.key ++ q.map fun b => (b, (s.buf b).B_DIRTY)
  returned : ∀ call ∈ s.returned, ∃ c, s.completed[call.turn]? = some c ∧ c.buf = call.buf
  finished : ∀ p call c, s.calls p = some call → s.completed[call.turn]? = some c →
    c.buf = call.buf ∧ (s.buf call.buf).B_VALID = true ∧ (s.buf call.buf).B_DIRTY = false ∧
      ∀ d, c.moved = some d → (s.buf call.buf).data = d
  woken : ∀ p call, s.calls p = some call → call.asleep = true →
    s.completed.length ≤ call.turn
  transferred : ∀ c ∈ s.completed, c.write = false → c.moved ≠ none

/-- The device reports no error for a read. -/
def NoError (s : State P D) : Event P D → Prop
  | .ideintr r _ => ∀ b, s.idequeue = some b → (s.buf b).B_DIRTY = false → idewait true r = 0
  | _ => True

/-- What is kept in the runs without errors. -/
def Sound (s : State P D) : Prop :=
  (∃ q, Inv s q) ∧ ∀ c ∈ s.completed, c.write = false → c.moved ≠ none

section Results
variable {s t : State P D}

theorem Sound.good (sound : Sound s) : Good s := by
  obtain ⟨⟨q, inv⟩, transferred⟩ := sound
  constructor
  case device => exact inv.device
  case order => exact ⟨q, inv.chain, inv.order⟩
  case returned => exact inv.returned
  case finished =>
    intro p call c inside there
    obtain ⟨early, -⟩ := List.getElem?_eq_some_iff.mp there
    obtain ⟨finished, -, c', there', same, filled⟩ := inv.done p call inside early
    rw [there] at there'
    obtain rfl := Option.some.inj there'
    exact ⟨same, finished.1, finished.2, filled⟩
  case woken =>
    intro p call inside asleep
    by_contra early
    obtain ⟨-, awake, -⟩ := inv.done p call inside (Nat.lt_of_not_le early)
    rw [awake] at asleep
    cases asleep
  case transferred => exact transferred

variable [DecidableEq P]

/-- What a step adds to the completed requests. -/
theorem step_completed {e : Event P D} {q : List BufSlot} (inv : Inv s q)
    (taken : step s e = some t) :
    t.completed = s.completed ∨ ∃ r sector b, e = .ideintr r sector ∧ s.idequeue = some b ∧
      t.completed = s.completed ++ [completes s b r sector] := by
  cases e with
  | acquiresleep p b =>
      obtain ⟨-, same⟩ := Option.ite_none_right_eq_some.mp taken
      cases same
      exact Or.inl rfl
  | releasesleep p b =>
      obtain ⟨-, same⟩ := Option.ite_none_right_eq_some.mp taken
      cases same
      exact Or.inl rfl
  | modify p b valid dirty data =>
      obtain ⟨-, same⟩ := Option.ite_none_right_eq_some.mp taken
      cases same
      exact Or.inl rfl
  | recycle b dev blockno =>
      obtain ⟨-, same⟩ := Option.ite_none_right_eq_some.mp taken
      cases same
      exact Or.inl rfl
  | iderw p b =>
      obtain ⟨idle, called⟩ := Option.ite_none_right_eq_some.mp taken
      obtain ⟨-, -, next, -, rfl⟩ := iderw_some called inv.chain inv.once (inv.fresh idle)
      exact Or.inl rfl
  | ideintr r sector =>
      rcases ideintr_some taken inv.chain inv.once with ⟨-, rfl⟩ | ⟨b, rest, rfl, rfl⟩
      · exact Or.inl rfl
      · exact Or.inr ⟨r, sector, b, rfl, inv.chain.1, rfl⟩
  | kill p =>
      simp only [step] at taken
      split at taken
      · cases taken
        exact Or.inl rfl
      · cases taken
        exact Or.inl rfl
  | resume p =>
      simp only [step] at taken
      split at taken
      · cases taken
      · obtain ⟨-, same⟩ := Option.ite_none_left_eq_some.mp taken
        cases same
        unfold State.waitLoop
        split
        · exact Or.inl rfl
        · exact Or.inl rfl

theorem step_sound {e : Event P D} (sound : Sound s) (quiet : NoError s e)
    (taken : step s e = some t) : Sound t := by
  obtain ⟨⟨q, inv⟩, transferred⟩ := sound
  refine ⟨step_inv inv taken, ?_⟩
  rcases step_completed inv taken with same | ⟨r, sector, b, rfl, first, same⟩
  · rw [same]
    exact transferred
  · rw [same]
    intro c member read
    rcases List.mem_append.mp member with old | new
    · exact transferred c old read
    · obtain rfl := List.mem_singleton.mp new
      have clean : (s.buf b).B_DIRTY = false := read
      have status : idewait true r ≥ 0 := Int.le_of_eq (quiet b first clean).symm
      rw [completes, if_pos ⟨clean, status⟩]
      exact Option.some_ne_none sector

theorem step_quiet {e : Event P D} (sound : Sound s) (taken : step s e = some t)
    (good : Good t) : NoError s e := by
  obtain ⟨⟨q, inv⟩, -⟩ := sound
  rcases e with _ | _ | _ | _ | _ | ⟨r, sector⟩ | _ | _
  case ideintr =>
    intro b first clean
    by_contra failed
    have status : ¬ idewait true r ≥ 0 := by
      unfold idewait at failed ⊢
      split at failed
      · rename_i error
        rw [if_pos error]
        decide
      · exact absurd rfl failed
    rcases ideintr_some taken inv.chain inv.once with ⟨rfl, -⟩ | ⟨b', rest, rfl, rfl⟩
    · rw [show s.idequeue = none from inv.chain] at first
      cases first
    · obtain rfl := Option.some.inj (first.symm.trans inv.chain.1)
      refine good.transferred _ (List.mem_append_right _ List.mem_cons_self) clean ?_
      exact if_neg fun both => status both.2
  all_goals trivial

/-- In a run from the start the queue is as it should be in every state if and only if no
read of it ends with an error. -/
theorem disk_queue_iff (data : BufSlot → D) (havedisk1 : Bool) (es : List (Event P D))
    (ran : run step (boot data havedisk1) es = some s) :
    Always step Good (boot data havedisk1) es ↔ Guarded step NoError (boot data havedisk1) es :=
  always_iff_guarded step (fun _ sound => sound.good)
    (fun _ _ _ sound quiet taken => step_sound sound quiet taken)
    (fun _ _ _ sound taken good => step_quiet sound taken good) es _ s
    ⟨⟨[], boot_inv data havedisk1⟩, nofun⟩ ran

end Results

/-- One process reads a block, and the device answers with this status. -/
def readBlock (r : Byte) : List (Event Unit Bool) :=
  [.acquiresleep () 0, .iderw () 0, .ideintr r true, .resume ()]

theorem disk_queue_iff_ready : Always step Good (boot (fun _ => false) false) (readBlock 0x40) := by
  obtain ⟨s, ran⟩ : ∃ s, run step (boot (fun _ => false) false) (readBlock 0x40) = some s :=
    ⟨_, rfl⟩
  refine (disk_queue_iff (fun _ => false) false (readBlock 0x40) ran).mpr ?_
  exact ⟨trivial, trivial, fun _ _ _ => by decide, trivial, trivial⟩

/-- The buffer is valid, and nothing has been read into it. -/
theorem read_error_valid : ∃ s, run step (boot (fun _ => false) false) (readBlock 0x41) = some s ∧
    (s.buf 0).B_VALID = true ∧ (s.buf 0).data = false ∧ ¬ Good s := by
  refine ⟨_, rfl, rfl, rfl, fun good => ?_⟩
  exact good.transferred ⟨0, false, none⟩ List.mem_cons_self rfl rfl

end Xv6.Public2.DiskQueue
