import Mathlib.Data.List.Chain
import Mathlib.Data.List.Nodup
import Mathlib.Logic.Function.Basic

/-!
# Linked lists and rings in a store

The nodes that `next` links, as a list: `Linked` for a list whose last node points
anywhere, `Ring` for one whose last node points back to the first.  A ring can be read from
any of its nodes.  `Twin` is a ring in both directions, and `Chain` a list that ends with a
null pointer.
-/

set_option autoImplicit false

namespace Xv6.Lib.Links

open scoped List

universe u

variable {α : Type u} {next next' : α → α}

/-- Each node but the last points to the one after it. -/
def Linked (next : α → α) (nodes : List α) : Prop := nodes.IsChain fun a b => next a = b

theorem mem_turned {before after : List α} {a c : α} :
    c ∈ a :: (after ++ before) ↔ c ∈ before ++ a :: after :=
  (List.perm_append_comm : (a :: after) ++ before ~ before ++ (a :: after)).mem_iff

/-- The last node points to the first. -/
def Ring (next : α → α) (nodes : List α) : Prop := Linked next (nodes ++ nodes.head?.toList)

theorem linked_split {a : α} {before after : List α} :
    Linked next (before ++ a :: after) ↔ Linked next (before ++ [a]) ∧ Linked next (a :: after) :=
  List.isChain_split

theorem Linked.congr {nodes : List α} (linked : Linked next nodes)
    (same : ∀ a ∈ nodes.dropLast, next' a = next a) : Linked next' nodes := by
  induction nodes with
  | nil => exact List.IsChain.nil
  | cons a rest ih =>
      cases rest with
      | nil => exact List.isChain_singleton a
      | cons b rest =>
          obtain ⟨here, later⟩ := List.isChain_cons_cons.mp linked
          refine List.isChain_cons_cons.mpr ⟨(same a List.mem_cons_self).trans here, ?_⟩
          exact ih later fun c member => same c (List.mem_cons_of_mem a member)

theorem ring_cons {a : α} {rest : List α} :
    Ring next (a :: rest) ↔ Linked next (a :: (rest ++ [a])) := Iff.rfl

theorem Ring.congr {nodes : List α} (ring : Ring next nodes)
    (same : ∀ a ∈ nodes, next' a = next a) : Ring next' nodes := by
  cases nodes with
  | nil => exact List.IsChain.nil
  | cons a rest =>
      refine Linked.congr ring fun c member => same c ?_
      have all : (a :: rest ++ [a]).dropLast = a :: rest := List.dropLast_concat
      exact all ▸ member

theorem Ring.rotate {before after : List α} (ring : Ring next (before ++ after)) :
    Ring next (after ++ before) := by
  cases before with
  | nil => rwa [List.append_nil]
  | cons a before =>
      cases after with
      | nil => rwa [List.append_nil] at ring
      | cons b after =>
          have whole : Linked next ((a :: before) ++ b :: (after ++ [a])) := by
            have same : (a :: before ++ b :: after) ++ [a] = (a :: before) ++ b :: (after ++ [a]) :=
              List.append_assoc ..
            exact same ▸ ring
          obtain ⟨first, second⟩ := linked_split.mp whole
          have turned : Linked next ((b :: after) ++ a :: (before ++ [b])) :=
            linked_split.mpr ⟨second, first⟩
          have same : (b :: after) ++ a :: (before ++ [b]) = (b :: after ++ a :: before) ++ [b] := by
            simp
          show Linked next ((b :: after ++ a :: before) ++ [b])
          rwa [← same]

/-- The node after `a` is its successor in the list. -/
theorem Ring.next_mem {nodes : List α} (ring : Ring next nodes) {a : α} (member : a ∈ nodes) :
    next a ∈ nodes := by
  obtain ⟨before, after, rfl⟩ := List.append_of_mem member
  have turned : Linked next (a :: (after ++ before ++ [a])) := ring.rotate
  rw [← mem_turned]
  cases rest : after ++ before with
  | nil =>
      rw [rest] at turned
      have self : next a = a := (List.isChain_cons_cons.mp turned).1
      rw [self]
      exact List.mem_cons_self
  | cons b more =>
      rw [rest] at turned
      have here : next a = b := (List.isChain_cons_cons.mp turned).1
      rw [here]
      exact List.mem_cons_of_mem a List.mem_cons_self

/-- A node that another one points to stands right behind it, unless it is the first. -/
theorem Ring.split {first : α} {rest : List α} (ring : Ring next (first :: rest)) {a : α}
    (member : a ∈ first :: rest) (other : next a ≠ first) :
    ∃ before after, first :: rest = before ++ a :: next a :: after := by
  obtain ⟨before, after, split⟩ := List.append_of_mem member
  have linked : Linked next (before ++ a :: (after ++ [first])) := by
    have ring : Linked next ((first :: rest) ++ [first]) := ring
    rw [split, List.append_assoc] at ring
    exact ring
  have later := (linked_split.mp linked).2
  cases after with
  | nil => exact absurd (List.isChain_cons_cons.mp later).1 other
  | cons b after =>
      have here : next a = b := (List.isChain_cons_cons.mp later).1
      exact ⟨before, after, here ▸ split⟩

/-- A ring around `a`. -/
theorem ring_around {before after : List α} {a : α} :
    Ring next (before ++ a :: after) ↔ Linked next (a :: (after ++ before ++ [a])) := by
  constructor
  · exact fun ring => ring.rotate
  · intro linked
    have ring : Ring next ((a :: after) ++ before) := linked
    exact ring.rotate

section Store
variable [DecidableEq α] {before after : List α} {a b : α}

/-- The node behind `a` is taken out. -/
theorem Ring.remove (ring : Ring next (before ++ a :: b :: after))
    (once : (before ++ a :: b :: after).Nodup) :
    Ring (Function.update next a (next b)) (before ++ a :: after) := by
  have linked := ring_around.mp ring
  have turned : (a :: b :: (after ++ before)).Nodup := by
    have swapped := List.nodup_append_comm.mp once
    exact swapped
  obtain ⟨notA, rest⟩ := List.nodup_cons.mp turned
  have behind : Linked next (b :: (after ++ before ++ [a])) :=
    (List.isChain_cons_cons.mp linked).2
  refine ring_around.mpr ?_
  have kept : Linked (Function.update next a (next b)) (b :: (after ++ before ++ [a])) := by
    refine behind.congr fun c member => Function.update_of_ne ?_ _ _
    have all : (b :: (after ++ before) ++ [a]).dropLast = b :: (after ++ before) :=
      List.dropLast_concat
    intro same
    exact notA (same ▸ all ▸ member)
  cases list : after ++ before ++ [a] with
  | nil => simp at list
  | cons c more =>
      rw [list] at behind kept
      refine List.isChain_cons_cons.mpr ⟨?_, (List.isChain_cons_cons.mp kept).2⟩
      rw [Function.update_self]
      exact (List.isChain_cons_cons.mp behind).1

/-- A new node is put behind `a`. -/
theorem Ring.insert (ring : Ring next (before ++ a :: after))
    (once : (before ++ a :: after).Nodup) (new : b ∉ before ++ a :: after) :
    Ring (Function.update (Function.update next b (next a)) a b) (before ++ a :: b :: after) := by
  have linked := ring_around.mp ring
  have turned : (a :: (after ++ before)).Nodup := List.nodup_append_comm.mp once
  have newTurned : b ∉ a :: (after ++ before) := fun member => new (mem_turned.mp member)
  have different : b ≠ a := fun same => newTurned (same ▸ List.mem_cons_self)
  obtain ⟨notA, _⟩ := List.nodup_cons.mp turned
  refine ring_around.mpr ?_
  cases list : after ++ before ++ [a] with
  | nil => simp at list
  | cons c more =>
      rw [list] at linked
      obtain ⟨here, later⟩ := List.isChain_cons_cons.mp linked
      have kept : Linked (Function.update (Function.update next b (next a)) a b) (c :: more) := by
        refine Linked.congr later fun d member => ?_
        have inside : d ∈ after ++ before := by
          have all : (after ++ before ++ [a]).dropLast = after ++ before := List.dropLast_concat
          rw [← all, list]
          exact member
        have notHere : d ≠ a := fun same => notA (same ▸ inside)
        have notNew : d ≠ b := fun same => newTurned (same ▸ List.mem_cons_of_mem a inside)
        rw [Function.update_of_ne notHere, Function.update_of_ne notNew]
      have shape : b :: after ++ before ++ [a] = b :: c :: more := by
        rw [← list]
        rfl
      rw [shape]
      refine List.isChain_cons_cons.mpr ⟨Function.update_self .., ?_⟩
      refine List.isChain_cons_cons.mpr ⟨?_, kept⟩
      rw [Function.update_of_ne different, Function.update_self, here]

end Store

/-! ## Loops over a list -/

/-- `for(p = start; !stop(p); p = next(p))`, with fuel. -/
def walk (next : α → α) (stop : α → Bool) : Nat → α → Option α
  | 0, _ => none
  | fuel + 1, p => if stop p then some p else walk next stop fuel (next p)

theorem walk_more {stop : α → Bool} {fuel more : Nat} {a z : α}
    (found : walk next stop fuel a = some z) (enough : fuel ≤ more) :
    walk next stop more a = some z := by
  induction fuel generalizing more a with
  | zero => cases found
  | succ fuel ih =>
      obtain ⟨left, rfl⟩ : ∃ left, more = left + 1 := ⟨more - 1, by omega⟩
      rw [walk] at found ⊢
      split
      case isTrue stops =>
        rw [if_pos stops] at found
        exact found
      case isFalse goes =>
        rw [if_neg goes] at found
        exact ih found (Nat.le_of_succ_le_succ enough)

/-- The loop passes the nodes at which it does not stop. -/
theorem walk_linked {stop : α → Bool} {passed : List α} {a z : α} {after : List α}
    (linked : Linked next (passed ++ z :: after)) (head : (passed ++ [z]).head? = some a)
    (goes : ∀ c ∈ passed, stop c = false) (fuel : Nat) :
    walk next stop (passed.length + fuel) a = walk next stop fuel z := by
  induction passed generalizing a with
  | nil =>
      cases head
      rw [List.length_nil, Nat.zero_add]
  | cons c rest ih =>
      cases head
      have going : ¬ stop c = true := by
        rw [goes c List.mem_cons_self]
        exact Bool.false_ne_true
      have more : ∀ d ∈ rest, stop d = false := fun d member =>
        goes d (List.mem_cons_of_mem c member)
      have step : (c :: rest).length + fuel = rest.length + fuel + 1 := by
        rw [List.length_cons]
        omega
      rw [step, walk, if_neg going]
      cases rest with
      | nil =>
          have link : next c = z := (List.isChain_cons_cons.mp linked).1
          exact ih (List.isChain_cons_cons.mp linked).2 (congrArg some link.symm) more
      | cons d rest =>
          have link : next c = d := (List.isChain_cons_cons.mp linked).1
          exact ih (List.isChain_cons_cons.mp linked).2 (congrArg some link.symm) more

/-- From any node of a ring the loop comes to the one at which it stops. -/
theorem walk_ring {stop : α → Bool} {nodes : List α} {a z : α} (ring : Ring next nodes)
    (start : a ∈ nodes) (target : z ∈ nodes) (stops : stop z = true)
    (goes : ∀ c ∈ nodes, c ≠ z → stop c = false) {fuel : Nat} (enough : nodes.length ≤ fuel) :
    walk next stop fuel a = some z := by
  obtain ⟨before, after, rfl⟩ := List.append_of_mem start
  have turned := ring_around.mp ring
  have inside : z ∈ a :: (after ++ before) := mem_turned.mpr target
  obtain ⟨passed, rest, split, fresh⟩ := List.eq_append_cons_of_mem inside
  have length : passed.length + 1 ≤ fuel := by
    have same := congrArg List.length split
    simp only [List.length_cons, List.length_append] at same enough
    omega
  have linked : Linked next (passed ++ z :: (rest ++ [a])) := by
    have whole : a :: (after ++ before ++ [a]) = passed ++ z :: (rest ++ [a]) := by
      rw [← List.cons_append, split, List.append_assoc]
      rfl
    exact whole ▸ turned
  have head : (passed ++ [z]).head? = some a := by
    have first := congrArg List.head? split
    cases passed with
    | nil => exact first.symm
    | cons c passed => exact first.symm
  have passes : ∀ c ∈ passed, stop c = false := by
    intro c member
    refine goes c ?_ fun same => fresh (same ▸ member)
    have there : c ∈ a :: (after ++ before) := split ▸ List.mem_append_left _ member
    exact mem_turned.mp there
  obtain ⟨left, rfl⟩ : ∃ left, fuel = passed.length + (left + 1) :=
    ⟨fuel - passed.length - 1, by omega⟩
  rw [walk_linked linked head passes, walk, if_pos stops]

/-- From the node behind `a`, the loop comes to the first node at which it stops, or to `a`. -/
theorem walk_around {stop : α → Bool} {a : α} {nodes : List α} (ring : Ring next (a :: nodes))
    (stops : stop a = true) :
    walk next stop (nodes.length + 1) (next a) = some ((nodes.find? stop).getD a) := by
  have linked : Linked next (a :: (nodes ++ [a])) := ring
  clear ring
  have along : ∀ (nodes : List α) (b : α), Linked next (b :: (nodes ++ [a])) →
      walk next stop (nodes.length + 1) (next b) = some ((nodes.find? stop).getD a) := by
    intro nodes
    induction nodes with
    | nil =>
        intro b linked
        have here : next b = a := (List.isChain_cons_cons.mp linked).1
        rw [here, List.length_nil, walk, if_pos stops]
        rfl
    | cons c rest ih =>
        intro b linked
        obtain ⟨here, later⟩ := List.isChain_cons_cons.mp linked
        rw [here, List.length_cons, walk, List.find?_cons]
        cases found : stop c with
        | true => rfl
        | false => exact ih c later
  exact along nodes a linked

/-! ## Rings in both directions -/

/-- `next` goes round the nodes one way, and `prev` the other way. -/
structure Twin (next prev : α → α) (nodes : List α) : Prop where
  forth : Ring next nodes
  back : Ring prev nodes.reverse

section Twin
variable {prev : α → α} {before after : List α} {a b : α}

theorem Twin.congr {prev' : α → α} {nodes : List α} (twin : Twin next prev nodes)
    (forth : ∀ a ∈ nodes, next' a = next a) (back : ∀ a ∈ nodes, prev' a = prev a) :
    Twin next' prev' nodes where
  forth := twin.forth.congr forth
  back := twin.back.congr fun c member => back c (List.mem_reverse.mp member)

variable [DecidableEq α]

/-- A node is taken out. -/
theorem Twin.unlink (twin : Twin next prev (before ++ a :: b :: after))
    (once : (before ++ a :: b :: after).Nodup) :
    next b ≠ b ∧ prev b = a ∧
      Twin (Function.update next (prev b) (next b)) (Function.update prev (next b) (prev b))
        (before ++ a :: after) := by
  obtain ⟨forth, back⟩ := twin
  have reversed : (before ++ a :: b :: after).reverse =
      after.reverse ++ b :: (a :: before.reverse) := by simp
  rw [reversed] at back
  have behind : prev b = a := (List.isChain_cons_cons.mp (ring_around.mp back)).1
  -- The nodes behind `b`, up to `a`.
  obtain ⟨c, more, list⟩ : ∃ c more, after ++ (before ++ [a]) = c :: more :=
    List.exists_cons_of_ne_nil (by simp)
  have ahead : next b = c := by
    have around : Linked next (b :: (after ++ (before ++ [a]) ++ [b])) := by
      have same : before ++ a :: b :: after = (before ++ [a]) ++ b :: after := by simp
      rw [same] at forth
      exact ring_around.mp forth
    rw [list] at around
    exact (List.isChain_cons_cons.mp around).1
  have turned : (b :: c :: more).Nodup := by
    rw [← list]
    have same : before ++ a :: b :: after = (before ++ [a]) ++ b :: after := by simp
    rw [same] at once
    exact List.nodup_append_comm.mp once
  have apart : c ≠ b := fun same => (List.nodup_cons.mp turned).1 (same ▸ List.mem_cons_self)
  refine ⟨ahead ▸ apart, behind, ?_, ?_⟩
  · rw [behind]
    exact forth.remove once
  · have round : Ring prev (c :: b :: more.reverse) := by
      have turn : Ring prev ((b :: a :: before.reverse) ++ after.reverse) := back.rotate
      have flat : (b :: a :: before.reverse) ++ after.reverse = [b] ++ (c :: more).reverse := by
        rw [← list]
        simp
      rw [flat, List.reverse_cons, ← List.append_assoc] at turn
      exact turn.rotate
    have fresh : (c :: b :: more.reverse).Nodup := by
      obtain ⟨notB, rest⟩ := List.nodup_cons.mp turned
      obtain ⟨notC, rest⟩ := List.nodup_cons.mp rest
      refine List.nodup_cons.mpr ⟨?_, List.nodup_cons.mpr ⟨?_, List.nodup_reverse.mpr rest⟩⟩
      · intro member
        rcases List.mem_cons.mp member with same | inside
        · exact apart same
        · exact notC (List.mem_reverse.mp inside)
      · intro member
        exact notB (List.mem_cons_of_mem c (List.mem_reverse.mp member))
    have removed := @Ring.remove α prev _ [] more.reverse c b round fresh
    rw [ahead]
    have turn : Ring (Function.update prev c (prev b)) (more.reverse ++ [c]) :=
      @Ring.rotate α _ [c] more.reverse removed
    have flat : more.reverse ++ [c] = (before ++ [a]).reverse ++ after.reverse := by
      rw [← List.reverse_cons, ← list, List.reverse_append]
    rw [flat] at turn
    have final := turn.rotate
    rwa [← List.reverse_append, List.append_assoc] at final

/-- A new node is put behind the first one. -/
theorem Twin.link (twin : Twin next prev (a :: after)) (once : (a :: after).Nodup)
    (new : b ∉ a :: after) :
    next a ≠ b ∧ Twin (Function.update (Function.update next b (next a)) a b)
      (Function.update (Function.update prev b a) (next a) b) (a :: b :: after) := by
  obtain ⟨forth, back⟩ := twin
  have forth' := @Ring.insert α next _ [] after a b forth once new
  cases after with
  | nil =>
      have here : next a = a := (List.isChain_cons_cons.mp forth).1
      have there : prev a = a := (List.isChain_cons_cons.mp back).1
      have back' := @Ring.insert α prev _ [] [] a b back once new
      rw [there] at back'
      refine ⟨fun same => new ?_, forth', ?_⟩
      · rw [← same, here]
        exact List.mem_cons_self
      · rw [here]
        exact @Ring.rotate α _ [a] [b] back'
  | cons c more =>
      have here : next a = c := (List.isChain_cons_cons.mp forth).1
      have reversed : (a :: c :: more).reverse = more.reverse ++ c :: [a] := by simp
      rw [reversed] at back
      have there : prev c = a := (List.isChain_cons_cons.mp (ring_around.mp back)).1
      have fresh : (more.reverse ++ c :: [a]).Nodup := by
        rw [← reversed]
        exact List.nodup_reverse.mpr once
      have other : b ∉ more.reverse ++ c :: [a] := by
        rw [← reversed]
        exact fun member => new (List.mem_reverse.mp member)
      have back' := back.insert fresh other
      rw [there] at back'
      refine ⟨fun same => new ?_, forth', ?_⟩
      · rw [← same, here]
        exact List.mem_cons_of_mem a List.mem_cons_self
      · rw [here]
        have flat : (a :: b :: c :: more).reverse = more.reverse ++ c :: b :: [a] := by simp
        rw [flat]
        exact back'

end Twin

/-! ## Lists that end -/

/-- The nodes from `p` on, to the one that points nowhere. -/
def Chain (ptr : α → Option α) : Option α → List α → Prop
  | p, [] => p = none
  | p, a :: nodes => p = some a ∧ Chain ptr (ptr a) nodes

section Ends
variable {ptr ptr' : α → Option α} {p : Option α} {nodes : List α} {a b : α}

theorem Chain.head (chain : Chain ptr p nodes) : p = nodes.head? := by
  cases nodes with
  | nil => exact chain
  | cons a nodes => exact chain.1

theorem Chain.congr (chain : Chain ptr p nodes) (same : ∀ a ∈ nodes, ptr' a = ptr a) :
    Chain ptr' p nodes := by
  induction nodes generalizing p with
  | nil => exact chain
  | cons a nodes ih =>
      refine ⟨chain.1, ?_⟩
      rw [same a List.mem_cons_self]
      exact ih chain.2 fun c member => same c (List.mem_cons_of_mem a member)

/-- The last node of a list that ends is made to point to a new one. -/
theorem Chain.append [DecidableEq α] (chain : Chain ptr p (nodes ++ [a]))
    (once : (nodes ++ [a]).Nodup) (fresh : b ∉ nodes ++ [a]) (ends : ptr b = none) :
    Chain (Function.update ptr a (some b)) p (nodes ++ [a, b]) := by
  induction nodes generalizing p with
  | nil =>
      have apart : b ≠ a := fun same => fresh (same ▸ List.mem_cons_self)
      refine ⟨chain.1, Function.update_self .., ?_⟩
      rw [Chain, Function.update_of_ne apart]
      exact ends
  | cons c nodes ih =>
      obtain ⟨notIn, once⟩ := List.nodup_cons.mp once
      have apart : c ≠ a := by
        rintro rfl
        exact notIn (List.mem_append_right nodes List.mem_cons_self)
      refine ⟨chain.1, ?_⟩
      rw [Function.update_of_ne apart]
      exact ih chain.2 once fun member => fresh (List.mem_cons_of_mem c member)

end Ends

end Xv6.Lib.Links
