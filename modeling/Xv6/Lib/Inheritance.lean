import Mathlib.Tactic.Common
import Xv6.Lib.Slots

/-!
# Values handed down from parent to child

Members in slots hold a value each that their own operations change.  A member
can start a child in a free slot; somewhere on the way its value is copied
there, and the child goes live when that has been done.  A book keeps the value
at the start of each child and the child's own operations since: the value of a
live member is the one folded over the other.
-/

set_option autoImplicit false

universe u v w

namespace Xv6.Lib.Inheritance

inductive Phase where
  | free | embryo | live | dead
  deriving DecidableEq

structure Member (ι : Type u) (σ : Type v) where
  phase : Phase
  value : σ
  /-- The child being started, and whether the value has been copied to it. -/
  fork : Option (ι × Bool)

structure Book (ι : Type u) (σ : Type v) (ω : Type w) where
  inherited : ι → σ
  calls : ι → List ω

section Moves
variable {ι : Type u} {σ : Type v} {ω : Type w} [DecidableEq ι] (apply : σ → ω → σ)

/-- One step of the members and of the book, by a member or by nobody. -/
inductive Move : Option ι → (ι → Member ι σ) → Book ι σ ω → (ι → Member ι σ) → Book ι σ ω → Prop
  | stay (who : Option ι) (m : ι → Member ι σ) (b : Book ι σ ω) : Move who m b m b
  | start (i np : ι) (m : ι → Member ι σ) (b : Book ι σ ω) (live : (m i).phase = .live)
      (idle : (m i).fork = none) (free : (m np).phase = .free) :
      Move (some i) m b
        (Function.update (Function.update m np { m np with phase := .embryo }) i
          { m i with fork := some (np, false) })
        { inherited := Function.update b.inherited np (m i).value
          calls := Function.update b.calls np [] }
  | copy (i np : ι) (copied : Bool) (m : ι → Member ι σ) (b : Book ι σ ω)
      (busy : (m i).fork = some (np, copied)) :
      Move (some i) m b
        (Function.update (Function.update m np { m np with value := (m i).value }) i
          { m i with fork := some (np, true) }) b
  | fail (i np : ι) (copied : Bool) (m : ι → Member ι σ) (b : Book ι σ ω)
      (busy : (m i).fork = some (np, copied)) :
      Move (some i) m b
        (Function.update (Function.update m np { m np with phase := .free }) i
          { m i with fork := none }) b
  | commit (i np : ι) (m : ι → Member ι σ) (b : Book ι σ ω)
      (busy : (m i).fork = some (np, true)) :
      Move (some i) m b
        (Function.update (Function.update m np { m np with phase := .live, fork := none }) i
          { m i with fork := none }) b
  | call (i : ι) (op : ω) (m : ι → Member ι σ) (b : Book ι σ ω) (live : (m i).phase = .live)
      (idle : (m i).fork = none) :
      Move (some i) m b (Function.update m i { m i with value := apply (m i).value op })
        { b with calls := Function.update b.calls i (b.calls i ++ [op]) }
  | die (i : ι) (m : ι → Member ι σ) (b : Book ι σ ω) (live : (m i).phase = .live)
      (idle : (m i).fork = none) :
      Move (some i) m b (Function.update m i { m i with phase := .dead }) b
  | reap (who : Option ι) (j : ι) (m : ι → Member ι σ) (b : Book ι σ ω)
      (dead : (m j).phase = .dead) :
      Move who m b (Function.update m j { m j with phase := .free }) b

/-- What the book says of the value of a member. -/
def Book.value (b : Book ι σ ω) (i : ι) : σ := (b.calls i).foldl apply (b.inherited i)

/-- The book is right about every live member, and about every child on its
way. -/
structure Inv (m : ι → Member ι σ) (b : Book ι σ ω) : Prop where
  kept : ∀ i, (m i).phase = .live → (m i).value = b.value apply i
  busy : ∀ i np copied, (m i).fork = some (np, copied) →
    (m i).phase = .live ∧ (m np).phase = .embryo ∧ b.inherited np = (m i).value ∧
      b.calls np = [] ∧ (copied = true → (m np).value = b.inherited np)
  owner : ∀ i j np copied copied', (m i).fork = some (np, copied) →
    (m j).fork = some (np, copied') → i = j

variable {apply}
variable {m m' : ι → Member ι σ} {b b' : Book ι σ ω} {who : Option ι} {i j np : ι} {copied : Bool}

omit [DecidableEq ι] in
/-- Only a live member has a child on its way. -/
theorem Inv.idle (inv : Inv apply m b) (off : (m i).phase ≠ .live) : (m i).fork = none := by
  cases forking : (m i).fork with
  | none => rfl
  | some fork =>
      obtain ⟨np, copied⟩ := fork
      exact absurd (inv.busy i np copied forking).1 off

omit [DecidableEq ι] in
theorem Inv.apart (inv : Inv apply m b) (busy : (m i).fork = some (np, copied)) : np ≠ i := by
  obtain ⟨live, embryo, _⟩ := inv.busy i np copied busy
  rintro rfl
  rw [live] at embryo
  cases embryo

/-- A slot in which no child is on its way takes on another phase, and not one
of life. -/
theorem Inv.leave (inv : Inv apply m b) (phase : Phase) (old : (m i).phase ≠ .embryo)
    (idle : (m i).fork = none) (off : phase ≠ .live) :
    Inv apply (Function.update m i { m i with phase := phase }) b := by
  have same : ∀ j, (Function.update m i { m i with phase := phase } j).fork = (m j).fork :=
    Slots.update_observed Member.fork m i _ rfl
  constructor
  case kept =>
    intro j live
    by_cases here : j = i
    · subst here
      rw [Function.update_self] at live
      exact absurd live off
    · rw [Function.update_of_ne here] at live ⊢
      exact inv.kept j live
  case busy =>
    intro j np copied forking
    rw [same] at forking
    obtain ⟨live, embryo, value, calls, done⟩ := inv.busy j np copied forking
    have parent : j ≠ i := by
      rintro rfl
      rw [idle] at forking
      cases forking
    have child : np ≠ i := by
      rintro rfl
      exact old embryo
    rw [Function.update_of_ne parent, Function.update_of_ne child]
    exact ⟨live, embryo, value, calls, done⟩
  case owner =>
    intro j j' np copied copied' left right
    rw [same] at left right
    exact inv.owner j j' np copied copied' left right

/-- A parent and the child it is starting take a step together. -/
theorem Inv.forkStep (inv : Inv apply m b) (busy : (m i).fork = some (np, copied))
    (child : Member ι σ) (fork : Option (ι × Bool)) (childIdle : child.fork = none)
    (born : child.phase = .live → child.value = (m i).value)
    (going : ∀ np' copied', fork = some (np', copied') →
      np' = np ∧ child.phase = .embryo ∧ (copied' = true → child.value = (m i).value)) :
    Inv apply (Function.update (Function.update m np child) i { m i with fork := fork }) b := by
  obtain ⟨live, embryo, value, calls, _⟩ := inv.busy i np copied busy
  have apart := inv.apart busy
  have atChild : Function.update (Function.update m np child) i { m i with fork := fork } np =
      child := by
    rw [Function.update_of_ne apart, Function.update_self]
  have others : ∀ j, j ≠ np → j ≠ i →
      Function.update (Function.update m np child) i { m i with fork := fork } j = m j := by
    intro j notChild notParent
    rw [Function.update_of_ne notParent, Function.update_of_ne notChild]
  have was : ∀ j np' copied',
      (Function.update (Function.update m np child) i { m i with fork := fork } j).fork =
        some (np', copied') → ∃ before, (m j).fork = some (np', before) := by
    intro j np' copied' forking
    by_cases parent : j = i
    · subst parent
      rw [Function.update_self] at forking
      obtain ⟨rfl, _, _⟩ := going np' copied' forking
      exact ⟨copied, busy⟩
    · by_cases kid : j = np
      · subst kid
        rw [atChild, childIdle] at forking
        cases forking
      · rw [others j kid parent] at forking
        exact ⟨copied', forking⟩
  constructor
  case kept =>
    intro j living
    by_cases parent : j = i
    · subst parent
      rw [Function.update_self]
      exact inv.kept j live
    · by_cases kid : j = np
      · subst kid
        rw [atChild] at living ⊢
        rw [born living, Book.value, calls, value]
        rfl
      · rw [others j kid parent] at living ⊢
        exact inv.kept j living
  case busy =>
    intro j np' copied' forking
    by_cases parent : j = i
    · subst parent
      rw [Function.update_self] at forking ⊢
      obtain ⟨rfl, stays, done⟩ := going np' copied' forking
      rw [atChild]
      exact ⟨live, stays, value, calls, fun yes => (done yes).trans value.symm⟩
    · obtain ⟨before, old⟩ := was j np' copied' forking
      obtain ⟨living, half, origin, quiet, done⟩ := inv.busy j np' before old
      have kid : j ≠ np := by
        rintro rfl
        rw [embryo] at living
        cases living
      have otherChild : np' ≠ np := by
        rintro rfl
        exact parent (inv.owner j i np' before copied old busy)
      have notParent : np' ≠ i := by
        rintro rfl
        rw [live] at half
        cases half
      rw [others j kid parent] at forking ⊢
      rw [others np' otherChild notParent]
      rw [old] at forking
      cases forking
      exact ⟨living, half, origin, quiet, done⟩
  case owner =>
    intro j j' np' copied' copied'' left right
    obtain ⟨before, left⟩ := was j np' copied' left
    obtain ⟨before', right⟩ := was j' np' copied'' right
    exact inv.owner j j' np' before before' left right

theorem Inv.start (inv : Inv apply m b) (live : (m i).phase = .live) (idle : (m i).fork = none)
    (free : (m np).phase = .free) :
    Inv apply
      (Function.update (Function.update m np { m np with phase := .embryo }) i
        { m i with fork := some (np, false) })
      { inherited := Function.update b.inherited np (m i).value
        calls := Function.update b.calls np [] } := by
  have apart : np ≠ i := by
    rintro rfl
    rw [live] at free
    cases free
  have childIdle : (m np).fork = none := inv.idle (by rw [free]; simp)
  have away : ∀ j np' copied, (m j).fork = some (np', copied) → np' ≠ np ∧ np' ≠ i ∧ j ≠ i := by
    intro j np' copied forking
    have half := (inv.busy j np' copied forking).2.1
    refine ⟨?_, ?_, ?_⟩
    · rintro rfl
      rw [free] at half
      cases half
    · rintro rfl
      rw [live] at half
      cases half
    · rintro rfl
      rw [idle] at forking
      cases forking
  have starting_or_before : ∀ j np' copied,
      (Function.update (Function.update m np { m np with phase := .embryo }) i
        { m i with fork := some (np, false) } j).fork = some (np', copied) →
      j = i ∧ np' = np ∧ copied = false ∨
        j ≠ i ∧ j ≠ np ∧ (m j).fork = some (np', copied) := by
    intro j np' copied forking
    by_cases parent : j = i
    · subst parent
      rw [Function.update_self] at forking
      cases forking
      exact Or.inl ⟨rfl, rfl, rfl⟩
    · by_cases kid : j = np
      · subst kid
        rw [Function.update_of_ne parent, Function.update_self, childIdle] at forking
        cases forking
      · rw [Function.update_of_ne parent, Function.update_of_ne kid] at forking
        exact Or.inr ⟨parent, kid, forking⟩
  constructor
  case kept =>
    intro j living
    by_cases parent : j = i
    · subst parent
      simp only [Function.update_self, Book.value, Function.update_of_ne apart.symm]
      exact inv.kept j live
    · by_cases kid : j = np
      · subst kid
        rw [Function.update_of_ne parent, Function.update_self] at living
        cases living
      · rw [Function.update_of_ne parent, Function.update_of_ne kid] at living ⊢
        simp only [Book.value, Function.update_of_ne kid]
        exact inv.kept j living
  case busy =>
    intro j np' copied forking
    rcases starting_or_before j np' copied forking with ⟨rfl, rfl, rfl⟩ | ⟨parent, kid, old⟩
    · simp only [Function.update_self, Function.update_of_ne apart]
      exact ⟨live, trivial, trivial, trivial, fun h => by cases h⟩
    · obtain ⟨otherChild, notParent, _⟩ := away j np' copied old
      simp only [Function.update_of_ne parent, Function.update_of_ne kid,
        Function.update_of_ne notParent, Function.update_of_ne otherChild]
      exact inv.busy j np' copied old
  case owner =>
    intro j j' np' copied copied' left right
    rcases starting_or_before j np' copied left with ⟨rfl, rfl, rfl⟩ | ⟨_, _, first⟩
    · rcases starting_or_before j' np' copied' right with ⟨rfl, _, _⟩ | ⟨_, _, second⟩
      · rfl
      · exact absurd rfl (away j' np' copied' second).1
    · rcases starting_or_before j' np' copied' right with ⟨rfl, rfl, rfl⟩ | ⟨_, _, second⟩
      · exact absurd rfl (away j np' copied first).1
      · exact inv.owner j j' np' copied copied' first second

theorem Inv.call (inv : Inv apply m b) (op : ω) (live : (m i).phase = .live)
    (idle : (m i).fork = none) :
    Inv apply (Function.update m i { m i with value := apply (m i).value op })
      { b with calls := Function.update b.calls i (b.calls i ++ [op]) } := by
  have same : ∀ j, (Function.update m i { m i with value := apply (m i).value op } j).fork =
      (m j).fork := Slots.update_observed Member.fork m i _ rfl
  constructor
  case kept =>
    intro j living
    by_cases here : j = i
    · subst here
      simp only [Book.value, Function.update_self, List.foldl_append, List.foldl_cons,
        List.foldl_nil]
      rw [inv.kept j live]
      rfl
    · rw [Function.update_of_ne here] at living ⊢
      simp only [Book.value, Function.update_of_ne here]
      exact inv.kept j living
  case busy =>
    intro j np copied forking
    rw [same] at forking
    obtain ⟨living, half, value, quiet, done⟩ := inv.busy j np copied forking
    have parent : j ≠ i := by
      rintro rfl
      rw [idle] at forking
      cases forking
    have child : np ≠ i := by
      rintro rfl
      rw [live] at half
      cases half
    simp only [Function.update_of_ne parent, Function.update_of_ne child]
    exact ⟨living, half, value, quiet, done⟩
  case owner =>
    intro j j' np copied copied' left right
    rw [same] at left right
    exact inv.owner j j' np copied copied' left right

/-- Every move keeps the book right. -/
theorem Move.inv (move : Move apply who m b m' b') (inv : Inv apply m b) : Inv apply m' b' := by
  cases move with
  | stay => exact inv
  | start i np _ _ live idle free => exact inv.start live idle free
  | copy i np copied _ _ busy =>
      obtain ⟨_, embryo, _, _, _⟩ := inv.busy i np copied busy
      have notLive : (m np).phase ≠ .live := by
        rw [embryo]
        simp
      refine inv.forkStep busy _ (some (np, true)) (inv.idle notLive)
        (fun living => absurd living notLive) ?_
      rintro np' copied' ⟨⟩
      exact ⟨rfl, embryo, fun _ => rfl⟩
  | fail i np copied _ _ busy =>
      obtain ⟨_, embryo, _, _, _⟩ := inv.busy i np copied busy
      have notLive : (m np).phase ≠ .live := by
        rw [embryo]
        simp
      refine inv.forkStep busy _ none (inv.idle notLive) (fun living => by cases living) ?_
      rintro np' copied' ⟨⟩
  | commit i np _ _ busy =>
      obtain ⟨_, _, value, _, done⟩ := inv.busy i np true busy
      refine inv.forkStep busy _ none rfl (fun _ => (done rfl).trans value) ?_
      rintro np' copied' ⟨⟩
  | call i op _ _ live idle => exact inv.call op live idle
  | die i _ _ live idle =>
      refine inv.leave .dead ?_ idle (by simp)
      rw [live]
      simp
  | reap _ j _ _ dead =>
      refine inv.leave .free ?_ (inv.idle ?_) (by simp)
      · rw [dead]
        simp
      · rw [dead]
        simp

/-- The value of a live member changes by its own moves only. -/
theorem Move.other (move : Move apply who m b m' b') (inv : Inv apply m b)
    (live : (m j).phase = .live) (other : who ≠ some j) : (m' j).value = (m j).value := by
  have apart : ∀ i, some i ≠ some j → j ≠ i := fun i different same => different (same ▸ rfl)
  have half : ∀ i np copied, (m i).fork = some (np, copied) → j ≠ np := by
    rintro i np copied busy rfl
    have embryo := (inv.busy i j copied busy).2.1
    rw [live] at embryo
    cases embryo
  cases move with
  | stay => rfl
  | start i np _ _ _ _ free =>
      have kid : j ≠ np := by
        rintro rfl
        rw [live] at free
        cases free
      rw [Function.update_of_ne (apart i other), Function.update_of_ne kid]
  | copy i np copied _ _ busy =>
      rw [Function.update_of_ne (apart i other), Function.update_of_ne (half i np copied busy)]
  | fail i np copied _ _ busy =>
      rw [Function.update_of_ne (apart i other), Function.update_of_ne (half i np copied busy)]
  | commit i np _ _ busy =>
      rw [Function.update_of_ne (apart i other), Function.update_of_ne (half i np true busy)]
  | call i op => rw [Function.update_of_ne (apart i other)]
  | die i => rw [Function.update_of_ne (apart i other)]
  | reap _ j' _ _ dead =>
      have kid : j ≠ j' := by
        rintro rfl
        rw [live] at dead
        cases dead
      rw [Function.update_of_ne kid]

end Moves

end Xv6.Lib.Inheritance
