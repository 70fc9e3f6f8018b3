import Xv6.Public1.ExecCopy

/-!
# The stack that exec() builds

The arguments come one below the other, then the words of ustack[].  Everything
that is written is in the last page, or the image is given up; what a process finds
there can be read back.
-/

set_option autoImplicit false

namespace Xv6.Public1.Exec

open Xv6.Lib.Words
open Xv6.Public3 hiding PGROUNDDOWN
open Xv6.Machine (PGROUNDDOWN)

variable {d : Pgdir} {mem : Memory}

/-! ## What a process reads -/

/-- The byte at a user address. -/
def userByte (d : Pgdir) (mem : Memory) (va : Nat) : Byte :=
  match d.pte va with
  | none => 0
  | some e => mem (e.page + BitVec.ofNat 32 (va % PGSIZE))

def userWord (d : Pgdir) (mem : Memory) (va : Nat) : Word :=
  userByte d mem (va + 3) ++ userByte d mem (va + 2) ++ userByte d mem (va + 1) ++
    userByte d mem va

def userBytes (d : Pgdir) (mem : Memory) (va count : Nat) : List Byte :=
  (List.range count).map fun k => userByte d mem (va + k)

/-- The pages below `sz` are pages of their own. -/
structure Private (d : Pgdir) (sz : Nat) : Prop where
  aligned : ∀ va e, va < sz → d.pte va = some e → e.page.toNat % PGSIZE = 0
  once : ∀ va va' e e', va < sz → va' < sz → d.pte va = some e → d.pte va' = some e' →
    e.page = e'.page → va / PGSIZE = va' / PGSIZE

/-- A memory after a block has been written at user addresses. -/
structure Stored (d : Pgdir) (sz : Nat) (mem : Memory) (va : Nat) (buf : List Byte)
    (mem' : Memory) : Prop where
  here : ∀ k, k < buf.length → userByte d mem' (va + k) = buf.getD k 0
  elsewhere : ∀ x, x < sz → x < va ∨ va + buf.length ≤ x → userByte d mem' x = userByte d mem x

/-- A block within the last page. -/
theorem stored_overlay {sz va : Nat} {e : Pte} {buf : List Byte} (own : Private d sz)
    (whole : sz % PGSIZE = 0) (small : sz ≤ KERNBASE) (page : PGSIZE ≤ sz)
    (present : ∀ va, va < sz → (d.pte va).isSome = true)
    (entry : d.pte (sz - PGSIZE) = some e) (first : sz - PGSIZE ≤ va)
    (last : va + buf.length ≤ sz) :
    Stored d sz mem va buf
      (overlay mem (e.page + BitVec.ofNat 32 (va - (sz - PGSIZE))) buf) := by
  have same : ∀ x, sz - PGSIZE ≤ x → x < sz → d.pte x = some e := by
    intro x after before
    rw [← entry]
    apply Pgdir.pte_eq
    · simp only [PGSIZE] at *
      omega
    · simp only [KERNBASE] at small
      omega
    · simp only [KERNBASE] at small
      omega
  have frame := own.aligned _ e (by simp only [PGSIZE] at *; omega) entry
  have bound := e.page.isLt
  constructor
  case here =>
    intro k inside
    unfold userByte
    rw [same (va + k) (by omega) (by omega)]
    dsimp only
    have offset : (e.page + BitVec.ofNat 32 ((va + k) % PGSIZE) -
        (e.page + BitVec.ofNat 32 (va - (sz - PGSIZE)))).toNat = k := by
      have place : (va + k) % PGSIZE = va - (sz - PGSIZE) + k := by
        simp only [PGSIZE] at *
        omega
      rw [place, BitVec.ofNat_add, ← BitVec.add_assoc]
      have cancel : ∀ a b : Word, a + b - a = b := fun a b => by bv_omega
      rw [cancel, BitVec.toNat_ofNat]
      simp only [PGSIZE] at *
      omega
    rw [overlay, offset, List.getD_eq_getElem _ _ inside, List.getD_eq_getElem _ _ inside]
  case elsewhere =>
    intro x below outside
    obtain ⟨e', entry'⟩ := Option.isSome_iff_exists.mp (present x below)
    unfold userByte
    rw [entry']
    dsimp only
    rw [overlay, List.getD_eq_default]
    by_cases stackPage : sz - PGSIZE ≤ x
    · obtain rfl : e = e' := Option.some.inj ((same x stackPage below).symm.trans entry')
      simp only [PGSIZE] at *
      bv_omega
    · have apart : e.page ≠ e'.page := by
        intro shared
        have one := own.once _ _ e e' (by simp only [PGSIZE] at *; omega) below entry entry' shared
        simp only [PGSIZE] at *
        omega
      have frame' := own.aligned x e' below entry'
      have bound' := e'.page.isLt
      have differ : e.page.toNat ≠ e'.page.toNat := fun eq => apart (BitVec.eq_of_toNat_eq eq)
      rw [BitVec.toNat_sub, BitVec.toNat_add, BitVec.toNat_add, BitVec.toNat_ofNat,
        BitVec.toNat_ofNat]
      simp only [PGSIZE] at *
      omega

/-! ## The arguments -/

/-- Some argument gets an address without page table: the first one for which the stack page,
from `base` on, has no room. -/
def Strays (base : Nat) : Nat → Word → List (List Byte) → Prop
  | _, _, [] => False
  | argc, sp, s :: argv =>
      argc < MAXARG ∧
        if base + s.length + 1 ≤ sp.toNat then Strays base (argc + 1) (push sp s.length) argv
        else Hole (push sp s.length).toNat

/-- The arguments, one below the other. -/
inductive Placed (d : Pgdir) (mem : Memory) (base : Nat) :
    Word → List (List Byte) → List Word → Word → Prop
  | nil (sp : Word) : Placed d mem base sp [] [] sp
  | cons {sp p last : Word} {s : List Byte} {argv : List (List Byte)} {places : List Word}
      (above : base ≤ p.toNat) (below : p.toNat + s.length + 1 ≤ sp.toNat)
      (text : userBytes d mem p.toNat (s.length + 1) = s ++ [0])
      (rest : Placed d mem base p argv places last) :
      Placed d mem base sp (s :: argv) (p :: places) last

/-- What the argument loop leaves. -/
structure Pushed (d : Pgdir) (sz : Nat) (mem : Memory) (sp : Word) (argv : List (List Byte))
    (places : List Word) (last : Word) (mem' : Memory) : Prop where
  placed : Placed d mem' (sz - PGSIZE) sp argv places last
  above : sz - PGSIZE ≤ last.toNat
  below : last.toNat ≤ sp.toNat
  aligned : last.toNat % 4 = 0
  elsewhere : ∀ x, x < sz → x < last.toNat ∨ sp.toNat ≤ x → userByte d mem' x = userByte d mem x

theorem userBytes_eq {va : Nat} {buf : List Byte}
    (here : ∀ k, k < buf.length → userByte d mem (va + k) = buf.getD k 0) :
    userBytes d mem va buf.length = buf := by
  apply List.ext_getElem
  · simp [userBytes]
  · intro k _ inside
    simp only [userBytes, List.getElem_map, List.getElem_range]
    rw [here k inside, List.getD_eq_getElem _ _ inside]

/-- An argument that is pushed, and those after it. -/
theorem Pushed.cons {sz : Nat} {mem mid mem' : Memory} {sp p last : Word} {s : List Byte}
    {argv : List (List Byte)} {places : List Word}
    (stored : Stored d sz mem p.toNat (s ++ [0]) mid) (above : sz - PGSIZE ≤ p.toNat)
    (below : p.toNat + s.length + 1 ≤ sp.toNat) (top : sp.toNat ≤ sz)
    (rest : Pushed d sz mid p argv places last mem') :
    Pushed d sz mem sp (s :: argv) (p :: places) last mem' := by
  have length : (s ++ [0]).length = s.length + 1 := by simp
  constructor
  case placed =>
    refine .cons above below ?_ rest.placed
    rw [← length]
    apply userBytes_eq
    intro k inside
    rw [length] at inside
    rw [rest.elsewhere (p.toNat + k) (by omega) (Or.inr (by omega))]
    exact stored.here k (by omega)
  case above => exact rest.above
  case below =>
    have := rest.below
    omega
  case aligned => exact rest.aligned
  case elsewhere =>
    intro x small outside
    have lower := rest.below
    rw [rest.elsewhere x small (by omega)]
    exact stored.elsewhere x small (by omega)

/-! One round of the argument loop. -/

section Round
variable {s : List Byte} {argv : List (List Byte)} {pointers : List Word} {sp : Word}
  {mid : Memory} (few : ¬ MAXARG ≤ pointers.length)
include few

theorem pushArgs_copied (copied : copyout d mem (push sp s.length) (s ++ [0]) = .ok (true, mid)) :
    pushArgs d (s :: argv) pointers sp mem =
      pushArgs d argv (pointers ++ [push sp s.length]) (push sp s.length) mid := by
  rw [pushArgs, if_neg few]
  dsimp only
  rw [copied]
  rfl

theorem pushArgs_refused
    (refused : copyout d mem (push sp s.length) (s ++ [0]) = .ok (false, mid)) :
    pushArgs d (s :: argv) pointers sp mem = .ok (none, mid) := by
  rw [pushArgs, if_neg few]
  dsimp only
  rw [refused]
  rfl

theorem pushArgs_fault {e : Fault}
    (fault : copyout d mem (push sp s.length) (s ++ [0]) = .error e) :
    pushArgs d (s :: argv) pointers sp mem = .error e := by
  rw [pushArgs, if_neg few]
  dsimp only
  rw [fault]
  rfl

end Round

section Ready
variable {sz : Nat} (h : Ready d sz) (own : Private d sz)
include h

theorem Ready.present {va : Nat} (below : va < sz) : (d.pte va).isSome = true := by
  by_cases guard : sz - 2 * PGSIZE ≤ va ∧ va < sz - PGSIZE
  · obtain ⟨e, entry, _⟩ := h.guard va guard.1 guard.2
    rw [entry]
    rfl
  · obtain ⟨e, entry, _⟩ := h.user va below guard
    rw [entry]
    rfl

/-- A block below `sp` that does not fit is refused. -/
theorem Ready.refused (mem : Memory) (va sp : Word) {buf : List Byte} (some_byte : buf ≠ [])
    (first : sz - PGSIZE ≤ sp.toNat) (reaches : sp.toNat < va.toNat + buf.length + 4)
    (low : va.toNat < sz - PGSIZE) :
    ∃ mem', copyout d mem va buf = .ok (false, mem') := by
  have two := h.two
  apply h.stops (Nat.le_refl _) low ?_ some_byte
  simp only [PGSIZE] at *
  omega

/-- An argument that strays is copied to a null pointer's page. -/
theorem Ready.pushArgs_strays {argv : List (List Byte)} (pointers : List Word) (sp : Word)
    (mem : Memory) (first : sz - PGSIZE ≤ sp.toNat) (last : sp.toNat ≤ sz)
    (strays : Strays (sz - PGSIZE) pointers.length sp argv) :
    pushArgs d argv pointers sp mem = .error .nullDereference := by
  have two := h.two
  have whole := h.aligned
  obtain ⟨e, entry, _⟩ := h.stackPage
  induction argv generalizing pointers sp mem with
  | nil => exact absurd strays id
  | cons s argv ih =>
      obtain ⟨few, strays⟩ := strays
      have few : ¬ MAXARG ≤ pointers.length := Nat.not_le_of_lt few
      have some_byte : s ++ [0] ≠ [] := by simp
      have length : (s ++ [(0 : Byte)]).length = s.length + 1 := by simp
      by_cases room : sz - PGSIZE + s.length + 1 ≤ sp.toNat
      · rw [if_pos room] at strays
        have place := push_toNat sp s.length (by omega)
        have above : sz - PGSIZE ≤ (push sp s.length).toNat := by
          simp only [PGSIZE] at *
          omega
        have copied := h.inside mem some_byte entry above (by omega)
        have counted : (pointers ++ [push sp s.length]).length = pointers.length + 1 := by simp
        rw [pushArgs_copied few copied]
        exact ih _ _ _ above (by omega) (counted.symm ▸ strays)
      · rw [if_neg room] at strays
        have high : KERNBASE ≤ (push sp s.length).toNat := by
          have := strays.1
          simp only [RAM, KERNBASE] at *
          omega
        have outcome := h.kernelBlock mem high some_byte
        rw [if_pos strays] at outcome
        exact pushArgs_fault few outcome

include own

theorem Ready.fits (mem : Memory) (va : Word) {buf : List Byte} (some_byte : buf ≠ [])
    (first : sz - PGSIZE ≤ va.toNat) (last : va.toNat + buf.length ≤ sz) :
    ∃ mem', copyout d mem va buf = .ok (true, mem') ∧ Stored d sz mem va.toNat buf mem' := by
  have two := h.two
  obtain ⟨e, entry, _⟩ := h.stackPage
  refine ⟨_, h.inside mem some_byte entry first last, ?_⟩
  exact stored_overlay own h.aligned (Nat.le_of_lt h.small) (by simp only [PGSIZE] at *; omega)
    (fun _ below => h.present below) entry first last

/-- Otherwise the argument loop gives up or places every argument. -/
theorem pushArgs_cases {argv : List (List Byte)} (pointers : List Word) (sp : Word) (mem : Memory)
    (short : ∀ s ∈ argv, s.length < KERNBASE) (first : sz - PGSIZE ≤ sp.toNat)
    (last : sp.toNat ≤ sz) (aligned : sp.toNat % 4 = 0) (few : pointers.length ≤ MAXARG)
    (stays : ¬ Strays (sz - PGSIZE) pointers.length sp argv) :
    (∃ mem', pushArgs d argv pointers sp mem = .ok (none, mem')) ∨
      ∃ places last mem', pushArgs d argv pointers sp mem =
          .ok (some (last, pointers ++ places), mem') ∧
        pointers.length + argv.length ≤ MAXARG ∧ Pushed d sz mem sp argv places last mem' := by
  induction argv generalizing pointers sp mem with
  | nil =>
      refine Or.inr ⟨[], sp, mem, ?_, few, ?_⟩
      · rw [List.append_nil]
        rfl
      · exact ⟨.nil sp, first, Nat.le_refl _, aligned, fun _ _ _ => rfl⟩
  | cons s argv ih =>
      have some_byte : s ++ [0] ≠ [] := by simp
      have length : (s ++ [(0 : Byte)]).length = s.length + 1 := by simp
      have shorter := short s List.mem_cons_self
      have whole := h.aligned
      by_cases many : MAXARG ≤ pointers.length
      · refine Or.inl ⟨mem, ?_⟩
        rw [pushArgs, if_pos many]
        rfl
      · unfold Strays at stays
        rw [and_iff_right (Nat.lt_of_not_le many)] at stays
        by_cases room : sz - PGSIZE + s.length + 1 ≤ sp.toNat
        · have place := push_toNat sp s.length (by omega)
          have above : sz - PGSIZE ≤ (push sp s.length).toNat := by
            simp only [PGSIZE] at whole room ⊢
            omega
          have below : (push sp s.length).toNat + s.length + 1 ≤ sp.toNat := by omega
          obtain ⟨mid, copied, stored⟩ := h.fits own mem (push sp s.length) some_byte above
            (by omega)
          have counted : (pointers ++ [push sp s.length]).length = pointers.length + 1 := by simp
          rw [if_pos room, ← counted] at stays
          rw [pushArgs_copied many copied]
          obtain ⟨mem', gone⟩ | ⟨places, lowest, mem', done, fewer, pushed⟩ :=
            ih _ _ mid (fun s member => short s (List.mem_cons_of_mem _ member)) above
              (by omega) (by omega) (by omega) stays
          · exact Or.inl ⟨mem', gone⟩
          · refine Or.inr ⟨push sp s.length :: places, lowest, mem', ?_, ?_, ?_⟩
            · rw [List.append_cons pointers (push sp s.length) places]
              exact done
            · rw [List.length_cons]
              omega
            · exact pushed.cons stored above below last
        · rw [if_neg room] at stays
          by_cases wraps : sp.toNat < s.length + 1
          · have outcome := h.kernelBlock mem (push_wraps wraps shorter) some_byte
            rw [if_neg stays] at outcome
            exact Or.inl ⟨mem, pushArgs_refused many outcome⟩
          · have place := push_toNat sp s.length (by omega)
            obtain ⟨mem', gone⟩ := h.refused mem (push sp s.length) sp some_byte first
              (by omega) (by simp only [PGSIZE] at first room ⊢; omega)
            exact Or.inl ⟨mem', pushArgs_refused many gone⟩

end Ready

/-! ## The words of the stack -/

theorem flatMap_wordBytes_length (words : List Word) :
    (words.flatMap wordBytes).length = 4 * words.length := by
  induction words with
  | nil => rfl
  | cons w words ih =>
      rw [List.flatMap_cons, List.length_append, wordBytes_length, ih, List.length_cons]
      omega

theorem flatMap_wordBytes_getD (words : List Word) (i j : Nat) (inside : j < 4)
    (listed : i < words.length) :
    (words.flatMap wordBytes).getD (4 * i + j) 0 = (wordBytes (words.getD i 0)).getD j 0 := by
  induction words generalizing i with
  | nil => exact absurd listed (Nat.not_lt_zero i)
  | cons w words ih =>
      rw [List.flatMap_cons]
      cases i with
      | zero =>
          rw [Nat.mul_zero, Nat.zero_add, List.getD_append _ _ _ _ (by simp; omega)]
          rfl
      | succ i =>
          rw [List.getD_append_right _ _ _ _ (by simp; omega), wordBytes_length]
          have shift : 4 * (i + 1) + j - 4 = 4 * i + j := by omega
          rw [shift, ih i (Nat.lt_of_succ_lt_succ listed)]
          rfl

/-- The words of a block can be read back. -/
theorem userWord_of_block {a i : Nat} {words : List Word}
    (here : ∀ k, k < (words.flatMap wordBytes).length →
      userByte d mem (a + k) = (words.flatMap wordBytes).getD k 0) (listed : i < words.length) :
    userWord d mem (a + 4 * i) = words.getD i 0 := by
  have byte : ∀ j, j < 4 →
      userByte d mem (a + 4 * i + j) = (wordBytes (words.getD i 0)).getD j 0 := by
    intro j inside
    rw [Nat.add_assoc, here (4 * i + j) (by rw [flatMap_wordBytes_length]; omega),
      flatMap_wordBytes_getD words i j inside listed]
  have first := byte 0 (by decide)
  rw [Nat.add_zero] at first
  unfold userWord
  rw [byte 3 (by decide), byte 2 (by decide), byte 1 (by decide), first]
  exact wordBytes_joined _

/-! ## What a process finds -/

/-- Two objects, each an address and a length, have no byte in common. -/
def Apart (x y : Nat × Nat) : Prop := x.1 + x.2 ≤ y.1 ∨ y.1 + y.2 ≤ x.1

/-- The strings at their places. -/
def strings (places : List Word) (argv : List (List Byte)) : List (Nat × Nat) :=
  List.zipWith (fun p s => (p.toNat, s.length + 1)) places argv

/-- What is on the stack: the return PC with argc and argv, the pointers and the strings. -/
def objects (esp table : Nat) (places : List Word) (argv : List (List Byte)) : List (Nat × Nat) :=
  (esp, 12) :: (table, 4 * (argv.length + 1)) :: strings places argv

/-- From the stack pointer on the arguments can be found, in the last page of the image. -/
structure Decodable (d : Pgdir) (sz : Nat) (mem : Memory) (argv : List (List Byte))
    (esp table : Nat) (places : List Word) : Prop where
  aligned : esp % 4 = 0
  last_page : sz - PGSIZE ≤ esp ∧ esp < sz
  count : (userWord d mem (esp + 4)).toNat = argv.length
  vector : (userWord d mem (esp + 8)).toNat = table
  pointers : ∀ i, i < argv.length → userWord d mem (table + 4 * i) = places.getD i 0
  last : userWord d mem (table + 4 * argv.length) = 0
  texts : List.Forall₂ (fun p s => userBytes d mem p.toNat (s.length + 1) = s ++ [0]) places argv
  disjoint : (objects esp table places argv).Pairwise Apart
  inside : ∀ x ∈ objects esp table places argv, sz - PGSIZE ≤ x.1 ∧ x.1 + x.2 ≤ sz

namespace Placed

variable {base : Nat} {sp last : Word} {argv : List (List Byte)} {places : List Word}

theorem texts (h : Placed d mem base sp argv places last) :
    List.Forall₂ (fun p s => userBytes d mem p.toNat (s.length + 1) = s ++ [0]) places argv := by
  induction h with
  | nil => exact .nil
  | cons _ _ text _ ih => exact .cons text ih

theorem lower (h : Placed d mem base sp argv places last) : last.toNat ≤ sp.toNat := by
  induction h with
  | nil => exact Nat.le_refl _
  | cons _ below _ _ ih => omega

theorem within (h : Placed d mem base sp argv places last) :
    ∀ x ∈ strings places argv, last.toNat ≤ x.1 ∧ x.1 + x.2 ≤ sp.toNat := by
  induction h with
  | nil => exact fun _ impossible => by cases impossible
  | cons _ below _ rest ih =>
      intro x member
      have lower := rest.lower
      obtain rfl | member := List.mem_cons.mp member
      · dsimp only
        omega
      · have := ih x member
        omega

theorem disjoint (h : Placed d mem base sp argv places last) :
    (strings places argv).Pairwise Apart := by
  induction h with
  | nil => exact .nil
  | cons _ _ _ rest ih =>
      refine .cons ?_ ih
      intro x member
      exact Or.inr (rest.within x member).2

theorem length (h : Placed d mem base sp argv places last) : places.length = argv.length :=
  h.texts.length_eq

/-- Later writes below the strings leave them. -/
theorem kept {mem' : Memory} {sz : Nat} (h : Placed d mem base sp argv places last)
    (top : sp.toNat ≤ sz)
    (same : ∀ x, x < sz → last.toNat ≤ x → userByte d mem' x = userByte d mem x) :
    Placed d mem' base sp argv places last := by
  induction h with
  | nil sp => exact .nil sp
  | @cons sp p last s argv places above below text rest ih =>
      refine .cons above below ?_ (ih (by omega) same)
      rw [← text]
      apply List.map_congr_left
      intro k inside
      have lower := rest.lower
      rw [List.mem_range] at inside
      exact same _ (by omega) (by omega)

end Placed

/-- Everything outside the last page is as it was. -/
def Untouched (d : Pgdir) (sz : Nat) (mem mem' : Memory) : Prop :=
  ∀ x, x < sz - PGSIZE → userByte d mem' x = userByte d mem x

/-- The words of ustack[] below the strings. -/
theorem Pushed.decodable {sz : Nat} {mem mid mem' : Memory} {sp last esp : Word}
    {argv : List (List Byte)} {places : List Word} (h : Pushed d sz mem sp argv places last mid)
    (few : argv.length ≤ MAXARG) (top : sp.toNat ≤ sz)
    (down : esp.toNat + (3 + argv.length + 1) * 4 = last.toNat) (above : sz - PGSIZE ≤ esp.toNat)
    (stored : Stored d sz mid esp.toNat ((ustack last places).flatMap wordBytes) mem') :
    Decodable d sz mem' argv esp.toNat (esp.toNat + 12) places ∧ Untouched d sz mem mem' := by
  have counted := h.placed.length
  have lower := h.below
  have words : (ustack last places).length = 3 + argv.length + 1 := by
    simp [ustack, counted]
    omega
  have bytes : ((ustack last places).flatMap wordBytes).length = (3 + argv.length + 1) * 4 := by
    rw [flatMap_wordBytes_length, words]
    omega
  have same : ∀ x, x < sz → last.toNat ≤ x → userByte d mem' x = userByte d mid x :=
    fun x below after => stored.elsewhere x below (Or.inr (by omega))
  have placed := h.placed.kept top same
  have read : ∀ i, i < 3 + argv.length + 1 →
      userWord d mem' (esp.toNat + 4 * i) = (ustack last places).getD i 0 :=
    fun i inside => userWord_of_block stored.here (by omega)
  have bound : argv.length ≤ 32 := few
  refine ⟨?_, ?_⟩
  · constructor
    case aligned =>
      have := h.aligned
      omega
    case last_page => omega
    case count =>
      have word := read 1 (by omega)
      rw [Nat.mul_one] at word
      rw [word]
      simp only [ustack, List.cons_append, List.getD_cons_succ, List.getD_cons_zero,
        BitVec.toNat_ofNat, counted]
      omega
    case vector =>
      have word := read 2 (by omega)
      rw [word]
      simp only [ustack, List.cons_append, List.getD_cons_succ, List.getD_cons_zero, counted]
      bv_omega
    case pointers =>
      intro i inside
      have word := read (3 + i) (by omega)
      have address : esp.toNat + 12 + 4 * i = esp.toNat + 4 * (3 + i) := by omega
      rw [address, word, Nat.add_comm 3 i]
      simp only [ustack, List.cons_append, List.nil_append, List.getD_cons_succ]
      exact List.getD_append _ _ _ _ (by omega)
    case last =>
      have word := read (3 + argv.length) (by omega)
      have address : esp.toNat + 12 + 4 * argv.length = esp.toNat + 4 * (3 + argv.length) := by
        omega
      rw [address, word, Nat.add_comm 3 argv.length]
      simp only [ustack, List.cons_append, List.nil_append, List.getD_cons_succ]
      rw [List.getD_append_right _ _ _ _ (by omega), counted, Nat.sub_self]
      rfl
    case texts => exact placed.texts
    case disjoint =>
      refine .cons ?_ (.cons ?_ placed.disjoint)
      · intro x member
        obtain rfl | member := List.mem_cons.mp member
        · exact Or.inl (Nat.le_refl _)
        · have := placed.within x member
          left
          dsimp only
          omega
      · intro x member
        have := placed.within x member
        left
        dsimp only
        omega
    case inside =>
      intro x member
      obtain rfl | member := List.mem_cons.mp member
      · dsimp only
        omega
      · obtain rfl | member := List.mem_cons.mp member
        · dsimp only
          omega
        · have := placed.within x member
          have := h.above
          omega
  · intro x below
    have before := h.above
    rw [stored.elsewhere x (by omega) (Or.inl (by omega))]
    exact h.elsewhere x (by omega) (Or.inl (by omega))

theorem stack_pushed {sz : Nat} {argv : List (List Byte)} {mid mem' : Memory} {last : Word}
    {places : List Word} {done : Bool}
    (pushed : pushArgs d argv [] (BitVec.ofNat 32 sz) mem = .ok (some (last, places), mid))
    (copied : copyout d mid (last - BitVec.ofNat 32 ((3 + places.length + 1) * 4))
      ((ustack last places).flatMap wordBytes) = .ok (done, mem')) :
    stack d sz argv mem = .ok
      (if done = true then some (last - BitVec.ofNat 32 ((3 + places.length + 1) * 4)) else none,
        mem') := by
  unfold stack
  rw [pushed]
  change (copyout d mid _ _ >>= _) = _
  rw [copied]
  rfl

theorem stack_strays {sz : Nat} {argv : List (List Byte)} (h : Ready d sz)
    (strays : Strays (sz - PGSIZE) 0 (BitVec.ofNat 32 sz) argv) :
    stack d sz argv mem = .error .nullDereference := by
  have small := h.small
  have top : (BitVec.ofNat 32 sz).toNat = sz := by
    rw [BitVec.toNat_ofNat]
    simp only [KERNBASE] at small
    omega
  unfold stack
  rw [h.pushArgs_strays [] _ mem (by omega) (by omega) strays]
  rfl

/-- The stack is built within the last page, or the image is given up. -/
theorem stack_cases (mem : Memory) {sz : Nat} {argv : List (List Byte)} (h : Ready d sz)
    (own : Private d sz) (short : ∀ s ∈ argv, s.length < KERNBASE)
    (stays : ¬ Strays (sz - PGSIZE) 0 (BitVec.ofNat 32 sz) argv) :
    (∃ mem', stack d sz argv mem = .ok (none, mem')) ∨
      ∃ esp mem' table places, stack d sz argv mem = .ok (some esp, mem') ∧
        Decodable d sz mem' argv esp.toNat table places ∧ Untouched d sz mem mem' := by
  have two := h.two
  have small := h.small
  have whole := h.aligned
  have page : PGSIZE = 4096 := rfl
  rw [page] at whole
  have top : (BitVec.ofNat 32 sz).toNat = sz := by
    rw [BitVec.toNat_ofNat]
    simp only [KERNBASE] at small
    omega
  obtain ⟨mid, gone⟩ | ⟨places, last, mid, done, few, pushed⟩ :=
    pushArgs_cases h own [] (BitVec.ofNat 32 sz) mem short (by omega)
      (by omega) (by omega) (by decide) stays
  · refine Or.inl ⟨mid, ?_⟩
    unfold stack
    rw [gone]
    rfl
  · rw [List.nil_append] at done
    rw [List.length_nil, Nat.zero_add] at few
    have limit : argv.length ≤ 32 := few
    have counted := pushed.placed.length
    have above := pushed.above
    have below := pushed.below
    have down : (last - BitVec.ofNat 32 ((3 + places.length + 1) * 4)).toNat =
        last.toNat - (3 + argv.length + 1) * 4 := by
      rw [counted]
      bv_omega
    have some_byte : (ustack last places).flatMap wordBytes ≠ [] := by
      simp [ustack, wordBytes]
    have bytes : ((ustack last places).flatMap wordBytes).length = (3 + argv.length + 1) * 4 := by
      rw [flatMap_wordBytes_length]
      simp [ustack, counted]
      omega
    by_cases room : sz - PGSIZE ≤ last.toNat - (3 + argv.length + 1) * 4
    · obtain ⟨mem', copied, stored⟩ := h.fits own mid
        (last - BitVec.ofNat 32 ((3 + places.length + 1) * 4)) some_byte (by omega) (by omega)
      have found := pushed.decodable few (by omega) (by omega) (by omega) stored
      exact Or.inr ⟨_, mem', _, places, stack_pushed done copied, found⟩
    · obtain ⟨mem', refused⟩ := h.refused mid
        (last - BitVec.ofNat 32 ((3 + places.length + 1) * 4)) last some_byte above (by omega)
        (by omega)
      exact Or.inl ⟨mem', stack_pushed done refused⟩

end Xv6.Public1.Exec
