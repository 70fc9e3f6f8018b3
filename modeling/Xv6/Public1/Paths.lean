import Xv6.Lib.Pieces
import Xv6.Public1.TreeLookup

/-!
# Paths (fs.c of xv6-public_1)

skipelem() on the bytes of a path and on the buffer for a name, and the loop of
namex() over what is left of the path.  `components` are the names that a path
says, and `lookup` is the fold of dirlookup() over them.
-/

set_option autoImplicit false

namespace Xv6.Public1.Paths

open Xv6.Lib.Words
open Xv6.Lib.CString
open Xv6.Lib.Pieces
open Xv6.Public1.Directory hiding Panic
open Xv6.Public1.Tree

/-! ## skipelem() -/

/-- `while(*path == '/') path++;` -/
def skipSlashes : List Byte → List Byte
  | [] => []
  | c :: path => if c = slash then skipSlashes path else c :: path

/-- `while(*path != '/' && *path != 0) path++;` -/
def skipName : List Byte → List Byte
  | [] => []
  | c :: path => if c ≠ slash ∧ c ≠ 0 then skipName path else c :: path

/-- `memmove(dst, src, n)` into a buffer. -/
def memmove (dst src : List Byte) (n : Nat) : List Byte := src.take n ++ dst.drop n

/-- What is left of the path, if there is an element, and the buffer. -/
def skipelem (path name : List Byte) : Option (List Byte) × List Byte :=
  let s := skipSlashes path
  if s.headD 0 = 0 then (none, name)
  else
    let path := skipName s
    let len := s.length - path.length
    let name := if len ≥ DIRSIZ then memmove name s DIRSIZ else (memmove name s len).set len 0
    (some (skipSlashes path), name)

theorem skipSlashes_length (path : List Byte) : (skipSlashes path).length ≤ path.length := by
  induction path with
  | nil => exact Nat.le_refl _
  | cons c path ih =>
      rw [skipSlashes]
      split
      · exact Nat.le_succ_of_le ih
      · exact Nat.le_refl _

theorem skipName_length (path : List Byte) : (skipName path).length ≤ path.length := by
  induction path with
  | nil => exact Nat.le_refl _
  | cons c path ih =>
      rw [skipName]
      split
      · exact Nat.le_succ_of_le ih
      · exact Nat.le_refl _

theorem skipSlashes_head (path : List Byte) : (skipSlashes path).headD 0 ≠ slash := by
  induction path with
  | nil => decide
  | cons c path ih =>
      rw [skipSlashes]
      split
      · exact ih
      · assumption

/-- A name that is not empty has been passed over. -/
theorem skipName_shorter {s : List Byte} (more : s.headD 0 ≠ 0) (first : s.headD 0 ≠ slash) :
    (skipName s).length < s.length := by
  cases s with
  | nil => exact absurd rfl more
  | cons c s =>
      rw [skipName, if_pos ⟨first, more⟩]
      exact Nat.lt_succ_of_le (skipName_length s)

theorem skipelem_shorter {path name rest name' : List Byte}
    (next : skipelem path name = (some rest, name')) : rest.length < path.length := by
  unfold skipelem at next
  dsimp only at next
  split at next
  · cases next
  · rename_i more
    obtain ⟨rfl, -⟩ : skipSlashes (skipName (skipSlashes path)) = rest ∧ _ := by
      simpa using next
    calc (skipSlashes (skipName (skipSlashes path))).length
        ≤ (skipName (skipSlashes path)).length := skipSlashes_length _
      _ < (skipSlashes path).length := skipName_shorter more (skipSlashes_head path)
      _ ≤ path.length := skipSlashes_length path

/-! ## The names in a path -/

/-- The maximal runs of other bytes than slashes, each cut to `DIRSIZ` bytes. -/
def components (path : List Byte) : List (List Byte) :=
  (pieces (fun c => decide (c = slash)) (text path)).map fun elem => elem.take DIRSIZ

/-- What repeated skipelem() leaves in the buffer. -/
def scan (path name : List Byte) : List (List Byte) :=
  match _left : skipelem path name with
  | (none, _) => []
  | (some rest, name) => key name :: scan rest name
termination_by path.length
decreasing_by exact skipelem_shorter _left

theorem components_skipSlashes (path : List Byte) :
    components (skipSlashes path) = components path := by
  induction path with
  | nil => rfl
  | cons c path ih =>
      rw [skipSlashes]
      split
      · rename_i here
        subst here
        rw [ih, components, components, text_cons, if_neg (by decide), pieces_sep (by decide)]
      · rfl

/-- The element that a path starts with, and how it ends. -/
theorem skipName_splits (s : List Byte) : ∃ elem, s = elem ++ skipName s ∧
    (∀ c ∈ elem, c ≠ slash ∧ c ≠ 0) ∧
    ((skipName s).headD 0 = slash ∨ (skipName s).headD 0 = 0) := by
  induction s with
  | nil => exact ⟨[], rfl, nofun, Or.inr rfl⟩
  | cons c s ih =>
      rw [skipName]
      split
      · rename_i inside
        obtain ⟨elem, same, clean, ends⟩ := ih
        refine ⟨c :: elem, congrArg (c :: ·) same, ?_, ends⟩
        intro b member
        cases member with
        | head => exact inside
        | tail _ later => exact clean b later
      · rename_i outside
        refine ⟨[], rfl, nofun, ?_⟩
        by_cases here : c = slash
        · exact Or.inl here
        · exact Or.inr (not_not.mp fun other => outside ⟨here, other⟩)

theorem text_append {elem : List Byte} (clean : ∀ c ∈ elem, c ≠ 0) (rest : List Byte) :
    text (elem ++ rest) = elem ++ text rest := by
  induction elem with
  | nil => rfl
  | cons c elem ih =>
      rw [List.cons_append, text_cons, if_neg (clean c List.mem_cons_self),
        ih fun b member => clean b (List.mem_cons_of_mem c member)]
      rfl

theorem components_cons {elem rest : List Byte} (clean : ∀ c ∈ elem, c ≠ slash ∧ c ≠ 0)
    (some_elem : elem ≠ []) (ends : rest.headD 0 = slash ∨ rest.headD 0 = 0) :
    components (elem ++ rest) = elem.take DIRSIZ :: components rest := by
  unfold components
  rw [text_append fun c member => (clean c member).2, pieces_run]
  · rfl
  · exact fun c member => decide_eq_false (clean c member).1
  · exact some_elem
  · rw [text_eq rest]
    split
    · exact Or.inl rfl
    · rename_i more
      refine Or.inr ⟨_, _, rfl, decide_eq_true ?_⟩
      exact ends.resolve_right more

theorem components_nil {path : List Byte} (ends : path.headD 0 = 0) : components path = [] := by
  rw [components, text_eq, if_pos ends, pieces_nil]
  rfl

/-- Past the slashes, only the end of a path has no component. -/
theorem head_of_no_component {path : List Byte} (first : path.headD 0 ≠ slash)
    (none_left : components path = []) : path.headD 0 = 0 := by
  obtain ⟨elem, same, clean, ends⟩ := skipName_splits path
  by_cases empty : elem = []
  · rw [empty, List.nil_append] at same
    rw [← same] at ends
    exact ends.resolve_left first
  · rw [same, components_cons clean empty ends] at none_left
    cases none_left

theorem text_clean {l : List Byte} (clean : ∀ c ∈ l, c ≠ 0) : text l = l := by
  have whole := text_append clean []
  rwa [List.append_nil, text_nil, List.append_nil] at whole

/-- The buffer after skipelem() says the element, with a NUL only if there is room. -/
theorem key_copied {s rest name : List Byte} {elem : List Byte} (same : s = elem ++ rest)
    (clean : ∀ c ∈ elem, c ≠ 0) (sized : name.length = DIRSIZ) :
    let buffer := if elem.length ≥ DIRSIZ then memmove name s DIRSIZ
      else (memmove name s elem.length).set elem.length 0
    buffer.length = DIRSIZ ∧ key buffer = elem.take DIRSIZ := by
  subst same
  dsimp only
  split
  · rename_i long
    have taken : (elem ++ rest).take DIRSIZ = elem.take DIRSIZ :=
      List.take_append_of_le_length long
    have nothing : name.drop DIRSIZ = [] := List.drop_eq_nil_of_le (Nat.le_of_eq sized)
    rw [memmove, taken, nothing, List.append_nil]
    refine ⟨List.length_take_of_le long, ?_⟩
    rw [key, text_clean fun c member => clean c (List.mem_of_mem_take member), List.take_take,
      Nat.min_self]
  · rename_i short
    have room : elem.length < DIRSIZ := Nat.lt_of_not_le short
    obtain ⟨c, tail, there⟩ : ∃ c tail, name.drop elem.length = c :: tail := by
      cases there : name.drop elem.length with
      | nil =>
          have length := congrArg List.length there
          rw [List.length_drop, sized] at length
          exact absurd length (Nat.sub_ne_zero_of_lt room)
      | cons c tail => exact ⟨c, tail, rfl⟩
    have length := congrArg List.length there
    rw [List.length_drop, List.length_cons, sized] at length
    have buffer : (memmove name (elem ++ rest) elem.length).set elem.length 0 =
        elem ++ 0 :: tail := by
      rw [memmove, List.take_left, there]
      simp
    rw [buffer]
    refine ⟨?_, ?_⟩
    · rw [List.length_append, List.length_cons]
      omega
    · rw [key, text_append clean, text_cons, if_pos rfl, List.append_nil]

theorem elem_length {s rest elem : List Byte} (same : s = elem ++ rest) :
    s.length - rest.length = elem.length := by
  rw [same, List.length_append, Nat.add_sub_cancel]

/-- One call of skipelem(): the next component in the buffer, and a path with the others. -/
theorem skipelem_spec (path : List Byte) {name : List Byte} (sized : name.length = DIRSIZ) :
    match skipelem path name with
    | (none, name') => name' = name ∧ components path = []
    | (some rest, name') =>
        name'.length = DIRSIZ ∧ components path = key name' :: components rest ∧
          (rest.headD 0 = 0 ↔ components rest = []) := by
  unfold skipelem
  dsimp only
  rw [← components_skipSlashes path]
  have first := skipSlashes_head path
  generalize skipSlashes path = s at first
  by_cases more : s.headD 0 = 0
  · rw [if_pos more]
    exact ⟨rfl, components_nil more⟩
  · rw [if_neg more]
    obtain ⟨elem, same, clean, ends⟩ := skipName_splits s
    have some_elem : elem ≠ [] := by
      rintro rfl
      rw [List.nil_append] at same
      rw [← same] at ends
      exact ends.elim first more
    have len := elem_length same
    have copied := key_copied same (fun c member => (clean c member).2) sized
    dsimp only at copied
    rw [len]
    refine ⟨copied.1, ?_, ?_⟩
    · rw [copied.2, components_skipSlashes]
      conv => lhs; rw [same]
      exact components_cons clean some_elem ends
    · constructor
      · exact components_nil
      · exact head_of_no_component (skipSlashes_head _)

theorem scan_eq (path : List Byte) {name : List Byte} (sized : name.length = DIRSIZ) :
    scan path name = components path := by
  fun_induction scan path name with
  | case1 path name name' next =>
      have spec := skipelem_spec path sized
      rw [next] at spec
      exact spec.2.symm
  | case2 path name rest name' next ih =>
      have spec := skipelem_spec path sized
      rw [next] at spec
      rw [ih spec.1]
      exact spec.2.1.symm

/-! ## namex() -/

/-- The loop of namex(): the inode, the buffer and the state. -/
def namexLoop (nameiparent : Bool) (s : Sys) (ip : Inum) (path name : List Byte) :
    Except Panic (Option Inum × List Byte × Sys) :=
  match _left : skipelem path name with
  | (none, name) =>
      if nameiparent = true then pure (none, name, s.iput ip) else pure (some ip, name, s)
  | (some path', name) => do
      let s ← s.ilock ip
      if (s.node ip).type ≠ T_DIR then pure (none, name, s.iput ip)
      -- Stop one level early.
      else if nameiparent = true ∧ path'.headD 0 = 0 then pure (some ip, name, s)
      else
        let (next, s) ← s.dirlookup ip name
        match next with
        | none => pure (none, name, s.iput ip)
        | some (next, _) => namexLoop nameiparent (s.iput ip) next path' name
termination_by path.length
decreasing_by exact skipelem_shorter _left

def namex (s : Sys) (cwd : Inum) (path : List Byte) (nameiparent : Bool) (name : List Byte) :
    Except Panic (Option Inum × List Byte × Sys) :=
  if path.headD 0 = slash then namexLoop nameiparent (s.iget ROOTINO) ROOTINO path name
  else namexLoop nameiparent (s.idup cwd) cwd path name

/-- `junk` is what the buffer holds before. -/
def namei (s : Sys) (cwd : Inum) (path junk : List Byte) : Except Panic (Option Inum × Sys) := do
  let (ip, _, s) ← namex s cwd path false junk
  pure (ip, s)

def nameiparent (s : Sys) (cwd : Inum) (path name : List Byte) :
    Except Panic (Option Inum × List Byte × Sys) :=
  namex s cwd path true name

/-! ## What the directories say -/

/-- One step of a lookup. -/
def enter (n : Nodes) (ip : Inum) (name : List Byte) : Option Inum :=
  if (n ip).type = T_DIR then (Directory.dirlookup (n ip).entries name).map Prod.fst else none

/-- dirlookup() over the names, one after the other. -/
def lookup (n : Nodes) (ip : Inum) (names : List (List Byte)) : Option Inum :=
  names.foldlM (enter n) ip

/-- The directory before the last name, and that name. -/
def parent (n : Nodes) (ip : Inum) (names : List (List Byte)) : Option (Inum × List Byte) :=
  names.getLast?.bind fun last => (lookup n ip names.dropLast).bind fun dp =>
    if (n dp).type = T_DIR then some (dp, last) else none

def start (cwd : Inum) (path : List Byte) : Inum :=
  if path.headD 0 = slash then ROOTINO else cwd

/-- The inodes that a lookup can come to. -/
inductive Leads (n : Nodes) (ip : Inum) : Inum → Prop where
  | here : Leads n ip ip
  | entry {dp i : Inum} {name : List Byte} (above : Leads n ip dp)
      (entered : enter n dp name = some i) : Leads n ip i

section Fold
variable {n : Nodes} {ip dp i : Inum} {name : List Byte} {names : List (List Byte)}

theorem lookup_nil : lookup n ip [] = some ip := rfl

theorem lookup_cons (name : List Byte) (names : List (List Byte)) :
    lookup n ip (name :: names) = (enter n ip name).bind fun next => lookup n next names := rfl

theorem parent_nil : parent n ip [] = none := rfl

theorem parent_last (name : List Byte) :
    parent n ip [name] = if (n ip).type = T_DIR then some (ip, name) else none := rfl

theorem parent_cons (name : List Byte) {names : List (List Byte)} (more : names ≠ []) :
    parent n ip (name :: names) = (enter n ip name).bind fun next => parent n next names := by
  unfold parent
  rw [List.getLast?_cons_of_ne_nil more, List.dropLast_cons_of_ne_nil more]
  cases last : names.getLast? with
  | none => exact absurd (List.getLast?_eq_none_iff.mp last) more
  | some last =>
      rw [lookup_cons]
      cases enter n ip name <;> rfl

theorem key_key (name : List Byte) : key (key name) = key name := by
  have clean : ∀ c ∈ (text name).take DIRSIZ, c ≠ 0 := by
    intro c member
    have inside : c ∈ name.takeWhile fun c => decide (c ≠ 0) := List.mem_of_mem_take member
    simpa using List.mem_takeWhile_imp inside
  rw [key, key, text_clean clean, List.take_take, Nat.min_self]

/-- Only what the buffer says counts. -/
theorem enter_key (dir : (n ip).type = T_DIR) (name : List Byte) :
    (Directory.dirlookup (n ip).entries name).map Prod.fst = enter n ip (key name) := by
  rw [enter, if_pos dir, dirlookup_binding, dirlookup_binding, key_key]

theorem Leads.trans (first : Leads n ip dp) (second : Leads n dp i) : Leads n ip i := by
  induction second with
  | here => exact first
  | entry above entered ih => exact .entry ih entered

theorem leads_of_lookup (found : lookup n ip names = some i) : Leads n ip i := by
  induction names generalizing ip with
  | nil =>
      cases found
      exact .here
  | cons name names ih =>
      rw [lookup_cons] at found
      obtain ⟨next, entered, found⟩ := Option.bind_eq_some_iff.mp found
      exact (Leads.here.entry entered).trans (ih found)

/-- A lookup fails where it meets something else than a directory or a name that is
not there. -/
theorem lookup_eq_none_iff : lookup n ip names = none ↔
    ∃ before name rest d, names = before ++ name :: rest ∧ lookup n ip before = some d ∧
      ((n d).type ≠ T_DIR ∨ Directory.dirlookup (n d).entries name = none) := by
  induction names generalizing ip with
  | nil =>
      constructor
      · exact nofun
      · rintro ⟨before, name, rest, d, same, -⟩
        exact absurd same.symm (by simp)
  | cons name names ih =>
      rw [lookup_cons]
      constructor
      · intro failed
        cases entered : enter n ip name with
        | none =>
            refine ⟨[], name, names, ip, rfl, rfl, ?_⟩
            by_cases dir : (n ip).type = T_DIR
            · rw [enter, if_pos dir, Option.map_eq_none_iff] at entered
              exact Or.inr entered
            · exact Or.inl dir
        | some next =>
            rw [entered] at failed
            obtain ⟨before, last, rest, d, same, found, stops⟩ := ih.mp failed
            refine ⟨name :: before, last, rest, d, congrArg (name :: ·) same, ?_, stops⟩
            rw [lookup_cons, entered]
            exact found
      · rintro ⟨before, last, rest, d, same, found, stops⟩
        cases before with
        | nil =>
            cases found
            obtain ⟨rfl, rfl⟩ := List.cons.inj same
            have failed : enter n ip name = none := by
              rw [enter]
              split
              · rename_i dir
                rw [stops.resolve_left (not_not.mpr dir)]
                rfl
              · rfl
            rw [failed]
            rfl
        | cons first before =>
            obtain ⟨rfl, rfl⟩ := List.cons.inj same
            rw [lookup_cons] at found
            cases entered : enter n ip name with
            | none => rfl
            | some next =>
                rw [entered] at found
                exact ih.mpr ⟨before, last, rest, d, rfl, found, stops⟩

end Fold

/-! ## What namex() finds -/

/-- Allocated, and held by somebody if there are no links to it. -/
structure InUse (s : Sys) (i : Inum) : Prop where
  allocated : (s.node i).type ≠ 0
  linked : (s.node i).nlink = 0 → 1 ≤ s.ref i

/-- The tree as far as lookups from the root and from the current directory see it. -/
structure FileTree (s : Sys) (cwd : Inum) : Prop where
  counts : ∀ i, 0 ≤ s.ref i
  held : 1 ≤ s.ref cwd
  root : ∀ i, Leads s.node ROOTINO i → InUse s i
  current : ∀ i, Leads s.node cwd i → InUse s i

theorem FileTree.used {s : Sys} {cwd i : Inum} {path : List Byte} (tree : FileTree s cwd)
    (found : lookup s.node (start cwd path) (components path) = some i) : InUse s i := by
  have leads := leads_of_lookup found
  unfold start at leads
  split at leads
  · exact tree.root i leads
  · exact tree.current i leads

/-- Nothing but the cache has changed, and there is one reference more to what was found. -/
structure Holding (s : Sys) (found : Option Inum) (t : Sys) : Prop where
  node : t.node = s.node
  proc : t.proc = s.proc
  ref : ∀ i, t.ref i = s.ref i + if found = some i then 1 else 0

section Calls
variable {s t : Sys} {ip cwd : Inum}

theorem iput_linked (linked : ¬ ((s.node ip).nlink = 0 ∧ s.ref ip = 1)) :
    s.iput ip = s.setRef ip (s.ref ip - 1) := by
  unfold Sys.iput
  rw [if_neg fun last => linked last.2]

theorem iget_ref (counts : 0 ≤ s.ref ip) (i : Inum) :
    (s.iget ip).ref i = s.ref i + if ip = i then 1 else 0 := by
  unfold Sys.iget
  split
  · by_cases here : ip = i
    · subst here
      simp [Sys.setRef]
    · simp [Sys.setRef, here, Function.update_of_ne (Ne.symm here)]
  · by_cases here : ip = i
    · subst here
      have zero : s.ref ip = 0 := by omega
      simp [Sys.setRef, Sys.setValid, zero]
    · simp [Sys.setRef, Sys.setValid, here, Function.update_of_ne (Ne.symm here)]

theorem Holding.ilock (h : Holding s (some ip) t) (counts : ∀ i, 0 ≤ s.ref i)
    (used : InUse s ip) : ∃ u, t.ilock ip = .ok u ∧ Holding s (some ip) u := by
  have ref := h.ref ip
  rw [if_pos rfl] at ref
  have count := counts ip
  unfold Sys.ilock
  rw [if_neg (by omega)]
  split
  · exact ⟨t, rfl, h⟩
  · rw [if_neg (by rw [h.node]; exact used.allocated)]
    exact ⟨_, rfl, h.node, h.proc, h.ref⟩

/-- iput() of the reference that namex() has. -/
theorem Holding.iput (h : Holding s (some ip) t) (used : InUse s ip) :
    Holding s none (t.iput ip) := by
  have ref := h.ref ip
  rw [if_pos rfl] at ref
  have linked : ¬ ((t.node ip).nlink = 0 ∧ t.ref ip = 1) := by
    rintro ⟨unlinked, last⟩
    rw [h.node] at unlinked
    have held := used.linked unlinked
    omega
  rw [iput_linked linked]
  refine ⟨h.node, h.proc, fun i => ?_⟩
  have before := h.ref i
  by_cases here : ip = i
  · subst here
    simp [Sys.setRef, ref]
  · rw [if_neg (by simpa using here)] at before
    simpa [Sys.setRef, Function.update_of_ne (Ne.symm here)] using before

/-- The reference moves to the next inode. -/
theorem Holding.next (h : Holding s (some ip) t) (counts : ∀ i, 0 ≤ s.ref i)
    (used : InUse s ip) (next : Inum) : Holding s (some next) ((t.iget next).iput ip) := by
  have nonneg : 0 ≤ t.ref next := by
    have ref := h.ref next
    have count := counts next
    split at ref <;> omega
  have taken := iget_ref nonneg
  have ref := h.ref ip
  rw [if_pos rfl] at ref
  have linked : ¬ (((t.iget next).node ip).nlink = 0 ∧ (t.iget next).ref ip = 1) := by
    rintro ⟨unlinked, last⟩
    rw [iget_node, h.node] at unlinked
    have held := used.linked unlinked
    rw [taken ip] at last
    split at last <;> omega
  rw [iput_linked linked]
  refine ⟨(iget_node t next).trans h.node, (iget_proc t next).trans h.proc, fun i => ?_⟩
  have before := h.ref i
  have now := taken i
  by_cases here : ip = i
  · subst here
    simp only [Sys.setRef, Function.update_self, now, ref, Option.some.injEq]
    omega
  · rw [if_neg (by simpa using here)] at before
    simp only [Sys.setRef, Function.update_of_ne (Ne.symm here), now, before,
      Option.some.injEq]
    omega

end Calls

/-- What the loop of namex() returns: the fold over the components of what is left of
the path, with one reference to it or none. -/
theorem namexLoop_finds {s : Sys} (counts : ∀ i, 0 ≤ s.ref i) (nameiparent : Bool) (t : Sys)
    (ip : Inum) (path name : List Byte) (sized : name.length = DIRSIZ)
    (used : ∀ i, Leads s.node ip i → InUse s i) (h : Holding s (some ip) t) :
    ∃ found buffer u, namexLoop nameiparent t ip path name = .ok (found, buffer, u) ∧
      Holding s found u ∧
      (nameiparent = false → found = lookup s.node ip (components path)) ∧
      (nameiparent = true →
        (found.map fun dp => (dp, key buffer)) = parent s.node ip (components path)) := by
  obtain ⟨length, bound⟩ : ∃ length, path.length = length := ⟨_, rfl⟩
  induction length using Nat.strong_induction_on generalizing t ip path name with
  | _ length ih =>
    have spec := skipelem_spec path sized
    unfold namexLoop
    split
    · rename_i name' none_left
      rw [none_left] at spec
      rw [spec.2]
      split
      · rename_i wanted
        refine ⟨_, _, _, rfl, h.iput (used ip .here), fun off => ?_, fun _ => rfl⟩
        exact absurd (wanted.symm.trans off) nofun
      · rename_i whole
        exact ⟨_, _, _, rfl, h, fun _ => rfl, fun on => absurd on whole⟩
    · rename_i rest name' next
      rw [next] at spec
      obtain ⟨sized', names, last⟩ := spec
      have shorter := skipelem_shorter next
      obtain ⟨v, locked, hv⟩ := h.ilock counts (used ip .here)
      rw [names, locked]
      simp only [bind, Except.bind]
      rw [hv.node]
      split
      · rename_i other
        refine ⟨_, _, _, rfl, hv.iput (used ip .here), fun _ => ?_, fun _ => ?_⟩
        · rw [lookup_cons, enter, if_neg other]
          rfl
        · cases more : components rest with
          | nil => rw [parent_last, if_neg other]; rfl
          | cons second others =>
              rw [parent_cons _ (List.cons_ne_nil second others), enter, if_neg other]
              rfl
      · rename_i dir
        have dir : (s.node ip).type = T_DIR := not_not.mp dir
        split
        · rename_i early
          refine ⟨_, _, _, rfl, hv, fun off => absurd (early.1.symm.trans off) nofun, fun _ => ?_⟩
          rw [last.mp early.2, parent_last, if_pos dir]
          rfl
        · rename_i on
          have more : nameiparent = true → components rest ≠ [] :=
            fun wanted none_left => on ⟨wanted, last.mpr none_left⟩
          have entered := enter_key dir name'
          unfold Sys.dirlookup
          rw [hv.node, if_neg (not_not.mpr dir)]
          cases looked : Directory.dirlookup (s.node ip).entries name' with
          | none =>
              rw [looked] at entered
              refine ⟨_, _, _, rfl, hv.iput (used ip .here), fun _ => ?_, fun wanted => ?_⟩
              · rw [lookup_cons, ← entered]
                rfl
              · rw [parent_cons _ (more wanted), ← entered]
                rfl
          | some found =>
              obtain ⟨next, off⟩ := found
              rw [looked] at entered
              have step : enter s.node ip (key name') = some next := entered.symm
              have below : ∀ i, Leads s.node next i → InUse s i :=
                fun i leads => used i ((Leads.here.entry step).trans leads)
              obtain ⟨found, buffer, u, ran, done, whole, above⟩ :=
                ih rest.length (bound ▸ shorter) ((v.iget next).iput ip) next rest name' sized'
                  below (hv.next counts (used ip .here) next) rfl
              refine ⟨found, buffer, u, ran, done, fun off => ?_, fun wanted => ?_⟩
              · rw [lookup_cons, step]
                exact whole off
              · rw [parent_cons _ (more wanted), step]
                exact above wanted

/-! ## The names that Xv6.Public1.Tree goes by -/

section Elements
variable {path s rest name : List Byte}

theorem text_skipSlashes (path : List Byte) :
    text (skipSlashes path) = (text path).dropWhile fun c => decide (c = slash) := by
  induction path with
  | nil => rfl
  | cons c path ih =>
      rw [skipSlashes]
      split
      · rename_i here
        subst here
        rw [ih, text_cons, if_neg (by decide), List.dropWhile_cons_of_pos (by decide)]
      · rename_i other
        rw [text_cons]
        split
        · rfl
        · rw [List.dropWhile_cons_of_neg (by simpa using other)]

theorem text_split {elem : List Byte} (clean : ∀ c ∈ elem, c ≠ slash ∧ c ≠ 0)
    (ends : rest.headD 0 = slash ∨ rest.headD 0 = 0) :
    ((text (elem ++ rest)).takeWhile fun c => decide (c ≠ slash)) = elem ∧
      ((text (elem ++ rest)).dropWhile fun c => decide (c ≠ slash)) = text rest := by
  have passes : ∀ c ∈ elem, decide (c ≠ slash) = true :=
    fun c member => decide_eq_true (clean c member).1
  rw [text_append fun c member => (clean c member).2, List.takeWhile_append_of_pos passes,
    List.dropWhile_append_of_pos passes, text_eq rest]
  split
  · exact ⟨List.append_nil elem, rfl⟩
  · rename_i more
    rw [ends.resolve_right more]
    exact ⟨by simp, by simp⟩

/-- skipelem() on the text of the path, without the buffer. -/
theorem skipelem_text (path : List Byte) (sized : name.length = DIRSIZ) :
    Tree.skipelem (text path) = match skipelem path name with
      | (none, _) => none
      | (some rest, name') => some (key name', text rest) := by
  unfold Tree.skipelem skipelem
  dsimp only
  rw [← text_skipSlashes]
  have first := skipSlashes_head path
  generalize skipSlashes path = s at first
  by_cases more : s.headD 0 = 0
  · rw [if_pos more, if_pos (by rw [text_eq, if_pos more])]
  · have some_text : text s ≠ [] := by
      rw [text_eq, if_neg more]
      exact List.cons_ne_nil _ _
    rw [if_neg more, if_neg some_text]
    obtain ⟨elem, same, clean, ends⟩ := skipName_splits s
    have copied := key_copied same (fun c member => (clean c member).2) sized
    have parts := text_split clean ends
    rw [← same] at parts
    dsimp only at copied ⊢
    rw [elem_length same, copied.2, text_skipSlashes, parts.1, parts.2]

theorem elements_scan (fuel : Nat) (path : List Byte) (enough : path.length ≤ fuel)
    (sized : name.length = DIRSIZ) : elements fuel (text path) = scan path name := by
  induction fuel generalizing path name with
  | zero =>
      obtain rfl := List.eq_nil_of_length_eq_zero (Nat.le_zero.mp enough)
      rw [scan_eq [] sized]
      rfl
  | succ fuel ih =>
      have spec := skipelem_spec path sized
      rw [elements, skipelem_text path sized, scan.eq_def]
      generalize called : skipelem path name = r at spec
      obtain ⟨left, name'⟩ := r
      cases left with
      | none => rfl
      | some rest =>
          have shorter := skipelem_shorter called
          exact congrArg (key name' :: ·) (ih rest (by omega) spec.1)

theorem elements_components (path : List Byte) :
    elements (text path).length (text path) = components path := by
  have clean : text (text path) = text path :=
    text_clean fun c member => by simpa using List.mem_takeWhile_imp member
  have sized : (List.replicate DIRSIZ (0 : Byte)).length = DIRSIZ := List.length_replicate
  have whole := elements_scan (text path).length (text path) (Nat.le_refl _) sized
  rw [scan_eq _ sized, clean] at whole
  rw [whole, components, clean, components]

theorem start_text (cwd : Inum) (path : List Byte) :
    (if (text path).head? = some slash then ROOTINO else cwd) = start cwd path := by
  unfold start
  by_cases root : path.headD 0 = slash
  · have nonzero : ¬ slash = 0 := by decide
    rw [if_pos root, text_eq, root, if_neg nonzero]
    exact if_pos rfl
  · rw [if_neg root, if_neg]
    rw [text_eq]
    split
    · exact nofun
    · exact fun here => root (Option.some.inj here)

theorem walk_lookup (n : Nodes) (ip : Inum) (names : List (List Byte)) :
    n.walk false ip names = (lookup n ip names).map fun i => (i, []) := by
  induction names generalizing ip with
  | nil => rfl
  | cons name names ih =>
      rw [Nodes.walk, lookup_cons, enter]
      by_cases dir : (n ip).type = T_DIR
      · rw [if_neg (not_not.mpr dir), if_pos dir, if_neg fun early => Bool.false_ne_true early.1]
        cases Directory.dirlookup (n ip).entries name with
        | none => rfl
        | some found => exact ih found.1
      · rw [if_pos dir, if_neg dir]
        rfl

theorem walk_parent (n : Nodes) (ip : Inum) (names : List (List Byte)) :
    n.walk true ip names = parent n ip names := by
  induction names generalizing ip with
  | nil => rfl
  | cons name names ih =>
      rw [Nodes.walk]
      by_cases last : names = []
      · subst last
        rw [parent_last]
        by_cases dir : (n ip).type = T_DIR
        · rw [if_neg (not_not.mpr dir), if_pos dir, if_pos ⟨rfl, rfl⟩]
        · rw [if_pos dir, if_neg dir]
      · rw [parent_cons name last, enter]
        by_cases dir : (n ip).type = T_DIR
        · rw [if_neg (not_not.mpr dir), if_pos dir, if_neg fun early => last early.2]
          cases Directory.dirlookup (n ip).entries name with
          | none => rfl
          | some found => exact ih found.1
        · rw [if_pos dir, if_neg dir]
          rfl

/-- What the tree of directories resolves is the fold over the components. -/
theorem resolve_eq (n : Nodes) (cwd : Inum) (path : List Byte) :
    n.resolve cwd path false =
        (lookup n (start cwd path) (components path)).map (fun i => (i, [])) ∧
      n.resolve cwd path true = parent n (start cwd path) (components path) := by
  unfold Nodes.resolve
  dsimp only
  rw [elements_components, start_text]
  exact ⟨walk_lookup n _ _, walk_parent n _ _⟩

end Elements

/-! ## Path resolution -/

section Resolution
variable {s : Sys} {cwd : Inum}

theorem namex_finds (tree : FileTree s cwd) (path : List Byte) (nameiparent : Bool)
    {name : List Byte} (sized : name.length = DIRSIZ) :
    ∃ found buffer u, namex s cwd path nameiparent name = .ok (found, buffer, u) ∧
      Holding s found u ∧
      (nameiparent = false → found = lookup s.node (start cwd path) (components path)) ∧
      (nameiparent = true → (found.map fun dp => (dp, key buffer)) =
        parent s.node (start cwd path) (components path)) := by
  unfold namex start
  split
  · refine namexLoop_finds tree.counts nameiparent _ _ path name sized tree.root ?_
    refine ⟨iget_node s _, iget_proc s _, fun i => ?_⟩
    simpa using iget_ref (tree.counts ROOTINO) i
  · refine namexLoop_finds tree.counts nameiparent _ _ path name sized tree.current ?_
    refine ⟨rfl, rfl, fun i => ?_⟩
    by_cases here : cwd = i
    · subst here
      simp [Sys.idup, Sys.setRef]
    · simp [Sys.idup, Sys.setRef, here, Function.update_of_ne (Ne.symm here)]

theorem namei_finds (tree : FileTree s cwd) (path : List Byte) {junk : List Byte}
    (sized : junk.length = DIRSIZ) :
    ∃ t, namei s cwd path junk =
        .ok (lookup s.node (start cwd path) (components path), t) ∧
      Holding s (lookup s.node (start cwd path) (components path)) t := by
  obtain ⟨found, buffer, t, ran, holding, whole, -⟩ := namex_finds tree path false sized
  rw [← whole rfl, namei, ran]
  exact ⟨t, rfl, holding⟩

/-- Path resolution is the fold of dirlookup() over the components of the path. -/
theorem path_resolution (tree : FileTree s cwd) (path : List Byte) {name : List Byte}
    (sized : name.length = DIRSIZ) :
    scan path name = components path ∧
    (∃ t, namei s cwd path name =
        .ok (lookup s.node (start cwd path) (components path), t) ∧
      Holding s (lookup s.node (start cwd path) (components path)) t) ∧
    (lookup s.node (start cwd path) (components path) = none ↔
      ∃ before elem rest d, components path = before ++ elem :: rest ∧
        lookup s.node (start cwd path) before = some d ∧
        ((s.node d).type ≠ T_DIR ∨ Directory.dirlookup (s.node d).entries elem = none)) ∧
    ∃ found buffer t, nameiparent s cwd path name = .ok (found, buffer, t) ∧
      Holding s found t ∧
      (found.map fun dp => (dp, key buffer)) =
        parent s.node (start cwd path) (components path) := by
  refine ⟨scan_eq path sized, namei_finds tree path sized, lookup_eq_none_iff, ?_⟩
  obtain ⟨found, buffer, t, ran, holding, -, above⟩ := namex_finds tree path true sized
  exact ⟨found, buffer, t, ran, holding, above rfl⟩

end Resolution

/-! ## A small tree -/

/-- A root directory with one file, `chmod`. -/
def image : Sys where
  node i :=
    if i = ROOTINO then ⟨T_DIR, 1, [entry dot 1, entry dotdot 1, entry (bytes "chmod") 2]⟩
    else if i = 2 then ⟨T_FILE, 1, []⟩
    else ⟨0, 0, []⟩
  ref i := if i = ROOTINO then 1 else 0
  valid _ := false
  proc _ := none

theorem image_leads {i : Inum} (leads : Leads image.node ROOTINO i) : i = ROOTINO ∨ i = 2 := by
  induction leads with
  | here => exact Or.inl rfl
  | entry above entered ih =>
      rename_i dp i name
      rcases ih with rfl | rfl
      · rw [enter, if_pos (by decide), Option.map_eq_some_iff] at entered
        obtain ⟨⟨inum, off⟩, found, rfl⟩ := entered
        obtain ⟨k, de, -, there, -, rfl, -⟩ := lookupLoop_some found
        obtain ⟨inside, rfl⟩ := List.getElem?_eq_some_iff.mp there
        have three : k < 3 := inside
        obtain rfl | rfl | rfl : k = 0 ∨ k = 1 ∨ k = 2 := by omega
        · exact Or.inl rfl
        · exact Or.inl rfl
        · exact Or.inr rfl
      · rw [enter, if_neg (by decide)] at entered
        cases entered

theorem image_tree : FileTree image ROOTINO := by
  have used : ∀ i, Leads image.node ROOTINO i → InUse image i := by
    intro i leads
    rcases image_leads leads with rfl | rfl
    · exact ⟨by decide, by decide⟩
    · exact ⟨by decide, by decide⟩
  refine ⟨fun i => ?_, by decide, used, used⟩
  change 0 ≤ if i = ROOTINO then (1 : Int) else 0
  split <;> decide

theorem path_resolution_image :
    ∃ t, namei image ROOTINO (bytes "//.//chmod/") (List.replicate DIRSIZ 0) = .ok (some 2, t) ∧
      ∀ i, t.ref i = image.ref i + if some 2 = some i then 1 else 0 := by
  have resolved := (path_resolution image_tree (bytes "//.//chmod/")
    (List.length_replicate : (List.replicate DIRSIZ (0 : Byte)).length = DIRSIZ)).2.1
  have value : lookup image.node (start ROOTINO (bytes "//.//chmod/"))
      (components (bytes "//.//chmod/")) = some 2 := by decide
  rw [value] at resolved
  obtain ⟨t, ran, holding⟩ := resolved
  exact ⟨t, ran, holding.ref⟩

end Xv6.Public1.Paths
