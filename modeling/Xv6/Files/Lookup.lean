import Xv6.Files.Dir

/-!
# Path names

What `skipelem` takes off a path, one after the other, are the components of the path, and
`namex` looks them up in this order.  The directories do not change meanwhile.
-/

namespace Xv6.Files

/-! ## Components -/

/-- The parts between the slashes that are not empty, cut to the length of a name. -/
def components (path : List UInt8) : List Name :=
  ((path.splitOn SLASH).filter fun w => w ≠ []).map (List.take DIRSIZ)

theorem components_slash (u v : List UInt8) :
    components (u ++ SLASH :: v) = components u ++ components v := by
  rw [components, List.splitOn_append_cons_self, List.filter_append, List.map_append]
  rfl

theorem components_word {w : List UInt8} (hne : w ≠ []) (hw : SLASH ∉ w) :
    components w = [w.take DIRSIZ] := by
  simp [components, List.splitOn_eq_singleton hw, hne]

theorem components_dropWhile (path : List UInt8) :
    components (path.dropWhile fun c => c = SLASH) = components path := by
  induction path with
  | nil => rfl
  | cons c path ih =>
    by_cases hc : c = SLASH
    · rw [hc, List.dropWhile_cons_of_pos (by simp), ih]
      exact (components_slash [] path).symm
    · rw [List.dropWhile_cons_of_neg (by simpa using hc)]

theorem head_dropWhile {p : UInt8 → Bool} {path : List UInt8} {c : UInt8} {rest : List UInt8}
    (h : path.dropWhile p = c :: rest) : p c = false := by
  have hhead := List.head?_dropWhile_not p path
  rw [h] at hhead
  simpa using hhead

theorem components_append_dropWhile (path : List UInt8) (h : path.head? ≠ some SLASH)
    (hne : path ≠ []) : components path = (path.takeWhile fun c => c ≠ SLASH).take DIRSIZ ::
      components (path.dropWhile fun c => c ≠ SLASH) := by
  set w := path.takeWhile fun c => c ≠ SLASH with hw
  have hnot : SLASH ∉ w := fun hmem => by simpa using List.mem_takeWhile_imp hmem
  have hwne : w ≠ [] := by
    cases path with
    | nil => exact absurd rfl hne
    | cons c path => simpa [hw] using h
  have hsplit : w ++ path.dropWhile (fun c => c ≠ SLASH) = path := List.takeWhile_append_dropWhile
  cases hdrop : path.dropWhile fun c => c ≠ SLASH with
  | nil =>
    rw [hdrop, List.append_nil] at hsplit
    rw [← hsplit, components_word hwne hnot]
    rfl
  | cons c rest =>
    obtain rfl : c = SLASH := by simpa using head_dropWhile hdrop
    rw [hdrop] at hsplit
    rw [← hsplit, components_slash, components_word hwne hnot]
    exact congrArg _ (components_slash [] rest).symm

theorem components_skipelem (path : List UInt8) :
    components path =
      match skipelem path with
      | none => []
      | some (name, rest) => name :: components rest := by
  rw [← components_dropWhile, skipelem]
  cases hdrop : path.dropWhile fun c => c = SLASH with
  | nil => rfl
  | cons c rest =>
    have hc : c ≠ SLASH := by simpa using head_dropWhile hdrop
    simp only
    rw [components_dropWhile, components_append_dropWhile _ (by simpa using hc) (by simp)]

theorem skipelem_length {path rest : List UInt8} {name : Name}
    (h : skipelem path = some (name, rest)) : rest.length < path.length := by
  unfold skipelem at h
  split at h
  · cases h
  · rename_i c l hdrop
    have hc : c ≠ SLASH := by simpa using head_dropWhile hdrop
    obtain ⟨_, rfl⟩ := Prod.mk.inj (Option.some.inj h)
    have hpath := (List.dropWhile_suffix (l := path) fun c => decide (c = SLASH)).length_le
    have hword := (List.dropWhile_suffix (l := l) fun c => decide (c ≠ SLASH)).length_le
    rw [hdrop, List.length_cons] at hpath
    rw [List.dropWhile_cons_of_pos (by simpa using hc)]
    have hrest := (List.dropWhile_suffix (l := l.dropWhile fun c => decide (c ≠ SLASH))
      fun c => decide (c = SLASH)).length_le
    omega

theorem skipelem_rest {path rest : List UInt8} {name : Name}
    (h : skipelem path = some (name, rest)) : rest = [] ↔ components rest = [] := by
  refine ⟨fun hnil => hnil ▸ rfl, fun hnil => ?_⟩
  unfold skipelem at h
  split at h
  · cases h
  · obtain ⟨_, rfl⟩ := Prod.mk.inj (Option.some.inj h)
    by_contra hne
    obtain ⟨c, l, hcons⟩ := List.exists_cons_of_ne_nil hne
    have hc : c ≠ SLASH := by simpa using head_dropWhile hcons
    rw [hcons, components_append_dropWhile _ (by simpa using hc) (by simp)] at hnil
    cases hnil

theorem elems_eq {n : Nat} {path : List UInt8} (h : path.length ≤ n) :
    elems n path = components path := by
  induction n generalizing path with
  | zero =>
    obtain rfl := List.length_eq_zero_iff.1 (Nat.le_zero.1 h)
    rfl
  | succ n ih =>
    rw [elems, components_skipelem]
    cases hskip : skipelem path with
    | none => rfl
    | some r =>
      have hlt := skipelem_length hskip
      simp only
      rw [ih (by omega)]

/-! ## Walks -/

/-- What `namex` reads of the file system: the types of the inodes and, for directories, the
entries in their order. -/
structure Tree where
  type : Nat → Nat
  entries : Nat → List Dirent

namespace Tree

variable (t : Tree)

def dirlookup (dp : Nat) (name : Name) : Option Nat :=
  ((t.entries dp).find? fun de => de.inum ≠ 0 && sameName name de.name).map Dirent.inum

/-- The loop of `namex`; `name` is the last path element so far. -/
def namexLoop (parent : Bool) (ip : Nat) (name : Name) (path : List UInt8) :
    Option (Nat × Name) :=
  match _ : skipelem path with
  | none => if parent then none else some (ip, name)
  | some (name, rest) =>
    if t.type ip ≠ T_DIR then none
    else if parent = true ∧ rest = [] then some (ip, name)
    else
      match t.dirlookup ip name with
      | none => none
      | some next => namexLoop parent next name rest
termination_by path.length
decreasing_by exact skipelem_length ‹_›

/-- The loop over the path elements. -/
def namexElems (parent : Bool) : Nat → Name → List Name → Option (Nat × Name)
  | ip, name, [] => if parent then none else some (ip, name)
  | ip, _, name :: rest =>
    if t.type ip ≠ T_DIR then none
    else if parent = true ∧ rest = [] then some (ip, name)
    else
      match t.dirlookup ip name with
      | none => none
      | some next => namexElems parent next name rest

def start (cwd : Nat) (path : Path) : Nat := if path.bytes.head? = some SLASH then ROOTINO else cwd

def namei (cwd : Nat) (path : Path) : Option Nat :=
  (t.namexLoop false (start cwd path) [] path.bytes).map Prod.fst

def nameiparent (cwd : Nat) (path : Path) : Option (Nat × Name) :=
  t.namexLoop true (start cwd path) [] path.bytes

/-- One component is looked up: the inode has to be a directory that has it. -/
def step (ip : Nat) (name : Name) : Option Nat :=
  if t.type ip = T_DIR then t.dirlookup ip name else none

variable {t}

theorem components_of_skipelem {path rest : List UInt8} {name : Name}
    (h : skipelem path = some (name, rest)) : components path = name :: components rest := by
  rw [components_skipelem, h]

/-- The path is looked up as `Files.namexFrom` looks up the list of its elements. -/
theorem namexLoop_eq (parent : Bool) (ip : Nat) (name : Name) (path : List UInt8) :
    t.namexLoop parent ip name path = t.namexElems parent ip name (components path) := by
  fun_induction namexLoop t parent ip name path with
  | case1 ip name path hskip hparent =>
    rw [components_skipelem, hskip, namexElems, if_pos hparent]
  | case2 ip name path hskip hparent =>
    rw [components_skipelem, hskip, namexElems, if_neg hparent]
  | case3 ip _ path name rest hskip htype =>
    rw [components_of_skipelem hskip, namexElems, if_pos htype]
  | case4 ip _ path name rest hskip htype hlast =>
    rw [skipelem_rest hskip] at hlast
    rw [components_of_skipelem hskip, namexElems, if_neg htype, if_pos hlast]
  | case5 ip _ path name rest hskip htype hlast hfound =>
    rw [skipelem_rest hskip] at hlast
    rw [components_of_skipelem hskip, namexElems, if_neg htype, if_neg hlast, hfound]
  | case6 ip _ path name rest hskip htype hlast next hfound ih =>
    rw [skipelem_rest hskip] at hlast
    rw [components_of_skipelem hskip, namexElems, if_neg htype, if_neg hlast, hfound, ih]

theorem namexElems_false (ip : Nat) (name : Name) (names : List Name) :
    (t.namexElems false ip name names).map Prod.fst = names.foldlM t.step ip := by
  induction names generalizing ip name with
  | nil => rfl
  | cons elem names ih =>
    by_cases htype : t.type ip = T_DIR
    · cases hfound : t.dirlookup ip elem <;> simp [namexElems, step, htype, hfound, ih]
    · simp [namexElems, step, htype]

theorem namexElems_true (ip : Nat) (name last : Name) (init : List Name) :
    t.namexElems true ip name (init ++ [last]) =
      ((init.foldlM t.step ip).filter fun dp => t.type dp = T_DIR).map fun dp => (dp, last) := by
  induction init generalizing ip name with
  | nil => by_cases htype : t.type ip = T_DIR <;> simp [namexElems, htype]
  | cons elem names ih =>
    by_cases htype : t.type ip = T_DIR
    · cases hfound : t.dirlookup ip elem <;> simp [namexElems, step, htype, hfound, ih]
    · simp [namexElems, step, htype]

theorem nameiparent_eq (cwd : Nat) {path : Path} {init : List Name} {name : Name}
    (h : components path.bytes = init ++ [name]) :
    t.nameiparent cwd path = ((init.foldlM t.step (start cwd path)).filter fun dp =>
      t.type dp = T_DIR).map fun dp => (dp, name) := by
  rw [nameiparent, namexLoop_eq, h, namexElems_true]

/-- The elements of a path are its components; `namei` looks them up one after the other, and
`nameiparent` all but the last one, if that ends in a directory. -/
theorem namex_walks (t : Tree) (cwd : Nat) (path : Path) :
    (∀ n, path.bytes.length ≤ n → elems n path.bytes = components path.bytes) ∧
    t.namei cwd path = (components path.bytes).foldlM t.step (start cwd path) ∧
    ∀ init name, components path.bytes = init ++ [name] →
      t.nameiparent cwd path = ((init.foldlM t.step (start cwd path)).filter fun dp =>
        t.type dp = T_DIR).map (fun dp => (dp, name)) ∧
      t.namei cwd path = (t.nameiparent cwd path).bind fun r => t.dirlookup r.1 r.2 := by
  have hnamei : t.namei cwd path = (components path.bytes).foldlM t.step (start cwd path) :=
    (congrArg _ (namexLoop_eq _ _ _ _)).trans (namexElems_false _ _ _)
  refine ⟨fun n => elems_eq, hnamei, fun init name h => ?_⟩
  have hparent := nameiparent_eq (t := t) cwd h
  refine ⟨hparent, ?_⟩
  rw [hnamei, hparent, h, List.foldlM_append]
  cases init.foldlM t.step (start cwd path) with
  | none => rfl
  | some dp =>
    by_cases hdir : t.type dp = T_DIR
    · simp [step, hdir, Option.filter]
    · simp [step, hdir, Option.filter]

def oneFile : Tree where
  type i := if i = ROOTINO then T_DIR else T_FILE
  entries i := if i = ROOTINO then [⟨2, [102]⟩] else []

theorem noNul_throughFile : ∀ c ∈ [102, SLASH, 120], c ≠ 0 := by simp [SLASH]

def throughFile : Path := ⟨[102, SLASH, 120], noNul_throughFile⟩

theorem nameiparent_needs_directory :
    components throughFile.bytes = [[102], [120]] ∧
      oneFile.nameiparent ROOTINO throughFile ≠
        ([[102]].foldlM oneFile.step (start ROOTINO throughFile)).map fun dp => (dp, [120]) := by
  have h : components throughFile.bytes = [[102]] ++ [[120]] := (elems_eq (Nat.le_refl _)).symm
  refine ⟨h, ?_⟩
  rw [nameiparent_eq _ h]
  decide

end Tree

end Xv6.Files
