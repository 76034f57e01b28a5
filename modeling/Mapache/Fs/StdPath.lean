import Mapache.Fs.Diff

/-!
# Paths of the standard library

`std::path` on Unix. A path is any sequence of bytes, and its components are read from it: `..` is a
component of its own, `.` only at the start of a relative path, and repeated separators count once.
What is pushed onto a path adds its own components (`components_push`), so that a path is read back
from its components (`components_render`).
-/

set_option autoImplicit false

namespace Mapache

open Lib

/-- `std::path::Component`. -/
inductive StdComponent where
  | rootDir
  | curDir
  | parentDir
  | normal (name : Bytes)
  deriving DecidableEq

/-- The components of a path. Paths are compared and hashed by them. -/
abbrev StdPath := List StdComponent

namespace StdComponent

/-- `Component::as_os_str`. -/
def asOsStr : StdComponent → Bytes
  | .rootDir => [0x2f]
  | .curDir => [0x2e]
  | .parentDir => [0x2e, 0x2e]
  | .normal name => name

/-- The place of the kind of a component in the derived order. -/
def rank : StdComponent → Nat
  | .rootDir => 0
  | .curDir => 1
  | .parentDir => 2
  | .normal _ => 3

/-- The derived order of `std::path::Component`. -/
def lt : StdComponent → StdComponent → Bool
  | .normal a, .normal b => a < b
  | a, b => a.rank < b.rank

theorem lt_irrefl (c : StdComponent) : c.lt c = false := by
  cases c with
  | normal name => simp [lt]
  | _ => rfl

/-- The name of a normal component. -/
def name : StdComponent → Option Bytes
  | .normal name => some name
  | _ => none

theorem name_eq_some {c : StdComponent} {n : Bytes} : c.name = some n ↔ c = .normal n := by
  cases c with
  | normal m => simp [name]
  | _ => simp [name]

end StdComponent

namespace StdPath

/-! ## Paths by their components -/

/-- `Path::cmp`. -/
def le : StdPath → StdPath → Bool
  | [], _ => true
  | _ :: _, [] => false
  | a :: as, b :: bs => a.lt b || (a = b && le as bs)

/-- `Path::parent`. -/
def parent (path : StdPath) : Option StdPath :=
  match path.getLast? with
  | none | some .rootDir => none
  | some _ => some path.dropLast

/-- `Path::file_name`. -/
def fileName (path : StdPath) : Option Bytes :=
  match path.getLast? with
  | some c => c.name
  | none => none

theorem fileName_append (path : StdPath) (c : StdComponent) : fileName (path ++ [c]) = c.name := by
  rw [fileName, List.getLast?_concat]

theorem le_refl (path : StdPath) : le path path = true := by
  induction path with
  | nil => rfl
  | cons c path ih => simp [le, ih]

/-- A path below another one comes after it. -/
theorem le_of_strictPrefix {root path : StdPath} (h : StrictPrefix root path) :
    le path root = false := by
  obtain ⟨⟨t, rfl⟩, hne⟩ := h
  induction root with
  | nil =>
    cases t with
    | nil => exact absurd rfl hne
    | cons c t => rfl
  | cons c root ih =>
    have hrec := ih fun heq => hne (by rw [List.cons_append, ← heq])
    simp [le, StdComponent.lt_irrefl, hrec]

theorem parent_append {c : StdComponent} (h : c ≠ .rootDir) (path : StdPath) :
    parent (path ++ [c]) = some path := by
  rw [parent, List.getLast?_concat, List.dropLast_concat]
  cases c with
  | rootDir => exact absurd rfl h
  | _ => rfl

/-- The components of an absolute path. -/
def Absolute (path : StdPath) : Prop :=
  ∃ rest : List StdComponent, path = .rootDir :: rest ∧
    ∀ c ∈ rest, c = .parentDir ∨ ∃ name, c = .normal name

theorem Absolute.of_prefix {path path' : StdPath} (h : Absolute path) (hpre : path' <+: path)
    (hne : path' ≠ []) : Absolute path' := by
  obtain ⟨rest, rfl, hrest⟩ := h
  cases path' with
  | nil => exact absurd rfl hne
  | cons c path' =>
    obtain ⟨rfl, hrest'⟩ := List.cons_prefix_cons.mp hpre
    exact ⟨path', rfl, fun c hc => hrest c (hrest'.subset hc)⟩

/-- The last component of an absolute path is not the root, unless there is no other one. -/
theorem Absolute.ne_rootDir {path : StdPath} {c : StdComponent} (h : Absolute (path ++ [c]))
    (hne : path ≠ []) : c ≠ .rootDir := by
  obtain ⟨rest, heq, hrest⟩ := h
  cases path with
  | nil => exact absurd rfl hne
  | cons d path =>
    obtain ⟨rfl, rfl⟩ := List.cons.inj heq
    rintro rfl
    rcases hrest .rootDir (List.mem_append_right _ (List.mem_singleton_self _)) with h | ⟨_, h⟩
    · cases h
    · cases h

end StdPath

/-! ## Paths as bytes -/

namespace PathBuf

/-- `Path::is_absolute`. -/
def isAbsolute (path : Bytes) : Bool := path.head? = some 0x2f

/-- The parts of a path between its separators. -/
def pathParts (path : Bytes) : List Bytes := path.splitOnP fun byte => byte = 0x2f

/-- The component of a part that does not start the path. -/
def componentOf (part : Bytes) : Option StdComponent :=
  if part = [] ∨ part = [0x2e] then none
  else if part = [0x2e, 0x2e] then some .parentDir
  else some (.normal part)

/-- The components of a path that is pushed onto another one. -/
def laterComponents (path : Bytes) : StdPath := (pathParts path).filterMap componentOf

/-- `Path::components`. -/
def components (path : Bytes) : StdPath :=
  if isAbsolute path then .rootDir :: laterComponents path
  else if (pathParts path).head? = some [0x2e] then .curDir :: laterComponents path
  else laterComponents path

/-- `PathBuf::push`. -/
def push (path other : Bytes) : Bytes :=
  if isAbsolute other then other
  else if path ≠ [] ∧ path.getLast? ≠ some 0x2f then path ++ 0x2f :: other
  else path ++ other

/-- Components that are pushed one after the other. -/
def extend (path : Bytes) (cs : StdPath) : Bytes :=
  cs.foldl (fun path c => push path c.asOsStr) path

/-- The path of the components. -/
def render (cs : StdPath) : Bytes := extend [] cs

section Components

variable {path other : Bytes} {c : StdComponent}

theorem pathParts_ne_nil : pathParts path ≠ [] := List.splitOnP_ne_nil _ _

theorem pathParts_append_cons (path other : Bytes) :
    pathParts (path ++ 0x2f :: other) = pathParts path ++ pathParts other :=
  List.splitOnP_append_cons path other (by decide)

/-- The parts that are pushed onto a path come after its own parts, and one between them counts for
nothing. -/
theorem pathParts_push (hpath : path ≠ []) (hother : isAbsolute other = false) :
    ∃ own, pathParts (push path other) = own ++ pathParts other ∧
      own.head? = (pathParts path).head? ∧
      own.filterMap componentOf = laterComponents path := by
  rw [push, hother]
  by_cases hlast : path.getLast? = some 0x2f
  · -- the path ends with a separator, and no other one is put in
    obtain ⟨init, rfl⟩ := List.getLast?_eq_some_iff.mp hlast
    have hinit : pathParts (init ++ [0x2f]) = pathParts init ++ [[]] :=
      pathParts_append_cons init []
    refine ⟨pathParts init, ?_, ?_, ?_⟩
    · simp [pathParts_append_cons]
    · rw [hinit, List.head?_append_of_ne_nil _ pathParts_ne_nil]
    · rw [laterComponents, hinit, List.filterMap_append]
      simp [componentOf]
  · exact ⟨pathParts path, by simp [hpath, hlast, pathParts_append_cons], rfl, rfl⟩

theorem isAbsolute_append (hpath : path ≠ []) (other : Bytes) :
    isAbsolute (path ++ other) = isAbsolute path := by
  rw [isAbsolute, isAbsolute, List.head?_append_of_ne_nil _ hpath]

/-- A relative path that is pushed leaves the start of the path. -/
theorem isAbsolute_push (hpath : path ≠ []) (hother : isAbsolute other = false) :
    isAbsolute (push path other) = isAbsolute path := by
  rw [push, hother, if_neg Bool.false_ne_true]
  split
  · exact isAbsolute_append hpath _
  · exact isAbsolute_append hpath _

/-- **What is pushed onto a path** adds its own components. -/
theorem components_push (hpath : path ≠ []) (hother : isAbsolute other = false) :
    components (push path other) = components path ++ laterComponents other := by
  obtain ⟨own, hparts, hhead, hown⟩ := pathParts_push hpath hother
  have hlater : laterComponents (push path other) =
      laterComponents path ++ laterComponents other := by
    rw [laterComponents, hparts, List.filterMap_append, hown, laterComponents]
    rfl
  have hfirst : (pathParts (push path other)).head? = (pathParts path).head? := by
    rw [hparts]
    have hne : own ≠ [] := by
      rintro rfl
      rw [List.head?_nil] at hhead
      exact pathParts_ne_nil (List.head?_eq_none_iff.mp hhead.symm)
    rw [List.head?_append_of_ne_nil _ hne, hhead]
  unfold components
  rw [isAbsolute_push hpath hother, hfirst, hlater]
  split
  · rfl
  · split <;> rfl

theorem componentOf_of_singleNormal {name : Bytes} (h : SingleNormal name) :
    componentOf name = some (.normal name) := by
  obtain ⟨hne, -, hdot, hdots⟩ := h
  rw [componentOf, if_neg (not_or.mpr ⟨hne, hdot⟩), if_neg hdots]

theorem pathParts_of_singleNormal {name : Bytes} (h : SingleNormal name) :
    pathParts name = [name] := by
  refine List.splitOnP_eq_singleton fun byte hbyte => ?_
  rw [decide_eq_false_iff_not]
  rintro rfl
  exact h.2.1 hbyte

theorem not_isAbsolute_of_singleNormal {name : Bytes} (h : SingleNormal name) :
    isAbsolute name = false := by
  rw [isAbsolute, decide_eq_false_iff_not]
  exact fun hhead => h.2.1 (List.mem_of_head? hhead)

/-- A name is pushed as one more component. -/
theorem components_push_name {name : Bytes} (hpath : path ≠ []) (h : SingleNormal name) :
    components (push path name) = components path ++ [.normal name] := by
  rw [components_push hpath (not_isAbsolute_of_singleNormal h), laterComponents,
    pathParts_of_singleNormal h]
  simp [componentOf_of_singleNormal h]

theorem not_mem_of_mem_pathParts {part : Bytes} (h : part ∈ pathParts path) : 0x2f ∉ part := by
  induction path generalizing part with
  | nil =>
    rw [List.mem_singleton.mp h]
    exact List.not_mem_nil
  | cons byte path ih =>
    rw [pathParts, List.splitOnP_cons_eq_if_modifyHead] at h
    split at h
    · rcases List.mem_cons.mp h with rfl | hmem
      · exact List.not_mem_nil
      · exact ih hmem
    · rename_i hbyte
      have hne : pathParts path ≠ [] := pathParts_ne_nil
      obtain ⟨first, rest, hparts⟩ := List.exists_cons_of_ne_nil hne
      change part ∈ (pathParts path).modifyHead (List.cons byte) at h
      rw [hparts] at ih h
      rcases List.mem_cons.mp h with rfl | hmem
      · rw [List.mem_cons, not_or]
        exact ⟨fun heq => hbyte (by simp [← heq]), ih List.mem_cons_self⟩
      · exact ih (List.mem_cons_of_mem _ hmem)

/-- The components that are read from a path are no roots, and their names are proper. -/
theorem mem_laterComponents (h : c ∈ laterComponents path) :
    c = .parentDir ∨ ∃ name, c = .normal name ∧ SingleNormal name := by
  obtain ⟨part, hpart, hc⟩ := List.mem_filterMap.mp h
  have hslash := not_mem_of_mem_pathParts hpart
  unfold componentOf at hc
  split at hc
  · cases hc
  · rename_i hne
    split at hc
    · cases hc
      exact .inl rfl
    · rename_i hdots
      cases hc
      rw [not_or] at hne
      exact .inr ⟨part, rfl, hne.1, hslash, hne.2, hdots⟩

/-- The components of an absolute path: the root, and then no other one. -/
theorem components_of_isAbsolute (h : isAbsolute path = true) :
    components path = .rootDir :: laterComponents path := by
  rw [components, if_pos h]

theorem push_ne_nil (h : path ≠ []) : push path other ≠ [] := by
  rw [push]
  split
  · rename_i habs
    rintro rfl
    cases habs
  · split
    · simp
    · exact List.append_ne_nil_of_left_ne_nil h _

end Components

section Render

variable {names : List Bytes} {path : Bytes}

/-- **Names that are pushed** are read back. -/
theorem components_extend (hpath : path ≠ []) (h : ∀ name ∈ names, SingleNormal name) :
    components (extend path (names.map .normal)) = components path ++ names.map .normal := by
  induction names generalizing path with
  | nil => simp [extend]
  | cons name names ih =>
    rw [List.forall_mem_cons] at h
    have hne : push path name ≠ [] := push_ne_nil hpath
    have hrec := ih hne h.2
    rw [components_push_name hpath h.1, List.append_assoc] at hrec
    exact hrec

/-- **An absolute path of names** is read back from its components. -/
theorem components_render (h : ∀ name ∈ names, SingleNormal name) :
    components (render (.rootDir :: names.map .normal)) = .rootDir :: names.map .normal :=
  components_extend (List.cons_ne_nil _ _) h

end Render

end PathBuf

end Mapache
