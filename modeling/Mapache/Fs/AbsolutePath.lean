import Mapache.Common.Error
import Mapache.Fs.Normalize
import Mapache.Fs.StdPath

/-!
# Absolute normalized paths

`get_absolute_normalized_path` of `fs/mod.rs` on paths as bytes, with the home directory and the
current directory of the process. Its result is always normalized
(`getAbsoluteNormalizedPath_spec`). The loop over the components is that of `Mapache.Fs.Normalize`
(`map_normalizeComponents`).
-/

set_option autoImplicit false

namespace Mapache.PathBuf

open Lib

/-- What the process is told by its environment: the home directory, if `HOME` or `USERPROFILE` is
set to valid Unicode, and the current directory, which is an absolute path. -/
structure PathEnv where
  home : Option Bytes
  currentDir : Except MapacheError { path : Bytes // isAbsolute path = true }

/-- `expand_tilde`. -/
def expandTilde (env : PathEnv) (path : Bytes) : Bytes :=
  match components path, env.home with
  | .normal first :: rest, some home => if first = [0x7e] then extend home rest else path
  | _, _ => path

/-- The loop of `get_absolute_normalized_path`: what a component does to those before it. -/
def resolve (cs : StdPath) : StdComponent → StdPath
  | .rootDir => cs ++ [.rootDir]
  | .curDir => cs
  | .parentDir =>
    match cs.getLast? with
    | some (.normal _) => cs.dropLast
    | some .rootDir => cs
    | _ => cs ++ [.parentDir]
  | .normal name => cs ++ [.normal name]

/-- A relative path is joined to the current directory. -/
def makeAbsolute (env : PathEnv) (path : Bytes) : Except MapacheError Bytes :=
  if isAbsolute path then .ok path
  else env.currentDir.map fun currentDir => push currentDir path

/-- The components are normalized, and the path is put together from them. -/
def normalizeLexically (absolutePath : Bytes) : Bytes :=
  let result := render ((components absolutePath).foldl resolve [])
  if result = [] then [0x2e] else result

/-- `get_absolute_normalized_path`. -/
def getAbsoluteNormalizedPath (env : PathEnv) (path : Bytes) : Except MapacheError Bytes :=
  (makeAbsolute env (expandTilde env path)).map normalizeLexically

/-- The path is absolute and normalized: it is the path of its components, and these are the root
and then names only. -/
def NormalizedPath (path : Bytes) : Prop :=
  ∃ names : List Bytes, (∀ name ∈ names, SingleNormal name) ∧
    path = render (.rootDir :: names.map .normal) ∧ components path = .rootDir :: names.map .normal

section Resolve

variable {names : List Bytes} {cs : StdPath} {c : StdComponent}

/-- A component is resolved against names below the root. -/
theorem resolve_names (h : ∀ name ∈ names, SingleNormal name)
    (hc : c = .parentDir ∨ ∃ name, c = .normal name ∧ SingleNormal name) :
    ∃ names' : List Bytes, (∀ name ∈ names', SingleNormal name) ∧
      resolve (.rootDir :: names.map .normal) c = .rootDir :: names'.map .normal := by
  rcases hc with rfl | ⟨name, rfl, hname⟩
  · rcases List.eq_nil_or_concat names with rfl | ⟨names, last, rfl⟩
    · exact ⟨[], nofun, rfl⟩
    · rw [List.concat_eq_append] at h ⊢
      refine ⟨names, fun name hmem => h name (List.mem_append_left _ hmem), ?_⟩
      rw [List.map_append, List.map_singleton, ← List.cons_append, resolve, List.getLast?_concat]
      exact List.dropLast_concat
  · refine ⟨names ++ [name], fun n hn => ?_, ?_⟩
    · rcases List.mem_append.mp hn with hold | hnew
      · exact h n hold
      · rw [List.mem_singleton.mp hnew]
        exact hname
    · rw [List.map_append, List.map_singleton, ← List.cons_append]
      rfl

/-- **The loop** never leaves the root: what is left are names. -/
theorem foldl_resolve_names (h : ∀ name ∈ names, SingleNormal name)
    (hcs : ∀ c ∈ cs, c = .parentDir ∨ ∃ name, c = .normal name ∧ SingleNormal name) :
    ∃ names' : List Bytes, (∀ name ∈ names', SingleNormal name) ∧
      cs.foldl resolve (.rootDir :: names.map .normal) = .rootDir :: names'.map .normal := by
  induction cs generalizing names with
  | nil => exact ⟨names, h, rfl⟩
  | cons c cs ih =>
    rw [List.forall_mem_cons] at hcs
    obtain ⟨names', h', heq⟩ := resolve_names h hcs.1
    rw [List.foldl_cons, heq]
    exact ih h' hcs.2

/-- Names are kept. -/
theorem foldl_resolve_normal (hcs : ∀ c ∈ cs, ∃ name, c = .normal name) (base : StdPath) :
    cs.foldl resolve base = base ++ cs := by
  induction cs generalizing base with
  | nil => exact (List.append_nil base).symm
  | cons c cs ih =>
    rw [List.forall_mem_cons] at hcs
    obtain ⟨⟨name, rfl⟩, hrest⟩ := hcs
    rw [List.foldl_cons, ih hrest, resolve, List.append_assoc, List.singleton_append]

end Resolve

section Normalized

variable {env : PathEnv} {path base relative result : Bytes}

theorem render_ne_nil (cs : StdPath) : render (.rootDir :: cs) ≠ [] := by
  have hne : ∀ (cs : StdPath) (path : Bytes), path ≠ [] → extend path cs ≠ [] := by
    intro cs
    induction cs with
    | nil => exact fun _ h => h
    | cons c cs ih => exact fun _ h => ih _ (push_ne_nil h)
  exact hne cs [0x2f] (List.cons_ne_nil _ _)

/-- What the components of an absolute path are resolved to. -/
theorem exists_names_of_isAbsolute (habs : isAbsolute path = true) :
    ∃ names : List Bytes, (∀ name ∈ names, SingleNormal name) ∧
      (components path).foldl resolve [] = .rootDir :: names.map .normal := by
  rw [components_of_isAbsolute habs]
  have hnil : ∀ name ∈ ([] : List Bytes), SingleNormal name := nofun
  exact foldl_resolve_names hnil fun c hc => mem_laterComponents hc

theorem normalizeLexically_of_isAbsolute (habs : isAbsolute path = true) :
    NormalizedPath (normalizeLexically path) ∧
      components (normalizeLexically path) = (components path).foldl resolve [] := by
  obtain ⟨names, hnames, heq⟩ := exists_names_of_isAbsolute habs
  rw [normalizeLexically, heq, if_neg (render_ne_nil _)]
  exact ⟨⟨names, hnames, rfl, components_render hnames⟩, components_render hnames⟩

/-- A normalized path stays as it is. -/
theorem NormalizedPath.components_normalizeLexically (h : NormalizedPath path) :
    isAbsolute path = true ∧ components (normalizeLexically path) = components path := by
  obtain ⟨names, -, -, hcomponents⟩ := h
  have habs : isAbsolute path = true := by
    by_contra hrel
    rw [components, if_neg hrel] at hcomponents
    split at hcomponents
    · cases hcomponents
    · have hmem : StdComponent.rootDir ∈ laterComponents path := hcomponents ▸ List.mem_cons_self
      rcases mem_laterComponents hmem with h | ⟨_, h, -⟩
      · cases h
      · cases h
  refine ⟨habs, ?_⟩
  rw [(normalizeLexically_of_isAbsolute habs).2, hcomponents, List.foldl_cons]
  refine foldl_resolve_normal (fun c hc => ?_) _
  obtain ⟨name, -, rfl⟩ := List.mem_map.mp hc
  exact ⟨name, rfl⟩

theorem isAbsolute_makeAbsolute (h : makeAbsolute env path = .ok result) :
    isAbsolute result = true := by
  unfold makeAbsolute at h
  split at h
  · rename_i habs
    cases h
    exact habs
  · rename_i habs
    cases hdir : env.currentDir with
    | error e =>
      rw [hdir] at h
      cases h
    | ok dir =>
      rw [hdir] at h
      cases h
      have hne : dir.val ≠ [] := by
        intro hnil
        have hdir := dir.property
        rw [hnil] at hdir
        cases hdir
      rw [isAbsolute_push hne (Bool.not_eq_true _ ▸ habs)]
      exact dir.property

/-- **The result is normalized**, whatever the environment says. -/
theorem getAbsoluteNormalizedPath_spec (h : getAbsoluteNormalizedPath env path = .ok result) :
    NormalizedPath result := by
  rw [getAbsoluteNormalizedPath] at h
  cases habsolute : makeAbsolute env (expandTilde env path) with
  | error e =>
    rw [habsolute] at h
    cases h
  | ok absolute =>
    rw [habsolute] at h
    cases h
    exact (normalizeLexically_of_isAbsolute (isAbsolute_makeAbsolute habsolute)).1

/-- An absolute path does not need the environment. -/
theorem getAbsoluteNormalizedPath_of_isAbsolute (h : isAbsolute path = true) :
    getAbsoluteNormalizedPath env path = .ok (normalizeLexically path) := by
  have hexpand : expandTilde env path = path := by
    rw [expandTilde, components_of_isAbsolute h]
  rw [getAbsoluteNormalizedPath, hexpand, makeAbsolute, if_pos h]
  rfl

end Normalized

/-! ## Normalized components -/

end Mapache.PathBuf
