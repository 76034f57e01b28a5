import Mapache.Fs.Diff

/-!
# Normalized paths

`get_absolute_normalized_path` of `fs/mod.rs`, and what it says about a path that is put together
from a base and further components: it stays below the base when the components never climb above it
(`inside_of_stays`), and where they climb there is a base that it leaves (`not_inside`).
-/

set_option autoImplicit false

namespace Mapache

open Lib

/-- The name of a parent directory component. -/
def parentDir : Bytes := [0x2e, 0x2e]

/-- The body of the loop of `get_absolute_normalized_path`. -/
def pushComponent (components : Path) (component : Component) : Path :=
  if component = .normal parentDir then
    match components.getLast? with
    | some (.normal name) =>
      if name = parentDir then components ++ [component] else components.dropLast
    | some .rootDir => components
    | none => components ++ [component]
  else components ++ [component]

/-- The components without `..`, as far as they can be resolved. -/
def normalizeComponents (path : Path) : Path := path.foldl pushComponent []

/-- `get_absolute_normalized_path` of a path that does not start with `~`. -/
def getAbsoluteNormalizedPath (currentDir path : Path) : Path :=
  normalizeComponents (if path.head? = some .rootDir then path else currentDir ++ path)

/-- The path is lexically the base or below it. -/
def Inside (currentDir base path : Path) : Prop :=
  getAbsoluteNormalizedPath currentDir base <+: getAbsoluteNormalizedPath currentDir path

instance (currentDir base path : Path) : Decidable (Inside currentDir base path) :=
  inferInstanceAs (Decidable (_ <+: _))

/-- Components that never climb above their start, from `depth` levels below it on. -/
def Stays : Nat → List Bytes → Prop
  | _, [] => True
  | 0, part :: parts => part ≠ parentDir ∧ Stays 1 parts
  | depth + 1, part :: parts => Stays (if part = parentDir then depth else depth + 2) parts

section Stays

variable {depth : Nat} {parts : List Bytes} {base : Path}

theorem pushComponent_normal {part : Bytes} (h : part ≠ parentDir) (components : Path) :
    pushComponent components (.normal part) = components ++ [.normal part] :=
  if_neg fun heq => h (Component.normal.inj heq)

/-- A parent directory takes the last name away. -/
theorem pushComponent_parentDir {name : Bytes} (h : name ≠ parentDir) (components : Path) :
    pushComponent (components ++ [.normal name]) (.normal parentDir) = components := by
  rw [pushComponent, if_pos rfl, List.getLast?_append]
  simp [h]

/-- A component after names that are kept: it takes the base away, or other names are kept then. -/
theorem push_kept {kept : List Bytes} (hkept : ∀ name ∈ kept, name ≠ parentDir) (part : Bytes)
    (parts : List Bytes) : (part = parentDir ∧ kept = []) ∨
      ∃ kept' : List Bytes, (∀ name ∈ kept', name ≠ parentDir) ∧
        (∀ base : Path, pushComponent (base ++ kept.map .normal) (.normal part) =
          base ++ kept'.map .normal) ∧
        (Stays kept.length (part :: parts) ↔ Stays kept'.length parts) := by
  by_cases hpart : part = parentDir
  · subst hpart
    rcases List.eq_nil_or_concat kept with rfl | ⟨kept, name, rfl⟩
    · exact Or.inl ⟨rfl, rfl⟩
    · rw [List.concat_eq_append] at hkept ⊢
      refine Or.inr ⟨kept, fun n hn => hkept n (List.mem_append_left _ hn), fun base => ?_, ?_⟩
      · rw [List.map_append, List.map_singleton, ← List.append_assoc]
        exact pushComponent_parentDir (hkept name (by simp)) _
      · rw [List.length_append, List.length_singleton, Stays, if_pos rfl]
  · refine Or.inr ⟨kept ++ [part], fun n hn => ?_, fun base => ?_, ?_⟩
    · rcases List.mem_append.mp hn with hold | hnew
      · exact hkept n hold
      · rw [List.mem_singleton.mp hnew]
        exact hpart
    · rw [pushComponent_normal hpart, List.append_assoc, List.map_append, List.map_singleton]
    · rw [List.length_append, List.length_singleton]
      cases kept.length with
      | zero => exact and_iff_right hpart
      | succ depth => rw [Stays, if_neg hpart]

/-- **Components that stay** only add names to the base. -/
theorem foldl_of_stays {kept : List Bytes} (hkept : ∀ name ∈ kept, name ≠ parentDir)
    (h : Stays kept.length parts) :
    base <+: (parts.map Component.normal).foldl pushComponent (base ++ kept.map Component.normal) := by
  induction parts generalizing kept with
  | nil => exact List.prefix_append _ _
  | cons part parts ih =>
    rw [List.map_cons, List.foldl_cons]
    rcases push_kept hkept part parts with ⟨rfl, rfl⟩ | ⟨kept', hkept', hpush, hstays⟩
    · exact absurd rfl h.1
    · rw [hpush]
      exact ih hkept' (hstays.mp h)

theorem Stays.take (h : Stays depth parts) (n : Nat) : Stays depth (parts.take n) := by
  induction parts generalizing depth n with
  | nil => simpa using h
  | cons part parts ih =>
    cases n with
    | zero => trivial
    | succ n =>
      rw [List.take_succ_cons]
      cases depth with
      | zero => exact ⟨h.1, ih h.2 n⟩
      | succ depth => exact ih h n

/-- What is in a normalized path was in the path. -/
theorem mem_foldl_pushComponent {path : Path} {c : Component}
    (h : c ∈ path.foldl pushComponent base) : c ∈ base ∨ c ∈ path := by
  induction path generalizing base with
  | nil => exact Or.inl h
  | cons component path ih =>
    rw [List.foldl_cons] at h
    rcases ih h with hbase | hpath
    · rw [pushComponent] at hbase
      have hmem : c ∈ base ++ [component] := by
        split at hbase
        · split at hbase
          · split at hbase
            · exact hbase
            · exact List.mem_append_left _ (List.mem_of_mem_dropLast hbase)
          · exact List.mem_append_left _ hbase
          · exact hbase
        · exact hbase
      rcases List.mem_append.mp hmem with hold | hnew
      · exact Or.inl hold
      · exact Or.inr (List.mem_cons.mpr (Or.inl (List.mem_singleton.mp hnew)))
    · exact Or.inr (List.mem_cons_of_mem _ hpath)

/-- Components that climb take a base away. -/
theorem foldl_of_climbs {kept : List Bytes} {dest : Bytes}
    (hkept : ∀ name ∈ kept, name ≠ parentDir) (hdest : dest ≠ parentDir)
    (hfresh : dest ∉ parts) (h : ¬ Stays kept.length parts) :
    ¬ [Component.rootDir, .normal dest] <+:
      (parts.map Component.normal).foldl pushComponent
        ([.rootDir, .normal dest] ++ kept.map Component.normal) := by
  induction parts generalizing kept with
  | nil => exact absurd trivial h
  | cons part parts ih =>
    rw [List.mem_cons, not_or] at hfresh
    rw [List.map_cons, List.foldl_cons]
    rcases push_kept hkept part parts with ⟨rfl, rfl⟩ | ⟨kept', hkept', hpush, hstays⟩
    · -- The base itself is taken away, and no later component has its name.
      intro hprefix
      have hpush : pushComponent ([.rootDir, .normal dest] ++ ([] : List Bytes).map Component.normal)
          (.normal parentDir) = [.rootDir] := pushComponent_parentDir hdest [.rootDir]
      rw [hpush] at hprefix
      have hmem := hprefix.subset (List.mem_cons_of_mem _ List.mem_cons_self)
      rcases mem_foldl_pushComponent hmem with hroot | hparts
      · simp at hroot
      · obtain ⟨part, hpart, heq⟩ := List.mem_map.mp hparts
        cases heq
        exact hfresh.2 hpart
    · rw [hpush]
      exact ih hkept' hfresh.2 fun h' => h (hstays.mpr h')

end Stays

/-! ## Below a base -/

section Inside

variable {currentDir base : Path} {parts : List Bytes}

theorem getAbsoluteNormalizedPath_of_root {path : Path} (h : path.head? = some .rootDir) :
    getAbsoluteNormalizedPath currentDir path = normalizeComponents path :=
  congrArg normalizeComponents (if_pos h)

/-- A path that stays below its base is inside it. -/
theorem inside_of_stays (h : Stays 0 parts) :
    Inside currentDir base (base ++ parts.map .normal) := by
  have hhead : (base ++ parts.map Component.normal).head? = some .rootDir ↔
      base.head? = some .rootDir := by
    cases base with
    | nil => cases parts <;> simp
    | cons c base => simp
  have hfold : ∀ path : Path, normalizeComponents path <+:
      normalizeComponents (path ++ parts.map .normal) := by
    intro path
    rw [normalizeComponents, normalizeComponents, List.foldl_append]
    have hnil : ∀ name ∈ ([] : List Bytes), name ≠ parentDir := nofun
    have hprefix : path.foldl pushComponent [] <+: _ := foldl_of_stays hnil h
    simpa using hprefix
  rw [Inside, getAbsoluteNormalizedPath, getAbsoluteNormalizedPath]
  by_cases hroot : base.head? = some .rootDir
  · rw [if_pos hroot, if_pos (hhead.mpr hroot)]
    exact hfold base
  · rw [if_neg hroot, if_neg (fun h' => hroot (hhead.mp h')), ← List.append_assoc]
    exact hfold (currentDir ++ base)

/-- A path that climbs leaves a base whose name is new. -/
theorem not_inside {dest : Bytes} (hdest : dest ≠ parentDir) (hfresh : dest ∉ parts)
    (h : ¬ Stays 0 parts) :
    ¬ Inside currentDir [.rootDir, .normal dest] ([.rootDir, .normal dest] ++ parts.map .normal) := by
  have hbase : normalizeComponents [.rootDir, .normal dest] = [.rootDir, .normal dest] :=
    pushComponent_normal hdest [.rootDir]
  have hnil : ∀ name ∈ ([] : List Bytes), name ≠ parentDir := nofun
  have hfold := foldl_of_climbs hnil hdest hfresh h
  rw [Inside, getAbsoluteNormalizedPath_of_root rfl, getAbsoluteNormalizedPath_of_root rfl, hbase,
    normalizeComponents, List.foldl_append]
  change ¬ _ <+: List.foldl pushComponent (normalizeComponents [.rootDir, .normal dest]) _
  rw [hbase]
  simpa using hfold

/-- A path without the name of the base is not inside it. -/
theorem not_inside_of_not_mem {dest : Bytes} {path : Path} (hdest : dest ≠ parentDir)
    (hroot : path.head? = some .rootDir) (h : Component.normal dest ∉ path) :
    ¬ Inside currentDir [.rootDir, .normal dest] path := by
  have hbase : normalizeComponents [.rootDir, .normal dest] = [.rootDir, .normal dest] :=
    pushComponent_normal hdest [.rootDir]
  rw [Inside, getAbsoluteNormalizedPath_of_root rfl, getAbsoluteNormalizedPath_of_root hroot, hbase]
  intro hprefix
  have hmem := hprefix.subset (List.mem_cons_of_mem _ List.mem_cons_self)
  rcases mem_foldl_pushComponent hmem with hnil | hpath
  · cases hnil
  · exact h hpath

end Inside

end Mapache
