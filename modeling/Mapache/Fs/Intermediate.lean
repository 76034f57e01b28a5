import Mapache.Fs.Tree
import Mapache.Lib.Prefix

/-!
# Source paths

The path functions of `fs/mod.rs` behind a snapshot: `calculate_lcp`, which gives its root, and
`get_intermediate_paths`, which counts the children of the root and of the directories between the
root and the source paths. For sources below the root the counts are what they say
(`getIntermediatePaths_spec`): each directory strictly between the root and a source is listed once,
with the number of its children on the way to a source.
-/

set_option autoImplicit false

namespace Mapache

open Lib

/-! ## The order of paths -/

namespace Component

/-- The derived order of `std::path::Component`. -/
def lt : Component → Component → Bool
  | .rootDir, .normal _ => true
  | .normal a, .normal b => a < b
  | _, .rootDir => false

/-- `Component::as_os_str`. -/
def asOsStr : Component → Bytes
  | .rootDir => [0x2f]
  | .normal name => name

end Component

/-- The order of `Path`: that of the components. -/
def pathLe : Path → Path → Bool
  | [], _ => true
  | _ :: _, [] => false
  | a :: as, b :: bs => a.lt b || (a = b && pathLe as bs)

/-- An absolute normalized path. -/
def Absolute (path : Path) : Prop := ∃ names : List Bytes, path = .rootDir :: names.map .normal

theorem pathLe_refl (path : Path) : pathLe path path = true := by
  induction path with
  | nil => rfl
  | cons c path ih => simp [pathLe, ih]

theorem Component.lt_irrefl (c : Component) : c.lt c = false := by
  cases c with
  | rootDir => rfl
  | normal name => simp [Component.lt]

/-- A path below another one comes after it. -/
theorem pathLe_of_strictPrefix {root path : Path} (h : StrictPrefix root path) :
    pathLe path root = false := by
  obtain ⟨⟨t, rfl⟩, hne⟩ := h
  induction root with
  | nil =>
    cases t with
    | nil => exact absurd rfl hne
    | cons c t => rfl
  | cons c root ih =>
    have hrec := ih fun heq => hne (by rw [List.cons_append, ← heq])
    simp [pathLe, Component.lt_irrefl, hrec]

theorem Component.lt_or_eq_or_lt (a b : Component) : a.lt b = true ∨ a = b ∨ b.lt a = true := by
  cases a with
  | rootDir => cases b <;> simp [Component.lt]
  | normal x =>
    cases b with
    | rootDir => simp [Component.lt]
    | normal y =>
      simp only [Component.lt, decide_eq_true_iff, Component.normal.injEq]
      by_cases hlt : x < y
      · exact Or.inl hlt
      · by_cases hgt : y < x
        · exact Or.inr (Or.inr hgt)
        · exact Or.inr (Or.inl (List.le_antisymm (List.not_lt.mp hgt) (List.not_lt.mp hlt)))

theorem Component.lt_of_lt_of_lt {a b c : Component} (hab : a.lt b = true) (hbc : b.lt c = true) :
    a.lt c = true := by
  cases a with
  | rootDir =>
    cases c with
    | rootDir => cases b <;> cases hbc
    | normal z => rfl
  | normal x =>
    cases b with
    | rootDir => cases hab
    | normal y =>
      cases c with
      | rootDir => cases hbc
      | normal z =>
        simp only [Component.lt, decide_eq_true_iff] at hab hbc ⊢
        exact List.lt_trans hab hbc

theorem pathLe_total (a b : Path) : pathLe a b = true ∨ pathLe b a = true := by
  induction a generalizing b with
  | nil => exact Or.inl rfl
  | cons x a ih =>
    cases b with
    | nil => exact Or.inr rfl
    | cons y b =>
      simp only [pathLe, Bool.or_eq_true, Bool.and_eq_true, decide_eq_true_iff]
      rcases Component.lt_or_eq_or_lt x y with h | rfl | h
      · exact Or.inl (Or.inl h)
      · rcases ih b with h | h
        · exact Or.inl (Or.inr ⟨rfl, h⟩)
        · exact Or.inr (Or.inr ⟨rfl, h⟩)
      · exact Or.inr (Or.inl h)

theorem pathLe_trans {a b c : Path} (hab : pathLe a b = true) (hbc : pathLe b c = true) :
    pathLe a c = true := by
  induction a generalizing b c with
  | nil => rfl
  | cons x a ih =>
    cases b with
    | nil => cases hab
    | cons y b =>
      cases c with
      | nil => cases hbc
      | cons z c =>
        simp only [pathLe, Bool.or_eq_true, Bool.and_eq_true, decide_eq_true_iff] at hab hbc ⊢
        rcases hab with hxy | ⟨rfl, hab⟩
        · rcases hbc with hyz | ⟨rfl, -⟩
          · exact Or.inl (Component.lt_of_lt_of_lt hxy hyz)
          · exact Or.inl hxy
        · rcases hbc with hyz | ⟨rfl, hbc⟩
          · exact Or.inl hyz
          · exact Or.inr ⟨rfl, ih hab hbc⟩

theorem pathLe_antisymm {a b : Path} (hab : pathLe a b = true) (hba : pathLe b a = true) : a = b := by
  induction a generalizing b with
  | nil =>
    cases b with
    | nil => rfl
    | cons y b => cases hba
  | cons x a ih =>
    cases b with
    | nil => cases hab
    | cons y b =>
      simp only [pathLe, Bool.or_eq_true, Bool.and_eq_true, decide_eq_true_iff] at hab hba
      rcases hab with hxy | ⟨rfl, hab⟩
      · rcases hba with hyx | ⟨rfl, -⟩
        · have hself := Component.lt_of_lt_of_lt hxy hyx
          rw [Component.lt_irrefl] at hself
          cases hself
        · rw [Component.lt_irrefl] at hxy
          cases hxy
      · rcases hba with hself | ⟨-, hba⟩
        · rw [Component.lt_irrefl] at hself
          cases hself
        · rw [ih hab hba]

/-- Paths in their order. -/
def sortPaths (paths : List Path) : List Path := paths.insertionSort fun a b => pathLe a b

/-- Things are in the order of their paths after they are sorted by them. -/
theorem pairwise_sortByPath {α : Type} (entries : List (Path × α)) :
    (entries.insertionSort fun a b => pathLe a.1 b.1).Pairwise fun a b => pathLe a.1 b.1 = true := by
  have : Std.Total fun a b : Path × α => pathLe a.1 b.1 = true := ⟨fun a b => pathLe_total a.1 b.1⟩
  have : IsTrans (Path × α) fun a b => pathLe a.1 b.1 = true := ⟨fun _ _ _ => pathLe_trans⟩
  exact List.pairwise_insertionSort _ entries

theorem pairwise_sortPaths (paths : List Path) :
    (sortPaths paths).Pairwise fun a b => pathLe a b = true := by
  have : Std.Total fun a b : Path => pathLe a b = true := ⟨pathLe_total⟩
  have : IsTrans Path fun a b => pathLe a b = true := ⟨fun _ _ _ => pathLe_trans⟩
  exact List.pairwise_insertionSort _ paths

@[simp] theorem mem_sortPaths {paths : List Path} {path : Path} :
    path ∈ sortPaths paths ↔ path ∈ paths := List.mem_insertionSort _

/-! ## The longest common prefix -/

/-- The longest common prefix of two paths. -/
def commonPrefix : Path → Path → Path
  | a :: as, b :: bs => if a = b then a :: commonPrefix as bs else []
  | _, _ => []

/-- `calculate_lcp` with `strict_prefix = false`. -/
def calculateLcp : List Path → Path
  | [] => []
  | [path] => (extractParent path).getD []
  | path :: paths => paths.foldl commonPrefix path

theorem commonPrefix_le (a b : Path) : commonPrefix a b <+: a ∧ commonPrefix a b <+: b := by
  induction a generalizing b with
  | nil => exact ⟨List.prefix_refl _, List.nil_prefix⟩
  | cons x a ih =>
    cases b with
    | nil => exact ⟨List.nil_prefix, List.prefix_refl _⟩
    | cons y b =>
      rw [commonPrefix]
      split
      · rename_i heq
        subst heq
        exact ⟨(List.prefix_cons_inj x).mpr (ih b).1, (List.prefix_cons_inj x).mpr (ih b).2⟩
      · exact ⟨List.nil_prefix, List.nil_prefix⟩

theorem foldl_commonPrefix_le (path : Path) (paths : List Path) :
    ∀ p ∈ path :: paths, paths.foldl commonPrefix path <+: p := by
  induction paths generalizing path with
  | nil =>
    intro p hp
    rw [List.mem_singleton.mp hp]
    exact List.prefix_refl _
  | cons q paths ih =>
    intro p hp
    have hfold := ih (commonPrefix path q)
    have hhead := hfold _ List.mem_cons_self
    simp only [List.mem_cons] at hp
    rcases hp with rfl | rfl | hp
    · exact hhead.trans (commonPrefix_le _ _).1
    · exact hhead.trans (commonPrefix_le _ _).2
    · exact hfold p (List.mem_cons_of_mem _ hp)

/-! ## The intermediate directories -/

/-- The names of the children found below a directory. -/
def childNames (map : Table Path (List Bytes)) (dir : Path) : List Bytes := (map.lookup dir).getD []

/-- A set of names with one more name. -/
def insertName (name : Bytes) (names : List Bytes) : List Bytes :=
  if name ∈ names then names else name :: names

/-- The loop of `get_intermediate_paths` over the ancestors of a path: the name of the child of the
root on the way, the path where the loop stops, and the map. -/
def climb (root : Path) : Nat → Path → Table Path (List Bytes) →
    Option Bytes × Path × Table Path (List Bytes)
  | 0, cur, map => (none, cur, map)
  | fuel + 1, cur, map =>
    match extractParent cur with
    | none => (none, cur, map)
    | some parent =>
      if root ≠ [] ∧ pathLe parent root then
        (if parent = root then fileName cur else none, cur, map)
      else
        climb root fuel parent
          (match fileName cur with
            | some name => map.insert parent (insertName name (childNames map parent))
            | none => map)

/-- One source path of `get_intermediate_paths`. -/
def addSource (root : Path) (acc : List Bytes × Table Path (List Bytes)) (path : Path) :
    List Bytes × Table Path (List Bytes) :=
  match climb root path.length path acc.2 with
  | (some name, _, map) => (insertName name acc.1, map)
  | (none, cur, map) =>
    if root = [] then
      match fileName cur, cur.head? with
      | some name, _ => (insertName name acc.1, map)
      | none, some c => (insertName c.asOsStr acc.1, map)
      | none, none => (acc.1, map)
    else (acc.1, map)

/-- `get_intermediate_paths`. -/
def getIntermediatePaths (root : Path) (paths : List Path) : Nat × List (Path × Nat) :=
  let acc := paths.foldl (addSource root) ([], ∅)
  (acc.1.length, acc.2.toList.map fun e => (e.1, e.2.length))

/-! ## What it counts -/

/-- The child of the directory lies on the way to one of the sources. -/
def OnWay (sources : List Path) (dir : Path) (c : Component) : Prop :=
  ∃ src ∈ sources, dir ++ [c] <+: src

section Spec

variable {root cur dir : Path} {sources : List Path} {name : Bytes}

/-- The names in the map are those of the children on the way to the sources. -/
structure Counted (root : Path) (sources : List Path) (acc : List Bytes × Table Path (List Bytes)) :
    Prop where
  nodup_root : acc.1.Nodup
  mem_root : ∀ name, name ∈ acc.1 ↔ ∃ c : Component, c.asOsStr = name ∧ OnWay sources root c
  nodup : ∀ dir, (childNames acc.2 dir).Nodup
  mem : ∀ dir name, name ∈ childNames acc.2 dir ↔
    StrictPrefix root dir ∧ OnWay sources dir (.normal name)
  ne_nil : ∀ dir, acc.2.lookup dir ≠ some []

theorem mem_insertName {names : List Bytes} {x : Bytes} :
    x ∈ insertName name names ↔ x = name ∨ x ∈ names := by
  unfold insertName
  split
  · rename_i hmem
    constructor
    · exact Or.inr
    · rintro (rfl | h)
      · exact hmem
      · exact h
  · exact List.mem_cons

theorem nodup_insertName {names : List Bytes} (h : names.Nodup) : (insertName name names).Nodup := by
  unfold insertName
  split
  · exact h
  · rename_i hmem
    exact h.cons hmem

theorem childNames_insert {map : Table Path (List Bytes)} {names : List Bytes} {dir' : Path} :
    childNames (map.insert dir names) dir' = if dir' = dir then names else childNames map dir' := by
  unfold childNames
  rw [Table.lookup_insert_eq_ite]
  split <;> rfl

theorem Absolute.dropLast (h : Absolute cur) (hlen : 1 < cur.length) : Absolute cur.dropLast := by
  obtain ⟨names, rfl⟩ := h
  refine ⟨names.dropLast, ?_⟩
  cases names with
  | nil => exact absurd hlen (by simp)
  | cons name names => simp [List.map_dropLast]

/-- The last component of an absolute path: the root has no name. -/
theorem Absolute.cases_last (h : Absolute cur) :
    cur = [.rootDir] ∨ ∃ name, cur = cur.dropLast ++ [.normal name] ∧ 1 < cur.length := by
  obtain ⟨names, rfl⟩ := h
  rcases List.eq_nil_or_concat names with rfl | ⟨names, name, rfl⟩
  · exact Or.inl rfl
  · refine Or.inr ⟨name, ?_, by simp⟩
    rw [List.concat_eq_append, List.map_append, List.map_singleton, ← List.cons_append,
      List.dropLast_concat]

theorem extractParent_append (dir : Path) (name : Bytes) :
    extractParent (dir ++ [.normal name]) = some dir := by
  simp [extractParent]

theorem fileName_append (dir : Path) (name : Bytes) :
    fileName (dir ++ [.normal name]) = some name := by
  simp [fileName]

/-- A directory above an absolute path, and the names from there to the path. -/
theorem Absolute.exists_names (h : Absolute cur) (hdir : dir <+: cur) (hne : dir ≠ []) :
    Absolute dir ∧ ∃ names : List Bytes, cur = dir ++ names.map .normal := by
  obtain ⟨names, rfl⟩ := h
  cases dir with
  | nil => exact absurd rfl hne
  | cons c dir =>
    obtain ⟨rfl, rest, hrest⟩ := List.cons_prefix_cons.mp hdir
    obtain ⟨l₁, l₂, rfl, rfl, rfl⟩ := List.map_eq_append_iff.mp hrest.symm
    exact ⟨⟨l₁, rfl⟩, l₂, by rw [List.map_append, List.cons_append]⟩

theorem Absolute.of_le (h : Absolute cur) (hdir : dir <+: cur) (hne : dir ≠ []) : Absolute dir :=
  (h.exists_names hdir hne).1

/-- What the loop over the ancestors of a path below the root adds. -/
structure Climbed (root cur : Path) (map : Table Path (List Bytes))
    (r : Option Bytes × Path × Table Path (List Bytes)) : Prop where
  mem : ∀ dir name, name ∈ childNames r.2.2 dir ↔
    name ∈ childNames map dir ∨ (StrictPrefix root dir ∧ dir ++ [.normal name] <+: cur)
  nodup : (∀ dir, (childNames map dir).Nodup) → ∀ dir, (childNames r.2.2 dir).Nodup
  ne_nil : (∀ dir, map.lookup dir ≠ some []) → ∀ dir, r.2.2.lookup dir ≠ some []
  direct : root ≠ [] → ∃ name, r.1 = some name ∧ root ++ [.normal name] <+: cur
  top : root = [] → r.1 = none ∧ r.2.1 = [.rootDir]

/-- A child below the root on the way to a path is longer than the root. -/
theorem not_prefix_of_length {c : Component} (hdir : StrictPrefix root dir)
    (hcur : cur.length ≤ root.length + 1) : ¬ dir ++ [c] <+: cur := by
  intro h
  have hle := h.length_le
  have hlt := hdir.length_lt
  rw [List.length_append, List.length_singleton] at hle
  omega

theorem climbed_climb (fuel : Nat) (map : Table Path (List Bytes)) (habs : Absolute cur)
    (hroot : StrictPrefix root cur) (hfuel : cur.length ≤ fuel) :
    Climbed root cur map (climb root fuel cur map) := by
  induction fuel generalizing cur map with
  | zero => exact absurd (List.length_eq_zero_iff.mp (Nat.le_zero.mp hfuel)) hroot.ne_nil
  | succ fuel ih =>
    rcases habs.cases_last with rfl | ⟨name₀, hcur, hlen⟩
    · -- the root of the file system has no parent
      have hnil : root = [] := List.length_eq_zero_iff.mp (Nat.lt_one_iff.mp hroot.length_lt)
      subst hnil
      refine ⟨fun dir name => ?_, id, id, fun h => absurd rfl h, fun _ => ⟨rfl, rfl⟩⟩
      constructor
      · exact Or.inl
      · rintro (h | ⟨hdir, h⟩)
        · exact h
        · exact absurd h (not_prefix_of_length hdir le_rfl)
    · obtain ⟨parent, hparent⟩ : ∃ parent, parent = cur.dropLast := ⟨_, rfl⟩
      rw [← hparent] at hcur
      have hpos : parent ≠ [] := by
        rw [hparent]
        intro hnil
        rw [hcur, hparent, hnil] at hlen
        exact absurd hlen (by simp)
      have hclimb : climb root (fuel + 1) cur map =
          if root ≠ [] ∧ pathLe parent root then
            (if parent = root then some name₀ else none, cur, map)
          else climb root fuel parent
            (map.insert parent (insertName name₀ (childNames map parent))) := by
        rw [hcur, climb, extractParent_append, fileName_append]
      rw [hclimb]
      by_cases heq : parent = root
      · -- the loop stops at the child of the root
        rw [if_pos ⟨heq ▸ hpos, heq ▸ pathLe_refl parent⟩, if_pos heq]
        refine ⟨fun dir name => ?_, id, id, fun _ => ⟨name₀, rfl, ?_⟩, fun h => ?_⟩
        · constructor
          · exact Or.inl
          · rintro (h | ⟨hdir, h⟩)
            · exact h
            · refine absurd h (not_prefix_of_length hdir ?_)
              rw [hcur, heq, List.length_append, List.length_singleton]
        · rw [hcur, heq]
        · exact absurd (heq.trans h) hpos
      · have hbelow : StrictPrefix root parent :=
          ⟨hparent ▸ hroot.prefix_dropLast, fun h => heq h.symm⟩
        rw [if_neg fun h => by rw [pathLe_of_strictPrefix hbelow] at h; exact absurd h.2 (by simp)]
        have hrec := ih (map.insert parent (insertName name₀ (childNames map parent)))
          (hparent ▸ habs.dropLast hlen) hbelow (by
            rw [hcur, List.length_append, List.length_singleton] at hfuel
            omega)
        have hprefix : parent <+: cur := hparent ▸ List.dropLast_prefix cur
        refine ⟨fun dir name => ?_, fun h => hrec.nodup fun dir => ?_,
          fun h => hrec.ne_nil fun dir => ?_,
          fun h => ?_, fun h => hrec.top h⟩
        · rw [hrec.mem, childNames_insert]
          have hstep : dir ++ [.normal name] <+: cur ↔
              dir ++ [.normal name] <+: parent ∨ (dir = parent ∧ name = name₀) := by
            rw [hcur, prefix_append_singleton_iff]
            simp
          rw [hstep]
          split
          · rename_i hdir
            subst hdir
            rw [mem_insertName]
            simp only [hbelow, true_and]
            exact (or_assoc.trans or_comm).trans or_assoc
          · rename_i hdir
            simp only [hdir, false_and, or_false]
        · rw [childNames_insert]
          split
          · exact nodup_insertName (h parent)
          · exact h dir
        · rw [Table.lookup_insert_eq_ite]
          split
          · intro hnil
            have hmem : name₀ ∈ insertName name₀ (childNames map parent) :=
              mem_insertName.mpr (Or.inl rfl)
            rw [Option.some.inj hnil] at hmem
            cases hmem
          · exact h dir
        · obtain ⟨name, hname, hway⟩ := hrec.direct h
          exact ⟨name, hname, hway.trans hprefix⟩

theorem OnWay.append_iff {c : Component} {path : Path} :
    OnWay (sources ++ [path]) dir c ↔ OnWay sources dir c ∨ dir ++ [c] <+: path := by
  unfold OnWay
  constructor
  · rintro ⟨src, hsrc, hway⟩
    rcases List.mem_append.mp hsrc with hold | hnew
    · exact Or.inl ⟨src, hold, hway⟩
    · rw [List.mem_singleton.mp hnew] at hway
      exact Or.inr hway
  · rintro (⟨src, hsrc, hway⟩ | hway)
    · exact ⟨src, List.mem_append_left _ hsrc, hway⟩
    · exact ⟨path, List.mem_append_right _ (List.mem_singleton_self _), hway⟩

/-- The child of the root on the way to a source is counted. -/
theorem addSource_eq {path : Path} {acc : List Bytes × Table Path (List Bytes)} (habs : Absolute path)
    (hroot : StrictPrefix root path) :
    ∃ c : Component, root ++ [c] <+: path ∧
      addSource root acc path =
        (insertName c.asOsStr acc.1, (climb root path.length path acc.2).2.2) := by
  have hclimb := climbed_climb path.length acc.2 habs hroot le_rfl
  unfold addSource
  generalize climb root path.length path acc.2 = r at hclimb ⊢
  obtain ⟨name?, cur, map⟩ := r
  by_cases hnil : root = []
  · obtain ⟨hnone, hcur⟩ := hclimb.top hnil
    subst hnil hnone hcur
    obtain ⟨names, rfl⟩ := habs
    exact ⟨.rootDir, ⟨_, rfl⟩, rfl⟩
  · obtain ⟨name, hname, hway⟩ := hclimb.direct hnil
    subst hname
    exact ⟨.normal name, hway, rfl⟩

theorem Counted.addSource {path : Path} {acc : List Bytes × Table Path (List Bytes)}
    (h : Counted root sources acc) (habs : Absolute path) (hroot : StrictPrefix root path) :
    Counted root (sources ++ [path]) (addSource root acc path) := by
  obtain ⟨c, hway, heq⟩ := addSource_eq habs hroot
  have hclimb := climbed_climb path.length acc.2 habs hroot le_rfl
  rw [heq]
  refine ⟨nodup_insertName h.nodup_root, fun name => ?_, hclimb.nodup h.nodup, fun dir name => ?_,
    hclimb.ne_nil h.ne_nil⟩
  · rw [mem_insertName, h.mem_root]
    constructor
    · rintro (rfl | ⟨c', hc', hold⟩)
      · exact ⟨c, rfl, OnWay.append_iff.mpr (Or.inr hway)⟩
      · exact ⟨c', hc', OnWay.append_iff.mpr (Or.inl hold)⟩
    · rintro ⟨c', hc', hon⟩
      rcases OnWay.append_iff.mp hon with hold | hnew
      · exact Or.inr ⟨c', hc', hold⟩
      · left
        rw [← hc', next_unique hnew hway]
  · rw [hclimb.mem, h.mem, OnWay.append_iff, and_or_left]

/-- A source that is the root itself adds nothing. -/
theorem addSource_self {acc : List Bytes × Table Path (List Bytes)} (habs : Absolute root) :
    addSource root acc root = acc := by
  have hne : root ≠ [] := by
    obtain ⟨names, rfl⟩ := habs
    exact List.cons_ne_nil _ _
  have hclimb : climb root root.length root acc.2 = (none, root, acc.2) := by
    obtain ⟨fuel, hfuel⟩ : ∃ fuel, root.length = fuel + 1 :=
      Nat.exists_eq_succ_of_ne_zero (List.length_pos_iff.mpr hne).ne'
    rw [hfuel]
    rcases habs.cases_last with heq | ⟨name, hname, -⟩
    · rw [heq]
      rfl
    · have hlt : StrictPrefix root.dropLast root := .dropLast hne
      have hparent : extractParent root = some root.dropLast := by
        conv_lhs => rw [hname]
        exact extractParent_append _ _
      rw [climb, hparent]
      have hle : pathLe root.dropLast root = true := (pathLe_total _ _).resolve_right (by
        rw [pathLe_of_strictPrefix hlt]
        exact Bool.false_ne_true)
      dsimp only
      rw [if_pos ⟨hne, hle⟩, if_neg hlt.2]
  rw [addSource, hclimb]
  dsimp only
  rw [if_neg hne]

theorem Counted.addSource_self {acc : List Bytes × Table Path (List Bytes)}
    (h : Counted root sources acc) (habs : Absolute root) :
    Counted root (sources ++ [root]) (Mapache.addSource root acc root) := by
  have hsame : ∀ dir c, root <+: dir → (OnWay (sources ++ [root]) dir c ↔ OnWay sources dir c) := by
    intro dir c hle
    rw [OnWay.append_iff]
    refine or_iff_left fun hway => ?_
    have hlen := (hle.trans (List.prefix_append dir [c])).length_le
    have hlen' := hway.length_le
    have hdir := hle.length_le
    rw [List.length_append, List.length_singleton] at hlen'
    omega
  rw [Mapache.addSource_self habs]
  refine ⟨h.nodup_root, fun name => ?_, h.nodup, fun dir name => ?_, h.ne_nil⟩
  · simp only [h.mem_root, hsame _ _ (List.prefix_refl root)]
  · rw [h.mem]
    exact and_congr_right fun hdir => (hsame dir _ hdir.1).symm

/-- **What `get_intermediate_paths` counts**, for sources at or below the root. -/
theorem getIntermediatePaths_spec_of_le (h : ∀ src ∈ sources, Absolute src ∧ root <+: src) :
    Counted root sources (sources.foldl (addSource root) ([], ∅)) := by
  induction sources using List.reverseRecOn with
  | nil =>
    refine ⟨List.nodup_nil, fun name => ?_, fun dir => List.nodup_nil, fun dir name => ?_,
      fun dir => ?_⟩
    · simp [OnWay]
    · simp [OnWay, childNames]
    · simp
  | append_singleton sources path ih =>
    rw [List.foldl_append]
    obtain ⟨habs, hle⟩ := h path (List.mem_append_right _ (List.mem_singleton_self _))
    have hcounted := ih fun src hsrc => h src (List.mem_append_left _ hsrc)
    by_cases heq : root = path
    · subst heq
      exact hcounted.addSource_self habs
    · exact hcounted.addSource habs ⟨hle, heq⟩

theorem getIntermediatePaths_spec (h : ∀ src ∈ sources, Absolute src ∧ StrictPrefix root src) :
    Counted root sources (sources.foldl (addSource root) ([], ∅)) :=
  getIntermediatePaths_spec_of_le fun src hsrc => ⟨(h src hsrc).1, (h src hsrc).2.1⟩

/-- **The snapshot root lies above every source**, when the sources are not nested and none is the
root of the file system. -/
theorem calculateLcp_lt (habs : ∀ src ∈ sources, Absolute src) (hslash : [.rootDir] ∉ sources)
    (hnodup : sources.Nodup) (hnested : ∀ a ∈ sources, ∀ b ∈ sources, a <+: b → a = b) :
    ∀ src ∈ sources, StrictPrefix (calculateLcp sources) src := by
  intro src hsrc
  cases sources with
  | nil => cases hsrc
  | cons path paths =>
    cases paths with
    | nil =>
      obtain rfl := List.mem_singleton.mp hsrc
      rcases (habs src hsrc).cases_last with heq | ⟨name, hname, -⟩
      · exact absurd (heq ▸ hsrc) hslash
      · have hparent : extractParent src = some src.dropLast := by
          rw [hname, extractParent_append, List.dropLast_concat]
        rw [calculateLcp, hparent, Option.getD_some]
        refine .dropLast ?_
        rw [hname]
        simp
    | cons path' paths =>
      have hle := foldl_commonPrefix_le path (path' :: paths)
      refine ⟨hle src hsrc, fun heq => ?_⟩
      -- then the source would lie above another one
      have hne : path ≠ path' := fun h => by
        rw [h] at hnodup
        exact (List.nodup_cons.mp hnodup).1 List.mem_cons_self
      have hall : ∀ p ∈ path :: path' :: paths, src = p := fun p hp =>
        hnested src hsrc p hp (heq ▸ hle p hp)
      exact hne ((hall path (by simp)).symm.trans (hall path' (by simp)))

/-- Absolute sources have a root, unless the only one is the root of the file system. -/
theorem calculateLcp_ne_nil (habs : ∀ src ∈ sources, Absolute src) (hslash : [.rootDir] ∉ sources)
    (hne : sources ≠ []) : calculateLcp sources ≠ [] := by
  cases sources with
  | nil => exact absurd rfl hne
  | cons path paths =>
    obtain ⟨names, rfl⟩ := habs path List.mem_cons_self
    cases paths with
    | nil =>
      rcases List.eq_nil_or_concat names with rfl | ⟨names, name, rfl⟩
      · exact absurd (List.mem_singleton_self _) hslash
      · rw [List.concat_eq_append, List.map_append, List.map_singleton, ← List.cons_append,
          calculateLcp, extractParent_append, Option.getD_some]
        exact List.cons_ne_nil _ _
    | cons path' paths =>
      -- every common prefix starts with the root
      have hfold : ∀ (ps : List Path), (∀ p ∈ ps, Absolute p) → ∀ t : Path,
          ps.foldl commonPrefix (.rootDir :: t) ≠ [] := by
        intro ps hps
        induction ps with
        | nil => exact fun t => List.cons_ne_nil _ _
        | cons p ps ih =>
          intro t
          obtain ⟨names', rfl⟩ := hps p List.mem_cons_self
          rw [List.foldl_cons, commonPrefix, if_pos rfl]
          exact ih (fun q hq => hps q (List.mem_cons_of_mem _ hq)) _
      exact hfold _ (fun p hp => habs p (List.mem_cons_of_mem _ hp)) _

end Spec

end Mapache
