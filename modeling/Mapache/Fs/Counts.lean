import Mapache.Fs.Intermediate
import Mapache.Fs.StdPath

/-!
# Counting the children of any directories

`get_intermediate_paths` of `fs/mod.rs` on paths with any components. The children of a directory
that are counted are those with a name: a path through `..` enters a directory without adding a
child to it (`getIntermediatePaths_exact`). On normalized paths this is the function of
`Mapache.Fs.Intermediate` (`mem_getIntermediatePaths_embed`).
-/

set_option autoImplicit false

namespace Mapache

open Lib

namespace StdPath

/-- The names of the children found below a directory. -/
def childNames (map : Table StdPath (List Bytes)) (dir : StdPath) : List Bytes :=
  (map.lookup dir).getD []

/-- A child name is inserted under its parent. -/
def addChild (map : Table StdPath (List Bytes)) (parent : StdPath) (name : Bytes) :
    Table StdPath (List Bytes) :=
  map.insert parent (insertName name (childNames map parent))

/-- The loop of `get_intermediate_paths` over the ancestors of a path: the name of the child of the
root on the way, the path where the loop stops, and the map. -/
def climb (root : StdPath) : Nat → StdPath → Table StdPath (List Bytes) →
    Option Bytes × StdPath × Table StdPath (List Bytes)
  | 0, cur, map => (none, cur, map)
  | fuel + 1, cur, map =>
    match cur.parent with
    | none => (none, cur, map)
    | some parent =>
      if root ≠ [] ∧ parent.le root then
        (if parent = root then cur.fileName else none, cur, map)
      else
        climb root fuel parent
          (match cur.fileName with
            | some name => addChild map parent name
            | none => map)

/-- One path of `get_intermediate_paths`. -/
def addPath (root : StdPath) (acc : List Bytes × Table StdPath (List Bytes)) (path : StdPath) :
    List Bytes × Table StdPath (List Bytes) :=
  match climb root path.length path acc.2 with
  | (some name, _, map) => (insertName name acc.1, map)
  | (none, cur, map) =>
    if root = [] then
      match cur.fileName, cur.head? with
      | some name, _ => (insertName name acc.1, map)
      | none, some c => (insertName c.asOsStr acc.1, map)
      | none, none => (acc.1, map)
    else (acc.1, map)

/-- `get_intermediate_paths`. -/
def getIntermediatePaths (root : StdPath) (paths : List StdPath) : Nat × List (StdPath × Nat) :=
  let acc := paths.foldl (addPath root) ([], ∅)
  (acc.1.length, acc.2.toList.map fun e => (e.1, e.2.length))

/-! ## Exact counts -/

/-- The component leads from the directory to one of the paths or towards it. -/
def OnWay (paths : List StdPath) (dir : StdPath) (c : StdComponent) : Prop :=
  ∃ path ∈ paths, dir ++ [c] <+: path

/-- There are this many components with the property. -/
def Counts (p : StdComponent → Prop) (n : Nat) : Prop :=
  ∃ cs : List StdComponent, cs.Nodup ∧ cs.length = n ∧ ∀ c, c ∈ cs ↔ p c

/-- The number of children of the root, and each directory strictly below the root that has children
with the number of these, once. -/
structure Exact (child : StdPath → StdComponent → Prop) (root : StdPath)
    (result : Nat × List (StdPath × Nat)) : Prop where
  root_count : Counts (child root) result.1
  nodup : (result.2.map Prod.fst).Nodup
  mem_keys : ∀ dir, dir ∈ result.2.map Prod.fst ↔ StrictPrefix root dir ∧ ∃ c, child dir c
  counts : ∀ dir count, (dir, count) ∈ result.2 → Counts (child dir) count

/-- The child on the way has a name. -/
def NamedOnWay (paths : List StdPath) (dir : StdPath) (c : StdComponent) : Prop :=
  OnWay paths dir c ∧ ∃ name, c = .normal name

section Spec

variable {root cur dir : StdPath} {paths : List StdPath} {name : Bytes} {c : StdComponent}
  {map : Table StdPath (List Bytes)}

theorem childNames_addChild {parent : StdPath} :
    childNames (addChild map parent name) dir =
      if dir = parent then insertName name (childNames map parent) else childNames map dir := by
  rw [childNames, addChild, Table.lookup_insert_eq_ite]
  split
  · rfl
  · rfl

/-- What the loop over the ancestors of a path below the root adds. -/
structure Climbed (root cur : StdPath) (map : Table StdPath (List Bytes))
    (r : Option Bytes × StdPath × Table StdPath (List Bytes)) : Prop where
  mem : ∀ dir name, name ∈ childNames r.2.2 dir ↔
    name ∈ childNames map dir ∨ (StrictPrefix root dir ∧ dir ++ [.normal name] <+: cur)
  nodup : (∀ dir, (childNames map dir).Nodup) → ∀ dir, (childNames r.2.2 dir).Nodup
  ne_nil : (∀ dir, map.lookup dir ≠ some []) → ∀ dir, r.2.2.lookup dir ≠ some []
  direct : ∀ name, r.1 = some name ↔ root ++ [.normal name] <+: cur

/-- The map with one more child. -/
theorem Climbed.addChild {parent : StdPath}
    {r : Option Bytes × StdPath × Table StdPath (List Bytes)} (hbelow : StrictPrefix root parent)
    (h : Climbed root parent (addChild map parent name) r) :
    Climbed root (parent ++ [.normal name]) map r := by
  refine ⟨fun dir name' => ?_, fun hnodup => h.nodup fun dir => ?_,
    fun hne => h.ne_nil fun dir => ?_, fun name' => ?_⟩
  · have hstep : dir ++ [.normal name'] <+: parent ++ [.normal name] ↔
        dir ++ [.normal name'] <+: parent ∨ (dir = parent ∧ name' = name) := by
      rw [prefix_append_singleton_iff]
      simp
    rw [h.mem, childNames_addChild, hstep]
    split
    · rename_i hdir
      subst hdir
      rw [mem_insertName]
      simp only [hbelow, true_and]
      exact (or_assoc.trans or_comm).trans or_assoc
    · rename_i hdir
      simp only [hdir, false_and, or_false]
  · rw [childNames_addChild]
    split
    · exact nodup_insertName (hnodup parent)
    · exact hnodup dir
  · rw [StdPath.addChild, Table.lookup_insert_eq_ite]
    split
    · intro hnil
      have hmem : name ∈ insertName name (childNames map parent) := mem_insertName.mpr (Or.inl rfl)
      rw [Option.some.inj hnil] at hmem
      cases hmem
    · exact hne dir
  · rw [h.direct, prefix_append_singleton_iff, or_iff_left]
    intro heq
    have hlen := congrArg List.length heq
    have hlt := hbelow.length_lt
    simp only [List.length_append, List.length_singleton] at hlen
    omega

/-- A component without a name adds nothing. -/
theorem Climbed.skip {parent : StdPath} {r : Option Bytes × StdPath × Table StdPath (List Bytes)}
    (hname : c.name = none) (h : Climbed root parent map r) :
    Climbed root (parent ++ [c]) map r := by
  have hprefix : ∀ dir name, dir ++ [.normal name] <+: parent ++ [c] ↔
      dir ++ [.normal name] <+: parent := by
    intro dir name
    rw [prefix_append_singleton_iff, or_iff_left]
    intro heq
    have hlast := List.append_inj_right' heq rfl
    rw [← List.singleton_inj.mp hlast] at hname
    cases hname
  refine ⟨fun dir name => ?_, h.nodup, h.ne_nil, fun name => ?_⟩
  · rw [h.mem, hprefix]
  · rw [h.direct, hprefix]

/-- **The loop over the ancestors**, by induction on the way up to the root. -/
theorem climbed_climb (hroot : root ≠ []) {rest : List StdComponent}
    (habs : Absolute (root ++ rest)) (hrest : rest ≠ []) {fuel : Nat} (hfuel : rest.length ≤ fuel)
    (map : Table StdPath (List Bytes)) :
    Climbed root (root ++ rest) map (climb root fuel (root ++ rest) map) := by
  induction rest using List.reverseRecOn generalizing fuel map with
  | nil => exact absurd rfl hrest
  | append_singleton rest c ih =>
    rw [List.length_append, List.length_singleton] at hfuel
    obtain ⟨fuel, rfl⟩ : ∃ n, fuel = n + 1 := ⟨fuel - 1, by omega⟩
    rw [← List.append_assoc] at habs ⊢
    have hne : root ++ rest ≠ [] := List.append_ne_nil_of_left_ne_nil hroot _
    rw [climb, parent_append (habs.ne_rootDir hne), fileName_append]
    by_cases hnil : rest = []
    · -- the loop stops at the child of the root
      subst hnil
      rw [List.append_nil]
      simp only [le_refl, hroot, ne_eq, not_false_iff, and_self, if_true]
      refine ⟨fun dir name => ?_, id, id, fun name => ?_⟩
      · constructor
        · exact Or.inl
        · rintro (h | ⟨hdir, h⟩)
          · exact h
          · have hle := h.length_le
            have hlt := hdir.length_lt
            simp only [List.length_append, List.length_singleton] at hle
            omega
      · rw [StdComponent.name_eq_some, prefix_append_singleton_iff]
        constructor
        · rintro rfl
          exact Or.inr rfl
        · rintro (h | h)
          · have hle := h.length_le
            simp at hle
          · simpa using h.symm
    · -- the parent lies below the root, so it comes after it and the loop goes on
      have hbelow : StrictPrefix root (root ++ rest) := by
        refine .of_length_lt (List.prefix_append _ _) ?_
        rw [List.length_append]
        exact Nat.lt_add_of_pos_right (List.length_pos_iff.mpr hnil)
      have habs' : Absolute (root ++ rest) := habs.of_prefix (List.prefix_append _ _) hne
      simp only [le_of_strictPrefix hbelow, Bool.false_eq_true, and_false, if_false]
      cases hname : c.name with
      | none => exact (ih habs' hnil (by omega) map).skip hname
      | some name =>
        rw [StdComponent.name_eq_some.mp hname]
        exact (ih habs' hnil (by omega) _).addChild hbelow

/-- The names in the map are those of the children on the way to the paths. -/
structure Counted (root : StdPath) (paths : List StdPath)
    (acc : List Bytes × Table StdPath (List Bytes)) : Prop where
  nodup_root : acc.1.Nodup
  mem_root : ∀ name, name ∈ acc.1 ↔ OnWay paths root (.normal name)
  nodup : ∀ dir, (childNames acc.2 dir).Nodup
  mem : ∀ dir name, name ∈ childNames acc.2 dir ↔
    StrictPrefix root dir ∧ OnWay paths dir (.normal name)
  ne_nil : ∀ dir, acc.2.lookup dir ≠ some []

theorem onWay_append {path : StdPath} :
    OnWay (paths ++ [path]) dir c ↔ OnWay paths dir c ∨ dir ++ [c] <+: path := by
  simp only [OnWay, List.mem_append, List.mem_singleton, or_and_right, exists_or, exists_eq_left]

theorem Counted.addPath {path : StdPath} {acc : List Bytes × Table StdPath (List Bytes)}
    (h : Counted root paths acc) (hne : root ≠ []) (habs : Absolute path)
    (hroot : StrictPrefix root path) : Counted root (paths ++ [path]) (addPath root acc path) := by
  obtain ⟨rest, rfl⟩ := hroot.1
  have hrest : rest ≠ [] := by
    rintro rfl
    exact hroot.2 (List.append_nil root).symm
  have hlen : rest.length ≤ (root ++ rest).length := by
    rw [List.length_append]
    exact Nat.le_add_left ..
  have hclimb := climbed_climb hne habs hrest hlen acc.2
  have hadd : StdPath.addPath root acc (root ++ rest) =
      (match (climb root (root ++ rest).length (root ++ rest) acc.2).1 with
        | some name => insertName name acc.1
        | none => acc.1, (climb root (root ++ rest).length (root ++ rest) acc.2).2.2) := by
    rw [StdPath.addPath]
    split
    · rename_i heq
      rw [heq]
    · rename_i heq
      rw [heq, if_neg hne]
  rw [hadd]
  refine ⟨?_, fun name => ?_, hclimb.nodup h.nodup, fun dir name => ?_, hclimb.ne_nil h.ne_nil⟩
  · dsimp only
    split
    · exact nodup_insertName h.nodup_root
    · exact h.nodup_root
  · rw [onWay_append, ← h.mem_root, ← hclimb.direct]
    cases (climb root (root ++ rest).length (root ++ rest) acc.2).1 with
    | none => simp
    | some name' =>
      dsimp only
      rw [mem_insertName, Option.some.injEq, or_comm, eq_comm]
  · rw [hclimb.mem, h.mem, onWay_append, and_or_left]

theorem counted_foldl (hne : root ≠ [])
    (h : ∀ path ∈ paths, Absolute path ∧ StrictPrefix root path) :
    Counted root paths (paths.foldl (StdPath.addPath root) ([], ∅)) := by
  induction paths using List.reverseRecOn with
  | nil =>
    refine ⟨List.nodup_nil, fun name => ?_, fun dir => List.nodup_nil, fun dir name => ?_,
      fun dir => ?_⟩
    · simp [OnWay]
    · simp [OnWay, childNames]
    · simp
  | append_singleton paths path ih =>
    rw [List.foldl_append]
    have hpath := h path (List.mem_append_right _ (List.mem_singleton_self _))
    exact (ih fun p hp => h p (List.mem_append_left _ hp)).addPath hne hpath.1 hpath.2

/-! ## The result -/

theorem counts_of_names {names : List Bytes} {p : StdComponent → Prop} (hnodup : names.Nodup)
    (hmem : ∀ name, name ∈ names ↔ p (.normal name)) :
    Counts (fun c => p c ∧ ∃ name, c = .normal name) names.length := by
  refine ⟨names.map .normal, hnodup.map fun _ _ h => StdComponent.normal.inj h, List.length_map _,
    fun c => ?_⟩
  rw [List.mem_map]
  constructor
  · rintro ⟨name, hname, rfl⟩
    exact ⟨(hmem name).mp hname, name, rfl⟩
  · rintro ⟨hc, name, rfl⟩
    exact ⟨name, (hmem name).mpr hc, rfl⟩

theorem Counted.mem_keys {acc : List Bytes × Table StdPath (List Bytes)}
    (h : Counted root paths acc) :
    (∃ names, acc.2.lookup dir = some names) ↔
      StrictPrefix root dir ∧ ∃ c, NamedOnWay paths dir c := by
  constructor
  · rintro ⟨names, hlookup⟩
    have hne : names ≠ [] := fun hnil => h.ne_nil dir (hnil ▸ hlookup)
    obtain ⟨name, hname⟩ := List.exists_mem_of_ne_nil _ hne
    have hchild : name ∈ childNames acc.2 dir := by
      rw [childNames, hlookup]
      exact hname
    obtain ⟨hbelow, hway⟩ := (h.mem dir name).mp hchild
    exact ⟨hbelow, .normal name, hway, name, rfl⟩
  · rintro ⟨hbelow, c, hway, name, rfl⟩
    have hchild := (h.mem dir name).mpr ⟨hbelow, hway⟩
    rw [childNames] at hchild
    cases hlookup : acc.2.lookup dir with
    | none =>
      rw [hlookup] at hchild
      cases hchild
    | some names => exact ⟨names, rfl⟩

theorem Counted.exact {acc : List Bytes × Table StdPath (List Bytes)} (h : Counted root paths acc) :
    Exact (NamedOnWay paths) root
      (acc.1.length, acc.2.toList.map fun e => (e.1, e.2.length)) where
  root_count := counts_of_names h.nodup_root h.mem_root
  nodup := by
    rw [List.map_map, Table.toList, List.map_map]
    exact acc.2.nodupKeys
  mem_keys dir := by
    rw [← h.mem_keys, List.mem_map]
    constructor
    · rintro ⟨⟨dir', count⟩, hmem, rfl⟩
      obtain ⟨names, hlookup, -⟩ := Table.mem_map_toList.mp hmem
      exact ⟨names, hlookup⟩
    · rintro ⟨names, hlookup⟩
      exact ⟨(dir, names.length), Table.mem_map_toList.mpr ⟨names, hlookup, rfl⟩, rfl⟩
  counts dir count hmem := by
    obtain ⟨names, hlookup, rfl⟩ := Table.mem_map_toList.mp hmem
    have hbelow : StrictPrefix root dir := (h.mem_keys.mp ⟨names, hlookup⟩).1
    have hnames : childNames acc.2 dir = names := by rw [childNames, hlookup, Option.getD_some]
    rw [← hnames]
    refine counts_of_names (h.nodup dir) fun name => ?_
    rw [h.mem, and_iff_right hbelow]

/-- Only the children of the root and of what is below it matter. -/
theorem Exact.congr {child child' : StdPath → StdComponent → Prop}
    {result : Nat × List (StdPath × Nat)} (h : Exact child root result)
    (hchild : ∀ dir, root <+: dir → ∀ c, child dir c ↔ child' dir c) :
    Exact child' root result := by
  have hcounts : ∀ dir, root <+: dir → ∀ n, Counts (child dir) n → Counts (child' dir) n := by
    rintro dir hdir n ⟨cs, hnodup, hlen, hmem⟩
    exact ⟨cs, hnodup, hlen, fun c => (hmem c).trans (hchild dir hdir c)⟩
  refine ⟨hcounts root (List.prefix_refl _) _ h.root_count, h.nodup, fun dir => ?_,
    fun dir count hmem => ?_⟩
  · rw [h.mem_keys]
    refine and_congr_right fun hdir => exists_congr fun c => hchild dir hdir.1 c
  · have hkey := (h.mem_keys dir).mp (List.mem_map.mpr ⟨_, hmem, rfl⟩)
    exact hcounts dir hkey.1.1 _ (h.counts dir count hmem)

/-- Without `..` every child has a name. -/
theorem namedOnWay_iff (hroot : Absolute root)
    (h : ∀ path ∈ paths, Absolute path ∧ .parentDir ∉ path) (hdir : root <+: dir) :
    NamedOnWay paths dir c ↔ OnWay paths dir c := by
  refine ⟨And.left, fun hway => ⟨hway, ?_⟩⟩
  obtain ⟨path, hpath, hpre⟩ := hway
  obtain ⟨habs, hnone⟩ := h path hpath
  obtain ⟨rest, rfl, -⟩ := hroot
  obtain ⟨dir, rfl⟩ := hdir
  obtain ⟨rest', rfl, hrest'⟩ := habs
  obtain ⟨-, hpre'⟩ := List.cons_prefix_cons.mp hpre
  have hc : c ∈ rest' := hpre'.subset (List.mem_append_right _ (List.mem_singleton_self _))
  rcases hrest' c hc with rfl | hname
  · exact absurd (List.mem_cons_of_mem _ hc) hnone
  · exact hname

/-- **Intermediate directory counts are exact**, for the children that have names: the number of
children of the root, and each directory strictly below the root that a path leaves by a name, with
the number of its children on the way to the paths. Without `..` these are all the directories
between the root and a path, and all their children. -/
theorem getIntermediatePaths_exact (hroot : Absolute root)
    (h : ∀ path ∈ paths, Absolute path ∧ StrictPrefix root path) :
    Exact (NamedOnWay paths) root (getIntermediatePaths root paths) ∧
      ((∀ path ∈ paths, .parentDir ∉ path) →
        Exact (OnWay paths) root (getIntermediatePaths root paths)) := by
  have hne : root ≠ [] := by
    obtain ⟨rest, rfl, -⟩ := hroot
    exact List.cons_ne_nil _ _
  have hexact := (counted_foldl hne h).exact
  -- without `..` a child on the way has a name
  refine ⟨hexact, fun hnone => hexact.congr fun dir hdir c => ?_⟩
  exact namedOnWay_iff hroot (fun path hpath => ⟨(h path hpath).1, hnone path hpath⟩) hdir

end Spec

/-- `/a/../b`. -/
def throughParent : StdPath := [.rootDir, .normal [0x61], .parentDir, .normal [0x62]]

theorem absolute_throughParent : Absolute throughParent := by
  refine ⟨_, rfl, fun c hc => ?_⟩
  simp only [List.mem_cons, List.not_mem_nil, or_false] at hc
  rcases hc with rfl | rfl | rfl
  · exact .inr ⟨_, rfl⟩
  · exact .inl rfl
  · exact .inr ⟨_, rfl⟩

theorem getIntermediatePaths_exact_throughParent :
    Exact (NamedOnWay [throughParent]) [.rootDir]
      (getIntermediatePaths [.rootDir] [throughParent]) := by
  refine (getIntermediatePaths_exact ⟨[], rfl, nofun⟩ fun path hpath => ?_).1
  rw [List.mem_singleton.mp hpath]
  exact ⟨absolute_throughParent, by decide⟩

/-- The directory `/a` lies between the root and `/a/../b`, but it is not listed: `..` is no child
of it. -/
theorem not_exact_throughParent :
    Absolute throughParent ∧ StrictPrefix [.rootDir] throughParent ∧
      ¬ Exact (OnWay [throughParent]) [.rootDir]
        (getIntermediatePaths [.rootDir] [throughParent]) := by
  refine ⟨absolute_throughParent, by decide, fun h => ?_⟩
  obtain ⟨dir, hdir⟩ : ∃ dir : StdPath, dir = [.rootDir, .normal [0x61]] := ⟨_, rfl⟩
  have hbelow : StrictPrefix [.rootDir] dir := hdir ▸ by decide
  have hway : OnWay [throughParent] dir .parentDir :=
    ⟨_, List.mem_singleton_self _, hdir ▸ by decide⟩
  have hkey := (h.mem_keys dir).mpr ⟨hbelow, .parentDir, hway⟩
  have hkeys : (getIntermediatePaths [.rootDir] [throughParent]).2.map Prod.fst =
      [[.rootDir, .normal [0x61], .parentDir]] := by decide
  rw [hkeys, hdir] at hkey
  exact absurd hkey (by decide)

end StdPath

/-! ## Normalized paths -/

/-- A component of a normalized path. -/
def Component.embed : Component → StdComponent
  | .rootDir => .rootDir
  | .normal name => .normal name

namespace StdPath

/-- A normalized path. -/
def embed (path : Path) : StdPath := path.map Component.embed

theorem embed_injective : Function.Injective embed := by
  refine List.map_injective_iff.mpr fun c c' h => ?_
  cases c with
  | rootDir => cases c' with
    | rootDir => rfl
    | normal name => cases h
  | normal name => cases c' with
    | rootDir => cases h
    | normal name' => exact congrArg Component.normal (StdComponent.normal.inj h)

section Embed

variable {root cur dir : Path} {paths : List Path}

theorem parent_embed (cur : Path) : (embed cur).parent = (extractParent cur).map embed := by
  rcases List.eq_nil_or_concat cur with rfl | ⟨cur, c, rfl⟩
  · rfl
  · rw [parent, extractParent, embed, List.getLast?_map, List.concat_eq_append,
      List.getLast?_concat]
    cases c with
    | rootDir => rfl
    | normal name => simp [embed, Component.embed]

theorem fileName_embed (cur : Path) : (embed cur).fileName = Mapache.fileName cur := by
  rw [fileName, Mapache.fileName, embed, List.getLast?_map]
  cases cur.getLast? with
  | none => rfl
  | some c => cases c <;> rfl

theorem le_embed (a b : Path) : (embed a).le (embed b) = pathLe a b := by
  induction a generalizing b with
  | nil => rfl
  | cons x a ih =>
    cases b with
    | nil => rfl
    | cons y b =>
      have hrec := ih b
      simp only [embed] at hrec
      simp only [embed, List.map_cons, le, pathLe, hrec]
      have hlt : x.embed.lt y.embed = x.lt y := by
        cases x <;> cases y <;>
          simp [Component.embed, StdComponent.lt, Component.lt, StdComponent.rank]
      have heq : x.embed = y.embed ↔ x = y := by
        cases x <;> cases y <;> simp [Component.embed]
      rw [hlt, decide_eq_decide.mpr heq]

/-- The maps have the same names. -/
structure SameMap (map' : Table StdPath (List Bytes)) (map : Table Path (List Bytes)) : Prop where
  lookup : ∀ dir, map'.lookup (embed dir) = map.lookup dir
  exists_dir : ∀ dir' names, map'.lookup dir' = some names → ∃ dir, dir' = embed dir

theorem SameMap.addChild {map' : Table StdPath (List Bytes)} {map : Table Path (List Bytes)}
    (h : SameMap map' map) (parent : Path) (name : Bytes) :
    SameMap (addChild map' (embed parent) name)
      (map.insert parent (insertName name (Mapache.childNames map parent))) where
  lookup dir := by
    rw [StdPath.addChild, Table.lookup_insert_eq_ite, Table.lookup_insert_eq_ite, childNames,
      Mapache.childNames, h.lookup, h.lookup]
    simp only [embed_injective.eq_iff]
  exists_dir dir' names hlookup := by
    rw [StdPath.addChild, Table.lookup_insert_eq_ite] at hlookup
    split at hlookup
    · rename_i heq
      exact ⟨parent, heq⟩
    · exact h.exists_dir dir' names hlookup

theorem climb_embed (fuel : Nat) (cur : Path) {map' : Table StdPath (List Bytes)}
    {map : Table Path (List Bytes)} (h : SameMap map' map) :
    (climb (embed root) fuel (embed cur) map').1 = (Mapache.climb root fuel cur map).1 ∧
      (climb (embed root) fuel (embed cur) map').2.1 =
        embed (Mapache.climb root fuel cur map).2.1 ∧
      SameMap (climb (embed root) fuel (embed cur) map').2.2
        (Mapache.climb root fuel cur map).2.2 := by
  induction fuel generalizing cur map' map with
  | zero => exact ⟨rfl, rfl, h⟩
  | succ fuel ih =>
    have hnil : embed root ≠ [] ↔ root ≠ [] := not_congr (List.map_eq_nil_iff ..)
    rw [climb, Mapache.climb, parent_embed]
    cases extractParent cur with
    | none => exact ⟨rfl, rfl, h⟩
    | some parent =>
      simp only [Option.map_some, hnil, le_embed, fileName_embed, embed_injective.eq_iff]
      split
      · exact ⟨rfl, rfl, h⟩
      · cases Mapache.fileName cur with
        | none => exact ih parent h
        | some name => exact ih parent (h.addChild parent name)

theorem addPath_embed {acc' : List Bytes × Table StdPath (List Bytes)}
    {acc : List Bytes × Table Path (List Bytes)} (hnames : acc'.1 = acc.1)
    (h : SameMap acc'.2 acc.2) (path : Path) :
    (addPath (embed root) acc' (embed path)).1 = (addSource root acc path).1 ∧
      SameMap (addPath (embed root) acc' (embed path)).2 (addSource root acc path).2 := by
  have hlen : (embed path).length = path.length := List.length_map _
  have hclimb := @climb_embed root path.length path _ _ h
  rw [addPath, addSource, hlen]
  revert hclimb
  generalize climb (embed root) path.length (embed path) acc'.2 = r'
  generalize Mapache.climb root path.length path acc.2 = r
  obtain ⟨name', cur', map'⟩ := r'
  obtain ⟨name, cur, map⟩ := r
  rintro ⟨hname, hcur, hmap⟩
  dsimp only at hname hcur hmap
  subst hname hcur
  cases name' with
  | some name => exact ⟨by rw [hnames], hmap⟩
  | none =>
    have hnil : embed root = [] ↔ root = [] := List.map_eq_nil_iff
    have hhead : (embed cur).head? = cur.head?.map Component.embed := List.head?_map
    have hstr : ∀ c : Component, c.embed.asOsStr = c.asOsStr := by
      intro c
      cases c <;> rfl
    simp only [hnil, fileName_embed, hhead]
    split
    · cases Mapache.fileName cur with
      | some name => exact ⟨by rw [hnames], hmap⟩
      | none =>
        cases cur.head? with
        | none => exact ⟨hnames, hmap⟩
        | some c => exact ⟨congrArg₂ insertName (hstr c) hnames, hmap⟩
    · exact ⟨hnames, hmap⟩

/-- **On normalized paths** this is the function on normalized paths. -/
theorem mem_getIntermediatePaths_embed {count : Nat} :
    (getIntermediatePaths (embed root) (paths.map embed)).1 =
        (Mapache.getIntermediatePaths root paths).1 ∧
      ((embed dir, count) ∈ (getIntermediatePaths (embed root) (paths.map embed)).2 ↔
        (dir, count) ∈ (Mapache.getIntermediatePaths root paths).2) := by
  have hfold : ((paths.map embed).foldl (addPath (embed root)) ([], ∅)).1 =
        (paths.foldl (addSource root) ([], ∅)).1 ∧
      SameMap ((paths.map embed).foldl (addPath (embed root)) ([], ∅)).2
        (paths.foldl (addSource root) ([], ∅)).2 := by
    induction paths using List.reverseRecOn with
    | nil => exact ⟨rfl, fun _ => rfl, fun _ _ hlookup => by cases hlookup⟩
    | append_singleton paths path ih =>
      rw [List.map_append, List.foldl_append, List.foldl_append]
      exact addPath_embed ih.1 ih.2 path
  refine ⟨congrArg List.length hfold.1, ?_⟩
  rw [getIntermediatePaths, Mapache.getIntermediatePaths, Table.mem_map_toList, hfold.2.lookup,
    Table.mem_map_toList]

end Embed

end StdPath

end Mapache
