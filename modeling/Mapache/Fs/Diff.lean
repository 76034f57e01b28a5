import Mapache.Archiver.Processor
import Mapache.Fs.Walk
import Mapache.Lib.Merge

/-!
# The difference of two trees

`SerializedNodeStream` walks a tree of the repository depth first: a stack has the nodes that are to
come, and a directory is replaced by its entries when it is its turn. `NodeDiffStream` merges two
streams by their paths.

The names of a level increase, and paths are compared component by component, so the paths of a
stream increase (`WalkOf.pairwise`), whatever characters are in the names. The merge is then an
outer join of the two trees (`diff_complete`).
-/

set_option autoImplicit false

namespace Mapache

open Lib

/-! ## The strict order of paths -/

/-- The strict order of `Path`. -/
def PathLt (a b : Path) : Prop := pathLe a b = true ∧ a ≠ b

instance : DecidableRel PathLt := fun a b => inferInstanceAs (Decidable (pathLe a b = true ∧ a ≠ b))

instance : IsStrictTotalOrder Path PathLt where
  irrefl := fun a h => h.2 rfl
  trans := by
    intro a b c hab hbc
    refine ⟨pathLe_trans hab.1 hbc.1, ?_⟩
    rintro rfl
    exact hab.2 (pathLe_antisymm hab.1 hbc.1)
  trichotomous := by
    intro a b hab hba
    by_contra hne
    rcases pathLe_total a b with h | h
    · exact hab ⟨h, hne⟩
    · exact hba ⟨h, Ne.symm hne⟩

/-- A path comes before what is below it. -/
theorem pathLt_append (base : Path) (c : Component) (rest : Path) :
    PathLt base (base ++ c :: rest) := by
  have hne : base ≠ base ++ c :: rest := by
    intro h
    have hlen := congrArg List.length h
    simp at hlen
  refine ⟨?_, hne⟩
  induction base with
  | nil => rfl
  | cons d base ih =>
    have htail := ih fun h => hne (by rw [List.cons_append, ← h])
    simp [pathLe, htail]

/-- What is below one entry comes before the next one and what is below that. -/
theorem pathLt_of_lt (base : Path) {a b : Bytes} (h : a < b) (rest rest' : Path) :
    PathLt (base ++ .normal a :: rest) (base ++ .normal b :: rest') := by
  induction base with
  | nil =>
    refine ⟨by simp [pathLe, Component.lt, h], fun heq => ?_⟩
    cases heq
    exact List.lt_irrefl _ h
  | cons c base ih =>
    refine ⟨by simp [pathLe, ih.1], fun heq => ih.2 ?_⟩
    rw [List.cons_append, List.cons_append] at heq
    exact (List.cons.inj heq).2

/-! ## Names and paths -/

/-- The bytes of a name. Rust compares strings by them. -/
def Node.nameBytes (node : Node) : Bytes := node.name.toList.flatMap String.utf8EncodeChar

/-- The components of a name, without empty and `.` parts. A `..` part is kept. -/
def nameParts (name : Bytes) : List Bytes :=
  (name.splitOnP fun byte => byte = 0x2f).filter fun part => part ≠ [] ∧ part ≠ [0x2e]

/-- `Path::join`: an absolute name replaces the path. -/
def joinName (path : Path) (name : Bytes) : Path :=
  if name.head? = some 0x2f then .rootDir :: (nameParts name).map .normal
  else path ++ (nameParts name).map .normal

/-- The name is a single normal path component. -/
def SingleNormal (name : Bytes) : Prop :=
  name ≠ [] ∧ 0x2f ∉ name ∧ name ≠ [0x2e] ∧ name ≠ [0x2e, 0x2e]

instance : DecidablePred SingleNormal := fun name =>
  inferInstanceAs (Decidable (name ≠ [] ∧ 0x2f ∉ name ∧ name ≠ [0x2e] ∧ name ≠ [0x2e, 0x2e]))

theorem joinName_of_singleNormal {name : Bytes} (h : SingleNormal name) (path : Path) :
    joinName path name = path ++ [.normal name] := by
  obtain ⟨hne, hslash, hdot, -⟩ := h
  have hhead : name.head? ≠ some 0x2f := fun hhead => hslash (List.mem_of_head? hhead)
  have hsplit : (name.splitOnP fun byte => byte = 0x2f) = [name] := by
    refine List.splitOnP_eq_singleton fun byte hbyte => ?_
    rw [decide_eq_false_iff_not]
    rintro rfl
    exact hslash hbyte
  rw [joinName, if_neg hhead, nameParts, hsplit]
  simp [hne, hdot]

/-! ## The stream of a tree -/

/-- The errors of the streams. -/
inductive StreamError where
  /-- `MapacheError::Internal`. -/
  | internal (message : String)
  /-- `MapacheError::Repo`, with the message that the root tree cannot be loaded. -/
  | rootTree (id : ID) (cause : StreamError)
  /-- The other variants. -/
  | other (message : String)

/-- An item of a stream: a path, and its node unless this could not be read. -/
abbrev StreamNodeInfo := Path × Option StreamNode

namespace SerializedNodeStream

variable (load : ID → Except StreamError (List Node)) (filter : PathFilter)

/-- The entries of a tree that go on the stack, with the first one on top. -/
def entries (parent : Path) (nodes : List Node) : List (Path × Node) :=
  (nodes.filter fun node => filter.allow (joinName parent node.nameBytes)).map fun node =>
    (parent, node)

/-- `SerializedNodeStream::new`. -/
def new (rootId : Option ID) (basePath : Path) : Except StreamError (List (Path × Node)) :=
  match rootId with
  | none => .ok []
  | some id =>
    match load id with
    | .ok nodes => .ok (entries filter basePath nodes)
    | .error e => .error (.rootTree id e)

/-- The next item. After an error there is none. -/
def next : List (Path × Node) → Option (Except StreamError StreamNodeInfo × List (Path × Node))
  | [] => none
  | (parent, node) :: stack =>
    let path := joinName parent node.nameBytes
    if filter.allow path then
      match node.tree with
      | none => some (.ok (path, some ⟨node, 0⟩), stack)
      | some id =>
        match load id with
        | .ok nodes =>
          let children := entries filter path nodes
          some (.ok (path, some ⟨node, children.length⟩), children ++ stack)
        | .error e => some (.error e, [])
    else next stack

end SerializedNodeStream

/-! ## The diff stream -/

/-- `DiffTuple`. -/
structure DiffTuple where
  path : Path
  prev : Option (Option StreamNode)
  next : Option (Option StreamNode)
  diff : NodeDiff

namespace NodeDiffStream

/-- `NodeDiffStream::with_ctx`. -/
def withCtx (err : StreamError) (msg : String) : StreamError :=
  match err with
  | .internal message => .internal (msg ++ ": " ++ message)
  | other => other

/-- The comparison of the two nodes of a path. -/
def compareNodes (prev next : Option StreamNode) : NodeDiff :=
  match prev, next with
  | some p, some n => if p.node.isModifiedHint n.node then .changed else .unchanged
  | _, _ => .changed

/-- `NodeDiffStream::poll_next`, when both streams are ready. A peeked item is what the stream gives
next. -/
def next {σ τ : Type} (prev : σ → Option (Except StreamError StreamNodeInfo × σ))
    (next : τ → Option (Except StreamError StreamNodeInfo × τ)) (s : σ × τ) :
    Option (Except StreamError DiffTuple × (σ × τ)) :=
  match prev s.1, next s.2 with
  | none, none => none
  | some (.error e, p), _ => some (.error (withCtx e "error in 'previous' stream"), (p, s.2))
  | _, some (.error e, n) => some (.error (withCtx e "error in 'next' stream"), (s.1, n))
  | some (.ok a, p), some (.ok b, n) =>
    if PathLt a.1 b.1 then some (.ok ⟨a.1, some a.2, none, .deleted⟩, (p, s.2))
    else if PathLt b.1 a.1 then some (.ok ⟨b.1, none, some b.2, .new⟩, (s.1, n))
    else some (.ok ⟨a.1, some a.2, some b.2, compareNodes a.2 b.2⟩, (p, n))
  | some (.ok a, p), none => some (.ok ⟨a.1, some a.2, none, .deleted⟩, (p, s.2))
  | none, some (.ok b, n) => some (.ok ⟨b.1, none, some b.2, .new⟩, (s.1, n))

end NodeDiffStream

/-- `PathFilter::new(None, None)`. -/
def PathFilter.all : PathFilter where
  allow := fun _ => true
  closed := fun _ _ => rfl

/-- `create_diff_stream`: the states of the two streams. -/
def createDiffStream (load : ID → Except StreamError (List Node)) (srcTree tgtTree : ID) :
    Except StreamError (List (Path × Node) × List (Path × Node)) :=
  match SerializedNodeStream.new load .all (some srcTree) [] with
  | .error e => .error e
  | .ok src =>
    match SerializedNodeStream.new load .all (some tgtTree) [] with
    | .error e => .error e
    | .ok tgt => .ok (src, tgt)

/-! ## Stored trees -/

section Trees

variable (load : ID → Except StreamError (List Node))

/-- A stored tree whose levels are sorted by distinct names, each of them a single normal component.
-/
inductive StoredTree : ID → Prop where
  | mk {id : ID} {nodes : List Node} : load id = .ok nodes →
      nodes.Pairwise (fun a b => a.nameBytes < b.nameBytes) →
      (∀ node ∈ nodes, SingleNormal node.nameBytes) →
      (∀ node ∈ nodes, ∀ sub, node.tree = some sub → StoredTree sub) → StoredTree id

/-- The paths of the entries of a level and of what is below them, with their nodes. -/
inductive PathOf : Path → List Node → Path → Node → Prop where
  | entry {base : Path} {nodes : List Node} {node : Node} : node ∈ nodes →
      PathOf base nodes (joinName base node.nameBytes) node
  | under {base : Path} {nodes : List Node} {node : Node} {id : ID} {sub : List Node} {path : Path}
      {found : Node} : node ∈ nodes → node.tree = some id → load id = .ok sub →
      PathOf (joinName base node.nameBytes) sub path found → PathOf base nodes path found

/-- The tree has the node at the path. -/
def InTree (id : ID) (path : Path) (node : Node) : Prop :=
  ∃ nodes, load id = .ok nodes ∧ PathOf load [] nodes path node

/-- The items of the entries of a level, each followed by what is below it. -/
inductive WalkOf : Path → List Node → List (Path × StreamNode) → Prop where
  | nil {base : Path} : WalkOf base [] []
  | leaf {base : Path} {node : Node} {nodes : List Node} {items : List (Path × StreamNode)} :
      node.tree = none → WalkOf base nodes items →
      WalkOf base (node :: nodes) ((joinName base node.nameBytes, ⟨node, 0⟩) :: items)
  | dir {base : Path} {node : Node} {nodes sub : List Node} {id : ID}
      {below items : List (Path × StreamNode)} :
      node.tree = some id → load id = .ok sub → WalkOf (joinName base node.nameBytes) sub below →
      WalkOf base nodes items →
      WalkOf base (node :: nodes)
        ((joinName base node.nameBytes, ⟨node, sub.length⟩) :: (below ++ items))

variable {load} {base path : Path} {nodes : List Node} {node found : Node}
  {items : List (Path × StreamNode)} {id : ID}

/-- A stored tree can be walked to its end. -/
theorem StoredTree.exists_walk (h : StoredTree load id) (base : Path) :
    ∃ nodes items, load id = .ok nodes ∧ WalkOf load base nodes items := by
  induction h generalizing base with
  | @mk id nodes hload hsorted hnormal hsub ih =>
    have hlevel : ∀ rest : List Node, (∀ node ∈ rest, node ∈ nodes) →
        ∃ items, WalkOf load base rest items := by
      intro rest
      induction rest with
      | nil => exact fun _ => ⟨[], .nil⟩
      | cons node rest ihrest =>
        intro hmem
        obtain ⟨items, hitems⟩ := ihrest fun node' hnode' =>
          hmem node' (List.mem_cons_of_mem _ hnode')
        cases htree : node.tree with
        | none => exact ⟨_, .leaf htree hitems⟩
        | some sub =>
          obtain ⟨subNodes, below, hsubload, hbelow⟩ :=
            ih node (hmem node List.mem_cons_self) sub htree (joinName base node.nameBytes)
          exact ⟨_, .dir htree hsubload hbelow hitems⟩
    obtain ⟨items, hitems⟩ := hlevel nodes fun node hnode => hnode
    exact ⟨nodes, items, hload, hitems⟩

/-- The paths of a level, entry by entry. -/
theorem pathOf_cons : PathOf load base (node :: nodes) path found ↔
    (path = joinName base node.nameBytes ∧ found = node) ∨
      (∃ id sub, node.tree = some id ∧ load id = .ok sub ∧
        PathOf load (joinName base node.nameBytes) sub path found) ∨
      PathOf load base nodes path found := by
  constructor
  · intro h
    cases h with
    | entry hmem =>
      rcases List.mem_cons.mp hmem with rfl | hmem
      · exact Or.inl ⟨rfl, rfl⟩
      · exact Or.inr (Or.inr (.entry hmem))
    | under hmem htree hload hbelow =>
      rcases List.mem_cons.mp hmem with rfl | hmem
      · exact Or.inr (Or.inl ⟨_, _, htree, hload, hbelow⟩)
      · exact Or.inr (Or.inr (.under hmem htree hload hbelow))
  · rintro (⟨rfl, rfl⟩ | ⟨id, sub, htree, hload, hbelow⟩ | h)
    · exact .entry List.mem_cons_self
    · exact .under List.mem_cons_self htree hload hbelow
    · cases h with
      | entry hmem => exact .entry (List.mem_cons_of_mem _ hmem)
      | under hmem htree hload hbelow => exact .under (List.mem_cons_of_mem _ hmem) htree hload hbelow

/-- **The walk has the paths of the tree**, with their nodes. -/
theorem WalkOf.mem_iff (h : WalkOf load base nodes items) :
    (∃ item ∈ items, item.1 = path ∧ item.2.node = found) ↔ PathOf load base nodes path found := by
  induction h with
  | nil =>
    refine ⟨fun ⟨item, hitem, _⟩ => (by cases hitem), fun h => ?_⟩
    cases h with
    | entry hmem => cases hmem
    | under hmem => cases hmem
  | leaf htree hrest ih =>
    rw [pathOf_cons, ← ih]
    simp [htree, eq_comm]
  | @dir base node nodes sub id below items htree hload hbelow hrest ihbelow ih =>
    have hunder : (∃ id' sub', node.tree = some id' ∧ load id' = .ok sub' ∧
        PathOf load (joinName base node.nameBytes) sub' path found) ↔
          ∃ item ∈ below, item.1 = path ∧ item.2.node = found := by
      rw [ihbelow]
      constructor
      · rintro ⟨id', sub', htree', hload', hpath⟩
        rw [htree] at htree'
        cases htree'
        rw [hload] at hload'
        cases hload'
        exact hpath
      · exact fun hpath => ⟨id, sub, htree, hload, hpath⟩
    rw [pathOf_cons, hunder, ← ih]
    simp only [List.mem_cons, List.mem_append, or_and_right, exists_or, exists_eq_left]
    rw [eq_comm, @eq_comm _ found]

/-- A level of a stored tree. -/
structure Level (load : ID → Except StreamError (List Node)) (nodes : List Node) : Prop where
  sorted : nodes.Pairwise fun a b => a.nameBytes < b.nameBytes
  normal : ∀ node ∈ nodes, SingleNormal node.nameBytes
  stored : ∀ node ∈ nodes, ∀ sub, node.tree = some sub → StoredTree load sub

theorem StoredTree.level (h : StoredTree load id) (hload : load id = .ok nodes) :
    Level load nodes := by
  obtain ⟨hload', hsorted, hnormal, hsub⟩ := h
  rw [hload] at hload'
  cases hload'
  exact ⟨hsorted, hnormal, hsub⟩

theorem Level.tail (h : Level load (node :: nodes)) : Level load nodes where
  sorted := (List.pairwise_cons.mp h.sorted).2
  normal := fun n hn => h.normal n (List.mem_cons_of_mem _ hn)
  stored := fun n hn => h.stored n (List.mem_cons_of_mem _ hn)

theorem Level.joinName_head (h : Level load (node :: nodes)) (base : Path) :
    joinName base node.nameBytes = base ++ [.normal node.nameBytes] :=
  joinName_of_singleNormal (h.normal node List.mem_cons_self) base

/-- A path of a level goes through one of its entries. -/
theorem PathOf.exists_entry {base : Path} {found : Node} (h : PathOf load base nodes path found)
    (hlevel : Level load nodes) : ∃ node ∈ nodes, base ++ [.normal node.nameBytes] <+: path := by
  induction h with
  | @entry base nodes node hnode =>
    refine ⟨node, hnode, ?_⟩
    rw [joinName_of_singleNormal (hlevel.normal node hnode)]
  | @under base nodes node id sub path found hnode htree hload _ ih =>
    obtain ⟨node', -, hpre⟩ := ih ((hlevel.stored node hnode id htree).level hload)
    rw [joinName_of_singleNormal (hlevel.normal node hnode)] at hpre
    exact ⟨node, hnode, (List.prefix_append _ _).trans hpre⟩

theorem Level.eq_of_nameBytes (h : Level load nodes) {a b : Node} (ha : a ∈ nodes) (hb : b ∈ nodes)
    (heq : a.nameBytes = b.nameBytes) : a = b := by
  have hnodup : (nodes.map Node.nameBytes).Nodup := by
    rw [List.Nodup, List.pairwise_map]
    refine h.sorted.imp ?_
    intro a b hlt heq
    rw [heq] at hlt
    exact List.lt_irrefl _ hlt
  exact List.inj_on_of_nodup_map hnodup ha hb heq

/-- The paths of a walk lie at or below the entries of its level. -/
theorem WalkOf.path_eq (h : WalkOf load base nodes items) (hlevel : Level load nodes)
    {item : Path × StreamNode} (hitem : item ∈ items) :
    ∃ node ∈ nodes, ∃ rest, item.1 = base ++ .normal node.nameBytes :: rest := by
  induction h with
  | nil => cases hitem
  | @leaf base node nodes items htree hrest ih =>
    rcases List.mem_cons.mp hitem with rfl | hitem
    · exact ⟨node, List.mem_cons_self, [], hlevel.joinName_head base⟩
    · obtain ⟨node', hnode', hpath⟩ := ih hlevel.tail hitem
      exact ⟨node', List.mem_cons_of_mem _ hnode', hpath⟩
  | @dir base node nodes sub id below items htree hload hbelow hrest ihbelow ih =>
    rcases List.mem_cons.mp hitem with rfl | hitem
    · exact ⟨node, List.mem_cons_self, [], hlevel.joinName_head base⟩
    · rcases List.mem_append.mp hitem with hitem | hitem
      · -- what is below the entry
        have hsub := (hlevel.stored node List.mem_cons_self id htree).level hload
        obtain ⟨node', -, rest, hpath⟩ := ihbelow hsub hitem
        rw [hlevel.joinName_head, List.append_assoc] at hpath
        exact ⟨node, List.mem_cons_self, _, hpath⟩
      · obtain ⟨node', hnode', hpath⟩ := ih hlevel.tail hitem
        exact ⟨node', List.mem_cons_of_mem _ hnode', hpath⟩

/-- What is at or below the first entry of a level comes before all that is at or below the others.
-/
theorem WalkOf.lt_of_head (h : WalkOf load base nodes items) (hlevel : Level load (node :: nodes))
    (rest : Path) {item : Path × StreamNode} (hitem : item ∈ items) :
    PathLt (base ++ .normal node.nameBytes :: rest) item.1 := by
  obtain ⟨node', hnode', rest', hpath⟩ := h.path_eq hlevel.tail hitem
  rw [hpath]
  exact pathLt_of_lt base ((List.pairwise_cons.mp hlevel.sorted).1 node' hnode') rest rest'

/-- **The paths of a walk increase.** -/
theorem WalkOf.pairwise (h : WalkOf load base nodes items) (hlevel : Level load nodes) :
    items.Pairwise fun x y => PathLt x.1 y.1 := by
  induction h with
  | nil => exact List.Pairwise.nil
  | @leaf base node nodes items htree hrest ih =>
    refine List.pairwise_cons.mpr ⟨fun item hitem => ?_, ih hlevel.tail⟩
    dsimp only
    rw [hlevel.joinName_head]
    exact hrest.lt_of_head hlevel [] hitem
  | @dir base node nodes sub id below items htree hload hbelow hrest ihbelow ih =>
    have hsub := (hlevel.stored node List.mem_cons_self id htree).level hload
    have hunder : ∀ item ∈ below, ∃ rest, item.1 = base ++ .normal node.nameBytes :: rest ∧
        PathLt (joinName base node.nameBytes) item.1 := by
      intro item hitem
      obtain ⟨node', -, rest, hpath⟩ := hbelow.path_eq hsub hitem
      have hlt := pathLt_append (joinName base node.nameBytes) (.normal node'.nameBytes) rest
      rw [← hpath] at hlt
      rw [hlevel.joinName_head, List.append_assoc] at hpath
      exact ⟨_, hpath, hlt⟩
    refine List.pairwise_cons.mpr ⟨fun item hitem => ?_, ?_⟩
    · rcases List.mem_append.mp hitem with hitem | hitem
      · exact (hunder item hitem).choose_spec.2
      · dsimp only
        rw [hlevel.joinName_head]
        exact hrest.lt_of_head hlevel [] hitem
    · refine List.pairwise_append.mpr ⟨ihbelow hsub, ih hlevel.tail, fun x hx y hy => ?_⟩
      obtain ⟨rest, hpath, -⟩ := hunder x hx
      rw [hpath]
      exact hrest.lt_of_head hlevel rest hy

end Trees

/-! ## What the streams yield -/

section Streams

variable {load : ID → Except StreamError (List Node)} {base : Path} {nodes : List Node}
  {items : List (Path × StreamNode)}

theorem entries_all (parent : Path) (nodes : List Node) :
    SerializedNodeStream.entries .all parent nodes = nodes.map fun node => (parent, node) := by
  simp [SerializedNodeStream.entries, PathFilter.all]

/-- The next item of a directory, whose entries come first after it. -/
theorem next_dir {parent : Path} {node : Node} {id : ID} {sub : List Node}
    (htree : node.tree = some id)
    (hload : load id = .ok sub) (stack : List (Path × Node)) :
    SerializedNodeStream.next load .all ((parent, node) :: stack) =
      some (.ok (joinName parent node.nameBytes, some ⟨node, sub.length⟩),
        SerializedNodeStream.entries .all (joinName parent node.nameBytes) sub ++ stack) := by
  have hlen : (SerializedNodeStream.entries .all (joinName parent node.nameBytes) sub).length =
      sub.length := by
    rw [entries_all, List.length_map]
  simp only [PathFilter.all] at hlen
  simp only [SerializedNodeStream.next, PathFilter.all, htree, hload, hlen, reduceIte]

theorem next_leaf {parent : Path} {node : Node} (htree : node.tree = none)
    (stack : List (Path × Node)) :
    SerializedNodeStream.next load .all ((parent, node) :: stack) =
      some (.ok (joinName parent node.nameBytes, some ⟨node, 0⟩), stack) := by
  rw [SerializedNodeStream.next]
  simp [PathFilter.all, htree]

/-- **The stream yields the walk**, and then what the rest of the stack yields. -/
theorem WalkOf.yields (h : WalkOf load base nodes items) {stack : List (Path × Node)}
    {more : List (Except StreamError StreamNodeInfo)}
    (hmore : Yields (SerializedNodeStream.next load .all) stack more) :
    Yields (SerializedNodeStream.next load .all)
      (SerializedNodeStream.entries .all base nodes ++ stack)
      ((items.map fun x => .ok (x.1, some x.2)) ++ more) := by
  induction h generalizing stack more with
  | nil => exact hmore
  | @leaf base node nodes items htree hrest ih =>
    rw [entries_all, List.map_cons, List.cons_append, ← entries_all]
    exact .item (next_leaf htree _) (ih hmore)
  | @dir base node nodes sub id below items htree hload hbelow hrest ihbelow ih =>
    rw [entries_all, List.map_cons, List.cons_append, ← entries_all, List.map_cons, List.map_append,
      List.cons_append, List.append_assoc]
    exact .item (next_dir htree hload _) (ihbelow (ih hmore))

/-- The label of a path. -/
def diffOf (prev next : Option (Option StreamNode)) : NodeDiff :=
  match prev, next with
  | some _, none => .deleted
  | none, some _ => .new
  | some p, some n => NodeDiffStream.compareNodes p n
  | none, none => .unchanged

/-- The item of an element of the join of two streams. -/
def diffTuple (x : Path × Option (Option StreamNode) × Option (Option StreamNode)) : DiffTuple :=
  ⟨x.1, x.2.1, x.2.2, diffOf x.2.1 x.2.2⟩

/-- **The diff stream is the outer join of the two streams.** -/
theorem yields_diff {σ τ : Type} {prev : σ → Option (Except StreamError StreamNodeInfo × σ)}
    {next : τ → Option (Except StreamError StreamNodeInfo × τ)} {s : σ} {t : τ}
    {ps ns : List StreamNodeInfo} (hp : Yields prev s (ps.map .ok)) (hn : Yields next t (ns.map .ok)) :
    Yields (NodeDiffStream.next prev next) (s, t)
      ((mergeJoin PathLt ps ns).map fun x => .ok (diffTuple x)) := by
  induction ps, ns using mergeJoin.induct PathLt generalizing s t with
  | case1 =>
    cases hp with
    | done hpend =>
      cases hn with
      | done hnend =>
        rw [mergeJoin]
        exact .done (by simp [NodeDiffStream.next, hpend, hnend])
  | case2 p ps ih =>
    cases hp with
    | item hpnext hprest =>
      have hrest := ih hprest hn
      cases hn with
      | done hnend =>
        rw [mergeJoin]
        exact .item (by simp [NodeDiffStream.next, hpnext, hnend, diffTuple, diffOf]) hrest
  | case3 n ns ih =>
    cases hn with
    | item hnnext hnrest =>
      have hrest := ih hp hnrest
      cases hp with
      | done hpend =>
        rw [mergeJoin]
        exact .item (by simp [NodeDiffStream.next, hpend, hnnext, diffTuple, diffOf]) hrest
  | case4 p ps n ns hlt ih =>
    cases hp with
    | item hpnext hprest =>
      have hrest := ih hprest hn
      cases hn with
      | item hnnext hnrest =>
        rw [mergeJoin, if_pos hlt]
        exact .item (by simp [NodeDiffStream.next, hpnext, hnnext, hlt, diffTuple, diffOf]) hrest
  | case5 p ps n ns hlt hgt ih =>
    cases hn with
    | item hnnext hnrest =>
      have hrest := ih hp hnrest
      cases hp with
      | item hpnext hprest =>
        rw [mergeJoin, if_neg hlt, if_pos hgt]
        exact .item (by simp [NodeDiffStream.next, hpnext, hnnext, hlt, hgt, diffTuple,
          diffOf]) hrest
  | case6 p ps n ns hlt hgt ih =>
    cases hp with
    | item hpnext hprest =>
      cases hn with
      | item hnnext hnrest =>
        rw [mergeJoin, if_neg hlt, if_neg hgt]
        exact .item (by simp [NodeDiffStream.next, hpnext, hnnext, hlt, hgt, diffTuple,
          diffOf]) (ih hprest hnrest)

/-! ## The difference of two stored trees -/

/-- A list of stream items that has the paths of the tree in increasing order, with their nodes. -/
structure Lists (load : ID → Except StreamError (List Node)) (id : ID) (ps : List StreamNodeInfo) :
    Prop where
  sorted : ps.Pairwise fun x y => PathLt x.1 y.1
  sound : ∀ path x, (path, x) ∈ ps → ∃ node, InTree load id path node
  complete : ∀ path node, InTree load id path node → ∃ num, (path, some ⟨node, num⟩) ∈ ps

/-- **The stream of a stored tree** lists it. -/
theorem StoredTree.stream {id : ID} (h : StoredTree load id) :
    ∃ (stack : List (Path × Node)) (ps : List StreamNodeInfo),
      SerializedNodeStream.new load .all (some id) [] = .ok stack ∧
      Yields (SerializedNodeStream.next load .all) stack (ps.map .ok) ∧ Lists load id ps := by
  obtain ⟨nodes, items, hload, hwalk⟩ := h.exists_walk []
  have hyields := hwalk.yields (.done rfl : Yields (SerializedNodeStream.next load .all) [] [])
  rw [List.append_nil, List.append_nil] at hyields
  refine ⟨SerializedNodeStream.entries .all [] nodes, items.map fun x => (x.1, some x.2), ?_, ?_,
    ?_, ?_, ?_⟩
  · simp [SerializedNodeStream.new, hload]
  · rw [List.map_map]
    exact hyields
  · exact List.pairwise_map.mpr (hwalk.pairwise (h.level hload))
  · intro path x hmem
    obtain ⟨item, hitem, heq⟩ := List.mem_map.mp hmem
    cases heq
    exact ⟨item.2.node, nodes, hload, hwalk.mem_iff.mp ⟨item, hitem, rfl, rfl⟩⟩
  · rintro path node ⟨nodes', hload', hpath⟩
    rw [hload] at hload'
    cases hload'
    obtain ⟨item, hitem, rfl, rfl⟩ := hwalk.mem_iff.mpr hpath
    exact ⟨item.2.numChildren, List.mem_map_of_mem (f := fun x : Path × StreamNode =>
      (x.1, some x.2)) hitem⟩

section Lists

variable {id : ID} {ps : List StreamNodeInfo} {path : Path} {o : Option (Option StreamNode)}

theorem Lists.exists_mem_iff (h : Lists load id ps) :
    (∃ x, (path, x) ∈ ps) ↔ ∃ node, InTree load id path node := by
  constructor
  · rintro ⟨x, hx⟩
    exact h.sound path x hx
  · rintro ⟨node, hnode⟩
    obtain ⟨num, hmem⟩ := h.complete path node hnode
    exact ⟨_, hmem⟩

/-- What a join has for a path of the tree is its node. -/
theorem Lists.eq_some (h : Lists load id ps) (ho : ∀ a, o = some a ↔ (path, a) ∈ ps) {node : Node}
    (hnode : InTree load id path node) : ∃ num, o = some (some ⟨node, num⟩) := by
  obtain ⟨num, hmem⟩ := h.complete path node hnode
  exact ⟨num, (ho _).mpr hmem⟩

/-- A join has nothing for a path that is not in the tree. -/
theorem Lists.eq_none (h : Lists load id ps) (ho : ∀ a, o = some a ↔ (path, a) ∈ ps)
    (hnone : ¬ ∃ node, InTree load id path node) : o = none := by
  rw [Option.eq_none_iff_forall_ne_some]
  exact fun a ha => hnone (h.sound path a ((ho a).mp ha))

end Lists

/-- The label of an item is what the two trees say. -/
structure Classified (load : ID → Except StreamError (List Node)) (src tgt : ID) (item : DiffTuple) :
    Prop where
  deleted : (∃ node, InTree load src item.path node) → (¬ ∃ node, InTree load tgt item.path node) →
    item.diff = .deleted
  new : (¬ ∃ node, InTree load src item.path node) → (∃ node, InTree load tgt item.path node) →
    item.diff = .new
  compared : ∀ prev next, InTree load src item.path prev → InTree load tgt item.path next →
    item.diff = if prev.isModifiedHint next then .changed else .unchanged

/-- **An element of the join is classified.** -/
theorem classified_of_joined {src tgt : ID} {ps ns : List StreamNodeInfo}
    {x : Path × Option (Option StreamNode) × Option (Option StreamNode)} (hps : Lists load src ps)
    (hns : Lists load tgt ns) (hx : Joined ps ns x) : Classified load src tgt (diffTuple x) where
  deleted := by
    rintro ⟨node, hnode⟩ hnone
    obtain ⟨num, heq⟩ := hps.eq_some hx.left hnode
    simp only [diffTuple, heq, hns.eq_none hx.right hnone, diffOf]
  new := by
    rintro hnone ⟨node, hnode⟩
    obtain ⟨num, heq⟩ := hns.eq_some hx.right hnode
    simp only [diffTuple, heq, hps.eq_none hx.left hnone, diffOf]
  compared := by
    intro prev next hprev hnext
    obtain ⟨num, heq⟩ := hps.eq_some hx.left hprev
    obtain ⟨num', heq'⟩ := hns.eq_some hx.right hnext
    simp only [diffTuple, heq, heq', diffOf, NodeDiffStream.compareNodes]

/-- The items have the nodes of the two trees. -/
structure HasNodes (load : ID → Except StreamError (List Node)) (src tgt : ID) (item : DiffTuple) :
    Prop where
  prev : ∀ node, InTree load src item.path node → ∃ num, item.prev = some (some ⟨node, num⟩)
  next : ∀ node, InTree load tgt item.path node → ∃ num, item.next = some (some ⟨node, num⟩)

theorem hasNodes_of_joined {src tgt : ID} {ps ns : List StreamNodeInfo}
    {x : Path × Option (Option StreamNode) × Option (Option StreamNode)} (hps : Lists load src ps)
    (hns : Lists load tgt ns) (hx : Joined ps ns x) : HasNodes load src tgt (diffTuple x) where
  prev := fun _ hnode => hps.eq_some hx.left hnode
  next := fun _ hnode => hns.eq_some hx.right hnode

/-- The diff stream of two trees and its items: every path of the two trees once, in increasing order,
with the nodes and the label. -/
structure DiffOf (load : ID → Except StreamError (List Node)) (src tgt : ID)
    (state : List (Path × Node) × List (Path × Node)) (items : List DiffTuple) : Prop where
  created : createDiffStream load src tgt = .ok state
  yields : ∀ out, Yields (NodeDiffStream.next (SerializedNodeStream.next load .all)
    (SerializedNodeStream.next load .all)) state out ↔ out = items.map .ok
  sorted : items.Pairwise fun x y => PathLt x.path y.path
  paths : ∀ path, (∃ item ∈ items, item.path = path) ↔
    (∃ node, InTree load src path node) ∨ ∃ node, InTree load tgt path node
  classified : ∀ item ∈ items, Classified load src tgt item
  nodes : ∀ item ∈ items, HasNodes load src tgt item

theorem StoredTree.diff {src tgt : ID} (hsrc : StoredTree load src) (htgt : StoredTree load tgt) :
    ∃ state items, DiffOf load src tgt state items := by
  obtain ⟨s, ps, hs, hyieldss, hps⟩ := hsrc.stream
  obtain ⟨t, ns, ht, hyieldst, hns⟩ := htgt.stream
  refine ⟨(s, t), (mergeJoin PathLt ps ns).map diffTuple, ?_, fun out => ?_, ?_, fun path => ?_,
    fun item hitem => ?_, fun item hitem => ?_⟩
  · simp [createDiffStream, hs, ht]
  · have hyields := yields_diff hyieldss hyieldst
    rw [List.map_map]
    constructor
    · exact fun hout => hout.unique hyields
    · rintro rfl
      exact hyields
  · exact List.pairwise_map.mpr (pairwise_mergeJoin hps.sorted hns.sorted)
  · rw [← hps.exists_mem_iff, ← hns.exists_mem_iff]
    constructor
    · rintro ⟨item, hitem, rfl⟩
      obtain ⟨x, hx, rfl⟩ := List.mem_map.mp hitem
      exact exists_of_joined ((mem_mergeJoin hps.sorted hns.sorted).mp hx)
    · intro hkey
      obtain ⟨x, rfl, hx⟩ := exists_joined hps.sorted hns.sorted hkey
      exact ⟨_, List.mem_map.mpr ⟨x, (mem_mergeJoin hps.sorted hns.sorted).mpr hx, rfl⟩, rfl⟩
  · obtain ⟨x, hx, rfl⟩ := List.mem_map.mp hitem
    exact classified_of_joined hps hns ((mem_mergeJoin hps.sorted hns.sorted).mp hx)
  · obtain ⟨x, hx, rfl⟩ := List.mem_map.mp hitem
    exact hasNodes_of_joined hps hns ((mem_mergeJoin hps.sorted hns.sorted).mp hx)

/-- **The difference of two stored trees** has every path of the two trees once, in increasing
order, and says whether it is deleted, new, changed or unchanged. -/
theorem diff_complete {src tgt : ID} (hsrc : StoredTree load src) (htgt : StoredTree load tgt) :
    ∃ (state : List (Path × Node) × List (Path × Node)) (items : List DiffTuple),
      createDiffStream load src tgt = .ok state ∧
      (∀ out, Yields (NodeDiffStream.next (SerializedNodeStream.next load .all)
        (SerializedNodeStream.next load .all)) state out ↔ out = items.map .ok) ∧
      items.Pairwise (fun x y => PathLt x.path y.path) ∧
      (∀ path, (∃ item ∈ items, item.path = path) ↔
        (∃ node, InTree load src path node) ∨ ∃ node, InTree load tgt path node) ∧
      ∀ item ∈ items, Classified load src tgt item := by
  obtain ⟨state, items, h⟩ := hsrc.diff htgt
  exact ⟨state, items, h.created, h.yields, h.sorted, h.paths, h.classified⟩

end Streams

/-- Two trees and a subtree. The name `a.b` comes after all that is below `a`, although the dot is
smaller than the slash. -/
def diffLoad (id : ID) : Except StreamError (List Node) :=
  if id = 1 then .ok [{ name := "a", nodeType := .directory, tree := some 3 }, { name := "a.b" }]
  else if id = 2 then .ok [{ name := "a.b", metadata := { size := 1 } }]
  else if id = 3 then .ok [{ name := "x" }]
  else .error (.other "not in index")

theorem storedTree_diffLoad : StoredTree diffLoad 1 ∧ StoredTree diffLoad 2 := by
  have hsub : StoredTree diffLoad 3 := by
    refine .mk rfl (by decide) (by decide) fun node hnode sub htree => ?_
    rw [List.mem_singleton.mp hnode] at htree
    cases htree
  refine ⟨.mk rfl (by decide) (by decide) fun node hnode sub htree => ?_,
    .mk rfl (by decide) (by decide) fun node hnode sub htree => ?_⟩
  · rcases List.mem_cons.mp hnode with rfl | hnode
    · cases htree
      exact hsub
    · rw [List.mem_singleton.mp hnode] at htree
      cases htree
  · rw [List.mem_singleton.mp hnode] at htree
    cases htree

theorem diff_complete_diffLoad : StoredTree diffLoad 1 ∧ StoredTree diffLoad 2 ∧
    ∃ (state : List (Path × Node) × List (Path × Node)) (items : List DiffTuple),
      createDiffStream diffLoad 1 2 = .ok state ∧
      (∀ out, Yields (NodeDiffStream.next (SerializedNodeStream.next diffLoad .all)
        (SerializedNodeStream.next diffLoad .all)) state out ↔ out = items.map .ok) ∧
      items.Pairwise (fun x y => PathLt x.path y.path) ∧
      (∀ path, (∃ item ∈ items, item.path = path) ↔
        (∃ node, InTree diffLoad 1 path node) ∨ ∃ node, InTree diffLoad 2 path node) ∧
      ∀ item ∈ items, Classified diffLoad 1 2 item :=
  ⟨storedTree_diffLoad.1, storedTree_diffLoad.2,
    diff_complete storedTree_diffLoad.1 storedTree_diffLoad.2⟩

end Mapache
