import Mathlib.Algebra.BigOperators.Group.Finset.Basic
import Mapache.Backend.Limiter
import Mapache.Fs.Diff
import Mapache.Repository.VerifyRefs

/-!
# The statistics of the snapshots

`analyze_snapshots` of `cmd_stats.rs`: the nodes of every snapshot are streamed one after the other,
and each blob that is met for the first time is added to the counts and sizes, as the index has them.
All sums saturate.

The garbage collector finds the blobs that the snapshots refer to in another way: it walks the trees
in any order and does not look at a tree twice. `stats_agree_with_gc` says that the two agree, and
with it what the figures of the command are: sums over the blobs that a collection would keep.
-/

set_option autoImplicit false

namespace Mapache

open Lib

/-- `SnapshotAnalysis`. -/
structure SnapshotAnalysis where
  totalRawDataSize : Nat := 0
  totalEncodedDataSize : Nat := 0
  numReferencedBlobs : Nat := 0
  numReferencedDataBlobs : Nat := 0
  numReferencedTreeBlobs : Nat := 0
  totalRawDataSizeData : Nat := 0
  totalEncodedDataSizeData : Nat := 0
  totalRawDataSizeTree : Nat := 0
  totalEncodedDataSizeTree : Nat := 0
  totalRestorableBytes : Nat := 0
  deriving DecidableEq

namespace SnapshotAnalysis

/-- The totals, for a blob of any type. -/
def addBlob (a : SnapshotAnalysis) (locator : BlobLocator) : SnapshotAnalysis :=
  { a with
    totalRawDataSize := saturatingAdd a.totalRawDataSize locator.rawLength
    totalEncodedDataSize := saturatingAdd a.totalEncodedDataSize locator.length
    numReferencedBlobs := saturatingAdd a.numReferencedBlobs 1 }

/-- The sums for a tree. -/
def addTree (a : SnapshotAnalysis) (locator : BlobLocator) : SnapshotAnalysis :=
  { a.addBlob locator with
    totalRawDataSizeTree := saturatingAdd a.totalRawDataSizeTree locator.rawLength
    totalEncodedDataSizeTree := saturatingAdd a.totalEncodedDataSizeTree locator.length
    numReferencedTreeBlobs := saturatingAdd a.numReferencedTreeBlobs 1 }

/-- The sums for a blob of a file. -/
def addData (a : SnapshotAnalysis) (locator : BlobLocator) : SnapshotAnalysis :=
  { a.addBlob locator with
    totalRawDataSizeData := saturatingAdd a.totalRawDataSizeData locator.rawLength
    totalEncodedDataSizeData := saturatingAdd a.totalEncodedDataSizeData locator.length
    numReferencedDataBlobs := saturatingAdd a.numReferencedDataBlobs 1 }

end SnapshotAnalysis

/-- What the loops of `analyze_snapshots` carry along. -/
structure Stats where
  analysis : SnapshotAnalysis := {}
  visitedBlobs : Finset ID := ∅

section Definitions

variable (env : IndexEnv) (mi : MasterIndex) (load : ID → Except StreamError (List Node))

/-- A blob that is referred to: it counts when it was not visited before and is in the index. -/
def Stats.count (add : SnapshotAnalysis → BlobLocator → SnapshotAnalysis) (s : Stats) (id : ID) :
    Stats :=
  if id ∈ s.visitedBlobs then s
  else
    { analysis := match mi.get env id with
        | some locator => add s.analysis locator
        | none => s.analysis
      visitedBlobs := insert id s.visitedBlobs }

/-- The body of the loop over the nodes of a snapshot. -/
def Stats.countNode (s : Stats) (node : Node) : Stats :=
  let s := match node.tree with
    | some treeId => s.count env mi .addTree treeId
    | none => s
  if node.isFile then (node.blobs.getD []).foldl (Stats.count env mi .addData) s else s

/-- The loop over the stream of nodes. The fuel bounds the number of items. -/
def analyzeNodes : Nat → List (Path × Node) → Stats → Option Stats
  | 0, _, _ => none
  | fuel + 1, stack, s =>
    match SerializedNodeStream.next load .all stack with
    | none => some s
    | some (.error _, _) => none
    | some (.ok (_, none), _) => none
    | some (.ok (_, some item), stack) => analyzeNodes fuel stack (s.countNode env mi item.node)

/-- The size of a snapshot, which is not deduplicated. -/
def Stats.addSize (s : Stats) (size : Nat) : Stats :=
  { s with analysis := { s.analysis with
      totalRestorableBytes := saturatingAdd s.analysis.totalRestorableBytes size } }

/-- One snapshot: its size, its root tree, and what the stream yields below that. -/
def analyzeSnapshot (fuel : Nat) (s : Stats) (snapshot : ID × Nat) : Option Stats :=
  let s := (s.addSize snapshot.2).count env mi .addTree snapshot.1
  match SerializedNodeStream.new load .all (some snapshot.1) [] with
  | .error _ => none
  | .ok stack => analyzeNodes env mi load fuel stack s

/-- `analyze_snapshots`. A snapshot of the stream is given by its root tree and its size. -/
def analyzeSnapshots (fuel : Nat) (snapshots : List (ID × Nat)) : Option SnapshotAnalysis :=
  (snapshots.foldlM (analyzeSnapshot env mi load fuel) {}).map Stats.analysis

end Definitions

/-! ## Sums that saturate -/

/-- A sum over a set of blobs, at most the largest value of the field. -/
def clampSum (S : Finset ID) (f : ID → Nat) : Nat := min (∑ id ∈ S, f id) u64Max

theorem saturatingAdd_min (a b : Nat) : saturatingAdd (min a u64Max) b = min (a + b) u64Max := by
  simp only [saturatingAdd]
  omega

theorem saturatingAdd_clampSum {S : Finset ID} {f : ID → Nat} {id : ID} (h : id ∉ S) :
    saturatingAdd (clampSum S f) (f id) = clampSum (insert id S) f := by
  rw [clampSum, saturatingAdd_min, clampSum, Finset.sum_insert h, Nat.add_comm]

/-- The sum over two sets is that of their sums. -/
theorem saturatingAdd_clampSum_union {S T : Finset ID} {f : ID → Nat} (h : Disjoint S T) :
    saturatingAdd (clampSum S f) (clampSum T f) = clampSum (S ∪ T) f := by
  rw [clampSum, saturatingAdd_min, clampSum, clampSum, Finset.sum_union h]
  omega

/-! ## What the sums are taken over -/

section Sums

variable (env : IndexEnv) (mi : MasterIndex)

/-- The blob is in the index. -/
def Indexed (id : ID) : Prop := (mi.get env id).isSome = true

instance (id : ID) : Decidable (Indexed env mi id) := inferInstanceAs (Decidable (_ = true))

/-- The encoded length of a blob, by the index. -/
def encodedLength (id : ID) : Nat := ((mi.get env id).map BlobLocator.length).getD 0

/-- The raw length of a blob, by the index. -/
def rawLength (id : ID) : Nat := ((mi.get env id).map BlobLocator.rawLength).getD 0

/-- The analysis has the sums over the blobs that were counted as trees and those that were counted
as blobs of files, and these are the visited blobs of the index. -/
structure Stats.Sums (s : Stats) (trees data : Finset ID) : Prop where
  disjoint : Disjoint trees data
  counted : trees ∪ data = s.visitedBlobs.filter (Indexed env mi)
  raw : s.analysis.totalRawDataSize = clampSum (trees ∪ data) (rawLength env mi)
  encoded : s.analysis.totalEncodedDataSize = clampSum (trees ∪ data) (encodedLength env mi)
  blobs : s.analysis.numReferencedBlobs = clampSum (trees ∪ data) fun _ => 1
  rawData : s.analysis.totalRawDataSizeData = clampSum data (rawLength env mi)
  encodedData : s.analysis.totalEncodedDataSizeData = clampSum data (encodedLength env mi)
  dataBlobs : s.analysis.numReferencedDataBlobs = clampSum data fun _ => 1
  rawTree : s.analysis.totalRawDataSizeTree = clampSum trees (rawLength env mi)
  encodedTree : s.analysis.totalEncodedDataSizeTree = clampSum trees (encodedLength env mi)
  treeBlobs : s.analysis.numReferencedTreeBlobs = clampSum trees fun _ => 1

variable {env mi} {s : Stats} {trees data : Finset ID} {id : ID} {locator : BlobLocator}
  {add : SnapshotAnalysis → BlobLocator → SnapshotAnalysis}

@[simp] theorem Stats.visitedBlobs_count :
    (s.count env mi add id).visitedBlobs = insert id s.visitedBlobs := by
  unfold Stats.count
  split
  · exact (Finset.insert_eq_of_mem ‹_›).symm
  · rfl

@[simp] theorem Stats.restorable_countTree :
    (s.count env mi .addTree id).analysis.totalRestorableBytes =
      s.analysis.totalRestorableBytes := by
  unfold Stats.count
  split
  · rfl
  · cases hget : mi.get env id <;> rfl

@[simp] theorem Stats.restorable_countData :
    (s.count env mi .addData id).analysis.totalRestorableBytes =
      s.analysis.totalRestorableBytes := by
  unfold Stats.count
  split
  · rfl
  · cases hget : mi.get env id <;> rfl

/-- A blob that the index does not have is visited and not counted. -/
theorem Stats.Sums.visit (h : s.Sums env mi trees data) (hget : mi.get env id = none) :
    Stats.Sums env mi { s with visitedBlobs := insert id s.visitedBlobs } trees data := by
  have hindexed : ¬ Indexed env mi id := by simp [Indexed, hget]
  refine { h with counted := ?_ }
  rw [Finset.filter_insert, if_neg hindexed]
  exact h.counted

/-- A blob that was not visited is not counted yet. -/
theorem Stats.Sums.not_mem (h : s.Sums env mi trees data) (hnew : id ∉ s.visitedBlobs) :
    id ∉ trees ∪ data := by
  rw [h.counted]
  exact fun hmem => hnew (Finset.mem_filter.mp hmem).1

/-- A reference to a tree counts in the totals and among the trees, unless the blob was visited. -/
theorem Stats.Sums.countTree (h : s.Sums env mi trees data) (id : ID) :
    ∃ trees' : Finset ID, (∀ t ∈ trees', t ∈ trees ∨ t = id) ∧
      (s.count env mi .addTree id).Sums env mi trees' data := by
  unfold Stats.count
  split
  · exact ⟨trees, fun t ht => Or.inl ht, h⟩
  · rename_i hnew
    cases hget : mi.get env id with
    | none => exact ⟨trees, fun t ht => Or.inl ht, h.visit hget⟩
    | some locator =>
      have hcounted := h.not_mem hnew
      obtain ⟨htrees, hdata⟩ : id ∉ trees ∧ id ∉ data := by simpa using hcounted
      have hraw : locator.rawLength = rawLength env mi id := by simp [rawLength, hget]
      have hencoded : locator.length = encodedLength env mi id := by simp [encodedLength, hget]
      have hindexed : Indexed env mi id := by simp [Indexed, hget]
      refine ⟨insert id trees, fun t ht => (Finset.mem_insert.mp ht).symm, ?_⟩
      constructor
      · exact Finset.disjoint_insert_left.mpr ⟨hdata, h.disjoint⟩
      · rw [Finset.insert_union, h.counted, Finset.filter_insert, if_pos hindexed]
      all_goals
        simp only [SnapshotAnalysis.addTree, SnapshotAnalysis.addBlob, h.raw, h.encoded, h.blobs,
          h.rawData, h.encodedData, h.dataBlobs, h.rawTree, h.encodedTree, h.treeBlobs, hraw,
          hencoded, Finset.insert_union]
      · exact saturatingAdd_clampSum hcounted
      · exact saturatingAdd_clampSum hcounted
      · exact saturatingAdd_clampSum hcounted
      · exact saturatingAdd_clampSum htrees
      · exact saturatingAdd_clampSum htrees
      · exact saturatingAdd_clampSum htrees

/-- A reference to a blob of a file counts in the totals and among these blobs, unless the blob was
visited. -/
theorem Stats.Sums.countData (h : s.Sums env mi trees data) (id : ID) :
    ∃ data' : Finset ID, (∀ t ∈ data', t ∈ data ∨ t = id) ∧
      (s.count env mi .addData id).Sums env mi trees data' := by
  unfold Stats.count
  split
  · exact ⟨data, fun t ht => Or.inl ht, h⟩
  · rename_i hnew
    cases hget : mi.get env id with
    | none => exact ⟨data, fun t ht => Or.inl ht, h.visit hget⟩
    | some locator =>
      have hcounted := h.not_mem hnew
      obtain ⟨htrees, hdata⟩ : id ∉ trees ∧ id ∉ data := by simpa using hcounted
      have hraw : locator.rawLength = rawLength env mi id := by simp [rawLength, hget]
      have hencoded : locator.length = encodedLength env mi id := by simp [encodedLength, hget]
      have hindexed : Indexed env mi id := by simp [Indexed, hget]
      refine ⟨insert id data, fun t ht => (Finset.mem_insert.mp ht).symm, ?_⟩
      constructor
      · exact Finset.disjoint_insert_right.mpr ⟨htrees, h.disjoint⟩
      · rw [Finset.union_insert, h.counted, Finset.filter_insert, if_pos hindexed]
      all_goals
        simp only [SnapshotAnalysis.addData, SnapshotAnalysis.addBlob, h.raw, h.encoded, h.blobs,
          h.rawData, h.encodedData, h.dataBlobs, h.rawTree, h.encodedTree, h.treeBlobs, hraw,
          hencoded, Finset.union_insert]
      · exact saturatingAdd_clampSum hcounted
      · exact saturatingAdd_clampSum hcounted
      · exact saturatingAdd_clampSum hcounted
      · exact saturatingAdd_clampSum hdata
      · exact saturatingAdd_clampSum hdata
      · exact saturatingAdd_clampSum hdata

end Sums

/-! ## The loops -/

section Loops

variable {env : IndexEnv} {mi : MasterIndex} {load : ID → Except StreamError (List Node)}
  {s : Stats} {id : ID} {isTree isData : ID → Prop}

/-- The invariant of the loops: the sums are those over the visited blobs of the index, and every
blob was counted as what it is. -/
def Stats.Inv (env : IndexEnv) (mi : MasterIndex) (isTree isData : ID → Prop) (s : Stats) : Prop :=
  ∃ trees data, s.Sums env mi trees data ∧ (∀ t ∈ trees, isTree t) ∧ ∀ id ∈ data, isData id

theorem Stats.Inv.start : Stats.Inv env mi isTree isData {} := by
  refine ⟨∅, ∅, ?_, by simp, by simp⟩
  constructor
  · exact Finset.disjoint_empty_left _
  all_goals rfl

/-- The size of a snapshot is in no other sum. -/
theorem Stats.Inv.addSize (h : s.Inv env mi isTree isData) (size : Nat) :
    (s.addSize size).Inv env mi isTree isData := by
  obtain ⟨trees, data, hsums, htrees, hdata⟩ := h
  exact ⟨trees, data, { hsums with }, htrees, hdata⟩

theorem Stats.Inv.countTree (h : s.Inv env mi isTree isData) (hid : isTree id) :
    (s.count env mi .addTree id).Inv env mi isTree isData := by
  obtain ⟨trees, data, hsums, htrees, hdata⟩ := h
  obtain ⟨trees', hmem, hsums'⟩ := hsums.countTree id
  refine ⟨trees', data, hsums', fun t ht => ?_, hdata⟩
  rcases hmem t ht with hold | rfl
  · exact htrees t hold
  · exact hid

theorem Stats.Inv.countData (h : s.Inv env mi isTree isData) (hid : isData id) :
    (s.count env mi .addData id).Inv env mi isTree isData := by
  obtain ⟨trees, data, hsums, htrees, hdata⟩ := h
  obtain ⟨data', hmem, hsums'⟩ := hsums.countData id
  refine ⟨trees, data', hsums', htrees, fun t ht => ?_⟩
  rcases hmem t ht with hold | rfl
  · exact hdata t hold
  · exact hid

theorem Stats.Inv.foldl_countData {ids : List ID} (h : s.Inv env mi isTree isData)
    (hids : ∀ id ∈ ids, isData id) :
    (ids.foldl (Stats.count env mi .addData) s).Inv env mi isTree isData := by
  induction ids generalizing s with
  | nil => exact h
  | cons id ids ih =>
    exact ih (h.countData (hids id List.mem_cons_self)) fun x hx =>
      hids x (List.mem_cons_of_mem _ hx)

theorem mem_visitedBlobs_foldl {ids : List ID} {x : ID} :
    x ∈ (ids.foldl (Stats.count env mi .addData) s).visitedBlobs ↔
      x ∈ s.visitedBlobs ∨ x ∈ ids := by
  induction ids generalizing s with
  | nil => simp
  | cons id ids ih =>
    rw [List.foldl_cons, ih, Stats.visitedBlobs_count, Finset.mem_insert, List.mem_cons,
      or_comm (a := x = id), or_assoc]

theorem restorable_foldl_countData (ids : List ID) (s : Stats) :
    (ids.foldl (Stats.count env mi .addData) s).analysis.totalRestorableBytes =
      s.analysis.totalRestorableBytes := by
  induction ids generalizing s with
  | nil => rfl
  | cons id ids ih => rw [List.foldl_cons, ih, Stats.restorable_countData]

/-- The blobs of a node that count, if it is a file. -/
def Node.fileBlobs (node : Node) : List ID := if node.isFile then node.blobs.getD [] else []

/-- The body of the loop over the nodes, as two loops. -/
theorem Stats.countNode_eq (s : Stats) (node : Node) :
    s.countNode env mi node = node.fileBlobs.foldl (Stats.count env mi .addData)
      (node.tree.toList.foldl (Stats.count env mi .addTree) s) := by
  unfold Stats.countNode Node.fileBlobs
  by_cases hfile : node.isFile = true
  · cases node.tree <;> simp [hfile]
  · cases node.tree <;> simp [hfile]

theorem Stats.Inv.countNode {node : Node} (h : s.Inv env mi isTree isData)
    (htree : ∀ t, node.tree = some t → isTree t) (hdata : ∀ id ∈ node.fileBlobs, isData id) :
    (s.countNode env mi node).Inv env mi isTree isData := by
  rw [Stats.countNode_eq]
  refine Stats.Inv.foldl_countData ?_ hdata
  cases hnode : node.tree with
  | none => exact h
  | some t => exact h.countTree (htree t hnode)

theorem mem_visitedBlobs_countNode {node : Node} {x : ID} :
    x ∈ (s.countNode env mi node).visitedBlobs ↔
      x ∈ s.visitedBlobs ∨ node.tree = some x ∨ x ∈ node.fileBlobs := by
  rw [Stats.countNode_eq, mem_visitedBlobs_foldl]
  cases node.tree with
  | none => simp
  | some t => simp [or_assoc, or_left_comm, eq_comm]

theorem restorable_countNode (s : Stats) (node : Node) :
    (s.countNode env mi node).analysis.totalRestorableBytes =
      s.analysis.totalRestorableBytes := by
  rw [Stats.countNode_eq, restorable_foldl_countData]
  cases node.tree with
  | none => rfl
  | some t => exact Stats.restorable_countTree

/-- The loop over the nodes of a list of items. -/
def Stats.countItems (env : IndexEnv) (mi : MasterIndex) (s : Stats)
    (items : List (Path × StreamNode)) : Stats :=
  items.foldl (fun s i => s.countNode env mi i.2.node) s

theorem Stats.Inv.countItems {items : List (Path × StreamNode)} (h : s.Inv env mi isTree isData)
    (htree : ∀ i ∈ items, ∀ t, i.2.node.tree = some t → isTree t)
    (hdata : ∀ i ∈ items, ∀ id ∈ i.2.node.fileBlobs, isData id) :
    (s.countItems env mi items).Inv env mi isTree isData := by
  induction items generalizing s with
  | nil => exact h
  | cons i items ih =>
    exact ih (h.countNode (htree i List.mem_cons_self) (hdata i List.mem_cons_self))
      (fun j hj => htree j (List.mem_cons_of_mem _ hj))
      (fun j hj => hdata j (List.mem_cons_of_mem _ hj))

theorem mem_visitedBlobs_countItems {items : List (Path × StreamNode)} {x : ID} :
    x ∈ (s.countItems env mi items).visitedBlobs ↔ x ∈ s.visitedBlobs ∨
      ∃ i ∈ items, i.2.node.tree = some x ∨ x ∈ i.2.node.fileBlobs := by
  induction items generalizing s with
  | nil => simp [Stats.countItems]
  | cons i items ih =>
    rw [Stats.countItems, List.foldl_cons, ← Stats.countItems, ih, mem_visitedBlobs_countNode]
    simp [or_assoc]

theorem restorable_countItems (items : List (Path × StreamNode)) (s : Stats) :
    (s.countItems env mi items).analysis.totalRestorableBytes =
      s.analysis.totalRestorableBytes := by
  induction items generalizing s with
  | nil => rfl
  | cons i items ih =>
    rw [Stats.countItems, List.foldl_cons, ← Stats.countItems, ih, restorable_countNode]

/-- The loop over the stream counts what the stream yields. -/
theorem analyzeNodes_eq {stack : List (Path × Node)} {items : List (Path × StreamNode)} {fuel : Nat}
    (h : Yields (SerializedNodeStream.next load .all) stack
      (items.map fun i => .ok (i.1, some i.2)))
    (hfuel : items.length < fuel) :
    analyzeNodes env mi load fuel stack s = some (s.countItems env mi items) := by
  induction items generalizing stack s fuel with
  | nil =>
    obtain ⟨fuel, rfl⟩ : ∃ n, fuel = n + 1 := ⟨fuel - 1, by rw [List.length_nil] at hfuel; omega⟩
    cases h with
    | done hend =>
      rw [analyzeNodes, hend]
      rfl
  | cons i items ih =>
    obtain ⟨fuel, rfl⟩ : ∃ n, fuel = n + 1 := ⟨fuel - 1, by omega⟩
    rw [List.length_cons] at hfuel
    cases h with
    | item hnext hrest =>
      rw [analyzeNodes, hnext]
      exact ih hrest (by omega)

end Loops

/-! ## What the stream goes through -/

/-- A stored tree that loads, and so do the trees below it, where only files have blobs. -/
inductive LoadableTree (load : ID → Except StreamError (List Node)) : ID → Prop where
  | mk {id : ID} {nodes : List Node} : load id = .ok nodes →
      (∀ node ∈ nodes, node.isFile = false → node.blobs = none) →
      (∀ node ∈ nodes, ∀ sub, node.tree = some sub → LoadableTree load sub) → LoadableTree load id

section Trees

variable {load : ID → Except StreamError (List Node)} {codec : TreeCodec} {plain : ID → Bytes}
  {root id x : ID}

/-- What a node refers to, with all that is below it. -/
def NodeRefers (codec : TreeCodec) (plain : ID → Bytes) (node : Node) (x : ID) : Prop :=
  (∃ ids, node.blobs = some ids ∧ x ∈ ids) ∨
    ∃ sub, node.tree = some sub ∧ Closure codec plain sub x

theorem closure_iff : Closure codec plain id x ↔
    x = id ∨ ∃ node, NodeOf codec plain id node ∧ NodeRefers codec plain node x := by
  constructor
  · intro h
    rcases h.cases_root with rfl | ⟨node, ids, hnode, hids, hx⟩ | ⟨node, sub, hnode, hsub, hx⟩
    · exact Or.inl rfl
    · exact Or.inr ⟨node, hnode, Or.inl ⟨ids, hids, hx⟩⟩
    · exact Or.inr ⟨node, hnode, Or.inr ⟨sub, hsub, hx⟩⟩
  · rintro (rfl | ⟨node, hnode, ⟨ids, hids, hx⟩ | ⟨sub, hsub, hx⟩⟩)
    · exact .tree .root
    · exact .blob .root hnode hids hx
    · have hbelow : TreeOf codec plain id sub := .sub .root hnode hsub
      cases hx with
      | tree ht => exact .tree (hbelow.trans ht)
      | blob ht hnode' hids hx => exact .blob (hbelow.trans ht) hnode' hids hx

/-- What is loaded is what the bytes of the tree say. -/
def LoadsNodes (load : ID → Except StreamError (List Node)) (codec : TreeCodec)
    (plain : ID → Bytes) : Prop :=
  ∀ t nodes, load t = .ok nodes → ∀ node, NodeOf codec plain t node ↔ node ∈ nodes

/-- **The items of a stored tree refer to what its closure has.** -/
theorem LoadableTree.exists_walk (hloads : LoadsNodes load codec plain) (h : LoadableTree load id)
    (base : Path) :
    ∃ nodes items, load id = .ok nodes ∧ WalkOf load base nodes items ∧
      ∀ x, (∃ i ∈ items, i.2.node.tree = some x ∨ x ∈ i.2.node.fileBlobs) ↔
        ∃ node ∈ nodes, NodeRefers codec plain node x := by
  induction h generalizing base with
  | @mk id nodes hload hfiles hsub ih =>
    have hlevel : ∀ rest : List Node, (∀ node ∈ rest, node ∈ nodes) →
        ∃ items, WalkOf load base rest items ∧
          ∀ x, (∃ i ∈ items, i.2.node.tree = some x ∨ x ∈ i.2.node.fileBlobs) ↔
            ∃ node ∈ rest, NodeRefers codec plain node x := by
      intro rest
      induction rest with
      | nil => exact fun _ => ⟨[], .nil, by simp⟩
      | cons node rest ihrest =>
        intro hmem
        have hnode := hmem node List.mem_cons_self
        obtain ⟨items, hitems, hrefs⟩ := ihrest fun n hn => hmem n (List.mem_cons_of_mem _ hn)
        -- only a file has blobs
        have hblobs : ∀ x, x ∈ node.fileBlobs ↔ ∃ ids, node.blobs = some ids ∧ x ∈ ids := by
          intro x
          unfold Node.fileBlobs
          split
          · cases node.blobs <;> simp
          · rename_i hfile
            simp [hfiles node hnode (Bool.eq_false_iff.mpr hfile)]
        cases htree : node.tree with
        | none =>
          refine ⟨_, .leaf htree hitems, fun x => ?_⟩
          simp only [List.exists_mem_cons_iff, hrefs, NodeRefers, hblobs, htree]
          simp
        | some sub =>
          obtain ⟨subNodes, below, hsubload, hbelow, hsubrefs⟩ :=
            ih node hnode sub htree (joinName base node.nameBytes)
          refine ⟨_, .dir htree hsubload hbelow hitems, fun x => ?_⟩
          have hclosure : Closure codec plain sub x ↔
              x = sub ∨ ∃ n ∈ subNodes, NodeRefers codec plain n x := by
            rw [closure_iff]
            simp only [hloads sub subNodes hsubload]
          simp only [List.exists_mem_cons_iff, List.mem_append, or_and_right, exists_or, hrefs,
            hsubrefs]
          simp only [NodeRefers, hblobs, htree, Option.some.injEq, exists_eq_left', hclosure]
          constructor
          · rintro ((rfl | hx) | hx | hx)
            · exact Or.inl (Or.inr (Or.inl rfl))
            · exact Or.inl (Or.inl hx)
            · exact Or.inl (Or.inr (Or.inr hx))
            · exact Or.inr hx
          · rintro ((hx | rfl | hx) | hx)
            · exact Or.inl (Or.inr hx)
            · exact Or.inl (Or.inl rfl)
            · exact Or.inr (Or.inl hx)
            · exact Or.inr (Or.inr hx)
    obtain ⟨items, hitems, hrefs⟩ := hlevel nodes fun node hnode => hnode
    exact ⟨nodes, items, hload, hitems, hrefs⟩

/-- Every item of a stored tree is a node of one of its trees. -/
theorem WalkOf.nodeOf {base : Path} {nodes : List Node} {items : List (Path × StreamNode)}
    (hloads : LoadsNodes load codec plain) (h : WalkOf load base nodes items)
    (hnodes : ∀ node ∈ nodes, ∃ t, TreeOf codec plain root t ∧ NodeOf codec plain t node) :
    ∀ i ∈ items, ∃ t, TreeOf codec plain root t ∧ NodeOf codec plain t i.2.node := by
  induction h with
  | nil => simp
  | leaf htree hrest ih =>
    intro i hi
    rcases List.mem_cons.mp hi with rfl | hi
    · exact hnodes _ List.mem_cons_self
    · exact ih (fun n hn => hnodes n (List.mem_cons_of_mem _ hn)) i hi
  | dir htree hload hbelow hrest ihbelow ih =>
    intro i hi
    obtain ⟨t, ht, hnode⟩ := hnodes _ List.mem_cons_self
    rcases List.mem_cons.mp hi with rfl | hi
    · exact ⟨t, ht, hnode⟩
    · rcases List.mem_append.mp hi with hi | hi
      · exact ihbelow (fun n hn => ⟨_, .sub ht hnode htree, (hloads _ _ hload n).mpr hn⟩) i hi
      · exact ih (fun n hn => hnodes n (List.mem_cons_of_mem _ hn)) i hi

end Trees

/-! ## The snapshots -/

section Snapshots

variable {env : IndexEnv} {mi : MasterIndex} {load : ID → Except StreamError (List Node)}
  {codec : TreeCodec} {plain : ID → Bytes} {isTree isData : ID → Prop} {t : ID}

/-- What a tree and the trees below it may be counted as. -/
structure CountsAs (codec : TreeCodec) (plain : ID → Bytes) (isTree isData : ID → Prop) (root : ID) :
    Prop where
  trees : ∀ t, TreeOf codec plain root t → isTree t
  data : ∀ t node, TreeOf codec plain root t → NodeOf codec plain t node →
    ∀ id ∈ node.fileBlobs, isData id

variable (env mi) in
/-- **One snapshot**: its closure is visited and its size is added. -/
theorem analyzeSnapshot_spec (hloads : LoadsNodes load codec plain) (htree : LoadableTree load t)
    (hcounts : CountsAs codec plain isTree isData t) :
    ∃ fuel₀, ∀ (s : Stats) (size : Nat), s.Inv env mi isTree isData →
      ∃ s', (∀ fuel, fuel₀ ≤ fuel → analyzeSnapshot env mi load fuel s (t, size) = some s') ∧
        s'.Inv env mi isTree isData ∧
        (∀ x, x ∈ s'.visitedBlobs ↔ x ∈ s.visitedBlobs ∨ Closure codec plain t x) ∧
        s'.analysis.totalRestorableBytes =
          saturatingAdd s.analysis.totalRestorableBytes size := by
  obtain ⟨nodes, items, hload, hwalk, hrefs⟩ := htree.exists_walk hloads []
  have hyields := hwalk.yields (.done rfl : Yields (SerializedNodeStream.next load .all) [] [])
  rw [List.append_nil, List.append_nil] at hyields
  have hnodes : ∀ i ∈ items, ∃ t', TreeOf codec plain t t' ∧ NodeOf codec plain t' i.2.node :=
    hwalk.nodeOf hloads fun node hnode => ⟨t, .root, (hloads t nodes hload node).mpr hnode⟩
  refine ⟨items.length + 1, fun s size hinv =>
    ⟨((s.addSize size).count env mi .addTree t).countItems env mi items, fun fuel hfuel => ?_, ?_,
      fun x => ?_, ?_⟩⟩
  · rw [analyzeSnapshot, SerializedNodeStream.new]
    dsimp only
    rw [hload]
    exact analyzeNodes_eq hyields (Nat.lt_of_succ_le hfuel)
  · refine Stats.Inv.countItems (Stats.Inv.countTree (hinv.addSize size) (hcounts.trees t .root)) ?_ ?_
    · intro i hi sub hsub
      obtain ⟨t', ht', hnode⟩ := hnodes i hi
      exact hcounts.trees sub (.sub ht' hnode hsub)
    · intro i hi id hid
      obtain ⟨t', ht', hnode⟩ := hnodes i hi
      exact hcounts.data t' i.2.node ht' hnode id hid
  · rw [mem_visitedBlobs_countItems, Stats.visitedBlobs_count, Finset.mem_insert, hrefs, closure_iff]
    simp only [hloads t nodes hload]
    rw [or_comm (a := x = t), or_assoc]
    exact Iff.rfl
  · rw [restorable_countItems, Stats.restorable_countTree]
    rfl

variable (env mi) in
/-- **The loop over the snapshots.** -/
theorem foldlM_analyzeSnapshot_spec (hloads : LoadsNodes load codec plain)
    {snapshots : List (ID × Nat)} (htrees : ∀ e ∈ snapshots, LoadableTree load e.1)
    (hcounts : ∀ e ∈ snapshots, CountsAs codec plain isTree isData e.1) :
    ∃ fuel₀, ∀ (s : Stats) (r : Nat), s.Inv env mi isTree isData →
      s.analysis.totalRestorableBytes = min r u64Max →
      ∃ s', (∀ fuel, fuel₀ ≤ fuel →
          snapshots.foldlM (analyzeSnapshot env mi load fuel) s = some s') ∧
        s'.Inv env mi isTree isData ∧
        (∀ x, x ∈ s'.visitedBlobs ↔
          x ∈ s.visitedBlobs ∨ ∃ e ∈ snapshots, Closure codec plain e.1 x) ∧
        s'.analysis.totalRestorableBytes = min (r + (snapshots.map Prod.snd).sum) u64Max := by
  induction snapshots with
  | nil => exact ⟨0, fun s r hinv hr => ⟨s, fun _ _ => rfl, hinv, by simp, by simpa using hr⟩⟩
  | cons e snapshots ih =>
    obtain ⟨fuel₁, hfirst⟩ := analyzeSnapshot_spec env mi hloads
      (htrees e List.mem_cons_self) (hcounts e List.mem_cons_self)
    obtain ⟨fuel₂, hrest⟩ := ih (fun e' he => htrees e' (List.mem_cons_of_mem _ he))
      fun e' he => hcounts e' (List.mem_cons_of_mem _ he)
    refine ⟨max fuel₁ fuel₂, fun s r hinv hr => ?_⟩
    obtain ⟨s₁, hrun₁, hinv₁, hvisited₁, hr₁⟩ := hfirst s e.2 hinv
    rw [hr, saturatingAdd_min] at hr₁
    obtain ⟨s₂, hrun₂, hinv₂, hvisited₂, hr₂⟩ := hrest s₁ _ hinv₁ hr₁
    refine ⟨s₂, fun fuel hfuel => ?_, hinv₂, fun x => ?_, ?_⟩
    · rw [List.foldlM_cons, Option.bind_eq_bind]
      exact Option.bind_eq_some_iff.mpr ⟨s₁, hrun₁ fuel ((le_max_left _ _).trans hfuel),
        hrun₂ fuel ((le_max_right _ _).trans hfuel)⟩
    · rw [hvisited₂, hvisited₁]
      simp [or_assoc]
    · rw [hr₂, List.map_cons, List.sum_cons, Nat.add_assoc]

end Snapshots

/-- `Tree::load_from_repo`, as the streams use it. -/
def loadFromRepo (env : Env) (codec : TreeCodec) (b : Backend) (mi : MasterIndex)
    (failure : ID → StreamError) (t : ID) : Except StreamError (List Node) :=
  match loadTree env codec b mi t with
  | some nodes => .ok nodes
  | none => .error (failure t)

theorem loadsNodes_loadFromRepo (env : Env) (codec : TreeCodec) (b : Backend) (mi : MasterIndex)
    (failure : ID → StreamError) :
    LoadsNodes (loadFromRepo env codec b mi failure) codec (Mark.contents env b mi) := by
  intro t nodes h node
  unfold loadFromRepo at h
  cases hload : loadTree env codec b mi t with
  | none =>
    rw [hload] at h
    cases h
  | some nodes' =>
    rw [hload] at h
    cases h
    obtain ⟨bytes, hbytes, hnodes⟩ := Option.bind_eq_some_iff.mp hload
    have hcontents : Mark.contents env b mi t = bytes := by simp [Mark.contents, hbytes]
    simp [NodeOf, hcontents, hnodes]

/-- The blob is one of a file of a snapshot. -/
def Backend.LiveData (codec : TreeCodec) (plain : ID → Bytes) (b : Backend) (id : ID) : Prop :=
  ∃ sid snap t node, b.snapshots.lookup sid = some snap ∧ TreeOf codec plain snap.tree t ∧
    NodeOf codec plain t node ∧ id ∈ node.fileBlobs

/-- **The statistics agree with the garbage collector.** For every repository whose snapshots can be
read, in whatever order the snapshots are listed, the analysis comes to its end; and if a scan of the
collector comes to its end as well, on whatever schedule, the figures are the sums over exactly the
blobs that the scan found to be referenced and that are in the index, each counted once: as a tree or
as a blob of a file, which together make up the totals. -/
theorem stats_agree_with_gc (env : Env) (codec : TreeCodec) (limits : GcLimits) (b : Backend)
    (mi : MasterIndex) (failure : ID → StreamError) (size : ID → Nat)
    (snapshots : List (ID × Snapshot)) (hsnapshots : snapshots.Perm (Table.toList b.snapshots))
    (htrees : ∀ e ∈ snapshots, LoadableTree (loadFromRepo env codec b mi failure) e.2.tree) :
    ∃ (a : SnapshotAnalysis) (fuel₀ : Nat),
      (∀ fuel, fuel₀ ≤ fuel →
        analyzeSnapshots env.toIndexEnv mi (loadFromRepo env codec b mi failure) fuel
          (snapshots.map fun e => (e.2.tree, size e.1)) = some a) ∧
      a.totalRestorableBytes = min (snapshots.map fun e => size e.1).sum u64Max ∧
      a.totalRawDataSize =
        saturatingAdd a.totalRawDataSizeTree a.totalRawDataSizeData ∧
      a.totalEncodedDataSize =
        saturatingAdd a.totalEncodedDataSizeTree a.totalEncodedDataSizeData ∧
      a.numReferencedBlobs = saturatingAdd a.numReferencedTreeBlobs a.numReferencedDataBlobs ∧
      ∀ plan, Scan env codec limits b mi plan → ∃ trees data : Finset ID,
        Stats.Sums env.toIndexEnv mi ⟨a, plan.referencedBlobs⟩ trees data ∧
        (∀ t ∈ trees, Mark.LiveTree codec (Mark.contents env b mi) b t) ∧
        ∀ id ∈ data, b.LiveData codec (Mark.contents env b mi) id := by
  have hloads := loadsNodes_loadFromRepo env codec b mi failure
  have hlookup : ∀ e ∈ snapshots, b.snapshots.lookup e.1 = some e.2 := fun e he =>
    Table.mem_toList.mp (hsnapshots.mem_iff.mp he)
  have hload : ∀ r ∈ snapshots.map fun e => (e.2.tree, size e.1),
      LoadableTree (loadFromRepo env codec b mi failure) r.1 := by
    intro r hr
    obtain ⟨e, he, rfl⟩ := List.mem_map.mp hr
    exact htrees e he
  have hcounts : ∀ r ∈ snapshots.map fun e => (e.2.tree, size e.1),
      CountsAs codec (Mark.contents env b mi) (Mark.LiveTree codec (Mark.contents env b mi) b)
        (b.LiveData codec (Mark.contents env b mi)) r.1 := by
    intro r hr
    obtain ⟨e, he, rfl⟩ := List.mem_map.mp hr
    exact ⟨fun t ht => ⟨e.1, e.2, hlookup e he, ht⟩, fun t node ht hnode id hid =>
      ⟨e.1, e.2, t, node, hlookup e he, ht, hnode, hid⟩⟩
  obtain ⟨fuel₀, hrun⟩ := foldlM_analyzeSnapshot_spec env.toIndexEnv mi hloads hload hcounts
  obtain ⟨s, hs, ⟨trees, data, hsums, htrees', hdata⟩, hvisited, hsize⟩ := hrun {} 0 .start rfl
  refine ⟨s.analysis, fuel₀, fun fuel hfuel => ?_, ?_, ?_, ?_, ?_, fun plan hplan => ?_⟩
  · rw [analyzeSnapshots, hs fuel hfuel]
    rfl
  · rw [hsize, Nat.zero_add, List.map_map]
    rfl
  · rw [hsums.raw, hsums.rawTree, hsums.rawData, saturatingAdd_clampSum_union hsums.disjoint]
  · rw [hsums.encoded, hsums.encodedTree, hsums.encodedData,
      saturatingAdd_clampSum_union hsums.disjoint]
  · rw [hsums.blobs, hsums.treeBlobs, hsums.dataBlobs, saturatingAdd_clampSum_union hsums.disjoint]
  · refine ⟨trees, data, { hsums with counted := ?_ }, htrees', hdata⟩
    -- both have the closures of the snapshots
    obtain ⟨ls, m, hmark, hdone, rfl⟩ := hplan
    have hexact : ∀ id, id ∈ m.referencedBlobs ↔ b.Live codec (Mark.contents env b mi) id :=
      (Mark.exact (fun t bytes hbytes => by simp [Mark.contents, hbytes]) hmark hdone).1
    have hsame : s.visitedBlobs = m.referencedBlobs := by
      ext x
      rw [hvisited, hexact]
      constructor
      · rintro (hx | ⟨r, hr, hx⟩)
        · cases hx
        · obtain ⟨e, he, rfl⟩ := List.mem_map.mp hr
          exact ⟨e.1, e.2, hlookup e he, hx⟩
      · rintro ⟨sid, snap, hsnap, hx⟩
        have he : (sid, snap) ∈ snapshots := hsnapshots.mem_iff.mpr (Table.mem_toList.mpr hsnap)
        exact Or.inr ⟨_, List.mem_map_of_mem he, hx⟩
    rw [hsums.counted, hsame]
    rfl

open Gc (gcNode gcCodec gcLimits gcIndex gcPlan orphanBackend scan_orphanBackend)

/-- The statistics of a repository with one snapshot of seven bytes, whose one file has one blob. -/
theorem stats_agree_with_gc_oneSnapshot : ∃ (a : SnapshotAnalysis) (fuel : Nat),
    analyzeSnapshots sampleEnv.toIndexEnv (gcIndex orphanBackend)
      (loadFromRepo sampleEnv gcCodec orphanBackend (gcIndex orphanBackend) fun _ => .other "")
      fuel [(1, 7)] = some a ∧
    a.totalRestorableBytes = 7 ∧
    ∃ trees data : Finset ID, Stats.Sums sampleEnv.toIndexEnv (gcIndex orphanBackend)
      ⟨a, (gcPlan orphanBackend).referencedBlobs⟩ trees data := by
  have htree : loadTree sampleEnv gcCodec orphanBackend (gcIndex orphanBackend) 1 = some [gcNode] := by
    decide
  have hload : loadFromRepo sampleEnv gcCodec orphanBackend (gcIndex orphanBackend)
      (fun _ => .other "") 1 = .ok [gcNode] := by
    rw [loadFromRepo, htree]
  obtain ⟨a, fuel₀, hrun, hsize, -, -, -, hsums⟩ := stats_agree_with_gc sampleEnv gcCodec gcLimits
    orphanBackend (gcIndex orphanBackend) (fun _ => .other "") (fun _ => 7) [(50, ⟨1⟩)] (.refl _) (by
      intro e he
      rw [List.mem_singleton.mp he]
      refine .mk hload ?_ ?_
      · intro node hnode hfile
        rw [List.mem_singleton.mp hnode] at hfile
        cases hfile
      · intro node hnode sub hsub
        rw [List.mem_singleton.mp hnode] at hsub
        cases hsub)
  obtain ⟨trees, data, h, -⟩ := hsums _ scan_orphanBackend.2
  exact ⟨a, fuel₀, hrun fuel₀ le_rfl, hsize, trees, data, h⟩

end Mapache
