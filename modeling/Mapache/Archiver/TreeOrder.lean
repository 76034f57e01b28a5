import Mapache.Archiver.SerializerRun

/-!
# The tree does not depend on the order of the items

The tree serializer fed with the items of a consistent stream in any order. It arrives at the tree
that the stream describes (`serialize_eq`), except that an intermediate directory whose item comes
after everything below it (`Late`) is finished before its item arrives and gets a synthetic node.
`serialize_represents_iff` says exactly when the stored tree is the right one.
-/

set_option autoImplicit false

namespace Mapache

open Lib

namespace SourceStream

variable (S : SourceStream) (env : TreeEnv) (own : Path → Node)

/-! ## Late directories -/

/-- The item of an intermediate directory comes after every item that the directory waits for. -/
def Late (order : List (Path × StreamNode)) (path : Path) : Prop :=
  S.Pre path ∧ ∀ before item after, order = before ++ item :: after → item.1 = path →
    ∀ j ∈ after, path <+: j.1 → S.Pre j.1

/-- The node that the stream has for a path. -/
def ownNode (path : Path) : Node := (arrivedNode S.items path).getD (synthetic path)

open Classical in
/-- The node that a path gets when the items arrive in the given order. -/
noncomputable def ownIn (order : List (Path × StreamNode)) (path : Path) : Node :=
  if S.Late order path then synthetic path else S.ownNode path

section Late

variable {S} {arrived rest order : List (Path × StreamNode)} {i : Path × StreamNode} {path : Path}

theorem arrivedNode_of_mem (hsub : ∀ i ∈ arrived, i ∈ S.items) (hi : i ∈ arrived) :
    arrivedNode arrived i.1 = some i.2.node := by
  unfold arrivedNode
  cases hfind : arrived.find? fun j => j.1 = i.1 with
  | none => exact absurd (decide_eq_true rfl) (List.find?_eq_none.mp hfind i hi)
  | some j =>
    have hfound := List.find?_some hfind
    have hj := List.mem_of_find?_eq_some hfind
    rw [Option.map_some, eq_of_path_eq (hsub j hj) (hsub i hi) (of_decide_eq_true hfound)]

theorem arrivedNode_eq_none (h : ∀ i ∈ arrived, i.1 ≠ path) : arrivedNode arrived path = none := by
  unfold arrivedNode
  rw [List.find?_eq_none.mpr fun i hi => by simpa using h i hi]
  rfl

theorem ownNode_of_mem (hi : i ∈ S.items) : S.ownNode i.1 = i.2.node := by
  rw [ownNode, arrivedNode_of_mem (fun _ h => h) hi, Option.getD_some]

theorem named_ownIn : S.Named (S.ownIn order) := by
  intro path hpath name hname
  have hsynthetic : (synthetic path).name = toStringLossy name := by
    rw [synthetic, hname]
    rfl
  unfold ownIn
  split
  · exact hsynthetic
  · rcases mem_nodes.mp hpath with ⟨i, hi, rfl⟩ | hpre
    · rw [ownNode_of_mem hi]
      exact S.named i hi name hname
    · by_cases hitem : ∃ i ∈ S.items, i.1 = path
      · obtain ⟨i, hi, rfl⟩ := hitem
        rw [ownNode_of_mem hi]
        exact S.named i hi name hname
      · push Not at hitem
        rw [ownNode, arrivedNode_eq_none hitem, Option.getD_none]
        exact hsynthetic

/-- **The node of a directory that an item completes**: its own, unless its item is late. -/
theorem arrivedNode_eq_ownIn (horder : order = arrived.reverse ++ i :: rest)
    (hperm : order.Perm S.items) (hle : path <+: i.1) (hpre : ¬ S.Pre i.1) (hdir : S.Dir path)
    (hroot : path ≠ S.root) (hdone : S.Done (i :: arrived) path) :
    (arrivedNode (i :: arrived) path).getD (synthetic path) = S.ownIn order path := by
  have hnodup : order.Nodup := hperm.nodup_iff.mpr (List.Nodup.of_map _ S.nodup)
  have hsub : ∀ j ∈ i :: arrived, j ∈ S.items := fun j hj => hperm.mem_iff.mp (by
    rw [horder]
    simp only [List.mem_append, List.mem_reverse, List.mem_cons] at hj ⊢
    tauto)
  by_cases hmem : ∃ j ∈ i :: arrived, j.1 = path
  · -- the directory has arrived, and something below it comes now
    obtain ⟨j, hj, rfl⟩ := hmem
    have hlate : ¬ S.Late order j.1 := by
      rintro ⟨hjpre, hlate⟩
      have hne : j ≠ i := fun heq => hpre (heq ▸ hjpre)
      obtain ⟨l₁, l₂, rfl⟩ := List.append_of_mem ((List.mem_cons.mp hj).resolve_left hne)
      refine hpre (hlate l₂.reverse j (l₁.reverse ++ i :: rest) ?_ rfl i (by simp) hle)
      rw [horder]
      simp
    rw [arrivedNode_of_mem hsub hj, Option.getD_some, ownIn, if_neg hlate, ownNode_of_mem (hsub j hj)]
  · push Not at hmem
    rw [arrivedNode_eq_none hmem, Option.getD_none, ownIn]
    split
    · rfl
    · rename_i hlate
      by_cases hitem : ∃ j ∈ S.items, j.1 = path
      · -- an item that nobody waits for, or it would have arrived
        obtain ⟨k, hk, hkpath⟩ := hitem
        have hkpre : S.Pre path := by
          by_contra hkpre
          exact hmem k (hdone k hk (hkpath ▸ List.prefix_refl _) (hkpath ▸ hkpre)) hkpath
        refine absurd ⟨hkpre, fun before item after hsplit hitem j hj hjle => ?_⟩ hlate
        by_contra hjpre
        have hjmem := hdone j (hperm.mem_iff.mp (hsplit ▸ by simp [hj])) hjle hjpre
        -- what has arrived comes before the late item
        have hitemnot : item ∉ i :: arrived := fun hin => hmem item hin hitem
        have hsplit' : (i :: arrived).reverse ++ rest = before ++ item :: after := by
          rw [← hsplit, horder]
          simp
        rcases List.append_eq_append_iff.mp hsplit' with ⟨mid, hbefore, hrest⟩ | ⟨mid, harr, hafter⟩
        · have hdisj := List.disjoint_of_nodup_append (hsplit' ▸ hsplit ▸ hnodup)
          refine hdisj (List.mem_reverse.mpr hjmem) ?_
          rw [hrest]
          simp [hj]
        · cases mid with
          | nil =>
            have hdisj := List.disjoint_of_nodup_append (hsplit' ▸ hsplit ▸ hnodup)
            refine hdisj (List.mem_reverse.mpr hjmem) ?_
            rw [List.nil_append] at hafter
            rw [← hafter]
            simp [hj]
          | cons x mid =>
            obtain ⟨rfl, -⟩ := List.cons.inj hafter
            refine hitemnot (List.mem_reverse.mp ?_)
            rw [harr]
            simp
      · push Not at hitem
        rw [ownNode, arrivedNode_eq_none hitem, Option.getD_none]

end Late

/-! ## One item -/

section Handle

variable {S env} {arrived rest order : List (Path × StreamNode)} {i : Path × StreamNode}
  {path dir : Path}
  {ts : TreeSerializer}

theorem expected_cons_of_ne (hne : dir ≠ i.1) :
    S.expected (i :: arrived) dir = S.expected arrived dir := by
  have hiff : S.Known (i :: arrived) dir ↔ S.Known arrived dir := by
    unfold Known
    simp only [List.exists_mem_cons_iff]
    tauto
  classical
  exact if_congr hiff rfl rfl

theorem arrivedNode_cons_of_ne (hne : dir ≠ i.1) :
    arrivedNode (i :: arrived) dir = arrivedNode arrived dir := by
  unfold arrivedNode
  rw [List.find?_cons_of_neg (by simpa using hne.symm)]

theorem expected_cons_self : S.expected (i :: arrived) i.1 = .known (S.children i.1).length :=
  if_pos (Or.inr (Or.inr ⟨i, List.mem_cons_self, rfl⟩))

theorem not_dir_of_leaf (hi : i ∈ S.items) (hleaf : i.2.node.isDir = false) : ¬ S.Dir i.1 := by
  rintro (hroot | hpre | ⟨j, hj, hpath, hdir⟩)
  · exact (root_lt_item hi).2 hroot.symm
  · rw [isDir_of_pre hi hpre] at hleaf
    cases hleaf
  · rw [eq_of_path_eq hj hi hpath, hleaf] at hdir
    cases hdir

/-- The outcome of an item: everything that it completes is finished, or a tree cannot be
serialized. -/
def Outcome (S : SourceStream) (env : TreeEnv) (own : Path → Node) (arrived : List (Path × StreamNode))
    (r : Option TreeSerializer) : Prop :=
  (∃ ts', r = some ts' ∧ S.Inv env own arrived (S.Done arrived) ts') ∨
    (r = none ∧ ∃ d, S.Dir d ∧ ¬ S.Serializes env own d)

section Item

variable (horder : order = arrived.reverse ++ i :: rest) (hperm : order.Perm S.items)
  (hnames : S.NamesDistinct)
  (h : S.Inv env (S.ownIn order) arrived (S.Done arrived) ts)

include horder hperm in
theorem item_facts : i ∈ S.items ∧ i ∉ arrived ∧ ∀ j ∈ i :: arrived, j ∈ S.items := by
  have hnodup : order.Nodup := hperm.nodup_iff.mpr (List.Nodup.of_map _ S.nodup)
  have hmem : ∀ j ∈ i :: arrived, j ∈ order := by
    intro j hj
    rw [horder]
    simp only [List.mem_append, List.mem_reverse, List.mem_cons] at hj ⊢
    tauto
  refine ⟨hperm.mem_iff.mp (hmem i List.mem_cons_self), fun harr => ?_,
    fun j hj => hperm.mem_iff.mp (hmem j hj)⟩
  rw [horder] at hnodup
  exact List.disjoint_of_nodup_append hnodup (List.mem_reverse.mpr harr) List.mem_cons_self

include horder hperm hnames h in
/-- An item that is no directory. -/
theorem handle_leaf (hleaf : i.2.node.isDir = false) :
    S.Outcome env (S.ownIn order) (i :: arrived) (ts.handle env i) := by
  obtain ⟨hi, hnew, hsub⟩ := item_facts horder hperm
  have hnotdir := not_dir_of_leaf hi hleaf
  have hmem : i.1 ∈ S.nodes := mem_nodes.mpr (Or.inl ⟨i, hi, rfl⟩)
  have hpre : ¬ S.Pre i.1 := fun hpre => hnotdir (Or.inr (Or.inl hpre))
  have hlt := StrictPrefix.dropLast (root_lt hmem).ne_nil
  have hparent : extractParent i.1 = some i.1.dropLast := by
    rcases (S.absolute i hi).cases_last with hslash | ⟨name, hname, -⟩
    · rw [S.slash i hi hslash] at hleaf
      cases hleaf
    · rw [hname, extractParent_append, List.dropLast_concat]
  have hfinal : S.final env (S.ownIn order) i.1 = i.2.node := by
    rw [final, if_neg hnotdir, ownIn, if_neg fun hlate => hpre hlate.1, ownNode_of_mem hi]
  have hhandle : ts.handle env i = TreeSerializer.finalizeIfComplete env (i.1.dropLast.length + 1)
      (ts.insertFinalizedNode i.1.dropLast (S.final env (S.ownIn order) i.1)) i.1.dropLast := by
    rw [TreeSerializer.handle, TreeSerializer.handleProcessedItem, hleaf, hparent, hfinal]
    rfl
  -- the entries of the directories do not notice the item
  have hinv : S.Inv env (S.ownIn order) (i :: arrived) (S.Done arrived) ts := by
    refine { h with pending := fun dir hdir hnot => ?_ }
    have hne : dir ≠ i.1 := fun heq => hnotdir (heq ▸ hdir)
    rw [expected_cons_of_ne hne, arrivedNode_cons_of_ne hne]
    exact h.pending dir hdir hnot
  have hnot : ∀ {c : Path}, c <+: i.1 → ¬ S.Done arrived c := fun hc =>
    not_done_of_not_mem hi hpre hnew hc
  rw [hhandle]
  refine Inv.finalizeIfComplete hnames named_ownIn hsub _ (Nat.lt_succ_self _) (dir_dropLast hmem)
    (fun d hd hdir hroot hdone =>
      arrivedNode_eq_ownIn horder hperm (hd.trans hlt.1) hpre hdir hroot hdone) ?_
  refine hinv.deliver ⟨rfl, rfl, fun _ _ => rfl⟩ hmem (hnot hlt.1) (hnot (List.prefix_refl _))
    (fun c => ?_) fun hdir => absurd hdir hnotdir
  constructor
  · rintro ⟨hdone, hle⟩
    by_cases hc : c <+: i.1
    · exact Or.inr (by_contra fun hne => hle (StrictPrefix.prefix_dropLast ⟨hc, hne⟩))
    · exact Or.inl ((done_cons_of_not_le hc).mp hdone)
  · rintro (hdone | rfl)
    · have hc : ¬ c <+: i.1 := fun hc => hnot hc hdone
      exact ⟨(done_cons_of_not_le hc).mpr hdone, fun hle => hc (hle.trans hlt.1)⟩
    · exact ⟨(done_leaf hi hleaf).mpr List.mem_cons_self, hlt.not_le_self⟩

include horder hperm hnames h in
/-- The item of a directory. -/
theorem handle_dir (hdir : i.2.node.isDir = true) :
    S.Outcome env (S.ownIn order) (i :: arrived) (ts.handle env i) := by
  obtain ⟨hi, hnew, hsub⟩ := item_facts horder hperm
  have hisdir : S.Dir i.1 := Or.inr (Or.inr ⟨i, hi, rfl, hdir⟩)
  have hroot : i.1 ≠ S.root := (root_lt_item hi).2.symm
  have hcount : i.2.numChildren = (S.children i.1).length := S.announced i hi hdir
  obtain ⟨tree, htree⟩ : ∃ tree : PendingTree, tree =
      ⟨.known (S.children i.1).length, some i.2.node, (ts.entry i.1).children⟩ := ⟨_, rfl⟩
  have hhandle : ts.handle env i = TreeSerializer.finalizeIfComplete env (i.1.length + 1)
      { ts with pendingTrees := ts.pendingTrees.insert i.1 tree } i.1 := by
    rw [TreeSerializer.handle, TreeSerializer.handleProcessedItem, if_pos hdir, hcount, htree]
  rw [hhandle]
  by_cases hdone : S.Done arrived i.1
  · -- the directory is finished already: its item waits in vain
    have hpre : S.Pre i.1 := by
      by_contra hpre
      exact not_done_of_not_mem hi hpre hnew (List.prefix_refl _) hdone
    have hchildren : (ts.entry i.1).children = [] := by
      rw [TreeSerializer.entry]
      cases hl : ts.pendingTrees.lookup i.1 with
      | none => rfl
      | some tree => exact (h.finished i.1 hisdir hdone tree hl).1
    have hwaits : tree.isPending = true := by
      rw [htree, PendingTree.isPending, hchildren]
      exact decide_eq_true (List.length_pos_iff.mpr hpre.children_ne_nil)
    refine Or.inl ⟨{ ts with pendingTrees := ts.pendingTrees.insert i.1 tree }, ?_, ?_⟩
    · rw [TreeSerializer.finalizeIfComplete, TreeSerializer.takeComplete]
      simp only [AList.lookup_insert, hwaits, if_true]
    · have hiff : ∀ c, S.Done arrived c ↔ S.Done (i :: arrived) c := fun c =>
        (done_cons_of_pre hpre).symm
      refine Inv.congr { h with pending := fun dir hd hnot => ?_, finished := ?_ } hiff
      · have hne : dir ≠ i.1 := fun heq => hnot (heq ▸ hdone)
        rw [TreeSerializer.entry_insert, if_neg hne, expected_cons_of_ne hne,
          arrivedNode_cons_of_ne hne]
        exact h.pending dir hd hnot
      · intro dir hd hdel tree' hl
        dsimp only at hl
        rw [Table.lookup_insert_eq_ite] at hl
        split at hl
        · cases hl
          exact ⟨by rw [htree]; exact hchildren, hwaits⟩
        · exact h.finished dir hd hdel tree' hl
  · -- the entry of the directory takes its node and the number of its children
    have hnot : ∀ {c : Path}, c <+: i.1 → ¬ S.Done arrived c := fun hc hd => hdone (hd.below hc)
    have hiff : ∀ c, S.Done arrived c ↔ S.Done (i :: arrived) c ∧ ¬ c <+: i.1 := by
      intro c
      constructor
      · intro hd
        have hc : ¬ c <+: i.1 := fun hc => hnot hc hd
        exact ⟨(done_cons_of_not_le hc).mpr hd, hc⟩
      · rintro ⟨hd, hc⟩
        exact (done_cons_of_not_le hc).mp hd
    refine Inv.finalizeIfComplete hnames named_ownIn hsub _ (Nat.lt_succ_self _) hisdir
      (fun d hd hdird hdroot hddone => ?_) (Inv.congr ?_ hiff)
    · by_cases hpre : S.Pre i.1
      · exact absurd ((done_cons_of_pre hpre).mp hddone) (hnot hd)
      · exact arrivedNode_eq_ownIn horder hperm hd hpre hdird hdroot hddone
    · refine { h with pending := fun dir hd hdnot => ?_, finished := fun dir hd hdel tree' hl => ?_ }
      · obtain ⟨children, hentry, hchildren⟩ := h.pending dir hd hdnot
        refine ⟨children, ?_, hchildren⟩
        rw [TreeSerializer.entry_insert]
        split
        · rename_i heq
          subst heq
          rw [htree, hentry, expected_cons_self, arrivedNode_of_mem hsub List.mem_cons_self]
        · rename_i hne
          rw [expected_cons_of_ne hne, arrivedNode_cons_of_ne hne]
          exact hentry
      · have hne : dir ≠ i.1 := fun heq => hdone (heq ▸ hdel)
        dsimp only at hl
        rw [Table.lookup_insert_eq_ite, if_neg hne] at hl
        exact h.finished dir hd hdel tree' hl

include horder hperm hnames h in
/-- **One item**, whatever it is. -/
theorem handle_spec : S.Outcome env (S.ownIn order) (i :: arrived) (ts.handle env i) := by
  cases hdir : i.2.node.isDir with
  | false => exact handle_leaf horder hperm hnames h hdir
  | true => exact handle_dir horder hperm hnames h hdir

end Item

end Handle

/-! ## All items -/

/-- The serializer of the stream, fed with its items in the given order. -/
def serialize (order : List (Path × StreamNode)) : Option (Option ID) :=
  TreeSerializer.serialize env (.new S.root (getIntermediatePaths S.root S.sources)) order

section Serialize

variable {S env own} {order : List (Path × StreamNode)} {path dir : Path}

/-- Every path waits for an item. -/
theorem not_done_nil (hpath : path ∈ S.nodes) : ¬ S.Done [] path := by
  have hneeded : ∃ i ∈ S.items, path <+: i.1 ∧ ¬ S.Pre i.1 := by
    by_cases hpre : S.Pre path
    · -- the source below it
      obtain ⟨-, src, hsrc, hlt⟩ := hpre
      obtain ⟨i, hi, rfl⟩ := List.mem_map.mp (S.emitted src hsrc)
      exact ⟨i, hi, hlt.1, fun hpre => hpre.not_le_self hsrc (List.prefix_refl _)⟩
    · obtain ⟨i, hi, rfl⟩ := (mem_nodes.mp hpath).resolve_right hpre
      exact ⟨i, hi, List.prefix_refl _, hpre⟩
  obtain ⟨i, hi, hle, hpre⟩ := hneeded
  exact not_done_of_not_mem hi hpre (List.not_mem_nil) hle

theorem Inv.new : S.Inv env own [] (fun c => S.Done [] c ∧ ¬ c <+: S.root)
    (.new S.root (getIntermediatePaths S.root S.sources)) := by
  classical
  have hnot : ∀ {dir}, S.Dir dir → ¬ (S.Done [] dir ∧ ¬ dir <+: S.root) := by
    rintro dir hdir ⟨hdone, hle⟩
    have hne : dir ≠ S.root := fun heq => hle (heq ▸ List.prefix_refl _)
    exact not_done_nil (hdir.mem_nodes hne) hdone
  refine ⟨rfl, fun dir hdir _ => ⟨[], ?_, ?_⟩, fun dir hdir hd => absurd hd (hnot hdir),
    fun dir hdir hd => absurd hd (hnot hdir), ?_⟩
  · rw [entry_new, expected]
    have hiff : dir = S.root ∨ S.Pre dir ↔ S.Known [] dir := by
      unfold Known
      simp
    rw [if_congr hiff rfl rfl]
    rfl
  · rw [delivery, List.filter_eq_nil_iff.mpr fun c hc => ?_]
    · exact .nil
    · simp [not_done_nil (mem_children.mp hc).1]
  · rw [if_neg fun hd => hd.2 (List.prefix_refl _)]
    rfl

/-- The items one after the other. -/
theorem foldlM_handle (hperm : order.Perm S.items) (hnames : S.NamesDistinct)
    {arrived rest : List (Path × StreamNode)} {ts : TreeSerializer}
    (horder : order = arrived.reverse ++ rest)
    (h : S.Inv env (S.ownIn order) arrived (S.Done arrived) ts) :
    S.Outcome env (S.ownIn order) (rest.reverse ++ arrived)
      (rest.foldlM (TreeSerializer.handle env) ts) := by
  induction rest generalizing arrived ts with
  | nil => exact Or.inl ⟨ts, rfl, h⟩
  | cons i rest ih =>
    rw [List.foldlM_cons]
    rcases handle_spec horder hperm hnames h with ⟨ts', hts', hinv⟩ | ⟨hnone, hser⟩
    · rw [hts', List.reverse_cons, List.append_assoc, List.singleton_append]
      refine ih ?_ hinv
      rw [horder, List.reverse_cons, List.append_assoc, List.singleton_append]
    · rw [hnone]
      exact Or.inr ⟨rfl, hser⟩

/-- **What the serializer arrives at**, in every order: the tree in which the late directories have
synthetic nodes, or an error because a tree cannot be serialized. -/
theorem serialize_eq (env : TreeEnv) (hperm : order.Perm S.items) (hnames : S.NamesDistinct) :
    (S.serialize env order = some (some (S.treeOf env (S.ownIn order) S.root)) ∧
      ∀ dir, S.Dir dir → S.Serializes env (S.ownIn order) dir) ∨
    (S.serialize env order = none ∧ ∃ dir, S.Dir dir ∧ ¬ S.Serializes env (S.ownIn order) dir) := by
  classical
  have hall : ∀ {arrived : List (Path × StreamNode)} {ts : TreeSerializer},
      (∀ i ∈ S.items, i ∈ arrived) → S.Inv env (S.ownIn order) arrived (S.Done arrived) ts →
      ts.rootTreeId = some (S.treeOf env (S.ownIn order) S.root) ∧
        ∀ dir, S.Dir dir → S.Serializes env (S.ownIn order) dir := by
    intro arrived ts hmem hinv
    have hdone : ∀ path, S.Done arrived path := fun path i hi _ _ => hmem i hi
    refine ⟨?_, fun dir hdir => hinv.serializes dir hdir (hdone dir)⟩
    rw [hinv.rootTreeId, if_pos (hdone S.root)]
  unfold serialize TreeSerializer.serialize
  cases hitems : S.items with
  | nil =>
    -- `finalize_root` finishes the empty root
    have hnil : order = [] := List.Perm.eq_nil (hitems ▸ hperm)
    subst hnil
    rcases Inv.finalizeIfComplete hnames named_ownIn (fun i hi => by cases hi) (S.root.length + 1)
      (Nat.lt_succ_self _) (Or.inl rfl)
      (fun d hd hdir hroot _ => absurd (hd.eq_of_length_le hdir.root_le.length_le) hroot) Inv.new
        with
      ⟨ts', hts', hinv⟩ | ⟨hnone, hser⟩
    · obtain ⟨hid, hsers⟩ := hall (fun i hi => by rw [hitems] at hi; cases hi) hinv
      refine Or.inl ⟨?_, hsers⟩
      rw [← hid]
      exact congrArg (Option.map TreeSerializer.rootTreeId) hts'
    · exact Or.inr ⟨congrArg (Option.map TreeSerializer.rootTreeId) hnone, hser⟩
  | cons i₀ items =>
    have hroot : ¬ S.Done [] S.root := by
      have hi₀ : i₀ ∈ S.items := by rw [hitems]; exact List.mem_cons_self
      exact fun hdone => not_done_nil (mem_nodes.mpr (Or.inl ⟨i₀, hi₀, rfl⟩))
        (hdone.below (root_lt_item hi₀).1)
    have hstart : S.Inv env (S.ownIn order) [] (S.Done [])
        (.new S.root (getIntermediatePaths S.root S.sources)) :=
      Inv.new.congr fun c => ⟨fun hd => hd.1, fun hd => ⟨hd, fun hle => hroot (hd.below hle)⟩⟩
    rcases foldlM_handle hperm hnames rfl hstart with ⟨ts, hts, hinv⟩ | ⟨hnone, hser⟩
    · have hmem : ∀ i ∈ S.items, i ∈ order.reverse ++ [] := fun i hi => by
        rw [List.append_nil, List.mem_reverse]
        exact hperm.mem_iff.mpr hi
      obtain ⟨hid, hsers⟩ := hall hmem hinv
      refine Or.inl ⟨?_, hsers⟩
      rw [hts]
      -- the root is finished
      have htake : ts.takeComplete S.root = none := by
        unfold TreeSerializer.takeComplete
        cases hl : ts.pendingTrees.lookup S.root with
        | none => rfl
        | some tree =>
          simp only [(hinv.finished S.root (Or.inl rfl) (fun i hi _ _ => hmem i hi) tree hl).2,
            if_true]
      simp only [hinv.root, TreeSerializer.finalizeIfComplete, htake, Option.map_some, hid]
    · rw [hnone]
      exact Or.inr ⟨rfl, hser⟩

end Serialize

/-! ## The tree that the stream describes -/

/-- The ID is that of a tree with the nodes of the directory: each child once, with increasing
names, a directory with its own node and the ID of its tree. -/
inductive Represents : Path → ID → Prop where
  | mk {dir : Path} {bytes : Bytes} (sub : Path → ID) (nodes : List Node) :
      (∀ c ∈ S.children dir, S.Dir c → Represents c (sub c)) →
      nodes.Perm ((S.children dir).map fun c =>
        if S.Dir c then { S.ownNode c with tree := some (sub c) } else S.ownNode c) →
      NamesIncrease nodes → env.codec.toVec nodes = some bytes → Represents dir (env.fromContent bytes)

section Represents

variable {S env} {order : List (Path × StreamNode)} {path dir : Path} {id : ID}

theorem named_ownNode : S.Named S.ownNode := by
  intro path hpath name hname
  by_cases hitem : ∃ i ∈ S.items, i.1 = path
  · obtain ⟨i, hi, rfl⟩ := hitem
    rw [ownNode_of_mem hi]
    exact S.named i hi name hname
  · push Not at hitem
    rw [ownNode, arrivedNode_eq_none hitem, Option.getD_none, synthetic, hname]
    rfl

/-- Every directory of a represented tree is represented. -/
theorem Represents.exists_dir (h : S.Represents env S.root id) (hdir : S.Dir dir) :
    ∃ id', S.Represents env dir id' := by
  -- by induction on the path, from the root down
  generalize hlen : dir.length = len
  induction len generalizing dir with
  | zero =>
    have hroot : dir = S.root := by
      rw [List.length_eq_zero_iff.mp hlen]
      have hle := hdir.root_le
      rw [List.length_eq_zero_iff.mp hlen] at hle
      exact (List.prefix_nil.mp hle).symm
    exact ⟨id, hroot ▸ h⟩
  | succ len ih =>
    by_cases hroot : dir = S.root
    · exact ⟨id, hroot ▸ h⟩
    · have hmem := hdir.mem_nodes hroot
      obtain ⟨id', hparent⟩ := ih (dir_dropLast hmem) (by rw [List.length_dropLast, hlen]; rfl)
      cases hparent with
      | mk sub nodes hsub hperm hinc hvec =>
        exact ⟨sub dir, hsub dir (mem_children.mpr ⟨hmem, rfl⟩) hdir⟩

/-- A represented tree has distinct names. -/
theorem Represents.namesDistinct (h : S.Represents env S.root id) : S.NamesDistinct := by
  intro dir hdir
  obtain ⟨id', hrep⟩ := h.exists_dir hdir
  cases hrep with
  | mk sub nodes hsub hperm hinc hvec =>
    have hnodup : (nodes.map Node.name).Nodup :=
      List.pairwise_map.mpr (hinc.imp fun hlt => ne_of_lt hlt)
    rw [(hperm.map Node.name).nodup_iff, List.map_map] at hnodup
    refine nodup_map_children fun p hp q hq name name' hpfile hqfile heq => ?_
    have hname : ∀ {c : Path} {name : Bytes}, c ∈ S.children dir → fileName c = some name →
        (Node.name ∘ fun c => if S.Dir c then { S.ownNode c with tree := some (sub c) }
          else S.ownNode c) c = toStringLossy (lastName c) := by
      intro c name hc hfile
      rw [Function.comp_apply, lastName_of_fileName hfile,
        ← named_ownNode c (mem_children.mp hc).1 name hfile]
      split <;> rfl
    rw [List.inj_on_of_nodup_map hnodup hp hq
      ((hname hp hpfile).trans (heq.trans (hname hq hqfile).symm))]

/-- The sorted nodes of a directory. -/
theorem sort_eq {nodes nodes' : List Node} (hperm : nodes.Perm nodes') (hinc : NamesIncrease nodes) :
    env.sort nodes' = nodes := by
  have hnodup : (nodes.map Node.name).Nodup :=
    List.pairwise_map.mpr (hinc.imp fun hlt => ne_of_lt hlt)
  refine ((env.perm nodes').trans hperm.symm).eq_of_pairwise ?_ (env.sorted nodes')
    (hinc.imp fun hlt => le_of_lt hlt)
  intro a b ha hb hab hba
  refine List.inj_on_of_nodup_map hnodup ?_ hb (le_antisymm hab hba)
  exact hperm.mem_iff.mpr ((env.perm nodes').mem_iff.mp ha)

/-- **The represented tree is unique**, and its trees can be serialized. -/
theorem Represents.eq_treeOf (h : S.Represents env dir id) (hdir : S.Dir dir) :
    id = S.treeOf env S.ownNode dir ∧ S.Serializes env S.ownNode dir := by
  induction h with
  | @mk dir bytes sub nodes hsub hperm hinc hvec ih =>
    have hmap : ((S.children dir).map fun c =>
        if S.Dir c then { S.ownNode c with tree := some (sub c) } else S.ownNode c) =
        (S.children dir).map (S.final env S.ownNode) := by
      refine List.map_congr_left fun c hc => ?_
      unfold final
      split
      · rename_i hcdir
        rw [(ih c hc hcdir hcdir).1]
      · rfl
    rw [hmap] at hperm
    have hsave : env.saveToStore ((S.children dir).map (S.final env S.ownNode)) =
        some (env.fromContent bytes) := by
      rw [TreeEnv.saveToStore, sort_eq hperm hinc, hvec]
      rfl
    constructor
    · rw [treeOf_eq hdir, hsave, Option.getD_some]
    · rw [Serializes, hsave]
      rfl

/-- The tree of the stream is represented by its ID. -/
theorem represents_treeOf (hnames : S.NamesDistinct)
    (hser : ∀ dir, S.Dir dir → S.Serializes env S.ownNode dir) (hdir : S.Dir dir) :
    S.Represents env dir (S.treeOf env S.ownNode dir) := by
  -- by induction on the height of the directory
  generalize hlen : S.height - dir.length = height
  induction height using Nat.strong_induction_on generalizing dir with
  | _ height ih =>
    have hsub : ∀ c ∈ S.children dir, S.Dir c → S.Represents env c (S.treeOf env S.ownNode c) := by
      intro c hc hcdir
      obtain ⟨hmem, hparent⟩ := mem_children.mp hc
      refine ih (S.height - c.length) ?_ hcdir rfl
      have hlt := (StrictPrefix.dropLast (root_lt hmem).ne_nil).length_lt
      rw [hparent] at hlt
      have hle := length_le_height hcdir
      omega
    obtain ⟨id, hid⟩ := Option.isSome_iff_exists.mp (hser dir hdir)
    obtain ⟨bytes, hvec, rfl⟩ := Option.map_eq_some_iff.mp hid
    rw [treeOf_eq hdir, hid, Option.getD_some]
    refine .mk (S.treeOf env S.ownNode) _ hsub (env.perm _) ?_ hvec
    have hnodup := nodup_final_name env hnames named_ownNode hdir
    rw [← ((env.perm _).map Node.name).nodup_iff] at hnodup
    exact ((env.sorted _).and (List.pairwise_map.mp hnodup)).imp fun hab =>
      lt_of_le_of_ne hab.1 hab.2

/-- Different trees of the stream have different hashes, also when some directories have synthetic
nodes. -/
def CollisionFree (S : SourceStream) (env : TreeEnv) (own own' : Path → Node) : Prop :=
  ∀ dir, S.Dir dir → ∀ bytes bytes',
    env.codec.toVec (env.sort ((S.children dir).map (S.final env own))) = some bytes →
    env.codec.toVec (env.sort ((S.children dir).map (S.final env own'))) = some bytes' →
    env.fromContent bytes = env.fromContent bytes' → bytes = bytes'

/-- Equal trees have equal nodes. -/
theorem final_eq_of_treeOf_eq {own own' : Path → Node} (hnames : S.NamesDistinct)
    (hnamed : S.Named own) (hnamed' : S.Named own') (hhash : S.CollisionFree env own own')
    (hser : S.Serializes env own dir) (hser' : S.Serializes env own' dir) (hdir : S.Dir dir)
    (h : S.treeOf env own dir = S.treeOf env own' dir) (hpath : path ∈ S.children dir) :
    S.final env own path = S.final env own' path := by
  obtain ⟨id, hid⟩ := Option.isSome_iff_exists.mp hser
  obtain ⟨id', hid'⟩ := Option.isSome_iff_exists.mp hser'
  obtain ⟨bytes, hvec, rfl⟩ := Option.map_eq_some_iff.mp hid
  obtain ⟨bytes', hvec', rfl⟩ := Option.map_eq_some_iff.mp hid'
  rw [treeOf_eq hdir, treeOf_eq hdir, hid, hid', Option.getD_some, Option.getD_some] at h
  -- the serialized lists are the same
  have hbytes := hhash dir hdir bytes bytes' hvec hvec' h
  have hlist : env.sort ((S.children dir).map (S.final env own)) =
      env.sort ((S.children dir).map (S.final env own')) := by
    have hread := env.codec.fromSlice_toVec _ _ hvec
    rw [hbytes, env.codec.fromSlice_toVec _ _ hvec'] at hread
    exact (Option.some.inj hread).symm
  have hmem : S.final env own path ∈ (S.children dir).map (S.final env own') := by
    rw [← (env.perm _).mem_iff, ← hlist, (env.perm _).mem_iff]
    exact List.mem_map_of_mem hpath
  obtain ⟨hnode, hparent⟩ := mem_children.mp hpath
  rcases (absolute_of_mem hnode).cases_last with hslash | ⟨name, hlast, -⟩
  · -- the root of the file system has no siblings
    obtain ⟨c, hc, heq⟩ := List.mem_map.mp hmem
    obtain ⟨hcmem, hcparent⟩ := mem_children.mp hc
    rcases (absolute_of_mem hcmem).cases_last with hcslash | ⟨-, -, hclen⟩
    · rw [← heq, hcslash, hslash]
    · have hlen := congrArg List.length (hcparent.trans hparent.symm)
      rw [hslash, List.length_dropLast, List.length_dropLast, List.length_singleton] at hlen
      omega
  · have hname : fileName path = some name := by rw [hlast, fileName_append]
    refine List.inj_on_of_nodup_map (nodup_final_name env hnames hnamed' hdir) hmem
      (List.mem_map_of_mem hpath) ?_
    rw [final_name hnamed hnode hname, final_name hnamed' hnode hname]

/-- The trees of the directories are open in the stream. -/
theorem tree_ownNode (hdir : S.Dir path) : (S.ownNode path).tree = none := by
  by_cases hitem : ∃ i ∈ S.items, i.1 = path
  · obtain ⟨i, hi, rfl⟩ := hitem
    have hisdir : i.2.node.isDir = true := by
      cases hisdir : i.2.node.isDir with
      | true => rfl
      | false => exact absurd hdir (not_dir_of_leaf hi hisdir)
    rw [ownNode_of_mem hi]
    exact S.bare i hi hisdir
  · push Not at hitem
    rw [ownNode, arrivedNode_eq_none hitem]
    rfl

theorem tree_ownIn (hdir : S.Dir path) : (S.ownIn order path).tree = none := by
  unfold ownIn
  split
  · rfl
  · exact tree_ownNode hdir

/-- Two nodes that are the same with their trees. -/
theorem eq_of_with_tree_eq {a b : Node} {t t' : ID} (ha : a.tree = none) (hb : b.tree = none)
    (h : ({ a with tree := some t } : Node) = { b with tree := some t' }) : a = b ∧ t = t' := by
  obtain ⟨name, nodeType, metadata, blobs, tree⟩ := a
  obtain ⟨name', nodeType', metadata', blobs', tree'⟩ := b
  cases ha
  cases hb
  cases h
  exact ⟨rfl, rfl⟩

/-- The trees with the nodes of an order and with the own nodes are the same only if the nodes are.
-/
theorem ownIn_eq_of_treeOf_eq (hnames : S.NamesDistinct)
    (hhash : S.CollisionFree env (S.ownIn order) S.ownNode)
    (hser : ∀ dir, S.Dir dir → S.Serializes env (S.ownIn order) dir)
    (hser' : ∀ dir, S.Dir dir → S.Serializes env S.ownNode dir)
    (h : S.treeOf env (S.ownIn order) S.root = S.treeOf env S.ownNode S.root) (hdir : S.Dir dir) :
    S.treeOf env (S.ownIn order) dir = S.treeOf env S.ownNode dir ∧
      (dir ≠ S.root → S.ownIn order dir = S.ownNode dir) := by
  -- by induction on the path, from the root down
  generalize hlen : dir.length = len
  induction len generalizing dir with
  | zero =>
    have hroot : dir = S.root := by
      have hle := hdir.root_le
      rw [List.length_eq_zero_iff.mp hlen] at hle ⊢
      exact (List.prefix_nil.mp hle).symm
    exact ⟨hroot ▸ h, fun hne => absurd hroot hne⟩
  | succ len ih =>
    by_cases hroot : dir = S.root
    · exact ⟨hroot ▸ h, fun hne => absurd hroot hne⟩
    · have hmem := hdir.mem_nodes hroot
      have hparent := dir_dropLast hmem
      have htree := (ih hparent (by rw [List.length_dropLast, hlen]; rfl)).1
      have hfinal := final_eq_of_treeOf_eq hnames named_ownIn named_ownNode hhash
        (hser _ hparent) (hser' _ hparent) hparent htree (mem_children.mpr ⟨hmem, rfl⟩)
      rw [final, final, if_pos hdir, if_pos hdir] at hfinal
      obtain ⟨hown, hid⟩ := eq_of_with_tree_eq (tree_ownIn hdir) (tree_ownNode hdir) hfinal
      exact ⟨hid, fun _ => hown⟩

end Represents

/-- **The stored tree and the order of the items.** For every consistent stream and every order of
its items, the serializer returns the ID of the tree that the stream describes, each item once and
each directory with its own node, if and only if the names in every directory are distinct after the
lossy conversion, the trees can be serialized, and no intermediate directory whose item comes after
everything below it has more to say than its name. This ID is the same for every order. -/
theorem serialize_represents_iff {S : SourceStream} {env : TreeEnv} {order : List (Path × StreamNode)}
    (hperm : order.Perm S.items) (hhash : S.CollisionFree env (S.ownIn order) S.ownNode) :
    ((∃ id, S.serialize env order = some (some id) ∧ S.Represents env S.root id) ↔
      S.NamesDistinct ∧ (∀ dir, S.Dir dir → S.Serializes env S.ownNode dir) ∧
        ∀ path, S.Late order path → S.ownNode path = synthetic path) ∧
    ∀ id id', S.Represents env S.root id → S.Represents env S.root id' → id = id' := by
  have hrootdir : S.Dir S.root := Or.inl rfl
  refine ⟨⟨?_, ?_⟩, fun id id' h h' => ?_⟩
  · rintro ⟨id, hid, hrep⟩
    have hnames := hrep.namesDistinct
    have hser' : ∀ dir, S.Dir dir → S.Serializes env S.ownNode dir := fun dir hdir => by
      obtain ⟨id', hrep'⟩ := hrep.exists_dir hdir
      exact (hrep'.eq_treeOf hdir).2
    refine ⟨hnames, hser', fun path hlate => ?_⟩
    rcases serialize_eq env hperm hnames with ⟨hok, hser⟩ | ⟨hnone, -⟩
    · -- the tree of this order is the tree of the stream
      rw [hid] at hok
      have htree : S.treeOf env (S.ownIn order) S.root = S.treeOf env S.ownNode S.root := by
        rw [← (hrep.eq_treeOf hrootdir).1]
        exact (Option.some.inj (Option.some.inj hok)).symm
      have hown := (ownIn_eq_of_treeOf_eq hnames hhash hser hser' htree
        (Or.inr (Or.inl hlate.1))).2 hlate.1.1.2.symm
      rw [← hown, ownIn, if_pos hlate]
    · rw [hid] at hnone
      cases hnone
  · rintro ⟨hnames, hser, hlate⟩
    have hown : S.ownIn order = S.ownNode := by
      funext path
      unfold ownIn
      split
      · rename_i hpath
        exact (hlate path hpath).symm
      · rfl
    rcases serialize_eq env hperm hnames with ⟨hok, -⟩ | ⟨-, dir, hdir, hnot⟩
    · rw [hown] at hok
      exact ⟨_, hok, represents_treeOf hnames hser hrootdir⟩
    · rw [hown] at hnot
      exact absurd (hser dir hdir) hnot
  · rw [(h.eq_treeOf hrootdir).1, (h'.eq_treeOf hrootdir).1]

section Sample

/-- The stream over `/d/x` and `/e`: the directory `/d` on the way has a mode. -/
def sampleStream : SourceStream where
  root := [.rootDir]
  sources := [[.rootDir, .normal [0x64], .normal [0x78]], [.rootDir, .normal [0x65]]]
  items :=
    [([.rootDir, .normal [0x64]],
        ⟨{ name := "d", nodeType := .directory, metadata := { mode := some 0o755 } }, 1⟩),
      ([.rootDir, .normal [0x64], .normal [0x78]], ⟨{ name := "x" }, 0⟩),
      ([.rootDir, .normal [0x65]], ⟨{ name := "e" }, 0⟩)]
  below := by
    simp only [List.forall_mem_cons, List.not_mem_nil, false_implies, implies_true, and_true]
    exact ⟨⟨⟨[[0x64], [0x78]], rfl⟩, by decide⟩, ⟨[[0x65]], rfl⟩, by decide⟩
  not_nested := by decide
  nodup := by decide
  emitted := by decide
  absolute := by
    simp only [List.forall_mem_cons, List.not_mem_nil, false_implies, implies_true, and_true]
    exact ⟨⟨[[0x64]], rfl⟩, ⟨[[0x64], [0x78]], rfl⟩, ⟨[[0x65]], rfl⟩⟩
  slash := by decide
  place := by decide
  parent := by decide
  named := by
    simp only [List.forall_mem_cons, List.not_mem_nil, false_implies, implies_true, and_true]
    refine ⟨fun name h => ?_, fun name h => ?_, fun name h => ?_⟩
    all_goals
      cases h
      decide
  announced := by decide
  bare := by decide

/-- The three trees of the sample stream: `/d`, and `/` with the own node and with the synthetic
node of `/d`. -/
def sampleTrees : List (List Node) :=
  [[{ name := "x" }],
    [{ name := "d", nodeType := .directory, metadata := { mode := some 0o755 }, tree := some 0 },
      { name := "e" }],
    [{ name := "d", nodeType := .directory, tree := some 0 }, { name := "e" }]]

/-- These trees are written as their numbers. -/
def sampleTreeCodec : TreeCodec where
  toVec nodes := (sampleTrees.idxOf? nodes).map fun k => [UInt8.ofNat k]
  fromSlice bytes := sampleTrees[(bytes.headD 0).toNat]?
  fromSlice_toVec := by
    intro nodes bytes h
    obtain ⟨k, hk, rfl⟩ := Option.map_eq_some_iff.mp h
    obtain ⟨hlt, hget, -⟩ := List.idxOf?_eq_some_iff.mp hk
    have hk3 : k < 3 := hlt
    have hnat : (UInt8.ofNat k).toNat = k := by
      rw [UInt8.toNat_ofNat']
      omega
    rw [List.headD_cons, hnat, List.getElem?_eq_getElem hlt, hget]

def sampleTreeEnv : TreeEnv where
  sort := sortByKey Node.name
  perm := perm_sortByKey Node.name
  sorted := fun nodes => pairwise_sortByKey Node.name nodes
  codec := sampleTreeCodec
  fromContent := fun bytes => Fin.ofNat _ (bytes.headD 0).toNat

/-- The directories of the sample stream. -/
theorem dir_sampleStream {dir : Path} (h : sampleStream.Dir dir) :
    dir = [.rootDir] ∨ dir = [.rootDir, .normal [0x64]] := by
  by_cases hroot : dir = sampleStream.root
  · exact Or.inl hroot
  · have hmem := h.mem_nodes hroot
    have hnodes : sampleStream.nodes = [[.rootDir, .normal [0x64], .normal [0x78]],
        [.rootDir, .normal [0x65]], [.rootDir, .normal [0x64]]] := by decide
    rw [hnodes] at hmem
    simp only [List.mem_cons, List.not_mem_nil, or_false] at hmem
    rcases hmem with rfl | rfl | rfl
    · exact absurd h (by decide)
    · exact absurd h (by decide)
    · exact Or.inr rfl

/-- The items of the sample stream in the order of the stream: nothing is late. -/
theorem ownIn_sampleStream : sampleStream.ownIn sampleStream.items = sampleStream.ownNode := by
  funext path
  refine if_neg ?_
  rintro ⟨hpre, hlate⟩
  have hpath : path = [.rootDir, .normal [0x64]] :=
    (dir_sampleStream (Or.inr (Or.inl hpre))).resolve_left fun heq => hpre.1.2 heq.symm
  have hfile := hlate [] _ _ rfl hpath.symm
    ([.rootDir, .normal [0x64], .normal [0x78]], ⟨{ name := "x" }, 0⟩) (by simp)
    (by rw [hpath]; decide)
  exact absurd hfile (by decide)

theorem sample_serialize : ∃ id, sampleStream.serialize sampleTreeEnv sampleStream.items =
    some (some id) ∧ sampleStream.Represents sampleTreeEnv sampleStream.root id := by
  have hhash : sampleStream.CollisionFree sampleTreeEnv (sampleStream.ownIn sampleStream.items)
      sampleStream.ownNode := by
    intro dir _ bytes bytes' hvec hvec' _
    rw [ownIn_sampleStream, hvec'] at hvec
    exact (Option.some.inj hvec).symm
  refine (serialize_represents_iff (.refl _) hhash).1.mpr ⟨fun dir hdir => ?_, fun dir hdir => ?_, ?_⟩
  · rcases dir_sampleStream hdir with rfl | rfl
    · decide
    · decide
  · rcases dir_sampleStream hdir with rfl | rfl
    · unfold Serializes
      decide
    · unfold Serializes
      decide
  · intro path hlate
    have hown := congrFun ownIn_sampleStream path
    rw [ownIn, if_pos hlate] at hown
    exact hown.symm

/-- When `/d/x` arrives before `/d`, the directory is finished without its node: another tree is
stored, in which `/d` has no mode. -/
theorem late_directory_loses_metadata : ∃ order : List (Path × StreamNode),
    order.Perm sampleStream.items ∧
    sampleStream.serialize sampleTreeEnv sampleStream.items = some (some 1) ∧
    sampleTreeCodec.fromSlice [1] =
      some [{ name := "d", nodeType := .directory, metadata := { mode := some 0o755 },
              tree := some 0 }, { name := "e" }] ∧
    sampleStream.serialize sampleTreeEnv order = some (some 2) ∧
    sampleTreeCodec.fromSlice [2] =
      some [{ name := "d", nodeType := .directory, tree := some 0 }, { name := "e" }] := by
  refine ⟨_, .swap _ _ _, ?_, rfl, ?_, rfl⟩
  · decide
  · decide

end Sample

end SourceStream

end Mapache
