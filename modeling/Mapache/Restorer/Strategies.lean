import Mapache.Restorer.Run

/-!
# Strategies of a restore

What the strategies promise for a regular file that is at the path of a node before the restore:
with `skip` the file is kept, with `newer` it is kept when its time is later than that of the node,
and with `fail` a file that differs is an error and is kept.

Two passes do not keep to this. The planner compares a file of the size of the node with its blobs
before it looks at the strategy, and the second pass gives every node its time. So the promise holds
in the runs whose comparisons find nothing to restore and whose second pass brings no other time
(`strategies_keep_local`); runs that do not keep the file are below (`strategies_change_local`).
-/

set_option autoImplicit false

namespace Mapache

open Lib

namespace Restorer

/-! ## The condition -/

/-- The comparison of the planner with a local file. -/
def compare (r : Restorer) (fs : LocalFs) (n : RestoreNode) (i : Nat) (read : Option Bytes) :
    Option RestorePlan :=
  compareLocal r.env.fromContent r.getData r.opts.verify n.node
    ⟨(fs.bytes i).length, some (fs.mtime i)⟩ read

/-- The times of the node are set on the inode. -/
def Reaches (r : Restorer) (fs : LocalFs) (n : RestoreNode) (i : Nat) : Prop :=
  fs.entry n.path = .file i ∨ ∃ q, fs.follow r.leadsTo n.path = some q ∧ fs.entry q = .file i

/-- The condition on a step, for the file with the inode `i` at the path: it is a dry run, or the
comparison finds nothing to restore and the second pass brings no other time. -/
def Spares (r : Restorer) (path : Path) (i : Nat) (s : RestorerState) (l : RestoreLabel) : Prop :=
  r.opts.dryRun = true ∨
    (∀ n read, l = .plan n read → n.path = path →
      r.compare s.fs n i read = none ∨ r.compare s.fs n i read = some .skip) ∧
    ∀ n time, l = .metadata n → r.Reaches s.fs n i → n.node.metadata.modifiedTime = some time →
      time = s.fs.mtime i

/-- The node conflicts with the file: it is a file, and the comparison leaves it to the strategy, or
it is a directory that is to be created. -/
def Conflicts (r : Restorer) (fs : LocalFs) (n : RestoreNode) (i : Nat) : Prop :=
  (n.node.nodeType = .file ∧
    ∀ read, read = none ∨ read = some (fs.bytes i) → r.compare fs n i read = none) ∨
  n.node.nodeType = .directory ∧ r.opts.dryRun = false

section Keeps

variable {r : Restorer} {fs₀ : LocalFs} {path : Path} {i : Nat} {s s' : RestorerState}
  {l : RestoreLabel} {n : RestoreNode}

/-! ## Dry runs -/

/-- A dry run links nothing and has no second pass. -/
structure Dry (fs₀ : LocalFs) (s : RestorerState) : Prop where
  fs_eq : s.fs = fs₀
  linking : ∀ todo, s.phase = .linking todo → todo = []
  metadata : ∀ todo, s.phase ≠ .metadata todo

theorem Dry.step (hdry : r.opts.dryRun = true) (h : Dry fs₀ s) (hstep : r.Step s l s') :
    Dry fs₀ s' := by
  have hfs : s'.fs = fs₀ := by
    rcases hstep.effect with heq | ⟨n, todo, entry, -, hvisit, -⟩ | ⟨todo, packs, -, hwet, -⟩ |
        ⟨path, primary, todo, hphase, -⟩ | ⟨n, todo, hphase, -⟩
    · rw [heq, h.fs_eq]
    · have hwet := hvisit.create.1
      rw [hdry] at hwet
      cases hwet
    · rw [hdry] at hwet
      cases hwet
    · have hnil := h.linking _ hphase
      cases hnil
    · exact absurd hphase (h.metadata todo)
  refine ⟨hfs, fun todo hphase => ?_, fun todo hphase => ?_⟩
  · cases hstep with
    | @visit n todo' _ effect hs hfull hvisit =>
      cases effect with
      | error stops => cases stops <;> cases hphase
      | nothing | create | restore => cases hphase
    | badPath hs =>
      rw [hs] at hphase
      cases hphase
    | flushDry hs | flush hs | flushFail hs =>
      dsimp only at hphase
      rw [hs] at hphase
      cases hphase
    | startLinks hs =>
      simp only [hdry, if_true, RestorePhase.linking.injEq] at hphase
      exact hphase.symm
    | link hs | linkFail hs =>
      have hnil := h.linking _ hs
      cases hnil
    | startMetadata hs =>
      simp [hdry] at hphase
    | streamFail | flushAbort | linkAbort | metadata | finish | interrupt => cases hphase
  · cases hstep with
    | @visit n todo' _ effect hs hfull hvisit =>
      cases effect with
      | error stops => cases stops <;> cases hphase
      | nothing | create | restore => cases hphase
    | badPath hs | flushDry hs | flush hs | flushFail hs =>
      dsimp only at hphase
      rw [hs] at hphase
      cases hphase
    | startMetadata hs =>
      simp [hdry] at hphase
    | metadata hs => exact h.metadata _ hs
    | streamFail | flushAbort | startLinks | link | linkFail | linkAbort | finish | interrupt =>
      cases hphase

/-! ## Files that are kept -/

/-- The file is kept: nothing has happened to it, no other node has its inode, and nothing that is
restored or linked has its path. -/
structure Keeps (r : Restorer) (fs₀ : LocalFs) (path : Path) (s : RestorerState) : Prop where
  untouched : LocalFs.Untouched fs₀ s.fs path
  alone : ∀ n ∈ r.nodes, n.path ≠ path → ¬ s.fs.Shares path n.path
  scope : Scoped r (fun q => q ≠ path ∧ ∃ n ∈ r.nodes, n.path = q) s

/-- The strategy keeps the file, when the comparison finds nothing to restore. -/
def Protects (r : Restorer) (fs₀ : LocalFs) (path : Path) (i : Nat) : Prop :=
  ∀ n ∈ r.nodes, n.path = path → ∀ plan,
    r.opts.strategy.decide n.node ⟨(fs₀.bytes i).length, some (fs₀.mtime i)⟩ = some plan →
      n.node.nodeType = .file → plan = .skip

/-- What is known about a regular file. -/
theorem Stat.of_file {md : Option LocalMetadata} {fs : LocalFs} (h : r.Stat fs path md)
    (hfile : fs.entry path = .file i) : md = some ⟨(fs.bytes i).length, some (fs.mtime i)⟩ := by
  cases h with
  | file hentry =>
    rw [hfile] at hentry
    cases hentry
    rfl
  | absent hentry | symlink hentry | directory hentry =>
    rw [hfile] at hentry
    cases hentry

/-- The plan for a file is that of the comparison, or else that of the strategy. -/
theorem plan_eq {fs : LocalFs} {read : Option Bytes} (hfile : n.node.nodeType = .file) :
    r.plan n (some ⟨(fs.bytes i).length, some (fs.mtime i)⟩) read =
      (r.compare fs n i read).or
        (r.opts.strategy.decide n.node ⟨(fs.bytes i).length, some (fs.mtime i)⟩) := by
  have hisFile : n.node.isFile = true := by
    rw [Node.isFile, hfile]
    rfl
  rw [plan, shouldRestoreNode, if_pos hisFile, compare]

/-- The file is not restored. -/
theorem not_restored (hfile : fs₀.entry path = .file i) (hprotects : r.Protects fs₀ path i)
    (h : LocalFs.Untouched fs₀ s.fs path) (hspares : ∀ n read, l = .plan n read → n.path = path →
      r.compare s.fs n i read = none ∨ r.compare s.fs n i read = some .skip)
    (hn : n ∈ r.nodes) (hpath : n.path = path) {changed : Option (List Nat)} :
    ¬ r.Visits s.fs n l (.restore changed) := by
  intro hvisit
  obtain ⟨hnode, md, read, hstat, rfl, -, hplan⟩ := hvisit.restore
  have hentry : s.fs.entry n.path = .file i := by rw [hpath, h.entry_eq, hfile]
  rw [hstat.of_file hentry, plan_eq hnode] at hplan
  have hne : ∀ plan : RestorePlan, plan = .skip →
      some plan ≠ some (changed.elim .fullRestore .selectiveRestore) := by
    rintro plan rfl heq
    cases changed <;> cases heq
  rcases hspares n read rfl hpath with hnone | hskip
  · rw [hnone, Option.none_or, h.bytes_eq i hfile, h.mtime_eq i hfile] at hplan
    exact hne _ (hprotects n hn hpath _ hplan hnode) (by rfl)
  · rw [hskip] at hplan
    exact hne .skip rfl hplan

/-- Setting the times of a node leaves the other inodes alone. -/
theorem SetsTime.inode {fs fs' : LocalFs} (h : r.SetsTime fs n fs') :
    fs'.entry = fs.entry ∧ fs'.bytes = fs.bytes ∧ (fs'.mtime i = fs.mtime i ∨ r.Reaches fs n i ∧
      n.node.metadata.modifiedTime = some (fs'.mtime i)) := by
  cases h with
  | kept => exact ⟨rfl, rfl, Or.inl rfl⟩
  | @own j time hlink hentry htime =>
    refine ⟨rfl, rfl, ?_⟩
    by_cases hij : i = j
    · subst hij
      right
      rw [LocalFs.setTime_mtime, Function.update_self]
      exact ⟨Or.inl hentry, htime⟩
    · left
      rw [LocalFs.setTime_mtime, Function.update_of_ne hij]
  | @followed q j time hlink hfollow hentry htime =>
    refine ⟨rfl, rfl, ?_⟩
    by_cases hij : i = j
    · subst hij
      right
      rw [LocalFs.setTime_mtime, Function.update_self]
      exact ⟨Or.inr ⟨q, hfollow, hentry⟩, htime⟩
    · left
      rw [LocalFs.setTime_mtime, Function.update_of_ne hij]

/-- A path that is given another entry, when no path of the restore has the inode of the file. -/
theorem Keeps.setEntry {q : Path} {entry : DirEntry} (hfile : fs₀.entry path = .file i)
    (h : Keeps r fs₀ path s) (hq : q ≠ path) (hentry : entry ≠ .file i) :
    LocalFs.Untouched fs₀ (s.fs.setEntry q entry) path ∧
      ∀ n ∈ r.nodes, n.path ≠ path → ¬ (s.fs.setEntry q entry).Shares path n.path := by
  refine ⟨h.untouched.trans (LocalFs.untouched_setEntry (Ne.symm hq)), ?_⟩
  rintro n hn hpath ⟨j, hj, hnj⟩
  rw [LocalFs.setEntry_entry, Function.update_of_ne (Ne.symm hq)] at hj
  rw [LocalFs.setEntry_entry] at hnj
  by_cases heq : n.path = q
  · rw [heq, Function.update_self] at hnj
    rw [h.untouched.entry_eq, hfile] at hj
    cases hj
    exact hentry hnj
  · rw [Function.update_of_ne heq] at hnj
    exact h.alone n hn hpath ⟨j, hj, hnj⟩

/-- **A step keeps the file**, when it meets the condition. -/
theorem Keeps.step (hfile : fs₀.entry path = .file i) (hprotects : r.Protects fs₀ path i)
    (hwet : r.opts.dryRun = false) (h : Keeps r fs₀ path s) (hspares : r.Spares path i s l)
    (hstep : r.Step s l s') : Keeps r fs₀ path s' := by
  obtain hdry | ⟨hplan, htimes⟩ := hspares
  · rw [hwet] at hdry
    cases hdry
  have hscope := h.scope.step hstep fun n hn changed hvisit => by
    refine ⟨fun hpath => ?_, n, hn, rfl⟩
    exact not_restored hfile hprotects h.untouched hplan hn hpath hvisit
  have hentry : s.fs.entry path = .file i := h.untouched.entry_eq.trans hfile
  suffices hfs : LocalFs.Untouched fs₀ s'.fs path ∧
      ∀ n ∈ r.nodes, n.path ≠ path → ¬ s'.fs.Shares path n.path from ⟨hfs.1, hfs.2, hscope⟩
  rcases hstep.effect with heq | ⟨n, todo, entry, -, hvisit, heq⟩ | ⟨todo, packs, -, -, hflush⟩ |
      ⟨q, primary, todo, hphase, hlink⟩ | ⟨n, todo, hphase, hmem, rfl, htime⟩
  · rw [heq]
    exact ⟨h.untouched, h.alone⟩
  · obtain ⟨-, habsent, hkind⟩ := hvisit.create
    rw [heq]
    refine h.setEntry hfile ?_ (hkind i)
    rintro rfl
    rw [hentry] at habsent
    cases habsent
  · -- the files of the batch have other paths and other inodes
    obtain ⟨log, hdoes, -, hlog⟩ := hflush.exists_log
    have hother : ∀ q ∈ log.map Prod.fst, q ≠ path ∧ ¬ s.fs.Shares path q := by
      intro q hq
      obtain ⟨f, hf, rfl⟩ := List.mem_map.mp (hlog q hq)
      obtain ⟨hne, n, hn, hpath⟩ := h.scope.batch f hf
      rw [← hpath] at hne ⊢
      exact ⟨hne, h.alone n hn hne⟩
    have hkept := hdoes.untouched (fun hmem => (hother path hmem).1 rfl) fun q hq => (hother q hq).2
    refine ⟨h.untouched.trans hkept, fun n hn hne => ?_⟩
    exact hdoes.not_shares (Ne.symm hne) (h.alone n hn hne)
  · obtain ⟨⟨hq, -⟩, hprimary, n, hn, hpath⟩ := h.scope.linking _ hphase _ List.mem_cons_self
    dsimp only at hq hprimary hpath
    rcases hlink with heq | hfails
    · rw [heq]
      refine h.setEntry hfile hq fun hsame => ?_
      rw [← hpath] at hprimary hsame
      exact h.alone n hn hprimary ⟨i, hentry, hsame⟩
    · generalize s'.fs = fs' at hfails
      cases hfails with
      | kept => exact ⟨h.untouched, h.alone⟩
      | removed hdir => exact h.setEntry hfile hq fun hsame => by cases hsame
      | @copied ino bytes now hdir hfresh =>
        -- the copy has an inode of its own
        have hne : i ≠ ino := by
          rintro rfl
          exact hfresh path hentry
        have hother : DirEntry.file ino ≠ .file i := by
          intro hsame
          cases hsame
          exact hne rfl
        obtain ⟨hkept, halone⟩ := h.setEntry hfile hq hother
        refine ⟨⟨hkept.entry_eq, fun j hj => ?_, fun j hj => ?_⟩, halone⟩
        · rw [hfile] at hj
          cases hj
          rw [LocalFs.change_bytes, Function.update_of_ne hne]
          exact hkept.bytes_eq i hfile
        · rw [hfile] at hj
          cases hj
          rw [LocalFs.change_mtime, Function.update_of_ne hne]
          exact hkept.mtime_eq i hfile
  · obtain ⟨hentries, hbytes, hmtime⟩ := htime.inode (i := i)
    have hsame : s'.fs.mtime i = s.fs.mtime i := by
      rcases hmtime with hsame | ⟨hreaches, htime⟩
      · exact hsame
      · exact htimes n _ rfl hreaches htime
    refine ⟨h.untouched.trans ⟨by rw [hentries], fun j _ => by rw [hbytes], fun j hj => ?_⟩,
      fun m hm hne => ?_⟩
    · rw [hentry] at hj
      cases hj
      exact hsame
    · rintro ⟨j, hj, hmj⟩
      rw [hentries] at hj hmj
      exact h.alone m hm hne ⟨j, hj, hmj⟩

/-- The file is kept in every run whose steps meet the condition. -/
theorem untouched_of_run {ls : List RestoreLabel} (hfile : fs₀.entry path = .file i)
    (halone : ∀ n ∈ r.nodes, n.path ≠ path → fs₀.entry n.path ≠ .file i)
    (hprotects : r.Protects fs₀ path i)
    (hrun : Run (Guarded r.Step (r.Spares path i)) (r.start fs₀) ls s) :
    LocalFs.Untouched fs₀ s.fs path := by
  cases hdry : r.opts.dryRun with
  | true =>
    have hinv : Dry fs₀ s := by
      refine hrun.invariant (P := Dry fs₀) (fun s l t h hst => h.step hdry hst.1) ?_
      exact ⟨rfl, fun todo h => (by cases h), fun todo h => by cases h⟩
    rw [hinv.fs_eq]
    exact LocalFs.Untouched.refl _ _
  | false =>
    have hinv : Keeps r fs₀ path s := by
      refine hrun.invariant (P := Keeps r fs₀ path)
        (fun s l t h hst => h.step hfile hprotects hdry hst.2 hst.1) ?_
      refine ⟨LocalFs.Untouched.refl _ _, fun n hn hne => ?_, .start fs₀⟩
      rintro ⟨j, hj, hnj⟩
      have hsame : DirEntry.file i = .file j := hfile.symm.trans hj
      cases hsame
      exact halone n hn hne hnj
    exact hinv.untouched

/-! ## Files that conflict -/

/-- A conflict is an error with `fail`. -/
theorem Visits.of_conflicts {effect : NodeEffect} (h : r.Visits s.fs n l effect)
    (hfile : s.fs.entry n.path = .file i) (hfail : r.opts.strategy = .fail)
    (hconflict : r.Conflicts s.fs n i) : ∃ stops, effect = .error stops := by
  rcases hconflict with ⟨hnode, hcompare⟩ | ⟨hnode, hwet⟩
  · cases h with
    | @plan md read _ hstat hread =>
      have hpossible : read = none ∨ read = some (s.fs.bytes i) := by
        rcases hread with hnone | hread
        · exact Or.inl hnone
        · rw [LocalFs.read, LocalFs.follow_of_file hfile, Option.bind_some, hfile] at hread
          exact Or.inr hread
      have hisDir : n.node.isDir = false := by
        rw [Node.isDir, hnode]
        rfl
      rw [hstat.of_file hfile, plan_eq hnode, hcompare read hpossible, Option.none_or, hfail,
        Strategy.decide, hisDir]
      exact ⟨r.opts.quitOnError, rfl⟩
    | mkdir hdir | dirExists hdir | dirFail hdir | symlink hdir | symlinkKept hdir
    | symlinkFail hdir =>
      rw [hnode] at hdir
      cases hdir
    | special _ _ hno => exact absurd hnode hno
  · cases h with
    | mkdir _ _ habsent =>
      rw [hfile] at habsent
      cases habsent
    | dirExists _ hexists =>
      rcases hexists with hdry | ⟨q, hfollow, hdir⟩
      · rw [hwet] at hdry
        cases hdry
      · rw [LocalFs.follow_of_file hfile] at hfollow
        cases hfollow
        rw [hfile] at hdir
        cases hdir
    | dirFail => exact ⟨false, rfl⟩
    | symlink hlink | symlinkKept hlink | symlinkFail hlink | plan hlink =>
      rw [hnode] at hlink
      cases hlink
    | special hno => exact absurd hnode hno

/-- The node is still to be visited, or an error was reported for its path or for the stream, or the
run was given up. -/
def Reported (n : RestoreNode) (s : RestorerState) : Prop :=
  (∃ todo, s.phase = .streaming todo ∧ n ∈ todo) ∨ some n.path ∈ s.errors ∨ none ∈ s.errors ∨
    s.phase = .finished false

theorem Reported.step (h : Reported n s) (hstep : r.Step s l s')
    (hconflict : ∀ effect, r.Visits s.fs n l effect → ∃ stops, effect = .error stops) :
    Reported n s' := by
  obtain ⟨more, hmore⟩ := hstep.errors_append
  have hkeep : ∀ e ∈ s.errors, e ∈ s'.errors := by
    intro e he
    rw [hmore]
    exact List.mem_append_left _ he
  rcases h with ⟨todo, hphase, hn⟩ | herror | herror | hphase
  · have hnone : none ∈ s.errors ++ [(none : Option Path)] :=
      List.mem_append_right _ (List.mem_singleton_self _)
    cases hstep with
    | @visit m todo' _ effect hs hfull hvisit =>
      rw [hphase] at hs
      cases hs
      rcases List.mem_cons.mp hn with rfl | hn
      · obtain ⟨stops, rfl⟩ := hconflict effect hvisit
        exact Or.inr (Or.inl (List.mem_append_right _ (List.mem_singleton_self _)))
      · cases effect with
        | error stops =>
          cases stops with
          | true => exact Or.inr (Or.inr (Or.inr rfl))
          | false => exact Or.inl ⟨todo', rfl, hn⟩
        | nothing | create | restore => exact Or.inl ⟨todo', rfl, hn⟩
    | badPath | flushFail => exact Or.inr (Or.inr (Or.inl hnone))
    | streamFail => exact Or.inr (Or.inr (Or.inl hnone))
    | flushDry | flush => exact Or.inl ⟨todo, hphase, hn⟩
    | startLinks hs =>
      rw [hphase] at hs
      cases hs
      cases hn
    | flushAbort | interrupt => exact Or.inr (Or.inr (Or.inr rfl))
    | link hs | linkFail hs | linkAbort hs | startMetadata hs | metadata hs | finish hs =>
      rw [hphase] at hs
      cases hs
  · exact Or.inr (Or.inl (hkeep _ herror))
  · exact Or.inr (Or.inr (Or.inl (hkeep _ herror)))
  · exact absurd hphase (hstep.not_finished false)

/-- The comparison sees the file only. -/
theorem Conflicts.untouched {fs : LocalFs} (h : r.Conflicts fs₀ n i)
    (hfile : fs₀.entry path = .file i) (hkept : LocalFs.Untouched fs₀ fs path) :
    r.Conflicts fs n i := by
  rcases h with ⟨hnode, hcompare⟩ | hdir
  · refine Or.inl ⟨hnode, fun read hread => ?_⟩
    rw [hkept.bytes_eq i hfile] at hread
    have hsame := hcompare read hread
    rw [compare] at hsame ⊢
    rw [hkept.bytes_eq i hfile, hkept.mtime_eq i hfile]
    exact hsame
  · exact Or.inr hdir

theorem reported_of_run {ls : List RestoreLabel} (hfile : fs₀.entry path = .file i)
    (halone : ∀ n ∈ r.nodes, n.path ≠ path → fs₀.entry n.path ≠ .file i)
    (hprotects : r.Protects fs₀ path i) (hfail : r.opts.strategy = .fail) (hn : n ∈ r.nodes)
    (hpath : n.path = path) (hconflict : r.Conflicts fs₀ n i)
    (hrun : Run (Guarded r.Step (r.Spares path i)) (r.start fs₀) ls s) : Reported n s := by
  induction hrun with
  | nil => exact Or.inl ⟨r.nodes, rfl, hn⟩
  | snoc hinit hstep ih =>
    have hkept := untouched_of_run hfile halone hprotects hinit
    refine ih.step hstep.1 fun effect hvisit => ?_
    refine hvisit.of_conflicts ?_ hfail (hconflict.untouched hfile hkept)
    rw [hpath, hkept.entry_eq, hfile]

/-- **Strategies keep local files, where nothing is found to restore and no other time is brought.**
In every state of such a run, with `skip` a regular file at the path of a node has its content and
its time, with `newer` also where its time is later than that of the node, and with `fail` too,
where a node that conflicts with it is reported. -/
theorem strategies_keep_local {ls : List RestoreLabel} (hfile : fs₀.entry path = .file i)
    (halone : ∀ n ∈ r.nodes, n.path ≠ path → fs₀.entry n.path ≠ .file i)
    (hrun : Run (Guarded r.Step (r.Spares path i)) (r.start fs₀) ls s) :
    (r.opts.strategy = .skip → LocalFs.Untouched fs₀ s.fs path) ∧
    (r.opts.strategy = .newer →
      (∀ n ∈ r.nodes, n.path = path →
        ∃ time, n.node.metadata.modifiedTime = some time ∧ time < fs₀.mtime i) →
      LocalFs.Untouched fs₀ s.fs path) ∧
    (r.opts.strategy = .fail → LocalFs.Untouched fs₀ s.fs path ∧
      ∀ n ∈ r.nodes, n.path = path → r.Conflicts fs₀ n i → s.phase = .finished true →
        some path ∈ s.errors ∨ none ∈ s.errors) := by
  refine ⟨fun hskip => ?_, fun hnewer hlater => ?_, fun hfail => ?_⟩
  · refine untouched_of_run hfile halone (fun n hn hpath plan hplan hnode => ?_) hrun
    rw [hskip] at hplan
    cases hplan
    rfl
  · refine untouched_of_run hfile halone (fun n hn hpath plan hplan hnode => ?_) hrun
    obtain ⟨time, htime, hlt⟩ := hlater n hn hpath
    rw [hnewer, Strategy.decide, htime] at hplan
    have hle : ¬ fs₀.mtime i < time := by omega
    have hne : ¬ (fs₀.mtime i = time ∧ (fs₀.bytes i).length ≠ n.node.metadata.size) := by
      rintro ⟨heq, -⟩
      omega
    simp only [Option.map_some, if_neg hle, if_neg hne] at hplan
    cases hplan
    rfl
  · have hprotects : r.Protects fs₀ path i := by
      intro n hn hpath plan hplan hnode
      have hisDir : n.node.isDir = false := by
        rw [Node.isDir, hnode]
        rfl
      rw [hfail, Strategy.decide, hisDir] at hplan
      cases hplan
    refine ⟨untouched_of_run hfile halone hprotects hrun, fun n hn hpath hconflict hphase => ?_⟩
    rcases reported_of_run hfile halone hprotects hfail hn hpath hconflict hrun with
      ⟨todo, hs, -⟩ | herror | herror | hs
    · rw [hphase] at hs
      cases hs
    · rw [hpath] at herror
      exact Or.inl herror
    · exact Or.inr herror
    · rw [hphase] at hs
      cases hs

end Keeps

end Restorer

/-! ## A file that is not restored -/

/-- The file of two blobs, with a time. -/
def timedNode (time : Int) : RestoreNode :=
  ⟨[.normal [97]],
    { name := "a", metadata := { size := 2, modifiedTime := some time }, blobs := some [5, 6] }, none⟩

def timedRestorer (strategy : Strategy) (time : Int) : Restorer :=
  { patchRestorer strategy with nodes := [timedNode time] }

/-- A local file of another size. -/
def timedFs : LocalFs where
  entry := fun path => if path = [.normal [97]] then .file 0 else .absent
  bytes := fun _ => [9]
  mtime := fun _ => 8

/-- A run in which the file is not restored, and in which its time is set. -/
theorem run_timed (strategy : Strategy) (time : Int) {errors : List (Option Path)}
    {Q : RestorerState → RestoreLabel → Prop}
    (hvisited : (timedRestorer strategy time).visited ((timedRestorer strategy time).start timedFs)
      (timedNode time) [] (.ofPlan false ((timedRestorer strategy time).plan (timedNode time)
        (some ⟨1, some 8⟩) (some [9]))) = ⟨.streaming [], timedFs, [], ∅, [], errors⟩)
    (hplan : Q ((timedRestorer strategy time).start timedFs) (.plan (timedNode time) (some [9])))
    (hother : ∀ s, Q s .other)
    (htime : Q ⟨.metadata [timedNode time], timedFs, [], ∅, [], errors⟩ (.metadata (timedNode time))) :
    ∃ ls, Run (Guarded (timedRestorer strategy time).Step Q)
      ((timedRestorer strategy time).start timedFs) ls
      ⟨.finished true, timedFs.setTime 0 time, [], ∅, [], errors⟩ := by
  have hvisit : (timedRestorer strategy time).Visits timedFs (timedNode time)
      (.plan (timedNode time) (some [9])) (.ofPlan false ((timedRestorer strategy time).plan
        (timedNode time) (some ⟨1, some 8⟩) (some [9]))) :=
    .plan rfl (.file (i := 0) rfl) (Or.inr rfl)
  have hplanned : (timedRestorer strategy time).Step ((timedRestorer strategy time).start timedFs)
      (.plan (timedNode time) (some [9])) ((timedRestorer strategy time).visited
        ((timedRestorer strategy time).start timedFs) (timedNode time) [] _) :=
    .visit rfl rfl hvisit
  rw [hvisited] at hplanned
  have hlinks : (timedRestorer strategy time).Step ⟨.streaming [], timedFs, [], ∅, [], errors⟩ .other
      ⟨.linking [], timedFs, [], ∅, [], errors⟩ := .startLinks rfl rfl
  have hmetadata : (timedRestorer strategy time).Step ⟨.linking [], timedFs, [], ∅, [], errors⟩ .other
      ⟨.metadata [timedNode time], timedFs, [], ∅, [], errors⟩ := .startMetadata rfl
  have hset : (timedRestorer strategy time).Step
      ⟨.metadata [timedNode time], timedFs, [], ∅, [], errors⟩ (.metadata (timedNode time))
      ⟨.metadata ([] ++ []), timedFs.setTime 0 time, [], ∅, [], errors⟩ :=
    .metadata rfl (fun _ m hm => by cases hm)
      (.followed (q := [.normal [97]]) (fun h => by cases h) rfl rfl rfl)
  have hfinish : (timedRestorer strategy time).Step
      ⟨.metadata ([] ++ []), timedFs.setTime 0 time, [], ∅, [], errors⟩ .other
      ⟨.finished true, timedFs.setTime 0 time, [], ∅, [], errors⟩ := .finish rfl
  exact ⟨_, ((((Run.nil.snoc ⟨hplanned, hplan⟩).snoc ⟨hlinks, hother _⟩).snoc
    ⟨hmetadata, hother _⟩).snoc ⟨hset, htime⟩).snoc ⟨hfinish, hother _⟩⟩

/-- A file that differs is reported and kept, where the node has its time. -/
theorem fail_keeps_local : ∃ ls s,
    Run (Guarded (timedRestorer .fail 8).Step ((timedRestorer .fail 8).Spares [.normal [97]] 0))
      ((timedRestorer .fail 8).start timedFs) ls s ∧
    LocalFs.Untouched timedFs s.fs [.normal [97]] ∧
    (some [.normal [97]] ∈ s.errors ∨ none ∈ s.errors) := by
  have hplan : (timedRestorer .fail 8).Spares [.normal [97]] 0
      ((timedRestorer .fail 8).start timedFs) (.plan (timedNode 8) (some [9])) := by
    refine Or.inr ⟨fun n read hl _ => ?_, fun n time hl => by cases hl⟩
    cases hl
    exact Or.inl rfl
  have htime : (timedRestorer .fail 8).Spares [.normal [97]] 0
      ⟨.metadata [timedNode 8], timedFs, [], ∅, [], [some [.normal [97]]]⟩
      (.metadata (timedNode 8)) := by
    refine Or.inr ⟨fun n read hl => (by cases hl), fun n time hl _ htime => ?_⟩
    cases hl
    cases htime
    rfl
  have hother : ∀ s, (timedRestorer .fail 8).Spares [.normal [97]] 0 s .other := fun s =>
    Or.inr ⟨fun n read hl => (by cases hl), fun n time hl => by cases hl⟩
  obtain ⟨ls, hrun⟩ := run_timed .fail 8 rfl hplan hother htime
  have halone : ∀ n ∈ (timedRestorer .fail 8).nodes, n.path ≠ [.normal [97]] →
      timedFs.entry n.path ≠ .file 0 := by
    intro n hn hne
    rw [List.mem_singleton.mp hn] at hne
    exact absurd rfl hne
  have hconflict : (timedRestorer .fail 8).Conflicts timedFs (timedNode 8) 0 := by
    refine Or.inl ⟨rfl, fun read hread => ?_⟩
    rcases hread with rfl | rfl
    · rfl
    · rfl
  obtain ⟨-, -, hfail⟩ := Restorer.strategies_keep_local (i := 0) rfl halone hrun
  obtain ⟨hkept, hreported⟩ := hfail rfl
  exact ⟨ls, _, hrun, hkept, hreported _ (List.mem_singleton_self _) rfl hconflict rfl⟩

/-- **The local file does not keep its time**, with any of the three strategies, nor its content
when it has the size of the node. -/
theorem strategies_change_local :
    (∃ ls s, Run (timedRestorer .skip 5).Step ((timedRestorer .skip 5).start timedFs) ls s ∧
      s.phase = .finished true ∧ timedFs.entry [.normal [97]] = .file 0 ∧
      s.fs.mtime 0 ≠ timedFs.mtime 0) ∧
    (∃ ls s, Run (timedRestorer .newer 5).Step ((timedRestorer .newer 5).start timedFs) ls s ∧
      s.phase = .finished true ∧ timedFs.entry [.normal [97]] = .file 0 ∧ 5 < timedFs.mtime 0 ∧
      s.fs.mtime 0 ≠ timedFs.mtime 0) ∧
    (∃ ls s, Run (timedRestorer .fail 5).Step ((timedRestorer .fail 5).start timedFs) ls s ∧
      s.phase = .finished true ∧ timedFs.entry [.normal [97]] = .file 0 ∧
      s.fs.mtime 0 ≠ timedFs.mtime 0) ∧
    ∃ fs₀ ls s, Run (patchRestorer .skip).Step ((patchRestorer .skip).start fs₀) ls s ∧
      s.phase = .finished true ∧ fs₀.entry [.normal [97]] = .file 0 ∧
      s.fs.bytes 0 ≠ fs₀.bytes 0 := by
  have hdrop : ∀ strategy s t ls, Run (Guarded (timedRestorer strategy 5).Step fun _ _ =>
      True) s ls t →
      ∃ ls, Run (timedRestorer strategy 5).Step s ls t := fun strategy s t ls hrun =>
    ⟨_, hrun.map id id fun s l t h => h.1⟩
  obtain ⟨ls₁, hskip⟩ := run_timed .skip 5 (Q := fun _ _ => True) rfl trivial (fun _ =>
    trivial) trivial
  obtain ⟨ls₂, hnewer⟩ := run_timed .newer 5 (Q := fun _ _ => True) rfl trivial (fun _ => trivial)
    trivial
  obtain ⟨ls₃, hfail⟩ := run_timed .fail 5 (Q := fun _ _ => True) rfl trivial (fun _ => trivial)
    trivial
  obtain ⟨ls₁, hskip⟩ := hdrop _ _ _ _ hskip
  obtain ⟨ls₂, hnewer⟩ := hdrop _ _ _ _ hnewer
  obtain ⟨ls₃, hfail⟩ := hdrop _ _ _ _ hfail
  have hfresh : ∀ q, ({ timedFs with bytes := fun _ => [5, 9] } : LocalFs).entry q ≠ .file 1 := by
    intro q
    change (if q = _ then DirEntry.file 0 else .absent) ≠ .file 1
    split <;> simp
  obtain ⟨s, hrun, hphase, -, hfs⟩ := run_patch .skip rfl rfl hfresh 0
  refine ⟨⟨ls₁, _, hskip, rfl, rfl, by decide⟩, ⟨ls₂, _, hnewer, rfl, rfl, by decide, by decide⟩,
    ⟨ls₃, _, hfail, rfl, rfl, by decide⟩, _, _, s, hrun, hphase, rfl, ?_⟩
  rw [hfs]
  decide

end Mapache
