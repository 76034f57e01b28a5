import Mapache.Lib.Outcome
import Mapache.Repository.FindFile
import Mapache.Repository.RetentionRules
import Mapache.Repository.Trash

/-!
# Forgetting and recalling snapshots

`forget_phase` of `cmd_forget.rs`, `cmd_recall.rs`, and with them what happens to a snapshot from its
saving on: `forget` gives its file the extension `dropped`, `recall` takes it away again, and a
collection removes the files that have it. `--force` removes the file at once.

`forgetPhase_spec` says what one `forget` does: which snapshots it looks at, which of these it removes,
and that it either changes nothing or drops exactly these. `snapshots_are_kept` is about any run of
such commands: the content of a snapshot stays under one of the two names until a forced `forget`
names it or a collection finds it dropped.
-/

set_option autoImplicit false

namespace Mapache

open Lib

/-! ## Arguments -/

/-- `char::is_whitespace`. -/
def isWhitespace (c : Char) : Bool :=
  (9 ≤ c.toNat && c.toNat ≤ 13) || (0x2000 ≤ c.toNat && c.toNat ≤ 0x200a) ||
    [0x20, 0x85, 0xa0, 0x1680, 0x2028, 0x2029, 0x202f, 0x205f, 0x3000].contains c.toNat

/-- `str::trim`. -/
def trimText (cs : List Char) : List Char :=
  ((cs.dropWhile isWhitespace).reverse.dropWhile isWhitespace).reverse

/-- `parse_tags`. -/
def parseTags (s : String) : List String :=
  (((s.toList.splitOn ',').map trimText).filter fun t => t ≠ []).map String.ofList

/-- What `forget` reads of a snapshot. -/
structure SnapshotInfo where
  timestamp : Int
  tags : List String
  hostname : Option String
  deriving DecidableEq

/-- `SnapshotEntry`, of a snapshot that is not dropped. -/
structure ForgetEntry extends TaggedEntry where
  hostname : Option String

/-- The arguments of `forget`, without those for the collection behind it. -/
structure ForgetArgs where
  forget : List String
  force : Bool
  tagsStr : Option String
  hosts : List String
  keepLast : Option Nat
  keepWithin : Option Int
  keepYearly : Option Nat
  keepMonthly : Option Nat
  keepWeekly : Option Nat
  keepDaily : Option Nat
  keepHourly : Option Nat
  keepTags : Option String
  keepMin : Option Nat
  dryRun : Bool

/-- The rules of the arguments. -/
def ForgetArgs.retentionRules (args : ForgetArgs) : List RetentionRule :=
  (args.keepLast.map RetentionRule.keepLast).toList ++
  (args.keepWithin.map RetentionRule.keepWithin).toList ++
  (args.keepYearly.map RetentionRule.keepYearly).toList ++
  (args.keepMonthly.map RetentionRule.keepMonthly).toList ++
  (args.keepWeekly.map RetentionRule.keepWeekly).toList ++
  (args.keepDaily.map RetentionRule.keepDaily).toList ++
  (args.keepHourly.map RetentionRule.keepHourly).toList ++
  (args.keepTags.map fun tags => RetentionRule.keepTags (parseTags tags)).toList

/-- The errors of `forget`; those of others are passed on. -/
inductive ForgetError where
  | forgetFailed (message : String)
  | invalidRule (message : String)
  | interrupted
  | repo
  deriving DecidableEq

/-- The text of a `MapacheError` without its kind. -/
def StorageError.inner : StorageError → String
  | .common (.io message) | .common (.crypto message) | .common (.compression message)
  | .common (.integrity message) | .common (.format message) | .common (.internal message)
  | .common (.config message) | .backend message | .repo message | .notFound message
  | .snapshotNotFound message => message

/-- What the commands on snapshots depend on: the storage, the reading of a snapshot, the time zone, the
orders in which listings end, and the sort by time, which is not stable. -/
structure SnapshotEnv where
  storage : SecureStorage
  parse : Bytes → Option SnapshotInfo
  zone : Zone
  order : List Path → List Path
  nodeOrder : Path → List BackendNode → List BackendNode
  sortByTime : List ForgetEntry → List ForgetEntry
  order_perm : ∀ dirs, (order dirs).Perm dirs
  nodes_perm : ∀ p nodes, (nodeOrder p nodes).Perm nodes
  sort_perm : ∀ l, (sortByTime l).Perm l
  sort_sorted : ∀ l, (sortByTime l).Pairwise fun e e' => e.timestamp ≤ e'.timestamp

/-! ## `forget` -/

section Forget

variable (env : SnapshotEnv)

/-- `load_snapshot`. -/
def loadSnapshot (b : Files) (id : ID) (ext : Option Extension) : Option SnapshotInfo :=
  (loadFile env.storage b .snapshot id ext).bind env.parse

/-- `SnapshotStream::collect_entries`: the IDs are taken from the end. -/
def collectEntries (b : Files) (ids : List ID) : Option (List ForgetEntry) :=
  ids.reverse.mapM fun id => (loadSnapshot env b id none).map fun info =>
    { id, timestamp := info.timestamp, tags := info.tags, hostname := info.hostname }

/-- `filter_snapshots_by_hosts`. -/
def filterSnapshotsByHosts (l : List ForgetEntry) (hosts : List String) : List ForgetEntry :=
  if hosts = [] then l else l.filter fun e => e.hostname.any fun h => hosts.contains h

/-- The snapshots with one of the tags, if there are any in the arguments. -/
def taggedEntries (args : ForgetArgs) (l : List ForgetEntry) : List ForgetEntry :=
  match args.tagsStr with
  | some tags => l.filter fun e => hasTags e.toTaggedEntry (parseTags tags)
  | none => l

/-- The snapshots that `forget` looks at. -/
def consideredEntries (args : ForgetArgs) (l : List ForgetEntry) : List ForgetEntry :=
  let tagged := taggedEntries args l
  if args.hosts = [] then tagged
  else
    let filteredIds := (filterSnapshotsByHosts tagged args.hosts).map fun e => e.id
    tagged.filter fun e => filteredIds.contains e.id

/-- The IDs that begin with the given texts. -/
def forgetIds (b : Files) : List String → Outcome ForgetError (List ID)
  | [] => .ok []
  | pre :: rest =>
    match findWithExtension b env.order .snapshot pre none with
    | .error _ => .err (.forgetFailed ("snapshot not found: " ++ pre))
    | .ok (id, _) => (forgetIds b rest).bind fun ids => .ok (id :: ids)

/-- The IDs of the snapshots that stay. -/
def idsToKeep (b : Files) (args : ForgetArgs) (now : Int) (sorted : List ForgetEntry) :
    Outcome ForgetError (Finset ID) :=
  if args.forget ≠ [] then
    (forgetIds env b args.forget).bind fun ids =>
      .ok ((sorted.filter fun e => !ids.contains e.id).map fun e => e.id).toFinset
  else if args.retentionRules.isEmpty then
    .err (.invalidRule "at least one retention rule must be used.")
  else
    match applyRetentionRules env.zone (sorted.map ForgetEntry.toTaggedEntry) now
        args.retentionRules args.keepMin with
    | some ids => .ok ids
    | none => .panic

/-- What `forget` does with the snapshots that it looks at. -/
structure ForgetPlan where
  kept : List ForgetEntry
  removed : List ForgetEntry

/-- `forget_phase`, as far as it only reads. -/
def forgetPlan (b : Files) (args : ForgetArgs) (now : Int) : Outcome ForgetError ForgetPlan :=
  match listSnapshotIds b env.order with
  | .error e => .err (.forgetFailed ("failed to load snapshots: " ++ e.inner))
  | .ok ids =>
    match collectEntries env b ids with
    | none => .err .repo
    | some entries =>
      let sorted := env.sortByTime (consideredEntries args entries)
      (idsToKeep env b args now sorted).bind fun keep =>
        .ok ⟨sorted.filter fun e => e.id ∈ keep, sorted.filter fun e => e.id ∉ keep⟩

/-- One snapshot is removed. -/
def forgetOne (force : Bool) (b : Files) (id : ID) : Except ForgetError Files :=
  if force then
    match deleteFile b .snapshot id none with
    | .ok (b', _) => .ok b'
    | .error e => .error (.forgetFailed ("failed to delete snapshot: " ++ e.inner))
  else
    match setExtension b .snapshot id (some .dropped) with
    | .ok b' => .ok b'
    | .error e => .error (.forgetFailed ("failed to mark snapshot for deletion: " ++ e.inner))

/-- The loop that removes; it stops at the first error, with what it has removed until then. -/
def forgetAll (force : Bool) : Files → List ForgetEntry → Files × Option ForgetError
  | b, [] => (b, none)
  | b, e :: es =>
    match forgetOne force b e.id with
    | .ok b' => forgetAll force b' es
    | .error err => (b, some err)

/-- `forget_phase`; `interrupted` says whether an interrupt has come in until its end. -/
def forgetPhase (b : Files) (args : ForgetArgs) (now : Int) (interrupted : Bool) :
    Files × Outcome ForgetError ForgetPlan :=
  match forgetPlan env b args now with
  | .err e => (b, .err e)
  | .panic => (b, .panic)
  | .ok plan =>
    match if args.dryRun then (b, none) else forgetAll args.force b plan.removed with
    | (b', some e) => (b', .err e)
    | (b', none) => (b', if interrupted then .err .interrupted else .ok plan)

/-- `recall`. -/
def recallSnapshot (b : Files) (pre : String) : Except StorageError Files :=
  match findWithExtension b env.order .snapshot pre (some repoDroppedExtension) with
  | .error e => .error e
  | .ok (id, _) => recallDroppedSnapshot b id

end Forget

/-! ## Which snapshots are looked at -/

section Entries

variable {env : SnapshotEnv} {b : Files} {args : ForgetArgs} {now : Int} {e : ForgetEntry}
  {ids : List ID} {l entries : List ForgetEntry}

/-- The entry is that of a snapshot that can be loaded. -/
def IsSnapshot (env : SnapshotEnv) (b : Files) (e : ForgetEntry) : Prop :=
  loadSnapshot env b e.id none = some ⟨e.timestamp, e.tags, e.hostname⟩

/-- The snapshot passes the two filters. -/
structure ForgetArgs.Admits (args : ForgetArgs) (e : ForgetEntry) : Prop where
  tags : ∀ tags, args.tagsStr = some tags → hasTags e.toTaggedEntry (parseTags tags) = true
  hosts : args.hosts ≠ [] → ∃ host ∈ args.hosts, e.hostname = some host

theorem collectEntries_spec (h : collectEntries env b ids = some entries) :
    entries.map (fun e => e.id) = ids.reverse ∧ ∀ e ∈ entries, IsSnapshot env b e := by
  unfold collectEntries at h
  generalize ids.reverse = order at h ⊢
  induction order generalizing entries with
  | nil =>
    cases h
    simp
  | cons id order ih =>
    rw [List.mapM_cons] at h
    obtain ⟨e, he, h⟩ := Option.bind_eq_some_iff.mp h
    obtain ⟨rest, hrest, h⟩ := Option.bind_eq_some_iff.mp h
    cases h
    obtain ⟨info, hinfo, rfl⟩ := Option.map_eq_some_iff.mp he
    obtain ⟨hids, hall⟩ := ih hrest
    refine ⟨by rw [List.map_cons, hids], fun e he => ?_⟩
    rcases List.mem_cons.mp he with rfl | he
    · exact hinfo
    · exact hall e he

/-- What can be loaded is stored. -/
theorem isSome_stored_of_load {id : ID} {ext : Option Extension} {info : SnapshotInfo}
    (h : loadSnapshot env b id ext = some info) : (b.stored ⟨.snapshot, id, ext⟩).isSome := by
  obtain ⟨data, hload, -⟩ := Option.bind_eq_some_iff.mp h
  obtain ⟨bytes, hbytes, -⟩ := Option.bind_eq_some_iff.mp hload
  exact Option.isSome_iff_exists.mpr ⟨bytes, hbytes⟩

/-- An ID has one entry. -/
theorem IsSnapshot.unique {e' : ForgetEntry} (h : IsSnapshot env b e) (h' : IsSnapshot env b e')
    (hid : e.id = e'.id) : e = e' := by
  obtain ⟨⟨⟨id, timestamp⟩, tags⟩, hostname⟩ := e
  obtain ⟨⟨⟨id', timestamp'⟩, tags'⟩, hostname'⟩ := e'
  cases hid
  unfold IsSnapshot at h h'
  rw [h] at h'
  cases h'
  rfl

/-- The entries of all snapshots. -/
theorem LaidOut.mem_collectEntries (h : LaidOut b)
    (hlist : Mapache.listSnapshotIds b env.order = .ok ids)
    (hentries : collectEntries env b ids = some entries) :
    (entries.map fun e => e.id).Nodup ∧ ∀ e, e ∈ entries ↔ IsSnapshot env b e := by
  obtain ⟨ids', hlist', hnodup, hmem⟩ := h.listSnapshotIds env.order_perm
  rw [hlist] at hlist'
  cases hlist'
  obtain ⟨hids, hall⟩ := collectEntries_spec hentries
  refine ⟨?_, fun e => ⟨hall e, fun he => ?_⟩⟩
  · rw [hids]
    exact List.nodup_reverse.mpr hnodup
  · -- the ID is listed, and its entry is this one
    have hlisted : e.id ∈ entries.map fun e => e.id := by
      rw [hids, List.mem_reverse, hmem]
      exact isSome_stored_of_load he
    obtain ⟨e', he', hid⟩ := List.mem_map.mp hlisted
    rwa [(hall e' he').unique he hid] at he'

theorem mem_taggedEntries : e ∈ taggedEntries args l ↔
    e ∈ l ∧ ∀ tags, args.tagsStr = some tags → hasTags e.toTaggedEntry (parseTags tags) = true := by
  rw [taggedEntries]
  cases args.tagsStr with
  | none => simp
  | some tags => simp

theorem taggedEntries_sublist (args : ForgetArgs) (l : List ForgetEntry) :
    (taggedEntries args l).Sublist l := by
  rw [taggedEntries]
  cases args.tagsStr with
  | none => exact List.Sublist.refl l
  | some tags => exact List.filter_sublist

theorem consideredEntries_sublist (args : ForgetArgs) (l : List ForgetEntry) :
    (consideredEntries args l).Sublist l := by
  unfold consideredEntries
  dsimp only
  split
  · exact taggedEntries_sublist args l
  · exact List.filter_sublist.trans (taggedEntries_sublist args l)

/-- The filter by IDs admits what the filter by hosts does. -/
theorem mem_consideredEntries (hnodup : (l.map fun e => e.id).Nodup) :
    e ∈ consideredEntries args l ↔ e ∈ l ∧ args.Admits e := by
  have hhost : ∀ e : ForgetEntry, (e.hostname.any fun host => args.hosts.contains host) = true ↔
      ∃ host ∈ args.hosts, e.hostname = some host := by
    intro e
    cases e.hostname <;> simp
  unfold consideredEntries
  dsimp only
  by_cases hhosts : args.hosts = []
  · rw [if_pos hhosts, mem_taggedEntries]
    exact and_congr_right fun _ => ⟨fun ht => ⟨ht, fun hne => absurd hhosts hne⟩, fun h => h.tags⟩
  · rw [if_neg hhosts, List.mem_filter, filterSnapshotsByHosts, if_neg hhosts, List.contains_iff_mem,
      List.mem_map]
    constructor
    · rintro ⟨he, e', he', hid⟩
      obtain ⟨hin, hany⟩ := List.mem_filter.mp he'
      -- the entries of one ID are the same
      have hids := hnodup.sublist ((taggedEntries_sublist args l).map fun e => e.id)
      have heq : e' = e := List.inj_on_of_nodup_map hids hin he hid
      subst heq
      obtain ⟨hl, ht⟩ := mem_taggedEntries.mp he
      exact ⟨hl, ht, fun _ => (hhost e').mp hany⟩
    · rintro ⟨hl, ht, hh⟩
      have he := mem_taggedEntries.mpr ⟨hl, ht⟩
      exact ⟨he, e, List.mem_filter.mpr ⟨he, (hhost e).mpr (hh hhosts)⟩, rfl⟩

end Entries

/-! ## What stays -/

section Plan

variable {env : SnapshotEnv} {b : Files} {args : ForgetArgs} {now : Int} {ids : List ID}
  {plan : ForgetPlan}

/-- The texts each find one snapshot, and the IDs are theirs. -/
theorem LaidOut.mem_forgetIds (h : LaidOut b) {texts : List String}
    (hids : forgetIds env b texts = .ok ids) {id : ID}
    (hstored : (b.stored ⟨.snapshot, id, none⟩).isSome) :
    id ∈ ids ↔ ∃ pre ∈ texts, startsWith id.toHex pre := by
  induction texts generalizing ids with
  | nil =>
    cases hids
    simp
  | cons pre texts ih =>
    rw [forgetIds] at hids
    split at hids
    · cases hids
    · rename_i id' p hfind
      have hfind' : findWithExtension b env.order .snapshot pre
          ((none : Option Extension).map Extension.bytes) = .ok (id', p) := hfind
      obtain ⟨-, hpre, honly⟩ := h.id_of_findWithExtension env.order_perm hfind'
      cases hrest : forgetIds env b texts with
      | err e =>
        rw [hrest] at hids
        cases hids
      | panic =>
        rw [hrest] at hids
        cases hids
      | ok rest =>
        rw [hrest] at hids
        cases hids
        rw [List.mem_cons, List.exists_mem_cons_iff, ih hrest]
        refine or_congr_left ⟨?_, honly id hstored⟩
        rintro rfl
        exact hpre

/-- With IDs in the arguments the others stay. -/
theorem LaidOut.mem_idsToKeep (h : LaidOut b) {sorted : List ForgetEntry} {keep : Finset ID}
    {e : ForgetEntry} (hforget : args.forget ≠ [])
    (hkeep : idsToKeep env b args now sorted = .ok keep) (he : e ∈ sorted)
    (hstored : (b.stored ⟨.snapshot, e.id, none⟩).isSome) :
    e.id ∉ keep ↔ ∃ pre ∈ args.forget, startsWith e.id.toHex pre := by
  rw [idsToKeep, if_pos hforget] at hkeep
  cases hfound : forgetIds env b args.forget with
  | err e =>
    rw [hfound] at hkeep
    cases hkeep
  | panic =>
    rw [hfound] at hkeep
    cases hkeep
  | ok ids =>
    rw [hfound] at hkeep
    cases hkeep
    rw [← h.mem_forgetIds hfound hstored, List.mem_toFinset, List.mem_map]
    constructor
    · intro hout
      by_contra hid
      exact hout ⟨e, List.mem_filter.mpr ⟨he, by simpa using hid⟩, rfl⟩
    · rintro hid ⟨e', he', heq⟩
      have hout := (List.mem_filter.mp he').2
      rw [heq] at hout
      exact absurd hid (by simpa using hout)

/-- Without them the rules say which ones stay. -/
theorem idsToKeep_rules {sorted : List ForgetEntry} {keep : Finset ID} (hforget : args.forget = [])
    (hkeep : idsToKeep env b args now sorted = .ok keep) :
    args.retentionRules ≠ [] ∧ applyRetentionRules env.zone
      (sorted.map ForgetEntry.toTaggedEntry) now args.retentionRules args.keepMin = some keep := by
  rw [idsToKeep, if_neg (not_not.mpr hforget)] at hkeep
  split at hkeep
  · cases hkeep
  · rename_i hrules
    refine ⟨fun hnil => hrules (by rw [hnil]; rfl), ?_⟩
    split at hkeep
    · rename_i found happly
      cases hkeep
      exact happly
    · cases hkeep

/-- The rules keep what one of them keeps, and the newest of the others if they are too few. -/
theorem applyRetentionRules_spec {zone : Zone} {l : List TaggedEntry} {rules : List RetentionRule}
    {keepMin : Option Nat} {keep : Finset ID}
    (hsorted : l.Pairwise fun a b => a.timestamp ≤ b.timestamp)
    (hids : (l.map fun e => e.id).Nodup)
    (h : applyRetentionRules zone l now rules keepMin = some keep) :
    (∀ id, KeptByRules zone l now rules id → id ∈ keep) ∧
    (∀ e ∈ l, e.id ∈ keep → KeptByRules zone l now rules e.id ∨
      keepMin ≠ none ∧ ∀ e' ∈ l, e'.id ∉ keep → e'.timestamp ≤ e.timestamp) ∧
    keep ⊆ idsOf l ∧ min (keepMin.getD 0) l.length ≤ keep.card := by
  unfold applyRetentionRules at h
  split at h
  · obtain ⟨union, hunion, rfl⟩ := Option.map_eq_some_iff.mp h
    have hsub : union ⊆ idsOf l := by
      intro id hid
      obtain ⟨rule, -, kept, hkept, hmem⟩ := (mem_unionOfRules hunion).mp hid
      exact idsToKeep_subset hkept hmem
    cases keepMin with
    | none =>
      refine ⟨fun id => (mem_unionOfRules hunion).mpr, fun e _ hid => ?_, hsub, ?_⟩
      · exact Or.inl ((mem_unionOfRules hunion).mp hid)
      · rw [Option.getD_none, Nat.zero_min]
        exact Nat.zero_le _
    | some least =>
      obtain ⟨hkept, hcard, hadded⟩ := fill_exact hsorted hids least union
      refine ⟨fun id hid => hkept ((mem_unionOfRules hunion).mpr hid), fun e he hid => ?_, ?_, ?_⟩
      · by_cases hold : e.id ∈ union
        · exact Or.inl ((mem_unionOfRules hunion).mp hold)
        · obtain ⟨e', he', heq, hnewest⟩ := hadded e.id hid hold
          cases List.inj_on_of_nodup_map hids he' he heq
          exact Or.inr ⟨Option.some_ne_none _, hnewest⟩
      · intro id hid
        by_cases hold : id ∈ union
        · exact hsub hold
        · obtain ⟨e, he, heq, -⟩ := hadded id hid hold
          exact mem_idsOf.mpr ⟨e, he, heq⟩
      · rw [hcard]
        exact le_max_right _ _
  · cases h

/-- What `forget` may do with the snapshots it looks at. -/
structure ForgetPlan.Sound (env : SnapshotEnv) (b : Files) (args : ForgetArgs) (now : Int)
    (plan : ForgetPlan) : Prop where
  /-- They are those that pass the filters. -/
  complete : ∀ e, e ∈ plan.kept ∨ e ∈ plan.removed ↔ IsSnapshot env b e ∧ args.Admits e
  nodup : ((plan.kept ++ plan.removed).map fun e => e.id).Nodup
  /-- With IDs in the arguments exactly these are removed. -/
  named : args.forget ≠ [] → ∀ e, e ∈ plan.kept ∨ e ∈ plan.removed →
    (e ∈ plan.removed ↔ ∃ pre ∈ args.forget, startsWith e.id.toHex pre)
  /-- Otherwise a snapshot that is removed is kept by no rule, and one that is kept without a rule is
  no older than it; `keep_min` of them are kept, if there are as many. -/
  byRules : args.forget = [] → args.retentionRules ≠ [] ∧ ∃ l : List ForgetEntry,
    l.Perm (plan.kept ++ plan.removed) ∧ l.Pairwise (fun e e' => e.timestamp ≤ e'.timestamp) ∧
    (∀ e ∈ plan.removed, ¬ KeptByRules env.zone (l.map ForgetEntry.toTaggedEntry) now
      args.retentionRules e.id) ∧
    (∀ e ∈ plan.kept, KeptByRules env.zone (l.map ForgetEntry.toTaggedEntry) now
        args.retentionRules e.id ∨
      args.keepMin ≠ none ∧ ∀ e' ∈ plan.removed, e'.timestamp ≤ e.timestamp) ∧
    min (args.keepMin.getD 0) l.length ≤ plan.kept.length

/-- The lists of a plan, put together. -/
theorem perm_filter_append (l : List ForgetEntry) (keep : Finset ID) :
    l.Perm (l.filter (fun e => e.id ∈ keep) ++ l.filter fun e => e.id ∉ keep) := by
  have h := (List.filter_append_perm (fun e : ForgetEntry => decide (e.id ∈ keep)) l).symm
  simpa using h

theorem length_filter_keep {l : List ForgetEntry} {keep : Finset ID}
    (hsub : keep ⊆ idsOf (l.map ForgetEntry.toTaggedEntry)) :
    keep.card ≤ (l.filter fun e => e.id ∈ keep).length := by
  have hkeep : keep ⊆ ((l.filter fun e => e.id ∈ keep).map fun e => e.id).toFinset := by
    intro id hid
    obtain ⟨t, ht, rfl⟩ := mem_idsOf.mp (hsub hid)
    obtain ⟨e, he, rfl⟩ := List.mem_map.mp ht
    rw [List.mem_toFinset]
    exact List.mem_map.mpr ⟨e, List.mem_filter.mpr ⟨he, by simpa using hid⟩, rfl⟩
  refine (Finset.card_le_card hkeep).trans ((List.toFinset_card_le _).trans ?_)
  rw [List.length_map]

/-- The plan for the entries of all snapshots. -/
theorem forgetPlan_eq {entries : List ForgetEntry}
    (hlist : listSnapshotIds b env.order = .ok ids)
    (hentries : collectEntries env b ids = some entries) :
    forgetPlan env b args now =
      (idsToKeep env b args now (env.sortByTime (consideredEntries args entries))).bind fun keep =>
        .ok ⟨(env.sortByTime (consideredEntries args entries)).filter fun e => e.id ∈ keep,
          (env.sortByTime (consideredEntries args entries)).filter fun e => e.id ∉ keep⟩ := by
  rw [forgetPlan, hlist]
  dsimp only
  rw [hentries]

/-- **A plan is sound.** -/
theorem LaidOut.forgetPlan_sound (h : LaidOut b) (hplan : forgetPlan env b args now = .ok plan) :
    plan.Sound env b args now := by
  unfold forgetPlan at hplan
  split at hplan
  · cases hplan
  · rename_i listed hlist
    split at hplan
    · cases hplan
    · rename_i entries hentries
      obtain ⟨hids, hmem⟩ := h.mem_collectEntries hlist hentries
      have hperm := env.sort_perm (consideredEntries args entries)
      have hsorted := env.sort_sorted (consideredEntries args entries)
      have hnodup : ((env.sortByTime (consideredEntries args entries)).map fun e => e.id).Nodup :=
        ((hperm.map _).nodup_iff).mpr (hids.sublist ((consideredEntries_sublist args entries).map _))
      have hconsidered : ∀ e, e ∈ env.sortByTime (consideredEntries args entries) ↔
          IsSnapshot env b e ∧ args.Admits e := fun e => by
        rw [hperm.mem_iff, mem_consideredEntries hids, hmem]
      dsimp only at hplan
      generalize env.sortByTime (consideredEntries args entries) = sorted at *
      cases hkeep : idsToKeep env b args now sorted with
      | err e =>
        rw [hkeep] at hplan
        cases hplan
      | panic =>
        rw [hkeep] at hplan
        cases hplan
      | ok keep =>
        rw [hkeep] at hplan
        cases hplan
        have hall := perm_filter_append sorted keep
        have hin : ∀ e, (e ∈ sorted.filter (fun e => e.id ∈ keep) ∨
            e ∈ sorted.filter fun e => e.id ∉ keep) ↔ e ∈ sorted := fun e => by
          rw [← List.mem_append, hall.mem_iff]
        refine
          { complete := fun e => (hin e).trans (hconsidered e)
            nodup := ((hall.map _).nodup_iff).mp hnodup
            named := fun hforget e he => ?_
            byRules := fun hforget => ?_ }
        · have he := (hin e).mp he
          have hstored := isSome_stored_of_load ((hconsidered e).mp he).1
          rw [List.mem_filter, decide_eq_true_eq, h.mem_idsToKeep hforget hkeep he hstored]
          exact and_iff_right he
        · obtain ⟨hrules, happly⟩ := idsToKeep_rules hforget hkeep
          have hsorted' : (sorted.map ForgetEntry.toTaggedEntry).Pairwise
              fun a b => a.timestamp ≤ b.timestamp := List.pairwise_map.mpr hsorted
          have hnodup' : ((sorted.map ForgetEntry.toTaggedEntry).map fun e => e.id).Nodup := by
            rw [List.map_map]
            exact hnodup
          obtain ⟨hkept, hfill, hsub, hleast⟩ := applyRetentionRules_spec hsorted' hnodup' happly
          have htagged : ∀ {e : ForgetEntry}, e ∈ sorted →
              e.toTaggedEntry ∈ sorted.map ForgetEntry.toTaggedEntry := fun he =>
            List.mem_map_of_mem he
          refine ⟨hrules, sorted, hall, hsorted, ?_, ?_, ?_⟩
          · intro e he hrule
            have hout := (List.mem_filter.mp he).2
            exact absurd (hkept e.id hrule) (by simpa using hout)
          · intro e he
            obtain ⟨hmem', hid⟩ := List.mem_filter.mp he
            refine (hfill _ (htagged hmem') (by simpa using hid)).imp_right fun ⟨hne, hnew⟩ =>
              ⟨hne, fun e' he' => ?_⟩
            obtain ⟨hmem'', hid'⟩ := List.mem_filter.mp he'
            exact hnew _ (htagged hmem'') (by simpa using hid')
          · rw [List.length_map] at hleast
            exact hleast.trans (length_filter_keep hsub)

end Plan

/-! ## What goes -/

/-- The map after some snapshots have been removed or dropped. -/
def Stored.forget (stored : Stored) (force : Bool) (ids : List ID) : Stored := fun file =>
  if file.fileType = .snapshot ∧ file.id ∈ ids then
    if file.ext = none then none
    else if file.ext = some .dropped ∧ force = false then stored ⟨.snapshot, file.id, none⟩
    else stored file
  else stored file

section Gone

variable {env : SnapshotEnv} {b : Files} {args : ForgetArgs} {now : Int} {force : Bool} {id : ID}
  {stored : Stored}

theorem Stored.forget_nil (stored : Stored) (force : Bool) : stored.forget force [] = stored := by
  funext file
  simp [Stored.forget]

/-- Snapshots that are forgotten one after the other are forgotten together. -/
theorem Stored.forget_cons (stored : Stored) (force : Bool) {ids : List ID} (hid : id ∉ ids) :
    (stored.forget force [id]).forget force ids = stored.forget force (id :: ids) := by
  funext file
  by_cases htype : file.fileType = .snapshot
  · by_cases hmem : file.id ∈ ids
    · have hne : file.id ≠ id := fun heq => hid (heq ▸ hmem)
      simp [Stored.forget, htype, hmem, hne]
    · simp [Stored.forget, htype, hmem]
  · simp [Stored.forget, htype]

/-- A removal of the file. -/
theorem Stored.forget_force (stored : Stored) (id : ID) :
    stored.forget true [id] = Function.update stored ⟨.snapshot, id, none⟩ none := by
  funext file
  obtain ⟨fileType, id', ext⟩ := file
  rw [Function.update_apply, Stored.forget]
  simp only [List.mem_singleton, RepoFile.mk.injEq, reduceCtorEq, and_false, if_false]
  by_cases htype : fileType = .snapshot <;> by_cases hid : id' = id <;>
    by_cases hext : ext = none <;> simp [htype, hid, hext]

/-- A new name for the file. -/
theorem Stored.forget_drop (stored : Stored) (id : ID) {data : Bytes}
    (hdata : stored ⟨.snapshot, id, none⟩ = some data) :
    stored.move ⟨.snapshot, id, none⟩ ⟨.snapshot, id, some .dropped⟩ =
      some (stored.forget false [id]) := by
  rw [Stored.move, hdata, Option.map_some]
  refine congrArg some (funext fun file => ?_)
  obtain ⟨fileType, id', ext⟩ := file
  simp only [Function.update_apply, Stored.forget, List.mem_singleton, RepoFile.mk.injEq, and_true]
  by_cases htype : fileType = .snapshot <;> by_cases hid : id' = id <;>
    by_cases hext : ext = none <;> by_cases hdrop : ext = some .dropped <;>
      simp [htype, hid, hext, hdrop, hdata]

/-- **One snapshot** that is there can be removed. -/
theorem LaidOut.forgetOne (h : LaidOut b) (force : Bool)
    (hstored : (b.stored ⟨.snapshot, id, none⟩).isSome) :
    ∃ b', Mapache.forgetOne force b id = .ok b' ∧ LaidOut b' ∧
      b'.stored = b.stored.forget force [id] := by
  obtain ⟨data, hdata⟩ := Option.isSome_iff_exists.mp hstored
  cases force with
  | true =>
    obtain ⟨hlaid, hremoved⟩ := h.remove ⟨.snapshot, id, none⟩
    refine ⟨_, ?_, hlaid, hremoved.trans (Stored.forget_force _ _).symm⟩
    rw [Mapache.forgetOne, if_pos rfl, deleteFile, Files.lstat, filePath_eq,
      Files.fileAt_eq_some.mp hdata]
  | false =>
    have hrename := h.rename ⟨.snapshot, id, none⟩ ⟨.snapshot, id, some .dropped⟩
    rw [Stored.forget_drop _ _ hdata, ← getPath_eq_path] at hrename
    generalize hcall : b.rename (getPath .snapshot id)
      (RepoFile.path ⟨.snapshot, id, some .dropped⟩) = r at hrename
    cases r with
    | error e => cases hrename
    | ok b' =>
      obtain ⟨hlaid, heq⟩ : LaidOut b' ∧ b'.stored = _ := by
        cases hrename
        assumption
      refine ⟨b', ?_, hlaid, heq⟩
      have hset : setExtension b .snapshot id (some .dropped) = .ok b' := hcall
      rw [Mapache.forgetOne, if_neg Bool.false_ne_true, hset]

/-- **The loop** removes all of them. -/
theorem LaidOut.forgetAll (h : LaidOut b) (force : Bool) {es : List ForgetEntry}
    (hnodup : (es.map fun e => e.id).Nodup)
    (hstored : ∀ e ∈ es, (b.stored ⟨.snapshot, e.id, none⟩).isSome) :
    ∃ b', Mapache.forgetAll force b es = (b', none) ∧ LaidOut b' ∧
      b'.stored = b.stored.forget force (es.map fun e => e.id) := by
  induction es generalizing b with
  | nil => exact ⟨b, rfl, h, (Stored.forget_nil _ _).symm⟩
  | cons e es ih =>
    rw [List.map_cons, List.nodup_cons] at hnodup
    obtain ⟨hnew, hrest⟩ := hnodup
    obtain ⟨b₁, hone, hlaid₁, hstored₁⟩ := h.forgetOne force (hstored e List.mem_cons_self)
    -- the others are still there
    have hothers : ∀ e' ∈ es, (b₁.stored ⟨.snapshot, e'.id, none⟩).isSome := by
      intro e' he'
      have hne : e'.id ≠ e.id := fun heq => hnew (heq ▸ List.mem_map_of_mem he')
      rw [hstored₁, Stored.forget]
      simp only [List.mem_singleton, hne, and_false, if_false]
      exact hstored e' (List.mem_cons_of_mem _ he')
    obtain ⟨b', hall, hlaid, hfinal⟩ := ih hlaid₁ hrest hothers
    refine ⟨b', ?_, hlaid, ?_⟩
    · rw [Mapache.forgetAll, hone]
      exact hall
    · rw [hfinal, hstored₁, List.map_cons, Stored.forget_cons _ _ hnew]

/-- What a `forget` with a plan does. -/
theorem LaidOut.forgetPhase (h : LaidOut b) {plan : ForgetPlan} (interrupted : Bool)
    (hplan : forgetPlan env b args now = .ok plan) :
    (Mapache.forgetPhase env b args now interrupted).2 =
        (if interrupted then .err .interrupted else .ok plan) ∧
      LaidOut (Mapache.forgetPhase env b args now interrupted).1 ∧
      (Mapache.forgetPhase env b args now interrupted).1.stored =
        if args.dryRun then b.stored else b.stored.forget args.force (plan.removed.map fun e => e.id) := by
  have hsound := h.forgetPlan_sound hplan
  rw [Mapache.forgetPhase, hplan]
  cases args.dryRun with
  | true => exact ⟨rfl, h, rfl⟩
  | false =>
    have hnodup := hsound.nodup
    rw [List.map_append] at hnodup
    obtain ⟨b', hall, hlaid, hstored⟩ := h.forgetAll args.force
      (List.nodup_append.mp hnodup).2.1 fun e he =>
        isSome_stored_of_load ((hsound.complete e).mp (Or.inr he)).1
    simp only [Bool.false_eq_true, if_false, hall]
    exact ⟨trivial, hlaid, hstored⟩

/-- **What `forget` does.** In a repository with its layout it keeps the layout. When it gets as far as
to remove something, what it keeps and removes are the snapshots that pass the filters, told apart by
the IDs in the arguments or by the rules; unless it is a dry run exactly the files of those that it
removes go, or get the extension `dropped` with their contents, and only an interrupt makes it fail.
Otherwise it changes nothing. -/
theorem forgetPhase_spec (env : SnapshotEnv) (b : Files) (args : ForgetArgs) (now : Int)
    (interrupted : Bool) (h : LaidOut b) :
    let after := forgetPhase env b args now interrupted
    LaidOut after.1 ∧
    (∀ plan, forgetPlan env b args now = .ok plan → plan.Sound env b args now ∧
      after.2 = (if interrupted then .err .interrupted else .ok plan) ∧
      after.1.stored = if args.dryRun then b.stored
        else b.stored.forget args.force (plan.removed.map fun e => e.id)) ∧
    ((∀ plan, after.2 ≠ .ok plan) → after.2 ≠ .err .interrupted → after.1 = b) := by
  intro after
  cases hplan : forgetPlan env b args now with
  | ok plan =>
    obtain ⟨hresult, hlaid, hstored⟩ := h.forgetPhase interrupted hplan
    refine ⟨hlaid, ?_, fun hok herr => ?_⟩
    · rintro _ ⟨⟩
      exact ⟨h.forgetPlan_sound hplan, hresult, hstored⟩
    · cases interrupted with
      | true => exact absurd hresult herr
      | false => exact absurd hresult (hok plan)
  | err e =>
    have hafter : after = (b, .err e) := by
      unfold after
      rw [forgetPhase, hplan]
    rw [hafter]
    exact ⟨h, fun plan hcontra => (by cases hcontra), fun _ _ => rfl⟩
  | panic =>
    have hafter : after = (b, .panic) := by
      unfold after
      rw [forgetPhase, hplan]
    rw [hafter]
    exact ⟨h, fun plan hcontra => (by cases hcontra), fun _ _ => rfl⟩

end Gone

/-! ## Recalling -/

section Recall

variable {env : SnapshotEnv} {b b' : Files} {id : ID} {stored : Stored}

/-- A recall of a dropped snapshot gives its file the old name. -/
theorem LaidOut.recall (h : LaidOut b) (id : ID) :
    Option.Rel (fun b' stored => LaidOut b' ∧ b'.stored = stored)
      (recallDroppedSnapshot b id).toOption
      (b.stored.move ⟨.snapshot, id, some .dropped⟩ ⟨.snapshot, id, none⟩) := by
  have hrename := h.rename ⟨.snapshot, id, some .dropped⟩ ⟨.snapshot, id, none⟩
  rw [← getPath_eq_path] at hrename
  exact hrename

/-- A recall takes one snapshot back. -/
theorem Stored.move_forget {ids : List ID} (hid : id ∉ ids)
    (hstored : (stored ⟨.snapshot, id, none⟩).isSome)
    (hdropped : stored ⟨.snapshot, id, some .dropped⟩ = none) :
    (stored.forget false (id :: ids)).move ⟨.snapshot, id, some .dropped⟩ ⟨.snapshot, id, none⟩ =
      some (stored.forget false ids) := by
  obtain ⟨data, hdata⟩ := Option.isSome_iff_exists.mp hstored
  have hsrc : stored.forget false (id :: ids) ⟨.snapshot, id, some .dropped⟩ = some data := by
    simp [Stored.forget, hdata]
  rw [Stored.move, hsrc, Option.map_some]
  refine congrArg some (funext fun file => ?_)
  obtain ⟨fileType, id', ext⟩ := file
  simp only [Function.update_apply, Stored.forget, List.mem_cons, RepoFile.mk.injEq]
  by_cases htype : fileType = .snapshot
  · by_cases hsame : id' = id
    · -- the snapshot itself: under its name, dropped, or with another extension
      by_cases hext : ext = none
      · simp [htype, hsame, hext, hid, hdata]
      · by_cases hdrop : ext = some .dropped
        · simp [htype, hsame, hdrop, hid, hdropped]
        · simp [htype, hsame, hext, hdrop, hid]
    · simp [htype, hsame]
  · simp [htype]

/-- **Recalling what was forgotten gives the files back.** After a `forget` that was neither forced nor
a dry run, of snapshots none of which had been dropped before, all that it has removed can be recalled,
in any order, and the files are those of before. -/
theorem recall_undoes_forget (env : SnapshotEnv) (b : Files) (args : ForgetArgs) (now : Int)
    (plan : ForgetPlan) (ids : List ID) (h : LaidOut b) (hforce : args.force = false)
    (hdry : args.dryRun = false) (hplan : forgetPlan env b args now = .ok plan)
    (hnone : ∀ e ∈ plan.removed, b.stored ⟨.snapshot, e.id, some .dropped⟩ = none)
    (hperm : ids.Perm (plan.removed.map fun e => e.id)) (interrupted : Bool) :
    ∃ b', ids.foldlM (fun b id => (recallDroppedSnapshot b id).toOption)
        (forgetPhase env b args now interrupted).1 = some b' ∧
      LaidOut b' ∧ b'.stored = b.stored := by
  have hsound := h.forgetPlan_sound hplan
  obtain ⟨-, hlaid, hstored⟩ := h.forgetPhase interrupted hplan
  rw [if_neg (by rw [hdry]; exact Bool.false_ne_true), hforce] at hstored
  -- what is forgotten does not depend on the order
  have hsame : b.stored.forget false (plan.removed.map fun e => e.id) = b.stored.forget false ids := by
    funext file
    simp only [Stored.forget, hperm.mem_iff]
  rw [hsame] at hstored
  have hnodup : ids.Nodup := by
    have hall := hsound.nodup
    rw [List.map_append] at hall
    exact hperm.nodup_iff.mpr (List.nodup_append.mp hall).2.1
  have hfiles : ∀ id ∈ ids, (b.stored ⟨.snapshot, id, none⟩).isSome ∧
      b.stored ⟨.snapshot, id, some .dropped⟩ = none := by
    intro id hid
    obtain ⟨e, he, rfl⟩ := List.mem_map.mp (hperm.mem_iff.mp hid)
    exact ⟨isSome_stored_of_load ((hsound.complete e).mp (Or.inr he)).1, hnone e he⟩
  generalize (forgetPhase env b args now interrupted).1 = after at hlaid hstored
  clear hsame hperm
  -- each recall takes one of the IDs from what is forgotten
  induction ids generalizing after with
  | nil => exact ⟨after, rfl, hlaid, hstored.trans (Stored.forget_nil _ _)⟩
  | cons id ids ih =>
    rw [List.nodup_cons] at hnodup
    obtain ⟨hdata, hdropped⟩ := hfiles id List.mem_cons_self
    have hrecall := hlaid.recall id
    rw [hstored, Stored.move_forget hnodup.1 hdata hdropped] at hrecall
    rw [List.foldlM_cons]
    generalize (recallDroppedSnapshot after id).toOption = r at hrecall ⊢
    obtain ⟨b₁, rfl, hlaid₁, hstored₁⟩ : ∃ b₁, r = some b₁ ∧ LaidOut b₁ ∧
        b₁.stored = b.stored.forget false ids := by
      cases hrecall with
      | some hrel => exact ⟨_, rfl, hrel⟩
    exact ih hnodup.2 (fun id' hid' => hfiles id' (List.mem_cons_of_mem _ hid')) b₁ hlaid₁ hstored₁

end Recall

/-! ## Runs -/

/-- The commands that change the snapshots. -/
inductive SnapshotCommand where
  | save (data : Bytes) (nonce : Nonce)
  | forget (args : ForgetArgs) (now : Int) (interrupted : Bool)
  | recallDropped (pre : String)
  | clean

section Run

variable (env : SnapshotEnv) (fromContent : Bytes → ID)

/-- One command, which leaves the files as they are if it fails; a collection removes the trash that it
has found before. -/
def SnapshotCommand.step (b : Files) : SnapshotCommand → Files
  | .save data nonce =>
    (b.exec env.storage fromContent (.save .calculateID data nonce .snapshot none)).getD b
  | .forget args now interrupted => (forgetPhase env b args now interrupted).1
  | .recallDropped pre => (recallSnapshot env b pre).toOption.getD b
  | .clean =>
    match listPacksAndTrash b env.nodeOrder ((b.below objectsDir).length + 1) with
    | .ok (some (_, trash)) => deleteTrashFiles b env.order (some trash)
    | _ => b

/-- Some commands one after the other. -/
def runCommands (b : Files) (cmds : List SnapshotCommand) : Files :=
  cmds.foldl (SnapshotCommand.step env fromContent) b

/-- The command does nothing against the snapshot with an ID and a content: a save does not write
another content under the ID, a forced `forget` does not name it, and a collection does not find it
dropped. -/
def SnapshotCommand.Spares (b : Files) (id : ID) (bytes : Bytes) : SnapshotCommand → Prop
  | .save data nonce => ∀ bytes', encodeFile env.storage nonce data .snapshot = some bytes' →
      fromContent bytes' = id → bytes' = bytes
  | .forget args now _ => args.force = true → args.dryRun = false → ∀ plan,
      forgetPlan env b args now = .ok plan → ∀ e ∈ plan.removed, e.id ≠ id
  | .recallDropped _ => True
  | .clean => (b.stored ⟨.snapshot, id, none⟩).isSome

end Run

/-- The content is under one of the two names, and no other one is. -/
structure Stored.Keeps (stored : Stored) (id : ID) (bytes : Bytes) : Prop where
  held : stored ⟨.snapshot, id, none⟩ = some bytes ∨
    stored ⟨.snapshot, id, some .dropped⟩ = some bytes
  active : ∀ bytes', stored ⟨.snapshot, id, none⟩ = some bytes' → bytes' = bytes
  dropped : ∀ bytes', stored ⟨.snapshot, id, some .dropped⟩ = some bytes' → bytes' = bytes

section Keep

variable {env : SnapshotEnv} {fromContent : Bytes → ID} {b : Files} {id : ID} {bytes : Bytes}
  {stored : Stored}

/-- A change of other files does not touch the snapshot. -/
theorem Stored.Keeps.congr {stored' : Stored} (h : stored.Keeps id bytes)
    (hactive : stored' ⟨.snapshot, id, none⟩ = stored ⟨.snapshot, id, none⟩)
    (hdropped : stored' ⟨.snapshot, id, some .dropped⟩ = stored ⟨.snapshot, id, some .dropped⟩) :
    stored'.Keeps id bytes := by
  obtain ⟨held, active, dropped⟩ := h
  exact ⟨by rwa [hactive, hdropped], by rwa [hactive], by rwa [hdropped]⟩

/-- Dropping keeps the content. -/
theorem Stored.Keeps.drop (h : stored.Keeps id bytes) (ids : List ID) :
    id ∈ ids → (stored ⟨.snapshot, id, none⟩).isSome → (stored.forget false ids).Keeps id bytes := by
  intro hid hsome
  obtain ⟨data, hdata⟩ := Option.isSome_iff_exists.mp hsome
  have heq := h.active data hdata
  have hactive : stored.forget false ids ⟨.snapshot, id, none⟩ = none := by
    simp [Stored.forget, hid]
  have hdropped : stored.forget false ids ⟨.snapshot, id, some .dropped⟩ = some bytes := by
    simp [Stored.forget, hid, hdata, heq]
  refine ⟨Or.inr hdropped, fun bytes' hb => ?_, fun bytes' hb => ?_⟩
  · rw [hactive] at hb
    cases hb
  · rw [hdropped] at hb
    exact (Option.some.inj hb).symm

/-- So does recalling. -/
theorem Stored.Keeps.recall {stored' : Stored} (h : stored.Keeps id bytes) {id' : ID}
    (hmove : stored.move ⟨.snapshot, id', some .dropped⟩ ⟨.snapshot, id', none⟩ = some stored') :
    stored'.Keeps id bytes := by
  by_cases hid : id = id'
  · subst hid
    obtain ⟨data, hdata, rfl⟩ := Option.map_eq_some_iff.mp hmove
    have heq := h.dropped data hdata
    subst heq
    refine ⟨Or.inl ?_, fun bytes' hb => ?_, fun bytes' hb => ?_⟩
    · rw [Function.update_self]
    · rw [Function.update_self] at hb
      exact (Option.some.inj hb).symm
    · rw [Function.update_of_ne (by simp), Function.update_self] at hb
      cases hb
  · exact h.congr (Stored.move_of_ne hmove (by simp) (by simp [hid]))
      (Stored.move_of_ne hmove (by simp [hid]) (by simp))

/-- **One command** that spares the snapshot keeps its content. -/
theorem LaidOut.step_keeps (h : LaidOut b) (cmd : SnapshotCommand)
    (hkeeps : b.stored.Keeps id bytes) (hsafe : cmd.Spares env fromContent b id bytes) :
    LaidOut (cmd.step env fromContent b) ∧ (cmd.step env fromContent b).stored.Keeps id bytes := by
  cases cmd with
  | save data nonce =>
    have hexec := h.exec env.storage fromContent (.save .calculateID data nonce .snapshot none)
    rw [SnapshotCommand.step]
    generalize b.exec env.storage fromContent (.save .calculateID data nonce .snapshot none) = r
      at hexec ⊢
    generalize hsave : b.stored.exec env.storage fromContent
      (.save .calculateID data nonce .snapshot none) = r' at hexec
    cases hexec with
    | none => exact ⟨h, hkeeps⟩
    | some hrel =>
      obtain ⟨hlaid, rfl⟩ := hrel
      refine ⟨hlaid, ?_⟩
      obtain ⟨written, hencode, heq⟩ := Option.map_eq_some_iff.mp hsave
      rw [Option.getD_some, ← heq]
      by_cases hid : fromContent written = id
      · -- the same content is written once more
        have hsame := hsafe written hencode hid
        subst hsame
        have hdropped : Function.update b.stored ⟨.snapshot, fromContent written, none⟩
            (some written) ⟨.snapshot, id, some .dropped⟩ = b.stored ⟨.snapshot, id, some .dropped⟩ :=
          Function.update_of_ne (by simp) _ _
        subst hid
        refine ⟨Or.inl (Function.update_self _ _ _), fun bytes' hb => ?_, fun bytes' hb => ?_⟩
        · rw [SaveID.resolve, Function.update_self] at hb
          exact (Option.some.inj hb).symm
        · rw [SaveID.resolve, hdropped] at hb
          exact hkeeps.dropped bytes' hb
      · refine hkeeps.congr (Function.update_of_ne ?_ _ _) (Function.update_of_ne (by simp) _ _)
        simpa [SaveID.resolve] using Ne.symm hid
  | forget args now interrupted =>
    rw [SnapshotCommand.step]
    cases hplan : forgetPlan env b args now with
    | err e =>
      rw [Mapache.forgetPhase, hplan]
      exact ⟨h, hkeeps⟩
    | panic =>
      rw [Mapache.forgetPhase, hplan]
      exact ⟨h, hkeeps⟩
    | ok plan =>
      obtain ⟨-, hlaid, hstored⟩ := h.forgetPhase interrupted hplan
      refine ⟨hlaid, ?_⟩
      rw [hstored]
      cases hdry : args.dryRun with
      | true => exact hkeeps
      | false =>
        rw [if_neg Bool.false_ne_true]
        by_cases hid : id ∈ plan.removed.map fun e => e.id
        · obtain ⟨e, he, heq⟩ := List.mem_map.mp hid
          cases hforce : args.force with
          | true => exact absurd heq (hsafe hforce hdry plan hplan e he)
          | false =>
            have hsome := isSome_stored_of_load
              (((h.forgetPlan_sound hplan).complete e).mp (Or.inr he)).1
            exact hkeeps.drop _ hid (heq ▸ hsome)
        · exact hkeeps.congr (by simp [Stored.forget, hid]) (by simp [Stored.forget, hid])
  | recallDropped pre =>
    rw [SnapshotCommand.step, recallSnapshot]
    split
    · exact ⟨h, hkeeps⟩
    · rename_i id' p hfind
      have hrecall := h.recall id'
      generalize (recallDroppedSnapshot b id').toOption = r at hrecall ⊢
      generalize hmove : b.stored.move ⟨.snapshot, id', some .dropped⟩ ⟨.snapshot, id', none⟩ = r'
        at hrecall
      cases hrecall with
      | none => exact ⟨h, hkeeps⟩
      | some hrel =>
        obtain ⟨hlaid, rfl⟩ := hrel
        exact ⟨hlaid, hkeeps.recall hmove⟩
  | clean =>
    obtain ⟨packs, trash, hlist, -, -, -, htrash⟩ :=
      h.listPacksAndTrash env.nodes_perm (Nat.lt_succ_self (b.below objectsDir).length)
    rw [SnapshotCommand.step, hlist]
    refine ⟨(h.deleteTrashFiles env.order_perm htrash).1, ?_⟩
    dsimp only
    rw [h.stored_deleteTrashFiles env.order_perm htrash]
    -- the snapshot is not dropped, so that its file stays
    obtain ⟨data, hdata⟩ := Option.isSome_iff_exists.mp hsafe
    have hactive : b.stored.clean ⟨.snapshot, id, none⟩ = some data := by
      simpa [Stored.clean] using hdata
    have heq := hkeeps.active data hdata
    subst heq
    refine ⟨Or.inl hactive, fun bytes' hb => ?_, fun bytes' hb => ?_⟩
    · rw [hactive] at hb
      exact (Option.some.inj hb).symm
    · simp [Stored.clean] at hb

/-- **Snapshots are kept.** In any run of saves, `forget`, `recall` and collections, the file of a
snapshot is there with its content, under its name or dropped, as long as no forced `forget` names it
and no collection finds it dropped; so it can still be loaded as it was. -/
theorem snapshots_are_kept (env : SnapshotEnv) (fromContent : Bytes → ID) (b : Files)
    (cmds : List SnapshotCommand) (id : ID) (bytes : Bytes) (h : LaidOut b)
    (hkeeps : b.stored.Keeps id bytes)
    (hsafe : ∀ front cmd back, cmds = front ++ cmd :: back →
      cmd.Spares env fromContent (runCommands env fromContent b front) id bytes) :
    let after := runCommands env fromContent b cmds
    LaidOut after ∧ after.stored.Keeps id bytes ∧
      ∃ ext, (ext = none ∨ ext = some .dropped) ∧ loadSnapshot env after id ext =
        (decodeFile env.storage bytes .snapshot).bind env.parse := by
  have hrun : LaidOut (runCommands env fromContent b cmds) ∧
      (runCommands env fromContent b cmds).stored.Keeps id bytes := by
    induction cmds generalizing b with
    | nil => exact ⟨h, hkeeps⟩
    | cons cmd cmds ih =>
      obtain ⟨hlaid, hnext⟩ := h.step_keeps cmd hkeeps (hsafe [] cmd cmds rfl)
      exact ih (cmd.step env fromContent b) hlaid hnext fun front cmd' back heq =>
        hsafe (cmd :: front) cmd' back (by rw [heq, List.cons_append])
  obtain ⟨hlaid, hafter⟩ := hrun
  intro after
  have hload : ∀ ext, after.stored ⟨.snapshot, id, ext⟩ = some bytes →
      loadSnapshot env after id ext = (decodeFile env.storage bytes .snapshot).bind env.parse := by
    intro ext hstored
    have hfile : after.fileAt (filePath .snapshot id ext) = some bytes := hstored
    rw [loadSnapshot, loadFile, hfile, Option.bind_some, readAt_zero]
  refine ⟨hlaid, hafter, ?_⟩
  rcases hafter.held with hactive | hdropped
  · exact ⟨none, Or.inl rfl, hload none hactive⟩
  · exact ⟨some .dropped, Or.inr rfl, hload _ hdropped⟩

end Keep

/-! ## One snapshot -/

section Sample

/-- A repository with one snapshot. -/
def oneSnapshot : Files :=
  emptyRepo.execAll headerStorage (fun _ => 0) [.save (.withID 1) [1] sampleNonce .snapshot none]

/-- Every snapshot is read as one of 1970 without tags. -/
def oneSnapshotEnv : SnapshotEnv where
  storage := headerStorage
  parse := fun _ => some ⟨0, [], none⟩
  zone := .fixed 0
  order := List.reverse
  nodeOrder := fun _ nodes => nodes
  sortByTime := fun l => l.mergeSort fun e e' => decide (e.timestamp ≤ e'.timestamp)
  order_perm := List.reverse_perm
  nodes_perm := fun _ _ => .refl _
  sort_perm := fun l => List.mergeSort_perm l _
  sort_sorted := fun l => by
    have hsorted : (l.mergeSort fun e e' => decide (e.timestamp ≤ e'.timestamp)).Pairwise
        fun e e' => decide (e.timestamp ≤ e'.timestamp) = true := by
      apply List.pairwise_mergeSort
      · intro e₁ e₂ e₃
        simp only [decide_eq_true_eq]
        exact le_trans
      · intro e₁ e₂
        simp only [Bool.or_eq_true, decide_eq_true_eq]
        exact le_total _ _
    simpa using hsorted

/-- The arguments that keep none. -/
def keepNone : ForgetArgs where
  forget := []
  force := false
  tagsStr := none
  hosts := []
  keepLast := some 0
  keepWithin := none
  keepYearly := none
  keepMonthly := none
  keepWeekly := none
  keepDaily := none
  keepHourly := none
  keepTags := none
  keepMin := none
  dryRun := false

theorem laidOut_oneSnapshot : LaidOut oneSnapshot := (laidOut_emptyRepo.execAll _ _ _).1

theorem stored_oneSnapshot (file : RepoFile) : oneSnapshot.stored file =
    if file = ⟨.snapshot, 1, none⟩ then headerStorage.encode sampleNonce [1] else none := by
  have hempty : emptyRepo.stored file = none := by
    rw [Files.stored, Files.fileAt, lookup_emptyRepo]
    by_cases hmem : file.path ∈ layoutDirs
    · rw [if_pos hmem]
    · rw [if_neg hmem]
  have hrun : oneSnapshot.stored = Function.update emptyRepo.stored ⟨.snapshot, 1, none⟩
      (headerStorage.encode sampleNonce [1]) := (laidOut_emptyRepo.execAll _ _ _).2
  rw [hrun, Function.update_apply, hempty]

/-- The plan removes the only snapshot. -/
theorem forgetPlan_oneSnapshot : forgetPlan oneSnapshotEnv oneSnapshot keepNone 0 =
    .ok ⟨[], [⟨⟨⟨1, 0⟩, []⟩, none⟩]⟩ := by
  obtain ⟨ids, hlist, hnodup, hmem⟩ :=
    laidOut_oneSnapshot.listSnapshotIds oneSnapshotEnv.order_perm
  have hids : ids = [1] := by
    refine List.perm_singleton.mp ((List.perm_ext_iff_of_nodup hnodup (List.nodup_singleton 1)).mpr
      fun id => ?_)
    have hid : id ∈ ids ↔ (oneSnapshot.stored ⟨.snapshot, id, none⟩).isSome := hmem id
    rw [hid, stored_oneSnapshot, List.mem_singleton]
    by_cases heq : id = 1
    · subst heq
      simp only [if_true, iff_true]
      rfl
    · simp [heq]
  have hfile : oneSnapshot.fileAt (filePath .snapshot 1 none) =
      headerStorage.encode sampleNonce [1] := (stored_oneSnapshot ⟨.snapshot, 1, none⟩).trans (if_pos rfl)
  have hload : loadSnapshot oneSnapshotEnv oneSnapshot 1 none = some ⟨0, [], none⟩ := by
    rw [loadSnapshot, loadFile, hfile]
    rfl
  have hentries : collectEntries oneSnapshotEnv oneSnapshot [1] = some [⟨⟨⟨1, 0⟩, []⟩, none⟩] := by
    rw [collectEntries, List.reverse_singleton, List.mapM_cons, hload]
    rfl
  have hsort : oneSnapshotEnv.sortByTime (consideredEntries keepNone [⟨⟨⟨1, 0⟩, []⟩, none⟩]) =
      [⟨⟨⟨1, 0⟩, []⟩, none⟩] := List.perm_singleton.mp (oneSnapshotEnv.sort_perm _)
  have hrules : applyRetentionRules (.fixed 0) [⟨⟨1, 0⟩, []⟩] 0 [.keepLast 0] none = some ∅ := by
    decide +kernel
  have hkeep : idsToKeep oneSnapshotEnv oneSnapshot keepNone 0 [⟨⟨⟨1, 0⟩, []⟩, none⟩] = .ok ∅ := by
    rw [idsToKeep, if_neg (by simp [keepNone]), if_neg (by simp [keepNone, ForgetArgs.retentionRules])]
    have hargs : applyRetentionRules oneSnapshotEnv.zone
        ([⟨⟨⟨1, 0⟩, []⟩, none⟩].map ForgetEntry.toTaggedEntry) 0 keepNone.retentionRules
        keepNone.keepMin = some ∅ := hrules
    rw [hargs]
  subst hids
  rw [forgetPlan_eq hlist hentries, hsort, hkeep]
  rfl

/-- The snapshot is dropped. -/
theorem forgetPhase_spec_oneSnapshot :
    (forgetPhase oneSnapshotEnv oneSnapshot keepNone 0 false).1.stored =
      oneSnapshot.stored.forget false [1] :=
  ((forgetPhase_spec oneSnapshotEnv oneSnapshot keepNone 0 false laidOut_oneSnapshot).2.1 _
    forgetPlan_oneSnapshot).2.2

/-- It is recalled. -/
theorem recall_undoes_forget_oneSnapshot :
    ∃ b', [1].foldlM (fun b id => (recallDroppedSnapshot b id).toOption)
        (forgetPhase oneSnapshotEnv oneSnapshot keepNone 0 true).1 = some b' ∧
      LaidOut b' ∧ b'.stored = oneSnapshot.stored :=
  recall_undoes_forget oneSnapshotEnv oneSnapshot keepNone 0 _ [1] laidOut_oneSnapshot rfl rfl
    forgetPlan_oneSnapshot (fun e he => by cases List.mem_singleton.mp he; rw [stored_oneSnapshot]; rfl)
    (.refl _) true

/-- It outlives a collection, a `forget` and a recall. -/
theorem snapshots_are_kept_oneSnapshot :
    ∃ ext, (ext = none ∨ ext = some .dropped) ∧
      loadSnapshot oneSnapshotEnv (runCommands oneSnapshotEnv (fun _ => 0) oneSnapshot
        [.clean, .forget keepNone 0 false, .recallDropped "0"]) 1 ext = some ⟨0, [], none⟩ := by
  have hkeeps : oneSnapshot.stored.Keeps 1 [1, 1] := by
    have hactive : oneSnapshot.stored ⟨.snapshot, 1, none⟩ = some [1, 1] :=
      (stored_oneSnapshot _).trans rfl
    refine ⟨Or.inl hactive, fun bytes' hb => ?_, fun bytes' hb => ?_⟩
    · rw [hactive] at hb
      exact (Option.some.inj hb).symm
    · rw [stored_oneSnapshot] at hb
      cases hb
  refine (snapshots_are_kept oneSnapshotEnv (fun _ => 0) oneSnapshot _ 1 [1, 1] laidOut_oneSnapshot
    hkeeps fun front cmd back heq => ?_).2.2
  match front, heq with
  | [], heq =>
    cases heq
    rw [SnapshotCommand.Spares, runCommands, List.foldl_nil, stored_oneSnapshot]
    rfl
  | [_], heq =>
    cases heq
    exact fun hforce => absurd hforce Bool.false_ne_true
  | [_, _], heq =>
    cases heq
    trivial
  | _ :: _ :: _ :: front, heq =>
    have hlen := congrArg List.length heq
    simp at hlen

end Sample

end Mapache
