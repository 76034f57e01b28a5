import Mapache.Repository.FileListing

/-!
# Removing the trash

`delete_trash_files` of `gc.rs`: the temporary and the dropped files in the four directories that hold
no packs, and those that `list_packs_and_trash` has found among the packs, are removed.

What is removed is told by its extension, read as a text. `deleteTrashFiles_exact` says what that makes
of the map of the files: each dropped file goes and no other file does, the directories have no
temporary file left, and a second run finds nothing to remove.
-/

set_option autoImplicit false

namespace Mapache

open Lib

/-- The extension is `tmp` or `dropped`. -/
def hasTrashExtension (p : Path) : Bool :=
  match pathExtension p with
  | some ext => decide (toStringLossy ext = "tmp" ∨ toStringLossy ext = "dropped")
  | none => false

/-- The directories that `delete_trash_files` lists. -/
def trashDirs : List Path := [snapshotsDir, indexDir, keysDir, locksDir]

/-- What it finds in one of them; a listing that fails finds nothing. -/
def trashIn (b : Files) (dir : Path) : List Path :=
  match listPaths b dir with
  | .ok paths => paths.filter hasTrashExtension
  | .error _ => []

/-- The paths that are removed; `order` is the order in which the listings end. -/
def trashFiles (b : Files) (order : List Path → List Path) (objectTrash : Option (List Path)) :
    List Path :=
  (order trashDirs).flatMap (trashIn b) ++ objectTrash.getD []

/-- `delete_trash_files`. -/
def deleteTrashFiles (b : Files) (order : List Path → List Path) (objectTrash : Option (List Path)) :
    Files :=
  (trashFiles b order objectTrash).foldl Files.remove b

/-! ## Texts of ASCII characters -/

section Ascii

variable {b lo hi : UInt8} {len n : Nat} {bs : Bytes} {c : Char}

/-- A continuation of full length begins in its range. -/
theorem utf8Tail_head (h : (utf8Tail lo hi (n + 1) bs).length = n + 1) :
    ∃ c rest, utf8Tail lo hi (n + 1) bs = c :: rest ∧ lo.toNat ≤ c.toNat ∧ c.toNat ≤ hi.toNat ∧
      rest.length = n := by
  cases bs with
  | nil => simp [utf8Tail] at h
  | cons c bs =>
    rw [utf8Tail] at h ⊢
    split at h
    · rename_i hrange
      rw [if_pos hrange]
      exact ⟨c, _, rfl, hrange.1, hrange.2, Nat.succ_inj.mp h⟩
    · cases h

/-- A lead byte of a sequence: its number, and where that may be zero the bound of the next byte. -/
theorem utf8Lead_cases (h : utf8Lead b = some (len, lo, hi)) :
    (len = 2 ∧ 2 ≤ b.toNat % 32) ∨
    (len = 3 ∧ (1 ≤ b.toNat % 16 ∨ lo.toNat = 160 ∧ hi.toNat = 191)) ∨
    (len = 4 ∧ (1 ≤ b.toNat % 8 ∨ lo.toNat = 144 ∧ hi.toNat = 191)) := by
  have hb := b.toNat_lt
  unfold utf8Lead at h
  split_ifs at h with h1 h2 h3 h4 h5 h6 h7
  all_goals
    simp only [Option.some.injEq, Prod.mk.injEq] at h
    obtain ⟨rfl, rfl, rfl⟩ := h
  · have hlo : 194 ≤ b.toNat := h1.1
    have hhi : b.toNat ≤ 223 := h1.2
    omega
  · simp
  · simp [h3]
  · have hlo : 225 ≤ b.toNat := h4.1
    have hhi : b.toNat ≤ 239 := h4.2
    omega
  · simp
  · have hlo : 241 ≤ b.toNat := h6.1
    have hhi : b.toNat ≤ 243 := h6.2
    omega
  · simp [h7]

/-- What takes more than one byte is no ASCII character. -/
theorem ascii_le_of_lead (h : utf8Lead b = some (len, lo, hi))
    (hlen : (utf8Tail lo hi (len - 1) bs).length = len - 1) :
    128 ≤ (utf8Tail lo hi (len - 1) bs).foldl (fun x c => x * 64 + c.toNat % 64)
      (b.toNat % 2 ^ (7 - len)) := by
  rcases utf8Lead_cases h with ⟨rfl, hlead⟩ | ⟨rfl, hlead⟩ | ⟨rfl, hlead⟩
  · obtain ⟨c, rest, heq, -, -, hrest⟩ := utf8Tail_head hlen
    rw [heq, List.length_eq_zero_iff.mp hrest]
    simp only [List.foldl_cons, List.foldl_nil]
    omega
  · obtain ⟨c, rest, heq, hlo, hhi, hrest⟩ := utf8Tail_head hlen
    obtain ⟨d, rfl⟩ := List.length_eq_one_iff.mp hrest
    rw [heq]
    simp only [List.foldl_cons, List.foldl_nil]
    omega
  · obtain ⟨c, rest, heq, hlo, hhi, hrest⟩ := utf8Tail_head hlen
    obtain ⟨d, e, rfl⟩ := List.length_eq_two.mp hrest
    rw [heq]
    simp only [List.foldl_cons, List.foldl_nil]
    omega

/-- The number of a character; what is no character counts as zero. -/
theorem toNat_charOfNat (n : Nat) : (Char.ofNat n).toNat = if n.isValidChar then n else 0 := by
  by_cases h : n.isValidChar
  · have hchar : Char.ofNat n = Char.ofNatAux n h := dif_pos h
    rw [hchar, if_pos h]
    rfl
  · have hzero : Char.ofNat n = '\x00' := dif_neg h
    rw [hzero, if_neg h]
    rfl

/-- An ASCII character is one byte. -/
theorem utf8Next_ascii (h : (utf8Next (b :: bs)).1 = some c) (hpos : 0 < c.toNat)
    (hlt : c.toNat < 128) : (utf8Next (b :: bs)).2 = 1 ∧ b = UInt8.ofNat c.toNat := by
  rw [utf8Next] at h ⊢
  split at h
  · rename_i hb
    rw [if_pos hb]
    have hc : Char.ofNat b.toNat = c := Option.some.inj h
    have hvalid : b.toNat.isValidChar := Or.inl (by have := b.toNat_lt; omega)
    refine ⟨rfl, ?_⟩
    rw [← hc, toNat_charOfNat, if_pos hvalid, UInt8.ofNat_toNat]
  · split at h
    · cases h
    · rename_i len lo hi hlead
      dsimp only at h
      split at h
      · rename_i hlen
        have hc := Option.some.inj h
        have hle := ascii_le_of_lead hlead hlen
        rw [← hc, toNat_charOfNat] at hpos hlt
        split at hpos
        · rename_i hvalid
          rw [if_pos hvalid] at hlt
          omega
        · exact absurd hpos (lt_irrefl 0)
      · cases h

/-- A text of ASCII characters has the bytes of these characters. -/
theorem eq_of_toStringLossy_ascii {s : String} (h : toStringLossy bs = s)
    (hs : ∀ c ∈ s.toList, 0 < c.toNat ∧ c.toNat < 128) :
    bs = s.toList.map fun c => UInt8.ofNat c.toNat := by
  have hgo : ∀ (n : Nat) (bs : Bytes) (cs : List Char), bs.length ≤ n →
      toStringLossy.go n bs = cs → (∀ c ∈ cs, 0 < c.toNat ∧ c.toNat < 128) →
      bs = cs.map fun c => UInt8.ofNat c.toNat := by
    intro n
    induction n with
    | zero =>
      intro bs cs hn hcs _
      cases List.length_eq_zero_iff.mp (Nat.le_zero.mp hn)
      cases hcs
      rfl
    | succ n ih =>
      intro bs cs hn hcs hascii
      match bs with
      | [] =>
        cases hcs
        rfl
      | b :: bs =>
        rw [toStringLossy.go] at hcs
        subst hcs
        obtain ⟨hpos, hlt⟩ := hascii _ List.mem_cons_self
        cases hnext : (utf8Next (b :: bs)).1 with
        | none =>
          -- the replacement is no ASCII character
          rw [hnext, Option.getD_none] at hlt
          exact absurd hlt (by decide)
        | some c =>
          rw [hnext, Option.getD_some] at hpos hlt
          obtain ⟨htwo, hb⟩ := utf8Next_ascii hnext hpos hlt
          rw [htwo, List.drop_one, List.tail_cons] at hascii ⊢
          rw [List.map_cons, Option.getD_some, ← hb]
          refine congrArg _ (ih bs _ (Nat.le_of_succ_le_succ hn) rfl fun c hc => ?_)
          exact hascii c (List.mem_cons_of_mem _ hc)
  refine hgo bs.length bs s.toList le_rfl ?_ hs
  rw [← h, toStringLossy, String.toList_ofList]

end Ascii

/-! ## What is removed -/

section Removed

variable {b b' : Files} {order : List Path → List Path} {paths : List Path} {p : Path}
  {objectTrash : Option (List Path)}

theorem hasTrashExtension_iff : hasTrashExtension p = true ↔
    pathExtension p = some repoTmpExtension ∨ pathExtension p = some repoDroppedExtension := by
  have htmp : ∀ ext, toStringLossy ext = "tmp" ↔ ext = repoTmpExtension := fun ext =>
    ⟨fun h => eq_of_toStringLossy_ascii h (by simp), by rintro rfl; decide⟩
  have hdropped : ∀ ext, toStringLossy ext = "dropped" ↔ ext = repoDroppedExtension := fun ext =>
    ⟨fun h => eq_of_toStringLossy_ascii h (by simp), by rintro rfl; decide⟩
  unfold hasTrashExtension
  cases pathExtension p with
  | none => simp
  | some ext => simp [htmp, hdropped]

/-- Of the files only the dropped ones have such an extension. -/
theorem hasTrashExtension_path (file : RepoFile) :
    hasTrashExtension file.path = true ↔ file.ext = some .dropped := by
  rw [hasTrashExtension_iff, file.pathExtension_path]
  cases hext : file.ext with
  | none => simp
  | some e =>
    have hne : e.bytes ≠ repoTmpExtension := e.ne_tmp
    simp only [Option.map_some, Option.some.injEq, hne, false_or]
    constructor
    · intro h
      cases e
      cases h
      rfl
    · rintro rfl
      rfl

theorem Files.lookup_foldl_remove (b : Files) (paths : List Path) (p : Path) :
    (paths.foldl Files.remove b).lookup p =
      if ∃ q ∈ paths, q <+: p then none else b.lookup p := by
  induction paths generalizing b with
  | nil => simp
  | cons q paths ih =>
    rw [List.foldl_cons, ih, Files.lookup_remove]
    by_cases hq : q <+: p <;> by_cases hrest : ∃ q ∈ paths, q <+: p <;> simp [hq, hrest]

/-- Nothing is below a file, so that no more than the files goes. -/
theorem Files.WF.lookup_foldl_remove (h : b.WF) (hfiles : ∀ q ∈ paths, (b.fileAt q).isSome)
    (p : Path) : (paths.foldl Files.remove b).lookup p = if p ∈ paths then none else b.lookup p := by
  rw [Files.lookup_foldl_remove]
  by_cases hp : p ∈ paths
  · rw [if_pos ⟨p, hp, List.prefix_rfl⟩, if_pos hp]
  · rw [if_neg hp]
    split
    · rename_i hbelow
      obtain ⟨q, hq, hpre⟩ := hbelow
      obtain ⟨data, hdata⟩ := Option.isSome_iff_exists.mp (hfiles q hq)
      have hlook := Files.fileAt_eq_some.mp hdata
      have hne : q ≠ [] := by
        rintro rfl
        rw [h.root] at hlook
        cases hlook
      have hneq : q ≠ p := fun heq => hp (heq ▸ hq)
      cases hsome : b.lookup p with
      | none => rfl
      | some entry =>
        rw [h.above q p entry hsome hne hpre hneq] at hlook
        cases hlook
    · rfl

/-- Files can go without changing the layout. -/
theorem LaidOut.of_removed (h : LaidOut b) (hfiles : ∀ q ∈ paths, (b.fileAt q).isSome)
    (hlook : ∀ p, b'.lookup p = if p ∈ paths then none else b.lookup p) : LaidOut b' := by
  -- what is there was there before, and directories stay
  have hold : ∀ p entry, b'.lookup p = some entry → b.lookup p = some entry := by
    intro p entry hp
    rw [hlook] at hp
    split at hp
    · cases hp
    · exact hp
  have hdir : ∀ p, b.lookup p = some .dir → b'.lookup p = some .dir := by
    intro p hp
    rw [hlook, if_neg, hp]
    intro hmem
    obtain ⟨data, hdata⟩ := Option.isSome_iff_exists.mp (hfiles p hmem)
    rw [Files.fileAt_eq_some.mp hdata] at hp
    cases hp
  have hsome : ∀ p, b'.lookup p ≠ none → b.lookup p ≠ none := by
    intro p hp
    obtain ⟨entry, hentry⟩ := Option.ne_none_iff_exists'.mp hp
    rw [hold p entry hentry]
    exact Option.some_ne_none _
  exact
    { wf :=
        { root := by
            rw [hlook, h.wf.root]
            split <;> rfl
          above := fun p p' entry hp hne hpre hneq =>
            hdir p (h.wf.above p p' entry (hold p' entry hp) hne hpre hneq) }
      dirs := fun dir hmem => hdir dir (h.dirs dir hmem)
      flat := fun p hp hlookup => h.flat p hp (hold p .dir hlookup)
      normal := fun p hp hlookup => h.normal p hp (hsome p hlookup)
      named := fun fileType dir name id hmem hlookup =>
        h.named fileType dir name id hmem (hsome _ hlookup)
      objects := fun p entry hlookup hpre => h.objects p entry (hold p entry hlookup) hpre }

theorem mem_trashDirs_repoDirs {dir : Path} (h : dir ∈ trashDirs) : dir ∈ repoDirs := by
  simp only [trashDirs, List.mem_cons, List.not_mem_nil, or_false] at h
  rcases h with rfl | rfl | rfl | rfl <;> simp [repoDirs]

theorem LaidOut.mem_trashIn (h : LaidOut b) {dir : Path} (hdir : dir ∈ repoDirs) :
    p ∈ trashIn b dir ↔ p.dropLast = dir ∧ b.lookup p ≠ none ∧ hasTrashExtension p = true := by
  obtain ⟨paths, hlist, -, hmem⟩ := listPaths_spec (Or.inr (h.dirs dir hdir) : b.IsDir dir)
  rw [trashIn, hlist]
  dsimp only
  rw [List.mem_filter, hmem]
  constructor
  · rintro ⟨⟨-, hp, hlook⟩, hext⟩
    exact ⟨hp, hlook, hext⟩
  · rintro ⟨hp, hlook, hext⟩
    refine ⟨⟨?_, hp, hlook⟩, hext⟩
    rintro rfl
    exact hlook h.wf.root

/-- What `delete_trash_files` removes. -/
theorem LaidOut.mem_trashFiles (h : LaidOut b) (horder : ∀ dirs, (order dirs).Perm dirs) :
    p ∈ trashFiles b order objectTrash ↔
      (p.dropLast ∈ trashDirs ∧ b.lookup p ≠ none ∧ hasTrashExtension p = true) ∨
        p ∈ objectTrash.getD [] := by
  rw [trashFiles, List.mem_append, List.mem_flatMap]
  refine or_congr_left ?_
  constructor
  · rintro ⟨dir, hdir, hp⟩
    have hdir' := (horder _).mem_iff.mp hdir
    obtain ⟨rfl, hrest⟩ := (h.mem_trashIn (mem_trashDirs_repoDirs hdir')).mp hp
    exact ⟨hdir', hrest⟩
  · rintro ⟨hdir, hrest⟩
    refine ⟨_, (horder _).mem_iff.mpr hdir, ?_⟩
    exact (h.mem_trashIn (mem_trashDirs_repoDirs hdir)).mpr ⟨rfl, hrest⟩

/-- Below `objects` the name of what has such an extension is not read as an ID. -/
theorem LaidOut.isTrash_iff (h : LaidOut b) (hfile : (b.fileAt p).isSome) (hpre : objectsDir <+: p) :
    IsTrash p ↔ p.dropLast ∈ fanoutDirs ∧ hasTrashExtension p = true := by
  obtain ⟨data, hdata⟩ := Option.isSome_iff_exists.mp hfile
  have hlook := Files.fileAt_eq_some.mp hdata
  have hdir : p.dropLast ∈ fanoutDirs := h.dropLast_mem_fanoutDirs hlook hpre
  have hext : hasTrashExtension p = true ↔
      ∃ ext, pathExtension p = some ext ∧ (toStringLossy ext = "tmp" ∨ toStringLossy ext = "dropped") := by
    unfold hasTrashExtension
    cases pathExtension p <;> simp
  rw [IsTrash, ← hext]
  constructor
  · rintro ⟨-, hp⟩
    exact ⟨hdir, hp⟩
  · rintro ⟨-, hp⟩
    refine ⟨?_, hp⟩
    obtain ⟨ext, hpath, -⟩ := hext.mp hp
    obtain ⟨name, hname, hext'⟩ := Option.bind_eq_some_iff.mp hpath
    refine ⟨name, hname, fun id hid => ?_⟩
    -- the name of an ID has no extension
    have hp' := eq_of_fileName hname
    have hsome : b.lookup (p.dropLast ++ [.normal name]) ≠ none := by
      rw [← hp', hlook]
      exact Option.some_ne_none _
    obtain ⟨hhex, -⟩ := (h.named .pack _ name id hdir hsome).1 hid
    rw [hhex, if_pos (fileStem_of_notMem (dot_notMem_hexName id))] at hext'
    cases hext'

/-- What is left, when the trash among the packs is that. -/
theorem LaidOut.deleteTrashFiles (h : LaidOut b) (horder : ∀ dirs, (order dirs).Perm dirs)
    {trash : List Path}
    (htrash : ∀ p, p ∈ trash ↔ (b.fileAt p).isSome ∧ objectsDir <+: p ∧ IsTrash p) :
    LaidOut (deleteTrashFiles b order (some trash)) ∧
      ∀ p, (deleteTrashFiles b order (some trash)).lookup p =
        if p.dropLast ∈ repoDirs ∧ hasTrashExtension p = true then none else b.lookup p := by
  have hfiles : ∀ p, p ∈ trashFiles b order (some trash) ↔
      p.dropLast ∈ repoDirs ∧ b.lookup p ≠ none ∧ hasTrashExtension p = true := by
    intro p
    rw [h.mem_trashFiles horder, Option.getD_some, htrash]
    constructor
    · rintro (⟨hdir, hrest⟩ | ⟨hfile, hpre, hp⟩)
      · exact ⟨mem_trashDirs_repoDirs hdir, hrest⟩
      · obtain ⟨hdir, hext⟩ := (h.isTrash_iff hfile hpre).mp hp
        refine ⟨List.mem_append_right _ hdir, fun hnone => ?_, hext⟩
        rw [Files.fileAt_eq_none.mpr (Or.inl hnone)] at hfile
        cases hfile
    · rintro ⟨hdir, hlook, hext⟩
      rcases List.mem_append.mp hdir with hfour | hfanout
      · refine Or.inl ⟨?_, hlook, hext⟩
        simp only [List.mem_cons, List.not_mem_nil, or_false] at hfour
        rcases hfour with heq | heq | heq | heq <;> simp [trashDirs, heq]
      · have hfile : (b.fileAt p).isSome := h.isSome_fileAt hdir hlook
        have hpre : objectsDir <+: p := by
          obtain ⟨n, -, heq⟩ := List.mem_map.mp hfanout
          exact (heq ▸ List.prefix_append _ _).trans (List.dropLast_prefix p)
        exact Or.inr ⟨hfile, hpre, (h.isTrash_iff hfile hpre).mpr ⟨hfanout, hext⟩⟩
  have hremove : ∀ p, ((trashFiles b order (some trash)).foldl Files.remove b).lookup p =
      if p ∈ trashFiles b order (some trash) then none else b.lookup p :=
    h.wf.lookup_foldl_remove fun q hq =>
      h.isSome_fileAt ((hfiles q).mp hq).1 ((hfiles q).mp hq).2.1
  refine ⟨h.of_removed (fun q hq => h.isSome_fileAt ((hfiles q).mp hq).1 ((hfiles q).mp hq).2.1)
    hremove, fun p => ?_⟩
  refine (hremove p).trans ?_
  by_cases hlook : b.lookup p = none
  · rw [hlook]
    split <;> split <;> rfl
  · have hiff : p ∈ trashFiles b order (some trash) ↔
        p.dropLast ∈ repoDirs ∧ hasTrashExtension p = true := by
      rw [hfiles]
      exact ⟨fun hp => ⟨hp.1, hp.2.2⟩, fun hp => ⟨hp.1, hlook, hp.2⟩⟩
    simp only [hiff]

/-- The map without its dropped files. -/
def Stored.clean (stored : Stored) : Stored := fun file =>
  if file.ext = some .dropped then none else stored file

theorem LaidOut.stored_deleteTrashFiles (h : LaidOut b) (horder : ∀ dirs, (order dirs).Perm dirs)
    {trash : List Path}
    (htrash : ∀ p, p ∈ trash ↔ (b.fileAt p).isSome ∧ objectsDir <+: p ∧ IsTrash p) :
    (Mapache.deleteTrashFiles b order (some trash)).stored = b.stored.clean := by
  obtain ⟨-, hlook⟩ := h.deleteTrashFiles horder htrash
  funext file
  have hdir : file.path.dropLast ∈ repoDirs := file.dropLast_path ▸ file.dir_mem
  simp only [Files.stored, Stored.clean, Files.fileAt, hlook, hdir, true_and,
    hasTrashExtension_path]
  by_cases hext : file.ext = some .dropped
  · simp only [hext, if_true]
  · simp only [hext, if_false]

/-- **Exactly the trash is removed.** In a repository with its layout the removal after a listing of the
packs leaves the layout and every file that is neither temporary nor dropped; no directory has an entry
with one of the two extensions afterwards, so that no dropped file is left and every other one is as it
was. -/
theorem deleteTrashFiles_exact (b : Files) (order : List Path → List Path)
    (nodeOrder : Path → List BackendNode → List BackendNode) (fuel : Nat) (h : LaidOut b)
    (horder : ∀ dirs, (order dirs).Perm dirs) (hnodes : ∀ p nodes, (nodeOrder p nodes).Perm nodes)
    (hfuel : (b.below objectsDir).length < fuel) :
    ∃ packs trash, listPacksAndTrash b nodeOrder fuel = .ok (some (packs, trash)) ∧
      LaidOut (deleteTrashFiles b order (some trash)) ∧
      (deleteTrashFiles b order (some trash)).stored = b.stored.clean ∧
      ∀ p, (deleteTrashFiles b order (some trash)).lookup p =
        if p.dropLast ∈ repoDirs ∧ hasTrashExtension p = true then none else b.lookup p := by
  obtain ⟨packs, trash, hlist, -, -, -, htrash⟩ := h.listPacksAndTrash hnodes hfuel
  obtain ⟨hlaid, hlook⟩ := h.deleteTrashFiles horder htrash
  exact ⟨packs, trash, hlist, hlaid, h.stored_deleteTrashFiles horder htrash, hlook⟩

/-- Of the two snapshots the one that is not dropped stays. -/
theorem deleteTrashFiles_exact_sampleCalls :
    let after := emptyRepo.execAll headerStorage (fun _ => 0) sampleCalls
    ∃ trash, (deleteTrashFiles after List.reverse (some trash)).stored = after.stored.clean := by
  intro after
  obtain ⟨fuel, hfuel⟩ := exists_gt (after.below objectsDir).length
  obtain ⟨-, trash, -, -, hstored, -⟩ := deleteTrashFiles_exact after List.reverse
    (fun _ nodes => nodes) fuel (laidOut_emptyRepo.execAll _ _ sampleCalls).1 List.reverse_perm
    (fun _ _ => .refl _) hfuel
  exact ⟨trash, hstored⟩

end Removed

end Mapache
