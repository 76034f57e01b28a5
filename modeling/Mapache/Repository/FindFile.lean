import Mapache.Repository.FileListing

/-!
# Finding a file by the beginning of its ID

`find_with_extension` of `repo.rs`: the files of a type with an extension are looked through for those
whose stem begins with a text. The search stops with an error at the second one.

A text finds the file whose ID begins with it when no other file of the type and the extension has a
stem that does, and in no other case (`findWithExtension_finds_the_only_match`); what order the listing
has makes no difference.
-/

set_option autoImplicit false

namespace Mapache

open Lib

/-- `Display` of `ContentIdType`. -/
def ContentIdType.text : ContentIdType → String
  | .pack => "pack"
  | .snapshot => "snapshot"
  | .index => "index"
  | .key => "key"
  | .lock => "lock"

/-- The stem of a path, as a text. -/
def stemText (p : Path) : Option String := (fileName p).map fun name => toStringLossy (fileStem name)

/-- `starts_with`. -/
def startsWith (text pre : String) : Bool := pre.toList.isPrefixOf text.toList

/-- The loop of `find_with_extension`. -/
def findLoop (fileType : ContentIdType) (pre : String) :
    Option (String × Path) → List Path → Except StorageError (Option (String × Path))
  | found, [] => .ok found
  | found, p :: paths =>
    match stemText p with
    | none => .error (.repo ("failed to list file for type " ++ fileType.text))
    | some stem =>
      if startsWith stem pre then
        match found with
        | none => findLoop fileType pre (some (stem, p)) paths
        | some _ => .error (.common (.format ("prefix " ++ pre ++ " is ambiguous")))
      else findLoop fileType pre found paths

/-- `find_with_extension`. -/
def findWithExtension (b : Files) (order : List Path → List Path) (fileType : ContentIdType)
    (pre : String) (ext : Option Bytes) : Except StorageError (ID × Path) :=
  if 2 * 32 < (strBytes pre).length then
    .error (.common (.format ("invalid prefix length. The prefix must not be longer than the ID " ++
      "(64 chars)")))
  else if strBytes pre = [] then .error (.common (.format "prefix cannot be empty"))
  else
    match listFilesWithExtension b order fileType ext with
    | .error e => .error e
    | .ok paths =>
      match findLoop fileType pre none paths with
      | .error e => .error e
      | .ok none => .error (.notFound
          ("file type " ++ fileType.text ++ " with prefix " ++ pre ++ " doesn't exist"))
      | .ok (some (stem, p)) =>
        match ID.fromHex stem with
        | .error e => .error (.common e)
        | .ok id => .ok (id, p)

/-- The stem of the path begins with the text. -/
def matchesPrefix (pre : String) (p : Path) : Bool :=
  match stemText p with
  | some stem => startsWith stem pre
  | none => false

/-! ## The loop -/

section Loop

variable {fileType : ContentIdType} {pre : String} {paths : List Path} {p : Path}

/-- The error for a second match. -/
def ambiguousPrefix (pre : String) : StorageError :=
  .common (.format ("prefix " ++ pre ++ " is ambiguous"))

/-- The loop after a match: a second one is an error. -/
theorem findLoop_some (found : String × Path) (hstems : ∀ p ∈ paths, (stemText p).isSome) :
    findLoop fileType pre (some found) paths =
      match paths.filter (matchesPrefix pre) with
      | [] => .ok (some found)
      | _ => .error (ambiguousPrefix pre) := by
  induction paths with
  | nil => rfl
  | cons p paths ih =>
    obtain ⟨stem, hstem⟩ := Option.isSome_iff_exists.mp (hstems p List.mem_cons_self)
    have hmatch : matchesPrefix pre p = startsWith stem pre := by rw [matchesPrefix, hstem]
    rw [findLoop, hstem]
    dsimp only
    cases hpre : startsWith stem pre with
    | true =>
      rw [List.filter_cons_of_pos (hmatch.trans hpre), if_pos rfl]
      rfl
    | false =>
      rw [List.filter_cons_of_neg (by rw [hmatch, hpre]; exact Bool.false_ne_true),
        if_neg Bool.false_ne_true]
      exact ih fun q hq => hstems q (List.mem_cons_of_mem _ hq)

/-- The loop looks for the only match. -/
theorem findLoop_none (hstems : ∀ p ∈ paths, (stemText p).isSome) :
    findLoop fileType pre none paths =
      match paths.filter (matchesPrefix pre) with
      | [] => .ok none
      | [p] => .ok ((stemText p).map fun stem => (stem, p))
      | _ => .error (ambiguousPrefix pre) := by
  induction paths with
  | nil => rfl
  | cons p paths ih =>
    obtain ⟨stem, hstem⟩ := Option.isSome_iff_exists.mp (hstems p List.mem_cons_self)
    have hrest : ∀ q ∈ paths, (stemText q).isSome := fun q hq =>
      hstems q (List.mem_cons_of_mem _ hq)
    have hmatch : matchesPrefix pre p = startsWith stem pre := by rw [matchesPrefix, hstem]
    rw [findLoop, hstem]
    dsimp only
    cases hpre : startsWith stem pre with
    | true =>
      rw [List.filter_cons_of_pos (hmatch.trans hpre), if_pos rfl, findLoop_some _ hrest]
      cases paths.filter (matchesPrefix pre) with
      | nil =>
        dsimp only
        rw [hstem]
        rfl
      | cons q qs => rfl
    | false =>
      rw [List.filter_cons_of_neg (by rw [hmatch, hpre]; exact Bool.false_ne_true),
        if_neg Bool.false_ne_true]
      exact ih hrest

end Loop

/-! ## The search -/

section Find

variable {b : Files} {order : List Path → List Path} {fileType : ContentIdType} {pre : String}
  {ext : Option Extension} {p : Path} {id : ID}

/-- The path is one of those that the search looks at, and its stem begins with the text. -/
structure Candidate (b : Files) (fileType : ContentIdType) (pre : String) (ext : Option Extension)
    (p : Path) : Prop where
  dir : p.dropLast ∈ typeDirs fileType
  lookup : b.lookup p ≠ none
  extension : pathExtension p = ext.map Extension.bytes
  begins : matchesPrefix pre p

/-- The errors of a text that is no ID. -/
theorem head?_of_hexBytes_error {n : Nat} {chars : List Char} {e : MapacheError}
    (h : ID.hexBytes n chars = .error e) : ∃ text, e = .format text ∧ text.toList.head? ≠ some 'p' := by
  have hdigit : ∀ c e, ID.hexDigit c = .error e →
      ∃ text, e = .format text ∧ text.toList.head? ≠ some 'p' := by
    intro c e h
    unfold ID.hexDigit at h
    split at h
    · cases h
    · cases h
      exact ⟨_, rfl, by simp [String.toList_append]⟩
  fun_induction ID.hexBytes n chars with
  | case1 => cases h
  | case2 n high low chars ih =>
    cases hhigh : ID.hexDigit high with
    | error e' =>
      rw [hhigh] at h
      cases h
      exact hdigit high _ hhigh
    | ok hi =>
      cases hlow : ID.hexDigit low with
      | error e' =>
        rw [hhigh, hlow] at h
        cases h
        exact hdigit low _ hlow
      | ok lo =>
        cases hrest : ID.hexBytes n chars with
        | error e' =>
          rw [hhigh, hlow, hrest] at h
          cases h
          exact ih hrest
        | ok bytes =>
          rw [hhigh, hlow, hrest] at h
          cases h
  | case3 => 
      cases h
      exact ⟨_, rfl, by decide⟩

theorem fromHex_ne_ambiguous (stem pre : String) :
    ID.fromHex stem ≠ .error (.format ("prefix " ++ pre ++ " is ambiguous")) := by
  intro h
  have hhead : ∃ text, "prefix " ++ pre ++ " is ambiguous" = text ∧ text.toList.head? ≠ some 'p' := by
    unfold ID.fromHex at h
    simp only at h
    split at h
    · injection h with h
      injection h with h
      have htoString : ∀ s : String, toString s = s := fun _ => rfl
      refine ⟨_, h.symm, ?_⟩
      simp [String.toList_append, htoString]
    · cases hbytes : ID.hexBytes 32 stem.toList with
      | ok bytes =>
        rw [hbytes] at h
        cases h
      | error e =>
        rw [hbytes] at h
        cases h
        obtain ⟨text, htext, hne⟩ := head?_of_hexBytes_error hbytes
        injection htext with htext
        exact ⟨text, htext, hne⟩
  obtain ⟨text, rfl, hne⟩ := hhead
  exact hne (by simp [String.toList_append])

theorem stemText_path (file : RepoFile) : stemText file.path = some file.id.toHex := by
  rw [stemText, file.fileName_path, Option.map_some, fileStem_name, hexName, toStringLossy_strBytes]

/-- The candidates as the search finds them. -/
theorem LaidOut.candidates (h : LaidOut b) (horder : ∀ dirs, (order dirs).Perm dirs)
    (fileType : ContentIdType) (pre : String) (ext : Option Extension) :
    ∃ paths, listFilesWithExtension b order fileType (ext.map Extension.bytes) = .ok paths ∧
      (∀ p ∈ paths, (stemText p).isSome) ∧ (paths.filter (matchesPrefix pre)).Nodup ∧
      ∀ p, p ∈ paths.filter (matchesPrefix pre) ↔ Candidate b fileType pre ext p := by
  obtain ⟨paths, hlist, hnodup, hmem⟩ := h.listAllFiles horder fileType
  refine ⟨paths.filter fun p => pathExtension p = ext.map Extension.bytes, ?_, fun p hp => ?_,
    (hnodup.filter _).filter _, fun p => ?_⟩
  · rw [listFilesWithExtension, hlist]
    rfl
  · obtain ⟨-, hdir, hlook⟩ := (hmem p).mp (List.mem_filter.mp hp).1
    rw [stemText, Option.isSome_map]
    exact h.normal p (mem_repoDirs_of_typeDirs hdir) hlook
  · rw [List.mem_filter, List.mem_filter, hmem, decide_eq_true_eq]
    constructor
    · rintro ⟨⟨⟨-, hdir, hlook⟩, hext⟩, hbegins⟩
      exact ⟨hdir, hlook, hext, hbegins⟩
    · rintro ⟨hdir, hlook, hext, hbegins⟩
      refine ⟨⟨⟨?_, hdir, hlook⟩, hext⟩, hbegins⟩
      rintro rfl
      exact hlook h.wf.root

/-- What the only candidate is read as. -/
theorem LaidOut.candidate_iff (h : LaidOut b) (hp : Candidate b fileType pre ext p) {stem : String}
    (hstem : stemText p = some stem) :
    ID.fromHex stem = .ok id ↔ p = RepoFile.path ⟨fileType, id, ext⟩ := by
  obtain ⟨name, hname, rfl⟩ := Option.map_eq_some_iff.mp hstem
  exact h.stem_iff hp.dir hp.lookup hname hp.extension

/-- A stored file whose ID begins with the text is a candidate. -/
theorem candidate_path (h : LaidOut b) :
    Candidate b fileType pre ext (RepoFile.path ⟨fileType, id, ext⟩) ↔
      (b.stored ⟨fileType, id, ext⟩).isSome ∧ startsWith id.toHex pre := by
  have hbegins : matchesPrefix pre (RepoFile.path ⟨fileType, id, ext⟩) = startsWith id.toHex pre := by
    rw [matchesPrefix, stemText_path]
  constructor
  · intro hp
    refine ⟨Option.isSome_iff_ne_none.mpr fun hnone => hp.lookup (h.stored_eq_none hnone), ?_⟩
    rw [← hbegins]
    exact hp.begins
  · rintro ⟨hstored, hpre⟩
    obtain ⟨data, hdata⟩ := Option.isSome_iff_exists.mp hstored
    refine ⟨?_, ?_, RepoFile.pathExtension_path _, hbegins.trans hpre⟩
    · rw [RepoFile.dropLast_path]
      exact fileDir_mem fileType id
    · rw [Files.fileAt_eq_some.mp hdata]
      exact Option.some_ne_none _

/-- What the search makes of the candidates. -/
theorem LaidOut.findWithExtension_eq (h : LaidOut b) (horder : ∀ dirs, (order dirs).Perm dirs)
    (fileType : ContentIdType) (ext : Option Extension) (hne : strBytes pre ≠ [])
    (hlen : (strBytes pre).length ≤ 64) :
    ∃ found : List Path, found.Nodup ∧ (∀ p, p ∈ found ↔ Candidate b fileType pre ext p) ∧
      findWithExtension b order fileType pre (ext.map Extension.bytes) =
        match found with
        | [] => .error (.notFound
            ("file type " ++ fileType.text ++ " with prefix " ++ pre ++ " doesn't exist"))
        | [p] =>
          match ID.fromHex ((stemText p).getD "") with
          | .error e => .error (.common e)
          | .ok id => .ok (id, p)
        | _ => .error (ambiguousPrefix pre) := by
  obtain ⟨paths, hlist, hstems, hnodup, hmem⟩ := h.candidates horder fileType pre ext
  refine ⟨paths.filter (matchesPrefix pre), hnodup, hmem, ?_⟩
  rw [findWithExtension, if_neg (Nat.not_lt.mpr hlen), if_neg hne, hlist]
  dsimp only
  rw [findLoop_none hstems]
  rcases hfound : paths.filter (matchesPrefix pre) with _ | ⟨p, _ | ⟨q, rest⟩⟩
  · rfl
  · have hmem' : p ∈ paths := (List.mem_filter.mp (hfound ▸ List.mem_singleton_self p)).1
    obtain ⟨stem, hstem⟩ := Option.isSome_iff_exists.mp (hstems p hmem')
    dsimp only
    rw [hstem]
    rfl
  · rfl

/-- A candidate has a stem. -/
theorem Candidate.exists_stem (hp : Candidate b fileType pre ext p) :
    ∃ stem, stemText p = some stem := by
  have hbegins := hp.begins
  unfold matchesPrefix at hbegins
  cases hstem : stemText p with
  | none =>
    rw [hstem] at hbegins
    exact absurd hbegins Bool.false_ne_true
  | some stem => exact ⟨stem, rfl⟩

/-- The search succeeds for the only candidate, if that is the path of a file. -/
theorem LaidOut.findWithExtension_eq_ok (h : LaidOut b) (horder : ∀ dirs, (order dirs).Perm dirs)
    (hne : strBytes pre ≠ []) (hlen : (strBytes pre).length ≤ 64) :
    findWithExtension b order fileType pre (ext.map Extension.bytes) = .ok (id, p) ↔
      p = RepoFile.path ⟨fileType, id, ext⟩ ∧ (b.stored ⟨fileType, id, ext⟩).isSome ∧
        startsWith id.toHex pre ∧ ∀ q, Candidate b fileType pre ext q → q = p := by
  obtain ⟨found, hnodup, hmem, hfind⟩ := h.findWithExtension_eq horder fileType ext hne hlen
  rw [hfind]
  clear hfind
  match found with
  | [] =>
    refine ⟨nofun, ?_⟩
    rintro ⟨rfl, hstored, hpre, -⟩
    exact absurd ((hmem _).mpr ((candidate_path h).mpr ⟨hstored, hpre⟩)) List.not_mem_nil
  | [q] =>
    have hq : Candidate b fileType pre ext q := (hmem q).mp (List.mem_singleton_self q)
    have honly : ∀ r, Candidate b fileType pre ext r → r = q := fun r hr =>
      List.mem_singleton.mp ((hmem r).mpr hr)
    obtain ⟨stem, hstem⟩ := hq.exists_stem
    have hread : ID.fromHex stem = .ok id ↔ q = RepoFile.path ⟨fileType, id, ext⟩ :=
      h.candidate_iff hq hstem
    dsimp only
    rw [hstem, Option.getD_some]
    constructor
    · intro heq
      cases hid : ID.fromHex stem with
      | error e =>
        rw [hid] at heq
        cases heq
      | ok id' =>
        rw [hid] at heq
        cases heq
        have hpath := hread.mp hid
        obtain ⟨hstored, hpre⟩ := (candidate_path h).mp (hpath ▸ hq)
        exact ⟨hpath, hstored, hpre, honly⟩
    · rintro ⟨rfl, hstored, hpre, -⟩
      have hpath := (honly _ ((candidate_path h).mpr ⟨hstored, hpre⟩)).symm
      rw [hread.mpr hpath, hpath]
  | q :: r :: rest =>
    refine ⟨nofun, ?_⟩
    rintro ⟨-, -, -, honly⟩
    have hq := honly q ((hmem q).mp List.mem_cons_self)
    have hr := honly r ((hmem r).mp (List.mem_cons_of_mem _ List.mem_cons_self))
    exact absurd (hq.trans hr.symm) (List.ne_of_not_mem_cons (List.nodup_cons.mp hnodup).1)

/-- A search that succeeds had a text to look for. -/
theorem length_of_findWithExtension {found : ID × Path} {ext : Option Bytes}
    (hfind : findWithExtension b order fileType pre ext = .ok found) :
    strBytes pre ≠ [] ∧ (strBytes pre).length ≤ 64 := by
  unfold findWithExtension at hfind
  split at hfind
  · cases hfind
  · rename_i hlen
    split at hfind
    · cases hfind
    · rename_i hne
      exact ⟨hne, Nat.not_lt.mp hlen⟩

/-- Of the stored IDs the search finds the only one that begins with the text. -/
theorem LaidOut.id_of_findWithExtension (h : LaidOut b) (horder : ∀ dirs, (order dirs).Perm dirs)
    (hfind : findWithExtension b order fileType pre (ext.map Extension.bytes) = .ok (id, p)) :
    (b.stored ⟨fileType, id, ext⟩).isSome ∧ startsWith id.toHex pre ∧
      ∀ id', (b.stored ⟨fileType, id', ext⟩).isSome → startsWith id'.toHex pre → id' = id := by
  obtain ⟨hne, hlen⟩ := length_of_findWithExtension hfind
  obtain ⟨rfl, hstored, hpre, honly⟩ := (h.findWithExtension_eq_ok horder hne hlen).mp hfind
  refine ⟨hstored, hpre, fun id' hstored' hpre' => ?_⟩
  have hpath := RepoFile.path_injective (honly _ ((candidate_path h).mpr ⟨hstored', hpre'⟩))
  exact congrArg RepoFile.id hpath

/-- **The search finds the only match.** For a text that is neither empty nor longer than an ID, the
search gives an ID and a path exactly when the path is that of the file with the ID, the file is there,
the ID begins with the text and no other file of the type and the extension has a stem that does. It
fails with "ambiguous" exactly when two of them do, and with "doesn't exist" exactly when none does. -/
theorem findWithExtension_finds_the_only_match (b : Files) (order : List Path → List Path)
    (fileType : ContentIdType) (pre : String) (ext : Option Extension) (h : LaidOut b)
    (horder : ∀ dirs, (order dirs).Perm dirs) (hne : strBytes pre ≠ [])
    (hlen : (strBytes pre).length ≤ 64) :
    (∀ id p, findWithExtension b order fileType pre (ext.map Extension.bytes) = .ok (id, p) ↔
      p = RepoFile.path ⟨fileType, id, ext⟩ ∧ (b.stored ⟨fileType, id, ext⟩).isSome ∧
        startsWith id.toHex pre ∧ ∀ q, Candidate b fileType pre ext q → q = p) ∧
    (findWithExtension b order fileType pre (ext.map Extension.bytes) =
        .error (ambiguousPrefix pre) ↔
      ∃ p q, p ≠ q ∧ Candidate b fileType pre ext p ∧ Candidate b fileType pre ext q) ∧
    (findWithExtension b order fileType pre (ext.map Extension.bytes) = .error (.notFound
        ("file type " ++ fileType.text ++ " with prefix " ++ pre ++ " doesn't exist")) ↔
      ∀ p, ¬ Candidate b fileType pre ext p) := by
  refine ⟨fun id p => h.findWithExtension_eq_ok horder hne hlen, ?_⟩
  obtain ⟨found, hnodup, hmem, hfind⟩ := h.findWithExtension_eq horder fileType ext hne hlen
  rw [hfind]
  clear hfind
  match found with
  | [] =>
    have hnone : ∀ p, ¬ Candidate b fileType pre ext p := fun p hp =>
      List.not_mem_nil ((hmem p).mpr hp)
    refine ⟨⟨nofun, ?_⟩, ⟨fun _ => hnone, fun _ => rfl⟩⟩
    rintro ⟨p, -, -, hp, -⟩
    exact absurd hp (hnone p)
  | [p] =>
    have hp : Candidate b fileType pre ext p := (hmem p).mp (List.mem_singleton_self p)
    have honly : ∀ q, Candidate b fileType pre ext q → q = p := fun q hq =>
      List.mem_singleton.mp ((hmem q).mpr hq)
    dsimp only
    cases hid : ID.fromHex ((stemText p).getD "") with
    | error e =>
      -- an error of the reading of the stem is none of the two
      refine ⟨⟨fun heq => ?_, ?_⟩, ⟨nofun, fun hnone => absurd hp (hnone p)⟩⟩
      · cases heq
        exact absurd hid (fromHex_ne_ambiguous _ pre)
      · rintro ⟨q, r, hqr, hq, hr⟩
        exact absurd ((honly q hq).trans (honly r hr).symm) hqr
    | ok id =>
      refine ⟨⟨nofun, ?_⟩, ⟨nofun, fun hnone => absurd hp (hnone p)⟩⟩
      rintro ⟨q, r, hqr, hq, hr⟩
      exact absurd ((honly q hq).trans (honly r hr).symm) hqr
  | p :: q :: rest =>
    have hp : Candidate b fileType pre ext p := (hmem p).mp List.mem_cons_self
    have hq : Candidate b fileType pre ext q :=
      (hmem q).mp (List.mem_cons_of_mem _ List.mem_cons_self)
    have hpq : p ≠ q := List.ne_of_not_mem_cons (List.nodup_cons.mp hnodup).1
    exact ⟨⟨fun _ => ⟨p, q, hpq, hp, hq⟩, fun _ => rfl⟩, ⟨nofun, fun hnone => absurd hp (hnone p)⟩⟩

/-- Two IDs of 1 and 2 begin with the same digits. -/
theorem findWithExtension_finds_the_only_match_sampleCalls :
    let after := emptyRepo.execAll headerStorage (fun _ => 0) sampleCalls
    ∀ id p, findWithExtension after List.reverse .snapshot "00"
        ((some Extension.dropped).map Extension.bytes) = .ok (id, p) ↔
      p = RepoFile.path ⟨.snapshot, id, some .dropped⟩ ∧
        (after.stored ⟨.snapshot, id, some .dropped⟩).isSome ∧ startsWith id.toHex "00" ∧
          ∀ q, Candidate after .snapshot "00" (some .dropped) q → q = p := by
  intro after
  exact (findWithExtension_finds_the_only_match after List.reverse .snapshot "00" (some .dropped)
    (laidOut_emptyRepo.execAll _ _ sampleCalls).1 List.reverse_perm (by decide) (by decide)).1

end Find

end Mapache
