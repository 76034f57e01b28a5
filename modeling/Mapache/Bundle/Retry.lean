import Mapache.Bundle.Reader

/-!
# Bundle writes that fail

`BundleWriter::save_blob_internal` with the failures of the file. Under the lock the ID goes into
`seen` first; `stream_position` and `write_all` come after it and may fail, the second one with the
beginning of the blob in the file. The next call for the ID finds it seen and returns `Ok`.

`Written` says what the file and the index hold after any calls: the blobs of the IDs whose first
call has written its blob. So the IDs that were answered with `Ok` load exactly when no call
followed one that had failed as the first one of its ID (`loadable_iff`).
-/

set_option autoImplicit false

namespace Mapache

open Lib

/-- What happens to the file in a call that gets there. -/
inductive WriteIO where
  | done
  | positionFails
  /-- `write_all` fails behind the first `n` bytes. -/
  | writeFails (n : Nat)
  deriving DecidableEq

namespace BundleWriter

/-- `save_blob_internal` under the lock. -/
def saveLocked (w : BundleWriterInner) (b : EncodedBlob) (io : WriteIO) :
    Except BundleError ID × BundleWriterInner :=
  if b.id ∈ w.seen then (.ok b.id, w)
  else
    let w := { w with seen := insert b.id w.seen }
    match io with
    | .positionFails => (.error .io, w)
    | .writeFails n => (.error .io, { w with file := w.file ++ b.encoded.take n })
    | .done =>
      (.ok b.id,
        { w with
          file := w.file ++ b.encoded
          index := ⟨w.index.entries ++ [entryAt w.file.length b]⟩ })

/-- A call of `save_blob`, with the nonce it draws and what the file does. -/
structure SaveCall where
  blob : BundleBlob
  nonce : Nonce
  io : WriteIO

/-- `BundleWriter::save_blob_internal`. -/
def saveBlob (storage : SecureStorage) (fromContent : Bytes → ID) (w : BundleWriterInner)
    (c : SaveCall) : Except BundleError ID × BundleWriterInner :=
  match encodeBlob storage fromContent c.nonce c.blob with
  | none => (.error (.crypto "failed to encode blob data"), w)
  | some b => saveLocked w b c.io

/-- The results of the calls in their order, and the writer afterwards. -/
def saveAll (storage : SecureStorage) (fromContent : Bytes → ID) (w : BundleWriterInner)
    (calls : List SaveCall) : List (Except BundleError ID) × BundleWriterInner :=
  calls.foldl
    (fun s c =>
      let r := saveBlob storage fromContent s.2 c
      (s.1 ++ [r.1], r.2))
    ([], w)

/-- The calls that got the lock, with their encoded blobs. -/
def lockedCalls (storage : SecureStorage) (fromContent : Bytes → ID) (calls : List SaveCall) :
    List (EncodedBlob × WriteIO) :=
  calls.filterMap fun c => (encodeBlob storage fromContent c.nonce c.blob).map fun b => (b, c.io)

/-- The first call for an ID. -/
def firstCall (ls : List (EncodedBlob × WriteIO)) (id : ID) : Option (EncodedBlob × WriteIO) :=
  ls.find? fun x => x.1.id = id

/-- The number of calls for an ID. -/
def numCalls (ls : List (EncodedBlob × WriteIO)) (id : ID) : Nat :=
  ls.countP fun x => x.1.id = id

section FirstCalls

variable {ls : List (EncodedBlob × WriteIO)} {b : EncodedBlob} {io : WriteIO} {id : ID}

theorem firstCall_snoc :
    firstCall (ls ++ [(b, io)]) id =
      (firstCall ls id).or (if b.id = id then some (b, io) else none) := by
  rw [firstCall, List.find?_append, List.find?_singleton]
  simp only [decide_eq_true_eq]
  rfl

theorem numCalls_snoc :
    numCalls (ls ++ [(b, io)]) id = numCalls ls id + if b.id = id then 1 else 0 := by
  rw [numCalls, List.countP_append, List.countP_singleton]
  simp only [decide_eq_true_eq]
  rfl

theorem id_of_firstCall (h : firstCall ls id = some (b, io)) : b.id = id := by
  have hfound := List.find?_some h
  exact of_decide_eq_true hfound

theorem numCalls_eq_zero (h : firstCall ls id = none) : numCalls ls id = 0 := by
  rw [numCalls, List.countP_eq_zero]
  exact List.find?_eq_none.mp h

theorem numCalls_pos (h : firstCall ls id = some (b, io)) : 1 ≤ numCalls ls id := by
  rw [numCalls, Nat.one_le_iff_ne_zero, Nat.ne_zero_iff_zero_lt, List.countP_pos_iff]
  exact ⟨_, List.mem_of_find?_eq_some h, decide_eq_true (id_of_firstCall h)⟩

/-- A call for a known ID is not the first one. -/
theorem firstCall_snoc_of_some {x : EncodedBlob × WriteIO} (h : firstCall ls id = some x) :
    firstCall (ls ++ [(b, io)]) id = some x := by
  rw [firstCall_snoc, h, Option.some_or]

theorem firstCall_snoc_of_ne (h : b.id ≠ id) :
    firstCall (ls ++ [(b, io)]) id = firstCall ls id := by
  rw [firstCall_snoc, if_neg h, Option.or_none]

theorem firstCall_snoc_self (h : firstCall ls b.id = none) :
    firstCall (ls ++ [(b, io)]) b.id = some (b, io) := by
  rw [firstCall_snoc, h, if_pos rfl, Option.none_or]

/-- After the first call for an ID there is one, and for every other ID it is as before. -/
theorem exists_firstCall_snoc (h : firstCall ls b.id = none) :
    (∃ x, firstCall (ls ++ [(b, io)]) id = some x) ↔ id = b.id ∨ ∃ x, firstCall ls id = some x := by
  by_cases heq : b.id = id
  · subst heq
    rw [firstCall_snoc_self h]
    exact ⟨fun _ => Or.inl rfl, fun _ => ⟨_, rfl⟩⟩
  · rw [firstCall_snoc_of_ne heq]
    exact ⟨Or.inr, fun hor => hor.resolve_left fun he => heq he.symm⟩

/-- After a first call that succeeds the ID has one that does. -/
theorem exists_done_snoc (h : firstCall ls b.id = none) :
    (∃ b', firstCall (ls ++ [(b, .done)]) id = some (b', .done)) ↔
      (∃ b', firstCall ls id = some (b', .done)) ∨ id = b.id := by
  by_cases heq : b.id = id
  · subst heq
    rw [firstCall_snoc_self h]
    exact ⟨fun _ => Or.inr rfl, fun _ => ⟨_, rfl⟩⟩
  · rw [firstCall_snoc_of_ne heq]
    exact ⟨Or.inl, fun hor => hor.resolve_right fun he => heq he.symm⟩

/-- A failed call is no one's first successful one. -/
theorem done_snoc_iff_of_ne_done {b' : EncodedBlob} (h : firstCall ls b.id = none)
    (hio : io ≠ .done) :
    firstCall (ls ++ [(b, io)]) id = some (b', .done) ↔ firstCall ls id = some (b', .done) := by
  by_cases heq : b.id = id
  · subst heq
    rw [firstCall_snoc_self h, h]
    constructor
    · intro hsome
      cases hsome
      exact absurd rfl hio
    · intro hsome
      cases hsome
  · rw [firstCall_snoc_of_ne heq]

/-- The first call for an ID makes no ID a repeated one. -/
theorem two_le_numCalls_snoc (h : firstCall ls b.id = none) :
    2 ≤ numCalls (ls ++ [(b, io)]) id ↔ 2 ≤ numCalls ls id := by
  rw [numCalls_snoc]
  by_cases heq : b.id = id
  · subst heq
    rw [numCalls_eq_zero h, if_pos rfl]
    omega
  · rw [if_neg heq, Nat.add_zero]

end FirstCalls

/-- What the writer holds after the calls `ls`, of which those for the IDs `oks` returned `Ok`. -/
structure Written (w₀ : BundleWriterInner) (ls : List (EncodedBlob × WriteIO)) (oks : List ID)
    (w : BundleWriterInner) : Prop where
  grows : ∃ more, w.file = w₀.file ++ more
  seen : ∀ id, id ∈ w.seen ↔ ∃ x, firstCall ls id = some x
  indexed : ∀ id, id ∈ w.index.entries.map BundleIndexEntry.id ↔
    ∃ b, firstCall ls id = some (b, .done)
  placed : ∀ id b, firstCall ls id = some (b, .done) → ∃ (i : Nat) (pre post : Bytes),
    w.index.entries[i]? = some (entryAt pre.length b) ∧ w.file = pre ++ (b.encoded ++ post)
  nodup : (w.index.entries.map BundleIndexEntry.id).Nodup
  answered : ∀ id, id ∈ oks ↔ (∃ b, firstCall ls id = some (b, .done)) ∨ 2 ≤ numCalls ls id

section Calls

variable {storage : SecureStorage} {fromContent : Bytes → ID} {w₀ w : BundleWriterInner}
  {ls : List (EncodedBlob × WriteIO)} {oks : List ID} {b : EncodedBlob} {io : WriteIO}

theorem Written.start (hindex : w.index.entries = []) (hseen : w.seen = ∅) :
    Written w [] [] w where
  grows := ⟨[], (List.append_nil _).symm⟩
  seen := fun id => by simp [hseen, firstCall]
  indexed := fun id => by simp [hindex, firstCall]
  placed := fun id b h => by cases h
  nodup := by
    rw [hindex]
    exact List.nodup_nil
  answered := fun id => by simp [firstCall, numCalls]

/-- A call for a known ID is answered with `Ok` and changes nothing. -/
theorem Written.again (h : Written w₀ ls oks w) (hseen : b.id ∈ w.seen) :
    Written w₀ (ls ++ [(b, io)]) (oks ++ [b.id]) w := by
  obtain ⟨x, hx⟩ := (h.seen b.id).mp hseen
  have hsame : ∀ id, firstCall (ls ++ [(b, io)]) id = firstCall ls id := by
    intro id
    by_cases heq : b.id = id
    · subst heq
      rw [firstCall_snoc_of_some hx, hx]
    · exact firstCall_snoc_of_ne heq
  refine ⟨h.grows, ?_, ?_, ?_, h.nodup, ?_⟩
  · simpa only [hsame] using h.seen
  · simpa only [hsame] using h.indexed
  · simpa only [hsame] using h.placed
  · intro id
    rw [List.mem_append, List.mem_singleton, hsame, h.answered, numCalls_snoc]
    by_cases heq : b.id = id
    · subst heq
      have hpos := numCalls_pos hx
      rw [if_pos rfl]
      constructor
      · intro _
        exact Or.inr (by omega)
      · intro _
        exact Or.inr rfl
    · rw [if_neg heq, Nat.add_zero]
      constructor
      · rintro (hold | hnew)
        · exact hold
        · exact absurd hnew.symm heq
      · exact Or.inl

/-- An ID that was not seen had no call. -/
theorem Written.firstCall_eq_none (h : Written w₀ ls oks w) (hnew : b.id ∉ w.seen) :
    firstCall ls b.id = none := by
  rw [← Option.not_isSome_iff_eq_none, Option.isSome_iff_exists, ← h.seen]
  exact hnew

/-- The first call for an ID fails: the ID is seen, and the index stays as it is. -/
theorem Written.fails (h : Written w₀ ls oks w) (hnew : b.id ∉ w.seen) (io : WriteIO)
    (hio : io ≠ .done) (part : Bytes) :
    Written w₀ (ls ++ [(b, io)]) oks
      { w with seen := insert b.id w.seen, file := w.file ++ part } := by
  have hnone := h.firstCall_eq_none hnew
  obtain ⟨more, hmore⟩ := h.grows
  refine ⟨⟨more ++ part, ?_⟩, ?_, ?_, ?_, h.nodup, ?_⟩
  · rw [hmore, List.append_assoc]
  · intro id
    rw [Finset.mem_insert, h.seen, exists_firstCall_snoc hnone]
  · intro id
    rw [h.indexed]
    simp only [done_snoc_iff_of_ne_done hnone hio]
  · -- the file only grows behind what was placed
    intro id b' hfirst
    obtain ⟨i, pre, post, hentry, hfile⟩ :=
      h.placed id b' ((done_snoc_iff_of_ne_done hnone hio).mp hfirst)
    refine ⟨i, pre, post ++ part, hentry, ?_⟩
    rw [hfile]
    simp only [List.append_assoc]
  · intro id
    rw [h.answered, two_le_numCalls_snoc hnone]
    simp only [done_snoc_iff_of_ne_done hnone hio]

/-- The first call for an ID writes its blob. -/
theorem Written.writes (h : Written w₀ ls oks w) (hnew : b.id ∉ w.seen) :
    Written w₀ (ls ++ [(b, .done)]) (oks ++ [b.id])
      { seen := insert b.id w.seen
        file := w.file ++ b.encoded
        index := ⟨w.index.entries ++ [entryAt w.file.length b]⟩ } := by
  have hnone := h.firstCall_eq_none hnew
  have hnotIndexed : b.id ∉ w.index.entries.map BundleIndexEntry.id := by
    rw [h.indexed, hnone]
    rintro ⟨b', hb'⟩
    cases hb'
  obtain ⟨more, hmore⟩ := h.grows
  refine ⟨⟨more ++ b.encoded, ?_⟩, ?_, ?_, ?_, ?_, ?_⟩
  · rw [hmore, List.append_assoc]
  · intro id
    rw [Finset.mem_insert, h.seen, exists_firstCall_snoc hnone]
  · intro id
    rw [List.map_append, List.mem_append, h.indexed, List.map_singleton, List.mem_singleton,
      exists_done_snoc hnone]
    rfl
  · intro id b' hfirst
    by_cases heq : b.id = id
    · -- the new entry is the last one
      subst heq
      rw [firstCall_snoc_self hnone] at hfirst
      cases hfirst
      refine ⟨w.index.entries.length, w.file, [], ?_, ?_⟩
      · rw [List.getElem?_append_right (Nat.le_refl _), Nat.sub_self]
        rfl
      · rw [List.append_nil]
    · rw [firstCall_snoc_of_ne heq] at hfirst
      obtain ⟨i, pre, post, hentry, hfile⟩ := h.placed id b' hfirst
      refine ⟨i, pre, post ++ b.encoded, ?_, ?_⟩
      · have hlt : i < w.index.entries.length := (List.getElem?_eq_some_iff.mp hentry).1
        rw [List.getElem?_append_left hlt, hentry]
      · dsimp only
        rw [hfile]
        simp only [List.append_assoc]
  · rw [List.map_append, List.map_singleton]
    apply List.nodup_append.mpr
    refine ⟨h.nodup, List.nodup_singleton _, ?_⟩
    rintro id hid _ hb rfl
    rw [List.mem_singleton.mp hb] at hid
    exact hnotIndexed hid
  · intro id
    rw [List.mem_append, List.mem_singleton, h.answered, two_le_numCalls_snoc hnone,
      exists_done_snoc hnone]
    tauto

/-- **A call keeps what the writer holds.** -/
theorem Written.saveLocked (h : Written w₀ ls oks w) :
    Written w₀ (ls ++ [(b, io)]) (oks ++ (saveLocked w b io).1.toOption.toList)
      (saveLocked w b io).2 := by
  unfold BundleWriter.saveLocked
  by_cases hseen : b.id ∈ w.seen
  · rw [if_pos hseen]
    exact h.again hseen
  · rw [if_neg hseen]
    cases io with
    | done => exact h.writes hseen
    | positionFails =>
      have hfails := h.fails hseen .positionFails (fun he => by cases he) []
      rw [List.append_nil] at hfails
      show Written w₀ _ (oks ++ []) _
      rw [List.append_nil]
      exact hfails
    | writeFails n =>
      have hfails := h.fails hseen (.writeFails n) (fun he => by cases he) (b.encoded.take n)
      show Written w₀ _ (oks ++ []) _
      rw [List.append_nil]
      exact hfails

/-- **Any calls leave a writer that holds what their first ones have written.** -/
theorem written_saveAll (hindex : w₀.index.entries = []) (hseen : w₀.seen = ∅)
    (calls : List SaveCall) :
    Written w₀ (lockedCalls storage fromContent calls)
      ((saveAll storage fromContent w₀ calls).1.filterMap Except.toOption)
      (saveAll storage fromContent w₀ calls).2 := by
  induction calls using List.reverseRecOn with
  | nil => exact .start hindex hseen
  | append_singleton calls c ih =>
    have hstep : saveAll storage fromContent w₀ (calls ++ [c]) =
        ((saveAll storage fromContent w₀ calls).1 ++
            [(saveBlob storage fromContent (saveAll storage fromContent w₀ calls).2 c).1],
          (saveBlob storage fromContent (saveAll storage fromContent w₀ calls).2 c).2) := by
      rw [saveAll, List.foldl_append]
      rfl
    have hone : ∀ r : Except BundleError ID,
        [r].filterMap Except.toOption = r.toOption.toList := by
      intro r
      cases r <;> rfl
    rw [hstep, lockedCalls, List.filterMap_append, List.filterMap_append, hone]
    unfold saveBlob
    cases henc : encodeBlob storage fromContent c.nonce c.blob with
    | none =>
      -- the call ends before the lock
      simp only [List.filterMap_cons, henc, Option.map_none, List.filterMap_nil, List.append_nil]
      show Written w₀ _ (_ ++ []) _
      rw [List.append_nil]
      exact ih
    | some b =>
      simp only [List.filterMap_cons, henc, Option.map_some, List.filterMap_nil]
      exact ih.saveLocked

/-- What the calls under the lock write was encoded. -/
theorem encode_of_mem_lockedCalls {calls : List SaveCall} {x : EncodedBlob × WriteIO}
    (h : x ∈ lockedCalls storage fromContent calls) :
    ∃ nonce, storage.encode nonce x.1.data = some x.1.encoded := by
  obtain ⟨c, -, hc⟩ := List.mem_filterMap.mp h
  obtain ⟨b, hb, rfl⟩ := Option.map_eq_some_iff.mp hc
  obtain ⟨encoded, henc, rfl⟩ := Option.map_eq_some_iff.mp hb
  exact ⟨c.nonce, henc⟩

end Calls

end BundleWriter

namespace BundleReader

open BundleWriter

variable {crypto : BundleCrypto} {password : String} {level : Int} {salt : FixedBytes 32}
  {storage : SecureStorage} {fromContent : Bytes → ID} {w w₀ : BundleWriterInner}
  {draws : FinalizeDraws} {root : ID} {file : Bytes} {calls : List SaveCall}
  {results : List (Except BundleError ID)}

/-- Every ID that a call returned loads with the data of a call for it. -/
def LoadsReturned (storage : SecureStorage) (fromContent : Bytes → ID) (calls : List SaveCall)
    (results : List (Except BundleError ID)) (reader : BundleReader) : Prop :=
  ∀ id, .ok id ∈ results → ∃ x ∈ lockedCalls storage fromContent calls,
    x.1.id = id ∧ reader.loadBlob id = .ok x.1.data

/-- No call follows one that has failed as the first one of its ID. -/
def NotRetried (ls : List (EncodedBlob × WriteIO)) : Prop :=
  ∀ id b io, firstCall ls id = some (b, io) → io = .done ∨ numCalls ls id = 1

theorem mem_filterMap_toOption {id : ID} :
    id ∈ results.filterMap Except.toOption ↔ .ok id ∈ results := by
  rw [List.mem_filterMap]
  constructor
  · rintro ⟨r, hr, hid⟩
    cases r with
    | error e => cases hid
    | ok id' =>
      cases hid
      exact hr
  · intro h
    exact ⟨.ok id, h, rfl⟩

/-- What a bundle with failed writes gives back. Where the blobs, as they were given and as they are
stored, and the stored index are shorter than 4 GiB, the bundle opens, and an ID loads the blob that
its first call has written, or is not there. -/
theorem openBundle_saveAll (hnew : BundleWriter.new crypto password level salt = some (storage, w₀))
    (hsave : saveAll storage fromContent w₀ calls = (results, w))
    (hblobs : ∀ x ∈ lockedCalls storage fromContent calls,
      x.1.data.length < 2 ^ 32 ∧ x.1.encoded.length < 2 ^ 32)
    (hsize : w.file.length < 2 ^ 64)
    (hindex : w.index.toBinary.length + (nonceLen + tagLen) < 2 ^ 32)
    (hfinalize : finalize storage draws w root = some file) :
    Written w₀ (lockedCalls storage fromContent calls) (results.filterMap Except.toOption) w ∧
      ∃ reader, openBundle crypto file password = .ok reader ∧
        (∀ id b, firstCall (lockedCalls storage fromContent calls) id = some (b, .done) →
          reader.loadBlob id = .ok b.data) ∧
        ∀ id, (∀ b, firstCall (lockedCalls storage fromContent calls) id ≠ some (b, .done)) →
          reader.loadBlob id = .error (.notInIndex id) := by
  obtain ⟨-, header, -, hw₀, -⟩ := new_spec hnew
  have hwritten : Written w₀ (lockedCalls storage fromContent calls)
      (results.filterMap Except.toOption) w := by
    have h : Written w₀ _ ((saveAll storage fromContent w₀ calls).1.filterMap Except.toOption)
        (saveAll storage fromContent w₀ calls).2 :=
      written_saveAll (by rw [hw₀]) (by rw [hw₀]) calls
    rw [hsave] at h
    exact h
  obtain ⟨reader, key, hopen, rfl, hstorage, hfile, ⟨post, hpost⟩, -, hrindex, hmap⟩ :=
    openBundle_spec hnew hwritten.grows hsize hindex hfinalize
  refine ⟨hwritten, reader, hopen, ?_, ?_⟩
  · intro id b hfirst
    obtain ⟨i, pre, rest, hentry, hplace⟩ := hwritten.placed id b hfirst
    have hmem := List.mem_of_find?_eq_some hfirst
    obtain ⟨nonce, hnonce⟩ := encode_of_mem_lockedCalls hmem
    have hparts : reader.file = pre ++ (b.encoded ++ (rest ++ post)) := by
      rw [hfile, hpost, hplace]
      simp only [List.append_assoc]
    have hpre : pre.length < 2 ^ 64 := by
      rw [hplace, List.length_append] at hsize
      omega
    rw [← id_of_firstCall hfirst]
    exact loadBlob_of_entry hstorage hnonce hparts (by rw [hrindex]; exact hentry)
      (by rw [hmap, hrindex]) (by rw [hrindex]; exact hwritten.nodup) (hblobs _ hmem) hpre
  · intro id hnone
    have hout : id ∉ w.index.entries.map BundleIndexEntry.id := by
      rw [hwritten.indexed]
      rintro ⟨b, hb⟩
      exact hnone b hb
    have hlookup : reader.indexMap.lookup id = none := by
      rw [hmap]
      exact lookup_indexMapOf_of_notMem hout
    simp only [loadBlob, hlookup, orError, bind, Except.bind]

/-- **A failed write poisons the later calls for its ID, and nothing else.** Any calls of which any
may fail are followed by a successful `finalize`. The IDs that were returned load if and only if no
call has followed one that had failed as the first one of its ID. -/
theorem loadsReturned_iff (hnew : BundleWriter.new crypto password level salt = some (storage, w₀))
    (hsave : saveAll storage fromContent w₀ calls = (results, w))
    (hblobs : ∀ x ∈ lockedCalls storage fromContent calls,
      x.1.data.length < 2 ^ 32 ∧ x.1.encoded.length < 2 ^ 32)
    (hsize : w.file.length < 2 ^ 64)
    (hindex : w.index.toBinary.length + (nonceLen + tagLen) < 2 ^ 32)
    (hfinalize : finalize storage draws w root = some file) :
    ∃ reader, openBundle crypto file password = .ok reader ∧
      (LoadsReturned storage fromContent calls results reader ↔
        NotRetried (lockedCalls storage fromContent calls)) := by
  obtain ⟨hwritten, reader, hopen, hloads, hmissing⟩ :=
    openBundle_saveAll hnew hsave hblobs hsize hindex hfinalize
  refine ⟨reader, hopen, ?_⟩
  constructor
  · intro h id b io hfirst
    by_contra hnot
    rw [not_or] at hnot
    have hpos := numCalls_pos hfirst
    have hok : id ∈ results.filterMap Except.toOption :=
      (hwritten.answered id).mpr (Or.inr (by omega))
    obtain ⟨x, -, -, hload⟩ := h id (mem_filterMap_toOption.mp hok)
    rw [hmissing id (fun b' hb' => hnot.1 (by rw [hfirst] at hb'; cases hb'; rfl))] at hload
    cases hload
  · intro h id hok
    rw [← mem_filterMap_toOption, hwritten.answered] at hok
    have hdone : ∃ b, firstCall (lockedCalls storage fromContent calls) id = some (b, .done) := by
      rcases hok with hdone | htwo
      · exact hdone
      · cases hfirst : firstCall (lockedCalls storage fromContent calls) id with
        | none =>
          rw [numCalls_eq_zero hfirst] at htwo
          omega
        | some x =>
          obtain ⟨b, io⟩ := x
          rcases h id b io hfirst with rfl | hone
          · exact ⟨b, rfl⟩
          · omega
    obtain ⟨b, hb⟩ := hdone
    exact ⟨_, List.mem_of_find?_eq_some hb, id_of_firstCall hb, hloads id b hb⟩

/-! ## A retried blob -/

/-- A blob whose write fails behind three bytes, and the same blob again. -/
def retriedCalls : List SaveCall :=
  [⟨⟨.data, [7], .withID 5⟩, sampleNonce, .writeFails 3⟩,
    ⟨⟨.data, [7], .withID 5⟩, sampleNonce, .done⟩]

/-- The storage of the concrete bundles. -/
def sampleBundleStorage : SecureStorage :=
  sampleBundleCrypto.storage 3 ⟨List.replicate 32 0, rfl⟩

/-- The writer of the retried blob. -/
theorem exists_retried : ∃ (w₀ w : BundleWriterInner) (draws : FinalizeDraws) (file : Bytes),
    BundleWriter.new sampleBundleCrypto "pw" 3 ⟨List.replicate 32 0, rfl⟩ =
        some (sampleBundleStorage, w₀) ∧
      saveAll sampleBundleStorage (fun _ => 0) w₀ retriedCalls = ([.error .io, .ok 5], w) ∧
      (∀ x ∈ lockedCalls sampleBundleStorage (fun _ => 0) retriedCalls,
        x.1.data.length < 2 ^ 32 ∧ x.1.encoded.length < 2 ^ 32) ∧
      w.file.length < 2 ^ 64 ∧ w.index.toBinary.length + (nonceLen + tagLen) < 2 ^ 32 ∧
      finalize sampleBundleStorage draws w 9 = some file := by
  refine ⟨_, _, ⟨sampleNonce, sampleNonce, sampleNonce, 0, 0, 0⟩, _, rfl, rfl, ?_, ?_, ?_, rfl⟩
  · decide
  · decide
  · decide

/-- The second call returns `Ok`, and the bundle does not have the blob. -/
theorem not_loadsReturned_retried :
    ∃ (w₀ w : BundleWriterInner) (draws : FinalizeDraws) (file : Bytes) (reader : BundleReader),
      BundleWriter.new sampleBundleCrypto "pw" 3 ⟨List.replicate 32 0, rfl⟩ =
          some (sampleBundleStorage, w₀) ∧
        saveAll sampleBundleStorage (fun _ => 0) w₀ retriedCalls = ([.error .io, .ok 5], w) ∧
        finalize sampleBundleStorage draws w 9 = some file ∧
        openBundle sampleBundleCrypto file "pw" = .ok reader ∧
        reader.loadBlob 5 = .error (.notInIndex 5) ∧
        ¬ LoadsReturned sampleBundleStorage (fun _ => 0) retriedCalls [.error .io, .ok 5] reader := by
  obtain ⟨w₀, w, draws, file, hnew, hsave, hblobs, hsize, hindex, hfinalize⟩ := exists_retried
  obtain ⟨-, reader, hopen, -, hmissing⟩ :=
    openBundle_saveAll hnew hsave hblobs hsize hindex hfinalize
  have hfirst : firstCall (lockedCalls sampleBundleStorage (fun _ => 0) retriedCalls) 5 =
      some (⟨5, .data, [7], sampleNonce.val ++ [1, 7] ++ List.replicate tagLen 0⟩, .writeFails 3) :=
    rfl
  have hload : reader.loadBlob 5 = .error (.notInIndex 5) := by
    apply hmissing
    intro b hb
    rw [hfirst] at hb
    cases hb
  refine ⟨w₀, w, draws, file, reader, hnew, hsave, hfinalize, hopen, hload, ?_⟩
  intro h
  obtain ⟨x, -, -, hx⟩ := h 5 (by simp)
  rw [hload] at hx
  cases hx

theorem loadsReturned_iff_retried :
    ∃ (file : Bytes) (reader : BundleReader),
      openBundle sampleBundleCrypto file "pw" = .ok reader ∧
        (LoadsReturned sampleBundleStorage (fun _ => 0) retriedCalls [.error .io, .ok 5] reader ↔
          NotRetried (lockedCalls sampleBundleStorage (fun _ => 0) retriedCalls)) := by
  obtain ⟨w₀, w, draws, file, hnew, hsave, hblobs, hsize, hindex, hfinalize⟩ := exists_retried
  exact ⟨file, loadsReturned_iff hnew hsave hblobs hsize hindex hfinalize⟩

end BundleReader

end Mapache
