import Mapache.Fs.NodeData

/-!
# Polling the data of a node

`poll_read` of `SerializedNodeDataReader`, with the load of a blob that may still be under way. A
poll that has to wait leaves the position, so that the load belongs to the position when it is
finished, and a poll that returns is a read of `Mapache.Fs.NodeData` (`pollRead_cases`).

Whatever the sizes of the buffers, and whenever the loads are ready, the polls deliver the bytes of
the blobs in their order (`pollAll_delivers`).
-/

set_option autoImplicit false

namespace Mapache

open Lib

/-- What a poll gives. -/
inductive ReadPoll where
  | pending
  | ready (bytes : Bytes)
  | err
  | panic
  deriving DecidableEq

/-- The bytes that a poll puts into the buffer. -/
def ReadPoll.bytes : ReadPoll → Bytes
  | .ready bytes => bytes
  | _ => []

/-- A load of the blob at a place of the list. Once it is finished it must not be polled again. -/
structure PendingLoad where
  targetIdx : Nat
  finished : Bool

/-- The reader with the load that is under way. -/
structure PolledReader where
  reader : SerializedNodeDataReader
  pendingLoad : Option PendingLoad

namespace PolledReader

/-- The end of `poll_read`: bytes of the current blob are put into the buffer. -/
def copy (p : PolledReader) (remaining : Nat) : ReadPoll × PolledReader :=
  let r := p.reader
  match r.currentBlobIdx.bind fun idx => r.blobPrefix[idx]? with
  | none => (.panic, p)
  | some blobStart =>
    let offset := r.pos - blobStart
    if r.pos < blobStart ∨ r.currentBlob.length < offset then (.panic, p)
    else
      let toCopy := min (r.currentBlob.length - offset) remaining
      (.ready ((r.currentBlob.drop offset).take toCopy),
        { p with reader := { r with pos := r.pos + toCopy } })

/-- `poll_read` into a buffer with so many bytes left. A load that is polled is ready or not. -/
def pollRead (store : BlobStore) (p : PolledReader) (remaining : Nat) (ready : Bool) :
    ReadPoll × PolledReader :=
  let r := p.reader
  if r.totalLength ≤ r.pos ∨ remaining = 0 then (.ready [], p)
  else
    let targetIdx := r.blobAt r.pos
    if r.currentBlobIdx = some targetIdx then p.copy remaining
    else
      -- a load is started unless there is one
      let load := p.pendingLoad.getD ⟨targetIdx, false⟩
      match r.blobIds[load.targetIdx]? with
      | none => (.panic, p)
      | some id =>
        if load.finished then (.panic, p)
        else if ready then
          match store.loadBlob id with
          | none => (.err, { p with pendingLoad := some { load with finished := true } })
          | some data =>
            copy
              { reader := { r with currentBlob := data, currentBlobIdx := some load.targetIdx }
                pendingLoad := none } remaining
        else (.pending, { p with pendingLoad := some load })

/-- A new reader. -/
def start (r : SerializedNodeDataReader) : PolledReader := ⟨r, none⟩

/-- The polls, each with the size of its buffer and whether a load is ready. -/
def pollAll (store : BlobStore) : PolledReader → List (Nat × Bool) → List ReadPoll × PolledReader
  | p, [] => ([], p)
  | p, (remaining, ready) :: polls =>
    let (out, p') := p.pollRead store remaining ready
    let (outs, p'') := pollAll store p' polls
    (out :: outs, p'')

/-- The bytes that were delivered. -/
def delivered (outs : List ReadPoll) : Bytes := outs.flatMap ReadPoll.bytes

/-! ## One poll -/

section Poll

open SerializedNodeDataReader

variable {store : BlobStore} {blobs : List ID} {p p' : PolledReader} {remaining : Nat}
  {ready : Bool} {out : ReadPoll}

/-- A load that is under way belongs to the position and is not the current blob. -/
structure Polling (store : BlobStore) (blobs : List ID) (p : PolledReader) : Prop where
  reading : Reading store blobs p.reader
  pending : ∀ load, p.pendingLoad = some load →
    load.targetIdx = p.reader.blobAt p.reader.pos ∧ p.reader.currentBlobIdx ≠ some load.targetIdx

/-- The blob at the position, with its place and its start. -/
theorem exists_target {r : SerializedNodeDataReader} (hr : Reading store blobs r)
    (hne : ∀ id ∈ blobs, store.plain id ≠ []) (hmore : r.pos < r.totalLength) :
    ∃ id blobStart, id ∈ blobs ∧ blobs[r.blobAt r.pos]? = some id ∧
      r.blobPrefix[r.blobAt r.pos]? = some blobStart ∧ blobStart ≤ r.pos ∧
      r.pos < blobStart + (store.plain id).length := by
  rw [hr.totalLength] at hmore
  obtain ⟨before, id, after, hblobs, hle, hlt⟩ := exists_blob_at hmore
  have hidx := blobAt_eq hr hne hblobs hle hlt
  have hid : blobs[before.length]? = some id := by
    rw [hblobs, List.getElem?_append_right le_rfl, Nat.sub_self, List.getElem?_cons_zero]
  rw [hidx]
  exact ⟨id, _, hblobs ▸ List.mem_append_right _ List.mem_cons_self, hid,
    getElem?_blobPrefix hr hblobs, hle, hlt⟩

/-- **Copying from the blob at the position** is a read. -/
theorem copy_eq_read (hr : Reading store blobs p.reader) (hne : ∀ id ∈ blobs, store.plain id ≠ [])
    (hmore : p.reader.pos < p.reader.totalLength) (hremaining : remaining ≠ 0)
    (hcurrent : p.reader.currentBlobIdx = some (p.reader.blobAt p.reader.pos)) :
    ∃ bytes r', p.reader.read store remaining = some (bytes, r') ∧
      p.copy remaining = (.ready bytes, { p with reader := r' }) := by
  obtain ⟨id, blobStart, -, hid, hstart, hle, hlt⟩ := exists_target hr hne hmore
  obtain ⟨id', hid', hblob⟩ := hr.current _ hcurrent
  rw [hid] at hid'
  cases hid'
  have hoffset : ¬ p.reader.currentBlob.length < p.reader.pos - blobStart := by
    rw [hblob]
    omega
  obtain ⟨toCopy, htoCopy⟩ : ∃ n, n =
      min (p.reader.currentBlob.length - (p.reader.pos - blobStart)) remaining := ⟨_, rfl⟩
  refine ⟨(p.reader.currentBlob.drop (p.reader.pos - blobStart)).take toCopy,
    { p.reader with pos := p.reader.pos + toCopy }, ?_, ?_⟩
  · rw [SerializedNodeDataReader.read, if_neg (not_or.mpr ⟨Nat.not_le.mpr hmore, hremaining⟩)]
    dsimp only
    rw [load, if_pos hcurrent, Option.bind_some, hstart, Option.bind_some, if_neg hoffset, htoCopy]
  · rw [copy]
    dsimp only
    rw [hcurrent, Option.bind_some, hstart]
    dsimp only
    rw [if_neg (not_or.mpr ⟨Nat.not_lt.mpr hle, hoffset⟩), htoCopy]

/-- A read from the blob that was just loaded is a read that loads it. -/
theorem read_of_load {r : SerializedNodeDataReader} {data : Bytes}
    (hmore : r.pos < r.totalLength) (hremaining : remaining ≠ 0)
    (hload : r.load store (r.blobAt r.pos) =
      some { r with currentBlob := data, currentBlobIdx := some (r.blobAt r.pos) }) :
    r.read store remaining = SerializedNodeDataReader.read store
      { r with currentBlob := data, currentBlobIdx := some (r.blobAt r.pos) } remaining := by
  have hnot : ¬(r.totalLength ≤ r.pos ∨ remaining = 0) :=
    not_or.mpr ⟨Nat.not_le.mpr hmore, hremaining⟩
  rw [SerializedNodeDataReader.read, if_neg hnot, SerializedNodeDataReader.read, if_neg hnot]
  dsimp only
  rw [hload]
  exact congrArg (fun o => Option.bind o _) (if_pos rfl).symm

theorem Polling.of_read {r' : SerializedNodeDataReader} {bytes : Bytes}
    (hr : Reading store blobs p.reader) (hne : ∀ id ∈ blobs, store.plain id ≠ [])
    (hread : p.reader.read store remaining = some (bytes, r')) :
    Polling store blobs ⟨r', none⟩ :=
  ⟨(read_spec hr hne hread).1, nofun⟩

/-- The load that is polled is that of the blob at the position. -/
theorem Polling.targetIdx_eq (hp : Polling store blobs p) :
    (p.pendingLoad.getD ⟨p.reader.blobAt p.reader.pos, false⟩).targetIdx =
      p.reader.blobAt p.reader.pos := by
  cases hpending : p.pendingLoad with
  | none => rfl
  | some load => exact (hp.pending load hpending).1

/-- A load of the blob at the position is under way. -/
theorem Polling.of_load {load : PendingLoad} (hp : Polling store blobs p)
    (hidx : load.targetIdx = p.reader.blobAt p.reader.pos)
    (hother : p.reader.currentBlobIdx ≠ some (p.reader.blobAt p.reader.pos)) :
    Polling store blobs { p with pendingLoad := some load } where
  reading := hp.reading
  pending := by
    rintro _ ⟨⟩
    exact ⟨hidx, fun heq => hother (hidx ▸ heq)⟩

/-- Where the current blob is the one at the position, no load is under way. -/
theorem Polling.pendingLoad_eq_none (hp : Polling store blobs p)
    (hcurrent : p.reader.currentBlobIdx = some (p.reader.blobAt p.reader.pos)) :
    p.pendingLoad = none := by
  cases hload : p.pendingLoad with
  | none => rfl
  | some load =>
    obtain ⟨hidx, hother⟩ := hp.pending load hload
    exact absurd (hidx ▸ hcurrent) hother

/-- **What a poll can do.** It returns what a read returns, or it leaves the reader where it is. It
fails only when a load does, and panics only after that. -/
theorem pollRead_cases (hp : Polling store blobs p) (hne : ∀ id ∈ blobs, store.plain id ≠ [])
    (h : p.pollRead store remaining ready = (out, p')) : Polling store blobs p' ∧
      ((∃ bytes, out = .ready bytes ∧ p.reader.read store remaining = some (bytes, p'.reader) ∧
          (p' = p ∨ p'.pendingLoad = none)) ∨
        (p'.reader = p.reader ∧ ∃ load, p'.pendingLoad = some load ∧
          ((out = .pending ∧ ready = false ∧ load.finished = false) ∨
            (out = .err ∧ ∃ id ∈ blobs, store.loadBlob id = none) ∨
            (out = .panic ∧ p' = p ∧ load.finished = true)))) := by
  unfold pollRead at h
  dsimp only at h
  split at h
  · rename_i hend
    cases h
    refine ⟨hp, .inl ⟨[], rfl, ?_, .inl rfl⟩⟩
    rw [SerializedNodeDataReader.read, if_pos hend]
  · rename_i hmore
    rw [not_or, Nat.not_le] at hmore
    obtain ⟨hmore, hremaining⟩ := hmore
    split at h
    · -- the blob at the position is the current one
      rename_i hcurrent
      obtain ⟨bytes, r', hread, hcopy⟩ := copy_eq_read hp.reading hne hmore hremaining hcurrent
      rw [hcopy, hp.pendingLoad_eq_none hcurrent] at h
      cases h
      exact ⟨.of_read hp.reading hne hread, .inl ⟨bytes, rfl, hread, .inr rfl⟩⟩
    · -- it has to be loaded, or is being loaded
      rename_i hother
      obtain ⟨id, blobStart, hmem, hid, -⟩ := exists_target hp.reading hne hmore
      rw [← hp.reading.blobIds] at hid
      have hidx := hp.targetIdx_eq
      obtain ⟨load, hload⟩ : ∃ load, load =
        p.pendingLoad.getD ⟨p.reader.blobAt p.reader.pos, false⟩ := ⟨_, rfl⟩
      rw [← hload] at hidx
      rw [← hload, hidx, hid] at h
      dsimp only at h
      split at h
      · -- a load that has finished before is still there, so it has failed
        rename_i hfinished
        cases h
        refine ⟨hp, .inr ⟨rfl, load, ?_, .inr (.inr ⟨rfl, rfl, hfinished⟩)⟩⟩
        cases hpending : p.pendingLoad with
        | none =>
          rw [hpending] at hload
          rw [hload] at hfinished
          cases hfinished
        | some load' =>
          rw [hpending] at hload
          rw [hload]
          rfl
      · rename_i hfinished
        split at h
        · split at h
          · rename_i hfail
            cases h
            have hfailed := @Polling.of_load store blobs p ⟨_, true⟩ hp rfl hother
            exact ⟨hfailed, .inr ⟨rfl, _, rfl, .inr (.inl ⟨rfl, id, hmem, hfail⟩)⟩⟩
          · rename_i data hdata
            have hloads : p.reader.load store (p.reader.blobAt p.reader.pos) =
                some { p.reader with
                  currentBlob := data, currentBlobIdx := some (p.reader.blobAt p.reader.pos) } := by
              rw [SerializedNodeDataReader.load, if_neg hother, hid, Option.bind_some, hdata]
              rfl
            obtain ⟨bytes, r', hread, hcopy⟩ :=
              @copy_eq_read store blobs ⟨_, none⟩ remaining (load_spec hp.reading hloads).1 hne
                hmore hremaining rfl
            rw [hcopy] at h
            cases h
            rw [← read_of_load hmore hremaining hloads] at hread
            exact ⟨.of_read hp.reading hne hread, .inl ⟨bytes, rfl, hread, .inr rfl⟩⟩
        · rename_i hready
          cases h
          exact ⟨hp.of_load hidx hother, .inr ⟨rfl, load, rfl, .inl ⟨rfl,
            Bool.not_eq_true _ ▸ hready, Bool.not_eq_true _ ▸ hfinished⟩⟩⟩

/-- **A poll takes its bytes from the front of what is left**, and puts none into a buffer that has
room only at the end. -/
theorem pollRead_spec (hp : Polling store blobs p) (hne : ∀ id ∈ blobs, store.plain id ≠ [])
    (h : p.pollRead store remaining ready = (out, p')) :
    Polling store blobs p' ∧ p.reader.rest store = out.bytes ++ p'.reader.rest store ∧
      (0 < remaining → out = .ready [] → p.reader.rest store = []) := by
  obtain ⟨hp', ⟨bytes, rfl, hread, -⟩ | ⟨hreader, load, -, hout⟩⟩ := pollRead_cases hp hne h
  · obtain ⟨-, hrest, -, hend⟩ := read_spec hp.reading hne hread
    exact ⟨hp', hrest, fun hpos hnil => hend hpos (ReadPoll.ready.inj hnil)⟩
  · rw [hreader]
    rcases hout with ⟨rfl, -⟩ | ⟨rfl, -⟩ | ⟨rfl, -⟩
    · exact ⟨hp', rfl, nofun⟩
    · exact ⟨hp', rfl, nofun⟩
    · exact ⟨hp', rfl, nofun⟩

/-- No load has failed. -/
def Fresh (p : PolledReader) : Prop := ∀ load, p.pendingLoad = some load → load.finished = false

/-- Where every blob can be loaded, a poll waits for its load or returns. -/
theorem pollRead_returns (hp : Polling store blobs p) (hne : ∀ id ∈ blobs, store.plain id ≠ [])
    (hloads : ∀ id ∈ blobs, (store.loadBlob id).isSome) (hfresh : p.Fresh)
    (h : p.pollRead store remaining ready = (out, p')) :
    p'.Fresh ∧ ((out = .pending ∧ ready = false) ∨ ∃ bytes, out = .ready bytes) := by
  obtain ⟨-, ⟨bytes, hout, -, hsame | hnone⟩ | ⟨-, load, hload, hout⟩⟩ := pollRead_cases hp hne h
  · exact ⟨hsame ▸ hfresh, .inr ⟨bytes, hout⟩⟩
  · refine ⟨fun load hload => ?_, .inr ⟨bytes, hout⟩⟩
    rw [hnone] at hload
    cases hload
  · rcases hout with ⟨rfl, hready, hfinished⟩ | ⟨-, id, hid, hfail⟩ | ⟨-, rfl, hfinished⟩
    · refine ⟨fun load' hload' => ?_, .inl ⟨rfl, hready⟩⟩
      rw [hload] at hload'
      cases hload'
      exact hfinished
    · have hsome := hloads id hid
      rw [hfail] at hsome
      cases hsome
    · rw [hfresh load hload] at hfinished
      cases hfinished

end Poll

/-! ## All polls -/

section Polls

open SerializedNodeDataReader

variable {store : BlobStore} {blobs : List ID} {p : PolledReader}

/-- **Every sequence of polls** takes its bytes from the front of what is left. -/
theorem pollAll_spec (hp : Polling store blobs p) (hne : ∀ id ∈ blobs, store.plain id ≠ [])
    (polls : List (Nat × Bool)) :
    Polling store blobs (p.pollAll store polls).2 ∧ p.reader.rest store =
      delivered (p.pollAll store polls).1 ++ (p.pollAll store polls).2.reader.rest store := by
  induction polls generalizing p with
  | nil => exact ⟨hp, rfl⟩
  | cons poll polls ih =>
    obtain ⟨remaining, ready⟩ := poll
    cases hpoll : p.pollRead store remaining ready with
    | mk out p' =>
      obtain ⟨hp', hrest, -⟩ := pollRead_spec hp hne hpoll
      obtain ⟨hp'', hrest'⟩ := ih hp'
      rw [pollAll, hpoll]
      refine ⟨hp'', ?_⟩
      rw [hrest, hrest', delivered, delivered, List.flatMap_cons, List.append_assoc]

/-- The polls that bring the reader on: there is room in the buffer, and a load is ready. -/
def helpful (polls : List (Nat × Bool)) : Nat := polls.countP fun poll => 0 < poll.1 ∧ poll.2

/-- **Where every blob can be loaded** no poll fails, and every helpful one takes a byte until none
is left. -/
theorem pollAll_returns (hp : Polling store blobs p) (hne : ∀ id ∈ blobs, store.plain id ≠ [])
    (hloads : ∀ id ∈ blobs, (store.loadBlob id).isSome) (hfresh : p.Fresh)
    (polls : List (Nat × Bool)) :
    (∀ out ∈ (p.pollAll store polls).1, out ≠ .err ∧ out ≠ .panic) ∧
      ((p.pollAll store polls).2.reader.rest store).length ≤
        (p.reader.rest store).length - helpful polls := by
  induction polls generalizing p with
  | nil => exact ⟨nofun, le_rfl⟩
  | cons poll polls ih =>
    obtain ⟨remaining, ready⟩ := poll
    cases hpoll : p.pollRead store remaining ready with
    | mk out p' =>
      obtain ⟨hp', hrest, hend⟩ := pollRead_spec hp hne hpoll
      obtain ⟨hfresh', hout⟩ := pollRead_returns hp hne hloads hfresh hpoll
      obtain ⟨houts, hlen⟩ := ih hp' hfresh'
      rw [pollAll, hpoll]
      constructor
      · intro out' hmem
        rcases List.mem_cons.mp hmem with rfl | hmem
        · rcases hout with ⟨rfl, -⟩ | ⟨bytes, rfl⟩
          · exact ⟨nofun, nofun⟩
          · exact ⟨nofun, nofun⟩
        · exact houts out' hmem
      · have hsplit := congrArg List.length hrest
        rw [List.length_append] at hsplit
        refine hlen.trans ?_
        rw [helpful, helpful, List.countP_cons]
        split
        · -- a helpful poll does not wait, and returns without bytes only at the end
          rename_i hhelpful
          obtain ⟨hpos, hready⟩ := of_decide_eq_true hhelpful
          rcases hout with ⟨-, hnot⟩ | ⟨bytes, rfl⟩
          · dsimp only at hready
            rw [hnot] at hready
            cases hready
          · cases bytes with
            | nil =>
              rw [hend hpos rfl] at hsplit ⊢
              rw [List.length_nil] at hsplit ⊢
              omega
            | cons b bytes =>
              rw [ReadPoll.bytes, List.length_cons] at hsplit
              omega
        · omega

/-- **The reader yields the file.** Whatever the sizes of the buffers, zero included, and whenever
the loads are ready, the bytes that were delivered are the first ones of the blobs in their order; a
poll with room in its buffer returns without bytes only after the last one; and where the blobs can
be loaded no poll fails, and enough helpful polls deliver all bytes. -/
theorem pollAll_delivers {r : SerializedNodeDataReader} (hnew : new store blobs = some r)
    (hne : ∀ id ∈ blobs, store.plain id ≠ []) (polls : List (Nat × Bool)) :
    delivered ((start r).pollAll store polls).1 <+: blobs.flatMap store.plain ∧
    (∀ remaining ready, 0 < remaining →
      (((start r).pollAll store polls).2.pollRead store remaining ready).1 = .ready [] →
        delivered ((start r).pollAll store polls).1 = blobs.flatMap store.plain) ∧
    ((∀ id ∈ blobs, (store.loadBlob id).isSome) →
      (∀ out ∈ ((start r).pollAll store polls).1, out ≠ .err ∧ out ≠ .panic) ∧
      ((blobs.flatMap store.plain).length ≤ helpful polls →
        delivered ((start r).pollAll store polls).1 = blobs.flatMap store.plain)) := by
  obtain ⟨hreading, hpos⟩ := new_spec hnew
  have hp : Polling store blobs (start r) := ⟨hreading, nofun⟩
  have hcontent : (start r).reader.rest store = blobs.flatMap store.plain := by
    change r.rest store = _
    rw [rest, hreading.blobIds, hpos, List.drop_zero]
  obtain ⟨hp', hrest⟩ := pollAll_spec hp hne polls
  rw [hcontent] at hrest
  have hall : ((start r).pollAll store polls).2.reader.rest store = [] →
      delivered ((start r).pollAll store polls).1 = blobs.flatMap store.plain := by
    intro hnil
    rw [hrest, hnil, List.append_nil]
  refine ⟨⟨_, hrest.symm⟩, fun remaining ready hremaining hout => hall ?_, fun hloads => ?_⟩
  · exact (pollRead_spec hp' hne rfl).2.2 hremaining hout
  · obtain ⟨houts, hlen⟩ := pollAll_returns hp hne hloads nofun polls
    rw [hcontent] at hlen
    refine ⟨houts, fun henough => hall (List.eq_nil_iff_length_eq_zero.mpr ?_)⟩
    omega

/-- A repository where every blob is `[1, 2]`. -/
def pairStore : BlobStore where
  plain _ := [1, 2]
  rawLength _ := some 2
  loadBlob _ := some [1, 2]
  rawLength_eq _ _ h := by
    cases h
    rfl
  loadBlob_eq _ _ h := by
    cases h
    rfl

/-- One blob twice, with a buffer of size zero and a load that is not ready at first. -/
theorem pollAll_delivers_twice : ∃ r, new pairStore [7, 7] = some r ∧
    delivered ((start r).pollAll pairStore
      [(0, true), (3, false), (3, true), (1, true), (0, false), (1, true), (5, true)]).1 =
        [1, 2, 1, 2] := by
  obtain ⟨r, hnew⟩ : ∃ r, new pairStore [7, 7] = some r := ⟨_, rfl⟩
  have hne : ∀ id ∈ [7, 7], pairStore.plain id ≠ [] := fun _ _ => List.cons_ne_nil _ _
  have hspec := pollAll_delivers hnew hne
    [(0, true), (3, false), (3, true), (1, true), (0, false), (1, true), (5, true)]
  exact ⟨r, hnew, (hspec.2.2 fun _ _ => rfl).2 (by decide)⟩

end Polls

end PolledReader

end Mapache
