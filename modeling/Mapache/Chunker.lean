import Mapache.Lib.Bytes

/-!
# Content-defined chunking

The crate `chunker`: `Chunker::cut` finds the end of the first chunk of a byte string with a rolling
hash, and `ChunkStream` cuts what it reads from a source. The stream keeps a buffer that it fills up
to the largest chunk size before each cut, by reads that may return less than was asked for or be
interrupted.

`cut` sees at most `max_size` bytes (`cut_take`), and the buffer has that many or all that are left
(`fill_spec`), so the stream cuts where the whole byte string is cut (`chunkStream_eq_cuts`). The
Gear tables are fields of the chunker, as in the source, and nothing depends on their values.
-/

set_option autoImplicit false

namespace Mapache

open Lib

/-! ## The chunker -/

/-- `TOTAL_MIN_SIZE`. -/
def totalMinSize : Nat := 64

/-- `TOTAL_MAX_SIZE`. -/
def totalMaxSize : Nat := 16 * 1024 * 1024

/-- `MAX_NORMAL_SIZE`. -/
def maxNormalSize : Nat := 4 * 1024 * 1024

inductive Normalization where
  | none
  | l1
  | l2
  | l3

/-- `Normalization::bits`. -/
def Normalization.bits : Normalization → Nat
  | none => 0
  | l1 => 1
  | l2 => 2
  | l3 => 3

/-- `MASKS`. -/
def masks : List UInt64 :=
  [0x0000000000000000, 0x0000000000002000, 0x0000000000022000, 0x0000000010010040,
    0x0000000100010044, 0x0000090042001000, 0x0000002a10010004, 0x0000484208006000,
    0x0000028404200700, 0x000031c000000198, 0x0000050454990000, 0x00001e0500504030,
    0x0000080a08c18a14, 0x000040ca21080463, 0x00001320504831b0, 0x00009144a50094a2,
    0x0000090864506356, 0x0000894111111766, 0x0000b13e28184185, 0x0000c9798491121a,
    0x0000b639e012072a, 0x00006eca54da018c, 0x00001a11cf6528d5, 0x00009e551498f3a4,
    0x0000e4b0dee270b2, 0x0000fb7d40e32cb0]

/-- A chunker whose sizes have passed the assertions of `Chunker::new`. -/
structure Chunker where
  minSize : Nat
  normalSize : Nat
  maxSize : Nat
  gear : UInt8 → UInt64
  gearLs : UInt8 → UInt64
  maskS : UInt64
  maskL : UInt64
  maskSLs : UInt64
  maskLLs : UInt64
  min_le_normal : minSize ≤ normalSize
  normal_le_max : normalSize ≤ maxSize
  totalMin_le_min : totalMinSize ≤ minSize
  max_le_totalMax : maxSize ≤ totalMaxSize
  normal_le_maxNormal : normalSize ≤ maxNormalSize

namespace Chunker

/-- `Chunker::new`, on the Gear tables of the crate; `none` where it panics. -/
def new (gear gearLs : UInt8 → UInt64) (minSize normalSize maxSize : Nat)
    (normalization : Normalization) : Option Chunker :=
  if h : minSize ≤ normalSize ∧ normalSize ≤ maxSize ∧ totalMinSize ≤ minSize ∧
      maxSize ≤ totalMaxSize ∧ normalSize ≤ maxNormalSize then
    let normalBits := Nat.log2 normalSize
    (masks[normalBits + normalization.bits]?).bind fun maskS =>
      (masks[normalBits - normalization.bits]?).map fun maskL =>
        { minSize := minSize
          normalSize := normalSize
          maxSize := maxSize
          gear := gear
          gearLs := gearLs
          maskS := maskS
          maskL := maskL
          maskSLs := maskS <<< 1
          maskLLs := maskL <<< 1
          min_le_normal := h.1
          normal_le_max := h.2.1
          totalMin_le_min := h.2.2.1
          max_le_totalMax := h.2.2.2.1
          normal_le_maxNormal := h.2.2.2.2 }
  else none

/-- `n & !1`. -/
def evenPart (n : Nat) : Nat := n / 2 * 2

/-- One of the two loops of `cut`: two bytes each time, from `n` up to `stop`. The result is a cut
point or what the loop ends with. Both `n` and `stop` are even, so the second byte is there. -/
def roll (c : Chunker) (maskLs mask : UInt64) (slice : Bytes) (stop n : Nat) (fp : UInt64) :
    Nat ⊕ Nat × UInt64 :=
  if n < stop then
    let fp₀ := (fp <<< 2) + c.gearLs (slice.getD n 0)
    if fp₀ &&& maskLs = 0 then .inl n
    else
      let fp₁ := fp₀ + c.gear (slice.getD (n + 1) 0)
      if fp₁ &&& mask = 0 then .inl (n + 1) else c.roll maskLs mask slice stop (n + 2) fp₁
  else .inr (n, fp)
termination_by stop - n

/-- The two phases of `cut`, up to the normalization center and up to the end. -/
def rollPhases (c : Chunker) (slice : Bytes) (mid stop max n : Nat) (fp : UInt64) : Nat :=
  match c.roll c.maskSLs c.maskS slice mid n fp with
  | .inl cut => cut
  | .inr (n, fp) =>
    match c.roll c.maskLLs c.maskL slice stop n fp with
    | .inl cut => cut
    | .inr _ => max

/-- `Chunker::cut`. -/
def cut (c : Chunker) (data : Bytes) : Nat :=
  if data.length ≤ c.minSize then data.length
  else
    let max := min data.length c.maxSize
    let mid := evenPart (min c.normalSize max)
    let stop := evenPart max
    let slice := data.take stop
    let n := min c.minSize max
    -- an odd start is aligned by one byte
    if n < stop ∧ n % 2 = 1 then
      let fp := c.gear (slice.getD n 0)
      if fp &&& c.maskS = 0 then n + 1 else c.rollPhases slice mid stop max (n + 1) fp
    else c.rollPhases slice mid stop max n 0

section Bounds

variable {c : Chunker}

theorem evenPart_le (n : Nat) : evenPart n ≤ n := by
  unfold evenPart
  omega

theorem min_le_max : c.minSize ≤ c.maxSize := c.min_le_normal.trans c.normal_le_max

theorem minSize_pos : 0 < c.minSize :=
  lt_of_lt_of_le (by decide) c.totalMin_le_min

/-- A loop cuts between its start and its end, and it does not go back. -/
theorem roll_bounds (maskLs mask : UInt64) (slice : Bytes) (stop n : Nat) (fp : UInt64) :
    (∀ k, c.roll maskLs mask slice stop n fp = .inl k → n ≤ k ∧ k ≤ stop) ∧
      ∀ n' fp', c.roll maskLs mask slice stop n fp = .inr (n', fp') → n ≤ n' := by
  induction n, fp using roll.induct c maskLs mask slice stop with
  | case1 n fp hlt fp₀ hcut =>
    rw [roll, if_pos hlt, if_pos hcut]
    refine ⟨fun k hk => ?_, fun n' fp' h => (by cases h)⟩
    cases hk
    omega
  | case2 n fp hlt fp₀ hcut fp₁ hcut' =>
    rw [roll, if_pos hlt, if_neg hcut, if_pos hcut']
    refine ⟨fun k hk => ?_, fun n' fp' h => (by cases h)⟩
    cases hk
    omega
  | case3 n fp hlt fp₀ hcut fp₁ hcut' ih =>
    rw [roll, if_pos hlt, if_neg hcut, if_neg hcut']
    refine ⟨fun k hk => ?_, fun n' fp' h => ?_⟩
    · have hk' := ih.1 k hk
      omega
    · have hn := ih.2 n' fp' h
      omega
  | case4 n fp hge =>
    rw [roll, if_neg hge]
    refine ⟨fun k hk => (by cases hk), fun n' fp' h => ?_⟩
    cases h
    exact le_rfl

theorem rollPhases_bounds (slice : Bytes) {mid stop max : Nat} (n : Nat) (fp : UInt64)
    (hmid : mid ≤ max) (hstop : stop ≤ max) (hn : n ≤ max) :
    n ≤ c.rollPhases slice mid stop max n fp ∧ c.rollPhases slice mid stop max n fp ≤ max := by
  unfold rollPhases
  split
  · rename_i k hk
    have hbounds := (roll_bounds c.maskSLs c.maskS slice mid n fp).1 k hk
    omega
  · rename_i n₁ fp₁ h₁
    have hle := (roll_bounds c.maskSLs c.maskS slice mid n fp).2 n₁ fp₁ h₁
    split
    · rename_i k hk
      have hbounds := (roll_bounds c.maskLLs c.maskL slice stop n₁ fp₁).1 k hk
      omega
    · exact ⟨hn, le_rfl⟩

/-- **Where a cut lies**: at least `min_size` in, unless there are no more bytes than that. -/
theorem cut_bounds (c : Chunker) (data : Bytes) :
    (data.length ≤ c.minSize → c.cut data = data.length) ∧
      (c.minSize < data.length → c.minSize ≤ c.cut data) ∧ c.cut data ≤ min data.length c.maxSize := by
  unfold cut
  have hmm := c.min_le_max
  split
  · rename_i hshort
    refine ⟨fun _ => rfl, fun h => absurd h (by omega), ?_⟩
    omega
  · rename_i hlong
    refine ⟨fun h => absurd h hlong, ?_⟩
    dsimp only
    generalize hmax : min data.length c.maxSize = max
    have hstop := evenPart_le max
    have hmid := evenPart_le (min c.normalSize max)
    split
    · split
      · omega
      · have hbounds := rollPhases_bounds (c := c) (data.take (evenPart max)) (min c.minSize max + 1)
          (c.gear ((data.take (evenPart max)).getD (min c.minSize max) 0))
          (hmid.trans (min_le_right _ _)) hstop (by omega)
        omega
    · have hbounds := rollPhases_bounds (c := c) (data.take (evenPart max)) (min c.minSize max) 0
        (hmid.trans (min_le_right _ _)) hstop (by omega)
      omega

theorem cut_pos (c : Chunker) {data : Bytes} (h : data ≠ []) : 0 < c.cut data := by
  have hlen : 0 < data.length := List.length_pos_iff.mpr h
  have hmin := c.minSize_pos
  obtain ⟨hshort, hlong, -⟩ := c.cut_bounds data
  by_cases hle : data.length ≤ c.minSize
  · rw [hshort hle]
    exact hlen
  · have hcut := hlong (by omega)
    omega

/-- **A cut sees at most `max_size` bytes.** -/
theorem cut_take (c : Chunker) (data : Bytes) : c.cut (data.take c.maxSize) = c.cut data := by
  by_cases hlen : data.length ≤ c.maxSize
  · rw [List.take_of_length_le hlen]
  · have hmm := c.min_le_max
    have htake : (data.take c.maxSize).length = c.maxSize := by
      rw [List.length_take]
      omega
    by_cases heq : c.maxSize ≤ c.minSize
    · -- with one size only, both sides are that size
      obtain ⟨hshort, -, -⟩ := c.cut_bounds (data.take c.maxSize)
      obtain ⟨-, hlong, hle⟩ := c.cut_bounds data
      have hcut := hlong (by omega)
      rw [hshort (by omega)]
      omega
    · have hmax : min (data.take c.maxSize).length c.maxSize = min data.length c.maxSize := by
        omega
      have hslice : (data.take c.maxSize).take (evenPart (min data.length c.maxSize)) =
          data.take (evenPart (min data.length c.maxSize)) := by
        rw [List.take_take, min_eq_left]
        exact (evenPart_le _).trans (min_le_right _ _)
      have hlong : ¬ data.length ≤ c.minSize := by omega
      have hlong' : ¬ (data.take c.maxSize).length ≤ c.minSize := by omega
      rw [cut, cut, if_neg hlong', if_neg hlong, hmax]
      dsimp only
      rw [hslice]

end Bounds

/-! ## Cutting a whole byte string -/

end Chunker

/-- A chunk with its offset in the source. -/
structure Chunk where
  offset : Nat
  length : Nat
  data : Bytes
  deriving DecidableEq

/-- The chunks that repeated cuts make of a byte string. -/
def Chunker.chunks (c : Chunker) (offset : Nat) (data : Bytes) : List Chunk :=
  if data = [] then []
  else
    ⟨offset, c.cut data, data.take (c.cut data)⟩ ::
      c.chunks (offset + c.cut data) (data.drop (c.cut data))
termination_by data.length
decreasing_by
  rename_i h
  have hpos := c.cut_pos h
  have hlen : 0 < data.length := List.length_pos_iff.mpr h
  rw [List.length_drop]
  omega

/-- The chunks lie one after the other. -/
def Consecutive : Nat → List Chunk → Prop
  | _, [] => True
  | offset, ch :: chs => ch.offset = offset ∧ Consecutive (offset + ch.length) chs

namespace Chunker

variable {c : Chunker}

theorem chunks_nil (c : Chunker) (offset : Nat) : c.chunks offset [] = [] := by
  rw [chunks, if_pos rfl]

theorem chunks_cons (c : Chunker) (offset : Nat) {data : Bytes} (h : data ≠ []) :
    c.chunks offset data = ⟨offset, c.cut data, data.take (c.cut data)⟩ ::
      c.chunks (offset + c.cut data) (data.drop (c.cut data)) := by
  rw [chunks, if_neg h]

/-- Cutting loses and adds nothing. -/
theorem flatMap_chunks (c : Chunker) (offset : Nat) (data : Bytes) :
    (c.chunks offset data).flatMap Chunk.data = data := by
  induction offset, data using chunks.induct c with
  | case1 offset => rw [chunks_nil, List.flatMap_nil]
  | case2 offset data h ih =>
    rw [chunks_cons c offset h, List.flatMap_cons, ih, List.take_append_drop]

theorem consecutive_chunks (c : Chunker) (offset : Nat) (data : Bytes) :
    Consecutive offset (c.chunks offset data) := by
  induction offset, data using chunks.induct c with
  | case1 offset =>
    rw [chunks_nil]
    trivial
  | case2 offset data h ih =>
    rw [chunks_cons c offset h]
    exact ⟨rfl, ih⟩

/-- A chunk has bytes, as many as it says and at most `max_size`. -/
theorem mem_chunks (c : Chunker) (offset : Nat) (data : Bytes) :
    ∀ ch ∈ c.chunks offset data,
      ch.data ≠ [] ∧ ch.length = ch.data.length ∧ ch.length ≤ c.maxSize := by
  induction offset, data using chunks.induct c with
  | case1 offset =>
    rw [chunks_nil]
    exact fun ch hch => (by cases hch)
  | case2 offset data h ih =>
    rw [chunks_cons c offset h]
    intro ch hch
    rcases List.mem_cons.mp hch with rfl | htail
    · have hpos := c.cut_pos h
      have hle := (c.cut_bounds data).2.2
      have hlen : (data.take (c.cut data)).length = c.cut data := by
        rw [List.length_take]
        omega
      refine ⟨?_, hlen.symm, ?_⟩
      · rw [← List.length_pos_iff, hlen]
        exact hpos
      · dsimp only
        omega
    · exact ih ch htail

/-- Every chunk that others follow has at least `min_size` bytes. -/
theorem minSize_le_chunks (c : Chunker) (offset : Nat) (data : Bytes) :
    ∀ ch ∈ (c.chunks offset data).dropLast, c.minSize ≤ ch.length := by
  induction offset, data using chunks.induct c with
  | case1 offset =>
    rw [chunks_nil]
    exact fun ch hch => (by cases hch)
  | case2 offset data h ih =>
    rw [chunks_cons c offset h]
    obtain ⟨hshort, hlong, -⟩ := c.cut_bounds data
    by_cases hle : data.length ≤ c.minSize
    · -- the chunk takes everything and is the last one
      rw [hshort hle, List.drop_length, chunks_nil]
      exact fun ch hch => (by cases hch)
    · intro ch hch
      cases hrest : c.chunks (offset + c.cut data) (data.drop (c.cut data)) with
      | nil =>
        rw [hrest] at hch
        cases hch
      | cons ch' chs =>
        rw [hrest, List.dropLast_cons_cons] at hch
        rw [hrest] at ih
        rcases List.mem_cons.mp hch with rfl | htail
        · exact hlong (by omega)
        · exact ih ch htail

end Chunker

/-! ## Reading from a source -/

/-- What a call of `Read::read` may do before the source is at its end. -/
inductive ReadEvent where
  | interrupted
  /-- Return at most `n + 1` bytes. -/
  | short (n : Nat)
  /-- Fail with another error. -/
  | fail
  deriving DecidableEq

/-- A source: what is left of it, and what the next reads do. After that, a read returns as many
bytes as it is asked for. -/
structure Source where
  rest : Bytes
  schedule : List ReadEvent

/-- The result of a read. -/
inductive ReadResult where
  | ok (bytes : Bytes)
  | interrupted
  | error

/-- `Read::read` into a buffer of the given length. -/
def Source.read (src : Source) (toRead : Nat) : ReadResult × Source :=
  match src.schedule with
  | [] => (.ok (src.rest.take toRead), ⟨src.rest.drop toRead, []⟩)
  | .interrupted :: es => (.interrupted, ⟨src.rest, es⟩)
  | .short n :: es =>
    (.ok (src.rest.take (min (n + 1) toRead)), ⟨src.rest.drop (min (n + 1) toRead), es⟩)
  | .fail :: es => (.error, ⟨src.rest, es⟩)

/-- How the filling of the buffer ends. -/
inductive Filled where
  | full
  | eof
  | error
  deriving DecidableEq

/-- A read that returns bytes leaves less to read, and any other one is off the schedule. -/
theorem Source.measure_read {src src' : Source} {toRead : Nat} {res : ReadResult} (hpos : 0 < toRead)
    (h : src.read toRead = (res, src')) (hne : res ≠ .ok []) :
    src'.rest.length + src'.schedule.length < src.rest.length + src.schedule.length := by
  unfold Source.read at h
  split at h
  · cases h
    rename_i hs
    have hlen : 0 < src.rest.length := by
      rw [List.length_pos_iff]
      intro hnil
      exact hne (by rw [hnil, List.take_nil])
    simp only [hs, List.length_drop, List.length_nil]
    omega
  all_goals
    cases h
    rename_i hs
    simp only [hs, List.length_drop, List.length_cons]
    omega

/-- The loop of `ChunkStream::next`. The buffer has the capacity for `maxSize` bytes when it reads,
so a read asks for all that is needed. -/
def fill (maxSize : Nat) (buffer : Bytes) (src : Source) : Bytes × Source × Filled :=
  if _hlt : buffer.length < maxSize then
    match _hread : src.read (maxSize - buffer.length) with
    | (.ok [], src') => (buffer, src', .eof)
    | (.ok (b :: bs), src') => fill maxSize (buffer ++ b :: bs) src'
    | (.interrupted, src') => fill maxSize buffer src'
    | (.error, src') => (buffer, src', .error)
  else (buffer, src, .full)
termination_by src.rest.length + src.schedule.length
decreasing_by
  · exact Source.measure_read (by omega) _hread (fun h => by cases h)
  · exact Source.measure_read (by omega) _hread (fun h => by cases h)

/-- No read fails for another reason than an interrupt. -/
def Source.Reliable (src : Source) : Prop := .fail ∉ src.schedule

/-- A read takes its bytes from the front of the source. -/
theorem Source.read_spec {src src' : Source} {toRead : Nat} {res : ReadResult} (hrel : src.Reliable)
    (h : src.read toRead = (res, src')) :
    src'.Reliable ∧ ((res = .interrupted ∧ src'.rest = src.rest) ∨
      ∃ bytes, res = .ok bytes ∧ src.rest = bytes ++ src'.rest ∧ bytes.length ≤ toRead ∧
        (0 < toRead → bytes = [] → src.rest = [])) := by
  have htake : ∀ k, k ≤ toRead → (0 < toRead → 0 < k) →
      src.rest = src.rest.take k ++ src.rest.drop k ∧ (src.rest.take k).length ≤ toRead ∧
        (0 < toRead → src.rest.take k = [] → src.rest = []) := by
    intro k hk hpos
    refine ⟨(List.take_append_drop k src.rest).symm, (List.length_take_le k _).trans hk,
      fun hto hnil => ?_⟩
    rcases List.take_eq_nil_iff.mp hnil with hzero | hnil
    · have := hpos hto
      omega
    · exact hnil
  unfold Source.read at h
  unfold Source.Reliable at hrel ⊢
  split at h
  · cases h
    exact ⟨List.not_mem_nil, Or.inr ⟨_, rfl, htake toRead le_rfl id⟩⟩
  · cases h
    rename_i es hs
    rw [hs] at hrel
    exact ⟨fun hmem => hrel (List.mem_cons_of_mem _ hmem), Or.inl ⟨rfl, rfl⟩⟩
  · cases h
    rename_i n es hs
    rw [hs] at hrel
    exact ⟨fun hmem => hrel (List.mem_cons_of_mem _ hmem),
      Or.inr ⟨_, rfl, htake _ (min_le_right _ _) (by omega)⟩⟩
  · rename_i es hs
    rw [hs] at hrel
    exact absurd List.mem_cons_self hrel

/-- **The buffer is filled with what comes next**, up to its size or to the end of the source. -/
theorem fill_spec {maxSize : Nat} {buffer buffer' : Bytes} {src src' : Source} {status : Filled}
    (hrel : src.Reliable) (hlen : buffer.length ≤ maxSize)
    (h : fill maxSize buffer src = (buffer', src', status)) :
    src'.Reliable ∧ buffer' ++ src'.rest = buffer ++ src.rest ∧ buffer'.length ≤ maxSize ∧
      ((status = .eof ∧ src'.rest = []) ∨ (status = .full ∧ buffer'.length = maxSize)) := by
  -- along the recursion of the loop, one case for each result of a read
  induction buffer, src using fill.induct maxSize with
  | case1 buffer src hlt src₁ hread =>
    rw [fill, dif_pos hlt] at h
    split at h
    all_goals
      rename_i heq
      rw [hread] at heq
      cases heq
    cases h
    obtain ⟨hrel', ⟨hcontra, -⟩ | ⟨bytes, heq, hrest, -, hend⟩⟩ := src.read_spec hrel hread
    · cases hcontra
    · cases heq
      have hnil := hend (by omega) rfl
      rw [hnil] at hrest
      have hnil' : src'.rest = [] := by simpa using hrest.symm
      exact ⟨hrel', by rw [hnil, hnil'], hlen, Or.inl ⟨rfl, hnil'⟩⟩
  | case2 buffer src hlt b bs src₁ hread ih =>
    rw [fill, dif_pos hlt] at h
    split at h
    all_goals
      rename_i heq
      rw [hread] at heq
      cases heq
    obtain ⟨hrel', ⟨hcontra, -⟩ | ⟨bytes, heq, hrest, hle, -⟩⟩ := src.read_spec hrel hread
    · cases hcontra
    · cases heq
      have hlen' : (buffer ++ b :: bs).length ≤ maxSize := by
        rw [List.length_append]
        omega
      obtain ⟨hrel'', hbytes, hrest'⟩ := ih hrel' hlen' h
      exact ⟨hrel'', by rw [hbytes, hrest, List.append_assoc], hrest'⟩
  | case3 buffer src hlt src₁ hread ih =>
    rw [fill, dif_pos hlt] at h
    split at h
    all_goals
      rename_i heq
      rw [hread] at heq
      cases heq
    obtain ⟨hrel', ⟨-, hsame⟩ | ⟨bytes, hcontra, -⟩⟩ := src.read_spec hrel hread
    · obtain ⟨hrel'', hbytes, hrest'⟩ := ih hrel' hlen h
      exact ⟨hrel'', by rw [hbytes, hsame], hrest'⟩
    · cases hcontra
  | case4 buffer src hlt src₁ hread =>
    obtain ⟨-, ⟨hcontra, -⟩ | ⟨bytes, hcontra, -⟩⟩ := src.read_spec hrel hread
    · cases hcontra
    · cases hcontra
  | case5 buffer src hge =>
    rw [fill, dif_neg hge] at h
    cases h
    exact ⟨hrel, rfl, hlen, Or.inr ⟨rfl, by omega⟩⟩

/-! ## The stream -/

/-- `ChunkStream`, on a chunker that is given to its methods. -/
structure ChunkStream where
  source : Source
  buffer : Bytes
  globalOffset : Nat

namespace ChunkStream

/-- `ChunkStream::new`. -/
def new (source : Source) : ChunkStream := ⟨source, [], 0⟩

/-- `ChunkStream::next`: nothing at the end, an error, or a chunk. -/
def next (c : Chunker) (s : ChunkStream) : Option (Option Chunk) × ChunkStream :=
  match fill c.maxSize s.buffer s.source with
  | (buffer, src, .error) => (some none, ⟨src, buffer, s.globalOffset⟩)
  | (buffer, src, status) =>
    if status = .eof ∧ buffer = [] then (none, ⟨src, buffer, s.globalOffset⟩)
    else
      let cutPoint := c.cut (buffer.take (min buffer.length c.maxSize))
      if c.minSize ≤ buffer.length ∧ 0 < cutPoint then
        (some (some ⟨s.globalOffset, cutPoint, buffer.take cutPoint⟩),
          ⟨src, buffer.drop cutPoint, s.globalOffset + cutPoint⟩)
      else if status = .eof ∧ buffer ≠ [] then
        (some (some ⟨s.globalOffset, buffer.length, buffer⟩),
          ⟨src, [], s.globalOffset + buffer.length⟩)
      else (none, ⟨src, buffer, s.globalOffset⟩)

/-- The stream yields these chunks and then ends. -/
inductive Yields (c : Chunker) : ChunkStream → List Chunk → Prop where
  | done {s s' : ChunkStream} : s.next c = (none, s') → Yields c s []
  | chunk {s s' : ChunkStream} {ch : Chunk} {out : List Chunk} :
      s.next c = (some (some ch), s') → Yields c s' out → Yields c s (ch :: out)

/-- What the stream has still to cut. -/
def left (s : ChunkStream) : Bytes := s.buffer ++ s.source.rest

variable {c : Chunker}

/-- The buffer is the front of what is left. -/
theorem buffer_eq_take {buffer : Bytes} (rest : Bytes) (hlen : buffer.length ≤ c.maxSize)
    (h : rest = [] ∨ buffer.length = c.maxSize) : buffer = (buffer ++ rest).take c.maxSize := by
  rcases h with rfl | hfull
  · rw [List.append_nil, List.take_of_length_le hlen]
  · rw [← hfull, List.take_left]

/-- **The next chunk is the first one of what is left.** -/
theorem next_spec {s : ChunkStream} (hrel : s.source.Reliable) (hlen : s.buffer.length ≤ c.maxSize) :
    (s.left = [] → ∃ s', s.next c = (none, s')) ∧
      (s.left ≠ [] → ∃ s', s.next c =
          (some (some ⟨s.globalOffset, c.cut s.left, s.left.take (c.cut s.left)⟩), s') ∧
        s'.source.Reliable ∧ s'.buffer.length ≤ c.maxSize ∧ s'.left = s.left.drop (c.cut s.left) ∧
        s'.globalOffset = s.globalOffset + c.cut s.left) := by
  obtain ⟨⟨buffer, src, status⟩, hfill⟩ : ∃ r, fill c.maxSize s.buffer s.source = r := ⟨_, rfl⟩
  obtain ⟨hrel', hleft, hlen', hstatus⟩ := fill_spec hrel hlen hfill
  have hmm := c.min_le_max
  have hmin := c.minSize_pos
  have herr : status ≠ .error := by
    rintro rfl
    rcases hstatus with ⟨h, -⟩ | ⟨h, -⟩ <;> cases h
  -- the cut of the buffer is that of everything that is left
  have htake : buffer = s.left.take c.maxSize := by
    have heq := buffer_eq_take src.rest hlen' (hstatus.imp And.right And.right)
    rw [hleft] at heq
    exact heq
  have hcut : c.cut (buffer.take (min buffer.length c.maxSize)) = c.cut s.left := by
    rw [min_eq_left hlen', List.take_length, htake, c.cut_take]
  have hle : c.cut s.left ≤ buffer.length := by
    have hbound := (c.cut_bounds s.left).2.2
    rw [htake, List.length_take]
    omega
  have hnext : s.next c =
      if status = .eof ∧ buffer = [] then (none, ⟨src, buffer, s.globalOffset⟩)
      else if c.minSize ≤ buffer.length ∧ 0 < c.cut s.left then
        (some (some ⟨s.globalOffset, c.cut s.left, buffer.take (c.cut s.left)⟩),
          ⟨src, buffer.drop (c.cut s.left), s.globalOffset + c.cut s.left⟩)
      else if status = .eof ∧ buffer ≠ [] then
        (some (some ⟨s.globalOffset, buffer.length, buffer⟩),
          ⟨src, [], s.globalOffset + buffer.length⟩)
      else (none, ⟨src, buffer, s.globalOffset⟩) := by
    rw [next, hfill]
    cases status with
    | error => exact absurd rfl herr
    | full | eof => simp only [hcut]
  rw [hnext]
  constructor
  · intro hnil
    -- an empty rest fills no buffer
    have hbuf : buffer = [] := by rw [htake, hnil, List.take_nil]
    rcases hstatus with ⟨heof, -⟩ | ⟨-, hfull⟩
    · rw [if_pos ⟨heof, hbuf⟩]
      exact ⟨_, rfl⟩
    · rw [hbuf, List.length_nil] at hfull
      omega
  · intro hne
    have hpos := c.cut_pos hne
    have hbuf : buffer ≠ [] := by
      intro hnil
      rw [hnil, List.length_nil] at hle
      omega
    rw [if_neg (fun h => hbuf h.2)]
    by_cases hlong : c.minSize ≤ buffer.length
    · rw [if_pos ⟨hlong, hpos⟩]
      refine ⟨⟨src, buffer.drop (c.cut s.left), s.globalOffset + c.cut s.left⟩, ?_, hrel', ?_, ?_, rfl⟩
      · have hdata : buffer.take (c.cut s.left) = s.left.take (c.cut s.left) :=
          calc buffer.take (c.cut s.left)
            _ = (buffer ++ src.rest).take (c.cut s.left) := (List.take_append_of_le_length hle).symm
            _ = s.left.take (c.cut s.left) := congrArg (List.take _) hleft
        rw [hdata]
      · rw [List.length_drop]
        omega
      · rw [left, ← List.drop_append_of_le_length hle, hleft, left]
    · -- only at the end of the source there is less than a smallest chunk
      rw [if_neg (fun h => hlong h.1)]
      rcases hstatus with ⟨heof, hrest⟩ | ⟨-, hfull⟩
      · have hall : buffer = s.left := by
          rw [hrest, List.append_nil] at hleft
          exact hleft
        have hshort : c.cut s.left = s.left.length := by
          refine (c.cut_bounds s.left).1 ?_
          rw [← hall]
          omega
        rw [if_pos ⟨heof, hbuf⟩, hshort, ← hall]
        refine ⟨_, by rw [List.take_length], hrel', Nat.zero_le _, ?_, rfl⟩
        rw [left, hrest, List.drop_length]
        rfl
      · omega

/-- A stream has one list of chunks. -/
theorem Yields.unique {s : ChunkStream} {out out' : List Chunk} (h : s.Yields c out)
    (h' : s.Yields c out') : out = out' := by
  induction h generalizing out' with
  | done hnext =>
    cases h' with
    | done => rfl
    | chunk hnext' =>
      rw [hnext] at hnext'
      cases hnext'
  | chunk hnext _ ih =>
    cases h' with
    | done hnext' =>
      rw [hnext] at hnext'
      cases hnext'
    | chunk hnext' hrest =>
      rw [hnext] at hnext'
      cases hnext'
      rw [ih hrest]

/-- The stream yields the chunks of what is left. -/
theorem yields_chunks (data : Bytes) (s : ChunkStream) (hrel : s.source.Reliable)
    (hlen : s.buffer.length ≤ c.maxSize) (hleft : s.left = data) :
    s.Yields c (c.chunks s.globalOffset data) := by
  generalize hoff : s.globalOffset = offset
  -- along the cuts of the byte string
  induction offset, data using Chunker.chunks.induct c generalizing s with
  | case1 offset =>
    rw [Chunker.chunks_nil]
    obtain ⟨s', hnext⟩ := (next_spec hrel hlen).1 hleft
    exact .done hnext
  | case2 offset data hne ih =>
    rw [Chunker.chunks_cons c offset hne]
    subst hleft hoff
    obtain ⟨s', hnext, hrel', hlen', hleft', hoff'⟩ := (next_spec hrel hlen).2 hne
    exact .chunk hnext (ih s' hrel' hlen' hleft' hoff')

end ChunkStream

/-- **Chunking does not depend on how the source is read.** For every source and every schedule of
short reads and interrupts the stream yields the chunks of the whole byte string, and these tile it:
they lie one after the other, none is empty, none is longer than `max_size`, and only the last one
may be shorter than `min_size`. -/
theorem chunkStream_eq_cuts (c : Chunker) (src : Source) (hrel : src.Reliable) :
    (∀ out, (ChunkStream.new src).Yields c out ↔ out = c.chunks 0 src.rest) ∧
      (c.chunks 0 src.rest).flatMap Chunk.data = src.rest ∧ Consecutive 0 (c.chunks 0 src.rest) ∧
      (∀ ch ∈ c.chunks 0 src.rest,
        ch.data ≠ [] ∧ ch.length = ch.data.length ∧ ch.length ≤ c.maxSize) ∧
      ∀ ch ∈ (c.chunks 0 src.rest).dropLast, c.minSize ≤ ch.length := by
  have hyields : (ChunkStream.new src).Yields c (c.chunks 0 src.rest) :=
    ChunkStream.yields_chunks src.rest (ChunkStream.new src) hrel (Nat.zero_le _) rfl
  refine ⟨fun out => ⟨fun h => h.unique hyields, ?_⟩, c.flatMap_chunks 0 src.rest,
    c.consecutive_chunks 0 src.rest, c.mem_chunks 0 src.rest, c.minSize_le_chunks 0 src.rest⟩
  rintro rfl
  exact hyields

/-- A chunker with the smallest sizes, on Gear tables of zeros. -/
def sampleChunker : Chunker where
  minSize := 64
  normalSize := 64
  maxSize := 64
  gear := fun _ => 0
  gearLs := fun _ => 0
  maskS := 0
  maskL := 0
  maskSLs := 0
  maskLLs := 0
  min_le_normal := le_rfl
  normal_le_max := le_rfl
  totalMin_le_min := le_rfl
  max_le_totalMax := by decide
  normal_le_maxNormal := by decide

theorem sampleChunker_chunks : sampleChunker.chunks 0 [1, 2, 3] = [⟨0, 3, [1, 2, 3]⟩] := by
  have hcut : sampleChunker.cut [1, 2, 3] = 3 := by decide
  rw [Chunker.chunks_cons _ _ (List.cons_ne_nil _ _), hcut]
  exact congrArg (List.cons _) (Chunker.chunks_nil _ _)

/-- Three bytes, read after an interrupt and in pieces, are one chunk. -/
theorem sample_chunkStream : (ChunkStream.new ⟨[1, 2, 3], [.interrupted, .short 0]⟩).Yields
    sampleChunker [⟨0, 3, [1, 2, 3]⟩] := by
  rw [← sampleChunker_chunks]
  have hrel : Source.Reliable ⟨[1, 2, 3], [.interrupted, .short 0]⟩ := by
    unfold Source.Reliable
    decide
  exact ((chunkStream_eq_cuts sampleChunker _ hrel).1 _).mpr rfl

end Mapache
