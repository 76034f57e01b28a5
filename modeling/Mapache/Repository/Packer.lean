import Mapache.Common
import Mapache.Repository.Storage

/-!
# Packs and their footers

`Packer` of `repository/packer.rs`: a buffer of encoded blobs with their descriptors, and the footer
that makes a pack readable without an index. The footer lists the descriptors without their offsets,
padded with random entries to a multiple of `footerBlobMultiple`; a parser recomputes the offsets
from the lengths.

`SliceAt` says that a byte string holds an encoded blob at an offset. A packer whose descriptors all
describe such slices, one after the other (`Packer.WF`), keeps doing so when a blob is added, and
the finalized pack holds the same slices (`Packer.WF.addBlob`, `Packer.WF.finalize`). The footer of
a pack below 4 GiB reads back as the descriptors without the padding (`parsePackFooter_finalize`).
-/

set_option autoImplicit false

namespace Mapache

open Lib

/-- `FOOTER_BLOB_MULTIPLE`. -/
def footerBlobMultiple : Nat := 64

/-- A blob's place and size within a pack. -/
structure PackedBlobDescriptor where
  id : ID
  blobType : BlobType
  offset : Nat
  length : Nat
  rawLength : Nat
  deriving DecidableEq

/-- Blobs under construction into a pack. -/
structure Packer where
  buffer : Bytes
  descriptors : List PackedBlobDescriptor
  rawSize : Nat
  deriving DecidableEq

/-- A finalized pack. -/
structure FinalizedPack where
  id : ID
  data : Bytes
  descriptors : List PackedBlobDescriptor
  deriving DecidableEq

namespace Packer

/-- `Packer::new`. -/
def new : Packer := ⟨[], [], 0⟩

/-- `Packer::add_blob`, which fails when an offset or a length does not fit in 32 bits. -/
def addBlob (p : Packer) (id : ID) (blobType : BlobType) (encoded : Bytes) (rawSize : Nat) :
    Option Packer :=
  if p.buffer.length < 2 ^ 32 ∧ encoded.length < 2 ^ 32 ∧ rawSize < 2 ^ 32 then
    some
      { buffer := p.buffer ++ encoded
        descriptors := p.descriptors ++ [⟨id, blobType, p.buffer.length, encoded.length, rawSize⟩]
        rawSize := p.rawSize + rawSize }
  else none

/-- The number of padding descriptors that `generate_footer` adds. -/
def numPadding (n : Nat) : Nat :=
  if n % footerBlobMultiple = 0 then 0 else footerBlobMultiple - n % footerBlobMultiple

/-- The descriptors with the padding that `generate_footer` appends; `rand` is what it draws. -/
def pad (rand : Nat → PackedBlobDescriptor) (ds : List PackedBlobDescriptor) :
    List PackedBlobDescriptor :=
  ds ++ (List.range (numPadding ds.length)).map fun i => { rand i with blobType := .padding }

/-- One entry of the footer. -/
def footerEntry (d : PackedBlobDescriptor) : Bytes :=
  d.id.asSlice ++ [d.blobType.toByte] ++ littleEndian 4 d.length ++ littleEndian 4 d.rawLength

/-- The bytes of the footer before encoding. -/
def footerBytes (ds : List PackedBlobDescriptor) : Bytes := ds.flatMap footerEntry

/-- `Packer::finalize_and_extract`: `none` when the footer cannot be encoded, `some none` for an
empty packer. -/
def finalizeAndExtract (storage : SecureStorage) (fromContent : Bytes → ID) (nonce : Nonce)
    (rand : Nat → PackedBlobDescriptor) (p : Packer) : Option (Option FinalizedPack) :=
  if p.buffer = [] then some none
  else
    (storage.encode nonce (footerBytes (pad rand p.descriptors))).map fun footer =>
      let data := p.buffer ++ footer ++ littleEndian 4 footer.length
      some ⟨fromContent data, data, pad rand p.descriptors⟩

/-- The length of an entry of the footer. -/
def footerBlobLen : Nat := 41

/-- The loop of `parse_footer`. The offset is a `u32` and wraps around in a release build. -/
def parseEntries : Nat → Nat → Bytes → Option (List PackedBlobDescriptor)
  | _, _, [] => some []
  | 0, _, _ :: _ => none
  | fuel + 1, offset, b :: bs =>
    let cur := b :: bs
    if cur.length < footerBlobLen then none
    else
      (BlobType.tryFrom (cur.getD 32 0)).bind fun blobType =>
        let length := ofLittleEndian ((cur.drop 33).take 4)
        let rawLength := ofLittleEndian ((cur.drop 37).take 4)
        if blobType = .padding then parseEntries fuel offset (cur.drop footerBlobLen)
        else
          (parseEntries fuel ((offset + length) % 2 ^ 32) (cur.drop footerBlobLen)).map
            fun ds => ⟨ID.fromBytes (cur.take 32), blobType, offset, length, rawLength⟩ :: ds

/-- `Packer::parse_footer`. -/
def parseFooter (storage : SecureStorage) (footerData : Bytes) : Option (List PackedBlobDescriptor) :=
  if footerData.length < 4 then none
  else
    let len := ofLittleEndian (footerData.drop (footerData.length - 4))
    if footerData.length < len + 4 then none
    else
      (storage.decode ((footerData.drop (footerData.length - len - 4)).take len)).bind fun info =>
        parseEntries info.length 0 info

/-- `Packer::parse_pack_footer`: a read from before the start of the file begins at the start. -/
def parsePackFooter (storage : SecureStorage) (data : Bytes) : Option (List PackedBlobDescriptor) :=
  if data.length < 4 then none
  else
    let len := ofLittleEndian (data.drop (data.length - 4))
    parseFooter storage (data.drop (data.length - (4 + len)))

end Packer

/-- The byte string `data` holds `enc` at `offset`. -/
def SliceAt (data : Bytes) (offset length : Nat) (enc : Bytes) : Prop :=
  ∃ pre post, data = pre ++ enc ++ post ∧ pre.length = offset ∧ enc.length = length

theorem SliceAt.append {data : Bytes} {offset length : Nat} {enc : Bytes}
    (h : SliceAt data offset length enc) (more : Bytes) :
    SliceAt (data ++ more) offset length enc := by
  obtain ⟨pre, post, rfl, hoff, hlen⟩ := h
  exact ⟨pre, post ++ more, by simp only [List.append_assoc], hoff, hlen⟩

/-- A ranged read returns the slice. -/
theorem SliceAt.readRange {data : Bytes} {offset length : Nat} {enc : Bytes}
    (h : SliceAt data offset length enc) (hne : enc ≠ []) :
    readRange data offset length = enc := by
  obtain ⟨pre, post, rfl, rfl, rfl⟩ := h
  exact readRange_append hne

section Contents

variable (storage : SecureStorage) (plain : ID → Bytes)

/-- The descriptor describes a slice of `data` that decodes to the plaintext of its ID. -/
def DescribesSlice (data : Bytes) (d : PackedBlobDescriptor) : Prop :=
  ∃ enc, SliceAt data d.offset d.length enc ∧ enc ≠ [] ∧ storage.decode enc = some (plain d.id)

/-- The descriptors lie one after the other between two offsets, and their numbers fit in 32 bits.
-/
def Laid : Nat → List PackedBlobDescriptor → Nat → Prop
  | start, [], stop => start = stop
  | start, d :: ds, stop => d.offset = start ∧ start < 2 ^ 32 ∧ d.length < 2 ^ 32 ∧
      d.rawLength < 2 ^ 32 ∧ Laid (start + d.length) ds stop

/-- The descriptors of the packer are laid out over its buffer, and each describes its slice. -/
structure Packer.WF (p : Packer) : Prop where
  slices : ∀ d ∈ p.descriptors, d.blobType ≠ .padding ∧ DescribesSlice storage plain p.buffer d
  laid : Laid 0 p.descriptors p.buffer.length

/-- The descriptors that are not padding. -/
def withoutPadding (ds : List PackedBlobDescriptor) : List PackedBlobDescriptor :=
  ds.filter fun d => d.blobType ≠ .padding

/-- Every descriptor of the pack but the padding describes a slice of its data, and these are what
the footer of a pack below 4 GiB lists. -/
structure FinalizedPack.WF (pack : FinalizedPack) : Prop where
  slices : ∀ d ∈ pack.descriptors, d.blobType ≠ .padding → DescribesSlice storage plain pack.data d
  footer : pack.data.length < 2 ^ 32 →
    Packer.parsePackFooter storage pack.data = some (withoutPadding pack.descriptors)

variable {storage plain}

theorem DescribesSlice.append {data : Bytes} {d : PackedBlobDescriptor}
    (h : DescribesSlice storage plain data d) (more : Bytes) :
    DescribesSlice storage plain (data ++ more) d := by
  obtain ⟨enc, hslice, hne, hdec⟩ := h
  exact ⟨enc, hslice.append more, hne, hdec⟩

/-- A descriptor is laid out behind the others. -/
theorem Laid.snoc {start stop : Nat} {ds : List PackedBlobDescriptor} {d : PackedBlobDescriptor}
    (h : Laid start ds stop) (hoff : d.offset = stop) (hstop : stop < 2 ^ 32)
    (hlen : d.length < 2 ^ 32) (hraw : d.rawLength < 2 ^ 32) :
    Laid start (ds ++ [d]) (stop + d.length) := by
  induction ds generalizing start with
  | nil =>
    cases h
    exact ⟨hoff, hstop, hlen, hraw, rfl⟩
  | cons d' ds ih => exact ⟨h.1, h.2.1, h.2.2.1, h.2.2.2.1, ih h.2.2.2.2⟩

theorem Packer.WF.new : Packer.new.WF storage plain := ⟨fun _ hd => (by cases hd), rfl⟩

/-- Adding an encoded blob keeps a packer well formed. -/
theorem Packer.WF.addBlob {p p' : Packer} {id : ID} {t : BlobType} {enc : Bytes} {raw : Nat}
    (hp : p.WF storage plain) (ht : t ≠ .padding) (hne : enc ≠ [])
    (hdec : storage.decode enc = some (plain id)) (h : p.addBlob id t enc raw = some p') :
    p'.WF storage plain := by
  unfold Packer.addBlob at h
  split at h
  · rename_i hfits
    cases h
    refine ⟨fun d hd => ?_, ?_⟩
    · rcases List.mem_append.mp hd with hold | hnew
      · exact ⟨(hp.slices d hold).1, (hp.slices d hold).2.append enc⟩
      · rw [List.mem_singleton] at hnew
        subst hnew
        exact ⟨ht, enc, ⟨p.buffer, [], by simp, rfl, rfl⟩, hne, hdec⟩
    · rw [List.length_append]
      exact hp.laid.snoc rfl hfits.1 hfits.2.1 hfits.2.2
  · cases h

/-- A blob that was added is among the descriptors, and so are those that were there. -/
theorem Packer.mem_descriptors_addBlob {p p' : Packer} {id : ID} {t : BlobType} {enc : Bytes}
    {raw : Nat} (h : p.addBlob id t enc raw = some p') :
    (∀ d ∈ p.descriptors, d ∈ p'.descriptors) ∧
      ∃ d ∈ p'.descriptors, d.id = id ∧ d.blobType = t := by
  unfold Packer.addBlob at h
  split at h
  · cases h
    refine ⟨fun d hd => List.mem_append_left _ hd, ?_⟩
    exact ⟨_, List.mem_append_right _ (List.mem_singleton_self _), rfl, rfl⟩
  · cases h

/-- Adding a blob adds no other descriptor. -/
theorem Packer.mem_descriptors_of_addBlob {p p' : Packer} {id : ID} {t : BlobType} {enc : Bytes}
    {raw : Nat} (h : p.addBlob id t enc raw = some p') {d : PackedBlobDescriptor}
    (hd : d ∈ p'.descriptors) : d ∈ p.descriptors ∨ (d.id = id ∧ d.blobType = t) := by
  unfold Packer.addBlob at h
  split at h
  · cases h
    rcases List.mem_append.mp hd with hold | hnew
    · exact Or.inl hold
    · rw [List.mem_singleton.mp hnew]
      exact Or.inr ⟨rfl, rfl⟩
  · cases h

theorem Packer.mem_pad {rand : Nat → PackedBlobDescriptor} {ds : List PackedBlobDescriptor}
    {d : PackedBlobDescriptor} (hd : d ∈ Packer.pad rand ds) :
    d ∈ ds ∨ d.blobType = .padding := by
  rcases List.mem_append.mp hd with hold | hpad
  · exact Or.inl hold
  · obtain ⟨i, _, rfl⟩ := List.mem_map.mp hpad
    exact Or.inr rfl

/-- What a packer with blobs is written as. -/
theorem Packer.finalizeAndExtract_some {p : Packer} {fromContent : Bytes → ID} {nonce : Nonce}
    {rand : Nat → PackedBlobDescriptor} {pack : FinalizedPack}
    (h : p.finalizeAndExtract storage fromContent nonce rand = some (some pack)) :
    p.buffer ≠ [] ∧ ∃ footer,
      storage.encode nonce (Packer.footerBytes (Packer.pad rand p.descriptors)) = some footer ∧
      pack = ⟨fromContent (p.buffer ++ footer ++ littleEndian 4 footer.length),
        p.buffer ++ footer ++ littleEndian 4 footer.length, Packer.pad rand p.descriptors⟩ := by
  unfold Packer.finalizeAndExtract at h
  split at h
  · cases h
  · rename_i hne
    obtain ⟨footer, henc, hpack⟩ := Option.map_eq_some_iff.mp h
    exact ⟨hne, footer, henc, (Option.some.inj hpack).symm⟩

/-- Only a packer without blobs gives no pack. -/
theorem Packer.finalizeAndExtract_none {p : Packer} {fromContent : Bytes → ID} {nonce : Nonce}
    {rand : Nat → PackedBlobDescriptor}
    (h : p.finalizeAndExtract storage fromContent nonce rand = some none) : p.buffer = [] := by
  unfold Packer.finalizeAndExtract at h
  split at h
  · assumption
  · obtain ⟨footer, -, hcontra⟩ := Option.map_eq_some_iff.mp h
    cases hcontra

/-- A finalized pack has the descriptors of its packer and padding. -/
theorem Packer.descriptors_finalize {p : Packer} {fromContent : Bytes → ID} {nonce : Nonce}
    {rand : Nat → PackedBlobDescriptor} {pack : FinalizedPack}
    (h : p.finalizeAndExtract storage fromContent nonce rand = some (some pack)) :
    pack.descriptors = Packer.pad rand p.descriptors := by
  obtain ⟨-, footer, -, rfl⟩ := Packer.finalizeAndExtract_some h
  rfl

@[simp] theorem Packer.length_footerEntry (d : PackedBlobDescriptor) :
    (Packer.footerEntry d).length = Packer.footerBlobLen := by
  simp [Packer.footerEntry, Packer.footerBlobLen]

/-- The loop of the parser reads one entry and goes on with the rest. -/
theorem Packer.parseEntries_footerEntry (fuel offset : Nat) (d : PackedBlobDescriptor) (rest : Bytes) :
    Packer.parseEntries (fuel + 1) offset (Packer.footerEntry d ++ rest) =
      if d.blobType = .padding then Packer.parseEntries fuel offset rest
      else
        (Packer.parseEntries fuel ((offset + d.length % 2 ^ 32) % 2 ^ 32) rest).map fun ds =>
          ⟨d.id, d.blobType, offset, d.length % 2 ^ 32, d.rawLength % 2 ^ 32⟩ :: ds := by
  have hsplit : Packer.footerEntry d ++ rest =
      d.id.asSlice ++ (d.blobType.toByte ::
        (littleEndian 4 d.length ++ (littleEndian 4 d.rawLength ++ rest))) := by
    simp [Packer.footerEntry]
  have hid : d.id.asSlice.length = 32 := ID.length_asSlice d.id
  have hlen : ∀ n, (littleEndian 4 n).length = 4 := fun n => length_littleEndian 4 n
  -- the fields of the entry at their places
  have htype : (Packer.footerEntry d ++ rest).getD 32 0 = d.blobType.toByte := by
    rw [hsplit, List.getD_eq_getElem?_getD, List.getElem?_append_right (by omega)]
    simp [hid]
  have hdrop : ∀ k, (Packer.footerEntry d ++ rest).drop (32 + (k + 1)) =
      (littleEndian 4 d.length ++ (littleEndian 4 d.rawLength ++ rest)).drop k := by
    intro k
    rw [hsplit, ← List.drop_drop, List.drop_left' hid, List.drop_succ_cons]
  have hlength : ofLittleEndian (((Packer.footerEntry d ++ rest).drop 33).take 4) =
      d.length % 2 ^ 32 := by
    rw [hdrop 0, List.drop_zero, List.take_left' (hlen _), ofLittleEndian_littleEndian_mod]
    rfl
  have hraw : ofLittleEndian (((Packer.footerEntry d ++ rest).drop 37).take 4) =
      d.rawLength % 2 ^ 32 := by
    rw [hdrop 4, List.drop_left' (hlen _), List.take_left' (hlen _), ofLittleEndian_littleEndian_mod]
    rfl
  have hrest : (Packer.footerEntry d ++ rest).drop Packer.footerBlobLen = rest :=
    List.drop_left' (Packer.length_footerEntry d)
  have htake : (Packer.footerEntry d ++ rest).take 32 = d.id.asSlice := by
    rw [hsplit, List.take_left' hid]
  have hlong : ¬ (Packer.footerEntry d ++ rest).length < Packer.footerBlobLen := by
    rw [List.length_append, Packer.length_footerEntry]
    omega
  obtain ⟨b, bs, hcons⟩ : ∃ b bs, Packer.footerEntry d ++ rest = b :: bs := by
    refine List.exists_cons_of_ne_nil fun hnil => hlong ?_
    rw [hnil]
    decide
  rw [hcons] at htype hlength hraw hrest htake hlong ⊢
  rw [Packer.parseEntries]
  simp only [if_neg hlong, htype, hlength, hraw, hrest, htake, BlobType.tryFrom_toByte,
    Option.bind_some, ID.fromBytes_asSlice]

/-- The padding of a footer reads back as nothing. -/
theorem Packer.parseEntries_padding (offset : Nat) (ds : List PackedBlobDescriptor)
    (h : ∀ d ∈ ds, d.blobType = .padding) (fuel : Nat) (hfuel : ds.length ≤ fuel) :
    Packer.parseEntries fuel offset (Packer.footerBytes ds) = some [] := by
  induction ds generalizing fuel with
  | nil => cases fuel <;> rfl
  | cons d ds ih =>
    obtain ⟨fuel, rfl⟩ : ∃ k, fuel = k + 1 := ⟨fuel - 1, by simp at hfuel; omega⟩
    rw [Packer.footerBytes, List.flatMap_cons, Packer.parseEntries_footerEntry,
      if_pos (h d List.mem_cons_self)]
    exact ih (fun d' hd' => h d' (List.mem_cons_of_mem _ hd')) fuel (by simp at hfuel; omega)

/-- **The entries of a footer read back as the descriptors they were written from.** -/
theorem Packer.parseEntries_footerBytes {start stop : Nat} {ds pads : List PackedBlobDescriptor}
    (hlaid : Laid start ds stop) (hds : ∀ d ∈ ds, d.blobType ≠ .padding)
    (hpads : ∀ d ∈ pads, d.blobType = .padding) (fuel : Nat) (hfuel : (ds ++ pads).length ≤ fuel) :
    Packer.parseEntries fuel (start % 2 ^ 32) (Packer.footerBytes (ds ++ pads)) = some ds := by
  induction ds generalizing start fuel with
  | nil => exact Packer.parseEntries_padding _ pads hpads fuel hfuel
  | cons d ds ih =>
    obtain ⟨fuel, rfl⟩ : ∃ k, fuel = k + 1 := ⟨fuel - 1, by simp at hfuel; omega⟩
    obtain ⟨hoff, hstart, hlen, hraw, hrest⟩ := hlaid
    rw [List.cons_append, Packer.footerBytes, List.flatMap_cons, Packer.parseEntries_footerEntry,
      if_neg (hds d List.mem_cons_self), Nat.mod_eq_of_lt hstart, Nat.mod_eq_of_lt hlen,
      Nat.mod_eq_of_lt hraw]
    have hih := ih hrest (fun d' hd' => hds d' (List.mem_cons_of_mem _ hd')) fuel
      (by simp only [List.cons_append, List.length_cons] at hfuel; omega)
    rw [Packer.footerBytes] at hih
    rw [hih, Option.map_some, ← hoff]

theorem Packer.withoutPadding_pad {rand : Nat → PackedBlobDescriptor} {ds : List PackedBlobDescriptor}
    (h : ∀ d ∈ ds, d.blobType ≠ .padding) : withoutPadding (Packer.pad rand ds) = ds := by
  rw [withoutPadding, Packer.pad, List.filter_append, List.filter_eq_self.mpr,
    List.filter_eq_nil_iff.mpr,
    List.append_nil]
  · intro d hd
    obtain ⟨i, _, rfl⟩ := List.mem_map.mp hd
    simp
  · intro d hd
    simpa using h d hd

/-- The trailer leads the parser to the end of the encoded footer, as far as 32 bits can tell. -/
theorem Packer.parseFooter_trailer (pre footer : Bytes) :
    Packer.parseFooter storage (pre ++ footer ++ littleEndian 4 footer.length) =
      (storage.decode (footer.drop (footer.length - footer.length % 2 ^ 32))).bind fun info =>
        Packer.parseEntries info.length 0 info := by
  have hle : (littleEndian 4 footer.length).length = 4 := length_littleEndian 4 _
  have hvalue : ofLittleEndian (littleEndian 4 footer.length) = footer.length % 2 ^ 32 :=
    ofLittleEndian_littleEndian_mod 4 _
  have hmod : footer.length % 2 ^ 32 ≤ footer.length := Nat.mod_le _ _
  have hlen : (pre ++ footer ++ littleEndian 4 footer.length).length =
      pre.length + footer.length + 4 := by
    simp only [List.length_append, hle]
  have hlast : (pre ++ footer ++ littleEndian 4 footer.length).drop
      ((pre ++ footer ++ littleEndian 4 footer.length).length - 4) =
        littleEndian 4 footer.length := by
    rw [List.drop_left']
    rw [hlen, List.length_append, Nat.add_sub_cancel]
  have hslice : ((pre ++ footer ++ littleEndian 4 footer.length).drop
      ((pre ++ footer ++ littleEndian 4 footer.length).length - footer.length % 2 ^ 32 - 4)).take
        (footer.length % 2 ^ 32) = footer.drop (footer.length - footer.length % 2 ^ 32) := by
    have hstart : (pre ++ footer ++ littleEndian 4 footer.length).length - footer.length % 2 ^ 32 - 4 =
        pre.length + (footer.length - footer.length % 2 ^ 32) := by omega
    rw [hstart, List.append_assoc, List.drop_length_add_append,
      List.drop_append_of_le_length (Nat.sub_le _ _)]
    refine List.take_left' ?_
    rw [List.length_drop]
    omega
  unfold Packer.parseFooter
  rw [if_neg (by omega)]
  dsimp only
  rw [hlast, hvalue, if_neg (by omega), hslice]

/-- A footer that fits reads back. -/
theorem Packer.parseFooter_of_fits (pre : Bytes) {footer : Bytes} (hfits : footer.length < 2 ^ 32) :
    Packer.parseFooter storage (pre ++ footer ++ littleEndian 4 footer.length) =
      (storage.decode footer).bind fun info => Packer.parseEntries info.length 0 info := by
  rw [Packer.parseFooter_trailer, Nat.mod_eq_of_lt hfits, Nat.sub_self, List.drop_zero]

/-- The trailer cannot tell the length of a longer footer, and what is read instead does not decode.
-/
theorem Packer.parseFooter_of_long (hauth : storage.RejectsSuffixes) (pre : Bytes) {nonce : Nonce}
    {info footer : Bytes} (henc : storage.encode nonce info = some footer)
    (hlong : 2 ^ 32 ≤ footer.length) :
    Packer.parseFooter storage (pre ++ footer ++ littleEndian 4 footer.length) = none := by
  have hmod : footer.length % 2 ^ 32 < 2 ^ 32 := Nat.mod_lt _ (by norm_num)
  rw [Packer.parseFooter_trailer, hauth henc _ (by omega), Option.bind_none]

/-- Both ways of reading a footer agree: the first one reads what it needs from the end of the file.
-/
theorem Packer.parsePackFooter_eq_parseFooter (data : Bytes) :
    Packer.parsePackFooter storage data = Packer.parseFooter storage data := by
  unfold Packer.parsePackFooter
  split
  · rename_i hshort
    rw [Packer.parseFooter, if_pos hshort]
  · rename_i hlen
    dsimp only
    generalize htrailer : ofLittleEndian (data.drop (data.length - 4)) = len
    by_cases hdata : data.length ≤ 4 + len
    · rw [Nat.sub_eq_zero_of_le hdata, List.drop_zero]
    · -- the tail that is read ends with the same trailer
      have hlast : (data.drop (data.length - (4 + len))).drop
          ((data.drop (data.length - (4 + len))).length - 4) = data.drop (data.length - 4) := by
        rw [List.drop_drop, List.length_drop]
        congr 1
        omega
      have hslice : (data.drop (data.length - (4 + len))).drop
          ((data.drop (data.length - (4 + len))).length - len - 4) =
            data.drop (data.length - len - 4) := by
        rw [List.drop_drop, List.length_drop]
        congr 1
        omega
      unfold Packer.parseFooter
      rw [if_neg hlen, if_neg (by rw [List.length_drop]; omega)]
      dsimp only
      rw [hlast, htrailer, hslice, if_neg (by rw [List.length_drop]; omega), if_neg (by omega)]

theorem Packer.length_footerBytes (ds : List PackedBlobDescriptor) :
    (Packer.footerBytes ds).length = Packer.footerBlobLen * ds.length := by
  induction ds with
  | nil => rfl
  | cons d ds ih =>
    rw [Packer.footerBytes] at ih
    rw [Packer.footerBytes, List.flatMap_cons, List.length_append, Packer.length_footerEntry, ih,
      List.length_cons, Nat.mul_succ, Nat.add_comm]

/-- The bytes of a padded footer parse to the descriptors. -/
theorem Packer.parseEntries_pad {rand : Nat → PackedBlobDescriptor} {ds : List PackedBlobDescriptor}
    {stop : Nat} (hlaid : Laid 0 ds stop) (hds : ∀ d ∈ ds, d.blobType ≠ .padding) :
    Packer.parseEntries (Packer.footerBytes (Packer.pad rand ds)).length 0
      (Packer.footerBytes (Packer.pad rand ds)) = some ds := by
  refine Packer.parseEntries_footerBytes hlaid hds ?_ _ ?_
  · intro d hd
    obtain ⟨i, _, rfl⟩ := List.mem_map.mp hd
    rfl
  · -- each entry takes 41 bytes, so there is fuel for all of them
    rw [Packer.length_footerBytes, Packer.footerBlobLen, Packer.pad]
    omega

/-- **The footer of a finalized pack reads back as its descriptors without the padding.** -/
theorem Packer.parsePackFooter_finalize {p : Packer} {nonce : Nonce}
    {rand : Nat → PackedBlobDescriptor} {footer : Bytes} (hp : p.WF storage plain)
    (henc : storage.encode nonce (Packer.footerBytes (Packer.pad rand p.descriptors)) = some footer)
    (hfits : footer.length < 2 ^ 32) :
    Packer.parsePackFooter storage (p.buffer ++ footer ++ littleEndian 4 footer.length) =
      some (withoutPadding (Packer.pad rand p.descriptors)) := by
  have hds : ∀ d ∈ p.descriptors, d.blobType ≠ .padding := fun d hd => (hp.slices d hd).1
  rw [Packer.parsePackFooter_eq_parseFooter, Packer.parseFooter_of_fits _ hfits,
    SecureStorage.decode_encode henc, Option.bind_some, Packer.withoutPadding_pad hds,
    Packer.parseEntries_pad hp.laid hds]

/-- The finalized pack of a well-formed packer is well formed and keeps its descriptors. -/
theorem Packer.WF.finalize {p : Packer} {fromContent : Bytes → ID} {nonce : Nonce}
    {rand : Nat → PackedBlobDescriptor} {pack : FinalizedPack} (hp : p.WF storage plain)
    (h : p.finalizeAndExtract storage fromContent nonce rand = some (some pack)) :
    pack.WF storage plain ∧ ∀ d ∈ p.descriptors, d ∈ pack.descriptors := by
  obtain ⟨-, footer, henc, rfl⟩ := Packer.finalizeAndExtract_some h
  refine ⟨⟨fun d hd hpad => ?_, fun hfits => ?_⟩, fun d hd => List.mem_append_left _ hd⟩
  · rcases Packer.mem_pad hd with hold | hpadding
    · simp only [List.append_assoc]
      exact (hp.slices d hold).2.append _
    · exact absurd hpadding hpad
  · refine Packer.parsePackFooter_finalize hp henc ?_
    simp only [List.length_append] at hfits
    omega

end Contents

/-! ## A sequence of blobs -/

/-- The arguments of a call of `add_blob`. -/
structure AddedBlob where
  id : ID
  blobType : BlobType
  encoded : Bytes
  rawSize : Nat

/-- A sequence of calls of `add_blob`, all of which succeed. -/
def Packer.addBlobs (p : Packer) : List AddedBlob → Option Packer
  | [] => some p
  | a :: adds => (p.addBlob a.id a.blobType a.encoded a.rawSize).bind fun p' => p'.addBlobs adds

/-- The descriptors of blobs that lie one after the other from an offset on. -/
def describeFrom : Nat → List AddedBlob → List PackedBlobDescriptor
  | _, [] => []
  | offset, a :: adds =>
    ⟨a.id, a.blobType, offset, a.encoded.length, a.rawSize⟩ ::
      describeFrom (offset + a.encoded.length) adds

/-- The bytes of the blobs. -/
def bytesOf (adds : List AddedBlob) : Bytes := adds.flatMap AddedBlob.encoded

/-- The pack was written, its blobs lie at their offsets, and the footer reads back as their
descriptors. The parser adds the length of each blob to its offset, and no sum overflows. -/
def FooterReadsBack (storage : SecureStorage) (adds : List AddedBlob) (result : Option FinalizedPack) :
    Prop :=
  ∃ pack rest, result = some pack ∧ pack.data = bytesOf adds ++ rest ∧
    Packer.parseFooter storage pack.data = some (describeFrom 0 adds) ∧
    ∀ d ∈ describeFrom 0 adds, d.offset + d.length < 2 ^ 32

section Sequence

variable {storage : SecureStorage} {adds : List AddedBlob}

/-- What a packer has after the calls. -/
theorem Packer.addBlobs_spec {p p' : Packer} (h : p.addBlobs adds = some p') :
    p'.buffer = p.buffer ++ bytesOf adds ∧
      p'.descriptors = p.descriptors ++ describeFrom p.buffer.length adds ∧
      Laid p.buffer.length (describeFrom p.buffer.length adds) p'.buffer.length := by
  induction adds generalizing p with
  | nil =>
    cases h
    simp [bytesOf, describeFrom, Laid]
  | cons a adds ih =>
    obtain ⟨p₁, hadd, hrest⟩ := Option.bind_eq_some_iff.mp h
    obtain ⟨hbuf, hdesc, hlaid⟩ := ih hrest
    unfold Packer.addBlob at hadd
    split at hadd
    · rename_i hfits
      cases hadd
      simp only [List.length_append] at hdesc hlaid
      refine ⟨?_, ?_, ?_⟩
      · rw [hbuf, List.append_assoc]
        rfl
      · rw [hdesc, List.append_assoc]
        rfl
      · exact ⟨rfl, hfits.1, hfits.2.1, hfits.2.2, hlaid⟩
    · cases hadd

theorem length_bytesOf (a : AddedBlob) (adds : List AddedBlob) :
    (bytesOf (a :: adds)).length = a.encoded.length + (bytesOf adds).length := by
  rw [bytesOf, List.flatMap_cons, List.length_append]
  rfl

/-- No end of a blob lies beyond that of the last one. -/
theorem describeFrom_ends {d : PackedBlobDescriptor} {offset : Nat}
    (hd : d ∈ describeFrom offset adds) : d.offset + d.length ≤ offset + (bytesOf adds).length := by
  induction adds generalizing offset with
  | nil => cases hd
  | cons a adds ih =>
    rw [length_bytesOf]
    rcases List.mem_cons.mp hd with rfl | htail
    · dsimp only
      omega
    · have hle := ih htail
      omega

/-- The last blob ends at the end of the blobs. -/
theorem exists_describeFrom_end (hne : adds ≠ []) (offset : Nat) :
    ∃ d ∈ describeFrom offset adds, d.offset + d.length = offset + (bytesOf adds).length := by
  induction adds generalizing offset with
  | nil => exact absurd rfl hne
  | cons a adds ih =>
    rw [length_bytesOf]
    cases adds with
    | nil => exact ⟨_, List.mem_cons_self, rfl⟩
    | cons a' adds =>
      obtain ⟨d, hd, heq⟩ := ih (List.cons_ne_nil _ _) (offset + a.encoded.length)
      refine ⟨d, List.mem_cons_of_mem _ hd, ?_⟩
      omega

theorem describeFrom_types (offset : Nat) (h : ∀ a ∈ adds, a.blobType ≠ .padding) :
    ∀ d ∈ describeFrom offset adds, d.blobType ≠ .padding := by
  induction adds generalizing offset with
  | nil => exact fun d hd => (by cases hd)
  | cons a adds ih =>
    intro d hd
    rcases List.mem_cons.mp hd with rfl | htail
    · exact h a List.mem_cons_self
    · exact ih _ (fun a' ha' => h a' (List.mem_cons_of_mem _ ha')) d htail

/-- A written pack starts with its blobs. -/
theorem Packer.data_finalize {p : Packer} {fromContent : Bytes → ID} {nonce : Nonce}
    {rand : Nat → PackedBlobDescriptor} {pack : FinalizedPack}
    (h : p.finalizeAndExtract storage fromContent nonce rand = some (some pack)) :
    p.buffer ≠ [] ∧ ∃ footer,
      storage.encode nonce (Packer.footerBytes (Packer.pad rand p.descriptors)) = some footer ∧
      pack.data = p.buffer ++ footer ++ littleEndian 4 footer.length := by
  obtain ⟨hne, footer, henc, rfl⟩ := Packer.finalizeAndExtract_some h
  exact ⟨hne, footer, henc, rfl⟩

/-- When the blobs end beyond 4 GiB the parser's last sum overflows. -/
theorem not_footerReadsBack_of_le {result : Option FinalizedPack} (hne : adds ≠ [])
    (hlong : 2 ^ 32 ≤ (bytesOf adds).length) : ¬ FooterReadsBack storage adds result := by
  rintro ⟨pack, rest, -, -, -, hsums⟩
  obtain ⟨d, hd, hend⟩ := exists_describeFrom_end hne 0
  have hsum := hsums d hd
  omega

/-- The encoded footer of the blobs fits in the 32 bits that the trailer has for its length. -/
def FooterFits (storage : SecureStorage) (nonce : Nonce) (rand : Nat → PackedBlobDescriptor)
    (adds : List AddedBlob) : Prop :=
  ∀ footer,
    storage.encode nonce (Packer.footerBytes (Packer.pad rand (describeFrom 0 adds))) = some footer →
      footer.length < 2 ^ 32

/-- What the packer makes of blobs that it has accepted. -/
def FinalizesTo (storage : SecureStorage) (fromContent : Bytes → ID) (nonce : Nonce)
    (rand : Nat → PackedBlobDescriptor) (adds : List AddedBlob) (result : Option FinalizedPack) :
    Prop :=
  (∀ a ∈ adds, a.blobType ≠ .padding) ∧ ∃ p, Packer.new.addBlobs adds = some p ∧
    p.finalizeAndExtract storage fromContent nonce rand = some result

section Finalized

variable {fromContent : Bytes → ID} {nonce : Nonce} {rand : Nat → PackedBlobDescriptor}

/-- A written pack is its blobs, the encoded footer and the trailer. -/
theorem FinalizesTo.data {pack : FinalizedPack}
    (h : FinalizesTo storage fromContent nonce rand adds (some pack)) :
    bytesOf adds ≠ [] ∧ ∃ footer,
      storage.encode nonce (Packer.footerBytes (Packer.pad rand (describeFrom 0 adds))) = some footer ∧
      pack.data = bytesOf adds ++ footer ++ littleEndian 4 footer.length := by
  obtain ⟨-, p, hadds, hfin⟩ := h
  obtain ⟨hbuf, hdesc, -⟩ := Packer.addBlobs_spec hadds
  simp only [Packer.new, List.nil_append, List.length_nil] at hbuf hdesc
  rw [← hbuf, ← hdesc]
  exact Packer.data_finalize hfin

/-- Only blobs without any byte are not written. -/
theorem FinalizesTo.bytesOf_eq_nil (h : FinalizesTo storage fromContent nonce rand adds none) :
    bytesOf adds = [] := by
  obtain ⟨-, p, hadds, hfin⟩ := h
  have hbuf := (Packer.addBlobs_spec hadds).1
  rw [Packer.new, List.nil_append] at hbuf
  rw [← hbuf]
  exact Packer.finalizeAndExtract_none hfin

/-- **What the parser makes of a written pack**: the descriptors of its blobs when the footer fits.
-/
theorem FinalizesTo.parseFooter {pack : FinalizedPack}
    (h : FinalizesTo storage fromContent nonce rand adds (some pack))
    (hfits : FooterFits storage nonce rand adds) :
    Packer.parseFooter storage pack.data = some (describeFrom 0 adds) := by
  obtain ⟨-, footer, henc, hdata⟩ := h.data
  obtain ⟨htypes, p, hadds, -⟩ := h
  have hlaid := (Packer.addBlobs_spec hadds).2.2
  simp only [Packer.new, List.length_nil] at hlaid
  rw [hdata, Packer.parseFooter_of_fits _ (hfits footer henc), SecureStorage.decode_encode henc,
    Option.bind_some, Packer.parseEntries_pad hlaid (describeFrom_types 0 htypes)]

/-- A footer that does not fit is not found. -/
theorem FinalizesTo.parseFooter_eq_none (hauth : storage.RejectsSuffixes) {pack : FinalizedPack}
    (h : FinalizesTo storage fromContent nonce rand adds (some pack))
    (hlong : ¬ FooterFits storage nonce rand adds) :
    Packer.parseFooter storage pack.data = none := by
  obtain ⟨-, footer, henc, hdata⟩ := h.data
  have hlen : 2 ^ 32 ≤ footer.length := by
    refine Nat.le_of_not_lt fun hlt => hlong fun footer' henc' => ?_
    rw [henc] at henc'
    cases henc'
    exact hlt
  rw [hdata, Packer.parseFooter_of_long hauth _ henc hlen]

end Finalized

/-- **A footer reads back exactly when the pack has bytes, its blobs end below 4 GiB and the footer
fits.** The calls of `add_blob` check that each blob starts below 4 GiB, not that it ends there; a
pack without bytes is not written at all; and the trailer has 32 bits for the length of the footer.
-/
theorem footer_reads_back_iff {fromContent : Bytes → ID} {nonce : Nonce}
    {rand : Nat → PackedBlobDescriptor} {result : Option FinalizedPack}
    (hauth : storage.RejectsSuffixes) (hne : adds ≠ [])
    (hfin : FinalizesTo storage fromContent nonce rand adds result) :
    FooterReadsBack storage adds result ↔
      0 < (bytesOf adds).length ∧ (bytesOf adds).length < 2 ^ 32 ∧
        FooterFits storage nonce rand adds := by
  constructor
  · intro hreads
    have hlt : (bytesOf adds).length < 2 ^ 32 :=
      lt_of_not_ge fun hlong => not_footerReadsBack_of_le hne hlong hreads
    obtain ⟨pack, rest, rfl, -, hparse, -⟩ := hreads
    refine ⟨List.length_pos_iff.mpr hfin.data.1, hlt, ?_⟩
    by_contra hlong
    rw [hfin.parseFooter_eq_none hauth hlong] at hparse
    cases hparse
  · rintro ⟨hpos, hlt, hfits⟩
    cases result with
    | none =>
      rw [hfin.bytesOf_eq_nil] at hpos
      cases hpos
    | some pack =>
      obtain ⟨-, footer, -, hdata⟩ := hfin.data
      refine ⟨pack, footer ++ littleEndian 4 footer.length, rfl, ?_, hfin.parseFooter hfits,
        fun d hd => ?_⟩
      · rw [hdata, List.append_assoc]
      · have hend := describeFrom_ends hd
        omega

/-- A small pack of one blob is written. -/
theorem finalizesTo_sample : ∃ pack, FinalizesTo markedStorage (fun _ => 7) sampleNonce
    (fun _ => ⟨9, .padding, 0, 0, 0⟩) [⟨5, .data, [0, 1, 2], 1⟩] (some pack) := by
  have hadds : Packer.new.addBlobs [⟨5, .data, [0, 1, 2], 1⟩] =
      some ⟨[0, 1, 2], [⟨5, .data, 0, 3, 1⟩], 1⟩ := rfl
  obtain ⟨pack, hfin⟩ : ∃ pack, Packer.finalizeAndExtract markedStorage (fun _ => 7) sampleNonce
      (fun _ => ⟨9, .padding, 0, 0, 0⟩) ⟨[0, 1, 2], [⟨5, .data, 0, 3, 1⟩], 1⟩ = some (some pack) := by
    rw [Packer.finalizeAndExtract, if_neg (List.cons_ne_nil _ _), encode_markedStorage,
      Option.map_some]
    exact ⟨_, rfl⟩
  refine ⟨pack, fun a ha => ?_, _, hadds, hfin⟩
  rw [List.mem_singleton.mp ha]
  decide

/-- Every byte of its footer takes at most 256 bytes. -/
theorem footerFits_sample : FooterFits markedStorage sampleNonce (fun _ => ⟨9, .padding, 0, 0, 0⟩)
    [⟨5, .data, [0, 1, 2], 1⟩] := by
  intro footer hfooter
  have hlen : ∀ x : Bytes, (x.flatMap unary).length ≤ 256 * x.length := by
    intro x
    induction x with
    | nil => exact Nat.zero_le _
    | cons b x ih =>
      have hb := b.toNat_lt
      rw [List.flatMap_cons, List.length_append, List.length_cons, unary, List.length_append,
        List.length_replicate, List.length_singleton]
      omega
  have hpad : (Packer.pad (fun _ => ⟨9, .padding, 0, 0, 0⟩)
      (describeFrom 0 [⟨5, .data, [0, 1, 2], 1⟩])).length = 64 := by decide
  rw [encode_markedStorage, Option.some.injEq] at hfooter
  have hbytes := hlen (Packer.footerBytes (Packer.pad (fun _ => ⟨9, .padding, 0, 0, 0⟩)
    (describeFrom 0 [⟨5, .data, [0, 1, 2], 1⟩])))
  rw [Packer.length_footerBytes, hpad, Packer.footerBlobLen] at hbytes
  rw [← hfooter, List.length_cons]
  omega

/-- A pack with one blob. -/
theorem sample_footer_reads_back : ∃ pack, FinalizesTo markedStorage (fun _ => 7) sampleNonce
    (fun _ => ⟨9, .padding, 0, 0, 0⟩) [⟨5, .data, [0, 1, 2], 1⟩] (some pack) ∧
      FooterReadsBack markedStorage [⟨5, .data, [0, 1, 2], 1⟩] (some pack) := by
  obtain ⟨pack, hfin⟩ := finalizesTo_sample
  exact ⟨pack, hfin, (footer_reads_back_iff rejectsSuffixes_markedStorage (List.cons_ne_nil _ _)
    hfin).mpr ⟨by decide, by decide, footerFits_sample⟩⟩

/-- Two blobs of which the second one ends at 4 GiB. -/
def blobsTo4GiB : List AddedBlob :=
  [⟨1, .data, List.replicate (2 ^ 32 - 1) 0, 1⟩, ⟨2, .data, [0], 1⟩]

theorem footer_sum_overflows : ∃ result, FinalizesTo markedStorage (fun _ => 7) sampleNonce
    (fun _ => ⟨9, .padding, 0, 0, 0⟩) blobsTo4GiB result ∧
      ¬ FooterReadsBack markedStorage blobsTo4GiB result := by
  have htypes : ∀ a ∈ blobsTo4GiB, a.blobType ≠ .padding := by
    intro a ha
    simp only [blobsTo4GiB, List.mem_cons, List.not_mem_nil, or_false] at ha
    rcases ha with rfl | rfl <;> exact fun h => by cases h
  have hlen : (bytesOf blobsTo4GiB).length = 2 ^ 32 := by
    simp only [blobsTo4GiB, bytesOf, List.flatMap_cons, List.flatMap_nil, List.length_append,
      List.length_replicate, List.length_cons, List.length_nil]
    norm_num
  obtain ⟨p, hadds⟩ : ∃ p, Packer.new.addBlobs blobsTo4GiB = some p := by
    have hlong : (List.replicate (2 ^ 32 - 1) (0 : UInt8)).length < 2 ^ 32 := by
      rw [List.length_replicate]
      norm_num
    have hzero : (0 : Nat) < 2 ^ 32 := by norm_num
    have hone : (1 : Nat) < 2 ^ 32 := by norm_num
    rw [← Option.isSome_iff_exists, blobsTo4GiB, Packer.addBlobs, Packer.addBlob,
      if_pos ⟨hzero, hlong, hone⟩, Option.bind_some, Packer.addBlobs, Packer.addBlob,
      if_pos ⟨hlong, hone, hone⟩, Option.bind_some, Packer.addBlobs, Option.isSome_some]
  have hbuf : p.buffer ≠ [] := by
    have hbytes := (Packer.addBlobs_spec hadds).1
    rw [Packer.new, List.nil_append] at hbytes
    rw [hbytes, ← List.length_pos_iff, hlen]
    decide
  obtain ⟨result, hfin⟩ : ∃ result, p.finalizeAndExtract markedStorage (fun _ => 7) sampleNonce
      (fun _ => ⟨9, .padding, 0, 0, 0⟩) = some result := by
    rw [Packer.finalizeAndExtract, if_neg hbuf, encode_markedStorage, Option.map_some]
    exact ⟨_, rfl⟩
  exact ⟨result, ⟨htypes, p, hadds, hfin⟩, not_footerReadsBack_of_le (List.cons_ne_nil _ _) hlen.ge⟩

end Sequence

end Mapache
