import KushOs.Idl.Builder
import KushOs.Idl.RoundTrip

/-!
# Messages of 4 GiB and more

`bytesFor` counts in 64 bits, but the running offset of `serialize` and the lengths of blobs have
32. A blob that is too long by itself gets a span that is too short, and its own encoder refuses it.
When only the sum is too large, the offset wraps and the blobs behind that point are written to the
start of the buffer, over whatever is there.

## Main definitions

* `footprint`: the ranges that `serialize` writes, with offsets of 32 bits.
* `NoOverlap`, `Overlong`: no byte is written twice; some blob is too long by itself.

## Main results

* `serializeElements_frame`, `serializeElements_exact`: what the loop leaves alone and what it
  leaves behind, whatever the size of the message.
* `oversized_refusedOrExact`: when a message of any size is refused or read back.
* `oversized_corrupted`: an oversized message that is neither.
-/

namespace KushOs.Idl

open ByteBuffer

section Codecs

/-- The encoder of a type does not succeed in a span that is too short. -/
def Codec.RefusesShort (codec : Codec) : Prop :=
  ∀ v out out', out.length < codec.bytesFor v → codec.serialize out v ≠ .ok (true, out')

theorem stringCodec_refusesShort : stringCodec.RefusesShort := by
  intro (str : List UInt8) out out' (hlt : out.length < str.length) h
  have hne : str.isEmpty = false := by
    rw [List.isEmpty_eq_false_iff, ← List.length_pos_iff]
    omega
  change serializeString out str = _ at h
  rw [serializeString, hne, if_neg Bool.false_ne_true, if_pos hlt] at h
  cases h

theorem vectorCodec_refusesShort : vectorCodec.RefusesShort := by
  intro (vec : List UInt8) out out' (hlt : out.length < vec.length * sizeofByte) h
  change serializeVector out vec = _ at h
  rw [serializeVector, if_pos hlt] at h
  cases h

/-- A type is encoded as `bytesFor` says, or not at all. -/
structure Codec.Faithful (codec : Codec) : Prop where
  roundTrips : codec.RoundTrips
  refusesShort : codec.RefusesShort

/-- The overloads that an encoding uses are faithful. -/
def Encoding.Faithful : Encoding → Prop
  | .scalar _ => True
  | .blob codec => codec.Faithful

theorem encoding_faithful {types : CustomTypes} (hcustom : ∀ typeName, (types typeName).Faithful)
    (t : ArgumentType) : (t.encoding types).Faithful := by
  cases t with
  | primitive p => trivial
  | string => exact ⟨stringCodec_roundTrips, stringCodec_refusesShort⟩
  | blob => exact ⟨vectorCodec_roundTrips, vectorCodec_refusesShort⟩
  | custom typeName => exact hcustom typeName

end Codecs

section Footprint

variable (types : CustomTypes)

/-- The ranges that `serialize` writes from a member on: its slot and its blob, which has no bytes
for a primitive member. The offset of the next blob has 32 bits. -/
def footprint : ℕ → (es : List Element) → Values types es → List Range
  | _, [], _ => []
  | blobOff, e :: es, x =>
    e.range :: ⟨blobOff, (e.encoding types).blobBytes x.1⟩ ::
      footprint ((blobOff + (e.encoding types).blobBytes x.1) % 2 ^ 32) es x.2

/-- The length of some blob has more than 32 bits. -/
def Overlong : (es : List Element) → Values types es → Prop
  | [], _ => False
  | e :: es, x => 2 ^ 32 ≤ (e.encoding types).blobBytes x.1 ∨ Overlong es x.2

/-- No byte of a message belongs to two of its slots and blobs. -/
def NoOverlap {types : CustomTypes} (m : MessageStruct) (x : m.Value types) : Prop :=
  (footprint types (m.blobStartOffset % 2 ^ 32) m.elements x).Pairwise Range.Apart

end Footprint

section Blocks

variable {range : Range} {w w' : Writer}

/-- What a block of `serialize` has done when it goes on to the next member. -/
structure BlockDone (enc : Encoding) (v : enc.Value) (range : Range) (w w' : Writer) : Prop where
  short : enc.blobBytes v < 2 ^ 32
  length_out : w'.out.length = w.out.length
  blobOff_eq : w'.blobOff = (w.blobOff + enc.blobBytes v) % 2 ^ 32
  frame : ∀ r : Range, r.Apart range → r.Apart ⟨w.blobOff, enc.blobBytes v⟩ →
    slice w'.out r = slice w.out r
  stored : range.Apart ⟨w.blobOff, enc.blobBytes v⟩ →
    enc.Stored w'.out range ⟨w.blobOff, enc.blobBytes v⟩ v
  reads : ∀ out, out.length = w.out.length →
    enc.Stored out range ⟨w.blobOff, enc.blobBytes v⟩ v → enc.deserialize out range = .ok v

/-- A range that is formed lies inside the span. -/
theorem subspan_inv {span b : List UInt8} {offset count : ℕ}
    (h : subspan span offset count = .ok b) :
    offset + count ≤ span.length ∧ b = slice span ⟨offset, count⟩ := by
  unfold subspan at h
  split at h
  · next hle =>
      cases h
      exact ⟨by omega, rfl⟩
  · cases h

/-- The block of a primitive member, when it goes on. -/
theorem serializeScalar_done {size : ℕ} {v : Scalar size} (hsize : range.size = size)
    (hpos : 0 < range.size) (hoff : w.blobOff < 2 ^ 32)
    (h : serializeScalar range v w = .ok (true, w')) :
    BlockDone (.scalar size) v range w w' := by
  have hlen : v.image.length = range.size := v.length_image.trans hsize.symm
  by_cases hslot : range.offset + range.size ≤ w.out.length
  · have hload : load v.image 0 range.size = .ok v.image := by
      rw [load_of_le (by omega), slice_self hlen]
    rw [serializeScalar, subspan_of_le hslot, ok_bind, hload, ok_bind, store_of_le (by omega),
      ok_bind] at h
    obtain rfl : ({ w with
        out := overwrite w.out (range.offset + 0) v.image
        slots := w.slots ++ [range] } : Writer) = w' := (Prod.ext_iff.1 (Except.ok.inj h)).2
    refine ⟨by simp [Encoding.blobBytes], ?_, ?_, ?_, ?_, ?_⟩
    · exact length_overwrite (by omega)
    · exact (Nat.mod_eq_of_lt hoff).symm
    · intro r hr _
      refine slice_overwrite_of_apart (by omega) ?_
      rw [hlen]
      exact hr
    · exact fun _ => slice_overwrite_self (by omega) hlen
    · intro out hout hstored
      -- no blob belongs to the member
      have hslot' : (Encoding.scalar size).Stored out range ⟨0, 0⟩ v := hstored
      exact hslot'.deserialize (hout.symm ▸ hslot) (Nat.zero_le _) hpos hsize
  · rw [serializeScalar, subspan_of_lt (by omega), error_bind] at h
    cases h

/-- A pointer is stored in its slot, and only there. -/
theorem storePointer_inv {out out' : List UInt8} {blobDataOffset blobSz : ℕ}
    (hfit : range.limit ≤ out.length) (hsize : range.size = 8) (hoffset : blobDataOffset < 2 ^ 32)
    (hsz : blobSz < 2 ^ 32) (h : storePointer out range blobDataOffset blobSz = .ok out') :
    out'.length = out.length ∧ blobPointer out' range = ⟨blobDataOffset, blobSz⟩ ∧
      ∀ r : Range, r.Apart range → slice out' r = slice out r := by
  have hlen := length_toLittleEndian 4 blobDataOffset
  have hlen' := length_toLittleEndian 4 blobSz
  obtain ⟨out'', hout'', hlength, hptr, -⟩ := storePointer_ok blobDataOffset blobSz hfit hsize
    hoffset hsz
  obtain rfl : out'' = out' := Except.ok.inj (hout''.symm.trans h)
  refine ⟨hlength, hptr, fun r hr => ?_⟩
  -- both words of the pointer are written inside the slot
  unfold Range.limit at hfit
  rw [storePointer, store_of_le (by omega), ok_bind, store_of_le (by omega)] at h
  have hword : ∀ k, k + 4 ≤ 8 → r.Apart ⟨range.offset + k, 4⟩ := by
    intro k hk i hr₁ hr₂ hi
    have hslot := hr i hr₁ hr₂ (le_trans (Nat.le_add_right _ _) hi)
    unfold Range.limit at hslot ⊢
    simp only at hi ⊢
    omega
  rw [← Except.ok.inj h, slice_overwrite_of_apart, slice_overwrite_of_apart (by omega)]
  · rw [hlen]
    exact hword 0 (by omega)
  · rw [length_overwrite (by omega)]
    omega
  · rw [hlen']
    exact hword 4 (by omega)

/-- The block of a blob, when it goes on. -/
theorem serializeBlob_done {codec : Codec} (hcodec : codec.Faithful) {v : codec.Value}
    (hsize : range.size = 8) (hoff : w.blobOff < 2 ^ 32)
    (h : serializeBlob range codec v w = .ok (true, w')) :
    BlockDone (.blob codec) v range w w' := by
  simp only [serializeBlob, Fallible.bind_eq_ok] at h
  obtain ⟨_, hslot, span, hspan, ⟨done, data⟩, hdata, h⟩ := h
  obtain ⟨hslot, -⟩ := subspan_inv hslot
  obtain ⟨hfit, rfl⟩ := subspan_inv hspan
  have hspanlen := length_slice (b := w.out) (r := ⟨w.blobOff, codec.bytesFor v % 2 ^ 32⟩) hfit
  cases done with
  | false => cases h
  | true =>
    -- the span was not too short, so the length has no more than 32 bits
    have hshort : codec.bytesFor v < 2 ^ 32 := by
      by_contra hlong
      refine hcodec.refusesShort v _ data ?_ hdata
      rw [hspanlen]
      exact (Nat.mod_lt _ (by decide)).trans_le (not_lt.1 hlong)
    have hmod : codec.bytesFor v % 2 ^ 32 = codec.bytesFor v := Nat.mod_eq_of_lt hshort
    rw [hmod] at hdata hspanlen hfit
    obtain ⟨data', hdata', hdecode⟩ := hcodec.roundTrips v _ hspanlen
    obtain rfl : data' = data := (Prod.ext_iff.1 (Except.ok.inj (hdata'.symm.trans hdata))).2
    have hdatalen : data'.length = codec.bytesFor v :=
      (codec.length_serialize hdata).trans hspanlen
    have hmid : (overwrite w.out w.blobOff data').length = w.out.length :=
      length_overwrite (by omega)
    simp only [hmod, if_true, Fallible.bind_eq_ok] at h
    obtain ⟨out, hout, h⟩ := h
    obtain rfl := (Prod.ext_iff.1 (Except.ok.inj h)).2
    obtain ⟨hlen, hptr, hframe⟩ :=
      storePointer_inv (hmid ▸ hslot) hsize hoff hshort hout
    refine ⟨hshort, hlen.trans hmid, rfl, ?_, ?_, ?_⟩
    · intro r hr hblob
      rw [hframe r hr]
      exact slice_overwrite_of_apart (by omega) (by rwa [hdatalen])
    · intro hapart
      refine ⟨hptr, ?_⟩
      rw [hframe _ hapart.symm]
      show codec.deserialize (slice _ ⟨w.blobOff, codec.bytesFor v⟩) = some v
      rw [slice_overwrite_self (by omega) hdatalen]
      exact hdecode
    · intro out' hout' hstored
      refine hstored.deserialize (hout'.symm ▸ hslot) (hout'.symm ▸ hfit) ?_ hsize
      rw [hsize]
      decide

/-- The block of one member, when it goes on. -/
theorem Encoding.serialize_done {enc : Encoding} (henc : enc.Faithful) {v : enc.Value}
    (hsize : range.size = enc.wireSize) (hpos : 0 < range.size) (hoff : w.blobOff < 2 ^ 32)
    (h : enc.serialize range v w = .ok (true, w')) : BlockDone enc v range w w' := by
  cases enc with
  | scalar size => exact serializeScalar_done hsize hpos hoff h
  | blob codec => exact serializeBlob_done henc hsize hoff h

/-- The block of one member goes on if its ranges lie inside the span and its blob is not too
long. -/
theorem Encoding.serialize_success {enc : Encoding} (henc : enc.Faithful) (v : enc.Value)
    (hsize : range.size = enc.wireSize) (hslot : range.limit ≤ w.out.length)
    (hoff : w.blobOff < 2 ^ 32) (hfit : w.blobOff + enc.blobBytes v ≤ w.out.length)
    (hshort : enc.blobBytes v < 2 ^ 32) : ∃ w', enc.serialize range v w = .ok (true, w') := by
  cases enc with
  | scalar size =>
    obtain ⟨w', hw', -⟩ := serializeScalar_ok v hsize hslot
    exact ⟨w', hw'⟩
  | blob codec =>
    have hfit : w.blobOff + codec.bytesFor v ≤ w.out.length := hfit
    -- the length is not cut off, so the blob gets the span that it needs
    have hmod : codec.bytesFor v % 2 ^ 32 = codec.bytesFor v := Nat.mod_eq_of_lt hshort
    have hspan : (slice w.out ⟨w.blobOff, codec.bytesFor v⟩).length = codec.bytesFor v :=
      length_slice hfit
    obtain ⟨data, hdata, -⟩ := henc.roundTrips v _ hspan
    have hdatalen : data.length = codec.bytesFor v := (codec.length_serialize hdata).trans hspan
    have hmid : (overwrite w.out w.blobOff data).length = w.out.length :=
      length_overwrite (by omega)
    -- the slot is written behind it, into a message of the same size
    obtain ⟨out, hout, -⟩ :=
      storePointer_ok w.blobOff (codec.bytesFor v) (hmid ▸ hslot) hsize hoff hshort
    refine ⟨{ out, blobOff := (w.blobOff + codec.bytesFor v) % 2 ^ 32,
              slots := w.slots ++ [range],
              blobs := w.blobs ++ [⟨w.blobOff, codec.bytesFor v⟩] }, ?_⟩
    show serializeBlob range codec v w = _
    simp only [serializeBlob, subspan_of_le hslot, ok_bind, hmod, subspan_of_le hfit, hdata, hout,
      if_true]
    rfl

end Blocks

section Loop

variable {types : CustomTypes} {es : List Element} {w w' : Writer}

/-- A loop that ends successfully has done a block for its first member, and the others. -/
theorem serializeElements_inv (hcustom : ∀ typeName, (types typeName).Faithful) {e : Element}
    {x : Values types (e :: es)} (hsize : e.range.size = e.argument.type.wireSize)
    (hoff : w.blobOff < 2 ^ 32) (h : serializeElements types (e :: es) x w = .ok (true, w')) :
    ∃ w₁, BlockDone (e.encoding types) x.1 e.range w w₁ ∧
      serializeElements types es x.2 w₁ = .ok (true, w') := by
  have hsizee : e.range.size = (e.encoding types).wireSize :=
    hsize.trans (ArgumentType.wireSize_encoding types _).symm
  have hpos : 0 < e.range.size := hsize ▸ e.argument.type.wireSize_pos
  simp only [serializeElements, Fallible.bind_eq_ok] at h
  obtain ⟨⟨done, w₁⟩, hblock, h⟩ := h
  cases done with
  | false => cases h
  | true =>
    have hdone := Encoding.serialize_done (encoding_faithful hcustom e.argument.type) hsizee hpos
      hoff hblock
    exact ⟨w₁, hdone, h⟩

theorem BlockDone.blobOff_lt {enc : Encoding} {v : enc.Value} {range : Range}
    (h : BlockDone enc v range w w') : w'.blobOff < 2 ^ 32 := by
  rw [h.blobOff_eq]
  exact Nat.mod_lt _ (by decide)

/-- The members are decoded one after the other. -/
theorem deserializeElements_cons {input : List UInt8} {e : Element} {v : (e.encoding types).Value}
    {vs : Values types es} (h : (e.encoding types).deserialize input e.range = .ok v)
    (hs : deserializeElements types input es = .ok vs) :
    deserializeElements types input (e :: es) = .ok (v, vs) := by
  rw [deserializeElements, h, ok_bind, hs, ok_bind]
  rfl

/-- The loop leaves everything outside its footprint alone. -/
theorem serializeElements_frame (hcustom : ∀ typeName, (types typeName).Faithful)
    {x : Values types es} (hsize : ∀ e ∈ es, e.range.size = e.argument.type.wireSize)
    (hoff : w.blobOff < 2 ^ 32) (h : serializeElements types es x w = .ok (true, w')) :
    w'.out.length = w.out.length ∧ ∀ r : Range, (∀ f ∈ footprint types w.blobOff es x, r.Apart f) →
      slice w'.out r = slice w.out r := by
  induction es generalizing w with
  | nil =>
    obtain rfl : w = w' := (Prod.ext_iff.1 (Except.ok.inj h)).2
    exact ⟨rfl, fun r _ => rfl⟩
  | cons e es ih =>
    obtain ⟨w₁, hdone, hrest⟩ :=
      serializeElements_inv hcustom (hsize e List.mem_cons_self) hoff h
    obtain ⟨hlen, hframe⟩ :=
      ih (fun b hb => hsize b (List.mem_cons_of_mem e hb)) hdone.blobOff_lt hrest
    refine ⟨hlen.trans hdone.length_out, fun r hr => ?_⟩
    rw [footprint, List.forall_mem_cons, List.forall_mem_cons] at hr
    obtain ⟨hslot, hblob, hr⟩ := hr
    rw [hframe r (hdone.blobOff_eq ▸ hr), hdone.frame r hslot hblob]

/-- If no byte is written twice, the decoder finds what the loop has written. -/
theorem serializeElements_exact (hcustom : ∀ typeName, (types typeName).Faithful)
    {x : Values types es} (hsize : ∀ e ∈ es, e.range.size = e.argument.type.wireSize)
    (hoff : w.blobOff < 2 ^ 32) (hapart : (footprint types w.blobOff es x).Pairwise Range.Apart)
    (h : serializeElements types es x w = .ok (true, w')) :
    deserializeElements types w'.out es = .ok x := by
  induction es generalizing w with
  | nil => rfl
  | cons e es ih =>
    obtain ⟨w₁, hdone, hrest⟩ :=
      serializeElements_inv hcustom (hsize e List.mem_cons_self) hoff h
    have hsizes : ∀ b ∈ es, b.range.size = b.argument.type.wireSize := fun b hb =>
      hsize b (List.mem_cons_of_mem e hb)
    rw [footprint, List.pairwise_cons, List.pairwise_cons, List.forall_mem_cons,
      ← hdone.blobOff_eq] at hapart
    obtain ⟨⟨hown, hslot⟩, hblob, hothers⟩ := hapart
    obtain ⟨hlen, hframe⟩ := serializeElements_frame hcustom hsizes hdone.blobOff_lt hrest
    -- the slot of the member and its blob keep their bytes to the end
    have hsizee : e.range.size = (e.encoding types).wireSize :=
      (hsize e List.mem_cons_self).trans (ArgumentType.wireSize_encoding types _).symm
    have hstored := (hdone.stored hown).congr hsizee (hframe _ hslot) (hframe _ hblob)
    have hread := hdone.reads _ (hlen.trans hdone.length_out) hstored
    exact deserializeElements_cons hread (ih hsizes hdone.blobOff_lt hothers hrest)

/-- A loop that ends successfully has met no blob that is too long. -/
theorem serializeElements_not_overlong (hcustom : ∀ typeName, (types typeName).Faithful)
    {x : Values types es} (hsize : ∀ e ∈ es, e.range.size = e.argument.type.wireSize)
    (hoff : w.blobOff < 2 ^ 32) (h : serializeElements types es x w = .ok (true, w')) :
    ¬Overlong types es x := by
  induction es generalizing w with
  | nil => exact id
  | cons e es ih =>
    obtain ⟨w₁, hdone, hrest⟩ :=
      serializeElements_inv hcustom (hsize e List.mem_cons_self) hoff h
    rintro (hlong | hlong)
    · exact absurd hdone.short (not_lt.2 hlong)
    · exact ih (fun b hb => hsize b (List.mem_cons_of_mem e hb)) hdone.blobOff_lt hrest hlong

/-- The loop ends successfully when all ranges lie inside the span and no blob is too long. -/
theorem serializeElements_success (hcustom : ∀ typeName, (types typeName).Faithful)
    {x : Values types es} (hsize : ∀ e ∈ es, e.range.size = e.argument.type.wireSize)
    (hslots : ∀ e ∈ es, e.range.limit ≤ w.out.length) (hoff : w.blobOff < 2 ^ 32)
    (hfit : w.blobOff + blobBytes types es x ≤ w.out.length) (hshort : ¬Overlong types es x) :
    ∃ w', serializeElements types es x w = .ok (true, w') := by
  induction es generalizing w with
  | nil => exact ⟨w, rfl⟩
  | cons e es ih =>
    obtain ⟨v, vs⟩ := x
    change w.blobOff + ((e.encoding types).blobBytes v + blobBytes types es vs) ≤ _ at hfit
    obtain ⟨hv, hvs⟩ := not_or.1 hshort
    have hsizee : e.range.size = (e.encoding types).wireSize :=
      (hsize e List.mem_cons_self).trans (ArgumentType.wireSize_encoding types _).symm
    have henc : (e.encoding types).Faithful := encoding_faithful hcustom e.argument.type
    have hpos : 0 < e.range.size := hsize e List.mem_cons_self ▸ e.argument.type.wireSize_pos
    obtain ⟨w₁, hw₁⟩ := Encoding.serialize_success henc v hsizee (hslots e List.mem_cons_self)
      hoff (by omega) (not_le.1 hv)
    have hdone := Encoding.serialize_done henc hsizee hpos hoff hw₁
    -- the offset has wrapped or not; it is not behind where it would be without
    have hle := hdone.blobOff_eq.trans_le (Nat.mod_le _ _)
    obtain ⟨w', hw'⟩ := ih (x := vs) (fun b hb => hsize b (List.mem_cons_of_mem e hb))
      (fun b hb => hdone.length_out ▸ hslots b (List.mem_cons_of_mem e hb)) hdone.blobOff_lt
      (by rw [hdone.length_out]; omega) hvs
    refine ⟨w', ?_⟩
    change ((e.encoding types).serialize e.range v w >>= fun r =>
      if r.1 then serializeElements types es vs r.2 else pure (false, r.2)) = _
    rw [hw₁, ok_bind, if_pos rfl, hw']

end Loop

section Messages

variable {types : CustomTypes} {m : MessageStruct}

/-- The encoder does not succeed, or no other value is decoded from what it leaves. -/
def MessageStruct.RefusedOrExact (m : MessageStruct) (out : List UInt8) (x : m.Value types) :
    Prop :=
  ∀ w y, m.serialize out x = .ok (true, w) → m.deserialize types w.out = .ok y → y = x

/-- If no byte is written twice, a message that is not refused is read back. -/
theorem MessageStruct.refusedOrExact (hcustom : ∀ typeName, (types typeName).Faithful)
    {x : m.Value types} (hapart : NoOverlap m x) (out : List UInt8) :
    m.RefusedOrExact out x := by
  intro w y hserialize hdeserialize
  have hoff : m.blobStartOffset % 2 ^ 32 < 2 ^ 32 := Nat.mod_lt _ (by decide)
  have hread := serializeElements_exact (w := ⟨out, m.blobStartOffset % 2 ^ 32, [], []⟩) hcustom
    m.range_size hoff hapart hserialize
  -- the decoder has gone past its tests, so it has read the members
  simp only [MessageStruct.deserialize] at hdeserialize
  split at hdeserialize
  · cases hdeserialize
  · simp only [Fallible.bind_eq_ok] at hdeserialize
    obtain ⟨_, -, hy⟩ := hdeserialize
    exact Except.ok.inj (hy.symm.trans hread)

/-- A message is refused exactly when one of its blobs is too long by itself. -/
theorem MessageStruct.serialize_true_iff (hcustom : ∀ typeName, (types typeName).Faithful)
    {x : m.Value types} (hsize : m.encodedSize x < 2 ^ 64) {out : List UInt8}
    (hout : out.length = m.bytesFor x) :
    (∃ w, m.serialize out x = .ok (true, w)) ↔ ¬Overlong types m.elements x := by
  have hoff : m.blobStartOffset % 2 ^ 32 < 2 ^ 32 := Nat.mod_lt _ (by decide)
  constructor
  · rintro ⟨w, hw⟩
    exact serializeElements_not_overlong hcustom m.range_size hoff hw
  · intro hshort
    have hlen : out.length = m.blobStartOffset + blobBytes types m.elements x :=
      hout.trans (Nat.mod_eq_of_lt hsize)
    have hstart := m.scalarBytes_le_blobStartOffset
    have hmod := Nat.mod_le m.blobStartOffset (2 ^ 32)
    refine serializeElements_success hcustom m.range_size (fun e he => ?_) hoff ?_ hshort
    · have := m.limit_le_scalarBytes he
      show e.range.limit ≤ out.length
      omega
    · show m.blobStartOffset % 2 ^ 32 + blobBytes types m.elements x ≤ out.length
      omega

end Messages

/-- The buffer of a message of any size that is not refused is decoded to no other value if one of
its blobs is too long by itself, since then it is refused, or if no byte belongs to two of its slots
and blobs. It is refused in no other case, whatever its size is. -/
theorem oversized_refusedOrExact (types : CustomTypes)
    (hcustom : ∀ typeName, (types typeName).Faithful) (args : List Argument)
    (x : (serWriteArgs args).Value types) (out : List UInt8)
    (hout : out.length = (serWriteArgs args).bytesFor x) :
    (Overlong types (serWriteArgs args).elements x ∨ NoOverlap (serWriteArgs args) x →
      (serWriteArgs args).RefusedOrExact out x) ∧
      ((serWriteArgs args).encodedSize x < 2 ^ 64 →
        ((∃ w, (serWriteArgs args).serialize out x = .ok (true, w)) ↔
          ¬Overlong types (serWriteArgs args).elements x)) := by
  refine ⟨?_, fun hsize => MessageStruct.serialize_true_iff hcustom hsize hout⟩
  rintro (hlong | hapart)
  · intro w y hserialize _
    exact absurd hlong (serializeElements_not_overlong hcustom (serWriteArgs args).range_size
      (Nat.mod_lt _ (by decide)) hserialize)
  · exact MessageStruct.refusedOrExact hcustom hapart out

section Strings

/-- The overloads for strings, for all custom types of an interface that has none. -/
abbrev blobTypes : CustomTypes := fun _ => stringCodec

theorem blobTypes_faithful (typeName : String) : (blobTypes typeName).Faithful :=
  ⟨stringCodec_roundTrips, stringCodec_refusesShort⟩

/-- A message of one string. -/
def oneString (str : List UInt8) : (serWriteArgs [.string "name"]).Value blobTypes := (str, ())

theorem overlong_oneString {str : List UInt8} (h : 2 ^ 32 ≤ str.length) :
    Overlong blobTypes (serWriteArgs [.string "name"]).elements (oneString str) :=
  Or.inl h

/-- The arguments of a method that takes two strings. -/
def twoArgs : List Argument := [.string "first", .string "second"]

/-- A message of two strings. -/
def twoStrings (str str' : List UInt8) : (serWriteArgs twoArgs).Value blobTypes :=
  (str, str', ())

theorem encodedSize_twoStrings (str str' : List UInt8) :
    (serWriteArgs twoArgs).encodedSize (twoStrings str str') =
      16 + (str.length + (str'.length + 0)) := rfl

/-- If the first string fills the 32 bits and the second is empty, the offset wraps and no byte is
written twice. -/
theorem noOverlap_twoStrings {str : List UInt8} (hstr : str.length = 2 ^ 32 - 16) :
    NoOverlap (serWriteArgs twoArgs) (twoStrings str []) := by
  show [⟨0, 8⟩, ⟨16, str.length⟩, ⟨8, 8⟩, (⟨(16 + str.length) % 2 ^ 32, 0⟩ : Range)].Pairwise
    Range.Apart
  simp only [List.pairwise_cons, List.mem_cons, List.not_mem_nil, or_false, forall_eq_or_imp,
    forall_eq, Range.Apart, Range.limit_mk, hstr]
  refine ⟨⟨?_, ?_, ?_⟩, ⟨?_, ?_⟩, ?_, fun _ h => h.elim, .nil⟩ <;> omega

/-- A string of 4 GiB is refused, and strings of 4 GiB together, the second of which is empty, are
read back. -/
theorem oversized_refusedOrExact_long :
    (serWriteArgs [.string "name"]).RefusedOrExact
        (List.replicate ((serWriteArgs [.string "name"]).bytesFor
          (oneString (List.replicate (2 ^ 32) 0))) 0)
        (oneString (List.replicate (2 ^ 32) 0)) ∧
      (serWriteArgs twoArgs).RefusedOrExact
        (List.replicate ((serWriteArgs twoArgs).bytesFor
          (twoStrings (List.replicate (2 ^ 32 - 16) 0) [])) 0)
        (twoStrings (List.replicate (2 ^ 32 - 16) 0) []) :=
  ⟨(oversized_refusedOrExact blobTypes blobTypes_faithful [.string "name"] _ _
      List.length_replicate).1 (Or.inl (overlong_oneString List.length_replicate.ge)),
    (oversized_refusedOrExact blobTypes blobTypes_faithful twoArgs _ _
      List.length_replicate).1 (Or.inr (noOverlap_twoStrings List.length_replicate))⟩

/-- The decoder of strings takes the bytes as they are. -/
theorem deserializeString_eq (input : List UInt8) : deserializeString input = some input := by
  cases input <;> rfl

/-- The bytes of a pointer to four bytes at the start of the blob region. -/
def pointerString : List UInt8 := [16, 0, 0, 0, 4, 0, 0, 0]

/-- If the first string ends where the offsets do, the second one is written to the start of the
buffer, and is there when the encoder has succeeded. -/
theorem serialize_twoStrings {str out : List UInt8} (hstr : str.length = 2 ^ 32 - 16)
    (hout : out.length = 2 ^ 32 + 8) :
    ∃ w, (serWriteArgs twoArgs).serialize out (twoStrings str pointerString) = .ok (true, w) ∧
      w.out.length = 2 ^ 32 + 8 ∧ slice w.out ⟨0, 8⟩ = pointerString ∧
      (Encoding.blob stringCodec).deserialize w.out ⟨8, 8⟩ = .ok pointerString := by
  have hsize : (serWriteArgs twoArgs).encodedSize (twoStrings str pointerString) = 2 ^ 32 + 8 := by
    rw [encodedSize_twoStrings, hstr]
    rfl
  have hshort : ¬Overlong blobTypes (serWriteArgs twoArgs).elements
      (twoStrings str pointerString) := by
    rintro (hlong | hlong | hlong)
    · have hlong : 2 ^ 32 ≤ str.length := hlong
      omega
    · have hlong : 2 ^ 32 ≤ pointerString.length := hlong
      exact absurd hlong (by decide)
    · exact hlong
  obtain ⟨w, hw⟩ := (MessageStruct.serialize_true_iff blobTypes_faithful
    (by rw [hsize]; decide) (by rw [MessageStruct.bytesFor, hsize, hout]; rfl)).2 hshort
  have hw' : serializeElements blobTypes [⟨.string "first", ⟨0, 8⟩⟩, ⟨.string "second", ⟨8, 8⟩⟩]
      (str, pointerString, ()) ⟨out, 16, [], []⟩ = .ok (true, w) := hw
  have hstart : 16 < 2 ^ 32 := by decide
  obtain ⟨w₁, hdone₁, hw₁⟩ := serializeElements_inv blobTypes_faithful rfl hstart hw'
  obtain ⟨w₂, hdone₂, hw₂⟩ :=
    serializeElements_inv blobTypes_faithful rfl hdone₁.blobOff_lt hw₁
  obtain rfl : w₂ = w := (Prod.ext_iff.1 (Except.ok.inj hw₂)).2
  -- the offset behind the first string has wrapped to zero
  have hzero : w₁.blobOff = 0 := by
    have hoff : w₁.blobOff = (16 + str.length) % 2 ^ 32 := hdone₁.blobOff_eq
    rw [hoff, hstr]
    rfl
  have hapart : Range.Apart ⟨8, 8⟩ ⟨w₁.blobOff, 8⟩ := by
    rw [hzero]
    exact Range.Disjoint.apart (Or.inr (by decide))
  have hstored := hdone₂.stored hapart
  have hslice : stringCodec.deserialize (slice w₂.out ⟨w₁.blobOff, 8⟩) = some pointerString :=
    hstored.2
  have hlen : w₂.out.length = out.length := hdone₂.length_out.trans hdone₁.length_out
  refine ⟨w₂, hw, hlen.trans hout, ?_, hdone₂.reads _ hdone₂.length_out hstored⟩
  rw [hzero] at hslice
  exact Option.some.inj ((deserializeString_eq _).symm.trans hslice)

/-- The pointer to the first string has become the bytes of the second, and names four bytes. -/
theorem corrupted_twoStrings {str out : List UInt8} (hstr : str.length = 2 ^ 32 - 16)
    (hout : out.length = 2 ^ 32 + 8) :
    ¬(serWriteArgs twoArgs).RefusedOrExact out (twoStrings str pointerString) := by
  intro hexact
  obtain ⟨w, hw, hlen, hslice, hsecond⟩ := serialize_twoStrings hstr hout
  have hptr : blobPointer w.out ⟨0, 8⟩ = ⟨16, 4⟩ := by
    have hoffset : slice w.out ⟨0, 4⟩ = [16, 0, 0, 0] := by
      have h := slice_slice (b := w.out) (r := ⟨0, 8⟩) (s := ⟨0, 4⟩) (by decide)
      rw [hslice] at h
      exact h.symm
    have hcount : slice w.out ⟨4, 4⟩ = [4, 0, 0, 0] := by
      have h := slice_slice (b := w.out) (r := ⟨0, 8⟩) (s := ⟨4, 4⟩) (by decide)
      rw [hslice] at h
      exact h.symm
    show (⟨ofLittleEndian (slice w.out ⟨0, 4⟩), ofLittleEndian (slice w.out ⟨4, 4⟩)⟩ : Range) = _
    rw [hoffset, hcount]
    rfl
  have hread : (Encoding.blob stringCodec).deserialize w.out ⟨0, 8⟩ =
      .ok (slice w.out ⟨16, 4⟩) := by
    have hfit : Range.limit ⟨0, 8⟩ ≤ w.out.length := by
      rw [Range.limit_mk, hlen]
      decide
    rw [deserialize_blob stringCodec hfit rfl, hptr, subspan_of_le (by rw [hlen]; decide), ok_bind]
    have hfour : stringCodec.deserialize (slice w.out ⟨16, 4⟩) = some (slice w.out ⟨16, 4⟩) :=
      deserializeString_eq _
    rw [hfour]
    rfl
  have hloop : deserializeElements blobTypes w.out
      [⟨.string "first", ⟨0, 8⟩⟩, ⟨.string "second", ⟨8, 8⟩⟩] =
        .ok (slice w.out ⟨16, 4⟩, pointerString, ()) :=
    deserializeElements_cons hread (deserializeElements_cons hsecond rfl)
  have hdecode : (serWriteArgs twoArgs).deserialize blobTypes w.out =
      .ok (twoStrings (slice w.out ⟨16, 4⟩) pointerString) := by
    have hnot : ¬w.out.length < (serWriteArgs twoArgs).scalarBytes := by
      rw [hlen]
      decide
    have hblobs : (serWriteArgs twoArgs).blobStartOffset ≤ w.out.length := by
      rw [hlen]
      decide
    rw [MessageStruct.deserialize, if_neg hnot, subspanFrom, subspan_of_le (by omega), ok_bind]
    exact hloop
  -- a string of four bytes is not the one that was encoded
  have heq : slice w.out ⟨16, 4⟩ = str := (Prod.ext_iff.1 (hexact w _ hw hdecode)).1
  have hfour : (slice w.out ⟨16, 4⟩).length = 4 :=
    length_slice (by rw [Range.limit_mk, hlen]; decide)
  rw [heq, hstr] at hfour
  exact absurd hfour (by decide)

theorem bytesFor_twoStrings {str : List UInt8} (hstr : str.length = 2 ^ 32 - 16) :
    (serWriteArgs twoArgs).bytesFor (twoStrings str pointerString) = 2 ^ 32 + 8 := by
  rw [MessageStruct.bytesFor, encodedSize_twoStrings, hstr]
  rfl

/-- An oversized message that the encoder accepts and corrupts. -/
theorem oversized_corrupted :
    2 ^ 32 ≤ (serWriteArgs twoArgs).bytesFor
        (twoStrings (List.replicate (2 ^ 32 - 16) 0) pointerString) ∧
      ¬(serWriteArgs twoArgs).RefusedOrExact (List.replicate (2 ^ 32 + 8) 0)
        (twoStrings (List.replicate (2 ^ 32 - 16) 0) pointerString) := by
  refine ⟨?_, corrupted_twoStrings List.length_replicate List.length_replicate⟩
  rw [bytesFor_twoStrings List.length_replicate]
  decide

end Strings

end KushOs.Idl
