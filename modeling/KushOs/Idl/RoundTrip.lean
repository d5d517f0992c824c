import KushOs.Idl.Serialization

/-!
# The round trip of a message

What `serialize` writes, `deserialize` reads back. The proof follows the writer through its loop:
each block writes its slot and the blob that it appends, and leaves everything else as it is, so a
member that has been stored stays stored until the end.
-/

namespace KushOs.Idl

open ByteBuffer

section Codecs

/-- The overloads of a type fit together: in a span of exactly `bytesFor` bytes, whatever it holds,
the encoder succeeds and leaves what the decoder turns back into the value. -/
def Codec.RoundTrips (codec : Codec) : Prop :=
  ∀ v out, out.length = codec.bytesFor v →
    ∃ out', codec.serialize out v = .ok (true, out') ∧ codec.deserialize out' = some v

theorem stringCodec_roundTrips : stringCodec.RoundTrips := by
  intro (str : List UInt8) out (hout : out.length = str.length)
  change ∃ out', serializeString out str = .ok (true, out') ∧ deserializeString out' = some str
  cases str with
  | nil =>
    -- the encoder returns early, and the span has no bytes
    obtain rfl := List.length_eq_zero_iff.1 hout
    exact ⟨[], rfl, rfl⟩
  | cons b str =>
    have hnot : ¬ out.length < (b :: str).length := by omega
    have hwhole : overwrite out 0 (b :: str) = b :: str := overwrite_all hout
    refine ⟨b :: str, ?_, rfl⟩
    rw [serializeString, List.isEmpty_cons, if_neg Bool.false_ne_true, if_neg hnot, hwhole]

theorem vectorCodec_roundTrips : vectorCodec.RoundTrips := by
  intro (vec : List UInt8) out (hout : out.length = vec.length * sizeofByte)
  change ∃ out', serializeVector out vec = .ok (true, out') ∧ deserializeVector out' = some vec
  rw [sizeofByte, Nat.mul_one] at hout
  have hload : load vec 0 out.length = .ok vec := by
    rw [load_of_le (by omega), slice, List.drop_zero, hout, List.take_length]
  have hwhole : overwrite out 0 vec = vec := overwrite_all hout
  refine ⟨vec, ?_, ?_⟩
  · simp [serializeVector, sizeofByte, hout ▸ hload, hout, hwhole]
  · rw [deserializeVector, sizeofByte, Nat.div_one, overwrite_all List.length_replicate]

/-- The overloads that an encoding uses round-trip. -/
def Encoding.RoundTrips : Encoding → Prop
  | .scalar _ => True
  | .blob codec => codec.RoundTrips

theorem encoding_roundTrips {types : CustomTypes}
    (hcustom : ∀ typeName, (types typeName).RoundTrips) (t : ArgumentType) :
    (t.encoding types).RoundTrips := by
  cases t with
  | primitive p => trivial
  | string => exact stringCodec_roundTrips
  | blob => exact vectorCodec_roundTrips
  | custom typeName => exact hcustom typeName

end Codecs

section Pointers

variable {out : List UInt8} {range : Range}

/-- A pointer of two 32-bit words is stored in its slot, and only there. -/
theorem storePointer_ok (blobDataOffset blobSz : ℕ) (hfit : range.limit ≤ out.length)
    (hsize : range.size = 8) (hoffset : blobDataOffset < 2 ^ 32) (hsz : blobSz < 2 ^ 32) :
    ∃ out', storePointer out range blobDataOffset blobSz = .ok out' ∧
      out'.length = out.length ∧ blobPointer out' range = ⟨blobDataOffset, blobSz⟩ ∧
      ∀ r, r.Disjoint range → slice out' r = slice out r := by
  unfold Range.limit at hfit
  set src := toLittleEndian 4 blobDataOffset
  set src' := toLittleEndian 4 blobSz
  have hlen : src.length = 4 := length_toLittleEndian 4 _
  have hlen' : src'.length = 4 := length_toLittleEndian 4 _
  set mid := overwrite out (range.offset + 0) src
  have hmid : mid.length = out.length := length_overwrite (by omega)
  have hstore : 0 + src.length ≤ range.size := by omega
  have hstore' : 4 + src'.length ≤ range.size := by omega
  refine ⟨overwrite mid (range.offset + 4) src', ?_, ?_, ?_, ?_⟩
  · rw [storePointer, store_of_le hstore, ok_bind, store_of_le hstore']
  · rw [length_overwrite (by omega), hmid]
  -- the second word does not overlap the first
  · have hfirst : slice (overwrite mid (range.offset + 4) src') ⟨range.offset, 4⟩ = src := by
      rw [slice_overwrite_of_disjoint (by omega) (Or.inl (by simp))]
      exact slice_overwrite_self (by omega) hlen
    have hsecond : slice (overwrite mid (range.offset + 4) src') ⟨range.offset + 4, 4⟩ = src' :=
      slice_overwrite_self (by omega) hlen'
    rw [blobPointer, hfirst, hsecond, ofLittleEndian_toLittleEndian_of_lt hoffset,
      ofLittleEndian_toLittleEndian_of_lt hsz]
  · intro r hr
    unfold Range.Disjoint Range.limit at hr
    rw [slice_overwrite_of_disjoint (by omega), slice_overwrite_of_disjoint (by omega)]
    · unfold Range.Disjoint Range.limit
      simp only [hlen]
      omega
    · unfold Range.Disjoint Range.limit
      simp only [hlen']
      omega

end Pointers

section Writers

/-- What a block of `serialize`, or several in a row, does to the writer: it fills the given slots
and appends blobs of `size` bytes in all, and every range apart from these keeps its bytes. -/
structure Writes (w w' : Writer) (ranges : List Range) (size : ℕ) : Prop where
  length_out : w'.out.length = w.out.length
  blobOff_eq : w'.blobOff = w.blobOff + size
  slots_eq : w'.slots = w.slots ++ ranges
  blobs_eq : ∃ blobs, w'.blobs = w.blobs ++ blobs ∧ Tiles w.blobOff blobs w'.blobOff
  frame : ∀ r : Range, (∀ s ∈ ranges, r.Disjoint s) → r.Disjoint ⟨w.blobOff, size⟩ →
    slice w'.out r = slice w.out r

theorem Writes.refl (w : Writer) : Writes w w [] 0 where
  length_out := rfl
  blobOff_eq := rfl
  slots_eq := (List.append_nil _).symm
  blobs_eq := ⟨[], (List.append_nil _).symm, rfl⟩
  frame _ _ _ := rfl

theorem Writes.trans {w w' w'' : Writer} {ranges ranges' : List Range} {size size' : ℕ}
    (h : Writes w w' ranges size) (h' : Writes w' w'' ranges' size') :
    Writes w w'' (ranges ++ ranges') (size + size') where
  length_out := h'.length_out.trans h.length_out
  blobOff_eq := by rw [h'.blobOff_eq, h.blobOff_eq, Nat.add_assoc]
  slots_eq := by rw [h'.slots_eq, h.slots_eq, List.append_assoc]
  blobs_eq := by
    obtain ⟨blobs, hblobs, htiles⟩ := h.blobs_eq
    obtain ⟨blobs', hblobs', htiles'⟩ := h'.blobs_eq
    exact ⟨blobs ++ blobs', by rw [hblobs', hblobs, List.append_assoc], htiles.append htiles'⟩
  frame r hranges hblobs := by
    have hoff := h.blobOff_eq
    unfold Range.Disjoint Range.limit at hblobs
    have hfirst : r.Disjoint ⟨w.blobOff, size⟩ := by
      unfold Range.Disjoint Range.limit
      exact hblobs.imp id fun hle => le_trans (by simp only; omega) hle
    have hsecond : r.Disjoint ⟨w'.blobOff, size'⟩ := by
      unfold Range.Disjoint Range.limit
      simp only at hblobs ⊢
      omega
    rw [h'.frame r (fun s hs => hranges s (List.mem_append_right _ hs)) hsecond,
      h.frame r (fun s hs => hranges s (List.mem_append_left _ hs)) hfirst]

variable {out out' : List UInt8} {range blob : Range}

/-- The buffer holds the value of a member: the bytes of the variable in its slot, or a pointer
there and the data in the blob. -/
def Encoding.Stored (out : List UInt8) (range blob : Range) : (enc : Encoding) → enc.Value → Prop
  | .scalar _, v => slice out range = v.image
  | .blob codec, v =>
    blobPointer out range = blob ∧ codec.deserialize (slice out blob) = some v

/-- A stored value is what `deserialize` finds. -/
theorem Encoding.Stored.deserialize {enc : Encoding} {v : enc.Value}
    (h : enc.Stored out range blob v) (hrange : range.limit ≤ out.length)
    (hblob : blob.limit ≤ out.length) (hpos : 0 < range.size) (hsize : range.size = enc.wireSize) :
    enc.deserialize out range = .ok v := by
  cases enc with
  | scalar size =>
    obtain ⟨image, hv⟩ := v
    have himage : slice out range = image := h
    subst himage
    exact deserialize_scalar hrange hpos hsize
  | blob codec =>
    obtain ⟨hptr, hdec⟩ := h
    have hread := deserialize_blob codec hrange hsize
    rw [hptr, subspan_of_le hblob, ok_bind, hdec] at hread
    exact hread

/-- A stored value stays stored while its slot and its blob keep their bytes. -/
theorem Encoding.Stored.congr {enc : Encoding} {v : enc.Value} (h : enc.Stored out range blob v)
    (hsize : range.size = enc.wireSize) (hrange : slice out' range = slice out range)
    (hblob : slice out' blob = slice out blob) : enc.Stored out' range blob v := by
  cases enc with
  | scalar size => exact hrange.trans h
  | blob codec =>
    have hsize : range.size = 8 := hsize
    have hword : ∀ k, k + 4 ≤ 8 →
        slice out' ⟨range.offset + k, 4⟩ = slice out ⟨range.offset + k, 4⟩ := by
      intro k hk
      have hin : (⟨k, 4⟩ : Range).limit ≤ range.size := by rw [Range.limit_mk]; omega
      rw [← slice_slice hin, ← slice_slice hin, hrange]
    have hptr : blobPointer out' range = blobPointer out range := by
      rw [blobPointer, blobPointer, hword 4 (by omega)]
      exact congrArg (Range.mk · _) (congrArg ofLittleEndian (hword 0 (by omega)))
    exact ⟨hptr.trans h.1, by rw [hblob]; exact h.2⟩

end Writers

section Loop

variable {range : Range} {w : Writer}

/-- The block of a primitive member writes its slot. -/
theorem serializeScalar_ok {size : ℕ} (v : Scalar size) (hsize : range.size = size)
    (hslot : range.limit ≤ w.out.length) :
    ∃ w', serializeScalar range v w = .ok (true, w') ∧ Writes w w' [range] 0 ∧
      slice w'.out range = v.image := by
  have hlen : v.image.length = range.size := v.length_image.trans hsize.symm
  unfold Range.limit at hslot
  have hload : load v.image 0 range.size = .ok v.image := by
    rw [load_of_le (by omega), slice, List.drop_zero, ← hlen, List.take_length]
  refine ⟨{ w with out := overwrite w.out range.offset v.image, slots := w.slots ++ [range] },
    ?_, ⟨?_, rfl, rfl, ⟨[], (List.append_nil _).symm, rfl⟩, ?_⟩, ?_⟩
  · rw [serializeScalar, subspan_of_le hslot, ok_bind, hload, ok_bind, store_of_le (by omega),
      ok_bind]
    rfl
  · exact length_overwrite (by omega)
  · intro r hr _
    have hr : r.Disjoint range := hr range (List.mem_singleton_self _)
    exact slice_overwrite_of_disjoint (by omega) (by rw [hlen]; exact hr)
  · exact slice_overwrite_self (by omega) hlen

/-- The block of a blob writes the data behind the blobs before it and a pointer to the data. -/
theorem serializeBlob_ok {codec : Codec} (hcodec : codec.RoundTrips) (v : codec.Value)
    (hsize : range.size = 8) (hslot : range.limit ≤ w.blobOff)
    (hfit : w.blobOff + codec.bytesFor v ≤ w.out.length)
    (hlt : w.blobOff + codec.bytesFor v < 2 ^ 32) :
    ∃ w', serializeBlob range codec v w = .ok (true, w') ∧
      Writes w w' [range] (codec.bytesFor v) ∧
      blobPointer w'.out range = ⟨w.blobOff, codec.bytesFor v⟩ ∧
      codec.deserialize (slice w'.out ⟨w.blobOff, codec.bytesFor v⟩) = some v := by
  generalize hsz : codec.bytesFor v = sz at hfit hlt ⊢
  have hmod : sz % 2 ^ 32 = sz := Nat.mod_eq_of_lt (by omega)
  have hspan : (slice w.out ⟨w.blobOff, sz⟩).length = sz := length_slice hfit
  obtain ⟨data, hdata, hdecode⟩ := hcodec v (slice w.out ⟨w.blobOff, sz⟩) (hspan.trans hsz.symm)
  have hdatalen : data.length = sz := (codec.length_serialize hdata).trans hspan
  have hmid : (overwrite w.out w.blobOff data).length = w.out.length :=
    length_overwrite (by omega)
  have hrange : range.offset + range.size ≤ w.out.length := by unfold Range.limit at hslot; omega
  obtain ⟨out, hout, hlen, hptr, hframe⟩ :=
    storePointer_ok w.blobOff sz (hmid ▸ hrange) hsize (by omega) (by omega)
  have hslot' : range.Disjoint ⟨w.blobOff, sz⟩ := Or.inl hslot
  refine ⟨{ out, blobOff := (w.blobOff + sz) % 2 ^ 32, slots := w.slots ++ [range],
            blobs := w.blobs ++ [⟨w.blobOff, sz⟩] }, ?_, ⟨?_, ?_, rfl, ⟨_, rfl, ?_⟩, ?_⟩, hptr, ?_⟩
  · simp only [serializeBlob, subspan_of_le hrange, ok_bind, hsz, hmod, subspan_of_le hfit, hdata,
      hout, if_true]
    rfl
  · exact hlen.trans hmid
  · exact Nat.mod_eq_of_lt hlt
  · exact ⟨rfl, (Nat.mod_eq_of_lt hlt).symm⟩
  · intro r hr hblob
    rw [hframe r (hr range (List.mem_singleton_self _))]
    exact slice_overwrite_of_disjoint (by omega) (by rwa [hdatalen])
  · -- the pointer goes to the slot, which lies before the data
    rw [hframe _ hslot'.symm, slice_overwrite_self (by omega) hdatalen]
    exact hdecode

/-- The block of one member stores its value. -/
theorem Encoding.serialize_ok {enc : Encoding} (henc : enc.RoundTrips) (v : enc.Value)
    (hsize : range.size = enc.wireSize) (hslot : range.limit ≤ w.blobOff)
    (hfit : w.blobOff + enc.blobBytes v ≤ w.out.length)
    (hlt : w.blobOff + enc.blobBytes v < 2 ^ 32) :
    ∃ w', enc.serialize range v w = .ok (true, w') ∧ Writes w w' [range] (enc.blobBytes v) ∧
      enc.Stored w'.out range ⟨w.blobOff, enc.blobBytes v⟩ v := by
  cases enc with
  | scalar size => exact serializeScalar_ok v hsize (by omega)
  | blob codec => exact serializeBlob_ok henc v hsize hslot hfit hlt

variable {types : CustomTypes}

/-- The loop over the members stores all of them, and the loop of the decoder finds them. -/
theorem serializeElements_ok (hcustom : ∀ typeName, (types typeName).RoundTrips)
    {es : List Element} (x : Values types es) {w : Writer} {start limit : ℕ}
    (hsize : ∀ e ∈ es, e.range.size = e.argument.type.wireSize)
    (htiles : Tiles start (es.map Element.range) limit) (hlimit : limit ≤ w.blobOff)
    (hfit : w.blobOff + blobBytes types es x ≤ w.out.length)
    (hlt : w.blobOff + blobBytes types es x < 2 ^ 32) :
    ∃ w', serializeElements types es x w = .ok (true, w') ∧
      Writes w w' (es.map Element.range) (blobBytes types es x) ∧
      deserializeElements types w'.out es = .ok x := by
  induction es generalizing w start with
  | nil => exact ⟨w, rfl, Writes.refl w, rfl⟩
  | cons e es ih =>
    obtain ⟨v, vs⟩ := x
    obtain ⟨-, htail⟩ := htiles
    change w.blobOff + ((e.encoding types).blobBytes v + blobBytes types es vs) ≤ _ at hfit
    change w.blobOff + ((e.encoding types).blobBytes v + blobBytes types es vs) < _ at hlt
    have hsizee : e.range.size = (e.encoding types).wireSize :=
      (hsize e List.mem_cons_self).trans (ArgumentType.wireSize_encoding types _).symm
    have hslot : e.range.limit ≤ w.blobOff := htail.le.trans hlimit
    have henc : (e.encoding types).RoundTrips := encoding_roundTrips hcustom e.argument.type
    obtain ⟨w₁, hw₁, hwrites₁, hstored⟩ :=
      Encoding.serialize_ok henc v hsizee hslot (by omega) (by omega)
    have hoff := hwrites₁.blobOff_eq
    obtain ⟨w₂, hw₂, hwrites₂, hdecode⟩ :=
      ih vs (w := w₁) (fun b hb => hsize b (List.mem_cons_of_mem e hb)) htail (by omega)
        (by rw [hwrites₁.length_out]; omega) (by omega)
    refine ⟨w₂, ?_, hwrites₁.trans hwrites₂, ?_⟩
    · change ((e.encoding types).serialize e.range v w >>= fun r =>
        if r.1 then serializeElements types es vs r.2 else pure (false, r.2)) = _
      rw [hw₁, ok_bind, if_pos rfl, hw₂]
    -- what the rest of the loop writes lies behind this slot, and apart from this blob
    have hafter : ∀ s ∈ es.map Element.range, e.range.limit ≤ s.offset ∧ s.limit ≤ w.blobOff :=
      fun s hs => ⟨htail.start_le hs, (htail.le_limit hs).trans hlimit⟩
    have hkeep : slice w₂.out e.range = slice w₁.out e.range :=
      hwrites₂.frame _ (fun s hs => Or.inl (hafter s hs).1) (Or.inl (by simp only; omega))
    have hkeep' : slice w₂.out ⟨w.blobOff, (e.encoding types).blobBytes v⟩ =
        slice w₁.out ⟨w.blobOff, (e.encoding types).blobBytes v⟩ :=
      hwrites₂.frame _ (fun s hs => Or.inr (hafter s hs).2) (Or.inl (by simp [hoff]))
    have hlen := hwrites₂.length_out.trans hwrites₁.length_out
    have hread := (hstored.congr hsizee hkeep hkeep').deserialize (by omega)
      (by rw [Range.limit_mk]; omega) (hsize e List.mem_cons_self ▸ e.argument.type.wireSize_pos)
      hsizee
    rw [deserializeElements, hread, ok_bind, hdecode, ok_bind]
    rfl

end Loop

section Messages

variable {types : CustomTypes} {m : MessageStruct}

/-- The writer as `serialize` sets it up. -/
def MessageStruct.writer (m : MessageStruct) (out : List UInt8) : Writer :=
  ⟨out, m.blobStartOffset, [], []⟩

theorem MessageStruct.bytesFor_eq {x : m.Value types} (hsize : m.encodedSize x < 2 ^ 32) :
    m.bytesFor x = m.blobStartOffset + blobBytes types m.elements x :=
  Nat.mod_eq_of_lt (hsize.trans (by decide))

/-- A message that encodes below `2 ^ 32` bytes is written and read back. -/
theorem MessageStruct.serialize_ok (hcustom : ∀ typeName, (types typeName).RoundTrips)
    {x : m.Value types} (hsize : m.encodedSize x < 2 ^ 32) {out : List UInt8}
    (hout : out.length = m.bytesFor x) :
    ∃ w, m.serialize out x = .ok (true, w) ∧
      Writes (m.writer out) w (m.elements.map Element.range) (blobBytes types m.elements x) ∧
      m.deserialize types w.out = .ok x := by
  have hstart := m.scalarBytes_le_blobStartOffset
  have hlen : out.length = m.blobStartOffset + blobBytes types m.elements x :=
    hout.trans (bytesFor_eq hsize)
  have hlt : m.blobStartOffset + blobBytes types m.elements x < 2 ^ 32 := hsize
  have hoff : m.blobStartOffset % 2 ^ 32 = m.blobStartOffset := Nat.mod_eq_of_lt (by omega)
  obtain ⟨w, hw, hwrites, hdecode⟩ :=
    serializeElements_ok hcustom x (w := m.writer out) m.range_size m.tiles hstart hlen.ge hlt
  have hwlen : w.out.length = out.length := hwrites.length_out
  refine ⟨w, ?_, hwrites, ?_⟩
  · rw [MessageStruct.serialize, hoff]
    exact hw
  · rw [MessageStruct.deserialize, if_neg (by omega), subspanFrom, subspan_of_le (by omega),
      ok_bind]
    exact hdecode

/-- The slots, the padding and the blobs of a written message lie end to end. -/
theorem MessageStruct.tiles_of_writes {out : List UInt8} {w : Writer} {size : ℕ}
    (h : Writes (m.writer out) w (m.elements.map Element.range) size) :
    Tiles 0 (w.slots ++ m.padding :: w.blobs) (m.blobStartOffset + size) := by
  obtain ⟨blobs, hblobs, htiles⟩ := h.blobs_eq
  have hslots : w.slots = m.elements.map Element.range := h.slots_eq
  have hlimit : w.blobOff = m.blobStartOffset + size := h.blobOff_eq
  rw [hslots, hblobs, ← hlimit]
  refine m.tiles.append ⟨rfl, ?_⟩
  rw [m.limit_padding]
  exact htiles

end Messages

/-- The round trip. In a buffer of exactly `bytesFor` bytes the encoder stays inside, succeeds, and
leaves a message that the decoder turns back into the value. The slots, the padding and the blobs
lie end to end and fill the buffer; the padding keeps the bytes it had. -/
theorem deserialize_serialize (types : CustomTypes)
    (hcustom : ∀ typeName, (types typeName).RoundTrips) (args : List Argument)
    (x : (serWriteArgs args).Value types) (hsize : (serWriteArgs args).encodedSize x < 2 ^ 32)
    (out : List UInt8) (hout : out.length = (serWriteArgs args).bytesFor x) :
    ∃ w, (serWriteArgs args).serialize out x = .ok (true, w) ∧
      w.out.length = out.length ∧
      w.slots = (serWriteArgs args).elements.map Element.range ∧
      Tiles 0 (w.slots ++ (serWriteArgs args).padding :: w.blobs)
        ((serWriteArgs args).bytesFor x) ∧
      (w.slots ++ (serWriteArgs args).padding :: w.blobs).Pairwise Range.Disjoint ∧
      slice w.out (serWriteArgs args).padding = slice out (serWriteArgs args).padding ∧
      (serWriteArgs args).deserialize types w.out = .ok x := by
  obtain ⟨w, hw, hwrites, hdecode⟩ := MessageStruct.serialize_ok hcustom hsize hout
  have htiles := MessageStruct.tiles_of_writes hwrites
  rw [← MessageStruct.bytesFor_eq hsize] at htiles
  refine ⟨w, hw, hwrites.length_out, hwrites.slots_eq, htiles, htiles.pairwise_disjoint, ?_,
    hdecode⟩
  refine hwrites.frame _ (fun s hs => Or.inr ?_) (Or.inl ?_)
  · exact (serWriteArgs args).tiles.le_limit hs
  · exact (serWriteArgs args).limit_padding.le

/-- A flag, a name and a list of bytes, as the arguments of a method. -/
def mixedArgs : List Argument := [.bool "flag", .string "name", .blob "data"]

/-- A value of these arguments, in an interface whose custom types are all strings. -/
def mixedValue : (serWriteArgs mixedArgs).Value fun _ => stringCodec :=
  (⟨[1], rfl⟩, [0x68, 0x69], [7, 8, 9], ())

/-- It takes 29 bytes, with the data of the blobs from offset 24 on. -/
theorem deserialize_serialize_mixed :
    ∃ w, (serWriteArgs mixedArgs).serialize (List.replicate 29 0xff) mixedValue = .ok (true, w) ∧
      w.out.length = 29 ∧
      w.slots = [⟨0, 1⟩, ⟨1, 8⟩, ⟨9, 8⟩] ∧
      Tiles 0 (w.slots ++ ⟨17, 7⟩ :: w.blobs) 29 ∧
      (w.slots ++ ⟨17, 7⟩ :: w.blobs).Pairwise Range.Disjoint ∧
      slice w.out ⟨17, 7⟩ = List.replicate 7 0xff ∧
      (serWriteArgs mixedArgs).deserialize (fun _ => stringCodec) w.out = .ok mixedValue :=
  deserialize_serialize (fun _ => stringCodec) (fun _ => stringCodec_roundTrips) mixedArgs
    mixedValue (by decide) (List.replicate 29 0xff) (by decide)

end KushOs.Idl
