import KushOs.Idl.Interface

/-!
# The generated serializers

`CodeGenerator::serWriteSerializers` emits `bytesFor`, `serialize` and `deserialize` for each
message structure. The data of a blob is written and read by the overloads of its own type: the
ones for strings and vectors are part of the generated header, the ones of a custom type belong to
the user and are a parameter here.

A span is the list of its bytes. Every `subspan` and every `memcpy` is checked, so that a function
which leaves its span stops with the range that it asked for.
-/

namespace KushOs.Idl

open ByteBuffer

section Spans

/-- Why a generated function stopped before its end. -/
inductive Stop
  /-- It returned `false`. -/
  | returnsFalse
  /-- It formed this range, which is not inside the span at hand. -/
  | outside (range : Range)
  deriving DecidableEq, Repr

/-- `span.subspan(offset, count)` -/
def subspan (span : List UInt8) (offset count : ℕ) : Except Stop (List UInt8) :=
  if offset ≤ span.length ∧ count ≤ span.length - offset then
    .ok (slice span ⟨offset, count⟩)
  else
    .error (.outside ⟨offset, count⟩)

/-- `span.subspan(offset)` -/
def subspanFrom (span : List UInt8) (offset : ℕ) : Except Stop (List UInt8) :=
  subspan span offset (span.length - offset)

/-- The `count` bytes that a `memcpy` reads at `offset` of its source. -/
def load (src : List UInt8) (offset count : ℕ) : Except Stop (List UInt8) :=
  subspan src offset count

/-- A `memcpy` of `src` to `offset` of the subspan `range` of `out`. -/
def store (out : List UInt8) (range : Range) (offset : ℕ) (src : List UInt8) :
    Except Stop (List UInt8) :=
  if offset + src.length ≤ range.size then
    .ok (overwrite out (range.offset + offset) src)
  else
    .error (.outside ⟨range.offset + offset, src.length⟩)

/-- A step that succeeds goes on. -/
@[simp]
theorem ok_bind {ε α β : Type} (a : α) (f : α → Except ε β) : (Except.ok a >>= f) = f a := rfl

/-- A step that goes wrong does not go on. -/
@[simp]
theorem error_bind {ε α β : Type} (e : ε) (f : α → Except ε β) :
    (Except.error e >>= f) = .error e := rfl

/-- A part inside of a span can be taken. -/
theorem subspan_of_le {span : List UInt8} {offset count : ℕ} (h : offset + count ≤ span.length) :
    subspan span offset count = .ok (slice span ⟨offset, count⟩) := by
  have hoffset : offset ≤ span.length := by omega
  have hcount : count ≤ span.length - offset := by omega
  rw [subspan, if_pos ⟨hoffset, hcount⟩]

/-- A part that reaches past the end of a span cannot be taken. -/
theorem subspan_of_lt {span : List UInt8} {offset count : ℕ} (h : span.length < offset + count) :
    subspan span offset count = .error (.outside ⟨offset, count⟩) := by
  rw [subspan, if_neg (by omega)]

/-- A part inside of the source can be read. -/
theorem load_of_le {src : List UInt8} {offset count : ℕ} (h : offset + count ≤ src.length) :
    load src offset count = .ok (slice src ⟨offset, count⟩) :=
  subspan_of_le h

/-- A part inside of the destination can be written. -/
theorem store_of_le {out src : List UInt8} {range : Range} {offset : ℕ}
    (h : offset + src.length ≤ range.size) :
    store out range offset src = .ok (overwrite out (range.offset + offset) src) :=
  if_pos h

end Spans

section Types

/-- The overloads of `bytesFor`, `serialize` and `deserialize` for a type that is encoded as a
blob. They work on the bytes of the span they are given and nothing else: the decoder is a function
of those bytes, and the encoder changes them in place. -/
structure Codec where
  Value : Type
  bytesFor : Value → ℕ
  serialize : List UInt8 → Value → Except Stop (Bool × List UInt8)
  deserialize : List UInt8 → Option Value
  length_serialize : ∀ {out v r}, serialize out v = .ok r → r.2.length = out.length

/-- `serialize` for `std::string`. -/
def serializeString (out str : List UInt8) : Except Stop (Bool × List UInt8) :=
  if str.isEmpty then .ok (true, out)
  else if out.length < str.length then .ok (false, out)
  else .ok (true, overwrite out 0 str)

/-- `deserialize` for `std::string`. -/
def deserializeString (input : List UInt8) : Option (List UInt8) :=
  if input.isEmpty then some [] else some input

/-- The encoder of a string keeps the length of the buffer. -/
theorem length_serializeString {out str : List UInt8} {r : Bool × List UInt8}
    (h : serializeString out str = .ok r) : r.2.length = out.length := by
  unfold serializeString at h
  split at h
  · cases h; rfl
  split at h
  · cases h; rfl
  · cases h; exact length_overwrite (by omega)

/-- The overloads for `std::string`. -/
def stringCodec : Codec where
  Value := List UInt8
  bytesFor str := str.length
  serialize := serializeString
  deserialize := deserializeString
  length_serialize := length_serializeString

/-- `sizeof(std::byte)`, the element type of the vectors that encode a `blob`. -/
def sizeofByte : ℕ := 1

/-- `serialize` for `std::vector<std::byte>`, which copies as many bytes as the span has, not as
many as the vector has. -/
def serializeVector (out vec : List UInt8) : Except Stop (Bool × List UInt8) :=
  let numBytes := vec.length * sizeofByte
  if out.length < numBytes then .ok (false, out)
  else do
    let src ← load vec 0 out.length
    pure (true, overwrite out 0 src)

/-- `deserialize` for `std::vector<std::byte>`. -/
def deserializeVector (input : List UInt8) : Option (List UInt8) :=
  let elements := input.length / sizeofByte
  some (overwrite (List.replicate elements 0) 0 input)

/-- The encoder of a `blob` keeps the length of the buffer. -/
theorem length_serializeVector {out vec : List UInt8} {r : Bool × List UInt8}
    (h : serializeVector out vec = .ok r) : r.2.length = out.length := by
  simp only [serializeVector] at h
  split at h
  · cases h; rfl
  by_cases hload : 0 + out.length ≤ vec.length
  · rw [load_of_le hload] at h
    cases h
    have hlen : (slice vec ⟨0, out.length⟩).length = out.length := length_slice hload
    exact length_overwrite (by rw [hlen, Nat.zero_add])
  · rw [load, subspan_of_lt (by omega)] at h
    cases h

/-- The overloads for `std::vector<std::byte>`. -/
def vectorCodec : Codec where
  Value := List UInt8
  bytesFor vec := vec.length * sizeofByte
  serialize := serializeVector
  deserialize := deserializeVector
  length_serialize := length_serializeVector

/-- The overloads that the user provides for the custom types of the interface. -/
abbrev CustomTypes := String → Codec

/-- The bytes of a variable of a primitive type of the given size. -/
structure Scalar (size : ℕ) where
  image : List UInt8
  length_image : image.length = size
  deriving DecidableEq

/-- How an argument is encoded: in its slot, or as a blob that its slot points to. -/
inductive Encoding
  | scalar (size : ℕ)
  | blob (codec : Codec)

/-- The encoding of a type, which is a blob where `IsBlob` says so. It also fixes the C++ type of
the member. -/
def ArgumentType.encoding (types : CustomTypes) : ArgumentType → Encoding
  | .primitive p => .scalar p.wireSize
  | .string => .blob stringCodec
  | .blob => .blob vectorCodec
  | .custom typeName => .blob (types typeName)

namespace Encoding

/-- The values of a member. -/
def Value : Encoding → Type
  | .scalar size => Scalar size
  | .blob codec => codec.Value

/-- The size of the slot. -/
def wireSize : Encoding → ℕ
  | .scalar size => size
  | .blob _ => 8

end Encoding

/-- Both generators give an argument the same number of bytes. -/
@[simp]
theorem ArgumentType.wireSize_encoding (types : CustomTypes) (t : ArgumentType) :
    (t.encoding types).wireSize = t.wireSize := by
  cases t <;> rfl

variable (types : CustomTypes)

/-- The encoding of a member of a message. -/
abbrev Element.encoding (e : Element) : Encoding := e.argument.type.encoding types

/-- The values of a list of members. -/
def Values : List Element → Type
  | [] => Unit
  | e :: es => (e.encoding types).Value × Values es

/-- The values of a message structure. -/
abbrev MessageStruct.Value (m : MessageStruct) : Type := Values types m.elements

end Types

section BytesFor

/-- The bytes of the blob of one member. -/
def Encoding.blobBytes : (enc : Encoding) → enc.Value → ℕ
  | .scalar _, _ => 0
  | .blob codec, v => codec.bytesFor v

/-- The bytes of all blobs of a list of members. -/
def blobBytes (types : CustomTypes) : (es : List Element) → Values types es → ℕ
  | [], _ => 0
  | e :: es, x => (e.encoding types).blobBytes x.1 + blobBytes types es x.2

namespace MessageStruct

variable {types : CustomTypes}

/-- The size of the encoding of a message. -/
def encodedSize (m : MessageStruct) (x : m.Value types) : ℕ :=
  m.blobStartOffset + blobBytes types m.elements x

/-- The generated `bytesFor`, which counts in a `size_t`. -/
def bytesFor (m : MessageStruct) (x : m.Value types) : ℕ := m.encodedSize x % 2 ^ 64

end MessageStruct

end BytesFor

section Serialize

/-- The state of `serialize`: the contents of its span, the place of the next blob, and the ranges
that it has written, those of the slots apart from those of the blobs. -/
structure Writer where
  out : List UInt8
  blobOff : ℕ
  slots : List Range
  blobs : List Range

/-- The two copies that write the pointer to a blob into its slot. -/
def storePointer (out : List UInt8) (range : Range) (blobDataOffset blobSz : ℕ) :
    Except Stop (List UInt8) := do
  let out ← store out range 0 (toLittleEndian 4 blobDataOffset)
  store out range 4 (toLittleEndian 4 blobSz)

/-- The block of `serialize` for a primitive member. -/
def serializeScalar (range : Range) {size : ℕ} (v : Scalar size) (w : Writer) :
    Except Stop (Bool × Writer) := do
  let _ ← subspan w.out range.offset range.size
  let src ← load v.image 0 range.size
  let out ← store w.out range 0 src
  pure (true, { w with out, slots := w.slots ++ [range] })

/-- The block of `serialize` for a member that is encoded as a blob. -/
def serializeBlob (range : Range) (codec : Codec) (v : codec.Value) (w : Writer) :
    Except Stop (Bool × Writer) := do
  let _ ← subspan w.out range.offset range.size
  let blobSz := codec.bytesFor v % 2 ^ 32
  let blobDataOffset := w.blobOff
  let blobRange ← subspan w.out blobDataOffset blobSz
  let written ← codec.serialize blobRange v
  let out := overwrite w.out blobDataOffset written.2
  if written.1 then
    let out ← storePointer out range blobDataOffset blobSz
    pure (true,
      { out
        blobOff := (w.blobOff + blobSz) % 2 ^ 32
        slots := w.slots ++ [range]
        blobs := w.blobs ++ [⟨blobDataOffset, blobSz⟩] })
  else
    pure (false, { w with out })

/-- The block of `serialize` for one member, whose slot is `range`. -/
def Encoding.serialize (range : Range) :
    (enc : Encoding) → enc.Value → Writer → Except Stop (Bool × Writer)
  | .scalar _, v, w => serializeScalar range v w
  | .blob codec, v, w => serializeBlob range codec v w

/-- The blocks of `serialize` from a member on. -/
def serializeElements (types : CustomTypes) :
    (es : List Element) → Values types es → Writer → Except Stop (Bool × Writer)
  | [], _, w => pure (true, w)
  | e :: es, x, w => do
    let r ← (e.encoding types).serialize e.range x.1 w
    if r.1 then serializeElements types es x.2 r.2 else pure (false, r.2)

/-- The generated `serialize`. -/
def MessageStruct.serialize {types : CustomTypes} (m : MessageStruct) (out : List UInt8)
    (x : m.Value types) : Except Stop (Bool × Writer) :=
  serializeElements types m.elements x
    { out, blobOff := m.blobStartOffset % 2 ^ 32, slots := [], blobs := [] }

end Serialize

section Deserialize

/-- The start of each block of `deserialize`: the slot of the member, checked. -/
def readSlot (input : List UInt8) (range : Range) : Except Stop (List UInt8) := do
  let slot ← subspan input range.offset range.size
  if slot.isEmpty || slot.length != range.size then throw .returnsFalse else pure slot

/-- The pointer to a blob that a slot holds: its offset, then its length. -/
def blobPointer (input : List UInt8) (slot : Range) : Range :=
  ⟨ofLittleEndian (slice input ⟨slot.offset, 4⟩), ofLittleEndian (slice input ⟨slot.offset + 4, 4⟩)⟩

/-- The block of `deserialize` for one member, whose slot is `range`. -/
def Encoding.deserialize (input : List UInt8) (range : Range) :
    (enc : Encoding) → Except Stop enc.Value
  | .scalar size => do
    let slot ← readSlot input range
    -- the variable has the size of its slot; a longer copy would leave the variable
    if h : slot.length = size then pure ⟨slot, h⟩ else throw (.outside ⟨0, slot.length⟩)
  | .blob codec => do
    let slot ← readSlot input range
    let blobDataOffset ← load slot 0 4
    let blobSz ← load slot 4 4
    let blobRange ← subspan input (ofLittleEndian blobDataOffset) (ofLittleEndian blobSz)
    match codec.deserialize blobRange with
    | none => throw .returnsFalse
    | some v => pure v

/-- The blocks of `deserialize` from a member on. -/
def deserializeElements (types : CustomTypes) (input : List UInt8) :
    (es : List Element) → Except Stop (Values types es)
  | [] => pure ()
  | e :: es => do
    let v ← (e.encoding types).deserialize input e.range
    let vs ← deserializeElements types input es
    pure (v, vs)

/-- The generated `deserialize`. -/
def MessageStruct.deserialize (types : CustomTypes) (m : MessageStruct) (input : List UInt8) :
    Except Stop (m.Value types) := do
  if input.length < m.scalarBytes then
    throw .returnsFalse
  else
    let _ ← subspanFrom input m.blobStartOffset
    deserializeElements types input m.elements

variable {input : List UInt8} {range : Range}

/-- A slot inside the input is read as it stands. -/
theorem readSlot_of_le (hfit : range.limit ≤ input.length) (hpos : 0 < range.size) :
    readSlot input range = .ok (slice input range) := by
  have hlen : (slice input range).length = range.size := length_slice hfit
  have hne : (slice input range).isEmpty = false := by
    rw [List.isEmpty_eq_false_iff, ← List.length_pos_iff]
    omega
  rw [readSlot, subspan_of_le hfit, ok_bind]
  simp [hlen, hne]
  rfl

/-- The slot of a primitive member is copied. -/
theorem deserialize_scalar {size : ℕ} (hfit : range.limit ≤ input.length)
    (hpos : 0 < range.size) (hsize : range.size = size) :
    (Encoding.scalar size).deserialize input range =
      .ok ⟨slice input range, (length_slice hfit).trans hsize⟩ := by
  rw [Encoding.deserialize, readSlot_of_le hfit hpos, ok_bind,
    dif_pos ((length_slice hfit).trans hsize)]
  rfl

/-- The slot of a blob is read as a pointer, which is followed without a check. -/
theorem deserialize_blob (codec : Codec) (hfit : range.limit ≤ input.length)
    (hsize : range.size = 8) :
    (Encoding.blob codec).deserialize input range =
      (subspan input (blobPointer input range).offset (blobPointer input range).size >>= fun b =>
        match codec.deserialize b with
        | none => .error .returnsFalse
        | some v => .ok v) := by
  have hlen : (slice input range).length = 8 := (length_slice hfit).trans hsize
  have hoffset : slice (slice input range) ⟨0, 4⟩ = slice input ⟨range.offset, 4⟩ :=
    slice_slice (by simp [hsize])
  have hcount : slice (slice input range) ⟨4, 4⟩ = slice input ⟨range.offset + 4, 4⟩ :=
    slice_slice (by simp [hsize])
  rw [Encoding.deserialize, readSlot_of_le hfit (by omega), ok_bind, load_of_le (by omega), ok_bind,
    load_of_le (by omega), ok_bind, hoffset, hcount]
  rfl

end Deserialize

end KushOs.Idl
