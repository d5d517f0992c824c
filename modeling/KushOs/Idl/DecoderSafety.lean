import KushOs.Idl.Serialization

/-!
# The decoder on bytes from the peer

The generated `deserialize` compares the size of its input with `kScalarBytes`, then forms the
blob region at `kBlobStartOffset` and follows each blob pointer of the message as it stands.
Neither the start of the blob region nor a pointer is compared with the size of the input.
`deserialize_safe_iff` says exactly on which inputs the decoder stays inside them.
-/

namespace KushOs.Idl

open ByteBuffer

variable (types : CustomTypes) (input : List UInt8)

section Pointers

namespace Encoding

variable (range : Range)

/-- If the member is a blob, the pointer in its slot names a range of the input. -/
def PointerFits : Encoding → Prop
  | .scalar _ => True
  | .blob _ => (blobPointer input range).limit ≤ input.length

/-- If the member is a blob, the decoder of its type accepts the bytes that the pointer names. -/
def Accepted : Encoding → Prop
  | .scalar _ => True
  | .blob codec => (codec.deserialize (slice input (blobPointer input range))).isSome = true

end Encoding

/-- The pointer of the member, if it is a blob, names a range of the input. -/
def Element.PointerFits (e : Element) : Prop := (e.encoding types).PointerFits input e.range

/-- The blob of the member, if it is one, is accepted by the decoder of its type. -/
def Element.Accepted (e : Element) : Prop := (e.encoding types).Accepted input e.range

/-- The pointers fit that the decoder gets to: those of the members up to the first blob which the
decoder of its type rejects. -/
def PointersFit (es : List Element) : Prop :=
  ∀ before e after, es = before ++ e :: after →
    (∀ b ∈ before, b.Accepted types input) → e.PointerFits types input

/-- All slots lie inside the input. -/
def FieldsFit (m : MessageStruct) : Prop := ∀ e ∈ m.elements, e.range.limit ≤ input.length

/-- The decoder forms and copies ranges of its input only, and returns `false` when a slot or a
pointer does not fit. -/
structure DecoderSafe (m : MessageStruct) : Prop where
  inside : ∀ range, m.deserialize types input ≠ .error (.outside range)
  field : ¬ FieldsFit input m → m.deserialize types input = .error .returnsFalse
  pointer : FieldsFit input m → ∀ e ∈ m.elements, ¬ e.PointerFits types input →
    m.deserialize types input = .error .returnsFalse

variable {types input}

/-- The first pointer is reached; the others are if the first blob is accepted. -/
theorem pointersFit_cons {e : Element} {es : List Element} :
    PointersFit types input (e :: es) ↔
      e.PointerFits types input ∧ (e.Accepted types input → PointersFit types input es) := by
  constructor
  · intro h
    refine ⟨h [] e es rfl (by simp), fun hacc before e' after hes hbefore => ?_⟩
    refine h (e :: before) e' after (by rw [hes]; rfl) fun b hb => ?_
    rcases List.mem_cons.1 hb with rfl | hb
    · exact hacc
    · exact hbefore b hb
  · rintro ⟨hhead, htail⟩ before e' after hes hbefore
    cases before with
    | nil =>
      obtain ⟨rfl, -⟩ := List.cons.inj hes
      exact hhead
    | cons b before =>
      obtain ⟨rfl, hes'⟩ := List.cons.inj hes
      exact htail (hbefore e List.mem_cons_self) before e' after hes'
        fun b hb => hbefore b (List.mem_cons_of_mem e hb)

end Pointers

section Elements

variable {types input} {range : Range}

/-- What the block of one member can do, once its slot is inside the input: return the value,
reject the blob, or follow a pointer that leaves the input. -/
theorem Encoding.deserialize_cases (enc : Encoding) (hfit : range.limit ≤ input.length)
    (hpos : 0 < range.size) (hsize : range.size = enc.wireSize) :
    (enc.PointerFits input range ∧ enc.Accepted input range ∧
        ∃ v, enc.deserialize input range = .ok v) ∨
      (enc.PointerFits input range ∧ ¬ enc.Accepted input range ∧
        enc.deserialize input range = .error .returnsFalse) ∨
      (¬ enc.PointerFits input range ∧
        enc.deserialize input range = .error (.outside (blobPointer input range))) := by
  cases enc with
  | scalar size => exact Or.inl ⟨trivial, trivial, _, deserialize_scalar hfit hpos hsize⟩
  | blob codec =>
    rw [deserialize_blob codec hfit hsize]
    by_cases hptr : (blobPointer input range).limit ≤ input.length
    · rw [subspan_of_le hptr, ok_bind]
      cases hdec : codec.deserialize (slice input (blobPointer input range)) with
      | none => exact Or.inr (Or.inl ⟨hptr, by simp [Accepted, hdec], rfl⟩)
      | some v => exact Or.inl ⟨hptr, by simp [Accepted, hdec], v, rfl⟩
    · -- the subspan is formed from the bytes of the message as they are
      rw [subspan_of_lt (not_le.1 hptr), error_bind]
      exact Or.inr (Or.inr ⟨hptr, rfl⟩)

/-- The same for a member of a message. -/
theorem Element.deserialize_cases {e : Element} (hfit : e.range.limit ≤ input.length)
    (hsize : e.range.size = e.argument.type.wireSize) :
    (e.PointerFits types input ∧ e.Accepted types input ∧
        ∃ v, (e.encoding types).deserialize input e.range = .ok v) ∨
      (e.PointerFits types input ∧ ¬ e.Accepted types input ∧
        (e.encoding types).deserialize input e.range = .error .returnsFalse) ∨
      (¬ e.PointerFits types input ∧
        (e.encoding types).deserialize input e.range =
          .error (.outside (blobPointer input e.range))) := by
  have hpos : 0 < e.range.size := hsize ▸ e.argument.type.wireSize_pos
  exact (e.encoding types).deserialize_cases hfit hpos
    (hsize.trans (ArgumentType.wireSize_encoding types _).symm)

variable {es : List Element}

/-- The loop over the members leaves the input exactly when it gets to a pointer that does. -/
theorem deserializeElements_inside_iff (hfit : ∀ e ∈ es, e.range.limit ≤ input.length)
    (hsize : ∀ e ∈ es, e.range.size = e.argument.type.wireSize) :
    (∀ range, deserializeElements types input es ≠ .error (.outside range)) ↔
      PointersFit types input es := by
  induction es with
  | nil =>
    refine iff_of_true (fun range h => by cases h) fun before e after hes _ => ?_
    cases before <;> cases hes
  | cons e es ih =>
    have ih := ih (fun b hb => hfit b (List.mem_cons_of_mem e hb))
      fun b hb => hsize b (List.mem_cons_of_mem e hb)
    rw [pointersFit_cons, deserializeElements]
    rcases e.deserialize_cases (hfit e List.mem_cons_self) (hsize e List.mem_cons_self) with
      ⟨hptr, hacc, v, hv⟩ | ⟨hptr, hacc, hv⟩ | ⟨hptr, hv⟩
    · rw [hv, ok_bind, iff_true_intro hptr, true_and, forall_prop_of_true hacc, ← ih]
      cases deserializeElements types input es with
      | error stop => simp only [error_bind, ne_eq, Except.error.injEq]
      | ok vs => exact iff_of_true (fun range h => by cases h) (fun range h => by cases h)
    · rw [hv, error_bind]
      exact iff_of_true (fun range h => by cases h) ⟨hptr, fun h => absurd h hacc⟩
    · rw [hv, error_bind]
      exact iff_of_false (fun h => h _ rfl) fun h => hptr h.1

/-- A pointer that does not fit is never followed on the way to a value: if the loop stays inside
the input, it has returned `false` before. -/
theorem deserializeElements_of_not_pointerFits (hfit : ∀ e ∈ es, e.range.limit ≤ input.length)
    (hsize : ∀ e ∈ es, e.range.size = e.argument.type.wireSize)
    (hptrs : PointersFit types input es) {e : Element} (he : e ∈ es)
    (hnot : ¬ e.PointerFits types input) :
    deserializeElements types input es = .error .returnsFalse := by
  induction es with
  | nil => cases he
  | cons b es ih =>
    have ih := ih (fun c hc => hfit c (List.mem_cons_of_mem b hc))
      fun c hc => hsize c (List.mem_cons_of_mem b hc)
    obtain ⟨hhead, htail⟩ := pointersFit_cons.1 hptrs
    rw [deserializeElements]
    rcases b.deserialize_cases (hfit b List.mem_cons_self) (hsize b List.mem_cons_self) with
      ⟨-, hacc, v, hv⟩ | ⟨-, -, hv⟩ | ⟨hptr, -⟩
    · have hmem : e ∈ es := (List.mem_cons.1 he).resolve_left fun heq => hnot (heq ▸ hhead)
      rw [hv, ok_bind, ih (htail hacc) hmem, error_bind]
    · rw [hv, error_bind]
    · exact absurd hhead hptr

end Elements

section Messages

variable {input}

/-- The slots fit exactly when the message has all the scalar bytes. -/
theorem fieldsFit_of_le {m : MessageStruct} (h : m.scalarBytes ≤ input.length) :
    FieldsFit input m :=
  fun _ he => (m.limit_le_scalarBytes he).trans h

theorem MessageStruct.deserialize_of_lt {m : MessageStruct} (h : input.length < m.scalarBytes) :
    m.deserialize types input = .error .returnsFalse :=
  if_pos h

/-- With all scalar bytes there, the blob region is formed whether or not its start is in the
input. -/
theorem MessageStruct.deserialize_of_le {m : MessageStruct} (h : m.scalarBytes ≤ input.length) :
    m.deserialize types input =
      if m.blobStartOffset ≤ input.length then deserializeElements types input m.elements
      else .error (.outside ⟨m.blobStartOffset, input.length - m.blobStartOffset⟩) := by
  rw [MessageStruct.deserialize, if_neg (not_lt.2 h), subspanFrom]
  by_cases hstart : m.blobStartOffset ≤ input.length
  · rw [if_pos hstart, subspan_of_le (by omega), ok_bind]
  · rw [if_neg hstart, subspan_of_lt (by omega), error_bind]

end Messages

/-- The generated decoder is safe exactly on the messages that lack scalar bytes, and on those that
reach to the blob region and whose pointers, as far as the decoder gets, fit. -/
theorem deserialize_safe_iff (types : CustomTypes) (args : List Argument) (input : List UInt8) :
    DecoderSafe types input (serWriteArgs args) ↔
      input.length < (serWriteArgs args).scalarBytes ∨
        ((serWriteArgs args).blobStartOffset ≤ input.length ∧
          PointersFit types input (serWriteArgs args).elements) := by
  set m := serWriteArgs args
  rcases lt_or_ge input.length m.scalarBytes with hlt | hle
  · -- the test at the start of the decoder catches these
    have hfalse := MessageStruct.deserialize_of_lt types hlt
    refine iff_of_true ⟨fun range h => ?_, fun _ => hfalse, fun _ _ _ _ => hfalse⟩ (Or.inl hlt)
    rw [hfalse] at h
    cases h
  have hfit : FieldsFit input m := fieldsFit_of_le hle
  have hrun := MessageStruct.deserialize_of_le types hle
  constructor
  · intro hsafe
    refine Or.inr ?_
    by_cases hstart : m.blobStartOffset ≤ input.length
    · rw [if_pos hstart] at hrun
      exact ⟨hstart, (deserializeElements_inside_iff hfit m.range_size).1
        fun range => hrun ▸ hsafe.inside range⟩
    · rw [if_neg hstart] at hrun
      exact absurd hrun (hsafe.inside _)
  · rintro (hlt | ⟨hstart, hptrs⟩)
    · exact absurd hle (not_le.2 hlt)
    rw [if_pos hstart] at hrun
    refine ⟨fun range => ?_, fun h => absurd hfit h, fun _ e he hnot => ?_⟩
    · rw [hrun]
      exact (deserializeElements_inside_iff hfit m.range_size).2 hptrs range
    · rw [hrun]
      exact deserializeElements_of_not_pointerFits hfit m.range_size hptrs he hnot

/-- Two messages on which the decoder leaves its input. A message of one `bool` is complete after
one byte, but the blob region starts at offset 8. A message of one string may point anywhere, here
to the 256 bytes behind its own 8. -/
theorem deserialize_not_safe :
    ¬ DecoderSafe (fun _ => stringCodec) [1] (serWriteArgs [.bool "flag"]) ∧
      ¬ DecoderSafe (fun _ => stringCodec) [8, 0, 0, 0, 0, 1, 0, 0]
        (serWriteArgs [.string "name"]) :=
  ⟨fun h => h.inside ⟨8, 0⟩ rfl, fun h => h.inside ⟨8, 256⟩ rfl⟩

end KushOs.Idl
