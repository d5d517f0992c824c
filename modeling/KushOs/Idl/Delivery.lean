import KushOs.Idl.RoundTrip
import KushOs.Idl.Stubs

/-!
# One call, one request, one reply

What the generated stubs do with a single message. A request that the client has built is taken by
the server for what it is: the same method and the same arguments. The reply to it is taken by the
client for the value that the implementation returned.
-/

namespace KushOs.Idl

open ByteBuffer

section Headers

/-- A buffer that starts with the bytes of a header is read as that header. -/
theorem MessageHeader.ofBytes_of_slice {buf : List UInt8} {hdr : MessageHeader}
    (h : slice buf ⟨0, MessageHeader.size⟩ = hdr.bytes) : MessageHeader.ofBytes buf = hdr := by
  have htype : slice buf ⟨0, 8⟩ = toLittleEndian 8 hdr.type.toNat := by
    have hin : slice (slice buf ⟨0, MessageHeader.size⟩) ⟨0, 8⟩ = slice buf ⟨0, 8⟩ :=
      slice_slice (by decide)
    rw [← hin, h, bytes, slice_append_left (by simp), slice_self (length_toLittleEndian _ _)]
  have hflags : slice buf ⟨8, 4⟩ = toLittleEndian 4 hdr.flags.toNat := by
    have hin : slice (slice buf ⟨0, MessageHeader.size⟩) ⟨8, 4⟩ = slice buf ⟨8, 4⟩ :=
      slice_slice (by decide)
    rw [← hin, h, bytes, slice_append_right (by simp), length_toLittleEndian,
      slice_append_left (by simp), slice_self (length_toLittleEndian _ _)]
  have htag : slice buf ⟨12, 4⟩ = toLittleEndian 4 hdr.tag.toNat := by
    have hin : slice (slice buf ⟨0, MessageHeader.size⟩) ⟨12, 4⟩ = slice buf ⟨12, 4⟩ :=
      slice_slice (by decide)
    rw [← hin, h, bytes, slice_append_right (by simp), length_toLittleEndian,
      slice_append_right (by simp), length_toLittleEndian, slice_self (length_toLittleEndian _ _)]
  rw [ofBytes, htype, hflags, htag, ofLittleEndian_toLittleEndian_of_lt hdr.type.toNat_lt,
    ofLittleEndian_toLittleEndian_of_lt hdr.flags.toNat_lt,
    ofLittleEndian_toLittleEndian_of_lt hdr.tag.toNat_lt, UInt64.ofNat_toNat, UInt32.ofNat_toNat,
    UInt32.ofNat_toNat]

@[simp]
theorem MessageHeader.length_bytes (hdr : MessageHeader) :
    hdr.bytes.length = MessageHeader.size := by
  simp [bytes]

/-- The payload of a message is what follows its header. -/
theorem subspanFrom_header {buf : List UInt8} (h : MessageHeader.size ≤ buf.length) :
    subspanFrom buf MessageHeader.size =
      .ok (slice buf ⟨MessageHeader.size, buf.length - MessageHeader.size⟩) :=
  subspan_of_le (by omega)

end Headers

section Buffers

theorem le_length_ensureTxBuf (fill : ℕ → UInt8) (payloadBytes : ℕ) (txBuf : List UInt8) :
    MessageHeader.size + payloadBytes ≤ (ensureTxBuf fill payloadBytes txBuf).length := by
  simp only [ensureTxBuf]
  split
  · rw [List.length_map, List.length_range]
    exact Nat.le_add_right _ _
  · omega

/-- The buffer is a message with the given header whose payload decodes to `x`. -/
structure Carries (types : CustomTypes) (hdr : MessageHeader) (m : MessageStruct)
    (x : m.Value types) (buf : List UInt8) : Prop where
  length_le : MessageHeader.size ≤ buf.length
  header : MessageHeader.ofBytes buf = hdr
  payload : ∃ payload, subspanFrom buf MessageHeader.size = .ok payload ∧
    m.deserialize types payload = .ok x

variable {types : CustomTypes} {m : MessageStruct}

/-- Both stubs build a message the same way, and it carries what was put in, whatever the buffer
held before. -/
theorem carries_of_build (hcustom : ∀ typeName, (types typeName).RoundTrips) {x : m.Value types}
    (hsize : m.encodedSize x < 2 ^ 32) (fill : ℕ → UInt8) (old : List UInt8)
    (hdr : MessageHeader) :
    ∃ data w,
      subspan (ensureTxBuf fill (m.bytesFor x) old) MessageHeader.size (m.bytesFor x) = .ok data ∧
      m.serialize data x = .ok (true, w) ∧
      Carries types hdr m x
        (fillMessage hdr (m.bytesFor x)
          (overwrite (ensureTxBuf fill (m.bytesFor x) old) MessageHeader.size w.out)).2 := by
  -- what the buffer held does not matter, only that it is large enough
  have hroom := le_length_ensureTxBuf fill (m.bytesFor x) old
  generalize ensureTxBuf fill (m.bytesFor x) old = txBuf at hroom ⊢
  have hspan : (slice txBuf ⟨MessageHeader.size, m.bytesFor x⟩).length = m.bytesFor x :=
    length_slice hroom
  obtain ⟨w, hw, hwrites, hdecode⟩ := MessageStruct.serialize_ok hcustom hsize hspan
  have hwlen : w.out.length = m.bytesFor x := hwrites.length_out.trans hspan
  generalize m.bytesFor x = n at hroom hw hwlen ⊢
  refine ⟨_, w, subspan_of_le hroom, hw, ?_⟩
  -- the payload is written first, and the header in front of it
  set mid := overwrite txBuf MessageHeader.size w.out
  have hmid : mid.length = txBuf.length := length_overwrite (by omega)
  set full := overwrite mid 0 hdr.bytes
  have hfull : full.length = txBuf.length :=
    (length_overwrite (by rw [MessageHeader.length_bytes]; omega)).trans hmid
  have hlen : (slice full ⟨0, MessageHeader.size + n⟩).length = MessageHeader.size + n :=
    length_slice (by rw [Range.limit_mk]; omega)
  have hheader : slice (slice full ⟨0, MessageHeader.size + n⟩) ⟨0, MessageHeader.size⟩ =
      hdr.bytes := by
    rw [slice_slice (by simp)]
    exact slice_overwrite_self (Nat.zero_le _) hdr.length_bytes
  have hpayload : slice (slice full ⟨0, MessageHeader.size + n⟩) ⟨MessageHeader.size, n⟩ =
      w.out := by
    rw [slice_slice (by simp), Nat.zero_add, slice_overwrite_of_disjoint (Nat.zero_le _)]
    · exact slice_overwrite_self (by omega) hwlen
    · exact Or.inr (by simp)
  refine ⟨by rw [fillMessage, hlen]; omega, MessageHeader.ofBytes_of_slice hheader, w.out, ?_,
    hdecode⟩
  rw [fillMessage, subspanFrom, hlen, Nat.add_sub_cancel_left, subspan_of_le (by rw [hlen]),
    hpayload]

end Buffers

section Stubs

variable {types : CustomTypes} {σ : Type} {i : Interface} {m : Method}

/-- The header of a request. -/
def requestHeader (i : Interface) (m : Method) (tag : UInt32) : MessageHeader :=
  ⟨i.typeId m, MessageHeader.flagRequest, tag⟩

/-- The header of the reply to it. -/
def replyHeader (i : Interface) (m : Method) (tag : UInt32) : MessageHeader :=
  ⟨i.typeId m, MessageHeader.flagResponse, tag⟩

/-- A call sends a request with its own tag that carries its arguments. -/
theorem Client.sendCall_ok (hcustom : ∀ typeName, (types typeName).RoundTrips)
    {args : m.request.Value types} (hsize : m.request.encodedSize args < 2 ^ 32)
    (fill : ℕ → UInt8) (c : Client) :
    ∃ r, c.sendCall i m args fill = .ok r ∧
      Carries types (requestHeader i m r.1.1) m.request args r.1.2 := by
  obtain ⟨data, w, hdata, hw, hcarries⟩ :=
    carries_of_build hcustom hsize fill c.txBuf (requestHeader i m (c.nextTag + 1))
  generalize hbuf : ensureTxBuf fill (m.request.bytesFor args) c.txBuf = txBuf at hdata hcarries
  refine ⟨Client.sendRequest ⟨overwrite txBuf MessageHeader.size w.out, c.nextTag⟩ (i.typeId m)
    (m.request.bytesFor args), ?_, hcarries⟩
  simp only [Client.sendCall, hbuf, hdata, hw, ok_bind]
  rfl

/-- The decoder returns the members that the generated one leaves behind. -/
theorem deserializeElements_eq_decodeMembers {input : List UInt8} (es : List Element)
    (x : Values types es) :
    deserializeElements types input es =
      (decodeMembers input es x).2.map fun _ => (decodeMembers input es x).1 := by
  induction es with
  | nil => rfl
  | cons e es ih =>
    rw [deserializeElements, decodeMembers]
    rcases (e.encoding types).deserialize input e.range with stop | v
    · rfl
    · rw [ok_bind, ih x.2]
      change ((decodeMembers input es x.2).2.map _ >>= _) = (decodeMembers input es x.2).2.map _
      rcases (decodeMembers input es x.2).2 with stop | _
      · rfl
      · rfl

theorem MessageStruct.deserialize_eq_decodeInto {input : List UInt8} (m : MessageStruct)
    (x : m.Value types) :
    m.deserialize types input =
      (m.decodeInto input x).2.map fun _ => (m.decodeInto input x).1 := by
  rw [MessageStruct.deserialize, MessageStruct.decodeInto]
  split
  · rfl
  · rcases subspanFrom input m.blobStartOffset with stop | _
    · rfl
    · exact deserializeElements_eq_decodeMembers m.elements x

/-- The texts that the checks of the header hand to `_HandleError`. -/
def headerErrors (i : Interface) (m : Method) (sentTag : UInt32) (hdr : MessageHeader) :
    List String :=
  if hdr.tag != sentTag then ["Invalid tag in reply RPC packet"]
  else report (hdr.type != i.typeId m) "Invalid type in reply RPC packet"

/-- With a whole header, only the decoder can leave the message. -/
theorem takeReply_of_le {sentTag : UInt32} {blank : m.reply.Value types} {buf : List UInt8}
    (h : MessageHeader.size ≤ buf.length) :
    takeReply i m sentTag blank (some buf) =
      decodeReply m (slice buf ⟨MessageHeader.size, buf.length - MessageHeader.size⟩) blank
        (headerErrors i m sentTag (.ofBytes buf)) := by
  have hsize : MessageHeader.size = 16 := rfl
  have htag : load buf 12 4 = .ok (slice buf ⟨12, 4⟩) := load_of_le (by omega)
  have htype : load buf 0 8 = .ok (slice buf ⟨0, 8⟩) := load_of_le (by omega)
  have hpayload := subspanFrom_header h
  have hsmall : report (decide (buf.length < MessageHeader.size)) "Received message too small" =
      [] := by
    rw [report, if_neg (by simpa using h)]
  have hdrTag : UInt32.ofNat (ofLittleEndian (slice buf ⟨12, 4⟩)) =
      (MessageHeader.ofBytes buf).tag := rfl
  have hdrType : UInt64.ofNat (ofLittleEndian (slice buf ⟨0, 8⟩)) =
      (MessageHeader.ofBytes buf).type := rfl
  simp only [takeReply, Option.getD_some, htag, htype, hpayload, hsmall, ok_bind, hdrTag, hdrType,
    headerErrors]
  split
  · rfl
  · rfl

/-- A reply with the tag and the type of the call is taken for the value that its payload carries,
without an error. -/
theorem takeReply_ok {sentTag : UInt32} {blank reply : m.reply.Value types} {buf : List UInt8}
    (hle : MessageHeader.size ≤ buf.length) (htag : (MessageHeader.ofBytes buf).tag = sentTag)
    (htype : (MessageHeader.ofBytes buf).type = i.typeId m)
    (hpayload : ∃ payload, subspanFrom buf MessageHeader.size = .ok payload ∧
      m.reply.deserialize types payload = .ok reply) :
    takeReply i m sentTag blank (some buf) = .ok (returnOfReply m.reply.elements reply, []) := by
  have hheader := subspanFrom_header hle
  obtain ⟨payload, hpayload, hdecode⟩ := hpayload
  cases hheader.symm.trans hpayload
  rw [m.reply.deserialize_eq_decodeInto blank] at hdecode
  have herrors : headerErrors i m sentTag (.ofBytes buf) = [] := by
    simp [headerErrors, report, htag, htype]
  rw [takeReply_of_le hle, herrors, decodeReply]
  rcases hinto : m.reply.decodeInto _ blank with ⟨reply', stop | _⟩
  · rw [hinto] at hdecode
    cases hdecode
  · rw [hinto] at hdecode
    cases hdecode
    rfl

/-- The client takes a reply with its tag for the value that it carries. -/
theorem takeReply_of_carries {tag : UInt32} {blank : m.reply.Value types} {result : m.Return types}
    {buf : List UInt8}
    (h : Carries types (replyHeader i m tag) m.reply (replyOfReturn m.reply.elements result) buf) :
    takeReply i m tag blank (some buf) = .ok (result, []) := by
  have htag : (MessageHeader.ofBytes buf).tag = tag := by rw [h.header]; rfl
  have htype : (MessageHeader.ofBytes buf).type = i.typeId m := by rw [h.header]; rfl
  rw [takeReply_ok h.length_le htag htype h.payload, returnOfReply_replyOfReturn]

theorem Interface.WellNamed.typeId (h : i.WellNamed) (hm : m ∈ i.methods) :
    i.typeId m = m.identifier := by
  rw [Interface.typeId, h.typeOf hm, Option.getD_some]

/-- The switch on the type of a message calls the marshalling function of the method that the
message is for. -/
theorem Interface.WellNamed.dispatch (h : i.WellNamed) (hm : m ∈ i.methods) :
    i.target (i.typeId m) = some m := by
  have hsome : (i.methods.find? fun b => i.typeId b == i.typeId m).isSome :=
    List.find?_isSome.2 ⟨m, hm, beq_self_eq_true _⟩
  obtain ⟨b, hb⟩ := Option.isSome_iff_exists.1 hsome
  have hbmem := List.mem_of_find?_eq_some hb
  have htype : i.typeId b = i.typeId m := by simpa using List.find?_some hb
  rw [h.typeId hbmem, h.typeId hm] at htype
  rw [Interface.target, hb, Option.bind_some, List.inj_on_of_nodup_map h.identifiers hbmem hm htype]
  exact h.methodNamed hm

variable {impl : Implementation types σ} {st : σ} {args : m.request.Value types}
variable {tag : UInt32} {buf : List UInt8}

/-- A request reaches the marshalling function of its method, with the arguments decoded. -/
theorem Server.runOne_eq (hnames : i.WellNamed) (hm : m ∈ i.methods)
    (h : Carries types (requestHeader i m tag) m.request args buf) (impl : Implementation types σ)
    (st : σ) (fill : ℕ → UInt8) (s : Server) :
    ∃ payload, m.request.deserialize types payload = .ok args ∧
      s.runOne i impl buf fill st = s.marshall impl m (requestHeader i m tag) payload fill st := by
  obtain ⟨payload, hpayload, hdecode⟩ := h.payload
  refine ⟨payload, hdecode, ?_⟩
  have htype : (requestHeader i m tag).type = i.typeId m := rfl
  simp only [Server.runOne, if_neg (not_lt.2 h.length_le), hpayload, ok_bind, h.header, htype,
    hnames.dispatch hm]

/-- The reply to a request has the type and the tag of the request, and carries the value that was
returned. -/
theorem Server.marshallReply_ok (hcustom : ∀ typeName, (types typeName).RoundTrips)
    {retVal : m.Return types}
    (hsize : m.reply.encodedSize (replyOfReturn m.reply.elements retVal) < 2 ^ 32)
    (hdr : MessageHeader) (fill : ℕ → UInt8) (s : Server) :
    ∃ reply s', s.marshallReply m hdr retVal fill = .ok (some reply, [], s') ∧
      Carries types ⟨hdr.type, MessageHeader.flagResponse, hdr.tag⟩ m.reply
        (replyOfReturn m.reply.elements retVal) reply := by
  generalize hreply : replyOfReturn m.reply.elements retVal = reply at hsize ⊢
  obtain ⟨data, w, hdata, hw, hcarries⟩ := carries_of_build hcustom hsize fill s.txBuf
    ⟨hdr.type, MessageHeader.flagResponse, hdr.tag⟩
  generalize hbuf : ensureTxBuf fill (m.reply.bytesFor reply) s.txBuf = txBuf at hdata hcarries
  refine ⟨_, (Server.sendReply hdr (m.reply.bytesFor reply)
    ⟨overwrite txBuf MessageHeader.size w.out⟩).2, ?_, hcarries⟩
  simp only [Server.marshallReply, hreply, hbuf, hdata, hw, ok_bind, if_true]
  rfl

/-- The server answers an asynchronous request with the call of the implementation alone. -/
theorem Server.runOne_async (hnames : i.WellNamed) (hm : m ∈ i.methods) (hasync : m.async = true)
    (h : Carries types (requestHeader i m tag) m.request args buf) (fill : ℕ → UInt8) (s : Server) :
    s.runOne i impl buf fill st =
      .ok ⟨true, ⟨some ⟨⟨m, args⟩, (impl st m args).1⟩, none⟩, [], (impl st m args).2, s⟩ := by
  obtain ⟨payload, hdecode, hrun⟩ := runOne_eq hnames hm h impl st fill s
  simp only [hrun, Server.marshall, hdecode, if_pos hasync]
  rfl

/-- The server answers a synchronous request with the call of the implementation and one reply,
which carries the tag of the request and the value that was returned. -/
theorem Server.runOne_sync (hcustom : ∀ typeName, (types typeName).RoundTrips)
    (hnames : i.WellNamed) (hm : m ∈ i.methods) (hsync : m.async = false)
    (hsize : m.reply.encodedSize (replyOfReturn m.reply.elements (impl st m args).1) < 2 ^ 32)
    (h : Carries types (requestHeader i m tag) m.request args buf) (fill : ℕ → UInt8) (s : Server) :
    ∃ reply s', s.runOne i impl buf fill st =
        .ok ⟨true, ⟨some ⟨⟨m, args⟩, (impl st m args).1⟩, some reply⟩, [], (impl st m args).2,
          s'⟩ ∧
      Carries types (replyHeader i m tag) m.reply
        (replyOfReturn m.reply.elements (impl st m args).1) reply := by
  obtain ⟨payload, hdecode, hrun⟩ := runOne_eq hnames hm h impl st fill s
  obtain ⟨reply, s', hreply, hcarries⟩ :=
    marshallReply_ok hcustom hsize (requestHeader i m tag) fill s
  refine ⟨reply, s', ?_, hcarries⟩
  simp only [hrun, Server.marshall, hdecode, hsync, Bool.false_eq_true, if_false, hreply]
  rfl

end Stubs

end KushOs.Idl
