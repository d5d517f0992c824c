import KushOs.Idl.Serialization

/-!
# The generated stubs

`CodeGenerator+Client.cpp` emits a client class whose methods build a request, send it, and wait
for the reply if the method is synchronous. `CodeGenerator+Server.cpp` emits a server class that
reads one request after the other, calls the implementation of the method, and sends the reply.

Both keep the buffer that a message is built up in between calls. A buffer that is too small is
replaced by a new one, with whatever the memory holds; `fill` stands for that. The streams do not
fail, so sending has no error path here.

Both hand texts to `_HandleError` when something is wrong with a message. The generated
`_HandleError` prints its text and returns, so the code behind a reported error is reached.
-/

namespace KushOs.Idl

open ByteBuffer

section Messages

/-- `MessageHeader` -/
structure MessageHeader where
  type : UInt64
  flags : UInt32
  tag : UInt32
  deriving DecidableEq, Repr

namespace MessageHeader

/-- `sizeof(MessageHeader)`, which is the offset of the payload too. -/
abbrev size : ℕ := 16

/-- `MessageHeader::Flags::Request` -/
def flagRequest : UInt32 := (1 : UInt32) <<< 0

/-- `MessageHeader::Flags::Response` -/
def flagResponse : UInt32 := (1 : UInt32) <<< 1

/-- The header in memory. -/
def bytes (hdr : MessageHeader) : List UInt8 :=
  toLittleEndian 8 hdr.type.toNat ++
    (toLittleEndian 4 hdr.flags.toNat ++ toLittleEndian 4 hdr.tag.toNat)

/-- The header that a buffer starts with. -/
def ofBytes (buf : List UInt8) : MessageHeader where
  type := .ofNat (ofLittleEndian (slice buf ⟨0, 8⟩))
  flags := .ofNat (ofLittleEndian (slice buf ⟨8, 4⟩))
  tag := .ofNat (ofLittleEndian (slice buf ⟨12, 4⟩))

end MessageHeader

/-- `_ensureTxBuf`: room for a header, the payload and 16 more bytes. -/
def ensureTxBuf (fill : ℕ → UInt8) (payloadBytes : ℕ) (txBuf : List UInt8) : List UInt8 :=
  let len := MessageHeader.size + payloadBytes + 16
  if txBuf.length < len then (List.range len).map fill else txBuf

/-- The end of `_sendRequest` and of `_sendReply`: the header is filled in, and the message is the
start of the buffer. -/
def fillMessage (hdr : MessageHeader) (payloadBytes : ℕ) (txBuf : List UInt8) :
    List UInt8 × List UInt8 :=
  let len := MessageHeader.size + payloadBytes
  let txBuf := overwrite txBuf 0 hdr.bytes
  (txBuf, slice txBuf ⟨0, len⟩)

/-- The text for `_HandleError` when a check fails. -/
def report (failed : Bool) (what : String) : List String := if failed then [what] else []

end Messages

variable (types : CustomTypes)

section Values

/-- The C++ return type for the members of a reply: `void`, the type of the only one, or a
structure of all of them. -/
def ReturnType : List Element → Type
  | [] => Unit
  | [e] => (e.encoding types).Value
  | e :: e' :: es => Values types (e :: e' :: es)

/-- The return type of a method. -/
abbrev Method.Return (m : Method) : Type := ReturnType types m.reply.elements

variable {types}

/-- The assignments of `serverWriteMarshallMethodReply`: `reply.a = retVal` for one return value,
`reply.a = retVal.a` for each of several. -/
def replyOfReturn : (es : List Element) → ReturnType types es → Values types es
  | [], _ => ()
  | [_], retVal => (retVal, ())
  | _ :: _ :: _, retVal => retVal

/-- The end of `clientWriteMarshallMethodReply`: `return reply.a` for one return value, and a copy
of the members into the result structure for several. -/
def returnOfReply : (es : List Element) → Values types es → ReturnType types es
  | [], _ => ()
  | [_], reply => reply.1
  | _ :: _ :: _, reply => reply

/-- The client takes out what the server put in. -/
@[simp]
theorem returnOfReply_replyOfReturn (es : List Element) (retVal : ReturnType types es) :
    returnOfReply es (replyOfReturn es retVal) = retVal := by
  match es with
  | [] => rfl
  | [_] => rfl
  | _ :: _ :: _ => rfl

end Values

section Client

/-- The client object. -/
structure Client where
  txBuf : List UInt8
  nextTag : UInt32

/-- The client as constructed, without a buffer. -/
def Client.new : Client := ⟨[], 0⟩

variable {types}

/-- `_sendRequest`: the tag, the message, and the client afterwards. -/
def Client.sendRequest (c : Client) (type : UInt64) (payloadBytes : ℕ) :
    (UInt32 × List UInt8) × Client :=
  let tag := c.nextTag + 1
  let r := fillMessage ⟨type, MessageHeader.flagRequest, tag⟩ payloadBytes c.txBuf
  ((tag, r.2), ⟨r.1, tag⟩)

/-- The value of the enumerator of a method, where the client and the server name it. -/
def Interface.typeId (i : Interface) (m : Method) : UInt64 := (i.typeOf m.methodName).getD 0

/-- The first half of a generated client method: build the request and send it. The parameters are
copied into the members of the request one by one. The result of `serialize` is not looked at. -/
def Client.sendCall (i : Interface) (m : Method) (args : m.request.Value types) (fill : ℕ → UInt8)
    (c : Client) : Except Stop ((UInt32 × List UInt8) × Client) := do
  let request := args
  let numBytes := m.request.bytesFor request
  let txBuf := ensureTxBuf fill numBytes c.txBuf
  let data ← subspan txBuf MessageHeader.size numBytes
  let r ← m.request.serialize data request
  let txBuf := overwrite txBuf MessageHeader.size r.2.out
  pure (Client.sendRequest { c with txBuf } (i.typeId m) numBytes)

/-- The blocks of `deserialize`, with the members of the structure as they leave them and the error
that ended the decoding, if any. -/
def decodeMembers (input : List UInt8) : (es : List Element) → Values types es →
    Values types es × Except Stop Unit
  | [], x => (x, .ok ())
  | e :: es, x =>
    match (e.encoding types).deserialize input e.range with
    | .error stop => (x, .error stop)
    | .ok v =>
      let r := decodeMembers input es x.2
      ((v, r.1), r.2)

/-- The generated `deserialize` on a structure that holds `x` before. -/
def MessageStruct.decodeInto (m : MessageStruct) (input : List UInt8) (x : m.Value types) :
    m.Value types × Except Stop Unit :=
  if input.length < m.scalarBytes then (x, .error .returnsFalse)
  else
    match subspanFrom input m.blobStartOffset with
    | .error stop => (x, .error stop)
    | .ok _ => decodeMembers input m.elements x

/-- The end of `clientWriteMarshallMethodReply`: decode the payload into the reply and return its
members, after `errors` were reported. -/
def decodeReply (m : Method) (payload : List UInt8) (blank : m.reply.Value types)
    (errors : List String) : Except Stop (m.Return types × List String) :=
  let r := m.reply.decodeInto payload blank
  match r.2 with
  | .error (.outside range) => .error (.outside range)
  | .error .returnsFalse =>
    .ok (returnOfReply m.reply.elements r.1, errors ++ ["Failed to decode message"])
  | .ok () => .ok (returnOfReply m.reply.elements r.1, errors)

/-- `clientWriteMarshallMethodReply`: the value that the call returns and the texts handed to
`_HandleError`. A `receiveReply` that fails delivers nothing and leaves the span empty, and `blank`
is what the members of the reply hold before they are decoded. -/
def takeReply (i : Interface) (m : Method) (sentTag : UInt32) (blank : m.reply.Value types)
    (delivered : Option (List UInt8)) : Except Stop (m.Return types × List String) := do
  let buf := delivered.getD []
  let noReply := report delivered.isNone "Failed to receive RPC reply"
  let small := report (buf.length < MessageHeader.size) "Received message too small"
  let tag ← load buf 12 4
  let badTag := UInt32.ofNat (ofLittleEndian tag) != sentTag
  let badHeader ←
    if badTag then pure ["Invalid tag in reply RPC packet"]
    else do
      let type ← load buf 0 8
      pure (report (UInt64.ofNat (ofLittleEndian type) != i.typeId m)
        "Invalid type in reply RPC packet")
  let payload ← subspanFrom buf MessageHeader.size
  decodeReply m payload blank (noReply ++ small ++ badHeader)

end Client

section Server

/-- The server object: its buffer. -/
structure Server where
  txBuf : List UInt8

/-- The server as constructed. -/
def Server.new : Server := ⟨[]⟩

/-- The methods that the implementation provides. They may keep a state of their own. -/
abbrev Implementation (σ : Type) := σ → (m : Method) → m.request.Value types → m.Return types × σ

/-- A call of a method with its arguments. -/
structure Call where
  method : Method
  args : method.request.Value types

/-- A call of a method of the implementation, and the value that it returned. -/
abbrev Invocation : Type := (c : Call types) × c.method.Return types

/-- What the server did with a request: the method it called and the reply it sent, if any. -/
structure Handled where
  invocation : Option (Invocation types)
  reply : Option (List UInt8)

variable {types} {σ : Type}

/-- `_sendReply`: the message, and the server afterwards. -/
def Server.sendReply (inHdr : MessageHeader) (payloadBytes : ℕ) (s : Server) :
    List UInt8 × Server :=
  let r := fillMessage ⟨inHdr.type, MessageHeader.flagResponse, inHdr.tag⟩ payloadBytes s.txBuf
  (r.2, ⟨r.1⟩)

/-- `serverWriteMarshallMethodReply`: the reply that is sent, if any, the errors, and the server
afterwards. -/
def Server.marshallReply (m : Method) (hdr : MessageHeader) (retVal : m.Return types)
    (fill : ℕ → UInt8) (s : Server) : Except Stop (Option (List UInt8) × List String × Server) := do
  let reply := replyOfReturn m.reply.elements retVal
  let numBytes := m.reply.bytesFor reply
  let txBuf := ensureTxBuf fill numBytes s.txBuf
  let data ← subspan txBuf MessageHeader.size numBytes
  let r ← m.reply.serialize data reply
  let txBuf := overwrite txBuf MessageHeader.size r.2.out
  if r.1 then
    let sent := Server.sendReply hdr numBytes ⟨txBuf⟩
    pure (some sent.1, [], sent.2)
  else pure (none, ["Failed to serialize reply"], ⟨txBuf⟩)

/-- What a call of `runOne` did with a message that it received. -/
structure Processed (types : CustomTypes) (σ : Type) where
  /-- The result of `runOne`. -/
  cont : Bool
  handled : Handled types
  /-- The texts handed to `_HandleError`. -/
  errors : List String
  /-- The state of the implementation. -/
  st : σ
  server : Server

/-- The generated `_marshall` function of a method. -/
def Server.marshall (impl : Implementation types σ) (m : Method) (hdr : MessageHeader)
    (payload : List UInt8) (fill : ℕ → UInt8) (st : σ) (s : Server) :
    Except Stop (Processed types σ) :=
  match m.request.deserialize types payload with
  | .error .returnsFalse =>
    pure ⟨true, ⟨none, none⟩, ["Failed to deserialize request"], st, s⟩
  | .error stop => throw stop
  | .ok request =>
    let r := impl st m request
    let invocation := some ⟨⟨m, request⟩, r.1⟩
    if m.async then pure ⟨true, ⟨invocation, none⟩, [], r.2, s⟩
    else do
      let sent ← Server.marshallReply m hdr r.1 fill s
      pure ⟨true, ⟨invocation, sent.1⟩, sent.2.1, r.2, sent.2.2⟩

/-- The method whose marshalling function the switch of `runOne` calls: the case of a method calls
the one of its name. -/
def Interface.target (i : Interface) (type : UInt64) : Option Method :=
  (i.methods.find? fun m => i.typeId m == type).bind fun m => i.methodNamed m.methodName

/-- `runOne` for a message that has been received. -/
def Server.runOne (i : Interface) (impl : Implementation types σ) (buf : List UInt8)
    (fill : ℕ → UInt8) (st : σ) (s : Server) : Except Stop (Processed types σ) :=
  let hdr := MessageHeader.ofBytes buf
  if buf.length < MessageHeader.size then
    -- the same result as for a `receive` that failed
    pure ⟨false, ⟨none, none⟩, ["Received message too small"], st, s⟩
  else do
    let payload ← subspanFrom buf MessageHeader.size
    match i.target hdr.type with
    | none => pure ⟨true, ⟨none, none⟩, [], st, s⟩
    | some m => Server.marshall impl m hdr payload fill st s

end Server

end KushOs.Idl
