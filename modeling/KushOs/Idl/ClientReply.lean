import KushOs.Foundation.Fallible
import KushOs.Idl.Session

/-!
# The reply that a client call takes

`clientWriteMarshallMethodReply` emits five checks of the reply, and each of them only hands a text
to `_HandleError`. The generated `_HandleError` prints it and returns, so the call goes on: it reads
the header of a message that is too short, and it returns a value that the peer did not send.

## Main results

* `takeReply_cases`: a call returns a value, or it reads outside of the message.
* `client_reply_matches`: exactly on which replies a call keeps its promise.
-/

namespace KushOs.Idl

open ByteBuffer

section Specification

variable {types : CustomTypes}

/-- The message is a reply to the call: a whole header with the tag that was sent and the identifier
of the method, and a payload that decodes to `reply`. -/
structure IsReplyTo (m : Method) (sentTag : UInt32) (buf : List UInt8)
    (reply : m.reply.Value types) : Prop where
  length_le : MessageHeader.size ≤ buf.length
  tag : (MessageHeader.ofBytes buf).tag = sentTag
  type : (MessageHeader.ofBytes buf).type = m.identifier
  payload : ∃ payload, subspanFrom buf MessageHeader.size = .ok payload ∧
    m.reply.deserialize types payload = .ok reply

/-- The call returns nothing but the value of a reply to it, and it reads nothing outside of what it
received. -/
structure ReturnsMatching (m : Method) (sentTag : UInt32) (delivered : Option (List UInt8))
    (r : Except Stop (m.Return types × List String)) : Prop where
  value : ∀ v errors, r = .ok (v, errors) →
    ∃ buf reply, delivered = some buf ∧ IsReplyTo m sentTag buf reply ∧
      v = returnOfReply m.reply.elements reply
  inside : ∀ range, r ≠ .error (.outside range)

/-- A call of a method, with what the stream delivers as the reply to it. -/
structure Exchange (types : CustomTypes) where
  method : Method
  args : method.request.Value types
  /-- What the memory holds that a new transmit buffer is made of. -/
  fill : ℕ → UInt8
  /-- What the members of the reply hold before they are decoded. -/
  blank : method.reply.Value types
  delivered : Option (List UInt8)

/-- The client makes the calls one after the other, and each of them returns a matching reply. -/
def Client.AllReturnMatching (i : Interface) : List (Exchange types) → Client → Prop
  | [], _ => True
  | x :: rest, c => ∀ tag request c',
      c.sendCall i x.method x.args x.fill = .ok ((tag, request), c') →
        ReturnsMatching x.method tag x.delivered (takeReply i x.method tag x.blank x.delivered) ∧
          Client.AllReturnMatching i rest c'

/-- What the stream delivers to each of the calls is a reply to it. -/
def Client.AllDelivered (i : Interface) : List (Exchange types) → Client → Prop
  | [], _ => True
  | x :: rest, c => ∀ tag request c',
      c.sendCall i x.method x.args x.fill = .ok ((tag, request), c') →
        (∃ buf, ∃ reply : x.method.reply.Value types,
          x.delivered = some buf ∧ IsReplyTo x.method tag buf reply) ∧
            Client.AllDelivered i rest c'

end Specification

section Replies

variable {types : CustomTypes} {i : Interface} {m : Method} {sentTag : UInt32}
variable {blank : m.reply.Value types} {delivered : Option (List UInt8)} {buf : List UInt8}

/-- The header of a message that is too short is read all the same. -/
theorem takeReply_of_lt (h : (delivered.getD []).length < MessageHeader.size) :
    takeReply i m sentTag blank delivered = .error (.outside ⟨12, 4⟩) := by
  have htag : load (delivered.getD []) 12 4 = .error (.outside ⟨12, 4⟩) :=
    subspan_of_lt (by rw [MessageHeader.size] at h; omega)
  simp only [takeReply, htag, error_bind]

/-- Whatever is delivered, the call returns a value or leaves the message. -/
theorem takeReply_cases (i : Interface) (m : Method) (sentTag : UInt32)
    (blank : m.reply.Value types) (delivered : Option (List UInt8)) :
    (∃ r, takeReply i m sentTag blank delivered = .ok r) ∨
      ∃ range, takeReply i m sentTag blank delivered = .error (.outside range) := by
  rcases lt_or_ge (delivered.getD []).length MessageHeader.size with hlt | hle
  · exact Or.inr ⟨_, takeReply_of_lt hlt⟩
  · rcases delivered with _ | buf
    · exact absurd hle (by decide)
    · rw [Option.getD_some] at hle
      rw [takeReply_of_le hle, decodeReply]
      rcases m.reply.decodeInto _ blank with ⟨reply, (_ | range) | _⟩
      · exact Or.inl ⟨_, rfl⟩
      · exact Or.inr ⟨range, rfl⟩
      · exact Or.inl ⟨_, rfl⟩

/-- A call keeps its promise exactly when it is delivered a reply to it. -/
theorem returnsMatching_iff (htype : i.typeId m = m.identifier) (blank : m.reply.Value types)
    (delivered : Option (List UInt8)) :
    ReturnsMatching m sentTag delivered (takeReply i m sentTag blank delivered) ↔
      ∃ buf, ∃ reply : m.reply.Value types,
        delivered = some buf ∧ IsReplyTo m sentTag buf reply := by
  constructor
  · intro h
    rcases takeReply_cases i m sentTag blank delivered with ⟨⟨v, errors⟩, hr⟩ | ⟨range, hr⟩
    · obtain ⟨buf, reply, hbuf, hreply, -⟩ := h.value v errors hr
      exact ⟨buf, reply, hbuf, hreply⟩
    · exact absurd hr (h.inside range)
  · rintro ⟨buf, reply, rfl, hreply⟩
    rw [takeReply_ok hreply.length_le hreply.tag (hreply.type.trans htype.symm) hreply.payload]
    refine ⟨?_, fun range h => by cases h⟩
    rintro v errors ⟨⟩
    exact ⟨buf, reply, rfl, hreply, rfl⟩

/-- In any sequence of calls, every call returns the value of a reply to it and reads inside of what
it received exactly when each of them is delivered such a reply. -/
theorem client_reply_matches (hnames : i.WellNamed) (xs : List (Exchange types))
    (hmethods : ∀ x ∈ xs, x.method ∈ i.methods) (c : Client) :
    Client.AllReturnMatching i xs c ↔ Client.AllDelivered i xs c := by
  induction xs generalizing c with
  | nil => exact Iff.rfl
  | cons x rest ih =>
    have ih := ih fun y hy => hmethods y (List.mem_cons_of_mem x hy)
    have htype := hnames.typeId (hmethods x List.mem_cons_self)
    simp only [Client.AllReturnMatching, Client.AllDelivered, ih, returnsMatching_iff htype]

/-- A call takes the next tag. -/
theorem Client.tag_of_sendCall {args : m.request.Value types} {fill : ℕ → UInt8} {c c' : Client}
    {tag : UInt32} {request : List UInt8}
    (h : c.sendCall i m args fill = .ok ((tag, request), c')) :
    tag = c.nextTag + 1 ∧ c'.nextTag = tag := by
  rw [Client.sendCall] at h
  obtain ⟨data, -, h⟩ := Fallible.bind_eq_ok.mp h
  obtain ⟨r, -, h⟩ := Fallible.bind_eq_ok.mp h
  cases h
  exact ⟨rfl, rfl⟩

/-- A reply to `sayHello` with a small tag, the string `hi` and nothing else. -/
def hiReply (tag : UInt8) : List UInt8 :=
  [0x01, 0x10, 0, 0, 0, 0, 0, 0, 2, 0, 0, 0, tag, 0, 0, 0, 8, 0, 0, 0, 2, 0, 0, 0, 0x68, 0x69]

/-- A call of `sayHello`, with an empty message. -/
def sayHelloExchange (delivered : Option (List UInt8)) : Exchange stringTypes where
  method := sayHello
  args := (([] : List UInt8), ())
  fill _ := 0
  blank := (([] : List UInt8), ())
  delivered := delivered

/-- Two calls, each with its own reply. -/
theorem client_reply_matches_sayHello :
    Client.AllReturnMatching helloInterface
      [sayHelloExchange (some (hiReply 1)), sayHelloExchange (some (hiReply 2))] Client.new := by
  refine (client_reply_matches helloInterface_wellNamed _ (by simp [sayHelloExchange,
    helloInterface]) Client.new).2 fun tag request c hsend => ?_
  obtain ⟨rfl, hnext⟩ := Client.tag_of_sendCall hsend
  refine ⟨⟨hiReply 1, (([0x68, 0x69] : List UInt8), ()), rfl,
    ⟨by decide, by decide, by decide, _, rfl, rfl⟩⟩, fun tag' request' c' hsend' => ?_⟩
  obtain ⟨rfl, -⟩ := Client.tag_of_sendCall hsend'
  rw [hnext]
  exact ⟨⟨hiReply 2, (([0x68, 0x69] : List UInt8), ()), rfl,
    ⟨by decide, by decide, by decide, _, rfl, rfl⟩⟩, trivial⟩

/-- The reply to an earlier request is reported, and its value is returned all the same. -/
theorem client_reply_not_matches :
    ¬ ∀ xs : List (Exchange stringTypes), (∀ x ∈ xs, x.method ∈ helloInterface.methods) →
      Client.AllReturnMatching helloInterface xs Client.new := by
  intro h
  have hmatch := h [sayHelloExchange (some (hiReply 0))]
    (by simp [sayHelloExchange, helloInterface]) 1 _ _ rfl
  obtain ⟨buf, reply, hbuf, hreply, -⟩ := hmatch.1.value ([0x68, 0x69] : List UInt8)
    ["Invalid tag in reply RPC packet"] rfl
  cases hbuf
  exact absurd hreply.tag (by decide)

end Replies

end KushOs.Idl
