import KushOs.Idl.Session

/-!
# The loop of the generated server

`Server::run` calls `runOne` until that returns `false`. It does when no message is received, but
also when a message is shorter than a header, and then the loop ends with messages outstanding.

## Main results

* `Server.runOne_ok_iff`: when a message with a whole header is processed.
* `server_keeps_running`: exactly which sequences of messages are processed to the end.
-/

namespace KushOs.Idl

open ByteBuffer

section Loop

variable {types : CustomTypes} {σ : Type}

/-- A message that the stream delivers, with what the memory holds that a new buffer is made of. -/
abbrev Delivery := List UInt8 × (ℕ → UInt8)

/-- `Server::run`: what it did with the messages that it took, until the loop ended. Behind the
last one, `receive` fails. -/
def Server.run (i : Interface) (impl : Implementation types σ) :
    List Delivery → σ → Server → Except Stop (List (Processed types σ))
  | [], _, _ => pure []
  | msg :: rest, st, s => do
    let p ← Server.runOne i impl msg.1 msg.2 st s
    if p.cont then
      let ps ← Server.run i impl rest p.st p.server
      pure (p :: ps)
    else pure [p]

end Loop

section Specification

variable {types : CustomTypes} {σ : Type}

/-- If the message is a well-formed request, it was dispatched to its method with its arguments. -/
def Processed.Dispatched (i : Interface) (buf : List UInt8) (p : Processed types σ) : Prop :=
  ∀ m ∈ i.methods, ∀ (tag : UInt32) (args : m.request.Value types),
    Carries types (requestHeader i m tag) m.request args buf →
      ∃ v, p.handled.invocation = some ⟨⟨m, args⟩, v⟩

/-- The server takes the messages one by one and goes on after each of them, so that `run` ends
because `receive` failed; well-formed requests are dispatched. -/
def Server.KeepsRunning (i : Interface) (impl : Implementation types σ) (msgs : List Delivery)
    (st : σ) (s : Server) : Prop :=
  ∃ ps, Server.run i impl msgs st s = .ok ps ∧
    List.Forall₂ (fun msg p => p.cont = true ∧ p.Dispatched i msg.1) msgs ps

/-- The generated functions stay inside their spans on this message: the decoder of the request
does, and so does the encoder of the value that the implementation returns. -/
structure Server.StaysInside (i : Interface) (impl : Implementation types σ) (msg : Delivery)
    (st : σ) (s : Server) : Prop where
  request : ∀ m payload range, i.target (MessageHeader.ofBytes msg.1).type = some m →
    subspanFrom msg.1 MessageHeader.size = .ok payload →
      m.request.deserialize types payload ≠ .error (.outside range)
  reply : ∀ m payload request, i.target (MessageHeader.ofBytes msg.1).type = some m →
    subspanFrom msg.1 MessageHeader.size = .ok payload →
      m.request.deserialize types payload = .ok request → m.async = false →
        ∃ r, Server.marshallReply m (MessageHeader.ofBytes msg.1) (impl st m request).1 msg.2 s =
          .ok r

/-- No message is shorter than a header, and the generated functions stay inside their spans. -/
def Server.Serviceable (i : Interface) (impl : Implementation types σ) :
    List Delivery → σ → Server → Prop
  | [], _, _ => True
  | msg :: rest, st, s =>
    MessageHeader.size ≤ msg.1.length ∧ Server.StaysInside i impl msg st s ∧
      ∀ p, Server.runOne i impl msg.1 msg.2 st s = .ok p →
        Server.Serviceable i impl rest p.st p.server

end Specification

section Process

variable {types : CustomTypes} {σ : Type} {i : Interface} {impl : Implementation types σ}
variable {m : Method} {buf payload : List UInt8} {fill : ℕ → UInt8} {st : σ} {s : Server}

/-- A message that is too short ends the loop. -/
theorem Server.runOne_of_lt (h : buf.length < MessageHeader.size) :
    Server.runOne i impl buf fill st s =
      .ok ⟨false, ⟨none, none⟩, ["Received message too small"], st, s⟩ :=
  if_pos h

theorem Server.runOne_of_le (h : MessageHeader.size ≤ buf.length)
    (hpayload : subspanFrom buf MessageHeader.size = .ok payload) :
    Server.runOne i impl buf fill st s =
      match i.target (MessageHeader.ofBytes buf).type with
      | none => .ok ⟨true, ⟨none, none⟩, [], st, s⟩
      | some m =>
        Server.marshall impl m (MessageHeader.ofBytes buf) payload fill st s := by
  simp only [Server.runOne, if_neg (not_lt.2 h), hpayload, ok_bind]
  rfl

variable {hdr : MessageHeader} {p : Processed types σ} {args : m.request.Value types}

theorem Server.marshall_of_false
    (h : m.request.deserialize types payload = .error .returnsFalse) :
    Server.marshall impl m hdr payload fill st s =
      .ok ⟨true, ⟨none, none⟩, ["Failed to deserialize request"], st, s⟩ := by
  simp only [Server.marshall, h]
  rfl

theorem Server.marshall_of_outside {range : Range}
    (h : m.request.deserialize types payload = .error (.outside range)) :
    Server.marshall impl m hdr payload fill st s = .error (.outside range) := by
  simp only [Server.marshall, h]
  rfl

theorem Server.marshall_async (h : m.request.deserialize types payload = .ok args)
    (hasync : m.async = true) :
    Server.marshall impl m hdr payload fill st s =
      .ok ⟨true, ⟨some ⟨⟨m, args⟩, (impl st m args).1⟩, none⟩, [], (impl st m args).2, s⟩ := by
  simp only [Server.marshall, h, if_pos hasync]
  rfl

theorem Server.marshall_sync (h : m.request.deserialize types payload = .ok args)
    (hsync : m.async = false) :
    Server.marshall impl m hdr payload fill st s =
      (Server.marshallReply m hdr (impl st m args).1 fill s >>= fun sent =>
        .ok ⟨true, ⟨some ⟨⟨m, args⟩, (impl st m args).1⟩, sent.1⟩, sent.2.1, (impl st m args).2,
          sent.2.2⟩) := by
  simp only [Server.marshall, h, hsync, Bool.false_eq_true, if_false]
  rfl

/-- The marshalling function reports what it cannot decode or encode, and its caller goes on. What
is decoded is handed to the implementation. -/
theorem Server.marshall_ok
    (h : Server.marshall impl m hdr payload fill st s = .ok p) :
    p.cont = true ∧ ∀ args, m.request.deserialize types payload = .ok args →
      p.handled.invocation = some ⟨⟨m, args⟩, (impl st m args).1⟩ := by
  -- along the paths of the function: the decoder fails, leaves its span, or returns arguments
  rcases hdecode : m.request.deserialize types payload with (_ | range) | args
  · rw [Server.marshall_of_false hdecode] at h
    cases h
    exact ⟨rfl, fun args hargs => by cases hargs⟩
  · rw [Server.marshall_of_outside hdecode] at h
    cases h
  rcases hasync : m.async with _ | _
  · rw [Server.marshall_sync hdecode hasync] at h
    rcases henc : Server.marshallReply m hdr (impl st m args).1 fill s with stop | sent
    · rw [henc, error_bind] at h
      cases h
    · rw [henc, ok_bind] at h
      cases h
      refine ⟨rfl, ?_⟩
      rintro _ ⟨⟩
      rfl
  · rw [Server.marshall_async hdecode hasync] at h
    cases h
    refine ⟨rfl, ?_⟩
    rintro _ ⟨⟩
    rfl

/-- It returns exactly when the decoder and the encoder stay inside their spans. -/
theorem Server.marshall_ok_iff :
    (∃ p, Server.marshall impl m hdr payload fill st s = .ok p) ↔
      (∀ range, m.request.deserialize types payload ≠ .error (.outside range)) ∧
        ∀ request, m.request.deserialize types payload = .ok request → m.async = false →
          ∃ r, Server.marshallReply m hdr (impl st m request).1 fill s = .ok r := by
  -- along the paths of the function: the decoder fails, leaves its span, or returns arguments
  rcases hdecode : m.request.deserialize types payload with (_ | range) | args
  · exact iff_of_true ⟨_, Server.marshall_of_false hdecode⟩
      ⟨fun range h => (by cases h), fun request h => (by cases h)⟩
  · refine iff_of_false ?_ fun hinside => hinside.1 range rfl
    rintro ⟨p, hp⟩
    rw [Server.marshall_of_outside hdecode] at hp
    cases hp
  rcases hasync : m.async with _ | _
  · rw [Server.marshall_sync hdecode hasync]
    rcases henc : Server.marshallReply m hdr (impl st m args).1 fill s with stop | sent
    · refine iff_of_false ?_ fun hinside => ?_
      · rintro ⟨p, hp⟩
        rw [error_bind] at hp
        cases hp
      · obtain ⟨r, hr⟩ := hinside.2 args rfl rfl
        rw [henc] at hr
        cases hr
    · refine iff_of_true ⟨_, rfl⟩ ⟨fun range h => (by cases h), ?_⟩
      rintro _ ⟨⟩ -
      exact ⟨sent, henc⟩
  · exact iff_of_true ⟨_, Server.marshall_async hdecode hasync⟩
      ⟨fun range h => (by cases h), fun request _ h => (by cases h)⟩

/-- With a whole header, the message is processed exactly when the generated functions stay inside
their spans. -/
theorem Server.runOne_ok_iff (hlen : MessageHeader.size ≤ buf.length) :
    (∃ p, Server.runOne i impl buf fill st s = .ok p) ↔
      Server.StaysInside i impl (buf, fill) st s := by
  have hpayload := subspanFrom_header hlen
  rw [Server.runOne_of_le hlen hpayload]
  -- a message that no method takes is reported, and touches no payload
  rcases htarget : i.target (MessageHeader.ofBytes buf).type with _ | m
  · refine iff_of_true ⟨_, rfl⟩ ⟨fun m _ _ h => ?_, fun m _ _ h => ?_⟩ <;>
    · rw [htarget] at h
      cases h
  · rw [Server.marshall_ok_iff]
    constructor
    · rintro ⟨hrequest, hreply⟩
      refine ⟨?_, ?_⟩
      · rintro m' payload range htarget' hpayload'
        cases htarget.symm.trans htarget'
        cases hpayload.symm.trans hpayload'
        exact hrequest range
      · rintro m' payload request htarget' hpayload'
        cases htarget.symm.trans htarget'
        cases hpayload.symm.trans hpayload'
        exact hreply request
    · intro hinside
      exact ⟨fun range => hinside.request m _ range htarget hpayload,
        fun request => hinside.reply m _ request htarget hpayload⟩

/-- A message with a whole header does not end the loop, and it is dispatched if it is a well-formed
request. -/
theorem Server.runOne_ok (hnames : i.WellNamed) (hlen : MessageHeader.size ≤ buf.length)
    (h : Server.runOne i impl buf fill st s = .ok p) : p.cont = true ∧ p.Dispatched i buf := by
  have hpayload := subspanFrom_header hlen
  rw [Server.runOne_of_le hlen hpayload] at h
  -- the type in the header of a well-formed request leads to its method
  have htarget : ∀ m ∈ i.methods, ∀ (tag : UInt32) (args : m.request.Value types),
      Carries types (requestHeader i m tag) m.request args buf →
        i.target (MessageHeader.ofBytes buf).type = some m := by
    intro m hm tag args hcarries
    rw [hcarries.header]
    exact hnames.dispatch hm
  split at h
  next hnone =>
    cases h
    refine ⟨rfl, fun m hm tag args hcarries => ?_⟩
    rw [htarget m hm tag args hcarries] at hnone
    cases hnone
  next m' hsome =>
    obtain ⟨hcont, hinvocation⟩ := Server.marshall_ok h
    refine ⟨hcont, fun m hm tag args hcarries => ?_⟩
    cases hsome.symm.trans (htarget m hm tag args hcarries)
    obtain ⟨payload, hpayload', hdecode⟩ := hcarries.payload
    cases hpayload.symm.trans hpayload'
    exact ⟨_, hinvocation args hdecode⟩

end Process

section Run

variable {types : CustomTypes} {σ : Type} {i : Interface} {impl : Implementation types σ}

/-- The server goes on until `receive` fails exactly when no message is shorter than a header, as
long as the generated functions stay inside their spans. -/
theorem server_keeps_running (hnames : i.WellNamed) (impl : Implementation types σ)
    (msgs : List Delivery) (st : σ) (s : Server) :
    Server.KeepsRunning i impl msgs st s ↔ Server.Serviceable i impl msgs st s := by
  induction msgs generalizing st s with
  | nil => exact iff_of_true ⟨[], rfl, .nil⟩ trivial
  | cons msg rest ih =>
    constructor
    · rintro ⟨ps, hrun, hall⟩
      obtain ⟨p, hp⟩ : ∃ p, Server.runOne i impl msg.1 msg.2 st s = .ok p := by
        rw [Server.run] at hrun
        rcases hp : Server.runOne i impl msg.1 msg.2 st s with stop | p
        · rw [hp] at hrun
          cases hrun
        · exact ⟨p, rfl⟩
      rw [Server.run, hp, ok_bind] at hrun
      have hcont : p.cont = true := by
        rcases hcont : p.cont with _ | _
        · -- the loop would end here with `p` as its last message
          rw [hcont, if_neg (by simp)] at hrun
          cases hrun
          cases hall with
          | cons hhead _ => exact hcont ▸ hhead.1
        · rfl
      rw [hcont, if_pos rfl] at hrun
      rcases hrest : Server.run i impl rest p.st p.server with stop | qs
      · rw [hrest] at hrun
        cases hrun
      rw [hrest] at hrun
      cases hrun
      have hlen : MessageHeader.size ≤ msg.1.length := by
        by_contra hlt
        rw [Server.runOne_of_lt (not_le.1 hlt)] at hp
        cases hp
        cases hcont
      refine ⟨hlen, (Server.runOne_ok_iff hlen).1 ⟨p, hp⟩, ?_⟩
      rintro p' hp'
      cases hp.symm.trans hp'
      cases hall with
      | cons _ htail => exact (ih p.st p.server).1 ⟨qs, hrest, htail⟩
    · rintro ⟨hlen, hinside, hrest⟩
      obtain ⟨p, hp⟩ := (Server.runOne_ok_iff hlen).2 hinside
      obtain ⟨hcont, hdispatched⟩ := Server.runOne_ok hnames hlen hp
      obtain ⟨ps, hrun, hall⟩ := (ih p.st p.server).2 (hrest p hp)
      refine ⟨p :: ps, ?_, .cons ⟨hcont, hdispatched⟩ hall⟩
      rw [Server.run, hp, ok_bind, hcont, if_pos rfl, hrun]
      rfl

/-- A request for `dataMsg` without a payload, and one with the bytes 7 and 8. -/
def dataMsgRequests : List Delivery :=
  [([0x02, 0x10, 0, 0, 0, 0, 0, 0, 1, 0, 0, 0, 1, 0, 0, 0], fun _ => 0),
    ([0x02, 0x10, 0, 0, 0, 0, 0, 0, 1, 0, 0, 0, 2, 0, 0, 0, 8, 0, 0, 0, 2, 0, 0, 0, 7, 8],
      fun _ => 0)]

/-- The request that cannot be decoded is reported, and the one behind it is served. -/
theorem server_keeps_running_dataMsg :
    Server.KeepsRunning helloInterface countCalls dataMsgRequests 0 Server.new := by
  refine (server_keeps_running helloInterface_wellNamed countCalls dataMsgRequests 0 Server.new).2
    ⟨by decide, (Server.runOne_ok_iff (by decide)).1 ⟨_, rfl⟩, fun p hp => ?_⟩
  cases (show Server.runOne helloInterface countCalls _ _ 0 Server.new = .ok _ from
    rfl).symm.trans hp
  exact ⟨by decide, (Server.runOne_ok_iff (by decide)).1 ⟨_, rfl⟩, fun _ _ => trivial⟩

/-- A message of one byte ends the loop, and the requests behind it are not read. -/
theorem server_not_keeps_running :
    ¬ ∀ msgs : List Delivery, Server.KeepsRunning helloInterface countCalls msgs 0 Server.new := by
  intro h
  obtain ⟨ps, hrun, hall⟩ := h (([0], fun _ => 0) :: dataMsgRequests)
  cases (show Server.run helloInterface countCalls _ 0 Server.new = .ok [_] from
    rfl).symm.trans hrun
  cases hall with
  | cons _ htail => cases htail

end Run

end KushOs.Idl
