import KushOs.Foundation.RemoteCall
import KushOs.Foundation.Run
import KushOs.Idl.Delivery

/-!
# Sessions between a client and a server

A client object and a server object of one interface, connected by two streams that keep their
messages in order and lose none. The client may be given any calls, and the server may fall behind
by any number of asynchronous requests.

The session refines the remote calls of `RemoteCall`: each message under way carries the call or the
answer that is under way there. So the implementation sees the calls that the client was given, in
order, and each synchronous call returns what the implementation returned.
-/

namespace KushOs.Idl

open ByteBuffer Transition

section Sessions

/-- What a stub runs into. -/
inductive Failure
  /-- It hands this text to `_HandleError`. -/
  | reported (what : String)
  /-- A serializer stops outside of a span. -/
  | stopped (stop : Stop)
  deriving DecidableEq, Repr

variable (types : CustomTypes) (σ : Type)

/-- A synchronous call whose reply the client is waiting for, with the tag of its request. -/
structure Waiting where
  call : Call types
  tag : UInt32

/-- Both parties and the streams between them. `calls` and `returned` record what the client was
asked for and what it gave back, `handled` what the server did with each request, and `errors` what
was handed to `_HandleError` on either side. -/
structure Session where
  client : Client
  waiting : Option (Waiting types)
  server : Server
  implState : σ
  requests : List (List UInt8)
  replies : List (List UInt8)
  calls : List (Call types)
  handled : List (Handled types)
  returned : List (Invocation types)
  errors : List Failure

/-- What may happen next. -/
inductive Action
  /-- The client is asked for a call. -/
  | call (c : Call types) (fill : ℕ → UInt8)
  /-- The server runs `runOne`. -/
  | serve (fill : ℕ → UInt8)
  /-- The client gets the reply that it is waiting for. -/
  | receive

variable {types σ}

namespace Session

/-- Both objects as constructed, and an implementation in the state `st`. -/
def new (st : σ) : Session types σ :=
  ⟨.new, none, .new, st, [], [], [], [], [], []⟩

/-- The generated client method, up to the point where it waits. -/
def call (i : Interface) (c : Call types) (fill : ℕ → UInt8) (s : Session types σ) :
    Session types σ :=
  match s.client.sendCall i c.method c.args fill with
  | .ok r =>
    { s with
      client := r.2
      waiting := if c.method.async then none else some ⟨c, r.1.1⟩
      requests := s.requests ++ [r.1.2]
      calls := s.calls ++ [c] }
  | .error stop => { s with calls := s.calls ++ [c], errors := s.errors ++ [.stopped stop] }

/-- The server takes `buf` from the stream. -/
def serve (i : Interface) (impl : Implementation types σ) (buf : List UInt8)
    (rest : List (List UInt8)) (fill : ℕ → UInt8) (s : Session types σ) : Session types σ :=
  match s.server.runOne i impl buf fill s.implState with
  | .ok p =>
    { s with
      server := p.server
      implState := p.st
      requests := rest
      replies := s.replies ++ p.handled.reply.toList
      handled := s.handled ++ [p.handled]
      errors := s.errors ++ p.errors.map .reported }
  | .error stop => { s with requests := rest, errors := s.errors ++ [.stopped stop] }

/-- The waiting client method takes `buf` from the stream and returns. -/
def receive (i : Interface) (w : Waiting types) (blank : w.call.method.reply.Value types)
    (buf : List UInt8) (rest : List (List UInt8)) (s : Session types σ) : Session types σ :=
  match takeReply i w.call.method w.tag blank (some buf) with
  | .ok r =>
    { s with
      waiting := none
      replies := rest
      returned := s.returned ++ [⟨w.call, r.1⟩]
      errors := s.errors ++ r.2.map .reported }
  | .error stop =>
    { s with waiting := none, replies := rest, errors := s.errors ++ [.stopped stop] }

/-- The methods of the implementation that the server has called, with the values they returned. -/
def invoked (s : Session types σ) : List (Invocation types) :=
  s.handled.filterMap Handled.invocation

end Session

/-- One step of a session. The client object is used by one caller, who waits for the reply to a
synchronous call before the next call. -/
inductive SessionStep (i : Interface) (impl : Implementation types σ) :
    Session types σ → Action types → Session types σ → Prop
  | call {s : Session types σ} {c : Call types} {fill : ℕ → UInt8} (hidle : s.waiting = none)
      (hmem : c.method ∈ i.methods) : SessionStep i impl s (.call c fill) (s.call i c fill)
  | serve {s : Session types σ} {buf : List UInt8} {rest : List (List UInt8)} {fill : ℕ → UInt8}
      (hreq : s.requests = buf :: rest) :
      SessionStep i impl s (.serve fill) (s.serve i impl buf rest fill)
  | receive {s : Session types σ} {w : Waiting types} {buf : List UInt8} {rest : List (List UInt8)}
      (blank : w.call.method.reply.Value types) (hwait : s.waiting = some w)
      (hrep : s.replies = buf :: rest) :
      SessionStep i impl s .receive (s.receive i w blank buf rest)

end Sessions

section Refinement

variable {types : CustomTypes} {σ : Type}

/-- The calls of an implementation, as they are made without a session. -/
def Implementation.system (impl : Implementation types σ) :
    RemoteCall.System (fun c : Call types => c.method.Return types) σ where
  sync c := !c.method.async
  serve st c := impl st c.method c.args

/-- The messages of these calls and of their results all encode below `2 ^ 32` bytes. -/
structure Encodable (impl : Implementation types σ) (st : σ) (calls : List (Call types)) :
    Prop where
  request : ∀ c ∈ calls, c.method.request.encodedSize c.args < 2 ^ 32
  reply : ∀ v ∈ impl.system.direct st calls,
    v.1.method.reply.encodedSize (replyOfReturn v.1.method.reply.elements v.2) < 2 ^ 32

/-- A message in the stream to the server is the request of this call. If the client waits for the
call, the request has the tag that the client remembers. -/
structure IsRequest (i : Interface) (waitTag : UInt32) (buf : List UInt8) (c : Call types) :
    Prop where
  mem : c.method ∈ i.methods
  carries : ∃ tag, Carries types (requestHeader i c.method tag) c.method.request c.args buf ∧
    (c.method.async = false → tag = waitTag)

/-- A message in the stream to the client is the reply to this call. -/
def IsReply (i : Interface) (waitTag : UInt32) (buf : List UInt8) (v : Invocation types) : Prop :=
  Carries types (replyHeader i v.1.method waitTag) v.1.method.reply
    (replyOfReturn v.1.method.reply.elements v.2) buf

/-- The server has called this method, and replied if it is synchronous. -/
structure IsHandled (h : Handled types) (v : Invocation types) : Prop where
  invocation : h.invocation = some v
  reply : h.reply.isSome = !v.1.method.async

/-- A session stands for a state of the remote calls. -/
structure Refines (i : Interface) (waitTag : UInt32) (s : Session types σ)
    (a : RemoteCall.State (fun c : Call types => c.method.Return types) σ) : Prop where
  waiting : s.waiting = a.waiting.map fun c => ⟨c, waitTag⟩
  requests : List.Forall₂ (IsRequest i waitTag) s.requests a.requests
  replies : List.Forall₂ (IsReply i waitTag) s.replies a.replies
  implState : s.implState = a.server
  calls : s.calls = a.calls
  handled : List.Forall₂ IsHandled s.handled a.served
  returned : s.returned = a.returned
  errors : s.errors = []

variable {i : Interface} {impl : Implementation types σ} {st : σ} {tag : UInt32}
variable {s t : Session types σ}
  {a : RemoteCall.State (fun c : Call types => c.method.Return types) σ}

theorem Refines.new (i : Interface) (st : σ) :
    Refines i 0 (Session.new st : Session types σ) (.init st) where
  waiting := rfl
  requests := .nil
  replies := .nil
  implState := rfl
  calls := rfl
  handled := .nil
  returned := rfl
  errors := rfl

/-- The tag that the client remembers does not matter to asynchronous requests. -/
theorem IsRequest.forall_retag {bufs : List (List UInt8)} {cs : List (Call types)}
    (h : List.Forall₂ (IsRequest i tag) bufs cs) (hasync : ∀ c ∈ cs, c.method.async = true)
    (tag' : UInt32) : List.Forall₂ (IsRequest i tag') bufs cs := by
  induction h with
  | nil => exact .nil
  | cons hhead _ ih =>
    obtain ⟨t, hcarries, -⟩ := hhead.carries
    have hc := hasync _ List.mem_cons_self
    refine .cons ⟨hhead.mem, t, hcarries, fun hsync => ?_⟩
      (ih fun c hc => hasync c (List.mem_cons_of_mem _ hc))
    rw [hc] at hsync
    cases hsync

/-- A call appends its request. -/
theorem Refines.call (hcustom : ∀ typeName, (types typeName).RoundTrips)
    (h : Refines i tag s a) (hinv : RemoteCall.Inv impl.system st a) {c : Call types}
    (hidle : s.waiting = none) (hmem : c.method ∈ i.methods)
    (hsize : c.method.request.encodedSize c.args < 2 ^ 32) (fill : ℕ → UInt8) :
    ∃ tag' a', RemoteCall.Step impl.system a a' ∧ Refines i tag' (s.call i c fill) a' := by
  have hwait : a.waiting = none := Option.map_eq_none_iff.1 (h.waiting.symm.trans hidle)
  -- nothing under way has to be matched with a tag, so the new tag may be remembered
  obtain ⟨hrep, hasync⟩ := hinv.of_idle hwait
  have hrep' : s.replies = [] := List.forall₂_nil_right_iff.1 (hrep ▸ h.replies)
  have hasync' : ∀ b ∈ a.requests, b.method.async = true := fun b hb => by
    simpa [Implementation.system] using hasync b hb
  obtain ⟨r, hr, hcarries⟩ := Client.sendCall_ok (i := i) hcustom hsize fill s.client
  refine ⟨r.1.1, _, .call c hwait, ?_⟩
  rw [Session.call, hr]
  constructor
  · cases hc : c.method.async <;> simp [Implementation.system, hc]
  · exact List.rel_append (IsRequest.forall_retag h.requests hasync' _)
      (.cons ⟨hmem, _, hcarries, fun _ => rfl⟩ .nil)
  · change List.Forall₂ _ s.replies a.replies
    rw [hrep, hrep']
    exact .nil
  · exact h.implState
  · exact congrArg (· ++ [c]) h.calls
  · exact h.handled
  · exact h.returned
  · exact h.errors

/-- The server serves the call that the request carries. -/
theorem Refines.serve (hcustom : ∀ typeName, (types typeName).RoundTrips) (hnames : i.WellNamed)
    (h : Refines i tag s a) (hinv : RemoteCall.Inv impl.system st a) {buf : List UInt8}
    {rest : List (List UInt8)} (hreq : s.requests = buf :: rest)
    (hcalls : Encodable impl st s.calls) (fill : ℕ → UInt8) :
    ∃ a', RemoteCall.Step impl.system a a' ∧
      Refines i tag (s.serve i impl buf rest fill) a' := by
  obtain ⟨c, cs, hhead, htail, hcs⟩ := List.forall₂_cons_left_iff.1 (hreq ▸ h.requests)
  obtain ⟨reqTag, hcarries, htag⟩ := hhead.carries
  refine ⟨_, .serve hcs, ?_⟩
  rw [Session.serve, h.implState]
  -- only a method with a reply sends one
  cases hasync : c.method.async with
  | true =>
    have hsync : impl.system.sync c = false := by simp [Implementation.system, hasync]
    have hrun : s.server.runOne i impl buf fill a.server = _ :=
      Server.runOne_async hnames hhead.mem hasync hcarries fill s.server
    rw [hrun]
    refine ⟨h.waiting, htail, ?_, rfl, h.calls, ?_, h.returned, by rw [h.errors]; rfl⟩
    · simpa [hsync] using h.replies
    · exact List.rel_append h.handled (.cons ⟨rfl, by simp [hasync]⟩ .nil)
  | false =>
    have hsync : impl.system.sync c = true := by simp [Implementation.system, hasync]
    have hsize := hcalls.reply _ (h.calls ▸ hinv.mem_direct hcs)
    obtain ⟨reply, server, hrun, hreply⟩ :=
      Server.runOne_sync hcustom hnames hhead.mem hasync hsize hcarries fill s.server
    rw [hrun]
    refine ⟨h.waiting, htail, ?_, rfl, h.calls, ?_, h.returned, by rw [h.errors]; rfl⟩
    · simp only [hsync, if_true, Option.toList_some]
      refine List.rel_append h.replies (.cons ?_ .nil)
      rw [htag hasync] at hreply
      exact hreply
    · exact List.rel_append h.handled (.cons ⟨rfl, by simp [hasync]⟩ .nil)

/-- The client returns the value that the reply carries. -/
theorem Refines.receive (h : Refines i tag s a) (hinv : RemoteCall.Inv impl.system st a)
    {w : Waiting types} {blank : w.call.method.reply.Value types} {buf : List UInt8}
    {rest : List (List UInt8)} (hwait : s.waiting = some w) (hrep : s.replies = buf :: rest) :
    ∃ a', RemoteCall.Step impl.system a a' ∧ Refines i tag (s.receive i w blank buf rest) a' := by
  obtain ⟨v, vs, hhead, htail, hvs⟩ := List.forall₂_cons_left_iff.1 (hrep ▸ h.replies)
  have hv := hinv.waiting_of_reply hvs
  obtain rfl : w = ⟨v.1, tag⟩ := by
    have hsome := hwait.symm.trans h.waiting
    rw [hv] at hsome
    exact Option.some.inj hsome
  refine ⟨_, .receive hv hvs, ?_⟩
  rw [Session.receive, takeReply_of_carries hhead]
  refine ⟨rfl, h.requests, htail, h.implState, h.calls, h.handled, ?_, ?_⟩
  · exact congrArg (· ++ [v]) h.returned
  · rw [h.errors]
    rfl

theorem Session.calls_call (i : Interface) (c : Call types) (fill : ℕ → UInt8)
    (s : Session types σ) : (s.call i c fill).calls = s.calls ++ [c] := by
  unfold Session.call
  split <;> rfl

/-- No step forgets a call. -/
theorem SessionStep.calls_append {act : Action types} (hstep : SessionStep i impl s act t) :
    ∃ more, t.calls = s.calls ++ more := by
  cases hstep with
  | call => exact ⟨_, Session.calls_call i _ _ s⟩
  | serve =>
    refine ⟨[], ?_⟩
    rw [List.append_nil, Session.serve]
    split <;> rfl
  | receive =>
    refine ⟨[], ?_⟩
    rw [List.append_nil, Session.receive]
    split <;> rfl

theorem Encodable.of_append {calls more : List (Call types)}
    (h : Encodable impl st (calls ++ more)) : Encodable impl st calls where
  request c hc := h.request c (List.mem_append_left _ hc)
  reply v hv := h.reply v (by rw [impl.system.direct_append]; exact List.mem_append_left _ hv)

/-- Every step of the session is a step of the remote calls. -/
theorem Refines.step (hcustom : ∀ typeName, (types typeName).RoundTrips) (hnames : i.WellNamed)
    (h : Refines i tag s a) (hinv : RemoteCall.Inv impl.system st a) {act : Action types}
    (hstep : SessionStep i impl s act t) (hcalls : Encodable impl st t.calls) :
    ∃ tag' a', RemoteCall.Step impl.system a a' ∧ Refines i tag' t a' := by
  have hcalls' : Encodable impl st s.calls := by
    obtain ⟨more, hmore⟩ := hstep.calls_append
    exact (hmore ▸ hcalls).of_append
  cases hstep with
  | @call c fill hidle hmem =>
    have hsize := hcalls.request c (by rw [Session.calls_call]; simp)
    exact h.call hcustom hinv hidle hmem hsize fill
  | @serve buf rest fill hreq => exact ⟨tag, h.serve hcustom hnames hinv hreq hcalls' fill⟩
  | receive _ hwait hrep => exact ⟨tag, h.receive hinv hwait hrep⟩

/-- If its messages can be encoded, the session stands for a state that the remote calls can get
to. -/
def Session.Refined (i : Interface) (impl : Implementation types σ) (st : σ) (s : Session types σ) :
    Prop :=
  Encodable impl st s.calls → ∃ tag a, RemoteCall.Inv impl.system st a ∧ Refines i tag s a

/-- Every session refines the remote calls. -/
theorem Session.refined_of_run (hcustom : ∀ typeName, (types typeName).RoundTrips)
    (hnames : i.WellNamed) {acts : List (Action types)}
    (hrun : Run (SessionStep i impl) (Session.new st) acts s) : s.Refined i impl st := by
  refine hrun.preserves (fun s act t ih hstep hcalls => ?_) fun _ => ?_
  · obtain ⟨more, hmore⟩ := hstep.calls_append
    obtain ⟨tag, a, hinv, h⟩ := ih (hmore ▸ hcalls).of_append
    obtain ⟨tag', a', hstep', h'⟩ := h.step hcustom hnames hinv hstep hcalls
    exact ⟨tag', a', hinv.step hstep', h'⟩
  · exact ⟨0, _, RemoteCall.Inv.init impl.system st, Refines.new i st⟩

end Refinement

section Agreement

variable {types : CustomTypes} {σ : Type} {i : Interface} {impl : Implementation types σ} {st : σ}
variable {s t : Session types σ}

/-- Without a new call, neither party has anything left to do. -/
def Session.Quiet (i : Interface) (impl : Implementation types σ) (s : Session types σ) : Prop :=
  ∀ act t, SessionStep i impl s act t → ∃ c fill, act = .call c fill

/-- The invocations of synchronous methods. -/
def syncInvocations (invoked : List (Invocation types)) : List (Invocation types) :=
  invoked.filter fun v => !v.1.method.async

/-- Client and server agree. -/
structure Session.Agrees (i : Interface) (impl : Implementation types σ) (st : σ)
    (s : Session types σ) : Prop where
  /-- Neither party has reported an error. -/
  errors : s.errors = []
  /-- The server has called the methods that the client was asked for, in the same order with the
  same arguments; the other calls are in the stream, one request each. -/
  invoked : ∃ underWay, s.calls = s.invoked.map Sigma.fst ++ underWay ∧
    underWay.length = s.requests.length
  /-- The values are those of the calls made directly on the implementation. -/
  direct : s.invoked = impl.system.direct st (s.invoked.map Sigma.fst)
  /-- Each request made the server call one method, and send one reply if it is synchronous and none
  if it is asynchronous. -/
  handled : ∀ h ∈ s.handled, ∃ v, h.invocation = some v ∧ h.reply.isSome = !v.1.method.async
  /-- The synchronous calls have returned the values that the implementation returned, in order; the
  values that have not arrived are in the stream, one reply each. -/
  returned : ∃ underWay, syncInvocations s.invoked = s.returned ++ underWay ∧
    underWay.length = s.replies.length
  /-- When nothing is left to do, every call has been made and every synchronous call has
  returned. -/
  finished : s.Quiet i impl → s.waiting = none ∧ s.calls = s.invoked.map Sigma.fst ∧
    s.returned = syncInvocations s.invoked

theorem syncInvocations_eq (impl : Implementation types σ) (invoked : List (Invocation types)) :
    syncInvocations invoked = impl.system.answers invoked := rfl

/-- What the server has handled is what was served. -/
theorem invoked_of_forall_isHandled {handled : List (Handled types)}
    {served : List (Invocation types)} (h : List.Forall₂ IsHandled handled served) :
    handled.filterMap Handled.invocation = served := by
  induction h with
  | nil => rfl
  | cons hhead _ ih => rw [List.filterMap_cons, hhead.invocation, ih]

theorem exists_of_forall_isHandled {handled : List (Handled types)}
    {served : List (Invocation types)} (h : List.Forall₂ IsHandled handled served)
    {hd : Handled types} (hmem : hd ∈ handled) :
    ∃ v, hd.invocation = some v ∧ hd.reply.isSome = !v.1.method.async := by
  induction h with
  | nil => cases hmem
  | cons hhead _ ih =>
    rcases List.mem_cons.1 hmem with rfl | hmem
    · exact ⟨_, hhead.invocation, hhead.reply⟩
    · exact ih hmem

variable {tag : UInt32} {a : RemoteCall.State (fun c : Call types => c.method.Return types) σ}

/-- A session with something under way can go on without a new call. -/
theorem Refines.empty_of_quiet (h : Refines i tag s a) (hinv : RemoteCall.Inv impl.system st a)
    (hquiet : s.Quiet i impl) : a.requests = [] ∧ a.replies = [] := by
  have hrequests := h.requests
  have hreplies := h.replies
  constructor
  · cases hreq : s.requests with
    | nil =>
      rw [hreq] at hrequests
      exact List.forall₂_nil_left_iff.1 hrequests
    | cons buf rest =>
      obtain ⟨_, _, hact⟩ := hquiet (.serve fun _ => 0) _ (.serve hreq)
      cases hact
  · cases hrep : s.replies with
    | nil =>
      rw [hrep] at hreplies
      exact List.forall₂_nil_left_iff.1 hreplies
    | cons buf rest =>
      -- the client waits for this very reply
      obtain ⟨v, vs, -, -, hvs⟩ := List.forall₂_cons_left_iff.1 (hrep ▸ hreplies)
      have hwait : s.waiting = some ⟨v.1, tag⟩ := by
        rw [h.waiting, hinv.waiting_of_reply hvs]; rfl
      obtain ⟨_, _, hact⟩ := hquiet .receive _
        (.receive (replyOfReturn v.1.method.reply.elements v.2) hwait hrep)
      cases hact

/-- A session that refines the remote calls agrees. -/
theorem Refines.agrees (h : Refines i tag s a) (hinv : RemoteCall.Inv impl.system st a) :
    s.Agrees i impl st := by
  have hinvoked : s.invoked = a.served := invoked_of_forall_isHandled h.handled
  refine ⟨h.errors, ?_, ?_, ?_, ?_, fun hq => ?_⟩
  · exact ⟨a.requests, by rw [h.calls, hinvoked, hinv.calls_eq], h.requests.length_eq.symm⟩
  · rw [hinvoked]
    exact hinv.served_eq
  · exact fun _ hmem => exists_of_forall_isHandled h.handled hmem
  · rw [hinvoked, h.returned, syncInvocations_eq impl]
    exact ⟨a.replies, hinv.returned_eq, h.replies.length_eq.symm⟩
  · obtain ⟨hreq, hrep⟩ := h.empty_of_quiet hinv hq
    have hret := hinv.returned_eq
    rw [hrep, List.append_nil] at hret
    refine ⟨?_, ?_, ?_⟩
    · rw [h.waiting, hinv.quiet hreq hrep]; rfl
    · rw [h.calls, hinv.calls_eq, hreq, List.append_nil, hinvoked]
    · rw [h.returned, hinvoked, syncInvocations_eq impl, hret]

/-- The steps that need no new call. -/
def InternalStep (i : Interface) (impl : Implementation types σ) (s : Session types σ)
    (act : Action types) (t : Session types σ) : Prop :=
  SessionStep i impl s act t ∧ ∀ c fill, act ≠ .call c fill

/-- The messages under way, where a request counts twice because it may cause a reply. -/
def Session.work (s : Session types σ) : ℕ := 2 * s.requests.length + s.replies.length

/-- Serving and receiving use the messages up. -/
theorem InternalStep.work_lt {act : Action types} (h : InternalStep i impl s act t) :
    t.work < s.work := by
  obtain ⟨hstep, hact⟩ := h
  cases hstep with
  | @call c fill => exact absurd rfl (hact c fill)
  | @serve buf rest fill hreq =>
    rw [Session.work, Session.work, hreq, Session.serve]
    cases s.server.runOne i impl buf fill s.implState with
    | error stop => simp only [List.length_cons]; omega
    | ok p =>
      have hone : p.handled.reply.toList.length ≤ 1 := Option.length_toList_le
      simp only [List.length_append, List.length_cons]
      omega
  | @receive w buf rest blank _ hrep =>
    rw [Session.work, Session.work, hrep, Session.receive]
    cases takeReply i w.call.method w.tag blank (some buf) with
    | error stop => simp only [List.length_cons]; omega
    | ok r => simp only [List.length_cons]; omega

/-- So the parties come to rest. -/
theorem length_le_work {acts : List (Action types)} (hrun : Run (InternalStep i impl) s acts t) :
    acts.length ≤ s.work := by
  induction hrun with
  | nil => exact Nat.zero_le _
  | cons hfirst _ ih => exact Nat.succ_le_of_lt (ih.trans_lt hfirst.work_lt)

end Agreement

/-- The generated client and server agree on every session. Both parties report no error; the
implementation sees the calls in order, with equal arguments; each synchronous call gets one reply
and returns the value of the implementation, and an asynchronous one gets none. Without new calls
the session comes to rest, and then everything has been done. -/
theorem session_agrees {types : CustomTypes} (hcustom : ∀ typeName, (types typeName).RoundTrips)
    {i : Interface} (hnames : i.WellNamed) {σ : Type} (impl : Implementation types σ) (st : σ)
    {acts : List (Action types)} {s : Session types σ}
    (hrun : Run (SessionStep i impl) (Session.new st) acts s)
    (hcalls : Encodable impl st s.calls) :
    s.Agrees i impl st ∧
      ∀ more t, Run (InternalStep i impl) s more t → more.length ≤ s.work := by
  obtain ⟨tag, a, hinv, h⟩ := Session.refined_of_run hcustom hnames hrun hcalls
  exact ⟨h.agrees hinv, fun _ _ hmore => length_le_work hmore⟩

section Hello

/-- `sayHello` of the sample interface, with an identifier in place of the hash of its name. -/
def sayHello : Method := ⟨"sayHello", false, 0x1001, [.string "message"], [.string "reply"]⟩

/-- `dataMsg` of the sample interface, which is asynchronous. -/
def dataMsg : Method := ⟨"dataMsg", true, 0x1002, [.blob "blob"], []⟩

/-- These two methods of the sample interface. -/
def helloInterface : Interface := ⟨[sayHello, dataMsg]⟩

/-- A family of custom types that are all strings. -/
abbrev stringTypes : CustomTypes := fun _ => stringCodec

/-- A value of any type, made of one byte. -/
def byteValue (b : UInt8) : (t : ArgumentType) → (t.encoding stringTypes).Value
  | .primitive p => ⟨List.replicate p.wireSize b, List.length_replicate⟩
  | .string => [b]
  | .blob => [b]
  | .custom _ => [b]

/-- Such values for all members of a reply. -/
def byteValues (b : UInt8) : (es : List Element) → Values stringTypes es
  | [] => ()
  | e :: es => (byteValue b e.argument.type, byteValues b es)

/-- An implementation that returns the number of calls before this one. -/
def countCalls : Implementation stringTypes UInt8 :=
  fun st m _ => (returnOfReply _ (byteValues st m.reply.elements), st + 1)

def helloCalls : List (Call stringTypes) :=
  [⟨dataMsg, ([7, 8], ())⟩, ⟨sayHello, ([0x68, 0x69], ())⟩]

theorem helloInterface_wellNamed : helloInterface.WellNamed := ⟨by decide, by decide⟩

theorem helloCalls_encodable : Encodable countCalls 0 helloCalls := ⟨by decide, by decide⟩

/-- The client sends both requests before the server gets to the first one. -/
theorem exists_run_hello :
    ∃ s, Run (SessionStep helloInterface countCalls) (Session.new 0)
        [.call ⟨dataMsg, ([7, 8], ())⟩ fun _ => 0xaa,
          .call ⟨sayHello, ([0x68, 0x69], ())⟩ fun _ => 0xbb,
          .serve fun _ => 0xcc, .serve fun _ => 0xdd, .receive] s ∧
      s.calls = helloCalls ∧
      s.returned = [⟨⟨sayHello, ([0x68, 0x69], ())⟩, ([1] : List UInt8)⟩] := by
  refine ⟨_, .cons (.call rfl ?_) (.cons (.call rfl ?_) (.cons (.serve rfl) (.cons (.serve rfl)
    (.cons (.receive (byteValues 0 _) rfl rfl) (.nil _))))), rfl, rfl⟩
  · simp [helloInterface]
  · simp [helloInterface]

theorem session_agrees_hello :
    ∃ s : Session stringTypes UInt8, s.calls = helloCalls ∧
      s.returned = [⟨⟨sayHello, ([0x68, 0x69], ())⟩, ([1] : List UInt8)⟩] ∧
      s.Agrees helloInterface countCalls 0 := by
  obtain ⟨s, hrun, hcalls, hreturned⟩ := exists_run_hello
  have hagrees := session_agrees (fun _ => stringCodec_roundTrips) helloInterface_wellNamed
    countCalls 0 hrun (hcalls ▸ helloCalls_encodable)
  exact ⟨s, hcalls, hreturned, hagrees.1⟩

end Hello

end KushOs.Idl
