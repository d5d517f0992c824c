import Mathlib.Data.List.Basic
import Mathlib.Tactic.Common

/-!
# Remote calls over two queues

A client calls a server through a queue of requests and gets its answers through a queue of
replies. A synchronous call makes the client wait for its answer, an asynchronous one is sent and
forgotten. The server takes the requests in order, one at a time. Nothing else is said about when
the parties move.

The purpose of all this is that the calls have the effect that they would have if the client called
the server directly, one call after the other: `direct`.

## Main results

* `Inv.step`: the invariant is preserved by every step of either party.
* `Inv`: among its parts, the calls served so far, with their answers, are those of the direct
  calls.
* `Inv.returned_eq`: the client gets the answers of its synchronous calls, in order.
* `Inv.quiet`: when neither party can move without a new call, everything is done.
-/

namespace RemoteCall

variable {κ σ : Type*}

/-- What is called: which calls are synchronous, and how the server answers a call in a state. -/
structure System (R : κ → Type*) (σ : Type*) where
  sync : κ → Bool
  serve : σ → (c : κ) → R c × σ

variable {R : κ → Type*}

namespace System

variable (sys : System R σ)

/-- The calls made directly, with their answers. -/
def direct : σ → List κ → List (Sigma R)
  | _, [] => []
  | st, c :: cs => ⟨c, (sys.serve st c).1⟩ :: direct (sys.serve st c).2 cs

/-- The state of the server after these calls. -/
def after : σ → List κ → σ
  | st, [] => st
  | st, c :: cs => after (sys.serve st c).2 cs

/-- The answers to the synchronous calls. -/
def answers (served : List (Sigma R)) : List (Sigma R) := served.filter fun v => sys.sync v.1

/-- Calls can be made in two parts: the second one starts where the first one ends. -/
theorem direct_append (st : σ) (cs cs' : List κ) :
    sys.direct st (cs ++ cs') = sys.direct st cs ++ sys.direct (sys.after st cs) cs' := by
  induction cs generalizing st with
  | nil => rfl
  | cons c cs ih => rw [List.cons_append, direct, ih, direct, after, List.cons_append]

/-- The state after calls in two parts. -/
theorem after_append (st : σ) (cs cs' : List κ) :
    sys.after st (cs ++ cs') = sys.after (sys.after st cs) cs' := by
  induction cs generalizing st with
  | nil => rfl
  | cons c cs ih => rw [List.cons_append, after, ih, after]

end System

/-- The parties and what is under way between them. `calls`, `served` and `returned` record the
past: the calls made, the calls answered by the server, the answers that reached the client. -/
structure State (R : κ → Type*) (σ : Type*) where
  waiting : Option κ
  requests : List κ
  replies : List (Sigma R)
  server : σ
  calls : List κ
  served : List (Sigma R)
  returned : List (Sigma R)

/-- The state before the first call. -/
def State.init (st : σ) : State R σ := ⟨none, [], [], st, [], [], []⟩

/-- One step of the client or of the server. -/
inductive Step (sys : System R σ) : State R σ → State R σ → Prop
  | call {s : State R σ} (c : κ) (hidle : s.waiting = none) :
    Step sys s
      { s with
        waiting := if sys.sync c then some c else none
        requests := s.requests ++ [c]
        calls := s.calls ++ [c] }
  | serve {s : State R σ} {c : κ} {rest : List κ} (hreq : s.requests = c :: rest) :
    Step sys s
      { s with
        requests := rest
        replies := s.replies ++ if sys.sync c then [⟨c, (sys.serve s.server c).1⟩] else []
        server := (sys.serve s.server c).2
        served := s.served ++ [⟨c, (sys.serve s.server c).1⟩] }
  | receive {s : State R σ} {v : Sigma R} {rest : List (Sigma R)} (hwait : s.waiting = some v.1)
      (hrep : s.replies = v :: rest) :
    Step sys s { s with waiting := none, replies := rest, returned := s.returned ++ [v] }

/-- Where the synchronous call is that the client waits for, if any. -/
inductive Status (sys : System R σ) (s : State R σ) : Prop
  /-- The client waits for nothing; what is under way are asynchronous requests. -/
  | idle (hwait : s.waiting = none) (hrep : s.replies = [])
      (hasync : ∀ c ∈ s.requests, sys.sync c = false) (hret : sys.answers s.served = s.returned)
  /-- The request is under way, the last one in the queue. -/
  | requested (before : List κ) (c : κ) (hwait : s.waiting = some c) (hsync : sys.sync c = true)
      (hrep : s.replies = []) (hreq : s.requests = before ++ [c])
      (hasync : ∀ b ∈ before, sys.sync b = false) (hret : sys.answers s.served = s.returned)
  /-- The reply is under way, and nothing else. -/
  | replied (v : Sigma R) (hwait : s.waiting = some v.1) (hrep : s.replies = [v])
      (hreq : s.requests = []) (hret : sys.answers s.served = s.returned ++ [v])

/-- The invariant of the two parties, for a server that started in `st`. -/
structure Inv (sys : System R σ) (st : σ) (s : State R σ) : Prop where
  calls_eq : s.calls = s.served.map Sigma.fst ++ s.requests
  served_eq : s.served = sys.direct st (s.served.map Sigma.fst)
  server_eq : s.server = sys.after st (s.served.map Sigma.fst)
  status : Status sys s

variable {sys : System R σ} {st : σ} {s s' : State R σ}

/-- The invariant holds before the first call. -/
theorem Inv.init (sys : System R σ) (st : σ) : Inv sys st (.init st) where
  calls_eq := rfl
  served_eq := rfl
  server_eq := rfl
  status := .idle rfl rfl (by simp [State.init]) rfl

/-- It is kept when a call is made. -/
theorem Inv.call (h : Inv sys st s) (c : κ) (hidle : s.waiting = none) :
    Status sys
      { s with
        waiting := if sys.sync c then some c else none
        requests := s.requests ++ [c]
        calls := s.calls ++ [c] } := by
  rcases h.status with ⟨-, hrep, hasync, hret⟩ | ⟨_, _, hwait, -⟩ | ⟨_, hwait, -⟩
  · cases hc : sys.sync c with
    | false =>
      refine .idle (by simp) hrep (fun b hb => ?_) hret
      rcases List.mem_append.1 hb with hb | hb
      · exact hasync b hb
      · rw [List.mem_singleton.1 hb, hc]
    | true => exact .requested s.requests c (by simp) hc hrep rfl hasync hret
  · rw [hidle] at hwait; cases hwait
  · rw [hidle] at hwait; cases hwait

/-- It is kept when a request is served. -/
theorem Inv.serve (h : Inv sys st s) {c : κ} {rest : List κ} (hreq : s.requests = c :: rest) :
    Status sys
      { s with
        requests := rest
        replies := s.replies ++ if sys.sync c then [⟨c, (sys.serve s.server c).1⟩] else []
        server := (sys.serve s.server c).2
        served := s.served ++ [⟨c, (sys.serve s.server c).1⟩] } := by
  -- an asynchronous call leaves no answer
  have hskip : sys.sync c = false → ∀ r : R c,
      sys.answers (s.served ++ [⟨c, r⟩]) = sys.answers s.served := by
    intro hc r
    simp [System.answers, hc]
  rcases h.status with ⟨hwait, hrep, hasync, hret⟩ |
    ⟨before, b, hwait, hsync, hrep, hreqs, hasync, hret⟩ | ⟨_, _, _, hnone, _⟩
  · have hc : sys.sync c = false := hasync c (by rw [hreq]; exact List.mem_cons_self)
    refine .idle hwait (by simp [hrep, hc]) (fun b hb => hasync b ?_) ((hskip hc _).trans hret)
    rw [hreq]
    exact List.mem_cons_of_mem c hb
  · cases before with
    | nil =>
      -- the request that the client waits for is at the head of the queue
      obtain ⟨rfl, rfl⟩ := List.cons.inj (hreq.symm.trans hreqs)
      refine .replied ⟨c, (sys.serve s.server c).1⟩ hwait (by simp [hrep, hsync]) rfl ?_
      simp only [System.answers] at hret ⊢
      rw [List.filter_append, hret]
      simp [hsync]
    | cons a before =>
      obtain ⟨rfl, rfl⟩ := List.cons.inj (hreq.symm.trans hreqs)
      have hc : sys.sync c = false := hasync c List.mem_cons_self
      exact .requested before b hwait hsync (by simp [hrep, hc]) rfl
        (fun b hb => hasync b (List.mem_cons_of_mem c hb)) ((hskip hc _).trans hret)
  · rw [hreq] at hnone; cases hnone

/-- It is kept when a reply is received. -/
theorem Inv.receive (h : Inv sys st s) {v : Sigma R} {rest : List (Sigma R)}
    (hrep : s.replies = v :: rest) :
    Status sys { s with waiting := none, replies := rest, returned := s.returned ++ [v] } := by
  rcases h.status with ⟨_, hnone, _⟩ | ⟨_, _, _, _, hnone, _⟩ | ⟨v', -, hone, hreq, hret⟩
  · rw [hrep] at hnone; cases hnone
  · rw [hrep] at hnone; cases hnone
  · obtain ⟨rfl, rfl⟩ := List.cons.inj (hrep.symm.trans hone)
    exact .idle rfl rfl (by simp [hreq]) hret

/-- Every step preserves the invariant. -/
theorem Inv.step (h : Inv sys st s) (hstep : Step sys s s') : Inv sys st s' := by
  cases hstep with
  | call c hidle =>
    refine ⟨?_, h.served_eq, h.server_eq, h.call c hidle⟩
    rw [h.calls_eq, List.append_assoc]
  | serve hreq =>
    refine ⟨?_, ?_, ?_, h.serve hreq⟩
    · rw [h.calls_eq, hreq, List.map_append, List.append_assoc]
      rfl
    · simp only [List.map_append, List.map_cons, List.map_nil]
      rw [sys.direct_append, ← h.served_eq, ← h.server_eq]
      rfl
    · simp only [List.map_append, List.map_cons, List.map_nil]
      rw [sys.after_append, ← h.server_eq]
      rfl
  | receive _ hrep => exact ⟨h.calls_eq, h.served_eq, h.server_eq, h.receive hrep⟩

/-- The next call to be served is answered as it is when the calls are made directly. -/
theorem Inv.mem_direct (h : Inv sys st s) {c : κ} {rest : List κ} (hreq : s.requests = c :: rest) :
    ⟨c, (sys.serve s.server c).1⟩ ∈ sys.direct st s.calls := by
  rw [h.calls_eq, hreq, sys.direct_append, ← h.server_eq]
  exact List.mem_append_right _ List.mem_cons_self

/-- An answer under way is the one that the client waits for. -/
theorem Inv.waiting_of_reply (h : Inv sys st s) {v : Sigma R} {rest : List (Sigma R)}
    (hrep : s.replies = v :: rest) : s.waiting = some v.1 := by
  rcases h.status with ⟨_, hnone, _⟩ | ⟨_, _, _, _, hnone, _⟩ | ⟨v', hwait, hone, -⟩
  · rw [hrep] at hnone; cases hnone
  · rw [hrep] at hnone; cases hnone
  · obtain ⟨rfl, -⟩ := List.cons.inj (hrep.symm.trans hone)
    exact hwait

/-- While the client waits for nothing, no answer is under way, and no synchronous request. -/
theorem Inv.of_idle (h : Inv sys st s) (hidle : s.waiting = none) :
    s.replies = [] ∧ ∀ c ∈ s.requests, sys.sync c = false := by
  rcases h.status with ⟨-, hrep, hasync, -⟩ | ⟨_, _, hwait, -⟩ | ⟨_, hwait, -⟩
  · exact ⟨hrep, hasync⟩
  · rw [hidle] at hwait; cases hwait
  · rw [hidle] at hwait; cases hwait

/-- The client has got the answers to its synchronous calls in order; those that it has not got yet
are under way. -/
theorem Inv.returned_eq (h : Inv sys st s) : sys.answers s.served = s.returned ++ s.replies := by
  rcases h.status with ⟨-, hrep, -, hret⟩ | ⟨_, _, -, -, hrep, -, -, hret⟩ | ⟨v, -, hrep, -, hret⟩
  · rw [hrep, hret, List.append_nil]
  · rw [hrep, hret, List.append_nil]
  · rw [hrep, hret]

/-- With both queues empty, the client waits for nothing. -/
theorem Inv.quiet (h : Inv sys st s) (hreq : s.requests = []) (hrep : s.replies = []) :
    s.waiting = none := by
  rcases h.status with ⟨hwait, -⟩ | ⟨before, c, -, -, -, hreqs, -⟩ | ⟨v, -, hone, -⟩
  · exact hwait
  · rw [hreq] at hreqs
    cases before <;> cases hreqs
  · rw [hrep] at hone; cases hone

end RemoteCall
