import KushOs.Foundation.Peg

/-!
# Reasoning about runs of a grammar

What a rule consumes, when it ends, and how runs with two interpretations of the actions compare:
pre- and postconditions relate the two states, and the exceptions of one interpretation go with
exceptions of the other one.

## Main definitions

* `Rule.consuming`, `Rule.terminates`, `Rule.total`, `Rule.silent`: properties of rules that can be
  read off them.
* `Triple`: from states related by a precondition, a rule has the same outcome in both
  interpretations and leaves states related by a postcondition.
* `Rule.Over`, `Rule.Actions`: the characters that a rule consumes, and the rules that its actions
  are attached to.

## Main results

* `Rule.run_split`: a match is a split of the input.
* `Rule.run_ne_diverged`: a rule without idle repetitions ends.
* The rules of inference of `Triple`, one for each kind of rule.
-/

namespace Peg

variable {α χ ε ε' σ τ : Type}

/-! ## Properties of rules -/

namespace Rule

/-- The rule matches no empty text. -/
def consuming : Rule α χ → Bool
  | one _ => true
  | seq a b => a.consuming || b.consuming
  | sor a b => a.consuming && b.consuming
  | skipTo r => r.consuming
  | must r => r.consuming
  | act _ r => r.consuming
  | _ => false

/-- No repetition goes on without consuming anything. -/
def terminates : Rule α χ → Bool
  | seq a b => a.terminates && b.terminates
  | sor a b => a.terminates && b.terminates
  | star r => r.consuming && r.terminates
  | opt r => r.terminates
  | skipTo r => r.terminates
  | must r => r.terminates
  | act _ r => r.terminates
  | _ => true

/-- The rule does not fail. -/
def total : Rule α χ → Bool
  | success => true
  | seq a b => a.total && b.total
  | sor _ b => b.total
  | star _ => true
  | opt _ => true
  | must _ => true
  | act _ r => r.total
  | _ => false

/-- The rule has no actions. -/
def silent : Rule α χ → Bool
  | seq a b => a.silent && b.silent
  | sor a b => a.silent && b.silent
  | star r => r.silent
  | opt r => r.silent
  | skipTo r => r.silent
  | must r => r.silent
  | act _ _ => false
  | _ => true

end Rule

/-! ## Matches as splits of the input -/

section Splits

variable {input rest : List χ} {s t : σ}

/-- What goes on ends in a match from a match or from a failure. -/
theorem Result.next_eq_matched {x : Result χ ε σ} {onMatch : List χ → σ → Result χ ε τ}
    {onFail : σ → Result χ ε τ} {u : τ} :
    x.next onMatch onFail = .matched rest u ↔
      (∃ mid t, x = .matched mid t ∧ onMatch mid t = .matched rest u) ∨
        ∃ t, x = .noMatch t ∧ onFail t = .matched rest u := by
  cases x with
  | matched mid t => simp [Result.next]
  | noMatch t => simp [Result.next]
  | raised e => simp [Result.next]
  | diverged => simp [Result.next]

/-- The parts of a sequence that matches. -/
theorem exists_of_seq {apply : α → List χ → σ → Except ε σ} {a b : Rule α χ}
    (h : (a.seq b).run apply input s = .matched rest t) :
    ∃ mid u, a.run apply input s = .matched mid u ∧ b.run apply mid u = .matched rest t := by
  rw [Rule.run_seq, Result.next_eq_matched] at h
  rcases h with h | ⟨u, -, hend⟩
  · exact h
  · cases hend

/-- The rule and the action of a match. -/
theorem exists_of_act {apply : α → List χ → σ → Except ε σ} {e : α} {r : Rule α χ}
    (h : (Rule.act e r).run apply input s = .matched rest t) :
    ∃ u, r.run apply input s = .matched rest u ∧
      apply e (input.take (input.length - rest.length)) u = .ok t := by
  rw [Rule.run_act, Result.next_eq_matched] at h
  rcases h with ⟨mid, u, hrun, hact⟩ | ⟨u, -, hend⟩
  · split at hact
    · next happly =>
        cases hact
        exact ⟨u, hrun, happly⟩
    · cases hact
  · cases hend

/-- What an action makes of a match of its rule. -/
theorem run_act_of_matched {apply : α → List χ → σ → Except ε σ} {e : α} {r : Rule α χ} {u : σ}
    (h : r.run apply input s = .matched rest t)
    (hact : apply e (input.take (input.length - rest.length)) t = .ok u) :
    (Rule.act e r).run apply input s = .matched rest u := by
  rw [Rule.run_act, h, Result.next, hact]

/-- The input is a text and what is left; the text is not empty when `consuming` says so. -/
def Splits (consuming : Bool) (input rest : List χ) : Prop :=
  ∃ text, input = text ++ rest ∧ (consuming = true → text ≠ [])

/-- An input splits off nothing. -/
theorem splits_self (input : List χ) : Splits false input input :=
  ⟨[], rfl, fun h => Bool.noConfusion h⟩

/-- Splitting off twice consumes a character if one of the two does. -/
theorem Splits.trans {c c' : Bool} {mid : List χ} (h : Splits c input mid)
    (h' : Splits c' mid rest) : Splits (c || c') input rest := by
  obtain ⟨text, rfl, hc⟩ := h
  obtain ⟨text', rfl, hc'⟩ := h'
  refine ⟨text ++ text', (List.append_assoc ..).symm, fun hor hnil => ?_⟩
  obtain ⟨hnil, hnil'⟩ := List.append_eq_nil_iff.mp hnil
  rcases Bool.or_eq_true_iff.mp hor with hor | hor
  · exact hc hor hnil
  · exact hc' hor hnil'

/-- It may be forgotten that a character was consumed. -/
theorem Splits.weaken {c c' : Bool} (h : Splits c input rest) (hc : c' = true → c = true) :
    Splits c' input rest := by
  obtain ⟨text, htext, hne⟩ := h
  exact ⟨text, htext, fun hc' => hne (hc hc')⟩

/-- An input gets shorter when a character is consumed. -/
theorem Splits.length_lt (h : Splits true input rest) : rest.length < input.length := by
  obtain ⟨text, rfl, hne⟩ := h
  have hpos := List.length_pos_iff.mpr (hne rfl)
  rw [List.length_append]
  omega

/-- A repetition leaves a rest of its input. -/
theorem starLoop_split {f : List χ → σ → Result χ ε σ} {c : Bool}
    (hf : ∀ input s rest t, f input s = .matched rest t → Splits c input rest) (n : ℕ)
    (h : starLoop f n input s = .matched rest t) : Splits false input rest := by
  induction n generalizing input s with
  | zero => cases h
  | succ n ih =>
      rw [starLoop, Result.next_eq_matched] at h
      rcases h with ⟨mid, u, hround, hloop⟩ | ⟨u, -, hend⟩
      · exact ((hf _ _ _ _ hround).trans (ih hloop)).weaken fun h => Bool.noConfusion h
      · cases hend
        exact splits_self _

/-- Skipping to a rule leaves a rest, too, and consumes a character if the rule does. -/
theorem skipLoop_split {f : List χ → σ → Result χ ε σ} {c : Bool}
    (hf : ∀ input s rest t, f input s = .matched rest t → Splits c input rest)
    (h : skipLoop f input s = .matched rest t) : Splits c input rest := by
  induction input generalizing s with
  | nil => exact hf _ _ _ _ h
  | cons d input ih =>
      rw [skipLoop, Result.next_eq_matched] at h
      rcases h with ⟨mid, u, hround, hend⟩ | ⟨u, -, hloop⟩
      · cases hend
        exact hf _ _ _ _ hround
      · obtain ⟨text, rfl, -⟩ := ih hloop
        exact ⟨d :: text, rfl, fun _ => List.cons_ne_nil _ _⟩

/-- What a rule leaves is the end of its input. -/
theorem Rule.run_split {apply : α → List χ → σ → Except ε σ} (r : Rule α χ)
    (h : r.run apply input s = .matched rest t) : Splits r.consuming input rest := by
  induction r generalizing input s rest t with
  | one p =>
      cases input with
      | nil => cases h
      | cons c input =>
          rw [Rule.run_one_cons] at h
          split at h
          · cases h
            exact ⟨[c], rfl, fun _ => List.cons_ne_nil _ _⟩
          · cases h
  | success =>
      cases h
      exact splits_self _
  | eof =>
      rw [Rule.run_eof] at h
      split at h
      · cases h
        exact splits_self _
      · cases h
  | notAt p =>
      rw [Rule.run_notAt] at h
      split at h
      · cases h
      · cases h
        exact splits_self _
  | seq a b iha ihb =>
      obtain ⟨mid, u, ha, hb⟩ := exists_of_seq h
      exact (iha ha).trans (ihb hb)
  | sor a b iha ihb =>
      -- either alternative may be the one that consumes nothing
      rw [Rule.run_sor, Result.next_eq_matched] at h
      rcases h with ⟨mid, u, ha, hend⟩ | ⟨u, -, hb⟩
      · cases hend
        exact (iha ha).weaken fun hand => (Bool.and_eq_true_iff.mp hand).1
      · exact (ihb hb).weaken fun hand => (Bool.and_eq_true_iff.mp hand).2
  | star r ih => exact starLoop_split (fun _ _ _ _ hround => ih hround) _ h
  | opt r ih =>
      rw [Rule.run_opt, Result.next_eq_matched] at h
      rcases h with ⟨mid, u, hr, hend⟩ | ⟨u, -, hend⟩
      · cases hend
        exact (ih hr).weaken fun hfalse => Bool.noConfusion hfalse
      · cases hend
        exact splits_self _
  | skipTo r ih => exact skipLoop_split (fun _ _ _ _ hround => ih hround) h
  | must r ih =>
      rw [Rule.run_must, Result.next_eq_matched] at h
      rcases h with ⟨mid, u, hr, hend⟩ | ⟨u, -, hend⟩
      · cases hend
        exact ih hr
      · cases hend
  | act e r ih =>
      obtain ⟨u, hr, -⟩ := exists_of_act h
      exact ih hr

/-- Every character that the rule consumes is of the class `q`. -/
def Rule.Over (q : χ → Prop) : Rule α χ → Prop
  | .one p => ∀ c, p c = true → q c
  | .success => True
  | .eof => True
  | .notAt _ => True
  | .seq a b => a.Over q ∧ b.Over q
  | .sor a b => a.Over q ∧ b.Over q
  | .star r => r.Over q
  | .opt r => r.Over q
  | .skipTo r => (∀ c, q c) ∧ r.Over q
  | .must r => r.Over q
  | .act _ r => r.Over q

/-- Every rule is over all characters. -/
theorem Rule.over_true (r : Rule α χ) : r.Over fun _ => True := by
  induction r with
  | one | success | eof | notAt => simp [Rule.Over]
  | seq a b iha ihb => exact ⟨iha, ihb⟩
  | sor a b iha ihb => exact ⟨iha, ihb⟩
  | star r ih => exact ih
  | opt r ih => exact ih
  | skipTo r ih => exact ⟨fun _ => trivial, ih⟩
  | must r ih => exact ih
  | act e r ih => exact ih

/-- Between an input and what is left of it there are characters of the class `q` only. -/
def SplitsOver (q : χ → Prop) (input rest : List χ) : Prop :=
  ∃ text, input = text ++ rest ∧ ∀ c ∈ text, q c

/-- Nothing is consumed between an input and itself. -/
theorem splitsOver_self (q : χ → Prop) (input : List χ) : SplitsOver q input input :=
  ⟨[], rfl, by simp⟩

/-- What is consumed in two steps is over a class if both parts are. -/
theorem SplitsOver.trans {q : χ → Prop} {mid : List χ} (h : SplitsOver q input mid)
    (h' : SplitsOver q mid rest) : SplitsOver q input rest := by
  obtain ⟨text, rfl, hq⟩ := h
  obtain ⟨text', rfl, hq'⟩ := h'
  exact ⟨text ++ text', (List.append_assoc ..).symm, fun c hc =>
    (List.mem_append.mp hc).elim (hq c) (hq' c)⟩

/-- What a rule over a class consumes is of the class. -/
theorem Rule.run_splitsOver {apply : α → List χ → σ → Except ε σ} {q : χ → Prop} (r : Rule α χ)
    (hr : r.Over q) (h : r.run apply input s = .matched rest t) : SplitsOver q input rest := by
  induction r generalizing input s rest t with
  | one p =>
      cases input with
      | nil => cases h
      | cons c input =>
          rw [Rule.run_one_cons] at h
          split at h
          · next hp =>
              cases h
              exact ⟨[c], rfl, by simpa using hr c hp⟩
          · cases h
  | success =>
      cases h
      exact splitsOver_self q _
  | eof =>
      rw [Rule.run_eof] at h
      split at h
      · cases h
        exact splitsOver_self q _
      · cases h
  | notAt p =>
      rw [Rule.run_notAt] at h
      split at h
      · cases h
      · cases h
        exact splitsOver_self q _
  | seq a b iha ihb =>
      obtain ⟨mid, u, ha, hb⟩ := exists_of_seq h
      exact (iha hr.1 ha).trans (ihb hr.2 hb)
  | sor a b iha ihb =>
      rw [Rule.run_sor, Result.next_eq_matched] at h
      rcases h with ⟨mid, u, ha, hend⟩ | ⟨u, -, hb⟩
      · cases hend
        exact iha hr.1 ha
      · exact ihb hr.2 hb
  | star r ih =>
      rw [Rule.run_star] at h
      generalize input.length + 1 = n at h
      induction n generalizing input s with
      | zero => cases h
      | succ n ihn =>
          rw [starLoop, Result.next_eq_matched] at h
          rcases h with ⟨mid, u, hround, hloop⟩ | ⟨u, -, hend⟩
          · exact (ih hr hround).trans (ihn hloop)
          · cases hend
            exact splitsOver_self q _
  | opt r ih =>
      rw [Rule.run_opt, Result.next_eq_matched] at h
      rcases h with ⟨mid, u, hround, hend⟩ | ⟨u, -, hend⟩
      · cases hend
        exact ih hr hround
      · cases hend
        exact splitsOver_self q _
  | skipTo r ih =>
      -- any character may be skipped, so the class is everything
      obtain ⟨text, rfl, -⟩ := (Rule.skipTo r).run_split h
      exact ⟨text, rfl, fun c _ => hr.1 c⟩
  | must r ih =>
      rw [Rule.run_must, Result.next_eq_matched] at h
      rcases h with ⟨mid, u, hround, hend⟩ | ⟨u, -, hend⟩
      · cases hend
        exact ih hr hround
      · cases hend
  | act e r ih =>
      obtain ⟨u, hround, -⟩ := exists_of_act h
      exact ih hr hround

/-- Every action of the rule is attached to a rule as `ok` asks for. -/
def Rule.Actions (ok : α → Rule α χ → Prop) : Rule α χ → Prop
  | .one _ => True
  | .success => True
  | .eof => True
  | .notAt _ => True
  | .seq a b => a.Actions ok ∧ b.Actions ok
  | .sor a b => a.Actions ok ∧ b.Actions ok
  | .star r => r.Actions ok
  | .opt r => r.Actions ok
  | .skipTo r => r.Actions ok
  | .must r => r.Actions ok
  | .act e r => ok e r

/-- A condition on the actions of a rule may be weakened. -/
theorem Rule.Actions.imp {ok ok' : α → Rule α χ → Prop} (h : ∀ e r, ok e r → ok' e r)
    {r : Rule α χ} (hr : r.Actions ok) : r.Actions ok' := by
  induction r with
  | one | success | eof | notAt => trivial
  | seq a b iha ihb => exact ⟨iha hr.1, ihb hr.2⟩
  | sor a b iha ihb => exact ⟨iha hr.1, ihb hr.2⟩
  | star r ih => exact ih hr
  | opt r ih => exact ih hr
  | skipTo r ih => exact ih hr
  | must r ih => exact ih hr
  | act e r => exact h e r hr

end Splits

/-! ## Runs that end, and runs that do not fail -/

section Ends

variable {apply : α → List χ → σ → Except ε σ} {input : List χ} {s t : σ}

/-- A match is no divergence. -/
theorem Result.matched_ne_diverged (rest : List χ) (s : σ) :
    (.matched rest s : Result χ ε σ) ≠ .diverged := by
  intro h
  cases h

/-- A failure is no divergence. -/
theorem Result.noMatch_ne_diverged (s : σ) : (.noMatch s : Result χ ε σ) ≠ .diverged := by
  intro h
  cases h

/-- An error is no divergence. -/
theorem Result.raised_ne_diverged (e : Error ε) : (.raised e : Result χ ε σ) ≠ .diverged := by
  intro h
  cases h

/-- A step that does not go on for ever, followed by such steps. -/
theorem Result.next_ne_diverged {x : Result χ ε σ} {onMatch : List χ → σ → Result χ ε τ}
    {onFail : σ → Result χ ε τ} (hx : x ≠ .diverged)
    (hmatch : ∀ rest s, x = .matched rest s → onMatch rest s ≠ .diverged)
    (hfail : ∀ s, onFail s ≠ .diverged) : x.next onMatch onFail ≠ .diverged := by
  cases x with
  | matched rest s => exact hmatch rest s rfl
  | noMatch s => exact hfail s
  | raised e => exact Result.raised_ne_diverged e
  | diverged => exact absurd rfl hx

/-- A loop whose rounds consume something has enough rounds when it has one more than there are
characters. -/
theorem starLoop_ne_diverged {f : List χ → σ → Result χ ε σ}
    (hf : ∀ input s, f input s ≠ .diverged)
    (hsplit : ∀ input s rest t, f input s = .matched rest t → Splits true input rest) {n : ℕ}
    (hn : input.length < n) : starLoop f n input s ≠ .diverged := by
  induction n generalizing input s with
  | zero => exact absurd hn (Nat.not_lt_zero _)
  | succ n ih =>
      rw [starLoop]
      refine Result.next_ne_diverged (hf input s) (fun rest t hround => ih ?_)
        (Result.matched_ne_diverged input)
      exact Nat.lt_of_lt_of_le (hsplit _ _ _ _ hround).length_lt (Nat.le_of_lt_succ hn)

/-- Skipping to a rule ends if the rule always ends: the input gets shorter. -/
theorem skipLoop_ne_diverged {f : List χ → σ → Result χ ε σ}
    (hf : ∀ input s, f input s ≠ .diverged) : skipLoop f input s ≠ .diverged := by
  induction input generalizing s with
  | nil => exact hf [] s
  | cons c input ih =>
      exact Result.next_ne_diverged (hf _ s) (fun rest t _ => Result.matched_ne_diverged rest t)
        fun s => ih

/-- A rule without idle repetitions ends, whatever its actions do. -/
theorem Rule.run_ne_diverged (r : Rule α χ) (h : r.terminates = true) :
    r.run apply input s ≠ .diverged := by
  induction r generalizing input s with
  | one p =>
      cases input with
      | nil => exact Result.noMatch_ne_diverged s
      | cons c input =>
          rw [Rule.run_one_cons]
          split
          · exact Result.matched_ne_diverged input s
          · exact Result.noMatch_ne_diverged s
  | success => exact Result.matched_ne_diverged input s
  | eof =>
      rw [Rule.run_eof]
      split
      · exact Result.matched_ne_diverged input s
      · exact Result.noMatch_ne_diverged s
  | notAt p =>
      rw [Rule.run_notAt]
      split
      · exact Result.noMatch_ne_diverged s
      · exact Result.matched_ne_diverged input s
  | seq a b iha ihb =>
      obtain ⟨ha, hb⟩ := Bool.and_eq_true_iff.mp h
      exact Result.next_ne_diverged (iha ha) (fun _ _ _ => ihb hb) Result.noMatch_ne_diverged
  | sor a b iha ihb =>
      obtain ⟨ha, hb⟩ := Bool.and_eq_true_iff.mp h
      exact Result.next_ne_diverged (iha ha) (fun rest t _ => Result.matched_ne_diverged rest t)
        fun _ => ihb hb
  | star r ih =>
      -- only repetitions can go on for ever, and those of a consuming rule do not
      obtain ⟨hconsuming, hr⟩ := Bool.and_eq_true_iff.mp h
      refine starLoop_ne_diverged (fun _ _ => ih hr) (fun _ _ _ _ hround => ?_) (Nat.lt_succ_self _)
      exact hconsuming ▸ r.run_split hround
  | opt r ih =>
      exact Result.next_ne_diverged (ih h) (fun rest t _ => Result.matched_ne_diverged rest t)
        (Result.matched_ne_diverged input)
  | skipTo r ih => exact skipLoop_ne_diverged fun _ _ => ih h
  | must r ih =>
      exact Result.next_ne_diverged (ih h) (fun rest t _ => Result.matched_ne_diverged rest t)
        fun _ => Result.raised_ne_diverged .parse
  | act e r ih =>
      refine Result.next_ne_diverged (ih h) (fun rest t _ => ?_) Result.noMatch_ne_diverged
      split
      · exact Result.matched_ne_diverged rest _
      · exact Result.raised_ne_diverged _

/-- What goes on ends in a failure from a match or from a failure. -/
theorem Result.next_eq_noMatch {x : Result χ ε σ} {onMatch : List χ → σ → Result χ ε τ}
    {onFail : σ → Result χ ε τ} {u : τ} :
    x.next onMatch onFail = .noMatch u ↔
      (∃ mid t, x = .matched mid t ∧ onMatch mid t = .noMatch u) ∨
        ∃ t, x = .noMatch t ∧ onFail t = .noMatch u := by
  cases x with
  | matched mid t => simp [Result.next]
  | noMatch t => simp [Result.next]
  | raised e => simp [Result.next]
  | diverged => simp [Result.next]

/-- A repetition never fails. -/
theorem starLoop_ne_noMatch {f : List χ → σ → Result χ ε σ} (n : ℕ) :
    starLoop f n input s ≠ .noMatch t := by
  induction n generalizing input s with
  | zero => exact (Result.noMatch_ne_diverged t).symm
  | succ n ih =>
      rw [starLoop, Ne, Result.next_eq_noMatch]
      rintro (⟨mid, u, -, hloop⟩ | ⟨u, -, hend⟩)
      · exact ih hloop
      · cases hend

/-- A total rule does not fail, whatever its actions do. -/
theorem Rule.run_ne_noMatch (r : Rule α χ) (h : r.total = true) :
    r.run apply input s ≠ .noMatch t := by
  induction r generalizing input s t with
  | seq a b iha ihb =>
      obtain ⟨ha, hb⟩ := Bool.and_eq_true_iff.mp h
      rw [Rule.run_seq, Ne, Result.next_eq_noMatch]
      rintro (⟨mid, u, -, hfail⟩ | ⟨u, hfail, -⟩)
      · exact ihb hb hfail
      · exact iha ha hfail
  | sor a b _ ihb =>
      rw [Rule.run_sor, Ne, Result.next_eq_noMatch]
      rintro (⟨mid, u, -, hend⟩ | ⟨u, -, hfail⟩)
      · cases hend
      · exact ihb h hfail
  | star r => exact starLoop_ne_noMatch _
  | opt r =>
      rw [Rule.run_opt, Ne, Result.next_eq_noMatch]
      rintro (⟨mid, u, -, hend⟩ | ⟨u, -, hend⟩) <;> cases hend
  | must r =>
      rw [Rule.run_must, Ne, Result.next_eq_noMatch]
      rintro (⟨mid, u, -, hend⟩ | ⟨u, -, hend⟩) <;> cases hend
  | act e r ih =>
      rw [Rule.run_act, Ne, Result.next_eq_noMatch]
      rintro (⟨mid, u, -, hact⟩ | ⟨u, hfail, -⟩)
      · split at hact <;> cases hact
      · exact ih h hfail
  | success =>
      intro h
      cases h
  | one p => cases h
  | eof => cases h
  | notAt p => cases h
  | skipTo r => cases h

end Ends

/-! ## Two interpretations -/

section Triples

/-- Outcomes of the same kind: matches that leave the same input and states related by `Q`, failures
in states related by `F`, two parse errors, or exceptions related by `E`. -/
inductive Related (E : ε → ε' → Prop) (Q F : σ → τ → Prop) : Result χ ε σ → Result χ ε' τ → Prop
  | matched (rest : List χ) {s : σ} {t : τ} : Q s t →
      Related E Q F (.matched rest s) (.matched rest t)
  | noMatch {s : σ} {t : τ} : F s t → Related E Q F (.noMatch s) (.noMatch t)
  | parse : Related E Q F (.raised .parse) (.raised .parse)
  | exception {e : ε} {e' : ε'} : E e e' →
      Related E Q F (.raised (.exception e)) (.raised (.exception e'))
  | diverged : Related E Q F .diverged .diverged

/-- Outcomes of actions of the same kind. -/
inductive RelatedActions (E : ε → ε' → Prop) (Q : σ → τ → Prop) : Except ε σ → Except ε' τ → Prop
  | ok {s : σ} {t : τ} : Q s t → RelatedActions E Q (.ok s) (.ok t)
  | error {e : ε} {e' : ε'} : E e e' → RelatedActions E Q (.error e) (.error e')

variable (apply : α → List χ → σ → Except ε σ) (apply' : α → List χ → τ → Except ε' τ)
  (E : ε → ε' → Prop)

/-- From states related by `P`, the rule matches in states related by `Q` or fails in states related
by `F`, in both interpretations, or it ends in related errors. -/
def Triple (P : σ → τ → Prop) (r : Rule α χ) (Q F : σ → τ → Prop) : Prop :=
  ∀ input s t, P s t → Related E Q F (r.run apply input s) (r.run apply' input t)

variable {apply apply' E} {P P' M Q Q' F F' : σ → τ → Prop} {a b r : Rule α χ}

/-- Related results that go on in related ways are related. -/
theorem Related.next {x : Result χ ε σ} {y : Result χ ε' τ} (h : Related E M F x y)
    {onMatch : List χ → σ → Result χ ε σ} {onMatch' : List χ → τ → Result χ ε' τ}
    {onFail : σ → Result χ ε σ} {onFail' : τ → Result χ ε' τ}
    (hmatch : ∀ rest s t, x = .matched rest s → M s t →
      Related E Q F' (onMatch rest s) (onMatch' rest t))
    (hfail : ∀ s t, F s t → Related E Q F' (onFail s) (onFail' t)) :
    Related E Q F' (x.next onMatch onFail) (y.next onMatch' onFail') := by
  cases h with
  | matched rest hM => exact hmatch rest _ _ rfl hM
  | noMatch hF => exact hfail _ _ hF
  | parse => exact .parse
  | exception hE => exact .exception hE
  | diverged => exact .diverged

/-- The relations between the final states may be weakened. -/
theorem Related.imp {x : Result χ ε σ} {y : Result χ ε' τ} (h : Related E Q F x y)
    (hQ : ∀ s t, Q s t → Q' s t) (hF : ∀ s t, F s t → F' s t) : Related E Q' F' x y := by
  cases h with
  | matched rest hst => exact .matched rest (hQ _ _ hst)
  | noMatch hst => exact .noMatch (hF _ _ hst)
  | parse => exact .parse
  | exception hE => exact .exception hE
  | diverged => exact .diverged

/-! ### Rules of inference -/

namespace Triple

/-- The rule of consequence. -/
theorem imp (h : Triple apply apply' E P r Q F) (hP : ∀ s t, P' s t → P s t)
    (hQ : ∀ s t, Q s t → Q' s t) (hF : ∀ s t, F s t → F' s t) :
    Triple apply apply' E P' r Q' F' :=
  fun input s t hst => (h input s t (hP s t hst)).imp hQ hF

/-- The relation after a failure may be weakened. -/
theorem fails_imp (h : Triple apply apply' E P r Q F) (hF : ∀ s t, F s t → F' s t) :
    Triple apply apply' E P r Q F' :=
  h.imp (fun _ _ hP => hP) (fun _ _ hQ => hQ) hF

/-- A total rule fails in whatever states are asked for. -/
theorem of_total (h : Triple apply apply' E P r Q F) (hr : r.total = true) :
    Triple apply apply' E P r Q F' := by
  intro input s t hst
  have hrun := h input s t hst
  generalize hx : r.run apply input s = x at hrun ⊢
  generalize r.run apply' input t = y at hrun ⊢
  cases hrun with
  | matched rest hQ => exact .matched rest hQ
  | noMatch => exact absurd hx (r.run_ne_noMatch hr)
  | parse => exact .parse
  | exception hE => exact .exception hE
  | diverged => exact .diverged

/-- In a sequence the relation after the first rule is the one before the second. -/
theorem seq (ha : Triple apply apply' E P a M F) (hb : Triple apply apply' E M b Q F) :
    Triple apply apply' E P (a.seq b) Q F :=
  fun input s t h => (ha input s t h).next (fun rest s t _ => hb rest s t) fun _ _ => .noMatch

/-- The second alternative starts where the first one has failed. -/
theorem sor (ha : Triple apply apply' E P a Q M) (hb : Triple apply apply' E M b Q F) :
    Triple apply apply' E P (a.sor b) Q F :=
  fun input s t h => (ha input s t h).next (fun rest _ _ _ => .matched rest) (hb input)

/-- A repetition keeps an invariant and stops where its rule fails. -/
theorem star (h : Triple apply apply' E P r P Q) : Triple apply apply' E P r.star Q F := by
  intro input s t hst
  rw [Rule.run_star, Rule.run_star]
  generalize input.length + 1 = n
  induction n generalizing input s t with
  | zero => exact .diverged
  | succ n ih =>
      exact (h input s t hst).next (fun rest s t _ hP => ih rest s t hP) fun _ _ =>
        .matched input

/-- An optional rule does not fail, so the relation after a failure is the one after a match. -/
theorem opt (h : Triple apply apply' E P r Q Q) : Triple apply apply' E P r.opt Q F :=
  fun input s t hst =>
    (h input s t hst).next (fun rest _ _ _ => .matched rest) fun _ _ => .matched input

/-- A failure under `must` is an error of both interpretations. -/
theorem must (h : Triple apply apply' E P r Q M) : Triple apply apply' E P r.must Q F :=
  fun input s t hst =>
    (h input s t hst).next (fun rest _ _ _ => .matched rest) fun _ _ _ => .parse

/-- When skipping, a failure comes back to the state before. -/
theorem skipTo (h : Triple apply apply' E P r Q P) : Triple apply apply' E P r.skipTo Q P := by
  intro input s t hst
  rw [Rule.run_skipTo, Rule.run_skipTo]
  induction input generalizing s t with
  | nil => exact h [] s t hst
  | cons c input ih =>
      exact (h (c :: input) s t hst).next (fun rest _ _ _ => .matched rest) ih

/-- A rule without actions keeps whatever holds. -/
theorem silent (P : σ → τ → Prop) (h : r.silent = true) : Triple apply apply' E P r P P := by
  induction r with
  | one p =>
      intro input s t hst
      cases input with
      | nil => exact .noMatch hst
      | cons c input =>
          rw [Rule.run_one_cons, Rule.run_one_cons]
          split
          · exact .matched input hst
          · exact .noMatch hst
  | success => exact fun input s t hst => .matched input hst
  | eof =>
      intro input s t hst
      rw [Rule.run_eof, Rule.run_eof]
      split
      · exact .matched input hst
      · exact .noMatch hst
  | notAt p =>
      intro input s t hst
      rw [Rule.run_notAt, Rule.run_notAt]
      split
      · exact .noMatch hst
      · exact .matched input hst
  | seq a b iha ihb =>
      obtain ⟨ha, hb⟩ := Bool.and_eq_true_iff.mp h
      exact (iha ha).seq (ihb hb)
  | sor a b iha ihb =>
      obtain ⟨ha, hb⟩ := Bool.and_eq_true_iff.mp h
      exact (iha ha).sor (ihb hb)
  | star r ih => exact (ih h).star
  | opt r ih => exact (ih h).opt
  | skipTo r ih => exact (ih h).skipTo
  | must r ih => exact (ih h).must
  | act e r => cases h

/-- An action that is attached to a rule without actions sees some text, which is not empty if the
rule consumes something. -/
theorem act {e : α} (hr : r.silent = true)
    (h : ∀ text s t, (r.consuming = true → text ≠ []) → P s t →
      RelatedActions E Q (apply e text s) (apply' e text t)) :
    Triple apply apply' E P (.act e r) Q P := by
  intro input s t hst
  refine (silent P hr input s t hst).next (fun rest s' t' hrun hP => ?_) fun _ _ => .noMatch
  have htext : r.consuming = true → input.take (input.length - rest.length) ≠ [] := by
    obtain ⟨text, rfl, hne⟩ := r.run_split hrun
    rwa [List.length_append, Nat.add_sub_cancel, List.take_left' rfl]
  have hact := h _ s' t' htext hP
  generalize apply e _ s' = x at hact ⊢
  generalize apply' e _ t' = y at hact ⊢
  cases hact with
  | ok hQ => exact .matched rest hQ
  | error hE => exact .exception hE

/-- The same for an action that is attached to a rule over a class. -/
theorem act_over {e : α} {q : χ → Prop} (hr : r.silent = true) (hq : r.Over q)
    (h : ∀ text s t, (∀ c ∈ text, q c) → P s t →
      RelatedActions E Q (apply e text s) (apply' e text t)) :
    Triple apply apply' E P (.act e r) Q P := by
  intro input s t hst
  refine (silent P hr input s t hst).next (fun rest s' t' hrun hP => ?_) fun _ _ => .noMatch
  have htext : ∀ c ∈ input.take (input.length - rest.length), q c := by
    obtain ⟨text, rfl, hall⟩ := r.run_splitsOver hq hrun
    rwa [List.length_append, Nat.add_sub_cancel, List.take_left' rfl]
  have hact := h _ s' t' htext hP
  generalize apply e _ s' = x at hact ⊢
  generalize apply' e _ t' = y at hact ⊢
  cases hact with
  | ok hQ => exact .matched rest hQ
  | error hE => exact .exception hE

/-- What every action keeps, given the texts that it sees, every rule keeps. -/
theorem of_actions (h : r.Actions fun e r' => r'.silent = true ∧ ∃ q, r'.Over q ∧
      ∀ text s t, (∀ c ∈ text, q c) → P s t →
        RelatedActions E P (apply e text s) (apply' e text t)) :
    Triple apply apply' E P r P P := by
  induction r with
  | one p => exact silent P rfl
  | success => exact silent P rfl
  | eof => exact silent P rfl
  | notAt p => exact silent P rfl
  | seq a b iha ihb => exact (iha h.1).seq (ihb h.2)
  | sor a b iha ihb => exact (iha h.1).sor (ihb h.2)
  | star r ih => exact (ih h).star
  | opt r ih => exact (ih h).opt
  | skipTo r ih => exact (ih h).skipTo
  | must r ih => exact (ih h).must
  | act e r ih =>
      obtain ⟨hr, q, hq, hact⟩ := h
      exact act_over hr hq hact

end Triple

/-- A rule without actions leaves the state alone. -/
theorem Rule.run_silent (r : Rule α χ) (h : r.silent = true) {input rest : List χ} {s t : σ}
    (hrun : r.run apply input s = .matched rest t) : t = s := by
  have htriple : Triple apply apply (fun _ _ => True) (fun u _ => u = s) r (fun u _ => u = s)
      fun u _ => u = s := Triple.silent _ h
  have hkeeps := htriple input s s rfl
  rw [hrun] at hkeeps
  cases hkeeps with
  | matched _ heq => exact heq

end Triples

end Peg
