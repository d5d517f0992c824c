import Mathlib.Data.List.TakeWhile
import KushOs.Foundation.PegLogic

/-!
# Changing what is behind a match

A rule looks at the text that it matches, and a little further. When what is behind its match
changes, it still matches, as long as the change does not matter to the rules that look ahead:
repetitions, options, and ordered choices whose first alternative has failed.

## Main definitions

* `Rounds`: the rounds of a repetition.
* `Local`: a rule still matches the same text when what is behind it is replaced by something that
  is related to it.
* `Rematches`: a rule still matches when anything else is put behind its match, and leaves a part of
  that.

## Main results

* `Rounds.run_star`: a repetition can be run from any point that its rounds come to.
* The rules of inference of `Local` and `Rematches`.
-/

namespace Peg

variable {α χ ε σ : Type} {apply : α → List χ → σ → Except ε σ} {a b r : Rule α χ}
  {p : χ → Bool} {input mid rest : List χ} {s t u : σ}

/-! ## Repetitions -/

theorem stops_dropWhile (p : χ → Bool) (l : List χ) : Stops p (l.dropWhile p) := by
  intro c hc
  have hhead := List.head?_dropWhile_not p l
  rw [Option.mem_def.mp hc] at hhead
  simpa using hhead

theorem dropWhile_of_stops {l : List χ} (h : Stops p l) : l.dropWhile p = l := by
  cases l with
  | nil => rfl
  | cons c l =>
      have hc : p c = false := h c rfl
      rw [List.dropWhile_cons, hc]
      rfl

theorem dropWhile_append {m : List χ} (hm : ∀ c ∈ m, p c = true) (l : List χ) :
    (m ++ l).dropWhile p = l.dropWhile p := List.dropWhile_append_of_pos hm

/-- A repeated class takes the longest text of the class. -/
theorem run_star_one : (Rule.one p).star.run apply input s = .matched (input.dropWhile p) s := by
  have hmatch : Matches apply (Rule.one p).star (input.takeWhile p ++ input.dropWhile p) s
      (input.dropWhile p) s :=
    matches_star_one _ (fun c hc => List.mem_takeWhile_imp hc) (stops_dropWhile p input)
  rwa [List.takeWhile_append_dropWhile] at hmatch

/-- The text that a repeated class takes is of the class. -/
theorem forall_mem_of_dropWhile {m : List χ} (h : (m ++ rest).dropWhile p = rest) :
    ∀ c ∈ m, p c = true := by
  have happend := @List.takeWhile_append_dropWhile _ p (m ++ rest)
  rw [h] at happend
  rw [← List.append_cancel_right happend]
  exact fun c hc => List.mem_takeWhile_imp hc

/-- With more rounds than there are characters, a loop whose rounds consume something does not
depend on their number. -/
theorem starLoop_eq {f : List χ → σ → Result χ ε σ}
    (hsplit : ∀ input s rest t, f input s = .matched rest t → Splits true input rest) {n m : ℕ}
    (hn : input.length < n) (hm : input.length < m) :
    starLoop f n input s = starLoop f m input s := by
  induction n generalizing m input s with
  | zero => exact absurd hn (Nat.not_lt_zero _)
  | succ n ih =>
      obtain ⟨m, rfl⟩ : ∃ k, m = k + 1 := ⟨m - 1, by omega⟩
      rw [starLoop, starLoop]
      cases hround : f input s with
      | matched rest t =>
          have hlt := (hsplit _ _ _ _ hround).length_lt
          exact ih (by omega) (by omega)
      | noMatch t => rfl
      | raised e => rfl
      | diverged => rfl

/-- A repetition is a round and the repetition, or nothing. -/
theorem run_star_next (hr : r.consuming = true) :
    r.star.run apply input s = (r.run apply input s).next (r.star.run apply) (.matched input) := by
  have hsplit : ∀ input s rest t, r.run apply input s = .matched rest t → Splits true input rest :=
    fun _ _ _ _ h => hr ▸ r.run_split h
  rw [Rule.run_star, starLoop]
  cases hround : r.run apply input s with
  | matched mid t =>
      -- the rest has fewer characters than there are rounds left
      have hlt := (hsplit _ _ _ _ hround).length_lt
      exact starLoop_eq hsplit hlt (Nat.lt_succ_self _)
  | noMatch t => rfl
  | raised e => rfl
  | diverged => rfl

theorem run_star_of_matched (hr : r.consuming = true)
    (hround : r.run apply input s = .matched mid t) :
    r.star.run apply input s = r.star.run apply mid t := by
  rw [run_star_next hr, hround, Result.next]

theorem run_star_of_noMatch (hround : r.run apply input s = .noMatch t) :
    r.star.run apply input s = .matched input t := by
  rw [Rule.run_star, starLoop, hround, Result.next]

/-- An optional rule with its repetition is the repetition. -/
theorem run_opt_seq_star (hr : r.consuming = true) :
    (Rule.opt (r.seq r.star)).run apply input s = r.star.run apply input s := by
  rw [Rule.run_opt, Rule.run_seq, run_star_next hr]
  cases hround : r.run apply input s with
  | matched mid t =>
      show Result.next (r.star.run apply mid t) _ _ = r.star.run apply mid t
      cases hstar : r.star.run apply mid t with
      | noMatch u => exact absurd hstar (r.star.run_ne_noMatch rfl)
      | matched rest u => rfl
      | raised e => rfl
      | diverged => rfl
  | noMatch t => rfl
  | raised e => rfl
  | diverged => rfl

/-- Some rounds of a repetition: where they start, and where they come to. -/
inductive Rounds (apply : α → List χ → σ → Except ε σ) (r : Rule α χ) :
    List χ → σ → List χ → σ → Prop
  | none (input : List χ) (s : σ) : Rounds apply r input s input s
  | next {input mid rest : List χ} {s t u : σ} : r.run apply input s = .matched mid t →
      Rounds apply r mid t rest u → Rounds apply r input s rest u

/-- A repetition can be run from wherever its rounds come to. -/
theorem Rounds.run_star (h : Rounds apply r input s rest t) (hr : r.consuming = true) :
    r.star.run apply input s = r.star.run apply rest t := by
  induction h with
  | none => rfl
  | next hround _ ih => exact (run_star_of_matched hr hround).trans ih

theorem Rounds.splits (h : Rounds apply r input s rest t) : Splits false input rest := by
  induction h with
  | none => exact splits_self _
  | next hround _ ih => exact ((r.run_split hround).trans ih).weaken fun h => Bool.noConfusion h

theorem Rounds.eq_or_matched (h : Rounds apply r input s rest t) :
    input = rest ∨ ∃ mid u, r.run apply input s = .matched mid u := by
  cases h with
  | none => exact .inl rfl
  | next hround _ => exact .inr ⟨_, _, hround⟩

/-- A repetition that ends has gone through rounds and come to a point where its rule fails. -/
theorem rounds_of_run_star (h : r.star.run apply input s = .matched rest u) :
    ∃ t, Rounds apply r input s rest t ∧ r.run apply rest t = .noMatch u := by
  rw [Rule.run_star] at h
  generalize input.length + 1 = n at h
  induction n generalizing input s with
  | zero => cases h
  | succ n ih =>
      rw [starLoop, Result.next_eq_matched] at h
      rcases h with ⟨mid, t, hround, hloop⟩ | ⟨t, hround, hend⟩
      · obtain ⟨v, hrounds, hlast⟩ := ih hloop
        exact ⟨v, .next hround hrounds, hlast⟩
      · cases hend
        exact ⟨s, .none _ _, hround⟩

/-- A repetition that consumes something starts with a round. -/
theorem exists_round {m : List χ} (hne : m ≠ [])
    (h : r.star.run apply (m ++ rest) s = .matched rest u) :
    ∃ mid t, r.run apply (m ++ rest) s = .matched mid t := by
  obtain ⟨v, hrounds, -⟩ := rounds_of_run_star h
  exact hrounds.eq_or_matched.resolve_left fun heq => hne (List.append_left_eq_self.mp heq)

/-- A rule that fails without effect does so again. -/
theorem Fails.run_eq {input' : List χ} (h : Fails apply r input s) (h' : Fails apply r input' s)
    (hrun : r.run apply input s = .noMatch t) : r.run apply input' s = .noMatch t := by
  have heq : Result.noMatch s = .noMatch t := h.symm.trans hrun
  exact h'.trans heq

/-- An action without text consumes nothing. -/
theorem rest_eq_of_act_success {e : α}
    (h : (Rule.act e .success).run apply input s = .matched rest t) : rest = input := by
  obtain ⟨u, hrun, -⟩ := exists_of_act h
  cases hrun
  rfl

/-! ## Locality -/

section Locality

/-- The two inputs start with the same character, or both are empty. -/
def SameHead (rest rest' : List χ) : Prop := rest.head? = rest'.head?

/-- Both inputs start with the same character, which is of a class. -/
def SameStart (p : χ → Bool) (rest rest' : List χ) : Prop :=
  rest.head? = rest'.head? ∧ ∃ c ∈ rest.head?, p c = true

/-- The two inputs have nothing to do with each other. -/
def Unrelated (_ _ : List χ) : Prop := True

variable (apply) in
/-- The rule matches the same text with the same effect when what it leaves is replaced by something
that is related to it. -/
def Local (ρ : List χ → List χ → Prop) (r : Rule α χ) : Prop :=
  ∀ m rest rest' s t, ρ rest rest' → r.run apply (m ++ rest) s = .matched rest t →
    r.run apply (m ++ rest') s = .matched rest' t

variable (apply) in
/-- The rule matches with the same effect when anything else is behind its match, of which it then
leaves what `g` says. -/
def Rematches (g : List χ → List χ) (r : Rule α χ) : Prop :=
  ∀ m rest s t, r.run apply (m ++ rest) s = .matched rest t →
    ∀ tail, r.run apply (m ++ tail) s = .matched (g tail) t

variable {ρ ρ' : List χ → List χ → Prop} {g : List χ → List χ}

/-- Inputs with a common text in front start with the same character. -/
theorem sameHead_append {text : List χ} (hne : text ≠ []) (l l' : List χ) :
    SameHead (text ++ l) (text ++ l') := by
  obtain ⟨c, text, rfl⟩ := List.exists_cons_of_ne_nil hne
  rfl

theorem stops_iff_of_sameHead {l l' : List χ} (h : SameHead l l') : Stops p l ↔ Stops p l' := by
  rw [Stops, Stops, show l.head? = l'.head? from h]

/-- A rule that consumes something has some text. -/
theorem ne_nil_of_consuming {m : List χ} (hr : r.consuming = true)
    (h : r.run apply (m ++ rest) s = .matched rest t) : m ≠ [] := by
  rintro rfl
  have hlt := (hr ▸ r.run_split h).length_lt
  exact absurd hlt (Nat.lt_irrefl _)

/-- The texts of two matches, one behind the other. -/
theorem exists_parts {m : List χ} {first second : Bool} (ha : Splits first (m ++ rest) mid)
    (hb : Splits second mid rest) : ∃ ma mb, m = ma ++ mb ∧ mid = mb ++ rest := by
  obtain ⟨ma, hma, -⟩ := ha
  obtain ⟨mb, rfl, -⟩ := hb
  rw [← List.append_assoc] at hma
  exact ⟨ma, mb, List.append_cancel_right hma, rfl⟩

theorem SameHead.append {l l' : List χ} (h : SameHead l l') (m : List χ) :
    SameHead (m ++ l) (m ++ l') := by
  cases m with
  | nil => exact h
  | cons c m => exact sameHead_append (List.cons_ne_nil c m) l l'

/-- A rule that fails in front of a class does so in front of the same character. -/
theorem noMatch_of_sameStart
    (hfails : ∀ l (s : σ), (∃ c ∈ l.head?, p c = true) → Fails apply r l s) :
    ∀ l l' s t, SameStart p l l' → r.run apply l s = .noMatch t →
      r.run apply l' s = .noMatch t := by
  rintro l l' s t ⟨hhead, hstart⟩ hrun
  exact (hfails l s hstart).run_eq (hfails l' s (by rwa [← hhead])) hrun

namespace Local

theorem mono (h : Local apply ρ r) (hρ : ∀ l l', ρ' l l' → ρ l l') : Local apply ρ' r :=
  fun m rest rest' s t hrest => h m rest rest' s t (hρ rest rest' hrest)

theorem one : Local apply ρ (.one p) := by
  intro m rest rest' s t _ h
  cases m with
  | nil =>
      -- a class does not leave all of its input
      obtain ⟨text, htext, hne⟩ := (Rule.one p).run_split h
      exact absurd (List.self_eq_append_left.mp htext) (hne rfl)
  | cons c m =>
      rw [List.cons_append, Rule.run_one_cons] at h ⊢
      split at h
      · next hc =>
          injection h with hm hs
          have hnil : m = [] := List.append_left_eq_self.mp hm
          rw [if_pos hc, hnil, hs]
          rfl
      · cases h

theorem success : Local apply ρ .success := by
  intro m rest rest' s t _ h
  injection h with hm hs
  rw [List.append_left_eq_self.mp hm, hs]
  rfl

/-- A look at the next character. -/
theorem notAt : Local apply SameHead (.notAt p) := by
  intro m rest rest' s t hhead h
  rw [Rule.run_notAt] at h
  split at h
  · cases h
  · next hany =>
      injection h with hm hs
      obtain rfl := List.append_left_eq_self.mp hm
      rw [List.nil_append] at hany
      rw [List.nil_append, Rule.run_notAt, ← show rest.head? = rest'.head? from hhead,
        if_neg hany, hs]

/-- A repeated class stops at the same character. -/
theorem star_one (hρ : ∀ l l', ρ l l' → Stops p l → Stops p l') :
    Local apply ρ (Rule.one p).star := by
  intro m rest rest' s t hrest h
  rw [run_star_one] at h ⊢
  injection h with hdrop hs
  have hstops : Stops p rest := hdrop ▸ stops_dropWhile p _
  rw [dropWhile_append (forall_mem_of_dropWhile hdrop), dropWhile_of_stops (hρ _ _ hrest hstops),
    hs]

/-- The second part of a sequence decides what the first part leaves. -/
theorem seq (ha : Local apply ρ' a) (hb : Local apply ρ b)
    (hρ : ∀ m l l' s t, ρ l l' → b.run apply (m ++ l) s = .matched l t → ρ' (m ++ l) (m ++ l')) :
    Local apply ρ (a.seq b) := by
  intro m rest rest' s t hrest h
  obtain ⟨mid, u, hruna, hrunb⟩ := exists_of_seq h
  obtain ⟨ma, mb, rfl, rfl⟩ := exists_parts (a.run_split hruna) (b.run_split hrunb)
  rw [List.append_assoc] at hruna ⊢
  rw [Rule.run_seq, ha ma _ _ s u (hρ mb rest rest' u t hrest hrunb) hruna]
  exact hb mb rest rest' u t hrest hrunb

/-- A first part that does not look further. -/
theorem seq_unrelated (ha : Local apply Unrelated a) (hb : Local apply ρ b) :
    Local apply ρ (a.seq b) :=
  ha.seq hb fun _ _ _ _ _ _ _ => trivial

/-- A first part that looks at the next character, in front of a part that has one. -/
theorem seq_consuming (ha : Local apply SameHead a) (hb : Local apply ρ b)
    (hcons : b.consuming = true) : Local apply ρ (a.seq b) :=
  ha.seq hb fun _ l l' _ _ _ h => sameHead_append (ne_nil_of_consuming hcons h) l l'

/-- Two parts that look at the next character. -/
theorem seq_sameHead (ha : Local apply SameHead a) (hb : Local apply SameHead b) :
    Local apply SameHead (a.seq b) :=
  ha.seq hb fun m _ _ _ _ hhead _ => hhead.append m

/-- A first part in front of a part that starts with a class. -/
theorem seq_starting (ha : Local apply (SameStart p) a) (hb : Local apply ρ b)
    (hcons : b.consuming = true)
    (hstart : ∀ input s rest t, b.run apply input s = .matched rest t →
      ∃ c ∈ input.head?, p c = true) : Local apply ρ (a.seq b) :=
  ha.seq hb fun _ l l' s t _ h =>
    ⟨sameHead_append (ne_nil_of_consuming hcons h) l l', hstart _ s l t h⟩

theorem str [DecidableEq χ] (text : List χ) : Local apply Unrelated (Rule.str text) := by
  induction text with
  | nil => exact success
  | cons c text ih => exact one.seq_unrelated ih

theorem must (h : Local apply ρ r) : Local apply ρ r.must := by
  intro m rest rest' s t hrest hrun
  rw [Rule.run_must, Result.next_eq_matched] at hrun
  rcases hrun with ⟨mid, u, hmatch, hend⟩ | ⟨u, -, hend⟩
  · cases hend
    rw [Rule.run_must, h m rest rest' s t hrest hmatch]
    rfl
  · cases hend

/-- An action sees the same text. -/
theorem act {e : α} (h : Local apply ρ r) : Local apply ρ (.act e r) := by
  intro m rest rest' s t hrest hrun
  obtain ⟨u, hmatch, hact⟩ := exists_of_act hrun
  refine run_act_of_matched (h m rest rest' s u hrest hmatch) ?_
  -- the text that the action sees is what the rule has taken
  rw [List.length_append, Nat.add_sub_cancel, List.take_left' rfl] at hact ⊢
  exact hact

/-- An option that has been skipped is skipped again. -/
theorem opt (h : Local apply ρ r)
    (hfail : ∀ l l' s t, ρ l l' → r.run apply l s = .noMatch t → r.run apply l' s = .noMatch t) :
    Local apply ρ r.opt := by
  intro m rest rest' s t hrest hrun
  rw [Rule.run_opt, Result.next_eq_matched] at hrun
  rcases hrun with ⟨mid, u, hmatch, hend⟩ | ⟨u, hskip, hend⟩
  · cases hend
    rw [Rule.run_opt, h m rest rest' s t hrest hmatch]
    rfl
  · injection hend with hm hu
    obtain rfl := List.append_left_eq_self.mp hm
    rw [List.nil_append, Rule.run_opt, hfail rest rest' s u hrest hskip, Result.next, hu]

/-- A first alternative that has failed fails again. -/
theorem sor (ha : Local apply ρ a) (hb : Local apply ρ b)
    (hfail : ∀ m l l' s t u, ρ l l' → a.run apply (m ++ l) s = .noMatch t →
      b.run apply (m ++ l) t = .matched l u → a.run apply (m ++ l') s = .noMatch t) :
    Local apply ρ (a.sor b) := by
  intro m rest rest' s t hrest h
  rw [Rule.run_sor, Result.next_eq_matched] at h
  rcases h with ⟨mid, u, hruna, hend⟩ | ⟨u, hruna, hrunb⟩
  · cases hend
    rw [Rule.run_sor, ha m rest rest' s t hrest hruna]
    rfl
  · rw [Rule.run_sor, hfail m rest rest' s u t hrest hruna hrunb]
    exact hb m rest rest' u t hrest hrunb

/-- The rounds of a repetition, and the failure that ends it. -/
theorem star (hr : r.consuming = true) (h : Local apply ρ' r) (hlast : ∀ l l', ρ l l' → ρ' l l')
    (hround : ∀ m l l' s mid t, m ≠ [] → ρ l l' → r.run apply (m ++ l) s = .matched mid t →
      ρ' (m ++ l) (m ++ l'))
    (hfail : ∀ l l' s t, ρ l l' → r.run apply l s = .noMatch t → r.run apply l' s = .noMatch t) :
    Local apply ρ r.star := by
  intro m rest rest' s t hrest hrun
  obtain ⟨u, hrounds, hend⟩ := rounds_of_run_star hrun
  clear hrun
  generalize hinput : m ++ rest = input at hrounds
  induction hrounds generalizing m with
  | none input u =>
      obtain rfl := List.append_left_eq_self.mp hinput
      exact run_star_of_noMatch (hfail _ _ _ _ hrest hend)
  | @next input mid rest s v u hmatch hrounds ih =>
      subst hinput
      obtain ⟨x, m', rfl, rfl⟩ := exists_parts (r.run_split hmatch) hrounds.splits
      rw [List.append_assoc] at hmatch ⊢
      have hmid : ρ' (m' ++ rest) (m' ++ rest') := by
        by_cases hnil : m' = []
        · subst hnil
          exact hlast rest rest' hrest
        · -- the next round starts in the matched text
          obtain ⟨mid', v', hmatch'⟩ := hrounds.eq_or_matched.resolve_left fun heq =>
            hnil (List.append_left_eq_self.mp heq)
          exact hround m' rest rest' v _ _ hnil hrest hmatch'
      rw [run_star_of_matched hr (h x _ _ s v hmid hmatch)]
      exact ih m' hrest hend rfl

/-- Rounds in front of something that starts with the same character. -/
theorem rounds (h : Local apply SameHead r) {m : List χ}
    (hrounds : Rounds apply r (m ++ rest) s rest t) {rest' : List χ} (hhead : SameHead rest rest') :
    Rounds apply r (m ++ rest') s rest' t := by
  generalize hinput : m ++ rest = input at hrounds
  induction hrounds generalizing m with
  | none input s =>
      obtain rfl := List.append_left_eq_self.mp hinput
      exact .none rest' s
  | @next input mid rest s v t hround hrounds ih =>
      subst hinput
      obtain ⟨x, m', rfl, rfl⟩ := exists_parts (r.run_split hround) hrounds.splits
      rw [List.append_assoc] at hround ⊢
      exact .next (h x _ _ s v (hhead.append m') hround) (ih hhead rfl)

end Local

namespace Rematches

theorem star_one : Rematches apply (List.dropWhile p) (Rule.one p).star := by
  intro m rest s t hrun tail
  rw [run_star_one] at hrun ⊢
  injection hrun with hdrop hs
  rw [dropWhile_append (forall_mem_of_dropWhile hdrop), hs]

/-- The second part of a sequence decides what the first part leaves. -/
theorem seq (ha : Local apply ρ a) (hb : Rematches apply g b)
    (hρ : ∀ m l tail s t, b.run apply (m ++ l) s = .matched l t → ρ (m ++ l) (m ++ tail)) :
    Rematches apply g (a.seq b) := by
  intro m rest s t h tail
  obtain ⟨mid, u, hruna, hrunb⟩ := exists_of_seq h
  obtain ⟨ma, mb, rfl, rfl⟩ := exists_parts (a.run_split hruna) (b.run_split hrunb)
  rw [List.append_assoc] at hruna ⊢
  rw [Rule.run_seq, ha ma _ _ s u (hρ mb rest tail u t hrunb) hruna]
  exact hb mb rest u t hrunb tail

theorem seq_unrelated (ha : Local apply Unrelated a) (hb : Rematches apply g b) :
    Rematches apply g (a.seq b) :=
  seq ha hb fun _ _ _ _ _ _ => trivial

theorem seq_consuming (ha : Local apply SameHead a) (hb : Rematches apply g b)
    (hcons : b.consuming = true) : Rematches apply g (a.seq b) :=
  seq ha hb fun _ l tail _ _ h => sameHead_append (ne_nil_of_consuming hcons h) l tail

/-- A second part that does not consume anything. -/
theorem seq_left (ha : Rematches apply g a) (hb : Local apply Unrelated b)
    (hnone : ∀ input s rest t, b.run apply input s = .matched rest t → rest = input) :
    Rematches apply g (a.seq b) := by
  intro m rest s t h tail
  obtain ⟨mid, u, hruna, hrunb⟩ := exists_of_seq h
  obtain rfl := hnone _ _ _ _ hrunb
  rw [Rule.run_seq, ha m rest s u hruna tail, Result.next]
  exact hb [] rest (g tail) u t trivial hrunb

/-- An action that does not look at its text does the same for another one. -/
theorem act {e : α} (hact : ∀ text text' s, apply e text s = apply e text' s)
    (h : Rematches apply g r) : Rematches apply g (.act e r) := by
  intro m rest s t hrun tail
  obtain ⟨u, hmatch, happly⟩ := exists_of_act hrun
  exact run_act_of_matched (h m rest s u hmatch tail) ((hact _ _ u).trans happly)

end Rematches

end Locality

end Peg
