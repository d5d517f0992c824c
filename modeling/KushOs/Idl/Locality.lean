import KushOs.Idl.Lines

/-!
# What is behind the items of a text

The items of a text, and the members of an interface, take the same text again when something else
is put behind them, and what was done for them is the same. A method takes the blanks behind it, an
interface the white space, and an item that the text ends before its line does takes a whole line.

## Main results

* `method_rematches`, `interface_rematches`: a method and an interface.
* `member_leaves`, `topLevel_leaves`: the members of an interface and the items of a text.
-/

namespace KushOs.Idl

open Peg

namespace Grammar

section Arguments

variable {σ ε : Type} {apply : Action → List Char → σ → Except ε σ} {p : Char → Bool}
  {input rest : List Char} {s t : σ}

theorem StartsWith.of_sameHead {input' : List Char} (h : StartsWith p input)
    (hhead : SameHead input input') : StartsWith p input' := by
  rwa [StartsWith, ← show input.head? = input'.head? from hhead]

theorem startsWith_of_must {r : G}
    (hr : ∀ mid u, r.run apply input s = .matched mid u → StartsWith p input)
    (h : r.must.run apply input s = .matched rest t) : StartsWith p input := by
  rw [Rule.run_must, Result.next_eq_matched] at h
  rcases h with ⟨mid, u, hrun, -⟩ | ⟨u, -, hend⟩
  · exact hr mid u hrun
  · cases hend

theorem star_local (p : Char → Bool) : Local apply SameHead (Rule.one p).star :=
  .star_one fun _ _ h => (stops_iff_of_sameHead h).mp

theorem identifier_local : Local apply SameHead identifier :=
  .seq_unrelated .one (star_local _)

/-- What is behind an argument in its group. -/
def endsArg (c : Char) : Bool := c = ',' ∨ c = ')'

theorem endsArg_ne (hp : p ',' = false) (hp' : p ')' = false) :
    ∀ c, endsArg c = true → p c = false := by
  intro c hc
  simp only [endsArg, Bool.decide_or, Bool.or_eq_true, decide_eq_true_eq] at hc
  rcases hc with rfl | rfl
  · exact hp
  · exact hp'

/-- The type of an argument ends in front of a comma or a parenthesis. -/
theorem methodArgType_local : Local apply (SameStart endsArg) methodArgType := by
  have hpart : Local apply Unrelated (.sor (.one isIdentifierOther) (.str [':', ':'])) := by
    refine .sor .one (.str _) fun m l l' s t u _ hfail hmatch => ?_
    have hstart : StartsWith (· = ':') (m ++ l) := startsWith_of_seq (fun _ _ => startsWith_of_one)
      hmatch
    have hhead : SameHead (m ++ l) (m ++ l') :=
      sameHead_append (ne_nil_of_consuming rfl hmatch) l l'
    have hne : ∀ c, decide (c = ':') = true → isIdentifierOther c = false := fun c hc =>
      of_decide_eq_true hc ▸ rfl
    exact (fails_one (hstart.stops hne)).run_eq (fails_one ((hstart.of_sameHead hhead).stops hne))
      hfail
  have hfails : ∀ l (s : σ), StartsWith endsArg l →
      Fails apply (.sor (.one isIdentifierOther) (.str [':', ':'])) l s := fun l s hl =>
    (fails_one (hl.stops (endsArg_ne rfl rfl))).sor (fails_str (hl.stops (endsArg_ne rfl rfl)))
  exact .act (.seq_unrelated .one (.star rfl hpart (fun _ _ _ => trivial)
    (fun _ _ _ _ _ _ _ _ _ => trivial) (noMatch_of_sameStart hfails)))

theorem methodArg_local : Local apply (SameStart endsArg) methodArg := by
  have hsep : Local apply SameHead methodArgSep :=
    (star_local _).seq_consuming (.seq_unrelated .one (star_local _)) rfl
  have hend : Local apply (SameStart endsArg) (.seq methodArgType methodArgEnd) := by
    refine methodArgType_local.seq (.act .success) fun m l l' s t h hrun => ?_
    obtain rfl := List.append_left_eq_self.mp (rest_eq_of_act_success hrun).symm
    exact h
  exact identifier_local.act.seq_consuming (hsep.seq_consuming hend rfl) rfl

/-- A comma and the argument behind it. -/
theorem nextArg_local : Local apply (SameStart endsArg) (.seq methodNextArgSep methodNextArg) :=
  Local.seq_consuming (.seq_unrelated .one (star_local _)) methodArg_local rfl

/-- The arguments end in front of the parenthesis. -/
theorem methodArgs_local : Local apply (SameStart (· = ')')) methodArgs := by
  have hclose : ∀ l l' : List Char, SameStart (· = ')') l l' → SameStart endsArg l l' :=
    fun l l' h => ⟨h.1, StartsWith.mono h.2 fun c hc => of_decide_eq_true hc ▸ rfl⟩
  have hne : ∀ {p : Char → Bool}, p ')' = false → ∀ c, decide (c = ')') = true → p c = false :=
    fun hp c hc => of_decide_eq_true hc ▸ hp
  -- a round starts with its comma
  have hcomma : ∀ m l l' (s : σ) mid t, m ≠ [] →
      (Rule.seq methodNextArgSep methodNextArg).run apply (m ++ l) s = .matched mid t →
      SameStart endsArg (m ++ l) (m ++ l') := by
    intro m l l' s mid t hm hrun
    have hstart : StartsWith (· = ',') (m ++ l) :=
      startsWith_of_seq (fun _ _ hsep => startsWith_of_seq (fun _ _ => startsWith_of_one) hsep) hrun
    exact ⟨sameHead_append hm l l', hstart.mono fun c hc => of_decide_eq_true hc ▸ rfl⟩
  have hstar : Local apply (SameStart (· = ')'))
      (.star (.seq methodNextArgSep methodNextArg)) := by
    refine .star rfl nextArg_local hclose (fun m l l' s mid t hm _ => hcomma m l l' s mid t hm)
      (noMatch_of_sameStart fun l s hl => ?_)
    exact Fails.seq (Fails.seq (fails_one (StartsWith.stops hl (hne rfl))))
  refine .opt (methodArg_local.seq hstar fun m l l' s t h hrun => ?_)
    (noMatch_of_sameStart fun l s hl => ?_)
  · cases m with
    | nil => exact hclose l l' h
    | cons c m =>
        obtain ⟨mid, u, hround⟩ := exists_round (List.cons_ne_nil c m) hrun
        exact hcomma (c :: m) l l' s mid u (List.cons_ne_nil c m) hround
  · exact Fails.seq (Fails.seq (Fails.act (Fails.seq
      (fails_one (StartsWith.stops hl (hne rfl))))))

/-- A group of arguments ends with its parenthesis. -/
theorem argsGroup_local (opens closes : Action) :
    Local apply Unrelated (.seq (.must (.act opens (char '('))) (.seq (.must methodArgs)
      (.must (.act closes (char ')'))))) := by
  have hclose : Local apply Unrelated (.must (.act closes (char ')'))) := Local.one.act.must
  refine .seq_unrelated Local.one.act.must (.seq_starting methodArgs_local.must hclose rfl ?_)
  exact fun _ _ _ _ hrun =>
    startsWith_of_must (fun _ _ hact => startsWith_of_act (fun _ _ => startsWith_of_one) hact) hrun

end Arguments

/-! ## Methods -/

section Methods

variable {σ ε : Type} {apply : Action → List Char → σ → Except ε σ} {input rest text : List Char}
  {s t : σ}

theorem methodDecoratorGroup_local : Local apply SameHead methodDecoratorGroup := by
  have hsep : Local apply SameHead decoratorSep :=
    (star_local _).seq_consuming (.seq_unrelated .one (star_local _)) rfl
  have hcontent : Local apply SameHead decoratorContent :=
    identifier_local.act.seq_sameHead (hsep.seq_sameHead (star_local _).act)
  exact .seq_unrelated .one (hcontent.seq_sameHead (.seq_unrelated Local.one.act (star_local _)))

/-- What is behind the decorators of a method. -/
def opensArgs (c : Char) : Bool := isBlank c ∨ c = '('

/-- The decorators end in front of a blank or the parenthesis. -/
theorem methodDecorators_local :
    Local apply (SameStart opensArgs) (.opt (.star methodDecoratorGroup)) := by
  have hne : ∀ c, opensArgs c = true → decide (c = '[') = false := by
    intro c hc
    simp only [opensArgs, isBlank, Bool.decide_or, Bool.or_eq_true, decide_eq_true_eq] at hc
    rcases hc with (rfl | rfl) | rfl <;> rfl
  have hfails : ∀ l (s : σ), StartsWith opensArgs l → Fails apply methodDecoratorGroup l s :=
    fun l s hl => Fails.seq (fails_one (hl.stops hne))
  have hstar : Local apply (SameStart opensArgs) (.star methodDecoratorGroup) :=
    .star rfl methodDecoratorGroup_local (fun l l' h => h.1)
      (fun m l l' s mid t hm _ _ => sameHead_append hm l l') (noMatch_of_sameStart hfails)
  exact hstar.opt fun l l' s t _ hrun => absurd hrun (Rule.run_ne_noMatch _ rfl)

/-- Whether a method is asynchronous is decided by the two characters of its marker. -/
theorem methodReturnType_local : Local apply Unrelated methodReturnType := by
  have hreturn : Local apply Unrelated methodReturn :=
    argsGroup_local .methodReturnOpen .methodReturnClose
  have hsync : Local apply Unrelated methodSyncReturn :=
    .seq_unrelated (Local.str _).act.must ((star_local _).must.seq_consuming hreturn.must rfl)
  have hmarker : ∀ l (s : σ) mid t, methodSyncReturn.run apply l s = .matched mid t →
      ∃ l', l = '=' :: '>' :: l' := by
    intro l s mid t hrun
    by_contra hne
    have hfails : methodSyncReturnMarker.run apply l s = .noMatch s :=
      Fails.act (run_pair_fails fun l' h => hne ⟨l', h⟩)
    rw [methodSyncReturn, Rule.run_seq, Rule.run_must, hfails] at hrun
    cases hrun
  refine .sor (Local.str _).act hsync fun m l l' s t u h hfail hmatch => ?_
  have hfails : ∀ l mid, methodSyncReturn.run apply l t = .matched mid u →
      Fails apply methodAsyncReturnMarker l s := by
    intro l mid hrun
    obtain ⟨l', rfl⟩ := hmarker l t mid u hrun
    exact Fails.act (run_pair_fails (by simp))
  exact (hfails _ _ hmatch).run_eq (hfails _ _ (hsync m l l' t u h hmatch)) hfail

/-- A method takes the blanks behind it. -/
theorem method_rematches : Rematches apply (List.dropWhile isBlank) Grammar.method := by
  have hend : Rematches apply (List.dropWhile isBlank) (.seq methodWs methodEnd) :=
    Rematches.star_one.seq_left Local.success.act fun _ _ _ _ => rest_eq_of_act_success
  have hreturn : Rematches apply (List.dropWhile isBlank)
      (.seq methodWs (.seq methodReturnType (.seq methodWs methodEnd))) :=
    .seq_consuming (star_local _) (.seq_unrelated methodReturnType_local hend) rfl
  have hargs : Rematches apply (List.dropWhile isBlank) (.seq methodArgsGroup
      (.seq methodWs (.seq methodReturnType (.seq methodWs methodEnd)))) :=
    .seq_unrelated (argsGroup_local _ _) hreturn
  -- a blank or the parenthesis is behind the decorators
  have hopens : ∀ l (s : σ) mid t, (Rule.seq methodWs (.seq methodArgsGroup (.seq methodWs
      (.seq methodReturnType (.seq methodWs methodEnd))))).run apply l s = .matched mid t →
      StartsWith opensArgs l := by
    intro l s mid t hrun
    rw [Rule.run_seq, methodWs, blank, run_star_one, Result.next] at hrun
    have hparen : StartsWith (· = '(') (l.dropWhile isBlank) :=
      startsWith_of_seq (fun _ _ hgroup => startsWith_of_seq (fun _ _ hmust => startsWith_of_must
        (fun _ _ hact => startsWith_of_act (fun _ _ => startsWith_of_one) hact) hmust) hgroup) hrun
    cases l with
    | nil =>
        obtain ⟨c, hc, -⟩ := hparen
        cases hc
    | cons c l =>
        refine ⟨c, rfl, ?_⟩
        cases hblank : isBlank c with
        | true => simp [opensArgs, hblank]
        | false =>
            rw [dropWhile_of_stops (stops_cons l hblank)] at hparen
            obtain ⟨d, hd, hparen⟩ := hparen
            obtain rfl : c = d := Option.some.inj hd
            simpa [opensArgs, hblank] using hparen
  have hdecorators : Rematches apply (List.dropWhile isBlank) (.seq (.opt
      (.star methodDecoratorGroup)) (.seq methodWs (.seq methodArgsGroup (.seq methodWs
        (.seq methodReturnType (.seq methodWs methodEnd)))))) := by
    refine .seq methodDecorators_local (.seq_consuming (star_local _) hargs rfl)
      fun m l tail s t hrun => ?_
    exact ⟨sameHead_append (ne_nil_of_consuming rfl hrun) l tail, hopens _ _ _ _ hrun⟩
  exact .seq_consuming identifier_local.act (.seq_consuming (star_local _) hdecorators rfl) rfl

end Methods

/-! ## Members of an interface -/

section Members

variable {σ ε : Type} {apply : Action → List Char → σ → Except ε σ} {input rest text : List Char}
  {s t : σ}

theorem run_member_emptyLine (h : afterEmptyLine input = some rest) :
    interfaceMember.run apply input s = .matched rest s := by
  rw [interfaceMember, Rule.run_sor, run_emptyLine, h]
  rfl

theorem run_member_comment (h : afterEmptyLine input = none) (h' : afterComment input = some rest) :
    interfaceMember.run apply input s = .matched rest s := by
  rw [interfaceMember, Rule.run_sor, run_emptyLine, h, outcome, Result.next, Rule.run_sor,
    run_comment, h']
  rfl

theorem run_member_method (h : afterEmptyLine input = none) (h' : afterComment input = none) :
    interfaceMember.run apply input s =
      Grammar.method.run apply (input.dropWhile isWs) s := by
  rw [interfaceMember, Rule.run_sor, run_emptyLine, h, outcome, Result.next, Rule.run_sor,
    run_comment, h', outcome, Result.next, run_padl]

/-- A rule that comes behind white space takes the white space that its text starts with. -/
theorem exists_of_padded {r : G} (hr : r.consuming = true)
    (h : r.run apply ((text ++ rest).dropWhile isWs) s = .matched rest t) :
    ∃ blanks d body, text = blanks ++ d :: body ∧ (∀ c ∈ blanks, isWs c = true) ∧ isWs d = false ∧
      r.run apply (d :: body ++ rest) s = .matched rest t := by
  have hws : ∀ c ∈ (text ++ rest).takeWhile isWs, isWs c = true := fun c hc =>
    List.mem_takeWhile_imp hc
  have hsplit : (text ++ rest).takeWhile isWs ++ (text ++ rest).dropWhile isWs = text ++ rest :=
    List.takeWhile_append_dropWhile
  have hstops : Stops isWs ((text ++ rest).dropWhile isWs) := stops_dropWhile isWs _
  generalize (text ++ rest).takeWhile isWs = blanks at hws hsplit
  generalize (text ++ rest).dropWhile isWs = l at h hsplit hstops
  obtain ⟨body, rfl, -⟩ := r.run_split h
  obtain ⟨d, body, rfl⟩ := List.exists_cons_of_ne_nil (ne_nil_of_consuming hr h)
  refine ⟨blanks, d, body, ?_, hws, hstops d rfl, h⟩
  refine List.append_cancel_right (hsplit.symm.trans ?_)
  rw [List.append_assoc]

theorem startsWith_of_method (h : Grammar.method.run apply input s = .matched rest t) :
    StartsWith isIdentifierFirst input :=
  startsWith_of_seq (fun _ _ hname => startsWith_of_act (fun _ _ hid =>
    startsWith_of_seq (fun _ _ => startsWith_of_one) hid) hname) h

/-- A member takes the same text again, and nothing else but blanks. -/
theorem member_leaves (h : interfaceMember.run apply (text ++ rest) s = .matched rest t)
    (hrest : rest ≠ []) :
    ∃ g : List Char → List Char, (g = id ∨ g = List.dropWhile isBlank) ∧ g rest = rest ∧
      ∀ tail, interfaceMember.run apply (text ++ tail) s = .matched (g tail) t := by
  cases hline : afterEmptyLine (text ++ rest) with
  | some rest' =>
      rw [run_member_emptyLine hline] at h
      cases h
      obtain ⟨-, htail⟩ := afterEmptyLine_leaves hline
      exact ⟨id, .inl rfl, rfl, fun tail => run_member_emptyLine (htail tail)⟩
  | none =>
      cases hcomment : afterComment (text ++ rest) with
      | some rest' =>
          rw [run_member_comment hline hcomment] at h
          cases h
          obtain ⟨⟨blanks, body, rfl, hws⟩, hleaves, htail⟩ := afterComment_leaves hcomment
          have hnone : ∀ tail, afterEmptyLine (blanks ++ '/' :: body ++ tail) = none := by
            intro tail
            rw [List.append_assoc] at hline ⊢
            exact afterEmptyLine_eq_none hws (by decide) hline _
          -- something is left, so the comment has its end
          have hclosed := eq_closed_of_leaves (endingOf_slash hws body) hleaves hrest
          rw [hclosed] at htail
          exact ⟨id, .inl rfl, rfl, fun tail => run_member_comment (hnone tail) (htail tail)⟩
      | none =>
          rw [run_member_method hline hcomment] at h
          obtain ⟨blanks, d, body, rfl, hws, hd, hmethod⟩ := exists_of_padded rfl h
          -- the name of the method decides that there is no line and no comment in front of it
          have hslash : d ≠ '/' := by
            obtain ⟨c, hc, hfirst⟩ := startsWith_of_method hmethod
            obtain rfl : d = c := Option.some.inj hc
            exact isIdentifierFirst_ne hfirst (by decide)
          have hmember : ∀ tail, interfaceMember.run apply (blanks ++ d :: body ++ tail) s =
              Grammar.method.run apply (d :: body ++ tail) s := by
            intro tail
            rw [List.append_assoc, run_member_method, dropWhile_append hws]
            · exact congrArg (fun l => Grammar.method.run apply l s)
                (dropWhile_of_stops (stops_cons _ hd))
            · rw [List.append_assoc] at hline
              exact afterEmptyLine_eq_none hws hd hline _
            · exact afterComment_eq_none hws hd hslash
          have htail := method_rematches _ _ _ _ hmethod
          have hself : Result.matched (rest.dropWhile isBlank) t = .matched rest t :=
            (htail rest).symm.trans hmethod
          injection hself with hself
          exact ⟨_, .inr rfl, hself, fun tail => (hmember tail).trans (htail tail)⟩

/-- A member in front of the same character takes the same text. -/
theorem member_local : Local apply SameHead interfaceMember := by
  intro text rest rest' s t hhead h
  by_cases hnil : rest = []
  · subst hnil
    obtain rfl : rest' = [] := List.head?_eq_none_iff.mp (Eq.symm hhead)
    exact h
  · obtain ⟨g, rfl | rfl, hrest, htail⟩ := member_leaves h hnil
    · exact htail rest'
    · have hstops : Stops isBlank rest := hrest ▸ stops_dropWhile isBlank rest
      have hrest' := dropWhile_of_stops ((stops_iff_of_sameHead hhead).mp hstops)
      rw [htail, hrest']

/-- Both inputs have the closing brace behind the same white space. -/
def AtClose (l l' : List Char) : Prop :=
  ∃ blanks r r', (∀ c ∈ blanks, isWs c = true) ∧ l = blanks ++ '}' :: r ∧
    l' = blanks ++ '}' :: r'

theorem AtClose.sameHead {l l' : List Char} (h : AtClose l l') : SameHead l l' := by
  obtain ⟨blanks, r, r', -, rfl, rfl⟩ := h
  cases blanks <;> rfl

/-- In front of the closing brace there is nothing but an empty line. -/
theorem member_atClose {blanks r : List Char} (hws : ∀ c ∈ blanks, isWs c = true)
    (h : afterEmptyLine (blanks ++ '}' :: r) = none) :
    Fails apply interfaceMember (blanks ++ '}' :: r) s := by
  have hfirst : Stops isIdentifierFirst ('}' :: r) := stops_cons _ (by decide)
  have hmethod : Fails apply Grammar.method ('}' :: r) s :=
    Fails.seq (Fails.act (Fails.seq (fails_one hfirst)))
  rw [Fails, run_member_method h (afterComment_eq_none hws (by decide) (by decide)),
    dropWhile_append hws, dropWhile_of_stops (stops_cons _ (by decide))]
  exact hmethod

/-- The members of an interface end in front of its closing brace. -/
theorem members_local : Local apply AtClose interfaceMember.star := by
  refine .star rfl member_local (fun _ _ => AtClose.sameHead)
    (fun m l l' s mid t hm _ _ => sameHead_append hm l l') ?_
  rintro l l' s t ⟨blanks, r, r', hws, rfl, rfl⟩ hrun
  have hline : afterEmptyLine (blanks ++ '}' :: r) = none := by
    cases hline : afterEmptyLine (blanks ++ '}' :: r) with
    | none => rfl
    | some rest =>
        rw [run_member_emptyLine hline] at hrun
        cases hrun
  exact (member_atClose hws hline).run_eq
    (member_atClose hws (afterEmptyLine_eq_none hws (by decide) hline r')) hrun

theorem content_local : Local apply AtClose interfaceContent := by
  intro m rest rest' s t hrest h
  rw [interfaceContent, interfaceNextMember, run_opt_seq_star rfl] at h ⊢
  exact members_local m rest rest' s t hrest h

end Members

/-! ## Interfaces -/

section Interfaces

variable {σ ε : Type} {apply : Action → List Char → σ → Except ε σ} {input rest text : List Char}
  {s t : σ}

theorem interfaceStart_local : Local apply Unrelated interfaceStart := by
  have hkeyword : Local apply SameHead (keyword "interface") := .seq_unrelated (.str _) .notAt
  have hopen : Local apply Unrelated (.seq (.star ws) (char '{')) :=
    (star_local _).seq_consuming .one rfl
  have hname : Local apply Unrelated (.seq interfaceName (.seq (.star ws) (char '{'))) :=
    identifier_local.act.seq_consuming hopen rfl
  have hws : Local apply SameHead ws.plus := .seq_unrelated .one (star_local _)
  exact ((star_local _).seq_consuming hkeyword rfl).seq_consuming
    (hws.seq_consuming hname rfl) rfl

/-- An interface takes the white space behind it, if its last action does not look at that. -/
theorem interface_rematches
    (hact : ∀ text text' s, apply .interfaceEnd text s = apply .interfaceEnd text' s) :
    Rematches apply (List.dropWhile isWs) interface := by
  have hend : Rematches apply (List.dropWhile isWs) interfaceEnd :=
    .act hact (.seq_consuming (star_local _) (.seq_unrelated .one .star_one) rfl)
  have hclose : ∀ m l tail s t, interfaceEnd.run apply (m ++ l) s = .matched l t →
      AtClose (m ++ l) (m ++ tail) := by
    intro m l tail s t h
    obtain ⟨u, hrun, -⟩ := exists_of_act h
    rw [pad, Rule.run_seq, ws, run_star_one, Result.next] at hrun
    obtain ⟨blanks, d, body, rfl, hws, -, hbrace⟩ := exists_of_padded rfl hrun
    obtain ⟨c, hc, hd⟩ := startsWith_of_seq (fun _ _ => startsWith_of_one) hbrace
    obtain rfl : d = c := Option.some.inj hc
    obtain rfl := of_decide_eq_true hd
    exact ⟨blanks, body ++ l, body ++ tail, hws, by simp, by simp⟩
  exact .seq_unrelated interfaceStart_local (.seq content_local hend hclose)

/-- An interface starts behind its white space. -/
theorem interface_append {blanks : List Char} (h : ∀ c ∈ blanks, isWs c = true)
    (input : List Char) (s : σ) :
    interface.run apply (blanks ++ input) s = interface.run apply input s := by
  rw [interface, Rule.run_seq, Rule.run_seq, interfaceStart, Rule.run_seq, Rule.run_seq, run_padl,
    run_padl, dropWhile_append h]

/-- The text of the start of an interface. -/
theorem exists_of_interfaceStart (h : interfaceStart.run apply (text ++ rest) s = .matched rest t) :
    ∃ blanks body, text = blanks ++ 'i' :: body ∧ ∀ c ∈ blanks, isWs c = true := by
  rw [interfaceStart, Rule.run_seq, run_padl, ← Rule.run_seq] at h
  obtain ⟨blanks, d, body, rfl, hws, -, hrun⟩ := exists_of_padded rfl h
  obtain ⟨c, hc, hd⟩ := startsWith_of_seq (fun _ _ hkeyword => startsWith_of_seq (fun _ _ hsign =>
    startsWith_of_seq (fun _ _ => startsWith_of_one) hsign) hkeyword) hrun
  obtain rfl : d = c := Option.some.inj hc
  obtain rfl := of_decide_eq_true hd
  exact ⟨blanks, body, rfl, hws⟩

/-- An interface takes the same text again, and the white space behind it. -/
theorem interface_leaves
    (hact : ∀ text text' s, apply .interfaceEnd text s = apply .interfaceEnd text' s)
    (h : interface.run apply (text ++ rest) s = .matched rest t) :
    (∃ blanks body, text = blanks ++ 'i' :: body ∧ ∀ c ∈ blanks, isWs c = true) ∧
      rest.dropWhile isWs = rest ∧
        ∀ tail, interface.run apply (text ++ tail) s = .matched (tail.dropWhile isWs) t := by
  have htail := interface_rematches hact text rest s t h
  have hself : Result.matched (rest.dropWhile isWs) t = .matched rest t := (htail rest).symm.trans h
  injection hself with hself
  obtain ⟨mid, u, hstart, hcontent⟩ := exists_of_seq h
  obtain ⟨start, content, rfl, rfl⟩ :=
    exists_parts (Rule.run_split _ hstart) (Rule.run_split _ hcontent)
  rw [List.append_assoc] at hstart
  obtain ⟨blanks, body, rfl, hws⟩ := exists_of_interfaceStart hstart
  exact ⟨⟨blanks, body ++ content, by simp, hws⟩, hself, htail⟩

end Interfaces

/-! ## Items -/

section Items

variable {σ ε : Type} {apply : Action → List Char → σ → Except ε σ} {input rest text : List Char}
  {s t : σ} {p : Char → Bool}

theorem stops_of_not_startsWith (h : ¬StartsWith p input) : Stops p input := fun c hc =>
  Bool.eq_false_iff.mpr fun hp => h ⟨c, hc, hp⟩

theorem run_topLevel_emptyLine (h : afterEmptyLine input = some rest) :
    topLevel.run apply input s = .matched rest s := by
  rw [topLevel, Rule.run_sor, run_emptyLine, h]
  rfl

/-- An include starts with its sign, and the other items do not. -/
theorem run_topLevel_include (h : StartsWith (· = '#') input) :
    topLevel.run apply input s = .matched rest t ↔
      «include».run apply input s = .matched rest t := by
  have hline : afterEmptyLine input = none := by
    obtain ⟨c, hc, hsign⟩ := h
    obtain rfl := of_decide_eq_true hsign
    obtain ⟨l, rfl⟩ := List.head?_eq_some_iff.mp hc
    exact afterEmptyLine_cons (by decide) l
  rw [topLevel, Rule.run_sor, run_emptyLine, hline, outcome, Result.next, Rule.run_sor,
    Result.next_eq_matched]
  constructor
  · rintro (⟨mid, u, hrun, hend⟩ | ⟨u, -, hrest⟩)
    · cases hend
      exact hrun
    · have hfails : (Rule.sor comment interface).run apply input u = .noMatch u :=
        fails_of_startsWith_hash h u
      rw [hfails] at hrest
      cases hrest
  · exact fun hrun => .inl ⟨rest, t, hrun, rfl⟩

theorem run_topLevel_of_stops (h : afterEmptyLine input = none) (hsign : Stops (· = '#') input) :
    topLevel.run apply input s = (Rule.sor comment interface).run apply input s := by
  have hfails : «include».run apply input s = .noMatch s := Fails.seq (fails_str hsign)
  rw [topLevel, Rule.run_sor, run_emptyLine, h, outcome, Result.next, Rule.run_sor, hfails,
    Result.next]

theorem run_topLevel_comment (h : afterEmptyLine input = none) (hsign : Stops (· = '#') input)
    (h' : afterComment input = some rest) : topLevel.run apply input s = .matched rest s := by
  rw [run_topLevel_of_stops h hsign, Rule.run_sor, run_comment, h']
  rfl

theorem run_topLevel_interface (h : afterEmptyLine input = none) (hsign : Stops (· = '#') input)
    (h' : afterComment input = none) :
    topLevel.run apply input s = interface.run apply input s := by
  rw [run_topLevel_of_stops h hsign, Rule.run_sor, run_comment, h']
  rfl

/-- An item takes the same text again, and leaves of what is behind it what its ending says. -/
theorem topLevel_leaves
    (hact : ∀ text text' s, apply .interfaceEnd text s = apply .interfaceEnd text' s)
    (h : topLevel.run apply (text ++ rest) s = .matched rest t) :
    (endingOf text).leaves rest = rest ∧
      ∀ tail, topLevel.run apply (text ++ tail) s = .matched ((endingOf text).leaves tail) t := by
  have hhead : ∀ tail, SameHead (text ++ rest) (text ++ tail) :=
    sameHead_append (ne_nil_of_consuming rfl h) rest
  -- only an include starts with its sign
  by_cases hhash : StartsWith (· = '#') (text ++ rest)
  · rw [run_topLevel_include hhash] at h
    obtain ⟨hleaves, htail⟩ := include_leaves h
    exact ⟨hleaves, fun tail =>
      (run_topLevel_include (hhash.of_sameHead (hhead tail))).mpr (htail tail)⟩
  have hsign : ∀ tail, Stops (· = '#') (text ++ tail) := fun tail =>
    (stops_iff_of_sameHead (hhead tail)).mp (stops_of_not_startsWith hhash)
  cases hline : afterEmptyLine (text ++ rest) with
  | some rest' =>
      rw [run_topLevel_emptyLine hline] at h
      cases h
      obtain ⟨hending, htail⟩ := afterEmptyLine_leaves hline
      rw [hending]
      exact ⟨rfl, fun tail => run_topLevel_emptyLine (htail tail)⟩
  | none =>
      cases hcomment : afterComment (text ++ rest) with
      | some rest' =>
          rw [run_topLevel_comment hline (hsign rest) hcomment] at h
          cases h
          obtain ⟨⟨blanks, body, rfl, hws⟩, hleaves, htail⟩ := afterComment_leaves hcomment
          refine ⟨hleaves, fun tail => run_topLevel_comment ?_ (hsign tail) (htail tail)⟩
          rw [List.append_assoc] at hline ⊢
          exact afterEmptyLine_eq_none hws (by decide) hline _
      | none =>
          rw [run_topLevel_interface hline (hsign rest) hcomment] at h
          obtain ⟨⟨blanks, body, rfl, hws⟩, hself, htail⟩ := interface_leaves hact h
          rw [endingOf_append hws (by decide)]
          refine ⟨hself, fun tail => ?_⟩
          -- the other alternatives fail at the keyword, as they did before
          have hline' : afterEmptyLine (blanks ++ 'i' :: body ++ tail) = none := by
            rw [List.append_assoc] at hline ⊢
            exact afterEmptyLine_eq_none hws (by decide) hline _
          have hcomment' : afterComment (blanks ++ 'i' :: body ++ tail) = none := by
            rw [List.append_assoc]
            exact afterComment_eq_none hws (by decide) (by decide)
          rw [run_topLevel_interface hline' (hsign tail) hcomment']
          exact htail tail

/-- An item in front of the same character takes the same text. -/
theorem topLevel_local
    (hact : ∀ text text' s, apply .interfaceEnd text s = apply .interfaceEnd text' s) :
    Local apply SameHead topLevel := by
  intro text rest rest' s t hhead h
  obtain ⟨hrest, htail⟩ := topLevel_leaves hact h
  have hrest' : (endingOf text).leaves rest' = rest' := by
    cases hending : endingOf text with
    | closed => rfl
    | padded =>
        rw [hending] at hrest
        have hstops : Stops isWs rest := hrest ▸ stops_dropWhile isWs rest
        exact dropWhile_of_stops ((stops_iff_of_sameHead hhead).mp hstops)
    | unterminated =>
        rw [hending] at hrest
        obtain rfl := leaves_unterminated hrest
        obtain rfl : rest' = [] := List.head?_eq_none_iff.mp (Eq.symm hhead)
        rfl
  rw [htail, hrest']

end Items

end Grammar

end KushOs.Idl
