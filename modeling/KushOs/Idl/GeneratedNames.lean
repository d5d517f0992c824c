import KushOs.Idl.Declarations

/-!
# Generated names

The names that the code generator derives from the methods of an interface: enumerators, message
structures, and the methods of the two stubs. All of them start from the name of a method with its
first letter in upper case, which the builder does not look at when it keeps names apart. The
members of a message structure have the names of the arguments, which it does not compare at all.

## Main definitions

* `Interface.NamesDistinct`: the generated names do not collide.
* `Signature`, `signatures`: the names that a text declares, read off by actions that take notes.
* `SignaturesApart`: a condition on what a text declares.

## Main results

* `parse_signatures`: the methods of an accepted text have the declared signatures.
* `generatedNames_distinct_iff`: when the names that are generated for an accepted text are
  distinct.
* `generatedNames_collide`: an accepted text for which they are not.
-/

namespace KushOs.Idl

open Peg Grammar

/-! ## The names that are generated -/

/-- `CodeGenerator::SerGetMessageIdEnumName` -/
def serGetMessageIdEnumName (m : Method) (fullyQualified : Bool) : String :=
  (if fullyQualified then "internals::Type::" else "") ++ m.methodName

/-- `CodeGenerator::SerGetMessageStructName` -/
def serGetMessageStructName (m : Method) (isResponse : Bool) : String :=
  m.methodName ++ if isResponse then "Response" else "Request"

namespace Method

/-- The structures that `serWriteMethod` writes. -/
def structNames (m : Method) : List String :=
  serGetMessageStructName m false :: if m.async then [] else [serGetMessageStructName m true]

/-- The method of the server that decodes a request. -/
def marshallName (m : Method) : String := "_marshall" ++ m.methodName

/-- The method of the server that is left to be implemented. -/
def implName (m : Method) : String := "impl" ++ m.methodName

end Method

/-- The names of the members of a message structure. -/
def MessageStruct.fieldNames (x : MessageStruct) : List String :=
  x.elements.map fun e => e.argument.name

/-- No two declarations of one scope that are generated for an interface have the same name. -/
structure Interface.NamesDistinct (i : Interface) : Prop where
  enumerators : (i.methods.map (serGetMessageIdEnumName · false)).Nodup
  structs : (i.methods.flatMap Method.structNames).Nodup
  server : (i.methods.map Method.marshallName ++ i.methods.map Method.implName).Nodup
  client : (i.methods.map Method.methodName).Nodup
  requests : ∀ m ∈ i.methods, m.request.fieldNames.Nodup
  responses : ∀ m ∈ i.methods, m.async = false → m.reply.fieldNames.Nodup

section Names

variable {m m' : Method} {isResponse isResponse' : Bool}

/-- The letter that the name of a structure ends in. -/
theorem getLast?_serGetMessageStructName (m : Method) (isResponse : Bool) :
    (serGetMessageStructName m isResponse).toList.getLast? =
      some (if isResponse then 'e' else 't') := by
  rw [serGetMessageStructName, String.toList_append, List.getLast?_append]
  cases isResponse <;> rfl

/-- The name of a message structure tells its method and its direction. -/
theorem serGetMessageStructName_inj :
    serGetMessageStructName m isResponse = serGetMessageStructName m' isResponse' ↔
      m.methodName = m'.methodName ∧ isResponse = isResponse' := by
  refine ⟨fun h => ?_, fun h => ?_⟩
  · -- the two suffixes end in different letters
    have hsuffix : isResponse = isResponse' := by
      have hlast := congrArg (fun name => name.toList.getLast?) h
      rw [getLast?_serGetMessageStructName, getLast?_serGetMessageStructName] at hlast
      revert hlast
      cases isResponse <;> cases isResponse' <;> decide
    subst hsuffix
    have hlist := congrArg String.toList h
    simp only [serGetMessageStructName, String.toList_append] at hlist
    exact ⟨String.toList_inj.mp (List.append_cancel_right hlist), rfl⟩
  · rw [serGetMessageStructName, serGetMessageStructName, h.1, h.2]

/-- Behind a text of its own, a name stays what it is. -/
theorem append_injective (text : String) : Function.Injective (text ++ ·) := by
  intro a b h
  have hlist := congrArg String.toList h
  simp only [String.toList_append] at hlist
  exact String.toList_inj.mp (List.append_cancel_left hlist)

/-- The two structures of a method have distinct names. -/
theorem structNames_nodup : m.structNames.Nodup := by
  unfold Method.structNames
  split
  · exact List.nodup_singleton _
  · rw [List.nodup_cons, List.mem_singleton, serGetMessageStructName_inj]
    exact ⟨fun h => Bool.noConfusion h.2, List.nodup_singleton _⟩

/-- Every name of a structure comes from a method and a direction. -/
theorem mem_structNames {name : String} (h : name ∈ m.structNames) :
    ∃ isResponse, name = serGetMessageStructName m isResponse := by
  unfold Method.structNames at h
  rcases List.mem_cons.mp h with rfl | h
  · exact ⟨false, rfl⟩
  · split at h
    · cases h
    · exact ⟨true, List.mem_singleton.mp h⟩

/-- Two methods share a structure exactly when they share the name that all are made of. -/
theorem structNames_disjoint :
    m.structNames.Disjoint m'.structNames ↔ m.methodName ≠ m'.methodName := by
  constructor
  · intro h heq
    have hname : serGetMessageStructName m false = serGetMessageStructName m' false :=
      serGetMessageStructName_inj.mpr ⟨heq, rfl⟩
    exact h List.mem_cons_self (hname ▸ List.mem_cons_self)
  · intro hne name hm hm'
    obtain ⟨isResponse, rfl⟩ := mem_structNames hm
    obtain ⟨isResponse', heq⟩ := mem_structNames hm'
    exact hne (serGetMessageStructName_inj.mp heq).1

end Names

/-! ## Letters in upper case -/

/-- A letter, and the same letter in upper case. -/
def UpperCase (c d : Char) : Prop := c.isLower = true ∧ d = c.toUpper

/-- Two names that differ only in the case of their first letter. -/
def CaseVariants (a b : String) : Prop :=
  match a.toList, b.toList with
  | c :: rest, d :: rest' => (UpperCase c d ∨ UpperCase d c) ∧ rest = rest'
  | _, _ => False

instance (c d : Char) : Decidable (UpperCase c d) :=
  inferInstanceAs (Decidable (c.isLower = true ∧ d = c.toUpper))

instance (a b : String) : Decidable (CaseVariants a b) :=
  match h : a.toList, h' : b.toList with
  | c :: rest, d :: rest' =>
      decidable_of_iff ((UpperCase c d ∨ UpperCase d c) ∧ rest = rest')
        (by rw [CaseVariants, h, h'])
  | [], _ => .isFalse (by rw [CaseVariants, h]; exact id)
  | _ :: _, [] => .isFalse (by rw [CaseVariants, h, h']; exact id)

section Case

variable {c d : Char} {a b : String}

/-- The lower case letters are those from `a` to `z`. -/
theorem isLower_iff : c.isLower = true ↔ 'a'.val ≤ c.val ∧ c.val ≤ 'z'.val := by
  show (decide ('a'.val ≤ c.val) && decide (c.val ≤ 'z'.val)) = true ↔ _
  rw [Bool.and_eq_true, decide_eq_true_eq, decide_eq_true_eq]

/-- The case of a lower case letter is changed by a fixed distance. -/
theorem toUpper_of_isLower (hc : c.isLower = true) :
    c.toUpper.val = c.val + ('A'.val - 'a'.val) := by
  delta Char.toUpper
  rw [dif_pos (isLower_iff.mp hc)]

/-- Other characters stay as they are. -/
theorem toUpper_of_not_isLower (hc : c.isLower = false) : c.toUpper = c := by
  delta Char.toUpper
  rw [dif_neg]
  intro hrange
  rw [isLower_iff.mpr hrange] at hc
  cases hc

/-- A letter in upper case is no letter in lower case. -/
theorem isLower_toUpper (c : Char) : c.toUpper.isLower = false := by
  cases hc : c.isLower with
  | false => rw [toUpper_of_not_isLower hc, hc]
  | true =>
      have hval := congrArg UInt32.toNat (toUpper_of_isLower hc)
      rw [isLower_iff, UInt32.le_iff_toNat_le, UInt32.le_iff_toNat_le] at hc
      -- 32 below a letter from 97 to 122
      have hlt : c.toUpper.val.toNat < 'a'.val.toNat := by
        rw [hval, UInt32.toNat_add]
        simp only [UInt32.reduceToNat, Char.reduceVal, UInt32.reduceSub] at hc ⊢
        omega
      rw [Bool.eq_false_iff, Ne, isLower_iff, UInt32.le_iff_toNat_le]
      exact fun hrange => absurd hrange.1 (Nat.not_le.mpr hlt)

/-- Two letters are the same in upper case when they are the same, or one is the other one in upper
case. -/
theorem toUpper_eq_iff : c.toUpper = d.toUpper ↔ c = d ∨ UpperCase c d ∨ UpperCase d c := by
  constructor
  · intro h
    cases hc : c.isLower with
    | false =>
        rw [toUpper_of_not_isLower hc] at h
        cases hd : d.isLower with
        | false => exact .inl (h.trans (toUpper_of_not_isLower hd))
        | true => exact .inr (.inr ⟨hd, h⟩)
    | true =>
        cases hd : d.isLower with
        | false => exact .inr (.inl ⟨hc, (toUpper_of_not_isLower hd).symm.trans h.symm⟩)
        | true =>
            have hval := congrArg Char.val h
            rw [toUpper_of_isLower hc, toUpper_of_isLower hd, UInt32.add_left_inj] at hval
            exact .inl (Char.ext hval)
  · rintro (rfl | ⟨-, rfl⟩ | ⟨-, rfl⟩)
    · rfl
    · exact (toUpper_of_not_isLower (isLower_toUpper c)).symm
    · exact toUpper_of_not_isLower (isLower_toUpper d)

/-- Capitalizing changes the first character. -/
theorem toList_capitalize (s : String) :
    s.capitalize.toList = s.toList.modifyHead Char.toUpper := by
  rw [String.capitalize]
  delta String.Pos.Raw.set String.Pos.Raw.get
  rw [String.toList_ofList]
  cases s.toList with
  | nil => rfl
  | cons c rest => rfl

/-- Different names have the same generated name when only the case of their first letter
differs. -/
theorem capitalize_eq_iff (hne : a ≠ b) : a.capitalize = b.capitalize ↔ CaseVariants a b := by
  rw [← String.toList_inj, toList_capitalize, toList_capitalize, CaseVariants]
  have hlist : a.toList ≠ b.toList := fun h => hne (String.toList_inj.mp h)
  cases ha : a.toList with
  | nil =>
      rw [ha] at hlist
      cases hb : b.toList with
      | nil => exact absurd hb.symm hlist
      | cons d rest' => simp
  | cons c rest =>
      rw [ha] at hlist
      cases hb : b.toList with
      | nil => simp
      | cons d rest' =>
          rw [hb] at hlist
          rw [List.modifyHead_cons, List.modifyHead_cons, List.cons.injEq, toUpper_eq_iff]
          refine and_congr_left fun hrest => or_iff_right ?_
          rintro rfl
          exact hlist (hrest ▸ rfl)

end Case

/-! ## Signatures -/

/-- The names in the declaration of a method. -/
structure Signature where
  name : String
  async : Bool
  params : List String
  returns : List String
  deriving DecidableEq, Repr

/-- The names of a method and of its arguments. -/
def Method.signature (m : Method) : Signature where
  name := m.name
  async := m.async
  params := m.params.map Argument.name
  returns := m.returns.map Argument.name

/-- Add the name of an argument to the list that the context is for. -/
def Signature.addArg (s : Signature) (name : String) : ArgContext → Signature
  | .parameter => { s with params := s.params ++ [name] }
  | .ret => { s with returns := s.returns ++ [name] }
  | .none => s

/-- Notes on the signatures in a text. -/
structure SignatureNotes where
  context : ArgContext := .none
  argName : String := ""
  current : Signature := ⟨"", false, [], []⟩
  methods : List Signature := []
  interfaces : List (List Signature) := []

/-- What is noted for the text of a rule. -/
def SignatureNotes.act (n : SignatureNotes) (string : String) : Action → SignatureNotes
  | .interfaceName => { n with methods := [] }
  | .interfaceEnd => { n with interfaces := n.interfaces ++ [n.methods] }
  | .methodName => { n with current := ⟨string, false, [], []⟩ }
  | .methodEnd => { n with methods := n.methods ++ [n.current] }
  | .methodAsyncReturnMarker => { n with current := { n.current with async := true } }
  | .methodSyncReturnMarker => { n with current := { n.current with async := false } }
  | .methodArgsOpen => { n with context := .parameter }
  | .methodReturnOpen => { n with context := .ret }
  | .methodArgsClose => { n with context := .none }
  | .methodReturnClose => { n with context := .none }
  | .methodArgName => { n with argName := string }
  | .methodArgEnd => { n with current := n.current.addArg n.argName n.context, argName := "" }
  | _ => n

/-- The actions, on characters. They never fail. -/
def SignatureNotes.apply (a : Action) (text : List Char) (n : SignatureNotes) :
    Except Empty SignatureNotes :=
  .ok (n.act (String.ofList text) a)

/-- The signatures of the methods that the interfaces of a text declare. -/
def signatures (text : List Char) : List (List Signature) :=
  match Grammar.grammar.run SignatureNotes.apply text {} with
  | .matched _ n => n.interfaces
  | _ => []

/-- The notes agree with the state of the builder. -/
structure SignaturesNoted (b : Builder) (n : SignatureNotes) : Prop where
  context : n.context = b.argContext
  argName : n.argName = b.nextArgName
  method : ∀ m ∈ b.currentMethod, m.signature = n.current
  current : ∀ i ∈ b.current, i.methods.map Method.signature = n.methods
  interfaces : (b.allIds.map fun i => i.methods.map Method.signature) = n.interfaces

section Noted

variable {b b' : Builder} {n : SignatureNotes}

/-- Nothing is noted before the first action. -/
theorem SignaturesNoted.initial (filename : String) : SignaturesNoted { filename } {} where
  context := rfl
  argName := rfl
  method := by simp
  current := by simp
  interfaces := rfl

/-- Whether the method is asynchronous is noted. -/
theorem SignaturesNoted.setMethodAsync (h : SignaturesNoted b n) {isAsync : Bool}
    (hb : b.setMethodAsync isAsync = .ok b') :
    SignaturesNoted b' { n with current := { n.current with async := isAsync } } := by
  obtain ⟨method, hmethod, rfl⟩ := Builder.setMethodAsync_eq_ok.mp hb
  refine { h with method := ?_ }
  rintro m ⟨⟩
  rw [← h.method method hmethod]
  rfl

/-- The method that has been read is noted when it ends. -/
theorem SignaturesNoted.endMethod (h : SignaturesNoted b n) (hb : b.endMethod = .ok b') :
    SignaturesNoted b' { n with methods := n.methods ++ [n.current] } := by
  obtain ⟨current, method, identifier, hcurrent, hmethod, -, rfl⟩ := Builder.endMethod_eq_ok.mp hb
  refine { h with method := by simp, current := ?_ }
  rintro i ⟨⟩
  rw [List.map_append, h.current current hcurrent, ← h.method method hmethod]
  rfl

/-- The kind of the list of arguments is noted. -/
theorem SignaturesNoted.beginArgs (h : SignaturesNoted b n) {context : ArgContext}
    (hb : b.beginArgs context = .ok b') : SignaturesNoted b' { n with context } := by
  obtain ⟨-, -, -, rfl⟩ := Builder.beginArgs_eq_ok.mp hb
  exact { h with context := rfl }

/-- The end of the list is noted. -/
theorem SignaturesNoted.endArgs (h : SignaturesNoted b n) {context : ArgContext}
    (hb : b.endArgs context = .ok b') : SignaturesNoted b' { n with context := .none } := by
  obtain ⟨-, -, -, rfl⟩ := Builder.endArgs_eq_ok.mp hb
  exact { h with context := rfl }

/-- The signature of a method with one more argument has one more name. -/
theorem signature_addArg (arg : Argument) (m : Method) (context : ArgContext) :
    (Builder.addArg arg m context).signature = m.signature.addArg arg.name context := by
  cases context with
  | none => rfl
  | parameter => simp [Builder.addArg, Signature.addArg, Method.signature]
  | ret => simp [Builder.addArg, Signature.addArg, Method.signature]

/-- The name of an argument is noted. -/
theorem SignaturesNoted.pushNextArg (h : SignaturesNoted b n) {text : String}
    (hb : b.pushNextArg = .ok b') : SignaturesNoted b' (n.act text .methodArgEnd) := by
  obtain ⟨method, current, hmethod, -, -, -, hcount, rfl⟩ := Builder.pushNextArg_eq_ok.mp hb
  refine { h with argName := rfl, method := ?_, current := ?_ }
  · rintro m ⟨⟩
    show _ = n.current.addArg n.argName n.context
    rw [signature_addArg, h.method method hmethod, h.argName, h.context]
    rfl
  · -- the interface changes in its count only
    intro i hi
    obtain ⟨i', hi', hmethods⟩ := countType_methods hcount i hi
    rw [hmethods]
    exact h.current i' hi'

/-- An action that the builder accepts keeps the notes in step with it. -/
theorem SignaturesNoted.act (h : SignaturesNoted b n) {a : Action} {text : String}
    (hb : b.act text a = .ok b') : SignaturesNoted b' (n.act text a) := by
  cases a with
  | interfaceName =>
      obtain ⟨-, rfl⟩ := Builder.beginInterface_eq_ok.mp hb
      refine { h with current := ?_ }
      rintro i ⟨⟩
      rfl
  | interfaceEnd =>
      obtain ⟨current, hcurrent, rfl⟩ := Builder.endInterface_eq_ok.mp hb
      refine { h with current := by simp, interfaces := ?_ }
      rw [List.map_append, h.interfaces, List.map_singleton, h.current current hcurrent]
      rfl
  | methodName =>
      -- a new method has no arguments yet
      obtain ⟨-, -, -, -, -, rfl⟩ := Builder.beginMethod_eq_ok.mp hb
      refine { h with method := ?_ }
      rintro m ⟨⟩
      rfl
  | methodEnd => exact h.endMethod hb
  | methodAsyncReturnMarker => exact h.setMethodAsync hb
  | methodSyncReturnMarker => exact h.setMethodAsync hb
  | methodArgsOpen => exact h.beginArgs hb
  | methodArgsClose => exact h.endArgs hb
  | methodReturnOpen => exact h.beginArgs hb
  | methodReturnClose => exact h.endArgs hb
  | methodArgEnd => exact h.pushNextArg hb
  | decoratorClose =>
      obtain ⟨-, -, -, rfl⟩ := Builder.pushNextDecorator_eq_ok.mp hb
      exact { h with }
  | methodArgName =>
      cases hb
      exact { h with argName := rfl }
  | methodArgType =>
      cases hb
      exact { h with }
  | decoratorKey =>
      cases hb
      exact { h with }
  | decoratorValue =>
      cases hb
      exact { h with }
  | includePath =>
      cases hb
      exact { h with }

end Noted

/-- The methods of an accepted text have the signatures that it declares. -/
theorem parse_signatures {filename : String} {text : List Char}
    {interfaces : List InterfaceDescription} (h : parse filename text = .ok interfaces) :
    signatures text = interfaces.map fun i => i.methods.map Method.signature := by
  have hact : ∀ a text b b' n, SignaturesNoted b n → Builder.apply a text b = .ok b' →
      ∃ n', SignatureNotes.apply a text n = .ok n' ∧ SignaturesNoted b' n' :=
    fun a text b b' n hn hb => ⟨_, rfl, hn.act hb⟩
  obtain ⟨rest, b, n, hrun, hn, rfl⟩ := parse_simulated hact (SignaturesNoted.initial filename) h
  rw [signatures, hrun, Builder.finalize, List.map_map]
  exact hn.interfaces.symm

/-! ## When the names are distinct -/

/-- No two methods of an interface have names that differ only in the case of the first letter, and
no list of arguments has a name twice. -/
structure SignaturesApart (sigs : List Signature) : Prop where
  names : sigs.Pairwise fun s t => ¬CaseVariants s.name t.name
  params : ∀ s ∈ sigs, s.params.Nodup
  returns : ∀ s ∈ sigs, s.async = false → s.returns.Nodup

section Distinct

variable {i : Interface}

/-- The members of a structure are named after the arguments. -/
theorem fieldNames_serWriteArgs (args : List Argument) :
    (serWriteArgs args).fieldNames = args.map Argument.name := by
  have hmap : (serWriteArgs args).fieldNames =
      ((serWriteArgs args).elements.map Element.argument).map Argument.name := by
    rw [List.map_map]
    rfl
  rw [hmap, serWriteArgs_argument]

/-- Methods of distinct names have distinct generated names exactly when no two names differ only in
the case of the first letter. -/
theorem methodNames_nodup_iff (hnames : (i.methods.map Method.name).Nodup) :
    (i.methods.map Method.methodName).Nodup ↔
      (i.methods.map Method.signature).Pairwise fun s t => ¬CaseVariants s.name t.name := by
  rw [List.Nodup, List.pairwise_map] at hnames ⊢
  rw [List.pairwise_map]
  constructor
  · intro h
    exact (hnames.and h).imp fun ⟨hne, hgenerated⟩ hcase =>
      hgenerated ((capitalize_eq_iff hne).mpr hcase)
  · intro h
    exact (hnames.and h).imp fun ⟨hne, hcase⟩ hgenerated =>
      hcase ((capitalize_eq_iff hne).mp hgenerated)

/-- The enumerators are the generated names. -/
theorem enumerators_nodup_iff :
    (i.methods.map (serGetMessageIdEnumName · false)).Nodup ↔
      (i.methods.map Method.methodName).Nodup := by
  have henum : (serGetMessageIdEnumName · false) = Method.methodName := by
    ext m : 1
    exact String.empty_append
  rw [henum]

/-- The structures have distinct names if the methods have distinct generated names. -/
theorem structs_nodup_iff :
    (i.methods.flatMap Method.structNames).Nodup ↔ (i.methods.map Method.methodName).Nodup := by
  rw [List.nodup_flatMap, List.Nodup, List.pairwise_map]
  constructor
  · exact fun h => h.2.imp fun hdisjoint => structNames_disjoint.mp hdisjoint
  · exact fun h => ⟨fun m _ => structNames_nodup, h.imp fun hne => structNames_disjoint.mpr hne⟩

/-- The two kinds of methods of the server start with different characters. -/
theorem server_nodup_iff :
    (i.methods.map Method.marshallName ++ i.methods.map Method.implName).Nodup ↔
      (i.methods.map Method.methodName).Nodup := by
  have hmarshall : i.methods.map Method.marshallName =
      (i.methods.map Method.methodName).map ("_marshall" ++ ·) := by
    rw [List.map_map]
    rfl
  have himpl : i.methods.map Method.implName =
      (i.methods.map Method.methodName).map ("impl" ++ ·) := by
    rw [List.map_map]
    rfl
  have hdisjoint : ∀ a ∈ i.methods.map Method.marshallName,
      ∀ b ∈ i.methods.map Method.implName, a ≠ b := by
    intro a ha b hb heq
    obtain ⟨m, -, rfl⟩ := List.mem_map.mp ha
    obtain ⟨m', -, rfl⟩ := List.mem_map.mp hb
    have hhead := congrArg (fun name => name.toList.head?) heq
    simp [Method.marshallName, Method.implName] at hhead
  rw [List.nodup_append, hmarshall, himpl, List.nodup_map_iff (append_injective _),
    List.nodup_map_iff (append_injective _), ← hmarshall, ← himpl]
  exact ⟨fun h => h.1, fun h => ⟨h, h, hdisjoint⟩⟩

/-- The members of the messages have distinct names when the arguments in each list do. -/
theorem fieldNames_nodup_iff :
    ((∀ m ∈ i.methods, m.request.fieldNames.Nodup) ∧
        ∀ m ∈ i.methods, m.async = false → m.reply.fieldNames.Nodup) ↔
      (∀ s ∈ i.methods.map Method.signature, s.params.Nodup) ∧
        ∀ s ∈ i.methods.map Method.signature, s.async = false → s.returns.Nodup := by
  rw [List.forall_mem_map, List.forall_mem_map]
  refine and_congr (forall₂_congr fun m _ => ?_) (forall₂_congr fun m _ => ?_)
  · rw [Method.request, fieldNames_serWriteArgs]
    rfl
  · refine imp_congr_right fun hasync => ?_
    rw [Method.reply, Method.results, hasync, if_neg Bool.false_ne_true, fieldNames_serWriteArgs]
    rfl

/-- The generated names are distinct if the signatures are apart. -/
theorem namesDistinct_iff (hnames : (i.methods.map Method.name).Nodup) :
    i.NamesDistinct ↔ SignaturesApart (i.methods.map Method.signature) := by
  have hmethods := methodNames_nodup_iff hnames
  constructor
  · intro h
    obtain ⟨hparams, hreturns⟩ := fieldNames_nodup_iff.mp ⟨h.requests, h.responses⟩
    exact ⟨hmethods.mp h.client, hparams, hreturns⟩
  · intro h
    have hclient := hmethods.mpr h.names
    obtain ⟨hrequests, hresponses⟩ := fieldNames_nodup_iff.mpr ⟨h.params, h.returns⟩
    exact ⟨enumerators_nodup_iff.mpr hclient, structs_nodup_iff.mpr hclient,
      server_nodup_iff.mpr hclient, hclient, hrequests, hresponses⟩

end Distinct

/-- For every accepted text, interface by interface: the generated names are distinct exactly when
no two methods have names that differ only in the case of the first letter, and no list of
parameters or of return values has a name twice. -/
theorem generatedNames_distinct_iff {filename : String} {text : List Char}
    {interfaces : List InterfaceDescription} (h : parse filename text = .ok interfaces) :
    List.Forall₂ (fun i sigs => i.toInterface.NamesDistinct ↔ SignaturesApart sigs) interfaces
      (signatures text) := by
  rw [parse_signatures h, List.forall₂_map_right_iff, List.forall₂_same]
  intro i hi
  -- the builder has kept the names themselves apart
  obtain ⟨ds, -, hdescribed⟩ : ∃ ds ∈ declarations text, Described i.methods ds := by
    obtain ⟨k, hk, rfl⟩ := List.getElem_of_mem hi
    have hall := parse_declarations h
    have hk' : k < (declarations text).length := hall.length_eq ▸ hk
    exact ⟨_, List.getElem_mem hk', hall.get hk hk'⟩
  exact namesDistinct_iff hdescribed.names_nodup

section Poke

/-- Two methods with one letter of difference that is not the first one, and arguments. -/
def pokeText : String :=
  "interface Hello \x7b\n    poke(a: Bool, b: String) => (a: Bool)\n    pokE(a: Bool) =|\n\x7d\n"

/-- The description of their interface. -/
def pokeDescription : InterfaceDescription :=
  { InterfaceDescription.new "Hello" "hello.idl" with
    methods :=
      [⟨"poke", false, nameHash "poke", [.bool "a", .string "b"], [.bool "a"]⟩,
        ⟨"pokE", true, nameHash "pokE", [.bool "a"], []⟩] }

/-- Their generated names do not collide. -/
theorem generatedNames_distinct_poke :
    parse "hello.idl" pokeText.toList = .ok [pokeDescription] ∧
      pokeDescription.toInterface.NamesDistinct := by
  have hparse : parse "hello.idl" pokeText.toList = .ok [pokeDescription] := by decide +kernel
  have hsigs : signatures pokeText.toList =
      [[⟨"poke", false, ["a", "b"], ["a"]⟩, ⟨"pokE", true, ["a"], []⟩]] := by decide +kernel
  have hall := generatedNames_distinct_iff hparse
  rw [hsigs, List.forall₂_cons] at hall
  exact ⟨hparse, hall.1.mpr ⟨by decide +kernel, by decide +kernel, by decide +kernel⟩⟩

/-- Two methods whose names differ in the case of the first letter, one of which has two parameters
of the same name. -/
def collidingText : String :=
  "interface Hello \x7b\n    poke(a: Bool, a: Bool) =|\n    Poke() =|\n\x7d\n"

/-- The description of their interface. -/
def collidingDescription : InterfaceDescription :=
  { InterfaceDescription.new "Hello" "hello.idl" with
    methods :=
      [⟨"poke", true, nameHash "poke", [.bool "a", .bool "a"], []⟩,
        ⟨"Poke", true, nameHash "Poke", [], []⟩] }

/-- The file is accepted, and everything that is generated for its two methods has the name `Poke`;
the request of the first one has two members of the name `a`. -/
theorem generatedNames_collide :
    parse "hello.idl" collidingText.toList = .ok [collidingDescription] ∧
      ¬collidingDescription.toInterface.NamesDistinct ∧
      collidingDescription.toInterface.methods.map Method.methodName = ["Poke", "Poke"] ∧
      collidingDescription.toInterface.methods.map (fun m => m.request.fieldNames) =
        [["a", "a"], []] := by
  refine ⟨by decide +kernel, fun h => ?_, by decide +kernel, by decide +kernel⟩
  exact absurd h.client (by decide +kernel)

end Poke

end KushOs.Idl
